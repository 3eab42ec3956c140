import LocalFlow.Proofs.Graph.Layout
import LocalFlow.Proofs.Graph.Path
import LocalFlow.Proofs.Machine.Application

/-! Points along the paths of a graph: which items a path from the first block has met on its way to a
point, and where the way goes on after a node. -/

namespace LocalFlow.Graph

variable {α : Type} {g : Graph α} {p q : Point} {a b : Nat} {path : List Nat} {x : α} {xs : List α}
  {labels : Labels} {n : Node} {label : String}

/-- Some path from block 0 has the items `xs`, in this order, before `p`. -/
def Passed (g : Graph α) (p : Point) (xs : List α) : Prop :=
  ∃ path, g.IsPath 0 path p.1 ∧ path.dropLast.flatMap g.items ++ (g.items p.1).take p.2 = xs

/-- Some path from block 0 has the items `xs`, in this order, in its blocks. -/
def Traversed (g : Graph α) (xs : List α) : Prop :=
  ∃ path b, g.IsPath 0 path b ∧ path.flatMap g.items = xs

theorem IsPath.flatMap_items (h : g.IsPath a path b) :
    path.flatMap g.items = path.dropLast.flatMap g.items ++ g.items b := by
  have hlast : path = path.dropLast ++ [b] := (List.dropLast_append_getLast? b h.last).symm
  conv_lhs => rw [hlast, List.flatMap_append, List.flatMap_singleton]

namespace Passed

theorem start (g : Graph α) : g.Passed (0, 0) [] := ⟨[0], .single 0, rfl⟩

/-- Once all items of the last block are passed, the whole path is. -/
theorem traversed (h : g.Passed p xs) (hend : p.2 = (g.items p.1).length) : g.Traversed xs := by
  obtain ⟨path, hpath, hxs⟩ := h
  rw [hend, List.take_length] at hxs
  exact ⟨path, p.1, hpath, hpath.flatMap_items.trans hxs⟩

theorem isPrefix (h : g.Passed p xs) : ∃ path b, g.IsPath 0 path b ∧ xs <+: path.flatMap g.items := by
  obtain ⟨path, hpath, rfl⟩ := h
  refine ⟨path, p.1, hpath, ?_⟩
  rw [hpath.flatMap_items]
  exact (List.prefix_append_right_inj _).mpr (List.take_prefix _ _)

theorem jump (h : g.Passed p xs) (hjump : g.Jumps p b) : g.Passed (b, 0) xs := by
  obtain ⟨path, hpath, hxs⟩ := h
  obtain ⟨hend, hb⟩ := hjump
  rw [hend, List.take_length, ← hpath.flatMap_items] at hxs
  refine ⟨path ++ [b], hpath.snoc hb, ?_⟩
  rw [List.dropLast_concat, List.take_zero, List.append_nil, hxs]

theorem step (h : g.Passed p xs) (hx : (g.items p.1)[p.2]? = some x) :
    g.Passed (p.1, p.2 + 1) (xs ++ [x]) := by
  obtain ⟨path, hpath, rfl⟩ := h
  refine ⟨path, hpath, ?_⟩
  rw [List.take_add_one, hx, Option.toList_some, List.append_assoc]

end Passed

theorem Departs.of_mayGoOn (h : g.Departs labels n p q) (hgo : n.MayGoOn) :
    q = p ∨ g.Jumps p q.1 ∧ q.2 = 0 := by
  unfold Node.MayGoOn at hgo
  unfold Departs at h
  split at h
  · exact .inr (h.2.2 (by simpa [*] using hgo))
  · simp [*] at hgo
  · simp [*] at hgo
  · simp [*] at hgo
  · exact .inl h

theorem Departs.eq_of_access (h : g.Departs labels n p q) (hkind : n.kind.isLocalAccess = true) :
    q = p := by
  rcases Kind.isLocalAccess_iff.mp hkind with hget | hwrite
  · simpa only [Departs, hget] using h
  · rcases Kind.isLocalWrite_iff.mp hwrite with hset | htee
    · simpa only [Departs, hset] using h
    · simpa only [Departs, htee] using h

theorem Departs.of_mayBranch (h : g.Departs labels n p q) (hlabel : n.MayBranch label) :
    label ≠ "" ∧ ∃ b, labels label = some b ∧ g.Jumps p b := by
  unfold Node.MayBranch at hlabel
  unfold Departs at h
  split at hlabel
  · simp only [*] at h ⊢
    exact ⟨h.1, h.2.1⟩
  · simp only [*] at h
    exact h label hlabel
  · exact hlabel.elim

end LocalFlow.Graph
