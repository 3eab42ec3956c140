import LocalFlow.Function.Validation
import LocalFlow.Proofs.Function.Tree
import Mathlib.Data.List.Nodup

/-! What validation guarantees: the body unfolds to a tree in which no node occurs twice and every
node has the shape that its kind asks for. -/

namespace LocalFlow

namespace Node

variable {n : Node} {size : Nat}

theorem arity_of_flaw? (h : n.flaw? size = none) :
    ∃ least most, n.kind.arity? = some (least, most) ∧ least ≤ n.kids.length ∧
      (∀ k, most = some k → n.kids.length ≤ k) ∧
      ∀ i child, n.kids[i]? = some child → n.slotFlaw? size child i = none := by
  unfold flaw? at h
  split at h
  · cases h
  · rename_i least most harity
    split at h
    · cases h
    · rename_i hcount
      simp only [Bool.or_eq_true, decide_eq_true_eq, not_or, Nat.not_lt] at hcount
      refine ⟨least, most, harity, hcount.1, fun k hk => ?_, fun i child hchild => ?_⟩
      · have := hcount.2
        simp only [hk, Option.any_some, decide_eq_true_eq, Nat.not_lt] at this
        exact this
      · rw [List.findSome?_eq_none_iff] at h
        exact h (child, i) (by
          rw [List.mem_zipIdx_iff_getElem?]
          exact hchild)

theorem flaw?_of_arity {least : Nat} {most : Option Nat} (harity : n.kind.arity? = some (least, most))
    (hleast : least ≤ n.kids.length) (hmost : ∀ k, most = some k → n.kids.length ≤ k)
    (hslots : ∀ i child, n.kids[i]? = some child → n.slotFlaw? size child i = none) :
    n.flaw? size = none := by
  have hcount : (n.kids.length < least || most.any (· < n.kids.length)) = false := by
    cases most with
    | none => simpa using hleast
    | some k =>
      have := hmost k rfl
      simp only [Option.any_some, Bool.or_eq_false_iff, decide_eq_false_iff_not]
      omega
  simp only [flaw?, harity, hcount, Bool.false_eq_true, if_false, List.findSome?_eq_none_iff]
  intro x hx
  exact hslots x.2 x.1 (List.mem_zipIdx_iff_getElem?.mp hx)

theorem isOptionalSlot_of_isLocalWrite (h : n.kind.isLocalWrite = true) :
    n.kind.isOptionalSlot 0 = false := by
  rcases Kind.isLocalWrite_iff.mp h with hkind | hkind
  · rw [hkind]
    rfl
  · rw [hkind]
    rfl

/-- A slot is empty only if it is optional and marked so. -/
theorem eq_absent_of_slotFlaw? {child : Ref} {i : Nat} (h : n.slotFlaw? size child i = none)
    (hchild : child.isPresent = false) : n.kind.isOptionalSlot i = true ∧ child = .absent := by
  have hneg : child < 0 := by simpa [Ref.isPresent] using hchild
  unfold slotFlaw? at h
  split at h
  · split at h
    · exact ⟨‹_›, ‹_›⟩
    · cases h
  · simp [hneg] at h

theorem isPresent_of_slotFlaw? {child : Ref} {i : Nat} (h : n.slotFlaw? size child i = none)
    (hslot : n.kind.isOptionalSlot i = false) : child.isPresent = true := by
  by_contra hchild
  have hoptional := (eq_absent_of_slotFlaw? h (by simpa using hchild)).1
  rw [hslot] at hoptional
  cases hoptional

end Node

namespace Function

variable {fn : Function} {r : Ref} {n : Node}

theorem flaw?_of_rejection? (h : fn.rejection? r n = none) : n.flaw? fn.nodes.size = none := by
  unfold rejection? at h
  split at h
  · cases h
  · assumption

theorem index_lt_of_rejection? (h : fn.rejection? r n = none) (hk : n.kind.isLocalAccess = true) :
    n.index < fn.numLocals := by
  unfold rejection? at h
  split at h
  · cases h
  · split at h
    · cases h
    · rename_i hnot
      simpa [hk] using hnot

theorem rejection?_eq_none (hflaw : n.flaw? fn.nodes.size = none)
    (hindex : n.kind.isLocalAccess = true → n.index < fn.numLocals) : fn.rejection? r n = none := by
  simp only [rejection?, hflaw]
  rw [if_neg]
  simpa using hindex

private def position (x : Ref × Node) : Nat := x.1.toNat

private theorem nodesAll_node_cons (r : Ref) (n : Node) (kids ts : List (Unit → Tree)) :
    (Tree.nodesAll ((fun _ => .node r n kids) :: ts)).Perm ((r, n) :: Tree.nodesAll (kids ++ ts)) := by
  have heq : Tree.nodesAll ((fun _ => .node r n kids) :: ts) =
      Tree.nodesAll kids ++ (r, n) :: Tree.nodesAll ts := by
    simp [Tree.nodesAll, Tree.nodes]
  rw [heq, Tree.nodesAll_append]
  exact List.perm_middle

theorem exists_trees_of_validateFrom {seen : List Nat} {pending : List Ref}
    (h : fn.validateFrom seen pending = .ok ()) :
    ∃ ts, Tree.AreAt fn ts pending ∧ ((Tree.nodesAll ts).map position).Nodup ∧
      (∀ x ∈ Tree.nodesAll ts, position x ∉ seen) ∧
      ∀ x ∈ Tree.nodesAll ts, fn.rejection? x.1 x.2 = none := by
  fun_induction validateFrom fn seen pending with
  | case1 => exact ⟨[], trivial, by simp [Tree.nodesAll]⟩
  | case2 => cases h
  | case3 => cases h
  | case4 => cases h
  | case5 seen r pending hpresent hseen n hn hok ih =>
    obtain ⟨ts, hat, hnodup, hnew, hgood⟩ := ih h
    obtain ⟨kids, ts, rfl, hkids, hts⟩ := hat.append
    have hperm := nodesAll_node_cons r n kids ts
    have hr : position (r, n) ∉ (Tree.nodesAll (kids ++ ts)).map position := by
      intro hmem
      obtain ⟨x, hx, hxr⟩ := List.mem_map.mp hmem
      exact hnew x hx (hxr ▸ List.mem_cons_self ..)
    refine ⟨(fun _ => .node r n kids) :: ts, ⟨⟨rfl, hn, hkids⟩, hts⟩, ?_, ?_, ?_⟩
    · rw [(hperm.map position).nodup_iff, List.map_cons]
      exact List.nodup_cons.mpr ⟨hr, hnodup⟩
    · intro x hx
      rcases List.mem_cons.mp (hperm.mem_iff.mp hx) with rfl | hx
      · exact hseen
      · exact fun hmem => hnew x hx (List.mem_cons_of_mem _ hmem)
    · intro x hx
      rcases List.mem_cons.mp (hperm.mem_iff.mp hx) with rfl | hx
      · exact hok
      · exact hgood x hx
  | case6 seen r pending hpresent ih =>
    obtain ⟨ts, hat, hrest⟩ := ih h
    have habsent : r.isPresent = false := by simpa using hpresent
    exact ⟨(fun _ => .absent) :: ts, ⟨habsent, hat⟩, by
      simpa [Tree.nodesAll, Tree.nodes] using hrest⟩

/-- The tree of a body in which no node occurs twice and none has a flaw. -/
structure WellFormed (fn : Function) (t : Tree) : Prop where
  isAt : t.IsAt fn fn.body
  tree_eq : fn.tree fn.body = t
  nodup : (t.nodes.map (·.1)).Nodup
  accepted : ∀ x ∈ t.nodes, fn.rejection? x.1 x.2 = none

theorem toNat_of_mem {t : Tree} {r r' : Ref} (hat : t.IsAt fn r) (hr : r' ∈ t.nodes.map (·.1)) :
    Int.ofNat r'.toNat = r' := by
  obtain ⟨x, hx, rfl⟩ := List.mem_map.mp hr
  have hpresent := Tree.isPresent_of_node? (hat.node?_eq x hx)
  simp only [Ref.isPresent, decide_eq_true_eq] at hpresent
  exact Int.toNat_of_nonneg hpresent

/-- Unfolding a handle gives the tree that stands there, if it goes as deep as a path can be that
comes to no node twice and has passed the nodes in `above` already. -/
theorem unfold_eq_of_above {t : Tree} {r : Ref} {above : List Nat} {depth : Nat}
    (hat : t.IsAt fn r) (hnodup : above.Nodup) (hlt : ∀ i ∈ above, i < fn.nodes.size)
    (hnew : ∀ x ∈ t.nodes, x.1.toNat ∉ above) (hdepth : fn.nodes.size ≤ above.length + depth) :
    fn.unfold depth r = t := by
  induction t generalizing r above depth with
  | absent => exact Tree.unfold_of_isPresent_eq_false hat
  | dangling => exact hat.elim
  | endless => exact hat.elim
  | node r n kids ih =>
    have hself := hat
    obtain ⟨rfl, hn, hkids⟩ := hat
    have hhere : r.toNat ∉ above := hnew (r, n) (by simp [Tree.nodes])
    have hpath : (r.toNat :: above).Nodup := List.nodup_cons.mpr ⟨hhere, hnodup⟩
    have hlt' : ∀ i ∈ r.toNat :: above, i < fn.nodes.size :=
      List.forall_mem_cons.mpr ⟨node?_lt_size hn, hlt⟩
    have hlength : above.length + 1 ≤ fn.nodes.size := by
      have hsub : r.toNat :: above ⊆ List.range fn.nodes.size := fun i hi =>
        List.mem_range.mpr (hlt' i hi)
      simpa using hpath.length_le_of_subset hsub
    obtain ⟨depth, rfl⟩ : ∃ d, depth = d + 1 := ⟨depth - 1, by omega⟩
    unfold unfold
    simp only [Tree.isPresent_of_node? hn, if_true, hn]
    rw [hkids.map_eq fun k hk r' hr' => ih k hk hr' hpath hlt' ?_ ?_]
    · intro x hx hmem
      rcases List.mem_cons.mp hmem with heq | hmem
      · have hhandle : x.1 ∈ (Tree.node r n kids).nodes.map (·.1) :=
          List.mem_map_of_mem (Tree.mem_nodes_of_kid hk hx)
        have hroot : r ∈ (Tree.node r n kids).nodes.map (·.1) := by simp [Tree.nodes]
        refine hself.ne_of_mem_kid hk hx ?_
        rw [← toNat_of_mem hself hhandle, heq, toNat_of_mem hself hroot]
      · exact hnew x (Tree.mem_nodes_of_kid hk hx) hmem
    · rw [List.length_cons]
      omega

theorem tree_eq_of_isAt {t : Tree} {r : Ref} (hat : t.IsAt fn r) : fn.tree r = t :=
  unfold_eq_of_above hat .nil (by simp) (by simp) (by simp)

theorem wellFormed_of_validate (h : fn.validate = .ok ()) : ∃ t, fn.WellFormed t := by
  obtain ⟨ts, hat, hpositions, -, hgood⟩ := exists_trees_of_validateFrom h
  match ts, hat with
  | [k], ⟨hk, _⟩ =>
    simp only [Tree.nodesAll, List.append_nil] at hpositions hgood
    have hnodup : ((k ()).nodes.map (·.1)).Nodup :=
      List.Nodup.of_map Int.toNat (by rw [List.map_map]; exact hpositions)
    exact ⟨k (), hk, tree_eq_of_isAt hk, hnodup, hgood⟩

/-- Trees that are accepted, and in which no node occurs twice, are visited to the end. -/
theorem validateFrom_of_trees {seen : List Nat} {pending : List Ref} {ts : List (Unit → Tree)}
    (hat : Tree.AreAt fn ts pending) (hnodup : ((Tree.nodesAll ts).map position).Nodup)
    (hnew : ∀ x ∈ Tree.nodesAll ts, position x ∉ seen)
    (hgood : ∀ x ∈ Tree.nodesAll ts, fn.rejection? x.1 x.2 = none) :
    fn.validateFrom seen pending = .ok () := by
  fun_induction validateFrom fn seen pending generalizing ts with
  | case1 => rfl
  | case6 seen r pending hpresent ih =>
    match ts, hat with
    | k :: ts, ⟨hk, hts⟩ =>
      have hnodes : Tree.nodesAll (k :: ts) = Tree.nodesAll ts := by
        rw [Tree.nodesAll, hk.eq_absent (by simpa using hpresent), Tree.nodes_absent, List.nil_append]
      rw [hnodes] at hnodup hnew hgood
      exact ih hts hnodup hnew hgood
  | case2 seen r pending hpresent hseen =>
    obtain ⟨n, kids, ts, rfl, hn, hkids, hts⟩ := hat.exists_of_isPresent hpresent
    exact absurd hseen (hnew (r, n) ((nodesAll_node_cons r n kids ts).mem_iff.mpr (.head _)))
  | case3 seen r pending hpresent hseen hnone =>
    obtain ⟨n, kids, ts, rfl, hn, hkids, hts⟩ := hat.exists_of_isPresent hpresent
    rw [hn] at hnone
    cases hnone
  | case4 seen r pending hpresent hseen n hn why hwhy =>
    obtain ⟨n', kids, ts, rfl, hn', hkids, hts⟩ := hat.exists_of_isPresent hpresent
    obtain rfl : n' = n := Option.some.inj (hn'.symm.trans hn)
    have hself := hgood (r, n') ((nodesAll_node_cons r n' kids ts).mem_iff.mpr (.head _))
    rw [hwhy] at hself
    cases hself
  | case5 seen r pending hpresent hseen n hn hok ih =>
    obtain ⟨n', kids, ts, rfl, hn', hkids, hts⟩ := hat.exists_of_isPresent hpresent
    obtain rfl : n' = n := Option.some.inj (hn'.symm.trans hn)
    have hperm := nodesAll_node_cons r n' kids ts
    rw [(hperm.map position).nodup_iff, List.map_cons, List.nodup_cons] at hnodup
    have hsub : ∀ x ∈ Tree.nodesAll (kids ++ ts),
        x ∈ Tree.nodesAll ((fun _ => .node r n' kids) :: ts) := fun x hx =>
      hperm.mem_iff.mpr (.tail _ hx)
    refine ih (hkids.append_areAt hts) hnodup.2 (fun x hx hmem => ?_) fun x hx => hgood x (hsub x hx)
    rcases List.mem_cons.mp hmem with heq | hmem
    · exact hnodup.1 (List.mem_map.mpr ⟨x, hx, heq⟩)
    · exact hnew x (hsub x hx) hmem

/-- Exactly the functions with a well-formed body are accepted. -/
theorem validate_eq_ok_iff : fn.validate = .ok () ↔ ∃ t, fn.WellFormed t := by
  constructor
  · exact wellFormed_of_validate
  · rintro ⟨t, hat, -, hnodup, hgood⟩
    have hnodes : Tree.nodesAll [fun _ => t] = t.nodes := by simp [Tree.nodesAll]
    have hpositions : (t.nodes.map position).Nodup := by
      have heq : t.nodes.map position = (t.nodes.map (·.1)).map Int.toNat := by
        rw [List.map_map]
        rfl
      rw [heq]
      refine hnodup.map_on fun r hr r' hr' h => ?_
      rw [← toNat_of_mem hat hr, ← toNat_of_mem hat hr', h]
    have hbody : Tree.AreAt fn [fun _ => t] [fn.body] := ⟨hat, trivial⟩
    refine validateFrom_of_trees hbody ?_ (by simp) ?_
    · rwa [hnodes]
    · rwa [hnodes]

end Function

end LocalFlow
