import LocalFlow.Proofs.Ssa.Renaming

/-! The way of a renaming down the dominator tree. A visit of a block comes to the blocks that it
dominates and to no others, and to each of them once. -/

namespace LocalFlow

namespace Idoms

variable {idoms : Idoms} {e a b c : Nat}

theorem Above.total (ha : Above idoms e a b) (hc : Above idoms e c b) :
    Above idoms e a c ∨ Above idoms e c a := by
  induction ha with
  | refl => exact .inr hc
  | @up b d hbe hd ha ih =>
    by_cases hcb : c = b
    · subst hcb
      exact .inl (.up hbe hd ha)
    · exact ih (hc.of_ne hcb hd)

end Idoms

/-- A block and the blocks below it in the tree, to the given depth, each before those below it. -/
def DominatorTree.descent (t : DominatorTree) : Nat → Nat → List Nat
  | 0, _ => []
  | depth + 1, b => b :: (t.children b).flatMap (t.descent depth)

namespace Graph.IsDominatorTree

variable {α : Type} {g : Graph α} {e b c c' x depth : Nat} {t : DominatorTree}

theorem rank_le_of_dominates (h : g.IsDominatorTree e t) (hbx : g.Dominates e b x) :
    t.rank b ≤ t.rank x :=
  ((h.exact.above_iff hbx.reaches).mpr hbx).rank_le h.exact.toRising

variable (h : g.IsDominatorTree e t) (hg : g.Mirrored) (he : e < g.size)
include h hg he

/-- A child is dominated by its parent, and not the other way round. -/
theorem child_spec (hc : c ∈ t.children b) :
    g.Dominates e b c ∧ g.Reaches e c ∧ t.rank b < t.rank c := by
  obtain ⟨hreach, hce, hidom⟩ := (h.mem_children_iff hg he).mp hc
  have hget := (h.idom?_eq_get? hreach).symm.trans hidom
  exact ⟨(h.exact.above_iff hreach).mp (.up hce hget .refl), hreach, h.exact.lower hce hget⟩

theorem child_unique (hc : c ∈ t.children b) (hc' : c' ∈ t.children b) (hx : g.Dominates e c x)
    (hx' : g.Dominates e c' x) : c = c' := by
  -- Of the two children the upper one would be above their parent.
  have hupper : ∀ {y z}, y ∈ t.children b → z ∈ t.children b → Idoms.Above t.idoms e y z → y = z := by
    intro y z hy hz habove
    by_contra hne
    obtain ⟨hreach, -, hidom⟩ := (h.mem_children_iff hg he).mp hz
    have hyb := habove.of_ne hne ((h.idom?_eq_get? hreach).symm.trans hidom)
    have hle := hyb.rank_le h.exact.toRising
    have hlt := (h.child_spec hg he hy).2.2
    omega
  have habove := (h.exact.above_iff hx.reaches).mpr hx
  rcases habove.total ((h.exact.above_iff hx.reaches).mpr hx') with hup | hup
  · exact hupper hc hc' hup
  · exact (hupper hc' hc hup).symm

theorem mem_descent_iff (hb : g.Reaches e b) (hdepth : t.size ≤ t.rank b + depth) :
    x ∈ t.descent depth b ↔ g.Dominates e b x := by
  induction depth generalizing b with
  | zero =>
    have hlt := h.rank_lt hg he hb
    omega
  | succ depth ih =>
    have hchild : ∀ c ∈ t.children b, (x ∈ t.descent depth c ↔ g.Dominates e c x) := by
      intro c hc
      obtain ⟨-, hreach, hlt⟩ := h.child_spec hg he hc
      exact ih hreach (by omega)
    rw [DominatorTree.descent, List.mem_cons, List.mem_flatMap]
    constructor
    · rintro (rfl | ⟨c, hc, hx⟩)
      · exact .refl hb
      · exact (h.child_spec hg he hc).1.trans ((hchild c hc).mp hx)
    · intro hbx
      rcases h.eq_or_exists_child hg he hbx with rfl | ⟨c, hc, hcx⟩
      · exact .inl rfl
      · exact .inr ⟨c, hc, (hchild c hc).mpr hcx⟩

theorem nodup_descent (hb : g.Reaches e b) (hdepth : t.size ≤ t.rank b + depth) :
    (t.descent depth b).Nodup := by
  induction depth generalizing b with
  | zero => exact .nil
  | succ depth ih =>
    have hbelow : ∀ c ∈ t.children b, ∀ x ∈ t.descent depth c, g.Dominates e c x := by
      intro c hc x hx
      obtain ⟨-, hreach, hlt⟩ := h.child_spec hg he hc
      exact (h.mem_descent_iff hg he hreach (by omega)).mp hx
    rw [DominatorTree.descent, List.nodup_cons, List.nodup_flatMap]
    refine ⟨fun hmem => ?_, fun c hc => ?_, ?_⟩
    · obtain ⟨c, hc, hbc⟩ := List.mem_flatMap.mp hmem
      have hle := h.rank_le_of_dominates (hbelow c hc b hbc)
      have hlt := (h.child_spec hg he hc).2.2
      omega
    · obtain ⟨-, hreach, hlt⟩ := h.child_spec hg he hc
      exact ih hreach (by omega)
    · have hnodup : (t.children b).Nodup := List.nodup_range.filter _
      refine hnodup.imp_of_mem fun {c c'} hc hc' hne => ?_
      intro x hx hx'
      exact hne (h.child_unique hg he hc hc' (hbelow c hc x hx) (hbelow c' hc' x hx'))

end Graph.IsDominatorTree

namespace Renaming

variable {s s' : Renaming} {fn : Function} {g : Graph Ref} {t : DominatorTree} {b c depth : Nat}
  {r : Ref}

theorem visited_access (h : access fn s r = .ok s') : s'.visited = s.visited := by
  obtain ⟨n, -, ⟨-, hpush⟩ | ⟨-, ⟨d, -, rfl⟩, -⟩ | ⟨-, rfl⟩⟩ := access_cases h
  · obtain ⟨_, rfl⟩ := restacks_push hpush
    rfl
  · rfl
  · rfl

theorem visited_accesses {items : List Ref} (h : items.foldlM (access fn) s = .ok s') :
    s'.visited = s.visited :=
  foldlM_keeps (P := fun x => x.visited = s.visited)
    (fun _ _ _ _ haccess hs => (visited_access haccess).trans hs) h rfl

theorem visited_feeds {succs : List Nat} (h : succs.foldlM (feed b) s = .ok s') :
    s'.visited = s.visited := by
  refine foldlM_keeps (P := fun x => x.visited = s.visited) (fun c _ x x' hfeed hx => ?_) h rfl
  obtain ⟨current, -, rfl⟩ := feed_eq_ok.mp hfeed
  exact hx

theorem visited_enterBlock (h : enterBlock fn g b s = .ok s') : s'.visited = b :: s.visited := by
  obtain ⟨-, s₁, s₂, hmerges, hitems, hsucc⟩ := enterBlock_eq_ok.mp h
  rw [visited_feeds hsucc, visited_accesses hitems]
  obtain ⟨_, rfl⟩ := restacks_merges hmerges
  rfl

/-- A visit notes the blocks in the order of the descent. -/
theorem visited_visit (h : visit fn g t depth b s = .ok s') :
    s'.visited = (t.descent depth b).reverse ++ s.visited := by
  induction depth generalizing b s s' with
  | zero => cases h
  | succ depth ih =>
    have hbelow : ∀ {roots : List Nat} {s s'},
        roots.foldlM (fun s c => visit fn g t depth c s) s = .ok s' →
        s'.visited = (roots.flatMap (t.descent depth)).reverse ++ s.visited := by
      intro roots
      induction roots with
      | nil =>
        intro s s' h
        cases h
        rfl
      | cons c roots ihr =>
        intro s s' h
        obtain ⟨s₁, hc, hroots⟩ := foldlM_cons_eq_ok.mp h
        rw [ihr hroots, ih hc, List.flatMap_cons, List.reverse_append, List.append_assoc]
    obtain ⟨s₁, s₂, hb, hchildren, hpops⟩ := visit_succ_eq_ok.mp h
    obtain ⟨_, rfl⟩ := restacks_pops hpops
    rw [hbelow hchildren, visited_enterBlock hb, DominatorTree.descent, List.reverse_cons,
      List.append_assoc]
    rfl

end Renaming

end LocalFlow
