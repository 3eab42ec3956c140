import LocalFlow.Proofs.Ssa.Reaching

/-! Placement of merges. The blocks that merge a local contain the frontiers of its definition
sites and of themselves, so that a merge stands wherever two definitions meet. -/

namespace LocalFlow

namespace DominatorTree

variable {t : DominatorTree} {sites merges pending : List Nat} {b f : Nat}

def Spread (t : DominatorTree) (merges : List Nat) (b : Nat) : Prop :=
  ∀ f ∈ t.frontier b, f < t.size → f ∈ merges

theorem Spread.append (h : t.Spread merges b) (more : List Nat) : t.Spread (merges ++ more) b :=
  fun f hf hlt => List.mem_append_left _ (h f hf hlt)

theorem spread_newMerges (t : DominatorTree) (merges : List Nat) (b : Nat) :
    t.Spread (merges ++ t.newMerges merges b) b := by
  intro f hf hlt
  by_cases hmem : f ∈ merges
  · exact List.mem_append_left _ hmem
  · refine List.mem_append_right _ (List.mem_filter.mpr ⟨hf, ?_⟩)
    simp [hlt, hmem]

/-- What is a site or a merge is pending or has spread, so in the end it has spread. -/
theorem spread_of_spread
    (h : ∀ b, b ∈ sites ∨ b ∈ merges → b ∈ pending ∨ t.Spread merges b) :
    ∀ b, b ∈ sites ∨ b ∈ t.spread sites merges pending →
      t.Spread (t.spread sites merges pending) b := by
  fun_induction spread t sites merges pending with
  | case1 merges => exact fun b hb => (h b hb).resolve_left List.not_mem_nil
  | case2 merges b pending ih =>
    refine ih fun c hc => ?_
    by_cases hold : c ∈ sites ∨ c ∈ merges
    · rcases h c hold with hpending | hspread
      · rcases List.mem_cons.mp hpending with rfl | hpending
        · exact .inr (spread_newMerges t merges c)
        · exact .inl (List.mem_append_left _ hpending)
      · exact .inr (hspread.append _)
    · obtain ⟨hsite, hmerge⟩ := not_or.mp hold
      have hnew : c ∈ t.newMerges merges b :=
        (List.mem_append.mp (hc.resolve_left hsite)).resolve_left hmerge
      exact .inl (List.mem_append_right _ (List.mem_filter.mpr ⟨hnew, by simpa using hsite⟩))

theorem mem_mergesOf_of_mem_frontier (hb : b ∈ sites ∨ b ∈ t.mergesOf sites)
    (hf : f ∈ t.frontier b) (hlt : f < t.size) : f ∈ t.mergesOf sites :=
  spread_of_spread (fun _ hb => .inl (hb.resolve_right List.not_mem_nil)) b hb f hf hlt

end DominatorTree

namespace Function

variable {fn : Function} {g : Graph Ref} {t : DominatorTree} {e v b : Nat} {phi : Phi}

def mergesIn (fn : Function) (g : Graph Ref) (t : DominatorTree) (v b : Nat) : Bool :=
  v < fn.numLocals && b < g.size && b ∈ t.mergesOf (fn.definitionSites g t v)

theorem mergesIn_iff : fn.mergesIn g t v b = true ↔
    v < fn.numLocals ∧ b < g.size ∧ b ∈ t.mergesOf (fn.definitionSites g t v) := by
  simp [mergesIn, and_assoc]

theorem mem_placePhis : phi ∈ (fn.placePhis g t).getD b [] ↔
    fn.mergesIn g t phi.index b = true ∧ phi = { index := phi.index, block := b } := by
  rw [mergesIn_iff]
  simp only [placePhis, Array.getD_eq_getD_getElem?, List.getElem?_toArray, List.getElem?_map]
  by_cases hb : b < g.size
  · simp only [List.getElem?_range hb, Option.map_some, Option.getD_some, List.mem_filterMap,
      List.mem_map, List.mem_range, Prod.exists]
    constructor
    · rintro ⟨v, blocks, ⟨w, hw, heq⟩, hphi⟩
      obtain ⟨rfl, rfl⟩ := Prod.mk.inj heq
      split at hphi
      · cases hphi
        exact ⟨⟨hw, hb, ‹_›⟩, rfl⟩
      · cases hphi
    · rintro ⟨⟨hv, -, hmem⟩, hphi⟩
      exact ⟨phi.index, _, ⟨phi.index, hv, rfl⟩, by rw [if_pos hmem, ← hphi]⟩
  · simp [hb]

theorem mem_definitionSites (ht : g.IsDominatorTree e t) (he : g.start? = some e)
    (hg : g.Mirrored) (hb : b = e ∨ (g.Reaches e b ∧ fn.writesIn g v b = true)) :
    b ∈ fn.definitionSites g t v := by
  rw [definitionSites, he]
  by_cases hbe : b = e
  · exact List.mem_cons.mpr (.inl hbe)
  · obtain ⟨hreach, hwrites⟩ := hb.resolve_left hbe
    have hlt := hg.lt_size_of_reaches (Graph.start?_eq_some.mp he).2 hreach
    refine List.mem_cons.mpr (.inr ?_)
    simp [hlt, hwrites, ht.isReachable_iff.mpr hreach, hbe]

theorem mergesMeet_mergesIn (ht : g.IsDominatorTree e t) (he : g.start? = some e)
    (hg : g.Mirrored) (hv : v < fn.numLocals) :
    fn.MergesMeet g (fn.mergesIn g (t.withFrontiers g.pred) v) e v := by
  intro x y p hx hp hpy hxp hxy
  have hlt := (Graph.start?_eq_some.mp he).2
  have hy := hg.lt_size_of_reaches hlt (hp.step hpy)
  have hfrontier := (ht.mem_frontier_iff hg hlt).mpr ⟨p, hp, hpy, hxp, hxy⟩
  refine mergesIn_iff.mpr ⟨hv, hy, DominatorTree.mem_mergesOf_of_mem_frontier ?_ hfrontier ?_⟩
  · rcases hx with hx | hx | hx
    · exact .inl (mem_definitionSites (ht.withFrontiers g.pred) he hg (.inl hx))
    · exact .inr (mergesIn_iff.mp hx).2.2
    · exact .inl (mem_definitionSites (ht.withFrontiers g.pred) he hg (.inr hx))
  · rw [(ht.withFrontiers g.pred).size_eq]
    exact hy

end Function

end LocalFlow
