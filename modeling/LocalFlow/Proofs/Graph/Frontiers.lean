import LocalFlow.Proofs.Graph.Dominators

/-! Dominance frontiers. The frontier of a block holds the blocks where its dominance ends: those
with a predecessor that it dominates, which it does not strictly dominate themselves. -/

namespace LocalFlow

variable {α : Type} {g : Graph α} {e b d p x y : Nat} {t : DominatorTree}

namespace DominatorTree

variable {rank : Nat → Nat} {idoms : Idoms}

/-- The first blocks on the way up that satisfy `test` are those below which all satisfy it. -/
theorem mem_takeWhile_chain_iff (hi : idoms.Rising g e rank) {test : Nat → Bool} {steps : Nat}
    {way : List Nat} (h : chain idoms e steps b = .ok way) :
    x ∈ way.takeWhile test ↔ Idoms.Above idoms e x b ∧
      ∀ y, Idoms.Above idoms e x y → Idoms.Above idoms e y b → test y = true := by
  induction steps generalizing b way with
  | zero => cases h
  | succ steps ih =>
    cases htest : test b with
    | false =>
      have hnil : way.takeWhile test = [] := by
        rcases chain_cases h with ⟨rfl, rfl⟩ | ⟨-, d, rest, -, -, rfl⟩ <;>
          exact List.takeWhile_cons_of_neg (by simp [htest])
      rw [hnil]
      refine iff_of_false List.not_mem_nil fun h => ?_
      exact absurd (h.2 b h.1 .refl) (by simp [htest])
    | true =>
      rcases chain_cases h with ⟨rfl, rfl⟩ | ⟨hbe, d, rest, hd, hrest, rfl⟩
      · rw [List.takeWhile_cons_of_pos htest, List.takeWhile_nil, List.mem_singleton]
        constructor
        · rintro rfl
          exact ⟨.refl, fun y _ hy => hy.eq_entry ▸ htest⟩
        · exact fun h => h.1.eq_entry
      · have hlower := hi.lower hbe hd
        rw [List.takeWhile_cons_of_pos htest, List.mem_cons, ih hrest]
        constructor
        · rintro (rfl | ⟨hx, hall⟩)
          · refine ⟨.refl, fun y hxy hyx => ?_⟩
            have hyx' : y = x := by
              by_contra hne
              have h₁ := hyx.rank_lt hi hne
              have h₂ := hxy.rank_le hi
              omega
            exact hyx' ▸ htest
          · refine ⟨.up hbe hd hx, fun y hxy hyb => ?_⟩
            by_cases hyb' : y = b
            · exact hyb' ▸ htest
            · exact hall y hxy (hyb.of_ne hyb' hd)
        · rintro ⟨hx, hall⟩
          by_cases hxb : x = b
          · exact .inl hxb
          · exact .inr ⟨hx.of_ne hxb hd, fun y hxy hyd => hall y hxy (.up hbe hd hyd)⟩

theorem size_foldl_insert (blocks : List Nat) (table : Array IndexSet) :
    (blocks.foldl (fun table x => table.modify x (·.insert b)) table).size = table.size := by
  induction blocks generalizing table with
  | nil => rfl
  | cons x blocks ih => rw [List.foldl_cons, ih, Array.size_modify]

theorem mem_foldl_insert {blocks : List Nat} {table : Array IndexSet} :
    y ∈ (blocks.foldl (fun table x => table.modify x (·.insert b)) table).getD x ∅ ↔
      y ∈ table.getD x ∅ ∨ (y = b ∧ x ∈ blocks ∧ x < table.size) := by
  induction blocks generalizing table with
  | nil => simp
  | cons z blocks ih =>
    rw [List.foldl_cons, ih]
    simp only [Array.getD_eq_getD_getElem?, Array.getElem?_modify, Array.size_modify, List.mem_cons]
    by_cases hx : x < table.size
    · by_cases hzx : z = x
      · subst hzx
        simp only [hx, Array.getElem?_eq_getElem, if_true, Option.map_some, Option.getD_some,
          IndexSet.mem_insert, and_true, true_or]
        grind
      · simp [hzx, Ne.symm hzx, hx]
    · simp [hx]

theorem mem_frontiers_iff {order : List Nat} {entries : Nat → List Nat} {table : Array IndexSet} :
    y ∈ (order.foldl (fun table b =>
        (entries b).foldl (fun table x => table.modify x (·.insert b)) table) table).getD x ∅ ↔
      y ∈ table.getD x ∅ ∨ (y ∈ order ∧ x ∈ entries y ∧ x < table.size) := by
  induction order generalizing table with
  | nil => simp
  | cons b order ih =>
    rw [List.foldl_cons, ih, mem_foldl_insert, size_foldl_insert, List.mem_cons]
    grind

end DominatorTree

namespace Graph.IsDominatorTree

/-- The only block that leads to `b` strictly dominates it, and so do its dominators. -/
theorem strictlyDominates_of_only_pred (h : g.IsDominatorTree e t) (hbe : b ≠ e) (hb : g.Reaches e b)
    (honly : ∀ c, g.Reaches e c → b ∈ g.succ c → c = p) (hxp : g.Dominates e x p) :
    g.StrictlyDominates e x b := by
  have hpb : g.Dominates e p b :=
    .of_preds hb hbe fun c hc hcb => honly c hc hcb ▸ .refl hc
  refine ⟨?_, hxp.trans hpb⟩
  rintro rfl
  obtain ⟨c, hc, hcx, hlower⟩ := h.ranking.exists_lower hb hbe
  have hcp := honly c hc hcx
  rw [hcp, hpb.antisymm hxp] at hlower
  omega

theorem mem_takeWhile_ancestors_iff (h : g.IsDominatorTree e t) {test : Nat → Bool}
    (hp : g.Reaches e p) :
    x ∈ (t.ancestors p).takeWhile test ↔ g.Dominates e x p ∧
      ∀ y, g.Dominates e x y → g.Dominates e y p → test y = true := by
  rw [DominatorTree.mem_takeWhile_chain_iff h.exact.toRising (h.chain_eq hp), h.exact.above_iff hp]
  refine and_congr_right fun _ => forall_congr' fun y => ?_
  constructor
  · exact fun hall hxy hyp => hall ((h.exact.above_iff hyp.reaches_left).mpr hxy)
      ((h.exact.above_iff hp).mpr hyp)
  · intro hall hxy hyp
    have hyp' := (h.exact.above_iff hp).mp hyp
    exact hall ((h.exact.above_iff hyp'.reaches_left).mp hxy) hyp'

/-- The runners of a block are the dominators of its predecessors that do not strictly dominate it
as well. -/
theorem mem_runners_iff (h : g.IsDominatorTree e t) (hg : g.Mirrored) (hb : g.Reaches e b) :
    x ∈ t.runners (g.pred b) b ↔ ∃ p, g.Reaches e p ∧ b ∈ g.succ p ∧ g.Dominates e x p ∧
      ¬g.StrictlyDominates e x b := by
  have hways : ∀ p, p ∈ (g.pred b).filter t.isReachable ↔ g.Reaches e p ∧ b ∈ g.succ p := by
    intro p
    rw [List.mem_filter, hg.mem_pred, h.isReachable_iff, and_comm]
  have htest : ∀ y, (decide (y = b) || decide (y ∉ t.ancestors b)) = true ↔
      ¬g.StrictlyDominates e y b := by
    intro y
    rw [Bool.or_eq_true, decide_eq_true_iff, decide_eq_true_iff, h.mem_ancestors_iff,
      StrictlyDominates]
    tauto
  simp only [DominatorTree.runners, h.entry, Int.natCast_inj]
  by_cases hfew : ((g.pred b).filter t.isReachable).length + (if b = e then 1 else 0) < 2
  · rw [if_pos hfew]
    refine iff_of_false List.not_mem_nil ?_
    rintro ⟨p, hp, hpb, hxp, hx⟩
    have hmem := (hways p).mpr ⟨hp, hpb⟩
    have hpos := List.length_pos_of_mem hmem
    by_cases hbe : b = e
    · rw [if_pos hbe] at hfew
      omega
    · refine hx (h.strictlyDominates_of_only_pred hbe hb (fun c hc hcb => ?_) hxp)
      rw [if_neg hbe] at hfew
      have hone : ((g.pred b).filter t.isReachable).length = 1 := by omega
      obtain ⟨q, hq⟩ := List.length_eq_one_iff.mp hone
      have hcq := (hways c).mpr ⟨hc, hcb⟩
      rw [hq, List.mem_singleton] at hmem hcq
      exact hcq.trans hmem.symm
  · rw [if_neg hfew, List.mem_flatMap]
    constructor
    · rintro ⟨p, hp, hx⟩
      obtain ⟨hreach, hpb⟩ := (hways p).mp hp
      obtain ⟨hxp, hall⟩ := (h.mem_takeWhile_ancestors_iff hreach).mp hx
      exact ⟨p, hreach, hpb, hxp, (htest x).mp (hall x (.refl hxp.reaches_left) hxp)⟩
    · rintro ⟨p, hp, hpb, hxp, hx⟩
      refine ⟨p, (hways p).mpr ⟨hp, hpb⟩, (h.mem_takeWhile_ancestors_iff hp).mpr ⟨hxp, ?_⟩⟩
      intro y hxy hyp
      refine (htest y).mpr fun hyb => hx ⟨?_, hxy.trans hyb.2⟩
      rintro rfl
      exact hyb.1 (hyb.2.antisymm hxy)

/-- A frontier has the blocks where dominance ends. -/
theorem mem_frontier_iff (h : g.IsDominatorTree e t) (hg : g.Mirrored)
    (he : e < g.size) :
    b ∈ (t.withFrontiers g.pred).frontier x ↔
      ∃ p, g.Reaches e p ∧ b ∈ g.succ p ∧ g.Dominates e x p ∧ ¬g.StrictlyDominates e x b := by
  have hreachable : (t.withFrontiers g.pred).isReachable x = true ↔ g.Reaches e x :=
    h.isReachable_iff
  have htable : b ∈ (t.withFrontiers g.pred).frontiers.getD x ∅ ↔
      b ∈ t.order ∧ x ∈ t.runners (g.pred b) b ∧ x < t.size := by
    have hempty : b ∉ (Array.replicate t.size (∅ : IndexSet)).getD x ∅ := by
      rw [Array.getD_eq_getD_getElem?, Array.getElem?_replicate]
      split <;> simp
    rw [DominatorTree.withFrontiers, DominatorTree.mem_frontiers_iff, Array.size_replicate]
    exact or_iff_right hempty
  rw [DominatorTree.frontier]
  split
  · rename_i hx
    rw [htable, h.ranking.mem_iff]
    constructor
    · rintro ⟨hb, hrun, -⟩
      exact (h.mem_runners_iff hg hb).mp hrun
    · rintro ⟨p, hp, hpb, hxp, hx⟩
      have hb := hp.step hpb
      refine ⟨hb, (h.mem_runners_iff hg hb).mpr ⟨p, hp, hpb, hxp, hx⟩, ?_⟩
      rw [h.size_eq]
      exact hg.lt_size_of_reaches he hxp.reaches_left
  · rename_i hx
    refine iff_of_false (IndexSet.not_mem_empty b) ?_
    rintro ⟨p, -, -, hxp, -⟩
    exact hx (hreachable.mpr hxp.reaches_left)

end Graph.IsDominatorTree

theorem Graph.not_strictlyDominates_iff (hy : g.Reaches e y) :
    ¬g.StrictlyDominates e x y ↔ x = y ∨ ∃ path, g.IsPath e path y ∧ x ∉ path := by
  constructor
  · intro hnot
    by_contra hcontra
    push Not at hcontra
    obtain ⟨hne, hall⟩ := hcontra
    exact hnot ⟨hne, hy, hall⟩
  · rintro (rfl | ⟨path, hpath, hx⟩) ⟨hne, hdom⟩
    · exact hne rfl
    · exact hx (hdom.mem_path path hpath)

/-- The frontier of a reachable block has exactly the reachable blocks with a predecessor, reachable
as well, that no path from the entry comes to without passing the block, and which are the block
themselves or can be reached on a path that avoids it. No other block has a frontier. -/
theorem Graph.frontiers_exact (hg : g.Built) (he : g.start? = some e) :
    ∃ t, g.dominatorTree = .ok t ∧
      (∀ x, g.Reaches e x → ∀ y, y ∈ t.frontier x ↔
        g.Reaches e y ∧
        (∃ p ∈ g.pred y, g.Reaches e p ∧ ∀ path, g.IsPath e path p → x ∈ path) ∧
        (x = y ∨ ∃ path, g.IsPath e path y ∧ x ∉ path)) ∧
      ∀ x, ¬g.Reaches e x → ∀ y, y ∉ t.frontier x := by
  have hm := hg.mirrored
  have hlt := (start?_eq_some.mp he).2
  obtain ⟨t, ht, h⟩ := exists_dominatorTree hm he
  refine ⟨t.withFrontiers g.pred, ht, fun x _ y => ?_, fun x hx y hy => ?_⟩
  · rw [h.mem_frontier_iff hm hlt]
    constructor
    · rintro ⟨p, hp, hpy, hxp, hxy⟩
      have hy := hp.step hpy
      refine ⟨hy, ⟨p, hm.mem_pred.mpr hpy, hp, hxp.mem_path⟩, ?_⟩
      exact (not_strictlyDominates_iff hy).mp hxy
    · rintro ⟨hy, ⟨p, hpy, hp, hall⟩, hxy⟩
      refine ⟨p, hp, hm.mem_pred.mp hpy, ⟨hp, hall⟩, ?_⟩
      exact (not_strictlyDominates_iff hy).mpr hxy
  · obtain ⟨p, -, -, hxp, -⟩ := (h.mem_frontier_iff hm hlt).mp hy
    exact hx hxp.reaches_left

/-- Two blocks that lead to each other and can each be entered first, one of them also to itself and
the other back to the entry, and one that cannot be entered and leads to both. -/
def Graph.knot : Graph Unit :=
  [(0, 1), (0, 2), (1, 2), (2, 1), (2, 2), (1, 0), (3, 1), (3, 2)].foldl (fun g x => g.link x.1 x.2)
    { blocks := #[{}, { id := 1 }, { id := 2 }, { id := 3 }] }

theorem Graph.frontiers_exact_knot :
    knot.Built ∧ knot.start? = some 0 ∧ ∃ t, knot.dominatorTree = .ok t ∧
      0 ∈ t.frontier 0 ∧ 2 ∈ t.frontier 2 ∧
      (∀ x, knot.Reaches 0 x → ∀ y, y ∈ t.frontier x ↔
        knot.Reaches 0 y ∧
        (∃ p ∈ knot.pred y, knot.Reaches 0 p ∧ ∀ path, knot.IsPath 0 path p → x ∈ path) ∧
        (x = y ∨ ∃ path, knot.IsPath 0 path y ∧ x ∉ path)) ∧
      ∀ x, ¬knot.Reaches 0 x → ∀ y, y ∉ t.frontier x := by
  have blocks : Built { blocks := #[{}, { id := 1 }, { id := 2 }, { id := 3 }] : Graph Unit } :=
    .addBlock [] (.addBlock [] (.addBlock [] (.addBlock [] (.empty 0))))
  have built : knot.Built :=
    .addEdge (a := 3) (b := 2) (.addEdge (a := 3) (b := 1) (.addEdge (a := 1) (b := 0)
      (.addEdge (a := 2) (b := 2) (.addEdge (a := 2) (b := 1) (.addEdge (a := 1) (b := 2)
        (.addEdge (a := 0) (b := 2) (.addEdge (a := 0) (b := 1) blocks rfl) rfl) rfl) rfl) rfl) rfl)
      rfl) rfl
  obtain ⟨t, ht, hexact, hnone⟩ := frontiers_exact built rfl
  have hentry : knot.Reaches 0 0 := .refl 0
  have hback : knot.Reaches 0 1 := hentry.step (by decide)
  have hself : knot.Reaches 0 2 := hentry.step (by decide)
  refine ⟨built, rfl, t, ht, (hexact 0 hentry 0).mpr ?_, (hexact 2 hself 2).mpr ?_, hexact, hnone⟩
  · exact ⟨hentry, ⟨1, by decide, hback, fun path hpath => hpath.first_mem⟩, .inl rfl⟩
  · exact ⟨hself, ⟨2, by decide, hself, fun path hpath => hpath.last_mem⟩, .inl rfl⟩

end LocalFlow
