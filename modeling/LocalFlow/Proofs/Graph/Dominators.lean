import LocalFlow.Proofs.Graph.ImmediateDominators

/-! The dominator tree of a graph: its relations are those that the paths of the graph give. -/

namespace LocalFlow

namespace Graph

variable {α : Type} {g : Graph α} {e : Nat}

private theorem getElem?_foldl_ranks {order : List Nat} {ranks : Array (Option Nat)} {k b : Nat}
    (hnodup : order.Nodup) (hlt : ∀ b ∈ order, b < ranks.size) :
    ((order.zipIdx k).foldl (fun ranks (b, i) => ranks.setIfInBounds b (some i)) ranks)[b]? =
      if b ∈ order then some (some (k + order.idxOf b)) else ranks[b]? := by
  induction order generalizing ranks k with
  | nil => simp
  | cons c order ih =>
    obtain ⟨hc, hnodup⟩ := List.nodup_cons.mp hnodup
    rw [List.zipIdx_cons, List.foldl_cons,
      ih hnodup fun b hb => by simpa using hlt b (.tail _ hb)]
    by_cases hbc : b = c
    · subst hbc
      have hsize := hlt b (by simp)
      simp [hc, hsize]
    · have hcb : c ≠ b := Ne.symm hbc
      by_cases hb : b ∈ order
      · simp only [hb, if_true, List.mem_cons, or_true]
        rw [List.idxOf_cons_ne _ hcb]
        congr 2
        omega
      · simp [hb, hbc, hcb]

theorem size_ranksOf (size : Nat) (order : List Nat) : (ranksOf size order).size = size := by
  have hfold : ∀ (entries : List (Nat × Nat)) (ranks : Array (Option Nat)),
      (entries.foldl (fun ranks (b, i) => ranks.setIfInBounds b (some i)) ranks).size =
        ranks.size := by
    intro entries
    induction entries with
    | nil => simp
    | cons entry entries ih =>
      intro ranks
      rw [List.foldl_cons, ih, Array.size_setIfInBounds]
  rw [ranksOf, hfold, Array.size_replicate]

theorem join_getElem?_ranksOf {order : List Nat} {size b : Nat} (hnodup : order.Nodup)
    (hlt : ∀ b ∈ order, b < size) :
    (ranksOf size order)[b]?.join = if b ∈ order then some (order.idxOf b) else none := by
  rw [ranksOf, getElem?_foldl_ranks hnodup (by simpa using hlt)]
  split
  · simp
  · rw [Array.getElem?_replicate]
    split <;> rfl

end Graph

def DominatorTree.rank (t : DominatorTree) (b : Nat) : Nat := (t.rank? b).getD 0

/-- The ranks of the tree order the reachable blocks of the graph, its table of immediate dominators
is exact, and it has the way up from each reachable block. -/
structure Graph.IsDominatorTree {α : Type} (g : Graph α) (e : Nat) (t : DominatorTree) : Prop where
  entry : t.entry = e
  size_eq : t.size = g.size
  isReachable_iff : ∀ {b}, t.isReachable b = true ↔ g.Reaches e b
  ranking : g.IsRanking e t.order t.rank
  exact : t.idoms.Exact g e t.rank
  chain_eq : ∀ {b}, g.Reaches e b → DominatorTree.chain t.idoms e t.size b = .ok (t.ancestors b)

variable {α : Type} {g : Graph α} {e a b d x : Nat} {t : DominatorTree}

namespace DominatorTree

variable {rank : Nat → Nat} {idoms : Idoms} {steps : Nat} {way : List Nat}

theorem exists_chain (hi : idoms.Rising g e rank) (hb : (idoms.get? b).isSome)
    (hsteps : rank b < steps) : ∃ way, chain idoms e steps b = .ok way := by
  induction steps generalizing b with
  | zero => omega
  | succ steps ih =>
    rw [chain]
    split
    · exact ⟨[b], rfl⟩
    · rename_i hne
      obtain ⟨d, hd⟩ := Option.isSome_iff_exists.mp hb
      have hlower := hi.lower (by exact_mod_cast hne) hd
      obtain ⟨way, hway⟩ := ih (hi.known hd) (by omega)
      rw [Idoms.parent_eq_ok.mpr hd, ok_bind, hway]
      exact ⟨b :: way, rfl⟩

/-- A way up begins with its block and goes on with the way up from the parent, if there is one. -/
theorem chain_cases (h : chain idoms e (steps + 1) b = .ok way) :
    b = e ∧ way = [e] ∨
      b ≠ e ∧ ∃ d rest, idoms.get? b = some d ∧ chain idoms e steps d = .ok rest ∧ way = b :: rest := by
  rw [chain] at h
  split at h
  · rename_i hbe
    obtain rfl : b = e := by exact_mod_cast hbe
    cases h
    exact .inl ⟨rfl, rfl⟩
  · rename_i hbe
    obtain ⟨d, hd, h⟩ := bind_eq_ok.mp h
    obtain ⟨rest, hrest, h⟩ := bind_eq_ok.mp h
    cases h
    exact .inr ⟨by exact_mod_cast hbe, d, rest, Idoms.parent_eq_ok.mp hd, hrest, rfl⟩

theorem mem_chain_iff (h : chain idoms e steps b = .ok way) :
    x ∈ way ↔ Idoms.Above idoms e x b := by
  induction steps generalizing b way with
  | zero => cases h
  | succ steps ih =>
    rcases chain_cases h with ⟨rfl, rfl⟩ | ⟨hbe, d, rest, hd, hrest, rfl⟩
    · rw [List.mem_singleton]
      exact ⟨fun h => h ▸ .refl, fun h => h.eq_entry⟩
    · rw [List.mem_cons, ih hrest]
      constructor
      · rintro (rfl | h)
        · exact .refl
        · exact .up hbe hd h
      · intro h
        by_cases hxb : x = b
        · exact .inl hxb
        · exact .inr (h.of_ne hxb hd)

end DominatorTree

/-- A graph whose entry is a block has a dominator tree, to which the frontiers are added last. -/
theorem Graph.exists_dominatorTree (hg : g.Mirrored) (he : g.start? = some e) :
    ∃ t, g.dominatorTree = .ok (t.withFrontiers g.pred) ∧ g.IsDominatorTree e t := by
  obtain ⟨hentry, hlt⟩ := start?_eq_some.mp he
  set order := (g.finishOrder [e] [(e, g.succ e)]).reverse with horder
  have hsearch : g.IsSearchOrder e order := isSearchOrder_reverse_finishOrder hg
  have hbound : ∀ b ∈ order, b < g.size := fun b hb =>
    hg.lt_size_of_reaches hlt ((hsearch.mem_iff b).mp hb)
  have hrank : ∀ b, (ranksOf g.size order)[b]?.join =
      if b ∈ order then some (order.idxOf b) else none := fun b =>
    join_getElem?_ranksOf hsearch.nodup hbound
  have hranking : g.IsRanking e order fun b => (ranksOf g.size order)[b]?.join.getD 0 := by
    refine ⟨hsearch, fun i hi => ?_⟩
    rw [hrank, if_pos (List.getElem_mem hi), Option.getD_some, hsearch.nodup.idxOf_getElem]
  obtain ⟨idoms, hidoms, hexact⟩ := immediateDominators_exact hg hlt hranking
  obtain ⟨ways, hways⟩ : ∃ ways, order.mapM (DominatorTree.chain idoms g.entry g.size) = .ok ways := by
    refine exists_mapM fun b hb => ?_
    have hreach := (hsearch.mem_iff b).mp hb
    rw [hentry]
    exact DominatorTree.exists_chain hexact.toRising (hexact.isSome_of_reaches hreach)
      (Nat.lt_of_lt_of_le (hranking.rank_lt hreach) (hranking.length_le hg hlt))
  have hpreds : ∀ p ∈ order.flatMap g.pred, p < (ranksOf g.size order).size := by
    intro p hp
    obtain ⟨b, -, hp⟩ := List.mem_flatMap.mp hp
    rw [size_ranksOf]
    exact lt_size_of_mem_succ (hg.mem_pred.mp hp)
  obtain ⟨looked, hlooked⟩ := exists_mapM_fetch hpreds
  refine ⟨⟨g.entry, order, ranksOf g.size order, idoms, ways.toArray, #[]⟩, ?_, hentry,
    size_ranksOf g.size order, fun {b} => ?_, hranking, hexact, fun {b} hb => ?_⟩
  · rw [dominatorTree, reversePostOrder_eq hg he, ok_bind]
    simp only [← horder, hidoms, hways, hlooked, ok_bind]
    rfl
  · rw [← hsearch.mem_iff b]
    change ((ranksOf g.size order)[b]?.join).isSome = true ↔ b ∈ order
    rw [hrank]
    split <;> simp_all
  · have hmem := (hsearch.mem_iff b).mpr hb
    obtain ⟨way, hway, hchain⟩ := getElem?_of_mapM hways (List.getElem?_idxOf hmem)
    rw [DominatorTree.ancestors, DominatorTree.rank?]
    simp only [hrank, if_pos hmem, DominatorTree.size, size_ranksOf]
    rw [← hentry, hchain]
    simp [hway]

namespace Graph.IsDominatorTree

theorem withFrontiers (h : g.IsDominatorTree e t) (preds : Nat → List Nat) :
    g.IsDominatorTree e (t.withFrontiers preds) :=
  ⟨h.entry, h.size_eq, h.isReachable_iff, h.ranking, h.exact, h.chain_eq⟩

theorem rank_lt (h : g.IsDominatorTree e t) (hg : g.Mirrored) (he : e < g.size)
    (hb : g.Reaches e b) : t.rank b < t.size := by
  have hlt := h.ranking.rank_lt hb
  have hle := h.ranking.length_le hg he
  rw [h.size_eq]
  omega

theorem ancestors_eq_nil (h : g.IsDominatorTree e t) (hb : ¬g.Reaches e b) : t.ancestors b = [] := by
  have hnone : t.rank? b = none :=
    Option.not_isSome_iff_eq_none.mp fun hsome => hb (h.isReachable_iff.mp hsome)
  rw [DominatorTree.ancestors, hnone]

theorem mem_ancestors_iff (h : g.IsDominatorTree e t) : a ∈ t.ancestors b ↔ g.Dominates e a b := by
  by_cases hb : g.Reaches e b
  · rw [DominatorTree.mem_chain_iff (h.chain_eq hb), h.exact.above_iff hb]
  · rw [h.ancestors_eq_nil hb]
    exact ⟨fun hmem => absurd hmem List.not_mem_nil, fun hdom => absurd hdom.reaches hb⟩

theorem dominates_iff (h : g.IsDominatorTree e t) : t.dominates a b = true ↔ g.Dominates e a b := by
  rw [DominatorTree.dominates, decide_eq_true_iff, h.mem_ancestors_iff]

theorem idom?_eq_get? (h : g.IsDominatorTree e t) (hb : g.Reaches e b) :
    t.idom? b = t.idoms.get? b := by
  rw [DominatorTree.idom?, if_pos (h.isReachable_iff.mpr hb)]

theorem idom?_eq_none (h : g.IsDominatorTree e t) (hb : ¬g.Reaches e b) : t.idom? b = none := by
  have hnot : ¬t.isReachable b = true := fun hr => hb (h.isReachable_iff.mp hr)
  rw [DominatorTree.idom?, if_neg hnot]

theorem idom?_entry (h : g.IsDominatorTree e t) : t.idom? e = some e :=
  (h.idom?_eq_get? (.refl e)).trans h.exact.entry

/-- The strict dominators of a block are the dominators of its immediate dominator. -/
theorem exists_idom? (h : g.IsDominatorTree e t) (hb : g.Reaches e b) (hbe : b ≠ e) :
    ∃ d, t.idom? b = some d ∧ g.StrictlyDominates e d b ∧
      ∀ c, g.StrictlyDominates e c b → g.Dominates e c d := by
  obtain ⟨d, hd⟩ := Option.isSome_iff_exists.mp (h.exact.isSome_of_reaches hb)
  have hlower := h.exact.lower hbe hd
  have hdb : g.Dominates e d b := (h.exact.above_iff hb).mp (.up hbe hd .refl)
  refine ⟨d, (h.idom?_eq_get? hb).trans hd, ⟨?_, hdb⟩, fun c hc => ?_⟩
  · rintro rfl
    omega
  · exact (h.exact.above_iff hdb.reaches_left).mp
      (((h.exact.above_iff hb).mpr hc.2).of_ne hc.1 hd)

theorem mem_children_iff (h : g.IsDominatorTree e t) (hg : g.Mirrored) (he : e < g.size) :
    a ∈ t.children b ↔ g.Reaches e a ∧ a ≠ e ∧ t.idom? a = some b := by
  have hentry : (a : Int) ≠ t.entry ↔ a ≠ e := by rw [h.entry, ne_eq, Int.natCast_inj]
  rw [DominatorTree.children, List.mem_filter, List.mem_range, Bool.and_eq_true,
    decide_eq_true_iff, decide_eq_true_iff, hentry, h.size_eq]
  constructor
  · rintro ⟨-, hae, hidom⟩
    refine ⟨?_, hae, hidom⟩
    by_contra hnot
    rw [h.idom?_eq_none hnot] at hidom
    cases hidom
  · rintro ⟨hreach, hae, hidom⟩
    exact ⟨hg.lt_size_of_reaches he hreach, hae, hidom⟩

/-- What a block strictly dominates lies below one of its children. -/
theorem eq_or_exists_child (h : g.IsDominatorTree e t) (hg : g.Mirrored) (he : e < g.size)
    (hbx : g.Dominates e b x) : x = b ∨ ∃ c ∈ t.children b, g.Dominates e c x := by
  have habove := (h.exact.above_iff hbx.reaches).mpr hbx
  have hx := hbx.reaches
  clear hbx
  induction habove with
  | refl => exact .inl rfl
  | up hxe hidom habove ih =>
    rename_i x y
    have hyx : g.Dominates e y x := (h.exact.above_iff hx).mp (.up hxe hidom .refl)
    rcases ih hyx.reaches_left with rfl | ⟨c, hc, hcy⟩
    · refine .inr ⟨x, (h.mem_children_iff hg he).mpr ⟨hx, hxe, ?_⟩, .refl hx⟩
      exact (h.idom?_eq_get? hx).trans hidom
    · exact .inr ⟨c, hc, hcy.trans hyx⟩

end Graph.IsDominatorTree

/-- The dominator tree of a graph says exactly what the paths from its entry say. -/
theorem Graph.dominatorTree_exact (hg : g.Built) (he : g.start? = some e) :
    ∃ t, g.dominatorTree = .ok t ∧
      (∀ a b, t.dominates a b = true ↔
        g.Reaches e a ∧ g.Reaches e b ∧ ∀ p, g.IsPath e p b → a ∈ p) ∧
      t.idom? e = some e ∧
      (∀ b, g.Reaches e b → b ≠ e → ∃ d, t.idom? b = some d ∧ g.StrictlyDominates e d b ∧
        ∀ c, g.StrictlyDominates e c b → g.Dominates e c d) ∧
      ∀ b, ¬g.Reaches e b → t.idom? b = none := by
  have hm := hg.mirrored
  have hlt := (start?_eq_some.mp he).2
  obtain ⟨t₀, ht, h₀⟩ := exists_dominatorTree hm he
  have h := h₀.withFrontiers g.pred
  refine ⟨t₀.withFrontiers g.pred, ht, fun a b => ?_, h.idom?_entry,
    fun b hb hbe => h.exists_idom? hb hbe, fun b hb => h.idom?_eq_none hb⟩
  rw [h.dominates_iff]
  exact ⟨fun hab => ⟨hab.reaches_left, hab.reaches, hab.mem_path⟩, fun hab => ⟨hab.2.1, hab.2.2⟩⟩

/-- Two blocks that lead to each other and can each be entered first, and one that cannot be
entered. -/
def Graph.crossing : Graph Unit :=
  [(0, 1), (0, 2), (1, 2), (2, 1), (1, 0), (3, 1)].foldl (fun g x => g.link x.1 x.2)
    { blocks := #[{}, { id := 1 }, { id := 2 }, { id := 3 }] }

theorem Graph.dominatorTree_exact_crossing :
    crossing.Built ∧ crossing.start? = some 0 ∧
    ∃ t, crossing.dominatorTree = .ok t ∧
      (∀ a b, t.dominates a b = true ↔
        crossing.Reaches 0 a ∧ crossing.Reaches 0 b ∧ ∀ p, crossing.IsPath 0 p b → a ∈ p) ∧
      t.idom? 0 = some 0 ∧
      (∀ b, crossing.Reaches 0 b → b ≠ 0 →
        ∃ d, t.idom? b = some d ∧ crossing.StrictlyDominates 0 d b ∧
          ∀ c, crossing.StrictlyDominates 0 c b → crossing.Dominates 0 c d) ∧
      ∀ b, ¬crossing.Reaches 0 b → t.idom? b = none := by
  have blocks : Built { blocks := #[{}, { id := 1 }, { id := 2 }, { id := 3 }] : Graph Unit } :=
    .addBlock [] (.addBlock [] (.addBlock [] (.addBlock [] (.empty 0))))
  have built : crossing.Built :=
    .addEdge (a := 3) (b := 1) (.addEdge (a := 1) (b := 0) (.addEdge (a := 2) (b := 1)
      (.addEdge (a := 1) (b := 2) (.addEdge (a := 0) (b := 2)
        (.addEdge (a := 0) (b := 1) blocks rfl) rfl) rfl) rfl) rfl) rfl
  exact ⟨built, rfl, dominatorTree_exact built rfl⟩

end LocalFlow
