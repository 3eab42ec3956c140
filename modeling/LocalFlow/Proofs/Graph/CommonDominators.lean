import LocalFlow.Proofs.Graph.Dominators
import Mathlib

/-! The nearest common dominator of two blocks. The way up from a reachable block leads to the entry,
and the first block on it that is also on the way up from another block has all common dominators of
the two above it. -/

namespace LocalFlow

variable {α : Type} {g : Graph α} {e a b c d x : Nat} {t : DominatorTree}

theorem Graph.eq_of_dominates_iff (hc : g.Reaches e c)
    (h : ∀ x, g.Dominates e x c ↔ g.Dominates e x d) : c = d := by
  have hcd : g.Dominates e c d := (h c).mp (.refl hc)
  have hdc : g.Dominates e d c := (h d).mpr (.refl hcd.reaches)
  exact hcd.antisymm hdc

namespace DominatorTree

section Chain

variable {idoms : Idoms} {steps : Nat} {way : List Nat} {wanted : Nat → Bool}

theorem getLast?_chain (h : chain idoms e steps b = .ok way) : way.getLast? = some e := by
  induction steps generalizing b way with
  | zero => cases h
  | succ steps ih =>
    rcases chain_cases h with ⟨-, rfl⟩ | ⟨-, d, rest, -, hrest, rfl⟩
    · rfl
    · rw [List.getLast?_cons, ih hrest]
      rfl

/-- The first wanted block on the way up has all wanted blocks of the way above it. -/
theorem exists_find?_chain (hentry : wanted e = true) (h : chain idoms e steps b = .ok way) :
    ∃ d, way.find? wanted = some d ∧ wanted d = true ∧ Idoms.Above idoms e d b ∧
      ∀ x, wanted x = true → Idoms.Above idoms e x b → Idoms.Above idoms e x d := by
  induction steps generalizing b way with
  | zero => cases h
  | succ steps ih =>
    rcases chain_cases h with ⟨rfl, rfl⟩ | ⟨hbe, y, rest, hy, hrest, rfl⟩
    · exact ⟨b, List.find?_cons_of_pos hentry, hentry, .refl, fun x _ hx => hx⟩
    · cases hwanted : wanted b with
      | true => exact ⟨b, List.find?_cons_of_pos hwanted, hwanted, .refl, fun x _ hx => hx⟩
      | false =>
        obtain ⟨d, hfind, hd, hdy, hall⟩ := ih hrest
        refine ⟨d, ?_, hd, .up hbe hy hdy, fun x hx hxb => hall x hx ?_⟩
        · rw [List.find?_cons_of_neg (by simp [hwanted]), hfind]
        · apply hxb.of_ne _ hy
          rintro rfl
          exact absurd hx (by simp [hwanted])

end Chain

end DominatorTree

namespace Graph.IsDominatorTree

theorem isReachable_eq_false (h : g.IsDominatorTree e t) (hb : ¬g.Reaches e b) :
    t.isReachable b = false := by
  rw [Bool.eq_false_iff]
  exact fun hr => hb (h.isReachable_iff.mp hr)

section Common

variable (h : g.IsDominatorTree e t)
include h

theorem getLast?_ancestors (hb : g.Reaches e b) : (t.ancestors b).getLast? = some e :=
  DominatorTree.getLast?_chain (h.chain_eq hb)

/-- The dominators of the block that is found are the common dominators of the two. -/
theorem commonDominator?_spec (ha : g.Reaches e a) (hb : g.Reaches e b) :
    ∃ d, t.commonDominator? a b = some d ∧
      ∀ x, g.Dominates e x d ↔ g.Dominates e x a ∧ g.Dominates e x b := by
  let wanted (x : Nat) : Bool := decide (x ∈ t.ancestors a) || decide ((x : Int) = t.entry)
  have hwanted : ∀ x, wanted x = true ↔ g.Dominates e x a := by
    intro x
    have hmem := h.mem_ancestors_iff (a := x) (b := a)
    simp only [wanted, Bool.or_eq_true, decide_eq_true_iff, hmem, h.entry, Int.natCast_inj]
    -- the entry, at which the way up is left in any case, dominates `a`
    constructor
    · intro hx
      rcases hx with hx | rfl
      · exact hx
      · exact .entry ha
    · exact .inl
  obtain ⟨d, hfind, hd, hdb, hall⟩ :=
    DominatorTree.exists_find?_chain ((hwanted e).mpr (.entry ha)) (h.chain_eq hb)
  have hda : g.Dominates e d a := (hwanted d).mp hd
  have hdb : g.Dominates e d b := (h.exact.above_iff hb).mp hdb
  have hfound : t.commonDominator? a b = some d := by
    unfold DominatorTree.commonDominator?
    rw [h.isReachable_iff.mpr ha, h.isReachable_iff.mpr hb]
    exact hfind
  refine ⟨d, hfound, fun x => ?_⟩
  constructor
  · exact fun hx => ⟨hx.trans hda, hx.trans hdb⟩
  · intro hx
    have hxd := hall x ((hwanted x).mpr hx.1) ((h.exact.above_iff hb).mpr hx.2)
    exact (h.exact.above_iff hda.reaches_left).mp hxd

theorem commonDominator?_eq_none_iff :
    t.commonDominator? a b = none ↔ ¬g.Reaches e a ∨ ¬g.Reaches e b := by
  constructor
  · intro hnone
    by_contra hin
    rw [not_or, not_not, not_not] at hin
    obtain ⟨d, hd, -⟩ := h.commonDominator?_spec hin.1 hin.2
    rw [hnone] at hd
    cases hd
  · intro hout
    unfold DominatorTree.commonDominator?
    rcases hout with ha | hb
    · simp [h.isReachable_eq_false ha]
    · simp [h.isReachable_eq_false hb]

theorem commonDominator?_comm : t.commonDominator? a b = t.commonDominator? b a := by
  by_cases hin : g.Reaches e a ∧ g.Reaches e b
  · obtain ⟨d, hd, hdom⟩ := h.commonDominator?_spec hin.1 hin.2
    obtain ⟨d', hd', hdom'⟩ := h.commonDominator?_spec hin.2 hin.1
    have hsame : ∀ x, g.Dominates e x d ↔ g.Dominates e x d' := by
      intro x
      rw [hdom, hdom', and_comm]
    rw [hd, hd', eq_of_dominates_iff ((hdom e).mpr ⟨.entry hin.1, .entry hin.2⟩).reaches hsame]
  · have hout : ¬g.Reaches e a ∨ ¬g.Reaches e b := not_and_or.mp hin
    rw [h.commonDominator?_eq_none_iff.mpr hout,
      h.commonDominator?_eq_none_iff.mpr hout.symm]

theorem commonDominator?_eq_left_iff : t.commonDominator? a b = some a ↔ g.Dominates e a b := by
  constructor
  · intro hleft
    have hin : ¬(¬g.Reaches e a ∨ ¬g.Reaches e b) := by
      intro hout
      rw [h.commonDominator?_eq_none_iff.mpr hout] at hleft
      cases hleft
    rw [not_or, not_not, not_not] at hin
    obtain ⟨d, hd, hdom⟩ := h.commonDominator?_spec hin.1 hin.2
    obtain rfl : a = d := Option.some.inj (hleft.symm.trans hd)
    exact ((hdom a).mp (.refl hin.1)).2
  · intro hab
    obtain ⟨d, hd, hdom⟩ := h.commonDominator?_spec hab.reaches_left hab.reaches
    have had : g.Dominates e a d := (hdom a).mpr ⟨.refl hab.reaches_left, hab⟩
    have hda : g.Dominates e d a := ((hdom d).mp (.refl had.reaches)).1
    rw [hd, hda.antisymm had]

end Common

end Graph.IsDominatorTree

/-- The walks up that look for a common dominator end at the entry. What they find for two reachable
blocks dominates both and is dominated by every block that dominates both. -/
theorem Graph.commonDominator_nearest (hg : g.Built) (he : g.start? = some e) :
    ∃ t, g.dominatorTree = .ok t ∧
      (∀ b, g.Reaches e b → (t.ancestors b).getLast? = some e) ∧
      (∀ a b, g.Reaches e a → g.Reaches e b → ∃ d, t.commonDominator? a b = some d ∧
        g.Dominates e d a ∧ g.Dominates e d b ∧
        ∀ c, g.Dominates e c a → g.Dominates e c b → g.Dominates e c d) ∧
      (∀ a b, t.commonDominator? a b = t.commonDominator? b a) ∧
      (∀ a b, t.commonDominator? a b = some a ↔ g.Dominates e a b) ∧
      ∀ a b, t.commonDominator? a b = none ↔ ¬g.Reaches e a ∨ ¬g.Reaches e b := by
  have hm := hg.mirrored
  have hlt := (start?_eq_some.mp he).2
  obtain ⟨t, ht, htree⟩ := exists_dominatorTree hm he
  have h := htree.withFrontiers g.pred
  refine ⟨_, ht, fun b => h.getLast?_ancestors, fun a b ha hb => ?_,
    fun a b => h.commonDominator?_comm, fun a b => h.commonDominator?_eq_left_iff,
    fun a b => h.commonDominator?_eq_none_iff⟩
  obtain ⟨d, hd, hdom⟩ := h.commonDominator?_spec ha hb
  have hboth := (hdom d).mp (.refl ((hdom e).mpr ⟨.entry ha, .entry hb⟩).reaches)
  exact ⟨d, hd, hboth.1, hboth.2, fun c hca hcb => (hdom c).mpr ⟨hca, hcb⟩⟩

/-- Block 1 is entered from the entry and again from where its two arms meet, and a block that cannot
be entered leads into one of the arms. -/
def Graph.forked : Graph Unit :=
  [(0, 1), (1, 2), (1, 3), (2, 4), (3, 4), (4, 1), (5, 3)].foldl (fun g x => g.link x.1 x.2)
    { blocks := #[{}, { id := 1 }, { id := 2 }, { id := 3 }, { id := 4 }, { id := 5 }] }

theorem Graph.commonDominator_nearest_forked :
    forked.Built ∧ forked.start? = some 0 ∧
    ∃ t, forked.dominatorTree = .ok t ∧ t.commonDominator? 3 4 = some 1 ∧
      t.commonDominator? 3 5 = none ∧
      (∀ b, forked.Reaches 0 b → (t.ancestors b).getLast? = some 0) ∧
      (∀ a b, forked.Reaches 0 a → forked.Reaches 0 b → ∃ d, t.commonDominator? a b = some d ∧
        forked.Dominates 0 d a ∧ forked.Dominates 0 d b ∧
        ∀ c, forked.Dominates 0 c a → forked.Dominates 0 c b → forked.Dominates 0 c d) ∧
      (∀ a b, t.commonDominator? a b = t.commonDominator? b a) ∧
      (∀ a b, t.commonDominator? a b = some a ↔ forked.Dominates 0 a b) ∧
      ∀ a b, t.commonDominator? a b = none ↔ ¬forked.Reaches 0 a ∨ ¬forked.Reaches 0 b := by
  have blocks : Built { blocks := #[{}, { id := 1 }, { id := 2 }, { id := 3 }, { id := 4 },
      { id := 5 }] : Graph Unit } :=
    .addBlock [] (.addBlock [] (.addBlock [] (.addBlock [] (.addBlock [] (.addBlock [] (.empty 0))))))
  have built : forked.Built := blocks.linkAll (by decide)
  have hvalues : (forked.dominatorTree.map fun t => (t.commonDominator? 3 4, t.commonDominator? 3 5)) =
      .ok (some 1, none) := by cbv
  obtain ⟨t, ht, hrest⟩ := commonDominator_nearest built rfl
  rw [ht] at hvalues
  have hpair := Except.ok.inj hvalues
  exact ⟨built, rfl, t, ht, congrArg Prod.fst hpair, congrArg Prod.snd hpair, hrest⟩

end LocalFlow
