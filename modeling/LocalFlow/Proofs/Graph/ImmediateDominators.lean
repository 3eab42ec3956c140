import LocalFlow.Proofs.Graph.Ancestors
import Mathlib.Algebra.BigOperators.Group.Finset.Basic
import Mathlib.Algebra.Order.BigOperators.Group.Finset
import Mathlib.Tactic.Ring

/-! The passes that find immediate dominators. While they run, the ancestors of a block include all
its dominators and only ever get fewer; when a pass changes nothing, they are its dominators. -/

namespace LocalFlow.Idoms

variable {α : Type} {g : Graph α} {e r : Nat} {order : List Nat} {rank : Nat → Nat}
  {idoms idoms' : Idoms} {b c d q x y : Nat}

/-- What holds in a pass that has come to the block of rank `r`. -/
structure Approaches (g : Graph α) (e : Nat) (rank : Nat → Nat) (r : Nat) (idoms : Idoms) : Prop
    extends idoms.Rising g e rank where
  settled : ∀ {b}, g.Reaches e b → rank b < r → (idoms.get? b).isSome
  downward : ∀ {b c}, (idoms.get? c).isSome → g.Reaches e b → rank b ≤ rank c → (idoms.get? b).isSome
  /-- No dominator is missing from the ancestors. -/
  keeps : ∀ {x b}, (idoms.get? b).isSome → g.Dominates e x b → Above idoms e x b
  /-- A block has all common ancestors of its predecessors, so a new parent is an old ancestor. -/
  above_of_preds : ∀ {x b}, (idoms.get? b).isSome → b ≠ e →
    (∀ p, b ∈ g.succ p → (idoms.get? p).isSome → Above idoms e x p) → Above idoms e x b
  /-- Ancestors are shared with the predecessors of lower rank. The pass may have moved these since
  it last came to the block, but not those parts of their ways up that it has yet to come to. -/
  shared : ∀ {q b y}, (idoms.get? b).isSome → b ≠ e → (idoms.get? q).isSome → b ∈ g.succ q →
    rank q < rank b → Above idoms e y b → y ≠ b → rank b < r ∨ r ≤ rank y → Above idoms e y q

namespace Approaches

section Step

variable (hr : g.IsRanking e order rank) (ha : idoms.Approaches g e rank r)
  (hm : Moves e rank idoms idoms' b d) (hb : g.Reaches e b) (hrank : rank b = r)
  (hd : ∀ x, Above idoms e x d ↔ ∀ p, b ∈ g.succ p → (idoms.get? p).isSome → Above idoms e x p)

include ha hm hd in
/-- A move leaves no block with an ancestor that it did not have. -/
theorem above_of_moves (hc : (idoms.get? c).isSome) (h : Above idoms' e x c) :
    Above idoms e x c := by
  rcases hm.above_cases ha.toRising h with ⟨-, h⟩ | ⟨hbc, ⟨-, h⟩ | h⟩
  · exact h
  · exact h
  · have hknown := hbc.known ha.toRising hc
    exact (ha.above_of_preds hknown hm.ne_entry ((hd x).mp h)).trans hbc

include hr ha hrank in
/-- A dominator of a block below `b` that ranks above `b` dominates `b`. -/
theorem dominates_of_below (hbc : Above idoms e b c) (hc : (idoms.get? c).isSome ∨ c = b)
    (hx : g.Dominates e x c) (hlt : rank x < rank b) : g.Dominates e x b := by
  induction hn : rank c using Nat.strong_induction_on generalizing c with
  | _ n ih =>
    by_cases hcb : c = b
    · exact hcb ▸ hx
    · have hknown := hc.resolve_right hcb
      have hreach := ha.reaches_of_isSome hknown
      have hbelow := hbc.rank_lt ha.toRising (Ne.symm hcb)
      have hce : c ≠ e := by
        rintro rfl
        rw [hr.rank_entry] at hbelow
        omega
      obtain ⟨q, hq, hcq, hqc⟩ := hr.exists_lower hreach hce
      have hqknown := ha.downward hknown hq (Nat.le_of_lt hqc)
      have hbq : Above idoms e b q :=
        ha.shared hknown hce hqknown hcq hqc hbc (Ne.symm hcb) (.inr (Nat.le_of_eq hrank.symm))
      have hxc : x ≠ c := by
        rintro rfl
        omega
      exact ih (rank q) (by omega) hbq (.inl hqknown) (hx.of_succ hxc hq hcq) rfl

include hr ha hm hb hrank hd

theorem keeps_of_moves (hc : (idoms'.get? c).isSome) (hx : g.Dominates e x c) :
    Above idoms' e x c := by
  by_cases hbc : Above idoms e b c
  · by_cases hlt : rank x < rank b
    · have hc' : (idoms.get? c).isSome ∨ c = b := by
        by_cases hcb : c = b
        · exact .inr hcb
        · exact .inl (hm.get?_of_ne hcb ▸ hc)
      have hxb := ha.dominates_of_below hr hrank hbc hc' hx hlt
      refine hm.above_parent ha.toRising hbc ((hd x).mpr fun p hbp hp => ?_)
      refine ha.keeps hp (hxb.of_succ ?_ (ha.reaches_of_isSome hp) hbp)
      rintro rfl
      omega
    · by_cases hcb : c = b
      · subst hcb
        by_cases hxc : x = c
        · exact hxc ▸ .refl
        · refine hm.above_parent ha.toRising .refl ((hd x).mpr fun p hbp hp => ?_)
          exact ha.keeps hp (hx.of_succ hxc (ha.reaches_of_isSome hp) hbp)
      · rw [hm.get?_of_ne hcb] at hc
        exact hm.above_of_rank_le ha.toRising (ha.keeps hc hx) (by omega)
  · have hcb : c ≠ b := fun hcb => hbc (hcb ▸ .refl)
    rw [hm.get?_of_ne hcb] at hc
    exact hm.above_of_not_below (ha.keeps hc hx) hbc

theorem above_of_preds_of_moves (hc : (idoms'.get? c).isSome) (hce : c ≠ e)
    (h : ∀ p, c ∈ g.succ p → (idoms'.get? p).isSome → Above idoms' e x p) :
    Above idoms' e x c := by
  have hknown' : ∀ p, (idoms.get? p).isSome → (idoms'.get? p).isSome := by
    intro p hp
    by_cases hpb : p = b
    · rw [hpb, hm.get?_self]
      rfl
    · rwa [hm.get?_of_ne hpb]
  have hold : ∀ p, c ∈ g.succ p → (idoms.get? p).isSome → Above idoms e x p := fun p hcp hp =>
    ha.above_of_moves hm hd hp (h p hcp (hknown' p hp))
  by_cases hcb : c = b
  · subst hcb
    exact hm.above_parent ha.toRising .refl ((hd x).mpr hold)
  · have hc' : (idoms.get? c).isSome := hm.get?_of_ne hcb ▸ hc
    have hxc := ha.above_of_preds hc' hce hold
    by_cases hbc : Above idoms e b c
    · by_cases hle : rank b ≤ rank x
      · exact hm.above_of_rank_le ha.toRising hxc hle
      · -- a predecessor of lower rank is below `b` as well, and has kept `x` past the move
        obtain ⟨q, hq, hcq, hqc⟩ := hr.exists_lower (ha.reaches_of_isSome hc') hce
        have hqknown := ha.downward hc' hq (Nat.le_of_lt hqc)
        have hbq : Above idoms e b q :=
          ha.shared hc' hce hqknown hcq hqc hbc (Ne.symm hcb) (.inr (Nat.le_of_eq hrank.symm))
        rcases hm.above_cases ha.toRising (h q hcq (hknown' q hqknown)) with
          ⟨hnot, -⟩ | ⟨-, ⟨hle', -⟩ | hxd⟩
        · exact absurd hbq hnot
        · exact absurd hle' hle
        · exact hm.above_parent ha.toRising hbc hxd
    · exact hm.above_of_not_below hxc hbc

theorem shared_of_moves (hc : (idoms'.get? c).isSome) (hce : c ≠ e) (hq : (idoms'.get? q).isSome)
    (hcq : c ∈ g.succ q) (hqc : rank q < rank c) (hy : Above idoms' e y c) (hyc : y ≠ c)
    (hcase : rank c < r + 1 ∨ r + 1 ≤ rank y) : Above idoms' e y q := by
  by_cases hcb : c = b
  · subst hcb
    have hqb : q ≠ c := by
      rintro rfl
      omega
    rw [hm.get?_of_ne hqb] at hq
    have hyd : Above idoms e y d := by
      rcases hm.above_cases ha.toRising (hy.of_ne hyc hm.get?_self) with ⟨-, h⟩ | ⟨h, -⟩
      · exact h
      · exact absurd h (hm.not_above ha.toRising)
    refine hm.above_of_not_below ((hd y).mp hyd q hcq hq) fun hbq => ?_
    exact absurd (hbq.rank_le ha.toRising) (by omega)
  · rw [hm.get?_of_ne hcb] at hc
    have hreach := ha.reaches_of_isSome hc
    have hqold : (idoms.get? q).isSome := by
      by_cases hqb : q = b
      · exact hqb ▸ ha.downward hc hb (by rw [← hqb]; omega)
      · rwa [hm.get?_of_ne hqb] at hq
    have hcr : rank c ≠ r := fun h => hcb (hr.rank_inj hreach hb (h.trans hrank.symm))
    rcases hcase with hlt | hge
    · have hnot : ∀ z, rank z ≤ rank c → ¬Above idoms e b z := fun z hz hbz =>
        absurd (hbz.rank_le ha.toRising) (by omega)
      have hyc' : Above idoms e y c := ha.above_of_moves hm hd hc hy
      exact hm.above_of_not_below
        (ha.shared hc hce hqold hcq hqc hyc' hyc (.inl (by omega))) (hnot q (by omega))
    · have hyc' := (hm.above_iff_of_rank_le ha.toRising (by omega)).mp hy
      exact hm.above_of_rank_le ha.toRising
        (ha.shared hc hce hqold hcq hqc hyc' hyc (.inr (by omega))) (by omega)

/-- What holds before a block is moved to its candidate holds one rank further after it. -/
theorem step : idoms'.Approaches g e rank (r + 1) where
  toRising := hm.rising ha.toRising hb
  settled {c} hc hlt := by
    by_cases hcb : c = b
    · rw [hcb, hm.get?_self]
      rfl
    · rw [hm.get?_of_ne hcb]
      refine ha.settled hc ?_
      have hne : rank c ≠ r := fun h => hcb (hr.rank_inj hc hb (h.trans hrank.symm))
      omega
  downward {q c} hc hq hle := by
    by_cases hqb : q = b
    · rw [hqb, hm.get?_self]
      rfl
    · rw [hm.get?_of_ne hqb]
      by_cases hcb : c = b
      · refine ha.settled hq ?_
        have hne : rank q ≠ r := fun h => hqb (hr.rank_inj hq hb (h.trans hrank.symm))
        rw [hcb] at hle
        omega
      · rw [hm.get?_of_ne hcb] at hc
        exact ha.downward hc hq hle
  keeps := ha.keeps_of_moves hr hm hb hrank hd
  above_of_preds := ha.above_of_preds_of_moves hr hm hb hrank hd
  shared := ha.shared_of_moves hr hm hb hrank hd

end Step

/-- A pass that has come to its end has all blocks settled, and the next one may begin. -/
theorem restart (hr : g.IsRanking e order rank) (ha : idoms.Approaches g e rank order.length) :
    idoms.Approaches g e rank r where
  toRising := ha.toRising
  settled hb _ := ha.settled hb (hr.rank_lt hb)
  downward := ha.downward
  keeps := ha.keeps
  above_of_preds := ha.above_of_preds
  shared hc hce hq hcq hqc hy hyc _ :=
    ha.shared hc hce hq hcq hqc hy hyc (.inl (hr.rank_lt (ha.reaches_of_isSome hc)))

end Approaches

/-- Falls whenever a block gets its first parent or one of lower rank. -/
def potential (size : Nat) (rank : Nat → Nat) (idoms : Idoms) : Nat :=
  ∑ b ∈ Finset.range size, (idoms.get? b).elim size rank

theorem Moves.potential_lt {size : Nat} (hm : Moves e rank idoms idoms' b d) (hb : b < size)
    (hlt : rank d < (idoms.get? b).elim size rank) :
    potential size rank idoms' < potential size rank idoms := by
  refine Finset.sum_lt_sum (fun c _ => ?_) ⟨b, Finset.mem_range.mpr hb, ?_⟩
  · by_cases hcb : c = b
    · subst hcb
      rw [hm.get?_self]
      exact Nat.le_of_lt hlt
    · rw [hm.get?_of_ne hcb]
  · rw [hm.get?_self]
    exact hlt

/-- Behind the first of blocks of consecutive ranks the ranks go on from the next one. -/
theorem rank_tail {b : Nat} {blocks : List Nat}
    (h : ∀ i (hi : i < (b :: blocks).length), rank (b :: blocks)[i] = r + i) (i : Nat)
    (hi : i < blocks.length) : rank blocks[i] = r + 1 + i := by
  have hnext := h (i + 1) (by simpa using hi)
  rw [List.getElem_cons_succ] at hnext
  omega

section Pass

variable (hg : g.Mirrored) (he : e < g.size) (hr : g.IsRanking e order rank)
include hg he hr

/-- Moving a block to its candidate succeeds and keeps what holds, and lowers the potential if it
changes anything. -/
theorem update_spec (ha : idoms.Approaches g e rank r) (hb : g.Reaches e b) (hbe : b ≠ e)
    (hrank : rank b = r) (changed : Bool) :
    ∃ next, update rank g.pred (idoms, changed) b = .ok next ∧
      next.1.Approaches g e rank (r + 1) ∧
      (next = (idoms, changed) ∧ idoms.candidate rank (g.pred b) = .ok (idoms.get? b) ∨
        next.2 = true ∧ potential g.size rank next.1 < potential g.size rank idoms) := by
  have hlt := hg.lt_size_of_reaches he hb
  have hsize : b < idoms.size := ha.size_eq ▸ hlt
  obtain ⟨q, hq, hbq, hqb⟩ := hr.exists_lower hb hbe
  have hqknown := ha.settled hq (hrank ▸ hqb)
  obtain ⟨d, hcand, hdknown, hd⟩ := candidate_spec_of_mem hr ha.toRising (ha.pred_lt hg)
    (hg.mem_pred.mpr hbq) hqknown
  have hd' : ∀ x, Above idoms e x d ↔
      ∀ p, b ∈ g.succ p → (idoms.get? p).isSome → Above idoms e x p := by
    intro x
    simp only [hd x, hg.mem_pred]
  have hdq : Above idoms e d q := (hd' d).mp .refl q hbq hqknown
  have hlower : rank d < rank b := Nat.lt_of_le_of_lt (hdq.rank_le ha.toRising) hqb
  have hmoves : Moves e rank idoms (idoms.setIfInBounds b (some d)) b d :=
    ⟨hbe, Array.size_setIfInBounds, fun c => get?_setIfInBounds hsize, hdknown, hlower⟩
  have hnext := ha.step hr hmoves hb hrank hd'
  rw [update, hcand, ok_bind]
  simp only [fetch_eq_get? hsize, ok_bind]
  split
  · rename_i hsame
    exact ⟨_, rfl, setIfInBounds_eq_self hsame ▸ hnext, .inl ⟨rfl, hsame ▸ rfl⟩⟩
  · rename_i hother
    rw [assign_eq_ok.mpr ⟨hsize, rfl⟩, ok_bind]
    refine ⟨_, rfl, hnext, .inr ⟨rfl, hmoves.potential_lt hlt ?_⟩⟩
    cases hold : idoms.get? b with
    | none =>
      have hlen := hr.length_le hg he
      have hdlt := hr.rank_lt (ha.reaches_of_isSome hdknown)
      exact Nat.lt_of_lt_of_le hdlt hlen
    | some d₀ =>
      -- the new parent is an old ancestor, and not the old parent
      have hdb : Above idoms e d b :=
        ha.above_of_preds (by rw [hold]; rfl) hbe ((hd' d).mp .refl)
      have hne : d ≠ b := by
        rintro rfl
        omega
      refine (hdb.of_ne hne hold).rank_lt ha.toRising ?_
      rintro rfl
      exact hother hold

/-- A pass over blocks of consecutive ranks succeeds and keeps what holds. If it changes nothing, every
block has its candidate for its parent. -/
theorem pass_spec {blocks : List Nat} (ha : idoms.Approaches g e rank r)
    (hranks : ∀ i (h : i < blocks.length), rank blocks[i] = r + i)
    (hblocks : ∀ b ∈ blocks, g.Reaches e b ∧ b ≠ e) (changed : Bool) :
    ∃ next, blocks.foldlM (update rank g.pred) (idoms, changed) = .ok next ∧
      next.1.Approaches g e rank (r + blocks.length) ∧
      (next = (idoms, changed) ∧
          (∀ b ∈ blocks, idoms.candidate rank (g.pred b) = .ok (idoms.get? b)) ∨
        next.2 = true ∧ potential g.size rank next.1 < potential g.size rank idoms) := by
  induction blocks generalizing idoms r changed with
  | nil => exact ⟨_, rfl, ha, .inl ⟨rfl, by simp⟩⟩
  | cons b blocks ih =>
    have hb := hblocks b (by simp)
    have hrest := rank_tail hranks
    have hblocks' : ∀ c ∈ blocks, g.Reaches e c ∧ c ≠ e := fun c hc => hblocks c (.tail _ hc)
    obtain ⟨next, hnext, hstep, hcase⟩ :=
      update_spec hg he hr ha hb.1 hb.2 (hranks 0 (by simp)) changed
    obtain ⟨last, hlast, hdone, hcase'⟩ := ih hstep hrest hblocks' next.2
    rw [List.length_cons, show r + (blocks.length + 1) = r + 1 + blocks.length by omega]
    refine ⟨last, foldlM_cons_eq_ok.mpr ⟨next, hnext, hlast⟩, hdone, ?_⟩
    rcases hcase with ⟨rfl, hcand⟩ | ⟨htrue, hless⟩
    · refine hcase'.imp_left fun h => ⟨h.1, ?_⟩
      exact List.forall_mem_cons.mpr ⟨hcand, h.2⟩
    · refine .inr ?_
      rcases hcase' with ⟨rfl, -⟩ | ⟨htrue', hless'⟩
      · exact ⟨htrue, hless⟩
      · exact ⟨htrue', hless'.trans hless⟩

theorem pass_rest_spec {rest : List Nat} (horder : order = e :: rest)
    (ha : idoms.Approaches g e rank 1) :
    ∃ next, idoms.pass rank g.pred rest = .ok next ∧ next.1.Approaches g e rank order.length ∧
      (next = (idoms, false) ∧ (∀ b ∈ rest, idoms.candidate rank (g.pred b) = .ok (idoms.get? b)) ∨
        next.2 = true ∧ potential g.size rank next.1 < potential g.size rank idoms) := by
  have hlength : order.length = 1 + rest.length := by
    rw [horder, List.length_cons, Nat.add_comm]
  rw [hlength]
  exact pass_spec hg he hr ha (hr.rank_rest horder) (fun b => hr.mem_rest horder) false

/-- With more passes than the potential there is one that changes nothing. -/
theorem settle_spec {passes : Nat} {rest : List Nat} (horder : order = e :: rest)
    (ha : idoms.Approaches g e rank 1) (hpasses : potential g.size rank idoms < passes) :
    ∃ last, settle rank g.pred rest passes idoms = .ok last ∧
      last.Approaches g e rank order.length ∧
      ∀ b ∈ rest, last.candidate rank (g.pred b) = .ok (last.get? b) := by
  induction passes generalizing idoms with
  | zero => omega
  | succ passes ih =>
    obtain ⟨next, hnext, hdone, hcase⟩ := pass_rest_spec hg he hr horder ha
    rw [settle, hnext, ok_bind]
    rcases hcase with ⟨rfl, hcand⟩ | ⟨htrue, hless⟩
    · exact ⟨idoms, rfl, hdone, hcand⟩
    · rw [htrue]
      exact ih (hdone.restart hr) (by omega)

omit hg in
theorem approaches_initial :
    Approaches g e rank 1 ((Array.replicate g.size none).setIfInBounds e (some e)) := by
  have hget : ∀ c, get? ((Array.replicate g.size none).setIfInBounds e (some e)) c =
      if c = e then some e else none := by
    intro c
    rw [get?_setIfInBounds (by simpa using he)]
    split
    · rfl
    · rw [get?, Array.getElem?_replicate]
      split <;> rfl
  have hknown : ∀ c, (get? ((Array.replicate g.size none).setIfInBounds e (some e)) c).isSome →
      c = e := by
    intro c hc
    by_contra hne
    simp [hget, hne] at hc
  have hentry : get? ((Array.replicate g.size none).setIfInBounds e (some e)) e = some e := by
    simp [hget]
  refine ⟨⟨by simp, hentry, fun {b d} hd => ?_, fun {b d} hd => ?_, fun {b d} hne hd => ?_⟩,
    fun {b} hb hlt => ?_, fun {b c} hc hb hle => ?_, fun {x b} hb hx => ?_,
    fun {x b} hb hne _ => ?_, fun {q b y} hb hne => ?_⟩
  · rw [hknown b (by rw [hd]; rfl)]
    exact .refl e
  · obtain rfl := hknown b (by rw [hd]; rfl)
    obtain rfl : b = d := Option.some.inj (hentry.symm.trans hd)
    rw [hentry]
    rfl
  · exact absurd (hknown b (by rw [hd]; rfl)) hne
  · have hbe : b = e := by
      by_contra hne
      have := hr.rank_pos hb hne
      omega
    rw [hbe, hentry]
    rfl
  · have hbe : b = e := by
      by_contra hne
      have hpos := hr.rank_pos hb hne
      rw [hknown c hc, hr.rank_entry] at hle
      omega
    rw [hbe, hentry]
    rfl
  · obtain rfl := hknown b hb
    rw [hx.eq_entry]
    exact .refl
  · exact absurd (hknown b hb) hne
  · exact absurd (hknown b hb) hne

theorem potential_initial_lt :
    potential g.size rank ((Array.replicate g.size none).setIfInBounds e (some e)) <
      (g.size + 1) * (g.size + 1) := by
  have hle : potential g.size rank ((Array.replicate g.size none).setIfInBounds e (some e)) ≤
      (Finset.range g.size).card • g.size := by
    refine Finset.sum_le_card_nsmul _ _ _ fun b _ => ?_
    cases hb : get? ((Array.replicate g.size none).setIfInBounds e (some e)) b with
    | none => exact Nat.le_refl _
    | some d =>
      have ha := approaches_initial he hr
      have hlt := hr.rank_lt (ha.reaches_of_isSome (ha.known hb))
      exact Nat.le_of_lt (Nat.lt_of_lt_of_le hlt (hr.length_le hg he))
  rw [Finset.card_range, Nat.nsmul_eq_mul] at hle
  have hmul : (g.size + 1) * (g.size + 1) = g.size * g.size + 2 * g.size + 1 := by ring
  omega

end Pass

/-- A table in which the ancestors of the reachable blocks are their dominators. -/
structure Exact (g : Graph α) (e : Nat) (rank : Nat → Nat) (idoms : Idoms) : Prop
    extends idoms.Rising g e rank where
  isSome_of_reaches : ∀ {b}, g.Reaches e b → (idoms.get? b).isSome
  above_iff : ∀ {x b}, g.Reaches e b → (Above idoms e x b ↔ g.Dominates e x b)

/-- If every block has its candidate for its parent, each of its ancestors is on every path to it. -/
theorem Approaches.exact (hg : g.Mirrored) (hr : g.IsRanking e order rank)
    (ha : idoms.Approaches g e rank order.length)
    (hfix : ∀ b, g.Reaches e b → b ≠ e → idoms.candidate rank (g.pred b) = .ok (idoms.get? b)) :
    idoms.Exact g e rank where
  toRising := ha.toRising
  isSome_of_reaches hb := ha.settled hb (hr.rank_lt hb)
  above_iff {x b} hb := by
    have hknown : ∀ b, g.Reaches e b → (idoms.get? b).isSome := fun b hb =>
      ha.settled hb (hr.rank_lt hb)
    refine ⟨fun hx => ⟨hb, fun p hp => ?_⟩, ha.keeps (hknown b hb)⟩
    refine hp.induction_snoc (motive := fun p b => ∀ x, Above idoms e x b → x ∈ p) ?_ ?_ x hx
    · intro x hx
      simp [hx.eq_entry]
    · intro p b c hp hcb ih x hx
      by_cases hce : c = e
      · subst hce
        rw [hx.eq_entry]
        exact List.mem_append_left _ hp.first_mem
      · by_cases hxc : x = c
        · simp [hxc]
        · have hb := hknown b ⟨p, hp⟩
          obtain ⟨d, hd, -, habove⟩ := candidate_spec_of_mem hr ha.toRising (ha.pred_lt hg)
            (hg.mem_pred.mpr hcb) hb
          have hcd : idoms.get? c = some d :=
            Except.ok.inj ((hfix c ⟨_, hp.snoc hcb⟩ hce).symm.trans hd)
          have hxb := (habove x).mp (hx.of_ne hxc hcd) b (hg.mem_pred.mpr hcb) hb
          exact List.mem_append_left _ (ih x hxb)

end LocalFlow.Idoms

namespace LocalFlow.Graph

variable {α : Type} {g : Graph α} {e : Nat} {order : List Nat} {rank : Nat → Nat}

theorem immediateDominators_exact (hg : g.Mirrored) (he : e < g.size)
    (hr : g.IsRanking e order rank) :
    ∃ idoms, g.immediateDominators order rank = .ok idoms ∧ idoms.Exact g e rank := by
  obtain ⟨rest, horder⟩ := List.head?_eq_some_iff.mp hr.head
  obtain ⟨idoms, hsettle, ha, hfix⟩ := Idoms.settle_spec hg he hr horder
    (Idoms.approaches_initial he hr) (Idoms.potential_initial_lt hg he hr)
  refine ⟨idoms, ?_, ha.exact hg hr fun b hb hbe => hfix b ?_⟩
  · have hassign : assign (Array.replicate g.size none) e (some e) =
        .ok ((Array.replicate g.size none).setIfInBounds e (some e)) :=
      assign_eq_ok.mpr ⟨by simpa using he, rfl⟩
    subst horder
    rw [immediateDominators, hassign]
    exact hsettle
  · have hmem := (hr.mem_iff b).mpr hb
    rw [horder] at hmem
    exact (List.mem_cons.mp hmem).resolve_left hbe

end LocalFlow.Graph
