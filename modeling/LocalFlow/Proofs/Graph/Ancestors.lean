import LocalFlow.Graph.Dominators
import LocalFlow.Proofs.Graph.Order
import LocalFlow.Proofs.Outcome

/-! Ancestors in a table of immediate dominators that may still be incomplete: what two walks up
find where they meet, and how ancestors change when one block moves to another parent. -/

namespace LocalFlow

structure Graph.IsRanking {α : Type} (g : Graph α) (e : Nat) (order : List Nat)
    (rank : Nat → Nat) : Prop extends g.IsSearchOrder e order where
  rank_getElem : ∀ i (h : i < order.length), rank order[i] = i

namespace Graph.IsRanking

variable {α : Type} {g : Graph α} {e a b : Nat} {order : List Nat} {rank : Nat → Nat}

theorem rank_eq_idxOf (h : g.IsRanking e order rank) (hb : g.Reaches e b) :
    rank b = order.idxOf b := by
  have hlt := List.idxOf_lt_length_of_mem ((h.mem_iff b).mpr hb)
  have hrank := h.rank_getElem _ hlt
  rwa [List.getElem_idxOf] at hrank

theorem rank_lt (h : g.IsRanking e order rank) (hb : g.Reaches e b) : rank b < order.length := by
  rw [h.rank_eq_idxOf hb]
  exact List.idxOf_lt_length_of_mem ((h.mem_iff b).mpr hb)

theorem rank_inj (h : g.IsRanking e order rank) (ha : g.Reaches e a) (hb : g.Reaches e b)
    (hab : rank a = rank b) : a = b := by
  rw [h.rank_eq_idxOf ha, h.rank_eq_idxOf hb] at hab
  exact (List.idxOf_inj ((h.mem_iff a).mpr ha)).mp hab

theorem rank_entry (h : g.IsRanking e order rank) : rank e = 0 := by
  obtain ⟨rest, hrest⟩ := List.head?_eq_some_iff.mp h.head
  rw [h.rank_eq_idxOf (.refl e), hrest, List.idxOf_cons_self]

theorem rank_pos (h : g.IsRanking e order rank) (hb : g.Reaches e b) (hne : b ≠ e) :
    0 < rank b := by
  by_contra hzero
  exact hne (h.rank_inj hb (.refl e) (by rw [h.rank_entry]; omega))

theorem exists_lower (h : g.IsRanking e order rank) (hb : g.Reaches e b) (hne : b ≠ e) :
    ∃ p, g.Reaches e p ∧ b ∈ g.succ p ∧ rank p < rank b := by
  obtain ⟨p, hp, hsub⟩ := h.exists_earlier b ((h.mem_iff b).mpr hb) hne
  have hpr : g.Reaches e p := (h.mem_iff p).mp (hsub.subset (by simp))
  refine ⟨p, hpr, hp, ?_⟩
  rw [h.rank_eq_idxOf hpr, h.rank_eq_idxOf hb]
  exact idxOf_lt_idxOf h.nodup hsub

theorem rank_rest {rest : List Nat} (h : g.IsRanking e order rank) (horder : order = e :: rest)
    (i : Nat) (hi : i < rest.length) : rank rest[i] = 1 + i := by
  have hrank := h.rank_getElem (i + 1) (by simpa [horder] using hi)
  simp only [horder, List.getElem_cons_succ] at hrank
  omega

theorem mem_rest {rest : List Nat} (h : g.IsRanking e order rank) (horder : order = e :: rest)
    (hb : b ∈ rest) : g.Reaches e b ∧ b ≠ e := by
  have hnodup := h.nodup
  rw [horder, List.nodup_cons] at hnodup
  refine ⟨(h.mem_iff b).mp (by simp [horder, hb]), ?_⟩
  rintro rfl
  exact hnodup.1 hb

end Graph.IsRanking

namespace Idoms

/-- Block `x` is `b` itself or comes on the way from `b` up to `e`. -/
inductive Above (idoms : Idoms) (e x : Nat) : Nat → Prop
  | refl : Above idoms e x x
  | up {b d : Nat} : b ≠ e → idoms.get? b = some d → Above idoms e x d → Above idoms e x b

variable {α : Type} {g : Graph α} {e : Nat} {order : List Nat} {rank : Nat → Nat} {idoms : Idoms}
  {a b c d x y : Nat}

/-- The dominators known so far are reachable blocks of falling rank, and lead up to `e`. -/
structure Rising (g : Graph α) (e : Nat) (rank : Nat → Nat) (idoms : Idoms) : Prop where
  size_eq : idoms.size = g.size
  entry : idoms.get? e = some e
  reaches : ∀ {b d : Nat}, idoms.get? b = some d → g.Reaches e b
  known : ∀ {b d : Nat}, idoms.get? b = some d → (idoms.get? d).isSome
  lower : ∀ {b d : Nat}, b ≠ e → idoms.get? b = some d → rank d < rank b

namespace Above

theorem trans (hxy : Above idoms e x y) (hyb : Above idoms e y b) : Above idoms e x b := by
  induction hyb with
  | refl => exact hxy
  | up hne hd _ ih => exact .up hne hd ih

theorem eq_entry (h : Above idoms e x e) : x = e := by
  cases h with
  | refl => rfl
  | up hne _ _ => exact absurd rfl hne

theorem of_ne (h : Above idoms e x b) (hne : x ≠ b) (hd : idoms.get? b = some d) :
    Above idoms e x d := by
  cases h with
  | refl => exact absurd rfl hne
  | up _ hd' h => exact Option.some.inj (hd'.symm.trans hd) ▸ h

theorem rank_le (hi : idoms.Rising g e rank) (h : Above idoms e x b) : rank x ≤ rank b := by
  induction h with
  | refl => exact Nat.le_refl _
  | up hne hd _ ih => exact Nat.le_of_lt (Nat.lt_of_le_of_lt ih (hi.lower hne hd))

theorem rank_lt (hi : idoms.Rising g e rank) (h : Above idoms e x b) (hne : x ≠ b) :
    rank x < rank b := by
  cases h with
  | refl => exact absurd rfl hne
  | up hbe hd h => exact Nat.lt_of_le_of_lt (h.rank_le hi) (hi.lower hbe hd)

theorem known (hi : idoms.Rising g e rank) (h : Above idoms e x b) (hb : (idoms.get? b).isSome) :
    (idoms.get? x).isSome := by
  induction h with
  | refl => exact hb
  | up _ hd _ ih => exact ih (hi.known hd)

end Above

theorem Rising.reaches_of_isSome (hi : idoms.Rising g e rank) (hb : (idoms.get? b).isSome) :
    g.Reaches e b := by
  obtain ⟨d, hd⟩ := Option.isSome_iff_exists.mp hb
  exact hi.reaches hd

theorem Rising.pred_lt (hi : idoms.Rising g e rank) (hg : g.Mirrored) :
    ∀ p ∈ g.pred b, p < idoms.size := by
  intro p hp
  rw [hi.size_eq]
  exact Graph.lt_size_of_mem_succ (hg.mem_pred.mp hp)

theorem parent_eq_ok : idoms.parent b = .ok d ↔ idoms.get? b = some d := by
  simp only [parent, bind_eq_ok, fetch_eq_ok, found_eq_ok, get?, Option.join_eq_some_iff]
  constructor
  · rintro ⟨_, hb, rfl⟩
    exact hb
  · exact fun hb => ⟨_, hb, rfl⟩

theorem fetch_eq_get? (hb : b < idoms.size) : fetch idoms b = .ok (idoms.get? b) := by
  rw [fetch_eq_ok, get?, Array.getElem?_eq_getElem hb]
  rfl

/-- What a candidate is after the predecessors in `seen`: without a known one there is none, and
otherwise its ancestors are the common ancestors of the known ones. -/
def IsCandidate (idoms : Idoms) (e : Nat) (seen : List Nat) : Option Nat → Prop
  | none => ∀ p ∈ seen, idoms.get? p = none
  | some d => (idoms.get? d).isSome ∧
    ∀ x, Above idoms e x d ↔ ∀ p ∈ seen, (idoms.get? p).isSome → Above idoms e x p

section Meet

variable (hr : g.IsRanking e order rank) (hi : idoms.Rising g e rank)
include hr hi

/-- Where two walks up meet are exactly the common ancestors of both. -/
theorem meet_spec {moves : Nat} (ha : (idoms.get? a).isSome) (hb : (idoms.get? b).isSome)
    (hmoves : rank a + rank b < moves) :
    ∃ d, idoms.meet rank moves a b = .ok d ∧ (idoms.get? d).isSome ∧
      ∀ x, Above idoms e x d ↔ Above idoms e x a ∧ Above idoms e x b := by
  induction moves generalizing a b with
  | zero => omega
  | succ moves ih =>
    rw [meet]
    by_cases hab : a = b
    · subst hab
      exact ⟨a, by simp, ha, fun x => by simp⟩
    · rw [if_neg hab]
      have hra := hi.reaches_of_isSome ha
      have hrb := hi.reaches_of_isSome hb
      obtain ⟨a', ha'⟩ := Option.isSome_iff_exists.mp ha
      obtain ⟨b', hb'⟩ := Option.isSome_iff_exists.mp hb
      rw [parent_eq_ok.mpr ha', parent_eq_ok.mpr hb', ok_bind, ok_bind]
      split
      · rename_i hlt
        have hae : a ≠ e := by
          rintro rfl
          rw [hr.rank_entry] at hlt
          omega
        have hlower := hi.lower hae ha'
        obtain ⟨d, hd, hknown, habove⟩ := ih (hi.known ha') hb (by omega)
        refine ⟨d, hd, hknown, fun x => (habove x).trans ?_⟩
        constructor
        · exact fun h => ⟨.up hae ha' h.1, h.2⟩
        · rintro ⟨hxa, hxb⟩
          refine ⟨hxa.of_ne ?_ ha', hxb⟩
          rintro rfl
          exact absurd (hxb.rank_le hi) (by omega)
      · rename_i hge
        have hne : rank a ≠ rank b := fun h => hab (hr.rank_inj hra hrb h)
        have hbe : b ≠ e := by
          rintro rfl
          rw [hr.rank_entry] at hge hne
          omega
        have hlower := hi.lower hbe hb'
        obtain ⟨d, hd, hknown, habove⟩ := ih ha (hi.known hb') (by omega)
        refine ⟨d, hd, hknown, fun x => (habove x).trans ?_⟩
        constructor
        · exact fun h => ⟨h.1, .up hbe hb' h.2⟩
        · rintro ⟨hxa, hxb⟩
          refine ⟨hxa, hxb.of_ne ?_ hb'⟩
          rintro rfl
          exact absurd (hxa.rank_le hi) (by omega)

theorem intersect_spec (ha : (idoms.get? a).isSome) (hb : (idoms.get? b).isSome) :
    ∃ d, idoms.intersect rank a b = .ok d ∧ (idoms.get? d).isSome ∧
      ∀ x, Above idoms e x d ↔ Above idoms e x a ∧ Above idoms e x b :=
  meet_spec hr hi ha hb (Nat.lt_succ_self _)

variable {p : Nat} {seen preds : List Nat} {best : Option Nat}

theorem consider_spec (h : idoms.IsCandidate e seen best) (hp : p < idoms.size) :
    ∃ next, idoms.consider rank best p = .ok next ∧ idoms.IsCandidate e (seen ++ [p]) next := by
  rw [consider, fetch_eq_get? hp, ok_bind]
  cases hknown : idoms.get? p with
  | none =>
    refine ⟨best, rfl, ?_⟩
    cases best with
    | none => simpa [IsCandidate, or_imp, forall_and, hknown] using h
    | some d => exact ⟨h.1, fun x => (h.2 x).trans (by simp [or_imp, forall_and, hknown])⟩
  | some q =>
    have hsome : (idoms.get? p).isSome := by rw [hknown]; rfl
    cases best with
    | none =>
      have hnone : ∀ q ∈ seen, idoms.get? q = none := h
      refine ⟨some p, rfl, hsome, fun x => ⟨fun hx q hq hqknown => ?_, fun hx => hx p (by simp) hsome⟩⟩
      rcases List.mem_append.mp hq with hq | hq
      · simp [hnone q hq] at hqknown
      · exact List.mem_singleton.mp hq ▸ hx
    | some d =>
      obtain ⟨m, hm, hmknown, habove⟩ := intersect_spec hr hi hsome h.1
      refine ⟨some m, by simp [hm, bind, Except.bind, pure, Except.pure], hmknown, fun x => ?_⟩
      rw [habove x, h.2 x]
      constructor
      · rintro ⟨hxp, hall⟩ q hq hqknown
        rcases List.mem_append.mp hq with hq | hq
        · exact hall q hq hqknown
        · exact List.mem_singleton.mp hq ▸ hxp
      · intro hall
        exact ⟨hall p (by simp) hsome, fun q hq => hall q (by simp [hq])⟩

/-- The ancestors of a candidate are the common ancestors of the known predecessors. -/
theorem candidate_spec (hpreds : ∀ p ∈ preds, p < idoms.size) :
    ∃ best, idoms.candidate rank preds = .ok best ∧ idoms.IsCandidate e preds best := by
  have hfold : ∀ {seen best}, idoms.IsCandidate e seen best → ∃ last,
      preds.foldlM (idoms.consider rank) best = .ok last ∧
        idoms.IsCandidate e (seen ++ preds) last := by
    induction preds with
    | nil => exact fun h => ⟨_, rfl, by simpa using h⟩
    | cons p preds ih =>
      intro seen best h
      obtain ⟨next, hnext, hcand⟩ := consider_spec hr hi h (hpreds p (by simp))
      obtain ⟨last, hlast, hdone⟩ := ih (fun q hq => hpreds q (.tail _ hq)) hcand
      exact ⟨last, foldlM_cons_eq_ok.mpr ⟨next, hnext, hlast⟩, by simpa using hdone⟩
  have hstart : idoms.IsCandidate e [] none := fun p hp => absurd hp List.not_mem_nil
  simpa [candidate] using hfold hstart

theorem candidate_spec_of_mem (hpreds : ∀ p ∈ preds, p < idoms.size) (hp : p ∈ preds)
    (hknown : (idoms.get? p).isSome) :
    ∃ d, idoms.candidate rank preds = .ok (some d) ∧ (idoms.get? d).isSome ∧
      ∀ x, Above idoms e x d ↔ ∀ p ∈ preds, (idoms.get? p).isSome → Above idoms e x p := by
  obtain ⟨best, hbest, hcand⟩ := candidate_spec hr hi hpreds
  cases best with
  | none =>
    have hnone : idoms.get? p = none := hcand p hp
    simp [hnone] at hknown
  | some d => exact ⟨d, hbest, hcand⟩

end Meet

section Move

theorem get?_setIfInBounds (hb : b < idoms.size) :
    get? (idoms.setIfInBounds b (some d)) c = if c = b then some d else idoms.get? c := by
  unfold get?
  rw [Array.getElem?_setIfInBounds]
  by_cases hc : b = c
  · subst hc
    simp [hb]
  · simp [hc, Ne.symm hc]

theorem setIfInBounds_eq_self (hd : idoms.get? b = some d) :
    idoms.setIfInBounds b (some d) = idoms := by
  refine Array.ext_getElem? fun c => ?_
  rw [Array.getElem?_setIfInBounds]
  split
  · rename_i hbc
    subst hbc
    have hsome : idoms[b]? = some (some d) := Option.join_eq_some_iff.mp hd
    rw [hsome, if_pos (Array.getElem?_eq_some_iff.mp hsome).1]
  · rfl

/-- Block `b`, which is not the entry, gets the known block `d` of lower rank for its parent. -/
structure Moves (e : Nat) (rank : Nat → Nat) (idoms idoms' : Idoms) (b d : Nat) : Prop where
  ne_entry : b ≠ e
  size_eq : idoms'.size = idoms.size
  get?_eq : ∀ c, idoms'.get? c = if c = b then some d else idoms.get? c
  known : (idoms.get? d).isSome
  lower : rank d < rank b

variable {idoms' : Idoms}

theorem Moves.get?_self (hm : Moves e rank idoms idoms' b d) : idoms'.get? b = some d := by
  rw [hm.get?_eq, if_pos rfl]

theorem Moves.get?_of_ne (hm : Moves e rank idoms idoms' b d) (hc : c ≠ b) :
    idoms'.get? c = idoms.get? c := by
  rw [hm.get?_eq, if_neg hc]

/-- The way up from a block that is not below `b` stays as it is. -/
theorem Moves.above_of_not_below (hm : Moves e rank idoms idoms' b d) (h : Above idoms e x c)
    (hbc : ¬Above idoms e b c) : Above idoms' e x c := by
  induction h with
  | refl => exact .refl
  | @up c y hne hy _ ih =>
    have hcb : c ≠ b := fun hcb => hbc (hcb ▸ .refl)
    exact .up hne ((hm.get?_of_ne hcb).trans hy) (ih fun hby => hbc (.up hne hy hby))

variable (hi : idoms.Rising g e rank) (hm : Moves e rank idoms idoms' b d)
include hi hm

theorem Moves.not_above : ¬Above idoms e b d := fun h =>
  absurd (h.rank_le hi) (Nat.not_le.mpr hm.lower)

/-- The way up to a block that is no higher than `b` stays as it is. -/
theorem Moves.above_of_rank_le (h : Above idoms e x c) (hx : rank b ≤ rank x) :
    Above idoms' e x c := by
  induction h with
  | refl => exact .refl
  | @up c y hne hy hxy ih =>
    have hcb : c ≠ b := by
      rintro rfl
      have hlt := hi.lower hne hy
      have hle := hxy.rank_le hi
      omega
    exact .up hne ((hm.get?_of_ne hcb).trans hy) ih

theorem Moves.above_parent (hbc : Above idoms e b c) (h : Above idoms e x d) :
    Above idoms' e x c :=
  (Above.up hm.ne_entry hm.get?_self (hm.above_of_not_below h (hm.not_above hi))).trans
    (hm.above_of_rank_le hi hbc (Nat.le_refl _))

/-- All ways up after the move: past `b` they go on from its new parent. -/
theorem Moves.above_cases (h : Above idoms' e x c) :
    (¬Above idoms e b c ∧ Above idoms e x c) ∨
      (Above idoms e b c ∧ (rank b ≤ rank x ∧ Above idoms e x c ∨ Above idoms e x d)) := by
  induction h with
  | refl =>
    by_cases hbx : Above idoms e b x
    · exact .inr ⟨hbx, .inl ⟨hbx.rank_le hi, .refl⟩⟩
    · exact .inl ⟨hbx, .refl⟩
  | @up c y hne hy _ ih =>
    by_cases hcb : c = b
    · subst hcb
      obtain rfl : d = y := Option.some.inj (hm.get?_self.symm.trans hy)
      rcases ih with ⟨-, h⟩ | ⟨hbelow, -⟩
      · exact .inr ⟨.refl, .inr h⟩
      · exact absurd hbelow (hm.not_above hi)
    · rw [hm.get?_of_ne hcb] at hy
      rcases ih with ⟨hbelow, h⟩ | ⟨hbelow, h⟩
      · exact .inl ⟨fun hbc => hbelow (hbc.of_ne (Ne.symm hcb) hy), .up hne hy h⟩
      · exact .inr ⟨.up hne hy hbelow, h.imp_left fun h => ⟨h.1, .up hne hy h.2⟩⟩

theorem Moves.above_iff_of_rank_le (hx : rank b ≤ rank x) :
    Above idoms' e x c ↔ Above idoms e x c := by
  refine ⟨fun h => ?_, fun h => hm.above_of_rank_le hi h hx⟩
  rcases hm.above_cases hi h with ⟨-, h⟩ | ⟨-, ⟨-, h⟩ | h⟩
  · exact h
  · exact h
  · have hle := h.rank_le hi
    have hlt := hm.lower
    omega

theorem Moves.rising (hb : g.Reaches e b) : idoms'.Rising g e rank where
  size_eq := hm.size_eq.trans hi.size_eq
  entry := (hm.get?_of_ne (Ne.symm hm.ne_entry)).trans hi.entry
  reaches {c y} hy := by
    by_cases hcb : c = b
    · exact hcb ▸ hb
    · exact hi.reaches ((hm.get?_of_ne hcb).symm.trans hy)
  known {c y} hy := by
    by_cases hyb : y = b
    · rw [hyb, hm.get?_self]
      rfl
    · rw [hm.get?_of_ne hyb]
      by_cases hcb : c = b
      · obtain rfl : d = y := Option.some.inj (hm.get?_self.symm.trans (hcb ▸ hy))
        exact hm.known
      · exact hi.known ((hm.get?_of_ne hcb).symm.trans hy)
  lower {c y} hne hy := by
    by_cases hcb : c = b
    · obtain rfl : d = y := Option.some.inj (hm.get?_self.symm.trans (hcb ▸ hy))
      exact hcb ▸ hm.lower
    · exact hi.lower hne ((hm.get?_of_ne hcb).symm.trans hy)

end Move

end Idoms

end LocalFlow
