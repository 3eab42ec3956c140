import LocalFlow.Liveness.Range
import LocalFlow.Proofs.Graph.Path
import LocalFlow.Proofs.Liveness.Dataflow

/-! What actions do to the values of locals, and what it means that a value is read later on. The live
sets of a graph have every local that some path reads before writing it, and the flags of an action
say what the live sets say. -/

namespace LocalFlow

namespace Action

variable {β : Type} {v : Nat} {a : Action} {xs ys : List Action} {out out' : IndexSet}
  {σ σ' : Nat → β}

/-- A run of actions reads local `v` before any of them writes it. -/
def ReadsFirst (v : Nat) : List Action → Prop
  | [] => False
  | a :: actions =>
    match a.access with
    | .get => a.index = v ∨ ReadsFirst v actions
    | .set => a.index ≠ v ∧ ReadsFirst v actions

/-- What an action does to the values of the locals: a copy writes the value of its source, any other
write may write anything. -/
def Performs (a : Action) (σ σ' : Nat → β) : Prop :=
  match a.access, a.copy with
  | .get, _ => σ' = σ
  | .set, some source => σ' = Function.update σ a.index (σ source)
  | .set, none => ∃ x, σ' = Function.update σ a.index x

/-- Actions are performed one after another. -/
inductive Executes : List Action → (Nat → β) → (Nat → β) → Prop
  | nil {σ : Nat → β} : Executes [] σ σ
  | cons {a : Action} {actions : List Action} {σ σ' σ'' : Nat → β} :
      a.Performs σ σ' → Executes actions σ' σ'' → Executes (a :: actions) σ σ''

theorem Performs.eq_of_get (h : a.Performs σ σ') (hget : a.access = .get) : σ' = σ := by
  simpa only [Performs, hget] using h

theorem Performs.eq_of_ne (h : a.Performs σ σ') (hv : v ≠ a.index) : σ' v = σ v := by
  unfold Performs at h
  split at h
  · rw [h]
  · rw [h, Function.update_of_ne hv]
  · obtain ⟨x, rfl⟩ := h
    rw [Function.update_of_ne hv]

theorem executes_append_iff :
    Executes (xs ++ ys) σ σ' ↔ ∃ τ, Executes xs σ τ ∧ Executes ys τ σ' := by
  induction xs generalizing σ with
  | nil =>
    constructor
    · exact fun h => ⟨σ, .nil, h⟩
    · rintro ⟨τ, hτ, h⟩
      cases hτ
      exact h
  | cons a xs ih =>
    constructor
    · intro h
      cases h with
      | cons ha h =>
        obtain ⟨τ, hτ, h⟩ := ih.mp h
        exact ⟨τ, .cons ha hτ, h⟩
    · rintro ⟨τ, hτ, h⟩
      cases hτ with
      | cons ha hτ => exact .cons ha (ih.mpr ⟨τ, hτ, h⟩)

/-- What is read first by two runs is live before the first one, if what is read first by the second
one is live after it. -/
theorem mem_through_of_readsFirst (h : ReadsFirst v (xs ++ ys)) (hys : ReadsFirst v ys → v ∈ out) :
    v ∈ Liveness.through xs out := by
  induction xs with
  | nil => exact hys h
  | cons a xs ih =>
    rw [Liveness.through, List.foldr_cons, before]
    rw [List.cons_append, ReadsFirst] at h
    cases haccess : a.access with
    | get =>
      simp only [haccess] at h
      exact IndexSet.mem_insert.mpr (h.imp Eq.symm ih)
    | set =>
      simp only [haccess] at h
      exact IndexSet.mem_erase.mpr ⟨ih h.2, Ne.symm h.1⟩

/-- The flags of a run of actions say which locals are live after each of them, if those in `out` are
live after the last one. -/
def Flagged (out : IndexSet) : List Action → Prop
  | [] => True
  | a :: actions =>
    (a.access = .set → (a.effective = true ↔ a.index ∈ Liveness.through actions out)) ∧
      (a.access = .get → (a.endsRange = true ↔ a.index ∉ Liveness.through actions out)) ∧
      Flagged out actions

@[simp]
theorem access_mark (live : IndexSet) : (a.mark live).access = a.access := by
  unfold mark
  split <;> rfl

@[simp]
theorem index_mark (live : IndexSet) : (a.mark live).index = a.index := by
  unfold mark
  split <;> rfl

@[simp]
theorem copy_mark (live : IndexSet) : (a.mark live).copy = a.copy := by
  unfold mark
  split <;> rfl

@[simp]
theorem origin_mark (live : IndexSet) : (a.mark live).origin = a.origin := by
  unfold mark
  split <;> rfl

@[simp]
theorem before_mark (live live' : IndexSet) : (a.mark live).before live' = a.before live' := by
  simp only [before, access_mark, index_mark]

theorem markAll_snd : (markAll xs out).2 = Liveness.through xs out := by
  induction xs with
  | nil => rfl
  | cons a xs ih => exact congrArg a.before ih

theorem markAll_cons : (markAll (a :: xs) out).1 =
    a.mark (Liveness.through xs out) :: (markAll xs out).1 := by
  rw [← markAll_snd]
  rfl

@[simp]
theorem through_markAll : Liveness.through (markAll xs out).1 out' = Liveness.through xs out' := by
  induction xs with
  | nil => rfl
  | cons a xs ih =>
    rw [markAll_cons, Liveness.through, List.foldr_cons, ← Liveness.through, ih, before_mark]
    rfl

theorem flagged_markAll : Flagged out (markAll xs out).1 := by
  induction xs with
  | nil => trivial
  | cons a xs ih =>
    rw [markAll_cons]
    refine ⟨?_, ?_, ih⟩
    · intro h
      rw [access_mark] at h
      simp [mark, h]
    · intro h
      rw [access_mark] at h
      simp [mark, h]

end Action

namespace Graph

variable {g : Graph Action} {live : Liveness} {v b c i : Nat} {p : List Nat}

/-- Some way on from position `i` of block `b` reads local `v` before writing it. -/
def LiveAt (g : Graph Action) (v b i : Nat) : Prop :=
  ∃ p c, g.IsPath b p c ∧ Action.ReadsFirst v ((g.items b).drop i ++ p.tail.flatMap g.items)

theorem mem_liveIn_of_readsFirst (hs : live.Stable g) (hp : g.IsPath b p c)
    (h : Action.ReadsFirst v (p.flatMap g.items)) : v ∈ live.liveIn b := by
  revert h
  refine hp.induction_cons (motive := fun p b =>
    Action.ReadsFirst v (p.flatMap g.items) → v ∈ live.liveIn b) ?_ ?_
  · intro h
    rw [List.flatMap_singleton, ← List.append_nil (g.items c)] at h
    exact (hs c).in_of_through (Action.mem_through_of_readsFirst h False.elim)
  · intro p a d hp hd ih h
    rw [List.flatMap_cons] at h
    refine (hs a).in_of_through (Action.mem_through_of_readsFirst h fun h => ?_)
    exact (hs a).out_of_succ hd (ih h)

/-- What is read later on is in the live sets. -/
theorem LiveAt.mem_through (h : g.LiveAt v b i) (hs : live.Stable g) :
    v ∈ Liveness.through ((g.items b).drop i) (live.liveOut b) := by
  obtain ⟨p, c, hp, h⟩ := h
  refine Action.mem_through_of_readsFirst h fun h => ?_
  rcases hp.cases_cons with ⟨-, rfl⟩ | ⟨d, q, hd, hq, rfl⟩
  · exact h.elim
  · exact (hs b).out_of_succ hd (mem_liveIn_of_readsFirst hs hq h)

section MarkRanges

@[simp]
theorem size_markRanges : (g.markRanges live).size = g.size := by
  simp [markRanges, size]

@[simp]
theorem succ_markRanges : (g.markRanges live).succ b = g.succ b := by
  simp only [markRanges, succ, Array.getElem?_mapIdx, Option.map_map]
  rfl

@[simp]
theorem pred_markRanges : (g.markRanges live).pred b = g.pred b := by
  simp only [markRanges, pred, Array.getElem?_mapIdx, Option.map_map]
  rfl

theorem items_markRanges :
    (g.markRanges live).items b = (Action.markAll (g.items b) (live.liveOut b)).1 := by
  simp only [markRanges, items, Array.getElem?_mapIdx]
  cases g.blocks[b]? with
  | none => rfl
  | some block => rfl

theorem id?_markRanges : (g.markRanges live).id? b = g.id? b := by
  simp only [markRanges, id?, Array.getElem?_mapIdx, Option.map_map]
  rfl

theorem Mirrored.markRanges (h : g.Mirrored) : (g.markRanges live).Mirrored where
  mem_pred {a b} := by simpa using h.mem_pred
  succ_lt hb := by
    rw [size_markRanges]
    exact h.succ_lt (by simpa using hb)
  succ_nodup a := by simpa using h.succ_nodup a
  pred_nodup b := by simpa using h.pred_nodup b
  eq_of_id? hi := h.eq_of_id? (id?_markRanges ▸ hi)

theorem stable_markRanges (h : live.Stable g) : live.Stable (g.markRanges live) := by
  refine fun b => ⟨fun {s v} hs hv => ?_, fun {v} hv => ?_⟩
  · exact (h b).out_of_succ (by simpa using hs) hv
  · rw [items_markRanges, Action.through_markAll] at hv
    exact (h b).in_of_through hv

theorem flagged_markRanges (b : Nat) :
    Action.Flagged (live.liveOut b) ((g.markRanges live).items b) := by
  rw [items_markRanges]
  exact Action.flagged_markAll

end MarkRanges

end Graph

end LocalFlow
