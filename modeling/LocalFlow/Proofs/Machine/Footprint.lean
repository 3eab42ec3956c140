import Mathlib
import LocalFlow.Proofs.Function.Rewriting
import LocalFlow.Proofs.Machine.Effect

/-! What evaluating a part of a function leaves untouched. The effects of a part, read off its nodes
alone, hold for its evaluation on any machine. -/

namespace LocalFlow

namespace Completion

variable {α : Type}

/-- The machine that an evaluation leaves, unless it fails. -/
def machine? : Completion α → Option Machine
  | .value _ m | .signal _ m => some m
  | .fault _ => none

/-- The signal that an evaluation ends with, if it has no value. -/
def signal? : Completion α → Option Signal
  | .signal s _ => some s
  | _ => none

variable {e : Effect} {traps : Prop} {labels : List String} {m m' : Machine} {x : Completion α}

theorem Obeys.confines (h : x.Obeys (e.conduct traps m) labels) (hm' : x.machine? = some m') :
    e.Confines m m' := by
  cases x with
  | value a m₁ =>
    cases hm'
    exact h
  | signal s m₁ =>
    cases hm'
    exact h.2
  | fault f => cases hm'

/-- Without branches, a value or a trap ends the evaluation. -/
theorem Obeys.signal?_cases (h : x.Obeys (e.conduct traps m) labels)
    (hbranches : e.meets .branches = false) : x.signal? = none ∨ x.signal? = some .trap := by
  cases x with
  | value a m₁ => exact .inl rfl
  | fault f => exact .inl rfl
  | signal s m₁ =>
    have hsignal : e.Announces traps s := h.1
    cases s with
    | trap => exact .inr rfl
    | _ =>
      change e.meets .branches = true at hsignal
      rw [hbranches] at hsignal
      cases hsignal

theorem Obeys.signal?_ne_trap (h : x.Obeys (e.conduct traps m) labels) (hnever : ¬traps) :
    x.signal? ≠ some .trap := by
  intro htrap
  cases x with
  | value a m₁ => cases htrap
  | fault f => cases htrap
  | signal s m₁ =>
    cases htrap
    exact hnever h.1

end Completion

namespace Tree

variable {fn : Function} {t : Tree} {r : Ref} {x : Ref × Node}

theorem canTrap_of_mayTrap {e : Effect} (h : t.effects = .ok e)
    (htrap : ∃ x ∈ t.nodes, x.2.MayTrap) : e.canTrap = true := by
  obtain ⟨x, hx, hkind⟩ := htrap
  apply effect_within h x hx
  rcases hkind with hkind | ⟨hkind, hop⟩
  · simp only [Node.effect, hkind]
    decide
  · simp only [Node.effect, hkind, hop]
    decide

end Tree

namespace Function

variable {fn : Function} {t : Tree} {r : Ref}

theorem WellFormed.isAt_part (h : fn.WellFormed t) (hr : r ∈ t.handles) :
    (fn.tree r).IsAt fn r := by
  obtain ⟨x, hx, rfl⟩ := List.mem_map.mp hr
  obtain ⟨kids, hat, -⟩ := h.isAt.exists_part hx
  rw [tree_eq_of_isAt hat]
  exact hat

/-- Evaluating a part of a well-formed function does no more than the effects of the part say. Without
side effects it leaves the machine as it was, but for the record of applied nodes, and ends with a
value or a trap; a part that cannot trap does not; and each part of the machine is untouched if the
effects do not name it. -/
theorem effects_sound (hvalid : fn.validate = .ok ()) (hr : r ∈ (fn.tree fn.body).handles) :
    ∃ e, fn.effects r = .ok e ∧ fn.hasSideEffects r = .ok e.hasSideEffects ∧
      ∀ m m', ((fn.tree r).eval m).machine? = some m' →
        (e.hasSideEffects = false → m' = { m with applied := m'.applied } ∧
          (((fn.tree r).eval m).signal? = none ∨ ((fn.tree r).eval m).signal? = some .trap)) ∧
        (e.canTrap = false → ((fn.tree r).eval m).signal? ≠ some .trap) ∧
        (e.meets .localWrite = false → m'.locals = m.locals) ∧
        (e.meets .globalWrite = false → e.meets .memoryWrite = false →
          m'.memory = m.memory ∧ m'.events = m.events) ∧
        (e.meets .calls = false → m'.calls = m.calls) ∧
        (e.meets .branches = false → m'.fuel = m.fuel ∧
          (((fn.tree r).eval m).signal? = none ∨ ((fn.tree r).eval m).signal? = some .trap)) := by
  obtain ⟨t, ht⟩ := wellFormed_of_validate hvalid
  rw [ht.tree_eq] at hr
  obtain ⟨e, he⟩ := (ht.isAt_part hr).exists_effects
  have hside : fn.hasSideEffects r = .ok e.hasSideEffects := by
    rw [hasSideEffects, effects, he]
    rfl
  refine ⟨e, he, hside, fun m m' hm' => ?_⟩
  have hobeys := (fn.tree r).eval_obeys_effects he m
  have hconfines := hobeys.confines hm'
  refine ⟨?_, ?_, hconfines.locals, ?_, hconfines.calls, ?_⟩
  · intro hpure
    have hbranches := Effect.meets_eq_false hpure (Effect.within_lasting (c := .branches) (by decide))
    exact ⟨hconfines.eq_of_pure hpure, hobeys.signal?_cases hbranches⟩
  · intro hnever
    apply hobeys.signal?_ne_trap
    intro htrap
    rw [Tree.canTrap_of_mayTrap he htrap] at hnever
    cases hnever
  · exact fun hglobal hmemory => ⟨hconfines.memory hglobal hmemory, hconfines.events hglobal hmemory⟩
  · exact fun hbranches => ⟨hconfines.fuel hbranches, hobeys.signal?_cases hbranches⟩

/-- Counts the parameter down to zero in a loop that is left at once if the variable is set, and then
divides by the parameter. -/
def countdownThenDivide : Function where
  name := "countdown_then_divide"
  params := [.i32]
  vars := [.i32]
  body := 13
  nodes := #[
    { kind := .localGet, type := .i32, index := 1 },
    { kind := .br, label := "out", kids := [.absent, 0] },
    { kind := .localGet, type := .i32, index := 0 },
    { kind := .const, type := .i32, value := .i32 1 },
    { kind := .binary, type := .i32, op := .sub, kids := [2, 3] },
    { kind := .localTee, type := .i32, index := 0, kids := [4] },
    { kind := .br, label := "again", kids := [.absent, 5] },
    { kind := .block, kids := [1, 6] },
    { kind := .loop, label := "again", kids := [7] },
    { kind := .block, label := "out", kids := [8] },
    { kind := .const, type := .i32, value := .i32 10 },
    { kind := .localGet, type := .i32, index := 0 },
    { kind := .binary, type := .i32, op := .divU, kids := [10, 11] },
    { kind := .block, kids := [9, 12] }]

/-- The loop writes a local and spends fuel, but leaves memory and calls alone. The division by zero
traps, and leaves everything alone. -/
theorem effects_sound_countdownThenDivide :
    let fn := countdownThenDivide
    fn.validate = .ok () ∧
      (∃ e m', fn.effects 9 = .ok e ∧ e = .localWrite ∪ .branches ∧
        ((fn.tree 9).eval (.start fn [2] 5)).machine? = some m' ∧
        m'.locals = #[0, 0] ∧ m'.fuel = 4 ∧ m'.memory = (Machine.start fn [2] 5).memory ∧
        m'.calls = 0 ∧ ((fn.tree 9).eval (.start fn [2] 5)).signal? ≠ some .trap) ∧
      ∃ m', fn.hasSideEffects 12 = .ok false ∧
        ((fn.tree 12).eval (.start fn [0] 5)).machine? = some m' ∧
        ((fn.tree 12).eval (.start fn [0] 5)).signal? = some .trap ∧
        m' = { Machine.start fn [0] 5 with applied := m'.applied } := by
  intro fn
  have hvalid : fn.validate = .ok () := by cbv
  have hloop : (9 : Ref) ∈ (fn.tree fn.body).handles := by decide +kernel
  have hdivision : (12 : Ref) ∈ (fn.tree fn.body).handles := by decide +kernel
  obtain ⟨e, he, -, hsound⟩ := effects_sound hvalid hloop
  obtain ⟨e', he', hside, hsound'⟩ := effects_sound hvalid hdivision
  obtain rfl : e = .localWrite ∪ .branches := Except.ok.inj (he.symm.trans (by decide +kernel))
  obtain rfl : e' = .mayTrap := Except.ok.inj (he'.symm.trans (by decide +kernel))
  refine ⟨hvalid, ?_, ?_⟩
  · have hends : (((fn.tree 9).eval (.start fn [2] 5)).machine?.map fun m => (m.locals, m.fuel)) =
        some (#[0, 0], 4) := by decide +kernel
    obtain ⟨m', hm', hparts⟩ := Option.map_eq_some_iff.mp hends
    obtain ⟨hlocals, hfuel⟩ := Prod.mk.inj hparts
    obtain ⟨-, htrap, -, hmemory, hcalls, -⟩ := hsound _ _ hm'
    exact ⟨_, m', he, rfl, hm', hlocals, hfuel, (hmemory (by decide) (by decide)).1,
      hcalls (by decide), htrap (by decide)⟩
  · have hends : (((fn.tree 12).eval (.start fn [0] 5)).machine?.map (·.fuel)) = some 5 := by
      decide +kernel
    obtain ⟨m', hm', -⟩ := Option.map_eq_some_iff.mp hends
    obtain ⟨hpure, -⟩ := hsound' _ _ hm'
    exact ⟨m', hside, hm', by decide +kernel, (hpure (by decide)).1⟩

end Function

end LocalFlow
