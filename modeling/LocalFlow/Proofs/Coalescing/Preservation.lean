import Mathlib
import LocalFlow.Coalescing.Pass
import LocalFlow.Proofs.Coalescing.DeadStores
import LocalFlow.Proofs.Coalescing.Slots
import LocalFlow.Proofs.Machine.Safety

/-! Coalescing does not change what can be observed of a run. Redirecting the accesses and removing the
stores to slots that are never read each leave a body whose evaluation goes along with the one of the
body before. Only a trap may go missing, with a division whose value nobody asks for. -/

namespace LocalFlow

open LocalFlow.Graph

variable {π : Type} {S : LocalsRel π} {safe : Prop} {labels : String → Option π} {p q : π}
  {fn fn' : Function} {t t' : Tree} {args : List UInt64} {fuel : Int64} {trace : Trace}

theorem Function.fine_of_run (hrun : fn.run args fuel = .ok trace)
    (htrap : trace.outcome ≠ .trapped ∨ safe) : (fn.execute args fuel).Fine safe := by
  unfold run at hrun
  cases hc : fn.execute args fuel with
  | value x m => trivial
  | signal s m =>
    cases s with
    | trap =>
      rw [hc] at hrun
      cases hrun
      exact htrap.resolve_left fun h => h rfl
    | _ => trivial
  | fault f =>
    rw [hc] at hrun
    cases hrun

/-- Functions whose bodies go along with each other have the same runs. -/
theorem Function.run_eq_of_follows (htree : fn.tree fn.body = t) (htree' : fn'.tree fn'.body = t')
    (hfollows : t.Follows S safe labels t' p q)
    (hstart : (Machine.start fn args fuel).Related S p (Machine.start fn' args fuel))
    (hrun : fn.run args fuel = .ok trace) (htrap : trace.outcome ≠ .trapped ∨ safe) :
    fn'.run args fuel = .ok trace := by
  have hmatches := t.simulated S safe hfollows hstart (htree ▸ fine_of_run hrun htrap)
  unfold run execute at hrun ⊢
  rw [htree] at hrun
  rw [htree']
  cases hc : t.eval (.start fn args fuel) with
  | value x m =>
    rw [hc] at hrun hmatches
    obtain ⟨m', hc', hm⟩ := hmatches
    rw [hc']
    simpa only [hm.events] using hrun
  | signal s m =>
    rw [hc] at hrun hmatches
    cases s with
    | branch label x => cases hrun
    | _ =>
      obtain ⟨m', hc', hevents⟩ := hmatches
      rw [hc']
      simpa only [hevents] using hrun
  | fault f =>
    rw [hc] at hrun
    cases hrun

namespace Machine

variable {v : Nat}

theorem start_param (hparams : fn'.params = fn.params) (hv : v < fn.numParams) :
    (start fn' args fuel).locals[v]? = (start fn args fuel).locals[v]? := by
  unfold Function.numParams at hv
  simp only [start, List.getElem?_toArray, hparams]
  rw [List.getElem?_append_left (by simpa using hv), List.getElem?_append_left (by simpa using hv)]

theorem start_var (hle : fn.numParams ≤ v) (hlt : v < fn.numLocals) :
    (start fn args fuel).locals[v]? = some 0 := by
  unfold Function.numParams at hle
  unfold Function.numLocals at hlt
  simp only [start, List.getElem?_toArray]
  rw [List.getElem?_append_right (by simpa using hle), List.getElem?_map, List.getElem?_eq_getElem]
  · rfl
  · simp only [List.length_map, List.length_zipIdx]
    omega

end Machine

variable {g : Graph Action} {live : Liveness} {classes : Coloring} {dead : List Ref} {a : Analysis}
  {G : Type} {lib : GraphLibrary G} {order : SlotOrder} {w w' : Redirection}

/-- Before a run, parameters have their arguments in their slots and everything else is zero. -/
theorem Sharing.start (h : Sharing fn g live classes dead) (hparams : fn'.params = fn.params)
    (hvars : fn'.vars.length = classes.length) :
    Shares fn g live classes (0, 0) (Machine.start fn args fuel).locals
      (Machine.start fn' args fuel).locals := by
  have hnum : fn'.numParams = fn.numParams := by rw [Function.numParams, hparams, Function.numParams]
  have hlocals : fn'.numLocals = fn.numParams + classes.length := by
    rw [Function.numLocals, hparams, hvars, Function.numParams]
  refine ⟨Machine.size_start, Machine.size_start.trans hlocals, .start fun v hv => ?_, ?_⟩
  · simp only [Function.isVar, Bool.and_eq_true, decide_eq_true_eq] at hv
    rw [Array.getD_eq_getD_getElem?, Machine.start_var hv.1 hv.2, Option.getD_some]
  · intro v _ hlt
    have hslot := h.slot_lt hlt
    unfold Coloring.slot at hslot ⊢
    split
    · rename_i hparam
      simp only [Function.isParam, decide_eq_true_eq] at hparam
      exact Machine.start_param hparams hparam
    · rename_i hparam
      rw [if_neg hparam] at hslot
      simp only [Function.isParam, decide_eq_true_eq, Nat.not_lt] at hparam
      rw [Machine.start_var hparam hlt, Machine.start_var (by omega) (by omega)]

theorem Tree.not_divides : ¬t.Divides ↔ ∀ x ∈ t.nodes, x.2.divides = false := by
  simp [Divides]

/-- Redirecting the accesses to the slots of a coloring keeps the runs. -/
theorem Function.run_remap (ha : fn.analyze = .ok a)
    (hcolor : fn.color lib a.interference order = .ok classes)
    (hw : Redirection.remap (classes.mapping fn) a.ineffective { function := fn } = .ok w) :
    ∃ t', { w.function with vars := classes.vars fn }.Redirectable t' ∧
      (¬(fn.tree fn.body).Divides → ¬t'.Divides) ∧
      ∀ {args fuel trace}, fn.run args fuel = .ok trace →
        trace.outcome ≠ .trapped ∨ ¬(fn.tree fn.body).Divides →
        { w.function with vars := classes.vars fn }.run args fuel = .ok trace := by
  have hsound := analyze_sound ha
  obtain ⟨t, g, m, es, ht, hg, -, -, rfl⟩ := analyze_eq_ok ha
  have hsharing := (Coloring.sound_of_color hcolor).sharing hsound ht hg g.liveness_stable rfl
  obtain ⟨-, -, q, hlays⟩ := lower_lays hg
  obtain ⟨t', hready, hrewrites, hsame⟩ := Redirection.remap_spec (.of_wellFormed ht) hw
  rw [ht.tree_eq] at hlays ⊢
  refine ⟨t', hready.withVars _, ?_, fun {args fuel trace} hrun htrap => ?_⟩
  · rw [Tree.not_divides, Tree.not_divides]
    exact Redirection.lasting_divides.redirected hrewrites
  · have hlabels : Labels.Leads (fun _ => none) fun _ => none := fun _ _ => rfl
    have hfollows := hsharing.redirected ht.isAt ht.accepted Tree.not_divides.mp hlays hrewrites
      hlabels
    refine run_eq_of_follows ht.tree_eq (hready.withVars _).tree_eq hfollows ?_ hrun htrap
    exact ⟨⟨rfl, rfl, rfl, rfl⟩, hsharing.start hsame.params (by simp [Coloring.vars])⟩

/-- Removing the stores to locals that are never read keeps the runs. -/
theorem Function.run_removeDeadStores (ht : w.function.Redirectable t)
    (hw : w.removeDeadStores = .ok w') (hrun : w.function.run args fuel = .ok trace)
    (htrap : trace.outcome ≠ .trapped ∨ ¬t.Divides) : w'.function.run args fuel = .ok trace := by
  obtain ⟨read, t', hread, ht', hrewrites, hsame⟩ := Redirection.removeDeadStores_spec ht hw
  have hfollows := swept hread Tree.not_divides.mp hrewrites
  refine run_eq_of_follows ht.tree_eq ht'.tree_eq hfollows ⟨⟨rfl, rfl, rfl, rfl⟩, ?_⟩ hrun htrap
  have hstart : Machine.start w'.function args fuel = Machine.start w.function args fuel := by
    simp only [Machine.start, hsame.params, hsame.vars]
  rw [hstart]
  exact .refl read _

/-- Coalescing keeps the runs of a function: whatever slots are shared and whatever stores and copies
are removed, there are the same events in the same order and the same outcome. A run that traps may
depend on a division that coalescing removes, so there must be no division in the body then. -/
theorem Function.coalesce_preserves_runs {c : Coalesced} (h : fn.coalesce lib order = .ok c)
    (hrun : fn.run args fuel = .ok trace)
    (htrap : trace.outcome ≠ .trapped ∨ ¬(fn.tree fn.body).Divides) :
    c.function.run args fuel = .ok trace := by
  obtain ⟨a, ha, h⟩ := bind_eq_ok.mp (mapError_eq_ok.mp h)
  obtain ⟨classes, hcolor, h⟩ := bind_eq_ok.mp h
  obtain ⟨⟨function, summary⟩, happly, h⟩ := bind_eq_ok.mp h
  cases h
  obtain ⟨w, hw, happly⟩ := bind_eq_ok.mp happly
  obtain ⟨w', hw', happly⟩ := bind_eq_ok.mp happly
  cases happly
  obtain ⟨t', hready, hdivides, hkeeps⟩ := run_remap ha hcolor hw
  exact run_removeDeadStores hready hw' (hkeeps hrun htrap) (htrap.imp_right hdivides)

/-- Counts a parameter down in a loop, with a division that nobody asks for, and then copies a constant
from one variable to another one. All variables can share one slot. -/
def Function.countdown : Function where
  name := "countdown"
  params := [.i32]
  vars := [.i32, .i32, .i32, .i32]
  body := 21
  nodes := #[
    { kind := .localGet, type := .i32, index := 0 },
    { kind := .localSet, index := 1, kids := [0] },
    { kind := .localGet, type := .i32, index := 1 },
    { kind := .globalSet, index := 0, kids := [2] },
    { kind := .const, type := .i32, value := .i32 1 },
    { kind := .localGet, type := .i32, index := 1 },
    { kind := .binary, type := .i32, op := .divU, kids := [4, 5] },
    { kind := .localSet, index := 2, kids := [6] },
    { kind := .localGet, type := .i32, index := 1 },
    { kind := .const, type := .i32, value := .i32 1 },
    { kind := .binary, type := .i32, op := .sub, kids := [8, 9] },
    { kind := .localTee, type := .i32, index := 1, kids := [10] },
    { kind := .br, label := "again", kids := [.absent, 11] },
    { kind := .block, kids := [3, 7, 12] },
    { kind := .loop, label := "again", kids := [13] },
    { kind := .const, type := .i32, value := .i32 5 },
    { kind := .localSet, index := 3, kids := [15] },
    { kind := .localGet, type := .i32, index := 3 },
    { kind := .localSet, index := 4, kids := [17] },
    { kind := .localGet, type := .i32, index := 4 },
    { kind := .globalSet, index := 1, kids := [19] },
    { kind := .block, kids := [1, 14, 16, 18, 20] }]

theorem Function.coalesce_preserves_runs_countdown :
    ∃ c, countdown.coalesce .lists .degree = .ok c ∧ c.summary.before = 5 ∧ c.summary.after = 2 ∧
      c.summary.stores = 1 ∧ c.summary.copies = 1 ∧
      countdown.run [2] 3 =
        .ok ⟨[.globalSet 0 2, .globalSet 0 1, .globalSet 1 5], .finished⟩ ∧
      c.function.run [2] 3 =
        .ok ⟨[.globalSet 0 2, .globalSet 0 1, .globalSet 1 5], .finished⟩ := by
  obtain ⟨c, hc, hsummary⟩ : ∃ c, countdown.coalesce .lists .degree = .ok c ∧ c.summary.before = 5 ∧
      c.summary.after = 2 ∧ c.summary.stores = 1 ∧ c.summary.copies = 1 :=
    ⟨_, by cbv, rfl, rfl, rfl, rfl⟩
  have hrun : countdown.run [2] 3 =
      .ok ⟨[.globalSet 0 2, .globalSet 0 1, .globalSet 1 5], .finished⟩ := by decide +kernel
  exact ⟨c, hc, hsummary.1, hsummary.2.1, hsummary.2.2.1, hsummary.2.2.2, hrun,
    coalesce_preserves_runs hc hrun (.inl (by decide))⟩

end LocalFlow
