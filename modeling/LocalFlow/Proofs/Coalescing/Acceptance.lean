import LocalFlow.Coalescing.Pass
import LocalFlow.Proofs.Coalescing.Totality
import LocalFlow.Proofs.Graph.Scoping
import LocalFlow.Proofs.Liveness.Totality
import LocalFlow.Run

/-! Which functions can be coalesced. A function that is not well formed is rejected, and so is one
with a branch to a label that names no enclosing construct; both happen before anything is changed.
Coalescing any other function succeeds if there is room for a table of all pairs of its locals. -/

namespace LocalFlow

namespace Redirection

variable {fn : Function} {m : Interference} {classes : Coloring}

/-- Redirected accesses are to the slots that there are in the end. -/
theorem refines_ready (h : Coloring.Sound fn m classes) :
    Refines (classes.slot fn) (Ready fn.numLocals) (Ready (fn.numParams + classes.length)) where
  toLeftover := leftover_ready _
  other hother hn := ⟨hn.1, fun haccess => by simp [haccess] at hother⟩
  access haccess hn := ⟨hn.1, fun _ => h.slot_lt (hn.2 haccess)⟩

end Redirection

/-- The rejection is for the shape of the body or for the locals that it names. -/
def Rejection.IsStructural : Rejection → Prop
  | .localIndex .. | .malformed .. => True
  | .unresolvedLabel _ => False

namespace Function

variable {fn : Function} {t : Tree} {m : Interference} {classes : Coloring} {dead : List Ref}
  {a : Analysis} {why : Rejection} {f : Failure} {G : Type} {lib : GraphLibrary G} {order : SlotOrder}
  {c : Coalesced}

theorem WellFormed.ready (h : fn.WellFormed t) :
    ∀ x ∈ t.nodes, Redirection.Ready fn.numLocals x.2 := by
  intro x hx
  have hself := h.accepted x hx
  have hone := storesOne_of_rejection? hself
  refine ⟨⟨hone, fun hwrite => ?_⟩, index_lt_of_rejection? hself⟩
  obtain ⟨-, -, -, -, -, hslots⟩ := Node.arity_of_flaw? (flaw?_of_rejection? hself)
  obtain ⟨r, hr⟩ := List.length_eq_one_iff.mp (hone hwrite)
  have hslot := Node.isOptionalSlot_of_isLocalWrite hwrite
  have hpresent := Node.isPresent_of_slotFlaw? (hslots 0 r (by simp [hr])) hslot
  simpa [Node.operand, hr] using hpresent

theorem numLocals_withVars {fn' : Function} {changed : List Ref} (h : SameBut changed fn fn') :
    { fn' with vars := classes.vars fn }.numLocals = fn.numParams + classes.length := by
  simp [numLocals, numParams, h.params, Coloring.vars]

/-- After redirection the accesses are to slots that the function declares by then. -/
theorem WellFormed.redirected (h : fn.WellFormed t) (hcolor : classes.Sound fn m) {w : Redirection}
    (hw : Redirection.remap (classes.mapping fn) dead { function := fn } = .ok w) :
    ∃ t', { w.function with vars := classes.vars fn }.Redirectable t' ∧
      Tree.Rewrites (Redirection.Redirects (classes.slot fn) dead) t t' ∧
      SameBut t.handles fn w.function ∧
      ∀ x ∈ t'.nodes, Redirection.Ready (fn.numParams + classes.length) x.2 := by
  obtain ⟨t', ht', hrewrites, hsame⟩ := Redirection.remap_spec (.of_wellFormed h) hw
  have hready := (Redirection.refines_ready hcolor).redirected hrewrites h.ready
  exact ⟨t', ht'.withVars _, hrewrites, hsame, hready⟩

/-- A well-formed function can be changed over to the slots of a sound coloring. -/
theorem WellFormed.applyColoring_total (h : fn.WellFormed t) (hcolor : classes.Sound fn m)
    (dead : List Ref) : ∃ result, fn.applyColoring classes dead = .ok result := by
  have hstart : Redirectable (Redirection.mk fn 0 0).function t := .of_wellFormed h
  have hremap : ∃ w, Redirection.remap (classes.mapping fn) dead { function := fn } = .ok w :=
    Redirection.remap_total hstart h.ready
  obtain ⟨w, hw⟩ := hremap
  obtain ⟨t', ht', -, hsame, hready⟩ := h.redirected hcolor hw
  rw [← numLocals_withVars hsame] at hready
  obtain ⟨w', hw'⟩ := Redirection.removeDeadStores_total
    (w := { w with function := { w.function with vars := classes.vars fn } }) ht' hready
  exact ⟨_, bind_eq_ok.mpr ⟨w, hw, bind_eq_ok.mpr ⟨w', hw', rfl⟩⟩⟩

theorem coalesce_steps (h : fn.coalesce lib order = .ok c) :
    ∃ a classes w w', fn.analyze = .ok a ∧ fn.color lib a.interference order = .ok classes ∧
      Redirection.remap (classes.mapping fn) a.ineffective { function := fn } = .ok w ∧
      { w with function := { w.function with vars := classes.vars fn } }.removeDeadStores = .ok w' ∧
      c = ⟨w'.function, ⟨classes.mapping fn, fn.numLocals, w'.function.numLocals, w'.stores,
        w'.copies⟩, a⟩ := by
  obtain ⟨a, ha, h⟩ := bind_eq_ok.mp (mapError_eq_ok.mp h)
  obtain ⟨classes, hcolor, h⟩ := bind_eq_ok.mp h
  obtain ⟨⟨function, summary⟩, happly, h⟩ := bind_eq_ok.mp h
  cases h
  obtain ⟨w, hw, happly⟩ := bind_eq_ok.mp happly
  obtain ⟨w', hw', happly⟩ := bind_eq_ok.mp happly
  cases happly
  exact ⟨a, classes, w, w', ha, hcolor, hw, hw', rfl⟩

/-- Whatever coalescing has looked up on the way was there. -/
theorem inRange_of_coalesce (h : fn.coalesce lib order = .ok c) :
    c.analysis.InRange fn ∧ ∃ classes, fn.color lib c.analysis.interference order = .ok classes ∧
      classes.Proper fn := by
  obtain ⟨a, classes, w, w', ha, hcolor, -, -, rfl⟩ := coalesce_steps h
  have hrange := analyze_inRange ha
  exact ⟨hrange, classes, hcolor, (Coloring.proper_of_color hrange.square hcolor).1⟩

theorem coalesce_of_analyze (hlib : lib.Keeps) (ha : fn.analyze = .ok a) (order : SlotOrder) :
    ∃ c, fn.coalesce lib order = .ok c := by
  have hsquare := (analyze_sound ha).square
  obtain ⟨t, -, -, -, ht, -⟩ := analyze_eq_ok ha
  obtain ⟨classes, hclasses⟩ := Coloring.color_total hlib hsquare order
  obtain ⟨result, hresult⟩ := ht.applyColoring_total (Coloring.sound_of_color hclasses) a.ineffective
  exact ⟨_, mapError_eq_ok.mpr (bind_eq_ok.mpr ⟨a, ha, bind_eq_ok.mpr ⟨classes, hclasses,
    bind_eq_ok.mpr ⟨result, hresult, rfl⟩⟩⟩)⟩

theorem coalesce_of_error (ha : fn.analyze = .error f) :
    fn.coalesce lib order = .error (f.inPass .coalescing fn.name) := by
  rw [coalesce, ha]
  rfl

theorem analyze_of_invalid (h : fn.validate = .error why) :
    fn.analyze = .error (.rejected why) := by
  rw [analyze, h]
  rfl

/-- A function whose branches have targets can be analyzed if there is room for its table, and the
analysis comes to an index that names nothing if there is not. -/
theorem analyze_of_strayLabels (h : fn.validate = .ok ()) (hnone : fn.strayLabels = []) :
    fn.numLocals * fn.numLocals ≤ 2 ^ 48 ∧ (∃ a, fn.analyze = .ok a) ∨
      2 ^ 48 < fn.numLocals * fn.numLocals ∧ fn.analyze = .error .outOfRange := by
  obtain ⟨t, ht⟩ := wellFormed_of_validate h
  obtain ⟨g, hg⟩ : ∃ g, fn.actionGraph = .ok g := (ht.lower_failsAt fn.action?).exists_ok hnone
  by_cases hroom : fn.numLocals * fn.numLocals ≤ 2 ^ 48
  · obtain ⟨m, hm, hsquare⟩ := ht.interference_total hg hroom
    obtain ⟨es, hes, -⟩ := hsquare.exists_edges
    refine .inl ⟨hroom, ⟨g.markRanges g.liveness, g.liveness, m, es.length⟩, ?_⟩
    rw [analyze_eq_bind h hg]
    exact bind_eq_ok.mpr ⟨m, hm, bind_eq_ok.mpr ⟨es, hes, rfl⟩⟩
  · have hover := Nat.lt_of_not_le hroom
    exact .inr ⟨hover, analyze_of_oversized h hg hover⟩

theorem exists_analyze (h : fn.validate = .ok ()) (hnone : fn.strayLabels = [])
    (hroom : fn.numLocals * fn.numLocals ≤ 2 ^ 48) : ∃ a, fn.analyze = .ok a := by
  rcases analyze_of_strayLabels h hnone with ⟨-, ha⟩ | ⟨hover, -⟩
  · exact ha
  · exact absurd hroom (Nat.not_le_of_lt hover)

theorem strayLabels_of_analyze (ha : fn.analyze = .ok a) : fn.strayLabels = [] := by
  obtain ⟨t, g, -, -, ht, hg, -⟩ := analyze_eq_ok ha
  have hgraph : FailsAt fn.strayLabels fn.actionGraph := ht.lower_failsAt fn.action?
  rw [hg] at hgraph
  exact hgraph

theorem isStructural_of_validateFrom {seen : List Nat} {pending : List Ref}
    (h : fn.validateFrom seen pending = .error why) : why.IsStructural := by
  fun_induction validateFrom fn seen pending with
  | case1 => cases h
  | case2 | case3 =>
    cases h
    trivial
  | case4 seen r pending hpresent hseen n hn why' hwhy =>
    cases h
    unfold rejection? at hwhy
    split at hwhy
    · cases hwhy
      trivial
    · split at hwhy
      · cases hwhy
        trivial
      · cases hwhy
  | case5 seen r pending hpresent hseen n hn hok ih => exact ih h
  | case6 seen r pending hpresent ih => exact ih h

/-- A function is rejected for its shape, or for a stray label, or it has too many locals, or it can be
coalesced. -/
theorem coalesce_cases (hlib : lib.Keeps) (fn : Function) (order : SlotOrder) :
    (∃ why, fn.validate = .error why ∧ why.IsStructural ∧ fn.analyze = .error (.rejected why)) ∨
    (fn.validate = .ok () ∧ ∃ label, fn.strayLabels.head? = some label ∧
      fn.analyze = .error (.rejected (.unresolvedLabel label))) ∨
    (fn.validate = .ok () ∧ fn.strayLabels = [] ∧ 2 ^ 48 < fn.numLocals * fn.numLocals ∧
      fn.analyze = .error .outOfRange) ∨
    fn.validate = .ok () ∧ fn.strayLabels = [] ∧ fn.numLocals * fn.numLocals ≤ 2 ^ 48 ∧
      ∃ c, fn.coalesce lib order = .ok c := by
  cases hvalid : fn.validate with
  | error why =>
    exact .inl ⟨why, rfl, isStructural_of_validateFrom hvalid, analyze_of_invalid hvalid⟩
  | ok =>
    right
    cases hstrays : fn.strayLabels with
    | cons label labels =>
      obtain ⟨t, ht⟩ := wellFormed_of_validate hvalid
      have hgraph : fn.actionGraph = .error (.rejected (.unresolvedLabel label)) :=
        (ht.lower_failsAt fn.action?).eq_error_iff.mpr ⟨label, by rw [hstrays]; rfl, rfl⟩
      refine .inl ⟨rfl, label, rfl, ?_⟩
      rw [analyze, hvalid, hgraph]
      rfl
    | nil =>
      rcases analyze_of_strayLabels hvalid hstrays with ⟨hroom, a, ha⟩ | ⟨hover, ha⟩
      · exact .inr (.inr ⟨rfl, rfl, hroom, coalesce_of_analyze hlib ha order⟩)
      · exact .inr (.inl ⟨rfl, rfl, hover, ha⟩)

theorem coalesceAt_of_error {n : Nat} {fns : Vector Function n} {i : Fin n} {o : Options}
    (h : (fns.get i).coalesce lib o.order = .error f) :
    coalesceAt lib o fns i = (fns, { result := .error f }) := by
  simp only [coalesceAt, runCoalescing, h, Except.map]

/-- What coalescing a function ends in. A function that is not well formed is rejected for that, a
well-formed one is rejected at its first stray label. Any other function is coalesced, with all that
this looks up in range, if there is room for a table of all pairs of its locals; if there is not, the
analysis comes to an index that names nothing. Failures come from the analysis, before anything is
rewritten, and the function stays as it is. -/
theorem coalesce_outcome (hlib : lib.Keeps) (fn : Function) (order : SlotOrder) :
    (∀ why, fn.coalesce lib order = .error (.within .coalescing fn.name why) ∧ why.IsStructural ↔
      fn.validate = .error why) ∧
    (∀ label, fn.coalesce lib order = .error (.within .coalescing fn.name (.unresolvedLabel label)) ↔
      fn.validate = .ok () ∧ fn.strayLabels.head? = some label) ∧
    ((∃ c, fn.coalesce lib order = .ok c) ↔ fn.validate = .ok () ∧ fn.strayLabels = [] ∧
      fn.numLocals * fn.numLocals ≤ 2 ^ 48) ∧
    (fn.coalesce lib order = .error .outOfRange ↔ fn.validate = .ok () ∧ fn.strayLabels = [] ∧
      2 ^ 48 < fn.numLocals * fn.numLocals) ∧
    (∀ c, fn.coalesce lib order = .ok c → c.analysis.InRange fn ∧
      ∃ classes, fn.color lib c.analysis.interference order = .ok classes ∧ classes.Proper fn) ∧
    ∀ f, fn.coalesce lib order = .error f →
      (f = .outOfRange ∧ fn.analyze = .error .outOfRange ∨
        ∃ why, f = .within .coalescing fn.name why ∧ fn.analyze = .error (.rejected why)) ∧
      ∀ (o : Options) (n : Nat) (fns : Vector Function n) (i : Fin n), o.order = order → fns.get i = fn →
        coalesceAt lib o fns i = (fns, { result := .error f }) := by
  have hunchanged : ∀ f, fn.coalesce lib order = .error f →
      ∀ (o : Options) (n : Nat) (fns : Vector Function n) (i : Fin n), o.order = order → fns.get i = fn →
        coalesceAt lib o fns i = (fns, { result := .error f }) := by
    intro f hf o n fns i ho hi
    exact coalesceAt_of_error (by rw [ho, hi, hf])
  have hrange : ∀ c, fn.coalesce lib order = .ok c → c.analysis.InRange fn ∧
      ∃ classes, fn.color lib c.analysis.interference order = .ok classes ∧ classes.Proper fn :=
    fun c hc => inRange_of_coalesce hc
  rcases coalesce_cases hlib fn order with ⟨why, hvalid, hstructural, ha⟩ |
    ⟨hvalid, label, hlabel, ha⟩ | ⟨hvalid, hnone, hover, ha⟩ | ⟨hvalid, hnone, hroom, c, hc⟩
  · have hfails : fn.coalesce lib order = .error (.within .coalescing fn.name why) :=
      coalesce_of_error ha
    have hlabels : ∀ label, why ≠ .unresolvedLabel label := by
      rintro label rfl
      exact hstructural
    refine ⟨fun why' => ?_, fun label => ?_, ?_, ?_, hrange,
      fun f hf => ⟨.inr ⟨why, ?_, ha⟩, hunchanged f hf⟩⟩
    · simp only [hfails, hvalid, Except.error.injEq, Failure.within.injEq, true_and]
      constructor
      · exact fun h => h.1
      · rintro rfl
        exact ⟨rfl, hstructural⟩
    · simp [hfails, hvalid, hlabels label]
    · simp [hfails, hvalid]
    · simp [hfails, hvalid]
    · exact Except.error.inj (hf.symm.trans hfails)
  · have hfails : fn.coalesce lib order =
        .error (.within .coalescing fn.name (.unresolvedLabel label)) := coalesce_of_error ha
    have hsome : fn.strayLabels ≠ [] := by
      intro hnone
      rw [hnone] at hlabel
      cases hlabel
    refine ⟨fun why => ?_, fun label' => ?_, ?_, ?_, hrange,
      fun f hf => ⟨.inr ⟨_, ?_, ha⟩, hunchanged f hf⟩⟩
    · simp only [hfails, hvalid, Except.error.injEq, Failure.within.injEq, true_and, reduceCtorEq,
        iff_false]
      rintro ⟨rfl, hstructural⟩
      exact hstructural
    · simp [hfails, hvalid, hlabel]
    · simp [hfails, hsome]
    · simp [hfails, hsome]
    · exact Except.error.inj (hf.symm.trans hfails)
  · have hfails : fn.coalesce lib order = .error .outOfRange := coalesce_of_error ha
    refine ⟨fun why => ?_, fun label => ?_, ?_, ?_, hrange,
      fun f hf => ⟨.inl ⟨?_, ha⟩, hunchanged f hf⟩⟩
    · simp [hfails, hvalid]
    · simp [hfails, hnone]
    · simp only [hfails, reduceCtorEq, exists_false, false_iff]
      exact fun h => Nat.not_le_of_lt hover h.2.2
    · exact ⟨fun _ => ⟨hvalid, hnone, hover⟩, fun _ => hfails⟩
    · exact Except.error.inj (hf.symm.trans hfails)
  · refine ⟨fun why => ?_, fun label => ?_, ?_, ?_, hrange, fun f hf => ?_⟩
    · simp [hc, hvalid]
    · simp [hc, hnone]
    · exact ⟨fun _ => ⟨hvalid, hnone, hroom⟩, fun _ => ⟨c, hc⟩⟩
    · simp only [hc, reduceCtorEq, false_iff]
      exact fun h => Nat.not_lt_of_le hroom h.2.2
    · rw [hc] at hf
      cases hf

/-- A block that is its own child. -/
def cyclic : Function where
  name := "cyclic"
  body := 0
  nodes := #[{ kind := .block, kids := [0] }]

def straying : Function where
  name := "straying"
  body := 3
  nodes := #[
    { kind := .br, label := "out", kids := [.absent, .absent] },
    { kind := .loop, label := "again", kids := [0] },
    { kind := .block, label := "out" },
    { kind := .block, kids := [2, 1] }]

theorem coalesce_outcome_cyclic_straying :
    GraphLibrary.lists.Keeps ∧
      cyclic.validate = .error (.malformed "cyclic" 0 .secondParent) ∧
      cyclic.coalesce .lists .degree =
        .error (.within .coalescing "cyclic" (.malformed "cyclic" 0 .secondParent)) ∧
      straying.validate = .ok () ∧ straying.strayLabels = ["out"] ∧
      straying.coalesce .lists .degree =
        .error (.within .coalescing "straying" (.unresolvedLabel "out")) ∧
      ∀ (o : Options) (n : Nat) (fns : Vector Function n) (i : Fin n), o.order = .degree →
        fns.get i = straying → (coalesceAt .lists o fns i).1 = fns := by
  have hlib := GraphLibrary.keeps_lists
  have hcyclic : cyclic.validate = .error (.malformed "cyclic" 0 .secondParent) := by cbv
  have hvalid : straying.validate = .ok () := by cbv
  have hlabels : straying.strayLabels = ["out"] := by cbv
  obtain ⟨hrejected, -⟩ := coalesce_outcome hlib cyclic .degree
  obtain ⟨-, hstrays, -, -, -, hunchanged⟩ := coalesce_outcome hlib straying .degree
  have hfails := (hstrays "out").mpr ⟨hvalid, by rw [hlabels]; rfl⟩
  refine ⟨hlib, hcyclic, ((hrejected _).mpr hcyclic).1, hvalid, hlabels, hfails,
    fun o n fns i ho hi => ?_⟩
  rw [(hunchanged _ hfails).2 o n fns i ho hi]

def declaring (count : Nat) : Function where
  name := "declaring"
  vars := List.replicate count .i32

/-- A function of which nothing is wrong but that there are too many variables. -/
theorem coalesce_declaring_outOfRange :
    (declaring 16777217).validate = .ok () ∧ (declaring 16777217).strayLabels = [] ∧
      (declaring 16777217).coalesce .lists .index = .error .outOfRange := by
  have hvalid : ∀ count, (declaring count).validate = .ok () := by
    intro count
    simp [validate, validateFrom, declaring, Ref.absent, Ref.isPresent]
  have hnone : ∀ count, (declaring count).strayLabels = [] := fun _ => rfl
  have hcount : ∀ count, (declaring count).numLocals = count := by simp [declaring, numLocals]
  refine ⟨hvalid _, hnone _, ?_⟩
  rcases analyze_of_strayLabels (hvalid 16777217) (hnone 16777217) with ⟨hroom, -⟩ | ⟨-, ha⟩
  · rw [hcount] at hroom
    omega
  · exact coalesce_of_error ha

end Function

end LocalFlow
