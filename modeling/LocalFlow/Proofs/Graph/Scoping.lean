import LocalFlow.Proofs.Graph.Coverage
import LocalFlow.Proofs.Graph.Lowering

/-! Which branches name an enclosing construct. Lowering a finite tree of any shape fails at labels only,
and lowering a well-formed tree fails at the first branch that names none. -/

namespace LocalFlow

open LocalFlow.Graph

namespace Node

def branchLabels (n : Node) : List String :=
  match n.kind with
  | .br => [n.label]
  | .brTable => n.labels ++ [n.label]
  | _ => []

/-- The labels of the constructs around the children of a node, innermost first. -/
def labelsInside (n : Node) (labels : List String) : List String :=
  match n.kind with
  | .block | .loop => n.label :: labels
  | _ => labels

end Node

/-- Those labels that name none of the constructs around. No construct is named by the empty label. -/
def unresolved (labels names : List String) : List String :=
  names.filter fun name => name = "" || name ∉ labels

namespace Tree

mutual

/-- The labels of branches that name no enclosing construct, in the order of evaluation. -/
def strays (labels : List String) : Tree → List String
  | .node _ n kids => straysAll (n.labelsInside labels) kids ++ unresolved labels n.branchLabels
  | _ => []

def straysAll (labels : List String) : List (Unit → Tree) → List String
  | [] => []
  | t :: ts => strays labels (t ()) ++ straysAll labels ts

end

@[simp]
theorem strays_absent (labels : List String) : Tree.absent.strays labels = [] := rfl

theorem straysAll_eq_slots {labels : List String} {kids : List (Unit → Tree)}
    (h : kids.length ≤ 3) : straysAll labels kids = (slot kids 0).strays labels ++
      ((slot kids 1).strays labels ++ (slot kids 2).strays labels) := by
  match kids with
  | [] => simp [slot, straysAll]
  | [a] => simp [slot, straysAll]
  | [a, b] => simp [slot, straysAll]
  | [a, b, c] => simp [slot, straysAll]
  | _ :: _ :: _ :: _ :: _ =>
    simp only [List.length_cons] at h
    omega

theorem straysAll_eq_flatMap {labels : List String} {kids : List (Unit → Tree)} :
    straysAll labels kids = kids.flatMap fun k => (k ()).strays labels := by
  induction kids with
  | nil => rfl
  | cons k kids ih => rw [straysAll, ih, List.flatMap_cons]

end Tree

/-- The computation fails at the first of the stray labels, and gives a result only if there is
none. -/
def FailsAt {β : Type} (strays : List String) : Except Failure β → Prop
  | .ok _ => strays = []
  | .error f => ∃ label, strays.head? = some label ∧ f = .rejected (.unresolvedLabel label)

namespace FailsAt

variable {β γ : Type} {strays strays' : List String} {x : Except Failure β}
  {next : β → Except Failure γ}

theorem bind (h : FailsAt strays x) (hnext : ∀ b, x = .ok b → FailsAt strays' (next b)) :
    FailsAt (strays ++ strays') (x >>= next) := by
  cases x with
  | error f =>
    obtain ⟨label, hlabel, hf⟩ := h
    exact ⟨label, by rw [List.head?_append, hlabel, Option.some_or], hf⟩
  | ok b =>
    obtain rfl : strays = [] := h
    exact hnext b rfl

theorem of_ok {b : β} (hx : x = .ok b) (h : FailsAt strays (next b)) :
    FailsAt strays (x >>= next) := by
  rwa [hx]

theorem andThen (h : FailsAt strays x) (hnext : ∀ b, x = .ok b → ∃ c, next b = .ok c) :
    FailsAt strays (x >>= next) := by
  rw [← List.append_nil strays]
  refine h.bind fun b hb => ?_
  obtain ⟨c, hc⟩ := hnext b hb
  rw [hc]
  rfl

theorem exists_ok (h : FailsAt strays x) (hnone : strays = []) : ∃ b, x = .ok b := by
  cases x with
  | error f =>
    obtain ⟨label, hlabel, -⟩ := h
    rw [hnone] at hlabel
    cases hlabel
  | ok b => exact ⟨b, rfl⟩

theorem eq_error_iff {f : Failure} (h : FailsAt strays x) :
    x = .error f ↔ ∃ label, strays.head? = some label ∧ f = .rejected (.unresolvedLabel label) := by
  cases x with
  | ok b =>
    obtain rfl : strays = [] := h
    simp
  | error f' =>
    obtain ⟨label, hlabel, rfl⟩ := h
    simp [hlabel, eq_comm]

end FailsAt

namespace Lowering

variable {α : Type} {recorder : Ref → Option α} {s s' : Lowering α} {rest rest' : List Nat}
  {scopes scopes' : List Scope} {label : String} {b next : Nat} {fn : Function} {r : Ref} {n : Node}
  {kids : List (Unit → Tree)} {t : Tree} {strays strays₁ strays₂ : List String}

def names (s : Lowering α) : List String := s.scopes.map Scope.label

theorem names_enter (s : Lowering α) (scope : Scope) :
    (s.enter scope).names = scope.label :: s.names := rfl

theorem scopeTarget?_eq_none_iff :
    scopeTarget? label next scopes = none ↔ label ∉ scopes.map Scope.label := by
  induction scopes with
  | nil => simp [scopeTarget?]
  | cons scope scopes ih =>
    unfold scopeTarget?
    by_cases hlabel : scope.label = label
    · rw [if_pos hlabel]
      split <;> simp [hlabel]
    · rw [if_neg hlabel, Option.map_eq_none_iff, ih]
      simp [Ne.symm hlabel]

theorem Fills.map_label (h : Fills scopes scopes') :
    scopes'.map Scope.label = scopes.map Scope.label := by
  induction h with
  | nil => rfl
  | cons hfill _ ih => rw [List.map_cons, List.map_cons, hfill.label_eq, ih]

theorem Advances.names_eq {related : Graph α → Labels → Point → Point → Prop}
    (h : Advances rest rest' related s s') : s'.names = s.names :=
  h.fills.map_label

theorem resolve_failsAt (s : Lowering α) (label : String) :
    FailsAt (unresolved s.names [label]) (s.resolve label) := by
  unfold resolve
  by_cases hempty : label = ""
  · rw [if_pos hempty]
    exact ⟨label, by simp [unresolved, hempty], rfl⟩
  · rw [if_neg hempty]
    cases htarget : scopeTarget? label s.graph.size s.scopes with
    | none =>
      have hnot : label ∉ s.names := scopeTarget?_eq_none_iff.mp htarget
      exact ⟨label, by simp [unresolved, hnot], rfl⟩
    | some found =>
      have hmem : label ∈ s.names := by
        by_contra hnot
        rw [scopeTarget?_eq_none_iff.mpr hnot] at htarget
        cases htarget
      simp [FailsAt, unresolved, hempty, hmem]

theorem resolveAll_failsAt (s : Lowering α) (targets : List String) :
    FailsAt (unresolved s.names targets) (s.resolveAll targets) := by
  induction targets generalizing s with
  | nil => rfl
  | cons target targets ih =>
    have hcons : unresolved s.names (target :: targets) =
        unresolved s.names [target] ++ unresolved s.names targets := by
      rw [unresolved, ← List.singleton_append, List.filter_append]
      rfl
    rw [hcons, resolveAll]
    refine (resolve_failsAt s target).bind ?_
    rintro ⟨s₁, b⟩ hb
    have hnames : s₁.names = s.names := (resolve_cases hb).2.1.map_label
    rw [← hnames]
    exact (ih s₁).andThen fun _ _ => ⟨_, rfl⟩

/-! Wherever a node is lowered, it fails where its parts do and where its own labels are stray. All
other steps succeed. -/

theorem block_failsAt (hkind : n.kind = .block) (hs : Sound rest s)
    (hkids : FailsAt strays (visitAll recorder kids (s.enter (.block n.label none)))) :
    FailsAt strays (visit recorder (.node r n kids) s) := by
  rw [visit, hkind]
  refine hkids.andThen fun s₁ h₁ => ?_
  have hinside := visitAll_advances (fun k _ => lowered recorder (k ())) (hs.enterBlock n.label) h₁
  obtain ⟨scope, scopes, hscopes, -⟩ := hinside.leave rfl
  exact hinside.sound.exists_leaveBlock hscopes r

theorem loop_failsAt (hkind : n.kind = .loop) (hs : Sound rest s)
    (hbody : ∀ {rest s₁}, Sound rest s₁ → s₁.names = n.label :: s.names →
      FailsAt strays (visit recorder (Tree.slot kids 0) s₁)) :
    FailsAt strays (visit recorder (.node r n kids) s) := by
  obtain ⟨s₁, exit, henter⟩ := hs.exists_enterLoop r n.label
  obtain ⟨inner, rfl, hsound, hin⟩ := hs.advances_enterLoop henter
  have hnames : (inner.enter (.loop n.label s.graph.size)).names = n.label :: s.names := by
    rw [← hin.names_eq]
    rfl
  rw [visit, hkind]
  simp only [visitSlot_eq, henter, ok_bind]
  refine (hbody hsound hnames).andThen fun s₂ h₂ => ?_
  have hleft := lowered recorder _ hsound h₂
  obtain ⟨scope, scopes, hscopes, -⟩ := hleft.leave rfl
  exact hleft.sound.exists_leaveLoop hscopes

theorem if_failsAt (hkind : n.kind = .ifElse) (hs : Sound rest s)
    (hcond : FailsAt strays (visit recorder (Tree.slot kids 0) s))
    (hthen : ∀ {rest s₁}, Sound rest s₁ → s₁.names = s.names →
      FailsAt strays₁ (visit recorder (Tree.slot kids 1) s₁))
    (helse : (n.kid 2).isPresent = true → ∀ {rest s₁}, Sound rest s₁ → s₁.names = s.names →
      FailsAt strays₂ (visit recorder (Tree.slot kids 2) s₁))
    (hnone : (n.kid 2).isPresent = false → strays₂ = []) :
    FailsAt (strays ++ (strays₁ ++ strays₂)) (visit recorder (.node r n kids) s) := by
  rw [visit, hkind]
  simp only [visitSlot_eq]
  refine hcond.bind fun s₁ h₁ => ?_
  have hcond := lowered recorder _ hs h₁
  split
  · rename_i hpresent
    obtain ⟨s₂, hfork⟩ := hcond.sound.exists_openArms
    refine FailsAt.of_ok hfork ?_
    have hopen := hcond.sound.advances_openArms hfork
    have hnames := hopen.names_eq.trans hcond.names_eq
    refine (hthen hopen.sound hnames).bind fun s₃ h₃ => ?_
    have hthen := lowered recorder _ hopen.sound h₃
    obtain ⟨s₄, hlink⟩ := hthen.sound.exists_linkTo (hthen.sound.rest_lt (List.mem_cons_self ..))
    refine FailsAt.of_ok hlink ?_
    have hover := hthen.sound.advances_linkTo_moveTo hlink (.swap _ _ _)
    have hnames' := hover.names_eq.trans (hthen.names_eq.trans hnames)
    refine (helse hpresent hover.sound hnames').andThen fun s₅ h₅ => ?_
    have helse := (lowered recorder _ hover.sound h₅).sound
    exact exists_goTo helse.filling.current_lt (helse.rest_lt (List.mem_cons_self ..))
  · rename_i habsent
    obtain ⟨s₂, hfork⟩ := hcond.sound.exists_openArm
    refine FailsAt.of_ok hfork ?_
    have hopen := hcond.sound.advances_openArm hfork
    rw [hnone (by simpa using habsent), List.append_nil]
    refine (hthen hopen.sound (hopen.names_eq.trans hcond.names_eq)).andThen fun s₃ h₃ => ?_
    have hthen := (lowered recorder _ hopen.sound h₃).sound
    exact exists_goTo hthen.filling.current_lt (hthen.rest_lt (List.mem_cons_self ..))

theorem plain_failsAt (hplain : n.kind.isStructured = false) (hs : Sound rest s)
    (hkids : FailsAt strays (visitAll recorder kids s)) :
    FailsAt (strays ++ unresolved s.names n.branchLabels)
      (visit recorder (.node r n kids) s) := by
  have hargs : ∀ s₁, visitAll recorder kids s = .ok s₁ → Sound rest s₁ ∧ s₁.names = s.names := by
    intro s₁ h₁
    have hargs := visitAll_advances (fun k _ => lowered recorder (k ())) hs h₁
    exact ⟨hargs.sound, hargs.names_eq⟩
  rw [visit]
  -- No kind but the two branches has labels of its own to resolve.
  cases hkind : n.kind
  case block | loop | ifElse => simp [hkind, Kind.isStructured] at hplain
  case br =>
    refine hkids.bind fun s₁ h₁ => ?_
    obtain ⟨hs₁, hnames⟩ := hargs s₁ h₁
    simp only [Node.branchLabels, hkind, ← hnames]
    refine (resolve_failsAt s₁ n.label).andThen ?_
    rintro ⟨s₂, target⟩ hb
    obtain ⟨s₃, s₄, s₅, hrecord, hlink, hfall⟩ := hs₁.exists_branch hb recorder r
    simp only [hrecord, hlink, ok_bind]
    split
    · exact ⟨s₅, hfall⟩
    · exact ⟨_, rfl⟩
  case brTable =>
    refine hkids.bind fun s₁ h₁ => ?_
    obtain ⟨hs₁, hnames⟩ := hargs s₁ h₁
    simp only [Node.branchLabels, hkind, ← hnames]
    refine (resolveAll_failsAt s₁ _).andThen ?_
    rintro ⟨s₂, targets⟩ hb
    obtain ⟨s₃, s₄, hrecord, hlinks⟩ := hs₁.exists_brTable hb recorder r
    simp only [hrecord, hlinks, ok_bind]
    exact ⟨_, rfl⟩
  all_goals
    have hnone : unresolved s.names n.branchLabels = [] := by
      simp [Node.branchLabels, hkind, unresolved]
    rw [hnone, List.append_nil]
    refine hkids.andThen fun s₁ h₁ => ?_
    obtain ⟨s₂, hrecord⟩ := (hargs s₁ h₁).1.exists_record recorder r
    simp only [hrecord, ok_bind]
    exact ⟨_, rfl⟩

/-- Lowering the tree fails at the first of the labels that `strays` gives for those of the enclosing
constructs, and at nothing else. -/
def FailsWith (recorder : Ref → Option α) (strays : List String → List String) (t : Tree) : Prop :=
  ∀ ⦃rest s⦄, Sound rest s → FailsAt (strays s.names) (visit recorder t s)

theorem FailsWith.of_names {strays : List String → List String} {labels : List String}
    (h : FailsWith recorder strays t) (hs : Sound rest s) (hnames : s.names = labels) :
    FailsAt (strays labels) (visit recorder t s) :=
  hnames ▸ h hs

theorem visitAll_failsAt {strays : (Unit → Tree) → List String → List String}
    (ih : ∀ k ∈ kids, FailsWith recorder (strays k) (k ())) (hs : Sound rest s) :
    FailsAt (kids.flatMap fun k => strays k s.names) (visitAll recorder kids s) := by
  induction kids generalizing s with
  | nil => rfl
  | cons k kids ihk =>
    rw [visitAll, List.flatMap_cons]
    refine (ih k (by simp) hs).bind fun s₁ h₁ => ?_
    have hfirst := lowered recorder _ hs h₁
    rw [← hfirst.names_eq]
    exact ihk (fun k hk => ih k (.tail _ hk)) hfirst.sound

/-- Lowering a tree without a handle that names nothing fails at labels only. -/
theorem exists_failsWith (hat : t.IsAt fn r) (recorder : Ref → Option α) :
    ∃ strays, FailsWith recorder strays t := by
  induction t generalizing r with
  | absent => exact ⟨fun _ => [], fun _ _ _ => rfl⟩
  | dangling => exact hat.elim
  | endless => exact hat.elim
  | node r n kids ih =>
    obtain ⟨rfl, -, hkids⟩ := hat
    have ih : ∀ k ∈ kids, ∃ strays, FailsWith recorder strays (k ()) := by
      intro k hk
      obtain ⟨r', -, hr'⟩ := hkids.exists_isAt hk
      exact ih k hk hr'
    have hslot : ∀ i, ∃ strays, FailsWith recorder strays (Tree.slot kids i) :=
      Tree.slot_of_kids (P := fun t => ∃ strays, FailsWith recorder strays t) ih
        ⟨fun _ => [], fun _ _ _ => rfl⟩
    choose! strays hstrays using ih
    obtain ⟨cond, hcond⟩ := hslot 0
    obtain ⟨ifTrue, hthen⟩ := hslot 1
    obtain ⟨ifFalse, helse⟩ := hslot 2
    cases hkind : n.kind
    case block =>
      refine ⟨fun names => kids.flatMap fun k => strays k (n.label :: names), fun rest s hs => ?_⟩
      exact block_failsAt hkind hs (visitAll_failsAt hstrays (hs.enterBlock n.label))
    case loop =>
      refine ⟨fun names => cond (n.label :: names), fun rest s hs => ?_⟩
      exact loop_failsAt hkind hs fun hs₁ hnames => hcond.of_names hs₁ hnames
    case ifElse =>
      refine ⟨fun names => cond names ++ (ifTrue names ++
        if (n.kid 2).isPresent then ifFalse names else []), fun rest s hs => ?_⟩
      refine if_failsAt hkind hs (hcond hs) (fun hs₁ hnames => hthen.of_names hs₁ hnames) ?_ ?_
      · intro hpresent rest s₁ hs₁ hnames
        rw [if_pos hpresent]
        exact helse.of_names hs₁ hnames
      · intro habsent
        rw [if_neg (by simp [habsent])]
    all_goals
      refine ⟨fun names => (kids.flatMap fun k => strays k names) ++
        unresolved names n.branchLabels, fun rest s hs => ?_⟩
      exact plain_failsAt (by rw [hkind]; rfl) hs (visitAll_failsAt hstrays hs)

/-- Lowering a well-formed tree fails at its first stray label, and at nothing else. -/
theorem failsWith_strays (hat : t.IsAt fn r)
    (haccepted : ∀ x ∈ t.nodes, fn.rejection? x.1 x.2 = none) (recorder : Ref → Option α) :
    FailsWith recorder (fun labels => t.strays labels) t := by
  induction t generalizing r with
  | absent => exact fun _ _ _ => rfl
  | dangling => exact hat.elim
  | endless => exact hat.elim
  | node r n kids ih =>
    obtain ⟨rfl, -, hkids⟩ := hat
    have hself := haccepted (r, n) (by simp [Tree.nodes])
    have ih : ∀ k ∈ kids, FailsWith recorder (fun labels => (k ()).strays labels) (k ()) := by
      intro k hk
      obtain ⟨r', -, hr'⟩ := hkids.exists_isAt hk
      exact ih k hk hr' fun x hx => haccepted x (Tree.mem_nodes_of_kid hk hx)
    have hslot : ∀ i, FailsWith recorder (fun labels => (Tree.slot kids i).strays labels)
        (Tree.slot kids i) :=
      Tree.slot_of_kids (P := fun t => FailsWith recorder (fun labels => t.strays labels) t) ih
        fun _ _ _ => rfl
    intro rest s hs
    change FailsAt (Tree.strays s.names (.node r n kids)) _
    rw [Tree.strays]
    -- A block or loop adds its label for its children only.
    cases hkind : n.kind
    case block =>
      have hall := block_failsAt (r := r) hkind hs (visitAll_failsAt ih (hs.enterBlock n.label))
      rw [names_enter, Scope.label] at hall
      simpa [Node.labelsInside, Node.branchLabels, hkind, unresolved, Tree.straysAll_eq_flatMap]
        using hall
    case loop =>
      have hlen := Tree.length_le_of_loop hkids hself hkind
      rw [Tree.straysAll_eq_slots (by omega), Tree.slot_eq_absent hlen,
        Tree.slot_eq_absent (i := 2) (by omega)]
      have hbody := loop_failsAt (r := r) hkind hs fun hs₁ hnames => (hslot 0).of_names hs₁ hnames
      simpa [Node.labelsInside, Node.branchLabels, hkind, unresolved] using hbody
    case ifElse =>
      obtain ⟨hlen, habsent⟩ := Tree.length_le_of_if hkids hself hkind
      rw [Tree.straysAll_eq_slots hlen]
      -- An arm that is not visited has no stray labels either: there is no third child.
      have harms := if_failsAt (r := r) hkind hs (hslot 0 hs)
        (fun hs₁ hnames => (hslot 1).of_names hs₁ hnames)
        (fun _ _ _ hs₁ hnames => (hslot 2).of_names hs₁ hnames) fun hnone => by
          rw [Tree.slot_eq_absent (habsent hnone)]
          rfl
      simpa [Node.labelsInside, Node.branchLabels, hkind, unresolved] using harms
    all_goals
      have hplain : n.labelsInside s.names = s.names := by simp [Node.labelsInside, hkind]
      rw [hplain, Tree.straysAll_eq_flatMap]
      exact plain_failsAt (by rw [hkind]; rfl) hs (visitAll_failsAt ih hs)

end Lowering

namespace Function

/-- The labels of the branches in the body that name no enclosing construct. -/
def strayLabels (fn : Function) : List String := (fn.tree fn.body).strays []

theorem WellFormed.lower_failsAt {α : Type} {fn : Function} {t : Tree} (h : fn.WellFormed t)
    (recorder : Ref → Option α) :
    FailsAt fn.strayLabels (fn.lower fn.body recorder) := by
  rw [strayLabels, lower, h.tree_eq]
  exact (Lowering.failsWith_strays h.isAt h.accepted recorder Lowering.sound_start).andThen
    fun _ _ => ⟨_, rfl⟩

/-- The graph of a finite body is made, unless a label names no enclosing construct. -/
theorem nodeGraph_eq_error {fn : Function} {t : Tree} (hat : t.IsAt fn fn.body) {f : Failure}
    (h : fn.nodeGraph = .error f) : ∃ label, f = .rejected (.unresolvedLabel label) := by
  obtain ⟨strays, hfails⟩ := Lowering.exists_failsWith hat some
  have hgraph : FailsAt (strays []) fn.nodeGraph := by
    rw [nodeGraph, lower, tree_eq_of_isAt hat]
    exact (hfails Lowering.sound_start).andThen fun _ _ => ⟨_, rfl⟩
  obtain ⟨label, -, hf⟩ := hgraph.eq_error_iff.mp h
  exact ⟨label, hf⟩

end Function

end LocalFlow
