import LocalFlow.Graph.Lowering
import LocalFlow.Proofs.Function.Tree
import LocalFlow.Proofs.Graph.Layout
import LocalFlow.Proofs.Outcome
import Mathlib.Data.List.Forall2

/-! What lowering comes down to, once it succeeds: how a label is resolved among the enclosing
constructs, and how a node is lowered by its kind, with the states in between. What holds along every
lowering is proved from this, one case for each stage. -/

namespace LocalFlow

open LocalFlow.Graph

/-- A node behind which evaluation never goes on in the same block. -/
def Kind.isJump : Kind → Bool
  | .br | .brTable | .ret | .unreachable => true
  | _ => false

theorem Graph.departs_of_isJump {α : Type} {g : Graph α} {labels : Labels} {n : Node}
    (h : n.kind.isJump = false) (p : Point) : g.Departs labels n p p := by
  revert h
  unfold Departs
  cases n.kind <;> simp [Kind.isJump]

namespace Scope

def target? : Scope → Option Nat
  | .block _ exit => exit
  | .loop _ head => some head

theorem target?_of_exit? {scope : Scope} {b : Nat} (h : scope.exit? = some b) :
    scope.target? = some b := by
  cases scope with
  | block label exit => exact h
  | loop label head => cases h

/-- The second scope is the first, which may have got an exit. -/
inductive Fills : Scope → Scope → Prop
  | same (scope : Scope) : Fills scope scope
  | exit (label : String) (exit : Nat) : Fills (.block label none) (.block label (some exit))

variable {a b c : Scope}

theorem Fills.label_eq (h : Fills a b) : b.label = a.label := by
  cases h <;> rfl

theorem Fills.trans (hab : Fills a b) (hbc : Fills b c) : Fills a c := by
  cases hab with
  | same => exact hbc
  | exit label x =>
    cases hbc with
    | same => exact .exit label x

end Scope

namespace Lowering

section Scopes

variable {scopes scopes' scopes'' : List Scope} {label : String} {b next : Nat}

def labelsOf : List Scope → Labels
  | [] => fun _ => none
  | scope :: scopes => Function.update (labelsOf scopes) scope.label scope.target?

/-- The blocks that will be filled when the enclosing constructs are left. -/
def waiting (scopes : List Scope) : List Nat := scopes.filterMap Scope.exit?

/-- Some of the scopes may have got an exit. -/
def Fills (scopes scopes' : List Scope) : Prop := List.Forall₂ Scope.Fills scopes scopes'

theorem Fills.refl (scopes : List Scope) : Fills scopes scopes :=
  List.forall₂_same.mpr fun scope _ => .same scope

theorem Fills.trans (h : Fills scopes scopes') (h' : Fills scopes' scopes'') :
    Fills scopes scopes'' := by
  induction h generalizing scopes'' with
  | nil => exact h'
  | cons hab _ ih =>
    cases h' with
    | cons hbc htail => exact .cons (hab.trans hbc) (ih htail)

theorem Fills.labelsOf_le (h : Fills scopes scopes') (hb : labelsOf scopes label = some b) :
    labelsOf scopes' label = some b := by
  induction h with
  | nil => exact hb
  | @cons scope scope' scopes scopes' hfill _ ih =>
    rw [labelsOf, hfill.label_eq]
    rw [labelsOf] at hb
    by_cases hlabel : label = scope.label
    · subst hlabel
      rw [Function.update_self] at hb ⊢
      cases hfill with
      | same => exact hb
      | exit label x => cases hb
    · rw [Function.update_of_ne hlabel] at hb ⊢
      exact ih hb

/-- A scope that has got an exit is waiting for it to be filled. -/
theorem Fills.target_cases (h : Fills scopes scopes') {scope : Scope} (hscope : scope ∈ scopes')
    (hb : scope.target? = some b) :
    (∃ scope ∈ scopes, scope.target? = some b) ∨ b ∈ waiting scopes' := by
  induction h with
  | nil => simp at hscope
  | @cons first first' scopes scopes' hfill _ ih =>
    rcases List.mem_cons.mp hscope with rfl | hscope
    · cases hfill with
      | same => exact .inl ⟨scope, List.mem_cons_self .., hb⟩
      | exit label x => exact .inr (List.mem_filterMap.mpr ⟨_, List.mem_cons_self .., hb⟩)
    · rcases ih hscope with ⟨old, hold, hb⟩ | hb
      · exact .inl ⟨old, .tail _ hold, hb⟩
      · exact .inr ((List.sublist_cons_self ..).filterMap _ |>.subset hb)

/-- Resolving a label finds the target of an enclosing construct, or makes `next` the exit of one. -/
theorem scopeTarget?_spec (h : scopeTarget? label next scopes = some (b, scopes')) :
    Fills scopes scopes' ∧ labelsOf scopes' label = some b ∧
      ((scopes' = scopes ∧ ∃ scope ∈ scopes, scope.target? = some b) ∨
        (b = next ∧ (waiting scopes').Perm (next :: waiting scopes))) := by
  induction scopes generalizing scopes' with
  | nil => cases h
  | cons scope scopes ih =>
    unfold scopeTarget? at h
    split at h
    · rename_i hlabel
      split at h
      · cases h
        exact ⟨.refl _, by simp [labelsOf, ← hlabel, Scope.target?],
          .inl ⟨rfl, _, List.mem_cons_self .., rfl⟩⟩
      · cases h
        exact ⟨.refl _, by simp [labelsOf, ← hlabel, Scope.target?],
          .inl ⟨rfl, _, List.mem_cons_self .., rfl⟩⟩
      · cases h
        cases hlabel
        refine ⟨.cons (.exit _ _) (Fills.refl _), ?_, .inr ⟨rfl, ?_⟩⟩
        · simp [labelsOf, Scope.label, Scope.target?]
        · simp [waiting, List.filterMap_cons, Scope.exit?]
    · rename_i hlabel
      obtain ⟨⟨b', rest⟩, hrest, hb⟩ := Option.map_eq_some_iff.mp h
      cases hb
      obtain ⟨hfill, htarget, hcases⟩ := ih hrest
      refine ⟨.cons (.same scope) hfill, ?_, ?_⟩
      · rw [labelsOf, Function.update_of_ne (Ne.symm hlabel), htarget]
      · rcases hcases with ⟨rfl, found, hmem, hfound⟩ | ⟨rfl, hperm⟩
        · exact .inl ⟨rfl, found, .tail _ hmem, hfound⟩
        · refine .inr ⟨rfl, ?_⟩
          simp only [waiting, List.filterMap_cons] at hperm ⊢
          cases scope.exit? with
          | none => exact hperm
          | some exit => exact (hperm.cons exit).trans (.swap _ _ _)

end Scopes

section Stages

variable {α : Type} {recorder : Ref → Option α} {s s' : Lowering α} {b : Nat} {label : String} {r : Ref}
  {n : Node} {kids : List (Unit → Tree)}

/-- A label is resolved to the target of an enclosing construct, or to a new block, which becomes the exit
of one. -/
theorem resolve_cases (h : s.resolve label = .ok (s', b)) :
    label ≠ "" ∧ Fills s.scopes s'.scopes ∧ labelsOf s'.scopes label = some b ∧
      (((∃ scope ∈ s.scopes, scope.target? = some b) ∧
          s' = if b < s.graph.size then s else s.fresh.1) ∨
        (b = s.graph.size ∧ ∃ scopes, s' = { s.fresh.1 with scopes } ∧
          (waiting scopes).Perm (b :: waiting s.scopes))) := by
  unfold resolve at h
  split at h
  · rename_i found b' scopes hfound
    have hlabel : label ≠ "" := by
      rintro rfl
      simp at hfound
    rw [if_neg hlabel] at hfound
    obtain ⟨hfills, htarget, hcases⟩ := scopeTarget?_spec hfound
    cases h
    refine ⟨hlabel, hfills, htarget, ?_⟩
    rcases hcases with ⟨rfl, hscope⟩ | ⟨rfl, hperm⟩
    · refine .inl ⟨hscope, ?_⟩
      split <;> rfl
    · exact .inr ⟨rfl, scopes, by rw [if_neg (Nat.lt_irrefl _)], hperm⟩
  · cases h

theorem linkTo_eq_ok : s.linkTo b = .ok s' ↔ s.current < s.graph.size ∧ b < s.graph.size ∧
    s' = { s with graph := s.graph.link s.current b } := by
  unfold linkTo addEdge
  by_cases h : s.current < s.graph.size ∧ b < s.graph.size
  · simp [h, pure, Except.pure, bind, Except.bind, eq_comm]
  · simp only [Bool.and_eq_true, decide_eq_true_eq, if_neg h]
    exact ⟨fun hfalse => (by cases hfalse), fun hok => absurd ⟨hok.1, hok.2.1⟩ h⟩

theorem scopes_linkTo (h : s.linkTo b = .ok s') : s'.scopes = s.scopes := by
  obtain ⟨-, -, rfl⟩ := linkTo_eq_ok.mp h
  rfl

theorem goTo_eq_ok : s.goTo b = .ok s' ↔ ∃ s₁, s.linkTo b = .ok s₁ ∧ s₁.moveTo b = s' := by
  rw [goTo, bind_eq_ok]
  simp [pure, Except.pure]

theorem scopes_goTo (h : s.goTo b = .ok s') : s'.scopes = s.scopes := by
  obtain ⟨s₁, hlink, rfl⟩ := goTo_eq_ok.mp h
  have hscopes := scopes_linkTo hlink
  exact hscopes

theorem exists_goTo (hs : s.current < s.graph.size) (hb : b < s.graph.size) :
    ∃ s', s.goTo b = .ok s' :=
  ⟨_, goTo_eq_ok.mpr ⟨_, linkTo_eq_ok.mpr ⟨hs, hb, rfl⟩, rfl⟩⟩

theorem fork_eq_ok {c : Nat} : s.fork b c = .ok s' ↔
    ∃ s₁, s.linkTo b = .ok s₁ ∧ ∃ s₂, s₁.linkTo c = .ok s₂ ∧ s₂.moveTo b = s' := by
  rw [fork, bind_eq_ok]
  simp [bind_eq_ok, pure, Except.pure]

theorem scopes_fork {c : Nat} (h : s.fork b c = .ok s') : s'.scopes = s.scopes := by
  obtain ⟨s₁, hfirst, s₂, hsecond, rfl⟩ := fork_eq_ok.mp h
  exact (scopes_linkTo hsecond).trans (scopes_linkTo hfirst)

theorem record_of_some {item : α} (hs : s.current < s.graph.size) (h : recorder r = some item) :
    s.record recorder r = .ok { s with graph := s.graph.record s.current item } := by
  simp only [record, h, addItem, if_pos hs]
  rfl

theorem record_cases (h : s.record recorder r = .ok s') :
    (recorder r = none ∧ s' = s) ∨ ∃ item, recorder r = some item ∧ s.current < s.graph.size ∧
      s' = { s with graph := s.graph.record s.current item } := by
  unfold record at h
  split at h
  · rename_i item hitem
    obtain ⟨graph, hgraph, h⟩ := bind_eq_ok.mp h
    cases h
    unfold addItem at hgraph
    split at hgraph
    · rename_i hlt
      cases hgraph
      exact .inr ⟨item, hitem, hlt, rfl⟩
    · cases hgraph
  · rename_i hnone
    cases h
    exact .inl ⟨hnone, rfl⟩

theorem leave_eq_ok {scope : Scope} : s.leave = .ok (s', scope) ↔
    ∃ scopes, s.scopes = scope :: scopes ∧ s' = { s with scopes } := by
  unfold leave
  split
  · rename_i first scopes hscopes
    rw [hscopes]
    constructor
    · intro h
      cases h
      exact ⟨scopes, rfl, rfl⟩
    · rintro ⟨rest, hrest, rfl⟩
      cases hrest
      rfl
  · rename_i hscopes
    rw [hscopes]
    exact ⟨fun h => (by cases h), fun h => (by obtain ⟨_, hscopes, -⟩ := h; cases hscopes)⟩

theorem leaveBlock_cases (h : s.leaveBlock r = .ok s') :
    ∃ scope scopes out, s.scopes = scope :: scopes ∧
      ((scope.exit? = none ∧ out = { s with scopes }) ∨
        ∃ exit, scope.exit? = some exit ∧ { s with scopes }.goTo exit = .ok out) ∧
      s' = { out with graph := out.graph.setTarget r { exit := out.current } } := by
  obtain ⟨⟨s₁, scope⟩, hleave, h⟩ := bind_eq_ok.mp h
  obtain ⟨scopes, hscopes, rfl⟩ := leave_eq_ok.mp hleave
  obtain ⟨out, hout, h⟩ := bind_eq_ok.mp h
  cases h
  refine ⟨scope, scopes, out, hscopes, ?_, rfl⟩
  unfold goToExit at hout
  split at hout
  · rename_i exit hexit
    exact .inr ⟨exit, hexit, hout⟩
  · rename_i hexit
    cases hout
    exact .inl ⟨hexit, rfl⟩

theorem enterLoop_eq_ok {exit : Nat} (h : s.enterLoop r label = .ok (s', exit)) :
    exit = s.fresh.1.graph.size ∧ ∃ s₁, s.fresh.1.fresh.1.goTo s.graph.size = .ok s₁ ∧
      s' = { s₁ with graph := s₁.graph.setTarget r { exit, restart := some s.graph.size } }.enter
        (.loop label s.graph.size) := by
  obtain ⟨s₁, hgo, h⟩ := bind_eq_ok.mp h
  cases h
  exact ⟨rfl, s₁, hgo, rfl⟩

theorem leaveLoop_eq_ok {exit : Nat} : s.leaveLoop exit = .ok s' ↔
    ∃ scope scopes, s.scopes = scope :: scopes ∧ { s with scopes }.goTo exit = .ok s' := by
  rw [leaveLoop, bind_eq_ok]
  constructor
  · rintro ⟨⟨s₁, scope⟩, hleave, hgo⟩
    obtain ⟨scopes, hscopes, rfl⟩ := leave_eq_ok.mp hleave
    exact ⟨scope, scopes, hscopes, hgo⟩
  · rintro ⟨scope, scopes, hscopes, hgo⟩
    exact ⟨({ s with scopes }, scope), leave_eq_ok.mpr ⟨scopes, hscopes, rfl⟩, hgo⟩

theorem visitSlot_eq (kids : List (Unit → Tree)) (i : Nat) (s : Lowering α) :
    visitSlot recorder kids i s = visit recorder (Tree.slot kids i) s := by
  induction kids generalizing i with
  | nil => simp [visitSlot, Tree.slot, visit]
  | cons t ts ih =>
    cases i with
    | zero => simp [visitSlot, Tree.slot]
    | succ i =>
      rw [visitSlot, ih]
      simp [Tree.slot]

/-- Two arms and the block behind them are made in this order, and the first arm is filled. -/
def openArms (s : Lowering α) : Except Failure (Lowering α) :=
  s.fresh.1.fresh.1.fresh.1.fork s.graph.size s.fresh.1.graph.size

/-- One arm and the block behind it are made in this order, and the arm is filled. -/
def openArm (s : Lowering α) : Except Failure (Lowering α) :=
  s.fresh.1.fresh.1.fork s.graph.size s.fresh.1.graph.size

theorem scopes_openArms (h : s.openArms = .ok s') : s'.scopes = s.scopes := by
  have hscopes := scopes_fork h
  exact hscopes

theorem scopes_openArm (h : s.openArm = .ok s') : s'.scopes = s.scopes := by
  have hscopes := scopes_fork h
  exact hscopes

/-- How a node that is no construct is lowered after its children. -/
inductive Placed (recorder : Ref → Option α) (r : Ref) (n : Node) (s : Lowering α) :
    Lowering α → Prop
  | br {s₁ s₂ s₃ : Lowering α} {target : Nat} : n.kind = .br → n.isConditional = false →
      s.resolve n.label = .ok (s₁, target) → s₁.record recorder r = .ok s₂ →
      s₂.linkTo target = .ok s₃ → Placed recorder r n s s₃.moveOn
  | brIf {s₁ s₂ s₃ s' : Lowering α} {target : Nat} : n.kind = .br → n.isConditional = true →
      s.resolve n.label = .ok (s₁, target) → s₁.record recorder r = .ok s₂ →
      s₂.linkTo target = .ok s₃ → s₃.fallOn = .ok s' → Placed recorder r n s s'
  | brTable {s₁ s₂ s₃ : Lowering α} {targets : List Nat} : n.kind = .brTable →
      s.resolveAll (n.labels ++ [n.label]) = .ok (s₁, targets) → s₁.record recorder r = .ok s₂ →
      targets.foldlM linkTo s₂ = .ok s₃ → Placed recorder r n s s₃.moveOn
  | leaving {s₁ : Lowering α} : n.kind = .ret ∨ n.kind = .unreachable →
      s.record recorder r = .ok s₁ → Placed recorder r n s s₁.moveOn
  | going {s' : Lowering α} : n.kind.isJump = false → s.record recorder r = .ok s' →
      Placed recorder r n s s'

/-- How a node is lowered with its children. -/
inductive Visited (recorder : Ref → Option α) (r : Ref) (n : Node) (kids : List (Unit → Tree))
    (s : Lowering α) : Lowering α → Prop
  | block {s₁ s' : Lowering α} : n.kind = .block →
      visitAll recorder kids (s.enter (.block n.label none)) = .ok s₁ → s₁.leaveBlock r = .ok s' →
      Visited recorder r n kids s s'
  | loop {s₁ s₂ s' : Lowering α} {exit : Nat} : n.kind = .loop →
      s.enterLoop r n.label = .ok (s₁, exit) → visit recorder (Tree.slot kids 0) s₁ = .ok s₂ →
      s₂.leaveLoop exit = .ok s' → Visited recorder r n kids s s'
  | ifElse {s₁ s₂ s₃ s₄ s₅ s' : Lowering α} : n.kind = .ifElse → (n.kid 2).isPresent = true →
      visit recorder (Tree.slot kids 0) s = .ok s₁ → s₁.openArms = .ok s₂ →
      visit recorder (Tree.slot kids 1) s₂ = .ok s₃ →
      s₃.linkTo s₁.fresh.1.fresh.1.graph.size = .ok s₄ →
      visit recorder (Tree.slot kids 2) (s₄.moveTo s₁.fresh.1.graph.size) = .ok s₅ →
      s₅.goTo s₁.fresh.1.fresh.1.graph.size = .ok s' → Visited recorder r n kids s s'
  | ifThen {s₁ s₂ s₃ s' : Lowering α} : n.kind = .ifElse → (n.kid 2).isPresent = false →
      visit recorder (Tree.slot kids 0) s = .ok s₁ → s₁.openArm = .ok s₂ →
      visit recorder (Tree.slot kids 1) s₂ = .ok s₃ → s₃.goTo s₁.fresh.1.graph.size = .ok s' →
      Visited recorder r n kids s s'
  | plain {s₁ s' : Lowering α} : n.kind.isStructured = false → visitAll recorder kids s = .ok s₁ →
      Placed recorder r n s₁ s' → Visited recorder r n kids s s'

theorem visited_of_visit (h : visit recorder (.node r n kids) s = .ok s') :
    Visited recorder r n kids s s' := by
  cases hkind : n.kind
  case block =>
    rw [visit, hkind] at h
    obtain ⟨s₁, h₁, h⟩ := bind_eq_ok.mp h
    exact .block hkind h₁ h
  case loop =>
    rw [visit, hkind] at h
    simp only [visitSlot_eq] at h
    obtain ⟨⟨s₁, exit⟩, h₁, h⟩ := bind_eq_ok.mp h
    obtain ⟨s₂, h₂, h⟩ := bind_eq_ok.mp h
    exact .loop hkind h₁ h₂ h
  case ifElse =>
    rw [visit, hkind] at h
    simp only [visitSlot_eq] at h
    obtain ⟨s₁, h₁, h⟩ := bind_eq_ok.mp h
    split at h
    · rename_i hpresent
      obtain ⟨s₂, h₂, h⟩ := bind_eq_ok.mp h
      obtain ⟨s₃, h₃, h⟩ := bind_eq_ok.mp h
      obtain ⟨s₄, h₄, h⟩ := bind_eq_ok.mp h
      obtain ⟨s₅, h₅, h⟩ := bind_eq_ok.mp h
      exact .ifElse hkind hpresent h₁ h₂ h₃ h₄ h₅ h
    · rename_i habsent
      obtain ⟨s₂, h₂, h⟩ := bind_eq_ok.mp h
      obtain ⟨s₃, h₃, h⟩ := bind_eq_ok.mp h
      exact .ifThen hkind (by simpa using habsent) h₁ h₂ h₃ h
  case br =>
    rw [visit, hkind] at h
    obtain ⟨s₁, h₁, h⟩ := bind_eq_ok.mp h
    obtain ⟨⟨s₂, target⟩, h₂, h⟩ := bind_eq_ok.mp h
    obtain ⟨s₃, h₃, h⟩ := bind_eq_ok.mp h
    obtain ⟨s₄, h₄, h⟩ := bind_eq_ok.mp h
    refine .plain (by rw [hkind]; rfl) h₁ ?_
    split at h
    · rename_i hcond
      exact .brIf hkind hcond h₂ h₃ h₄ h
    · rename_i hcond
      cases h
      exact .br hkind (by simpa using hcond) h₂ h₃ h₄
  case brTable =>
    rw [visit, hkind] at h
    obtain ⟨s₁, h₁, h⟩ := bind_eq_ok.mp h
    obtain ⟨⟨s₂, targets⟩, h₂, h⟩ := bind_eq_ok.mp h
    obtain ⟨s₃, h₃, h⟩ := bind_eq_ok.mp h
    obtain ⟨s₄, h₄, h⟩ := bind_eq_ok.mp h
    cases h
    exact .plain (by rw [hkind]; rfl) h₁ (.brTable hkind h₂ h₃ h₄)
  case ret | unreachable =>
    rw [visit, hkind] at h
    obtain ⟨s₁, h₁, h⟩ := bind_eq_ok.mp h
    obtain ⟨s₂, h₂, h⟩ := bind_eq_ok.mp h
    cases h
    exact .plain (by rw [hkind]; rfl) h₁ (.leaving (by simp [hkind]) h₂)
  all_goals
    rw [visit, hkind] at h
    obtain ⟨s₁, h₁, h⟩ := bind_eq_ok.mp h
    exact .plain (by rw [hkind]; rfl) h₁ (.going (by rw [hkind]; rfl) h)

end Stages

end Lowering

end LocalFlow
