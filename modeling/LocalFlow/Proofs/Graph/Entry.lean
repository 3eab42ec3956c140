import LocalFlow.Proofs.Graph.Lowering

/-! Lowering never leads back to the entry. Every edge goes to a block that was made for it, and the
entry was there before all of them. -/

namespace LocalFlow

open LocalFlow.Graph

namespace Lowering

variable {α : Type} {recorder : Ref → Option α} {s s' : Lowering α} {b : Nat} {r : Ref} {n : Node}
  {kids : List (Unit → Tree)}

/-- No edge leads to the first block, and no branch to an enclosing construct goes there. -/
structure EntryFree (s : Lowering α) : Prop where
  size_pos : 0 < s.graph.size
  target_ne : ∀ scope ∈ s.scopes, scope.target? ≠ some 0
  not_mem_succ : ∀ a, 0 ∉ s.graph.succ a

namespace EntryFree

theorem fresh (h : s.EntryFree) : s.fresh.1.EntryFree := by
  refine ⟨?_, h.target_ne, fun a => ?_⟩
  · simp [Lowering.fresh]
  · simpa [Lowering.fresh] using h.not_mem_succ a

theorem fresh_ne (h : s.EntryFree) : s.fresh.2 ≠ 0 := Nat.ne_of_gt h.size_pos

theorem moveTo (h : s.EntryFree) (b : Nat) : (s.moveTo b).EntryFree :=
  ⟨h.size_pos, h.target_ne, h.not_mem_succ⟩

theorem linkTo (h : s.EntryFree) (hb : b ≠ 0) (hlink : s.linkTo b = .ok s') : s'.EntryFree := by
  obtain ⟨hcurrent, -, rfl⟩ := linkTo_eq_ok.mp hlink
  refine ⟨?_, h.target_ne, fun a ha => ?_⟩
  · simpa using h.size_pos
  · rcases (mem_succ_link hcurrent).mp ha with ha | ha
    · exact h.not_mem_succ a ha
    · exact hb ha.2.symm

theorem goTo (h : s.EntryFree) (hb : b ≠ 0) (hgo : s.goTo b = .ok s') : s'.EntryFree := by
  obtain ⟨s₁, hlink, rfl⟩ := goTo_eq_ok.mp hgo
  exact (h.linkTo hb hlink).moveTo b

theorem fork {c : Nat} (h : s.EntryFree) (hb : b ≠ 0) (hc : c ≠ 0) (hfork : s.fork b c = .ok s') :
    s'.EntryFree := by
  obtain ⟨s₁, hfirst, s₂, hsecond, rfl⟩ := fork_eq_ok.mp hfork
  exact ((h.linkTo hb hfirst).linkTo hc hsecond).moveTo b

theorem linkAll {targets : List Nat} (h : s.EntryFree) (htargets : ∀ b ∈ targets, b ≠ 0)
    (hlinks : targets.foldlM Lowering.linkTo s = .ok s') : s'.EntryFree :=
  foldlM_keeps (P := EntryFree) (fun b hb _ _ hlink h => h.linkTo (htargets b hb) hlink) hlinks h

theorem moveOn (h : s.EntryFree) : s.moveOn.EntryFree := h.fresh.moveTo _

theorem fallOn (h : s.EntryFree) (hfall : s.fallOn = .ok s') : s'.EntryFree :=
  h.fresh.goTo h.fresh_ne hfall

theorem record (h : s.EntryFree) (hrecord : s.record recorder r = .ok s') : s'.EntryFree := by
  rcases record_cases hrecord with ⟨-, rfl⟩ | ⟨item, -, -, rfl⟩
  · exact h
  · refine ⟨?_, h.target_ne, fun a => ?_⟩
    · simpa using h.size_pos
    · simpa using h.not_mem_succ a

theorem setTarget (h : s.EntryFree) (r : Ref) (target : Target) :
    { s with graph := s.graph.setTarget r target }.EntryFree :=
  ⟨h.size_pos, h.target_ne, h.not_mem_succ⟩

theorem enter (h : s.EntryFree) {scope : Scope} (htarget : scope.target? ≠ some 0) :
    (s.enter scope).EntryFree := by
  refine ⟨h.size_pos, fun scope' hscope => ?_, h.not_mem_succ⟩
  rcases List.mem_cons.mp hscope with rfl | hscope
  · exact htarget
  · exact h.target_ne scope' hscope

theorem leave {scope : Scope} {scopes : List Scope} (h : s.EntryFree)
    (hscopes : s.scopes = scope :: scopes) : { s with scopes }.EntryFree :=
  ⟨h.size_pos, fun scope hscope => h.target_ne scope (hscopes ▸ .tail _ hscope), h.not_mem_succ⟩

theorem leaveBlock (h : s.EntryFree) (hleave : s.leaveBlock r = .ok s') : s'.EntryFree := by
  obtain ⟨scope, scopes, out, hscopes, ⟨-, rfl⟩ | ⟨exit, hexit, hgo⟩, rfl⟩ := leaveBlock_cases hleave
  · exact (h.leave hscopes).setTarget r _
  · have hne : exit ≠ 0 := by
      rintro rfl
      exact h.target_ne scope (by simp [hscopes]) (Scope.target?_of_exit? hexit)
    exact ((h.leave hscopes).goTo hne hgo).setTarget r _

theorem enterLoop {label : String} (h : s.EntryFree) (henter : s.enterLoop r label = .ok (s', b)) :
    s'.EntryFree ∧ b ≠ 0 := by
  obtain ⟨rfl, s₁, hgo, rfl⟩ := enterLoop_eq_ok henter
  have hhead : (.loop label s.graph.size : Scope).target? ≠ some 0 := fun heq =>
    h.fresh_ne (Option.some.inj heq)
  exact ⟨((h.fresh.fresh.goTo h.fresh_ne hgo).setTarget r _).enter hhead, h.fresh.fresh_ne⟩

theorem leaveLoop (h : s.EntryFree) (hb : b ≠ 0) (hleave : s.leaveLoop b = .ok s') :
    s'.EntryFree := by
  obtain ⟨scope, scopes, hscopes, hgo⟩ := leaveLoop_eq_ok.mp hleave
  exact (h.leave hscopes).goTo hb hgo

theorem resolve (h : s.EntryFree) {label : String} (hb : s.resolve label = .ok (s', b)) :
    s'.EntryFree ∧ b ≠ 0 := by
  obtain ⟨-, hfills, -, ⟨⟨scope, hscope, htarget⟩, rfl⟩ | ⟨rfl, scopes, rfl, hperm⟩⟩ :=
    resolve_cases hb
  · have hne : b ≠ 0 := by
      rintro rfl
      exact h.target_ne scope hscope htarget
    refine ⟨?_, hne⟩
    split
    · exact h
    · exact h.fresh
  · refine ⟨⟨h.fresh.size_pos, fun scope hscope htarget => ?_, h.fresh.not_mem_succ⟩, h.fresh_ne⟩
    -- a target that is new is the block just made, which is not the first
    rcases hfills.target_cases hscope htarget with ⟨old, hold, htarget⟩ | hwaiting
    · exact h.target_ne old hold htarget
    · rcases List.mem_cons.mp (hperm.mem_iff.mp hwaiting) with hnew | hwaiting
      · exact h.fresh_ne hnew.symm
      · obtain ⟨old, hold, hexit⟩ := List.mem_filterMap.mp hwaiting
        exact h.target_ne old hold (Scope.target?_of_exit? hexit)

theorem resolveAll {names : List String} {targets : List Nat} (h : s.EntryFree)
    (hb : s.resolveAll names = .ok (s', targets)) : s'.EntryFree ∧ ∀ b ∈ targets, b ≠ 0 := by
  induction names generalizing s targets with
  | nil =>
    cases hb
    exact ⟨h, by simp⟩
  | cons name names ih =>
    obtain ⟨⟨s₁, b⟩, hfirst, hb⟩ := bind_eq_ok.mp hb
    obtain ⟨⟨s₂, bs⟩, hrest, hb⟩ := bind_eq_ok.mp hb
    cases hb
    obtain ⟨h₁, hne⟩ := h.resolve hfirst
    obtain ⟨h₂, hall⟩ := ih h₁ hrest
    exact ⟨h₂, List.forall_mem_cons.mpr ⟨hne, hall⟩⟩

theorem openArms (h : s.EntryFree) (hopen : s.openArms = .ok s') : s'.EntryFree :=
  h.fresh.fresh.fresh.fork h.fresh_ne h.fresh.fresh_ne hopen

theorem openArm (h : s.EntryFree) (hopen : s.openArm = .ok s') : s'.EntryFree :=
  h.fresh.fresh.fork h.fresh_ne h.fresh.fresh_ne hopen

theorem placed (h : s.EntryFree) (hplaced : Placed recorder r n s s') : s'.EntryFree := by
  cases hplaced with
  | br _ _ hb hrecord hlink =>
    obtain ⟨h₁, htarget⟩ := h.resolve hb
    exact ((h₁.record hrecord).linkTo htarget hlink).moveOn
  | brIf _ _ hb hrecord hlink hfall =>
    obtain ⟨h₁, htarget⟩ := h.resolve hb
    exact ((h₁.record hrecord).linkTo htarget hlink).fallOn hfall
  | brTable _ hb hrecord hlinks =>
    obtain ⟨h₁, htargets⟩ := h.resolveAll hb
    exact ((h₁.record hrecord).linkAll htargets hlinks).moveOn
  | leaving _ hrecord => exact (h.record hrecord).moveOn
  | going _ hrecord => exact h.record hrecord

end EntryFree

def Onward (recorder : Ref → Option α) (t : Tree) : Prop :=
  ∀ {s s'}, s.EntryFree → visit recorder t s = .ok s' → s'.EntryFree

theorem onward_slot (hkids : ∀ k ∈ kids, Onward recorder (k ())) (i : Nat) :
    Onward recorder (Tree.slot kids i) := by
  apply Tree.slot_of_kids hkids
  intro s s' hs h
  cases h
  exact hs

theorem visitAll_entryFree (hkids : ∀ k ∈ kids, Onward recorder (k ())) (hs : s.EntryFree)
    (h : visitAll recorder kids s = .ok s') : s'.EntryFree := by
  induction kids generalizing s with
  | nil =>
    cases h
    exact hs
  | cons k kids ih =>
    obtain ⟨s₁, hk, h⟩ := bind_eq_ok.mp h
    exact ih (fun k hk => hkids k (.tail _ hk)) (hkids k (by simp) hs hk) h

theorem onward (recorder : Ref → Option α) (t : Tree) : Onward recorder t := by
  induction t with
  | absent =>
    intro s s' hs h
    cases h
    exact hs
  | dangling => exact fun _ h => by cases h
  | endless => exact fun _ h => by cases h
  | node r n kids ih =>
    intro s s' hs h
    cases visited_of_visit h with
    | block _ hall hleave =>
      have hopen : (.block n.label none : Scope).target? ≠ some 0 := by simp [Scope.target?]
      exact (visitAll_entryFree ih (hs.enter hopen) hall).leaveBlock hleave
    | loop _ henter hbody hleave =>
      obtain ⟨hin, hexit⟩ := hs.enterLoop henter
      exact (onward_slot ih 0 hin hbody).leaveLoop hexit hleave
    | ifElse _ _ hcond hopen hthen hlink helse hgo =>
      have h₁ := onward_slot ih 0 hs hcond
      have hjoin := h₁.fresh.fresh.fresh_ne
      have h₂ := onward_slot ih 1 (h₁.openArms hopen) hthen
      have h₃ := onward_slot ih 2 ((h₂.linkTo hjoin hlink).moveTo _) helse
      exact h₃.goTo hjoin hgo
    | ifThen _ _ hcond hopen hthen hgo =>
      have h₁ := onward_slot ih 0 hs hcond
      exact (onward_slot ih 1 (h₁.openArm hopen) hthen).goTo h₁.fresh.fresh_ne hgo
    | plain _ hall hplaced => exact (visitAll_entryFree ih hs hall).placed hplaced

theorem entryFree_start : (start : Lowering α).EntryFree := by
  refine ⟨by simp [start, size], by simp [start], fun a => ?_⟩
  rcases a with _ | a <;> simp [start, succ]

end Lowering

/-- Nothing leads to the entry of a graph that was made from a tree. -/
theorem Function.lower_not_mem_succ {α : Type} {fn : Function} {root : Ref}
    {recorder : Ref → Option α} {g : Graph α} (h : fn.lower root recorder = .ok g) (a : Nat) :
    0 ∉ g.succ a := by
  obtain ⟨s, hs, h⟩ := bind_eq_ok.mp h
  cases h
  exact (Lowering.onward recorder _ Lowering.entryFree_start hs).not_mem_succ a

end LocalFlow
