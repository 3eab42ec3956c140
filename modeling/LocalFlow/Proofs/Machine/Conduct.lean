import LocalFlow.Machine.Eval
import LocalFlow.Proofs.Graph.Scoping

/-! Rules of conduct for evaluation. What every application of a node keeps to, and every restart of a
loop, the evaluation of a whole tree keeps to. -/

namespace LocalFlow

/-- Conditions on the machine at every step, on the signals that may come out at a place with the given
labels around it, innermost first, and on failures. A construct takes no signals but branches to its
label, and a loop that starts over on such a branch goes on with less fuel. -/
structure Conduct where
  state : Machine → Prop
  signal : List String → Signal → Prop
  fault : Fault → Prop
  leave : ∀ {label labels s}, signal (label :: labels) s →
    signal labels s ∨ ∃ x, s = .branch label x ∧ label ≠ ""
  restart : ∀ {label labels x}, signal (label :: labels) (.branch label x) →
    signal labels .outOfFuel ∧
      ∀ {m : Machine} {fuel : Nat}, state m → m.fuel = fuel + 1 → state { m with fuel }

variable {c : Conduct} {label : String} {labels : List String}

namespace Completion

variable {α β : Type}

/-- The evaluation ends as the rules allow at a place with the given labels around it. -/
def Obeys (c : Conduct) (labels : List String) : Completion α → Prop
  | .value _ m => c.state m
  | .signal s m => c.signal labels s ∧ c.state m
  | .fault f => c.fault f

theorem Obeys.bind {x : Completion α} {next : α → Machine → Completion β}
    (h : x.Obeys c labels)
    (hnext : ∀ a m, x = .value a m → c.state m → (next a m).Obeys c labels) :
    (x.bind next).Obeys c labels := by
  cases x with
  | value a m => exact hnext a m rfl h
  | signal s m => exact h
  | fault f => exact h

theorem Obeys.atBlock {x : Completion UInt64} (h : x.Obeys c (label :: labels)) :
    (x.atBlock label).Obeys c labels := by
  cases x with
  | value a m => exact h
  | fault f => exact h
  | signal s m =>
    have hleave := c.leave h.1
    unfold Completion.atBlock
    split
    · rename_i target v m' heq
      cases heq
      split
      · exact h.2
      · rename_i hother
        rcases hleave with hsignal | ⟨x, hbranch, hne⟩
        · exact ⟨hsignal, h.2⟩
        · cases hbranch
          simp [hne] at hother
    · rename_i hother
      rcases hleave with hsignal | ⟨x, rfl, -⟩
      · exact ⟨hsignal, h.2⟩
      · exact absurd rfl (hother label x m)

end Completion

/-- A loop keeps to the rules if its body does, however often it starts over. -/
theorem Machine.repeatLoop_obeys {body : Machine → Completion UInt64} {count : Nat} {m : Machine}
    (hbody : ∀ m, c.state m → (body m).Obeys c (label :: labels)) (hm : c.state m)
    (hcount : c.signal labels .outOfFuel ∨ 0 < count) :
    (repeatLoop label body count m).Obeys c labels := by
  -- Once the loop has started over, it may also run out of fuel.
  induction count generalizing m with
  | zero => exact ⟨hcount.resolve_right (Nat.lt_irrefl 0), hm⟩
  | succ count ih =>
    have h := hbody m hm
    rw [repeatLoop]
    cases hx : body m with
    | value v m₁ =>
      rw [hx] at h
      exact h
    | fault f =>
      rw [hx] at h
      exact h
    | signal s m₁ =>
      rw [hx] at h
      obtain ⟨hsignal, hm₁⟩ := h
      have hleave := c.leave hsignal
      cases s with
      | branch target v =>
        by_cases htarget : target = label
        · subst htarget
          obtain ⟨hout, hrestart⟩ := c.restart hsignal
          simp only [if_true]
          cases hfuel : m₁.fuel with
          | zero => exact ⟨hout, hm₁⟩
          | succ fuel => exact ih (hrestart hm₁ hfuel) (.inl hout)
        · simp only [if_neg htarget]
          rcases hleave with hsignal | ⟨x, hbranch, -⟩
          · exact ⟨hsignal, hm₁⟩
          · cases hbranch
            exact absurd rfl htarget
      | _ =>
        rcases hleave with hsignal | ⟨x, hbranch, -⟩
        · exact ⟨hsignal, hm₁⟩
        · cases hbranch

/-- Applied to so many values, the node at `r` keeps to the rules. -/
def Node.Obeys (c : Conduct) (labels : List String) (r : Ref) (n : Node) (count : Nat) : Prop :=
  ∀ args m, args.length = count → c.state m → (n.apply args (m.noteApplied r)).Obeys c labels

namespace Tree

variable {t : Tree} {kids : List (Unit → Tree)} {m : Machine}

mutual

/-- Every node of the tree keeps to the rules, at its place among the labels. -/
def Obeys (c : Conduct) (labels : List String) : Tree → Prop
  | .absent => True
  | .dangling _ | .endless _ => c.fault .outOfRange
  | .node r n kids =>
    (n.kind.isStructured = false → n.Obeys c labels r kids.length) ∧
      ObeysAll c (n.labelsInside labels) kids

def ObeysAll (c : Conduct) (labels : List String) : List (Unit → Tree) → Prop
  | [] => True
  | t :: ts => Obeys c labels (t ()) ∧ ObeysAll c labels ts

end

theorem obeysAll_iff : ObeysAll c labels kids ↔ ∀ k ∈ kids, (k ()).Obeys c labels := by
  induction kids with
  | nil => simp [ObeysAll]
  | cons k kids ih => simp [ObeysAll, ih]

theorem evalSlot_eq (kids : List (Unit → Tree)) (i : Nat) (m : Machine) :
    evalSlot kids i m = (slot kids i).eval m := by
  induction kids generalizing i with
  | nil => rfl
  | cons k kids ih =>
    cases i with
    | zero => rfl
    | succ i =>
      rw [evalSlot, ih]
      simp [slot]

theorem length_of_evalAll {args : List UInt64} {m' : Machine} (h : evalAll kids m = .value args m') :
    args.length = kids.length := by
  induction kids generalizing m args with
  | nil =>
    cases h
    rfl
  | cons k kids ih =>
    rw [evalAll] at h
    cases hk : (k ()).eval m with
    | value v m₁ =>
      rw [hk, Completion.bind] at h
      cases hkids : evalAll kids m₁ with
      | value vs m₂ =>
        rw [hkids] at h
        cases h
        rw [List.length_cons, List.length_cons, ih hkids]
      | signal s m₂ =>
        rw [hkids] at h
        cases h
      | fault f =>
        rw [hkids] at h
        cases h
    | signal s m₁ =>
      rw [hk] at h
      cases h
    | fault f =>
      rw [hk] at h
      cases h

section Kids

variable (h : ∀ k ∈ kids, ∀ m, c.state m → ((k ()).eval m).Obeys c labels)
include h

theorem evalAll_obeys (hm : c.state m) : (evalAll kids m).Obeys c labels := by
  induction kids generalizing m with
  | nil => exact hm
  | cons k kids ih =>
    rw [evalAll]
    refine (h k (by simp) m hm).bind fun v m₁ _ hm₁ => ?_
    exact (ih (fun k hk => h k (.tail _ hk)) hm₁).bind fun vs m₂ _ hm₂ => hm₂

theorem evalItems_obeys (last : UInt64) (hm : c.state m) :
    (evalItems kids last m).Obeys c labels := by
  induction kids generalizing last m with
  | nil => exact hm
  | cons k kids ih =>
    rw [evalItems]
    refine (h k (by simp) m hm).bind fun v m₁ _ hm₁ => ?_
    exact ih (fun k hk => h k (.tail _ hk)) v hm₁

theorem evalSlot_obeys (i : Nat) (hm : c.state m) : (evalSlot kids i m).Obeys c labels := by
  rw [evalSlot_eq]
  exact slot_of_kids (P := fun t => (t.eval m).Obeys c labels) (fun k hk => h k hk m hm) hm i

end Kids

/-- If every node keeps to the rules, so does the evaluation of the tree. -/
theorem eval_obeys (h : t.Obeys c labels) (hm : c.state m) : (t.eval m).Obeys c labels := by
  induction t generalizing labels m with
  | absent => exact hm
  | dangling => exact h
  | endless => exact h
  | node r n kids ih =>
    obtain ⟨hself, hkids⟩ := h
    rw [obeysAll_iff] at hkids
    have hkids : ∀ k ∈ kids, ∀ m, c.state m →
        ((k ()).eval m).Obeys c (n.labelsInside labels) :=
      fun k hk m hm => ih k hk (hkids k hk) hm
    rw [eval]
    unfold Node.labelsInside at hkids
    split
    · rename_i hkind
      simp only [hkind] at hkids
      exact (evalItems_obeys hkids 0 hm).atBlock
    · rename_i hkind
      simp only [hkind] at hkids
      apply Machine.repeatLoop_obeys
      · exact fun m hm => evalSlot_obeys hkids 0 hm
      · exact hm
      · exact .inr (Nat.succ_pos _)
    · rename_i hkind
      simp only [hkind] at hkids
      refine (evalSlot_obeys hkids 0 hm).bind fun cond m₁ _ hm₁ => ?_
      split
      · exact evalSlot_obeys hkids 2 hm₁
      · exact evalSlot_obeys hkids 1 hm₁
    · rename_i hblock hloop hif
      have hplain : n.kind.isStructured = false := by
        cases hkind : n.kind <;> first | rfl | contradiction
      have hinside : ∀ k ∈ kids, ∀ m, c.state m → ((k ()).eval m).Obeys c labels := by
        split at hkids
        · contradiction
        · contradiction
        · exact hkids
      refine (evalAll_obeys hinside hm).bind fun args m₁ hargs hm₁ => ?_
      exact hself hplain args m₁ (length_of_evalAll hargs) hm₁

end Tree

end LocalFlow
