import Mathlib
import LocalFlow.Proofs.Machine.Safety

/-! Termination. Evaluation is given by rules that follow handles and start loops over without
counting, so that an evaluation exists only where following them comes to an end. A well-formed
function has exactly one, which is the one that the machine computes: handles lead down a finite tree,
and a loop that starts over has less fuel than before. -/

namespace LocalFlow

namespace Function

mutual

/-- Evaluation at a handle on the given machine comes to an end. -/
inductive Evaluates (fn : Function) : Ref → Machine → Completion UInt64 → Prop
  | absent {r : Ref} {m : Machine} : r.isPresent = false → Evaluates fn r m (.value 0 m)
  | dangling {r : Ref} {m : Machine} : r.isPresent = true → fn.node? r = none →
      Evaluates fn r m (.fault .outOfRange)
  | node {r : Ref} {n : Node} {m : Machine} {c : Completion UInt64} : fn.node? r = some n →
      EvaluatesNode fn r n m c → Evaluates fn r m c

/-- Evaluation of the node that a handle names comes to an end. -/
inductive EvaluatesNode (fn : Function) : Ref → Node → Machine → Completion UInt64 → Prop
  | block {r : Ref} {n : Node} {m : Machine} {c : Completion (List UInt64)} : n.kind = .block →
      EvaluatesAll fn n.kids m c →
      EvaluatesNode fn r n m ((c.bind fun vs m => .value (vs.getLastD 0) m).atBlock n.label)
  | loopEnds {r : Ref} {n : Node} {m : Machine} {c : Completion UInt64} : n.kind = .loop →
      Evaluates fn (n.kid 0) m c → (∀ x m₁, c ≠ .signal (.branch n.label x) m₁) →
      EvaluatesNode fn r n m c
  | loopRefused {r : Ref} {n : Node} {m m₁ : Machine} {x : UInt64} : n.kind = .loop →
      Evaluates fn (n.kid 0) m (.signal (.branch n.label x) m₁) → m₁.fuel = 0 →
      EvaluatesNode fn r n m (.signal .outOfFuel m₁)
  | loopAgain {r : Ref} {n : Node} {m m₁ : Machine} {x : UInt64} {fuel : Nat}
      {c : Completion UInt64} : n.kind = .loop →
      Evaluates fn (n.kid 0) m (.signal (.branch n.label x) m₁) → m₁.fuel = fuel + 1 →
      EvaluatesNode fn r n { m₁ with fuel } c → EvaluatesNode fn r n m c
  | condition {r : Ref} {n : Node} {m : Machine} {c : Completion UInt64} : n.kind = .ifElse →
      Evaluates fn (n.kid 0) m c → (∀ x m₁, c ≠ .value x m₁) → EvaluatesNode fn r n m c
  | arm {r : Ref} {n : Node} {m m₁ : Machine} {x : UInt64} {c : Completion UInt64} :
      n.kind = .ifElse → Evaluates fn (n.kid 0) m (.value x m₁) →
      Evaluates fn (n.kid (if lowHalf x = 0 then 2 else 1)) m₁ c → EvaluatesNode fn r n m c
  | plain {r : Ref} {n : Node} {m : Machine} {c : Completion (List UInt64)} :
      n.kind.isStructured = false → EvaluatesAll fn n.kids m c →
      EvaluatesNode fn r n m (c.bind fun args m => n.apply args (m.noteApplied r))

/-- Evaluation at handles in order comes to an end, at the latest with the first that has no value. -/
inductive EvaluatesAll (fn : Function) : List Ref → Machine → Completion (List UInt64) → Prop
  | nil {m : Machine} : EvaluatesAll fn [] m (.value [] m)
  | cons {r : Ref} {rs : List Ref} {m m₁ : Machine} {x : UInt64} {c : Completion (List UInt64)} :
      Evaluates fn r m (.value x m₁) → EvaluatesAll fn rs m₁ c →
      EvaluatesAll fn (r :: rs) m (c.bind fun xs m => .value (x :: xs) m)
  | signal {r : Ref} {rs : List Ref} {m m₁ : Machine} {s : Signal} :
      Evaluates fn r m (.signal s m₁) → EvaluatesAll fn (r :: rs) m (.signal s m₁)
  | fault {r : Ref} {rs : List Ref} {m : Machine} {f : Fault} :
      Evaluates fn r m (.fault f) → EvaluatesAll fn (r :: rs) m (.fault f)

end

end Function

def Conduct.thrift (bound : Nat) : Conduct where
  state m := m.fuel ≤ bound
  signal _ _ := True
  fault _ := True
  leave := fun _ => .inl trivial
  restart := by
    intro label labels x _
    refine ⟨trivial, ?_⟩
    intro m fuel hm hfuel
    show fuel ≤ bound
    omega

theorem Node.Alters.fuel_eq {n : Node} {m m₁ : Machine} (h : n.Alters m m₁) : m₁.fuel = m.fuel := by
  cases h <;> rfl

namespace Machine

variable {label : String} {body : Machine → Completion UInt64} {count fuel : Nat} {m m₁ : Machine}
  {x : UInt64}

theorem repeatLoop_of_ends (h : ∀ x m₁, body m ≠ .signal (.branch label x) m₁) :
    repeatLoop label body (count + 1) m = body m := by
  rw [repeatLoop]
  split
  · rename_i target x m₁ hbranch
    have htarget : target ≠ label := by
      rintro rfl
      exact h x m₁ hbranch
    rw [if_neg htarget, hbranch]
  · rfl

theorem repeatLoop_of_refused (h : body m = .signal (.branch label x) m₁) (hfuel : m₁.fuel = 0) :
    repeatLoop label body (count + 1) m = .signal .outOfFuel m₁ := by
  rw [repeatLoop, h]
  simp only [if_true, hfuel]

theorem repeatLoop_of_again (h : body m = .signal (.branch label x) m₁)
    (hfuel : m₁.fuel = fuel + 1) :
    repeatLoop label body (count + 1) m = repeatLoop label body count { m₁ with fuel } := by
  rw [repeatLoop, h]
  simp only [if_true, hfuel]

end Machine

namespace Tree

variable {fn : Function} {t : Tree} {kids : List (Unit → Tree)} {r : Ref} {rs : List Ref} {n : Node}
  {m m₁ : Machine} {c : Completion UInt64}

theorem obeys_thrift (t : Tree) (bound : Nat) (labels : List String) :
    t.Obeys (.thrift bound) labels := by
  induction t generalizing labels with
  | absent => trivial
  | dangling => trivial
  | endless => trivial
  | node r n kids ih =>
    refine ⟨?_, obeysAll_iff.mpr fun k hk => ih k hk _⟩
    intro _ args m _ hm
    have hends := n.apply_ends args (m.noteApplied r)
    cases hx : n.apply args (m.noteApplied r) with
    | value x m₁ =>
      rw [hx] at hends
      cases hends with
      | value _ _ halters => exact halters.fuel_eq.trans_le hm
    | signal s m₁ =>
      rw [hx] at hends
      cases hends <;> exact ⟨trivial, hm⟩
    | fault f => trivial

theorem fuel_le_of_signal {s : Signal} (h : t.eval m = .signal s m₁) : m₁.fuel ≤ m.fuel := by
  have hobeys := eval_obeys (obeys_thrift t m.fuel []) (Nat.le_refl m.fuel)
  rw [h] at hobeys
  exact hobeys.2

theorem evalItems_eq (kids : List (Unit → Tree)) (last : UInt64) (m : Machine) :
    evalItems kids last m = (evalAll kids m).bind fun xs m => .value (xs.getLastD last) m := by
  induction kids generalizing last m with
  | nil => rfl
  | cons k kids ih =>
    rw [evalItems, evalAll]
    cases (k ()).eval m with
    | value x m₁ =>
      simp only [Completion.bind, ih]
      cases evalAll kids m₁ with
      | value xs m₂ => simp only [List.getLastD_cons]
      | signal s m₂ => rfl
      | fault f => rfl
    | signal s m₁ => rfl
    | fault f => rfl

theorem AreAt.slot (h : AreAt fn kids n.kids) (i : Nat) : (slot kids i).IsAt fn (n.kid i) := by
  unfold Node.kid
  rw [List.getD_eq_getElem?_getD]
  cases hr : n.kids[i]? with
  | some r =>
    obtain ⟨k, hk, hat⟩ := h.exists_child hr
    rw [Tree.slot, hk]
    exact hat
  | none =>
    have hlen := h.length_eq
    have hnone : kids[i]? = none := by
      rw [List.getElem?_eq_none_iff] at hr ⊢
      omega
    rw [Tree.slot, hnone]
    rfl

/-- Wherever the tree stands, evaluation by the rules is evaluation of the tree. -/
def Ruled (fn : Function) (t : Tree) : Prop :=
  ∀ r m c, t.IsAt fn r → (fn.Evaluates r m c ↔ c = t.eval m)

theorem ruled_absent : Ruled fn .absent := by
  intro r m c hat
  have habsent : r.isPresent = false := hat
  constructor
  · intro h
    cases h with
    | absent => rfl
    | dangling hr =>
      rw [habsent] at hr
      cases hr
    | node hn =>
      rw [isPresent_of_node? hn] at habsent
      cases habsent
  · rintro rfl
    exact .absent habsent

theorem evaluates_node_iff (hn : fn.node? r = some n) :
    fn.Evaluates r m c ↔ fn.EvaluatesNode r n m c := by
  constructor
  · intro h
    cases h with
    | absent hr =>
      rw [isPresent_of_node? hn] at hr
      cases hr
    | dangling _ hnone =>
      rw [hn] at hnone
      cases hnone
    | node hn' h =>
      obtain rfl : n = _ := Option.some.inj (hn.symm.trans hn')
      exact h
  · exact .node hn

section Kids

variable (hruled : ∀ k ∈ kids, Ruled fn (k ()))
include hruled

theorem evaluatesAll_iff {c : Completion (List UInt64)} (hkids : AreAt fn kids rs) :
    fn.EvaluatesAll rs m c ↔ c = evalAll kids m := by
  induction kids generalizing rs m c with
  | nil =>
    cases rs with
    | cons r rs => exact hkids.elim
    | nil =>
      constructor
      · intro h
        cases h
        rfl
      · rintro rfl
        exact .nil
  | cons k kids ih =>
    cases rs with
    | nil => exact hkids.elim
    | cons r rs =>
      have hk : ∀ {m c}, fn.Evaluates r m c ↔ c = (k ()).eval m := hruled k (by simp) r _ _ hkids.1
      have hrest : ∀ {m c}, fn.EvaluatesAll rs m c ↔ c = evalAll kids m :=
        ih (fun k hk => hruled k (.tail _ hk)) hkids.2
      rw [evalAll]
      constructor
      · intro h
        cases h with
        | cons hr hrs => rw [← hk.mp hr, hrest.mp hrs, Completion.bind]
        | signal hr => rw [← hk.mp hr, Completion.bind]
        | fault hr => rw [← hk.mp hr, Completion.bind]
      · rintro rfl
        cases hx : (k ()).eval m with
        | value x m₁ => exact .cons (hk.mpr hx.symm) (hrest.mpr rfl)
        | signal s m₁ => exact .signal (hk.mpr hx.symm)
        | fault f => exact .fault (hk.mpr hx.symm)

variable (hkids : AreAt fn kids n.kids)
include hkids

theorem evaluates_kid_iff (i : Nat) : fn.Evaluates (n.kid i) m c ↔ c = evalSlot kids i m := by
  rw [evalSlot_eq]
  exact slot_of_kids (P := Ruled fn) hruled ruled_absent i _ _ _ (hkids.slot i)

theorem evaluatesNode_block_iff (hkind : n.kind = .block) :
    fn.EvaluatesNode r n m c ↔ c = (evalItems kids 0 m).atBlock n.label := by
  rw [evalItems_eq]
  constructor
  · intro h
    cases h with
    | block _ hall => rw [(evaluatesAll_iff hruled hkids).mp hall]
    | _ => simp_all [Kind.isStructured]
  · rintro rfl
    exact .block hkind ((evaluatesAll_iff hruled hkids).mpr rfl)

/-- A loop is not cut short by a count above its fuel: whatever its body does, there is no more fuel
afterwards, and starting over takes some. -/
theorem evaluatesNode_loop_iff {count : Nat} (hkind : n.kind = .loop) (hcount : m.fuel < count) :
    fn.EvaluatesNode r n m c ↔
      c = Machine.repeatLoop n.label (fun m => evalSlot kids 0 m) count m := by
  have hbody : ∀ {m c}, fn.Evaluates (n.kid 0) m c ↔ c = evalSlot kids 0 m :=
    evaluates_kid_iff hruled hkids 0
  induction count generalizing m c with
  | zero => omega
  | succ count ih =>
    have hless : ∀ {x m₁ fuel}, evalSlot kids 0 m = .signal (.branch n.label x) m₁ →
        m₁.fuel = fuel + 1 → ({ m₁ with fuel } : Machine).fuel < count := by
      intro x m₁ fuel hbranch hfuel
      rw [evalSlot_eq] at hbranch
      have hle := fuel_le_of_signal hbranch
      show fuel < count
      omega
    constructor
    · intro h
      cases h with
      | loopEnds _ hc hends =>
        obtain rfl := hbody.mp hc
        rw [Machine.repeatLoop_of_ends hends]
      | loopRefused _ hc hfuel => rw [Machine.repeatLoop_of_refused (hbody.mp hc).symm hfuel]
      | loopAgain _ hc hfuel hagain =>
        have hbranch := (hbody.mp hc).symm
        rw [Machine.repeatLoop_of_again hbranch hfuel]
        exact (ih (hless hbranch hfuel)).mp hagain
      | _ => simp_all [Kind.isStructured]
    · rintro rfl
      by_cases hends : ∀ x m₁, evalSlot kids 0 m ≠ .signal (.branch n.label x) m₁
      · rw [Machine.repeatLoop_of_ends hends]
        exact .loopEnds hkind (hbody.mpr rfl) hends
      · push Not at hends
        obtain ⟨x, m₁, hbranch⟩ := hends
        cases hfuel : m₁.fuel with
        | zero =>
          rw [Machine.repeatLoop_of_refused hbranch hfuel]
          exact .loopRefused hkind (hbody.mpr hbranch.symm) hfuel
        | succ fuel =>
          rw [Machine.repeatLoop_of_again hbranch hfuel]
          exact .loopAgain hkind (hbody.mpr hbranch.symm) hfuel ((ih (hless hbranch hfuel)).mpr rfl)

theorem evaluatesNode_ifElse_iff (hkind : n.kind = .ifElse) :
    fn.EvaluatesNode r n m c ↔ c = (evalSlot kids 0 m).bind fun cond m =>
      if lowHalf cond = 0 then evalSlot kids 2 m else evalSlot kids 1 m := by
  have hkid : ∀ {i m c}, fn.Evaluates (n.kid i) m c ↔ c = evalSlot kids i m :=
    fun {i} => evaluates_kid_iff hruled hkids i
  have harm : ∀ x m₁, evalSlot kids (if lowHalf x = 0 then 2 else 1) m₁ =
      if lowHalf x = 0 then evalSlot kids 2 m₁ else evalSlot kids 1 m₁ := by
    intro x m₁
    split <;> rfl
  constructor
  · intro h
    cases h with
    | condition _ hc hnone =>
      rw [← hkid.mp hc]
      cases c with
      | value x m₁ => exact absurd rfl (hnone x m₁)
      | signal s m₁ => rfl
      | fault f => rfl
    | arm _ hcond hc =>
      rw [← hkid.mp hcond, Completion.bind, ← harm]
      exact hkid.mp hc
    | _ => simp_all [Kind.isStructured]
  · rintro rfl
    cases hcond : evalSlot kids 0 m with
    | value x m₁ =>
      rw [Completion.bind, ← harm]
      exact .arm hkind (hkid.mpr hcond.symm) (hkid.mpr rfl)
    | signal s m₁ =>
      show fn.EvaluatesNode r n m (.signal s m₁)
      exact .condition hkind (hkid.mpr hcond.symm) (by simp)
    | fault f =>
      show fn.EvaluatesNode r n m (.fault f)
      exact .condition hkind (hkid.mpr hcond.symm) (by simp)

theorem evaluatesNode_plain_iff (hplain : n.kind.isStructured = false) :
    fn.EvaluatesNode r n m c ↔
      c = (evalAll kids m).bind fun args m => n.apply args (m.noteApplied r) := by
  constructor
  · intro h
    cases h with
    | plain _ hall => rw [(evaluatesAll_iff hruled hkids).mp hall]
    | _ => simp_all [Kind.isStructured]
  · rintro rfl
    exact .plain hplain ((evaluatesAll_iff hruled hkids).mpr rfl)

end Kids

/-- Where a tree stands, evaluation comes to an end in one way only. -/
theorem ruled (fn : Function) (t : Tree) : Ruled fn t := by
  induction t with
  | absent => exact ruled_absent
  | dangling => exact fun _ _ _ hat => hat.elim
  | endless => exact fun _ _ _ hat => hat.elim
  | node r n kids ih =>
    intro r' m c hat
    obtain ⟨rfl, hn, hkids⟩ := hat
    rw [evaluates_node_iff hn, eval]
    split
    · rename_i hkind
      exact evaluatesNode_block_iff ih hkids hkind
    · rename_i hkind
      exact evaluatesNode_loop_iff ih hkids hkind (Nat.lt_succ_self _)
    · rename_i hkind
      exact evaluatesNode_ifElse_iff ih hkids hkind
    · rename_i hblock hloop hif
      have hplain : n.kind.isStructured = false := by
        cases hkind : n.kind <;> first | rfl | contradiction
      exact evaluatesNode_plain_iff ih hkids hplain

end Tree

namespace Function

variable {α : Type} {fn : Function} {t : Tree} {recorder : Ref → Option α} {g : Graph α}

theorem WellFormed.evaluates_iff (h : fn.WellFormed t) (args : List UInt64) (fuel : Int64)
    (c : Completion UInt64) :
    fn.Evaluates fn.body (.start fn args fuel) c ↔ c = fn.execute args fuel := by
  rw [execute, h.tree_eq]
  exact Tree.ruled fn t _ _ c h.isAt

theorem WellFormed.strayLabels_of_lower (h : fn.WellFormed t)
    (hlower : fn.lower fn.body recorder = .ok g) : fn.strayLabels = [] := by
  have hfails := h.lower_failsAt recorder
  rw [hlower] at hfails
  exact hfails

/-- A function that is well formed and can be lowered runs safely on all arguments and any fuel.
Evaluation of its body comes to an end, with what the machine computes and nothing else, and the run
gives a trace unless it comes to an operator of the body that cannot be applied. -/
theorem run_safe_of_accepted (hvalid : fn.validate = .ok ())
    (hlower : fn.lower fn.body recorder = .ok g) (args : List UInt64) (fuel : Int64) :
    (∀ c, fn.Evaluates fn.body (.start fn args fuel) c ↔ c = fn.execute args fuel) ∧
      ((∃ trace, fn.run args fuel = .ok trace) ∨
        ∃ f, fn.run args fuel = .error f ∧ ∃ x ∈ (fn.tree fn.body).nodes, x.2.Unimplemented f) := by
  obtain ⟨t, ht⟩ := wellFormed_of_validate hvalid
  refine ⟨ht.evaluates_iff args fuel, ?_⟩
  rw [ht.tree_eq]
  exact ht.run_safe (ht.strayLabels_of_lower hlower) args fuel

/-- Counts the first parameter down in a loop that starts over from inside a block without a label, and
then shifts, which no machine can do, if the second parameter is set. -/
def countThenShift : Function where
  name := "count_then_shift"
  params := [.i32, .i32]
  body := 12
  nodes := #[
    { kind := .localGet, type := .i32, index := 0 },
    { kind := .const, type := .i32, value := .i32 1 },
    { kind := .binary, type := .i32, op := .sub, kids := [0, 1] },
    { kind := .localTee, type := .i32, index := 0, kids := [2] },
    { kind := .br, label := "again", kids := [.absent, 3] },
    { kind := .block, kids := [4] },
    { kind := .loop, label := "again", kids := [5] },
    { kind := .localGet, type := .i32, index := 1 },
    { kind := .localGet, type := .i32, index := 1 },
    { kind := .unary, type := .i32, op := .eqz, kids := [8] },
    { kind := .binary, type := .i32, op := .shl, kids := [9, 13] },
    { kind := .ifElse, kids := [7, 10] },
    { kind := .block, kids := [6, 11] },
    { kind := .const, type := .i32, value := .i32 1 }]

theorem run_safe_of_accepted_countThenShift :
    ∃ g, countThenShift.validate = .ok () ∧ countThenShift.nodeGraph = .ok g ∧
      countThenShift.run [3] 2 = .ok ⟨[], .finished⟩ ∧
      countThenShift.run [3, 1] 1 = .ok ⟨[], .outOfFuel⟩ ∧
      countThenShift.run [3, 1, 7] 2 = .error (.unknownBinary .shl) ∧
      ∀ args fuel,
        (∃ c, countThenShift.Evaluates 12 (.start countThenShift args fuel) c) ∧
        ((∃ trace, countThenShift.run args fuel = .ok trace) ∨
          ∃ f, countThenShift.run args fuel = .error f ∧
            ∃ x ∈ (countThenShift.tree 12).nodes, x.2.Unimplemented f) := by
  have hvalid : countThenShift.validate = .ok () := by cbv
  obtain ⟨g, hg⟩ : ∃ g, countThenShift.nodeGraph = .ok g := ⟨_, by cbv⟩
  refine ⟨g, hvalid, hg, by decide +kernel, by decide +kernel, by decide +kernel, ?_⟩
  intro args fuel
  obtain ⟨hends, hsafe⟩ := run_safe_of_accepted hvalid hg args fuel
  exact ⟨⟨_, (hends _).mpr rfl⟩, hsafe⟩

end Function

end LocalFlow
