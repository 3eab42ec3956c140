import LocalFlow.Function.Validation
import LocalFlow.Machine.Apply

/-! How applying a node can end: which nodes let evaluation go on and what they change, which jump and
to what labels, which trap and which fail. What a node does depends on its operands and on the few parts
of the machine that it looks at, so on machines that agree there it does the same. -/

namespace LocalFlow

namespace Operator

variable {op : Operator} {type : ValueType} {x y : UInt64} {f : Fault}

/-- Only a division by zero has no result. -/
theorem eq_divU_of_applyBinary (h : op.applyBinary type x y = .ok none) : op = .divU := by
  cases op with
  | divU => rfl
  | _ => cases h

def isUnary : Operator → Bool
  | .eqz | .neg | .wrap | .extendU => true
  | _ => false

def isBinary : Operator → Bool
  | .add | .sub | .mul | .xor | .and | .or | .divU | .eq => true
  | _ => false

theorem eq_unknownUnary (h : op.applyUnary type x = .error f) :
    op.isUnary = false ∧ f = .unknownUnary op := by
  cases op <;> cases h <;> exact ⟨rfl, rfl⟩

theorem eq_unknownBinary (h : op.applyBinary type x y = .error f) :
    op.isBinary = false ∧ f = .unknownBinary op := by
  cases op <;> cases h <;> exact ⟨rfl, rfl⟩

end Operator

/-- A change to a machine that does not depend on what the machine holds. -/
inductive Alteration where
  | nothing
  | setLocal (index : Nat) (x : UInt64)
  | globalSet (index : Nat) (x : UInt64)
  | store (address x : UInt64)
  | memoryGrow (x : UInt64)
  | call (target : String) (args : List UInt64)

namespace Alteration

def on : Alteration → Machine → Machine
  | .nothing, m => m
  | .setLocal index x, m => m.setLocal index x
  | .globalSet index x, m =>
    (m.write (Machine.globalAddress index) x).observe (.globalSet index x)
  | .store address x, m => (m.write address x).observe (.store address x)
  | .memoryGrow x, m => m.observe (.memoryGrow x)
  | .call target args, m => { m with calls := m.calls + 1 }.observe (.call target args)

end Alteration

/-- What a node does, told apart from the machine that it is done on. -/
inductive Response where
  | value (x : UInt64) (change : Alteration)
  | signal (s : Signal)
  | fault (f : Fault)

def Response.on : Response → Machine → Completion UInt64
  | .value x change, m => .value x (change.on m)
  | .signal s, m => .signal s m
  | .fault f, _ => .fault f

namespace Node

variable {n : Node} {args : List UInt64} {m m' m₁ : Machine} {x : UInt64} {change : Alteration}
  {response : Response} {f : Fault}

def MayGoOn (n : Node) : Prop :=
  match n.kind with
  | .br => n.isConditional = true
  | .brTable | .ret | .unreachable => False
  | _ => True

def MayBranch (n : Node) (label : String) : Prop :=
  match n.kind with
  | .br => label = n.label
  | .brTable => label ∈ n.labels ++ [n.label]
  | _ => False

/-- The failure of a node whose operator cannot be applied. -/
def Unimplemented (n : Node) (f : Fault) : Prop :=
  (n.kind = .unary ∧ n.op.isUnary = false ∧ f = .unknownUnary n.op) ∨
    (n.kind = .binary ∧ n.op.isBinary = false ∧ f = .unknownBinary n.op)

def Supplied (n : Node) (count : Nat) : Prop :=
  ∃ least most, n.kind.arity? = some (least, most) ∧ least ≤ count

theorem Supplied.le {count least : Nat} {most : Option Nat} (h : n.Supplied count)
    (harity : n.kind.arity? = some (least, most)) : least ≤ count := by
  obtain ⟨least', most', heq, hle⟩ := h
  rw [harity] at heq
  cases heq
  exact hle

def MayChange (n : Node) : Alteration → Prop
  | .nothing => True
  | .setLocal index _ => n.kind.isLocalWrite = true ∧ index = n.index
  | .globalSet index _ => n.kind = .globalSet ∧ index = n.index
  | .store .. => n.kind = .store
  | .memoryGrow _ => n.kind = .memoryGrow
  | .call target _ => n.kind = .call ∧ target = n.label

/-- Why applying the node to so many operands may fail on a machine with so many locals: it is no node
that is applied, an operand or its local is missing, or its operator cannot be applied. -/
def MayFail (n : Node) (count numLocals : Nat) (f : Fault) : Prop :=
  n.kind.isStructured = true ∨ ¬n.Supplied count ∨
    (n.kind.isLocalAccess = true ∧ numLocals ≤ n.index) ∨ n.Unimplemented f

/-- The responses that are possible for the node, with so many operands and locals. -/
inductive Permits (n : Node) (count numLocals : Nat) : Response → Prop
  | value (x : UInt64) {change : Alteration} : n.MayGoOn → n.MayChange change →
      Permits n count numLocals (.value x change)
  | branch (label : String) (x : UInt64) : n.MayBranch label →
      Permits n count numLocals (.signal (.branch label x))
  | ret (x : UInt64) : n.kind = .ret → Permits n count numLocals (.signal (.ret x))
  | trap : n.kind = .unreachable ∨ n.kind = .binary ∧ n.op = .divU →
      Permits n count numLocals (.signal .trap)
  | fault {f : Fault} : n.MayFail count numLocals f → Permits n count numLocals (.fault f)

theorem pickLabel_mem (n : Node) (x : UInt64) : n.pickLabel x ∈ n.labels ++ [n.label] := by
  unfold pickLabel
  rw [List.getD_eq_getElem?_getD]
  cases h : n.labels[(lowHalf x).toNat]? with
  | none => simp
  | some label => exact List.mem_append_left _ (List.mem_of_getElem? h)

theorem Permits.few {count numLocals least : Nat} {most : Option Nat}
    (harity : n.kind.arity? = some (least, most)) (hlt : count < least) :
    n.Permits count numLocals (.fault .outOfRange) :=
  .fault (.inr (.inl fun hsupplied => Nat.not_le.mpr hlt (hsupplied.le harity)))

/-- The node responds in the same way on both machines. -/
def RespondsAlike (n : Node) (args : List UInt64) (m m' : Machine) : Prop :=
  ∃ response, n.Permits args.length m.locals.size response ∧
    n.apply args m = response.on m ∧ n.apply args m' = response.on m'

theorem respondsAlike_unary (hn : n.kind = .unary) (args : List UInt64) (m m' : Machine) :
    n.RespondsAlike args m m' := by
  have harity : n.kind.arity? = some (1, some 1) := by rw [hn]; rfl
  unfold RespondsAlike apply
  rw [hn]
  rcases args with _ | ⟨x, args⟩
  · exact ⟨.fault _, .few harity Nat.zero_lt_one, rfl, rfl⟩
  · simp only
    cases hop : n.op.applyUnary n.type x with
    | ok v => exact ⟨.value v .nothing, .value _ (by simp only [MayGoOn, hn]) trivial, rfl, rfl⟩
    | error f =>
      have hunknown : n.Unimplemented f := .inl ⟨hn, Operator.eq_unknownUnary hop⟩
      exact ⟨.fault f, .fault (.inr (.inr (.inr hunknown))), rfl, rfl⟩

theorem respondsAlike_binary (hn : n.kind = .binary) (args : List UInt64) (m m' : Machine) :
    n.RespondsAlike args m m' := by
  have harity : n.kind.arity? = some (2, some 2) := by rw [hn]; rfl
  unfold RespondsAlike apply
  rw [hn]
  rcases args with _ | ⟨x, _ | ⟨y, args⟩⟩
  · exact ⟨.fault _, .few harity Nat.zero_lt_two, rfl, rfl⟩
  · exact ⟨.fault _, .few harity Nat.one_lt_two, rfl, rfl⟩
  · simp only
    cases hop : n.op.applyBinary n.type x y with
    | ok result =>
      cases result with
      | some v => exact ⟨.value v .nothing, .value _ (by simp only [MayGoOn, hn]) trivial, rfl, rfl⟩
      | none =>
        exact ⟨.signal .trap, .trap (.inr ⟨hn, Operator.eq_divU_of_applyBinary hop⟩), rfl, rfl⟩
    | error f =>
      have hunknown : n.Unimplemented f := .inr ⟨hn, Operator.eq_unknownBinary hop⟩
      exact ⟨.fault f, .fault (.inr (.inr (.inr hunknown))), rfl, rfl⟩

/-- On machines that agree in the memory, in the number of calls and, if the node accesses a local, in
that local, the node responds in the same way. -/
theorem apply_responds (n : Node) (args : List UInt64) (hmemory : m'.memory = m.memory)
    (hcalls : m'.calls = m.calls)
    (hlocal : n.kind.isLocalAccess = true → m'.locals[n.index]? = m.locals[n.index]?) :
    n.RespondsAlike args m m' := by
  have hmissing : ∀ {count least : Nat} {most : Option Nat}, n.kind.arity? = some (least, most) →
      count < least → n.Permits count m.locals.size (.fault .outOfRange) := .few
  cases hn : n.kind
  case unary => exact respondsAlike_unary hn args m m'
  case binary => exact respondsAlike_binary hn args m m'
  all_goals
    unfold RespondsAlike apply
    rw [hn] at hlocal hmissing ⊢
  case nop | drop | const | memorySize =>
    exact ⟨.value _ .nothing, .value _ (by simp only [MayGoOn, hn]) trivial, rfl, rfl⟩
  case globalGet =>
    rw [hmemory]
    exact ⟨.value _ .nothing, .value _ (by simp only [MayGoOn, hn]) trivial, rfl, rfl⟩
  case call =>
    exact ⟨.value (n.callValue m.calls args) (.call n.label args),
      .value _ (by simp only [MayGoOn, hn]) ⟨hn, rfl⟩, rfl, by rw [← hcalls]; rfl⟩
  case block | loop | ifElse => exact ⟨.fault _, .fault (.inl (by rw [hn]; rfl)), rfl, rfl⟩
  case unknown =>
    refine ⟨.fault _, .fault (.inr (.inl ?_)), rfl, rfl⟩
    rintro ⟨least, most, harity, -⟩
    rw [hn] at harity
    cases harity
  case unreachable => exact ⟨.signal .trap, .trap (.inl hn), rfl, rfl⟩
  case localGet =>
    rw [hlocal rfl]
    cases hx : m.locals[n.index]? with
    | some x => exact ⟨.value x .nothing, .value _ (by simp only [MayGoOn, hn]) trivial, rfl, rfl⟩
    | none =>
      have hout := Array.getElem?_eq_none_iff.mp hx
      exact ⟨.fault _, .fault (.inr (.inr (.inl ⟨by rw [hn]; rfl, hout⟩))), rfl, rfl⟩
  case localSet | localTee =>
    have hsize : n.index < m'.locals.size ↔ n.index < m.locals.size := by
      rw [← Nat.not_le, ← Nat.not_le, ← Array.getElem?_eq_none_iff, hlocal rfl,
        Array.getElem?_eq_none_iff]
    rcases args with _ | ⟨x, args⟩
    · exact ⟨.fault _, hmissing rfl Nat.zero_lt_one, rfl, rfl⟩
    · simp only [hsize]
      split
      · exact ⟨.value _ (.setLocal n.index x),
          .value _ (by simp only [MayGoOn, hn]) ⟨by rw [hn]; rfl, rfl⟩, rfl, rfl⟩
      · rename_i hout
        exact ⟨.fault _, .fault (.inr (.inr (.inl ⟨by rw [hn]; rfl, Nat.not_lt.mp hout⟩))), rfl, rfl⟩
  case globalSet =>
    rcases args with _ | ⟨x, args⟩
    · exact ⟨.fault _, hmissing rfl Nat.zero_lt_one, rfl, rfl⟩
    · exact ⟨.value _ (.globalSet n.index x), .value _ (by simp only [MayGoOn, hn]) ⟨hn, rfl⟩, rfl, rfl⟩
  case load =>
    rcases args with _ | ⟨x, args⟩
    · exact ⟨.fault _, hmissing rfl Nat.zero_lt_one, rfl, rfl⟩
    · simp only [hmemory]
      exact ⟨.value _ .nothing, .value _ (by simp only [MayGoOn, hn]) trivial, rfl, rfl⟩
  case memoryGrow =>
    rcases args with _ | ⟨x, args⟩
    · exact ⟨.fault _, hmissing rfl Nat.zero_lt_one, rfl, rfl⟩
    · exact ⟨.value _ (.memoryGrow x), .value _ (by simp only [MayGoOn, hn]) hn, rfl, rfl⟩
  case ret =>
    rcases args with _ | ⟨x, args⟩
    · exact ⟨.fault _, hmissing rfl Nat.zero_lt_one, rfl, rfl⟩
    · exact ⟨.signal (.ret x), .ret x hn, rfl, rfl⟩
  case store =>
    rcases args with _ | ⟨x, _ | ⟨y, args⟩⟩
    · exact ⟨.fault _, hmissing rfl Nat.zero_lt_two, rfl, rfl⟩
    · exact ⟨.fault _, hmissing rfl Nat.one_lt_two, rfl, rfl⟩
    · exact ⟨.value _ (.store x y), .value _ (by simp only [MayGoOn, hn]) hn, rfl, rfl⟩
  case select =>
    rcases args with _ | ⟨x, _ | ⟨y, _ | ⟨z, args⟩⟩⟩
    · exact ⟨.fault _, hmissing rfl (by simp), rfl, rfl⟩
    · exact ⟨.fault _, hmissing rfl (by simp), rfl, rfl⟩
    · exact ⟨.fault _, hmissing rfl (by simp), rfl, rfl⟩
    · exact ⟨.value _ .nothing, .value _ (by simp only [MayGoOn, hn]) trivial, rfl, rfl⟩
  case brTable =>
    rcases args with _ | ⟨x, _ | ⟨y, args⟩⟩
    · exact ⟨.fault _, hmissing rfl Nat.zero_lt_two, rfl, rfl⟩
    · exact ⟨.fault _, hmissing rfl Nat.one_lt_two, rfl, rfl⟩
    · have hlabel : n.MayBranch (n.pickLabel y) := by
        simpa only [MayBranch, hn] using n.pickLabel_mem y
      exact ⟨.signal (.branch _ x), .branch _ x hlabel, rfl, rfl⟩
  case br =>
    have hlabel : n.MayBranch n.label := by simp only [MayBranch, hn]
    rcases args with _ | ⟨x, _ | ⟨y, args⟩⟩
    · exact ⟨.fault _, hmissing rfl Nat.zero_lt_two, rfl, rfl⟩
    · exact ⟨.signal (.branch _ x), .branch _ x hlabel, rfl, rfl⟩
    · simp only
      split
      · exact ⟨.value x .nothing, .value _ (by simp_all [MayGoOn]) trivial, rfl, rfl⟩
      · exact ⟨.signal (.branch _ x), .branch _ x hlabel, rfl, rfl⟩

theorem apply_permits (n : Node) (args : List UInt64) (m : Machine) :
    ∃ response, n.Permits args.length m.locals.size response ∧ n.apply args m = response.on m := by
  have hself : n.kind.isLocalAccess = true → m.locals[n.index]? = m.locals[n.index]? := fun _ => rfl
  obtain ⟨response, hpermits, heq, -⟩ := n.apply_responds args rfl rfl hself
  exact ⟨response, hpermits, heq⟩

/-- What applying the node on `m` can change if evaluation goes on. -/
inductive Alters (n : Node) (m : Machine) : Machine → Prop
  | same : Alters n m m
  | setLocal (x : UInt64) : n.kind.isLocalWrite = true → Alters n m (m.setLocal n.index x)
  | globalSet (x : UInt64) : n.kind = .globalSet →
      Alters n m ((m.write (Machine.globalAddress n.index) x).observe (.globalSet n.index x))
  | store (x y : UInt64) : n.kind = .store → Alters n m ((m.write x y).observe (.store x y))
  | memoryGrow (x : UInt64) : n.kind = .memoryGrow → Alters n m (m.observe (.memoryGrow x))
  | call (args : List UInt64) : n.kind = .call →
      Alters n m ({ m with calls := m.calls + 1 }.observe (.call n.label args))

/-- No node is applied in the course of applying one. -/
theorem Alters.applied_eq (h : n.Alters m m₁) : m₁.applied = m.applied := by
  cases h <;> rfl

theorem MayChange.alters (h : n.MayChange change) (m : Machine) : n.Alters m (change.on m) := by
  cases change with
  | nothing => exact .same
  | setLocal index x =>
    obtain ⟨hkind, rfl⟩ := h
    exact .setLocal x hkind
  | globalSet index x =>
    obtain ⟨hkind, rfl⟩ := h
    exact .globalSet x hkind
  | store address x => exact .store address x h
  | memoryGrow x => exact .memoryGrow x h
  | call target args =>
    obtain ⟨hkind, rfl⟩ := h
    exact .call args hkind

/-- The ways in which applying the node on `m` can end. -/
inductive Ends (n : Node) (m : Machine) : Completion UInt64 → Prop
  | value (x : UInt64) {m₁ : Machine} : n.MayGoOn → n.Alters m m₁ → Ends n m (.value x m₁)
  | branch (label : String) (x : UInt64) : n.MayBranch label →
      Ends n m (.signal (.branch label x) m)
  | ret (x : UInt64) : n.kind = .ret → Ends n m (.signal (.ret x) m)
  | trap : n.kind = .unreachable ∨ n.kind = .binary ∧ n.op = .divU → Ends n m (.signal .trap m)
  | fault (f : Fault) : Ends n m (.fault f)

theorem apply_ends (n : Node) (args : List UInt64) (m : Machine) : n.Ends m (n.apply args m) := by
  obtain ⟨response, hpermits, heq⟩ := n.apply_permits args m
  rw [heq]
  cases hpermits with
  | value x hgo hchange => exact .value x hgo (hchange.alters m)
  | branch label x hlabel => exact .branch label x hlabel
  | ret x hkind => exact .ret x hkind
  | trap hkind => exact .trap hkind
  | fault => exact .fault _

theorem mayGoOn_of_value (h : n.apply args m = .value x m₁) : n.MayGoOn := by
  have hends := n.apply_ends args m
  rw [h] at hends
  cases hends with
  | value _ hn => exact hn

/-- A node with enough operands, whose local exists if it accesses one, fails only if its operator
cannot be applied. -/
theorem unimplemented_of_apply (hplain : n.kind.isStructured = false)
    (hsupplied : n.Supplied args.length)
    (hlocal : n.kind.isLocalAccess = true → n.index < m.locals.size)
    (h : n.apply args m = .fault f) : n.Unimplemented f := by
  obtain ⟨response, hpermits, heq⟩ := n.apply_permits args m
  rw [heq] at h
  cases hpermits with
  | fault hfail =>
    cases h
    rcases hfail with hstructured | hfew | ⟨haccess, hout⟩ | hunknown
    · rw [hplain] at hstructured
      cases hstructured
    · exact absurd hsupplied hfew
    · exact absurd (hlocal haccess) (Nat.not_lt.mpr hout)
    · exact hunknown
  | _ => cases h

end Node

end LocalFlow
