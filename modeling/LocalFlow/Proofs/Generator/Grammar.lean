import LocalFlow.Proofs.Generator.Steps

/-! What the generator makes. Every rule of its grammar leaves one tree of new nodes: an expression of
the type that was asked for, or a statement that branches to enclosing labels only. -/

namespace LocalFlow

structure Function.Declares (fn : Function) : Prop where
  pos : 0 < fn.numLocals
  integer : ∀ v < fn.numLocals, fn.localType v = .i32 ∨ fn.localType v = .i64

theorem Function.Declares.extend {fn fn' : Function} (h : fn.Declares) (hext : fn.Extends fn') :
    fn'.Declares := by
  refine ⟨hext.numLocals_eq ▸ h.pos, fun v hv => ?_⟩
  rw [hext.localType_eq]
  exact h.integer v (hext.numLocals_eq ▸ hv)

namespace Gen

open LocalFlow.Function LocalFlow.Node

variable {fn : Function} {names : List String} {type : ValueType}

section Expressions

variable (names)

theorem constant_builds (htype : type = .i32 ∨ type = .i64) :
    (constant type).Builds fn (Grows fn.nodes.size names type) := by
  refine (number_draws "const" (-3) (by decide)).bind fun value _ => ?_
  refine emit_builds rfl ?_ (.nil fn names) (.operation rfl rfl (by simp))
  rcases htype with rfl | rfl
  · rfl
  · rfl

theorem read_builds {v : Nat} (hv : v < fn.numLocals) :
    (emit (.localGet v)).Builds fn (Grows fn.nodes.size names (fn.localType v)) :=
  emit_builds rfl rfl (.nil fn names) (.read rfl rfl hv)

theorem readOrConstant_builds (htype : type = .i32 ∨ type = .i64) :
    (readOrConstant type).Builds fn (Grows fn.nodes.size names type) := by
  refine (localOf_draws type).bind fun found hfound => ?_
  cases found with
  | none => exact constant_builds names htype
  | some v =>
    obtain ⟨hv, rfl⟩ := hfound v rfl
    exact read_builds names hv

theorem condition_builds {otherwise : Gen Ref}
    (h : otherwise.Builds fn (Grows fn.nodes.size names .i32)) :
    (condition otherwise).Builds fn (Grows fn.nodes.size names .i32) := by
  refine (localOf_draws .i32).bind fun found hfound => ?_
  cases found with
  | none => exact h
  | some v =>
    refine (flip_draws "cond-local").bind fun useLocal _ => ?_
    cases useLocal with
    | false => exact h
    | true =>
      obtain ⟨hv, htype⟩ := hfound v rfl
      exact htype ▸ read_builds names hv

theorem expr_builds (room : Nat) (hfn : fn.Declares) (htype : type = .i32 ∨ type = .i64) :
    (expr room type).Builds fn (Grows fn.nodes.size names type) := by
  induction room generalizing fn type with
  | zero =>
    refine (below_draws "expr" (by decide)).bind fun choice _ => ?_
    split
    · exact constant_builds names htype
    · exact readOrConstant_builds names htype
  | succ room ih =>
    refine (below_draws "expr" (by decide)).bind fun choice _ => ?_
    split
    · exact constant_builds names htype
    · exact readOrConstant_builds names htype
    · -- a binary operation
      refine (oneOf_draws "op" Operator.name .add _).bind fun op hop => ?_
      refine (ih hfn htype).bind fun x fn₁ hext₁ hx => ?_
      refine (ih (hfn.extend hext₁) htype).bind fun y fn₂ hext₂ hy => ?_
      have hkids := hx.1.append hext₂ hy.1
      have hbinary : op.isBinary = true := by
        simp only [List.mem_cons, List.not_mem_nil, or_false] at hop
        rcases hop with rfl | rfl | rfl | rfl <;> rfl
      refine emit_builds rfl rfl hkids (.binary rfl hbinary rfl (filled_of_ne_absent ?_))
      simp [hx.2.ne_absent, hy.2.ne_absent]
    · -- a tee, if there is a local for it
      refine (localOf_draws type).bind fun found hfound => ?_
      cases found with
      | none => exact constant_builds names htype
      | some v =>
        obtain ⟨hv, rfl⟩ := hfound v rfl
        refine (ih hfn htype).bind fun x fn₁ hext₁ hx => ?_
        have hlocal := hext₁.localType_eq v
        refine emit_builds rfl hlocal hx.1 (.write rfl rfl ?_ ?_)
        · exact hext₁.numLocals_eq ▸ hv
        · exact hlocal ▸ hx.2
    · -- a call
      refine (ih hfn (.inl rfl)).bind fun x fn₁ hext₁ hx => ?_
      exact emit_builds rfl rfl hx.1 (.operation rfl rfl (by simp [hx.2.ne_absent]))
    · -- a load from a constant address
      refine (below_draws "ptr" (by decide)).bind fun address _ => ?_
      refine Builds.bind (emit_builds rfl rfl (.nil fn names)
        (.operation rfl rfl (by simp))) fun x fn₁ hext₁ hx => ?_
      exact emit_builds rfl rfl hx.1 (.operation rfl rfl (by simp [hx.2.ne_absent]))
    · -- a select
      refine (ih hfn htype).bind fun x fn₁ hext₁ hx => ?_
      refine (ih (hfn.extend hext₁) htype).bind fun y fn₂ hext₂ hy => ?_
      have hfn₂ := (hfn.extend hext₁).extend hext₂
      refine (condition_builds names (ih hfn₂ (.inl rfl))).bind fun c fn₃ hext₃ hc => ?_
      have hkids := (hx.1.append hext₂ hy.1).append hext₃ hc.1
      have hx₃ := (hx.2.extend hext₂).extend hext₃
      have hnode : fn₃.nodeOf (.select x y c) = .ok { kind := .select, type, kids := [x, y, c] } := by
        rw [nodeOf, hx₃.typeOf_eq]
        rfl
      refine emit_builds hnode rfl hkids (.operation rfl rfl ?_)
      simp [hx₃.ne_absent, hy.2.ne_absent, hc.2.ne_absent]

theorem test_builds (room : Nat) (hfn : fn.Declares) :
    (condition (expr room .i32)).Builds fn (Grows fn.nodes.size names .i32) :=
  condition_builds names (expr_builds names room hfn (.inl rfl))

end Expressions

section Statements

/-- A node was made, the root of what has grown since position `lo`. -/
def Made (lo : Nat) (names : List String) (r : Ref) (fn : Function) : Prop :=
  ∃ type, Grows lo names type r fn

theorem Builds.made {x : Gen Ref} {lo : Nat} (h : x.Builds fn (Grows lo names type)) :
    x.Builds fn (Made lo names) :=
  h.imp fun _ _ _ hr => ⟨type, hr⟩

/-- Trees were made one after another, all of what has grown since position `lo`. -/
def MadeAll (lo : Nat) (names : List String) (rs : List Ref) (fn : Function) : Prop :=
  fn.Forest lo names rs ∧ ∀ r ∈ rs, ∃ type, fn.HasType r type

theorem MadeAll.append {fn' : Function} {lo : Nat} {rs rs' : List Ref} (h : MadeAll lo names rs fn)
    (hext : fn.Extends fn') (h' : MadeAll fn.nodes.size names rs' fn') :
    MadeAll lo names (rs ++ rs') fn' := by
  refine ⟨h.1.append hext h'.1, List.forall_mem_append.mpr ⟨fun r hr => ?_, h'.2⟩⟩
  obtain ⟨type, htype⟩ := h.2 r hr
  exact ⟨type, htype.extend hext⟩

theorem Made.all {lo : Nat} {r : Ref} (h : Made lo names r fn) : MadeAll lo names [r] fn := by
  obtain ⟨type, hforest, htype⟩ := h
  exact ⟨hforest, by simpa using ⟨type, htype⟩⟩

theorem mapM_builds {α : Type} {statement : Gen Ref} (xs : List α) (hfn : fn.Declares)
    (h : ∀ {fn : Function}, fn.Declares → statement.Builds fn (Made fn.nodes.size names)) :
    (xs.mapM fun _ => statement).Builds fn (MadeAll fn.nodes.size names) := by
  induction xs generalizing fn with
  | nil => exact .pure ⟨.nil fn names, by simp⟩
  | cons x xs ih =>
    rw [List.mapM_cons]
    refine (h hfn).bind fun r fn₁ hext₁ hr => ?_
    refine (ih (hfn.extend hext₁)).bind fun rs fn₂ hext₂ hrs => .pure ?_
    exact hr.all.append hext₂ hrs

theorem statements_builds {statement : Gen Ref} (hfn : fn.Declares)
    (h : ∀ {fn : Function}, fn.Declares → statement.Builds fn (Made fn.nodes.size names)) :
    (statements statement).Builds fn (MadeAll fn.nodes.size names) :=
  (number_draws "stmts" 1 (by decide)).bind fun _ _ => mapM_builds _ hfn h

theorem emit_block_builds {label : String} {items : List Ref} {lo : Nat}
    (h : MadeAll lo (label :: names) items fn) :
    (emit (.block label items)).Builds fn (Made lo names) := by
  obtain ⟨type, htype⟩ : ∃ type, fn.typeOf (items.getLast?.getD .absent) = .ok type := by
    cases hlast : items.getLast? with
    | none => exact ⟨.none, rfl⟩
    | some r =>
      obtain ⟨type, htype⟩ := h.2 r (List.mem_of_getLast? hlast)
      exact ⟨type, htype.typeOf_eq⟩
  have hnode : fn.nodeOf (.block label items) =
      .ok { kind := .block, type := fallType type, label, kids := items } := by
    rw [nodeOf, htype]
    rfl
  refine (emit_builds hnode rfl h.1 (.operation rfl ?_ fun r hr => ?_)).made
  · simp [hasArity, Kind.arity?]
  · obtain ⟨type, htype⟩ := h.2 r hr
    exact htype.ne_absent

theorem block_builds {label : String} {statement : Gen Ref} (hfn : fn.Declares)
    (h : ∀ {fn : Function}, fn.Declares →
      statement.Builds fn (Made fn.nodes.size (label :: names))) :
    (block label statement).Builds fn (Made fn.nodes.size names) :=
  (statements_builds hfn h).bind fun _ _ _ hitems => emit_block_builds hitems

theorem observation_builds (room : Nat) (hfn : fn.Declares) :
    (observation room).Builds fn (Made fn.nodes.size names) := by
  refine (anyLocal_draws hfn.pos).bind fun v hv => ?_
  refine (read_builds names hv).bind fun value fn₁ hext₁ hvalue => ?_
  refine (below_draws "observe" (by decide)).bind fun choice _ => ?_
  split
  · refine (localType_draws v).bind fun type _ => Builds.made (emit_builds rfl rfl hvalue.1 ?_)
    exact .operation rfl rfl (by simp [hvalue.2.ne_absent])
  · refine Builds.bind (emit_builds rfl rfl (.nil fn₁ names)
      (.operation rfl rfl (by simp))) fun address fn₂ hext₂ haddress => ?_
    -- the address is made after the value and comes before it
    have hkids := (hvalue.1.append hext₂ haddress.1).perm (.swap address value [])
    refine (emit_builds rfl rfl hkids (.operation rfl rfl ?_)).made
    simp [hvalue.2.ne_absent, haddress.2.ne_absent]
  · refine (expr_builds names room (hfn.extend hext₁) (.inl rfl)).bind fun x fn₂ hext₂ hx => ?_
    have hkids := hvalue.1.append hext₂ hx.1
    refine (emit_builds rfl rfl hkids (.operation rfl rfl ?_)).made
    simp [hvalue.2.ne_absent, hx.2.ne_absent]

variable {labels : List Generator.Label}

/-- Every label that the generator may branch to is around the place. -/
def Around (labels : List Generator.Label) (names : List String) : Prop :=
  ∀ label ∈ labels, label.name ∈ names ∧ label.name ≠ ""

theorem Around.inside (h : Around labels names) (name : String) : Around labels (name :: names) :=
  fun label hlabel => ⟨.tail _ (h label hlabel).1, (h label hlabel).2⟩

theorem Around.snoc {name : String} (h : Around labels names) (hname : name ≠ "") (isLoop : Bool) :
    Around (labels ++ [⟨name, isLoop⟩]) (name :: names) := by
  refine List.forall_mem_append.mpr ⟨h.inside name, ?_⟩
  simpa using hname

theorem emit_brIf_builds {lo : Nat} {name : String} {c : Ref} (hname : name ∈ names ∧ name ≠ "")
    (hc : Grows lo names type c fn) : (emit (.brIf name c .absent)).Builds fn (Made lo names) := by
  refine (emit_builds rfl rfl hc.1.absent (.branch (.inl rfl) rfl (fun _ _ => rfl) ?_)).made
  simpa [branchLabels] using hname

theorem branch_builds (room : Nat) (conditional : Bool) (hfn : fn.Declares)
    (hlabels : Around labels names) :
    (branch room labels conditional).Builds fn (Made fn.nodes.size names) := by
  unfold branch
  split
  · exact observation_builds room hfn
  · rename_i first rest
    refine (below_draws "label" (Nat.succ_pos _)).bind fun i hi => ?_
    have hlabel := hlabels _ (getD_mem hi first)
    dsimp only
    split
    · refine (test_builds names room hfn).bind fun c fn₁ _ hc => ?_
      exact emit_brIf_builds hlabel hc
    · split
      · exact observation_builds room hfn
      · refine (emit_builds rfl rfl (Forest.nil fn names).absent.absent
          (.branch (.inl rfl) rfl (fun _ _ => rfl) ?_)).made
        simpa [branchLabels] using hlabel

theorem exit_builds (room : Nat) (hfn : fn.Declares) (hlabels : Around labels names) :
    (exit room labels).Builds fn (Made fn.nodes.size names) := by
  have hret : (emit (.ret .absent)).Builds fn (Made fn.nodes.size names) :=
    (emit_builds rfl rfl (Forest.nil fn names).absent (.simple rfl rfl fun _ _ => rfl)).made
  refine (below_draws "exit" (by decide)).bind fun choice _ => ?_
  split
  · exact hret
  · refine (test_builds names room hfn).bind fun c fn₁ _ hc => ?_
    refine Builds.bind (emit_builds rfl rfl (.nil fn₁ names)
      (.operation rfl rfl (by simp))) fun trap fn₂ hext₂ htrap => ?_
    have hkids := hc.1.append hext₂ htrap.1
    refine (emit_builds rfl rfl hkids (.operation rfl rfl ?_)).made
    simp [hc.2.ne_absent, htrap.2.ne_absent]
  · have houter : ∀ name ∈ (labels.reverse.filter fun label => !label.isLoop).map (·.name),
        name ∈ names ∧ name ≠ "" := by
      intro name hname
      obtain ⟨label, hlabel, rfl⟩ := List.mem_map.mp hname
      exact hlabels label (List.mem_reverse.mp (List.mem_filter.mp hlabel).1)
    split
    · exact hret
    · rename_i innermost outer heq
      rw [heq] at houter
      refine (expr_builds names room hfn (.inl rfl)).bind fun index fn₁ _ hindex => ?_
      refine (emit_builds rfl rfl hindex.1.absent (.branch (.inr rfl) rfl ?_ ?_)).made
      · intro i hi
        rcases i with _ | _ | i
        · rfl
        · exact absurd (by simpa using hi) hindex.2.ne_absent
        · simp at hi
      · intro name hname
        have hmem : name ∈ innermost :: outer := by
          simpa [branchLabels, or_comm] using hname
        exact houter name hmem

theorem assignment_builds (names : List String) (room : Nat) (hfn : fn.Declares) :
    (assignment room).Builds fn fun x fn' =>
      x.1 < fn'.numLocals ∧ Grows fn.nodes.size names (fn'.localType x.1) x.2 fn' := by
  refine (anyLocal_draws hfn.pos).bind fun v hv => ?_
  refine (localType_draws v).bind fun type htype => ?_
  subst htype
  refine (expr_builds names room hfn (hfn.integer v hv)).bind fun value fn₁ hext₁ hvalue => .pure ?_
  rw [hext₁.numLocals_eq, hext₁.localType_eq]
  exact ⟨hv, hvalue⟩

theorem simple_builds (room choice : Nat) (hfn : fn.Declares) :
    (simple room choice).Builds fn (Made fn.nodes.size names) := by
  have hset : (do let x ← assignment room; emit (.localSet x.1 x.2)).Builds fn
      (Made fn.nodes.size names) := by
    refine (assignment_builds names room hfn).bind fun x fn₁ _ hx => ?_
    exact (emit_builds rfl rfl hx.2.1 (.write rfl rfl hx.1 hx.2.2)).made
  unfold simple
  split
  · exact hset
  · exact hset
  · refine (assignment_builds names room hfn).bind fun x fn₁ _ hx => ?_
    refine Builds.bind (emit_builds rfl rfl hx.2.1 (.write rfl rfl hx.1 hx.2.2))
      fun tee fn₂ _ htee => ?_
    refine (emit_builds rfl rfl htee.1 (.operation rfl rfl ?_)).made
    simp [htee.2.ne_absent]
  · exact observation_builds room hfn

theorem emit_loop_builds {lo : Nat} {name : String} {body : Ref} (h : Made lo (name :: names) body fn) :
    (emit (.loop name body)).Builds fn (Made lo names) := by
  obtain ⟨type, hbody⟩ := h
  have hnode : fn.nodeOf (.loop name body) =
      .ok { kind := .loop, type := fallType type, label := name, kids := [body] } := by
    rw [nodeOf, hbody.2.typeOf_eq]
    rfl
  refine (emit_builds hnode rfl hbody.1 (.operation rfl rfl ?_)).made
  simp [hbody.2.ne_absent]

/-- The condition is made after the arms and comes before them. -/
theorem emit_ifElse_builds {lo : Nat} {c : Ref} {arms : List Ref} {fn' : Function} (hext : fn.Extends fn')
    (harms : MadeAll lo names arms fn) (hc : Grows fn.nodes.size names .i32 c fn') :
    (∀ ifTrue, arms = [ifTrue] →
        (emit (.ifElse c ifTrue .absent)).Builds fn' (Made lo names)) ∧
      ∀ ifTrue ifFalse, arms = [ifTrue, ifFalse] →
        (emit (.ifElse c ifTrue ifFalse)).Builds fn' (Made lo names) := by
  have hall := harms.append hext (Made.all ⟨_, hc⟩)
  have hkids : fn'.Forest lo names (c :: arms) := hall.1.perm List.perm_append_comm
  have hne : ∀ r ∈ c :: arms, r ≠ .absent := by
    intro r hr
    obtain ⟨type, htype⟩ := hall.2 r (List.perm_append_comm.mem_iff.mpr hr)
    exact htype.ne_absent
  constructor
  · rintro ifTrue rfl
    exact (emit_builds rfl rfl hkids (.operation rfl rfl hne)).made
  · rintro ifTrue ifFalse rfl
    obtain ⟨a, ha⟩ := hall.2 ifTrue (by simp)
    obtain ⟨b, hb⟩ := hall.2 ifFalse (by simp)
    have hnode : fn'.nodeOf (.ifElse c ifTrue ifFalse) =
        .ok { kind := .ifElse, type := if a = b then fallType a else .none,
              kids := [c, ifTrue, ifFalse] } := by
      rw [nodeOf, if_pos hb.isPresent, ha.typeOf_eq, hb.typeOf_eq]
      rfl
    exact (emit_builds hnode rfl hkids (.operation rfl rfl hne)).made

theorem ifElse_builds {arm : Gen Ref} (room : Nat) (hfn : fn.Declares)
    (harm : ∀ {fn : Function}, fn.Declares → arm.Builds fn (Made fn.nodes.size names)) :
    (do
      let ifTrue ← arm
      let ifFalse ← if ← flip "else" then arm else pure .absent
      let c ← condition (expr room .i32)
      emit (.ifElse c ifTrue ifFalse)).Builds fn (Made fn.nodes.size names) := by
  refine (harm hfn).bind fun ifTrue fn₁ hext₁ hifTrue => ?_
  have hfn₁ := hfn.extend hext₁
  refine (flip_draws "else").bind fun hasElse _ => ?_
  cases hasElse with
  | false =>
    simp only [Bool.false_eq_true, if_false, pure_bind]
    refine (test_builds names room hfn₁).bind fun c fn₂ hext₂ hc => ?_
    exact (emit_ifElse_builds hext₂ hifTrue.all hc).1 ifTrue rfl
  | true =>
    refine (harm hfn₁).bind fun ifFalse fn₂ hext₂ hifFalse => ?_
    refine (test_builds names room (hfn₁.extend hext₂)).bind fun c fn₃ hext₃ hc => ?_
    have harms := hifTrue.all.append hext₂ hifFalse.all
    exact (emit_ifElse_builds hext₃ harms hc).2 ifTrue ifFalse rfl

/-- The body of a loop ends with a conditional branch back to the loop. -/
theorem loop_builds {name : String} {statement : Gen Ref} (room : Nat) (hfn : fn.Declares)
    (hname : name ≠ "")
    (h : ∀ {fn : Function}, fn.Declares →
      statement.Builds fn (Made fn.nodes.size ("" :: name :: names))) :
    (do
      let items ← statements statement
      let back ← emit (.brIf name (← condition (expr room .i32)) .absent)
      let body ← emit (.block "" (items ++ [back]))
      emit (.loop name body)).Builds fn (Made fn.nodes.size names) := by
  refine (statements_builds hfn h).bind fun items fn₁ hext₁ hitems => ?_
  refine (test_builds ("" :: name :: names) room (hfn.extend hext₁)).bind fun c fn₂ hext₂ hc => ?_
  refine (emit_brIf_builds ⟨by simp, hname⟩ hc).bind fun back fn₃ hext₃ hback => ?_
  have hall := hitems.append (hext₂.trans hext₃) hback.all
  exact (emit_block_builds hall).bind fun body fn₄ _ hbody => emit_loop_builds hbody

theorem statement_builds (room : Nat) (hfn : fn.Declares) (hlabels : Around labels names) :
    (statement room labels).Builds fn (Made fn.nodes.size names) := by
  induction room generalizing fn names labels with
  | zero => exact (below_draws "stmt" (by decide)).bind fun choice _ => simple_builds 0 choice hfn
  | succ room ih =>
    have hif := ifElse_builds room hfn fun hfn => block_builds hfn fun hfn =>
      ih hfn (hlabels.inside "")
    refine (below_draws "stmt" (by decide)).bind fun choice _ => ?_
    split
    · exact hif
    · exact hif
    · refine newLabel_draws.bind fun name hname => ?_
      exact block_builds hfn fun hfn => ih hfn (hlabels.snoc hname false)
    · refine newLabel_draws.bind fun name hname => ?_
      exact loop_builds (room - 1) hfn hname fun hfn =>
        ih hfn ((hlabels.snoc hname true).inside "")
    · exact branch_builds room true hfn hlabels
    · exact branch_builds room true hfn hlabels
    · exact branch_builds room false hfn hlabels
    · exact exit_builds room hfn hlabels
    · exact simple_builds room _ hfn

end Statements

end Gen

end LocalFlow
