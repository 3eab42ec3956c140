import LocalFlow.Function.Effect
import LocalFlow.Machine.Eval
import LocalFlow.Proofs.Function.Tree
import LocalFlow.Proofs.Machine.Application
import LocalFlow.Proofs.Machine.Conduct
import LocalFlow.Proofs.Outcome

/-! Effects and what evaluation does. Whatever a tree evaluates to, it changes no part of the machine
that its effects do not name, and it ends in no signal but those that they announce. A tree whose
effects are none that last leaves the machine as it was, and only a division in it can trap. -/

namespace LocalFlow

namespace Effect

variable {a b c e : Effect}

theorem meets_union (a b c : Effect) : (a ∪ b).meets c = (a.meets c || b.meets c) := by
  have hbits : (a ∪ b).bits &&& c.bits = a.bits &&& c.bits ||| b.bits &&& c.bits := by
    apply UInt32.eq_of_toBitVec_eq
    exact BitVec.and_or_distrib_right
  rw [Bool.eq_iff_iff]
  simp only [meets, hbits, ne_eq, UInt32.or_eq_zero_iff, decide_not, Bool.not_eq_true',
    Bool.or_eq_true, decide_eq_false_iff_not]
  exact not_and_or

theorem meets_comm (a b : Effect) : a.meets b = b.meets a := by
  simp only [meets, UInt32.and_comm]

/-- What meets an effect of `a` meets one of `b`. -/
def Within (a b : Effect) : Prop := ∀ c, a.meets c = true → b.meets c = true

theorem Within.trans (hab : a.Within b) (hbc : b.Within c) : a.Within c :=
  fun d hd => hbc d (hab d hd)

theorem within_union_left (a b : Effect) : a.Within (a ∪ b) := by
  intro c hc
  rw [meets_union, hc, Bool.true_or]

theorem within_union_right (a b : Effect) : b.Within (a ∪ b) := by
  intro c hc
  rw [meets_union, hc, Bool.or_true]

theorem meets_eq_false (h : e.hasSideEffects = false) (hc : c.Within lasting) :
    e.meets c = false := by
  rw [Bool.eq_false_iff, meets_comm]
  intro hce
  have hlasting := hc e hce
  rw [meets_comm] at hlasting
  rw [hasSideEffects, hlasting] at h
  cases h

theorem within_lasting (hc : lasting = c ∪ lasting) : c.Within lasting := by
  rw [hc]
  exact within_union_left c lasting

/-- From `m` to `m'` nothing changes but what the effects name: locals, memory and events, the number
of calls, and the fuel, which is spent on branches back to a loop. -/
structure Confines (e : Effect) (m m' : Machine) : Prop where
  locals : e.meets localWrite = false → m'.locals = m.locals
  memory : e.meets globalWrite = false → e.meets memoryWrite = false → m'.memory = m.memory
  events : e.meets globalWrite = false → e.meets memoryWrite = false → m'.events = m.events
  calls : e.meets calls = false → m'.calls = m.calls
  fuel : e.meets branches = false → m'.fuel = m.fuel

variable {m m' m'' : Machine}

theorem Confines.of_same (hlocals : m'.locals = m.locals) (hmemory : m'.memory = m.memory)
    (hevents : m'.events = m.events) (hcalls : m'.calls = m.calls) (hfuel : m'.fuel = m.fuel) :
    e.Confines m m' :=
  ⟨fun _ => hlocals, fun _ _ => hmemory, fun _ _ => hevents, fun _ => hcalls, fun _ => hfuel⟩

theorem Confines.refl (e : Effect) (m : Machine) : e.Confines m m := .of_same rfl rfl rfl rfl rfl

theorem Confines.trans (h : e.Confines m m') (h' : e.Confines m' m'') : e.Confines m m'' where
  locals hlocal := (h'.locals hlocal).trans (h.locals hlocal)
  memory hglobal hmem := (h'.memory hglobal hmem).trans (h.memory hglobal hmem)
  events hglobal hmem := (h'.events hglobal hmem).trans (h.events hglobal hmem)
  calls hcall := (h'.calls hcall).trans (h.calls hcall)
  fuel hbranch := (h'.fuel hbranch).trans (h.fuel hbranch)

theorem Confines.mono (h : a.Confines m m') (hab : a.Within b) : b.Confines m m' := by
  have hless : ∀ {c}, b.meets c = false → a.meets c = false := fun {c} hc =>
    Bool.eq_false_iff.mpr fun hac => absurd (hab c hac) (by simp [hc])
  exact ⟨fun hlocal => h.locals (hless hlocal),
    fun hglobal hmem => h.memory (hless hglobal) (hless hmem),
    fun hglobal hmem => h.events (hless hglobal) (hless hmem),
    fun hcall => h.calls (hless hcall), fun hbranch => h.fuel (hless hbranch)⟩

/-- Nothing at all changes without side effects, the record of applied nodes aside. -/
theorem Confines.eq_of_pure (h : e.Confines m m') (hpure : e.hasSideEffects = false) :
    m' = { m with applied := m'.applied } := by
  have hnone : ∀ {c}, lasting = c ∪ lasting → e.meets c = false :=
    fun hc => meets_eq_false hpure (within_lasting hc)
  have hlocals := h.locals (hnone (by decide))
  have hmemory := h.memory (hnone (by decide)) (hnone (by decide))
  have hevents := h.events (hnone (by decide)) (hnone (by decide))
  have hcalls := h.calls (hnone (by decide))
  have hfuel := h.fuel (hnone (by decide))
  rw [← hlocals, ← hmemory, ← hevents, ← hcalls, ← hfuel]

/-- The effects announce the signal, where `traps` says if there may be a trap. -/
def Announces (e : Effect) (traps : Prop) : Signal → Prop
  | .trap => traps
  | _ => e.meets branches = true

def conduct (e : Effect) (traps : Prop) (m : Machine) : Conduct where
  state := e.Confines m
  signal _ := e.Announces traps
  fault _ := True
  leave h := .inl h
  restart h := by
    refine ⟨h, fun {m₁ fuel} hm₁ _ => ⟨hm₁.locals, hm₁.memory, hm₁.events, hm₁.calls, ?_⟩⟩
    intro hnone
    change e.meets branches = true at h
    rw [hnone] at h
    cases h

end Effect

namespace Node

variable {n : Node} {args : List UInt64} {m m₁ : Machine} {x : UInt64}

def divides (n : Node) : Bool := n.kind = .binary && n.op.isDivision

def MayTrap (n : Node) : Prop := n.kind = .unreachable ∨ n.kind = .binary ∧ n.op = .divU

/-- A node that is applied changes only what its effect names. -/
theorem Alters.confines (h : n.Alters m m₁) : n.effect.Confines m m₁ := by
  -- What is changed was named, so it cannot have been missing.
  have hmissing : ∀ {c : Effect} {p : Prop}, n.effect.meets c = true → n.effect.meets c = false → p := by
    intro c p hnamed hnone
    rw [hnamed] at hnone
    cases hnone
  cases h with
  | same => exact .refl _ _
  | setLocal x hkind =>
    have hnamed : n.effect.meets .localWrite = true := by
      rcases Kind.isLocalWrite_iff.mp hkind with hkind | hkind <;> simp only [effect, hkind] <;> decide
    exact ⟨hmissing hnamed, fun _ _ => rfl, fun _ _ => rfl, fun _ => rfl, fun _ => rfl⟩
  | globalSet x hkind =>
    have hnamed : n.effect.meets .globalWrite = true := by
      simp only [effect, hkind]
      decide
    exact ⟨fun _ => rfl, hmissing hnamed, hmissing hnamed, fun _ => rfl, fun _ => rfl⟩
  | store x y hkind =>
    have hnamed : n.effect.meets .memoryWrite = true := by
      simp only [effect, hkind]
      decide
    exact ⟨fun _ => rfl, fun _ => hmissing hnamed, fun _ => hmissing hnamed, fun _ => rfl,
      fun _ => rfl⟩
  | memoryGrow x hkind =>
    have hnamed : n.effect.meets .memoryWrite = true := by
      simp only [effect, hkind]
      decide
    exact ⟨fun _ => rfl, fun _ _ => rfl, fun _ => hmissing hnamed, fun _ => rfl, fun _ => rfl⟩
  | call args hkind =>
    have hwrites : n.effect.meets .memoryWrite = true := by
      simp only [effect, hkind]
      decide
    have hcalls : n.effect.meets .calls = true := by
      simp only [effect, hkind]
      decide
    exact ⟨fun _ => rfl, fun _ _ => rfl, fun _ => hmissing hwrites, hmissing hcalls, fun _ => rfl⟩

theorem effect_of_mayBranch {label : String} (h : n.MayBranch label) :
    n.effect.meets .branches = true := by
  unfold MayBranch at h
  split at h
  · rename_i hkind
    simp only [effect, hkind]
    decide
  · rename_i hkind
    simp only [effect, hkind]
    decide
  · exact h.elim

theorem obeys_conduct {e : Effect} {traps : Prop} (heffect : n.effect.Within e)
    (htraps : n.MayTrap → traps) (labels : List String) (r : Ref) (count : Nat) :
    n.Obeys (e.conduct traps m) labels r count := by
  intro args m₁ _ hm₁
  have hnoted : e.Confines m (m₁.noteApplied r) := hm₁.trans (.of_same rfl rfl rfl rfl rfl)
  have hends := n.apply_ends args (m₁.noteApplied r)
  generalize n.apply args (m₁.noteApplied r) = x at hends ⊢
  cases hends with
  | value y _ halters => exact hnoted.trans (halters.confines.mono heffect)
  | branch label y hlabel => exact ⟨heffect _ (effect_of_mayBranch hlabel), hnoted⟩
  | ret y hkind =>
    have hbranches : n.effect.meets .branches = true := by
      simp only [effect, hkind]
      decide
    exact ⟨heffect _ hbranches, hnoted⟩
  | trap htrap => exact ⟨htraps htrap, hnoted⟩
  | fault f => trivial

end Node

namespace Completion

variable {α : Type}

/-- An evaluation from `m` that changes nothing but the record of applied nodes, and ends with a value
or, if that may be, with a trap. -/
def Idle (mayTrap : Prop) (m : Machine) : Completion α → Prop
  | .value _ m₁ => ∃ applied, m₁ = { m with applied }
  | .signal s m₁ => s = .trap ∧ mayTrap ∧ ∃ applied, m₁ = { m with applied }
  | .fault _ => True

end Completion

namespace Tree

def Divides (t : Tree) : Prop := ∃ x ∈ t.nodes, x.2.divides = true

variable {fn : Function} {t : Tree} {kids : List (Unit → Tree)} {r : Ref} {rs : List Ref} {e : Effect}
  {traps : Prop}

theorem exists_effectsAll (ih : ∀ k ∈ kids, ∀ {r}, (k ()).IsAt fn r → ∃ e, (k ()).effects = .ok e)
    (hat : AreAt fn kids rs) : ∃ e, effectsAll kids = .ok e := by
  induction kids generalizing rs with
  | nil => exact ⟨_, rfl⟩
  | cons k kids ihk =>
    cases rs with
    | nil => exact hat.elim
    | cons r rs =>
      obtain ⟨e, he⟩ := ih k (by simp) hat.1
      obtain ⟨e', he'⟩ := ihk (fun k hk => ih k (.tail _ hk)) hat.2
      exact ⟨e ∪ e', by rw [effectsAll, he, he']; rfl⟩

theorem IsAt.exists_effects (hat : t.IsAt fn r) : ∃ e, t.effects = .ok e := by
  induction t generalizing r with
  | absent => exact ⟨_, rfl⟩
  | dangling => exact hat.elim
  | endless => exact hat.elim
  | node r n kids ih =>
    obtain ⟨rfl, -, hkids⟩ := hat
    obtain ⟨e, he⟩ := exists_effectsAll (fun k hk => ih k hk) hkids
    exact ⟨e ∪ n.effect, by rw [effects, he]; rfl⟩

theorem effect_within_of_effectsAll
    (ih : ∀ k ∈ kids, ∀ {e}, (k ()).effects = .ok e → ∀ x ∈ (k ()).nodes, x.2.effect.Within e)
    (h : effectsAll kids = .ok e) : ∀ x ∈ nodesAll kids, x.2.effect.Within e := by
  induction kids generalizing e with
  | nil => simp [nodesAll]
  | cons k kids ihk =>
    obtain ⟨e₁, h₁, h⟩ := bind_eq_ok.mp h
    obtain ⟨e₂, h₂, h⟩ := bind_eq_ok.mp h
    cases h
    intro x hx
    rcases List.mem_append.mp hx with hx | hx
    · exact (ih k (by simp) h₁ x hx).trans (Effect.within_union_left e₁ e₂)
    · exact (ihk (fun k hk => ih k (.tail _ hk)) h₂ x hx).trans (Effect.within_union_right e₁ e₂)

theorem effect_within (h : t.effects = .ok e) : ∀ x ∈ t.nodes, x.2.effect.Within e := by
  induction t generalizing e with
  | absent => simp
  | dangling => cases h
  | endless => cases h
  | node r n kids ih =>
    obtain ⟨e₁, h₁, h⟩ := bind_eq_ok.mp h
    cases h
    refine forall_mem_nodes.mpr ⟨fun x hx => ?_, Effect.within_union_right e₁ n.effect⟩
    have hkids := effect_within_of_effectsAll (fun k hk => ih k hk) h₁
    exact (hkids x hx).trans (Effect.within_union_left e₁ n.effect)

/-- A tree without missing nodes keeps to effects that include those of its nodes. -/
theorem obeys_conduct (heffect : ∀ x ∈ t.nodes, x.2.effect.Within e)
    (htraps : ∀ x ∈ t.nodes, x.2.MayTrap → traps) (labels : List String) (m : Machine) :
    t.Obeys (e.conduct traps m) labels := by
  induction t generalizing labels with
  | absent => trivial
  | dangling => trivial
  | endless => trivial
  | node r n kids ih =>
    obtain ⟨hkids, hself⟩ := forall_mem_nodes.mp heffect
    obtain ⟨htrapKids, htrap⟩ := forall_mem_nodes.mp htraps
    refine ⟨fun _ => n.obeys_conduct hself htrap labels r kids.length, obeysAll_iff.mpr ?_⟩
    intro k hk
    exact ih k hk (fun x hx => hkids x (mem_nodesAll.mpr ⟨k, hk, hx⟩))
      (fun x hx => htrapKids x (mem_nodesAll.mpr ⟨k, hk, hx⟩)) _

/-- Evaluation keeps to the effects of the tree, and traps only where a node may trap. -/
theorem eval_obeys_effects (h : t.effects = .ok e) (m : Machine) :
    (t.eval m).Obeys (e.conduct (∃ x ∈ t.nodes, x.2.MayTrap) m) [] := by
  apply eval_obeys
  · exact obeys_conduct (effect_within h) (fun x hx htrap => ⟨x, hx, htrap⟩) [] m
  · exact Effect.Confines.refl e m

/-- A tree whose effects do not last is evaluated without side effects. -/
theorem eval_idle (h : t.effects = .ok e) (hpure : e.hasSideEffects = false) (m : Machine) :
    (t.eval m).Idle t.Divides m := by
  have hnone : ∀ {c}, Effect.lasting = c ∪ Effect.lasting → e.meets c = false :=
    fun hc => Effect.meets_eq_false hpure (Effect.within_lasting hc)
  have hobeys := eval_obeys_effects h m
  cases hx : t.eval m with
  | value x m₁ =>
    rw [hx] at hobeys
    exact ⟨m₁.applied, hobeys.eq_of_pure hpure⟩
  | fault f => trivial
  | signal s m₁ =>
    rw [hx] at hobeys
    obtain ⟨hsignal, hm₁⟩ := hobeys
    have hbranches := hnone (c := .branches) (by decide)
    cases s with
    | trap =>
      obtain ⟨x, hx, htrap⟩ := hsignal
      refine ⟨rfl, ⟨x, hx, ?_⟩, m₁.applied, hm₁.eq_of_pure hpure⟩
      -- An unreachable node lasts, so it must have been a division.
      rcases htrap with hkind | ⟨hkind, hop⟩
      · have htraps : x.2.effect.meets .traps = true := by
          simp only [Node.effect, hkind]
          decide
        have habsent := hnone (c := .traps) (by decide)
        rw [effect_within h x hx _ htraps] at habsent
        cases habsent
      · simp [Node.divides, hkind, hop, Operator.isDivision]
    | _ =>
      change e.meets .branches = true at hsignal
      rw [hbranches] at hsignal
      cases hsignal

end Tree

end LocalFlow
