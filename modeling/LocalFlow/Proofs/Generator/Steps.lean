import LocalFlow.Generator
import LocalFlow.Proofs.Function.Emission

/-! Steps of a construction. A step is described by what it needs of the function under construction and
what it leaves, for all draws alike: what is still to be drawn never decides whether it succeeds. -/

namespace LocalFlow

namespace Gen

variable {α β : Type} {x : Gen α} {f : α → Gen β} {fn : Function} {p : α → Prop}
  {done : α → Function → Prop} {done' : β → Function → Prop}

/-- On the function `fn` the step succeeds and extends it, and the result and the new function are as
told. -/
def Builds (x : Gen α) (fn : Function) (done : α → Function → Prop) : Prop :=
  ∀ g, g.function = fn →
    ∃ a g', x.run g = .ok (a, g') ∧ fn.Extends g'.function ∧ done a g'.function

/-- The step succeeds and leaves the function `fn` alone. -/
def Draws (x : Gen α) (fn : Function) (p : α → Prop) : Prop :=
  x.Builds fn fun a fn' => fn' = fn ∧ p a

theorem Builds.bind (h : x.Builds fn done)
    (hf : ∀ a fn', fn.Extends fn' → done a fn' → (f a).Builds fn' done') :
    (x >>= f).Builds fn done' := by
  intro g hg
  obtain ⟨a, g₁, hx, hext, ha⟩ := h g hg
  obtain ⟨b, g₂, hb, hext', hdone⟩ := hf a g₁.function hext ha g₁ rfl
  refine ⟨b, g₂, ?_, hext.trans hext', hdone⟩
  rw [StateT.run_bind, hx]
  exact hb

theorem Draws.bind (h : x.Draws fn p) (hf : ∀ a, p a → (f a).Builds fn done') :
    (x >>= f).Builds fn done' := by
  refine Builds.bind h fun a fn' _ ha => ?_
  obtain ⟨rfl, ha⟩ := ha
  exact hf a ha

theorem Draws.andThen {q : β → Prop} (h : x.Draws fn p) (hf : ∀ a, p a → (f a).Draws fn q) :
    (x >>= f).Draws fn q := h.bind hf

theorem Builds.pure {a : α} (h : done a fn) : (Pure.pure a : Gen α).Builds fn done :=
  fun g hg => ⟨a, g, rfl, hg ▸ .refl fn, hg ▸ h⟩

theorem Draws.pure {a : α} (h : p a) : (Pure.pure a : Gen α).Draws fn p := Builds.pure ⟨rfl, h⟩

theorem Builds.imp {after : α → Function → Prop} (h : x.Builds fn done)
    (himp : ∀ a fn', fn.Extends fn' → done a fn' → after a fn') : x.Builds fn after := by
  intro g hg
  obtain ⟨a, g', hx, hext, ha⟩ := h g hg
  exact ⟨a, g', hx, hext, himp a _ hext ha⟩

theorem getD_mem {xs : List α} {i : Nat} (h : i < xs.length) (a : α) : xs.getD i a ∈ xs := by
  rw [List.getD_eq_getElem?_getD, List.getElem?_eq_getElem h]
  exact List.getElem_mem h

section Draws

variable (what : String)

theorem next_draws {count : Nat} (h : 0 < count) : (next count).Draws fn (· < count) :=
  fun _ hg => ⟨_, _, rfl, hg ▸ .refl fn, hg, Nat.mod_lt _ h⟩

theorem note_draws (value : String) : (note what value).Draws fn fun _ => True :=
  fun _ hg => ⟨_, _, rfl, hg ▸ .refl fn, hg, trivial⟩

theorem oneOf_draws (text : α → String) (first : α) (rest : List α) :
    (oneOf what text first rest).Draws fn (· ∈ first :: rest) := by
  refine (next_draws (Nat.succ_pos rest.length)).andThen fun i hi => ?_
  exact (note_draws what _).andThen fun _ _ => .pure (getD_mem hi first)

theorem number_draws (lo : Int) {count : Nat} (h : 0 < count) :
    (number what lo count).Draws fn fun value => lo ≤ value ∧ value < lo + count := by
  refine (next_draws h).andThen fun i hi => (note_draws what _).andThen fun _ _ => .pure ?_
  constructor <;> omega

theorem below_draws {count : Nat} (h : 0 < count) : (below what count).Draws fn (· < count) := by
  refine (number_draws what 0 h).andThen fun value hvalue => .pure ?_
  omega

theorem flip_draws : (flip what).Draws fn fun _ => True :=
  (next_draws (Nat.succ_pos 1)).andThen fun _ _ => (note_draws what _).andThen fun _ _ => .pure trivial

theorem newLabel_draws : newLabel.Draws fn (· ≠ "") := by
  intro g hg
  refine ⟨_, _, rfl, hg ▸ .refl fn, hg, fun hempty => ?_⟩
  have hlength := congrArg String.length hempty
  simp at hlength

theorem get_draws : (get : Gen Generator).Draws fn fun g => g.function = fn :=
  fun g hg => ⟨g, g, rfl, hg ▸ .refl fn, hg, hg⟩

theorem localType_draws (v : Nat) : (localType v).Draws fn (· = fn.localType v) :=
  get_draws.andThen fun _ hg => .pure (hg ▸ rfl)

theorem anyLocal_draws (h : 0 < fn.numLocals) : anyLocal.Draws fn (· < fn.numLocals) := by
  refine get_draws.andThen fun g hg => ?_
  rw [hg]
  exact below_draws "local" h

/-- A local that is found is declared with the type that was asked for. -/
theorem localOf_draws (type : ValueType) : (localOf type).Draws fn fun found =>
    ∀ v, found = some v → v < fn.numLocals ∧ fn.localType v = type := by
  refine get_draws.andThen fun g hg => ?_
  have hall : ∀ v ∈ (List.range fn.numLocals).filter (fn.localType · = type),
      v < fn.numLocals ∧ fn.localType v = type := by
    simp
  simp only [hg]
  split
  · exact .pure (by simp)
  · rename_i v rest heq
    rw [heq] at hall
    refine (below_draws "local" (Nat.succ_pos _)).andThen fun i hi => .pure fun w hw => ?_
    cases hw
    exact hall _ (getD_mem hi v)

theorem mapM_draws {β : Type} (ys : List β) (h : x.Draws fn p) :
    (ys.mapM fun _ => x).Draws fn fun as => as.length = ys.length ∧ ∀ a ∈ as, p a := by
  induction ys with
  | nil => exact .pure ⟨rfl, by simp⟩
  | cons y ys ih =>
    rw [List.mapM_cons]
    refine h.andThen fun a ha => ih.andThen fun as has => .pure ⟨?_, ?_⟩
    · rw [List.length_cons, List.length_cons, has.1]
    · exact List.forall_mem_cons.mpr ⟨ha, has.2⟩

end Draws

section Emission

variable {lo : Nat} {names : List String} {type : ValueType}

/-- A node of the given type was made, the root of what has grown since position `lo`. -/
def Grows (lo : Nat) (names : List String) (type : ValueType) (r : Ref) (fn : Function) : Prop :=
  fn.Forest lo names [r] ∧ fn.HasType r type

/-- Emitting an instruction whose node fits makes one tree of the trees of its operands. -/
theorem emit_builds {i : Instruction} {n : Node} (hnode : fn.nodeOf i = .ok n) (htype : n.type = type)
    (hkids : fn.Forest lo (n.labelsInside names) n.kids) (hn : n.Fits fn names) :
    (emit i).Builds fn (Grows lo names type) := by
  intro g hg
  refine ⟨(fn.add n).2, { g with function := (fn.add n).1 }, ?_, .add fn n, hkids.add hn,
    n, Function.node?_add fn n, htype⟩
  subst hg
  have hlift : (liftM (g.function.emit i) : Gen (Function × Ref)).run g =
      .ok (g.function.add n, g) := by
    rw [Function.emit, hnode]
    rfl
  rw [emit, StateT.run_bind]
  change (liftM (g.function.emit i) : Gen (Function × Ref)).run g >>= _ = _
  rw [hlift]
  rfl

end Emission

end Gen

end LocalFlow
