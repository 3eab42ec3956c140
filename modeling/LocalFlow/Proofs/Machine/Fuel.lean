import Mathlib
import LocalFlow.Proofs.Machine.Footprint
import LocalFlow.Proofs.Machine.Simulation
import LocalFlow.Proofs.Machine.Termination

/-! Runs of one function on different fuel. More fuel changes nothing up to the restart that is refused
for lack of fuel: a run that does not come to such a restart is the same, and of one that does the events
are the beginning of those of the longer run. Fuel is counted in a signed word, and the least word has
more restarts than any other. -/

namespace LocalFlow

theorem Conduct.leave_of_any : ∀ {label : String} {_ : List String} {s : Signal}, True →
    True ∨ ∃ x, s = .branch label x ∧ label ≠ "" :=
  fun _ => .inl trivial

/-- Nothing is taken back that could be observed before. -/
def Conduct.growing (past : List Event) : Conduct where
  state m := past <:+ m.events
  signal _ _ := True
  fault _ := True
  leave := @leave_of_any
  restart := fun _ => ⟨trivial, fun hm _ => hm⟩

theorem Node.Alters.events_suffix {n : Node} {m m₁ : Machine} (h : n.Alters m m₁) :
    m.events <:+ m₁.events := by
  cases h with
  | same => exact List.suffix_rfl
  | setLocal => exact List.suffix_rfl
  | globalSet => exact List.suffix_cons _ _
  | store => exact List.suffix_cons _ _
  | memoryGrow => exact List.suffix_cons _ _
  | call => exact List.suffix_cons _ _

theorem Node.obeys_growing (n : Node) (past : List Event) (labels : List String) (r : Ref)
    (count : Nat) : n.Obeys (.growing past) labels r count := by
  intro args m _ hm
  have hends := n.apply_ends args (m.noteApplied r)
  generalize n.apply args (m.noteApplied r) = c at hends ⊢
  cases hends with
  | value x _ halters => exact List.IsSuffix.trans hm halters.events_suffix
  | branch => exact ⟨trivial, hm⟩
  | ret => exact ⟨trivial, hm⟩
  | trap => exact ⟨trivial, hm⟩
  | fault f => trivial

namespace Tree

theorem obeys_growing (t : Tree) (past : List Event) (labels : List String) :
    t.Obeys (.growing past) labels := by
  induction t generalizing labels with
  | absent => trivial
  | dangling => trivial
  | endless => trivial
  | node r n kids ih =>
    exact ⟨fun _ => n.obeys_growing past labels r _, obeysAll_iff.mpr fun k hk => ih k hk _⟩

theorem eval_growing (t : Tree) {past : List Event} {m : Machine} (hm : past <:+ m.events)
    (labels : List String) : (t.eval m).Obeys (.growing past) labels :=
  eval_obeys (t.obeys_growing past labels) hm

end Tree

def Machine.refuel (extra : Nat) (m : Machine) : Machine := { m with fuel := m.fuel + extra }

namespace Completion

variable {α β : Type} {extra : Nat} {c c' : Completion α}

def refuel (extra : Nat) : Completion α → Completion α
  | .value a m => .value a (m.refuel extra)
  | .signal s m => .signal s (m.refuel extra)
  | .fault f => .fault f

/-- The second evaluation had so much more fuel than the first. It ends in the same way, unless the
first ran out of fuel, and then all that could be observed of the first is observed of it too. -/
inductive Prolongs (extra : Nat) : Completion α → Completion α → Prop
  | same {c : Completion α} : c.signal? ≠ some .outOfFuel → Prolongs extra c (c.refuel extra)
  | cut {m : Machine} {c' : Completion α} : c'.Obeys (.growing m.events) [] →
      Prolongs extra (.signal .outOfFuel m) c'

theorem Prolongs.bind {next : α → Machine → Completion β} (h : c.Prolongs extra c')
    (hnext : ∀ a m, (next a m).Prolongs extra (next a (m.refuel extra)))
    (hgrowing : ∀ past a m, past <:+ m.events → (next a m).Obeys (.growing past) []) :
    (c.bind next).Prolongs extra (c'.bind next) := by
  cases h with
  | same hfuel =>
    cases c with
    | value a m => exact hnext a m
    | signal s m => exact .same hfuel
    | fault f => exact .same hfuel
  | cut hc' => exact .cut (hc'.bind fun a m _ hm => hgrowing _ a m hm)

theorem Prolongs.atBlock {c c' : Completion UInt64} (h : c.Prolongs extra c') (label : String) :
    (c.atBlock label).Prolongs extra (c'.atBlock label) := by
  cases h with
  | @cut m _ hc' =>
    have hinside : c'.Obeys (.growing m.events) [label] := hc'
    exact .cut hinside.atBlock
  | same hfuel =>
    cases c with
    | value a m => exact .same hfuel
    | fault f => exact .same hfuel
    | signal s m =>
      cases s with
      | branch target x =>
        simp only [refuel, Completion.atBlock]
        split
        · exact .same (c := .value x m) (by simp [signal?])
        · exact .same (c := .signal (.branch target x) m) (by simp [signal?])
      | _ => exact .same hfuel

end Completion

namespace Node

theorem apply_refuel (n : Node) (args : List UInt64) (extra : Nat) (m : Machine) :
    n.apply args (m.refuel extra) = (n.apply args m).refuel extra := by
  have hmemory : (m.refuel extra).memory = m.memory := rfl
  have hlocal : n.kind.isLocalAccess = true →
      (m.refuel extra).locals[n.index]? = m.locals[n.index]? := fun _ => rfl
  obtain ⟨response, -, heq, heq'⟩ := n.apply_responds args hmemory rfl hlocal
  rw [heq, heq']
  cases response with
  | value x change => cases change <;> rfl
  | signal s => rfl
  | fault f => rfl

theorem apply_prolongs (n : Node) (args : List UInt64) (extra : Nat) (m : Machine) :
    (n.apply args m).Prolongs extra (n.apply args (m.refuel extra)) := by
  rw [apply_refuel]
  refine .same ?_
  have hends := n.apply_ends args m
  generalize n.apply args m = c at hends
  cases hends <;> simp [Completion.signal?]

end Node

namespace Machine

variable {label : String} {body : Machine → Completion UInt64} {extra count count' : Nat} {m m₁ : Machine}
  {x : UInt64} {past : List Event}

/-- What the first turn of a loop has shown is not taken back by those that follow. -/
theorem repeatLoop_growing (hbody : ∀ m, past <:+ m.events → (body m).Obeys (.growing past) [])
    (hfirst : (body m).Obeys (.growing past) []) :
    (repeatLoop label body (count + 1) m).Obeys (.growing past) [] := by
  by_cases hends : ∀ x m₁, body m ≠ .signal (.branch label x) m₁
  · rwa [repeatLoop_of_ends hends]
  · push Not at hends
    obtain ⟨x, m₁, hbranch⟩ := hends
    rw [hbranch] at hfirst
    cases hfuel : m₁.fuel with
    | zero =>
      rw [repeatLoop_of_refused hbranch hfuel]
      exact hfirst
    | succ fuel =>
      rw [repeatLoop_of_again hbranch hfuel]
      exact repeatLoop_obeys (fun m hm => hbody m hm) hfirst.2 (.inl trivial)

/-- With more fuel a loop goes the same way, at least up to where it lacked fuel. -/
theorem repeatLoop_prolongs
    (hbody : ∀ m, (body m).Prolongs extra (body (m.refuel extra)))
    (hgrowing : ∀ past m, past <:+ m.events → (body m).Obeys (.growing past) [])
    (hthrift : ∀ {m s m₁}, body m = .signal s m₁ → m₁.fuel ≤ m.fuel)
    (hcount : m.fuel < count) (hcount' : m.fuel + extra < count') :
    (repeatLoop label body count m).Prolongs extra
      (repeatLoop label body count' (m.refuel extra)) := by
  induction count generalizing m count' with
  | zero => omega
  | succ count ih =>
    obtain ⟨count', rfl⟩ : ∃ k, count' = k + 1 := ⟨count' - 1, by omega⟩
    have hfirst := hbody m
    generalize hc : body m = c at hfirst
    generalize hc' : body (m.refuel extra) = c' at hfirst
    cases hfirst with
    | @cut m₁ _ hobeys =>
      rw [repeatLoop_of_ends (by simp [hc]), hc]
      exact .cut (repeatLoop_growing (hgrowing _) (hc' ▸ hobeys))
    | same hfuel =>
      by_cases hends : ∀ x m₁, c ≠ .signal (.branch label x) m₁
      · have hends' : ∀ x m₁, c.refuel extra ≠ .signal (.branch label x) m₁ := by
          intro x m₁ heq
          cases c with
          | signal s m =>
            cases heq
            exact hends x m rfl
          | value a m => cases heq
          | fault f => cases heq
        rw [repeatLoop_of_ends (hc ▸ hends), repeatLoop_of_ends (hc' ▸ hends'), hc, hc']
        exact .same hfuel
      · push Not at hends
        obtain ⟨x, m₁, rfl⟩ := hends
        have hle := hthrift hc
        cases hleft : m₁.fuel with
        | zero =>
          rw [repeatLoop_of_refused hc hleft]
          refine .cut (repeatLoop_growing (hgrowing _) ?_)
          rw [hc']
          exact ⟨trivial, List.suffix_rfl⟩
        | succ fuel =>
          have hleft' : (m₁.refuel extra).fuel = fuel + extra + 1 := by
            simp only [refuel]
            omega
          rw [repeatLoop_of_again hc hleft, repeatLoop_of_again hc' hleft']
          exact ih (m := { m₁ with fuel }) (by simp only; omega) (by simp only; omega)

end Machine

namespace Tree

variable {extra : Nat} {m : Machine} {kids : List (Unit → Tree)}

theorem evalAll_growing (kids : List (Unit → Tree)) {past : List Event} (hm : past <:+ m.events) :
    (evalAll kids m).Obeys (.growing past) [] :=
  evalAll_obeys (c := .growing past) (fun k _ _ hm => (k ()).eval_growing hm []) hm

theorem evalItems_growing (kids : List (Unit → Tree)) (last : UInt64) {past : List Event}
    (hm : past <:+ m.events) : (evalItems kids last m).Obeys (.growing past) [] :=
  evalItems_obeys (c := .growing past) (fun k _ _ hm => (k ()).eval_growing hm []) last hm

/-- More fuel does not lead evaluation of the tree another way. -/
def Prolonged (t : Tree) : Prop :=
  ∀ extra m, (t.eval m).Prolongs extra (t.eval (m.refuel extra))

theorem evalAll_prolongs (ih : ∀ k ∈ kids, (k ()).Prolonged) (extra : Nat) (m : Machine) :
    (evalAll kids m).Prolongs extra (evalAll kids (m.refuel extra)) := by
  induction kids generalizing m with
  | nil => exact .same (by simp [evalAll, Completion.signal?])
  | cons k kids ihk =>
    rw [evalAll, evalAll]
    refine (ih k (by simp) extra m).bind (fun v m₁ => ?_) fun past v m₁ hm₁ => ?_
    · refine (ihk (fun k hk => ih k (.tail _ hk)) m₁).bind (fun vs m₂ => ?_) fun _ _ _ hm₂ => hm₂
      exact .same (c := .value (v :: vs) m₂) (by simp [Completion.signal?])
    · exact (evalAll_growing kids hm₁).bind fun _ _ _ hm₂ => hm₂

theorem evalItems_prolongs (ih : ∀ k ∈ kids, (k ()).Prolonged) (extra : Nat) (last : UInt64)
    (m : Machine) :
    (evalItems kids last m).Prolongs extra (evalItems kids last (m.refuel extra)) := by
  induction kids generalizing last m with
  | nil => exact .same (by simp [evalItems, Completion.signal?])
  | cons k kids ihk =>
    rw [evalItems, evalItems]
    exact (ih k (by simp) extra m).bind (fun v m₁ => ihk (fun k hk => ih k (.tail _ hk)) v m₁)
      fun _ v _ hm₁ => evalItems_growing kids v hm₁

theorem prolonged (t : Tree) : t.Prolonged := by
  induction t with
  | absent => exact fun extra m => .same (by simp [eval, Completion.signal?])
  | dangling => exact fun extra m => .same (by simp [eval, Completion.signal?])
  | endless => exact fun extra m => .same (by simp [eval, Completion.signal?])
  | node r n kids ih =>
    intro extra m
    have hslot : ∀ i, (slot kids i).Prolonged :=
      slot_of_kids ih fun extra m => .same (by simp [eval, Completion.signal?])
    by_cases hkind : n.kind.isStructured = true
    · unfold Kind.isStructured at hkind
      split at hkind
      · rw [eval_block ‹_›, eval_block ‹_›]
        exact (evalItems_prolongs ih extra 0 m).atBlock n.label
      · rw [eval_loop ‹_›, eval_loop ‹_›]
        refine Machine.repeatLoop_prolongs (hslot 0 extra) (fun _ _ hm => eval_growing _ hm [])
          fuel_le_of_signal (Nat.lt_succ_self _) (Nat.lt_succ_self _)
      · rw [eval_ifElse ‹_›, eval_ifElse ‹_›]
        refine (hslot 0 extra m).bind (fun cond m₁ => ?_) fun _ cond m₁ hm₁ => ?_
        · split
          · exact hslot 2 extra m₁
          · exact hslot 1 extra m₁
        · split
          · exact eval_growing _ hm₁ []
          · exact eval_growing _ hm₁ []
      · cases hkind
    · have hplain : n.kind.isStructured = false := by simpa using hkind
      rw [eval_plain hplain, eval_plain hplain]
      refine (evalAll_prolongs ih extra m).bind (fun args m₁ => ?_) fun past args m₁ hm₁ => ?_
      · exact n.apply_prolongs args extra (m₁.noteApplied r)
      · exact n.obeys_growing past [] r args.length args m₁ rfl hm₁

end Tree

namespace Machine

variable {f g : Int64}

theorem toInt_pred (h : f ≠ .minValue) : (f - 1).toInt = f.toInt - 1 := by
  have hne : f.toInt ≠ Int64.minValue.toInt := fun heq => h (Int64.toInt_inj.mp heq)
  have hlow := f.minValue_le_toInt
  have hhigh := f.toInt_lt
  rw [Int64.toInt_sub, Int64.toInt_one]
  simp only [Int64.toInt_minValue] at hne hlow
  exact Int.bmod_eq_of_le (by omega) (by omega)

/-- Fuel is as many restarts as it says, and none if it is negative. -/
theorem restarts_of_ne (h : f ≠ .minValue) : restarts f = f.toInt.toNat := by
  have hpred := toInt_pred h
  unfold restarts
  split
  · rename_i hneg
    rw [Int64.lt_iff_toInt_lt, hpred, Int64.toInt_zero] at hneg
    omega
  · rename_i hneg
    rw [Int64.lt_iff_toInt_lt, hpred, Int64.toInt_zero] at hneg
    omega

/-- The least word is negative too, but one less than it is the greatest. -/
theorem restarts_minValue : restarts .minValue = 2 ^ 63 := by decide

theorem restarts_le (h : g = .minValue ∨ f ≠ .minValue ∧ f ≤ g) : restarts f ≤ restarts g := by
  rcases h with rfl | ⟨hf, hfg⟩
  · by_cases hf : f = .minValue
    · rw [hf]
    · have hlt := f.toInt_lt
      rw [restarts_of_ne hf, restarts_minValue]
      omega
  · have hg : g ≠ .minValue := by
      rintro rfl
      exact hf (Int64.le_antisymm hfg (Int64.minValue_le f))
    have hle := Int64.le_iff_toInt_le.mp hfg
    rw [restarts_of_ne hf, restarts_of_ne hg]
    omega

end Machine

namespace Function

variable {fn : Function} {args : List UInt64} {f g : Int64} {trace : Trace}

theorem execute_prolongs (fn : Function) (args : List UInt64)
    (h : Machine.restarts f ≤ Machine.restarts g) : ∃ extra,
      (fn.execute args f).Prolongs extra (fn.execute args g) := by
  refine ⟨Machine.restarts g - Machine.restarts f, ?_⟩
  have hstart : Machine.start fn args g =
      (Machine.start fn args f).refuel (Machine.restarts g - Machine.restarts f) := by
    simp only [Machine.start, Machine.refuel, Nat.add_sub_cancel' h]
  rw [execute, execute, hstart]
  exact Tree.prolonged _ _ _

/-- A run that does not end for lack of fuel is the same on more fuel, and one that does has shown the
beginning of what any run on more fuel shows. Fuel is compared as a number, but the least word stands
above all others. -/
theorem run_of_more_fuel (hmore : g = .minValue ∨ f ≠ .minValue ∧ f ≤ g)
    (hrun : fn.run args f = .ok trace) :
    (trace.outcome ≠ .outOfFuel → fn.run args g = .ok trace) ∧
      (trace.outcome = .outOfFuel → ∀ trace', fn.run args g = .ok trace' →
        trace.events <+: trace'.events) := by
  obtain ⟨extra, hprolongs⟩ := execute_prolongs fn args (Machine.restarts_le hmore)
  unfold run at hrun ⊢
  generalize fn.execute args f = c at hrun hprolongs
  generalize fn.execute args g = c' at hprolongs
  cases hprolongs with
  | same hfuel =>
    cases c with
    | value x m =>
      cases hrun
      exact ⟨fun _ => rfl, fun hfuel => by cases hfuel⟩
    | fault f => cases hrun
    | signal s m =>
      cases s with
      | branch label x => cases hrun
      | outOfFuel => exact absurd rfl hfuel
      | _ =>
        cases hrun
        exact ⟨fun _ => rfl, fun hfuel => by cases hfuel⟩
  | @cut m _ hgrowing =>
    cases hrun
    refine ⟨fun hfuel => absurd rfl hfuel, fun _ trace' hrun' => ?_⟩
    cases c' with
    | value x m' =>
      cases hrun'
      exact List.reverse_prefix.mpr hgrowing
    | fault f => cases hrun'
    | signal s m' =>
      cases s with
      | branch label x => cases hrun'
      | _ =>
        cases hrun'
        exact List.reverse_prefix.mpr hgrowing.2

/-- Counts a parameter down in a loop. In every turn an inner loop counts down from there, and shows what
it counts. -/
def countingAloud : Function where
  name := "counting_aloud"
  params := [.i32]
  vars := [.i32]
  body := 17
  nodes := #[
    { kind := .localGet, type := .i32, index := 0 },
    { kind := .localSet, index := 1, kids := [0] },
    { kind := .localGet, type := .i32, index := 1 },
    { kind := .globalSet, index := 0, kids := [2] },
    { kind := .localGet, type := .i32, index := 1 },
    { kind := .const, type := .i32, value := .i32 1 },
    { kind := .binary, type := .i32, op := .sub, kids := [4, 5] },
    { kind := .localTee, type := .i32, index := 1, kids := [6] },
    { kind := .br, label := "in", kids := [.absent, 7] },
    { kind := .block, kids := [3, 8] },
    { kind := .loop, label := "in", kids := [9] },
    { kind := .localGet, type := .i32, index := 0 },
    { kind := .const, type := .i32, value := .i32 1 },
    { kind := .binary, type := .i32, op := .sub, kids := [11, 12] },
    { kind := .localTee, type := .i32, index := 0, kids := [13] },
    { kind := .br, label := "out", kids := [.absent, 14] },
    { kind := .block, kids := [1, 10, 15] },
    { kind := .loop, label := "out", kids := [16] }]

theorem run_of_more_fuel_countingAloud :
    countingAloud.run [2] 1 = .ok ⟨[.globalSet 0 2, .globalSet 0 1], .outOfFuel⟩ ∧
      countingAloud.run [2] 2 = .ok ⟨[.globalSet 0 2, .globalSet 0 1, .globalSet 0 1], .finished⟩ ∧
      [Event.globalSet 0 2, .globalSet 0 1] <+: [.globalSet 0 2, .globalSet 0 1, .globalSet 0 1] ∧
      countingAloud.run [2] .maxValue =
        .ok ⟨[.globalSet 0 2, .globalSet 0 1, .globalSet 0 1], .finished⟩ := by
  have hfew : countingAloud.run [2] 1 = .ok ⟨[.globalSet 0 2, .globalSet 0 1], .outOfFuel⟩ := by
    decide +kernel
  have henough : countingAloud.run [2] 2 =
      .ok ⟨[.globalSet 0 2, .globalSet 0 1, .globalSet 0 1], .finished⟩ := by
    decide +kernel
  refine ⟨hfew, henough, (run_of_more_fuel (.inr (by decide)) hfew).2 rfl _ henough, ?_⟩
  exact (run_of_more_fuel (.inr (by decide)) henough).1 (by decide)

/-- The least word is no more than zero, yet a loop starts over on it and does not on zero. -/
theorem run_of_least_fuel_countingAloud :
    countingAloud.validate = .ok () ∧ (∃ g, countingAloud.nodeGraph = .ok g) ∧
      Int64.minValue ≤ 0 ∧
      countingAloud.run [2] .minValue =
        .ok ⟨[.globalSet 0 2, .globalSet 0 1, .globalSet 0 1], .finished⟩ ∧
      countingAloud.run [2] 0 = .ok ⟨[.globalSet 0 2], .outOfFuel⟩ :=
  ⟨by cbv, ⟨_, by cbv⟩, by decide, by decide +kernel, by decide +kernel⟩

end Function

end LocalFlow
