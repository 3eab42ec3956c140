import Mathlib
import LocalFlow.Liveness.Analysis
import LocalFlow.Proofs.Liveness.Interference

/-! How many locals a table of interferences has room for. A table with more than `2 ^ 48` pairs is
refused, or its bits are counted wrong and there are too few of them; then some pair has no place, and
the list of the edges, which asks for every pair, cannot be made. -/

namespace LocalFlow

/-- The computation gives a result with property `done`, unless an index names nothing. -/
def FailsAtIndex {β : Type} (done : β → Prop) (x : Except Failure β) : Prop :=
  (∀ f, x = .error f → f = .outOfRange) ∧ ∀ b, x = .ok b → done b

namespace FailsAtIndex

variable {β γ : Type} {x : Except Failure β} {next : β → Except Failure γ} {done : β → Prop}
  {after : γ → Prop}

theorem ok {b : β} (h : done b) : FailsAtIndex done (.ok b) := by
  refine ⟨?_, ?_⟩
  · intro f hf
    cases hf
  · intro b' hb'
    cases hb'
    exact h

theorem outOfRange : FailsAtIndex done (.error .outOfRange) := by
  refine ⟨?_, ?_⟩
  · intro f hf
    cases hf
    rfl
  · intro b hb
    cases hb

theorem bind (h : FailsAtIndex done x) (hnext : ∀ b, done b → FailsAtIndex after (next b)) :
    FailsAtIndex after (x >>= next) := by
  cases x with
  | error f =>
    obtain rfl := h.1 f rfl
    exact outOfRange
  | ok b => exact hnext b (h.2 b rfl)

theorem foldlM {α : Type} {step : β → α → Except Failure β} {xs : List α} {b : β}
    (hstep : ∀ b x, done b → FailsAtIndex done (step b x)) (h : done b) :
    FailsAtIndex done (xs.foldlM step b) := by
  induction xs generalizing b with
  | nil => exact ok h
  | cons x xs ih =>
    rw [List.foldlM_cons]
    exact (hstep b x h).bind fun b' hb' => ih hb'

theorem fetch {xs : Array β} {i : Nat} : FailsAtIndex (fun _ => True) (fetch xs i) := by
  unfold LocalFlow.fetch
  split
  · exact ok trivial
  · exact outOfRange

theorem assign {xs : Array β} {i : Nat} {b : β} : FailsAtIndex (fun _ => True) (assign xs i b) := by
  unfold LocalFlow.assign
  split
  · exact ok trivial
  · exact outOfRange

end FailsAtIndex

namespace Interference

variable {n a b u count : Nat} {m : Interference}

structure Limited (n : Nat) (m : Interference) : Prop where
  size_eq : m.size = n
  size_bits : m.bits.size ≤ 2 ^ 48

theorem limited_ofSize (n : Nat) : FailsAtIndex (Limited n) (ofSize n) := by
  simp only [ofSize]
  split
  · rename_i hcount
    simp only [Bool.and_eq_true, decide_eq_true_eq] at hcount
    refine .ok ⟨rfl, ?_⟩
    rw [Array.size_replicate]
    omega
  · exact .outOfRange

theorem Limited.mark (h : Limited n m) (a b : Nat) : FailsAtIndex (Limited n) (m.mark a b) := by
  unfold Interference.mark
  split
  · exact .ok ⟨h.size_eq, by simpa using h.size_bits⟩
  · exact .outOfRange

theorem Limited.add (h : Limited n m) (a b : Nat) : FailsAtIndex (Limited n) (m.add a b) := by
  by_cases hab : a = b
  · simp only [Interference.add, enter, if_pos hab]
    exact .ok h
  · have heq : m.add a b = m.mark a b >>= fun m => m.mark b a := by
      simp only [Interference.add, enter, if_neg hab]
      cases m.mark a b with
      | error f => rfl
      | ok m' => cases hb : m'.mark b a <;> simp [bind, Except.bind, hb]
    rw [heq]
    exact (h.mark a b).bind fun m' hm' => hm'.mark b a

/-- A table with fewer bits than pairs has no place for one of them. -/
theorem Limited.exists_place?_eq_none (h : Limited n m) (hn : 2 ^ 48 < n * n) :
    ∃ a b, a < b ∧ b < n ∧ m.place? a b = none := by
  generalize hk : m.bits.size = k
  have hbits : k ≤ 2 ^ 48 := hk ▸ h.size_bits
  have hlarge : 2 ^ 24 < n := by
    by_contra hle
    have := Nat.mul_le_mul (Nat.le_of_not_lt hle) (Nat.le_of_not_lt hle)
    omega
  have hrow : k / n < 2 ^ 24 := by
    apply Nat.div_lt_of_lt_mul
    omega
  have hmod := Nat.mod_lt k (by omega : 0 < n)
  have hsplit := Nat.div_add_mod' k n
  -- the pair after the last bit, or the next one in the row whose locals are in order
  refine ⟨k / n, max (k % n) (k / n + 1), by omega, by omega, ?_⟩
  generalize hp : k / n * n + max (k % n) (k / n + 1) = p
  have hplace : ((k / n : Nat) : Int) * m.size + (max (k % n) (k / n + 1) : Nat) = (p : Int) := by
    rw [h.size_eq, ← hp]
    push_cast
    rfl
  have hbound : p < 2 ^ 63 := by
    rcases Nat.lt_or_ge k n with hlt | hge
    · rw [Nat.div_eq_of_lt hlt] at hp
      omega
    · omega
  have hout : ¬(p : Int) < k := by omega
  have hword : (p : Int).bmod UInt64.size = p := by
    apply Int.bmod_eq_of_le
    · omega
    · rw [UInt64.size]
      omega
  simp only [place?, hplace, hword, hk, hout, decide_false, Bool.and_false, Bool.false_eq_true,
    if_false]

theorem interferes_failsAtIndex (m : Interference) (a b : Nat) :
    FailsAtIndex (fun _ => (m.place? a b).isSome) (m.interferes a b) := by
  unfold interferes bit?
  cases m.place? a b with
  | none => exact .outOfRange
  | some p =>
    simp only [Option.bind_some]
    split
    · exact .ok rfl
    · exact .outOfRange

theorem neighborsFrom_failsAtIndex (m : Interference) (a b count : Nat) :
    FailsAtIndex (fun _ => ∀ u, b ≤ u → u < b + count → (m.place? a u).isSome)
      (m.neighborsFrom a b count) := by
  induction count generalizing b with
  | zero => exact .ok fun u _ _ => by omega
  | succ count ih =>
    refine (m.interferes_failsAtIndex a b).bind fun _ hhere => (ih (b + 1)).bind fun _ hrest =>
      .ok fun u hbu hu => ?_
    rcases Nat.eq_or_lt_of_le hbu with rfl | hlt
    · exact hhere
    · exact hrest u hlt (by omega)

/-- The edges are only listed if every pair has a place. -/
theorem edgesFrom_failsAtIndex (m : Interference) (a count : Nat) :
    FailsAtIndex (fun _ => ∀ x y, a ≤ x → x < y → y < a + count → (m.place? x y).isSome)
      (m.edgesFrom a count) := by
  induction count generalizing a with
  | zero => exact .ok fun x y _ _ _ => by omega
  | succ count ih =>
    refine (m.neighborsFrom_failsAtIndex a (a + 1) count).bind fun _ hrow => (ih (a + 1)).bind
      fun _ hrest => .ok fun x y hx hxy hy => ?_
    rcases Nat.eq_or_lt_of_le hx with rfl | hlt
    · exact hrow y hxy (by omega)
    · exact hrest x y hlt hxy (by omega)

theorem Limited.edges_eq_error (h : Limited n m) (hn : 2 ^ 48 < n * n) :
    m.edges = .error .outOfRange := by
  obtain ⟨a, b, hab, hb, hnone⟩ := h.exists_place?_eq_none hn
  have hrows : m.numLocals = n := by rw [numLocals, h.size_eq, Int.toNat_natCast]
  obtain ⟨hfails, hplaces⟩ := m.edgesFrom_failsAtIndex 0 m.numLocals
  cases hes : m.edges with
  | error f => rw [hfails f hes]
  | ok es =>
    have hsome := hplaces es hes a b (Nat.zero_le a) hab (by omega)
    rw [hnone] at hsome
    cases hsome

end Interference

namespace Overlap

variable {fn : Function} {g : Graph Action} {live : Liveness} {n b v : Nat} {w : Overlap}

def Limited (n : Nat) (w : Overlap) : Prop := w.interference.Limited n

namespace Limited

theorem setValue (h : w.Limited n) (v number : Nat) :
    FailsAtIndex (Limited n) (w.setValue v number) :=
  FailsAtIndex.assign.bind fun _ _ => .ok h

theorem setFresh (h : w.Limited n) (v : Nat) : FailsAtIndex (Limited n) (w.setFresh v) :=
  setValue (w := { w with last := w.last + 1 }) h v _

theorem enterBlock (h : w.Limited n) (into : IndexSet) (zeroed : Nat → Bool) :
    FailsAtIndex (Limited n) (w.enterBlock into zeroed) := by
  refine .foldlM (fun w v hw => ?_) h
  split
  · exact hw.setValue v 0
  · exact hw.setFresh v

theorem renumber (h : w.Limited n) (v : Nat) (copy : Option Nat) :
    FailsAtIndex (Limited n) (w.renumber v copy) := by
  cases copy with
  | none => exact h.setFresh v
  | some source => exact FailsAtIndex.fetch.bind fun number _ => h.setValue v number

theorem collide (h : w.Limited n) (v : Nat) :
    FailsAtIndex (Interference.Limited n) (w.collide v) := by
  refine FailsAtIndex.fetch.bind fun own _ => .foldlM (fun m u hm => ?_) h
  split
  · exact .ok hm
  · refine FailsAtIndex.fetch.bind fun number _ => ?_
    split
    · exact .ok hm
    · exact hm.add u v

theorem step (h : w.Limited n) (a : Action) : FailsAtIndex (Limited n) (w.step a) := by
  unfold Overlap.step
  cases a.access with
  | get =>
    refine .ok ?_
    split
    · exact h
    · exact h
  | set =>
    refine (h.renumber a.index a.copy).bind fun w₁ h₁ => ?_
    split
    · exact (h₁.collide a.index).bind fun m hm => .ok hm
    · exact .ok h₁

theorem walkBlock (h : w.Limited n) (b : Nat) :
    FailsAtIndex (Limited n) (walkBlock fn g live w b) :=
  (h.enterBlock _ _).bind fun _ h₁ => .foldlM (fun _ a hw => hw.step a) h₁

end Limited

theorem limited_start (n : Nat) : FailsAtIndex (Limited n) (start n) :=
  (Interference.limited_ofSize n).bind fun _ hm => .ok hm

end Overlap

namespace Function

variable {fn : Function}

theorem interference_failsAtIndex (fn : Function) (g : Graph Action) (live : Liveness) :
    FailsAtIndex (Interference.Limited fn.numLocals) (fn.interference g live) :=
  (Overlap.limited_start fn.numLocals).bind fun _ hw =>
    (FailsAtIndex.foldlM (fun _ b hw => hw.walkBlock b) hw).bind fun _ hw' => .ok hw'

/-- The edges of a function are only listed if its table has room for all pairs of locals. -/
theorem numLocals_sq_le {g : Graph Action} {live : Liveness} {m : Interference}
    {es : List (Nat × Nat)} (hm : fn.interference g live = .ok m) (hes : m.edges = .ok es) :
    fn.numLocals * fn.numLocals ≤ 2 ^ 48 := by
  by_contra hn
  have hlimited := (fn.interference_failsAtIndex g live).2 m hm
  rw [hlimited.edges_eq_error (Nat.lt_of_not_le hn)] at hes
  cases hes

theorem analyze_eq_bind {g : Graph Action} (hvalid : fn.validate = .ok ())
    (hg : fn.actionGraph = .ok g) :
    fn.analyze = (do
      let m ← fn.interference (g.markRanges g.liveness) g.liveness
      let es ← m.edges
      return ⟨g.markRanges g.liveness, g.liveness, m, es.length⟩) := by
  rw [analyze, hvalid, hg, Except.mapError, ok_bind, ok_bind]

/-- The analysis of a function with too many locals comes to an index that names nothing. -/
theorem analyze_of_oversized {g : Graph Action} (hvalid : fn.validate = .ok ())
    (hg : fn.actionGraph = .ok g) (hn : 2 ^ 48 < fn.numLocals * fn.numLocals) :
    fn.analyze = .error .outOfRange := by
  obtain ⟨hfails, hlimited⟩ := fn.interference_failsAtIndex (g.markRanges g.liveness) g.liveness
  rw [analyze_eq_bind hvalid hg]
  cases hm : fn.interference (g.markRanges g.liveness) g.liveness with
  | error f =>
    rw [hfails f hm]
    rfl
  | ok m =>
    have hedges := (hlimited m hm).edges_eq_error hn
    simp only [bind, Except.bind, hedges]

end Function

end LocalFlow
