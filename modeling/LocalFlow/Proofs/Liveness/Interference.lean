import Mathlib
import LocalFlow.Liveness.Interference
import LocalFlow.Proofs.Outcome

/-! The table of interferences on the locals of a function: every pair has a place of its own, and
entering a pair changes what is said of that pair only. -/

namespace LocalFlow.Interference

variable {n a b c d : Nat} {m m' : Interference}

structure Square (n : Nat) (m : Interference) : Prop where
  size_eq : m.size = n
  size_bits : m.bits.size = n * n

/-- The table with a place of its own for every pair of locals, none of which interfere. -/
def empty (size : Nat) : Interference := ⟨size, Array.replicate (size * size) false⟩

theorem square_empty (n : Nat) : Square n (empty n) := ⟨rfl, by simp [empty]⟩

/-- A size whose square a table can have as the number of its bits gets a place for every pair. -/
theorem ofSize_of_le (hn : n * n ≤ 2 ^ 48) : ofSize n = .ok (empty n) := by
  have hsquare : (n : Int) * n = ((n * n : Nat) : Int) := by push_cast; rfl
  have hcount : ((n : Int) * n).bmod UInt64.size = ((n * n : Nat) : Int) := by
    rw [hsquare]
    apply Int.bmod_eq_of_le
    · omega
    · rw [UInt64.size]
      omega
  simp only [ofSize, hcount, empty, Int.toNat_natCast]
  rw [if_pos (by simp only [Bool.and_eq_true, decide_eq_true_eq]; omega)]

theorem mul_add_lt (ha : a < n) (hb : b < n) : a * n + b < n * n :=
  calc a * n + b < a * n + n := by omega
    _ = (a + 1) * n := by rw [Nat.succ_mul]
    _ ≤ n * n := Nat.mul_le_mul_right n ha

theorem mul_add_inj (hb : b < n) (hd : d < n) : a * n + b = c * n + d ↔ a = c ∧ b = d := by
  constructor
  · intro h
    have hmod : (a * n + b) % n = (c * n + d) % n := by rw [h]
    have hdiv : (a * n + b) / n = (c * n + d) / n := by rw [h]
    have hpos : 0 < n := by omega
    rw [Nat.mul_add_mod_self_right, Nat.mul_add_mod_self_right, Nat.mod_eq_of_lt hb,
      Nat.mod_eq_of_lt hd] at hmod
    rw [Nat.mul_comm a, Nat.mul_comm c, Nat.mul_add_div hpos, Nat.mul_add_div hpos,
      Nat.div_eq_of_lt hb, Nat.div_eq_of_lt hd] at hdiv
    exact ⟨hdiv, hmod⟩
  · rintro ⟨rfl, rfl⟩
    rfl

def Le (n : Nat) (m m' : Interference) : Prop :=
  ∀ ⦃a b⦄, a < n → b < n → m.interferes a b = .ok true → m'.interferes a b = .ok true

theorem Le.refl (n : Nat) (m : Interference) : Le n m m := fun _ _ _ _ h => h

theorem Le.trans {m'' : Interference} (h : Le n m m') (h' : Le n m' m'') : Le n m m'' :=
  fun _ _ ha hb hab => h' ha hb (h ha hb hab)

namespace Square

theorem place?_eq (h : Square n m) (ha : a < n) (hb : b < n) :
    m.place? a b = some (a * n + b) := by
  have hlt := mul_add_lt ha hb
  have heq : (a : Int) * m.size + b = ((a * n + b : Nat) : Int) := by
    rw [h.size_eq]
    push_cast
    rfl
  simp only [place?, heq, h.size_bits]
  rw [if_pos (by simp only [Bool.and_eq_true, decide_eq_true_eq]; omega)]
  rfl

theorem interferes_eq (h : Square n m) (ha : a < n) (hb : b < n) :
    m.interferes a b = .ok (m.bits.getD (a * n + b) false) := by
  have hlt : a * n + b < m.bits.size := h.size_bits ▸ mul_add_lt ha hb
  simp [interferes, bit?, h.place?_eq ha hb, hlt]

theorem mark_eq (h : Square n m) (ha : a < n) (hb : b < n) :
    ∃ m', m.mark a b = .ok m' ∧ Square n m' ∧ ∀ {c d}, c < n → d < n →
      (m'.interferes c d = .ok true ↔ m.interferes c d = .ok true ∨ c = a ∧ d = b) := by
  have hsquare : Square n { m with bits := m.bits.setIfInBounds (a * n + b) true } :=
    ⟨h.size_eq, by simpa using h.size_bits⟩
  refine ⟨_, by rw [mark, h.place?_eq ha hb], hsquare, fun {c d} hc hd => ?_⟩
  have hlt : c * n + d < m.bits.size := h.size_bits ▸ mul_add_lt hc hd
  rw [hsquare.interferes_eq hc hd, h.interferes_eq hc hd]
  by_cases hpair : c = a ∧ d = b
  · obtain ⟨rfl, rfl⟩ := hpair
    simp [hlt]
  · have hplace : a * n + b ≠ c * n + d := fun heq =>
      hpair ((mul_add_inj hb hd).mp heq |>.imp Eq.symm Eq.symm)
    simp [hplace, hlt, hpair]

theorem add_eq (h : Square n m) (ha : a < n) (hb : b < n) :
    ∃ m', m.add a b = .ok m' ∧ Square n m' ∧ ∀ {c d}, c < n → d < n →
      (m'.interferes c d = .ok true ↔
        m.interferes c d = .ok true ∨ a ≠ b ∧ (c = a ∧ d = b ∨ c = b ∧ d = a)) := by
  by_cases hab : a = b
  · exact ⟨m, by simp [add, enter, hab], h, by simp [hab]⟩
  · obtain ⟨m₁, hm₁, h₁, hiff₁⟩ := h.mark_eq ha hb
    obtain ⟨m₂, hm₂, h₂, hiff₂⟩ := h₁.mark_eq hb ha
    refine ⟨m₂, by simp [add, enter, hab, hm₁, hm₂], h₂, fun {c d} hc hd => ?_⟩
    rw [hiff₂ hc hd, hiff₁ hc hd]
    tauto

end Square

theorem interferes_empty (ha : a < n) (hb : b < n) : (empty n).interferes a b = .ok false := by
  rw [(square_empty n).interferes_eq ha hb]
  simp [empty, mul_add_lt ha hb]

end LocalFlow.Interference
