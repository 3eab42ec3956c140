/-!
How many of the numbers below a bound are still to be visited. The count falls with every first
visit, which is why a search over a finite arena or graph ends.
-/

namespace LocalFlow

/-- How many numbers below `n` are not in `seen`. -/
def unvisited (n : Nat) (seen : List Nat) : Nat :=
  (List.range n).countP fun i => i ∉ seen

private theorem countP_lt_countP_of_mem {α : Type} {p q : α → Bool} {l : List α} {x : α}
    (hqp : ∀ y, q y → p y) (hx : x ∈ l) (hp : p x) (hq : q x = false) :
    l.countP q < l.countP p := by
  induction l with
  | nil => simp at hx
  | cons y ys ih =>
    have hle : ys.countP q ≤ ys.countP p := List.countP_mono_left fun z _ => hqp z
    rcases List.mem_cons.mp hx with rfl | hmem
    · simp only [List.countP_cons, hp, hq]
      grind
    · have := ih hmem
      have := hqp y
      simp only [List.countP_cons]
      grind

theorem unvisited_cons_lt {n i : Nat} {seen : List Nat} (hi : i < n) (hs : i ∉ seen) :
    unvisited n (i :: seen) < unvisited n seen := by
  apply countP_lt_countP_of_mem (x := i)
  · intro j
    simp
  · exact List.mem_range.mpr hi
  · simpa using hs
  · simp

theorem unvisited_le_of_subset {n : Nat} {seen more : List Nat} (h : ∀ i ∈ seen, i ∈ more) :
    unvisited n more ≤ unvisited n seen :=
  List.countP_mono_left fun i _ hi => by
    simp only [decide_eq_true_eq] at hi ⊢
    exact fun hs => hi (h i hs)

theorem unvisited_append_lt {n : Nat} {seen new : List Nat} (hne : new ≠ [])
    (hnew : ∀ i ∈ new, i < n ∧ i ∉ seen) : unvisited n (seen ++ new) < unvisited n seen := by
  obtain ⟨i, hi⟩ := List.exists_mem_of_ne_nil new hne
  have hlt := unvisited_cons_lt (hnew i hi).1 (hnew i hi).2
  have hle : unvisited n (seen ++ new) ≤ unvisited n (i :: seen) :=
    unvisited_le_of_subset fun j hj => by
      rcases List.mem_cons.mp hj with rfl | hj
      · exact List.mem_append_right _ hi
      · exact List.mem_append_left _ hj
  omega

end LocalFlow
