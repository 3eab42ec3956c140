import LocalFlow.Failure

/-! Computations that may fail: what it takes for their parts to succeed together. -/

namespace LocalFlow

variable {ε α β : Type}

theorem bind_eq_ok {x : Except ε α} {f : α → Except ε β} {b : β} :
    (x >>= f) = .ok b ↔ ∃ a, x = .ok a ∧ f a = .ok b := by
  cases x with
  | error e => simp [bind, Except.bind]
  | ok a => simp [bind, Except.bind]

theorem ok_bind (a : α) (f : α → Except ε β) : (Except.ok a >>= f) = f a := rfl

/-- Steps that correspond under a map of their results correspond in sequence. -/
theorem bind_eq_map {α' β' : Type} {x : Except ε α} {x' : Except ε α'} {f : α → Except ε β}
    {f' : α' → Except ε β'} {p : α → α'} {q : β → β'} (hx : x' = x.map p)
    (hf : ∀ a, x = .ok a → f' (p a) = (f a).map q) : (x' >>= f') = (x >>= f).map q := by
  subst hx
  cases x with
  | error e => rfl
  | ok a => exact hf a rfl

theorem mapError_eq_ok {ε' : Type} {f : ε → ε'} {x : Except ε α} {a : α} :
    x.mapError f = .ok a ↔ x = .ok a := by
  cases x with
  | error e => exact ⟨nofun, nofun⟩
  | ok b => exact ⟨fun h => by cases h; rfl, fun h => by cases h; rfl⟩

theorem fetch_eq_ok {xs : Array α} {i : Nat} {x : α} : fetch xs i = .ok x ↔ xs[i]? = some x := by
  unfold fetch
  split
  · simp_all
  · simp_all

theorem assign_eq_ok {xs ys : Array α} {i : Nat} {x : α} :
    assign xs i x = .ok ys ↔ i < xs.size ∧ ys = xs.setIfInBounds i x := by
  unfold assign
  split
  · simp [*, eq_comm]
  · simp [*]

theorem found_eq_ok {x : Option α} {a : α} : found x = .ok a ↔ x = some a := by
  cases x with
  | none => simp [found]
  | some b => simp [found]

theorem foldlM_cons_eq_ok {step : α → β → Except ε α} {x : β} {xs : List β} {a b : α} :
    (x :: xs).foldlM step a = .ok b ↔ ∃ a', step a x = .ok a' ∧ xs.foldlM step a' = .ok b := by
  rw [List.foldlM_cons, bind_eq_ok]

theorem foldlM_keeps {step : α → β → Except ε α} {P : α → Prop} {xs : List β} {a b : α}
    (hstep : ∀ x ∈ xs, ∀ a a', step a x = .ok a' → P a → P a') (h : xs.foldlM step a = .ok b)
    (ha : P a) : P b := by
  induction xs generalizing a with
  | nil =>
    cases h
    exact ha
  | cons x xs ih =>
    obtain ⟨a', hx, hxs⟩ := foldlM_cons_eq_ok.mp h
    exact ih (fun y hy => hstep y (.tail _ hy)) hxs (hstep x (.head _) a a' hx ha)

/-- A fold whose steps succeed as long as an invariant holds, and keep it, succeeds. -/
theorem foldlM_total {step : α → β → Except ε α} {invariant : α → Prop} {xs : List β} {a : α}
    (hstep : ∀ x ∈ xs, ∀ a, invariant a → ∃ a', step a x = .ok a' ∧ invariant a')
    (ha : invariant a) : ∃ a', xs.foldlM step a = .ok a' ∧ invariant a' := by
  induction xs generalizing a with
  | nil => exact ⟨a, rfl, ha⟩
  | cons x xs ih =>
    obtain ⟨a₁, hx, ha₁⟩ := hstep x (by simp) a ha
    obtain ⟨a', hxs, ha'⟩ := ih (fun y hy => hstep y (.tail _ hy)) ha₁
    exact ⟨a', by rw [List.foldlM_cons, hx]; exact hxs, ha'⟩

theorem mapM_eq_map {step : α → Except ε β} {plain : α → β} {xs : List α}
    (hstep : ∀ x ∈ xs, step x = .ok (plain x)) : xs.mapM step = .ok (xs.map plain) := by
  induction xs with
  | nil => rfl
  | cons x xs ih =>
    rw [List.mapM_cons, hstep x (by simp), ih fun y hy => hstep y (.tail _ hy)]
    rfl

theorem exists_mapM {step : α → Except ε β} {xs : List α} (h : ∀ x ∈ xs, ∃ y, step x = .ok y) :
    ∃ ys, xs.mapM step = .ok ys := by
  induction xs with
  | nil => exact ⟨[], rfl⟩
  | cons x xs ih =>
    obtain ⟨y, hx⟩ := h x (.head _)
    obtain ⟨ys, hxs⟩ := ih fun x hx => h x (.tail _ hx)
    refine ⟨y :: ys, ?_⟩
    rw [List.mapM_cons, hx, hxs]
    rfl

theorem getElem?_of_mapM {step : α → Except ε β} {xs : List α} {ys : List β} {i : Nat} {x : α}
    (h : xs.mapM step = .ok ys) (hx : xs[i]? = some x) : ∃ y, ys[i]? = some y ∧ step x = .ok y := by
  induction xs generalizing ys i with
  | nil => simp at hx
  | cons x₀ xs ih =>
    rw [List.mapM_cons] at h
    obtain ⟨y₀, hx₀, h⟩ := bind_eq_ok.mp h
    obtain ⟨ys₀, hxs, h⟩ := bind_eq_ok.mp h
    cases h
    cases i with
    | zero =>
      cases hx
      exact ⟨y₀, rfl, hx₀⟩
    | succ i =>
      rw [List.getElem?_cons_succ] at hx ⊢
      exact ih hxs hx

theorem exists_of_mapM {step : α → Except ε β} {xs : List α} {ys : List β}
    (h : xs.mapM step = .ok ys) : ∀ x ∈ xs, ∃ y, step x = .ok y := by
  intro x hx
  obtain ⟨i, hi⟩ := List.mem_iff_getElem?.mp hx
  obtain ⟨y, -, hy⟩ := getElem?_of_mapM h hi
  exact ⟨y, hy⟩

theorem exists_mapM_fetch {xs : Array α} {is : List Nat} (h : ∀ i ∈ is, i < xs.size) :
    ∃ ys, is.mapM (fetch xs) = .ok ys :=
  exists_mapM fun i hi => ⟨_, fetch_eq_ok.mpr (Array.getElem?_eq_getElem (h i hi))⟩

theorem forM_eq_ok {step : α → Except ε PUnit} {xs : List α} :
    forM xs step = .ok () ↔ ∀ x ∈ xs, step x = .ok () := by
  induction xs with
  | nil => simp [pure, Except.pure]
  | cons x xs ih =>
    rw [List.forM_cons, bind_eq_ok, List.forall_mem_cons, ← ih]
    constructor
    · rintro ⟨_, hx, hxs⟩
      exact ⟨hx, hxs⟩
    · rintro ⟨hx, hxs⟩
      exact ⟨(), hx, hxs⟩

/-- The first step that fails is the one that is reported. -/
theorem forM_eq_error {step : α → Except ε PUnit} {xs : List α} {e : ε} :
    forM xs step = .error e ↔ ∃ before x rest, xs = before ++ x :: rest ∧
      (∀ y ∈ before, step y = .ok ()) ∧ step x = .error e := by
  induction xs with
  | nil => simp [pure, Except.pure]
  | cons x xs ih =>
    rw [List.forM_cons]
    cases hx : step x with
    | error e' =>
      constructor
      · intro h
        cases h
        exact ⟨[], x, xs, rfl, by simp, hx⟩
      · rintro ⟨before, y, rest, heq, hbefore, hy⟩
        cases before with
        | nil =>
          cases heq
          exact hx.symm.trans hy
        | cons z before =>
          cases heq
          cases hx.symm.trans (hbefore x (.head _))
    | ok =>
      rw [ok_bind, ih]
      constructor
      · rintro ⟨before, y, rest, rfl, hbefore, hy⟩
        refine ⟨x :: before, y, rest, rfl, fun z hz => ?_, hy⟩
        rcases List.mem_cons.mp hz with rfl | hz
        · exact hx
        · exact hbefore z hz
      · rintro ⟨before, y, rest, heq, hbefore, hy⟩
        cases before with
        | nil =>
          cases heq
          cases hx.symm.trans hy
        | cons z before =>
          cases heq
          exact ⟨before, y, rest, rfl, fun w hw => hbefore w (.tail _ hw), hy⟩

end LocalFlow
