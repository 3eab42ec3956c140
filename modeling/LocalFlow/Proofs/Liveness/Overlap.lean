import LocalFlow.Liveness.Overlap
import LocalFlow.Proofs.Liveness.Execution
import LocalFlow.Proofs.Liveness.Interference

/-! Walking over a block. Locals that have the same number hold the same value, whatever values the
block starts with and its actions write, and a write that is read later on interferes with every
live local that may hold another value. -/

namespace LocalFlow.Overlap

variable {β : Type} {zero x : β} {known : Nat → Prop} {σ σ' : Nat → β} {w w' : Overlap}
  {n u v k last : Nat} {a : Action} {inn out : IndexSet} {done rest : List Action}

/-- Known locals with the same number hold the same value, and those with number zero hold zero. -/
structure Numbers (zero : β) (known : Nat → Prop) (σ : Nat → β) (w : Overlap) : Prop where
  numbered : ∀ {v}, known v → ∃ k ≤ w.last, w.values[v]? = some k
  equal : ∀ {u v}, known u → known v → w.values[u]? = w.values[v]? → σ u = σ v
  eq_zero : ∀ {v}, known v → w.values[v]? = some 0 → σ v = zero

/-- Local `v` gets the value `x` and a number that says so. -/
theorem Numbers.assign (h : Numbers zero known σ w) (hv : v < w.values.size) (hlast : w.last ≤ last)
    (hk : k ≤ last) (hsame : ∀ {u}, known u → w.values[u]? = some k → σ u = x)
    (hzero : k = 0 → x = zero) :
    Numbers zero (fun u => known u ∨ u = v) (Function.update σ v x)
      { w with last, values := w.values.setIfInBounds v k } := by
  have hget : ∀ u, (w.values.setIfInBounds v k)[u]? = if u = v then some k else w.values[u]? := by
    intro u
    rw [Array.getElem?_setIfInBounds]
    by_cases huv : u = v
    · simp [huv, hv]
    · simp [huv, Ne.symm huv]
  refine ⟨fun {u} hu => ?_, fun {u u'} hu hu' heq => ?_, fun {u} hu hnum => ?_⟩
  · rw [hget]
    split
    · exact ⟨k, hk, rfl⟩
    · rename_i huv
      obtain ⟨j, hj, hnum⟩ := h.numbered (hu.resolve_right huv)
      exact ⟨j, Nat.le_trans hj hlast, hnum⟩
  · rw [hget, hget] at heq
    by_cases huv : u = v <;> by_cases huv' : u' = v
    · rw [huv, huv']
    · rw [if_pos huv, if_neg huv'] at heq
      rw [huv, Function.update_self, Function.update_of_ne huv']
      exact (hsame (hu'.resolve_right huv') heq.symm).symm
    · rw [if_neg huv, if_pos huv'] at heq
      rw [huv', Function.update_self, Function.update_of_ne huv]
      exact hsame (hu.resolve_right huv) heq
    · rw [if_neg huv, if_neg huv'] at heq
      rw [Function.update_of_ne huv, Function.update_of_ne huv']
      exact h.equal (hu.resolve_right huv) (hu'.resolve_right huv') heq
  · rw [hget] at hnum
    split at hnum
    · rename_i huv
      rw [huv, Function.update_self]
      exact hzero (Option.some.inj hnum)
    · rename_i huv
      rw [Function.update_of_ne huv]
      exact h.eq_zero (hu.resolve_right huv) hnum

theorem setFresh_eq_ok (h : w.setFresh v = .ok w') :
    v < w.values.size ∧
      w' = { w with last := w.last + 1, values := w.values.setIfInBounds v (w.last + 1) } := by
  obtain ⟨values, hvalues, h⟩ := bind_eq_ok.mp h
  cases h
  obtain ⟨hv, rfl⟩ := assign_eq_ok.mp hvalues
  exact ⟨hv, rfl⟩

theorem setValue_eq_ok (h : w.setValue v k = .ok w') :
    v < w.values.size ∧ w' = { w with values := w.values.setIfInBounds v k } := by
  obtain ⟨values, hvalues, h⟩ := bind_eq_ok.mp h
  cases h
  obtain ⟨hv, rfl⟩ := assign_eq_ok.mp hvalues
  exact ⟨hv, rfl⟩

theorem Numbers.setFresh (h : Numbers zero known σ w) (hw : w.setFresh v = .ok w') (x : β) :
    Numbers zero (fun u => known u ∨ u = v) (Function.update σ v x) w' := by
  obtain ⟨hv, rfl⟩ := setFresh_eq_ok hw
  refine h.assign hv (Nat.le_succ _) (Nat.le_refl _) (fun {u} hu hnum => ?_) (by simp)
  obtain ⟨k, hk, hnum'⟩ := h.numbered hu
  have : k = w.last + 1 := Option.some.inj (hnum'.symm.trans hnum)
  omega

/-- A write gives its local a number for the value that it writes. -/
theorem Numbers.renumber (h : Numbers zero known σ w) (hset : a.access = .set)
    (hw : w.renumber a.index a.copy = .ok w') (hcopy : ∀ source, a.copy = some source → known source)
    (hperforms : a.Performs σ σ') : Numbers zero (fun u => known u ∨ u = a.index) σ' w' := by
  unfold Overlap.renumber at hw
  split at hw
  · rename_i source hsource
    obtain ⟨k, hk, hw⟩ := bind_eq_ok.mp hw
    obtain ⟨hv, rfl⟩ := setValue_eq_ok hw
    simp only [Action.Performs, hset, hsource] at hperforms
    subst hperforms
    have hknown := hcopy source hsource
    rw [fetch_eq_ok] at hk
    obtain ⟨k', hle, hk'⟩ := h.numbered hknown
    obtain rfl : k' = k := Option.some.inj (hk'.symm.trans hk)
    refine h.assign hv (Nat.le_refl _) hle (fun {u} hu hnum => ?_) fun hzero => ?_
    · exact h.equal hu hknown (hnum.trans hk.symm)
    · exact h.eq_zero hknown (hzero ▸ hk)
  · rename_i hnone
    simp only [Action.Performs, hset, hnone] at hperforms
    obtain ⟨x, rfl⟩ := hperforms
    exact h.setFresh hw x

theorem renumber_frame {copy : Option Nat} (hw : w.renumber v copy = .ok w') :
    v < w.values.size ∧ w'.live = w.live ∧ w'.interference = w.interference ∧
      w'.values.size = w.values.size := by
  unfold renumber at hw
  split at hw
  · obtain ⟨k, -, hw⟩ := bind_eq_ok.mp hw
    obtain ⟨hv, rfl⟩ := setValue_eq_ok hw
    simpa using hv
  · obtain ⟨hv, rfl⟩ := setFresh_eq_ok hw
    simpa using hv

/-- Every local that is live on entry gets a number: zero if it is known to be zero, and otherwise
one that no other local has. -/
theorem Numbers.enter {vs : List Nat} {zeroed : Nat → Bool} (h : Numbers zero known σ w)
    (hzeroed : ∀ v, zeroed v = true → σ v = zero)
    (hw : vs.foldlM (fun w v => if zeroed v then w.setValue v 0 else w.setFresh v) w = .ok w') :
    Numbers zero (fun v => known v ∨ v ∈ vs) σ w' ∧ w'.live = w.live ∧
      w'.interference = w.interference ∧ w'.values.size = w.values.size := by
  induction vs generalizing w known with
  | nil =>
    cases hw
    simpa using h
  | cons v vs ih =>
    rw [List.foldlM_cons] at hw
    obtain ⟨w₁, hw₁, hw⟩ := bind_eq_ok.mp hw
    have hstep : Numbers zero (fun u => known u ∨ u = v) σ w₁ ∧ w₁.live = w.live ∧
        w₁.interference = w.interference ∧ w₁.values.size = w.values.size := by
      rw [← Function.update_eq_self v σ]
      split at hw₁
      · rename_i hv
        obtain ⟨hlt, rfl⟩ := setValue_eq_ok hw₁
        have hx := hzeroed v hv
        refine ⟨h.assign hlt (Nat.le_refl _) (Nat.zero_le _) (fun hu hnum => ?_) fun _ => hx, ?_⟩
        · rw [hx, h.eq_zero hu hnum]
        · simp
      · refine ⟨h.setFresh hw₁ _, ?_⟩
        obtain ⟨-, rfl⟩ := setFresh_eq_ok hw₁
        simp
    obtain ⟨hnumbers, hlive, hinter, hsize⟩ := ih hstep.1 hw
    refine ⟨?_, hlive.trans hstep.2.1, hinter.trans hstep.2.2.1, hsize.trans hstep.2.2.2⟩
    simpa only [List.mem_cons, or_assoc] using hnumbers

theorem enterBlock_spec {live : IndexSet} {zeroed : Nat → Bool}
    (hzeroed : ∀ v, zeroed v = true → σ v = zero) (hw : w.enterBlock live zeroed = .ok w') :
    Numbers zero (fun v => v ∈ live) σ w' ∧ w'.live = live ∧ w'.interference = w.interference ∧
      w'.values.size = w.values.size := by
  have hnone : Numbers zero (fun _ => False) σ { w with live } := ⟨False.elim, False.elim, False.elim⟩
  obtain ⟨hnumbers, hrest⟩ := hnone.enter hzeroed hw
  exact ⟨by simpa only [false_or, IndexSet.mem_toList] using hnumbers, hrest⟩

structure Fits (n : Nat) (w : Overlap) : Prop where
  size_values : w.values.size = n
  square : w.interference.Square n

/-- A collision enters `v` with every live local of another number, and no other pairs. -/
theorem collide_exact {m : Interference} (h : Fits n w) (hv : v < n) (hm : w.collide v = .ok m) :
    m.Square n ∧ (∀ u ∈ w.live, u < n) ∧ ∀ {c d}, c < n → d < n →
      (m.interferes c d = .ok true ↔ w.interference.interferes c d = .ok true ∨
        ∃ u ∈ w.live, u ≠ v ∧ w.values[u]? ≠ w.values[v]? ∧ (c = u ∧ d = v ∨ c = v ∧ d = u)) := by
  obtain ⟨own, hown, hm⟩ := bind_eq_ok.mp hm
  rw [fetch_eq_ok] at hown
  simp only [hown, ← IndexSet.mem_toList]
  have hsquare := h.square
  generalize w.interference = start at hm hsquare ⊢
  generalize w.live.toList = us at hm ⊢
  induction us generalizing start with
  | nil =>
    cases hm
    exact ⟨hsquare, by simp, by simp⟩
  | cons u us ih =>
    rw [List.foldlM_cons] at hm
    obtain ⟨m₁, hm₁, hm⟩ := bind_eq_ok.mp hm
    have hfirst : m₁.Square n ∧ u < n ∧ ∀ {c d}, c < n → d < n → (m₁.interferes c d = .ok true ↔
        start.interferes c d = .ok true ∨ u ≠ v ∧ w.values[u]? ≠ some own ∧
          (c = u ∧ d = v ∨ c = v ∧ d = u)) := by
      split at hm₁
      · rename_i huv
        cases hm₁
        exact ⟨hsquare, huv ▸ hv, by simp [huv]⟩
      · rename_i huv
        obtain ⟨number, hnumber, hm₁⟩ := bind_eq_ok.mp hm₁
        rw [fetch_eq_ok] at hnumber
        have hu : u < n := h.size_values ▸ (Array.getElem?_eq_some_iff.mp hnumber).1
        split at hm₁
        · rename_i hsame
          cases hm₁
          exact ⟨hsquare, hu, by simp [hnumber, hsame]⟩
        · rename_i hother
          obtain ⟨m₂, hm₂, hsquare₂, hiff⟩ := hsquare.add_eq hu hv
          obtain rfl : m₂ = m₁ := Except.ok.inj (hm₂.symm.trans hm₁)
          have hne : w.values[u]? ≠ some own := by simpa [hnumber] using hother
          exact ⟨hsquare₂, hu, fun hc hd => by simp [hiff hc hd, hne]⟩
    obtain ⟨hsquare₁, hu, hiff₁⟩ := hfirst
    obtain ⟨hsquare₂, hus, hiff₂⟩ := ih m₁ hsquare₁ hm
    refine ⟨hsquare₂, by simpa using ⟨hu, hus⟩, fun hc hd => ?_⟩
    rw [hiff₂ hc hd, hiff₁ hc hd]
    simp only [List.mem_cons, or_and_right, exists_or, exists_eq_left, or_assoc]

/-- After a collision every live local has the number of `v` or interferes with it. -/
theorem collide_spec {m : Interference} (h : Fits n w) (hv : v < n) (hm : w.collide v = .ok m) :
    m.Square n ∧ w.interference.Le n m ∧ ∀ u ∈ w.live, u ≠ v →
      w.values[u]? = w.values[v]? ∨ m.interferes u v = .ok true ∧ m.interferes v u = .ok true := by
  obtain ⟨hsquare, hlt, hiff⟩ := collide_exact h hv hm
  refine ⟨hsquare, fun c d hc hd hcd => (hiff hc hd).mpr (.inl hcd), fun u hu huv => ?_⟩
  by_cases hsame : w.values[u]? = w.values[v]?
  · exact .inl hsame
  · have hun := hlt u hu
    refine .inr ⟨(hiff hun hv).mpr (.inr ⟨u, hu, huv, hsame, .inl ⟨rfl, rfl⟩⟩), ?_⟩
    exact (hiff hv hun).mpr (.inr ⟨u, hu, huv, hsame, .inr ⟨rfl, rfl⟩⟩)

theorem mem_through_get (hget : a.access = .get) :
    v ∈ Liveness.through (a :: rest) out ↔ v = a.index ∨ v ∈ Liveness.through rest out := by
  rw [Liveness.through, List.foldr_cons, Action.before, hget]
  exact IndexSet.mem_insert

theorem mem_through_set (hset : a.access = .set) :
    v ∈ Liveness.through (a :: rest) out ↔ v ∈ Liveness.through rest out ∧ v ≠ a.index := by
  rw [Liveness.through, List.foldr_cons, Action.before, hset]
  exact IndexSet.mem_erase

theorem step_fits (h : Fits n w) (hw : w.step a = .ok w') :
    Fits n w' ∧ w.interference.Le n w'.interference := by
  cases haccess : a.access with
  | get =>
    simp only [step, haccess, Except.ok.injEq] at hw
    split at hw <;> subst hw <;>
      exact ⟨⟨h.size_values, h.square⟩, Interference.Le.refl n _⟩
  | set =>
    simp only [step, haccess] at hw
    obtain ⟨w₁, hw₁, hw⟩ := bind_eq_ok.mp hw
    obtain ⟨hlt, -, hinter, hsize⟩ := renumber_frame hw₁
    have hfits : w₁.Fits n := ⟨hsize.trans h.size_values, hinter ▸ h.square⟩
    split at hw
    · obtain ⟨m, hm, hw⟩ := bind_eq_ok.mp hw
      cases hw
      obtain ⟨hsquare, hle, -⟩ := collide_spec hfits (h.size_values ▸ hlt) hm
      exact ⟨⟨hfits.size_values, hsquare⟩, hinter ▸ hle⟩
    · cases hw
      exact ⟨hfits, hinter ▸ Interference.Le.refl n _⟩

theorem foldlM_step_fits {actions : List Action} (h : Fits n w)
    (hw : actions.foldlM step w = .ok w') : Fits n w' ∧ w.interference.Le n w'.interference := by
  induction actions generalizing w with
  | nil =>
    cases hw
    exact ⟨h, Interference.Le.refl n _⟩
  | cons a actions ih =>
    rw [List.foldlM_cons] at hw
    obtain ⟨w₁, hw₁, hw⟩ := bind_eq_ok.mp hw
    obtain ⟨hfits, hle⟩ := step_fits h hw₁
    obtain ⟨hfits', hle'⟩ := ih hfits hw
    exact ⟨hfits', hle.trans hle'⟩

/-- A local that is live on entry to a block or named by one of the actions done so far. -/
def Known (inn : IndexSet) (done : List Action) (v : Nat) : Prop :=
  v ∈ inn ∨ ∃ a ∈ done, a.index = v

theorem known_append_singleton : Known inn (done ++ [a]) v ↔ Known inn done v ∨ v = a.index := by
  simp [Known, or_and_right, exists_or, or_assoc, eq_comm]

/-- The walk has come to the actions in `rest`, after those in `done`. Its live locals are at least
those that are live there, and each of them has a number for the value that it holds. -/
structure Tracks (zero : β) (n : Nat) (inn out : IndexSet) (done rest : List Action) (σ : Nat → β)
    (w : Overlap) : Prop where
  fits : w.Fits n
  numbers : Numbers zero (Known inn done) σ w
  live_of_mem : ∀ {v}, v ∈ Liveness.through rest out → v ∈ w.live
  known_of_live : ∀ {v}, v ∈ w.live → Known inn done v

theorem Numbers.mono {known' : Nat → Prop} (h : Numbers zero known σ w)
    (himp : ∀ v, known' v → known v) : Numbers zero known' σ w :=
  ⟨fun hv => h.numbered (himp _ hv), fun hu hv => h.equal (himp _ hu) (himp _ hv),
    fun hv => h.eq_zero (himp _ hv)⟩

theorem Numbers.frame (h : Numbers zero known σ w) (hvalues : w'.values = w.values)
    (hlast : w'.last = w.last) : Numbers zero known σ w' := by
  obtain ⟨hnumbered, hequal, hzero⟩ := h
  rw [← hvalues] at hnumbered hequal hzero
  rw [← hlast] at hnumbered
  exact ⟨hnumbered, hequal, hzero⟩

/-- A read changes no value, and ends a range if no other read follows. -/
theorem Tracks.get (h : Tracks zero n inn out done (a :: rest) σ w) (hget : a.access = .get)
    (hflags : Action.Flagged out (a :: rest)) (hw : w.step a = .ok w') :
    Tracks zero n inn out (done ++ [a]) rest σ w' := by
  have hfits := (step_fits h.fits hw).1
  have hread : Known inn done a.index :=
    h.known_of_live (h.live_of_mem ((mem_through_get hget).mpr (.inl rfl)))
  have hknown : ∀ v, Known inn (done ++ [a]) v ↔ Known inn done v := by
    intro v
    rw [known_append_singleton, or_iff_left_of_imp]
    rintro rfl
    exact hread
  have hnumbers := h.numbers.mono fun v => (hknown v).mp
  have hlive : ∀ v ∈ Liveness.through rest out, v ∈ w.live := fun v hv =>
    h.live_of_mem ((mem_through_get hget).mpr (.inr hv))
  simp only [step, hget, Except.ok.injEq] at hw
  split at hw
  · rename_i hlast
    subst hw
    have hdead := (hflags.2.1 hget).mp hlast
    refine ⟨hfits, hnumbers.frame rfl rfl, fun {v} hv => IndexSet.mem_erase.mpr ⟨hlive v hv, ?_⟩,
      fun {v} hv => (hknown v).mpr (h.known_of_live (IndexSet.mem_erase.mp hv).1)⟩
    rintro rfl
    exact hdead hv
  · subst hw
    exact ⟨hfits, hnumbers, fun {v} hv => hlive v hv,
      fun {v} hv => (hknown v).mpr (h.known_of_live hv)⟩

/-- A write that is read later on holds the same value as every other live local, or interferes with
it. -/
theorem Tracks.set (h : Tracks zero n inn out done (a :: rest) σ w) (hset : a.access = .set)
    (hflags : Action.Flagged out (a :: rest)) (hw : w.step a = .ok w')
    (hcopy : ∀ source, a.copy = some source → Known inn done source)
    (hperforms : a.Performs σ σ') :
    Tracks zero n inn out (done ++ [a]) rest σ' w' ∧
      (a.index ∈ Liveness.through rest out → ∀ u ∈ Liveness.through rest out, u ≠ a.index →
        σ' u = σ' a.index ∨ w'.interference.interferes u a.index = .ok true ∧
          w'.interference.interferes a.index u = .ok true) := by
  have hfits := (step_fits h.fits hw).1
  simp only [step, hset] at hw
  obtain ⟨w₁, hw₁, hw⟩ := bind_eq_ok.mp hw
  have hnumbers := (h.numbers.renumber hset hw₁ hcopy hperforms).mono fun v =>
    known_append_singleton.mp
  obtain ⟨hlt, hlive, hinter, hsize⟩ := renumber_frame hw₁
  have hself : Known inn (done ++ [a]) a.index := known_append_singleton.mpr (.inr rfl)
  have hknown : ∀ v ∈ w₁.live, Known inn (done ++ [a]) v := fun v hv =>
    known_append_singleton.mpr (.inl (h.known_of_live (hlive ▸ hv)))
  have hother : ∀ v ∈ Liveness.through rest out, v ≠ a.index → v ∈ w₁.live := fun v hv hne =>
    hlive ▸ h.live_of_mem ((mem_through_set hset).mpr ⟨hv, hne⟩)
  split at hw
  · obtain ⟨m, hm, hw⟩ := bind_eq_ok.mp hw
    cases hw
    have hfits₁ : w₁.Fits n := ⟨hsize.trans h.fits.size_values, hinter ▸ h.fits.square⟩
    obtain ⟨-, -, hcollide⟩ := collide_spec hfits₁ (h.fits.size_values ▸ hlt) hm
    refine ⟨⟨hfits, hnumbers.frame rfl rfl, fun {v} hv => ?_, fun {v} hv => ?_⟩,
      fun _ u hu hne => ?_⟩
    · rw [IndexSet.mem_insert]
      by_cases hne : v = a.index
      · exact .inl hne
      · exact .inr (hother v hv hne)
    · rcases IndexSet.mem_insert.mp hv with rfl | hv
      · exact hself
      · exact hknown v hv
    · have hu := hother u hu hne
      exact (hcollide u hu hne).imp_left (hnumbers.equal (hknown u hu) hself)
  · rename_i hineffective
    cases hw
    have hdead : a.index ∉ Liveness.through rest out := fun hmem =>
      hineffective ((hflags.1 hset).mpr hmem)
    refine ⟨⟨hfits, hnumbers, fun {v} hv => hother v hv ?_, fun {v} hv => hknown v hv⟩,
      fun hmem => absurd hmem hdead⟩
    rintro rfl
    exact hdead hv

/-- Every copy comes after an action that names its source. -/
def SourcesNamed (actions : List Action) : Prop :=
  ∀ done a rest source, actions = done ++ a :: rest → a.access = .set → a.copy = some source →
    ∃ x ∈ done, x.index = source

/-- Two locals that do not interfere hold the same value wherever both are live, if they do so where
the walk begins. -/
theorem Tracks.agree {pre post : List Action} {m : Interference} {wF : Overlap}
    (h : Tracks zero n inn out done (pre ++ post) σ w) (hflags : Action.Flagged out (pre ++ post))
    (hsources : SourcesNamed (done ++ (pre ++ post))) (hw : (pre ++ post).foldlM step w = .ok wF)
    (hm : wF.interference.Le n m) (hu : u < n) (hv : v < n) (huv : u ≠ v)
    (hnot : m.interferes u v ≠ .ok true) (hexec : Action.Executes pre σ σ')
    (hstart : u ∈ Liveness.through (pre ++ post) out → v ∈ Liveness.through (pre ++ post) out →
      σ u = σ v) (hlu : u ∈ Liveness.through post out) (hlv : v ∈ Liveness.through post out) :
    σ' u = σ' v := by
  induction pre generalizing done σ w with
  | nil =>
    cases hexec
    exact hstart hlu hlv
  | cons a pre ih =>
    cases hexec with
    | cons hperforms hexec =>
    rename_i σ₁
    rw [List.cons_append, List.foldlM_cons] at hw
    obtain ⟨w₁, hw₁, hw⟩ := bind_eq_ok.mp hw
    have hsources' : SourcesNamed (done ++ [a] ++ (pre ++ post)) := by
      rwa [List.append_assoc]
    cases haccess : a.access with
    | get =>
      have hsame := hperforms.eq_of_get haccess
      subst hsame
      have htracks := h.get haccess hflags hw₁
      refine ih htracks hflags.2.2 hsources' hw hexec fun hlu hlv => ?_
      exact hstart ((mem_through_get haccess).mpr (.inr hlu)) ((mem_through_get haccess).mpr (.inr hlv))
    | set =>
      have hcopy : ∀ source, a.copy = some source → Known inn done source := fun source hsource =>
        .inr (hsources done a (pre ++ post) source rfl haccess hsource)
      obtain ⟨htracks, hcollide⟩ := h.set haccess hflags hw₁ hcopy hperforms
      have hle := (foldlM_step_fits htracks.fits hw).2.trans hm
      refine ih htracks hflags.2.2 hsources' hw hexec fun hlu hlv => ?_
      by_cases hau : u = a.index
      · subst hau
        rcases hcollide hlu v hlv huv.symm with heq | ⟨-, hboth⟩
        · exact heq.symm
        · exact absurd (hle hu hv hboth) hnot
      · by_cases hav : v = a.index
        · subst hav
          rcases hcollide hlv u hlu huv with heq | ⟨hboth, -⟩
          · exact heq
          · exact absurd (hle hu hv hboth) hnot
        · rw [hperforms.eq_of_ne hau, hperforms.eq_of_ne hav]
          exact hstart ((mem_through_set haccess).mpr ⟨hlu, hau⟩)
            ((mem_through_set haccess).mpr ⟨hlv, hav⟩)

end LocalFlow.Overlap
