import Mathlib
import LocalFlow.Proofs.Liveness.Flags
import LocalFlow.Proofs.Liveness.Totality

/-! Interference lies between two bounds. A write of a new value interferes with every other local that
is live after it, since the two may then hold different values. In turn two locals interfere only if a
write of one of them leaves both live: while it walks over a block, the flags keep the walk's own live
locals equal to those that are live. -/

namespace LocalFlow

open LocalFlow.Graph

/-- The action writes one of two locals that are both among the live ones. -/
structure Action.Parts (x : Action) (live : IndexSet) (c d : Nat) : Prop where
  isSet : x.access = .set
  ne : c ≠ d
  writes : x.index = c ∨ x.index = d
  live_left : c ∈ live
  live_right : d ∈ live

namespace Overlap

variable {fn : Function} {g : Graph Action} {live : Liveness} {m : Interference} {w w' : Overlap}
  {n b c d : Nat} {a : Action} {out : IndexSet} {rest : List Action} {blocks : List Nat}

/-- The flags say how to get from the locals live before an action to those live after it. -/
theorem step_live (hflags : Action.Flagged out (a :: rest))
    (hlive : ∀ v, v ∈ w.live ↔ v ∈ Liveness.through (a :: rest) out) (hw : w.step a = .ok w') (v : Nat) :
    v ∈ w'.live ↔ v ∈ Liveness.through rest out := by
  cases haccess : a.access with
  | get =>
    have hlast := hflags.2.1 haccess
    simp only [mem_through_get haccess] at hlive
    simp only [step, haccess, Except.ok.injEq] at hw
    split at hw
    · rename_i hends
      subst hw
      have hdead := hlast.mp hends
      rw [IndexSet.mem_erase, hlive]
      grind
    · rename_i hgoes
      subst hw
      have hread : a.index ∈ Liveness.through rest out := not_not.mp (mt hlast.mpr hgoes)
      rw [hlive]
      grind
  | set =>
    have heffective := hflags.1 haccess
    simp only [mem_through_set haccess] at hlive
    simp only [step, haccess] at hw
    obtain ⟨w₁, hw₁, hw⟩ := bind_eq_ok.mp hw
    obtain ⟨-, hsame, -⟩ := renumber_frame hw₁
    split at hw
    · rename_i hflag
      obtain ⟨m, -, hw⟩ := bind_eq_ok.mp hw
      cases hw
      have hread := heffective.mp hflag
      rw [IndexSet.mem_insert, hsame, hlive]
      grind
    · rename_i hflag
      cases hw
      have hdead := mt heffective.mpr hflag
      rw [hsame, hlive]
      grind

theorem step_parts (h : Fits n w) (hflags : Action.Flagged out (a :: rest))
    (hlive : ∀ v, v ∈ w.live ↔ v ∈ Liveness.through (a :: rest) out) (hw : w.step a = .ok w')
    (hc : c < n) (hd : d < n) (hcd : w'.interference.interferes c d = .ok true) :
    w.interference.interferes c d = .ok true ∨ a.Parts (Liveness.through rest out) c d := by
  cases haccess : a.access with
  | get =>
    simp only [step, haccess, Except.ok.injEq] at hw
    split at hw
    · subst hw
      exact .inl hcd
    · subst hw
      exact .inl hcd
  | set =>
    simp only [mem_through_set haccess] at hlive
    simp only [step, haccess] at hw
    obtain ⟨w₁, hw₁, hw⟩ := bind_eq_ok.mp hw
    obtain ⟨hlt, hsame, hinter, hsize⟩ := renumber_frame hw₁
    split at hw
    · rename_i hflag
      obtain ⟨m, hm, hw⟩ := bind_eq_ok.mp hw
      cases hw
      have hfits : w₁.Fits n := ⟨hsize.trans h.size_values, hinter ▸ h.square⟩
      obtain ⟨-, -, hiff⟩ := collide_exact hfits (h.size_values ▸ hlt) hm
      have hread := (hflags.1 haccess).mp hflag
      rcases (hiff hc hd).mp hcd with hcd | ⟨u, hu, hne, -, ⟨rfl, rfl⟩ | ⟨rfl, rfl⟩⟩
      · exact .inl (hinter ▸ hcd)
      · have hother := ((hlive c).mp (hsame ▸ hu)).1
        exact .inr ⟨haccess, hne, .inr rfl, hother, hread⟩
      · have hother := ((hlive d).mp (hsame ▸ hu)).1
        exact .inr ⟨haccess, hne.symm, .inl rfl, hread, hother⟩
    · cases hw
      exact .inl (hinter ▸ hcd)

/-- A run of actions enters a pair only if one of them parts it. -/
theorem foldlM_step_parts {actions : List Action} (h : Fits n w) (hflags : Action.Flagged out actions)
    (hlive : ∀ v, v ∈ w.live ↔ v ∈ Liveness.through actions out)
    (hw : actions.foldlM step w = .ok w') (hc : c < n) (hd : d < n)
    (hcd : w'.interference.interferes c d = .ok true) :
    w.interference.interferes c d = .ok true ∨ ∃ (i : Nat) (x : Action),
      actions[i]? = some x ∧ x.Parts (Liveness.through (actions.drop (i + 1)) out) c d := by
  induction actions generalizing w with
  | nil =>
    cases hw
    exact .inl hcd
  | cons a actions ih =>
    rw [List.foldlM_cons] at hw
    obtain ⟨w₁, hw₁, hw⟩ := bind_eq_ok.mp hw
    have hlive₁ := step_live hflags hlive hw₁
    rcases ih (step_fits h hw₁).1 hflags.2.2 hlive₁ hw with hcd | ⟨i, x, hx, hparts⟩
    · rcases step_parts h hflags hlive hw₁ hc hd hcd with hcd | hparts
      · exact .inl hcd
      · exact .inr ⟨0, a, rfl, hparts⟩
    · exact .inr ⟨i + 1, x, hx, hparts⟩

/-- Two locals interfere in the end only if they did so before or some action of the blocks that were
walked over parts them. -/
theorem foldlM_walkBlock_parts (h : Fits n w)
    (hflags : ∀ b, Action.Flagged (live.liveOut b) (g.items b))
    (hlive : ∀ b v, v ∈ live.liveIn b ↔ v ∈ live.atPoint g (b, 0))
    (hw : blocks.foldlM (walkBlock fn g live) w = .ok w') (hc : c < n) (hd : d < n)
    (hcd : w'.interference.interferes c d = .ok true) :
    w.interference.interferes c d = .ok true ∨ ∃ (b i : Nat) (x : Action),
      (g.items b)[i]? = some x ∧ x.Parts (live.atPoint g (b, i + 1)) c d := by
  induction blocks generalizing w with
  | nil =>
    cases hw
    exact .inl hcd
  | cons b blocks ih =>
    rw [List.foldlM_cons] at hw
    obtain ⟨w₂, hw₂, hw⟩ := bind_eq_ok.mp hw
    rcases ih (walkBlock_spec h hw₂).1 hw with hcd | hparts
    · obtain ⟨w₁, hw₁, hw₂⟩ := bind_eq_ok.mp hw₂
      have hnone : ∀ v, zeroedAt fn g b v = true → (fun _ : Nat => ()) v = () := fun _ _ => rfl
      obtain ⟨-, hstart, hinter, hsize⟩ := enterBlock_spec hnone hw₁
      have hfits : Fits n w₁ := ⟨hsize.trans h.size_values, hinter ▸ h.square⟩
      have hlive₁ : ∀ v, v ∈ w₁.live ↔ v ∈ Liveness.through (g.items b) (live.liveOut b) := by
        intro v
        rw [hstart]
        exact hlive b v
      rcases foldlM_step_parts hfits (hflags b) hlive₁ hw₂ hc hd hcd with hcd | ⟨i, x, hx, hparts⟩
      · exact .inl (hinter ▸ hcd)
      · exact .inr ⟨b, i, x, hx, hparts⟩
    · exact .inr hparts

end Overlap

namespace Function

variable {fn : Function} {a : Analysis} {b i u v : Nat} {x : Action}

theorem exists_parts (h : fn.analyze = .ok a) (hu : u < fn.numLocals) (hv : v < fn.numLocals)
    (huv : a.interference.interferes u v = .ok true) : ∃ (b i : Nat) (x : Action),
      (a.graph.items b)[i]? = some x ∧ x.Parts (a.live.atPoint a.graph (b, i + 1)) u v := by
  have hsound := analyze_sound h
  have hlive : ∀ b v, v ∈ a.live.liveIn b ↔ v ∈ a.live.atPoint a.graph (b, 0) := by
    intro b v
    rw [liveIn_eq_atPoint h]
  have hroom := sq_le_of_analyze h
  obtain ⟨t, g, m, es, -, -, hm, -, rfl⟩ := analyze_eq_ok h
  obtain ⟨w₀, hw₀, hm⟩ := bind_eq_ok.mp hm
  obtain ⟨w, hw, hm⟩ := bind_eq_ok.mp hm
  cases hm
  have hfits := Overlap.fits_start hroom hw₀
  rw [Overlap.start_of_le hroom] at hw₀
  cases hw₀
  rcases Overlap.foldlM_walkBlock_parts hfits hsound.flagged hlive hw hu hv huv with hstart | hparts
  · rw [Interference.interferes_empty hu hv] at hstart
    cases hstart
  · exact hparts

end Function

theorem Action.exists_executes {β : Type} (xs : List Action) (σ : Nat → β) :
    ∃ σ', Executes xs σ σ' := by
  induction xs generalizing σ with
  | nil => exact ⟨σ, .nil⟩
  | cons x xs ih =>
    have hfirst : ∃ σ₁, x.Performs σ σ₁ := by
      cases haccess : x.access with
      | get => exact ⟨σ, by simp only [Performs, haccess]⟩
      | set =>
        cases hcopy : x.copy with
        | some source =>
          exact ⟨Function.update σ x.index (σ source), by simp only [Performs, haccess, hcopy]⟩
        | none =>
          refine ⟨Function.update σ x.index (σ x.index), ?_⟩
          simp only [Performs, haccess, hcopy]
          exact ⟨σ x.index, rfl⟩
    obtain ⟨σ₁, hσ₁⟩ := hfirst
    obtain ⟨σ', hσ'⟩ := ih σ₁
    exact ⟨σ', .cons hσ₁ hσ'⟩

/-- A write of a new value interferes with what is live after it: it could write a value that the
other local does not hold. -/
theorem Analysis.Sound.interferes_of_write {fn : Function} {a : Analysis} {b i u : Nat} {x : Action}
    (h : a.Sound fn) (hx : (a.graph.items b)[i]? = some x) (hset : x.access = .set)
    (hcopy : x.copy = none) (hu : u < fn.numLocals) (hv : x.index < fn.numLocals) (hne : u ≠ x.index)
    (hlu : u ∈ a.live.atPoint a.graph (b, i + 1))
    (hlv : x.index ∈ a.live.atPoint a.graph (b, i + 1)) :
    a.interference.interferes u x.index = .ok true := by
  by_contra hnot
  have hb : b < a.graph.size := lt_size_of_mem_items (List.mem_of_getElem? hx)
  obtain ⟨σ, hσ⟩ := Action.exists_executes ((a.graph.items b).take i) fun _ => 0
  have hwrite : x.Performs σ (Function.update σ x.index (σ u + 1)) := by
    simp only [Action.Performs, hset, hcopy]
    exact ⟨σ u + 1, rfl⟩
  have hexec : Action.Executes ((a.graph.items b).take (i + 1)) (fun _ => 0)
      (Function.update σ x.index (σ u + 1)) := by
    rw [List.take_add_one, hx, Option.toList_some]
    exact Action.executes_append_iff.mpr ⟨σ, hσ, .cons hwrite .nil⟩
  have hzero : ∀ v, Overlap.zeroedAt fn a.graph b v = true → (fun _ : Nat => 0) v = 0 := fun _ _ => rfl
  have hagree := h.agree_in_block hb hzero (List.take_append_drop (i + 1) _).symm hexec hu hv hne hnot
    (fun _ _ => rfl) hlu hlv
  rw [Function.update_self, Function.update_of_ne hne] at hagree
  omega

/-- An effective write that is no copy interferes with every other local that is read later on, and two
locals interfere only if they are different and both are read later on from some write of one of
them. -/
theorem Function.interference_bounds {fn : Function} {a : Analysis} (h : fn.analyze = .ok a) :
    (∀ b i x, (a.graph.items b)[i]? = some x → x.access = .set → x.effective = true →
      x.copy = none → ∀ u, u ≠ x.index → a.graph.LiveAt u b (i + 1) →
        a.interference.interferes u x.index = .ok true) ∧
    ∀ u v, u < fn.numLocals → v < fn.numLocals → a.interference.interferes u v = .ok true →
      u ≠ v ∧ ∃ b i x, (a.graph.items b)[i]? = some x ∧ x.access = .set ∧
        (x.index = u ∨ x.index = v) ∧ a.graph.LiveAt u b (i + 1) ∧ a.graph.LiveAt v b (i + 1) := by
  have hrange := analyze_inRange h
  constructor
  · intro b i x hx hset heffective hcopy u hne hlive
    have hlu := (mem_atPoint_iff_liveAt h).mpr hlive
    have hlv := (mem_atPoint_iff_liveAt h).mpr ((effective_iff h hx hset).mp heffective)
    have hv := (hrange.declared b x (List.mem_of_getElem? hx)).index_lt
    have hu : u < fn.numLocals := by
      rcases Liveness.mem_through_cases hlu with hout | ⟨y, hy, rfl⟩
      · exact hrange.liveOut_lt b u hout
      · exact (hrange.declared b y (List.mem_of_mem_drop hy)).index_lt
    exact (analyze_sound h).interferes_of_write hx hset hcopy hu hv hne hlu hlv
  · intro u v hu hv huv
    obtain ⟨b, i, x, hx, hset, hne, hwrites, hlu, hlv⟩ := exists_parts h hu hv huv
    exact ⟨hne, b, i, x, hx, hset, hwrites, (mem_atPoint_iff_liveAt h).mp hlu,
      (mem_atPoint_iff_liveAt h).mp hlv⟩

/-- A parameter, a variable, a copy of it and a variable with a value of its own are all passed to a
call. -/
def Function.gathering : Function where
  name := "gathering"
  params := [.i32]
  vars := [.i32, .i32, .i32]
  body := 11
  nodes := #[
    { kind := .const, type := .i32 },
    { kind := .localSet, index := 1, kids := [0] },
    { kind := .localGet, type := .i32, index := 1 },
    { kind := .localSet, index := 2, kids := [2] },
    { kind := .const, type := .i32 },
    { kind := .localSet, index := 3, kids := [4] },
    { kind := .localGet, type := .i32, index := 0 },
    { kind := .localGet, type := .i32, index := 1 },
    { kind := .localGet, type := .i32, index := 2 },
    { kind := .localGet, type := .i32, index := 3 },
    { kind := .call, label := "use", kids := [6, 7, 8, 9] },
    { kind := .block, kids := [1, 3, 5, 10] }]

theorem Function.interference_bounds_gathering :
    ∃ a, gathering.analyze = .ok a ∧ a.interference.interferes 1 2 = .ok false ∧
      a.interference.interferes 0 3 = .ok true ∧ a.interference.interferes 2 3 = .ok true ∧
      ∃ b i x, (a.graph.items b)[i]? = some x ∧ x.access = .set ∧ (x.index = 0 ∨ x.index = 2) ∧
        a.graph.LiveAt 0 b (i + 1) ∧ a.graph.LiveAt 2 b (i + 1) := by
  obtain ⟨a, ha, hitems, hsame, hother⟩ : ∃ a, gathering.analyze = .ok a ∧
      a.graph.items 0 = [
        { access := .set, index := 1, origin := 1, effective := true },
        { access := .get, index := 1, origin := 2 },
        { access := .set, index := 2, origin := 3, copy := some 1, effective := true },
        { access := .set, index := 3, origin := 5, effective := true },
        { access := .get, index := 0, origin := 6, endsRange := true },
        { access := .get, index := 1, origin := 7, endsRange := true },
        { access := .get, index := 2, origin := 8, endsRange := true },
        { access := .get, index := 3, origin := 9, endsRange := true }] ∧
      a.interference.interferes 1 2 = .ok false ∧ a.interference.interferes 0 2 = .ok true :=
    ⟨_, by cbv, rfl, rfl, rfl⟩
  obtain ⟨hlower, hupper⟩ := interference_bounds ha
  have hlive : ∀ u, Action.ReadsFirst u ((a.graph.items 0).drop 4) → a.graph.LiveAt u 0 4 := by
    intro u hu
    exact ⟨[0], 0, .single 0, by simpa using hu⟩
  have hwrite := hlower 0 3 _ (by rw [hitems]; rfl) rfl rfl rfl
  refine ⟨a, ha, hsame, ?_, ?_, (hupper 0 2 (by decide) (by decide) hother).2⟩
  · exact hwrite 0 (by decide) (hlive 0 (by rw [hitems]; exact .inl rfl))
  · exact hwrite 2 (by decide) (hlive 2 (by rw [hitems]; exact .inr (.inr (.inl rfl))))

end LocalFlow
