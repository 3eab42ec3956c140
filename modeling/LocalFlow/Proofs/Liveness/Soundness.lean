import Mathlib
import LocalFlow.Liveness.Analysis
import LocalFlow.Proofs.Graph.Order
import LocalFlow.Proofs.Liveness.Action
import LocalFlow.Proofs.Liveness.Capacity

/-! Variables that do not interfere hold the same value wherever both are live, on every path from the
entry and whatever values the writes on it write. Within a block this is what the walk over the
block guarantees, and from block to block a local that is live on entry was live on exit before. -/

namespace LocalFlow

open LocalFlow.Graph

namespace Overlap

variable {fn : Function} {g : Graph Action} {live : Liveness} {w w' : Overlap} {n b : Nat}
  {blocks : List Nat}

def zeroedAt (fn : Function) (g : Graph Action) (b v : Nat) : Bool :=
  (b : Int) = g.entry && (g.pred b).isEmpty && fn.isVar v

/-- A walk over block `b` has found all interferences that block `b` asks for. -/
def Walked (fn : Function) (g : Graph Action) (live : Liveness) (n : Nat) (m : Interference)
    (b : Nat) : Prop :=
  ∃ w w' w'', Fits n w ∧ w.enterBlock (live.liveIn b) (zeroedAt fn g b) = .ok w' ∧
    (g.items b).foldlM step w' = .ok w'' ∧ w''.interference.Le n m

theorem walkBlock_spec (h : Fits n w) (hw : walkBlock fn g live w b = .ok w') :
    Fits n w' ∧ w.interference.Le n w'.interference ∧ Walked fn g live n w'.interference b := by
  obtain ⟨w₁, hw₁, hw⟩ := bind_eq_ok.mp hw
  -- which values the locals have does not matter here, so they may all have the only one
  have hnone : ∀ v, zeroedAt fn g b v = true → (fun _ : Nat => ()) v = () := fun _ _ => rfl
  obtain ⟨-, -, hinter, hsize⟩ := enterBlock_spec hnone hw₁
  have hfits : Fits n w₁ := ⟨hsize.trans h.size_values, hinter ▸ h.square⟩
  obtain ⟨hfits', hle⟩ := foldlM_step_fits hfits hw
  exact ⟨hfits', hinter ▸ hle, w, w₁, w', h, hw₁, hw, Interference.Le.refl n _⟩

theorem foldlM_walkBlock_spec (h : Fits n w) (hw : blocks.foldlM (walkBlock fn g live) w = .ok w') :
    Fits n w' ∧ w.interference.Le n w'.interference ∧
      ∀ b ∈ blocks, Walked fn g live n w'.interference b := by
  induction blocks generalizing w with
  | nil =>
    cases hw
    exact ⟨h, Interference.Le.refl n _, by simp⟩
  | cons b blocks ih =>
    rw [List.foldlM_cons] at hw
    obtain ⟨w₁, hw₁, hw⟩ := bind_eq_ok.mp hw
    obtain ⟨hfits, hle, hwalked⟩ := walkBlock_spec h hw₁
    obtain ⟨hfits', hle', hall⟩ := ih hfits hw
    refine ⟨hfits', hle.trans hle', fun c hc => ?_⟩
    rcases List.mem_cons.mp hc with rfl | hc
    · obtain ⟨u, u', u'', hu, henter, hsteps, hum⟩ := hwalked
      exact ⟨u, u', u'', hu, henter, hsteps, hum.trans hle'⟩
    · exact hall c hc

/-- Where there is room for all pairs, a walk starts with a place for each of them. -/
theorem start_of_le (hn : n * n ≤ 2 ^ 48) :
    start n = .ok { values := Array.replicate n 0, interference := .empty n } := by
  rw [start, Interference.ofSize_of_le hn]
  rfl

theorem fits_start (hn : n * n ≤ 2 ^ 48) (hw : start n = .ok w) : Fits n w := by
  rw [start_of_le hn] at hw
  cases hw
  exact ⟨by simp, Interference.square_empty n⟩

end Overlap

theorem Function.lt_numLocals_of_isVar (fn : Function) {v : Nat} (h : fn.isVar v = true) :
    v < fn.numLocals := by
  simp only [isVar, Bool.and_eq_true, decide_eq_true_eq] at h
  exact h.2

/-- What an analysis has found out about a graph of actions. -/
structure Analysis.Sound (fn : Function) (a : Analysis) : Prop where
  mirrored : a.graph.Mirrored
  start : a.graph.start? = some 0
  stable : a.live.Stable a.graph
  flagged : ∀ b, Action.Flagged (a.live.liveOut b) (a.graph.items b)
  sources : ∀ b, Overlap.SourcesNamed (a.graph.items b)
  square : a.interference.Square fn.numLocals
  walked : ∀ b < a.graph.size, Overlap.Walked fn a.graph a.live fn.numLocals a.interference b

def Action.core (a : Action) : Access × Nat × Option Nat := (a.access, a.index, a.copy)

theorem Overlap.SourcesNamed.of_map_core {xs ys : List Action} (h : SourcesNamed xs)
    (heq : xs.map Action.core = ys.map Action.core) : SourcesNamed ys := by
  intro done a rest source hys hset hcopy
  rw [hys, List.map_append, List.map_cons] at heq
  obtain ⟨done', tail, rfl, hdone, htail⟩ := List.map_eq_append_iff.mp heq
  obtain ⟨a', rest', rfl, ha, -⟩ := List.map_eq_cons_iff.mp htail
  simp only [Action.core, Prod.mk.injEq] at ha
  obtain ⟨x, hx, hindex⟩ := h done' a' rest' source rfl (ha.1.trans hset) (ha.2.2.trans hcopy)
  have hmem : x.core ∈ done.map Action.core := hdone ▸ List.mem_map_of_mem hx
  obtain ⟨y, hy, hyx⟩ := List.mem_map.mp hmem
  simp only [Action.core, Prod.mk.injEq] at hyx
  exact ⟨y, hy, hyx.2.1.trans hindex⟩

theorem Action.map_core_markAll (xs : List Action) (out : IndexSet) :
    (markAll xs out).1.map core = xs.map core := by
  induction xs with
  | nil => rfl
  | cons a xs ih =>
    rw [markAll_cons, List.map_cons, List.map_cons, ih]
    simp [core]

/-- What is analyzed is the graph of the actions of a well-formed tree. -/
theorem Function.analyze_eq_ok {fn : Function} {a : Analysis} (h : fn.analyze = .ok a) :
    ∃ t g m es, fn.WellFormed t ∧ fn.actionGraph = .ok g ∧
      fn.interference (g.markRanges g.liveness) g.liveness = .ok m ∧ m.edges = .ok es ∧
      a = ⟨g.markRanges g.liveness, g.liveness, m, es.length⟩ := by
  obtain ⟨⟨⟩, hvalid, h⟩ := bind_eq_ok.mp h
  obtain ⟨g, hg, h⟩ := bind_eq_ok.mp h
  obtain ⟨m, hm, h⟩ := bind_eq_ok.mp h
  obtain ⟨es, hes, h⟩ := bind_eq_ok.mp h
  cases h
  obtain ⟨t, ht⟩ := wellFormed_of_validate (mapError_eq_ok.mp hvalid)
  exact ⟨t, g, m, es, ht, hg, hm, hes, rfl⟩

theorem Function.sq_le_of_analyze {fn : Function} {a : Analysis} (h : fn.analyze = .ok a) :
    fn.numLocals * fn.numLocals ≤ 2 ^ 48 := by
  obtain ⟨t, g, m, es, -, -, hm, hes, -⟩ := analyze_eq_ok h
  exact numLocals_sq_le hm hes

theorem Function.analyze_sound {fn : Function} {a : Analysis} (h : fn.analyze = .ok a) :
    a.Sound fn := by
  have hroom := sq_le_of_analyze h
  obtain ⟨t, g, m, es, ht, hg, hm, -, rfl⟩ := analyze_eq_ok h
  obtain ⟨hmirrored, hstart, -⟩ := lower_lays hg
  obtain ⟨w₀, hw₀, hm⟩ := bind_eq_ok.mp hm
  obtain ⟨w, hw, hm⟩ := bind_eq_ok.mp hm
  cases hm
  obtain ⟨hfits, -, hwalked⟩ := Overlap.foldlM_walkBlock_spec (Overlap.fits_start hroom hw₀) hw
  refine ⟨hmirrored.markRanges, ?_, stable_markRanges g.liveness_stable, flagged_markRanges,
    fun b => ?_, hfits.square, fun b hb => hwalked b (List.mem_range.mpr hb)⟩
  · rw [start?_eq_some] at hstart ⊢
    rwa [size_markRanges]
  · refine (ht.sourcesNamed hg b).of_map_core ?_
    rw [items_markRanges, Action.map_core_markAll]

namespace Analysis.Sound

variable {β : Type} {zero : β} {fn : Function} {a : Analysis} {σ σ' τ : Nat → β} {b c u v : Nat}
  {p : List Nat} {pre post : List Action}

/-- A block is entered with a number for the value of each live local. -/
theorem tracks_start {w w' : Overlap} (h : a.Sound fn) (hfits : w.Fits fn.numLocals)
    (henter : w.enterBlock (a.live.liveIn b) (Overlap.zeroedAt fn a.graph b) = .ok w')
    (hzeroed : ∀ v, Overlap.zeroedAt fn a.graph b v = true → σ v = zero) :
    Overlap.Tracks zero fn.numLocals (a.live.liveIn b) (a.live.liveOut b) [] (a.graph.items b) σ w' := by
  obtain ⟨hnumbers, hlive, hinter, hsize⟩ := Overlap.enterBlock_spec hzeroed henter
  exact ⟨⟨hsize.trans hfits.size_values, hinter ▸ hfits.square⟩,
    hnumbers.mono fun v hv => by simpa [Overlap.Known] using hv,
    fun {v} hv => hlive ▸ (h.stable b).in_of_through hv, fun {v} hv => .inl (hlive ▸ hv)⟩

/-- Within a block, two locals that do not interfere go on to hold the same value. -/
theorem agree_in_block (h : a.Sound fn) (hb : b < a.graph.size)
    (hzeroed : ∀ v, Overlap.zeroedAt fn a.graph b v = true → σ v = zero)
    (hitems : a.graph.items b = pre ++ post) (hexec : Action.Executes pre σ σ')
    (hu : u < fn.numLocals) (hv : v < fn.numLocals) (huv : u ≠ v)
    (hnot : a.interference.interferes u v ≠ .ok true)
    (hstart : u ∈ a.live.liveIn b → v ∈ a.live.liveIn b → σ u = σ v)
    (hlu : u ∈ Liveness.through post (a.live.liveOut b))
    (hlv : v ∈ Liveness.through post (a.live.liveOut b)) : σ' u = σ' v := by
  obtain ⟨w, w', w'', hfits, henter, hsteps, hle⟩ := h.walked b hb
  have hin : ∀ v ∈ Liveness.through (pre ++ post) (a.live.liveOut b), v ∈ a.live.liveIn b := by
    intro v hv
    exact (h.stable b).in_of_through (hitems ▸ hv)
  have htracks := h.tracks_start hfits henter hzeroed
  rw [hitems] at htracks
  refine htracks.agree (hitems ▸ h.flagged b) ?_ (hitems ▸ hsteps) hle hu hv huv hnot hexec
    (fun hlu hlv => hstart (hin u hlu) (hin v hlv)) hlu hlv
  rw [List.nil_append, ← hitems]
  exact h.sources b

/-- On a path to block `b`, the variables of an entry that nothing leads back to are still zero, and
two variables that do not interfere hold the same value if both are live on entry to `b`. -/
theorem agree_on_entry (h : a.Sound fn) (hσ : ∀ v, fn.isVar v = true → σ v = zero)
    (hp : a.graph.IsPath 0 p b) (hexec : Action.Executes (p.dropLast.flatMap a.graph.items) σ τ)
    (hu : fn.isVar u = true) (hv : fn.isVar v = true) (huv : u ≠ v)
    (hnot : a.interference.interferes u v ≠ .ok true) :
    (∀ v, Overlap.zeroedAt fn a.graph b v = true → τ v = zero) ∧
      (u ∈ a.live.liveIn b → v ∈ a.live.liveIn b → τ u = τ v) := by
  revert τ
  refine hp.induction_snoc (motive := fun p b => ∀ {τ},
    Action.Executes (p.dropLast.flatMap a.graph.items) σ τ →
      (∀ v, Overlap.zeroedAt fn a.graph b v = true → τ v = zero) ∧
        (u ∈ a.live.liveIn b → v ∈ a.live.liveIn b → τ u = τ v)) ?_ ?_
  · intro τ hexec
    cases hexec
    refine ⟨fun v hv => hσ v ?_, fun _ _ => by rw [hσ u hu, hσ v hv]⟩
    simp only [Overlap.zeroedAt, Bool.and_eq_true] at hv
    exact hv.2
  · intro p b c hp hc ih τ hexec
    have hpath : (p ++ [c]).dropLast = p.dropLast ++ [b] := by
      rw [List.dropLast_concat, List.dropLast_append_getLast? b hp.last]
    rw [hpath, List.flatMap_append, List.flatMap_singleton] at hexec
    obtain ⟨τ', hbefore, hexec⟩ := Action.executes_append_iff.mp hexec
    obtain ⟨hzeroed, hstart⟩ := ih hbefore
    refine ⟨fun v hv => ?_, fun hlu hlv => ?_⟩
    · -- an edge leads to the block, so its values are not known
      have hpred := h.mirrored.mem_pred.mpr hc
      simp only [Overlap.zeroedAt, Bool.and_eq_true, List.isEmpty_iff] at hv
      rw [hv.1.2] at hpred
      cases hpred
    · have hout : ∀ v ∈ a.live.liveIn c, v ∈ Liveness.through [] (a.live.liveOut b) := fun v hv =>
        (h.stable b).out_of_succ hc hv
      exact h.agree_in_block (lt_size_of_mem_succ hc) hzeroed (List.append_nil _).symm hexec
        (fn.lt_numLocals_of_isVar hu) (fn.lt_numLocals_of_isVar hv) huv hnot hstart (hout u hlu)
        (hout v hlv)

/-- Two variables that do not interfere hold the same value wherever both are in the live sets. -/
theorem agree (h : a.Sound fn) (hσ : ∀ v, fn.isVar v = true → σ v = zero)
    (hp : a.graph.IsPath 0 p b) (hitems : a.graph.items b = pre ++ post)
    (hexec : Action.Executes (p.dropLast.flatMap a.graph.items ++ pre) σ σ')
    (hu : fn.isVar u = true) (hv : fn.isVar v = true) (huv : u ≠ v)
    (hnot : a.interference.interferes u v ≠ .ok true)
    (hlu : u ∈ Liveness.through post (a.live.liveOut b))
    (hlv : v ∈ Liveness.through post (a.live.liveOut b)) : σ' u = σ' v := by
  obtain ⟨τ, hbefore, hexec⟩ := Action.executes_append_iff.mp hexec
  obtain ⟨hzeroed, hstart⟩ := h.agree_on_entry hσ hp hbefore hu hv huv hnot
  have hb : b < a.graph.size := h.mirrored.lt_size_of_reaches (start?_eq_some.mp h.start).2 ⟨p, hp⟩
  exact h.agree_in_block hb hzeroed hitems hexec (fn.lt_numLocals_of_isVar hu)
    (fn.lt_numLocals_of_isVar hv) huv hnot hstart hlu hlv

end Analysis.Sound

/-- Two variables that do not interfere hold the same value at every point of every path at which
both are read later on. -/
theorem Function.interference_sound {β : Type} {zero : β} {fn : Function} {a : Analysis}
    {σ σ' : Nat → β} {e b i u v : Nat} {p : List Nat} (h : fn.analyze = .ok a)
    (hu : fn.isVar u = true) (hv : fn.isVar v = true) (huv : u ≠ v)
    (hnot : a.interference.interferes u v = .ok false) (he : a.graph.start? = some e)
    (hp : a.graph.IsPath e p b) (hσ : ∀ x, fn.isVar x = true → σ x = zero)
    (hexec : Action.Executes (p.dropLast.flatMap a.graph.items ++ (a.graph.items b).take i) σ σ')
    (hlu : a.graph.LiveAt u b i) (hlv : a.graph.LiveAt v b i) : σ' u = σ' v := by
  have hsound := analyze_sound h
  obtain rfl : 0 = e := Option.some.inj (hsound.start.symm.trans he)
  exact hsound.agree hσ hp (List.take_append_drop i _).symm hexec hu hv huv (by simp [hnot])
    (hlu.mem_through hsound.stable) (hlv.mem_through hsound.stable)

/-- A parameter is copied to one variable and from there to another one, and both are read. -/
def Function.copies : Function where
  name := "copies"
  params := [.i32]
  vars := [.i32, .i32]
  body := 8
  nodes := #[
    { kind := .localGet, type := .i32, index := 0 },
    { kind := .localSet, index := 1, kids := [0] },
    { kind := .localGet, type := .i32, index := 1 },
    { kind := .localSet, index := 2, kids := [2] },
    { kind := .localGet, type := .i32, index := 1 },
    { kind := .drop, kids := [4] },
    { kind := .localGet, type := .i32, index := 2 },
    { kind := .drop, kids := [6] },
    { kind := .block, kids := [1, 3, 5, 7] }]

theorem Function.interference_sound_copies :
    ∃ (a : Analysis) (σ σ' : Nat → Nat), copies.analyze = .ok a ∧ copies.isVar 1 = true ∧
      copies.isVar 2 = true ∧ a.interference.interferes 1 2 = .ok false ∧
      a.graph.start? = some 0 ∧ a.graph.IsPath 0 [0] 0 ∧ (∀ x, copies.isVar x = true → σ x = 0) ∧
      Action.Executes ([0].dropLast.flatMap a.graph.items ++ (a.graph.items 0).take 4) σ σ' ∧
      a.graph.LiveAt 1 0 4 ∧ a.graph.LiveAt 2 0 4 ∧ σ 0 = 7 ∧ σ' 1 = σ' 2 := by
  obtain ⟨a, ha, hnot, hstart, hitems⟩ : ∃ a, copies.analyze = .ok a ∧
      a.interference.interferes 1 2 = .ok false ∧ a.graph.start? = some 0 ∧
      a.graph.items 0 = [
        { access := .get, index := 0, origin := 0, endsRange := true },
        { access := .set, index := 1, origin := 1, copy := some 0, effective := true },
        { access := .get, index := 1, origin := 2 },
        { access := .set, index := 2, origin := 3, copy := some 1, effective := true },
        { access := .get, index := 1, origin := 4, endsRange := true },
        { access := .get, index := 2, origin := 6, endsRange := true }] :=
    ⟨_, by cbv, rfl, rfl, rfl⟩
  let σ : Nat → Nat := Function.update (fun _ => 0) 0 7
  let σ' := Function.update (Function.update σ 1 7) 2 7
  have hσ : ∀ x, copies.isVar x = true → σ x = 0 := by
    rintro (_ | x) hx
    · cases hx
    · rfl
  have hexec : Action.Executes ([0].dropLast.flatMap a.graph.items ++ (a.graph.items 0).take 4)
      σ σ' := by
    rw [hitems]
    exact .cons rfl (.cons rfl (.cons rfl (.cons rfl .nil)))
  have hlive : a.graph.LiveAt 1 0 4 := ⟨[0], 0, .single 0, by rw [hitems]; exact .inl rfl⟩
  have hlive' : a.graph.LiveAt 2 0 4 := ⟨[0], 0, .single 0, by rw [hitems]; exact .inr (.inl rfl)⟩
  exact ⟨a, σ, σ', ha, rfl, rfl, hnot, hstart, .single 0, hσ, hexec, hlive, hlive', rfl,
    interference_sound ha rfl rfl (by decide) hnot hstart (.single 0) hσ hexec hlive hlive'⟩

end LocalFlow
