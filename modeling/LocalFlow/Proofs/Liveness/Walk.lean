import Mathlib
import LocalFlow.Proofs.Liveness.Precision

/-! The walk over a block, position by position. Its live locals are everywhere those that a scan back
from the exit of the block finds live, and its numbers can be trusted: locals that have the same number
hold the same value in every execution that has come so far. -/

namespace LocalFlow

open LocalFlow.Graph

namespace Overlap

variable {β : Type} {zero : β} {σ σ' : Nat → β} {fn : Function} {g : Graph Action} {live : Liveness}
  {w w' : Overlap} {n b v : Nat} {a : Action} {inn out : IndexSet} {done rest pre post : List Action}

/-- The state in which the walk over the blocks of a function comes to position `i` of block `b`. -/
def walkTo (fn : Function) (g : Graph Action) (live : Liveness) (b i : Nat) :
    Except Failure Overlap := do
  let w ← (List.range b).foldlM (walkBlock fn g live) (← start fn.numLocals)
  let w ← w.enterBlock (live.liveIn b) (zeroedAt fn g b)
  ((g.items b).take i).foldlM step w

/-- At the end of block `b` the walk has been over this block and all blocks before it. -/
theorem walkTo_length (fn : Function) (g : Graph Action) (live : Liveness) (b : Nat) :
    walkTo fn g live b (g.items b).length =
      start fn.numLocals >>= (List.range (b + 1)).foldlM (walkBlock fn g live) := by
  simp only [walkTo, List.take_length, List.range_succ, List.foldlM_append, List.foldlM_cons,
    List.foldlM_nil, bind_pure]
  rfl

/-- A walk that comes to the end of all blocks comes to every position of each of them. -/
theorem exists_walkTo (hroom : fn.numLocals * fn.numLocals ≤ 2 ^ 48) {first : Overlap}
    (hfirst : start fn.numLocals = .ok first)
    (hw : (List.range g.size).foldlM (walkBlock fn g live) first = .ok w') (hb : b < g.size)
    (i : Nat) : ∃ w₀ w₁ w, Fits fn.numLocals w₀ ∧
      w₀.enterBlock (live.liveIn b) (zeroedAt fn g b) = .ok w₁ ∧
      ((g.items b).take i).foldlM step w₁ = .ok w ∧ walkTo fn g live b i = .ok w := by
  obtain ⟨later, hlater⟩ : ∃ later, g.size = b + 1 + later := Nat.exists_eq_add_of_le hb
  rw [hlater, List.range_add, List.foldlM_append, List.range_succ, List.foldlM_append] at hw
  obtain ⟨w₂, hw₂, -⟩ := bind_eq_ok.mp hw
  obtain ⟨w₀, hw₀, hw₂⟩ := bind_eq_ok.mp hw₂
  rw [List.foldlM_cons] at hw₂
  obtain ⟨w₃, hw₃, -⟩ := bind_eq_ok.mp hw₂
  obtain ⟨w₁, hw₁, hitems⟩ := bind_eq_ok.mp hw₃
  rw [← List.take_append_drop i (g.items b), List.foldlM_append] at hitems
  obtain ⟨w, hw, -⟩ := bind_eq_ok.mp hitems
  have hfits := (foldlM_walkBlock_spec (fits_start hroom hfirst) hw₀).1
  have henter : w₀.enterBlock (live.liveIn b) (zeroedAt fn g b) = .ok w₁ := hw₁
  refine ⟨w₀, w₁, w, hfits, henter, hw, ?_⟩
  exact bind_eq_ok.mpr ⟨first, hfirst, bind_eq_ok.mpr ⟨w₀, hw₀, bind_eq_ok.mpr ⟨w₁, henter, hw⟩⟩⟩

/-- The flags say how to get from the locals live before a run of actions to those live after it. -/
theorem foldlM_step_live (hflags : Action.Flagged out (pre ++ post))
    (hlive : ∀ v, v ∈ w.live ↔ v ∈ Liveness.through (pre ++ post) out)
    (hw : pre.foldlM step w = .ok w') (v : Nat) : v ∈ w'.live ↔ v ∈ Liveness.through post out := by
  induction pre generalizing w with
  | nil =>
    cases hw
    exact hlive v
  | cons a pre ih =>
    rw [List.foldlM_cons] at hw
    obtain ⟨w₁, hw₁, hw⟩ := bind_eq_ok.mp hw
    exact ih hflags.2.2 (step_live hflags hlive hw₁) hw

/-- After an action the numbers are those of the values that it leaves. -/
theorem Tracks.step (h : Tracks zero n inn out done (a :: rest) σ w)
    (hflags : Action.Flagged out (a :: rest)) (hsources : SourcesNamed (done ++ a :: rest))
    (hw : w.step a = .ok w') (hperforms : a.Performs σ σ') :
    Tracks zero n inn out (done ++ [a]) rest σ' w' := by
  cases haccess : a.access with
  | get =>
    obtain rfl := hperforms.eq_of_get haccess
    exact h.get haccess hflags hw
  | set =>
    have hcopy : ∀ source, a.copy = some source → Known inn done source := fun source hsource =>
      .inr (hsources done a rest source rfl haccess hsource)
    exact (h.set haccess hflags hw hcopy hperforms).1

theorem Tracks.run (h : Tracks zero n inn out done (pre ++ post) σ w)
    (hflags : Action.Flagged out (pre ++ post)) (hsources : SourcesNamed (done ++ (pre ++ post)))
    (hw : pre.foldlM Overlap.step w = .ok w') (hexec : Action.Executes pre σ σ') :
    Tracks zero n inn out (done ++ pre) post σ' w' := by
  induction pre generalizing done σ w with
  | nil =>
    cases hw
    cases hexec
    rwa [List.append_nil]
  | cons a pre ih =>
    rw [List.foldlM_cons] at hw
    obtain ⟨w₁, hw₁, hw⟩ := bind_eq_ok.mp hw
    cases hexec with
    | cons hperforms hexec =>
      have hstep := h.step hflags hsources hw₁ hperforms
      have hrest : SourcesNamed (done ++ [a] ++ (pre ++ post)) := by
        rwa [List.append_assoc]
      rw [List.append_cons]
      exact ih hstep hflags.2.2 hrest hw hexec

end Overlap

namespace Function

variable {fn : Function} {a : Analysis} {b i : Nat}

theorem analyze_walkTo (h : fn.analyze = .ok a) (hb : b < a.graph.size) (i : Nat) :
    ∃ w₀ w₁ w, Overlap.Fits fn.numLocals w₀ ∧
      w₀.enterBlock (a.live.liveIn b) (Overlap.zeroedAt fn a.graph b) = .ok w₁ ∧
      ((a.graph.items b).take i).foldlM Overlap.step w₁ = .ok w ∧
      Overlap.walkTo fn a.graph a.live b i = .ok w := by
  have hroom := sq_le_of_analyze h
  obtain ⟨t, g, m, es, -, -, hm, -, rfl⟩ := analyze_eq_ok h
  obtain ⟨w₀, hw₀, hm⟩ := bind_eq_ok.mp hm
  obtain ⟨w, hw, -⟩ := bind_eq_ok.mp hm
  exact Overlap.exists_walkTo hroom hw₀ hw hb i

/-- The walk over a block has the locals as live that are live where it has come to. -/
theorem exists_walkTo_live (h : fn.analyze = .ok a) (hb : b < a.graph.size) (i : Nat) :
    ∃ w, Overlap.walkTo fn a.graph a.live b i = .ok w ∧ w.live = a.live.atPoint a.graph (b, i) := by
  obtain ⟨w₀, w₁, w, -, henter, hw, hwalk⟩ := analyze_walkTo h hb i
  -- which values the locals have does not matter here, so they may all have the only one
  have hnone : ∀ v, Overlap.zeroedAt fn a.graph b v = true → (fun _ : Nat => ()) v = () :=
    fun _ _ => rfl
  obtain ⟨-, hstart, -⟩ := Overlap.enterBlock_spec hnone henter
  have hsplit := List.take_append_drop i (a.graph.items b)
  have hflags := (analyze_sound h).flagged b
  have hlive : ∀ v, v ∈ w₁.live ↔ v ∈ Liveness.through (a.graph.items b) (a.live.liveOut b) := by
    intro v
    rw [hstart, liveIn_eq_atPoint h]
    rfl
  rw [← hsplit] at hflags hlive
  refine ⟨w, hwalk, ?_⟩
  ext v
  exact Overlap.foldlM_step_live hflags hlive hw v

/-- At every position of a block the live locals of the walk are those that the scan back from the exit
finds live there: those live on entry at first, and those live on exit at the end, where the walk is done
with the block. No write, effective or not, finds its local among them. -/
theorem walk_live_exact (h : fn.analyze = .ok a) (hb : b < a.graph.size) :
    (∀ i, ∃ w, Overlap.walkTo fn a.graph a.live b i = .ok w ∧
      w.live = Liveness.through ((a.graph.items b).drop i) (a.live.liveOut b)) ∧
    (∃ w, Overlap.walkTo fn a.graph a.live b 0 = .ok w ∧ w.live = a.live.liveIn b) ∧
    (∃ first w, Overlap.start fn.numLocals = .ok first ∧
      (List.range (b + 1)).foldlM (Overlap.walkBlock fn a.graph a.live) first = .ok w ∧
      w.live = a.live.liveOut b) ∧
    ∀ i x, (a.graph.items b)[i]? = some x → x.access = .set →
      ∃ w, Overlap.walkTo fn a.graph a.live b i = .ok w ∧ x.index ∉ w.live := by
  refine ⟨exists_walkTo_live h hb, ?_, ?_, fun i x hx hset => ?_⟩
  · obtain ⟨w, hwalk, hlive⟩ := exists_walkTo_live h hb 0
    exact ⟨w, hwalk, hlive.trans (liveIn_eq_atPoint h b).symm⟩
  · obtain ⟨w, hwalk, hlive⟩ := exists_walkTo_live h hb (a.graph.items b).length
    rw [Liveness.atPoint, List.drop_length] at hlive
    rw [Overlap.walkTo_length] at hwalk
    obtain ⟨first, hfirst, hwalk⟩ := bind_eq_ok.mp hwalk
    exact ⟨first, w, hfirst, hwalk, hlive⟩
  · obtain ⟨w, hwalk, hlive⟩ := exists_walkTo_live h hb i
    refine ⟨w, hwalk, fun hmem => ?_⟩
    rw [hlive] at hmem
    exact ((Liveness.mem_atPoint_of_set hx hset).mp hmem).2 rfl

theorem walk_live_exact_overwriting :
    ∃ a, overwriting.analyze = .ok a ∧ 1 < a.graph.size ∧
      (∃ w, Overlap.walkTo overwriting a.graph a.live 1 2 = .ok w ∧ w.live.toList = [0, 1] ∧
        w.live = Liveness.through ((a.graph.items 1).drop 2) (a.live.liveOut 1)) ∧
      (∃ w, Overlap.walkTo overwriting a.graph a.live 1 0 = .ok w ∧ w.live = a.live.liveIn 1) ∧
      ∃ w, Overlap.walkTo overwriting a.graph a.live 1 3 = .ok w ∧ 1 ∉ w.live := by
  obtain ⟨a, ha, hsize, hitems, hout⟩ : ∃ a, overwriting.analyze = .ok a ∧ a.graph.size = 5 ∧
      a.graph.items 1 = [
        { access := .get, index := 0, origin := 0 },
        { access := .set, index := 1, origin := 1, copy := some 0, effective := true },
        { access := .get, index := 1, origin := 2, endsRange := true },
        { access := .set, index := 1, origin := 5 },
        { access := .get, index := 0, origin := 6 }] ∧
      (a.live.liveOut 1).toList = [0] :=
    ⟨_, by cbv, rfl, rfl, rfl⟩
  have hone : 1 < a.graph.size := by simp [hsize]
  obtain ⟨hall, hentry, -, hwrites⟩ := walk_live_exact ha hone
  obtain ⟨w, hwalk, hlive⟩ := hall 2
  have hset : ∃ w, Overlap.walkTo overwriting a.graph a.live 1 3 = .ok w ∧ 1 ∉ w.live :=
    hwrites 3 _ (by rw [hitems]; rfl) rfl
  have hlocals : a.live.liveOut 1 = .ofList [0] := IndexSet.ext_toList hout
  refine ⟨a, ha, hone, ⟨w, hwalk, ?_, hlive⟩, hentry, hset⟩
  rw [hlive, hitems, hlocals]
  rfl

end Function

/-- Local `v` is read later on from the beginning of block `b`, or the block writes it before
position `i`. -/
def Graph.Holds (g : Graph Action) (b i v : Nat) : Prop :=
  g.LiveAt v b 0 ∨ ∃ x ∈ (g.items b).take i, x.access = .set ∧ x.index = v

/-- Wherever the walk has come to in a block, the locals that were live on entry and those that the block
has written have numbers, and two of them with the same number hold the same value. This is so in every
execution of the actions so far, if variables are zero at an entry that nothing leads back to. -/
theorem Function.equal_numbers_sound {β : Type} {zero : β} {fn : Function} {a : Analysis}
    {σ σ' : Nat → β} {b i : Nat} (h : fn.analyze = .ok a) (hb : b < a.graph.size)
    (hσ : a.graph.start? = some b → a.graph.pred b = [] → ∀ v, fn.isVar v = true → σ v = zero)
    (hexec : Action.Executes ((a.graph.items b).take i) σ σ') :
    ∃ w, Overlap.walkTo fn a.graph a.live b i = .ok w ∧
      (∀ v, a.graph.Holds b i v → ∃ number, w.values[v]? = some number) ∧
      ∀ u v, a.graph.Holds b i u → a.graph.Holds b i v → w.values[u]? = w.values[v]? → σ' u = σ' v := by
  have hsound := analyze_sound h
  obtain ⟨w₀, w₁, w, hfits, henter, hw, hwalk⟩ := analyze_walkTo h hb i
  have hzeroed : ∀ v, Overlap.zeroedAt fn a.graph b v = true → σ v = zero := by
    intro v hv
    simp only [Overlap.zeroedAt, Bool.and_eq_true, decide_eq_true_eq, List.isEmpty_iff] at hv
    exact hσ (start?_eq_some.mpr ⟨hv.1.1.symm, hb⟩) hv.1.2 v hv.2
  have hsplit := List.take_append_drop i (a.graph.items b)
  have hstart := hsound.tracks_start hfits henter hzeroed
  have hflags := hsound.flagged b
  have hsources := hsound.sources b
  rw [← hsplit] at hstart hflags hsources
  have hnumbers := (hstart.run hflags hsources hw hexec).numbers
  have hknown : ∀ v, a.graph.Holds b i v →
      Overlap.Known (a.live.liveIn b) ((a.graph.items b).take i) v := by
    rintro v (hlive | ⟨x, hx, -, hindex⟩)
    · left
      rw [liveIn_eq_atPoint h]
      exact (mem_atPoint_iff_liveAt h).mpr hlive
    · exact .inr ⟨x, hx, hindex⟩
  refine ⟨w, hwalk, fun v hv => ?_, fun u v hu hv => hnumbers.equal (hknown u hu) (hknown v hv)⟩
  obtain ⟨number, -, hnumber⟩ := hnumbers.numbered (hknown v hv)
  exact ⟨number, hnumber⟩

theorem Function.equal_numbers_sound_gathering :
    ∃ (a : Analysis) (w : Overlap) (σ σ' : Nat → Nat), gathering.analyze = .ok a ∧
      0 < a.graph.size ∧ a.graph.start? = some 0 ∧ a.graph.pred 0 = [] ∧
      (∀ v, gathering.isVar v = true → σ v = 0) ∧
      Action.Executes ((a.graph.items 0).take 4) σ σ' ∧ σ' 0 = 7 ∧ σ' 1 = 5 ∧ σ' 3 = 6 ∧
      Overlap.walkTo gathering a.graph a.live 0 4 = .ok w ∧ w.values = #[1, 2, 2, 3] ∧
      a.graph.Holds 0 4 1 ∧ a.graph.Holds 0 4 2 ∧ σ' 1 = σ' 2 := by
  obtain ⟨a, w, ha, hsize, hstart, hpred, hitems, hwalk, hvalues⟩ : ∃ a w, gathering.analyze = .ok a ∧
      a.graph.size = 1 ∧ a.graph.start? = some 0 ∧ a.graph.pred 0 = [] ∧
      (a.graph.items 0).take 4 = [
        { access := .set, index := 1, origin := 1, effective := true },
        { access := .get, index := 1, origin := 2 },
        { access := .set, index := 2, origin := 3, copy := some 1, effective := true },
        { access := .set, index := 3, origin := 5, effective := true }] ∧
      Overlap.walkTo gathering a.graph a.live 0 4 = .ok w ∧ w.values = #[1, 2, 2, 3] :=
    ⟨_, _, by cbv, rfl, rfl, rfl, rfl, by cbv, rfl⟩
  let σ : Nat → Nat := Function.update (fun _ => 0) 0 7
  let σ' := Function.update (Function.update (Function.update σ 1 5) 2 5) 3 6
  have hσ : ∀ v, gathering.isVar v = true → σ v = 0 := by
    rintro (_ | v) hv
    · cases hv
    · rfl
  have hexec : Action.Executes ((a.graph.items 0).take 4) σ σ' := by
    rw [hitems]
    exact .cons ⟨5, rfl⟩ (.cons rfl (.cons rfl (.cons ⟨6, rfl⟩ .nil)))
  have hpos : 0 < a.graph.size := by simp [hsize]
  have hholds : ∀ v, v = 1 ∨ v = 2 → a.graph.Holds 0 4 v := by
    rintro v (rfl | rfl)
    · exact .inr ⟨_, by rw [hitems]; exact .head _, rfl, rfl⟩
    · exact .inr ⟨_, by rw [hitems]; exact .tail _ (.tail _ (.head _)), rfl, rfl⟩
  obtain ⟨w', hwalk', -, hequal⟩ := equal_numbers_sound ha hpos (fun _ _ => hσ) hexec
  obtain rfl : w = w' := Except.ok.inj (hwalk.symm.trans hwalk')
  have hone := hholds 1 (.inl rfl)
  have htwo := hholds 2 (.inr rfl)
  exact ⟨a, w, σ, σ', ha, hpos, hstart, hpred, hσ, hexec, rfl, rfl, rfl, hwalk, hvalues, hone, htwo,
    hequal 1 2 hone htwo (by rw [hvalues]; rfl)⟩

end LocalFlow
