import LocalFlow.Proofs.Liveness.Point

/-! The analysis of a well-formed function never looks up a number that is not there: all locals that
it meets are declared. -/

namespace LocalFlow

open LocalFlow.Graph

structure Action.Declared (n : Nat) (a : Action) : Prop where
  index_lt : a.index < n
  source_lt : ∀ source, a.access = .set → a.copy = some source → source < n

namespace Overlap

variable {fn : Function} {g : Graph Action} {live : Liveness} {w : Overlap} {n b v : Nat} {a : Action}

/-- There is room for `n` locals, and no others are live. -/
structure Bounded (n : Nat) (w : Overlap) : Prop where
  fits : Fits n w
  live_lt : ∀ {v}, v ∈ w.live → v < n

namespace Bounded

theorem setValue_total (h : Bounded n w) (hv : v < n) (number : Nat) :
    ∃ w', w.setValue v number = .ok w' ∧ Bounded n w' := by
  have hlt : v < w.values.size := h.fits.size_values.symm ▸ hv
  have hassign : assign w.values v number = .ok (w.values.setIfInBounds v number) :=
    assign_eq_ok.mpr ⟨hlt, rfl⟩
  refine ⟨_, bind_eq_ok.mpr ⟨_, hassign, rfl⟩, ⟨?_, h.fits.square⟩, h.live_lt⟩
  simpa using h.fits.size_values

theorem setFresh_total (h : Bounded n w) (hv : v < n) :
    ∃ w', w.setFresh v = .ok w' ∧ Bounded n w' := by
  have hlast : Bounded n { w with last := w.last + 1 } := ⟨⟨h.fits.size_values, h.fits.square⟩, h.live_lt⟩
  exact hlast.setValue_total hv _

theorem enterBlock_total (h : Bounded n w) {into : IndexSet} (hinto : ∀ v ∈ into, v < n)
    (zeroed : Nat → Bool) : ∃ w', w.enterBlock into zeroed = .ok w' ∧ Bounded n w' := by
  refine foldlM_total (fun v hv w hw => ?_) ⟨⟨h.fits.size_values, h.fits.square⟩, fun hv => hinto _ hv⟩
  split
  · exact hw.setValue_total (hinto v hv) 0
  · exact hw.setFresh_total (hinto v hv)

theorem fetch_total (h : Bounded n w) (hv : v < n) : ∃ k, fetch w.values v = .ok k := by
  have hlt : v < w.values.size := h.fits.size_values.symm ▸ hv
  exact ⟨w.values[v], fetch_eq_ok.mpr (Array.getElem?_eq_getElem hlt)⟩

theorem renumber_total (h : Bounded n w) (hv : v < n) {copy : Option Nat}
    (hcopy : ∀ source, copy = some source → source < n) :
    ∃ w', w.renumber v copy = .ok w' ∧ Bounded n w' := by
  cases copy with
  | none => exact h.setFresh_total hv
  | some source =>
    obtain ⟨k, hk⟩ := h.fetch_total (hcopy source rfl)
    obtain ⟨w', hw', hbounded⟩ := h.setValue_total hv k
    exact ⟨w', bind_eq_ok.mpr ⟨k, hk, hw'⟩, hbounded⟩

theorem collide_total (h : Bounded n w) (hv : v < n) :
    ∃ m, w.collide v = .ok m ∧ m.Square n := by
  obtain ⟨own, hown⟩ := h.fetch_total hv
  have hfold : ∃ m, w.live.toList.foldlM (fun m u =>
      if u = v then .ok m
      else do if (← fetch w.values u) = own then return m else m.add u v) w.interference = .ok m ∧
      m.Square n := by
    refine foldlM_total (fun u hu m hm => ?_) h.fits.square
    have hu := h.live_lt (IndexSet.mem_toList.mp hu)
    obtain ⟨k, hk⟩ := h.fetch_total hu
    split
    · exact ⟨m, rfl, hm⟩
    · rw [hk]
      by_cases hsame : k = own
      · exact ⟨m, if_pos hsame, hm⟩
      · obtain ⟨m', hm', hsquare, -⟩ := hm.add_eq hu hv
        exact ⟨m', (if_neg hsame).trans hm', hsquare⟩
  obtain ⟨m, hm, hsquare⟩ := hfold
  exact ⟨m, bind_eq_ok.mpr ⟨own, hown, hm⟩, hsquare⟩

/-- A walk goes on over every action that names declared locals only. -/
theorem step_total (h : Bounded n w) (ha : a.Declared n) :
    ∃ w', w.step a = .ok w' ∧ Bounded n w' := by
  cases haccess : a.access with
  | get =>
    refine ⟨_, by rw [step, haccess], ?_⟩
    split
    · exact ⟨⟨h.fits.size_values, h.fits.square⟩, fun hv => h.live_lt (IndexSet.mem_erase.mp hv).1⟩
    · exact h
  | set =>
    obtain ⟨w₁, hw₁, h₁⟩ := h.renumber_total ha.index_lt fun source => ha.source_lt source haccess
    simp only [step, haccess]
    cases a.effective with
    | false => exact ⟨w₁, bind_eq_ok.mpr ⟨w₁, hw₁, rfl⟩, h₁⟩
    | true =>
      obtain ⟨m, hm, hsquare⟩ := h₁.collide_total ha.index_lt
      refine ⟨_, bind_eq_ok.mpr ⟨w₁, hw₁, bind_eq_ok.mpr ⟨m, hm, rfl⟩⟩,
        ⟨h₁.fits.size_values, hsquare⟩, fun {v} hv => ?_⟩
      rcases IndexSet.mem_insert.mp hv with rfl | hv
      · exact ha.index_lt
      · exact h₁.live_lt hv

theorem walkBlock_total (h : Bounded n w) (hitems : ∀ a ∈ g.items b, a.Declared n)
    (hlive : ∀ v ∈ live.liveIn b, v < n) :
    ∃ w', walkBlock fn g live w b = .ok w' ∧ Bounded n w' := by
  obtain ⟨w₁, hw₁, h₁⟩ := h.enterBlock_total hlive (zeroedAt fn g b)
  obtain ⟨w₂, hw₂, h₂⟩ := foldlM_total (fun a ha w hw => hw.step_total (hitems a ha)) h₁
  exact ⟨w₂, bind_eq_ok.mpr ⟨w₁, hw₁, hw₂⟩, h₂⟩

end Bounded

theorem bounded_start (hn : n * n ≤ 2 ^ 48) : ∃ w, start n = .ok w ∧ Bounded n w :=
  ⟨_, start_of_le hn, fits_start hn (start_of_le hn), fun hv => absurd hv (IndexSet.not_mem_empty _)⟩

end Overlap

namespace Function

variable {fn : Function} {t : Tree} {g : Graph Action} {a : Action} {b : Nat}

theorem index_of_action? {r : Ref} (h : fn.action? r = some a) :
    ∃ n, fn.node? r = some n ∧ n.kind.isLocalAccess = true ∧ a.index = n.index := by
  unfold action? at h
  split at h
  · rename_i n hn
    split at h
    · cases h
      exact ⟨n, hn, by simp [*, Kind.isLocalAccess], rfl⟩
    · cases h
      exact ⟨n, hn, by simp [*, Kind.isLocalAccess], rfl⟩
    · cases h
      exact ⟨n, hn, by simp [*, Kind.isLocalAccess], rfl⟩
    · cases h
  · cases h

theorem WellFormed.declared (h : fn.WellFormed t) (hg : fn.actionGraph = .ok g)
    (ha : a ∈ g.items b) : a.Declared fn.numLocals := by
  have hindex : ∀ x ∈ g.items b, x.index < fn.numLocals := by
    intro x hx
    have hsub := (lower_allItems_subperm hg).subset (mem_allItems.mpr ⟨b, hx⟩)
    rw [h.tree_eq] at hsub
    obtain ⟨y, hy, haction⟩ := List.mem_filterMap.mp hsub
    obtain ⟨n, hn, haccess, heq⟩ := index_of_action? haction
    obtain rfl : y.2 = n := Option.some.inj ((h.isAt.node?_eq y hy).symm.trans hn)
    rw [heq]
    exact index_lt_of_rejection? (h.accepted y hy) haccess
  refine ⟨hindex a ha, fun source hset hcopy => ?_⟩
  obtain ⟨done, rest, hitems⟩ := List.append_of_mem ha
  obtain ⟨x, hx, rfl⟩ := h.sourcesNamed hg b done a rest source hitems hset hcopy
  exact hindex x (by simp [hitems, hx])

theorem WellFormed.locals_lt (h : fn.WellFormed t) (hg : fn.actionGraph = .ok g) :
    ∀ v ∈ g.locals, v < fn.numLocals := by
  intro v hv
  rw [Graph.locals, IndexSet.mem_ofList, List.mem_flatMap] at hv
  obtain ⟨block, hblock, hv⟩ := hv
  obtain ⟨a, ha, rfl⟩ := List.mem_map.mp hv
  obtain ⟨b, hb⟩ := mem_allItems.mp (List.mem_flatMap.mpr ⟨block, hblock, ha⟩)
  exact (h.declared hg hb).index_lt

theorem WellFormed.declared_markRanges (h : fn.WellFormed t) (hg : fn.actionGraph = .ok g)
    {live : Liveness} (ha : a ∈ (g.markRanges live).items b) : a.Declared fn.numLocals := by
  have hcore : ((g.markRanges live).items b).map Action.core = (g.items b).map Action.core :=
    map_core_markRanges b
  obtain ⟨x, hx, heq⟩ := List.mem_map.mp (hcore ▸ List.mem_map_of_mem ha)
  simp only [Action.core, Prod.mk.injEq] at heq
  obtain ⟨hlt, hsource⟩ := h.declared hg hx
  exact ⟨heq.2.1 ▸ hlt, fun source => heq.1 ▸ heq.2.2 ▸ hsource source⟩

/-- A well-formed function whose graph can be built has interferences, if there is room for them. -/
theorem WellFormed.interference_total (h : fn.WellFormed t) (hg : fn.actionGraph = .ok g)
    (hroom : fn.numLocals * fn.numLocals ≤ 2 ^ 48) :
    ∃ m, fn.interference (g.markRanges g.liveness) g.liveness = .ok m ∧ m.Square fn.numLocals := by
  have hlive : ∀ b, ∀ v ∈ g.liveness.liveIn b, v < fn.numLocals := fun b v hv =>
    h.locals_lt hg v (g.liveness_within.liveIn_subset hv)
  obtain ⟨first, hfirst, hbounded⟩ := Overlap.bounded_start hroom
  have hwalk : ∃ w, (List.range (g.markRanges g.liveness).size).foldlM
      (Overlap.walkBlock fn (g.markRanges g.liveness) g.liveness) first = .ok w ∧
      w.Bounded fn.numLocals := by
    refine foldlM_total (fun b _ w hw => ?_) hbounded
    exact hw.walkBlock_total (fun a ha => h.declared_markRanges hg ha) (hlive b)
  obtain ⟨w, hw, hdone⟩ := hwalk
  exact ⟨w.interference, bind_eq_ok.mpr ⟨first, hfirst, bind_eq_ok.mpr ⟨w, hw, rfl⟩⟩,
    hdone.fits.square⟩

end Function

/-- Whatever an analysis names by a number is there. Edges lead to blocks, and every block has a set
for either end. Actions and sets name declared locals, and the table has a place for each pair of
those. -/
structure Analysis.InRange (fn : Function) (a : Analysis) : Prop where
  succ_lt : ∀ b, ∀ s ∈ a.graph.succ b, s < a.graph.size
  size_ins : a.live.ins.size = a.graph.size
  size_outs : a.live.outs.size = a.graph.size
  declared : ∀ b, ∀ x ∈ a.graph.items b, x.Declared fn.numLocals
  liveIn_lt : ∀ b, ∀ v ∈ a.live.liveIn b, v < fn.numLocals
  liveOut_lt : ∀ b, ∀ v ∈ a.live.liveOut b, v < fn.numLocals
  square : a.interference.Square fn.numLocals

theorem Function.analyze_inRange {fn : Function} {a : Analysis} (h : fn.analyze = .ok a) :
    a.InRange fn := by
  have hsound := analyze_sound h
  obtain ⟨t, g, m, es, ht, hg, -, -, rfl⟩ := analyze_eq_ok h
  have hwithin := g.liveness_within
  have hsize : (g.markRanges g.liveness).size = g.size := size_markRanges
  constructor
  · exact fun b s hs => hsound.mirrored.succ_lt hs
  · exact hwithin.size_ins.trans hsize.symm
  · exact hwithin.size_outs.trans hsize.symm
  · exact fun b x hx => ht.declared_markRanges hg hx
  · exact fun b v hv => ht.locals_lt hg v (hwithin.liveIn_subset hv)
  · exact fun b v hv => ht.locals_lt hg v (hwithin.liveOut_subset hv)
  · exact hsound.square

end LocalFlow
