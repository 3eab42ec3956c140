import Mathlib
import LocalFlow.Proofs.Liveness.Exactness
import LocalFlow.Proofs.Liveness.Point

/-! The flags of an analyzed graph are exact. They are set by one scan of each block, backwards from
the locals that are live on exit, and what that scan finds live after an action is what some way on
reads before writing it. -/

namespace LocalFlow

open LocalFlow.Graph

variable {fn : Function} {g : Graph Action} {live : Liveness} {a : Analysis} {v b i : Nat}
  {x : Action} {out : IndexSet}

namespace Action

theorem readsFirst_congr {xs ys : List Action} (heq : xs.map core = ys.map core) :
    ReadsFirst v xs ↔ ReadsFirst v ys := by
  induction xs generalizing ys with
  | nil =>
    obtain rfl := List.map_eq_nil_iff.mp heq.symm
    rfl
  | cons x xs ih =>
    obtain ⟨y, ys, rfl, hy, hys⟩ := List.map_eq_cons_iff.mp heq.symm
    simp only [core, Prod.mk.injEq] at hy
    simp only [ReadsFirst, hy.1, hy.2.1, ih hys.symm]

/-- The flags of the action at position `i` tell of the locals that are live after it. -/
theorem Flagged.getElem? {xs : List Action} (h : Flagged out xs) (hx : xs[i]? = some x) :
    (x.access = .set → (x.effective = true ↔ x.index ∈ Liveness.through (xs.drop (i + 1)) out)) ∧
      (x.access = .get →
        (x.endsRange = true ↔ x.index ∉ Liveness.through (xs.drop (i + 1)) out)) := by
  induction xs generalizing i with
  | nil => cases hx
  | cons y xs ih =>
    obtain ⟨hset, hget, hrest⟩ := h
    cases i with
    | zero =>
      cases hx
      exact ⟨hset, hget⟩
    | succ i => exact ih hrest hx

end Action

namespace Graph

theorem liveAt_markRanges : (g.markRanges live).LiveAt v b i ↔ g.LiveAt v b i := by
  have hpath : ∀ {p c}, (g.markRanges live).IsPath b p c ↔ g.IsPath b p c := by
    intro p c
    constructor
    · exact fun h => ⟨h.head, h.last, by simpa using h.linked⟩
    · exact fun h => ⟨h.head, h.last, by simpa using h.linked⟩
  have hreads : ∀ p : List Nat, Action.ReadsFirst v
      (((g.markRanges live).items b).drop i ++ p.tail.flatMap (g.markRanges live).items) ↔
        Action.ReadsFirst v ((g.items b).drop i ++ p.tail.flatMap g.items) := by
    intro p
    apply Action.readsFirst_congr
    simp only [List.map_append, List.map_drop, List.map_flatMap, map_core_markRanges]
  simp only [LiveAt, hpath, hreads]

theorem map_origin_allItems_markRanges :
    (g.markRanges live).allItems.map (·.origin) = g.allItems.map (·.origin) := by
  have horigins : ∀ (xs : List Action) (out : IndexSet),
      (Action.markAll xs out).1.map (·.origin) = xs.map (·.origin) := by
    intro xs out
    induction xs with
    | nil => rfl
    | cons x xs ih => rw [Action.markAll_cons, List.map_cons, List.map_cons, ih, Action.origin_mark]
  unfold allItems
  rw [List.map_flatMap, List.map_flatMap, List.flatMap_def, List.flatMap_def]
  congr 1
  apply List.ext_getElem?
  intro b
  simp only [markRanges, Array.toList_mapIdx, List.getElem?_map, List.getElem?_mapIdx, Option.map_map]
  congr 1
  funext block
  exact horigins block.items _

end Graph

/-- If no pass would change the sets and every member is there for a reason, then the locals that the
sets have for a point are those that are live there. -/
theorem Liveness.Justified.mem_atPoint_iff (h : live.Justified g) (hs : live.Stable g) :
    v ∈ live.atPoint g (b, i) ↔ g.LiveAt v b i :=
  ⟨liveAt_of_mem_through h.liveAt_of_out, fun hlive => hlive.mem_through hs⟩

namespace Function

theorem analyze_justified (h : fn.analyze = .ok a) : a.live.Justified a.graph := by
  obtain ⟨t, g, m, es, -, -, -, -, rfl⟩ := analyze_eq_ok h
  have hg := g.liveness_justified
  refine ⟨fun hv => liveAt_markRanges.mpr (hg.liveAt_of_in hv), fun hv => ?_⟩
  obtain ⟨s, hs, hlive⟩ := hg.liveAt_of_out hv
  exact ⟨s, by simpa using hs, liveAt_markRanges.mpr hlive⟩

theorem mem_atPoint_iff_liveAt (h : fn.analyze = .ok a) :
    v ∈ a.live.atPoint a.graph (b, i) ↔ a.graph.LiveAt v b i :=
  (analyze_justified h).mem_atPoint_iff (analyze_sound h).stable

/-- The locals live on entry to a block are those that the scan back from its exit ends with. -/
theorem liveIn_eq_atPoint (h : fn.analyze = .ok a) (b : Nat) :
    a.live.liveIn b = a.live.atPoint a.graph (b, 0) := by
  have hstable := (analyze_sound h).stable
  ext v
  rw [mem_atPoint_iff_liveAt h]
  constructor
  · exact (analyze_justified h).liveAt_of_in
  · exact fun hlive => (hstable b).in_of_through (by simpa using hlive.mem_through hstable)

theorem effective_iff (h : fn.analyze = .ok a) (hx : (a.graph.items b)[i]? = some x)
    (hset : x.access = .set) : x.effective = true ↔ a.graph.LiveAt x.index b (i + 1) := by
  have hflag := (((analyze_sound h).flagged b).getElem? hx).1 hset
  exact hflag.trans (mem_atPoint_iff_liveAt h)

theorem endsRange_iff (h : fn.analyze = .ok a) (hx : (a.graph.items b)[i]? = some x)
    (hget : x.access = .get) : x.endsRange = true ↔ ¬a.graph.LiveAt x.index b (i + 1) := by
  have hflag := (((analyze_sound h).flagged b).getElem? hx).2 hget
  exact hflag.trans (not_congr (mem_atPoint_iff_liveAt h))

theorem nodup_ineffective (h : fn.analyze = .ok a) : a.ineffective.Nodup := by
  obtain ⟨t, g, m, es, ht, hg, -, -, rfl⟩ := analyze_eq_ok h
  have hnodup : ((g.markRanges g.liveness).allItems.map (·.origin)).Nodup := by
    rw [map_origin_allItems_markRanges]
    exact ht.nodup_origins hg
  rw [Analysis.ineffective_eq]
  exact (List.filter_sublist.map _).nodup hnodup

theorem isLocalWrite_origin (h : fn.analyze = .ok a) (hx : (a.graph.items b)[i]? = some x)
    (hset : x.access = .set) : ∃ n, fn.node? x.origin = some n ∧ n.kind.isLocalWrite = true := by
  obtain ⟨t, g, m, es, ht, hg, -, -, rfl⟩ := analyze_eq_ok h
  simp only [getElem?_items_markRanges, Option.map_eq_some_iff] at hx
  obtain ⟨y, hy, rfl⟩ := hx
  rw [Action.access_mark] at hset
  have hmem := mem_allItems.mpr ⟨b, List.mem_of_getElem? hy⟩
  obtain ⟨-, haction, -, -⟩ := ht.placed_of_mem hg hmem
  obtain ⟨n, hn, hkind, -⟩ := isLocalWrite_of_action? haction hset
  rw [Action.origin_mark]
  exact ⟨n, hn, hkind⟩

/-- A write is effective if and only if some way on from it reads its local before writing it, and a
read is the last one of its value if and only if no way on does. The ineffective nodes are the sets and
tees of the writes that no way on reads, and none of them is listed twice. -/
theorem flags_exact (h : fn.analyze = .ok a) :
    (∀ b i x, (a.graph.items b)[i]? = some x →
      (x.access = .set → (x.effective = true ↔ a.graph.LiveAt x.index b (i + 1))) ∧
      (x.access = .get → (x.endsRange = true ↔ ¬a.graph.LiveAt x.index b (i + 1)))) ∧
    (∀ r, r ∈ a.ineffective ↔ ∃ b i x, (a.graph.items b)[i]? = some x ∧ x.access = .set ∧
      ¬a.graph.LiveAt x.index b (i + 1) ∧ x.origin = r) ∧
    (∀ r ∈ a.ineffective, ∃ n, fn.node? r = some n ∧ n.kind.isLocalWrite = true) ∧
    a.ineffective.Nodup := by
  refine ⟨fun b i x hx => ⟨effective_iff h hx, endsRange_iff h hx⟩, fun r => ?_, fun r hr => ?_,
    nodup_ineffective h⟩
  · rw [Analysis.mem_ineffective]
    constructor
    · rintro ⟨b, i, x, hx, hset, hflag, hr⟩
      exact ⟨b, i, x, hx, hset, fun hlive => by simp [(effective_iff h hx hset).mpr hlive] at hflag, hr⟩
    · rintro ⟨b, i, x, hx, hset, hdead, hr⟩
      exact ⟨b, i, x, hx, hset, by simpa using mt (effective_iff h hx hset).mp hdead, hr⟩
  · obtain ⟨b, i, x, hx, hset, -, rfl⟩ := Analysis.mem_ineffective.mp hr
    exact isLocalWrite_origin h hx hset

/-- A loop that sets a variable twice and reads it in between, so that the second value is overwritten
when the loop starts over. Behind the loop is code that is never reached. -/
def overwriting : Function where
  name := "overwriting"
  params := [.i32]
  vars := [.i32]
  body := 15
  nodes := #[
    { kind := .localGet, type := .i32, index := 0 },
    { kind := .localSet, index := 1, kids := [0] },
    { kind := .localGet, type := .i32, index := 1 },
    { kind := .drop, kids := [2] },
    { kind := .const, type := .i32 },
    { kind := .localSet, index := 1, kids := [4] },
    { kind := .localGet, type := .i32, index := 0 },
    { kind := .br, label := "again", kids := [-1, 6] },
    { kind := .block, kids := [1, 3, 5, 7] },
    { kind := .loop, label := "again", kids := [8] },
    { kind := .ret, kids := [-1] },
    { kind := .const, type := .i32 },
    { kind := .localSet, index := 1, kids := [11] },
    { kind := .localGet, type := .i32, index := 1 },
    { kind := .drop, kids := [13] },
    { kind := .block, kids := [9, 10, 12, 14] }]

theorem flags_exact_overwriting :
    ∃ a, overwriting.analyze = .ok a ∧ a.graph.LiveAt 1 1 2 ∧ ¬a.graph.LiveAt 1 1 3 ∧
      ¬a.graph.LiveAt 1 1 4 ∧ a.graph.LiveAt 0 1 5 ∧ a.graph.LiveAt 1 4 1 ∧ a.ineffective = [5] ∧
      ∃ n, overwriting.node? 5 = some n ∧ n.kind.isLocalWrite = true := by
  obtain ⟨a, ha, hloop, hunreached, hineffective⟩ : ∃ a, overwriting.analyze = .ok a ∧
      a.graph.items 1 = [
        { access := .get, index := 0, origin := 0 },
        { access := .set, index := 1, origin := 1, copy := some 0, effective := true },
        { access := .get, index := 1, origin := 2, endsRange := true },
        { access := .set, index := 1, origin := 5 },
        { access := .get, index := 0, origin := 6 }] ∧
      a.graph.items 4 = [
        { access := .set, index := 1, origin := 12, effective := true },
        { access := .get, index := 1, origin := 13, endsRange := true }] ∧
      a.ineffective = [5] :=
    ⟨_, by cbv, rfl, rfl, rfl⟩
  obtain ⟨hflags, -, hwrites, -⟩ := flags_exact ha
  refine ⟨a, ha, ?_, ?_, ?_, ?_, ?_, hineffective, hwrites 5 (by simp [hineffective])⟩
  · exact ((hflags 1 1 _ (by rw [hloop]; rfl)).1 rfl).mp rfl
  · exact ((hflags 1 2 _ (by rw [hloop]; rfl)).2 rfl).mp rfl
  · exact mt ((hflags 1 3 _ (by rw [hloop]; rfl)).1 rfl).mpr (by decide)
  · exact not_not.mp (mt ((hflags 1 4 _ (by rw [hloop]; rfl)).2 rfl).mpr (by decide))
  · exact ((hflags 4 0 _ (by rw [hunreached]; rfl)).1 rfl).mp rfl

end Function

end LocalFlow
