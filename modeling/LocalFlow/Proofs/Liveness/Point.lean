import LocalFlow.Proofs.Graph.Passage
import LocalFlow.Proofs.Liveness.Soundness

/-! Points of a graph of actions: which values the locals can have there, and which of them are live.
Two variables that do not interfere have the same value at every point where both are live. -/

namespace LocalFlow

open LocalFlow.Graph

variable {fn : Function} {g : Graph Action} {live : Liveness} {p : Point} {b i v : Nat} {x : Action}
  {σ σ' : Nat → UInt64}

def Liveness.atPoint (live : Liveness) (g : Graph Action) (p : Point) : IndexSet :=
  through ((g.items p.1).drop p.2) (live.liveOut p.1)

theorem Liveness.Stable.mem_of_jump (h : live.Stable g) (hjump : g.Jumps p b)
    (hv : v ∈ live.atPoint g (b, 0)) : v ∈ live.atPoint g p := by
  obtain ⟨hend, hb⟩ := hjump
  rw [atPoint, hend, List.drop_length]
  exact (h p.1).out_of_succ hb ((h b).in_of_through hv)

theorem Liveness.mem_atPoint_of_get (hx : (g.items p.1)[p.2]? = some x) (hget : x.access = .get) :
    v ∈ live.atPoint g p ↔ v = x.index ∨ v ∈ live.atPoint g (p.1, p.2 + 1) := by
  obtain ⟨hlt, rfl⟩ := List.getElem?_eq_some_iff.mp hx
  rw [atPoint, List.drop_eq_getElem_cons hlt]
  exact Overlap.mem_through_get hget

theorem Liveness.mem_atPoint_of_set (hx : (g.items p.1)[p.2]? = some x) (hset : x.access = .set) :
    v ∈ live.atPoint g p ↔ v ∈ live.atPoint g (p.1, p.2 + 1) ∧ v ≠ x.index := by
  obtain ⟨hlt, rfl⟩ := List.getElem?_eq_some_iff.mp hx
  rw [atPoint, List.drop_eq_getElem_cons hlt]
  exact Overlap.mem_through_set hset

/-- Some execution along a path from the entry, with all variables zero at first, arrives at `p` with
the values `σ`. -/
def Function.Arrives (fn : Function) (g : Graph Action) (p : Point) (σ : Nat → UInt64) : Prop :=
  ∃ path σ₀, g.IsPath 0 path p.1 ∧ (∀ v, fn.isVar v = true → σ₀ v = 0) ∧
    Action.Executes (path.dropLast.flatMap g.items ++ (g.items p.1).take p.2) σ₀ σ

namespace Function.Arrives

theorem start (h : ∀ v, fn.isVar v = true → σ v = 0) : fn.Arrives g (0, 0) σ :=
  ⟨[0], σ, .single 0, h, .nil⟩

theorem jump (h : fn.Arrives g p σ) (hjump : g.Jumps p b) : fn.Arrives g (b, 0) σ := by
  obtain ⟨path, σ₀, hpath, hσ₀, hexec⟩ := h
  obtain ⟨path', hpath', hitems⟩ := Passed.jump ⟨path, hpath, rfl⟩ hjump
  exact ⟨path', σ₀, hpath', hσ₀, hitems ▸ hexec⟩

theorem step (h : fn.Arrives g p σ) (hx : (g.items p.1)[p.2]? = some x) (hσ' : x.Performs σ σ') :
    fn.Arrives g (p.1, p.2 + 1) σ' := by
  obtain ⟨path, σ₀, hpath, hσ₀, hexec⟩ := h
  obtain ⟨path', hpath', hitems⟩ := Passed.step ⟨path, hpath, rfl⟩ hx
  refine ⟨path', σ₀, hpath', hσ₀, ?_⟩
  rw [hitems]
  exact Action.executes_append_iff.mpr ⟨σ, hexec, .cons hσ' .nil⟩

end Function.Arrives

section MarkRanges

variable {live' : Liveness}

theorem Graph.map_core_markRanges (b : Nat) :
    ((g.markRanges live).items b).map Action.core = (g.items b).map Action.core := by
  rw [items_markRanges, Action.map_core_markAll]

theorem Action.Performs.of_core {y : Action} (h : x.Performs σ σ') (heq : x.core = y.core) :
    y.Performs σ σ' := by
  simp only [core, Prod.mk.injEq] at heq
  simpa only [Performs, heq.1, heq.2.1, heq.2.2] using h

theorem Action.Executes.of_map_core {xs ys : List Action} (h : Executes xs σ σ')
    (heq : xs.map core = ys.map core) : Executes ys σ σ' := by
  induction h generalizing ys with
  | nil =>
    obtain rfl := List.map_eq_nil_iff.mp heq.symm
    exact .nil
  | cons hx _ ih =>
    obtain ⟨y, ys, rfl, hy, hys⟩ := List.map_eq_cons_iff.mp heq.symm
    exact .cons (hx.of_core hy.symm) (ih hys.symm)

theorem Liveness.through_of_map_core {xs ys : List Action} {out : IndexSet}
    (heq : xs.map Action.core = ys.map Action.core) : through xs out = through ys out := by
  induction xs generalizing ys with
  | nil =>
    obtain rfl := List.map_eq_nil_iff.mp heq.symm
    rfl
  | cons x xs ih =>
    obtain ⟨y, ys, rfl, hy, hys⟩ := List.map_eq_cons_iff.mp heq.symm
    simp only [Action.core, Prod.mk.injEq] at hy
    have hbefore : x.before = y.before := by
      funext out
      simp only [Action.before, hy.1, hy.2.1]
    rw [through, List.foldr_cons, ← through, ih hys.symm, hbefore]
    rfl

theorem Liveness.atPoint_markRanges : live.atPoint (g.markRanges live') p = live.atPoint g p := by
  refine through_of_map_core ?_
  rw [List.map_drop, map_core_markRanges, List.map_drop]

theorem Function.Arrives.markRanges (h : fn.Arrives g p σ) : fn.Arrives (g.markRanges live) p σ := by
  obtain ⟨path, σ₀, hpath, hσ₀, hexec⟩ := h
  refine ⟨path, σ₀, ⟨hpath.head, hpath.last, by simpa using hpath.linked⟩, hσ₀, hexec.of_map_core ?_⟩
  simp only [List.map_append, List.map_flatMap, List.map_take, map_core_markRanges]

end MarkRanges

theorem Action.getElem?_markAll (xs : List Action) (out : IndexSet) (i : Nat) :
    (markAll xs out).1[i]? =
      (xs[i]?).map fun x => x.mark (Liveness.through (xs.drop (i + 1)) out) := by
  induction xs generalizing i with
  | nil => rfl
  | cons x xs ih =>
    rw [markAll_cons]
    cases i with
    | zero => simp
    | succ i => simpa using ih i

/-- An item of a marked graph has the flags for what is live after it. -/
theorem Graph.getElem?_items_markRanges (b i : Nat) :
    ((g.markRanges live).items b)[i]? =
      ((g.items b)[i]?).map fun x => x.mark (live.atPoint g (b, i + 1)) := by
  rw [items_markRanges, Action.getElem?_markAll]
  rfl

namespace Analysis

variable {a : Analysis} {u : Nat} {r : Ref}

theorem Sound.agree_at (h : a.Sound fn) (hσ : fn.Arrives a.graph p σ)
    (hu : fn.isVar u = true) (hv : fn.isVar v = true) (huv : u ≠ v)
    (hnot : a.interference.interferes u v = .ok false)
    (hlu : u ∈ a.live.atPoint a.graph p) (hlv : v ∈ a.live.atPoint a.graph p) : σ u = σ v := by
  obtain ⟨path, σ₀, hpath, hσ₀, hexec⟩ := hσ
  exact h.agree hσ₀ hpath (List.take_append_drop p.2 _).symm hexec hu hv huv (by simp [hnot]) hlu hlv

theorem ineffective_eq : a.ineffective =
    (a.graph.allItems.filter fun x => x.access = .set && !x.effective).map (·.origin) := by
  simp only [ineffective, allItems, List.filter_flatMap, List.map_flatMap]

theorem mem_ineffective : r ∈ a.ineffective ↔ ∃ (b i : Nat) (x : Action),
    (a.graph.items b)[i]? = some x ∧ x.access = .set ∧ x.effective = false ∧ x.origin = r := by
  simp only [ineffective_eq, List.mem_map, List.mem_filter, mem_allItems, Bool.and_eq_true,
    decide_eq_true_eq, Bool.not_eq_true']
  constructor
  · rintro ⟨x, ⟨⟨b, hx⟩, hset, hflag⟩, hr⟩
    obtain ⟨i, hi⟩ := List.mem_iff_getElem?.mp hx
    exact ⟨b, i, x, hi, hset, hflag, hr⟩
  · rintro ⟨b, i, x, hi, hset, hflag, hr⟩
    exact ⟨x, ⟨⟨b, List.mem_of_getElem? hi⟩, hset, hflag⟩, hr⟩

theorem mem_ineffective_iff {t : Tree} (ht : fn.WellFormed t) (hg : fn.actionGraph = .ok g)
    (ha : a.graph = g.markRanges a.live) (hx : (g.items b)[i]? = some x) (hset : x.access = .set) :
    x.origin ∈ a.ineffective ↔ x.index ∉ a.live.atPoint g (b, i + 1) := by
  have hmark : ∀ live : IndexSet, (x.mark live).effective = decide (x.index ∈ live) := by
    intro live
    simp [Action.mark, hset]
  simp only [mem_ineffective, ha, getElem?_items_markRanges, Option.map_eq_some_iff]
  constructor
  · rintro ⟨b', i', y, ⟨x', hx', rfl⟩, -, hflag, horigin⟩
    rw [Action.origin_mark] at horigin
    have hmem := mem_allItems.mpr ⟨b, List.mem_of_getElem? hx⟩
    have hmem' := mem_allItems.mpr ⟨b', List.mem_of_getElem? hx'⟩
    obtain rfl := ht.eq_of_origin hg hmem' hmem horigin
    have hnodup : g.allItems.Nodup := .of_map _ (ht.nodup_origins hg)
    obtain rfl := eq_of_mem_items hnodup (List.mem_of_getElem? hx) (List.mem_of_getElem? hx')
    have hlt := (List.getElem?_eq_some_iff.mp hx).1
    obtain rfl := (List.getElem?_inj hlt (nodup_items hnodup b)).mp (hx.trans hx'.symm)
    rw [hmark] at hflag
    simpa using hflag
  · intro hdead
    refine ⟨b, i, _, ⟨x, hx, rfl⟩, ?_, ?_, ?_⟩
    · rw [Action.access_mark, hset]
    · rw [hmark]
      simpa using hdead
    · rw [Action.origin_mark]

end Analysis

end LocalFlow
