import LocalFlow.Proofs.Graph.Entry
import LocalFlow.Proofs.Ssa.Chains

/-! Where merges stand. The blocks that merge a local are exactly the iterated frontier of its
definitions: spreading adds nothing but frontiers, and it stops only when it has added them all. -/

namespace LocalFlow

open LocalFlow.Graph

/-- The dominance of `x` ends at `y`: it holds for a predecessor of `y`, and for `y` it does not hold
strictly. -/
def Graph.InFrontier {α : Type} (g : Graph α) (e x y : Nat) : Prop :=
  ∃ p, g.Reaches e p ∧ y ∈ g.succ p ∧ g.Dominates e x p ∧ ¬g.StrictlyDominates e x y

theorem Graph.InFrontier.reaches {α : Type} {g : Graph α} {e x y : Nat} (h : g.InFrontier e x y) :
    g.Reaches e y := by
  obtain ⟨p, hp, hpy, -⟩ := h
  exact hp.step hpy

/-- A block where dominance ends is entered from two sides. -/
theorem Graph.InFrontier.exists_preds {α : Type} {g : Graph α} {e x y : Nat} {t : DominatorTree}
    (h : g.InFrontier e x y) (ht : g.IsDominatorTree e t) (hye : y ≠ e) :
    ∃ p q, p ≠ q ∧ g.Reaches e p ∧ g.Reaches e q ∧ y ∈ g.succ p ∧ y ∈ g.succ q := by
  obtain ⟨p, hp, hpy, hxp, hxy⟩ := h
  by_contra hnone
  have honly : ∀ c, g.Reaches e c → y ∈ g.succ c → c = p := by
    intro c hc hcy
    by_contra hne
    exact hnone ⟨c, p, hne, hc, hp, hcy, hpy⟩
  exact hxy (ht.strictlyDominates_of_only_pred hye (hp.step hpy) honly hxp)

/-- What holds of the merges so far and of the frontiers of all definitions holds of all merges. -/
theorem DominatorTree.forall_mem_spread {t : DominatorTree} {sites merges pending : List Nat}
    {P : Nat → Prop} (hfrontier : ∀ b f, b ∈ sites ∨ P b → f ∈ t.frontier b → P f)
    (hmerges : ∀ f ∈ merges, P f) (hpending : ∀ b ∈ pending, b ∈ sites ∨ P b) :
    ∀ f ∈ t.spread sites merges pending, P f := by
  fun_induction spread t sites merges pending with
  | case1 merges => exact hmerges
  | case2 merges b pending ih =>
    have hnew : ∀ f ∈ t.newMerges merges b, P f := by
      intro f hf
      have hmem : f ∈ t.frontier b := (List.mem_filter.mp hf).1
      exact hfrontier b f (hpending b (by simp)) hmem
    apply ih
    · intro f hf
      exact (List.mem_append.mp hf).elim (hmerges f) (hnew f)
    · intro c hc
      rcases List.mem_append.mp hc with hc | hc
      · exact hpending c (.tail _ hc)
      · exact .inr (hnew c (List.mem_filter.mp hc).1)

namespace Renaming

variable {s s' : Renaming} {fn : Function} {g : Graph Ref} {t : DominatorTree} {b c depth : Nat}

def definitionsAt (s : Renaming) (b : Nat) : List Definition := (s.phisAt b).map Phi.definition

theorem definitionsAt_congr (h : s'.phis = s.phis) (x : Nat) :
    s'.definitionsAt x = s.definitionsAt x := by
  rw [definitionsAt, phisAt, h, definitionsAt, phisAt]

/-- A merge that is handed a definition stays where it is. -/
theorem definitionsAt_feed (h : feed b s c = .ok s') (x : Nat) :
    s'.definitionsAt x = s.definitionsAt x := by
  obtain ⟨current, -, rfl⟩ := feed_eq_ok.mp h
  rw [definitionsAt, phisAt_setIfInBounds]
  split
  · rw [List.map_map]
    rfl
  · rfl

theorem definitionsAt_enterBlock (h : enterBlock fn g b s = .ok s') (x : Nat) :
    s'.definitionsAt x = s.definitionsAt x := by
  obtain ⟨-, s₁, s₂, hmerges, hitems, hsucc⟩ := enterBlock_eq_ok.mp h
  have hfeeds : s'.definitionsAt x = s₂.definitionsAt x :=
    foldlM_keeps (P := fun y => y.definitionsAt x = s₂.definitionsAt x)
      (fun _ _ _ _ hfeed hy => (definitionsAt_feed hfeed x).trans hy) hsucc rfl
  rw [hfeeds, definitionsAt_congr (phis_accesses hitems)]
  obtain ⟨_, rfl⟩ := restacks_merges hmerges
  rfl

/-- Renaming fills merges in; it neither adds nor removes nor moves one. -/
theorem definitionsAt_visit (h : visit fn g t depth b s = .ok s') (x : Nat) :
    s'.definitionsAt x = s.definitionsAt x := by
  refine visit_keeps (P := fun y => y.definitionsAt x = s.definitionsAt x)
    (fun hb hy => (definitionsAt_enterBlock hb x).trans hy) (fun hpop hy => ?_) h rfl
  obtain ⟨_, rfl⟩ := restacks_pop hpop
  exact hy

end Renaming

namespace Function

variable {fn : Function} {g : Graph Ref} {t : DominatorTree} {form : SsaForm} {s : Renaming}
  {e v b f : Nat}

/-- Block `b` records a write of local `v`. -/
def Writes (fn : Function) (g : Graph Ref) (v b : Nat) : Prop :=
  ∃ r ∈ g.items b, ∃ n, fn.node? r = some n ∧ (n.kind = .localSet ∨ n.kind = .localTee) ∧ n.index = v

theorem writesIn_iff : fn.writesIn g v b = true ↔ fn.Writes g v b := by
  simp only [writesIn, accessesIn, List.any_filterMap, List.any_eq_true, Writes]
  refine exists_congr fun r => and_congr_right fun _ => ?_
  cases fn.node? r with
  | none => simp
  | some n =>
    simp only [Option.some.injEq, exists_eq_left', ← Kind.isLocalWrite_iff]
    by_cases hwrite : n.kind.isLocalWrite = true
    · simp [hwrite, Kind.isLocalAccess_of_isLocalWrite hwrite]
    · by_cases haccess : n.kind.isLocalAccess = true <;> simp [hwrite, haccess]

/-- The least set of blocks that has the frontier of the entry, the frontiers of the reachable blocks
that write `v`, and the frontiers of its own members. -/
inductive Merging (fn : Function) (g : Graph Ref) (e v : Nat) : Nat → Prop
  | entry {f : Nat} : g.InFrontier e e f → Merging fn g e v f
  | write {b f : Nat} : g.Reaches e b → fn.Writes g v b → g.InFrontier e b f → Merging fn g e v f
  | merge {b f : Nat} : Merging fn g e v b → g.InFrontier e b f → Merging fn g e v f

theorem Merging.inFrontier (h : fn.Merging g e v f) : ∃ x, g.InFrontier e x f := by
  cases h with
  | entry hf => exact ⟨e, hf⟩
  | write _ _ hf => exact ⟨_, hf⟩
  | merge _ hf => exact ⟨_, hf⟩

theorem definition_of_mem_definitionSites (ht : g.IsDominatorTree e t) (he : g.start? = some e)
    (hb : b ∈ fn.definitionSites g t v) : b = e ∨ (g.Reaches e b ∧ fn.Writes g v b) := by
  rw [definitionSites, he] at hb
  rcases List.mem_cons.mp hb with hb | hb
  · exact .inl hb
  · simp only [List.mem_filter, List.mem_range, Bool.and_eq_true] at hb
    exact .inr ⟨ht.isReachable_iff.mp hb.1.2.1, writesIn_iff.mp hb.1.2.2⟩

section Placement

variable (ht : g.IsDominatorTree e t) (he : g.start? = some e) (hg : g.Mirrored)
include ht he hg

theorem merging_of_mem_mergesOf
    (hf : f ∈ (t.withFrontiers g.pred).mergesOf (fn.definitionSites g (t.withFrontiers g.pred) v)) :
    fn.Merging g e v f := by
  have hlt := (start?_eq_some.mp he).2
  refine DominatorTree.forall_mem_spread (fun b f hb hfrontier => ?_) (by simp)
    (fun b hb => .inl hb) f hf
  have hends : g.InFrontier e b f := (ht.mem_frontier_iff hg hlt).mp hfrontier
  rcases hb with hb | hb
  · rcases definition_of_mem_definitionSites (ht.withFrontiers g.pred) he hb with rfl | ⟨hreach, hw⟩
    · exact .entry hends
    · exact .write hreach hw hends
  · exact .merge hb hends

/-- The merges that are placed are those of the iterated frontier. -/
theorem mergesIn_iff_merging (hv : v < fn.numLocals) :
    fn.mergesIn g (t.withFrontiers g.pred) v f = true ↔ fn.Merging g e v f := by
  constructor
  · intro h
    exact merging_of_mem_mergesOf ht he hg (mergesIn_iff.mp h).2.2
  · intro h
    have hmeet : fn.MergesMeet g (fn.mergesIn g (t.withFrontiers g.pred) v) e v :=
      mergesMeet_mergesIn ht he hg hv
    induction h with
    | entry hf =>
      obtain ⟨p, hp, hpf, hxp, hxf⟩ := hf
      exact hmeet (.inl rfl) hp hpf hxp hxf
    | write hb hw hf =>
      obtain ⟨p, hp, hpf, hxp, hxf⟩ := hf
      exact hmeet (.inr (.inr ⟨hb, writesIn_iff.mpr hw⟩)) hp hpf hxp hxf
    | merge _ hf ih =>
      obtain ⟨p, hp, hpf, hxp, hxf⟩ := hf
      exact hmeet (.inr (.inl ih)) hp hpf hxp hxf

end Placement

theorem definitions_placePhis (fn : Function) (g : Graph Ref) (t : DominatorTree) (b : Nat) :
    ((fn.placePhis g t).getD b []).map Phi.definition =
      ((List.range fn.numLocals).filter (fn.mergesIn g t · b)).map (.phi b) := by
  simp only [placePhis, Array.getD_eq_getD_getElem?, List.getElem?_toArray, List.getElem?_map]
  by_cases hb : b < g.size
  · simp only [List.getElem?_range hb, Option.map_some, Option.getD_some, List.filterMap_map,
      List.map_filterMap]
    rw [← List.filterMap_eq_filter, List.map_filterMap]
    apply List.filterMap_congr
    intro v hv
    by_cases hmem : b ∈ t.mergesOf (fn.definitionSites g t v)
    · simp [mergesIn, hmem, hb, List.mem_range.mp hv, Phi.definition]
    · simp [mergesIn, hmem]
  · simp [hb, mergesIn]

namespace Constructs

theorem definitionsAt_eq (h : Constructs fn form t s) (b : Nat) :
    (form.phisAt b).map Phi.definition =
      ((List.range fn.numLocals).filter (fn.mergesIn form.graph form.dominators · b)).map (.phi b) := by
  rw [SsaForm.phisAt, h.phis]
  exact (Renaming.definitionsAt_visit h.visit b).trans
    (definitions_placePhis fn form.graph form.dominators b)

theorem mergesIn_iff (h : Constructs fn form t s) (hv : v < fn.numLocals) :
    fn.mergesIn form.graph form.dominators v b = true ↔ fn.Merging form.graph 0 v b := by
  rw [h.dominators]
  exact mergesIn_iff_merging h.tree h.start h.mirrored hv

theorem phi_mem (h : Constructs fn form t s) {phi : Phi} (hphi : phi ∈ form.phisAt b) :
    phi.block = b ∧ phi.index < fn.numLocals ∧ fn.Merging form.graph 0 phi.index b := by
  have hmem := List.mem_map_of_mem (f := Phi.definition) hphi
  rw [h.definitionsAt_eq] at hmem
  obtain ⟨v, hv, heq⟩ := List.mem_map.mp hmem
  obtain ⟨hrange, hmerges⟩ := List.mem_filter.mp hv
  obtain ⟨rfl, rfl⟩ := Definition.phi.inj heq
  have hlt := List.mem_range.mp hrange
  exact ⟨rfl, hlt, (h.mergesIn_iff hlt).mp hmerges⟩

theorem isSome_phi?_iff (h : Constructs fn form t s) (hv : v < fn.numLocals) :
    (form.phi? f v).isSome = true ↔ fn.Merging form.graph 0 v f := by
  rw [SsaForm.phi?, List.find?_isSome]
  constructor
  · rintro ⟨phi, hphi, hindex⟩
    obtain rfl : phi.index = v := by simpa using hindex
    exact (h.phi_mem hphi).2.2
  · intro hmerging
    have hmem : .phi f v ∈ (form.phisAt f).map Phi.definition := by
      rw [h.definitionsAt_eq]
      have hmerges := (h.mergesIn_iff hv).mpr hmerging
      exact List.mem_map_of_mem (List.mem_filter.mpr ⟨List.mem_range.mpr hv, hmerges⟩)
    obtain ⟨phi, hphi, heq⟩ := List.mem_map.mp hmem
    have hindex : phi.index = v := (Definition.phi.inj heq).2
    exact ⟨phi, hphi, by simpa using hindex⟩

theorem pairwise_phisAt (h : Constructs fn form t s) (b : Nat) :
    (form.phisAt b).Pairwise (·.index < ·.index) := by
  have hsorted : (((List.range fn.numLocals).filter
      (fn.mergesIn form.graph form.dominators · b)).map (Definition.phi b)).Pairwise
        (·.index < ·.index) :=
    List.pairwise_map.mpr (List.Pairwise.sublist List.filter_sublist List.pairwise_lt_range)
  rw [← h.definitionsAt_eq] at hsorted
  exact (List.pairwise_map (f := Phi.definition)).mp hsorted

/-- A block that merges anything can be reached, and from two blocks that can be reached. -/
theorem exists_preds (h : Constructs fn form t s) (hf : fn.Merging form.graph 0 v f) :
    form.graph.Reaches 0 f ∧ ∃ p q, p ≠ q ∧ p ∈ form.graph.pred f ∧ q ∈ form.graph.pred f ∧
      form.graph.Reaches 0 p ∧ form.graph.Reaches 0 q := by
  obtain ⟨x, hx⟩ := hf.inFrontier
  have hne : f ≠ 0 := by
    rintro rfl
    obtain ⟨p, -, hp, -⟩ := hx
    exact lower_not_mem_succ h.graph p hp
  obtain ⟨p, q, hpq, hp, hq, hpf, hqf⟩ := hx.exists_preds h.tree hne
  exact ⟨hx.reaches, p, q, hpq, h.mirrored.mem_pred.mpr hpf, h.mirrored.mem_pred.mpr hqf, hp, hq⟩

end Constructs

/-- A block merges a local if and only if it is in the iterated frontier of the entry and of the
blocks that write the local. Merges stand by ascending local, one for a local, and only in reachable
blocks with two reachable predecessors. -/
theorem ssa_merges_exact (h : fn.ssa = .ok form) :
    fn.nodeGraph = .ok form.graph ∧ form.graph.start? = some 0 ∧
      (∀ x f, f ∈ form.dominators.frontier x ↔ form.graph.InFrontier 0 x f) ∧
      (∀ v < fn.numLocals, ∀ f, (form.phi? f v).isSome = true ↔ fn.Merging form.graph 0 v f) ∧
      ∀ b, (form.phisAt b).Pairwise (·.index < ·.index) ∧ ∀ phi ∈ form.phisAt b,
        phi.block = b ∧ phi.index < fn.numLocals ∧ form.graph.Reaches 0 b ∧
          ∃ p q, p ≠ q ∧ p ∈ form.graph.pred b ∧ q ∈ form.graph.pred b ∧
            form.graph.Reaches 0 p ∧ form.graph.Reaches 0 q := by
  obtain ⟨t, s, hform⟩ := exists_constructs h
  refine ⟨hform.graph, hform.start, fun x f => ?_, fun v hv f => hform.isSome_phi?_iff hv,
    fun b => ⟨hform.pairwise_phisAt b, fun phi hphi => ?_⟩⟩
  · rw [hform.dominators]
    exact hform.tree.mem_frontier_iff hform.mirrored (start?_eq_some.mp hform.start).2
  · obtain ⟨hblock, hlt, hmerging⟩ := hform.phi_mem hphi
    exact ⟨hblock, hlt, hform.exists_preds hmerging⟩

/-- A loop that may set its variable in each turn. The write is below the test, so the variable merges
after the test, and for that reason at the head of the loop. -/
def settingInTurn : Function where
  name := "settingInTurn"
  params := [.i32]
  vars := [.i32]
  body := 7
  nodes := #[
    { kind := .localGet, type := .i32, index := 0 },
    { kind := .const, type := .i32, value := .i32 7 },
    { kind := .localSet, index := 1, kids := [1] },
    { kind := .ifElse, kids := [0, 2] },
    { kind := .localGet, type := .i32, index := 0 },
    { kind := .br, label := "top", kids := [.absent, 4] },
    { kind := .block, kids := [3, 5] },
    { kind := .loop, label := "top", kids := [6] }]

theorem ssa_merges_exact_settingInTurn :
    ∃ form, settingInTurn.ssa = .ok form ∧ settingInTurn.Writes form.graph 1 3 ∧
      (form.phi? 4 1).isSome = true ∧ settingInTurn.Merging form.graph 0 1 4 ∧
      (form.phi? 1 1).isSome = true ∧ settingInTurn.Merging form.graph 0 1 1 ∧
      ¬settingInTurn.Merging form.graph 0 1 3 ∧ ¬settingInTurn.Merging form.graph 0 0 1 ∧
      ∃ p q, p ≠ q ∧ p ∈ form.graph.pred 1 ∧ q ∈ form.graph.pred 1 ∧
        form.graph.Reaches 0 p ∧ form.graph.Reaches 0 q := by
  obtain ⟨form, phi, hssa, hitems, hfour, hone, hthree, hother, hphi⟩ : ∃ form phi,
      settingInTurn.ssa = .ok form ∧ form.graph.items 3 = [1, 2] ∧
      (form.phi? 4 1).isSome = true ∧ (form.phi? 1 1).isSome = true ∧
      (form.phi? 3 1).isSome = false ∧ (form.phi? 1 0).isSome = false ∧ form.phisAt 1 = [phi] :=
    ⟨_, _, by cbv, rfl, rfl, rfl, rfl, rfl, rfl⟩
  obtain ⟨-, -, -, hexact, hall⟩ := ssa_merges_exact hssa
  have hv : ∀ v < 2, ∀ f, (form.phi? f v).isSome = true ↔ settingInTurn.Merging form.graph 0 v f :=
    hexact
  refine ⟨form, hssa, ⟨2, by simp [hitems], _, rfl, .inl rfl, rfl⟩, hfour,
    (hv 1 (by decide) 4).mp hfour, hone, (hv 1 (by decide) 1).mp hone, ?_, ?_, ?_⟩
  · rw [← hv 1 (by decide), hthree]
    exact Bool.false_ne_true
  · rw [← hv 0 (by decide), hother]
    exact Bool.false_ne_true
  · exact ((hall 1).2 phi (by simp [hphi])).2.2.2

end Function

end LocalFlow
