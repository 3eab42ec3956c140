import Mathlib
import LocalFlow.Proofs.Function.Validation
import LocalFlow.Proofs.Graph.Recording
import LocalFlow.Proofs.Graph.Scoping
import LocalFlow.Proofs.Ssa.Renaming
import LocalFlow.Ssa.Form

/-! Definitions and uses. Whatever path control takes from the entry, a read sees the definition
that the path met last, and a merge receives from each predecessor the definition that the path
through it met last. -/

namespace LocalFlow

open LocalFlow.Graph Definition

namespace SsaForm

/-- Block `b` has a merge of local `v`. -/
def merges (form : SsaForm) (v b : Nat) : Bool := (form.phi? b v).isSome

/-- The definition of `v` that was met last on a path. It starts as the value of a parameter or as
zero, and becomes the merge of a block when the block is entered, and any write of `v`. -/
def current (form : SsaForm) (fn : Function) (v : Nat) (path : List Nat) : Definition :=
  path.foldl (across fn form.graph (form.merges v) v)
    (if v < fn.params.length then .param v else .zero v)

/-- The definition of `v` that was met last in block `b` after the given nodes, if the path `path`
leads to the block. -/
def currentIn (form : SsaForm) (fn : Function) (v : Nat) (path : List Nat) (b : Nat)
    (before : List Ref) : Definition :=
  before.foldl (after fn v) (enter (form.merges v) v (form.current fn v path) b)

end SsaForm

theorem initial_eq_ite (fn : Function) (v : Nat) :
    initial fn v = if v < fn.params.length then .param v else .zero v :=
  if_congr decide_eq_true_iff rfl rfl

theorem lookup_eq_some_of_mem {α β : Type} [BEq α] [LawfulBEq α] {entries : List (α × β)} {a : α}
    {b : β} (hmem : ∃ b, (a, b) ∈ entries) (hall : ∀ b', (a, b') ∈ entries → b' = b) :
    entries.lookup a = some b := by
  obtain ⟨b', hb'⟩ := hmem
  cases h : entries.lookup a with
  | none => simpa using List.lookup_eq_none_iff.mp h _ hb'
  | some c =>
    obtain ⟨l₁, l₂, rfl, -⟩ := List.lookup_eq_some_iff.mp h
    rw [hall c (by simp)]

namespace Function

variable {fn : Function} {g : Graph Ref} {t : DominatorTree} {form : SsaForm} {tree : Tree}
  {e b : Nat}

theorem checkAccess_eq_ok {r : Ref} : fn.checkAccess r = .ok () ↔ ∃ n, fn.node? r = some n ∧
    (n.kind.isLocalAccess = true → n.index < fn.numLocals) := by
  simp only [checkAccess, bind_eq_ok, node_eq_ok]
  refine exists_congr fun n => and_congr_right fun _ => ?_
  cases haccess : n.kind.isLocalAccess with
  | false => simp [pure, Except.pure]
  | true =>
    by_cases hindex : n.index < fn.numLocals
    · simp [hindex, Nat.not_le.mpr hindex, pure, Except.pure]
    · simp [hindex, Nat.not_lt.mp hindex]

/-- Every node is there, and the locals that are accessed are declared. -/
theorem forall_checkAccess_iff {items : List Ref} : (∀ r ∈ items, fn.checkAccess r = .ok ()) ↔
    (∀ r ∈ items, ∃ n, fn.node? r = some n) ∧ Renaming.Declared fn items := by
  simp only [checkAccess_eq_ok]
  constructor
  · intro h
    refine ⟨fun r hr => (h r hr).imp fun n hn => hn.1, fun r hr n hn => ?_⟩
    obtain ⟨n', hn', hdeclared⟩ := h r hr
    obtain rfl : n = n' := Option.some.inj (hn.symm.trans hn')
    exact hdeclared
  · rintro ⟨hnodes, hdeclared⟩ r hr
    obtain ⟨n, hn⟩ := hnodes r hr
    exact ⟨n, hn, hdeclared r hr n hn⟩

section Scan

variable (ht : g.IsDominatorTree e t) (hg : g.Mirrored) (he : e < g.size)
include ht hg he

theorem mem_reachable_iff : b ∈ (List.range g.size).filter t.isReachable ↔ g.Reaches e b := by
  rw [List.mem_filter, List.mem_range, ht.isReachable_iff]
  exact ⟨fun h => h.2, fun h => ⟨hg.lt_size_of_reaches he h, h⟩⟩

theorem checkAccesses_eq_ok : fn.checkAccesses g t = .ok () ↔ ∀ b, g.Reaches e b →
    (∀ r ∈ g.items b, ∃ n, fn.node? r = some n) ∧ Renaming.Declared fn (g.items b) := by
  simp only [checkAccesses, forM_eq_ok, mem_reachable_iff ht hg he, forall_checkAccess_iff]

end Scan

/-- The visit of the entry starts with the placed merges and with what the locals start with. -/
theorem enters_start (ht : g.IsDominatorTree e t) :
    (Renaming.start fn (fn.placePhis g t)).Enters fn g t (fn.mergesIn g t) e (.initial fn) := by
  have hphi : ∀ {b phi}, phi ∈ (Renaming.start fn (fn.placePhis g t)).phisAt b →
      fn.mergesIn g t phi.index b = true ∧ phi = { index := phi.index, block := b } :=
    fun h => mem_placePhis.mp h
  refine ⟨⟨fun {b d} => ?_, nofun, fun {c phi p d} hmem hin => ?_⟩, ⟨?_, fun {v} hv => ?_⟩,
    fun v _ => .entry ht.entry⟩
  · rw [List.mem_map]
    constructor
    · rintro ⟨phi, hmem, rfl⟩
      refine ⟨phi.index, (hphi hmem).1, ?_⟩
      rw [(hphi hmem).2]
      rfl
    · rintro ⟨v, hv, rfl⟩
      exact ⟨{ index := v, block := b }, mem_placePhis.mpr ⟨hv, rfl⟩, rfl⟩
  · rw [(hphi hmem).2] at hin
    exact absurd hin List.not_mem_nil
  · simp [Renaming.start]
  · exact Renaming.top_eq_ok.mpr ⟨[], by simp [Renaming.start, hv]⟩

/-- How a form is made: over the graph of the function and its dominators, by a visit of the entry
that starts with the placed merges. -/
structure Constructs (fn : Function) (form : SsaForm) (t : DominatorTree) (s : Renaming) : Prop where
  graph : fn.nodeGraph = .ok form.graph
  mirrored : form.graph.Mirrored
  start : form.graph.start? = some 0
  tree : form.graph.IsDominatorTree 0 t
  dominators : form.dominators = t.withFrontiers form.graph.pred
  declared : fn.checkAccesses form.graph form.dominators = .ok ()
  visit : Renaming.visit fn form.graph form.dominators form.graph.size 0
    (.start fn (fn.placePhis form.graph form.dominators)) = .ok s
  phis : form.phis = s.phis
  reads : form.reads = s.reads.reverse

theorem exists_constructs (h : fn.ssa = .ok form) : ∃ t s, Constructs fn form t s := by
  obtain ⟨g, hg, h⟩ := bind_eq_ok.mp (mapError_eq_ok.mp h)
  obtain ⟨t', ht', h⟩ := bind_eq_ok.mp h
  obtain ⟨hmirrored, hstart, -⟩ := lower_lays hg
  obtain ⟨t, ht, htree⟩ := exists_dominatorTree hmirrored hstart
  obtain rfl : t.withFrontiers g.pred = t' := Except.ok.inj (ht.symm.trans ht')
  obtain ⟨_, hdeclared, h⟩ := bind_eq_ok.mp h
  obtain ⟨rest, horder⟩ := List.head?_eq_some_iff.mp (htree.withFrontiers g.pred).ranking.head
  simp only [horder] at h
  obtain ⟨s, hvisit, h⟩ := bind_eq_ok.mp h
  cases h
  exact ⟨t, s, hg, hmirrored, hstart, htree, rfl, hdeclared, hvisit, rfl, rfl⟩

theorem exists_mem_nodes (hat : tree.IsAt fn fn.body) (hg : fn.nodeGraph = .ok g) {r : Ref}
    (hr : r ∈ g.items b) : ∃ n, (r, n) ∈ tree.nodes ∧ fn.node? r = some n := by
  have hkept := (lower_allItems_subperm hg).subset (mem_allItems.mpr ⟨b, hr⟩)
  rw [tree_eq_of_isAt hat] at hkept
  obtain ⟨x, hx, hxr⟩ := List.mem_filterMap.mp hkept
  cases hxr
  exact ⟨x.2, hx, hat.node?_eq x hx⟩

/-- What is known of a form: its graph is that of the function, and it comes from a sound renaming
that covers all reachable blocks. -/
structure Renamed (fn : Function) (form : SsaForm) (t : DominatorTree) (s : Renaming) : Prop where
  graph : fn.nodeGraph = .ok form.graph
  mirrored : form.graph.Mirrored
  start : form.graph.start? = some 0
  tree : form.graph.IsDominatorTree 0 t
  meet : ∀ v < fn.numLocals, fn.MergesMeet form.graph (fn.mergesIn form.graph t v) 0 v
  declared : ∀ b, form.graph.Reaches 0 b → Renaming.Declared fn (form.graph.items b)
  sound : s.Sound fn form.graph t (fn.mergesIn form.graph t)
  covers : ∀ b, form.graph.Reaches 0 b → s.Covers fn form.graph b
  phis : form.phis = s.phis
  reads : form.reads = s.reads.reverse

theorem exists_renamed (h : fn.ssa = .ok form) : ∃ t s, Renamed fn form t s := by
  obtain ⟨t, s, hform⟩ := exists_constructs h
  have htree := hform.tree.withFrontiers form.graph.pred
  have hlt := (start?_eq_some.mp hform.start).2
  have hdeclared := hform.declared
  have hvisit := hform.visit
  rw [hform.dominators] at hdeclared hvisit
  have hdecl := fun b hb => ((checkAccesses_eq_ok htree hform.mirrored hlt).mp hdeclared b hb).2
  have hvisits := Renaming.visits_visit htree hform.mirrored hlt (enters_start htree) hvisit
  exact ⟨_, s, hform.graph, hform.mirrored, hform.start, htree,
    fun v hv => mergesMeet_mergesIn hform.tree hform.start hform.mirrored hv, hdecl, hvisits.sound,
    fun b hb => hvisits.covers 0 (by simp) b (.entry hb), hform.phis, hform.reads⟩

namespace Renamed

variable {s : Renaming} {v p : Nat} {phi : Phi} {path : List Nat} {before rest : List Ref} {r : Ref}
  {n : Node}

theorem mem_phisAt (h : Renamed fn form t s) (hphi : form.phi? b v = some phi) :
    phi ∈ s.phisAt b ∧ phi.index = v := by
  have hmem := List.mem_of_find?_eq_some hphi
  have hindex := List.find?_some hphi
  rw [SsaForm.phisAt, h.phis] at hmem
  exact ⟨hmem, by simpa using hindex⟩

theorem merges_eq (h : Renamed fn form t s) (v : Nat) :
    form.merges v = fn.mergesIn form.graph t v := by
  funext b
  rw [Bool.eq_iff_iff, SsaForm.merges]
  constructor
  · intro hsome
    obtain ⟨phi, hphi⟩ := Option.isSome_iff_exists.mp hsome
    obtain ⟨hmem, rfl⟩ := h.mem_phisAt hphi
    exact h.sound.merges_of_mem hmem
  · intro hmerges
    obtain ⟨phi, hmem, heq⟩ := List.mem_map.mp (h.sound.mem_definitions.mpr ⟨v, hmerges, rfl⟩)
    have hindex : phi.index = v := (Definition.phi.inj heq).2
    rw [SsaForm.phi?, SsaForm.phisAt, h.phis]
    exact List.find?_isSome.mpr ⟨phi, hmem, by simpa using hindex⟩

/-- A path and the dominator tree bring the same definition to a block. -/
theorem currentIn_eq (h : Renamed fn form t s) (hv : v < fn.numLocals)
    (hpath : form.graph.IsPath 0 path b) {d : Definition}
    (hd : fn.Inherits form.graph t (fn.mergesIn form.graph t v) v b d) (before : List Ref) :
    form.currentIn fn v path.dropLast b before =
      before.foldl (after fn v) (enter (fn.mergesIn form.graph t v) v d b) := by
  rw [SsaForm.currentIn, SsaForm.current, h.merges_eq, ← initial_eq_ite,
    Inherits.enter_foldl_across h.tree (h.meet v hv) hpath hd]

theorem definitionOf?_eq (h : Renamed fn form t s) (hnodup : form.graph.allItems.Nodup)
    (hpath : form.graph.IsPath 0 path b) (hitems : form.graph.items b = before ++ r :: rest)
    (hn : fn.node? r = some n) (hget : n.kind = .localGet) :
    form.definitionOf? r = some (form.currentIn fn n.index path.dropLast b before) := by
  have hmem : r ∈ form.graph.items b := by simp [hitems]
  have hlt := h.declared b ⟨path, hpath⟩ r hmem n hn (by rw [hget]; rfl)
  rw [SsaForm.definitionOf?, h.reads, List.reverse_reverse]
  refine lookup_eq_some_of_mem ((h.covers b ⟨path, hpath⟩).reads r hmem n hn hget) fun d hd => ?_
  obtain ⟨b', before', rest', n', d₀, hitems', hn', hd₀, rfl⟩ := h.sound.reads hd
  obtain rfl : n = n' := Option.some.inj (hn.symm.trans hn')
  obtain rfl : b = b' := eq_of_mem_items hnodup hmem (by simp [hitems'])
  have hunique := nodup_items hnodup b
  rw [hitems] at hunique hitems'
  have hbefore : r ∉ before ∧ r ∉ rest := by
    have := List.nodup_middle.mp hunique
    simpa using (List.nodup_cons.mp this).1
  obtain ⟨rfl, -, rfl⟩ := (List.append_cons_inj_of_notMem hbefore.1 hbefore.2).mp hitems'
  exact (h.currentIn_eq hlt hpath hd₀ before).symm

theorem incoming_eq (h : Renamed fn form t s) (hpath : form.graph.IsPath 0 path p)
    (hsucc : b ∈ form.graph.succ p) (hphi : form.phi? b v = some phi) :
    phi.incoming.lookup p = some (form.current fn v path) := by
  obtain ⟨hmem, rfl⟩ := h.mem_phisAt hphi
  have hlt := (mergesIn_iff.mp (h.sound.merges_of_mem hmem)).1
  refine lookup_eq_some_of_mem ((h.covers p ⟨path, hpath⟩).fed b hsucc phi hmem) fun d hd => ?_
  obtain ⟨d₀, hd₀, rfl⟩ := h.sound.incoming hmem hd
  have hlast : path.dropLast ++ [p] = path := List.dropLast_append_getLast? p hpath.last
  have hcurrent : form.current fn phi.index path =
      form.currentIn fn phi.index path.dropLast p (form.graph.items p) := by
    rw [SsaForm.current, ← hlast, List.foldl_append, List.dropLast_concat]
    rfl
  rw [hcurrent, h.currentIn_eq hlt hpath hd₀]
  rfl

end Renamed

/-- On every path from the entry, reads and merges see the definition that was met last. -/
theorem ssa_chains_exact (hvalid : fn.validate = .ok ()) (h : fn.ssa = .ok form) :
    fn.nodeGraph = .ok form.graph ∧ form.graph.start? = some 0 ∧
      ∀ v path b, form.graph.IsPath 0 path b →
        (∀ before r rest n, form.graph.items b = before ++ r :: rest → fn.node? r = some n →
          n.kind = .localGet → n.index = v →
          form.definitionOf? r = some (form.currentIn fn v path.dropLast b before)) ∧
        ∀ c ∈ form.graph.succ b, ∀ phi, form.phi? c v = some phi →
          phi.incoming.lookup b = some (form.current fn v path) := by
  obtain ⟨tree, htree⟩ := wellFormed_of_validate hvalid
  obtain ⟨t, s, hs⟩ := exists_renamed h
  refine ⟨hs.graph, hs.start, fun v path b hpath => ⟨?_, ?_⟩⟩
  · rintro before r rest n hitems hn hget rfl
    exact hs.definitionOf?_eq (htree.nodup_allItems hs.graph) hpath hitems hn hget
  · intro c hc phi hphi
    exact hs.incoming_eq hpath hc hphi

/-- A loop that copies its variable to itself and starts over while the parameter is not zero. -/
def repeating : Function where
  name := "repeating"
  params := [.i32]
  vars := [.i32]
  body := 5
  nodes := #[
    { kind := .localGet, type := .i32, index := 1 },
    { kind := .localSet, index := 1, kids := [0] },
    { kind := .localGet, type := .i32, index := 0 },
    { kind := .br, label := "top", kids := [.absent, 2] },
    { kind := .block, kids := [1, 3] },
    { kind := .loop, label := "top", kids := [4] }]

theorem ssa_chains_exact_repeating :
    repeating.validate = .ok () ∧ ∃ form phi, repeating.ssa = .ok form ∧
      form.graph.IsPath 0 [0, 1, 1] 1 ∧ 1 ∈ form.graph.succ 1 ∧ form.phi? 1 1 = some phi ∧
      form.definitionOf? 0 = some (form.currentIn repeating 1 [0, 1] 1 []) ∧
      form.currentIn repeating 1 [0, 1] 1 [] = .phi 1 1 ∧
      form.definitionOf? 2 = some (form.currentIn repeating 0 [0, 1] 1 [0, 1]) ∧
      form.currentIn repeating 0 [0, 1] 1 [0, 1] = .param 0 ∧
      phi.incoming.lookup 1 = some (form.current repeating 1 [0, 1, 1]) ∧
      form.current repeating 1 [0, 1, 1] = .instr 1 1 ∧
      phi.incoming.lookup 0 = some (form.current repeating 1 [0]) ∧
      form.current repeating 1 [0] = .zero 1 := by
  have hvalid : repeating.validate = .ok () := by cbv
  obtain ⟨form, phi, hssa, hphi, hnone₀, hnone₁, hnone, hitems₀, hitems, hsucc₀, hsucc₁⟩ :
      ∃ form phi, repeating.ssa = .ok form ∧ form.phi? 1 1 = some phi ∧ form.phi? 0 0 = none ∧
        form.phi? 1 0 = none ∧ form.phi? 0 1 = none ∧ form.graph.items 0 = [] ∧
        form.graph.items 1 = [0, 1, 2, 3] ∧ form.graph.succ 0 = [1] ∧ form.graph.succ 1 = [1, 3] :=
    ⟨_, _, by cbv, rfl, rfl, rfl, rfl, rfl, rfl, rfl, rfl⟩
  have hpath : form.graph.IsPath 0 [0, 1, 1] 1 := ⟨rfl, rfl, by simp [hsucc₀, hsucc₁]⟩
  have hentry : form.graph.IsPath 0 [0] 0 := ⟨rfl, rfl, by simp⟩
  have hmem₀ : 1 ∈ form.graph.succ 0 := by simp [hsucc₀]
  have hmem₁ : 1 ∈ form.graph.succ 1 := by simp [hsucc₁]
  obtain ⟨-, -, hall⟩ := ssa_chains_exact hvalid hssa
  obtain ⟨hreads, hphis⟩ := hall 1 [0, 1, 1] 1 hpath
  have hread := (hall 0 [0, 1, 1] 1 hpath).1 [0, 1] 2 [3] _ hitems rfl rfl rfl
  have hstart := (hall 1 [0] 0 hentry).2 1 hmem₀ phi hphi
  refine ⟨hvalid, form, phi, hssa, hpath, hmem₁, hphi, hreads [] 0 [1, 2, 3] _ hitems rfl rfl rfl,
    ?_, hread, ?_, hphis 1 hmem₁ phi hphi, ?_, hstart, ?_⟩
  · simp [SsaForm.currentIn, enter, SsaForm.merges, hphi]
  · simp only [SsaForm.currentIn, SsaForm.current, List.foldl_cons, List.foldl_nil, across, enter,
      SsaForm.merges, hnone₀, hnone₁, hitems₀, hitems]
    rfl
  · simp only [SsaForm.current, List.foldl_cons, List.foldl_nil, across, hitems]
    rfl
  · simp only [SsaForm.current, List.foldl_cons, List.foldl_nil, across, enter, SsaForm.merges,
      hnone, hitems₀]
    rfl

end Function

end LocalFlow
