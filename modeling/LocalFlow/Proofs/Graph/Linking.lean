import LocalFlow.Proofs.Graph.Entry
import Mathlib

/-! Every graph that is built by adding blocks and edges, and so every graph that lowering makes, is well
linked: its blocks are numbered by their places, its edges stand once at each end, and they are counted
as the pairs of blocks that they link. -/

namespace LocalFlow

open LocalFlow.Graph

namespace Graph

variable {α : Type} {g : Graph α} {a b : Nat}

def linkedPairs (g : Graph α) : Finset (Nat × Nat) :=
  {p ∈ Finset.range g.size ×ˢ Finset.range g.size | p.2 ∈ g.succ p.1}

structure WellLinked (g : Graph α) : Prop where
  id_eq : ∀ i < g.size, g.id? i = some i
  mem_succ_iff : ∀ s t, t ∈ g.succ s ↔ s ∈ g.pred t
  succ_nodup : ∀ s, (g.succ s).Nodup
  pred_nodup : ∀ t, (g.pred t).Nodup
  lt_of_mem_succ : ∀ s t, t ∈ g.succ s → s < g.size ∧ t < g.size
  lt_of_mem_pred : ∀ s t, s ∈ g.pred t → s < g.size ∧ t < g.size
  numEdges_eq : g.numEdges = g.linkedPairs.card

def edges (g : Graph α) : List (Nat × Nat) :=
  (List.range g.size).flatMap fun a => (g.succ a).map (a, ·)

theorem mem_edges : (a, b) ∈ g.edges ↔ b ∈ g.succ a := by
  simp only [edges, List.mem_flatMap, List.mem_range, List.mem_map, Prod.mk.injEq]
  constructor
  · rintro ⟨x, -, y, hy, rfl, rfl⟩
    exact hy
  · intro hb
    exact ⟨a, lt_size_of_mem_succ hb, b, hb, rfl, rfl⟩

theorem map_succ_blocks (g : Graph α) :
    g.blocks.toList.map (·.succ) = (List.range g.size).map g.succ := by
  apply List.ext_getElem
  · simp [size]
  · intro i hi _
    have hlt : i < g.blocks.size := by simpa using hi
    simp [succ, Array.getElem?_eq_getElem hlt]

theorem length_edges (g : Graph α) : g.edges.length = g.numEdges := by
  have hlengths := congrArg (fun succs => (succs.map List.length).sum) g.map_succ_blocks
  simpa [edges, numEdges, List.length_flatMap, Function.comp_def] using hlengths.symm

namespace Mirrored

/-- Edges of different blocks differ in where they start, and those of one block in where they end. -/
theorem nodup_edges (h : g.Mirrored) : g.edges.Nodup := by
  unfold edges
  rw [List.nodup_flatMap]
  constructor
  · intro a _
    exact (h.succ_nodup a).map fun _ _ heq => congrArg Prod.snd heq
  · apply List.nodup_range.imp
    intro a b hne p hpa hpb
    obtain ⟨x, -, rfl⟩ := List.mem_map.mp hpa
    obtain ⟨y, -, heq⟩ := List.mem_map.mp hpb
    exact hne (congrArg Prod.fst heq).symm

theorem toFinset_edges (h : g.Mirrored) : g.edges.toFinset = g.linkedPairs := by
  ext ⟨a, b⟩
  simp only [List.mem_toFinset, mem_edges, linkedPairs, Finset.mem_filter, Finset.mem_product,
    Finset.mem_range]
  constructor
  · intro hb
    exact ⟨⟨lt_size_of_mem_succ hb, h.succ_lt hb⟩, hb⟩
  · exact And.right

theorem wellLinked (h : g.Mirrored) : g.WellLinked where
  id_eq i hi := by
    obtain ⟨block, hblock⟩ : ∃ block, g.blocks[i]? = some block :=
      ⟨_, Array.getElem?_eq_getElem hi⟩
    have hsome : g.id? i = some block.id := by simp [id?, hblock]
    rw [hsome, h.eq_of_id? hsome]
  mem_succ_iff s t := h.mem_pred.symm
  succ_nodup := h.succ_nodup
  pred_nodup := h.pred_nodup
  lt_of_mem_succ s t ht := ⟨lt_size_of_mem_succ ht, h.succ_lt ht⟩
  lt_of_mem_pred s t hs := by
    have ht := h.mem_pred.mp hs
    exact ⟨lt_size_of_mem_succ ht, h.succ_lt ht⟩
  numEdges_eq := by
    rw [← h.toFinset_edges, List.toFinset_card_of_nodup h.nodup_edges, length_edges]

end Mirrored

end Graph

theorem Function.lower_wellLinked {α : Type} {fn : Function} {root : Ref} {recorder : Ref → Option α}
    {g : Graph α} (h : fn.lower root recorder = .ok g) :
    g.WellLinked ∧ g.entry = 0 ∧ 0 < g.size ∧ g.pred 0 = [] := by
  obtain ⟨hmirrored, hstart, -⟩ := lower_lays h
  obtain ⟨hentry, hsize⟩ := start?_eq_some.mp hstart
  refine ⟨hmirrored.wellLinked, hentry, hsize, ?_⟩
  rw [List.eq_nil_iff_forall_not_mem]
  intro a ha
  exact lower_not_mem_succ h a (hmirrored.mem_pred.mp ha)

namespace Graph

/-- However blocks and edges are added, the graph is well linked. So are the graphs that lowering makes,
of which the first block is the entry and nothing leads back to it. -/
theorem edges_stay_mirrored :
    (∀ {α : Type} {g : Graph α}, g.Built → g.WellLinked) ∧
    ∀ {α : Type} {fn : Function} {root : Ref} {recorder : Ref → Option α} {g : Graph α},
      fn.lower root recorder = .ok g →
        g.WellLinked ∧ g.entry = 0 ∧ 0 < g.size ∧ g.pred 0 = [] :=
  ⟨fun h => h.mirrored.wellLinked, Function.lower_wellLinked⟩

/-- Two blocks of which the second is its own successor. The edge between them is added twice. -/
def looped : Graph Nat :=
  [(0, 1), (0, 1), (1, 1)].foldl (fun g x => g.link x.1 x.2)
    { entry := 1, blocks := #[{ items := [7] }, { id := 1 }] }

/-- A body that is a loop, which a table with repeated labels starts over. -/
def revolving : Function where
  name := "revolving"
  params := [.i32]
  body := 0
  nodes := #[
    { kind := .loop, label := "again", kids := [1] },
    { kind := .brTable, labels := ["again", "again"], label := "again", kids := [.absent, 2] },
    { kind := .localGet, type := .i32, index := 0 }]

theorem edges_stay_mirrored_revolving :
    looped.Built ∧ looped.WellLinked ∧ looped.pred 1 = [0, 1] ∧ looped.numEdges = 2 ∧
      ∃ g, revolving.lower revolving.body some = .ok g ∧ g.WellLinked ∧ g.entry = 0 ∧
        0 < g.size ∧ g.pred 0 = [] ∧ g.pred 1 = [0, 1] ∧ g.numEdges = 3 := by
  have blocks : Built { entry := 1, blocks := #[{ items := [7] }, { id := 1 }] : Graph Nat } :=
    .addBlock [] (.addBlock [7] (.empty 1))
  have built : looped.Built := blocks.linkAll (by decide)
  obtain ⟨g, hlower, hpred, hedges⟩ : ∃ g, revolving.lower revolving.body some = .ok g ∧
      g.pred 1 = [0, 1] ∧ g.numEdges = 3 := ⟨_, by cbv, rfl, rfl⟩
  obtain ⟨hlinked, hentry, hsize, hnone⟩ := edges_stay_mirrored.2 hlower
  exact ⟨built, edges_stay_mirrored.1 built, by decide, by decide, g, hlower, hlinked, hentry,
    hsize, hnone, hpred, hedges⟩

end Graph

end LocalFlow
