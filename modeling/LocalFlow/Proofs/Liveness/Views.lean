import Mathlib
import LocalFlow.Proofs.Liveness.Capacity
import LocalFlow.Proofs.Liveness.Degree

/-! The views of a table of interferences. After any pairs have been entered, the bits, the neighbors,
the edges, the degrees and the exported graph all speak of the same undirected relation: two different
locals interfere if they were entered together, in either order. -/

namespace LocalFlow

namespace Interference

/-- Enters pairs one after another. -/
def addAll (m : Interference) (pairs : List (Nat × Nat)) : Except Failure Interference :=
  pairs.foldlM (fun m pair => m.add pair.1 pair.2) m

/-- How many of the given edges local `a` is an end of. -/
def edgesAt (es : List (Nat × Nat)) (a : Nat) : Nat := es.countP fun e => e.1 = a ∨ e.2 = a

variable {n a b : Nat} {m : Interference} {pairs es : List (Nat × Nat)}

/-- A table has a place of its own for every pair unless there are too many of them. -/
theorem ofSize_eq_empty_iff : ofSize n = .ok (empty n) ↔ n * n ≤ 2 ^ 48 := by
  refine ⟨fun h => ?_, ofSize_of_le⟩
  have hlimited := ((limited_ofSize n).2 _ h).size_bits
  simpa [empty] using hlimited

namespace Square

theorem interferes_eq_decide (h : Square n m) (ha : a < n) (hb : b < n) {p : Prop} [Decidable p]
    (hp : m.interferes a b = .ok true ↔ p) : m.interferes a b = .ok (decide p) := by
  rw [h.interferes_eq ha hb, Except.ok.injEq] at hp ⊢
  rw [Bool.eq_iff_iff, hp, decide_eq_true_iff]

/-- What was entered in either order interferes, and nothing else does. -/
theorem addAll_eq (h : Square n m) (hpairs : ∀ pair ∈ pairs, pair.1 < n ∧ pair.2 < n) :
    ∃ m', m.addAll pairs = .ok m' ∧ Square n m' ∧ ∀ {c d}, c < n → d < n →
      (m'.interferes c d = .ok true ↔
        m.interferes c d = .ok true ∨ c ≠ d ∧ ((c, d) ∈ pairs ∨ (d, c) ∈ pairs)) := by
  induction pairs generalizing m with
  | nil => exact ⟨m, rfl, h, by simp⟩
  | cons pair pairs ih =>
    obtain ⟨hfst, hsnd⟩ := hpairs pair (by simp)
    obtain ⟨m₁, hm₁, h₁, hiff₁⟩ := h.add_eq hfst hsnd
    obtain ⟨m', hm', h', hiff'⟩ := ih h₁ fun p hp => hpairs p (.tail _ hp)
    refine ⟨m', ?_, h', fun {c d} hc hd => ?_⟩
    · rw [addAll, List.foldlM_cons, hm₁]
      exact hm'
    · rw [hiff' hc hd, hiff₁ hc hd]
      obtain ⟨x, y⟩ := pair
      simp only [List.mem_cons, Prod.mk.injEq]
      grind

variable (h : Square n m)
include h

theorem neighbors_eq (ha : a < n) :
    m.neighbors a = .ok ((List.range n).filter fun u => m.interferes a u = .ok true) := by
  rw [neighbors, h.numLocals_eq, h.neighborsFrom_eq ha (by omega), ← List.range_eq_range']

theorem degree_eq (ha : a < n) : m.degree a = .ok (m.numInterfering n a) := by
  rw [degree, h.neighbors_eq ha, numInterfering, List.countP_eq_length_filter]
  rfl

end Square

/-- Entering pairs of locals into the empty table makes an undirected relation. -/
theorem exists_addAll_empty (hpairs : ∀ pair ∈ pairs, pair.1 < n ∧ pair.2 < n) :
    ∃ m, (empty n).addAll pairs = .ok m ∧ Undirected n m ∧ ∀ {a b}, a < n → b < n →
      m.interferes a b = .ok (decide (a ≠ b ∧ ((a, b) ∈ pairs ∨ (b, a) ∈ pairs))) := by
  obtain ⟨m, hm, hsquare, hiff⟩ := (square_empty n).addAll_eq hpairs
  have heq : ∀ {a b}, a < n → b < n →
      m.interferes a b = .ok (decide (a ≠ b ∧ ((a, b) ∈ pairs ∨ (b, a) ∈ pairs))) := by
    intro a b ha hb
    refine hsquare.interferes_eq_decide ha hb ?_
    rw [hiff ha hb, interferes_empty ha hb]
    simp
  refine ⟨m, hm, ⟨hsquare, fun {a b} ha hb => ?_, fun {a} ha => ?_⟩, heq⟩
  · rw [heq ha hb, heq hb ha]
    simp only [ne_comm, or_comm]
  · rw [heq ha ha]
    simp

/-- Every edge with two different ends is at two locals. -/
theorem sum_edgesAt (hes : ∀ e ∈ es, e.1 ≠ e.2 ∧ e.1 < n ∧ e.2 < n) :
    ∑ a ∈ Finset.range n, edgesAt es a = 2 * es.length := by
  unfold edgesAt
  induction es with
  | nil => simp
  | cons e es ih =>
    obtain ⟨hne, hfst, hsnd⟩ := hes e (by simp)
    have hends : (Finset.range n).filter (fun a => e.1 = a ∨ e.2 = a) = {e.1, e.2} := by
      ext a
      simp only [Finset.mem_filter, Finset.mem_range, Finset.mem_insert, Finset.mem_singleton]
      omega
    have hhere : ∑ a ∈ Finset.range n, (if e.1 = a ∨ e.2 = a then 1 else 0) = 2 := by
      rw [← Finset.card_filter, hends, Finset.card_pair hne]
    simp only [List.countP_cons, decide_eq_true_eq, Finset.sum_add_distrib]
    rw [ih fun e he => hes e (.tail _ he), hhere, List.length_cons]
    omega

theorem length_partners_eq_edgesAt (es : List (Nat × Nat)) (a : Nat) :
    (partners es a).length = edgesAt es a := by
  rw [partners, List.length_filterMap_eq_countP, edgesAt]
  refine List.countP_congr fun e _ => ?_
  grind

end Interference

/-- Whatever pairs of `n` locals are entered, in whatever order, two locals interfere if and only if they
differ and were entered together. The neighbors of a local are all that interfere with it, in order. The
edges are the interfering pairs, each once, with the smaller local first and in lexicographic order. The
degree of a local is the number of the edges at it and of its neighbors in the exported graph, and all
degrees together are twice the edges. -/
theorem Interference.views_agree {G : Type} {lib : GraphLibrary G} (hlib : lib.Keeps) {n : Nat}
    {pairs : List (Nat × Nat)} (hpairs : ∀ pair ∈ pairs, pair.1 < n ∧ pair.2 < n) :
    (ofSize n = .ok (empty n) ↔ n * n ≤ 2 ^ 48) ∧
    ∃ m es g, (empty n).addAll pairs = .ok m ∧ m.edges = .ok es ∧ m.toGraph lib = .ok g ∧
      (∀ a < n, ∀ b < n,
        m.interferes a b = .ok (decide (a ≠ b ∧ ((a, b) ∈ pairs ∨ (b, a) ∈ pairs)))) ∧
      (∀ a < n, ∃ ns, m.neighbors a = .ok ns ∧ ns.Pairwise (· < ·) ∧
        ∀ b, b ∈ ns ↔ b < n ∧ m.interferes a b = .ok true) ∧
      (∀ a b, (a, b) ∈ es ↔ a < b ∧ b < n ∧ m.interferes a b = .ok true) ∧
      (es.Pairwise fun e e' => e.1 < e'.1 ∨ e.1 = e'.1 ∧ e.2 < e'.2) ∧
      (∀ a, a ∈ lib.nodes g ↔ a < n) ∧
      (∀ a < n, m.degree a = .ok (edgesAt es a) ∧ (lib.neighbors g a).length = edgesAt es a ∧
        (partners es a).length = edgesAt es a) ∧
      ∑ a ∈ Finset.range n, edgesAt es a = 2 * es.length := by
  refine ⟨ofSize_eq_empty_iff, ?_⟩
  obtain ⟨m, hm, hundirected, hinterferes⟩ := exists_addAll_empty hpairs
  obtain ⟨es, hes, hmem, hsorted⟩ := hundirected.exists_edges
  obtain ⟨g, hg, hnodes, hneighbors⟩ := hlib.exists_toGraph hundirected.toSquare hes
  refine ⟨m, es, g, hm, hes, hg, fun a ha b hb => hinterferes ha hb, fun a ha => ?_, hmem, hsorted,
    hnodes, fun a ha => ⟨?_, ?_, ?_⟩, ?_⟩
  · refine ⟨_, hundirected.neighbors_eq ha, List.pairwise_lt_range.filter _, fun b => ?_⟩
    rw [List.mem_filter, List.mem_range, decide_eq_true_iff]
  · rw [hundirected.degree_eq ha, ← hundirected.length_partners hes ha, length_partners_eq_edgesAt]
  · rw [(hneighbors a).length_eq, length_partners_eq_edgesAt]
  · exact length_partners_eq_edgesAt es a
  · exact sum_edgesAt fun e he => hundirected.edge_ends hes he

theorem Interference.views_agree_sparse :
    GraphLibrary.lists.Keeps ∧ ofSize 4 = .ok (empty 4) ∧
      ∃ m g, (empty 4).addAll [(0, 2), (3, 2), (1, 1)] = .ok m ∧ m.toGraph .lists = .ok g ∧
        m.edges = .ok [(0, 2), (2, 3)] ∧ m.interferes 2 3 = .ok true ∧
        m.interferes 1 1 = .ok false ∧ m.neighbors 2 = .ok [0, 3] ∧ m.degree 2 = .ok 2 ∧
        (GraphLibrary.lists.neighbors g 2).length = 2 := by
  have hpairs : ∀ pair ∈ [(0, 2), (3, 2), (1, 1)], pair.1 < 4 ∧ pair.2 < 4 := by decide
  obtain ⟨hsize, m, es, g, hm, hes, hg, hinterferes, -, -, -, -, hdegrees, -⟩ :=
    views_agree GraphLibrary.keeps_lists hpairs
  obtain ⟨m', hm', hedges, hneighbors⟩ : ∃ m', (empty 4).addAll [(0, 2), (3, 2), (1, 1)] = .ok m' ∧
      m'.edges = .ok [(0, 2), (2, 3)] ∧ m'.neighbors 2 = .ok [0, 3] := ⟨_, rfl, rfl, rfl⟩
  obtain rfl : m' = m := Except.ok.inj (hm'.symm.trans hm)
  obtain rfl : [(0, 2), (2, 3)] = es := Except.ok.inj (hedges.symm.trans hes)
  obtain ⟨hdegree, hlength, -⟩ := hdegrees 2 (by decide)
  exact ⟨GraphLibrary.keeps_lists, hsize.mpr (by decide), m', g, hm, hg, hedges,
    hinterferes 2 (by decide) 3 (by decide), hinterferes 1 (by decide) 1 (by decide), hneighbors,
    hdegree, hlength⟩

end LocalFlow
