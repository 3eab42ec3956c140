import LocalFlow.Liveness.Undirected
import LocalFlow.Proofs.Liveness.Interference
import Mathlib.Data.List.Nodup
import Mathlib.Data.List.Perm.Basic

/-! Interference as an undirected graph. Its edges have every pair of interfering locals once, and the
other ends of the edges at a local are the locals that interfere with it. A library that keeps the edges
which it is given has them as the neighbors of the local. -/

namespace LocalFlow

/-- The library keeps what it is given. It takes a node that it does not have yet and an edge between two
different nodes that it has. Of several edges between the same nodes it keeps one. -/
structure GraphLibrary.Keeps {G : Type} (lib : GraphLibrary G) : Prop where
  nodes_new : lib.nodes lib.new = []
  neighbors_new : ∀ u, lib.neighbors lib.new u = []
  nodup_neighbors : ∀ g u, (lib.neighbors g u).Nodup
  addNode : ∀ g v, v ∉ lib.nodes g → ∃ g', lib.addNode g v = some g' ∧
    (∀ u, u ∈ lib.nodes g' ↔ u ∈ lib.nodes g ∨ u = v) ∧
    ∀ u w, w ∈ lib.neighbors g' u ↔ w ∈ lib.neighbors g u
  setEdge : ∀ g x y, x ∈ lib.nodes g → y ∈ lib.nodes g → x ≠ y →
    ∃ g', lib.setEdge g x y = some g' ∧ (∀ u, u ∈ lib.nodes g' ↔ u ∈ lib.nodes g) ∧
      ∀ u w, w ∈ lib.neighbors g' u ↔ w ∈ lib.neighbors g u ∨ u = x ∧ w = y ∨ u = y ∧ w = x

namespace Interference

variable {n a b u v w : Nat} {m : Interference} {es : List (Nat × Nat)}

/-- The table is a symmetric relation on `n` locals, none of which interferes with itself. -/
structure Undirected (n : Nat) (m : Interference) : Prop extends Square n m where
  symm : ∀ {a b}, a < n → b < n → m.interferes a b = m.interferes b a
  irrefl : ∀ {a}, a < n → m.interferes a a = .ok false

/-- How many of the `n` locals, parameters among them, interfere with `v`. -/
def numInterfering (n : Nat) (m : Interference) (v : Nat) : Nat :=
  (List.range n).countP fun u => m.interferes v u = .ok true

theorem mem_partners_cons {x y : Nat} (hxy : x ≠ y) :
    w ∈ partners ((x, y) :: es) u ↔ (u = x ∧ w = y ∨ u = y ∧ w = x) ∨ w ∈ partners es u := by
  simp only [partners, List.filterMap_cons]
  grind

namespace Square

variable (h : Square n m)
include h

theorem numLocals_eq : m.numLocals = n := by
  rw [numLocals, h.size_eq, Int.toNat_natCast]

theorem neighborsFrom_eq (ha : a < n) {count : Nat} (hb : b + count ≤ n) :
    m.neighborsFrom a b count =
      .ok ((List.range' b count).filter fun u => m.interferes a u = .ok true) := by
  induction count generalizing b with
  | zero => rfl
  | succ count ih =>
    have hhere := h.interferes_eq ha (by omega : b < n)
    rw [neighborsFrom, ih (by omega), List.range'_succ, List.filter_cons, hhere]
    simp [bind, Except.bind, pure, Except.pure]

/-- The pairs from `a` on are the interfering ones whose smaller local is `a` or comes after it. -/
theorem exists_edgesFrom {count : Nat} (ha : a + count = n) : ∃ es, m.edgesFrom a count = .ok es ∧
    (∀ x y, (x, y) ∈ es ↔ a ≤ x ∧ x < y ∧ y < n ∧ m.interferes x y = .ok true) ∧
    es.Pairwise fun e e' => e.1 < e'.1 ∨ e.1 = e'.1 ∧ e.2 < e'.2 := by
  induction count generalizing a with
  | zero => exact ⟨[], rfl, fun x y => by simp; omega, .nil⟩
  | succ count ih =>
    obtain ⟨es, hes, hmem, hsorted⟩ := ih (by omega : a + 1 + count = n)
    have hrow := h.neighborsFrom_eq (by omega : a < n) (by omega : a + 1 + count ≤ n)
    refine ⟨_, bind_eq_ok.mpr ⟨_, hrow, bind_eq_ok.mpr ⟨es, hes, rfl⟩⟩, fun x y => ?_, ?_⟩
    · simp only [List.mem_append, List.mem_map, List.mem_filter, List.mem_range'_1, decide_eq_true_eq,
        Prod.mk.injEq, hmem]
      constructor
      · rintro (⟨y', ⟨hy, hxy⟩, rfl, rfl⟩ | hlater)
        · exact ⟨Nat.le_refl _, by omega, by omega, hxy⟩
        · exact ⟨by omega, hlater.2⟩
      · rintro ⟨hx, hlt, hy, hxy⟩
        rcases Nat.eq_or_lt_of_le hx with rfl | hx
        · exact .inl ⟨y, ⟨by omega, hxy⟩, rfl, rfl⟩
        · exact .inr ⟨by omega, hlt, hy, hxy⟩
    · refine List.pairwise_append.mpr ⟨?_, hsorted, fun e he e' he' => ?_⟩
      · have hrange : (List.range' (a + 1) count).Pairwise (· < ·) := List.pairwise_lt_range' 1
        exact List.pairwise_map.mpr ((hrange.filter _).imp fun hlt => .inr ⟨rfl, hlt⟩)
      · obtain ⟨y, -, rfl⟩ := List.mem_map.mp he
        have hlater := (hmem e'.1 e'.2).mp he'
        exact .inl (by omega)

/-- The edges are found, and they are the interfering pairs in lexicographic order. -/
theorem exists_edges : ∃ es, m.edges = .ok es ∧
    (∀ a b, (a, b) ∈ es ↔ a < b ∧ b < n ∧ m.interferes a b = .ok true) ∧
    es.Pairwise fun e e' => e.1 < e'.1 ∨ e.1 = e'.1 ∧ e.2 < e'.2 := by
  obtain ⟨es, hes, hmem, hsorted⟩ := h.exists_edgesFrom (Nat.zero_add n)
  refine ⟨es, ?_, fun a b => ?_, hsorted⟩
  · rw [edges, h.numLocals_eq, hes]
  · rw [hmem]
    exact ⟨fun hab => hab.2, fun hab => ⟨Nat.zero_le a, hab⟩⟩

theorem mem_edges (hes : m.edges = .ok es) :
    (a, b) ∈ es ↔ a < b ∧ b < n ∧ m.interferes a b = .ok true := by
  obtain ⟨es', hes', hmem, -⟩ := h.exists_edges
  obtain rfl : es' = es := Except.ok.inj (hes'.symm.trans hes)
  exact hmem a b

theorem edges_ascending (hes : m.edges = .ok es) :
    es.Pairwise fun e e' => e.1 < e'.1 ∨ e.1 = e'.1 ∧ e.2 < e'.2 := by
  obtain ⟨es', hes', -, hsorted⟩ := h.exists_edges
  obtain rfl : es' = es := Except.ok.inj (hes'.symm.trans hes)
  exact hsorted

theorem nodup_edges (hes : m.edges = .ok es) : es.Nodup := by
  refine (h.edges_ascending hes).imp ?_
  rintro e e' (hlt | ⟨-, hlt⟩) rfl
  · exact Nat.lt_irrefl _ hlt
  · exact Nat.lt_irrefl _ hlt

theorem edge_ends (hes : m.edges = .ok es) {e : Nat × Nat} (he : e ∈ es) :
    e.1 ≠ e.2 ∧ e.1 < n ∧ e.2 < n := by
  obtain ⟨hlt, hsnd, -⟩ := (h.mem_edges hes).mp he
  omega

/-- No two edges at a local have the same other end, since the smaller end comes first in both. -/
theorem nodup_partners (hes : m.edges = .ok es) (v : Nat) : (partners es v).Nodup := by
  unfold partners
  rw [List.Nodup, List.pairwise_filterMap]
  refine (h.nodup_edges hes).imp_of_mem ?_
  rintro ⟨a, b⟩ ⟨a', b'⟩ hedge hedge' hne u hu u' hu' rfl
  have hlt := ((h.mem_edges hes).mp hedge).1
  have hlt' := ((h.mem_edges hes).mp hedge').1
  apply hne
  grind

end Square

namespace Undirected

variable (h : Undirected n m) (hes : m.edges = .ok es)
include h hes

theorem mem_partners (hv : v < n) :
    u ∈ partners es v ↔ u < n ∧ m.interferes v u = .ok true := by
  unfold partners
  rw [List.mem_filterMap]
  constructor
  · rintro ⟨⟨a, b⟩, hedge, hother⟩
    obtain ⟨hlt, hb, hab⟩ := (h.mem_edges hes).mp hedge
    by_cases hav : a = v
    · subst hav
      simp only [if_true, Option.some.injEq] at hother
      subst hother
      exact ⟨hb, hab⟩
    · have ha : a < n := by omega
      simp only [if_neg hav, Option.ite_none_right_eq_some, Option.some.injEq] at hother
      obtain ⟨rfl, rfl⟩ := hother
      exact ⟨ha, h.symm ha hb ▸ hab⟩
  · rintro ⟨hu, huv⟩
    rcases Nat.lt_trichotomy u v with hlt | rfl | hlt
    · have hne : ¬u = v := by omega
      have hedge := (h.mem_edges hes).mpr ⟨hlt, hv, h.symm hv hu ▸ huv⟩
      exact ⟨(u, v), hedge, by simp [hne]⟩
    · rw [h.irrefl hu] at huv
      cases huv
    · exact ⟨(v, u), (h.mem_edges hes).mpr ⟨hlt, hu, huv⟩, by simp⟩

theorem partners_perm (hv : v < n) :
    (partners es v).Perm ((List.range n).filter fun u => m.interferes v u = .ok true) := by
  refine (List.perm_ext_iff_of_nodup (h.nodup_partners hes v) (List.nodup_range.filter _)).mpr ?_
  intro u
  rw [h.mem_partners hes hv, List.mem_filter, List.mem_range, decide_eq_true_iff]

theorem length_partners (hv : v < n) : (partners es v).length = m.numInterfering n v := by
  rw [(h.partners_perm hes hv).length_eq, numInterfering, List.countP_eq_length_filter]

end Undirected

end Interference

namespace GraphLibrary.Keeps

variable {G : Type} {lib : GraphLibrary G} (h : lib.Keeps) {n : Nat} {m : Interference}
include h

theorem addNodes {vs : List Nat} (hvs : vs.Nodup) {g : G} (hnew : ∀ v ∈ vs, v ∉ lib.nodes g) :
    ∃ g', vs.foldlM (fun g v => found (lib.addNode g v)) g = .ok g' ∧
      (∀ u, u ∈ lib.nodes g' ↔ u ∈ lib.nodes g ∨ u ∈ vs) ∧
      ∀ u w, w ∈ lib.neighbors g' u ↔ w ∈ lib.neighbors g u := by
  induction vs generalizing g with
  | nil => exact ⟨g, rfl, by simp, fun _ _ => Iff.rfl⟩
  | cons v vs ih =>
    obtain ⟨hv, hvs⟩ := List.nodup_cons.mp hvs
    obtain ⟨g₁, hg₁, hnodes₁, hsame₁⟩ := h.addNode g v (hnew v (by simp))
    have hnew₁ : ∀ u ∈ vs, u ∉ lib.nodes g₁ := by
      intro u hu hmem
      rcases (hnodes₁ u).mp hmem with hmem | rfl
      · exact hnew u (.tail _ hu) hmem
      · exact hv hu
    obtain ⟨g', hg', hnodes', hsame'⟩ := ih hvs hnew₁
    refine ⟨g', ?_, fun u => ?_, fun u w => (hsame' u w).trans (hsame₁ u w)⟩
    · rw [List.foldlM_cons, hg₁]
      exact hg'
    · rw [hnodes', hnodes₁, List.mem_cons, or_assoc]

theorem setEdges {es : List (Nat × Nat)} {g : G}
    (hes : ∀ e ∈ es, e.1 ≠ e.2 ∧ e.1 ∈ lib.nodes g ∧ e.2 ∈ lib.nodes g) :
    ∃ g', es.foldlM (fun g e => found (lib.setEdge g e.1 e.2)) g = .ok g' ∧
      (∀ u, u ∈ lib.nodes g' ↔ u ∈ lib.nodes g) ∧
      ∀ u w, w ∈ lib.neighbors g' u ↔ w ∈ lib.neighbors g u ∨ w ∈ Interference.partners es u := by
  induction es generalizing g with
  | nil => exact ⟨g, rfl, fun _ => Iff.rfl, by simp [Interference.partners]⟩
  | cons e es ih =>
    obtain ⟨hne, hfst, hsnd⟩ := hes e (by simp)
    obtain ⟨g₁, hg₁, hnodes₁, hends₁⟩ := h.setEdge g e.1 e.2 hfst hsnd hne
    have hes₁ : ∀ e ∈ es, e.1 ≠ e.2 ∧ e.1 ∈ lib.nodes g₁ ∧ e.2 ∈ lib.nodes g₁ := by
      intro e he
      simpa only [hnodes₁] using hes e (.tail _ he)
    obtain ⟨g', hg', hnodes', hends'⟩ := ih hes₁
    refine ⟨g', ?_, fun u => (hnodes' u).trans (hnodes₁ u), fun u w => ?_⟩
    · rw [List.foldlM_cons, hg₁]
      exact hg'
    · rw [hends', hends₁, Interference.mem_partners_cons hne, or_assoc]

/-- The exported graph has the locals as nodes, and at each of them the other ends of the edges there,
each once. -/
theorem exists_toGraph (hm : m.Square n) {es : List (Nat × Nat)} (hes : m.edges = .ok es) :
    ∃ g, m.toGraph lib = .ok g ∧ (∀ u, u ∈ lib.nodes g ↔ u < n) ∧
      ∀ v, (lib.neighbors g v).Perm (Interference.partners es v) := by
  have hrange : ∀ v ∈ List.range n, v ∉ lib.nodes lib.new := by simp [h.nodes_new]
  obtain ⟨g₁, hg₁, hnodes₁, hsame₁⟩ := h.addNodes List.nodup_range hrange
  simp only [h.nodes_new, h.neighbors_new, List.not_mem_nil, false_or, List.mem_range] at hnodes₁ hsame₁
  have hends : ∀ e ∈ es, e.1 ≠ e.2 ∧ e.1 ∈ lib.nodes g₁ ∧ e.2 ∈ lib.nodes g₁ := by
    intro e he
    simpa only [hnodes₁] using hm.edge_ends hes he
  obtain ⟨g, hg, hnodes, hneighbors⟩ := h.setEdges hends
  refine ⟨g, ?_, fun u => (hnodes u).trans (hnodes₁ u), fun v => ?_⟩
  · rw [Interference.toGraph, hm.numLocals_eq]
    exact bind_eq_ok.mpr ⟨g₁, hg₁, bind_eq_ok.mpr ⟨es, hes, hg⟩⟩
  · refine (List.perm_ext_iff_of_nodup (h.nodup_neighbors g v) (hm.nodup_partners hes v)).mpr
      fun u => ?_
    rw [hneighbors, hsame₁, false_or]

end GraphLibrary.Keeps

theorem GraphLibrary.keeps_lists : lists.Keeps where
  nodes_new := rfl
  neighbors_new _ := rfl
  nodup_neighbors g u := (IndexSet.ofList (Interference.partners g.2 u)).ascending.imp Nat.ne_of_lt
  addNode g v hv := by
    refine ⟨(g.1.insert v, g.2), if_neg hv, fun u => ?_, fun _ _ => Iff.rfl⟩
    simp only [lists, IndexSet.mem_toList, IndexSet.mem_insert, or_comm]
  setEdge g x y hx hy hxy := by
    refine ⟨((g.1.insert x).insert y, (x, y) :: g.2), if_neg hxy, fun u => ?_, fun u w => ?_⟩
    · simp only [lists, IndexSet.mem_toList, IndexSet.mem_insert] at hx hy ⊢
      grind
    · simp only [lists, IndexSet.mem_toList, IndexSet.mem_ofList, Interference.mem_partners_cons hxy,
        or_comm]

end LocalFlow
