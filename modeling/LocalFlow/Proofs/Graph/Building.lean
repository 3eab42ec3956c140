import LocalFlow.Graph.Basic
import Mathlib.Data.List.Nodup

/-! How blocks, edges and items are added to a graph, one operation at a time, and what every graph
that is built in this way has: a block stands at its number, and an edge stands once at each of its
ends, which both exist. -/

namespace LocalFlow.Graph

variable {α : Type} {g : Graph α} {a b x y : Nat}

/-- The graphs that can be built by adding blocks, edges and items, in any order. -/
inductive Built : Graph α → Prop
  | empty (entry : Int) : Built { entry }
  | addBlock {g : Graph α} (items : List α) : Built g → Built (g.addBlock items).1
  | addEdge {g g' : Graph α} {a b : Int} : Built g → g.addEdge a b = .ok g' → Built g'
  | record {g : Graph α} (b : Nat) (item : α) : Built g → Built (g.record b item)
  | setEntry {g : Graph α} (entry : Int) : Built g → Built { g with entry }

def id? (g : Graph α) (b : Nat) : Option Nat := g.blocks[b]?.map (·.id)

/-- Blocks stand at their numbers. Edges stand at both of their ends, once each, and both ends are
blocks. -/
structure Mirrored (g : Graph α) : Prop where
  mem_pred : ∀ {a b : Nat}, a ∈ g.pred b ↔ b ∈ g.succ a
  succ_lt : ∀ {a b : Nat}, b ∈ g.succ a → b < g.size
  succ_nodup : ∀ a, (g.succ a).Nodup
  pred_nodup : ∀ b, (g.pred b).Nodup
  eq_of_id? : ∀ {b i : Nat}, g.id? b = some i → i = b

theorem succ_eq_nil (h : g.size ≤ x) : g.succ x = [] := by
  simp [succ, Array.getElem?_eq_none h]

theorem items_eq_nil (h : g.size ≤ x) : g.items x = [] := by
  simp [items, Array.getElem?_eq_none h]

theorem lt_size_of_mem_succ (h : b ∈ g.succ a) : a < g.size := by
  by_contra hge
  simp [succ_eq_nil (Nat.le_of_not_lt hge)] at h

theorem lt_size_of_mem_items {item : α} (h : item ∈ g.items b) : b < g.size := by
  by_contra hge
  simp [items_eq_nil (Nat.le_of_not_lt hge)] at h

section AddBlock

variable (items : List α)

@[simp]
theorem size_addBlock : (g.addBlock items).1.size = g.size + 1 := by
  simp [addBlock, size]

@[simp]
theorem addBlock_snd : (g.addBlock items).2 = g.size := rfl

@[simp]
theorem succ_addBlock : (g.addBlock items).1.succ x = g.succ x := by
  simp only [addBlock, succ, size, Array.getElem?_push]
  split
  · rename_i h
    simp [h]
  · rfl

@[simp]
theorem pred_addBlock : (g.addBlock items).1.pred x = g.pred x := by
  simp only [addBlock, pred, size, Array.getElem?_push]
  split
  · rename_i h
    simp [h]
  · rfl

theorem items_addBlock :
    (g.addBlock items).1.items x = if x = g.size then items else g.items x := by
  simp only [addBlock, Graph.items, size, Array.getElem?_push]
  by_cases h : x = g.blocks.size <;> simp [h]

theorem id?_addBlock :
    (g.addBlock items).1.id? x = if x = g.size then some g.size else g.id? x := by
  simp only [addBlock, id?, size, Array.getElem?_push]
  by_cases h : x = g.blocks.size <;> simp [h]

end AddBlock

section Link

@[simp]
theorem size_link : (g.link a b).size = g.size := by
  unfold link
  split <;> simp [size]

@[simp]
theorem entry_link : (g.link a b).entry = g.entry := by
  unfold link
  split <;> rfl

@[simp]
theorem items_link : (g.link a b).items x = g.items x := by
  unfold link
  split
  · rfl
  · simp only [items, Array.getElem?_modify]
    cases g.blocks[x]? <;> split <;> split <;> rfl

@[simp]
theorem id?_link : (g.link a b).id? x = g.id? x := by
  unfold link
  split
  · rfl
  · simp only [id?, Array.getElem?_modify]
    cases g.blocks[x]? <;> split <;> split <;> rfl

theorem succ_link (ha : a < g.size) :
    (g.link a b).succ x = if x = a ∧ b ∉ g.succ a then g.succ a ++ [b] else g.succ x := by
  unfold link
  split
  · rename_i h
    simp [h]
  · rename_i h
    simp only [succ, Array.getElem?_modify] at h ⊢
    by_cases hx : a = x
    · subst hx
      have hsome : g.blocks[a]? = some g.blocks[a] := Array.getElem?_eq_getElem ha
      by_cases hb : b = a <;> simp_all
    · have hx' : x ≠ a := Ne.symm hx
      by_cases hb : b = x <;> simp [hx, hx', hb]
      cases g.blocks[x]? <;> rfl

theorem pred_link (hb : b < g.size) :
    (g.link a b).pred x = if x = b ∧ b ∉ g.succ a then g.pred b ++ [a] else g.pred x := by
  unfold link
  split
  · rename_i h
    simp [h]
  · rename_i h
    simp only [pred, Array.getElem?_modify] at h ⊢
    by_cases hx : b = x
    · subst hx
      have hsome : g.blocks[b]? = some g.blocks[b] := Array.getElem?_eq_getElem hb
      by_cases ha : a = b <;> simp_all
    · have hx' : x ≠ b := Ne.symm hx
      by_cases ha : a = x <;> simp [hx, hx', ha]
      cases g.blocks[x]? <;> rfl

theorem mem_succ_link (ha : a < g.size) :
    y ∈ (g.link a b).succ x ↔ y ∈ g.succ x ∨ (x = a ∧ y = b) := by
  rw [succ_link ha]
  split
  · rename_i h
    obtain ⟨rfl, -⟩ := h
    simp
  · rename_i h
    constructor
    · exact .inl
    · rintro (hy | ⟨rfl, rfl⟩)
      · exact hy
      · simpa using h

end Link

section Record

variable (item : α)

@[simp]
theorem size_record : (g.record b item).size = g.size := by
  simp [record, size]

@[simp]
theorem succ_record : (g.record b item).succ x = g.succ x := by
  simp only [record, succ, Array.getElem?_modify]
  cases g.blocks[x]? <;> split <;> rfl

@[simp]
theorem pred_record : (g.record b item).pred x = g.pred x := by
  simp only [record, pred, Array.getElem?_modify]
  cases g.blocks[x]? <;> split <;> rfl

@[simp]
theorem id?_record : (g.record b item).id? x = g.id? x := by
  simp only [record, id?, Array.getElem?_modify]
  cases g.blocks[x]? <;> split <;> rfl

theorem items_record (hb : b < g.size) :
    (g.record b item).items x = if x = b then g.items b ++ [item] else g.items x := by
  simp only [record, items, Array.getElem?_modify]
  by_cases hx : b = x
  · subst hx
    have hsome : g.blocks[b]? = some g.blocks[b] := Array.getElem?_eq_getElem hb
    simp [hsome]
  · simp [hx, Ne.symm hx]

end Record

namespace Mirrored

theorem addBlock (h : g.Mirrored) (items : List α) : (g.addBlock items).1.Mirrored where
  mem_pred {a b} := by simpa using h.mem_pred
  succ_lt {a b} hb := by
    rw [succ_addBlock] at hb
    rw [size_addBlock]
    exact Nat.lt_succ_of_lt (h.succ_lt hb)
  succ_nodup a := by simpa using h.succ_nodup a
  pred_nodup b := by simpa using h.pred_nodup b
  eq_of_id? {b i} hi := by
    rw [id?_addBlock] at hi
    split at hi
    · rename_i hb
      exact (Option.some.inj hi).symm.trans hb.symm
    · exact h.eq_of_id? hi

theorem link (h : g.Mirrored) (ha : a < g.size) (hb : b < g.size) : (g.link a b).Mirrored where
  mem_pred {x y} := by
    rw [mem_succ_link ha, pred_link hb]
    split
    · rename_i hcase
      obtain ⟨rfl, -⟩ := hcase
      simp [h.mem_pred]
    · rename_i hcase
      rw [h.mem_pred]
      constructor
      · exact .inl
      · rintro (hy | ⟨rfl, rfl⟩)
        · exact hy
        · simpa using hcase
  succ_lt {x y} hy := by
    rw [size_link]
    rcases (mem_succ_link ha).mp hy with hy | ⟨-, rfl⟩
    · exact h.succ_lt hy
    · exact hb
  succ_nodup x := by
    rw [succ_link ha]
    split
    · rename_i hcase
      rw [← List.concat_eq_append]
      exact (h.succ_nodup a).concat hcase.2
    · exact h.succ_nodup x
  pred_nodup x := by
    rw [pred_link hb]
    split
    · rename_i hcase
      -- only the successors were looked at, but the predecessors mirror them
      have hnot : a ∉ g.pred b := fun hmem => hcase.2 (h.mem_pred.mp hmem)
      rw [← List.concat_eq_append]
      exact (h.pred_nodup b).concat hnot
    · exact h.pred_nodup x
  eq_of_id? hi := h.eq_of_id? (by simpa using hi)

theorem record (h : g.Mirrored) (b : Nat) (item : α) : (g.record b item).Mirrored where
  mem_pred {a b} := by simpa using h.mem_pred
  succ_lt hy := by
    rw [size_record]
    exact h.succ_lt (by simpa using hy)
  succ_nodup x := by simpa using h.succ_nodup x
  pred_nodup x := by simpa using h.pred_nodup x
  eq_of_id? hi := h.eq_of_id? (by simpa using hi)

end Mirrored

theorem addEdge_eq_ok {g' : Graph α} {i j : Int} (h : g.addEdge i j = .ok g') :
    ∃ a b, a < g.size ∧ b < g.size ∧ g' = g.link a b := by
  unfold addEdge at h
  split at h
  · rename_i a b
    split at h
    · rename_i hlt
      simp only [Bool.and_eq_true, decide_eq_true_eq] at hlt
      cases h
      exact ⟨a, b, hlt.1, hlt.2, rfl⟩
    · cases h
  · cases h

theorem Built.link (h : g.Built) (ha : a < g.size) (hb : b < g.size) : (g.link a b).Built := by
  have hadd : g.addEdge a b = .ok (g.link a b) := by simp [Graph.addEdge, ha, hb]
  exact h.addEdge hadd

theorem Built.linkAll {pairs : List (Nat × Nat)} (h : g.Built)
    (hpairs : ∀ p ∈ pairs, p.1 < g.size ∧ p.2 < g.size) :
    (pairs.foldl (fun g p => g.link p.1 p.2) g).Built := by
  induction pairs generalizing g with
  | nil => exact h
  | cons p pairs ih =>
    have hp := hpairs p (by simp)
    apply ih (h.link hp.1 hp.2)
    intro q hq
    rw [size_link]
    exact hpairs q (.tail _ hq)

theorem Built.mirrored (h : g.Built) : g.Mirrored := by
  induction h with
  | empty entry =>
    exact ⟨by simp [pred, succ], by simp [succ], by simp [succ], by simp [pred], by simp [id?]⟩
  | addBlock items _ ih => exact ih.addBlock items
  | addEdge _ hadd ih =>
    obtain ⟨a, b, ha, hb, rfl⟩ := addEdge_eq_ok hadd
    exact ih.link ha hb
  | record b item _ ih => exact ih.record b item
  | setEntry entry _ ih =>
    exact ⟨ih.mem_pred, ih.succ_lt, ih.succ_nodup, ih.pred_nodup, ih.eq_of_id?⟩

theorem start?_eq_some {e : Nat} : g.start? = some e ↔ g.entry = e ∧ e < g.size := by
  unfold start?
  split
  · rename_i n hn
    rw [hn]
    constructor
    · intro h
      split at h
      · rename_i hlt
        cases h
        exact ⟨rfl, hlt⟩
      · cases h
    · rintro ⟨h, hlt⟩
      obtain rfl : n = e := Int.ofNat.inj h
      simp [hlt]
  · rename_i n hn
    simp [hn]

end LocalFlow.Graph
