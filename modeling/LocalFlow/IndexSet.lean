/-!
Finite sets of numbers, kept as ascending lists. Two sets with the same members are equal, and the
members come out in order without sorting.
-/

namespace LocalFlow

structure IndexSet where
  toList : List Nat
  ascending : toList.Pairwise (· < ·)

namespace IndexSet

theorem ext_toList {s t : IndexSet} (h : s.toList = t.toList) : s = t := by
  cases s
  cases t
  congr

instance : DecidableEq IndexSet := fun s t =>
  decidable_of_iff (s.toList = t.toList) ⟨ext_toList, fun h => h ▸ rfl⟩

def empty : IndexSet := ⟨[], .nil⟩

instance : EmptyCollection IndexSet := ⟨empty⟩

instance : Inhabited IndexSet := ⟨empty⟩

instance : Membership Nat IndexSet := ⟨fun s v => v ∈ s.toList⟩

instance (v : Nat) (s : IndexSet) : Decidable (v ∈ s) :=
  inferInstanceAs (Decidable (v ∈ s.toList))

theorem mem_toList {v : Nat} {s : IndexSet} : v ∈ s.toList ↔ v ∈ s := Iff.rfl

@[ext]
theorem ext {s t : IndexSet} (h : ∀ v, v ∈ s ↔ v ∈ t) : s = t := by
  have hs : s.toList.Nodup := s.ascending.imp Nat.ne_of_lt
  have ht : t.toList.Nodup := t.ascending.imp Nat.ne_of_lt
  have hperm : s.toList.Perm t.toList := (List.perm_ext_iff_of_nodup hs ht).mpr h
  exact ext_toList (hperm.eq_of_pairwise (fun a b _ _ hab hba => by omega) s.ascending t.ascending)

def size (s : IndexSet) : Nat := s.toList.length

/-- Puts `v` at its place in an ascending list that may have it already. -/
def place (v : Nat) : List Nat → List Nat
  | [] => [v]
  | x :: xs => if v < x then v :: x :: xs else if v = x then x :: xs else x :: place v xs

theorem mem_place {u v : Nat} {xs : List Nat} : u ∈ place v xs ↔ u = v ∨ u ∈ xs := by
  induction xs with
  | nil => simp [place]
  | cons x xs ih => grind [place]

theorem place_ascending {v : Nat} {xs : List Nat} (h : xs.Pairwise (· < ·)) :
    (place v xs).Pairwise (· < ·) := by
  induction xs with
  | nil => simp [place]
  | cons x xs ih =>
    obtain ⟨hx, hxs⟩ := List.pairwise_cons.mp h
    rw [place]
    split
    · exact List.pairwise_cons.mpr ⟨fun y hy => by grind, h⟩
    · split
      · exact h
      · refine List.pairwise_cons.mpr ⟨fun y hy => ?_, ih hxs⟩
        rcases mem_place.mp hy with rfl | hy
        · omega
        · exact hx y hy

def insert (s : IndexSet) (v : Nat) : IndexSet :=
  ⟨place v s.toList, place_ascending s.ascending⟩

def erase (s : IndexSet) (v : Nat) : IndexSet :=
  ⟨s.toList.filter (· ≠ v), s.ascending.filter _⟩

def union (s t : IndexSet) : IndexSet :=
  t.toList.foldl insert s

instance : Union IndexSet := ⟨union⟩

def ofList (xs : List Nat) : IndexSet :=
  xs.foldl insert ∅

@[simp]
theorem not_mem_empty (v : Nat) : v ∉ (∅ : IndexSet) := List.not_mem_nil

@[simp]
theorem mem_insert {u v : Nat} {s : IndexSet} : u ∈ s.insert v ↔ u = v ∨ u ∈ s := mem_place

@[simp]
theorem mem_erase {u v : Nat} {s : IndexSet} : u ∈ s.erase v ↔ u ∈ s ∧ u ≠ v := by
  simp [erase, ← mem_toList]

theorem mem_foldl_insert {u : Nat} {xs : List Nat} {s : IndexSet} :
    u ∈ xs.foldl insert s ↔ u ∈ s ∨ u ∈ xs := by
  induction xs generalizing s with
  | nil => simp
  | cons x xs ih => grind [mem_insert]

@[simp]
theorem mem_union {u : Nat} {s t : IndexSet} : u ∈ s ∪ t ↔ u ∈ s ∨ u ∈ t := mem_foldl_insert

@[simp]
theorem mem_ofList {u : Nat} {xs : List Nat} : u ∈ ofList xs ↔ u ∈ xs := by
  simp [ofList, mem_foldl_insert]

def text (s : IndexSet) : String :=
  "\x7b" ++ ", ".intercalate (s.toList.map toString) ++ "\x7d"

end IndexSet

end LocalFlow
