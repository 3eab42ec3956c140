import LocalFlow.Coalescing.Coloring
import LocalFlow.Proofs.Outcome
import Mathlib.Data.List.Pairwise

/-! The slots of a coloring. Every variable has a slot of its own function, and two locals share a
slot only if they are variables that do not interfere. -/

namespace LocalFlow

/-- In one order or the other, the two locals are known not to interfere. -/
def Interference.Separate (m : Interference) (u v : Nat) : Prop :=
  m.interferes u v = .ok false ∨ m.interferes v u = .ok false

instance (m : Interference) : Std.Symm m.Separate := ⟨fun _ _ h => h.symm⟩

namespace Coloring

variable {fn : Function} {m : Interference} {u v : Nat} {members : List Nat}
  {classes classes' : Coloring}

def Apart (m : Interference) (classes : Coloring) : Prop :=
  ∀ members ∈ classes, members.Pairwise m.Separate

theorem interferes_of_anyM {f : Nat → Except Failure Bool} (h : members.anyM f = .ok false) :
    ∀ u ∈ members, f u = .ok false := by
  induction members with
  | nil => simp
  | cons w members ih =>
    rw [List.anyM] at h
    obtain ⟨found, hfound, h⟩ := bind_eq_ok.mp h
    cases found with
    | true => cases h
    | false =>
      intro u hu
      rcases List.mem_cons.mp hu with rfl | hu
      · exact hfound
      · exact ih h u hu

theorem interferes_of_fits (h : fits fn m v members = .ok true) :
    ∀ u ∈ members, m.interferes v u = .ok false := by
  cases members with
  | nil => cases h
  | cons first rest =>
    rw [fits] at h
    split at h
    · obtain ⟨found, hfound, h⟩ := bind_eq_ok.mp h
      cases found with
      | true => cases h
      | false => exact interferes_of_anyM hfound
    · cases h

/-- A variable is put into a class of which no member interferes with it. -/
theorem insert_spec (h : insert fn m v classes = .ok classes') (hapart : Apart m classes) :
    Apart m classes' ∧ (∃ members ∈ classes', v ∈ members) ∧
      ∀ u, (∃ members ∈ classes, u ∈ members) → ∃ members ∈ classes', u ∈ members := by
  induction classes generalizing classes' with
  | nil =>
    cases h
    exact ⟨by simp [Apart], by simp, by simp⟩
  | cons members classes ih =>
    rw [insert] at h
    obtain ⟨joins, hjoins, h⟩ := bind_eq_ok.mp h
    have hrest : Apart m classes := fun c hc => hapart c (.tail _ hc)
    cases joins with
    | true =>
      cases h
      have hmembers : (members ++ [v]).Pairwise m.Separate := by
        refine List.pairwise_append.mpr ⟨hapart members (.head _), List.pairwise_singleton _ _, ?_⟩
        intro u hu w hw
        rw [List.mem_singleton.mp hw]
        exact .inr (interferes_of_fits hjoins u hu)
      refine ⟨fun c hc => ?_, ⟨_, .head _, by simp⟩, fun u hu => ?_⟩
      · rcases List.mem_cons.mp hc with rfl | hc
        · exact hmembers
        · exact hrest c hc
      · obtain ⟨c, hc, hu⟩ := hu
        rcases List.mem_cons.mp hc with rfl | hc
        · exact ⟨_, .head _, List.mem_append_left _ hu⟩
        · exact ⟨c, .tail _ hc, hu⟩
    | false =>
      obtain ⟨classes'', hinsert, h⟩ := bind_eq_ok.mp h
      cases h
      obtain ⟨hapart', ⟨c, hc, hv⟩, hkeeps⟩ := ih hinsert hrest
      refine ⟨fun c hc => ?_, ⟨c, .tail _ hc, hv⟩, fun u hu => ?_⟩
      · rcases List.mem_cons.mp hc with rfl | hc
        · exact hapart c (.head _)
        · exact hapart' c hc
      · obtain ⟨c, hc, hu⟩ := hu
        rcases List.mem_cons.mp hc with rfl | hc
        · exact ⟨c, .head _, hu⟩
        · obtain ⟨c', hc', hu⟩ := hkeeps u ⟨c, hc, hu⟩
          exact ⟨c', .tail _ hc', hu⟩

theorem foldlM_insert_spec {vars : List Nat}
    (h : vars.foldlM (fun classes v => insert fn m v classes) classes = .ok classes')
    (hapart : Apart m classes) :
    Apart m classes' ∧ ∀ v, v ∈ vars ∨ (∃ members ∈ classes, v ∈ members) →
      ∃ members ∈ classes', v ∈ members := by
  induction vars generalizing classes with
  | nil =>
    cases h
    exact ⟨hapart, fun v hv => hv.resolve_left List.not_mem_nil⟩
  | cons w vars ih =>
    rw [List.foldlM_cons] at h
    obtain ⟨classes₁, hinsert, h⟩ := bind_eq_ok.mp h
    obtain ⟨hapart₁, hw, hkeeps⟩ := insert_spec hinsert hapart
    obtain ⟨hapart', hall⟩ := ih h hapart₁
    refine ⟨hapart', fun v hv => hall v ?_⟩
    rcases hv with hv | hv
    · rcases List.mem_cons.mp hv with rfl | hv
      · exact .inr hw
      · exact .inl hv
    · exact .inr (hkeeps v hv)

theorem isVar_iff : fn.isVar v = true ↔ fn.numParams ≤ v ∧ v < fn.numLocals := by
  rw [Function.isVar, Bool.and_eq_true, decide_eq_true_iff, decide_eq_true_iff]

section Visits

variable {G : Type} {lib : GraphLibrary G} {order : SlotOrder} {visits : List Nat}

/-- Whatever the order, every variable is visited once. -/
theorem visitOrder_perm (h : visitOrder lib fn m order = .ok visits) :
    visits.Perm ((List.range fn.vars.length).map (fn.numParams + ·)) := by
  cases order with
  | degree =>
    obtain ⟨g, -, h⟩ := bind_eq_ok.mp h
    cases h
    exact List.mergeSort_perm _ _
  | _ =>
    cases h
    exact .refl _

theorem mem_visitOrder (h : visitOrder lib fn m order = .ok visits) :
    v ∈ visits ↔ fn.isVar v = true := by
  rw [(visitOrder_perm h).mem_iff, isVar_iff, List.mem_map]
  unfold Function.numLocals Function.numParams
  constructor
  · rintro ⟨i, hi, rfl⟩
    have := List.mem_range.mp hi
    omega
  · rintro ⟨hle, hlt⟩
    exact ⟨v - fn.params.length, List.mem_range.mpr (by omega), by omega⟩

end Visits

def slot (fn : Function) (classes : Coloring) (v : Nat) : Nat :=
  if fn.isParam v then v else fn.numParams + classes.findIdx (v ∈ ·)

theorem fetch_mapping {s : Nat} (h : fetch (classes.mapping fn) v = .ok s) :
    v < fn.numLocals ∧ s = slot fn classes v := by
  rw [fetch_eq_ok] at h
  simp only [mapping, List.getElem?_toArray, List.getElem?_map] at h
  by_cases hv : v < fn.numLocals
  · rw [List.getElem?_range hv] at h
    exact ⟨hv, (Option.some.inj h).symm⟩
  · simp [hv] at h

/-- Each variable is in a class, and no two variables of a class interfere. -/
structure Sound (fn : Function) (m : Interference) (classes : Coloring) : Prop where
  apart : Apart m classes
  exists_mem : ∀ {v}, fn.isVar v = true → ∃ members ∈ classes, v ∈ members

theorem sound_of_color {G : Type} {lib : GraphLibrary G} {order : SlotOrder}
    (h : fn.color lib m order = .ok classes) : Sound fn m classes := by
  obtain ⟨visits, hvisits, h⟩ := bind_eq_ok.mp h
  obtain ⟨hapart, hall⟩ := foldlM_insert_spec h (by simp [Apart])
  exact ⟨hapart, fun hv => hall _ (.inl ((mem_visitOrder hvisits).mpr hv))⟩

theorem isVar_of_not_isParam (hv : v < fn.numLocals) (h : ¬fn.isParam v = true) :
    fn.isVar v = true := by
  simp only [Function.isParam, decide_eq_true_eq, Nat.not_lt] at h
  simp [Function.isVar, h, hv]

theorem Sound.findIdx_lt (h : Sound fn m classes) (hv : fn.isVar v = true) :
    classes.findIdx (v ∈ ·) < classes.length := by
  obtain ⟨members, hmem, hv⟩ := h.exists_mem hv
  exact List.findIdx_lt_length_of_exists ⟨members, hmem, by simpa using hv⟩

theorem Sound.slot_lt (h : Sound fn m classes) (hv : v < fn.numLocals) :
    slot fn classes v < fn.numParams + classes.length := by
  unfold slot
  split
  · rename_i hparam
    simp only [Function.isParam, decide_eq_true_eq] at hparam
    omega
  · rename_i hparam
    have := h.findIdx_lt (isVar_of_not_isParam hv hparam)
    omega

/-- Two locals that share a slot are variables that do not interfere. -/
theorem Sound.separate_of_slot_eq (h : Sound fn m classes) (hu : u < fn.numLocals)
    (hv : v < fn.numLocals) (huv : u ≠ v) (hslot : slot fn classes u = slot fn classes v) :
    fn.isVar u = true ∧ fn.isVar v = true ∧ m.Separate u v := by
  unfold slot at hslot
  split at hslot
  · rename_i hpu
    simp only [Function.isParam, decide_eq_true_eq] at hpu
    split at hslot
    · exact absurd hslot huv
    · omega
  · rename_i hpu
    split at hslot
    · rename_i hpv
      simp only [Function.isParam, decide_eq_true_eq] at hpv
      omega
    · rename_i hpv
      have hvu := isVar_of_not_isParam hu hpu
      have hvv := isVar_of_not_isParam hv hpv
      have hltu := h.findIdx_lt hvu
      have hltv := h.findIdx_lt hvv
      have hmemu : u ∈ classes[classes.findIdx (u ∈ ·)] := by
        simpa using List.findIdx_getElem (w := hltu)
      have hmemv : v ∈ classes[classes.findIdx (v ∈ ·)] := by
        simpa using List.findIdx_getElem (w := hltv)
      have hidx : classes.findIdx (u ∈ ·) = classes.findIdx (v ∈ ·) := by omega
      simp only [← hidx] at hmemv
      exact ⟨hvu, hvv, (h.apart _ (List.getElem_mem hltu)).forall hmemu hmemv huv⟩

end Coloring

end LocalFlow
