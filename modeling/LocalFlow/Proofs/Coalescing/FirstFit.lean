import Mathlib
import LocalFlow.Proofs.Coalescing.Totality
import LocalFlow.Proofs.Liveness.Degree

/-! First fit. Each variable goes to the first class that is open to it, so all classes before its own
have another type or a variable that came first and interferes with it. The order in which variables
come is that of their indices, or that of their degrees and of indices among equals. -/

namespace LocalFlow

namespace Coloring

variable {fn : Function} {m : Interference} {u v i j : Nat} {visited members vars : List Nat}
  {classes classes' : Coloring} {G : Type} {lib : GraphLibrary G} {order : SlotOrder} {visits : List Nat}

/-- The class has another type than `v`, or a variable that was visited before `v` and interferes
with it. -/
def ClosedTo (fn : Function) (m : Interference) (visited members : List Nat) (v : Nat) : Prop :=
  (∀ u ∈ members, fn.localType u ≠ fn.localType v) ∨
    ∃ u ∈ members, [u, v].Sublist visited ∧ m.interferes v u = .ok true

/-- All classes before that of a variable are closed to it. -/
def InOrder (fn : Function) (m : Interference) (visited : List Nat) (classes : Coloring) : Prop :=
  classes.Pairwise fun lower members => ∀ v ∈ members, ClosedTo fn m visited lower v

theorem ClosedTo.snoc (h : ClosedTo fn m visited members u) (v : Nat) :
    ClosedTo fn m (visited ++ [v]) members u := by
  rcases h with htypes | ⟨w, hw, hbefore, hinterferes⟩
  · exact .inl htypes
  · exact .inr ⟨w, hw, hbefore.trans (List.sublist_append_left _ _), hinterferes⟩

/-- A variable that joins a class of its own type does not open it to others. -/
theorem ClosedTo.join (h : ClosedTo fn m visited members u) (hmembers : members ≠ [])
    (htype : ∀ w ∈ members, fn.localType w = fn.localType v) :
    ClosedTo fn m visited (members ++ [v]) u := by
  rcases h with htypes | ⟨w, hw, hbefore, hinterferes⟩
  · left
    intro w hw
    rcases List.mem_append.mp hw with hw | hw
    · exact htypes w hw
    · obtain ⟨first, hfirst⟩ := List.exists_mem_of_ne_nil members hmembers
      rw [List.mem_singleton.mp hw, ← htype first hfirst]
      exact htypes first hfirst
  · exact .inr ⟨w, List.mem_append_left _ hw, hbefore, hinterferes⟩

theorem exists_of_anyM {f : Nat → Except Failure Bool} (h : members.anyM f = .ok true) :
    ∃ u ∈ members, f u = .ok true := by
  induction members with
  | nil => cases h
  | cons w members ih =>
    rw [List.anyM] at h
    obtain ⟨found, hfound, h⟩ := bind_eq_ok.mp h
    cases found with
    | true => exact ⟨w, by simp, hfound⟩
    | false =>
      obtain ⟨u, hu, hfu⟩ := ih h
      exact ⟨u, .tail _ hu, hfu⟩

section Class

variable {first : Nat} (hfirst : members.head? = some first)
  (htypes : ∀ u ∈ members, fn.localType u = fn.localType first)
include hfirst htypes

theorem localType_of_fits (h : fits fn m v members = .ok true) :
    ∀ u ∈ members, fn.localType u = fn.localType v := by
  cases members with
  | nil => cases hfirst
  | cons w rest =>
    cases hfirst
    rw [fits] at h
    split at h
    · rename_i htype
      intro u hu
      exact (htypes u hu).trans htype
    · cases h

/-- A class that a variable does not fit is closed to it from then on. -/
theorem closedTo_of_fits (h : fits fn m v members = .ok false)
    (hvisited : ∀ u ∈ members, u ∈ visited) : ClosedTo fn m (visited ++ [v]) members v := by
  cases members with
  | nil => cases hfirst
  | cons w rest =>
    cases hfirst
    rw [fits] at h
    split at h
    · obtain ⟨found, hfound, h⟩ := bind_eq_ok.mp h
      cases found with
      | false => cases h
      | true =>
        obtain ⟨u, hu, hinterferes⟩ := exists_of_anyM hfound
        have hbefore : [u, v].Sublist (visited ++ [v]) :=
          (List.singleton_sublist.mpr (hvisited u hu)).append (List.Sublist.refl [v])
        exact .inr ⟨u, hu, hbefore, hinterferes⟩
    · rename_i htype
      left
      intro u hu
      rw [htypes u hu]
      exact htype

end Class

theorem insert_perm (h : insert fn m v classes = .ok classes') :
    classes'.flatten.Perm (v :: classes.flatten) := by
  induction classes generalizing classes' with
  | nil =>
    cases h
    exact .refl _
  | cons members classes ih =>
    rw [insert] at h
    obtain ⟨joins, -, h⟩ := bind_eq_ok.mp h
    cases joins with
    | true =>
      cases h
      simp only [List.flatten_cons, List.append_assoc, List.singleton_append]
      exact List.perm_middle
    | false =>
      obtain ⟨classes'', hinsert, h⟩ := bind_eq_ok.mp h
      cases h
      simp only [List.flatten_cons]
      exact ((ih hinsert).append_left members).trans List.perm_middle

theorem insert_inOrder (h : insert fn m v classes = .ok classes') (hproper : Proper fn classes)
    (hvisited : ∀ u ∈ classes.flatten, u ∈ visited) (horder : InOrder fn m visited classes) :
    InOrder fn m (visited ++ [v]) classes' := by
  induction classes generalizing classes' with
  | nil =>
    cases h
    exact List.pairwise_singleton _ _
  | cons members classes ih =>
    obtain ⟨first, hfirst, hmembers⟩ := hproper members (.head _)
    have htypes : ∀ u ∈ members, fn.localType u = fn.localType first := fun u hu => (hmembers u hu).2
    have hrest : Proper fn classes := fun c hc => hproper c (.tail _ hc)
    obtain ⟨hhead, htail⟩ := List.pairwise_cons.mp horder
    rw [List.flatten_cons] at hvisited
    rw [insert] at h
    obtain ⟨joins, hjoins, h⟩ := bind_eq_ok.mp h
    cases joins with
    | true =>
      cases h
      have hne : members ≠ [] := by
        rintro rfl
        cases hfirst
      refine List.pairwise_cons.mpr ⟨fun c hc u hu => ?_, htail.imp fun hclosed u hu => ?_⟩
      · exact ((hhead c hc u hu).join hne (localType_of_fits hfirst htypes hjoins)).snoc v
      · exact (hclosed u hu).snoc v
    | false =>
      obtain ⟨classes'', hinsert, h⟩ := bind_eq_ok.mp h
      cases h
      have hself : ClosedTo fn m (visited ++ [v]) members v :=
        closedTo_of_fits hfirst htypes hjoins fun u hu => hvisited u (List.mem_append_left _ hu)
      refine List.pairwise_cons.mpr ⟨fun c hc u hu => ?_, ?_⟩
      · have hmem : u ∈ classes''.flatten := List.mem_flatten.mpr ⟨c, hc, hu⟩
        rcases List.mem_cons.mp ((insert_perm hinsert).mem_iff.mp hmem) with rfl | hmem
        · exact hself
        · obtain ⟨c', hc', hu'⟩ := List.mem_flatten.mp hmem
          exact (hhead c' hc' u hu').snoc v
      · exact ih hinsert hrest (fun u hu => hvisited u (List.mem_append_right _ hu)) htail

/-- The classes of the variables visited so far, filled by first fit. -/
structure FirstFit (fn : Function) (m : Interference) (visited : List Nat) (classes : Coloring) :
    Prop where
  proper : Proper fn classes
  apart : Apart m classes
  perm : classes.flatten.Perm visited
  inOrder : InOrder fn m visited classes

theorem FirstFit.insert (h : FirstFit fn m visited classes) (hm : m.Square fn.numLocals)
    (hv : v < fn.numLocals) : ∃ classes', Coloring.insert fn m v classes = .ok classes' ∧
      FirstFit fn m (visited ++ [v]) classes' := by
  obtain ⟨classes', hinsert, hproper, -⟩ := insert_total hm hv h.proper
  have hperm : classes'.flatten.Perm (visited ++ [v]) :=
    (insert_perm hinsert).trans ((h.perm.cons v).trans (List.perm_append_singleton v visited).symm)
  refine ⟨classes', hinsert, hproper, (insert_spec hinsert h.apart).1, hperm, ?_⟩
  exact insert_inOrder hinsert h.proper (fun u hu => h.perm.mem_iff.mp hu) h.inOrder

theorem FirstFit.foldlM (h : FirstFit fn m visited classes) (hm : m.Square fn.numLocals)
    (hvars : ∀ v ∈ vars, v < fn.numLocals) :
    ∃ classes', vars.foldlM (fun classes v => Coloring.insert fn m v classes) classes = .ok classes' ∧
      FirstFit fn m (visited ++ vars) classes' := by
  induction vars generalizing visited classes with
  | nil => exact ⟨classes, rfl, by rwa [List.append_nil]⟩
  | cons v vars ih =>
    obtain ⟨classes₁, hinsert, h₁⟩ := h.insert hm (hvars v (by simp))
    obtain ⟨classes', hfold, h'⟩ := ih h₁ fun u hu => hvars u (.tail _ hu)
    refine ⟨classes', ?_, ?_⟩
    · rw [List.foldlM_cons, hinsert]
      exact hfold
    · rwa [List.append_assoc, List.singleton_append] at h'

theorem firstFit_nil (fn : Function) (m : Interference) : FirstFit fn m [] [] where
  proper := by simp [Proper]
  apart := by simp [Apart]
  perm := .refl []
  inOrder := .nil

theorem exists_firstFit (hlib : lib.Keeps) (hm : m.Square fn.numLocals) (order : SlotOrder) :
    ∃ visits classes, visitOrder lib fn m order = .ok visits ∧ fn.color lib m order = .ok classes ∧
      FirstFit fn m visits classes := by
  obtain ⟨visits, hvisits⟩ := exists_visitOrder hlib hm order
  obtain ⟨classes, hfold, h⟩ := (firstFit_nil fn m).foldlM hm (lt_of_mem_visitOrder hvisits)
  exact ⟨visits, classes, hvisits, bind_eq_ok.mpr ⟨visits, hvisits, hfold⟩, h⟩

section Order

theorem variables_ascending (fn : Function) :
    ((List.range fn.vars.length).map (fn.numParams + ·)).Pairwise (· < ·) := by
  rw [List.pairwise_map]
  refine List.pairwise_lt_range.imp ?_
  intro i j hij
  omega

theorem visitOrder_nodup (h : visitOrder lib fn m order = .ok visits) : visits.Nodup :=
  (visitOrder_perm h).nodup_iff.mpr ((variables_ascending fn).imp Nat.ne_of_lt)

theorem visitOrder_ascending (h : visitOrder lib fn m order = .ok visits) (horder : order ≠ .degree) :
    visits.Pairwise (· < ·) := by
  cases order with
  | degree => exact absurd rfl horder
  | _ =>
    cases h
    exact variables_ascending fn

theorem descending_trans (degree : Nat → Nat) (a b c : Nat) (hab : decide (degree b ≤ degree a) = true)
    (hbc : decide (degree c ≤ degree b) = true) : decide (degree c ≤ degree a) = true := by
  simp only [decide_eq_true_eq] at hab hbc ⊢
  omega

theorem descending_total (degree : Nat → Nat) (a b : Nat) :
    (decide (degree b ≤ degree a) || decide (degree a ≤ degree b)) = true := by
  simp only [Bool.or_eq_true, decide_eq_true_eq]
  omega

/-- Sorting by degree is stable: variables of one degree stay in the order of their indices. -/
theorem filter_mergeSort (degree : Nat → Nat) (vars : List Nat) (d : Nat) :
    (vars.mergeSort fun u v => degree v ≤ degree u).filter (degree · = d) =
      vars.filter (degree · = d) := by
  have hequal : (vars.filter (degree · = d)).Pairwise fun u v => decide (degree v ≤ degree u) = true := by
    refine List.pairwise_of_forall_mem_list ?_
    intro u hu v hv
    have hdu := (List.mem_filter.mp hu).2
    have hdv := (List.mem_filter.mp hv).2
    simp only [decide_eq_true_eq] at hdu hdv ⊢
    omega
  have hsub : (vars.filter (degree · = d)).Sublist (vars.mergeSort fun u v => degree v ≤ degree u) := by
    apply List.sublist_mergeSort
    · exact descending_trans degree
    · exact descending_total degree
    · exact hequal
    · exact List.filter_sublist
  have hsub := hsub.filter (degree · = d)
  rw [List.filter_filter] at hsub
  simp only [Bool.and_self] at hsub
  exact (hsub.eq_of_length ((List.mergeSort_perm vars _).filter _).length_eq.symm).symm

/-- Variables come by descending degree, and those of one degree by ascending index. -/
theorem visitOrder_descending (hlib : lib.Keeps) (hm : m.Undirected fn.numLocals)
    (h : visitOrder lib fn m .degree = .ok visits) :
    visits.Pairwise fun u v =>
      m.numInterfering fn.numLocals v < m.numInterfering fn.numLocals u ∨
        m.numInterfering fn.numLocals u = m.numInterfering fn.numLocals v ∧ u < v := by
  obtain ⟨es, hes, -⟩ := hm.toSquare.exists_edges
  obtain ⟨g, hg, -, hneighbors⟩ := hlib.exists_toGraph hm.toSquare hes
  set degree : Nat → Nat := fun v => (lib.neighbors g v).length
  have hcount : ∀ v ∈ visits, degree v = m.numInterfering fn.numLocals v := by
    intro v hv
    rw [← hm.length_partners hes (lt_of_mem_visitOrder h v hv)]
    exact (hneighbors v).length_eq
  have hvisits : visits = ((List.range fn.vars.length).map (fn.numParams + ·)).mergeSort
      fun u v => degree v ≤ degree u := by
    obtain ⟨g', hg', h⟩ := bind_eq_ok.mp h
    obtain rfl := Except.ok.inj (hg.symm.trans hg')
    exact (Except.ok.inj h).symm
  have hsorted : visits.Pairwise fun u v => decide (degree v ≤ degree u) = true := by
    rw [hvisits]
    apply List.pairwise_mergeSort
    · exact descending_trans degree
    · exact descending_total degree
  rw [List.pairwise_iff_forall_sublist]
  intro u v huv
  have hle : degree v ≤ degree u := by
    simpa using List.pairwise_iff_forall_sublist.mp hsorted huv
  rw [← hcount u (huv.subset (by simp)), ← hcount v (huv.subset (by simp))]
  rcases Nat.lt_or_eq_of_le hle with hlt | heq
  · exact .inl hlt
  · right
    refine ⟨heq.symm, ?_⟩
    have hpair := huv.filter (degree · = degree u)
    rw [hvisits, filter_mergeSort degree _ _] at hpair
    simp only [List.filter_cons, List.filter_nil, heq, decide_true, if_true] at hpair
    exact List.pairwise_iff_forall_sublist.mp ((variables_ascending fn).filter _) hpair

end Order

section Slots

/-- Variable `v` has the slot of class `j`. -/
def Assigned (fn : Function) (classes : Coloring) (v j : Nat) : Prop :=
  fn.isVar v = true ∧ (classes.mapping fn)[v]? = some (fn.numParams + j)

theorem getElem?_mapping (classes : Coloring) (hv : v < fn.numLocals) :
    (classes.mapping fn)[v]? = some (slot fn classes v) :=
  fetch_eq_ok.mp (fetch_mapping_total classes hv)

theorem assigned_iff_findIdx :
    Assigned fn classes v j ↔ fn.isVar v = true ∧ classes.findIdx (v ∈ ·) = j := by
  refine and_congr_right fun hv => ?_
  obtain ⟨hle, hlt⟩ := isVar_iff.mp hv
  have hparam : ¬fn.isParam v = true := by
    simp only [Function.isParam, decide_eq_true_eq]
    omega
  rw [getElem?_mapping classes hlt, slot, if_neg hparam, Option.some.injEq]
  omega

namespace FirstFit

variable (hvisits : visitOrder lib fn m order = .ok visits) (h : FirstFit fn m visits classes)
include hvisits h

theorem mem_flatten_iff : v ∈ classes.flatten ↔ fn.isVar v = true :=
  h.perm.mem_iff.trans (mem_visitOrder hvisits)

/-- The class of a variable is the only one that it is in. -/
theorem assigned_iff :
    Assigned fn classes v j ↔ ∃ members, classes[j]? = some members ∧ v ∈ members := by
  rw [assigned_iff_findIdx]
  constructor
  · rintro ⟨hv, rfl⟩
    obtain ⟨members, hmembers, hmem⟩ := List.mem_flatten.mp ((h.mem_flatten_iff hvisits).mpr hv)
    have hlt : classes.findIdx (v ∈ ·) < classes.length :=
      List.findIdx_lt_length_of_exists ⟨members, hmembers, by simpa using hmem⟩
    exact ⟨_, List.getElem?_eq_getElem hlt, by simpa using List.findIdx_getElem (w := hlt)⟩
  · rintro ⟨members, hj, hmem⟩
    obtain ⟨hlt, rfl⟩ := List.getElem?_eq_some_iff.mp hj
    have hnodup : classes.flatten.Nodup := h.perm.nodup_iff.mpr (visitOrder_nodup hvisits)
    have hdisjoint := List.pairwise_iff_getElem.mp (List.nodup_flatten.mp hnodup).2
    refine ⟨(h.mem_flatten_iff hvisits).mp (List.mem_flatten.mpr ⟨_, List.getElem_mem hlt, hmem⟩), ?_⟩
    rw [List.findIdx_eq hlt]
    refine ⟨by simpa using hmem, fun i hij => ?_⟩
    have hilt : i < classes.length := by omega
    have hnot : v ∉ classes[i] := fun hi => hdisjoint i j hilt hlt hij hi hmem
    simpa using hnot

theorem exists_assigned (hv : fn.isVar v = true) : ∃ j < classes.length, Assigned fn classes v j := by
  have hassigned : Assigned fn classes v (classes.findIdx (v ∈ ·)) :=
    assigned_iff_findIdx.mpr ⟨hv, rfl⟩
  obtain ⟨members, hmembers, -⟩ := (h.assigned_iff hvisits).mp hassigned
  exact ⟨_, (List.getElem?_eq_some_iff.mp hmembers).1, hassigned⟩

theorem exists_of_lt_length (hj : j < classes.length) : ∃ v, Assigned fn classes v j := by
  obtain ⟨first, hfirst, -⟩ := h.proper _ (List.getElem_mem hj)
  exact ⟨first, (h.assigned_iff hvisits).mpr ⟨_, List.getElem?_eq_getElem hj, List.mem_of_head? hfirst⟩⟩

theorem compatible (hm : m.Undirected fn.numLocals) (hu : Assigned fn classes u j)
    (hv : Assigned fn classes v j) (huv : u ≠ v) :
    fn.localType u = fn.localType v ∧ m.interferes u v = .ok false := by
  obtain ⟨members, hmembers, humem⟩ := (h.assigned_iff hvisits).mp hu
  obtain ⟨members', hmembers', hvmem⟩ := (h.assigned_iff hvisits).mp hv
  obtain rfl : members = members' := Option.some.inj (hmembers.symm.trans hmembers')
  have hclass := List.mem_of_getElem? hmembers
  obtain ⟨first, -, htypes⟩ := h.proper members hclass
  obtain ⟨hultn, htypeu⟩ := htypes u humem
  obtain ⟨hvltn, htypev⟩ := htypes v hvmem
  refine ⟨htypeu.trans htypev.symm, ?_⟩
  rcases (h.apart members hclass).forall humem hvmem huv with hfree | hfree
  · exact hfree
  · rw [hm.symm hultn hvltn]
    exact hfree

theorem closed_of_lt (hm : m.Undirected fn.numLocals) (hv : Assigned fn classes v j) (hij : i < j) :
    (∀ u, Assigned fn classes u i → fn.localType u ≠ fn.localType v) ∨
      ∃ u, Assigned fn classes u i ∧ [u, v].Sublist visits ∧
        m.interferes u v = .ok true := by
  obtain ⟨members, hmembers, hmem⟩ := (h.assigned_iff hvisits).mp hv
  obtain ⟨hjlt, rfl⟩ := List.getElem?_eq_some_iff.mp hmembers
  have hilt : i < classes.length := by omega
  have hvlt := (isVar_iff.mp hv.1).2
  rcases List.pairwise_iff_getElem.mp h.inOrder i j hilt hjlt hij v hmem with
    htypes | ⟨u, hu, hbefore, hinterferes⟩
  · left
    intro u hu
    obtain ⟨lower, hlower, hulower⟩ := (h.assigned_iff hvisits).mp hu
    obtain ⟨hlt, rfl⟩ := List.getElem?_eq_some_iff.mp hlower
    exact htypes u hulower
  · have hassigned := (h.assigned_iff hvisits).mpr ⟨_, List.getElem?_eq_getElem hilt, hu⟩
    refine .inr ⟨u, hassigned, hbefore, ?_⟩
    rw [hm.symm (isVar_iff.mp hassigned.1).2 hvlt]
    exact hinterferes

end FirstFit

end Slots

end Coloring

/-- Whatever the interferences, coloring succeeds, and its slots are as few as first fit makes them:
parameters keep their own, every variable has one of those after them, all of which are used, variables
share a slot only if they have one type and do not interfere, and an earlier slot than that of a
variable has another type or a variable that was visited before and interferes with it. -/
theorem Function.color_firstFit {G : Type} {lib : GraphLibrary G} {fn : Function} {m : Interference}
    (hlib : lib.Keeps) (hm : m.Undirected fn.numLocals) (order : SlotOrder) :
    ∃ visits classes, Coloring.visitOrder lib fn m order = .ok visits ∧
      fn.color lib m order = .ok classes ∧
      (classes.mapping fn).size = fn.numLocals ∧
      (∀ v, fn.isParam v = true → (classes.mapping fn)[v]? = some v) ∧
      (∀ v, fn.isVar v = true → ∃ j < classes.length, classes.Assigned fn v j) ∧
      (∀ j < classes.length, ∃ v, classes.Assigned fn v j) ∧
      (∀ u v j, classes.Assigned fn u j → classes.Assigned fn v j → u ≠ v →
        fn.localType u = fn.localType v ∧ m.interferes u v = .ok false) ∧
      (∀ v i j, classes.Assigned fn v j → i < j →
        (∀ u, classes.Assigned fn u i → fn.localType u ≠ fn.localType v) ∨
        ∃ u, classes.Assigned fn u i ∧ [u, v].Sublist visits ∧ m.interferes u v = .ok true) ∧
      visits.Perm ((List.range fn.vars.length).map (fn.numParams + ·)) ∧
      (order ≠ .degree → visits.Pairwise (· < ·)) ∧
      (order = .degree → visits.Pairwise fun u v =>
        m.numInterfering fn.numLocals v < m.numInterfering fn.numLocals u ∨
          m.numInterfering fn.numLocals u = m.numInterfering fn.numLocals v ∧ u < v) := by
  obtain ⟨visits, classes, hvisits, hcolor, h⟩ := Coloring.exists_firstFit hlib hm.toSquare order
  refine ⟨visits, classes, hvisits, hcolor, by simp [Coloring.mapping], fun v hv => ?_,
    fun v hv => h.exists_assigned hvisits hv, fun j hj => h.exists_of_lt_length hvisits hj,
    fun u v j hu hv huv => h.compatible hvisits hm hu hv huv,
    fun v i j hv hij => h.closed_of_lt hvisits hm hv hij, Coloring.visitOrder_perm hvisits,
    Coloring.visitOrder_ascending hvisits, ?_⟩
  · have hlt : v < fn.numLocals := by
      simp only [isParam, decide_eq_true_eq] at hv
      unfold numParams at hv
      unfold numLocals
      omega
    rw [Coloring.getElem?_mapping classes hlt, Coloring.slot, if_pos hv]
  · rintro rfl
    exact Coloring.visitOrder_descending hlib hm hvisits

/-- One parameter and four variables, one of which has a type of its own. -/
def Function.crowded : Function where
  name := "crowded"
  params := [.i32]
  vars := [.i32, .i64, .i32, .i32]

/-- The first and the third variable interfere, the third and the fourth, and the parameter and the
fourth. -/
def Interference.crowding : Interference where
  size := 5
  bits := #[
    false, false, false, false, true,
    false, false, false, true, false,
    false, false, false, false, false,
    false, true, false, false, true,
    true, false, false, true, false]

theorem Function.color_firstFit_crowded :
    GraphLibrary.lists.Keeps ∧ Interference.crowding.Undirected crowded.numLocals ∧
      Coloring.visitOrder .lists crowded .crowding .degree = .ok [3, 4, 1, 2] ∧
      crowded.color .lists .crowding .degree = .ok [[3], [4, 1], [2]] ∧
      Coloring.Assigned crowded [[3], [4, 1], [2]] 1 1 ∧
      ∃ u, Coloring.Assigned crowded [[3], [4, 1], [2]] u 0 ∧ [u, 1].Sublist [3, 4, 1, 2] ∧
        Interference.crowding.interferes u 1 = .ok true := by
  have hsymm : ∀ a < 5, ∀ b < 5,
      Interference.crowding.interferes a b = Interference.crowding.interferes b a := by decide
  have hirrefl : ∀ a < 5, Interference.crowding.interferes a a = .ok false := by decide
  have hm : Interference.crowding.Undirected crowded.numLocals :=
    { size_eq := rfl, size_bits := rfl, symm := fun ha hb => hsymm _ ha _ hb,
      irrefl := fun ha => hirrefl _ ha }
  have hvisit : Coloring.visitOrder .lists crowded .crowding .degree = .ok [3, 4, 1, 2] := by cbv
  have hcolor : crowded.color .lists .crowding .degree = .ok [[3], [4, 1], [2]] := by
    rw [color, hvisit]
    rfl
  have hassigned : Coloring.Assigned crowded [[3], [4, 1], [2]] 1 1 := ⟨rfl, rfl⟩
  obtain ⟨visits, classes, hvisits, hclasses, -, -, -, -, -, hfirst, -⟩ :=
    color_firstFit GraphLibrary.keeps_lists hm .degree
  rw [hvisit] at hvisits
  cases hvisits
  rw [hcolor] at hclasses
  cases hclasses
  refine ⟨GraphLibrary.keeps_lists, hm, hvisit, hcolor, hassigned,
    (hfirst 1 0 1 hassigned (by decide)).resolve_left ?_⟩
  intro htypes
  exact htypes 3 ⟨rfl, rfl⟩ rfl

end LocalFlow
