import LocalFlow.Proofs.Coalescing.Redirection
import LocalFlow.Proofs.Liveness.Degree

/-! Coloring, redirecting and removing stores cannot fail on a well-formed function. Every local that
they look up is declared, every class has a member, and every store has a value to leave behind. -/

namespace LocalFlow

namespace Coloring

variable {fn : Function} {m : Interference} {v : Nat} {members : List Nat} {classes : Coloring}

/-- Every class is made of declared locals of one type, of which there is at least one. -/
def Proper (fn : Function) (classes : Coloring) : Prop :=
  ∀ members ∈ classes, ∃ first, members.head? = some first ∧
    ∀ u ∈ members, u < fn.numLocals ∧ fn.localType u = fn.localType first

theorem anyM_total {f : Nat → Except Failure Bool} (h : ∀ u ∈ members, ∃ found, f u = .ok found) :
    ∃ found, members.anyM f = .ok found := by
  induction members with
  | nil => exact ⟨false, rfl⟩
  | cons u members ih =>
    obtain ⟨found, hfound⟩ := h u (by simp)
    obtain ⟨rest, hrest⟩ := ih fun w hw => h w (.tail _ hw)
    cases found with
    | true => exact ⟨true, bind_eq_ok.mpr ⟨true, hfound, rfl⟩⟩
    | false => exact ⟨rest, bind_eq_ok.mpr ⟨false, hfound, hrest⟩⟩

/-- Whether a variable fits a class is known, and it fits only a class of its own type. -/
theorem fits_total {first : Nat} (hm : m.Square fn.numLocals) (hv : v < fn.numLocals)
    (hfirst : members.head? = some first) (hmembers : ∀ u ∈ members, u < fn.numLocals) :
    ∃ joins, fits fn m v members = .ok joins ∧
      (joins = true → fn.localType v = fn.localType first) := by
  cases members with
  | nil => cases hfirst
  | cons u rest =>
    cases hfirst
    rw [fits]
    by_cases htype : fn.localType first = fn.localType v
    · rw [if_pos htype]
      obtain ⟨found, hfound⟩ := anyM_total fun u hu => ⟨_, hm.interferes_eq hv (hmembers u hu)⟩
      exact ⟨!found, bind_eq_ok.mpr ⟨found, hfound, rfl⟩, fun _ => htype.symm⟩
    · rw [if_neg htype]
      exact ⟨false, rfl, fun h => by cases h⟩

theorem insert_total (hm : m.Square fn.numLocals) (hv : v < fn.numLocals) (h : Proper fn classes) :
    ∃ classes', insert fn m v classes = .ok classes' ∧ Proper fn classes' ∧
      classes'.length ≤ classes.length + 1 := by
  induction classes with
  | nil =>
    refine ⟨[[v]], rfl, fun members hmem => ?_, by simp⟩
    rw [List.mem_singleton.mp hmem]
    exact ⟨v, rfl, by simp [hv]⟩
  | cons members classes ih =>
    obtain ⟨first, hfirst, hmembers⟩ := h members (.head _)
    have hrest : Proper fn classes := fun c hc => h c (.tail _ hc)
    obtain ⟨joins, hjoins, htype⟩ := fits_total hm hv hfirst fun u hu => (hmembers u hu).1
    cases joins with
    | true =>
      refine ⟨(members ++ [v]) :: classes, bind_eq_ok.mpr ⟨true, hjoins, rfl⟩, fun c hc => ?_, by simp⟩
      rcases List.mem_cons.mp hc with rfl | hc
      · refine ⟨first, by simp [hfirst], fun u hu => ?_⟩
        rcases List.mem_append.mp hu with hu | hu
        · exact hmembers u hu
        · rw [List.mem_singleton.mp hu]
          exact ⟨hv, htype rfl⟩
      · exact hrest c hc
    | false =>
      obtain ⟨classes', hinsert, hproper, hlen⟩ := ih hrest
      refine ⟨members :: classes', bind_eq_ok.mpr ⟨false, hjoins, bind_eq_ok.mpr ⟨_, hinsert, rfl⟩⟩,
        fun c hc => ?_, by simpa using hlen⟩
      rcases List.mem_cons.mp hc with rfl | hc
      · exact ⟨first, hfirst, hmembers⟩
      · exact hproper c hc

theorem foldlM_insert_total {vars : List Nat} (hm : m.Square fn.numLocals)
    (hvars : ∀ v ∈ vars, v < fn.numLocals) (h : Proper fn classes) :
    ∃ classes', vars.foldlM (fun classes v => insert fn m v classes) classes = .ok classes' ∧
      Proper fn classes' ∧ classes'.length ≤ classes.length + vars.length := by
  induction vars generalizing classes with
  | nil => exact ⟨classes, rfl, h, Nat.le_refl _⟩
  | cons v vars ih =>
    obtain ⟨classes₁, hinsert, h₁, hlen₁⟩ := insert_total hm (hvars v (by simp)) h
    obtain ⟨classes', hfold, h', hlen⟩ := ih (fun u hu => hvars u (.tail _ hu)) h₁
    refine ⟨classes', ?_, h', ?_⟩
    · rw [List.foldlM_cons, hinsert]
      exact hfold
    · rw [List.length_cons]
      omega

section Color

variable {G : Type} {lib : GraphLibrary G} {order : SlotOrder}

theorem exists_visitOrder (hlib : lib.Keeps) (hm : m.Square fn.numLocals) (order : SlotOrder) :
    ∃ visits, visitOrder lib fn m order = .ok visits := by
  cases order with
  | degree =>
    obtain ⟨es, hes, -⟩ := hm.exists_edges
    obtain ⟨g, hg, -⟩ := hlib.exists_toGraph hm hes
    exact ⟨_, bind_eq_ok.mpr ⟨g, hg, rfl⟩⟩
  | _ => exact ⟨_, rfl⟩

theorem lt_of_mem_visitOrder {visits : List Nat} (h : visitOrder lib fn m order = .ok visits) :
    ∀ v ∈ visits, v < fn.numLocals :=
  fun _ hv => (isVar_iff.mp ((mem_visitOrder h).mp hv)).2

theorem proper_nil (fn : Function) : Proper fn [] := fun members hmem => by cases hmem

/-- Variables are grouped into no more classes than there are variables. -/
theorem proper_of_color (hm : m.Square fn.numLocals) (h : fn.color lib m order = .ok classes) :
    Proper fn classes ∧ classes.length ≤ fn.vars.length := by
  obtain ⟨visits, hvisits, h⟩ := bind_eq_ok.mp h
  obtain ⟨_, hfold, hproper, hlen⟩ :=
    foldlM_insert_total hm (lt_of_mem_visitOrder hvisits) (proper_nil fn)
  obtain rfl := Except.ok.inj (h.symm.trans hfold)
  have hcount := (visitOrder_perm hvisits).length_eq
  rw [List.length_map, List.length_range] at hcount
  rw [List.length_nil] at hlen
  exact ⟨hproper, by omega⟩

theorem color_total (hlib : lib.Keeps) (hm : m.Square fn.numLocals) (order : SlotOrder) :
    ∃ classes, fn.color lib m order = .ok classes := by
  obtain ⟨visits, hvisits⟩ := exists_visitOrder hlib hm order
  obtain ⟨classes, hfold, -⟩ :=
    foldlM_insert_total hm (lt_of_mem_visitOrder hvisits) (proper_nil fn)
  exact ⟨classes, bind_eq_ok.mpr ⟨visits, hvisits, hfold⟩⟩

end Color

theorem fetch_mapping_total (classes : Coloring) (hv : v < fn.numLocals) :
    fetch (classes.mapping fn) v = .ok (slot fn classes v) := by
  rw [fetch_eq_ok]
  simp only [mapping, List.getElem?_toArray, List.getElem?_map, List.getElem?_range hv]
  rfl

end Coloring

def Node.StoresValue (n : Node) : Prop :=
  n.StoresOne ∧ (n.kind.isLocalWrite = true → n.operand.isPresent = true)

namespace Function

variable {fn : Function} {n : Node} {r : Ref} {kids : List (Unit → Tree)}

theorem put_total (hr : fn.node? r = some n) (n' : Node) : ∃ fn', fn.put r n' = .ok fn' := by
  unfold put
  rw [hr]
  exact ⟨_, rfl⟩

theorem removeStore_total (hn : n.StoresValue) (hwrite : n.kind.isLocalWrite = true)
    (hat : (Tree.node r n kids).IsAt fn r) : ∃ fn', fn.removeStore r = .ok fn' := by
  obtain ⟨-, hr, hkids⟩ := hat
  obtain ⟨value, rfl, hvalue⟩ := exists_value hn.1 hwrite hkids
  by_cases htee : n.kind = .localTee
  · obtain ⟨n₁, -, -, hn₁, -⟩ := hvalue.exists_of_isPresent (hn.2 hwrite)
    have hreplace : ∃ fn', fn.replace r n.operand = .ok fn' := by
      unfold replace
      split
      · exact ⟨fn, rfl⟩
      · obtain ⟨fn', hput⟩ := put_total hr n₁
        exact ⟨fn', (node_bind_eq_ok hn₁).mpr hput⟩
    obtain ⟨fn', hfn'⟩ := hreplace
    exact ⟨fn', (node_bind_eq_ok hr).mpr ((if_pos htee).trans hfn')⟩
  · obtain ⟨e, he⟩ := hvalue.exists_effects
    have heffects : fn.hasSideEffects n.operand = .ok e.hasSideEffects := by
      rw [hasSideEffects, effects, tree_eq_of_isAt hvalue, he]
      rfl
    have hremains : ∃ fn', (if e.hasSideEffects then fn.makeDrop r n.operand else fn.makeNop r) =
        .ok fn' := by
      split
      · exact put_total hr _
      · exact put_total hr _
    obtain ⟨fn', hfn'⟩ := hremains
    refine ⟨fn', (node_bind_eq_ok hr).mpr ((if_neg htee).trans ?_)⟩
    exact bind_eq_ok.mpr ⟨_, heffects, hfn'⟩

theorem isSelfCopy_total (hn : n.StoresValue) (hwrite : n.kind.isLocalWrite = true)
    (hat : (Tree.node r n kids).IsAt fn r) : ∃ self, fn.isSelfCopy r = .ok self := by
  obtain ⟨-, hr, hkids⟩ := hat
  obtain ⟨value, rfl, hvalue⟩ := exists_value hn.1 hwrite hkids
  obtain ⟨n₁, -, -, hn₁, -⟩ := hvalue.exists_of_isPresent (hn.2 hwrite)
  exact ⟨_, (node_bind_eq_ok hr).mpr ((node_bind_eq_ok hn₁).mpr rfl)⟩

end Function

namespace Redirection

open LocalFlow.Function

variable {fn : Function} {classes : Coloring} {dead : List Ref} {w : Redirection} {t : Tree}

/-- The node accesses no local but the first `count`, and stores a value if it stores. -/
def Ready (count : Nat) (n : Node) : Prop :=
  n.StoresValue ∧ (n.kind.isLocalAccess = true → n.index < count)

/-- Once the store at `r` has its slot, it can be told whether it is a copy within it, and removed. -/
theorem removeSelfCopy_total {n : Node} {r : Ref} {kids : List (Unit → Tree)} (w : Redirection)
    (hstores : n.StoresValue) (hat : (Tree.node r n kids).IsAt fn r) :
    ∃ w' : Redirection, (if n.kind.isLocalWrite = true then do
      if ← fn.isSelfCopy r then removeCopy { w with function := fn } r
      else return { w with function := fn }
      else return { w with function := fn }) = .ok w' := by
  split
  · rename_i hwrite
    obtain ⟨self, hself⟩ := isSelfCopy_total hstores hwrite hat
    cases self with
    | true =>
      obtain ⟨fn', hfn'⟩ := removeStore_total hstores hwrite hat
      exact ⟨_, bind_eq_ok.mpr ⟨true, hself, bind_eq_ok.mpr ⟨fn', hfn', rfl⟩⟩⟩
    | false => exact ⟨_, bind_eq_ok.mpr ⟨false, hself, rfl⟩⟩
  · exact ⟨_, rfl⟩

theorem visitable_remapNode (fn : Function) (classes : Coloring) (dead : List Ref) :
    Tree.Visitable Redirection.function (remapNode (classes.mapping fn) dead)
      (Ready fn.numLocals) := by
  intro w r n kids ⟨hstores, hindex⟩ hat hnodup
  have hr := hat.2.1
  by_cases haccess : n.kind.isLocalAccess = true
  · by_cases hdead : n.kind.isLocalWrite = true ∧ r ∈ dead
    · obtain ⟨fn', hfn'⟩ := removeStore_total hstores hdead.1 hat
      refine ⟨{ w with function := fn', stores := w.stores + 1 }, (node_bind_eq_ok hr).mpr ?_⟩
      simp only [haccess, hdead.1, hdead.2, Bool.not_true, Bool.false_eq_true, if_false,
        decide_true, Bool.and_self, if_true]
      exact bind_eq_ok.mpr ⟨fn', hfn', rfl⟩
    · have hkept : (n.kind.isLocalWrite && decide (r ∈ dead)) = false := by
        simpa using hdead
      have hslot := Coloring.fetch_mapping_total classes (hindex haccess)
      obtain ⟨fn₁, hput⟩ := put_total hr { n with index := classes.slot fn n.index }
      have hset : w.function.setIndex r (classes.slot fn n.index) = .ok fn₁ :=
        (node_bind_eq_ok hr).mpr hput
      have hnot : r ∉ Tree.handlesAll kids := by
        rw [Tree.handles_node] at hnodup
        exact fun hr => (List.nodup_append.mp hnodup).2.2 r hr r (by simp) rfl
      have hat₁ := (setIndex_spec hat hnot hset).1
      have hstores₁ : Node.StoresValue { n with index := classes.slot fn n.index } := hstores
      obtain ⟨w', hw'⟩ := removeSelfCopy_total w hstores₁ hat₁
      refine ⟨w', (node_bind_eq_ok hr).mpr ?_⟩
      simp only [haccess, hkept, Bool.not_true, Bool.false_eq_true, if_false]
      exact bind_eq_ok.mpr ⟨_, hslot, bind_eq_ok.mpr ⟨fn₁, hset, hw'⟩⟩
  · refine ⟨w, (node_bind_eq_ok hr).mpr ?_⟩
    simp only [haccess]
    rfl

theorem visitable_removeDeadStore (read : Array Bool) :
    Tree.Visitable Redirection.function (removeDeadStore read) (Ready read.size) := by
  intro w r n kids ⟨hstores, hindex⟩ hat hnodup
  have hr := hat.2.1
  by_cases hwrite : n.kind.isLocalWrite = true
  · have hlt := hindex (Kind.isLocalAccess_of_isLocalWrite hwrite)
    have hread : fetch read n.index = .ok read[n.index] :=
      fetch_eq_ok.mpr (Array.getElem?_eq_getElem hlt)
    have hnext : ∃ w' : Redirection, (if read[n.index] = true then return w else w.removeStore r) =
        .ok w' := by
      split
      · exact ⟨w, rfl⟩
      · obtain ⟨fn', hfn'⟩ := removeStore_total hstores hwrite hat
        exact ⟨_, bind_eq_ok.mpr ⟨fn', hfn', rfl⟩⟩
    obtain ⟨w', hw'⟩ := hnext
    refine ⟨w', (node_bind_eq_ok hr).mpr ?_⟩
    rw [if_pos hwrite]
    exact bind_eq_ok.mpr ⟨_, hread, hw'⟩
  · refine ⟨w, (node_bind_eq_ok hr).mpr ?_⟩
    rw [if_neg hwrite]
    rfl

theorem remap_total (hw : w.function.Redirectable t)
    (hready : ∀ x ∈ t.nodes, Ready fn.numLocals x.2) :
    ∃ w', remap (classes.mapping fn) dead w = .ok w' := by
  have hvisits : Tree.Visits Redirection.function (remapNode (classes.mapping fn) dead)
      (Ready fn.numLocals) (Redirects (classes.slot fn) dead) := fun hn =>
    visits_remapNode fn classes dead hn.1.1
  obtain ⟨w', hw'⟩ := t.exists_visited hvisits (visitable_remapNode fn classes dead) hw.isAt hw.nodup
    hready
  exact ⟨w', bind_eq_ok.mpr ⟨_, postOrder_eq hw.isAt, hw'⟩⟩

theorem removeDeadStores_total (hw : w.function.Redirectable t)
    (hready : ∀ x ∈ t.nodes, Ready w.function.numLocals x.2) :
    ∃ w', w.removeDeadStores = .ok w' := by
  have htable := hw.accessTable_eq
  generalize hread : AccessTable.mk w.function.numLocals _ = table at htable
  have hsize : table.readLocals.size = w.function.numLocals := by
    simp [AccessTable.readLocals, ← hread]
  have hvisits : Tree.Visits Redirection.function (removeDeadStore table.readLocals)
      (Ready table.readLocals.size) (Sweeps table.readLocals) := fun hn =>
    visits_removeDeadStore _ hn.1.1
  rw [← hsize] at hready
  obtain ⟨w', hw'⟩ := t.exists_visited hvisits (visitable_removeDeadStore _) hw.isAt hw.nodup hready
  exact ⟨w', bind_eq_ok.mpr ⟨_, htable, bind_eq_ok.mpr ⟨_, postOrder_eq hw.isAt, hw'⟩⟩⟩

theorem leftover_ready (count : Nat) : Leftover (Ready count) where
  drop h := by simp [Ready, Node.StoresValue, Node.StoresOne, Kind.isLocalWrite, Kind.isLocalAccess, h]
  nop h := by simp [Ready, Node.StoresValue, Node.StoresOne, Kind.isLocalWrite, Kind.isLocalAccess, h]

end Redirection

end LocalFlow
