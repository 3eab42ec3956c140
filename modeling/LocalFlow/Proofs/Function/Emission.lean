import LocalFlow.Function.Instruction
import LocalFlow.Proofs.Function.Shape
import LocalFlow.Proofs.Machine.Safety

/-! Functions that grow by emission. A node is appended after its children, so the trees that grow in an
arena are made of the nodes appended since they were begun, each of them once. -/

namespace LocalFlow

namespace Tree

variable {fn : Function} {ts us : List (Unit → Tree)} {rs rs' : List Ref}

theorem nodesAll_perm (h : ts.Perm us) : (nodesAll ts).Perm (nodesAll us) := by
  have hflat : ∀ ts : List (Unit → Tree), nodesAll ts = ts.flatMap fun t => (t ()).nodes := by
    intro ts
    induction ts with
    | nil => rfl
    | cons t ts ih => rw [nodesAll, ih, List.flatMap_cons]
  rw [hflat, hflat]
  exact h.flatMap_right _

theorem AreAt.perm (h : AreAt fn ts rs) (hp : rs.Perm rs') : ∃ us, ts.Perm us ∧ AreAt fn us rs' := by
  induction hp generalizing ts with
  | nil => exact ⟨ts, .refl ts, h⟩
  | cons r _ ih =>
    match ts, h with
    | t :: ts, ⟨ht, hts⟩ =>
      obtain ⟨us, hus, hat⟩ := ih hts
      exact ⟨t :: us, hus.cons t, ht, hat⟩
  | swap r r' rs =>
    match ts, h with
    | t :: t' :: ts, ⟨ht, ht', hts⟩ => exact ⟨t' :: t :: ts, .swap t' t ts, ht', ht, hts⟩
  | trans _ _ ih ih' =>
    obtain ⟨us, hus, hat⟩ := ih h
    obtain ⟨us', hus', hat'⟩ := ih' hat
    exact ⟨us', hus.trans hus', hat'⟩

end Tree

namespace Function

variable {fn fn' fn'' : Function} {r : Ref} {n : Node} {type : ValueType}

/-- The second function has the same locals and all nodes of the first, where they were. -/
structure Extends (fn fn' : Function) : Prop where
  params_eq : fn'.params = fn.params
  vars_eq : fn'.vars = fn.vars
  size_le : fn.nodes.size ≤ fn'.nodes.size
  node?_eq : ∀ {r n}, fn.node? r = some n → fn'.node? r = some n

namespace Extends

theorem refl (fn : Function) : fn.Extends fn := ⟨rfl, rfl, Nat.le_refl _, id⟩

theorem trans (h : fn.Extends fn') (h' : fn'.Extends fn'') : fn.Extends fn'' :=
  ⟨h'.params_eq.trans h.params_eq, h'.vars_eq.trans h.vars_eq, Nat.le_trans h.size_le h'.size_le,
    fun hn => h'.node?_eq (h.node?_eq hn)⟩

theorem add (fn : Function) (n : Node) : fn.Extends (fn.add n).1 := by
  refine ⟨rfl, rfl, by simp [Function.add], fun {r n'} hn => ?_⟩
  have hlt := node?_lt_size hn
  cases r with
  | ofNat i =>
    have hne : i ≠ fn.nodes.size := Nat.ne_of_lt hlt
    simpa [node?, Function.add, Array.getElem?_push, hne] using hn
  | negSucc i => cases hn

theorem numLocals_eq (h : fn.Extends fn') : fn'.numLocals = fn.numLocals := by
  rw [numLocals, h.params_eq, h.vars_eq, numLocals]

theorem localType_eq (h : fn.Extends fn') (v : Nat) : fn'.localType v = fn.localType v := by
  rw [localType, localTypes, h.params_eq, h.vars_eq, localType, localTypes]

theorem isAt {t : Tree} (h : fn.Extends fn') (hat : t.IsAt fn r) : t.IsAt fn' r := by
  refine hat.congr fun x hx => ?_
  rw [hat.node?_eq x hx, h.node?_eq (hat.node?_eq x hx)]

end Extends

theorem node?_add (fn : Function) (n : Node) : (fn.add n).1.node? (fn.add n).2 = some n := by
  have hget : (fn.nodes.push n)[fn.nodes.size]? = some n := by simp
  exact hget

def HasType (fn : Function) (r : Ref) (type : ValueType) : Prop :=
  ∃ n, fn.node? r = some n ∧ n.type = type

namespace HasType

theorem extend (h : fn.HasType r type) (hext : fn.Extends fn') : fn'.HasType r type := by
  obtain ⟨n, hn, htype⟩ := h
  exact ⟨n, hext.node?_eq hn, htype⟩

theorem isPresent (h : fn.HasType r type) : r.isPresent = true := by
  obtain ⟨n, hn, -⟩ := h
  exact Tree.isPresent_of_node? hn

theorem ne_absent (h : fn.HasType r type) : r ≠ .absent := by
  rintro rfl
  have hpresent := h.isPresent
  cases hpresent

theorem typeOf_eq (h : fn.HasType r type) : fn.typeOf r = .ok type := by
  have hpresent := h.isPresent
  obtain ⟨n, hn, rfl⟩ := h
  rw [typeOf, if_pos hpresent, node, hn]
  rfl

end HasType

/-- The local that a node accesses is declared, the value that it writes has the type of the local, and
its operator can be applied. -/
structure Admits (fn : Function) (n : Node) : Prop where
  declared : n.kind.isLocalAccess = true → n.index < fn.numLocals
  typed : n.kind.isLocalWrite = true →
    ∃ value, n.kids = [value] ∧ fn.HasType value (fn.localType n.index)
  implemented : ∀ f, ¬n.Unimplemented f

theorem Admits.extend (h : fn.Admits n) (hext : fn.Extends fn') : fn'.Admits n := by
  refine ⟨fun haccess => ?_, fun hwrite => ?_, h.implemented⟩
  · rw [hext.numLocals_eq]
    exact h.declared haccess
  · obtain ⟨value, hkids, htype⟩ := h.typed hwrite
    rw [hext.localType_eq]
    exact ⟨value, hkids, htype.extend hext⟩

end Function

namespace Node

def hasArity (n : Node) : Bool :=
  match n.kind.arity? with
  | some (least, most) => least ≤ n.kids.length && most.all (n.kids.length ≤ ·)
  | none => false

/-- A child that is missing may be. -/
def Filled (n : Node) : Prop := ∀ i, n.kids[i]? = some .absent → n.kind.isOptionalSlot i = true

variable {n : Node}

theorem filled_of_ne_absent (h : ∀ r ∈ n.kids, r ≠ .absent) : n.Filled :=
  fun _ hi => absurd rfl (h .absent (List.mem_of_getElem? hi))

theorem shaped_of_hasArity {fn : Function} {kids : List (Unit → Tree)} (harity : n.hasArity = true)
    (hfilled : n.Filled) (hkids : Tree.AreAt fn kids n.kids)
    (habsent : ∀ r ∈ n.kids, r.isPresent = false → r = .absent) : n.Shaped kids := by
  have hlen := hkids.length_eq
  refine ⟨?_, fun i kid hkid hnone => ?_⟩
  · unfold hasArity at harity
    split at harity
    · rename_i least most hkind
      rw [Bool.and_eq_true, decide_eq_true_eq, Option.all_eq_true] at harity
      refine ⟨least, most, hkind, by omega, fun k hk => ?_⟩
      have hle := harity.2 k hk
      rw [decide_eq_true_eq] at hle
      omega
    · cases harity
  · have hlt := (List.getElem?_eq_some_iff.mp hkid).1
    rw [hlen] at hlt
    have hchild := List.getElem?_eq_getElem hlt
    obtain ⟨kid', hkid', hat⟩ := hkids.exists_child hchild
    obtain rfl : kid' = kid := Option.some.inj (hkid'.symm.trans hkid)
    rw [hnone] at hat
    rw [habsent _ (List.mem_of_getElem? hchild) hat] at hchild
    exact ⟨hfilled i hchild, hchild⟩

/-- What is asked of a node at a place with the given labels around it. -/
structure Fits (n : Node) (fn : Function) (names : List String) : Prop where
  arity : n.hasArity = true
  filled : n.Filled
  resolved : unresolved names n.branchLabels = []
  admits : fn.Admits n

end Node

namespace Kind

/-- Nodes of this kind access no local, apply no operator and name no label. -/
def isSimple : Kind → Bool
  | .localGet | .localSet | .localTee | .unary | .binary | .br | .brTable => false
  | _ => true

end Kind

namespace Node.Fits

variable {n : Node} {fn : Function} {names : List String}

theorem simple (hkind : n.kind.isSimple = true) (harity : n.hasArity = true) (hfilled : n.Filled) :
    n.Fits fn names := by
  refine ⟨harity, hfilled, ?_, fun haccess => ?_, fun hwrite => ?_, fun f hf => ?_⟩
  · unfold branchLabels
    split
    · simp [Kind.isSimple, *] at hkind
    · simp [Kind.isSimple, *] at hkind
    · rfl
  · rcases Kind.isLocalAccess_iff.mp haccess with h | hwrite
    · simp [h, Kind.isSimple] at hkind
    · rcases Kind.isLocalWrite_iff.mp hwrite with h | h <;> simp [h, Kind.isSimple] at hkind
  · rcases Kind.isLocalWrite_iff.mp hwrite with h | h <;> simp [h, Kind.isSimple] at hkind
  · rcases hf with ⟨h, -⟩ | ⟨h, -⟩ <;> simp [h, Kind.isSimple] at hkind

theorem operation (hkind : n.kind.isSimple = true) (harity : n.hasArity = true)
    (hkids : ∀ r ∈ n.kids, r ≠ .absent) : n.Fits fn names :=
  .simple hkind harity (filled_of_ne_absent hkids)

theorem read (hkind : n.kind = .localGet) (hkids : n.kids = []) (hindex : n.index < fn.numLocals) :
    n.Fits fn names := by
  refine ⟨by simp [hasArity, hkind, hkids, Kind.arity?], filled_of_ne_absent (by simp [hkids]),
    by simp [branchLabels, hkind, unresolved], fun _ => hindex, fun hwrite => ?_, fun f hf => ?_⟩
  · rw [hkind] at hwrite
    cases hwrite
  · rcases hf with ⟨h, -⟩ | ⟨h, -⟩ <;> simp [hkind] at h

theorem write {value : Ref} (hkind : n.kind.isLocalWrite = true) (hkids : n.kids = [value])
    (hindex : n.index < fn.numLocals) (htype : fn.HasType value (fn.localType n.index)) :
    n.Fits fn names := by
  have hne : ∀ r ∈ n.kids, r ≠ .absent := by simp [hkids, htype.ne_absent]
  refine ⟨?_, filled_of_ne_absent hne, ?_, fun _ => hindex, fun _ => ⟨value, hkids, htype⟩,
    fun f hf => ?_⟩
  · rcases Kind.isLocalWrite_iff.mp hkind with h | h <;> simp [hasArity, h, hkids, Kind.arity?]
  · rcases Kind.isLocalWrite_iff.mp hkind with h | h <;> simp [branchLabels, h, unresolved]
  · rcases hf with ⟨h, -⟩ | ⟨h, -⟩ <;> simp [h, Kind.isLocalWrite] at hkind

theorem binary (hkind : n.kind = .binary) (hop : n.op.isBinary = true) (harity : n.kids.length = 2)
    (hfilled : n.Filled) : n.Fits fn names := by
  refine ⟨by simp [hasArity, hkind, harity, Kind.arity?], hfilled,
    by simp [branchLabels, hkind, unresolved], fun haccess => ?_, fun hwrite => ?_, fun f hf => ?_⟩
  · rw [hkind] at haccess
    cases haccess
  · rw [hkind] at hwrite
    cases hwrite
  · rcases hf with ⟨h, -⟩ | ⟨-, h, -⟩
    · simp [hkind] at h
    · simp [hop] at h

theorem branch (hkind : n.kind = .br ∨ n.kind = .brTable) (harity : n.kids.length = 2)
    (hfilled : n.Filled) (hlabels : ∀ name ∈ n.branchLabels, name ∈ names ∧ name ≠ "") :
    n.Fits fn names := by
  refine ⟨?_, hfilled, ?_, fun haccess => ?_, fun hwrite => ?_, fun f hf => ?_⟩
  · rcases hkind with h | h <;> simp [hasArity, h, harity, Kind.arity?]
  · rw [unresolved, List.filter_eq_nil_iff]
    intro name hname
    simp [hlabels name hname]
  · rcases hkind with h | h <;> simp [h, Kind.isLocalAccess] at haccess
  · rcases hkind with h | h <;> simp [h, Kind.isLocalWrite] at hwrite
  · rcases hf with ⟨h', -⟩ | ⟨h', -⟩ <;> rcases hkind with h | h <;> simp [h] at h'

end Node.Fits

namespace Function

variable {fn fn' : Function} {lo : Nat} {names : List String} {rs rs' : List Ref} {n : Node}

/-- The trees stand at the handles and fit among the given labels, and they are made of the nodes from
position `lo` on, each of them once. -/
structure Plants (fn : Function) (lo : Nat) (names : List String) (rs : List Ref)
    (ts : List (Unit → Tree)) : Prop where
  le_size : lo ≤ fn.nodes.size
  absent : ∀ r ∈ rs, r.isPresent = false → r = .absent
  areAt : Tree.AreAt fn ts rs
  perm : ((Tree.nodesAll ts).map (·.1)).Perm ((List.range' lo (fn.nodes.size - lo)).map Int.ofNat)
  admits : ∀ x ∈ Tree.nodesAll ts, fn.Admits x.2
  shaped : ∀ t ∈ ts, (t ()).Shaped
  resolved : ∀ t ∈ ts, (t ()).strays names = []

/-- The handles are the roots of what has grown since position `lo`. -/
def Forest (fn : Function) (lo : Nat) (names : List String) (rs : List Ref) : Prop :=
  ∃ ts, fn.Plants lo names rs ts

namespace Forest

theorem nil (fn : Function) (names : List String) : fn.Forest fn.nodes.size names [] :=
  ⟨[], Nat.le_refl _, by simp, trivial, by simp [Tree.nodesAll], by simp [Tree.nodesAll], by simp,
    by simp⟩

theorem absent (h : fn.Forest lo names rs) : fn.Forest lo names (.absent :: rs) := by
  obtain ⟨ts, hts⟩ := h
  refine ⟨(fun _ => .absent) :: ts, hts.le_size, ?_, ⟨rfl, hts.areAt⟩, hts.perm, hts.admits,
    List.forall_mem_cons.mpr ⟨trivial, hts.shaped⟩, List.forall_mem_cons.mpr ⟨rfl, hts.resolved⟩⟩
  simpa using hts.absent

/-- What grows after a forest stands beside it. -/
theorem append (h : fn.Forest lo names rs) (hext : fn.Extends fn')
    (h' : fn'.Forest fn.nodes.size names rs') : fn'.Forest lo names (rs ++ rs') := by
  obtain ⟨ts, hts⟩ := h
  obtain ⟨ts', hts'⟩ := h'
  have hlo := hts.le_size
  have hmid := hts'.le_size
  have hrange : List.range' lo (fn'.nodes.size - lo) = List.range' lo (fn.nodes.size - lo) ++
      List.range' fn.nodes.size (fn'.nodes.size - fn.nodes.size) := by
    have hfirst : lo + (fn.nodes.size - lo) = fn.nodes.size := by omega
    have hcount : fn'.nodes.size - lo =
        fn.nodes.size - lo + (fn'.nodes.size - fn.nodes.size) := by omega
    rw [hcount, ← List.range'_append_1, hfirst]
  have hkept : Tree.AreAt fn' ts rs := hts.areAt.imp fun t _ r hr => hext.isAt hr
  refine ⟨ts ++ ts', Nat.le_trans hlo hmid, List.forall_mem_append.mpr ⟨hts.absent, hts'.absent⟩,
    hkept.append_areAt hts'.areAt, ?_, ?_, List.forall_mem_append.mpr ⟨hts.shaped, hts'.shaped⟩,
    List.forall_mem_append.mpr ⟨hts.resolved, hts'.resolved⟩⟩
  · rw [Tree.nodesAll_append, hrange, List.map_append, List.map_append]
    exact hts.perm.append hts'.perm
  · rw [Tree.nodesAll_append]
    exact List.forall_mem_append.mpr ⟨fun x hx => (hts.admits x hx).extend hext, hts'.admits⟩

theorem perm (h : fn.Forest lo names rs) (hp : rs.Perm rs') : fn.Forest lo names rs' := by
  obtain ⟨ts, hts⟩ := h
  obtain ⟨us, hus, hat⟩ := hts.areAt.perm hp
  have hnodes := Tree.nodesAll_perm hus
  exact ⟨us, hts.le_size, fun r hr => hts.absent r (hp.mem_iff.mpr hr), hat,
    (hnodes.map _).symm.trans hts.perm, fun x hx => hts.admits x (hnodes.mem_iff.mpr hx),
    fun t ht => hts.shaped t (hus.mem_iff.mpr ht), fun t ht => hts.resolved t (hus.mem_iff.mpr ht)⟩

/-- A node that fits makes one tree of the trees of its children. -/
theorem add (h : fn.Forest lo (n.labelsInside names) n.kids) (hn : n.Fits fn names) :
    (fn.add n).1.Forest lo names [(fn.add n).2] := by
  obtain ⟨kids, hkids⟩ := h
  have hlo := hkids.le_size
  have hext := Extends.add fn n
  have hsize : (fn.add n).1.nodes.size = fn.nodes.size + 1 := by simp [Function.add]
  have hat : Tree.AreAt (fn.add n).1 kids n.kids := hkids.areAt.imp fun t _ r hr => hext.isAt hr
  have hshaped := Node.shaped_of_hasArity hn.arity hn.filled hat hkids.absent
  have hnodes : Tree.nodesAll [fun _ => .node (fn.add n).2 n kids] =
      Tree.nodesAll kids ++ [((fn.add n).2, n)] := by
    simp [Tree.nodesAll, Tree.nodes]
  refine ⟨[fun _ => .node (fn.add n).2 n kids], Nat.le_trans hlo hext.size_le, ?_,
    ⟨⟨rfl, node?_add fn n, hat⟩, trivial⟩, ?_, ?_, ?_, ?_⟩
  · intro r hr hnone
    rw [List.mem_singleton.mp hr, Tree.isPresent_of_node? (node?_add fn n)] at hnone
    cases hnone
  · have hcount : fn.nodes.size + 1 - lo = fn.nodes.size - lo + 1 := by omega
    have hlast : lo + (fn.nodes.size - lo) = fn.nodes.size := by omega
    rw [hnodes, hsize, hcount, List.range'_1_concat, hlast, List.map_append, List.map_append]
    exact hkids.perm.append_right _
  · rw [hnodes]
    refine List.forall_mem_append.mpr ⟨fun x hx => (hkids.admits x hx).extend hext, ?_⟩
    simpa using hn.admits.extend hext
  · exact List.forall_mem_singleton.mpr ⟨hshaped, Tree.shapedAll_iff.mpr hkids.shaped⟩
  · have hinside := Tree.straysAll_eq_nil_iff.mpr hkids.resolved
    exact List.forall_mem_singleton.mpr (List.append_eq_nil_iff.mpr ⟨hinside, hn.resolved⟩)

end Forest

end Function

end LocalFlow
