import LocalFlow.Coalescing.Coloring
import LocalFlow.Coalescing.Redirection
import LocalFlow.Proofs.Coalescing.Coloring
import LocalFlow.Proofs.Function.Rewriting
import LocalFlow.Proofs.Machine.Simulation

/-! What redirecting the accesses of a function makes of its tree, and what removing the stores to
slots that are never read makes of it. -/

namespace LocalFlow

def Node.StoresOne (n : Node) : Prop := n.kind.isLocalWrite = true → n.kids.length = 1

theorem Function.storesOne_of_rejection? {fn : Function} {r : Ref} {n : Node}
    (h : fn.rejection? r n = none) : n.StoresOne := by
  intro hwrite
  obtain ⟨least, most, harity, hleast, hmost, -⟩ := Node.arity_of_flaw? (flaw?_of_rejection? h)
  have hone : n.kind.arity? = some (1, some 1) := by
    rcases Kind.isLocalWrite_iff.mp hwrite with hkind | hkind
    · rw [hkind]
      rfl
    · rw [hkind]
      rfl
  rw [hone] at harity
  cases harity
  have := hmost 1 rfl
  omega

namespace Function

variable {fn fn' : Function} {n : Node} {r : Ref} {kids : List (Unit → Tree)}

theorem node_bind_eq_ok {β : Type} {next : Node → Except Failure β} {b : β}
    (hn : fn.node? r = some n) : fn.node r >>= next = .ok b ↔ next n = .ok b := by
  rw [node_eq_ok.mpr hn]
  rfl

theorem exists_value (hn : n.StoresOne) (hwrite : n.kind.isLocalWrite = true)
    (hat : Tree.AreAt fn kids n.kids) : ∃ value, kids = [value] ∧ (value ()).IsAt fn n.operand := by
  obtain ⟨r₀, hr₀⟩ := List.length_eq_one_iff.mp (hn hwrite)
  rw [hr₀] at hat
  match kids, hat with
  | [value], hvalue => exact ⟨value, rfl, by simpa [Node.operand, hr₀] using hvalue.1⟩

/-- Replacing a node by its operand leaves the operand under another handle. -/
theorem replace_spec {value : Tree} (hr : fn.node? r = some n) (hvalue : value.IsAt fn n.operand)
    (hrv : r ∉ value.handles) (h : fn.replace r n.operand = .ok fn') :
    (value.relabel r).IsAt fn' r ∧ (value.relabel r).handles.Sublist (value.handles ++ [r]) ∧
      SameBut [r] fn fn' := by
  have hne : r ≠ n.operand := fun heq => by
    obtain ⟨kids, rfl, -⟩ := (heq ▸ hvalue : value.IsAt fn r).exists_node hr
    simp at hrv
  rw [replace, if_neg hne] at h
  obtain ⟨n₁, hn₁, hput⟩ := bind_eq_ok.mp h
  obtain ⟨kids₁, rfl, hkids₁⟩ := hvalue.exists_node (node_eq_ok.mp hn₁)
  rw [Tree.handles_node, List.mem_append, not_or] at hrv
  refine ⟨isAt_of_put hput hkids₁ hrv.1, ?_, .of_put hput⟩
  simp [Tree.relabel]

theorem removeStore_spec (hn : n.StoresOne) (hwrite : n.kind.isLocalWrite = true)
    (hat : (Tree.node r n kids).IsAt fn r) (hnodup : (Tree.node r n kids).handles.Nodup)
    (h : fn.removeStore r = .ok fn') :
    ∃ value t, kids = [value] ∧ n.kind.Remains False (value ()) t ∧ t.IsAt fn' r ∧
      t.handles.Sublist (Tree.handlesAll kids ++ [r]) ∧ SameBut [r] fn fn' := by
  obtain ⟨-, hr, hkids⟩ := hat
  obtain ⟨value, rfl, hvalue⟩ := exists_value hn hwrite hkids
  simp only [Tree.handles_node, Tree.handlesAll_cons, Tree.handlesAll_nil, List.append_nil]
    at hnodup ⊢
  obtain ⟨-, -, hdisjoint⟩ := List.nodup_append.mp hnodup
  have hrv : r ∉ (value ()).handles := fun hmem => hdisjoint r hmem r (by simp) rfl
  replace h := (node_bind_eq_ok hr).mp h
  by_cases htee : n.kind = .localTee
  · rw [if_pos htee] at h
    obtain ⟨hat, hsub, hsame⟩ := replace_spec hr hvalue hrv h
    exact ⟨value, _, rfl, .value r htee, hat, hsub, hsame⟩
  · rw [if_neg htee] at h
    have hset : n.kind = .localSet := (Kind.isLocalWrite_iff.mp hwrite).resolve_right htee
    obtain ⟨lasts, hlasts, h⟩ := bind_eq_ok.mp h
    obtain ⟨e, he, hlasts⟩ := bind_eq_ok.mp hlasts
    cases hlasts
    rw [effects, tree_eq_of_isAt hvalue] at he
    cases hpure : e.hasSideEffects with
    | true =>
      have hput : fn.put r { kind := .drop, kids := [n.operand] } = .ok fn' := by
        simpa [hpure, makeDrop] using h
      refine ⟨value, .node r { kind := .drop, kids := [n.operand] } [fun _ => value ()], rfl,
        .drop hset rfl, isAt_of_put hput ⟨hvalue, trivial⟩ ?_, ?_, .of_put hput⟩
      · simpa using hrv
      · simp
    | false =>
      have hput : fn.put r {} = .ok fn' := by simpa [hpure, makeNop] using h
      refine ⟨value, .node r {} [], rfl, .nop hset he hpure False.elim rfl,
        isAt_of_put hput trivial ?_, ?_, .of_put hput⟩
      · simp
      · simp

end Function

namespace Redirection

open LocalFlow.Function

/-- What redirecting makes of a node. An access goes over to the slot of its local; of a store that
is dead, or that copies a slot to itself, only the value remains. -/
inductive Redirects (slot : Nat → Nat) (dead : List Ref) (r : Ref) (n : Node)
    (kids : List (Unit → Tree)) : Tree → Prop
  | other : n.kind.isLocalAccess = false → Redirects slot dead r n kids (.node r n kids)
  | access : n.kind.isLocalAccess = true → (n.kind.isLocalWrite = true → r ∉ dead) →
      Redirects slot dead r n kids (.node r { n with index := slot n.index } kids)
  | dead {value : Unit → Tree} {t : Tree} : n.kind.isLocalWrite = true → r ∈ dead →
      kids = [value] → n.kind.Remains False (value ()) t → Redirects slot dead r n kids t
  | copy {value : Unit → Tree} {t : Tree} {r₁ : Ref} {n₁ : Node} {kids₁ : List (Unit → Tree)} :
      n.kind.isLocalWrite = true → r ∉ dead → kids = [value] → value () = .node r₁ n₁ kids₁ →
      n₁.kind = .localGet → n₁.index = slot n.index → n.kind.Remains False (value ()) t →
      Redirects slot dead r n kids t

/-- What removing the stores to slots that are never read makes of a node. -/
inductive Sweeps (read : Array Bool) (r : Ref) (n : Node) (kids : List (Unit → Tree)) : Tree → Prop
  | kept : (n.kind.isLocalWrite = true → read[n.index]? = some true) →
      Sweeps read r n kids (.node r n kids)
  | removed {value : Unit → Tree} {t : Tree} : n.kind.isLocalWrite = true →
      read[n.index]? = some false → kids = [value] → n.kind.Remains False (value ()) t →
      Sweeps read r n kids t

def removed (w : Redirection) : Nat := w.stores + w.copies

/-- From `w` to `w'` a node is kept and nothing is counted, or it is a store of which only the value
remains, and the store is counted. A node that is kept may name another local if it is an access. -/
inductive Counts (w w' : Redirection) (r : Ref) (n : Node) (kids : List (Unit → Tree)) : Tree → Prop
  | kept (i : Nat) : (n.kind.isLocalAccess = false → i = n.index) → w'.removed = w.removed →
      Counts w w' r n kids (.node r { n with index := i } kids)
  | removed {value : Unit → Tree} {t : Tree} : n.kind.isLocalWrite = true → kids = [value] →
      n.kind.Remains False (value ()) t → w'.removed = w.removed + 1 → Counts w w' r n kids t

/-- What removing a dead store does to its node and to the count. -/
theorem removeDeadStore_spec {read : Array Bool} {w w' : Redirection} {r : Ref} {n : Node}
    {kids : List (Unit → Tree)} (hn : n.StoresOne) (hat : (Tree.node r n kids).IsAt w.function r)
    (hnodup : (Tree.node r n kids).handles.Nodup) (h : removeDeadStore read w r = .ok w') :
    ∃ t, t.IsAt w'.function r ∧ (Sweeps read r n kids t ∧ Counts w w' r n kids t) ∧
      t.handles.Sublist (Tree.handlesAll kids ++ [r]) ∧ SameBut [r] w.function w'.function := by
  replace h := (node_bind_eq_ok hat.2.1).mp h
  by_cases hwrite : n.kind.isLocalWrite = true
  · rw [if_pos hwrite] at h
    obtain ⟨used, hused, h⟩ := bind_eq_ok.mp h
    rw [fetch_eq_ok] at hused
    cases used with
    | true =>
      cases h
      exact ⟨_, hat, ⟨.kept fun _ => hused, .kept n.index (fun _ => rfl) rfl⟩, by simp, .refl _ _⟩
    | false =>
      obtain ⟨fn', hfn', h⟩ := bind_eq_ok.mp h
      cases h
      obtain ⟨value, t, hkids, ht, hat', hsub, hsame⟩ := removeStore_spec hn hwrite hat hnodup hfn'
      exact ⟨t, hat', ⟨.removed hwrite hused hkids ht,
        .removed hwrite hkids ht (Nat.add_right_comm _ _ _)⟩, hsub, hsame⟩
  · rw [if_neg hwrite] at h
    cases h
    exact ⟨_, hat, ⟨.kept fun h => absurd h hwrite, .kept n.index (fun _ => rfl) rfl⟩, by simp,
      .refl _ _⟩

theorem visits_removeDeadStore (read : Array Bool) :
    Tree.Visits Redirection.function (removeDeadStore read) Node.StoresOne (Sweeps read) := by
  intro w w' r n kids hn hat hnodup h
  obtain ⟨t, hat', ⟨hsweeps, -⟩, hrest⟩ := removeDeadStore_spec hn hat hnodup h
  exact ⟨t, hat', hsweeps, hrest⟩

theorem setIndex_spec {fn fn' : Function} {r : Ref} {n : Node} {kids : List (Unit → Tree)} {i : Nat}
    (hat : (Tree.node r n kids).IsAt fn r) (hr : r ∉ Tree.handlesAll kids)
    (h : fn.setIndex r i = .ok fn') :
    (Tree.node r { n with index := i } kids).IsAt fn' r ∧ SameBut [r] fn fn' := by
  obtain ⟨-, hn, hkids⟩ := hat
  have hput := (node_bind_eq_ok hn).mp h
  exact ⟨isAt_of_put hput hkids hr, .of_put hput⟩

/-- A store that writes back what it reads has a read of its own slot for its value. -/
theorem isSelfCopy_spec {fn : Function} {r : Ref} {n : Node} {value : Unit → Tree}
    (hn : fn.node? r = some n) (hvalue : (value ()).IsAt fn n.operand)
    (h : fn.isSelfCopy r = .ok true) :
    ∃ r₁ n₁ kids₁, value () = .node r₁ n₁ kids₁ ∧ n₁.kind = .localGet ∧ n₁.index = n.index := by
  obtain ⟨n₁, hn₁, h⟩ := bind_eq_ok.mp ((node_bind_eq_ok hn).mp h)
  obtain ⟨kids₁, hv, -⟩ := hvalue.exists_node (node_eq_ok.mp hn₁)
  have hcopy : n₁.kind = .localGet ∧ n₁.index = n.index := by
    simpa using Except.ok.inj h
  exact ⟨_, n₁, kids₁, hv, hcopy⟩

theorem redirects_of_selfCopy {fn fn' : Function} {slot : Nat → Nat} {dead : List Ref} {r : Ref}
    {n : Node} {kids : List (Unit → Tree)} (hn : n.StoresOne) (hwrite : n.kind.isLocalWrite = true)
    (hr : r ∉ dead) (hat : (Tree.node r { n with index := slot n.index } kids).IsAt fn r)
    (hnodup : (Tree.node r n kids).handles.Nodup) (hself : fn.isSelfCopy r = .ok true)
    (h : fn.removeStore r = .ok fn') :
    ∃ value t, kids = [value] ∧ n.kind.Remains False (value ()) t ∧ t.IsAt fn' r ∧
      Redirects slot dead r n kids t ∧ t.handles.Sublist (Tree.handlesAll kids ++ [r]) ∧
      SameBut [r] fn fn' := by
  have hn' : { n with index := slot n.index }.StoresOne := hn
  obtain ⟨value, t, rfl, ht, hat', hsub, hsame⟩ :=
    removeStore_spec hn' hwrite hat (by simpa using hnodup) h
  obtain ⟨value', hvalue', hoperand⟩ := exists_value hn' hwrite hat.2.2
  obtain rfl := List.singleton_inj.mp hvalue'
  obtain ⟨r₁, n₁, kids₁, hv, hget, hindex⟩ := isSelfCopy_spec hat.2.1 hoperand hself
  exact ⟨value, t, rfl, ht, hat', .copy hwrite hr rfl hv hget hindex ht, hsub, hsame⟩

/-- What redirecting an access does to its node and to the count. -/
theorem remapNode_spec {fn : Function} {classes : Coloring} {dead : List Ref} {w w' : Redirection}
    {r : Ref} {n : Node} {kids : List (Unit → Tree)} (hn : n.StoresOne)
    (hat : (Tree.node r n kids).IsAt w.function r) (hnodup : (Tree.node r n kids).handles.Nodup)
    (h : remapNode (classes.mapping fn) dead w r = .ok w') :
    ∃ t, t.IsAt w'.function r ∧ (Redirects (classes.slot fn) dead r n kids t ∧ Counts w w' r n kids t) ∧
      t.handles.Sublist (Tree.handlesAll kids ++ [r]) ∧ SameBut [r] w.function w'.function := by
  replace h := (node_bind_eq_ok hat.2.1).mp h
  by_cases haccess : n.kind.isLocalAccess = true
  · rw [haccess] at h
    have hmoves : n.kind.isLocalAccess = false → classes.slot fn n.index = n.index := by simp [haccess]
    by_cases hdead : n.kind.isLocalWrite = true ∧ r ∈ dead
    · simp only [Bool.not_true, Bool.false_eq_true, if_false, hdead.1, hdead.2, decide_true,
        Bool.and_self, if_true] at h
      obtain ⟨fn', hfn', h⟩ := bind_eq_ok.mp h
      cases h
      obtain ⟨value, t, hkids, ht, hat', hsub, hsame⟩ := removeStore_spec hn hdead.1 hat hnodup hfn'
      exact ⟨t, hat', ⟨.dead hdead.1 hdead.2 hkids ht,
        .removed hdead.1 hkids ht (Nat.add_right_comm _ _ _)⟩, hsub, hsame⟩
    · have hkept : (n.kind.isLocalWrite && decide (r ∈ dead)) = false := by
        simpa using hdead
      simp only [Bool.not_true, Bool.false_eq_true, if_false, hkept] at h
      obtain ⟨i, hi, h⟩ := bind_eq_ok.mp h
      obtain ⟨-, rfl⟩ := Coloring.fetch_mapping hi
      obtain ⟨fn₁, hfn₁, h⟩ := bind_eq_ok.mp h
      have hr : r ∉ Tree.handlesAll kids := by
        rw [Tree.handles_node] at hnodup
        exact fun hr => (List.nodup_append.mp hnodup).2.2 r hr r (by simp) rfl
      obtain ⟨hat₁, hsame₁⟩ := setIndex_spec hat hr hfn₁
      have hlive : n.kind.isLocalWrite = true → r ∉ dead := fun hwrite hr => hdead ⟨hwrite, hr⟩
      by_cases hwrite : n.kind.isLocalWrite = true
      · simp only [hwrite, if_true] at h
        obtain ⟨self, hself, h⟩ := bind_eq_ok.mp h
        cases self with
        | true =>
          obtain ⟨fn₂, hfn₂, h⟩ := bind_eq_ok.mp h
          cases h
          obtain ⟨value, t, hkids, ht, hat₂, hchange, hsub, hsame₂⟩ :=
            redirects_of_selfCopy hn hwrite (hlive hwrite) hat₁ hnodup hself hfn₂
          exact ⟨t, hat₂, ⟨hchange, .removed hwrite hkids ht rfl⟩, hsub,
            (hsame₁.trans hsame₂).mono (by simp)⟩
        | false =>
          cases h
          exact ⟨_, hat₁, ⟨.access haccess hlive, .kept _ hmoves rfl⟩, by simp, hsame₁⟩
      · simp only [hwrite] at h
        cases h
        exact ⟨_, hat₁, ⟨.access haccess hlive, .kept _ hmoves rfl⟩, by simp, hsame₁⟩
  · have hother : n.kind.isLocalAccess = false := by simpa using haccess
    rw [hother] at h
    cases h
    exact ⟨_, hat, ⟨.other hother, .kept n.index (fun _ => rfl) rfl⟩, by simp, .refl _ _⟩

theorem visits_remapNode (fn : Function) (classes : Coloring) (dead : List Ref) :
    Tree.Visits Redirection.function (remapNode (classes.mapping fn) dead) Node.StoresOne
      (Redirects (classes.slot fn) dead) := by
  intro w w' r n kids hn hat hnodup h
  obtain ⟨t, hat', ⟨hredirects, -⟩, hrest⟩ := remapNode_spec hn hat hnodup h
  exact ⟨t, hat', hredirects, hrest⟩

/-- What holds of all nodes that are put in place of a store. -/
structure Leftover (fine : Node → Prop) : Prop where
  drop : ∀ {n : Node}, n.kind = .drop → fine n
  nop : ∀ {n : Node}, n.kind = .nop → fine n

/-- Redirecting turns good nodes into fine ones. -/
structure Refines (slot : Nat → Nat) (good fine : Node → Prop) : Prop extends Leftover fine where
  other : ∀ {n : Node}, n.kind.isLocalAccess = false → good n → fine n
  access : ∀ {n : Node}, n.kind.isLocalAccess = true → good n → fine { n with index := slot n.index }

/-- What holds of a node whatever local it names, and of all nodes that are put in place of a store. -/
structure Lasting (good : Node → Prop) : Prop extends Leftover good where
  reindexed : ∀ {n : Node} (i : Nat), good n → good { n with index := i }

theorem lasting_storesOne : Lasting Node.StoresOne where
  drop h := by simp [Node.StoresOne, Kind.isLocalWrite, h]
  nop h := by simp [Node.StoresOne, Kind.isLocalWrite, h]
  reindexed _ h := h

theorem lasting_divides : Lasting fun n => n.divides = false where
  drop h := by simp [Node.divides, h]
  nop h := by simp [Node.divides, h]
  reindexed _ h := h

section Refines

variable {good fine : Node → Prop} {slot : Nat → Nat} {dead : List Ref} {read : Array Bool} {r : Ref}
  {n : Node} {kids : List (Unit → Tree)} {t t' : Tree}

theorem Leftover.of_remains (h : Leftover fine) {safe : Prop} {kind : Kind} {value : Tree}
    (hremains : kind.Remains safe value t) (hvalue : ∀ x ∈ value.nodes, fine x.2) :
    ∀ x ∈ t.nodes, fine x.2 := by
  cases hremains with
  | value r' =>
    cases value with
    | node r₁ n₁ kids₁ =>
      obtain ⟨hkids, hn⟩ := Tree.forall_mem_nodes.mp hvalue
      exact Tree.forall_mem_nodes.mpr ⟨hkids, hn⟩
    | _ => exact hvalue
  | drop _ hkind =>
    exact Tree.forall_mem_nodes.mpr ⟨by simpa [Tree.nodesAll] using hvalue, h.drop hkind⟩
  | nop _ _ _ _ hkind => exact Tree.forall_mem_nodes.mpr ⟨by simp [Tree.nodesAll], h.nop hkind⟩

theorem Refines.of_redirects (h : Refines slot good fine) (hchange : Redirects slot dead r n kids t)
    (hn : good n) (hkids : ∀ x ∈ Tree.nodesAll kids, fine x.2) : ∀ x ∈ t.nodes, fine x.2 := by
  cases hchange with
  | other hkind => exact Tree.forall_mem_nodes.mpr ⟨hkids, h.other hkind hn⟩
  | access hkind => exact Tree.forall_mem_nodes.mpr ⟨hkids, h.access hkind hn⟩
  | dead _ _ heq hremains =>
    subst heq
    exact h.of_remains hremains (by simpa [Tree.nodesAll] using hkids)
  | copy _ _ heq _ _ _ hremains =>
    subst heq
    exact h.of_remains hremains (by simpa [Tree.nodesAll] using hkids)

theorem Refines.redirected (h : Refines slot good fine)
    (hrewrites : Tree.Rewrites (Redirects slot dead) t t') (ht : ∀ x ∈ t.nodes, good x.2) :
    ∀ x ∈ t'.nodes, fine x.2 :=
  hrewrites.forall_nodes good fine h.of_redirects ht

theorem Lasting.refines (h : Lasting good) (slot : Nat → Nat) : Refines slot good good :=
  ⟨h.toLeftover, fun _ hn => hn, fun _ hn => h.reindexed _ hn⟩

theorem Lasting.redirected (h : Lasting good) (hrewrites : Tree.Rewrites (Redirects slot dead) t t')
    (ht : ∀ x ∈ t.nodes, good x.2) : ∀ x ∈ t'.nodes, good x.2 :=
  (h.refines slot).redirected hrewrites ht

theorem Leftover.of_sweeps (h : Leftover good) (hchange : Sweeps read r n kids t)
    (hn : good n) (hkids : ∀ x ∈ Tree.nodesAll kids, good x.2) : ∀ x ∈ t.nodes, good x.2 := by
  cases hchange with
  | kept => exact Tree.forall_mem_nodes.mpr ⟨hkids, hn⟩
  | removed _ _ heq hremains =>
    subst heq
    exact h.of_remains hremains (by simpa [Tree.nodesAll] using hkids)

theorem Leftover.swept (h : Leftover good) (hrewrites : Tree.Rewrites (Sweeps read) t t')
    (ht : ∀ x ∈ t.nodes, good x.2) : ∀ x ∈ t'.nodes, good x.2 :=
  hrewrites.forall_nodes good good h.of_sweeps ht

end Refines

end Redirection

/-- The tree of a body in which no node occurs twice and every store has one value. -/
structure Function.Redirectable (fn : Function) (t : Tree) : Prop where
  isAt : t.IsAt fn fn.body
  nodup : t.handles.Nodup
  storesOne : ∀ x ∈ t.nodes, x.2.StoresOne

namespace Function.Redirectable

variable {fn : Function} {t : Tree}

theorem of_wellFormed (h : fn.WellFormed t) : fn.Redirectable t :=
  ⟨h.isAt, h.nodup, fun x hx => storesOne_of_rejection? (h.accepted x hx)⟩

theorem tree_eq (h : fn.Redirectable t) : fn.tree fn.body = t := tree_eq_of_isAt h.isAt

theorem withVars (h : fn.Redirectable t) (vars : List ValueType) : { fn with vars }.Redirectable t :=
  ⟨h.isAt.congr fun _ _ => rfl, h.nodup, h.storesOne⟩

theorem accessTable_eq (h : fn.Redirectable t) : fn.accessTable =
    .ok ⟨fn.numLocals, t.nodes.filter fun (_, n) => n.kind.isLocalAccess⟩ := by
  rw [accessTable, h.tree_eq, h.isAt.postOrder_eq]
  rfl

end Function.Redirectable

/-- A declared local counts as read exactly if some access reads it. -/
theorem AccessTable.getElem?_readLocals {table : AccessTable} {i : Nat} {used : Bool} :
    table.readLocals[i]? = some used ↔ i < table.numLocals ∧
      (used = true ↔ ∃ x ∈ table.accesses, x.2.kind = .localGet ∧ x.2.index = i) := by
  simp only [readLocals, List.getElem?_toArray, List.getElem?_map, Option.map_eq_some_iff]
  by_cases hlt : i < table.numLocals
  · have huses : (!table.isUnused i) = true ↔
        ∃ x ∈ table.accesses, x.2.kind = .localGet ∧ x.2.index = i := by
      simp [isUnused, uses, handles, hlt, and_comm]
    rw [← huses]
    cases used <;> simp [hlt]
  · simp [hlt]

def Tree.readLocals (t : Tree) (count : Nat) : Array Bool :=
  AccessTable.readLocals ⟨count, t.nodes.filter fun (_, n) => n.kind.isLocalAccess⟩

theorem Tree.getElem?_readLocals {t : Tree} {count i : Nat} {used : Bool} :
    (t.readLocals count)[i]? = some used ↔ i < count ∧
      (used = true ↔ ∃ x ∈ t.nodes, x.2.kind = .localGet ∧ x.2.index = i) := by
  rw [readLocals, AccessTable.getElem?_readLocals]
  refine and_congr_right fun _ => iff_congr Iff.rfl (exists_congr fun x => ?_)
  rw [List.mem_filter]
  refine ⟨fun h => ⟨h.1.1, h.2⟩, fun h => ⟨⟨h.1, ?_⟩, h.2⟩⟩
  simp [h.2.1, Kind.isLocalAccess]

namespace Redirection

variable {fn : Function} {classes : Coloring} {dead : List Ref} {w w' : Redirection} {t : Tree}

/-- After redirection the body is what redirecting makes of its nodes. -/
theorem remap_spec (hw : w.function.Redirectable t)
    (h : remap (classes.mapping fn) dead w = .ok w') :
    ∃ t', w'.function.Redirectable t' ∧ Tree.Rewrites (Redirects (classes.slot fn) dead) t t' ∧
      Function.SameBut t.handles w.function w'.function := by
  obtain ⟨order, horder, h⟩ := bind_eq_ok.mp h
  rw [Function.postOrder_eq hw.isAt] at horder
  cases horder
  obtain ⟨t', hat, hrewrites, hsub, hsame⟩ :=
    t.visited (visits_remapNode fn classes dead) hw.isAt hw.nodup hw.storesOne h
  exact ⟨t', ⟨hsame.body ▸ hat, hsub.nodup hw.nodup, lasting_storesOne.redirected hrewrites hw.storesOne⟩,
    hrewrites, hsame⟩

/-- After the stores to locals that are never read are gone, the body is what is left of its nodes. Which
locals are read is found out once, before the first store is removed. -/
theorem removeDeadStores_sweeps (hw : w.function.Redirectable t) (h : w.removeDeadStores = .ok w') :
    ∃ t', w'.function.Redirectable t' ∧
      Tree.Rewrites (Sweeps (t.readLocals w.function.numLocals)) t t' ∧
      Function.SameBut t.handles w.function w'.function := by
  obtain ⟨table, htable, h⟩ := bind_eq_ok.mp h
  obtain ⟨order, horder, h⟩ := bind_eq_ok.mp h
  rw [Function.postOrder_eq hw.isAt] at horder
  cases horder
  rw [hw.accessTable_eq] at htable
  cases htable
  obtain ⟨t', hat, hrewrites, hsub, hsame⟩ :=
    t.visited (visits_removeDeadStore _) hw.isAt hw.nodup hw.storesOne h
  exact ⟨t', ⟨hsame.body ▸ hat, hsub.nodup hw.nodup, lasting_storesOne.swept hrewrites hw.storesOne⟩,
    hrewrites, hsame⟩

theorem removeDeadStores_spec (hw : w.function.Redirectable t) (h : w.removeDeadStores = .ok w') :
    ∃ read t', (∀ x ∈ t.nodes, x.2.kind = .localGet → read[x.2.index]? ≠ some false) ∧
      w'.function.Redirectable t' ∧ Tree.Rewrites (Sweeps read) t t' ∧
      Function.SameBut t.handles w.function w'.function := by
  obtain ⟨t', ht', hrewrites, hsame⟩ := removeDeadStores_sweeps hw h
  refine ⟨_, t', fun x hx hget hunread => ?_, ht', hrewrites, hsame⟩
  exact Bool.false_ne_true ((Tree.getElem?_readLocals.mp hunread).2.mpr ⟨x, hx, hget, rfl⟩)

end Redirection

end LocalFlow
