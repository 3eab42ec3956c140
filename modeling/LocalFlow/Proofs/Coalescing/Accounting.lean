import Mathlib
import LocalFlow.Proofs.Coalescing.Integrity
import LocalFlow.Proofs.Graph.Resolution

/-! Keeping account of what coalescing removes. A value is thrown away with its store only if it has no
side effects, so it holds no store and nothing else that has an effect, and whatever is lost is a store
that has been counted. -/

namespace LocalFlow

/-- The kinds of nodes that have an effect on something other than the locals. -/
def Kind.hasNonlocalEffect : Kind → Bool
  | .call | .store | .globalSet | .memoryGrow | .br | .brTable | .ret | .unreachable => true
  | _ => false

theorem Kind.hasNonlocalEffect_of_isLocalAccess {kind : Kind} (h : kind.isLocalAccess = true) :
    kind.hasNonlocalEffect = false := by
  cases kind <;> first | rfl | cases h

/-- Other effects and stores to locals are what keeps an unused value alive. -/
theorem Node.hasSideEffects_effect (n : Node) :
    n.effect.hasSideEffects = (n.kind.hasNonlocalEffect || n.kind.isLocalWrite) := by
  unfold Node.effect
  cases n.kind with
  | binary =>
    dsimp only
    split <;> decide
  | unknown code => exact (by decide : Effect.none.hasSideEffects = false)
  | _ =>
    dsimp only
    decide

namespace Tree

def contents (t : Tree) : List Node := t.nodes.map (·.2)

def contentsAll (ts : List (Unit → Tree)) : List Node := (nodesAll ts).map (·.2)

theorem contents_node (r : Ref) (n : Node) (kids : List (Unit → Tree)) :
    (node r n kids).contents = contentsAll kids ++ [n] := by
  simp [contents, contentsAll, nodes]

theorem contentsAll_cons (t : Unit → Tree) (ts : List (Unit → Tree)) :
    contentsAll (t :: ts) = (t ()).contents ++ contentsAll ts := by
  simp [contents, contentsAll, nodesAll]

theorem contentsAll_nil : contentsAll [] = [] := rfl

theorem contentsAll_singleton (t : Unit → Tree) : contentsAll [t] = (t ()).contents := by
  rw [contentsAll_cons, contentsAll_nil, List.append_nil]

theorem contents_relabel (t : Tree) (r : Ref) : (t.relabel r).contents = t.contents := by
  cases t with
  | node r' n kids => simp [relabel, contents_node]
  | _ => rfl

variable {t : Tree} {e : Effect} {n : Node}

/-- In a value without side effects there is no store, and nothing else that has an effect. -/
theorem idle_of_mem_contents (he : t.effects = .ok e) (hpure : e.hasSideEffects = false)
    (hn : n ∈ t.contents) : n.kind.hasNonlocalEffect = false ∧ n.kind.isLocalWrite = false := by
  obtain ⟨x, hx, rfl⟩ := List.mem_map.mp hn
  have hself : x.2.effect.hasSideEffects = false := by
    by_contra hlasts
    rw [Bool.not_eq_false] at hlasts
    rw [Effect.hasSideEffects, effect_within he x hx _ hlasts] at hpure
    cases hpure
  rw [Node.hasSideEffects_effect] at hself
  exact Bool.or_eq_false_iff.mp hself

theorem IsAt.contents_eq {fn : Function} {r : Ref} (hat : t.IsAt fn r) :
    t.handles.filterMap fn.node? = t.contents := by
  rw [handles, contents, List.filterMap_map, ← List.filterMap_eq_map]
  refine List.filterMap_congr fun x hx => ?_
  exact hat.node?_eq x hx

end Tree

namespace Redirection

variable {w w' : Redirection} {xs ys zs us vs : List Node} {k k' k'' : Nat} {r : Ref} {n : Node}
  {kids : List (Unit → Tree)} {t : Tree}

/-- While the count goes from `k` to `k'` the nodes `xs` become `ys`: the nodes with other effects are
the same, and there are as many stores fewer as have been counted. -/
structure Accounts (xs : List Node) (k : Nat) (ys : List Node) (k' : Nat) : Prop where
  effects : ys.filter (·.kind.hasNonlocalEffect) = xs.filter (·.kind.hasNonlocalEffect)
  writes : ys.countP (·.kind.isLocalWrite) + k' = xs.countP (·.kind.isLocalWrite) + k

namespace Accounts

theorem refl (xs : List Node) (k : Nat) : Accounts xs k xs k := ⟨rfl, rfl⟩

theorem trans (h : Accounts xs k ys k') (h' : Accounts ys k' zs k'') : Accounts xs k zs k'' :=
  ⟨h'.effects.trans h.effects, h'.writes.trans h.writes⟩

/-- The accounts of nodes that are visited one after the other add up. -/
theorem append (h : Accounts xs k ys k') (h' : Accounts us k' vs k'') :
    Accounts (xs ++ us) k (ys ++ vs) k'' := by
  have hxs := h.writes
  have hus := h'.writes
  refine ⟨by rw [List.filter_append, List.filter_append, h.effects, h'.effects], ?_⟩
  rw [List.countP_append, List.countP_append]
  omega

theorem symm (h : Accounts xs k ys k) : Accounts ys k xs k := ⟨h.effects.symm, h.writes.symm⟩

/-- Nodes without any effect do not count. -/
theorem of_idle (h : ∀ x ∈ xs, x.kind.hasNonlocalEffect = false ∧ x.kind.isLocalWrite = false) (k : Nat) :
    Accounts xs k [] k := by
  have heffects : xs.filter (·.kind.hasNonlocalEffect) = [] :=
    List.filter_eq_nil_iff.mpr fun x hx => by simp [h x hx]
  have hwrites : xs.countP (·.kind.isLocalWrite) = 0 :=
    List.countP_eq_zero.mpr fun x hx => by simp [h x hx]
  exact ⟨heffects.symm, by rw [hwrites, List.countP_nil]⟩

/-- What remains of a store has all effects of its value. -/
theorem of_remains {value : Tree} {safe : Prop} {kind : Kind} (h : kind.Remains safe value t) (k : Nat) :
    Accounts value.contents k t.contents k := by
  cases h with
  | value r' =>
    rw [Tree.contents_relabel]
    exact .refl _ _
  | @drop _ n _ hkind =>
    have hn : Accounts [n] k [] k :=
      of_idle (by simp [hkind, Kind.hasNonlocalEffect, Kind.isLocalWrite]) k
    rw [Tree.contents_node, Tree.contentsAll_singleton]
    simpa using (refl value.contents k).append hn.symm
  | @nop _ n _ _ he hpure _ hkind =>
    have hn : Accounts [n] k [] k :=
      of_idle (by simp [hkind, Kind.hasNonlocalEffect, Kind.isLocalWrite]) k
    rw [Tree.contents_node, Tree.contentsAll_nil, List.nil_append]
    exact (of_idle (fun x => Tree.idle_of_mem_contents he hpure) k).trans hn.symm

end Accounts

theorem Counts.accounts (h : Counts w w' r n kids t) :
    Accounts (Tree.contentsAll kids ++ [n]) w.removed t.contents w'.removed := by
  cases h with
  | kept i hi hremoved =>
    rw [Tree.contents_node, hremoved]
    refine (Accounts.refl _ _).append ⟨?_, rfl⟩
    cases haccess : n.kind.isLocalAccess with
    | true => simp [Kind.hasNonlocalEffect_of_isLocalAccess haccess]
    | false => rw [hi haccess]
  | removed hwrite hkids hremains hremoved =>
    have heffect := Kind.hasNonlocalEffect_of_isLocalAccess (Kind.isLocalAccess_of_isLocalWrite hwrite)
    have hstore : Accounts [n] w.removed [] w'.removed :=
      ⟨by simp [heffect], by simp [hwrite, hremoved, Nat.add_comm]⟩
    rw [hkids, Tree.contentsAll_singleton, ← List.append_nil t.contents]
    exact (Accounts.of_remains hremains _).append hstore

def Tracks (t : Tree) (w : Redirection) (t' : Tree) (w' : Redirection) : Prop :=
  Accounts t.contents w.removed t'.contents w'.removed

def TracksAll (ts : List (Unit → Tree)) (w : Redirection) (ts' : List (Unit → Tree))
    (w' : Redirection) : Prop :=
  Accounts (Tree.contentsAll ts) w.removed (Tree.contentsAll ts') w'.removed

theorem chains_tracks : Tree.Chains Tracks TracksAll where
  absent := .refl _ _
  nil := .refl _ _
  cons ht hts := by
    unfold TracksAll
    rw [Tree.contentsAll_cons, Tree.contentsAll_cons]
    exact ht.append hts

/-- A visit leaves a tree at the node, and counts what it removes. -/
def Counting (visit : Redirection → Ref → Except Failure Redirection) : Prop :=
  ∀ ⦃w w' r n kids⦄, n.StoresOne → (Tree.node r n kids).IsAt w.function r →
    (Tree.node r n kids).handles.Nodup → visit w r = .ok w' → ∃ t, t.IsAt w'.function r ∧
      Counts w w' r n kids t ∧ t.handles.Sublist (Tree.handlesAll kids ++ [r]) ∧
      Function.SameBut [r] w.function w'.function

theorem counting_remapNode (fn : Function) (classes : Coloring) (dead : List Ref) :
    Counting (remapNode (classes.mapping fn) dead) := by
  intro w w' r n kids hn hat hnodup h
  obtain ⟨t, hat', ⟨-, hcounts⟩, hrest⟩ := remapNode_spec hn hat hnodup h
  exact ⟨t, hat', hcounts, hrest⟩

theorem counting_removeDeadStore (read : Array Bool) : Counting (removeDeadStore read) := by
  intro w w' r n kids hn hat hnodup h
  obtain ⟨t, hat', ⟨-, hcounts⟩, hrest⟩ := removeDeadStore_spec hn hat hnodup h
  exact ⟨t, hat', hcounts, hrest⟩

variable {visit : Redirection → Ref → Except Failure Redirection}

theorem Counting.visitsAlong (hvisit : Counting visit) :
    Tree.VisitsAlong Redirection.function visit Node.StoresOne Tracks TracksAll := by
  intro w w' r n kids hn hat hnodup h
  obtain ⟨t, hat', hcounts, hrest⟩ := hvisit hn hat hnodup h
  refine ⟨t, hat', fun {before w₀} hbefore => ?_, hrest⟩
  unfold Tracks
  rw [Tree.contents_node]
  exact (hbefore.append (.refl [n] _)).trans hcounts.accounts

theorem Counting.accounts (hvisit : Counting visit) (hw : w.function.Redirectable t)
    {refs : List Ref} (hrefs : w.function.postOrder w.function.body = .ok refs)
    (h : refs.foldlM visit w = .ok w') :
    Accounts t.contents w.removed (w'.function.tree w'.function.body).contents w'.removed := by
  obtain rfl := Except.ok.inj ((Function.postOrder_eq hw.isAt).symm.trans hrefs)
  obtain ⟨t', hat, htracks, -, hsame⟩ :=
    t.tracked chains_tracks hvisit.visitsAlong hw.isAt hw.nodup hw.storesOne h
  rw [hsame.body, Function.tree_eq_of_isAt hat]
  exact htracks

end Redirection

namespace Function

variable {G : Type} {lib : GraphLibrary G} {fn : Function} {t : Tree} {order : SlotOrder} {c : Coalesced}

/-- The handles of all nodes that the body is made of, each of them once, children first. -/
structure Lists (fn : Function) (refs : List Ref) : Prop where
  postOrder_eq : fn.postOrder fn.body = .ok refs
  nodup : refs.Nodup
  mem_iff : ∀ r, r ∈ refs ↔ ∃ route n, fn.follow fn.body route = some r ∧ fn.node? r = some n

theorem Redirectable.lists (h : fn.Redirectable t) : fn.Lists t.handles :=
  ⟨postOrder_eq h.isAt, h.nodup, fun _ => mem_handles_iff_exists h.isAt⟩

theorem coalesce_accounts (h : fn.coalesce lib order = .ok c) :
    ∃ t t', fn.Redirectable t ∧ c.function.Redirectable t' ∧
      Redirection.Accounts t.contents 0 t'.contents (c.summary.stores + c.summary.copies) := by
  obtain ⟨a, classes, w, w', ha, -, hw, hw', rfl⟩ := coalesce_steps h
  obtain ⟨t, -, -, -, ht, -⟩ := analyze_eq_ok ha
  have hstart := Redirectable.of_wellFormed ht
  obtain ⟨mid, hmid, -⟩ := Redirection.remap_spec (w := { function := fn }) hstart hw
  have hmid' := hmid.withVars (classes.vars fn)
  obtain ⟨-, t', -, ht', -⟩ := Redirection.removeDeadStores_spec hmid' hw'
  obtain ⟨refs, hrefs, hw⟩ := bind_eq_ok.mp hw
  obtain ⟨table, -, hw'⟩ := bind_eq_ok.mp hw'
  obtain ⟨refs', hrefs', hw'⟩ := bind_eq_ok.mp hw'
  have hfirst := (Redirection.counting_remapNode fn classes _).accounts hstart hrefs hw
  have hsecond := (Redirection.counting_removeDeadStore _).accounts hmid' hrefs' hw'
  rw [hmid.tree_eq] at hfirst
  rw [ht'.tree_eq] at hsecond
  exact ⟨t, t', hstart, ht', hfirst.trans hsecond⟩

/-- Coalescing loses no node of the body that does something that lasts: the calls, stores to memory and
to globals, growths of the memory, branches, returns and traps are the same nodes in the same order. Of
the sets and tees as many are gone as have been counted as removed stores and removed copies. -/
theorem coalesce_accounts_for_removed (h : fn.coalesce lib order = .ok c) :
    ∃ refs refs', fn.Lists refs ∧ c.function.Lists refs' ∧
      (refs.filterMap fn.node?).countP (·.kind.isLocalWrite) =
        (refs'.filterMap c.function.node?).countP (·.kind.isLocalWrite) +
          (c.summary.stores + c.summary.copies) ∧
      (refs'.filterMap c.function.node?).filter (·.kind.hasNonlocalEffect) =
        (refs.filterMap fn.node?).filter (·.kind.hasNonlocalEffect) := by
  obtain ⟨t, t', ht, ht', haccounts⟩ := coalesce_accounts h
  refine ⟨t.handles, t'.handles, ht.lists, ht'.lists, ?_, ?_⟩
  · rw [ht.isAt.contents_eq, ht'.isAt.contents_eq]
    exact haccounts.writes.symm
  · rw [ht.isAt.contents_eq, ht'.isAt.contents_eq]
    exact haccounts.effects

/-- Of six stores two are left. The growth of the memory loses its store, and is dropped instead. -/
theorem coalesce_accounts_for_removed_nestedTees :
    ∃ c refs, nestedTees.coalesce .lists .degree = .ok c ∧ c.summary.stores = 3 ∧ c.summary.copies = 1 ∧
      c.function.Lists refs ∧
      (refs.filterMap c.function.node?).countP (·.kind.isLocalWrite) = 2 ∧
      (refs.filterMap c.function.node?).filter (·.kind.hasNonlocalEffect) =
        [{ kind := .br, label := "out", kids := [.absent, 6] },
          { kind := .memoryGrow, type := .i32, kids := [8] },
          { kind := .globalSet, index := 0, kids := [13] }] := by
  obtain ⟨c, hc, hstores, hcopies⟩ : ∃ c, nestedTees.coalesce .lists .degree = .ok c ∧
      c.summary.stores = 3 ∧ c.summary.copies = 1 :=
    ⟨_, by cbv, rfl, rfl⟩
  obtain ⟨before, after, hbefore, hafter, hwrites, heffects⟩ := coalesce_accounts_for_removed hc
  have horder : nestedTees.postOrder nestedTees.body =
    .ok [0, 1, 2, 3, 4, 5, 6, 7, 8, 9, 10, 11, 12, 13, 14, 15] := by cbv
  obtain rfl := Except.ok.inj (horder.symm.trans hbefore.postOrder_eq)
  have hsix : ([0, 1, 2, 3, 4, 5, 6, 7, 8, 9, 10, 11, 12, 13, 14, 15].filterMap
    nestedTees.node?).countP (·.kind.isLocalWrite) = 6 := rfl
  rw [hsix, hstores, hcopies] at hwrites
  exact ⟨c, after, hc, hstores, hcopies, hafter, by omega, heffects⟩

end Function

end LocalFlow
