import Mathlib
import LocalFlow.Proofs.Coalescing.Accounting

/-! Stores that are left after coalescing. Which slots are read is found out once, after the
accesses have been redirected and before the dead stores are removed. A store is left only if its
slot was read then. The read may have gone since, but only along with the value of a dead store. -/

namespace LocalFlow

namespace Function

variable {fn : Function} {t t' : Tree} {r c : Ref} {n : Node} {i : Nat} {read : Array Bool}
  {kids kids' : List (Unit → Tree)}

/-- Some node that can be reached from `r` reads local `i`. -/
def ReadsBelow (fn : Function) (r : Ref) (i : Nat) : Prop :=
  ∃ route q n, fn.follow r route = some q ∧ fn.node? q = some n ∧ n.kind = .localGet ∧ n.index = i

/-- Some set that can be reached from `r`, and whose local is never read, has a read of local `i` in
its value. -/
def DropsBelow (fn : Function) (read : Array Bool) (r : Ref) (i : Nat) : Prop :=
  ∃ route p n, fn.follow r route = some p ∧ fn.node? p = some n ∧ n.kind = .localSet ∧
    read[n.index]? = some false ∧ fn.ReadsBelow n.operand i

theorem readsBelow_iff (hat : t.IsAt fn r) :
    fn.ReadsBelow r i ↔ ∃ x ∈ t.nodes, x.2.kind = .localGet ∧ x.2.index = i := by
  constructor
  · rintro ⟨route, q, n, hroute, hn, hget, hindex⟩
    obtain ⟨x, hx, rfl⟩ := List.mem_map.mp ((mem_handles_iff hat hn).mpr ⟨route, hroute⟩)
    obtain rfl := Option.some.inj ((hat.node?_eq x hx).symm.trans hn)
    exact ⟨x, hx, hget, hindex⟩
  · rintro ⟨x, hx, hget, hindex⟩
    obtain ⟨route, n, hroute, hn⟩ := (mem_handles_iff_exists hat).mp (List.mem_map_of_mem hx)
    obtain rfl := Option.some.inj ((hat.node?_eq x hx).symm.trans hn)
    exact ⟨route, x.1, x.2, hroute, hn, hget, hindex⟩

theorem DropsBelow.of_child (h : fn.DropsBelow read c i) (hn : fn.node? r = some n) (hc : c ∈ n.kids) :
    fn.DropsBelow read r i := by
  obtain ⟨route, p, m, hroute, hrest⟩ := h
  obtain ⟨j, hj⟩ := List.mem_iff_getElem?.mp hc
  have hpresent : c.isPresent = true := by
    cases route with
    | nil =>
      cases hroute
      exact Tree.isPresent_of_node? hrest.1
    | cons k route =>
      rw [follow_cons] at hroute
      obtain ⟨e, he, -⟩ := Option.bind_eq_some_iff.mp hroute
      obtain ⟨m', hm', -⟩ := child?_eq_some he
      exact Tree.isPresent_of_node? hm'
  refine ⟨j :: route, p, m, ?_, hrest⟩
  rw [follow_cons, child?_of_slot hn hj hpresent, Option.bind_some, hroute]

end Function

namespace Redirection

open LocalFlow.Function

variable {fn : Function} {t t' : Tree} {r : Ref} {n : Node} {x : Ref × Node} {read : Array Bool}
  {kids kids' : List (Unit → Tree)} {rs : List Ref}

/-- A read of the tree is still there after the sweep, or it stood in the value of a dead set. -/
def KeepsReads (fn : Function) (read : Array Bool) (t : Tree) : Prop :=
  ∀ ⦃r t'⦄, t.IsAt fn r → (∀ x ∈ t.nodes, x.2.StoresOne) → Tree.Rewrites (Sweeps read) t t' →
    ∀ x ∈ t.nodes, x.2.kind = .localGet → x.2 ∈ t'.contents ∨ fn.DropsBelow read r x.2.index

theorem keepsReadsAll (ih : ∀ k ∈ kids, KeepsReads fn read (k ())) (hat : Tree.AreAt fn kids rs)
    (hone : ∀ x ∈ Tree.nodesAll kids, x.2.StoresOne) (h : Tree.RewritesAll (Sweeps read) kids kids')
    (hx : x ∈ Tree.nodesAll kids) (hget : x.2.kind = .localGet) :
    x.2 ∈ Tree.contentsAll kids' ∨ ∃ c ∈ rs, fn.DropsBelow read c x.2.index := by
  induction kids generalizing kids' rs with
  | nil => simp [Tree.nodesAll] at hx
  | cons k kids ihk =>
    cases h with
    | cons hk hkids =>
      cases rs with
      | nil => exact hat.elim
      | cons c rs =>
        rw [Tree.contentsAll_cons, List.mem_append]
        rcases List.mem_append.mp hx with hx | hx
        · have hfirst := ih k (by simp) hat.1 (fun y hy => hone y (List.mem_append_left _ hy))
            hk x hx hget
          exact hfirst.imp .inl fun hdrops => ⟨c, by simp, hdrops⟩
        · have hrest := ihk (fun k hk => ih k (.tail _ hk)) hat.2
            (fun y hy => hone y (List.mem_append_right _ hy)) hkids hx
          rcases hrest with hkept | ⟨d, hd, hdrops⟩
          · exact .inl (.inr hkept)
          · exact .inr ⟨d, .tail _ hd, hdrops⟩

/-- What remains of a store has the contents of its value, unless the store is a set and nothing
remains. -/
theorem mem_contents_of_remains {safe : Prop} {kind : Kind} {value : Tree}
    (h : kind.Remains safe value t) (hn : n ∈ value.contents) : n ∈ t.contents ∨ kind = .localSet := by
  cases h with
  | value r' =>
    rw [Tree.contents_relabel]
    exact .inl hn
  | drop =>
    rw [Tree.contents_node, Tree.contentsAll_singleton]
    exact .inl (List.mem_append_left _ hn)
  | nop hkind => exact .inr hkind

theorem keepsReads (t : Tree) : KeepsReads fn read t := by
  induction t with
  | absent => exact fun _ _ _ _ _ x hx => by simp [Tree.nodes] at hx
  | dangling => exact fun _ _ hat => hat.elim
  | endless => exact fun _ _ hat => hat.elim
  | node r n kids ih =>
    intro r' t' hat hone h x hx hget
    obtain ⟨rfl, hn, hkids⟩ := hat
    obtain ⟨honeKids, honeNode⟩ := Tree.forall_mem_nodes.mp hone
    cases h with
    | @node _ _ _ kids' _ hall hchange =>
    rcases List.mem_append.mp hx with hx | hx
    · rcases keepsReadsAll ih hkids honeKids hall hx hget with hkept | ⟨c, hc, hdrops⟩
      · cases hchange with
        | kept =>
          rw [Tree.contents_node, List.mem_append]
          exact .inl (.inl hkept)
        | removed hwrite hunread hvalue' hremains =>
          rw [hvalue', Tree.contentsAll_singleton] at hkept
          refine (mem_contents_of_remains hremains hkept).imp_right fun hset => ?_
          obtain ⟨value, rfl, hvalue⟩ := exists_value honeNode hwrite hkids
          refine ⟨[], r', n, rfl, hn, hset, hunread, (readsBelow_iff hvalue).mpr ⟨x, ?_, hget, rfl⟩⟩
          simpa [Tree.nodesAll] using hx
      · exact .inr (hdrops.of_child hn hc)
    · -- A read is no store, so the sweep leaves it where it is.
      obtain rfl : x = (r', n) := List.mem_singleton.mp hx
      cases hchange with
      | kept =>
        rw [Tree.contents_node]
        exact .inl (by simp)
      | removed hwrite =>
        change n.kind = .localGet at hget
        rw [hget] at hwrite
        cases hwrite

/-- A store that the sweep leaves writes to a local that was read before. -/
theorem read_of_mem_contents (h : Tree.Rewrites (Sweeps read) t t') (hn : n ∈ t'.contents)
    (hwrite : n.kind.isLocalWrite = true) : read[n.index]? = some true := by
  obtain ⟨x, hx, rfl⟩ := List.mem_map.mp hn
  refine h.forall_nodes (fun _ => True)
    (fun n => n.kind.isLocalWrite = true → read[n.index]? = some true)
    (fun {r n kids t} hchange _ hkids => ?_) (fun _ _ => trivial) x hx hwrite
  cases hchange with
  | kept hread => exact Tree.forall_mem_nodes.mpr ⟨hkids, hread⟩
  | removed _ _ heq hremains =>
    subst heq
    have hleft : Leftover fun n => n.kind.isLocalWrite = true → read[n.index]? = some true :=
      ⟨fun hkind => by simp [hkind, Kind.isLocalWrite], fun hkind => by simp [hkind, Kind.isLocalWrite]⟩
    exact hleft.of_remains hremains (by simpa [Tree.nodesAll] using hkids)

end Redirection

namespace Function

variable {G : Type} {lib : GraphLibrary G} {fn : Function} {order : SlotOrder} {c : Coalesced}

/-- The second half of coalescing: the redirected body, and what the sweep makes of it. -/
theorem coalesce_sweeps (h : fn.coalesce lib order = .ok c) :
    ∃ w count t t',
      Redirection.remap c.summary.mapping c.analysis.ineffective { function := fn } = .ok w ∧
      w.function.Redirectable t ∧ c.function.Redirectable t' ∧
      Tree.Rewrites (Redirection.Sweeps (t.readLocals count)) t t' := by
  obtain ⟨a, classes, w, w', ha, -, hw, hw', rfl⟩ := coalesce_steps h
  obtain ⟨t₀, -, -, -, ht₀, -⟩ := analyze_eq_ok ha
  obtain ⟨t, ht, -⟩ := Redirection.remap_spec (w := { function := fn }) (.of_wellFormed ht₀) hw
  obtain ⟨t', ht', hsweeps, -⟩ :=
    Redirection.removeDeadStores_sweeps (ht.withVars (classes.vars fn)) hw'
  exact ⟨w, _, t, t', hw, ht, ht', hsweeps⟩

/-- A store that is left in the body after coalescing names a slot that some read of the body reads,
or one that a read did read that has been removed: once the accesses were redirected, the read stood
in the value of a set to a slot that nothing read. -/
theorem coalesce_keeps_read_stores (h : fn.coalesce lib order = .ok c) :
    ∃ w, Redirection.remap c.summary.mapping c.analysis.ineffective { function := fn } = .ok w ∧
      ∀ route r n, c.function.follow c.function.body route = some r → c.function.node? r = some n →
        (n.kind = .localSet ∨ n.kind = .localTee) →
        c.function.ReadsBelow c.function.body n.index ∨
          ∃ route' p m, w.function.follow w.function.body route' = some p ∧
            w.function.node? p = some m ∧ m.kind = .localSet ∧
            ¬w.function.ReadsBelow w.function.body m.index ∧
            w.function.ReadsBelow m.operand n.index := by
  obtain ⟨w, count, t, t', hw, ht, ht', hsweeps⟩ := coalesce_sweeps h
  refine ⟨w, hw, fun route r n hroute hn hstore => ?_⟩
  have hmem : n ∈ t'.contents := by
    obtain ⟨x, hx, rfl⟩ := List.mem_map.mp ((mem_handles_iff ht'.isAt hn).mpr ⟨route, hroute⟩)
    obtain rfl := Option.some.inj ((ht'.isAt.node?_eq x hx).symm.trans hn)
    exact List.mem_map_of_mem hx
  have hread := Redirection.read_of_mem_contents hsweeps hmem (Kind.isLocalWrite_iff.mpr hstore)
  obtain ⟨x, hx, hget, hindex⟩ := (Tree.getElem?_readLocals.mp hread).2.mp rfl
  rw [← hindex]
  rcases Redirection.keepsReads t ht.isAt ht.storesOne hsweeps x hx hget with hkept | hdrops
  · obtain ⟨y, hy, heq⟩ := List.mem_map.mp hkept
    exact .inl ((readsBelow_iff ht'.isAt).mpr ⟨y, hy, heq ▸ hget, heq ▸ rfl⟩)
  · obtain ⟨route', p, m, hp, hm, hset, hunread, hbelow⟩ := hdrops
    refine .inr ⟨route', p, m, hp, hm, hset, fun hreads => ?_, hbelow⟩
    have hnever := (Tree.getElem?_readLocals.mp hunread).2.mpr ((readsBelow_iff ht.isAt).mp hreads)
    exact Bool.false_ne_true hnever

/-- The parameter is set and copied to a variable, and the variable is copied to another one, which
nobody reads. -/
def handingDown : Function where
  name := "handing_down"
  params := [.i32]
  vars := [.i32, .i32]
  body := 6
  nodes := #[
    { kind := .const, type := .i32, value := .i32 5 },
    { kind := .localSet, index := 0, kids := [0] },
    { kind := .localGet, type := .i32, index := 0 },
    { kind := .localSet, index := 1, kids := [2] },
    { kind := .localGet, type := .i32, index := 1 },
    { kind := .localSet, index := 2, kids := [4] },
    { kind := .block, kids := [1, 3, 5] }]

/-- The last copy goes first, and with it the only read of the first variable. The store to this
variable is swept, and with it the only read of the parameter. The store to the parameter is left,
since the parameter was read when the sweep began. -/
theorem handingDown_swept :
    ∃ c n, handingDown.coalesce .lists .index = .ok c ∧ c.function.follow c.function.body [0] = some 1 ∧
      c.function.node? 1 = some n ∧ n.kind = .localSet ∧ n.index = 0 ∧
      ¬c.function.ReadsBelow c.function.body 0 := by
  obtain ⟨c, hc, hpost, hroute, hstore, hothers⟩ : ∃ c, handingDown.coalesce .lists .index = .ok c ∧
      c.function.postOrder c.function.body = .ok [0, 1, 3, 5, 6] ∧
      c.function.follow c.function.body [0] = some 1 ∧
      c.function.node? 1 = some { kind := .localSet, index := 0, kids := [0] } ∧
      [0, 1, 3, 5, 6].map c.function.node? = [
        some { kind := .const, type := .i32, value := .i32 5 },
        some { kind := .localSet, index := 0, kids := [0] }, some {}, some {},
        some { kind := .block, kids := [1, 3, 5] }] :=
    ⟨_, by cbv, by cbv, rfl, rfl, rfl⟩
  refine ⟨c, _, hc, hroute, hstore, rfl, rfl, ?_⟩
  rintro ⟨route, q, n, hq, hn, hget, -⟩
  obtain ⟨-, -, -, t', -, -, ht', -⟩ := coalesce_sweeps hc
  have hlisted := (ht'.lists.mem_iff q).mpr ⟨route, n, hq, hn⟩
  rw [← Except.ok.inj (hpost.symm.trans ht'.lists.postOrder_eq)] at hlisted
  have hmem := List.mem_map_of_mem (f := c.function.node?) hlisted
  rw [hothers, hn] at hmem
  simp only [List.mem_cons, Option.some.injEq, List.not_mem_nil, or_false] at hmem
  rcases hmem with rfl | rfl | rfl | rfl | rfl <;> cases hget

/-- Not every store that is left names a slot that is read. -/
theorem coalesce_leaves_dead_store :
    ¬∀ (fn : Function) (order : SlotOrder) (c : Coalesced), fn.coalesce .lists order = .ok c →
      ∀ route r n, c.function.follow c.function.body route = some r → c.function.node? r = some n →
        (n.kind = .localSet ∨ n.kind = .localTee) → c.function.ReadsBelow c.function.body n.index := by
  intro hall
  obtain ⟨c, n, hc, hroute, hn, hset, hindex, hunread⟩ := handingDown_swept
  have hread := hall handingDown .index c hc [0] 1 n hroute hn (.inl hset)
  rw [hindex] at hread
  exact hunread hread

theorem coalesce_keeps_read_stores_handingDown :
    ∃ c w n, handingDown.coalesce .lists .index = .ok c ∧
      Redirection.remap c.summary.mapping c.analysis.ineffective { function := handingDown } = .ok w ∧
      c.function.follow c.function.body [0] = some 1 ∧ c.function.node? 1 = some n ∧
      n.kind = .localSet ∧ n.index = 0 ∧
      ∃ route p m, w.function.follow w.function.body route = some p ∧ w.function.node? p = some m ∧
        m.kind = .localSet ∧ ¬w.function.ReadsBelow w.function.body m.index ∧
        w.function.ReadsBelow m.operand 0 := by
  obtain ⟨c, n, hc, hroute, hn, hset, hindex, hunread⟩ := handingDown_swept
  obtain ⟨w, hw, hall⟩ := coalesce_keeps_read_stores hc
  have hdropped := (hall [0] 1 n hroute hn (.inl hset)).resolve_left (hindex.symm ▸ hunread)
  rw [hindex] at hdropped
  exact ⟨c, w, n, hc, hw, hroute, hn, hset, hindex, hdropped⟩

end Function

end LocalFlow
