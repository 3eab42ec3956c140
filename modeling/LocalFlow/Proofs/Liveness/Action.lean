import LocalFlow.Proofs.Graph.Coverage
import LocalFlow.Proofs.Graph.Items
import LocalFlow.Proofs.Liveness.Overlap

/-! The actions of a well-formed function: each has a node of its own, and a copy comes right after
the read of its source. -/

namespace LocalFlow

open LocalFlow.Graph

namespace Function

variable {fn : Function} {t : Tree} {g : Graph Action} {r : Ref} {n : Node} {a a' : Action}

theorem action?_origin (h : fn.action? r = some a) : a.origin = r := by
  unfold action? at h
  split at h
  · split at h <;> cases h <;> rfl
  · cases h

theorem map_origin_filterMap (fn : Function) (xs : List (Ref × Node)) :
    ((xs.filterMap fun x => fn.action? x.1).map (·.origin)).Sublist (xs.map (·.1)) := by
  induction xs with
  | nil => simp
  | cons x xs ih =>
    rw [List.filterMap_cons]
    cases hx : fn.action? x.1 with
    | none => exact ih.cons _
    | some a =>
      simp only [List.map_cons, action?_origin hx]
      exact ih.cons_cons _

theorem WellFormed.nodup_origins (h : fn.WellFormed t) (hg : fn.actionGraph = .ok g) :
    (g.allItems.map (·.origin)).Nodup := by
  have hsub := lower_allItems_subperm hg
  rw [h.tree_eq] at hsub
  obtain ⟨items, hperm, hitems⟩ := hsub
  have hnodup := (map_origin_filterMap fn t.nodes).nodup h.nodup
  exact ((hperm.map _).nodup_iff.mp ((hitems.map _).nodup hnodup))

theorem WellFormed.eq_of_origin (h : fn.WellFormed t) (hg : fn.actionGraph = .ok g)
    (ha : a ∈ g.allItems) (ha' : a' ∈ g.allItems) (heq : a.origin = a'.origin) : a = a' :=
  List.inj_on_of_nodup_map (h.nodup_origins hg) ha ha' heq

theorem readIndex?_eq_some {i : Nat} (h : fn.readIndex? r = some i) :
    ∃ n, fn.node? r = some n ∧ n.kind = .localGet ∧ n.index = i := by
  unfold readIndex? at h
  split at h
  · rename_i n hn
    split at h
    · exact ⟨n, hn, ‹_›, Option.some.inj h⟩
    · cases h
  · cases h

theorem action?_of_get (hn : fn.node? r = some n) (hkind : n.kind = .localGet) :
    fn.action? r = some { access := .get, index := n.index, origin := r } := by
  simp [action?, hn, hkind]

theorem action?_of_set (hn : fn.node? r = some n) (hkind : n.kind.isLocalWrite = true) :
    fn.action? r =
      some { access := .set, index := n.index, origin := r, copy := fn.readIndex? n.operand } := by
  rcases Kind.isLocalWrite_iff.mp hkind with hkind | hkind
  · simp [action?, hn, hkind]
  · simp [action?, hn, hkind]

theorem action?_eq_none (hn : fn.node? r = some n) (hkind : n.kind.isLocalAccess = false) :
    fn.action? r = none := by
  simp only [action?, hn]
  split
  · simp [*, Kind.isLocalAccess] at hkind
  · simp [*, Kind.isLocalAccess] at hkind
  · simp [*, Kind.isLocalAccess] at hkind
  · rfl

/-- A write comes from a set or a tee, whose value it copies if that is a read. -/
theorem isLocalWrite_of_action? (h : fn.action? r = some a) (hset : a.access = .set) :
    ∃ n, fn.node? r = some n ∧ n.kind.isLocalWrite = true ∧ a.copy = fn.readIndex? n.operand := by
  unfold action? at h
  split at h
  · rename_i n hn
    split at h
    · cases h
      cases hset
    · cases h
      exact ⟨n, hn, by simp [*, Kind.isLocalWrite], rfl⟩
    · cases h
      exact ⟨n, hn, by simp [*, Kind.isLocalWrite], rfl⟩
    · cases h
  · cases h

theorem isStructured_of_action? (h : fn.action? r = some a) (hn : fn.node? r = some n) :
    n.kind.isStructured = false := by
  simp only [action?, hn] at h
  split at h
  · simp [*, Kind.isStructured]
  · simp [*, Kind.isStructured]
  · simp [*, Kind.isStructured]
  · cases h

/-- The value of a set that copies a local is read right before. -/
theorem exists_read_of_laysAll {labels : Labels} {kids : List (Unit → Tree)} {p m : Point}
    {source : Nat} (hkids : Tree.AreAt fn kids n.kids) (h : g.LaysAll fn.action? labels kids p m)
    (hsource : fn.readIndex? n.operand = some source) :
    ∃ (b i : Nat) (x : Action), (g.items b)[i]? = some x ∧ x.index = source ∧ m = (b, i + 1) := by
  obtain ⟨n', hn', hkind, rfl⟩ := readIndex?_eq_some hsource
  have hlast : n.kids.getLast? = some n.operand := by
    unfold Node.operand at hn' ⊢
    cases hkids : n.kids.getLast? with
    | none =>
      rw [hkids] at hn'
      exact absurd (Tree.isPresent_of_node? hn') (by decide)
    | some r => rfl
  obtain ⟨k, hk, hat⟩ := hkids.getLast? hlast
  obtain ⟨m₀, hlays⟩ := h.getLast? hk
  obtain ⟨kids', heq, -⟩ := hat.exists_node hn'
  rw [heq] at hlays
  cases hlays with
  | plain _ _ hrecords hdeparts =>
    simp only [Records, action?_of_get hn' hkind] at hrecords
    simp only [Departs, hkind] at hdeparts
    exact ⟨_, _, _, hrecords.1, rfl, hdeparts.trans hrecords.2⟩
  | _ => simp_all

theorem WellFormed.placed_of_mem (h : fn.WellFormed t) (hg : fn.actionGraph = .ok g)
    (ha : a ∈ g.allItems) :
    ∃ n, fn.action? a.origin = some a ∧ fn.node? a.origin = some n ∧
      g.Placed fn.action? fn a.origin n := by
  have hsub := (lower_allItems_subperm hg).subset ha
  rw [h.tree_eq] at hsub
  obtain ⟨⟨r, n⟩, hmem, haction⟩ := List.mem_filterMap.mp hsub
  have hn := h.isAt.node?_eq _ hmem
  obtain ⟨-, -, q, hlays⟩ := lower_lays hg
  rw [h.tree_eq] at hlays
  obtain rfl := action?_origin haction
  exact ⟨n, haction, hn, covers_of_isAt h.isAt h.accepted hlays _ hmem
    (isStructured_of_action? haction hn)⟩

/-- In every block, a copy comes after an action that names its source. -/
theorem WellFormed.sourcesNamed (h : fn.WellFormed t) (hg : fn.actionGraph = .ok g) (b : Nat) :
    Overlap.SourcesNamed (g.items b) := by
  intro done a rest source hitems hset hcopy
  have hmem : a ∈ g.items b := by simp [hitems]
  have hnodup : g.allItems.Nodup := .of_map _ (h.nodup_origins hg)
  obtain ⟨n, haction, hn, labels, kids, p, m, m', q, hkids, hall, hrecords, -⟩ :=
    h.placed_of_mem hg (mem_allItems.mpr ⟨b, hmem⟩)
  obtain ⟨n', hn', -, hsource⟩ := isLocalWrite_of_action? haction hset
  obtain rfl : n' = n := Option.some.inj (hn'.symm.trans hn)
  obtain ⟨c, i, x, hx, hindex, rfl⟩ := exists_read_of_laysAll hkids hall (hsource ▸ hcopy)
  simp only [Records, haction] at hrecords
  obtain rfl : b = c := eq_of_mem_items hnodup hmem (List.mem_of_getElem? hrecords.1)
  have hplace : i + 1 = done.length := by
    have hlt := (List.getElem?_eq_some_iff.mp hrecords.1).1
    refine (List.getElem?_inj hlt (nodup_items hnodup b)).mp ?_
    rw [hrecords.1, hitems]
    simp
  rw [hitems, List.getElem?_append_left (by omega)] at hx
  exact ⟨x, List.mem_of_getElem? hx, hindex⟩

end Function

end LocalFlow
