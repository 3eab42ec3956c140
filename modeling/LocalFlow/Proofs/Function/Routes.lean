import Mathlib
import LocalFlow.Proofs.Function.Validation

/-! Which functions are accepted, said of the arena alone. A route leads from the body to a node by the
slots that are taken on the way. The nodes of a walk in pre-order, parents first, come in the
lexicographic order of their routes. Even where nodes are shared or form a cycle, and routes have no
end, the walk keeps to that order up to the first node that is at fault or was met before. -/

namespace LocalFlow

/-- What is asked of a single node: a known kind, as many slots as that kind has, in every slot a handle
of the arena unless the slot is optional and empty, and a declared local. -/
structure Node.Admissible (fn : Function) (n : Node) : Prop where
  arity : ∃ least most, n.kind.arity? = some (least, most) ∧ least ≤ n.kids.length ∧
    ∀ k, most = some k → n.kids.length ≤ k
  slots : ∀ (i : Nat) (child : Ref), n.kids[i]? = some child → 0 ≤ child ∧ child < fn.nodes.size ∨
    child = -1 ∧ (n.kind = .br ∨ n.kind = .ret ∨ n.kind = .brTable ∧ i = 0)
  declared : n.kind.isLocalAccess = true → n.index < fn.numLocals

namespace Node

variable {n : Node} {size i : Nat} {child : Ref}

theorem isOptionalSlot_iff :
    n.kind.isOptionalSlot i = true ↔ n.kind = .br ∨ n.kind = .ret ∨ n.kind = .brTable ∧ i = 0 := by
  unfold Kind.isOptionalSlot
  split <;> simp_all

theorem slotFlaw?_eq_none_iff : n.slotFlaw? size child i = none ↔ 0 ≤ child ∧ child < size ∨
    child = -1 ∧ (n.kind = .br ∨ n.kind = .ret ∨ n.kind = .brTable ∧ i = 0) := by
  rw [← isOptionalSlot_iff]
  unfold slotFlaw?
  by_cases habsent : child = .absent
  · have hneg : child = -1 := habsent
    simp [hneg, Ref.absent]
  · have hneg : ¬child = -1 := habsent
    simp only [if_neg habsent, hneg, false_and, or_false]
    split
    · rename_i hout
      simp only [Bool.or_eq_true, decide_eq_true_eq] at hout
      simp only [reduceCtorEq, false_iff]
      rintro ⟨hnonneg, hlt⟩
      exact hout.elim (Int.not_lt.mpr hnonneg) (Int.not_le.mpr hlt)
    · rename_i hin
      simp only [Bool.or_eq_true, decide_eq_true_eq, not_or] at hin
      simp only [true_iff]
      exact ⟨Int.not_lt.mp hin.1, Int.not_le.mp hin.2⟩

end Node

namespace Function

variable {fn : Function} {r r' c : Ref} {n : Node} {i : Nat} {p q route : List Nat} {seen : List Nat}
  {todo rest : List (List Nat × Ref)} {why : Rejection}

theorem rejection?_eq_none_iff : fn.rejection? r n = none ↔ n.Admissible fn := by
  constructor
  · intro h
    obtain ⟨least, most, harity, hleast, hmost, hslots⟩ := Node.arity_of_flaw? (flaw?_of_rejection? h)
    exact ⟨⟨least, most, harity, hleast, hmost⟩,
      fun i child hchild => Node.slotFlaw?_eq_none_iff.mp (hslots i child hchild),
      index_lt_of_rejection? h⟩
  · rintro ⟨⟨least, most, harity, hleast, hmost⟩, hslots, hdeclared⟩
    refine rejection?_eq_none (Node.flaw?_of_arity harity hleast hmost ?_) hdeclared
    exact fun i child hchild => Node.slotFlaw?_eq_none_iff.mpr (hslots i child hchild)

def child? (fn : Function) (r : Ref) (i : Nat) : Option Ref :=
  (fn.node? r).bind fun n => n.kids[i]?.filter Ref.isPresent

/-- The handle at the end of a route that begins at `r`. -/
def follow (fn : Function) (r : Ref) (route : List Nat) : Option Ref := route.foldlM fn.child? r

theorem child?_eq (hn : fn.node? r = some n) : fn.child? r i = n.kids[i]?.filter Ref.isPresent := by
  rw [child?, hn, Option.bind_some]

theorem child?_eq_some (h : fn.child? r i = some c) :
    ∃ n, fn.node? r = some n ∧ n.kids[i]? = some c ∧ c.isPresent = true := by
  obtain ⟨n, hn, hc⟩ := Option.bind_eq_some_iff.mp h
  obtain ⟨hslot, hpresent⟩ := Option.filter_eq_some_iff.mp hc
  exact ⟨n, hn, hslot, hpresent⟩

theorem child?_of_slot (hn : fn.node? r = some n) (hslot : n.kids[i]? = some c)
    (hc : c.isPresent = true) : fn.child? r i = some c := by
  rw [child?_eq hn, hslot, Option.filter_some, if_pos hc]

theorem follow_append : fn.follow r (p ++ q) = (fn.follow r p).bind fun s => fn.follow s q :=
  List.foldlM_append

theorem follow_cons : fn.follow r (i :: p) = (fn.child? r i).bind fun s => fn.follow s p :=
  List.foldlM_cons

theorem follow_snoc : fn.follow r (p ++ [i]) = (fn.follow r p).bind fun s => fn.child? s i := by
  rw [follow_append]
  simp [follow]

theorem follow_trans (hp : fn.follow r p = some r') (hq : fn.follow r' q = some c) :
    fn.follow r (p ++ q) = some c := by
  rw [follow_append, hp, Option.bind_some, hq]

theorem follow_child (hp : fn.follow r p = some r') (hc : fn.child? r' i = some c) :
    fn.follow r (p ++ [i]) = some c := by
  rw [follow_snoc, hp, Option.bind_some, hc]

theorem lt_snoc (p : List Nat) (i : Nat) : p < p ++ [i] := by
  have hlt : p ++ [] < p ++ [i] := List.append_left_lt (List.nil_lt_cons i [])
  rwa [List.append_nil] at hlt

theorem exists_follow_of_prefix (hpq : p <+: q) (hq : fn.follow r q = some c) :
    ∃ s, fn.follow r p = some s := by
  obtain ⟨rest, rfl⟩ := hpq
  rw [follow_append] at hq
  obtain ⟨s, hs, -⟩ := Option.bind_eq_some_iff.mp hq
  exact ⟨s, hs⟩

/-- Only admissible nodes can be reached from the body, and each by one route only. -/
structure WellRouted (fn : Function) : Prop where
  admissible : ∀ route r, fn.follow fn.body route = some r →
    ∃ n, fn.node? r = some n ∧ n.Admissible fn
  unique : ∀ route route' r, fn.follow fn.body route = some r → fn.follow fn.body route' = some r →
    route = route'

/-- At the end of the route stands an admissible node, and the walk has not met it before. -/
structure Clean (fn : Function) (route : List Nat) (r : Ref) : Prop where
  admissible : ∃ n, fn.node? r = some n ∧ n.Admissible fn
  isNew : ∀ earlier < route, fn.follow fn.body earlier ≠ some r

/-- The error for the node `r` at the end of a route: it was met before, or else its shape or its local
is wrong. A handle without a node is met as the body only. -/
inductive Blames (fn : Function) (route : List Nat) (r : Ref) : Rejection → Prop
  | noBody : route = [] → fn.node? r = none → Blames fn route r (.malformed fn.name r .bodyOutOfRange)
  | metBefore {earlier : List Nat} : earlier < route → fn.follow fn.body earlier = some r →
      Blames fn route r (.malformed fn.name r .secondParent)
  | misshapen {n : Node} {flaw : Flaw} : (∀ earlier < route, fn.follow fn.body earlier ≠ some r) →
      fn.node? r = some n → n.flaw? fn.nodes.size = some flaw →
      Blames fn route r (.malformed fn.name r flaw)
  | undeclared {n : Node} : (∀ earlier < route, fn.follow fn.body earlier ≠ some r) →
      fn.node? r = some n → n.flaw? fn.nodes.size = none → n.kind.isLocalAccess = true →
      fn.numLocals ≤ n.index → Blames fn route r (.localIndex fn.name r n.index fn.numLocals)

theorem Blames.not_clean (h : fn.Blames route r why) : ¬fn.Clean route r := by
  rintro ⟨⟨n, hn, hadmissible⟩, hnew⟩
  have hok : fn.rejection? r n = none := rejection?_eq_none_iff.mpr hadmissible
  cases h with
  | noBody _ hnone =>
    rw [hn] at hnone
    cases hnone
  | metBefore hlt hearlier => exact hnew _ hlt hearlier
  | misshapen _ hn' hflaw =>
    obtain rfl := Option.some.inj (hn.symm.trans hn')
    rw [flaw?_of_rejection? hok] at hflaw
    cases hflaw
  | undeclared _ hn' _ haccess hle =>
    obtain rfl := Option.some.inj (hn.symm.trans hn')
    have hlt := index_lt_of_rejection? hok haccess
    omega

theorem blames_of_rejection? (hnew : ∀ earlier < route, fn.follow fn.body earlier ≠ some r)
    (hn : fn.node? r = some n) (h : fn.rejection? r n = some why) : fn.Blames route r why := by
  unfold rejection? at h
  split at h
  · rename_i flaw hflaw
    cases h
    exact .misshapen hnew hn hflaw
  · rename_i hflaw
    split at h
    · rename_i haccess
      cases h
      simp only [Bool.and_eq_true, decide_eq_true_eq] at haccess
      exact .undeclared hnew hn hflaw haccess.1 haccess.2
    · cases h

def Passed (todo : List (List Nat × Ref)) (q : List Nat) : Prop := ∀ x ∈ todo, q < x.1

/-- The walk has come to the pending handles, each of which is given with its route. Whatever it has
passed is clean, and what it has not passed lies behind one of the pending handles. -/
structure Examining (fn : Function) (seen : List Nat) (todo : List (List Nat × Ref)) : Prop where
  leads : ∀ x ∈ todo, fn.follow fn.body x.1 = if x.2.isPresent then some x.2 else none
  ordered : todo.Pairwise fun x y => ∀ s, x.1 ++ s < y.1
  covered : ∀ {q r}, fn.follow fn.body q = some r → Passed todo q ∨ ∃ x ∈ todo, x.1 <+: q
  clean : ∀ {q r}, fn.follow fn.body q = some r → Passed todo q → fn.Clean q r
  mem_seen : ∀ {i}, i ∈ seen ↔ ∃ q r, fn.follow fn.body q = some r ∧ Passed todo q ∧ r.toNat = i

theorem examining_start (h : fn.body.isPresent = true) : fn.Examining [] [([], fn.body)] where
  leads x hx := by
    obtain rfl := List.mem_singleton.mp hx
    simp [h, follow]
  ordered := List.pairwise_singleton _ _
  covered _ := .inr ⟨_, List.mem_singleton_self _, List.nil_prefix⟩
  clean _ hpassed := absurd (hpassed _ (List.mem_singleton_self _)) (List.not_lt_nil _)
  mem_seen := by simp [Passed]

namespace Examining

theorem passed_of_lt (h : fn.Examining seen ((p, c) :: rest)) (hq : q < p) :
    Passed ((p, c) :: rest) q := by
  intro x hx
  rcases List.mem_cons.mp hx with rfl | hx
  · exact hq
  · have hlt := (List.pairwise_cons.mp h.ordered).1 x hx []
    rw [List.append_nil] at hlt
    exact hq.trans hlt

theorem clean_of_lt (h : fn.Examining seen ((p, c) :: rest)) (hq : q < p)
    (hr : fn.follow fn.body q = some r) : fn.Clean q r :=
  h.clean hr (h.passed_of_lt hq)

/-- Taking the first pending handle away passes its route and no other one, if the handles that are put
in its place lie on all ways on. -/
theorem passed_iff (h : fn.Examining seen ((p, c) :: rest)) (kids : List (List Nat × Ref))
    (hkids : ∀ x ∈ kids, p < x.1)
    (hcover : ∀ i s r', fn.follow fn.body (p ++ i :: s) = some r' →
      ∃ x ∈ kids, x.1 <+: p ++ i :: s)
    (hr : fn.follow fn.body q = some r) :
    Passed (kids ++ rest) q ↔ Passed ((p, c) :: rest) q ∨ q = p := by
  constructor
  · intro hpassed
    have hbehind : ∀ x ∈ kids ++ rest, ¬x.1 <+: q := fun x hx hle => hle.le (hpassed x hx)
    rcases h.covered hr with hold | ⟨x, hx, s, hs⟩
    · exact .inl hold
    · rcases List.mem_cons.mp hx with rfl | hx
      · cases s with
        | nil => exact .inr (by simpa using hs.symm)
        | cons i s =>
          subst hs
          obtain ⟨x, hx, hle⟩ := hcover i s r hr
          exact absurd hle (hbehind x (List.mem_append_left _ hx))
      · exact absurd ⟨s, hs⟩ (hbehind x (List.mem_append_right _ hx))
  · rintro (hpassed | rfl) x hx
    · rcases List.mem_append.mp hx with hx | hx
      · exact (hpassed _ (.head _)).trans (hkids x hx)
      · exact hpassed x (.tail _ hx)
    · rcases List.mem_append.mp hx with hx | hx
      · exact hkids x hx
      · simpa using (List.pairwise_cons.mp h.ordered).1 x hx []

theorem skip (h : fn.Examining seen ((p, c) :: rest)) (hc : c.isPresent = false) :
    fn.Examining seen rest := by
  have hnone : fn.follow fn.body p = none := by simpa [hc] using h.leads (p, c) (.head _)
  have hend : ∀ {q r}, p <+: q → fn.follow fn.body q ≠ some r := by
    intro q r hpq hq
    obtain ⟨s, hs⟩ := exists_follow_of_prefix hpq hq
    rw [hnone] at hs
    cases hs
  have hpassed : ∀ {q r}, fn.follow fn.body q = some r →
      (Passed rest q ↔ Passed ((p, c) :: rest) q) := by
    intro q r hq
    have hiff := h.passed_iff [] (by simp) (fun i s r' hr' =>
      absurd hr' (hend (List.prefix_append p _))) hq
    rw [List.nil_append] at hiff
    rw [hiff, or_iff_left]
    rintro rfl
    exact hend List.prefix_rfl hq
  refine ⟨fun x hx => h.leads x (.tail _ hx), (List.pairwise_cons.mp h.ordered).2, fun hq => ?_,
    fun hq hp => h.clean hq ((hpassed hq).mp hp), fun {i} => ?_⟩
  · rcases h.covered hq with hold | ⟨x, hx, hle⟩
    · exact .inl ((hpassed hq).mpr hold)
    · rcases List.mem_cons.mp hx with rfl | hx
      · exact absurd hq (hend hle)
      · exact .inr ⟨x, hx, hle⟩
  · rw [h.mem_seen]
    constructor
    · rintro ⟨q, r, hq, hp, hi⟩
      exact ⟨q, r, hq, (hpassed hq).mpr hp, hi⟩
    · rintro ⟨q, r, hq, hp, hi⟩
      exact ⟨q, r, hq, (hpassed hq).mp hp, hi⟩

theorem follow_head (h : fn.Examining seen ((p, r) :: rest)) (hr : r.isPresent = true) :
    fn.follow fn.body p = some r := by
  simpa [hr] using h.leads (p, r) (.head _)

theorem isNew_of_not_mem (h : fn.Examining seen ((p, r) :: rest)) (hseen : r.toNat ∉ seen) :
    ∀ earlier < p, fn.follow fn.body earlier ≠ some r := fun earlier hlt hr =>
  hseen (h.mem_seen.mpr ⟨earlier, r, hr, h.passed_of_lt hlt, rfl⟩)

end Examining

/-- The children of a node at the end of a route, each with its own route. -/
def kidRoutes (p : List Nat) (n : Node) : List (List Nat × Ref) :=
  n.kids.zipIdx.map fun x => (p ++ [x.2], x.1)

theorem map_snd_kidRoutes (p : List Nat) (n : Node) : (kidRoutes p n).map (·.2) = n.kids := by
  rw [kidRoutes, List.map_map]
  exact List.zipIdx_map_fst 0 n.kids

theorem mem_kidRoutes {x : List Nat × Ref} :
    x ∈ kidRoutes p n ↔ ∃ i, n.kids[i]? = some x.2 ∧ x.1 = p ++ [i] := by
  simp only [kidRoutes, List.mem_map]
  constructor
  · rintro ⟨⟨c, i⟩, hc, rfl⟩
    exact ⟨i, List.mem_zipIdx_iff_getElem?.mp hc, rfl⟩
  · rintro ⟨i, hc, hx⟩
    exact ⟨(x.2, i), List.mem_zipIdx_iff_getElem?.mpr hc, Prod.ext hx.symm rfl⟩

theorem kidRoutes_ordered (p : List Nat) (n : Node) :
    (kidRoutes p n).Pairwise fun x y => ∀ s, x.1 ++ s < y.1 := by
  rw [kidRoutes, List.pairwise_map, List.pairwise_iff_getElem]
  intro i j hi hj hij s
  rw [List.append_assoc, List.getElem_zipIdx, List.getElem_zipIdx]
  exact List.append_left_lt (List.cons_lt_cons_iff.mpr (.inl (by omega)))

namespace Examining

/-- A node that is admissible and new is passed, and its children are pending in its place. -/
theorem visit (h : fn.Examining seen ((p, r) :: rest)) (hn : fn.node? r = some n)
    (hok : fn.rejection? r n = none) (hseen : r.toNat ∉ seen) :
    fn.Examining (r.toNat :: seen) (kidRoutes p n ++ rest) := by
  have hr := h.follow_head (Tree.isPresent_of_node? hn)
  have hchild : ∀ i, fn.follow fn.body (p ++ [i]) = n.kids[i]?.filter Ref.isPresent := by
    intro i
    rw [follow_snoc, hr, Option.bind_some, child?_eq hn]
  have hcover : ∀ i s r', fn.follow fn.body (p ++ i :: s) = some r' →
      ∃ x ∈ kidRoutes p n, x.1 <+: p ++ i :: s := by
    intro i s r' hr'
    have hpre : p ++ [i] <+: p ++ i :: s := ⟨s, by simp⟩
    obtain ⟨c, hc⟩ := exists_follow_of_prefix hpre hr'
    rw [hchild] at hc
    obtain ⟨hslot, -⟩ := Option.filter_eq_some_iff.mp hc
    exact ⟨(p ++ [i], c), mem_kidRoutes.mpr ⟨i, hslot, rfl⟩, hpre⟩
  have hafter : ∀ x ∈ kidRoutes p n, p < x.1 := by
    intro x hx
    obtain ⟨i, -, hx⟩ := mem_kidRoutes.mp hx
    rw [hx]
    exact lt_snoc p i
  have hpassed : ∀ {q r'}, fn.follow fn.body q = some r' →
      (Passed (kidRoutes p n ++ rest) q ↔ Passed ((p, r) :: rest) q ∨ q = p) :=
    fun hq => h.passed_iff _ hafter hcover hq
  obtain ⟨hbefore, hrest⟩ := List.pairwise_cons.mp h.ordered
  constructor
  case leads =>
    intro x hx
    rcases List.mem_append.mp hx with hx | hx
    · obtain ⟨i, hslot, hroute⟩ := mem_kidRoutes.mp hx
      rw [hroute, hchild, hslot, Option.filter_some]
    · exact h.leads x (.tail _ hx)
  case ordered =>
    refine List.pairwise_append.mpr ⟨kidRoutes_ordered p n, hrest, fun x hx y hy s => ?_⟩
    obtain ⟨i, -, hroute⟩ := mem_kidRoutes.mp hx
    rw [hroute, List.append_assoc]
    exact hbefore y hy _
  case covered =>
    intro q r' hq
    rcases h.covered hq with hold | ⟨x, hx, s, hs⟩
    · exact .inl ((hpassed hq).mpr (.inl hold))
    · rcases List.mem_cons.mp hx with rfl | hx
      · cases s with
        | nil => exact .inl ((hpassed hq).mpr (.inr (by simpa using hs.symm)))
        | cons i s =>
          subst hs
          obtain ⟨y, hy, hle⟩ := hcover i s r' hq
          exact .inr ⟨y, List.mem_append_left _ hy, hle⟩
      · exact .inr ⟨x, List.mem_append_right _ hx, s, hs⟩
  case clean =>
    intro q r' hq hp
    rcases (hpassed hq).mp hp with hold | rfl
    · exact h.clean hq hold
    · obtain rfl := Option.some.inj (hr.symm.trans hq)
      exact ⟨⟨n, hn, rejection?_eq_none_iff.mp hok⟩, h.isNew_of_not_mem hseen⟩
  case mem_seen =>
    intro i
    rw [List.mem_cons, h.mem_seen]
    constructor
    · rintro (rfl | ⟨q, r', hq, hp, hi⟩)
      · exact ⟨p, r, hr, (hpassed hr).mpr (.inr rfl), rfl⟩
      · exact ⟨q, r', hq, (hpassed hq).mpr (.inl hp), hi⟩
    · rintro ⟨q, r', hq, hp, hi⟩
      rcases (hpassed hq).mp hp with hold | rfl
      · exact .inr ⟨q, r', hq, hold, hi⟩
      · obtain rfl := Option.some.inj (hr.symm.trans hq)
        exact .inl hi.symm

theorem exists_earlier (h : fn.Examining seen ((p, r) :: rest)) (hr : r.isPresent = true)
    (hseen : r.toNat ∈ seen) : ∃ earlier < p, fn.follow fn.body earlier = some r := by
  obtain ⟨q, r', hq, hp, hsame⟩ := h.mem_seen.mp hseen
  obtain ⟨n, hn, -⟩ := (h.clean hq hp).admissible
  have hr' : r'.isPresent = true := Tree.isPresent_of_node? hn
  simp only [Ref.isPresent, decide_eq_true_eq] at hr hr'
  have heq : r' = r := by rw [← Int.toNat_of_nonneg hr', ← Int.toNat_of_nonneg hr, hsame]
  exact ⟨q, hp _ (.head _), heq ▸ hq⟩

/-- Only the body can be a handle without a node: any other one stands in a slot of an admissible
node. -/
theorem eq_nil_of_node? (h : fn.Examining seen ((p, r) :: rest)) (hr : r.isPresent = true)
    (hnone : fn.node? r = none) : p = [] := by
  rcases List.eq_nil_or_concat' p with rfl | ⟨q, i, rfl⟩
  · rfl
  · have hfollow := h.follow_head hr
    rw [follow_snoc] at hfollow
    obtain ⟨s, hs, hchild⟩ := Option.bind_eq_some_iff.mp hfollow
    obtain ⟨n, hn, hadmissible⟩ := (h.clean_of_lt (lt_snoc q i) hs).admissible
    obtain ⟨n', hn', hslot, -⟩ := child?_eq_some hchild
    obtain rfl := Option.some.inj (hn.symm.trans hn')
    simp only [Ref.isPresent, decide_eq_true_eq] at hr
    rcases hadmissible.slots i r hslot with ⟨-, hin⟩ | ⟨rfl, -⟩
    · lift r to Nat using hr
      have hlt : r < fn.nodes.size := by exact_mod_cast hin
      have hsome : fn.node? (r : Int) = some fn.nodes[r] := Array.getElem?_eq_getElem hlt
      rw [hsome] at hnone
      cases hnone
    · exact absurd hr (by decide)

end Examining

/-- What a walk finds: that all routes are clean, or the first one that is not. -/
def Finds (fn : Function) : Except Rejection Unit → Prop
  | .ok _ => ∀ route r, fn.follow fn.body route = some r → fn.Clean route r
  | .error why => ∃ route r, fn.follow fn.body route = some r ∧ fn.Blames route r why ∧
      ∀ earlier r', earlier < route → fn.follow fn.body earlier = some r' → fn.Clean earlier r'

private theorem exists_route_of_map {pending : List Ref} (h : todo.map (·.2) = r :: pending) :
    ∃ p rest, todo = (p, r) :: rest ∧ rest.map (·.2) = pending := by
  obtain ⟨⟨p, c⟩, rest, htodo, hc, hrest⟩ := List.map_eq_cons_iff.mp h
  obtain rfl : c = r := hc
  exact ⟨p, rest, htodo, hrest⟩

theorem Examining.finds (h : fn.Examining seen todo) :
    fn.Finds (fn.validateFrom seen (todo.map (·.2))) := by
  generalize hpending : todo.map (·.2) = pending
  -- The walk knows handles only, so each case first brings back the route of the first one.
  fun_induction validateFrom fn seen pending generalizing todo with
  | case1 seen =>
    obtain rfl := List.map_eq_nil_iff.mp hpending
    exact fun route r hr => h.clean hr (by simp [Passed])
  | case2 seen r pending hpresent hseen =>
    obtain ⟨p, rest, rfl, rfl⟩ := exists_route_of_map hpending
    obtain ⟨earlier, hlt, hearlier⟩ := h.exists_earlier hpresent hseen
    exact ⟨p, r, h.follow_head hpresent, .metBefore hlt hearlier, fun _ _ hlt => h.clean_of_lt hlt⟩
  | case3 seen r pending hpresent hseen hnone =>
    obtain ⟨p, rest, rfl, rfl⟩ := exists_route_of_map hpending
    exact ⟨p, r, h.follow_head hpresent, .noBody (h.eq_nil_of_node? hpresent hnone) hnone,
      fun _ _ hlt => h.clean_of_lt hlt⟩
  | case4 seen r pending hpresent hseen n hn why hwhy =>
    obtain ⟨p, rest, rfl, rfl⟩ := exists_route_of_map hpending
    have hnew := h.isNew_of_not_mem hseen
    exact ⟨p, r, h.follow_head hpresent, blames_of_rejection? hnew hn hwhy,
      fun _ _ hlt => h.clean_of_lt hlt⟩
  | case5 seen r pending hpresent hseen n hn hok ih =>
    obtain ⟨p, rest, rfl, rfl⟩ := exists_route_of_map hpending
    exact ih (h.visit hn hok hseen) (by rw [List.map_append, map_snd_kidRoutes])
  | case6 seen r pending hpresent ih =>
    obtain ⟨p, rest, rfl, rfl⟩ := exists_route_of_map hpending
    exact ih (h.skip (by simpa using hpresent)) rfl

theorem validate_finds (h : fn.body.isPresent = true) : fn.Finds fn.validate :=
  (examining_start h).finds

/-- All routes are clean if and only if the function is well routed. -/
theorem wellRouted_iff :
    fn.WellRouted ↔ ∀ route r, fn.follow fn.body route = some r → fn.Clean route r := by
  constructor
  · intro h route r hr
    refine ⟨h.admissible route r hr, fun earlier hlt hearlier => ?_⟩
    rw [h.unique earlier route r hearlier hr] at hlt
    exact List.lt_irrefl _ hlt
  · intro h
    refine ⟨fun route r hr => (h route r hr).admissible, fun route route' r hr hr' => ?_⟩
    rcases lt_trichotomy route route' with hlt | heq | hlt
    · exact absurd hr ((h route' r hr').isNew route hlt)
    · exact heq
    · exact absurd hr' ((h route r hr).isNew route' hlt)

theorem wellRouted_of_validate (h : fn.validate = .ok ()) (hbody : fn.body.isPresent = true) :
    fn.WellRouted := by
  have hfinds := validate_finds hbody
  rw [h] at hfinds
  exact wellRouted_iff.mpr hfinds

theorem validate_of_wellRouted (h : fn.WellRouted) (hbody : fn.body.isPresent = true) :
    fn.validate = .ok () := by
  have hfinds := validate_finds hbody
  cases hvalid : fn.validate with
  | ok u => rfl
  | error why =>
    rw [hvalid] at hfinds
    obtain ⟨route, r, hr, hblames, -⟩ := hfinds
    exact absurd (wellRouted_iff.mp h route r hr) hblames.not_clean

theorem Blames.unique {why' : Rejection} (h : fn.Blames route r why) (h' : fn.Blames route r why') :
    why = why' := by
  cases h with
  | noBody hnil hnone =>
    cases h' with
    | noBody => rfl
    | metBefore hlt => exact absurd (hnil ▸ hlt) (List.not_lt_nil _)
    | misshapen _ hn => simp [hnone] at hn
    | undeclared _ hn => simp [hnone] at hn
  | metBefore hlt hearlier =>
    cases h' with
    | noBody hnil => exact absurd (hnil ▸ hlt) (List.not_lt_nil _)
    | metBefore => rfl
    | misshapen hnew => exact absurd hearlier (hnew _ hlt)
    | undeclared hnew => exact absurd hearlier (hnew _ hlt)
  | misshapen hnew hn hflaw =>
    cases h' with
    | noBody _ hnone => simp [hnone] at hn
    | metBefore hlt hearlier => exact absurd hearlier (hnew _ hlt)
    | misshapen _ hn' hflaw' =>
      obtain rfl := Option.some.inj (hn.symm.trans hn')
      rw [Option.some.inj (hflaw.symm.trans hflaw')]
    | undeclared _ hn' hflaw' =>
      obtain rfl := Option.some.inj (hn.symm.trans hn')
      simp [hflaw] at hflaw'
  | undeclared hnew hn hflaw =>
    cases h' with
    | noBody _ hnone => simp [hnone] at hn
    | metBefore hlt hearlier => exact absurd hearlier (hnew _ hlt)
    | misshapen _ hn' hflaw' =>
      obtain rfl := Option.some.inj (hn.symm.trans hn')
      simp [hflaw] at hflaw'
    | undeclared _ hn' =>
      obtain rfl := Option.some.inj (hn.symm.trans hn')
      rfl

theorem validate_of_first (hbody : fn.body.isPresent = true) (h : fn.Finds (.error why)) :
    fn.validate = .error why := by
  obtain ⟨route, r, hr, hblames, hfirst⟩ := h
  have hfinds := validate_finds hbody
  cases hvalid : fn.validate with
  | ok u =>
    rw [hvalid] at hfinds
    exact absurd (hfinds route r hr) hblames.not_clean
  | error why' =>
    rw [hvalid] at hfinds
    obtain ⟨route', r', hr', hblames', hfirst'⟩ := hfinds
    rcases lt_trichotomy route route' with hlt | rfl | hlt
    · exact absurd (hfirst' route r hlt hr) hblames.not_clean
    · obtain rfl := Option.some.inj (hr.symm.trans hr')
      rw [hblames.unique hblames']
    · exact absurd (hfirst route' r' hlt hr') hblames'.not_clean

theorem validate_of_absent (h : fn.body.isPresent = false) : fn.validate = .ok () := by
  simp [validate, validateFrom, h]

/-- A function is accepted if and only if it has no body, or a body of the arena from which only
admissible nodes are reached and none of them by two routes. If it is not accepted, the error is that of
the first node in pre-order that is not admissible or was met before. -/
theorem validate_exact (fn : Function) :
    (fn.validate = .ok () ↔ fn.body < 0 ∨ 0 ≤ fn.body ∧ fn.body < fn.nodes.size ∧ fn.WellRouted) ∧
      ∀ why, fn.validate = .error why ↔ 0 ≤ fn.body ∧
        ∃ route r, fn.follow fn.body route = some r ∧ fn.Blames route r why ∧
          ∀ earlier r', earlier < route → fn.follow fn.body earlier = some r' →
            fn.Clean earlier r' := by
  cases hbody : fn.body.isPresent with
  | false =>
    have hvalid := validate_of_absent hbody
    have hneg : fn.body < 0 := by simpa [Ref.isPresent] using hbody
    refine ⟨iff_of_true hvalid (.inl hneg), fun why => iff_of_false ?_ ?_⟩
    · simp [hvalid]
    · exact fun h => Int.not_le.mpr hneg h.1
  | true =>
    have hnonneg : 0 ≤ fn.body := by simpa [Ref.isPresent] using hbody
    refine ⟨⟨fun h => ?_, fun h => ?_⟩, fun why => ⟨fun h => ?_, fun h => ?_⟩⟩
    · have hrouted := wellRouted_of_validate h hbody
      obtain ⟨n, hn, -⟩ := hrouted.admissible [] fn.body rfl
      exact .inr ⟨hnonneg, (Int.toNat_lt hnonneg).mp (node?_lt_size hn), hrouted⟩
    · rcases h with hneg | ⟨-, -, hrouted⟩
      · exact absurd hneg (Int.not_lt.mpr hnonneg)
      · exact validate_of_wellRouted hrouted hbody
    · have hfinds := validate_finds hbody
      rw [h] at hfinds
      exact ⟨hnonneg, hfinds⟩
    · obtain ⟨-, hfirst⟩ := h
      exact validate_of_first hbody hfirst

end Function

end LocalFlow
