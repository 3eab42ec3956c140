import LocalFlow.Proofs.Function.Rewriting
import LocalFlow.Proofs.Graph.Coverage

/-! The shape of a tree, told from the tree alone: how many children a node has, and which of them are
missing. In an arena where the tree stands, these are the flaws that its nodes do not have. -/

namespace LocalFlow

/-- The number of children suits the kind of the node, and each child that is missing may be. -/
structure Node.Shaped (n : Node) (kids : List (Unit → Tree)) : Prop where
  arity : ∃ least most, n.kind.arity? = some (least, most) ∧ least ≤ kids.length ∧
    ∀ k, most = some k → kids.length ≤ k
  missing : ∀ i kid, kids[i]? = some kid → kid () = .absent →
    n.kind.isOptionalSlot i = true ∧ n.kids[i]? = some .absent

namespace Tree

variable {fn : Function} {t : Tree} {ts kids : List (Unit → Tree)} {r : Ref} {rs : List Ref} {n : Node}

mutual

def Shaped : Tree → Prop
  | .node _ n kids => n.Shaped kids ∧ ShapedAll kids
  | _ => True

def ShapedAll : List (Unit → Tree) → Prop
  | [] => True
  | t :: ts => Shaped (t ()) ∧ ShapedAll ts

end

theorem shapedAll_iff : ShapedAll ts ↔ ∀ t ∈ ts, (t ()).Shaped := by
  induction ts with
  | nil => simp [ShapedAll]
  | cons t ts ih => simp [ShapedAll, ih]

theorem AreAt.exists_child {i : Nat} (h : AreAt fn ts rs) (hr : rs[i]? = some r) :
    ∃ t, ts[i]? = some t ∧ (t ()).IsAt fn r := by
  induction ts generalizing rs i with
  | nil =>
    cases rs with
    | nil => cases hr
    | cons r rs => exact h.elim
  | cons t ts ih =>
    cases rs with
    | nil => exact h.elim
    | cons r rs =>
      cases i with
      | zero =>
        cases hr
        exact ⟨t, rfl, h.1⟩
      | succ i => simpa using ih h.2 (by simpa using hr)

theorem flaw?_eq_none_iff (hkids : AreAt fn kids n.kids) :
    n.flaw? fn.nodes.size = none ↔ n.Shaped kids := by
  have hlen := hkids.length_eq
  constructor
  · intro h
    obtain ⟨least, most, harity, hleast, hmost, hslots⟩ := Node.arity_of_flaw? h
    rw [← hlen] at hleast hmost
    refine ⟨⟨least, most, harity, hleast, hmost⟩, fun i kid hkid habsent => ?_⟩
    have hlt := (List.getElem?_eq_some_iff.mp hkid).1
    rw [hlen] at hlt
    have hchild := List.getElem?_eq_getElem hlt
    obtain ⟨kid', hkid', hat⟩ := hkids.exists_child hchild
    obtain rfl : kid' = kid := Option.some.inj (hkid'.symm.trans hkid)
    rw [habsent] at hat
    obtain ⟨hoptional, heq⟩ := Node.eq_absent_of_slotFlaw? (hslots i _ hchild) hat
    exact ⟨hoptional, by rw [hchild, heq]⟩
  · rintro ⟨⟨least, most, harity, hleast, hmost⟩, hmissing⟩
    rw [hlen] at hleast hmost
    refine Node.flaw?_of_arity harity hleast hmost fun i child hchild => ?_
    obtain ⟨kid, hkid, hat⟩ := hkids.exists_child hchild
    unfold Node.slotFlaw?
    cases hpresent : child.isPresent with
    | true =>
      obtain ⟨n', -, -, hn', -⟩ := hat.exists_of_isPresent hpresent
      have hlt := Function.node?_lt_size hn'
      have hnonneg : 0 ≤ child := by simpa [Ref.isPresent] using hpresent
      have hne : child ≠ .absent := by
        rintro rfl
        cases hpresent
      rw [if_neg hne, if_neg]
      simp only [Bool.or_eq_true, decide_eq_true_eq, not_or]
      exact ⟨Int.not_lt.mpr hnonneg, Int.not_le.mpr ((Int.toNat_lt hnonneg).mp hlt)⟩
    | false =>
      obtain ⟨hoptional, heq⟩ := hmissing i kid hkid (hat.eq_absent hpresent)
      obtain rfl : child = .absent := Option.some.inj (hchild.symm.trans heq)
      rw [if_pos rfl, if_pos hoptional]

/-- A tree has a good shape if and only if none of its nodes has a flaw where it stands. -/
theorem IsAt.shaped_iff (hat : t.IsAt fn r) :
    t.Shaped ↔ ∀ x ∈ t.nodes, x.2.flaw? fn.nodes.size = none := by
  induction t generalizing r with
  | absent => simp [Shaped]
  | dangling => exact hat.elim
  | endless => exact hat.elim
  | node r n kids ih =>
    obtain ⟨rfl, -, hkids⟩ := hat
    rw [Shaped, forall_mem_nodes, and_comm, flaw?_eq_none_iff hkids, shapedAll_iff]
    refine and_congr_left fun _ => ?_
    constructor
    · intro h x hx
      obtain ⟨k, hk, hx⟩ := mem_nodesAll.mp hx
      obtain ⟨r', -, hr'⟩ := hkids.exists_isAt hk
      exact (ih k hk hr').mp (h k hk) x hx
    · intro h k hk
      obtain ⟨r', -, hr'⟩ := hkids.exists_isAt hk
      exact (ih k hk hr').mpr fun x hx => h x (mem_nodesAll.mpr ⟨k, hk, hx⟩)

end Tree

end LocalFlow
