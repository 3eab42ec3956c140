import LocalFlow.Proofs.Function.Validation
import LocalFlow.Proofs.Graph.Layout

/-! In the graph of a well-formed tree every node of the tree has its place: a loop has one child and
an if has no child besides the condition and the arms, so no subtree is left out. -/

namespace LocalFlow

namespace Tree

variable {fn : Function} {ts kids : List (Unit → Tree)} {rs : List Ref} {r : Ref} {n : Node}

theorem AreAt.length_eq (h : AreAt fn ts rs) : ts.length = rs.length := by
  induction ts generalizing rs with
  | nil =>
    cases rs with
    | nil => rfl
    | cons r rs => exact h.elim
  | cons t ts ih =>
    cases rs with
    | nil => exact h.elim
    | cons r rs => rw [List.length_cons, List.length_cons, ih h.2]

theorem AreAt.getLast? (h : AreAt fn ts rs) (hr : rs.getLast? = some r) :
    ∃ t, ts.getLast? = some t ∧ (t ()).IsAt fn r := by
  obtain ⟨rs, rfl⟩ := List.getLast?_eq_some_iff.mp hr
  obtain ⟨ts, us, rfl, -, hus⟩ := h.append
  match us, hus with
  | [u], hu => exact ⟨u, by simp, hu.1⟩

/-- Up to three trees are those in the first three slots. -/
theorem nodesAll_eq_slots (h : kids.length ≤ 3) :
    nodesAll kids = (slot kids 0).nodes ++ ((slot kids 1).nodes ++ (slot kids 2).nodes) := by
  match kids with
  | [] => simp [slot, nodesAll]
  | [a] => simp [slot, nodesAll]
  | [a, b] => simp [slot, nodesAll]
  | [a, b, c] => simp [slot, nodesAll]
  | _ :: _ :: _ :: _ :: _ =>
    simp only [List.length_cons] at h
    omega

theorem slot_eq_absent {i : Nat} (h : kids.length ≤ i) : slot kids i = .absent := by
  simp [slot, List.getElem?_eq_none h]

theorem length_le_of_loop (hat : AreAt fn kids n.kids) (hr : fn.rejection? r n = none)
    (hkind : n.kind = .loop) : kids.length ≤ 1 := by
  obtain ⟨least, most, harity, -, hle, -⟩ := Node.arity_of_flaw? (Function.flaw?_of_rejection? hr)
  rw [hkind, Kind.arity?] at harity
  cases harity
  exact hat.length_eq ▸ hle 1 rfl

theorem length_le_of_if (hat : AreAt fn kids n.kids) (hr : fn.rejection? r n = none)
    (hkind : n.kind = .ifElse) :
    kids.length ≤ 3 ∧ ((n.kid 2).isPresent = false → kids.length ≤ 2) := by
  obtain ⟨least, most, harity, -, hle, hslots⟩ :=
    Node.arity_of_flaw? (Function.flaw?_of_rejection? hr)
  rw [hkind, Kind.arity?] at harity
  cases harity
  rw [hat.length_eq]
  refine ⟨hle 3 rfl, fun habsent => ?_⟩
  by_contra hlen
  have hlt : 2 < n.kids.length := by omega
  have hpresent := Node.isPresent_of_slotFlaw? (hslots 2 _ (List.getElem?_eq_getElem hlt))
    (by rw [hkind]; rfl)
  simp [Node.kid, hlt, hpresent] at habsent

end Tree

namespace Graph

variable {α : Type} {g : Graph α} {recorder : Ref → Option α} {fn : Function} {labels : Labels}
  {p q : Point} {ts : List (Unit → Tree)}

theorem LaysAll.getLast? {t : Unit → Tree} (h : g.LaysAll recorder labels ts p q)
    (ht : ts.getLast? = some t) : ∃ m, g.Lays recorder labels (t ()) m q := by
  induction ts generalizing p with
  | nil => cases ht
  | cons u ts ih =>
    cases h with
    | cons hu h =>
      cases ts with
      | nil =>
        cases ht
        cases h
        exact ⟨_, hu⟩
      | cons u' ts => exact ih h (by simpa using ht)

/-- The node at `r` has its place in the graph, after its children. -/
def Placed (g : Graph α) (recorder : Ref → Option α) (fn : Function) (r : Ref) (n : Node) : Prop :=
  ∃ labels kids p m m' q, Tree.AreAt fn kids n.kids ∧ g.LaysAll recorder labels kids p m ∧
    g.Records recorder r m m' ∧ g.Departs labels n m' q

def Covers (g : Graph α) (recorder : Ref → Option α) (fn : Function) (t : Tree) : Prop :=
  ∀ {labels p q}, g.Lays recorder labels t p q →
    ∀ x ∈ t.nodes, x.2.kind.isStructured = false → g.Placed recorder fn x.1 x.2

theorem LaysAll.placed (h : g.LaysAll recorder labels ts p q)
    (hts : ∀ t ∈ ts, g.Covers recorder fn (t ())) :
    ∀ x ∈ Tree.nodesAll ts, x.2.kind.isStructured = false → g.Placed recorder fn x.1 x.2 := by
  induction ts generalizing p with
  | nil => simp [Tree.nodesAll]
  | cons t ts ih =>
    cases h with
    | cons ht h =>
      intro x hx hplain
      rcases List.mem_append.mp hx with hx | hx
      · exact hts t (by simp) ht x hx hplain
      · exact ih h (fun u hu => hts u (.tail _ hu)) x hx hplain

theorem covers_slot (hts : ∀ t ∈ ts, g.Covers recorder fn (t ())) (i : Nat) :
    g.Covers recorder fn (Tree.slot ts i) := by
  apply Tree.slot_of_kids hts
  intro labels p q _ x hx
  simp [Tree.nodes] at hx

/-- In a graph where an accepted tree lies, every node of the tree has its place. -/
theorem covers_of_isAt {t : Tree} {r : Ref} (hat : t.IsAt fn r)
    (haccepted : ∀ x ∈ t.nodes, fn.rejection? x.1 x.2 = none) : g.Covers recorder fn t := by
  induction t generalizing r with
  | absent => exact fun _ x hx => by simp [Tree.nodes] at hx
  | dangling => exact hat.elim
  | endless => exact hat.elim
  | node r n kids ih =>
    obtain ⟨rfl, -, hkids⟩ := hat
    have hself := haccepted (r, n) (by simp [Tree.nodes])
    have hcovers : ∀ k ∈ kids, g.Covers recorder fn (k ()) := by
      intro k hk
      obtain ⟨r', -, hr'⟩ := hkids.exists_isAt hk
      exact ih k hk hr' fun x hx => haccepted x (Tree.mem_nodes_of_kid hk hx)
    have hslot := covers_slot hcovers
    intro labels p q h x hx hplain
    have hinside : n.kind.isStructured = true → x ∈ Tree.nodesAll kids := by
      intro hstructured
      rcases List.mem_append.mp hx with hx | hx
      · exact hx
      · obtain rfl := List.mem_singleton.mp hx
        rw [hstructured] at hplain
        cases hplain
    cases h with
    | block hkind hall => exact hall.placed hcovers x (hinside (by rw [hkind]; rfl)) hplain
    | leftBlock hkind hall => exact hall.placed hcovers x (hinside (by rw [hkind]; rfl)) hplain
    | loop hkind _ hbody =>
      have hlen := Tree.length_le_of_loop hkids hself hkind
      have hx := hinside (by rw [hkind]; rfl)
      rw [Tree.nodesAll_eq_slots (by omega), Tree.slot_eq_absent hlen,
        Tree.slot_eq_absent (i := 2) (by omega)] at hx
      exact hslot 0 hbody x (by simpa using hx) hplain
    | ifThen hkind habsent hcond _ harm =>
      have hlen := (Tree.length_le_of_if hkids hself hkind).2 habsent
      have hx := hinside (by rw [hkind]; rfl)
      rw [Tree.nodesAll_eq_slots (by omega), Tree.slot_eq_absent hlen, Tree.nodes_absent,
        List.append_nil, List.mem_append] at hx
      rcases hx with hx | hx
      · exact hslot 0 hcond x hx hplain
      · exact hslot 1 harm x hx hplain
    | ifElse hkind hcond _ harm _ _ harm' =>
      have hlen := (Tree.length_le_of_if hkids hself hkind).1
      have hx := hinside (by rw [hkind]; rfl)
      rw [Tree.nodesAll_eq_slots hlen, List.mem_append, List.mem_append] at hx
      rcases hx with hx | hx | hx
      · exact hslot 0 hcond x hx hplain
      · exact hslot 1 harm x hx hplain
      · exact hslot 2 harm' x hx hplain
    | plain hkind hall hrecords hdeparts =>
      rcases List.mem_append.mp hx with hx | hx
      · exact hall.placed hcovers x hx hplain
      · obtain rfl := List.mem_singleton.mp hx
        exact ⟨_, kids, _, _, _, _, hkids, hall, hrecords, hdeparts⟩

end Graph

end LocalFlow
