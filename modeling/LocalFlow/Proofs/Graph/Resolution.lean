import Mathlib
import LocalFlow.Proofs.Function.Routes
import LocalFlow.Proofs.Function.Shape
import LocalFlow.Proofs.Graph.Scoping

/-! Labels are resolved by where a branch stands. In a function that is accepted a label is known at a
node exactly if a block or loop on the way from the body to the node has it. The graph of the function
is laid unless some branch has a label that is not known there, and the error names the first such
label in the order of evaluation. -/

namespace LocalFlow

theorem Node.mem_labelsInside {n : Node} {label : String} {labels : List String} :
    label ∈ n.labelsInside labels ↔
      (n.kind = .block ∨ n.kind = .loop) ∧ n.label = label ∨ label ∈ labels := by
  unfold labelsInside
  split <;> simp_all [eq_comm]

namespace Function

variable {fn : Function} {r c : Ref} {n : Node} {i : Nat} {s : List Nat} {label : String}
  {labels : List String} {t : Tree}

/-- A block or loop of the body has the label, and `r` stands inside it. -/
def Encloses (fn : Function) (label : String) (r : Ref) : Prop :=
  ∃ outer e m inner, fn.follow fn.body outer = some e ∧ fn.node? e = some m ∧
    (m.kind = .block ∨ m.kind = .loop) ∧ m.label = label ∧
    inner ≠ [] ∧ fn.follow e inner = some r

/-- A branch at `r` can go to the label. A construct without a label has the empty one, which is no
target. -/
def Resolves (fn : Function) (r : Ref) (label : String) : Prop := label ≠ "" ∧ fn.Encloses label r

/-- The labels that the node at `r` branches to, each with the handle of the node. -/
def branchesAt (fn : Function) (r : Ref) : List (Ref × String) :=
  match fn.node? r with
  | some n => n.branchLabels.map fun label => (r, label)
  | none => []

theorem WellRouted.not_encloses_body (h : fn.WellRouted) : ¬fn.Encloses label fn.body := by
  rintro ⟨outer, e, m, inner, houter, -, -, -, hne, hinner⟩
  have hnil := h.unique _ [] _ (follow_trans houter hinner) rfl
  exact hne (List.append_eq_nil_iff.mp hnil).2

/-- Around a child are the constructs around its parent, and the parent itself if it is one. -/
theorem WellRouted.encloses_child_iff (h : fn.WellRouted) (hr : fn.follow fn.body s = some r)
    (hn : fn.node? r = some n) (hc : fn.child? r i = some c) :
    fn.Encloses label c ↔
      (n.kind = .block ∨ n.kind = .loop) ∧ n.label = label ∨ fn.Encloses label r := by
  constructor
  · rintro ⟨outer, e, m, inner, houter, hm, hkind, hlabel, hne, hinner⟩
    -- Only one route leads to the child, so the way in from the construct ends with its slot.
    have hsame : outer ++ inner = s ++ [i] :=
      h.unique _ _ c (follow_trans houter hinner) (follow_child hr hc)
    obtain ⟨way, j, rfl⟩ := (List.eq_nil_or_concat' inner).resolve_left hne
    rw [← List.append_assoc] at hsame
    obtain ⟨hway, -⟩ := List.append_inj' hsame rfl
    rw [← hway, follow_append, houter, Option.bind_some] at hr
    rcases eq_or_ne way [] with rfl | hway
    · obtain rfl : e = r := Option.some.inj hr
      obtain rfl := Option.some.inj (hn.symm.trans hm)
      exact .inl ⟨hkind, hlabel⟩
    · exact .inr ⟨outer, e, m, way, houter, hm, hkind, hlabel, hway, hr⟩
  · rintro (⟨hkind, hlabel⟩ | ⟨outer, e, m, inner, houter, hm, hkind, hlabel, -, hinner⟩)
    · exact ⟨s, r, n, [i], hr, hn, hkind, hlabel, by simp, follow_child (p := []) rfl hc⟩
    · exact ⟨outer, e, m, inner ++ [i], houter, hm, hkind, hlabel, by simp, follow_child hinner hc⟩

def Surround (fn : Function) (labels : List String) (r : Ref) : Prop :=
  ∀ label, label ∈ labels ↔ fn.Encloses label r

theorem WellRouted.surround_child (h : fn.WellRouted) (hr : fn.follow fn.body s = some r)
    (hn : fn.node? r = some n) (hc : fn.child? r i = some c) (hlabels : fn.Surround labels r) :
    fn.Surround (n.labelsInside labels) c := by
  intro label
  rw [Node.mem_labelsInside, hlabels, h.encloses_child_iff hr hn hc]

open scoped Classical in
/-- The branches of the nodes that cannot go to their labels, in order. -/
noncomputable def lost (fn : Function) (refs : List Ref) : List (Ref × String) :=
  (refs.flatMap fn.branchesAt).filter fun x => ¬fn.Resolves x.1 x.2

theorem lost_append (refs refs' : List Ref) :
    fn.lost (refs ++ refs') = fn.lost refs ++ fn.lost refs' := by
  rw [lost, List.flatMap_append, List.filter_append]
  rfl

theorem map_lost_singleton (hlabels : fn.Surround labels r) (hn : fn.node? r = some n) :
    (fn.lost [r]).map (·.2) = unresolved labels n.branchLabels := by
  have hbranches : fn.branchesAt r = n.branchLabels.map fun label => (r, label) := by
    rw [branchesAt, hn]
  rw [lost, List.flatMap_singleton, hbranches, List.filter_map, List.map_map, unresolved]
  simp only [Function.comp_def, List.map_id']
  refine List.filter_congr fun label _ => ?_
  simp only [Resolves, ← hlabels label, decide_not, Bool.decide_and, Bool.not_and, Bool.not_not,
    ne_eq]

theorem mem_branchesAt_iff {e : Ref} : (r, label) ∈ fn.branchesAt e ↔
    r = e ∧ ∃ n, fn.node? e = some n ∧ label ∈ n.branchLabels := by
  unfold branchesAt
  cases fn.node? e with
  | none => simp
  | some n => simp [and_comm, eq_comm]

theorem mem_lost_iff {refs : List Ref} : (r, label) ∈ fn.lost refs ↔
    r ∈ refs ∧ ∃ n, fn.node? r = some n ∧ label ∈ n.branchLabels ∧ ¬fn.Resolves r label := by
  simp only [lost, List.mem_filter, List.mem_flatMap, mem_branchesAt_iff, decide_eq_true_eq]
  constructor
  · rintro ⟨⟨e, he, rfl, n, hn, hlabel⟩, hlost⟩
    exact ⟨he, n, hn, hlabel, hlost⟩
  · rintro ⟨hr, n, hn, hlabel, hlost⟩
    exact ⟨⟨r, hr, rfl, n, hn, hlabel⟩, hlost⟩

/-- The first of the branches that are lost comes after branches that are not. -/
theorem head?_lost_iff {refs : List Ref} : ((fn.lost refs).map (·.2)).head? = some label ↔
    ∃ before r after, refs.flatMap fn.branchesAt = before ++ (r, label) :: after ∧
      (∀ x ∈ before, fn.Resolves x.1 x.2) ∧ ¬fn.Resolves r label := by
  rw [List.head?_map, lost, List.head?_filter, Option.map_eq_some_iff]
  constructor
  · rintro ⟨⟨r, name⟩, hfirst, rfl⟩
    obtain ⟨hlost, before, after, heq, hbefore⟩ := List.find?_eq_some_iff_append.mp hfirst
    exact ⟨before, r, after, heq, by simpa using hbefore, by simpa using hlost⟩
  · rintro ⟨before, r, after, heq, hbefore, hlost⟩
    refine ⟨(r, label), List.find?_eq_some_iff_append.mpr ?_, rfl⟩
    exact ⟨by simpa using hlost, before, after, heq, by simpa using hbefore⟩

theorem map_lost_handlesAll {ts : List (Unit → Tree)}
    (h : ∀ k ∈ ts, (k ()).strays labels = (fn.lost (k ()).handles).map (·.2)) :
    Tree.straysAll labels ts = (fn.lost (Tree.handlesAll ts)).map (·.2) := by
  induction ts with
  | nil => rfl
  | cons k ts ih =>
    rw [Tree.straysAll, Tree.handlesAll_cons, lost_append, List.map_append, h k (.head _),
      ih fun k hk => h k (.tail _ hk)]

/-- The labels that are stray in a tree are those of its lost branches. -/
theorem WellRouted.strays_eq (h : fn.WellRouted) (hat : t.IsAt fn r)
    (hr : fn.follow fn.body s = some r) (hlabels : fn.Surround labels r) :
    t.strays labels = (fn.lost t.handles).map (·.2) := by
  induction t generalizing r s labels with
  | absent => rfl
  | dangling => exact hat.elim
  | endless => exact hat.elim
  | node r n kids ih =>
    obtain ⟨rfl, hn, hkids⟩ := hat
    rw [Tree.strays, Tree.handles_node, lost_append, List.map_append,
      map_lost_singleton hlabels hn]
    congr 1
    refine map_lost_handlesAll fun k hk => ?_
    obtain ⟨c, hc, hkat⟩ := hkids.exists_isAt hk
    cases hpresent : c.isPresent with
    | false =>
      rw [hkat.eq_absent hpresent]
      rfl
    | true =>
      obtain ⟨i, hi⟩ := List.mem_iff_getElem?.mp hc
      have hchild := child?_of_slot hn hi hpresent
      exact ih k hk hkat (follow_child hr hchild) (h.surround_child hr hn hchild hlabels)

theorem mem_handles_iff (hat : t.IsAt fn r) (hn : fn.node? c = some n) :
    c ∈ t.handles ↔ ∃ route, fn.follow r route = some c := by
  induction t generalizing r with
  | absent =>
    have hr : fn.node? r = none := Option.eq_none_iff_forall_ne_some.mpr fun m hm =>
      Bool.false_ne_true (hat.symm.trans (Tree.isPresent_of_node? hm))
    constructor
    · intro hmem
      cases hmem
    · rintro ⟨route, hroute⟩
      cases route with
      | nil =>
        cases hroute
        rw [hr] at hn
        cases hn
      | cons i route =>
        rw [follow_cons, child?, hr] at hroute
        cases hroute
  | dangling => exact hat.elim
  | endless => exact hat.elim
  | node r m kids ih =>
    obtain ⟨rfl, hm, hkids⟩ := hat
    rw [Tree.handles_node, List.mem_append, List.mem_singleton, Tree.mem_handlesAll]
    constructor
    · rintro (⟨k, hk, hmem⟩ | rfl)
      · obtain ⟨e, he, hkat⟩ := hkids.exists_isAt hk
        obtain ⟨i, hi⟩ := List.mem_iff_getElem?.mp he
        obtain ⟨route, hroute⟩ := (ih k hk hkat).mp hmem
        have hpresent : e.isPresent = true := by
          by_contra habsent
          rw [hkat.eq_absent (by simpa using habsent)] at hmem
          cases hmem
        refine ⟨i :: route, ?_⟩
        rw [follow_cons, child?_of_slot hm hi hpresent, Option.bind_some, hroute]
      · exact ⟨[], rfl⟩
    · rintro ⟨route, hroute⟩
      cases route with
      | nil =>
        cases hroute
        exact .inr rfl
      | cons i route =>
        rw [follow_cons] at hroute
        obtain ⟨e, he, hroute⟩ := Option.bind_eq_some_iff.mp hroute
        obtain ⟨m', hm', hi, -⟩ := child?_eq_some he
        obtain rfl := Option.some.inj (hm.symm.trans hm')
        obtain ⟨k, hk, hkat⟩ := hkids.exists_child hi
        have hmem := List.mem_of_getElem? hk
        exact .inl ⟨k, hmem, (ih k hmem hkat).mpr ⟨route, hroute⟩⟩

theorem mem_handles_iff_exists (hat : t.IsAt fn r) :
    c ∈ t.handles ↔ ∃ route n, fn.follow r route = some c ∧ fn.node? c = some n := by
  constructor
  · intro hc
    obtain ⟨x, hx, rfl⟩ := List.mem_map.mp hc
    have hn := hat.node?_eq x hx
    obtain ⟨route, hroute⟩ := (mem_handles_iff hat hn).mp hc
    exact ⟨route, x.2, hroute, hn⟩
  · rintro ⟨route, n, hroute, hn⟩
    exact (mem_handles_iff hat hn).mpr ⟨route, hroute⟩

theorem lost_handles_ne_nil_iff (hat : t.IsAt fn r) : fn.lost t.handles ≠ [] ↔
    ∃ route e n label, fn.follow r route = some e ∧ fn.node? e = some n ∧
      label ∈ n.branchLabels ∧ ¬fn.Resolves e label := by
  constructor
  · intro hne
    obtain ⟨⟨e, label⟩, hmem⟩ := List.exists_mem_of_ne_nil _ hne
    obtain ⟨he, n, hn, hlost⟩ := mem_lost_iff.mp hmem
    obtain ⟨route, hroute⟩ := (mem_handles_iff hat hn).mp he
    exact ⟨route, e, n, label, hroute, hn, hlost⟩
  · rintro ⟨route, e, n, label, hroute, hn, hlost⟩
    have he := (mem_handles_iff hat hn).mpr ⟨route, hroute⟩
    exact List.ne_nil_of_mem (mem_lost_iff.mpr ⟨he, n, hn, hlost⟩)

theorem strayLabels_eq (h : fn.validate = .ok ()) (ht : fn.WellFormed t) :
    fn.strayLabels = (fn.lost t.handles).map (·.2) := by
  rw [strayLabels, ht.tree_eq]
  cases hbody : fn.body.isPresent with
  | false =>
    rw [ht.isAt.eq_absent hbody]
    rfl
  | true =>
    have hrouted := wellRouted_of_validate h hbody
    refine hrouted.strays_eq ht.isAt (s := []) rfl fun label => ?_
    simp [hrouted.not_encloses_body]

/-- The body of an accepted function has no graph if and only if a branch that a route leads to, whether
or not it is ever evaluated, has a label that is empty or that no block or loop around it has. The error
names the first such label, the nodes being taken in post-order and the labels of each in their order,
the default one of a table last. -/
theorem lower_resolves_labels {α : Type} (h : fn.validate = .ok ()) (recorder : Ref → Option α) :
    ((∃ f, fn.lower fn.body recorder = .error f) ↔
      ∃ route r n label, fn.follow fn.body route = some r ∧ fn.node? r = some n ∧
        label ∈ n.branchLabels ∧ ¬fn.Resolves r label) ∧
    ∃ refs, fn.postOrder fn.body = .ok refs ∧
      ∀ f, fn.lower fn.body recorder = .error f ↔
        ∃ before r label after, refs.flatMap fn.branchesAt = before ++ (r, label) :: after ∧
          (∀ x ∈ before, fn.Resolves x.1 x.2) ∧ ¬fn.Resolves r label ∧
          f = .rejected (.unresolvedLabel label) := by
  obtain ⟨t, ht⟩ := wellFormed_of_validate h
  have hfails := ht.lower_failsAt recorder
  rw [strayLabels_eq h ht] at hfails
  refine ⟨?_, t.handles, postOrder_eq ht.isAt, fun f => ?_⟩
  · rw [← lost_handles_ne_nil_iff ht.isAt]
    simp only [hfails.eq_error_iff]
    cases fn.lost t.handles with
    | nil => simp
    | cons x xs => simp
  · rw [hfails.eq_error_iff]
    simp only [head?_lost_iff]
    constructor
    · rintro ⟨label, ⟨before, r, after, heq, hbefore, hlost⟩, hf⟩
      exact ⟨before, r, label, after, heq, hbefore, hlost, hf⟩
    · rintro ⟨before, r, label, after, heq, hbefore, hlost, hf⟩
      exact ⟨label, ⟨before, r, after, heq, hbefore, hlost⟩, hf⟩

/-- Behind a return, a table names two constructs around it and then none. The branch after it names a
loop that it stands beside. -/
def misdirected : Function where
  name := "misdirected"
  params := [.i32]
  body := 7
  nodes := #[
    { kind := .ret, kids := [.absent] },
    { kind := .localGet, type := .i32, index := 0 },
    { kind := .brTable, labels := ["in", "out"], label := "gone", kids := [.absent, 1] },
    { kind := .block, kids := [2] },
    { kind := .loop, label := "in", kids := [3] },
    { kind := .block, label := "out", kids := [4] },
    { kind := .br, label := "in", kids := [.absent, .absent] },
    { kind := .block, label := "out", kids := [0, 5, 6] }]

theorem lower_resolves_labels_misdirected :
    misdirected.validate = .ok () ∧
      misdirected.lower misdirected.body some = .error (.rejected (.unresolvedLabel "gone")) ∧
      misdirected.Resolves 2 "in" ∧ misdirected.Resolves 2 "out" ∧ ¬misdirected.Resolves 2 "gone" := by
  have hvalid : misdirected.validate = .ok () := by cbv
  have hlower : misdirected.lower misdirected.body some =
    .error (.rejected (.unresolvedLabel "gone")) := by cbv
  obtain ⟨-, refs, hrefs, hfirst⟩ := lower_resolves_labels hvalid some
  obtain ⟨before, r, label, after, heq, -, hlost, hlabel⟩ := (hfirst _).mp hlower
  have horder : misdirected.postOrder misdirected.body = .ok [0, 1, 2, 3, 4, 5, 6, 7] := by cbv
  obtain rfl : [0, 1, 2, 3, 4, 5, 6, 7] = refs := Except.ok.inj (horder.symm.trans hrefs)
  have hbranches : [0, 1, 2, 3, 4, 5, 6, 7].flatMap misdirected.branchesAt =
    [(2, "in"), (2, "out"), (2, "gone"), (6, "in")] := rfl
  obtain rfl : "gone" = label := by simpa using hlabel
  have hmem : (r, "gone") ∈ [(2, "in"), (2, "out"), (2, "gone"), (6, "in")] := by
    rw [← hbranches, heq]
    exact List.mem_append_right _ (.head _)
  obtain rfl : r = 2 := by simpa using hmem
  refine ⟨hvalid, hlower, ⟨by decide, ?_⟩, ⟨by decide, ?_⟩, hlost⟩
  · exact ⟨[1, 0], 4, _, [0, 0], rfl, rfl, .inr rfl, rfl, List.cons_ne_nil _ _, rfl⟩
  · exact ⟨[1], 5, _, [0, 0, 0], rfl, rfl, .inl rfl, rfl, List.cons_ne_nil _ _, rfl⟩

end Function

end LocalFlow
