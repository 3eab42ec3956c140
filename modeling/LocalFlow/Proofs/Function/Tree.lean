import LocalFlow.Function.Tree
import Mathlib.Data.List.Basic

/-! Trees and the arena they are unfolded from: which tree stands at a handle, and that it depends on
the nodes of its own handles only. -/

namespace LocalFlow

namespace Kind

variable {kind : Kind}

theorem isLocalWrite_iff : kind.isLocalWrite = true ↔ kind = .localSet ∨ kind = .localTee := by
  cases kind <;> simp [isLocalWrite]

theorem isLocalAccess_iff :
    kind.isLocalAccess = true ↔ kind = .localGet ∨ kind.isLocalWrite = true := by
  cases kind <;> simp [isLocalAccess, isLocalWrite]

theorem isLocalAccess_of_isLocalWrite (h : kind.isLocalWrite = true) : kind.isLocalAccess = true :=
  isLocalAccess_iff.mpr (.inr h)

theorem isStructured_of_isLocalAccess (h : kind.isLocalAccess = true) : kind.isStructured = false := by
  rcases isLocalAccess_iff.mp h with rfl | h
  · rfl
  · rcases isLocalWrite_iff.mp h with rfl | rfl <;> rfl

end Kind

theorem Function.node_eq_ok {fn : Function} {r : Ref} {n : Node} :
    fn.node r = .ok n ↔ fn.node? r = some n := by
  unfold node
  split
  · rename_i hn
    simp [hn]
  · rename_i hn
    simp [hn]

namespace Tree

/-- Induction over a tree: a property of all children passes on to their parent. -/
@[induction_eliminator]
theorem induction {motive : Tree → Prop} (absent : motive .absent)
    (dangling : ∀ r, motive (.dangling r)) (endless : ∀ r, motive (.endless r))
    (node : ∀ r n kids, (∀ k ∈ kids, motive (k ())) → motive (.node r n kids)) (t : Tree) :
    motive t := by
  refine @Tree.rec motive (fun kids => ∀ k ∈ kids, motive (k ())) absent dangling endless
    (fun r n kids ih => node r n kids ih) (by simp) ?_ t
  intro head tail ihHead ihTail k hk
  rcases List.mem_cons.mp hk with rfl | hk
  · exact ihHead ()
  · exact ihTail k hk

mutual

/-- The nodes of a tree, children first, as far as they exist. -/
def nodes : Tree → List (Ref × Node)
  | .node r n kids => nodesAll kids ++ [(r, n)]
  | _ => []

def nodesAll : List (Unit → Tree) → List (Ref × Node)
  | [] => []
  | t :: ts => nodes (t ()) ++ nodesAll ts

end

mutual

/-- In the arena of `fn`, the tree is the one that stands at `r`. -/
def IsAt (fn : Function) : Tree → Ref → Prop
  | .absent, r => r.isPresent = false
  | .dangling _, _ | .endless _, _ => False
  | .node r n kids, r' => r' = r ∧ fn.node? r = some n ∧ AreAt fn kids n.kids

def AreAt (fn : Function) : List (Unit → Tree) → List Ref → Prop
  | [], [] => True
  | t :: ts, r :: rs => IsAt fn (t ()) r ∧ AreAt fn ts rs
  | [], _ :: _ | _ :: _, [] => False

end

/-- The tree in a slot; a slot that does not exist is empty. -/
def slot (kids : List (Unit → Tree)) (i : Nat) : Tree :=
  match kids[i]? with
  | some kid => kid ()
  | none => .absent

variable {fn fn' : Function} {t : Tree} {ts us : List (Unit → Tree)} {r : Ref} {rs : List Ref}

theorem slot_of_kids {P : Tree → Prop} (hkids : ∀ t ∈ ts, P (t ())) (habsent : P .absent) (i : Nat) :
    P (slot ts i) := by
  unfold slot
  split
  · rename_i t ht
    exact hkids t (List.mem_of_getElem? ht)
  · exact habsent

@[simp]
theorem nodes_absent : Tree.absent.nodes = [] := rfl

@[simp]
theorem nodesAll_append : nodesAll (ts ++ us) = nodesAll ts ++ nodesAll us := by
  induction ts with
  | nil => rfl
  | cons t ts ih => simp [nodesAll, ih]

theorem mem_nodesAll {x : Ref × Node} : x ∈ nodesAll ts ↔ ∃ t ∈ ts, x ∈ (t ()).nodes := by
  induction ts with
  | nil => simp [nodesAll]
  | cons t ts ih => simp [nodesAll, ih]

theorem mem_nodes_of_kid {n : Node} {x : Ref × Node} {k : Unit → Tree} (hk : k ∈ ts)
    (hx : x ∈ (k ()).nodes) : x ∈ (node r n ts).nodes :=
  List.mem_append_left _ (mem_nodesAll.mpr ⟨k, hk, hx⟩)

theorem forall_mem_nodes {n : Node} {P : Ref × Node → Prop} :
    (∀ x ∈ (node r n ts).nodes, P x) ↔ (∀ x ∈ nodesAll ts, P x) ∧ P (r, n) := by
  simp only [nodes, List.mem_append, List.mem_singleton, or_imp, forall_and, forall_eq]

theorem AreAt.exists_isAt (h : AreAt fn ts rs) {t : Unit → Tree} (ht : t ∈ ts) :
    ∃ r ∈ rs, (t ()).IsAt fn r := by
  induction ts generalizing rs with
  | nil => simp at ht
  | cons u ts ih =>
    cases rs with
    | nil => exact h.elim
    | cons r rs =>
      rcases List.mem_cons.mp ht with rfl | ht
      · exact ⟨r, by simp, h.1⟩
      · obtain ⟨r', hr', hat⟩ := ih h.2 ht
        exact ⟨r', by simp [hr'], hat⟩

theorem AreAt.append {rs₁ rs₂ : List Ref} (h : AreAt fn ts (rs₁ ++ rs₂)) :
    ∃ ts₁ ts₂, ts = ts₁ ++ ts₂ ∧ AreAt fn ts₁ rs₁ ∧ AreAt fn ts₂ rs₂ := by
  induction rs₁ generalizing ts with
  | nil => exact ⟨[], ts, rfl, trivial, h⟩
  | cons r rs₁ ih =>
    cases ts with
    | nil => exact h.elim
    | cons t ts =>
      obtain ⟨ts₁, ts₂, rfl, h₁, h₂⟩ := ih h.2
      exact ⟨t :: ts₁, ts₂, rfl, ⟨h.1, h₁⟩, h₂⟩

theorem AreAt.append_areAt {rs' : List Ref} (h : AreAt fn ts rs) (h' : AreAt fn us rs') :
    AreAt fn (ts ++ us) (rs ++ rs') := by
  induction ts generalizing rs with
  | nil =>
    cases rs with
    | nil => exact h'
    | cons r rs => exact h.elim
  | cons t ts ih =>
    cases rs with
    | nil => exact h.elim
    | cons r rs => exact ⟨h.1, ih h.2⟩

theorem AreAt.imp (h : AreAt fn ts rs)
    (himp : ∀ t ∈ ts, ∀ r, (t ()).IsAt fn r → (t ()).IsAt fn' r) : AreAt fn' ts rs := by
  induction ts generalizing rs with
  | nil =>
    cases rs with
    | nil => trivial
    | cons r rs => exact h.elim
  | cons t ts ih =>
    cases rs with
    | nil => exact h.elim
    | cons r rs =>
      exact ⟨himp t (by simp) r h.1, ih h.2 fun u hu => himp u (.tail _ hu)⟩

theorem IsAt.node?_eq (h : t.IsAt fn r) : ∀ x ∈ t.nodes, fn.node? x.1 = some x.2 := by
  induction t generalizing r with
  | absent => simp [nodes]
  | dangling => simp [nodes]
  | endless => simp [nodes]
  | node r n kids ih =>
    obtain ⟨rfl, hn, hkids⟩ := h
    intro x hx
    rcases List.mem_append.mp hx with hx | hx
    · obtain ⟨k, hk, hx⟩ := mem_nodesAll.mp hx
      obtain ⟨r', -, hr'⟩ := hkids.exists_isAt hk
      exact ih k hk hr' x hx
    · obtain rfl := List.mem_singleton.mp hx
      exact hn

/-- A tree is not disturbed by what happens to nodes that are not its own. -/
theorem IsAt.congr (h : t.IsAt fn r) (hnodes : ∀ x ∈ t.nodes, fn'.node? x.1 = fn.node? x.1) :
    t.IsAt fn' r := by
  induction t generalizing r with
  | absent => exact h
  | dangling => exact h
  | endless => exact h
  | node r n kids ih =>
    obtain ⟨rfl, hn, hkids⟩ := h
    refine ⟨rfl, (hnodes (r, n) (by simp [nodes])).trans hn, ?_⟩
    exact hkids.imp fun k hk r' hr' => ih k hk hr' fun x hx => hnodes x (mem_nodes_of_kid hk hx)

theorem length_nodes_le {t : Unit → Tree} (ht : t ∈ ts) :
    (t ()).nodes.length ≤ (nodesAll ts).length := by
  induction ts with
  | nil => simp at ht
  | cons u ts ih =>
    rw [nodesAll, List.length_append]
    rcases List.mem_cons.mp ht with rfl | ht
    · omega
    · have := ih ht
      omega

theorem AreAt.map_eq {f : Ref → Tree} (h : AreAt fn ts rs)
    (hf : ∀ t ∈ ts, ∀ r, (t ()).IsAt fn r → f r = t ()) : rs.map (fun r _ => f r) = ts := by
  induction ts generalizing rs with
  | nil =>
    cases rs with
    | nil => rfl
    | cons r rs => exact h.elim
  | cons t ts ih =>
    cases rs with
    | nil => exact h.elim
    | cons r rs =>
      have hhead : (fun _ : Unit => f r) = t := funext fun _ => hf t (by simp) r h.1
      rw [List.map_cons, hhead, ih h.2 fun u hu => hf u (.tail _ hu)]

theorem unfold_of_isPresent_eq_false {depth : Nat} (h : r.isPresent = false) :
    fn.unfold depth r = .absent := by
  unfold Function.unfold
  simp [h]

theorem isPresent_of_node? {n : Node} (h : fn.node? r = some n) : r.isPresent = true := by
  cases r with
  | ofNat i => rfl
  | negSucc i => simp [Function.node?] at h

theorem IsAt.exists_node {n : Node} (h : t.IsAt fn r) (hn : fn.node? r = some n) :
    ∃ kids, t = .node r n kids ∧ AreAt fn kids n.kids := by
  cases t with
  | absent =>
    have hpresent := isPresent_of_node? hn
    rw [h] at hpresent
    cases hpresent
  | dangling => exact h.elim
  | endless => exact h.elim
  | node r' n' kids =>
    obtain ⟨rfl, hn', hkids⟩ := h
    obtain rfl : n = n' := Option.some.inj (hn.symm.trans hn')
    exact ⟨kids, rfl, hkids⟩

theorem IsAt.exists_of_isPresent (h : t.IsAt fn r) (hr : r.isPresent = true) :
    ∃ n kids, t = .node r n kids ∧ fn.node? r = some n ∧ AreAt fn kids n.kids := by
  cases t with
  | absent =>
    rw [h] at hr
    cases hr
  | dangling => exact h.elim
  | endless => exact h.elim
  | node r' n kids =>
    obtain ⟨rfl, hn, hkids⟩ := h
    exact ⟨n, kids, rfl, hn, hkids⟩

theorem AreAt.exists_of_isPresent (h : AreAt fn ts (r :: rs)) (hr : r.isPresent = true) :
    ∃ n kids us, ts = (fun _ => .node r n kids) :: us ∧ fn.node? r = some n ∧
      AreAt fn kids n.kids ∧ AreAt fn us rs := by
  match ts, h with
  | t :: us, ⟨ht, hus⟩ =>
    obtain ⟨n, kids, heq, hn, hkids⟩ := ht.exists_of_isPresent hr
    have hhead : t = fun _ => .node r n kids := funext fun _ => heq
    exact ⟨n, kids, us, by rw [hhead], hn, hkids, hus⟩

theorem IsAt.eq_absent (h : t.IsAt fn r) (hr : r.isPresent = false) : t = .absent := by
  cases t with
  | absent => rfl
  | dangling => exact h.elim
  | endless => exact h.elim
  | node r' n kids =>
    obtain ⟨rfl, hn, -⟩ := h
    rw [isPresent_of_node? hn] at hr
    cases hr

/-- Unfolding a handle gives the tree that stands there, if it goes deep enough. -/
theorem IsAt.unfold_eq (h : t.IsAt fn r) {depth : Nat} (hdepth : t.nodes.length ≤ depth) :
    fn.unfold depth r = t := by
  induction t generalizing r depth with
  | absent => exact unfold_of_isPresent_eq_false h
  | dangling => exact h.elim
  | endless => exact h.elim
  | node r n kids ih =>
    obtain ⟨rfl, hn, hkids⟩ := h
    rw [nodes, List.length_append, List.length_singleton] at hdepth
    obtain ⟨depth, rfl⟩ : ∃ d, depth = d + 1 := ⟨depth - 1, by omega⟩
    unfold Function.unfold
    simp only [isPresent_of_node? hn, if_true, hn]
    rw [hkids.map_eq fun k hk r' hr' => ih k hk hr' ?_]
    exact Nat.le_trans (length_nodes_le hk) (by omega)

/-- Every node of a tree is the root of a part of it. -/
theorem IsAt.exists_part {x : Ref × Node} (hat : t.IsAt fn r) (hx : x ∈ t.nodes) :
    ∃ kids, (node x.1 x.2 kids).IsAt fn x.1 ∧ (node x.1 x.2 kids).nodes.Sublist t.nodes := by
  induction t generalizing r with
  | absent => simp at hx
  | dangling => exact hat.elim
  | endless => exact hat.elim
  | node r n kids ih =>
    obtain ⟨rfl, hn, hkids⟩ := hat
    rcases List.mem_append.mp hx with hx | hx
    · obtain ⟨k, hk, hxk⟩ := mem_nodesAll.mp hx
      obtain ⟨r', -, hr'⟩ := hkids.exists_isAt hk
      obtain ⟨part, hpart, hsub⟩ := ih k hk hr' hxk
      have hkid : (k ()).nodes.Sublist (nodesAll kids) := by
        obtain ⟨before, after, rfl⟩ := List.append_of_mem hk
        rw [nodesAll_append, nodesAll]
        exact (List.sublist_append_left _ _).trans (List.sublist_append_right _ _)
      exact ⟨part, hpart, hsub.trans (hkid.trans (List.sublist_append_left _ _))⟩
    · obtain rfl := List.mem_singleton.mp hx
      exact ⟨kids, ⟨rfl, hn, hkids⟩, .refl _⟩

theorem IsAt.unique {u : Tree} (h : t.IsAt fn r) (h' : u.IsAt fn r) : t = u :=
  (h.unfold_eq (Nat.le_max_left _ _)).symm.trans (h'.unfold_eq (Nat.le_max_right _ _))

/-- The node at the root of a tree does not occur below the root. -/
theorem IsAt.ne_of_mem_kid {n : Node} {x : Ref × Node} {k : Unit → Tree}
    (h : (node r n ts).IsAt fn r) (hk : k ∈ ts) (hx : x ∈ (k ()).nodes) : x.1 ≠ r := by
  intro hxr
  obtain ⟨r', -, hr'⟩ := h.2.2.exists_isAt hk
  obtain ⟨kids, hpart, hsub⟩ := hr'.exists_part hx
  have hle := hsub.length_le
  have hkid := length_nodes_le hk
  have hat : (node x.1 x.2 kids).IsAt fn r := hxr ▸ hpart
  rw [hat.unique h, nodes, List.length_append, List.length_singleton] at hle
  omega

theorem postOrderAll_eq (ih : ∀ k ∈ ts, ∀ {r}, (k ()).IsAt fn r → (k ()).postOrder = .ok (k ()).nodes)
    (hat : AreAt fn ts rs) : postOrderAll ts = .ok (nodesAll ts) := by
  induction ts generalizing rs with
  | nil => rfl
  | cons k ts iht =>
    cases rs with
    | nil => exact hat.elim
    | cons r rs =>
      rw [postOrderAll, ih k (by simp) hat.1, iht (fun k hk => ih k (.tail _ hk)) hat.2]
      rfl

theorem IsAt.postOrder_eq (hat : t.IsAt fn r) : t.postOrder = .ok t.nodes := by
  induction t generalizing r with
  | absent => rfl
  | dangling => exact hat.elim
  | endless => exact hat.elim
  | node r n kids ih =>
    obtain ⟨rfl, -, hkids⟩ := hat
    rw [postOrder, postOrderAll_eq (fun k hk => ih k hk) hkids]
    rfl

end Tree

end LocalFlow
