import LocalFlow.Proofs.Function.Validation
import LocalFlow.Proofs.Outcome

/-! Passes that rewrite a tree in place. The nodes are visited children first, and a visit changes
nothing but the node that is visited. In the end the arena has at the root what the visits made of
the tree, one node after another. -/

namespace LocalFlow

namespace Tree

def handles (t : Tree) : List Ref := t.nodes.map (·.1)

def handlesAll (ts : List (Unit → Tree)) : List Ref := (nodesAll ts).map (·.1)

@[simp]
theorem handles_node (r : Ref) (n : Node) (kids : List (Unit → Tree)) :
    (node r n kids).handles = handlesAll kids ++ [r] := by
  simp [handles, handlesAll, nodes]

@[simp]
theorem handlesAll_nil : handlesAll [] = [] := rfl

@[simp]
theorem handlesAll_cons (t : Unit → Tree) (ts : List (Unit → Tree)) :
    handlesAll (t :: ts) = (t ()).handles ++ handlesAll ts := by
  simp [handles, handlesAll, nodesAll]

theorem mem_handlesAll {ts : List (Unit → Tree)} {r : Ref} :
    r ∈ handlesAll ts ↔ ∃ t ∈ ts, r ∈ (t ()).handles := by
  induction ts with
  | nil => simp
  | cons t ts ih => simp [ih]

mutual

/-- The second tree is what a pass makes of the first one, where `change` says what it makes of a
node whose children are done. -/
inductive Rewrites (change : Ref → Node → List (Unit → Tree) → Tree → Prop) : Tree → Tree → Prop
  | absent : Rewrites change .absent .absent
  | node {r : Ref} {n : Node} {kids kids' : List (Unit → Tree)} {t : Tree} :
      RewritesAll change kids kids' → change r n kids' t → Rewrites change (.node r n kids) t

inductive RewritesAll (change : Ref → Node → List (Unit → Tree) → Tree → Prop) :
    List (Unit → Tree) → List (Unit → Tree) → Prop
  | nil : RewritesAll change [] []
  | cons {t t' : Unit → Tree} {ts ts' : List (Unit → Tree)} :
      Rewrites change (t ()) (t' ()) → RewritesAll change ts ts' →
      RewritesAll change (t :: ts) (t' :: ts')

end

variable {change : Ref → Node → List (Unit → Tree) → Tree → Prop} {t t' : Tree}
  {ts ts' : List (Unit → Tree)} {good fine : Node → Prop}

theorem RewritesAll.slot (h : RewritesAll change ts ts') (i : Nat) :
    Rewrites change (slot ts i) (slot ts' i) := by
  induction ts generalizing ts' i with
  | nil =>
    cases h
    exact .absent
  | cons t ts ih =>
    cases h with
    | cons ht hts =>
      cases i with
      | zero => exact ht
      | succ i => simpa [Tree.slot] using ih hts i

theorem RewritesAll.length_eq (h : RewritesAll change ts ts') : ts'.length = ts.length := by
  induction ts generalizing ts' with
  | nil =>
    cases h
    rfl
  | cons t ts ih =>
    cases h with
    | cons _ hts => rw [List.length_cons, List.length_cons, ih hts]

theorem RewritesAll.exists_of_getElem? (h : RewritesAll change ts ts') {i : Nat} {k' : Unit → Tree}
    (hk' : ts'[i]? = some k') : ∃ k, ts[i]? = some k ∧ Rewrites change (k ()) (k' ()) := by
  induction ts generalizing ts' i with
  | nil =>
    cases h
    cases hk'
  | cons t ts ih =>
    cases h with
    | cons ht hts =>
      cases i with
      | zero =>
        cases hk'
        exact ⟨t, rfl, ht⟩
      | succ i => simpa using ih hts (by simpa using hk')

theorem RewritesAll.forall_nodes (h : RewritesAll change ts ts')
    (ih : ∀ k ∈ ts, ∀ {t'}, Rewrites change (k ()) t' → (∀ x ∈ (k ()).nodes, good x.2) →
      ∀ x ∈ t'.nodes, fine x.2)
    (hgood : ∀ x ∈ nodesAll ts, good x.2) : ∀ x ∈ nodesAll ts', fine x.2 := by
  induction ts generalizing ts' with
  | nil =>
    cases h
    simp [nodesAll]
  | cons t ts iht =>
    cases h with
    | cons ht hts =>
      intro x hx
      rcases List.mem_append.mp hx with hx | hx
      · exact ih t (by simp) ht (fun y hy => hgood y (List.mem_append_left _ hy)) x hx
      · exact iht hts (fun k hk => ih k (.tail _ hk))
          (fun y hy => hgood y (List.mem_append_right _ hy)) x hx

theorem Rewrites.forall_nodes (good fine : Node → Prop)
    (hchange : ∀ {r n kids t}, change r n kids t → good n → (∀ x ∈ nodesAll kids, fine x.2) →
      ∀ x ∈ t.nodes, fine x.2)
    (h : Rewrites change t t') (hgood : ∀ x ∈ t.nodes, good x.2) : ∀ x ∈ t'.nodes, fine x.2 := by
  induction t generalizing t' with
  | absent =>
    cases h
    simp
  | dangling => cases h
  | endless => cases h
  | node r n kids ih =>
    cases h with
    | node hkids ht =>
      obtain ⟨hgoodKids, hn⟩ := forall_mem_nodes.mp hgood
      exact hchange ht hn (hkids.forall_nodes ih hgoodKids)

end Tree

namespace Function

/-- The functions differ at most in the nodes of the given handles. -/
structure SameBut (changed : List Ref) (fn fn' : Function) : Prop where
  name : fn'.name = fn.name
  params : fn'.params = fn.params
  results : fn'.results = fn.results
  vars : fn'.vars = fn.vars
  body : fn'.body = fn.body
  size : fn'.nodes.size = fn.nodes.size
  node?_eq : ∀ x, x ∉ changed → fn'.node? x = fn.node? x

variable {fn fn' fn'' : Function} {changed changed' : List Ref}

theorem postOrder_eq {t : Tree} {r : Ref} (hat : t.IsAt fn r) :
    fn.postOrder r = .ok t.handles := by
  rw [postOrder, tree_eq_of_isAt hat, hat.postOrder_eq]
  rfl

theorem SameBut.refl (changed : List Ref) (fn : Function) : SameBut changed fn fn :=
  ⟨rfl, rfl, rfl, rfl, rfl, rfl, fun _ _ => rfl⟩

theorem SameBut.trans (h : SameBut changed fn fn') (h' : SameBut changed' fn' fn'') :
    SameBut (changed ++ changed') fn fn'' where
  name := h'.name.trans h.name
  params := h'.params.trans h.params
  results := h'.results.trans h.results
  vars := h'.vars.trans h.vars
  body := h'.body.trans h.body
  size := h'.size.trans h.size
  node?_eq x hx := by
    obtain ⟨hx₁, hx₂⟩ := not_or.mp (List.mem_append.not.mp hx)
    exact (h'.node?_eq x hx₂).trans (h.node?_eq x hx₁)

theorem SameBut.mono (h : SameBut changed fn fn') (hsub : changed ⊆ changed') :
    SameBut changed' fn fn' :=
  { h with node?_eq := fun x hx => h.node?_eq x fun hmem => hx (hsub hmem) }

theorem SameBut.isAt {t : Tree} {r : Ref} (h : SameBut changed fn fn') (hat : t.IsAt fn r)
    (hdisjoint : ∀ x ∈ t.handles, x ∉ changed) : t.IsAt fn' r :=
  hat.congr fun x hx => h.node?_eq x.1 (hdisjoint x.1 (List.mem_map_of_mem hx))

theorem SameBut.areAt {ts : List (Unit → Tree)} {rs : List Ref} (h : SameBut changed fn fn')
    (hat : Tree.AreAt fn ts rs) (hdisjoint : ∀ x ∈ Tree.handlesAll ts, x ∉ changed) :
    Tree.AreAt fn' ts rs := by
  refine hat.imp fun k hk r hr => h.isAt hr fun x hx => hdisjoint x ?_
  obtain ⟨y, hy, rfl⟩ := List.mem_map.mp hx
  exact List.mem_map_of_mem (Tree.mem_nodesAll.mpr ⟨k, hk, hy⟩)

theorem node?_put {r x : Ref} {n : Node} (h : fn.put r n = .ok fn') :
    fn'.node? x = if x = r then some n else fn.node? x := by
  unfold put at h
  split at h
  · rename_i n' hn'
    cases h
    cases r with
    | negSucc i => cases hn'
    | ofNat i =>
      obtain ⟨hlt, -⟩ := Array.getElem?_eq_some_iff.mp hn'
      cases x with
      | negSucc j => rfl
      | ofNat j =>
        simp only [node?, Int.ofNat_eq_natCast, Int.toNat_natCast, Array.getElem?_setIfInBounds,
          Int.natCast_inj]
        by_cases hij : i = j
        · simp [hij, hij ▸ hlt]
        · simp [hij, Ne.symm hij]
  · cases h

theorem SameBut.of_put {r : Ref} {n : Node} (h : fn.put r n = .ok fn') : SameBut [r] fn fn' := by
  have hnodes := fun x (hx : x ≠ r) => (node?_put (x := x) h).trans (if_neg hx)
  unfold put at h
  split at h
  · cases h
    exact ⟨rfl, rfl, rfl, rfl, rfl, Array.size_setIfInBounds, fun x hx => hnodes x (by simpa using hx)⟩
  · cases h

/-- Once a node is put above trees that it is no part of, it stands there with these children. -/
theorem isAt_of_put {r : Ref} {n : Node} {kids : List (Unit → Tree)} (h : fn.put r n = .ok fn')
    (hkids : Tree.AreAt fn kids n.kids) (hr : r ∉ Tree.handlesAll kids) :
    (Tree.node r n kids).IsAt fn' r := by
  refine ⟨rfl, by rw [node?_put h, if_pos rfl], (SameBut.of_put h).areAt hkids fun x hx hxr => hr ?_⟩
  rwa [List.mem_singleton.mp hxr] at hx

end Function

namespace Tree

variable {σ : Type} {arena : σ → Function} {visit : σ → Ref → Except Failure σ}
  {change : Ref → Node → List (Unit → Tree) → Tree → Prop} {good : Node → Prop} {t : Tree}
  {ts : List (Unit → Tree)} {r : Ref} {rs : List Ref} {w w' : σ}

/-- A visit changes the node that is visited and nothing else. -/
def Visits (arena : σ → Function) (visit : σ → Ref → Except Failure σ) (good : Node → Prop)
    (change : Ref → Node → List (Unit → Tree) → Tree → Prop) : Prop :=
  ∀ {w w' r n kids}, good n → (node r n kids).IsAt (arena w) r → (node r n kids).handles.Nodup →
    visit w r = .ok w' → ∃ t, t.IsAt (arena w') r ∧ change r n kids t ∧
      t.handles.Sublist (handlesAll kids ++ [r]) ∧ Function.SameBut [r] (arena w) (arena w')

def Visited (arena : σ → Function) (visit : σ → Ref → Except Failure σ) (good : Node → Prop)
    (change : Ref → Node → List (Unit → Tree) → Tree → Prop) (t : Tree) : Prop :=
  ∀ {r w w'}, t.IsAt (arena w) r → t.handles.Nodup → (∀ x ∈ t.nodes, good x.2) →
    t.handles.foldlM visit w = .ok w' → ∃ t', t'.IsAt (arena w') r ∧ Rewrites change t t' ∧
      t'.handles.Sublist t.handles ∧ Function.SameBut t.handles (arena w) (arena w')

/-- A relation between trees before and after some visits, and the states then, that holds of a row of
trees if it holds of each of them. -/
structure Chains (track : Tree → σ → Tree → σ → Prop)
    (trackAll : List (Unit → Tree) → σ → List (Unit → Tree) → σ → Prop) : Prop where
  absent : ∀ {w}, track .absent w .absent w
  nil : ∀ {w}, trackAll [] w [] w
  cons : ∀ {t t' : Unit → Tree} {ts ts' w₁ w₂ w₃}, track (t ()) w₁ (t' ()) w₂ →
    trackAll ts w₂ ts' w₃ → trackAll (t :: ts) w₁ (t' :: ts') w₃

/-- A visit changes the node that is visited and nothing else, and the relation passes on from the
children, which were visited before, to the node. -/
def VisitsAlong (arena : σ → Function) (visit : σ → Ref → Except Failure σ) (good : Node → Prop)
    (track : Tree → σ → Tree → σ → Prop)
    (trackAll : List (Unit → Tree) → σ → List (Unit → Tree) → σ → Prop) : Prop :=
  ∀ {w w' r n kids}, good n → (node r n kids).IsAt (arena w) r → (node r n kids).handles.Nodup →
    visit w r = .ok w' → ∃ t, t.IsAt (arena w') r ∧
      (∀ {before w₀}, trackAll before w₀ kids w → track (node r n before) w₀ t w') ∧
      t.handles.Sublist (handlesAll kids ++ [r]) ∧ Function.SameBut [r] (arena w) (arena w')

def Tracked (arena : σ → Function) (visit : σ → Ref → Except Failure σ) (good : Node → Prop)
    (track : Tree → σ → Tree → σ → Prop) (t : Tree) : Prop :=
  ∀ {r w w'}, t.IsAt (arena w) r → t.handles.Nodup → (∀ x ∈ t.nodes, good x.2) →
    t.handles.foldlM visit w = .ok w' → ∃ t', t'.IsAt (arena w') r ∧ track t w t' w' ∧
      t'.handles.Sublist t.handles ∧ Function.SameBut t.handles (arena w) (arena w')

section Track

variable {track : Tree → σ → Tree → σ → Prop}
  {trackAll : List (Unit → Tree) → σ → List (Unit → Tree) → σ → Prop}

theorem trackedAll (hchains : Chains track trackAll)
    (ih : ∀ k ∈ ts, (k ()).Tracked arena visit good track)
    (hat : AreAt (arena w) ts rs) (hnodup : (handlesAll ts).Nodup)
    (hgood : ∀ x ∈ nodesAll ts, good x.2) (h : (handlesAll ts).foldlM visit w = .ok w') :
    ∃ ts', AreAt (arena w') ts' rs ∧ trackAll ts w ts' w' ∧
      (handlesAll ts').Sublist (handlesAll ts) ∧
      Function.SameBut (handlesAll ts) (arena w) (arena w') := by
  induction ts generalizing rs w with
  | nil =>
    cases h
    exact ⟨[], hat, hchains.nil, .slnil, .refl _ _⟩
  | cons k ts iht =>
    cases rs with
    | nil => exact hat.elim
    | cons r rs =>
      rw [handlesAll_cons] at hnodup h
      rw [List.foldlM_append] at h
      obtain ⟨w₁, h₁, h⟩ := bind_eq_ok.mp h
      obtain ⟨hk, hts, hdisjoint⟩ := List.nodup_append.mp hnodup
      obtain ⟨k', hat', hk', hsub, hsame⟩ := ih k (by simp) hat.1 hk
        (fun x hx => hgood x (List.mem_append_left _ hx)) h₁
      have hrest := hsame.areAt hat.2 fun x hx hxk => hdisjoint x hxk x hx rfl
      obtain ⟨ts', hats', hts', hsub', hsame'⟩ := iht (fun k hk => ih k (.tail _ hk)) hrest hts
        (fun x hx => hgood x (List.mem_append_right _ hx)) h
      refine ⟨(fun _ => k') :: ts', ⟨hsame'.isAt hat' fun x hx hxts => ?_, hats'⟩,
        hchains.cons hk' hts', ?_, ?_⟩
      · exact hdisjoint x (hsub.subset hx) x hxts rfl
      · rw [handlesAll_cons, handlesAll_cons]
        exact hsub.append hsub'
      · rw [handlesAll_cons]
        exact hsame.trans hsame'

theorem tracked (hchains : Chains track trackAll)
    (hvisits : VisitsAlong arena visit good track trackAll) (t : Tree) :
    t.Tracked arena visit good track := by
  induction t with
  | absent =>
    intro r w w' hat _ _ h
    cases h
    exact ⟨.absent, hat, hchains.absent, .slnil, .refl _ _⟩
  | dangling => exact fun hat => hat.elim
  | endless => exact fun hat => hat.elim
  | node r n kids ih =>
    intro r' w w' hat hnodup hgood h
    obtain ⟨rfl, hn, hkids⟩ := hat
    rw [handles_node, List.foldlM_append] at h
    obtain ⟨w₁, h₁, h⟩ := bind_eq_ok.mp h
    rw [List.foldlM_cons] at h
    obtain ⟨w₂, h₂, h⟩ := bind_eq_ok.mp h
    cases h
    rw [handles_node] at hnodup
    obtain ⟨hnodup', -, hdisjoint⟩ := List.nodup_append.mp hnodup
    have hr : r' ∉ handlesAll kids := fun hr => hdisjoint r' hr r' (by simp) rfl
    obtain ⟨hgoodKids, hgoodNode⟩ := forall_mem_nodes.mp hgood
    obtain ⟨kids', hat', hkids', hsub, hsame⟩ := trackedAll hchains ih hkids hnodup' hgoodKids h₁
    have hnode : (node r' n kids').IsAt (arena w₁) r' :=
      ⟨rfl, (hsame.node?_eq r' hr).trans hn, hat'⟩
    have hsub' : (node r' n kids').handles.Sublist (handlesAll kids ++ [r']) := by
      rw [handles_node]
      exact hsub.append (.refl _)
    obtain ⟨t, ht, hchange, hsubt, hsame'⟩ :=
      hvisits hgoodNode hnode (hsub'.nodup hnodup) h₂
    refine ⟨t, ht, hchange hkids', ?_, ?_⟩
    · rw [handles_node]
      exact hsubt.trans (hsub.append (.refl _))
    · rw [handles_node]
      exact hsame.trans hsame'

end Track

theorem chains_rewrites : Chains (fun t (_ : σ) t' (_ : σ) => Rewrites change t t')
    (fun ts _ ts' _ => RewritesAll change ts ts') :=
  ⟨.absent, .nil, .cons⟩

theorem visitedAll (ih : ∀ k ∈ ts, (k ()).Visited arena visit good change)
    (hat : AreAt (arena w) ts rs) (hnodup : (handlesAll ts).Nodup)
    (hgood : ∀ x ∈ nodesAll ts, good x.2) (h : (handlesAll ts).foldlM visit w = .ok w') :
    ∃ ts', AreAt (arena w') ts' rs ∧ RewritesAll change ts ts' ∧
      (handlesAll ts').Sublist (handlesAll ts) ∧
      Function.SameBut (handlesAll ts) (arena w) (arena w') :=
  trackedAll chains_rewrites ih hat hnodup hgood h

theorem visited (hvisits : Visits arena visit good change) (t : Tree) :
    t.Visited arena visit good change := by
  refine tracked chains_rewrites (fun hn hat hnodup h => ?_) t
  obtain ⟨t, ht, hchange, hsub, hsame⟩ := hvisits hn hat hnodup h
  exact ⟨t, ht, fun hall => .node hall hchange, hsub, hsame⟩

/-- Every good node can be visited where it stands. -/
def Visitable (arena : σ → Function) (visit : σ → Ref → Except Failure σ) (good : Node → Prop) :
    Prop :=
  ∀ {w r n kids}, good n → (node r n kids).IsAt (arena w) r → (node r n kids).handles.Nodup →
    ∃ w', visit w r = .ok w'

theorem exists_visitedAll (hvisits : Visits arena visit good change)
    (ih : ∀ k ∈ ts, ∀ {r w}, (k ()).IsAt (arena w) r → (k ()).handles.Nodup →
      (∀ x ∈ (k ()).nodes, good x.2) → ∃ w', (k ()).handles.foldlM visit w = .ok w')
    (hat : AreAt (arena w) ts rs) (hnodup : (handlesAll ts).Nodup)
    (hgood : ∀ x ∈ nodesAll ts, good x.2) : ∃ w', (handlesAll ts).foldlM visit w = .ok w' := by
  induction ts generalizing rs w with
  | nil => exact ⟨w, rfl⟩
  | cons k ts iht =>
    cases rs with
    | nil => exact hat.elim
    | cons r rs =>
      rw [handlesAll_cons] at hnodup ⊢
      rw [List.foldlM_append]
      obtain ⟨hk, hts, hdisjoint⟩ := List.nodup_append.mp hnodup
      have hgoodk : ∀ x ∈ (k ()).nodes, good x.2 := fun x hx => hgood x (List.mem_append_left _ hx)
      obtain ⟨w₁, h₁⟩ := ih k (by simp) hat.1 hk hgoodk
      obtain ⟨-, -, -, -, hsame⟩ := (k ()).visited hvisits hat.1 hk hgoodk h₁
      have hrest := hsame.areAt hat.2 fun x hx hxk => hdisjoint x hxk x hx rfl
      obtain ⟨w₂, h₂⟩ := iht (fun k hk => ih k (.tail _ hk)) hrest hts
        fun x hx => hgood x (List.mem_append_right _ hx)
      exact ⟨w₂, bind_eq_ok.mpr ⟨w₁, h₁, h₂⟩⟩

/-- If good nodes can be visited, all nodes of a good tree can be, one after another. -/
theorem exists_visited (hvisits : Visits arena visit good change)
    (hvisitable : Visitable arena visit good) (hat : t.IsAt (arena w) r) (hnodup : t.handles.Nodup)
    (hgood : ∀ x ∈ t.nodes, good x.2) : ∃ w', t.handles.foldlM visit w = .ok w' := by
  induction t generalizing r w with
  | absent => exact ⟨w, rfl⟩
  | dangling => exact hat.elim
  | endless => exact hat.elim
  | node r n kids ih =>
    obtain ⟨rfl, hn, hkids⟩ := hat
    rw [handles_node] at hnodup ⊢
    obtain ⟨hnodup', -, hdisjoint⟩ := List.nodup_append.mp hnodup
    obtain ⟨hgoodKids, hgoodNode⟩ := forall_mem_nodes.mp hgood
    obtain ⟨w₁, h₁⟩ := exists_visitedAll hvisits ih hkids hnodup' hgoodKids
    have hr : r ∉ handlesAll kids := fun hr => hdisjoint r hr r (by simp) rfl
    obtain ⟨kids', hat', -, hsub, hsame⟩ :=
      visitedAll (fun k _ => (k ()).visited hvisits) hkids hnodup' hgoodKids h₁
    have hnode : (node r n kids').IsAt (arena w₁) r := ⟨rfl, (hsame.node?_eq r hr).trans hn, hat'⟩
    have hnodes : (node r n kids').handles.Nodup := by
      rw [handles_node]
      exact (hsub.append (.refl _)).nodup hnodup
    obtain ⟨w₂, h₂⟩ := hvisitable hgoodNode hnode hnodes
    refine ⟨w₂, ?_⟩
    rw [List.foldlM_append]
    exact bind_eq_ok.mpr ⟨w₁, h₁, bind_eq_ok.mpr ⟨w₂, h₂, rfl⟩⟩

end Tree

end LocalFlow
