import LocalFlow.Proofs.Coalescing.Redirection

/-! Evaluating a function without its stores to locals that are never read. The locals that may be read
have the same values throughout. -/

namespace LocalFlow

open LocalFlow.Redirection

variable {read : Array Bool} {safe : Prop} {l l' : Array UInt64} {r : Ref} {n : Node}
  {kids kids' : List (Unit → Tree)} {t t' : Tree}

/-- The locals are the same but for those that are never read. -/
structure AgreeOnRead (read : Array Bool) (l l' : Array UInt64) : Prop where
  size_eq : l'.size = l.size
  same : ∀ {i : Nat}, read[i]? ≠ some false → l'[i]? = l[i]?

theorem AgreeOnRead.refl (read : Array Bool) (l : Array UInt64) : AgreeOnRead read l l :=
  ⟨rfl, fun _ => rfl⟩

theorem AgreeOnRead.write (h : AgreeOnRead read l l') (i : Nat) (x : UInt64) :
    AgreeOnRead read (l.setIfInBounds i x) (l'.setIfInBounds i x) := by
  refine ⟨by simpa using h.size_eq, fun {j} hj => ?_⟩
  rw [Array.getElem?_setIfInBounds, Array.getElem?_setIfInBounds, h.size_eq, h.same hj]

theorem AgreeOnRead.skip (h : AgreeOnRead read l l') {i : Nat} (hi : read[i]? = some false)
    (x : UInt64) : AgreeOnRead read (l.setIfInBounds i x) l' := by
  refine ⟨by simpa using h.size_eq, fun {j} hj => ?_⟩
  have hne : i ≠ j := fun heq => hj (heq ▸ hi)
  rw [Array.getElem?_setIfInBounds_ne hne, h.same hj]

def agreesOnRead (read : Array Bool) : LocalsRel Unit := fun _ => AgreeOnRead read

def anywhere : String → Option Unit := fun _ => some ()

theorem update_anywhere (label : String) : Function.update anywhere label (some ()) = anywhere :=
  Function.update_eq_self label anywhere

theorem inBlock_anywhere (label : String) : inBlock anywhere label (some ()) = anywhere := by
  unfold inBlock
  split
  · rfl
  · exact update_anywhere label

/-- A node that reads no local, or one that is read, does the same on both machines. -/
theorem Node.keeps_of_read
    (hread : n.kind = .localGet → read[n.index]? ≠ some false) :
    n.Keeps (agreesOnRead read) safe anywhere n kids kids' () () := by
  intro m₀ m₀' m m' args _ _ hm r r' hfine
  by_cases hacc : n.kind.isLocalAccess = true
  · rcases Kind.isLocalAccess_iff.mp hacc with hget | hwrite
    · rw [apply_get hget, apply_get hget]
      simp only [Machine.noteApplied, hm.locals.same (hread hget)]
      cases m.locals[n.index]? with
      | none => trivial
      | some x => exact ⟨_, rfl, hm.withApplied _ _⟩
    · obtain ⟨hlt, x, rest, rfl⟩ := exists_of_store_fine hwrite hfine
      have hlt' : n.index < (m'.noteApplied r').locals.size := hm.locals.size_eq.symm ▸ hlt
      rw [apply_store hwrite hlt, apply_store hwrite hlt']
      exact ⟨_, rfl, ⟨hm.memory, hm.events, hm.calls, hm.fuel⟩, hm.locals.write n.index x⟩
  · refine apply_matches (by simpa using hacc) (hm.withApplied _ _) (fun _ _ _ hl => hl) ?_
    exact fun _ _ => ⟨(), rfl, fun _ _ hl => hl⟩

theorem Node.skips_of_unread {kid value : Tree} (hwrite : n.kind.isLocalWrite = true)
    (hread : read[n.index]? = some false) : n.Skips (agreesOnRead read) kid value () () := by
  intro m₀ m₀' m m' m₁ x y r r' _ _ hm happly
  have hfine : (n.apply [x] (m.noteApplied r)).Fine False := by
    rw [happly]
    trivial
  rw [apply_store hwrite (exists_of_store_fine hwrite hfine).1] at happly
  cases happly
  exact hm.locals.skip hread x

def Swept (read : Array Bool) (safe : Prop) (t : Tree) : Prop :=
  ∀ {t'}, Tree.Rewrites (Sweeps read) t t' →
    Tree.Follows (agreesOnRead read) safe anywhere t t' () ()

theorem sweptAll (ih : ∀ k ∈ kids, Swept read safe (k ()))
    (h : Tree.RewritesAll (Sweeps read) kids kids') :
    Tree.FollowsAll (agreesOnRead read) safe anywhere kids kids' () () := by
  induction kids generalizing kids' with
  | nil =>
    cases h
    exact .nil
  | cons k kids ihk =>
    cases h with
    | cons hk hkids => exact .cons (ih k (by simp) hk) (ihk (fun k hk => ih k (.tail _ hk)) hkids)

theorem swept_slot (ih : ∀ k ∈ kids, Swept read safe (k ())) (i : Nat) :
    Swept read safe (Tree.slot kids i) := by
  apply Tree.slot_of_kids ih
  intro t' h
  cases h
  exact .absent

theorem follows_kept (ih : ∀ k ∈ kids, Swept read safe (k ()))
    (hread : n.kind = .localGet → read[n.index]? ≠ some false)
    (hall : Tree.RewritesAll (Sweeps read) kids kids') :
    Tree.Follows (agreesOnRead read) safe anywhere (.node r n kids) (.node r n kids') () () := by
  have hsame : LocalsRel.Passes (agreesOnRead read) () () := fun _ _ hl => hl
  have hslot := fun i => swept_slot ih i (hall.slot i)
  by_cases hkind : n.kind.isStructured = true
  · unfold Kind.isStructured at hkind
    split at hkind
    · have hitems : Tree.FollowsAll (agreesOnRead read) safe (inBlock anywhere n.label (some ())) kids
          kids' () () := by
        rw [inBlock_anywhere]
        exact sweptAll ih hall
      exact .block ‹_› hitems hsame fun _ _ => hsame
    · have hbody : Tree.Follows (agreesOnRead read) safe
          (Function.update anywhere n.label (some ())) (Tree.slot kids 0) (Tree.slot kids' 0) () () := by
        rw [update_anywhere]
        exact hslot 0
      exact .loop ‹_› hsame hbody hsame
    · exact .ifElse ‹_› (hslot 0) hsame (hslot 1) hsame hsame (hslot 2) hsame
    · cases hkind
  · have hplain : n.kind.isStructured = false := by simpa using hkind
    exact .plain hplain hplain (sweptAll ih hall) (n.keeps_of_read hread)

theorem swept (hread : ∀ x ∈ t.nodes, x.2.kind = .localGet → read[x.2.index]? ≠ some false)
    (hsafe : safe → ∀ x ∈ t.nodes, x.2.divides = false) : Swept read safe t := by
  induction t with
  | absent =>
    intro t' h
    cases h
    exact .absent
  | dangling => exact fun h => by cases h
  | endless => exact fun h => by cases h
  | node r n kids ih =>
    have ih : ∀ k ∈ kids, Swept read safe (k ()) := fun k hk => by
      refine ih k hk (fun x hx => hread x (Tree.mem_nodes_of_kid hk hx)) ?_
      exact fun hs x hx => hsafe hs x (Tree.mem_nodes_of_kid hk hx)
    intro t' h
    cases h with
    | node hall hchange =>
    cases hchange with
    | kept => exact follows_kept ih (hread (r, n) (by simp [Tree.nodes])) hall
    | removed hwrite hunread heq hremains =>
      subst heq
      cases hall with
      | @cons kid _ _ _ hkid hnil =>
      cases hnil
      refine .removed (ih kid (by simp) hkid) (Node.skips_of_unread hwrite hunread)
        (hremains.of_safe ?_)
      rintro hs ⟨x, hx, hdivides⟩
      have hnone := lasting_divides.swept hkid
        (fun x hx => hsafe hs x (Tree.mem_nodes_of_kid (by simp) hx)) x hx
      rw [hnone] at hdivides
      cases hdivides

end LocalFlow
