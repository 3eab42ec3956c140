import LocalFlow.Proofs.Graph.Lowering
import Mathlib.Data.List.Nodup
import Mathlib.Data.List.Perm.Subperm

/-! Lowering records every node of a tree at most once. -/

namespace LocalFlow

open LocalFlow.Graph

namespace Graph

variable {α : Type} {g : Graph α} {a b : Nat} {x : α}

def allItems (g : Graph α) : List α := g.blocks.toList.flatMap (·.items)

theorem mem_allItems : x ∈ g.allItems ↔ ∃ b, x ∈ g.items b := by
  simp only [allItems, List.mem_flatMap, Array.mem_toList_iff, items]
  constructor
  · rintro ⟨block, hblock, hx⟩
    obtain ⟨b, hb⟩ := Array.mem_iff_getElem?.mp hblock
    exact ⟨b, by simpa [hb] using hx⟩
  · rintro ⟨b, hx⟩
    cases hb : g.blocks[b]? with
    | none => simp [hb] at hx
    | some block => exact ⟨block, Array.mem_of_getElem? hb, by simpa [hb] using hx⟩

theorem flatMap_modify_eq {blocks : List (Block α)} {f : Block α → Block α} {i : Nat}
    (hf : ∀ block, (f block).items = block.items) :
    (blocks.modify i f).flatMap (·.items) = blocks.flatMap (·.items) := by
  induction blocks generalizing i with
  | nil => simp
  | cons block blocks ih =>
    cases i with
    | zero => simp [hf]
    | succ i => simp [ih]

@[simp]
theorem allItems_addBlock (items : List α) : (g.addBlock items).1.allItems = g.allItems ++ items := by
  simp [allItems, addBlock]

@[simp]
theorem allItems_link : (g.link a b).allItems = g.allItems := by
  unfold link
  split
  · rfl
  · simp only [allItems, Array.toList_modify]
    rw [flatMap_modify_eq, flatMap_modify_eq]
    · exact fun _ => rfl
    · exact fun _ => rfl

theorem allItems_record_subperm (b : Nat) (item : α) :
    (g.record b item).allItems.Subperm (g.allItems ++ [item]) := by
  simp only [allItems, record, Array.toList_modify]
  generalize g.blocks.toList = blocks
  induction blocks generalizing b with
  | nil => simp
  | cons block blocks ih =>
    cases b with
    | zero =>
      simp only [List.modify_zero_cons, List.flatMap_cons, List.append_assoc]
      exact (List.perm_append_comm.append_left block.items).subperm
    | succ b =>
      simp only [List.modify_succ_cons, List.flatMap_cons, List.append_assoc]
      exact (List.subperm_append_left block.items).mpr (ih b)

theorem eq_of_mem_items (h : g.allItems.Nodup) (ha : x ∈ g.items a) (hb : x ∈ g.items b) :
    a = b := by
  have hdisjoint := (List.nodup_flatMap.mp h).2
  rw [List.pairwise_iff_getElem] at hdisjoint
  have hlta := lt_size_of_mem_items ha
  have hltb := lt_size_of_mem_items hb
  simp only [items, Array.getElem?_eq_getElem hlta, Array.getElem?_eq_getElem hltb,
    Option.map_some, Option.getD_some] at ha hb
  rcases Nat.lt_trichotomy a b with hab | hab | hab
  · exact absurd hb (hdisjoint a b hlta hltb hab ha)
  · exact hab
  · exact absurd ha (hdisjoint b a hltb hlta hab hb)

theorem nodup_items (h : g.allItems.Nodup) (b : Nat) : (g.items b).Nodup := by
  unfold items
  cases hb : g.blocks[b]? with
  | none => simp
  | some block => exact (List.nodup_flatMap.mp h).1 block (by simpa using Array.mem_of_getElem? hb)

end Graph

def Tree.kept {α : Type} (recorder : Ref → Option α) (t : Tree) : List α :=
  t.nodes.filterMap fun x => recorder x.1

def Tree.keptAll {α : Type} (recorder : Ref → Option α) (ts : List (Unit → Tree)) : List α :=
  (Tree.nodesAll ts).filterMap fun x => recorder x.1

theorem Tree.kept_slots_sublist {α : Type} (recorder : Ref → Option α)
    (kids : List (Unit → Tree)) :
    ((slot kids 0).kept recorder ++ ((slot kids 1).kept recorder ++
      (slot kids 2).kept recorder)).Sublist (keptAll recorder kids) := by
  simp only [kept, keptAll, ← List.filterMap_append]
  refine List.Sublist.filterMap _ ?_
  match kids with
  | [] => simp [slot, nodesAll]
  | [a] => simp [slot, nodesAll]
  | [a, b] => simp [slot, nodesAll]
  | a :: b :: c :: rest => simp [slot, nodesAll]

namespace Lowering

variable {α : Type} {recorder : Ref → Option α} {s s' s₁ s₂ s₃ : Lowering α} {b : Nat}
  {added added₁ added₂ : List α} {r : Ref} {n : Node} {kids : List (Unit → Tree)}

/-- On the way from `s` to `s'` no more than the given items are recorded. -/
def Adds (added : List α) (s s' : Lowering α) : Prop :=
  s'.graph.allItems.Subperm (s.graph.allItems ++ added)

theorem Adds.refl (s : Lowering α) : Adds [] s s := by
  rw [Adds, List.append_nil]

theorem Adds.congr_left (h : Adds added s₁ s') (heq : s₁.graph.allItems = s.graph.allItems) :
    Adds added s s' := by
  rwa [Adds, heq] at h

theorem Adds.congr_right (h : Adds added s s₁) (heq : s'.graph.allItems = s₁.graph.allItems) :
    Adds added s s' := by
  rwa [Adds, heq]

theorem Adds.trans (h : Adds added₁ s₁ s₂) (h' : Adds added₂ s₂ s₃) :
    Adds (added₁ ++ added₂) s₁ s₃ := by
  have := List.Subperm.trans h' ((List.subperm_append_right added₂).mpr h)
  rwa [List.append_assoc] at this

theorem Adds.mono (h : Adds added₁ s s') (hsub : added₁.Sublist added₂) : Adds added₂ s s' :=
  List.Subperm.trans h ((List.subperm_append_left _).mpr hsub.subperm)

theorem adds_record (h : s.record recorder r = .ok s') : Adds (recorder r).toList s s' := by
  rcases record_cases h with ⟨-, rfl⟩ | ⟨item, hitem, -, rfl⟩
  · exact (Adds.refl s').mono (List.nil_sublist _)
  · rw [hitem]
    exact allItems_record_subperm _ _

theorem allItems_fresh : s.fresh.1.graph.allItems = s.graph.allItems := by
  simp [fresh]

theorem allItems_linkTo (h : s.linkTo b = .ok s') : s'.graph.allItems = s.graph.allItems := by
  obtain ⟨-, -, rfl⟩ := linkTo_eq_ok.mp h
  exact allItems_link

theorem allItems_goTo (h : s.goTo b = .ok s') : s'.graph.allItems = s.graph.allItems := by
  obtain ⟨s₁, hlink, rfl⟩ := goTo_eq_ok.mp h
  have hitems := allItems_linkTo hlink
  exact hitems

theorem allItems_fork {c : Nat} (h : s.fork b c = .ok s') :
    s'.graph.allItems = s.graph.allItems := by
  obtain ⟨s₁, hfirst, s₂, hsecond, rfl⟩ := fork_eq_ok.mp h
  exact (allItems_linkTo hsecond).trans (allItems_linkTo hfirst)

theorem allItems_moveOn : s.moveOn.graph.allItems = s.graph.allItems := allItems_fresh

theorem allItems_fallOn (h : s.fallOn = .ok s') : s'.graph.allItems = s.graph.allItems :=
  (allItems_goTo h).trans allItems_fresh

theorem allItems_openArms (h : s.openArms = .ok s') : s'.graph.allItems = s.graph.allItems :=
  (allItems_fork h).trans (allItems_fresh.trans (allItems_fresh.trans allItems_fresh))

theorem allItems_openArm (h : s.openArm = .ok s') : s'.graph.allItems = s.graph.allItems :=
  (allItems_fork h).trans (allItems_fresh.trans allItems_fresh)

theorem allItems_leaveBlock (h : s.leaveBlock r = .ok s') :
    s'.graph.allItems = s.graph.allItems := by
  obtain ⟨_, scopes, out, -, ⟨-, rfl⟩ | ⟨exit, -, hgo⟩, rfl⟩ := leaveBlock_cases h
  · rfl
  · have hitems := allItems_goTo hgo
    exact hitems

theorem allItems_enterLoop {label : String} (h : s.enterLoop r label = .ok (s', b)) :
    s'.graph.allItems = s.graph.allItems := by
  obtain ⟨-, s₁, hgo, rfl⟩ := enterLoop_eq_ok h
  exact (allItems_goTo hgo).trans (allItems_fresh.trans allItems_fresh)

theorem allItems_leaveLoop (h : s.leaveLoop b = .ok s') : s'.graph.allItems = s.graph.allItems := by
  obtain ⟨_, _, -, hgo⟩ := leaveLoop_eq_ok.mp h
  have hitems := allItems_goTo hgo
  exact hitems

theorem allItems_linkAll {targets : List Nat} (h : targets.foldlM linkTo s = .ok s') :
    s'.graph.allItems = s.graph.allItems :=
  foldlM_keeps (P := fun x => x.graph.allItems = s.graph.allItems)
    (fun _ _ _ _ hlink heq => (allItems_linkTo hlink).trans heq) h rfl

theorem allItems_resolve {label : String} (h : s.resolve label = .ok (s', b)) :
    s'.graph.allItems = s.graph.allItems := by
  obtain ⟨-, -, -, ⟨-, rfl⟩ | ⟨-, scopes, rfl, -⟩⟩ := resolve_cases h
  · split <;> simp [fresh]
  · simp [fresh]

theorem allItems_resolveAll {names : List String} {targets : List Nat}
    (h : s.resolveAll names = .ok (s', targets)) : s'.graph.allItems = s.graph.allItems := by
  induction names generalizing s targets with
  | nil =>
    cases h
    rfl
  | cons name names ih =>
    obtain ⟨⟨s₁, b⟩, hb, h⟩ := bind_eq_ok.mp h
    obtain ⟨⟨s₂, bs⟩, hbs, h⟩ := bind_eq_ok.mp h
    cases h
    exact (ih hbs).trans (allItems_resolve hb)

/-- Lowering the tree records no more than what is kept of its nodes. -/
def Frugal (recorder : Ref → Option α) (t : Tree) : Prop :=
  ∀ {s s'}, visit recorder t s = .ok s' → Adds (t.kept recorder) s s'

theorem frugal_slot (hkids : ∀ k ∈ kids, Frugal recorder (k ())) (i : Nat) :
    Frugal recorder (Tree.slot kids i) := by
  apply Tree.slot_of_kids hkids
  intro s s' h
  cases h
  exact .refl _

theorem visitAll_adds (hkids : ∀ k ∈ kids, Frugal recorder (k ()))
    (h : visitAll recorder kids s = .ok s') : Adds (Tree.keptAll recorder kids) s s' := by
  induction kids generalizing s with
  | nil =>
    cases h
    exact .refl _
  | cons k kids ih =>
    obtain ⟨s₁, hk, h⟩ := bind_eq_ok.mp h
    have := (hkids k (by simp) hk).trans (ih (fun k hk => hkids k (by simp [hk])) h)
    rwa [Tree.kept, Tree.keptAll, ← List.filterMap_append] at this

/-- A block, loop or if adds what its children add. -/
theorem Adds.structured (h : Adds added s s')
    (hsub : added.Sublist (Tree.keptAll recorder kids)) :
    Adds (Tree.kept recorder (.node r n kids)) s s' := by
  refine h.mono (hsub.trans ?_)
  rw [Tree.kept, Tree.nodes, List.filterMap_append]
  exact List.sublist_append_left _ _

theorem Adds.plain (h : Adds (Tree.keptAll recorder kids ++ (recorder r).toList) s s') :
    Adds (Tree.kept recorder (.node r n kids)) s s' := by
  refine h.mono ?_
  rw [Tree.kept, Tree.nodes, List.filterMap_append, Tree.keptAll]
  cases hr : recorder r <;> simp [hr]

theorem placed_adds (h : Placed recorder r n s s') : Adds (recorder r).toList s s' := by
  cases h with
  | br _ _ h hrecord hlink =>
    refine ((adds_record hrecord).congr_left (allItems_resolve h)).congr_right ?_
    exact allItems_moveOn.trans (allItems_linkTo hlink)
  | brIf _ _ h hrecord hlink hfall =>
    refine ((adds_record hrecord).congr_left (allItems_resolve h)).congr_right ?_
    exact (allItems_fallOn hfall).trans (allItems_linkTo hlink)
  | brTable _ h hrecord hlinks =>
    refine ((adds_record hrecord).congr_left (allItems_resolveAll h)).congr_right ?_
    exact allItems_moveOn.trans (allItems_linkAll hlinks)
  | leaving _ hrecord => exact (adds_record hrecord).congr_right allItems_moveOn
  | going _ hrecord => exact adds_record hrecord

theorem frugal (recorder : Ref → Option α) (t : Tree) : Frugal recorder t := by
  induction t with
  | absent =>
    intro s s' h
    cases h
    exact .refl _
  | dangling => exact fun h => by cases h
  | endless => exact fun h => by cases h
  | node r n kids ih =>
    intro s s' h
    have hslots := Tree.kept_slots_sublist recorder kids
    cases visited_of_visit h with
    | block _ h₁ hleave =>
      have hitems : Adds _ s _ := (visitAll_adds ih h₁).congr_left rfl
      exact (hitems.congr_right (allItems_leaveBlock hleave)).structured (.refl _)
    | loop _ henter h₁ hleave =>
      have hbody := (frugal_slot ih 0 h₁).congr_left (allItems_enterLoop henter)
      exact (hbody.congr_right (allItems_leaveLoop hleave)).structured
        ((List.sublist_append_left _ _).trans hslots)
    | ifElse _ _ h₁ hopen h₂ hlink h₃ hgo =>
      have hthen := (frugal_slot ih 1 h₂).congr_left (allItems_openArms hopen)
      have hlinked := allItems_linkTo hlink
      have helse := (frugal_slot ih 2 h₃).congr_left hlinked
      have hboth := (frugal_slot ih 0 h₁).trans (hthen.trans helse)
      exact (hboth.structured hslots).congr_right (allItems_goTo hgo)
    | ifThen _ _ h₁ hopen h₂ hgo =>
      have hthen := (frugal_slot ih 1 h₂).congr_left (allItems_openArm hopen)
      have hboth := (frugal_slot ih 0 h₁).trans hthen
      exact (hboth.structured ((List.Sublist.append_left (List.sublist_append_left _ _) _).trans
        hslots)).congr_right (allItems_goTo hgo)
    | plain _ h₁ hplaced => exact ((visitAll_adds ih h₁).trans (placed_adds hplaced)).plain

end Lowering

theorem Function.lower_allItems_subperm {α : Type} {fn : Function} {root : Ref}
    {recorder : Ref → Option α} {g : Graph α} (h : fn.lower root recorder = .ok g) :
    g.allItems.Subperm ((fn.tree root).kept recorder) := by
  obtain ⟨s, hs, h⟩ := bind_eq_ok.mp h
  cases h
  exact Lowering.frugal recorder _ hs

end LocalFlow
