import Mathlib
import LocalFlow.Proofs.Graph.Recording

/-! What is complete stays as it is. While a graph is made, items and edges are added at the block that is
being filled only, and edges lead to blocks only that are pending or that a branch may aim at. So a block
that was left keeps its items and its successors, and a block that nothing aims at its predecessors. -/

namespace LocalFlow

open LocalFlow.Graph

namespace Graph

variable {α : Type} {g final : Graph α} {b c : Nat} {pending pending' aims aims' : List Nat}
  {r : Ref}

theorem pred_eq_nil (h : g.size ≤ b) : g.pred b = [] := by
  simp [pred, Array.getElem?_eq_none h]

theorem succ_link_of_ne (hc : c < g.size) {x : Nat} (hx : x ≠ c) :
    (g.link c b).succ x = g.succ x := by
  rw [succ_link hc, if_neg fun hcase => hx hcase.1]

theorem pred_link_of_ne (hb : b < g.size) {x : Nat} (hx : x ≠ b) :
    (g.link c b).pred x = g.pred x := by
  rw [pred_link hb, if_neg fun hcase => hx hcase.1]

/-- What is later done to a graph does not concern blocks that are neither being filled nor pending, and
leads to no block but those that are aimed at. -/
structure Keeps (final g : Graph α) (c : Nat) (pending aims : List Nat) : Prop where
  items_eq : ∀ {b}, b < g.size → b ≠ c → b ∉ pending → final.items b = g.items b
  succ_eq : ∀ {b}, b < g.size → b ≠ c → b ∉ pending → final.succ b = g.succ b
  pred_eq : ∀ {b}, b < g.size → b ∉ aims → final.pred b = g.pred b

namespace Keeps

theorem mono (h : final.Keeps g c pending aims) (hpending : pending ⊆ pending')
    (haims : aims ⊆ aims') : final.Keeps g c pending' aims' :=
  ⟨fun hb hbc hp => h.items_eq hb hbc fun hmem => hp (hpending hmem),
    fun hb hbc hp => h.succ_eq hb hbc fun hmem => hp (hpending hmem),
    fun hb ha => h.pred_eq hb fun hmem => ha (haims hmem)⟩

theorem of_addBlock (h : final.Keeps (g.addBlock []).1 c (g.size :: pending) (g.size :: aims)) :
    final.Keeps g c pending aims := by
  have hlt : ∀ {b}, b < g.size → b < (g.addBlock []).1.size := fun hb => by
    rw [size_addBlock]
    exact Nat.lt_succ_of_lt hb
  have hnew : ∀ {b : Nat} {l : List Nat}, b < g.size → b ∉ l → b ∉ g.size :: l := fun hb hl => by
    rw [List.mem_cons, not_or]
    exact ⟨Nat.ne_of_lt hb, hl⟩
  refine ⟨fun hb hbc hp => ?_, fun hb hbc hp => ?_, fun hb ha => ?_⟩
  · rw [h.items_eq (hlt hb) hbc (hnew hb hp), items_addBlock, if_neg (Nat.ne_of_lt hb)]
  · rw [h.succ_eq (hlt hb) hbc (hnew hb hp), succ_addBlock]
  · rw [h.pred_eq (hlt hb) (hnew hb ha), pred_addBlock]

theorem of_link (h : final.Keeps (g.link c b) c pending aims) (hc : c < g.size) (hb : b < g.size)
    (hmem : b ∈ aims) : final.Keeps g c pending aims := by
  refine ⟨fun hx hxc hp => ?_, fun hx hxc hp => ?_, fun hx ha => ?_⟩
  · rw [h.items_eq (by simpa using hx) hxc hp, items_link]
  · rw [h.succ_eq (by simpa using hx) hxc hp, succ_link_of_ne hc hxc]
  · have hne := ne_of_mem_of_not_mem hmem ha
    rw [h.pred_eq (by simpa using hx) ha, pred_link_of_ne hb hne.symm]

theorem of_record {item : α} (h : final.Keeps (g.record c item) c pending aims) (hc : c < g.size) :
    final.Keeps g c pending aims := by
  refine ⟨fun hx hxc hp => ?_, fun hx hxc hp => ?_, fun hx ha => ?_⟩
  · rw [h.items_eq (by simpa using hx) hxc hp, items_record item hc, if_neg hxc]
  · rw [h.succ_eq (by simpa using hx) hxc hp, succ_record]
  · rw [h.pred_eq (by simpa using hx) ha, pred_record]

theorem of_setTarget {target : Target} (h : final.Keeps (g.setTarget r target) c pending aims) :
    final.Keeps g c pending aims :=
  ⟨h.items_eq, h.succ_eq, h.pred_eq⟩

theorem of_move (h : final.Keeps g b pending aims) (c : Nat) :
    final.Keeps g c (b :: pending) aims :=
  ⟨fun hx _ hp => h.items_eq hx (List.ne_of_not_mem_cons hp) (List.not_mem_of_not_mem_cons hp),
    fun hx _ hp => h.succ_eq hx (List.ne_of_not_mem_cons hp) (List.not_mem_of_not_mem_cons hp),
    h.pred_eq⟩

end Keeps

end Graph

namespace Lowering

variable {α : Type} {recorder : Ref → Option α} {s s' s₁ s₂ s₃ : Lowering α}
  {rest rest' rest₁ rest₂ rest₃ : List Nat} {b c : Nat} {scopes scopes' : List Scope} {scope : Scope}
  {label : String} {final : Graph α}

def aims (scopes : List Scope) : List Nat := scopes.filterMap Scope.target?

/-- What is done after `s` leaves those blocks alone that are complete in `s`. -/
def KeptBy (final : Graph α) (rest : List Nat) (s : Lowering α) : Prop :=
  final.Keeps s.graph s.current (waiting s.scopes ++ rest) (aims s.scopes ++ rest)

def Unlinked (rest : List Nat) (s : Lowering α) : Prop :=
  ∀ b ∈ waiting s.scopes ++ rest, s.graph.succ b = []

/-- Lowering goes on from `s` to `s'`, and leaves those blocks alone that are complete in `s`. -/
structure Passes (rest rest' : List Nat) (s s' : Lowering α) : Prop where
  sound : Sound rest' s'
  before : ∀ {final}, KeptBy final rest' s' → KeptBy final rest s
  unlinked : Unlinked rest s → Unlinked rest' s'

theorem Passes.trans (h : Passes rest₁ rest₂ s₁ s₂) (h' : Passes rest₂ rest₃ s₂ s₃) :
    Passes rest₁ rest₃ s₁ s₃ :=
  ⟨h'.sound, fun hfinal => h.before (h'.before hfinal), fun hs => h'.unlinked (h.unlinked hs)⟩

theorem mem_aims_of_labelsOf (h : labelsOf scopes label = some b) : b ∈ aims scopes := by
  induction scopes with
  | nil => cases h
  | cons scope scopes ih =>
    rw [labelsOf] at h
    by_cases hlabel : label = scope.label
    · subst hlabel
      rw [Function.update_self] at h
      exact List.mem_filterMap.mpr ⟨scope, List.mem_cons_self .., h⟩
    · rw [Function.update_of_ne hlabel] at h
      obtain ⟨other, hother, hb⟩ := List.mem_filterMap.mp (ih h)
      exact List.mem_filterMap.mpr ⟨other, .tail _ hother, hb⟩

theorem mem_aims_of_forall₂ {names : List String} {targets : List Nat}
    (h : List.Forall₂ (fun label b => labelsOf scopes label = some b) names targets) :
    ∀ b ∈ targets, b ∈ aims scopes := by
  induction h with
  | nil => simp
  | cons hb _ ih =>
    intro x hx
    rcases List.mem_cons.mp hx with rfl | hx
    · exact mem_aims_of_labelsOf hb
    · exact ih x hx

theorem waiting_subset_aims (scopes : List Scope) : waiting scopes ⊆ aims scopes := by
  intro b hb
  obtain ⟨scope, hscope, hexit⟩ := List.mem_filterMap.mp hb
  exact List.mem_filterMap.mpr ⟨scope, hscope, Scope.target?_of_exit? hexit⟩

namespace Sound

theorem aim_lt (h : Sound rest s) (hb : b ∈ aims s.scopes ++ rest) : b < s.graph.size := by
  rcases List.mem_append.mp hb with hb | hb
  · obtain ⟨scope, hscope, htarget⟩ := List.mem_filterMap.mp hb
    exact h.target_lt scope hscope b htarget
  · exact h.rest_lt hb

theorem current_not_mem (h : Sound rest s) : s.current ∉ waiting s.scopes ++ rest :=
  (List.nodup_cons.mp h.filling.nodup).1

theorem passes_refl (h : Sound rest s) : Passes rest rest s s := ⟨h, id, id⟩

theorem passes_fresh (h : Sound rest s) : Passes rest (s.graph.size :: rest) s s.fresh.1 := by
  refine ⟨h.advances_fresh.sound, fun hfinal => ?_, fun hs b hb => ?_⟩
  · exact (Keeps.mono hfinal List.perm_middle.subset List.perm_middle.subset).of_addBlock
  · simp only [fresh, succ_addBlock]
    rcases List.mem_cons.mp (List.perm_middle.subset hb) with rfl | hb
    · exact succ_eq_nil (Nat.le_refl _)
    · exact hs b hb

theorem passes_linkTo (h : Sound rest s) (hb : b ∈ aims s.scopes ++ rest)
    (hlink : s.linkTo b = .ok s') : Passes rest rest s s' := by
  have hsound := (h.advances_linkTo hlink).sound
  obtain ⟨hcurrent, hlt, rfl⟩ := linkTo_eq_ok.mp hlink
  refine ⟨hsound, fun hfinal => Keeps.of_link hfinal hcurrent hlt hb, fun hs x hx => ?_⟩
  have hne : x ≠ s.current := fun heq => h.current_not_mem (heq ▸ hx)
  exact (succ_link_of_ne hcurrent hne).trans (hs x hx)

theorem passes_moveTo (h : Sound rest s) (hp : rest.Perm (b :: rest')) :
    Passes rest rest' s (s.moveTo b) := by
  have hsub : ∀ l : List Nat, l ++ rest' ⊆ l ++ rest := fun l x hx =>
    List.mem_append.mpr ((List.mem_append.mp hx).imp_right fun hx => hp.mem_iff.mpr (.tail _ hx))
  refine ⟨(h.advances_moveTo hp).sound, fun hfinal => ?_, fun hs x hx => ?_⟩
  · refine (Keeps.of_move hfinal s.current).mono ?_ ?_
    · exact ((hp.append_left _).trans List.perm_middle).symm.subset
    · exact hsub _
  · exact hs x (hsub _ hx)

theorem clear_moveTo (hs : Unlinked rest s) (hp : rest.Perm (b :: rest')) :
    (s.moveTo b).graph.succ (s.moveTo b).current = [] :=
  hs b (List.mem_append_right _ (hp.mem_iff.mpr (List.mem_cons_self ..)))

theorem passes_linkTo_moveTo (h : Sound rest s) (hb : b ∈ rest) (hlink : s.linkTo b = .ok s')
    (hp : rest.Perm (c :: rest')) : Passes rest rest' s (s'.moveTo c) := by
  have hlinked := h.passes_linkTo (List.mem_append_right _ hb) hlink
  exact hlinked.trans (hlinked.sound.passes_moveTo hp)

theorem passes_goTo (h : Sound rest s) (hp : rest.Perm (b :: rest')) (hgo : s.goTo b = .ok s') :
    Passes rest rest' s s' := by
  obtain ⟨s₁, hlink, rfl⟩ := goTo_eq_ok.mp hgo
  exact h.passes_linkTo_moveTo (hp.mem_iff.mpr (List.mem_cons_self ..)) hlink hp

theorem passes_fork (h : Sound rest s) (hp : rest.Perm (b :: rest')) (hc : c ∈ rest)
    (hfork : s.fork b c = .ok s') : Passes rest rest' s s' := by
  obtain ⟨s₁, hfirst, s₂, hsecond, rfl⟩ := fork_eq_ok.mp hfork
  have hlinked := h.passes_linkTo
    (List.mem_append_right _ (hp.mem_iff.mpr (List.mem_cons_self ..))) hfirst
  exact hlinked.trans (hlinked.sound.passes_linkTo_moveTo hc hsecond hp)

theorem passes_openArms (h : Sound rest s) (hopen : s.openArms = .ok s') :
    Passes rest (s.fresh.1.fresh.1.graph.size :: s.fresh.1.graph.size :: rest) s s' := by
  have hthen := h.passes_fresh
  have helse := hthen.sound.passes_fresh
  have hjoin := helse.sound.passes_fresh
  exact hthen.trans (helse.trans (hjoin.trans
    (hjoin.sound.passes_fork (@List.perm_middle _ _ [_, _] _) (by simp) hopen)))

theorem passes_openArm (h : Sound rest s) (hopen : s.openArm = .ok s') :
    Passes rest (s.fresh.1.graph.size :: rest) s s' := by
  have hthen := h.passes_fresh
  have hjoin := hthen.sound.passes_fresh
  exact hthen.trans (hjoin.trans (hjoin.sound.passes_fork (.swap _ _ _) (by simp) hopen))

theorem passes_linkAll {targets : List Nat} (h : Sound rest s)
    (htargets : ∀ b ∈ targets, b ∈ aims s.scopes ++ rest)
    (hlinks : targets.foldlM linkTo s = .ok s') : Passes rest rest s s' := by
  induction targets generalizing s with
  | nil =>
    cases hlinks
    exact h.passes_refl
  | cons b targets ih =>
    obtain ⟨s₁, hlink, hlinks⟩ := foldlM_cons_eq_ok.mp hlinks
    have hfirst := h.passes_linkTo (htargets b (by simp)) hlink
    obtain ⟨-, -, rfl⟩ := linkTo_eq_ok.mp hlink
    exact hfirst.trans (ih hfirst.sound (fun x hx => htargets x (by simp [hx])) hlinks)

theorem passes_record (h : Sound rest s) {r : Ref} (hrecord : s.record recorder r = .ok s') :
    Passes rest rest s s' := by
  have hsound := (h.advances_record hrecord).sound
  rcases record_cases hrecord with ⟨-, rfl⟩ | ⟨item, -, hlt, rfl⟩
  · exact h.passes_refl
  · refine ⟨hsound, fun hfinal => Keeps.of_record hfinal hlt, fun hs x hx => ?_⟩
    rw [succ_record]
    exact hs x hx

theorem passes_setTarget (h : Sound rest s) (r : Ref) (target : Target) :
    Passes rest rest s { s with graph := s.graph.setTarget r target } :=
  ⟨(h.advances_setTarget r target).sound, fun hfinal => Keeps.of_setTarget hfinal, fun hs => hs⟩

theorem passes_moveOn (h : Sound rest s) : Passes rest rest s s.moveOn :=
  h.passes_fresh.trans (h.passes_fresh.sound.passes_moveTo (.refl _))

theorem passes_fallOn (h : Sound rest s) (hfall : s.fallOn = .ok s') : Passes rest rest s s' :=
  h.passes_fresh.trans (h.passes_fresh.sound.passes_goTo (.refl _) hfall)

theorem passes_enterBlock (h : Sound rest s) (label : String) :
    Passes rest rest s (s.enter (.block label none)) :=
  ⟨h.enterBlock label, fun hfinal => hfinal, fun hs => hs⟩

/-- The head of a loop is aimed at as long as the loop is not left, and nothing was complete that could
lead to it. -/
theorem passes_enterLoop (h : Sound rest s) {r : Ref}
    (henter : s.enterLoop r label = .ok (s', b)) : Passes rest (b :: rest) s s' := by
  obtain ⟨_, -, hsound, -⟩ := h.advances_enterLoop henter
  obtain ⟨rfl, s₁, hgo, rfl⟩ := enterLoop_eq_ok henter
  have hhead := h.passes_fresh
  have hexit := hhead.sound.passes_fresh
  have hjump := hexit.sound.passes_goTo (.swap _ _ _) hgo
  obtain ⟨s₂, hlink, rfl⟩ := goTo_eq_ok.mp hgo
  obtain ⟨hcurrent, hlt, rfl⟩ := linkTo_eq_ok.mp hlink
  refine ⟨hsound, fun hfinal => ?_, (hhead.trans (hexit.trans hjump)).unlinked⟩
  have hmove := (Keeps.of_setTarget hfinal).of_move s.current
  have hlinked := hmove.of_link hcurrent hlt (List.mem_cons_self ..)
  have hsub : ∀ l : List Nat, s.graph.size :: (l ++ s.fresh.1.graph.size :: rest) ⊆
      l ++ s.fresh.1.graph.size :: s.graph.size :: rest := fun l x hx => by
    simp only [List.mem_cons, List.mem_append] at hx ⊢
    tauto
  exact (hhead.trans hexit).before (hlinked.mono (hsub _) (hsub _))

/-- What was aimed at from inside a construct may be filled once the construct is left. -/
theorem passes_leave (h : Sound rest s) (heq : s.scopes = scope :: scopes) :
    Passes rest (scope.exit?.toList ++ rest) s { s with scopes } := by
  have hperm : (waiting s.scopes ++ rest).Perm (waiting scopes ++ (scope.exit?.toList ++ rest)) := by
    rw [heq, waiting, List.filterMap_cons, ← waiting]
    cases scope.exit? with
    | none => exact .refl _
    | some exit => exact List.perm_middle.symm
  have haims : aims scopes ++ (scope.exit?.toList ++ rest) ⊆ aims s.scopes ++ rest := by
    intro b hb
    simp only [List.mem_append, Option.mem_toList, heq, aims, List.mem_filterMap,
      List.mem_cons] at hb ⊢
    rcases hb with ⟨other, hother, hb⟩ | hb | hb
    · exact .inl ⟨other, .inr hother, hb⟩
    · exact .inl ⟨scope, .inl rfl, Scope.target?_of_exit? hb⟩
    · exact .inr hb
  refine ⟨⟨h.filling.perm hperm, fun other hother => ?_⟩, fun hfinal => ?_, fun hs b hb => ?_⟩
  · exact h.target_lt other (heq ▸ .tail _ hother)
  · exact Keeps.mono hfinal hperm.symm.subset haims
  · exact hs b (hperm.symm.subset hb)

end Sound

/-- The scopes may have got the exit `next`, which is made along with it. -/
theorem Fills.aims_subset {next : Nat} (h : Fills scopes scopes')
    (hperm : (waiting scopes').Perm (next :: waiting scopes)) :
    aims scopes' ⊆ next :: aims scopes := by
  intro b hb
  obtain ⟨scope, hscope, htarget⟩ := List.mem_filterMap.mp hb
  rcases h.target_cases hscope htarget with ⟨old, hold, htarget⟩ | hwaiting
  · exact .tail _ (List.mem_filterMap.mpr ⟨old, hold, htarget⟩)
  · rcases List.mem_cons.mp (hperm.subset hwaiting) with rfl | hwaiting
    · exact .head _
    · exact .tail _ (waiting_subset_aims scopes hwaiting)

theorem resolve_passes (h : Sound rest s) (hb : s.resolve label = .ok (s', b)) :
    Passes rest rest s s' := by
  obtain ⟨-, hfills, -, ⟨⟨scope, hscope, htarget⟩, rfl⟩ | ⟨rfl, scopes, rfl, hperm⟩⟩ :=
    resolve_cases hb
  · rw [if_pos (h.target_lt scope hscope b htarget)]
    exact h.passes_refl
  · have hfresh := h.passes_fresh
    have hpending : (waiting scopes ++ rest).Perm (waiting s.scopes ++ s.graph.size :: rest) :=
      (hperm.append_right rest).trans List.perm_middle.symm
    have haims : aims scopes ++ rest ⊆ aims s.scopes ++ s.graph.size :: rest := fun x hx =>
      List.perm_middle.symm.subset
        (List.append_subset.mpr ⟨List.Subset.trans (hfills.aims_subset hperm) (by simp), by simp⟩ hx)
    refine ⟨(resolve_advances h hb).2.sound, fun hfinal => ?_, fun hs x hx => ?_⟩
    · exact hfresh.before (Keeps.mono hfinal hpending.subset haims)
    · exact hfresh.unlinked hs x (hpending.subset hx)

theorem labelsOf_of_resolve (hb : s.resolve label = .ok (s', b)) :
    labelsOf s'.scopes label = some b :=
  (resolve_cases hb).2.2.1

theorem resolve_stays (hb : s.resolve label = .ok (s', b)) :
    s'.current = s.current ∧ s'.graph.succ s.current = s.graph.succ s.current := by
  obtain ⟨-, -, -, ⟨-, rfl⟩ | ⟨-, scopes, rfl, -⟩⟩ := resolve_cases hb
  · split
    · exact ⟨rfl, rfl⟩
    · exact ⟨rfl, succ_addBlock _⟩
  · exact ⟨rfl, succ_addBlock _⟩

theorem resolveAll_passes {names : List String} {targets : List Nat} (h : Sound rest s)
    (hr : s.resolveAll names = .ok (s', targets)) :
    Passes rest rest s s' ∧ Fills s.scopes s'.scopes ∧
      List.Forall₂ (fun label b => labelsOf s'.scopes label = some b) names targets ∧
      s'.current = s.current ∧ s'.graph.succ s.current = s.graph.succ s.current := by
  induction names generalizing s targets with
  | nil =>
    cases hr
    exact ⟨h.passes_refl, .refl _, .nil, rfl, rfl⟩
  | cons name names ih =>
    obtain ⟨⟨s₁, b⟩, hb, hr⟩ := bind_eq_ok.mp hr
    obtain ⟨⟨s₂, bs⟩, hbs, hr⟩ := bind_eq_ok.mp hr
    cases hr
    have hfirst := resolve_passes h hb
    have hfills := (resolve_cases hb).2.1
    obtain ⟨hcurrent, hsucc⟩ := resolve_stays hb
    obtain ⟨hrest, hfills', hlabels, hcurrent', hsucc'⟩ := ih hfirst.sound hbs
    refine ⟨hfirst.trans hrest, hfills.trans hfills',
      .cons (hfills'.labelsOf_le (labelsOf_of_resolve hb)) hlabels, hcurrent'.trans hcurrent, ?_⟩
    rw [← hsucc, ← hcurrent]
    exact hsucc'

theorem linkAll_stays {targets : List Nat} (h : targets.foldlM linkTo s = .ok s') :
    s'.current = s.current ∧ s'.scopes = s.scopes ∧ s'.graph.size = s.graph.size := by
  refine foldlM_keeps (P := fun x => x.current = s.current ∧ x.scopes = s.scopes ∧
    x.graph.size = s.graph.size) (fun b _ s₁ s₂ hlink hstays => ?_) h ⟨rfl, rfl, rfl⟩
  obtain ⟨-, -, rfl⟩ := linkTo_eq_ok.mp hlink
  exact ⟨hstays.1, hstays.2.1, size_link.trans hstays.2.2⟩

/-- The block that is being filled gets the targets as its successors, without repetitions. -/
theorem succ_linkAll {targets : List Nat} (h : targets.foldlM linkTo s = .ok s')
    (hclear : s.graph.succ s.current = []) :
    s'.graph.succ s.current = targets.eraseDups := by
  induction targets using List.reverseRecOn generalizing s' with
  | nil =>
    cases h
    exact hclear
  | append_singleton targets b ih =>
    rw [List.foldlM_append] at h
    obtain ⟨s₁, hlinks, h⟩ := bind_eq_ok.mp h
    obtain ⟨s₂, hlink, h⟩ := foldlM_cons_eq_ok.mp h
    cases h
    obtain ⟨hlt, -, rfl⟩ := linkTo_eq_ok.mp hlink
    rw [← (linkAll_stays hlinks).1] at ih ⊢
    rw [succ_link hlt, ih hlinks, List.eraseDups_append]
    by_cases hb : b ∈ targets
    · simp [List.removeAll, hb]
    · simp [List.removeAll, hb, List.eraseDups_cons]

theorem KeptBy.left (h : KeptBy final rest' (s.moveTo b)) (hs : Sound rest s)
    (hp : rest.Perm (b :: rest')) :
    final.items s.current = s.graph.items s.current ∧
      final.succ s.current = s.graph.succ s.current := by
  have hnot : s.current ∉ b :: (waiting s.scopes ++ rest') := fun hmem =>
    hs.current_not_mem (((hp.append_left _).trans List.perm_middle).symm.subset hmem)
  rw [List.mem_cons, not_or] at hnot
  exact ⟨h.items_eq hs.filling.current_lt hnot.1 hnot.2,
    h.succ_eq hs.filling.current_lt hnot.1 hnot.2⟩

theorem KeptBy.moveOn (h : KeptBy final rest s.moveOn) (hs : Sound rest s) :
    final.items s.current = s.graph.items s.current ∧
      final.succ s.current = s.graph.succ s.current := by
  obtain ⟨hitems, hsucc⟩ := KeptBy.left h hs.passes_fresh.sound (.refl _)
  exact ⟨hitems.trans ((silent_fresh s).items_eq _), hsucc.trans (succ_addBlock _)⟩

/-- The block behind is a new one, to which only this block leads. -/
theorem KeptBy.fallOn (h : KeptBy final rest s') (hs : Sound rest s) (hfall : s.fallOn = .ok s') :
    final.items s.current = s.graph.items s.current ∧
      final.succ s.current = s.graph.succ s.current ++ [s.graph.size] ∧
      final.pred s.graph.size = [s.current] := by
  have hgo : s.fresh.1.goTo s.graph.size = .ok s' := hfall
  obtain ⟨s₁, hlink, rfl⟩ := goTo_eq_ok.mp hgo
  have hlinked := hs.passes_fresh.sound.passes_linkTo (by simp) hlink
  have hsilent := (silent_fresh s).trans (silent_linkTo hlink)
  obtain ⟨hlt, hsize, rfl⟩ := linkTo_eq_ok.mp hlink
  have hnew : s.graph.size ∉ s.fresh.1.graph.succ s.current := fun hmem =>
    Nat.lt_irrefl _ (hs.filling.mirrored.succ_lt ((succ_addBlock _) ▸ hmem))
  obtain ⟨hitems, hsucc⟩ := KeptBy.left h hlinked.sound (.refl _)
  refine ⟨?_, ?_, ?_⟩
  · exact hitems.trans (hsilent.items_eq _)
  · refine hsucc.trans ((succ_link hlt).trans ?_)
    rw [if_pos ⟨rfl, hnew⟩]
    exact congrArg (· ++ _) (succ_addBlock _)
  · have hnot : s.graph.size ∉ aims s.scopes ++ rest := fun hmem =>
      Nat.lt_irrefl _ (hs.aim_lt hmem)
    refine (h.pred_eq (by simpa [moveTo] using hsize) hnot).trans ?_
    refine (pred_link hsize).trans ?_
    rw [if_pos ⟨rfl, hnew⟩]
    simp [fresh, pred_eq_nil (Nat.le_refl s.graph.size)]

end Lowering

end LocalFlow
