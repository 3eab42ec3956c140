import LocalFlow.Proofs.Graph.Stages
import Mathlib.Data.List.Nodup

/-! Lowering a tree makes a graph in which the tree lies. While a graph grows, its blocks are of three
sorts: one is being filled, some are waiting to be filled, and all others are as they will be in the
end. -/

namespace LocalFlow

open LocalFlow.Graph

namespace Graph

variable {α : Type} {g g' final : Graph α} {a b c : Nat} {pending pending' : List Nat}

/-- Block `c` is being filled, and the pending blocks, which are empty, will be filled later. -/
structure Filling (g : Graph α) (c : Nat) (pending : List Nat) : Prop where
  current_lt : c < g.size
  pending_lt : ∀ b ∈ pending, b < g.size
  nodup : (c :: pending).Nodup
  items_eq_nil : ∀ b ∈ pending, g.items b = []
  mirrored : g.Mirrored

/-- The graph in the end has the edges of `g`, and differs from it in the items of `c` and of the
pending blocks only. -/
structure Completes (final g : Graph α) (c : Nat) (pending : List Nat) : Prop where
  succ_subset : ∀ {a b}, b ∈ g.succ a → b ∈ final.succ a
  items_current : g.items c <+: final.items c
  items_eq : ∀ {b}, b < g.size → b ≠ c → b ∉ pending → final.items b = g.items b

namespace Filling

theorem perm (h : g.Filling c pending) (hp : pending.Perm pending') : g.Filling c pending' :=
  ⟨h.current_lt, fun b hb => h.pending_lt b (hp.mem_iff.mpr hb), (hp.cons c).nodup_iff.mp h.nodup,
    fun b hb => h.items_eq_nil b (hp.mem_iff.mpr hb), h.mirrored⟩

theorem ne_of_mem (h : g.Filling c pending) (hb : b ∈ pending) : c ≠ b := by
  rintro rfl
  exact (List.nodup_cons.mp h.nodup).1 hb

theorem addBlock (h : g.Filling c pending) :
    (g.addBlock []).1.Filling c (g.size :: pending) := by
  have hnew : g.size ∉ pending := fun hmem => Nat.lt_irrefl _ (h.pending_lt _ hmem)
  have hnodup := List.nodup_cons.mp h.nodup
  refine ⟨?_, ?_, ?_, ?_, h.mirrored.addBlock []⟩
  · rw [size_addBlock]
    exact Nat.lt_succ_of_lt h.current_lt
  · intro b hb
    rw [size_addBlock]
    rcases List.mem_cons.mp hb with rfl | hb
    · exact Nat.lt_succ_self _
    · exact Nat.lt_succ_of_lt (h.pending_lt b hb)
  · refine List.nodup_cons.mpr ⟨?_, List.nodup_cons.mpr ⟨hnew, hnodup.2⟩⟩
    rw [List.mem_cons, not_or]
    exact ⟨Nat.ne_of_lt h.current_lt, hnodup.1⟩
  · intro b hb
    rw [items_addBlock]
    rcases List.mem_cons.mp hb with rfl | hb
    · exact if_pos rfl
    · rw [if_neg (Nat.ne_of_lt (h.pending_lt b hb)), h.items_eq_nil b hb]

theorem link (h : g.Filling c pending) (hb : b < g.size) : (g.link c b).Filling c pending :=
  ⟨by simpa using h.current_lt, by simpa using h.pending_lt, h.nodup,
    by simpa using h.items_eq_nil, h.mirrored.link h.current_lt hb⟩

theorem record (h : g.Filling c pending) (item : α) : (g.record c item).Filling c pending := by
  refine ⟨by simpa using h.current_lt, by simpa using h.pending_lt, h.nodup, fun b hb => ?_,
    h.mirrored.record c item⟩
  rw [items_record item h.current_lt, if_neg (h.ne_of_mem hb).symm]
  exact h.items_eq_nil b hb

theorem move (h : g.Filling c (b :: pending)) : g.Filling b pending :=
  ⟨h.pending_lt b (by simp), fun x hx => h.pending_lt x (by simp [hx]), h.nodup.of_cons,
    fun x hx => h.items_eq_nil x (by simp [hx]), h.mirrored⟩

end Filling

namespace Completes

theorem perm (h : final.Completes g c pending) (hp : pending.Perm pending') :
    final.Completes g c pending' :=
  ⟨h.succ_subset, h.items_current,
    fun hb hbc hpend => h.items_eq hb hbc fun hmem => hpend (hp.mem_iff.mp hmem)⟩

theorem of_addBlock (h : final.Completes (g.addBlock []).1 c (g.size :: pending))
    (hc : c < g.size) : final.Completes g c pending := by
  refine ⟨fun hb => h.succ_subset (by simpa using hb), ?_, fun {b} hb hbc hpend => ?_⟩
  · have := h.items_current
    rwa [items_addBlock, if_neg (Nat.ne_of_lt hc)] at this
  · have hne := Nat.ne_of_lt hb
    rw [h.items_eq (by rw [size_addBlock]; omega) hbc (by simp [hne, hpend]), items_addBlock,
      if_neg hne]

theorem of_link (h : final.Completes (g.link c b) c pending) (hc : c < g.size) :
    final.Completes g c pending :=
  ⟨fun hb => h.succ_subset ((mem_succ_link hc).mpr (.inl hb)), by simpa using h.items_current,
    fun hb hbc hpend => by simpa using h.items_eq (by simpa using hb) hbc hpend⟩

theorem of_record {item : α} (h : final.Completes (g.record c item) c pending) (hc : c < g.size) :
    final.Completes g c pending := by
  refine ⟨fun hb => h.succ_subset (by simpa using hb), ?_, fun {b} hb hbc hpend => ?_⟩
  · have := h.items_current
    rw [items_record item hc, if_pos rfl] at this
    exact (List.prefix_append _ _).trans this
  · rw [h.items_eq (by simpa using hb) hbc hpend, items_record item hc, if_neg hbc]

/-- Once another block is being filled, the items of a block that is not pending are complete. -/
theorem items_eq_of_move (h : final.Completes g b pending) (hf : g.Filling c (b :: pending)) :
    final.items c = g.items c := by
  have hnot := (List.nodup_cons.mp hf.nodup).1
  rw [List.mem_cons, not_or] at hnot
  exact h.items_eq hf.current_lt hnot.1 hnot.2

theorem of_move (h : final.Completes g b pending) (hf : g.Filling c (b :: pending)) :
    final.Completes g c (b :: pending) := by
  refine ⟨h.succ_subset, ?_, fun {x} hx hxc hpend => ?_⟩
  · exact ⟨[], by rw [List.append_nil, h.items_eq_of_move hf]⟩
  · rw [List.mem_cons, not_or] at hpend
    exact h.items_eq hx hpend.1 hpend.2

end Completes

end Graph

namespace Lowering

section States

variable {α : Type} {recorder : Ref → Option α} {s s' s₁ s₂ s₃ : Lowering α}
  {rest rest' rest₁ rest₂ rest₃ : List Nat} {b c : Nat}

def point (s : Lowering α) : Point := (s.current, (s.graph.items s.current).length)

/-- The exits of the enclosing blocks and the blocks in `rest` are pending, and the targets of all
enclosing constructs exist. -/
structure Sound (rest : List Nat) (s : Lowering α) : Prop where
  filling : s.graph.Filling s.current (waiting s.scopes ++ rest)
  target_lt : ∀ scope ∈ s.scopes, ∀ b, scope.target? = some b → b < s.graph.size

/-- The given graph is the one that lowering makes in the end, if it goes on from `s`. -/
def CompletedBy (final : Graph α) (rest : List Nat) (s : Lowering α) : Prop :=
  final.Completes s.graph s.current (waiting s.scopes ++ rest)

/-- Lowering goes on from `s` to `s'`. In every graph that this may lead to, with the labels that are
in scope then, the points of the two states are related. -/
structure Advances (rest rest' : List Nat) (related : Graph α → Labels → Point → Point → Prop)
    (s s' : Lowering α) : Prop where
  sound : Sound rest' s'
  fills : Fills s.scopes s'.scopes
  size_le : s.graph.size ≤ s'.graph.size
  entry_eq : s'.graph.entry = s.graph.entry
  before : ∀ {final}, CompletedBy final rest' s' → CompletedBy final rest s
  related : ∀ {final labels}, CompletedBy final rest' s' →
    (∀ label b, labelsOf s'.scopes label = some b → labels label = some b) →
    related final labels s.point s'.point

variable {related related' related₁ related₂ : Graph α → Labels → Point → Point → Prop}

theorem Advances.imp (h : Advances rest rest' related s s')
    (himp : ∀ final labels p q, related final labels p q → related' final labels p q) :
    Advances rest rest' related' s s' :=
  ⟨h.sound, h.fills, h.size_le, h.entry_eq, h.before,
    fun hfinal hlabels => himp _ _ _ _ (h.related hfinal hlabels)⟩

theorem Advances.trans (h : Advances rest₁ rest₂ related₁ s₁ s₂)
    (h' : Advances rest₂ rest₃ related₂ s₂ s₃) :
    Advances rest₁ rest₃ (fun final labels p q =>
      ∃ m, related₁ final labels p m ∧ related₂ final labels m q) s₁ s₃ :=
  ⟨h'.sound, h.fills.trans h'.fills, Nat.le_trans h.size_le h'.size_le,
    h'.entry_eq.trans h.entry_eq, fun hfinal => h.before (h'.before hfinal),
    fun hfinal hlabels => ⟨s₂.point,
      h.related (h'.before hfinal) fun label b hb => hlabels label b (h'.fills.labelsOf_le hb),
      h'.related hfinal hlabels⟩⟩

namespace Sound

theorem advances_refl (h : Sound rest s) : Advances rest rest (fun _ _ p q => q = p) s s :=
  ⟨h, .refl _, .refl, rfl, id, fun _ _ => rfl⟩

theorem rest_lt (h : Sound rest s) (hb : b ∈ rest) : b < s.graph.size :=
  h.filling.pending_lt b (List.mem_append_right _ hb)

theorem advances_fresh (h : Sound rest s) :
    Advances rest (s.graph.size :: rest) (fun _ _ p q => q = p) s s.fresh.1 := by
  refine ⟨⟨h.filling.addBlock.perm List.perm_middle.symm, fun scope hscope b hb => ?_⟩, .refl _,
    by simp [fresh], rfl, fun hfinal => ?_, fun _ _ => ?_⟩
  · simpa [fresh] using Nat.lt_succ_of_lt (h.target_lt scope hscope b hb)
  · exact (Completes.perm hfinal List.perm_middle).of_addBlock h.filling.current_lt
  · simp only [point, fresh, items_addBlock, if_neg (Nat.ne_of_lt h.filling.current_lt)]

theorem advances_linkTo (h : Sound rest s) (hlink : s.linkTo b = .ok s') :
    Advances rest rest (fun final _ p q => q = p ∧ b ∈ final.succ p.1) s s' := by
  obtain ⟨-, hb, rfl⟩ := linkTo_eq_ok.mp hlink
  refine ⟨⟨h.filling.link hb, ?_⟩, .refl _, by simp, entry_link, fun hfinal => ?_,
    fun hfinal _ => ⟨?_, ?_⟩⟩
  · simpa using h.target_lt
  · exact Completes.of_link hfinal h.filling.current_lt
  · simp [point]
  · exact hfinal.succ_subset ((mem_succ_link h.filling.current_lt).mpr (.inr ⟨rfl, rfl⟩))

/-- The block that was being filled is complete once another one is filled. -/
theorem advances_moveTo (h : Sound rest s) (hp : rest.Perm (b :: rest')) :
    Advances rest rest' (fun final _ p q => p.2 = (final.items p.1).length ∧ q = (b, 0)) s
      (s.moveTo b) := by
  have hperm : (waiting s.scopes ++ rest).Perm (b :: (waiting s.scopes ++ rest')) :=
    (hp.append_left _).trans List.perm_middle
  have hfill := h.filling.perm hperm
  refine ⟨⟨hfill.move, h.target_lt⟩, .refl _, .refl, rfl, fun hfinal => ?_,
    fun hfinal _ => ⟨?_, ?_⟩⟩
  · exact (Completes.of_move hfinal hfill).perm hperm.symm
  · exact congrArg List.length (Completes.items_eq_of_move hfinal hfill).symm
  · simp [point, moveTo, hfill.items_eq_nil b (by simp)]

/-- Control goes on from the block that was being filled to block `b`, and block `c` is filled
next. -/
theorem advances_linkTo_moveTo (h : Sound rest s) (hlink : s.linkTo b = .ok s')
    (hp : rest.Perm (c :: rest')) :
    Advances rest rest' (fun final _ p q => final.Jumps p b ∧ q = (c, 0)) s (s'.moveTo c) := by
  have hlinked := h.advances_linkTo hlink
  refine (hlinked.trans (hlinked.sound.advances_moveTo hp)).imp ?_
  rintro final labels p q ⟨_, ⟨rfl, hsucc⟩, hend, rfl⟩
  exact ⟨⟨hend, hsucc⟩, rfl⟩

theorem advances_goTo (h : Sound rest s) (hp : rest.Perm (b :: rest')) (hgo : s.goTo b = .ok s') :
    Advances rest rest' (fun final _ p q => final.Jumps p b ∧ q = (b, 0)) s s' := by
  obtain ⟨s₁, hlink, rfl⟩ := goTo_eq_ok.mp hgo
  exact h.advances_linkTo_moveTo hlink hp

/-- Control goes on to one of two blocks, of which the first is filled next. -/
theorem advances_fork (h : Sound rest s) (hp : rest.Perm (b :: rest')) (hfork : s.fork b c = .ok s') :
    Advances rest rest' (fun final _ p q => final.Jumps p b ∧ final.Jumps p c ∧ q = (b, 0)) s s' := by
  obtain ⟨s₁, hfirst, s₂, hsecond, rfl⟩ := fork_eq_ok.mp hfork
  have hlinked := h.advances_linkTo hfirst
  refine (hlinked.trans (hlinked.sound.advances_linkTo_moveTo hsecond hp)).imp ?_
  rintro final labels p q ⟨_, ⟨rfl, hsucc⟩, hjump, rfl⟩
  exact ⟨⟨hjump.1, hsucc⟩, hjump, rfl⟩

theorem advances_record (h : Sound rest s) {r : Ref} (hrecord : s.record recorder r = .ok s') :
    Advances rest rest (fun final _ p q => final.Records recorder r p q) s s' := by
  rcases record_cases hrecord with ⟨hr, rfl⟩ | ⟨item, hr, hlt, rfl⟩
  · simp only [Records, hr]
    exact h.advances_refl
  · simp only [Records, hr]
    refine ⟨⟨h.filling.record item, by simpa using h.target_lt⟩, .refl _, by simp, rfl,
      fun hfinal => Completes.of_record hfinal hlt, fun hfinal _ => ?_⟩
    obtain ⟨later, hlater⟩ := hfinal.items_current
    rw [items_record item hlt, if_pos rfl] at hlater
    simp [point, ← hlater, items_record item hlt]

end Sound

theorem resolve_advances (h : Sound rest s) {label : String}
    (hb : s.resolve label = .ok (s', b)) :
    b < s'.graph.size ∧ Advances rest rest
      (fun _ labels p q => q = p ∧ label ≠ "" ∧ labels label = some b) s s' := by
  obtain ⟨hlabel, hfills, htarget, hcases⟩ := resolve_cases hb
  rcases hcases with ⟨⟨scope, hscope, hold⟩, hs'⟩ | ⟨rfl, scopes, rfl, hperm⟩
  · have hlt := h.target_lt scope hscope b hold
    rw [if_pos hlt] at hs'
    subst hs'
    exact ⟨hlt, h, .refl _, .refl, rfl, id, fun _ hlabels => ⟨rfl, hlabel, hlabels _ _ htarget⟩⟩
  · have hpending : (waiting s.scopes ++ s.graph.size :: rest).Perm (waiting scopes ++ rest) :=
      List.perm_middle.trans (hperm.symm.append_right rest)
    have hfresh := h.advances_fresh
    have hfilling := hfresh.sound.filling.perm hpending
    refine ⟨by simp [fresh], ⟨hfilling, fun scope hscope b hb => ?_⟩, hfills, hfresh.size_le, rfl,
      fun hfinal => ?_, fun hfinal hlabels => ⟨?_, hlabel, hlabels _ _ htarget⟩⟩
    · rcases hfills.target_cases hscope hb with ⟨old, hold, hb⟩ | hb
      · exact hfresh.sound.target_lt old hold b hb
      · exact hfilling.pending_lt b (List.mem_append_left _ hb)
    · exact hfresh.before (Completes.perm hfinal hpending.symm)
    · exact hfresh.related (Completes.perm hfinal hpending.symm) fun _ _ hb => hb

theorem resolveAll_advances {names : List String} {targets : List Nat} (h : Sound rest s)
    (hr : s.resolveAll names = .ok (s', targets)) :
    (∀ b ∈ targets, b < s'.graph.size) ∧ Advances rest rest
      (fun _ labels p q => q = p ∧ ∀ label ∈ names,
        label ≠ "" ∧ ∃ b ∈ targets, labels label = some b) s s' := by
  induction names generalizing s targets with
  | nil =>
    cases hr
    exact ⟨by simp, h.advances_refl.imp fun _ _ _ _ hq => ⟨hq, by simp⟩⟩
  | cons name names ih =>
    obtain ⟨⟨s₁, b⟩, hb, hr⟩ := bind_eq_ok.mp hr
    obtain ⟨⟨s₂, bs⟩, hbs, hr⟩ := bind_eq_ok.mp hr
    cases hr
    obtain ⟨hlt, hfirst⟩ := resolve_advances h hb
    obtain ⟨hlts, hrest⟩ := ih hfirst.sound hbs
    refine ⟨?_, (hfirst.trans hrest).imp ?_⟩
    · intro x hx
      rcases List.mem_cons.mp hx with rfl | hx
      · exact Nat.lt_of_lt_of_le hlt hrest.size_le
      · exact hlts x hx
    · rintro final labels p q ⟨_, ⟨rfl, hne, hlabel⟩, rfl, hall⟩
      refine ⟨rfl, fun label hmem => ?_⟩
      rcases List.mem_cons.mp hmem with rfl | hmem
      · exact ⟨hne, b, by simp, hlabel⟩
      · obtain ⟨hne, x, hx, hlabel⟩ := hall label hmem
        exact ⟨hne, x, by simp [hx], hlabel⟩

namespace Sound

theorem advances_linkAll {targets : List Nat} (h : Sound rest s)
    (hlinks : targets.foldlM linkTo s = .ok s') :
    Advances rest rest (fun final _ p q => q = p ∧ ∀ b ∈ targets, b ∈ final.succ p.1) s s' := by
  induction targets generalizing s with
  | nil =>
    cases hlinks
    exact h.advances_refl.imp fun _ _ _ _ hq => ⟨hq, by simp⟩
  | cons b targets ih =>
    obtain ⟨s₁, hlink, hlinks⟩ := foldlM_cons_eq_ok.mp hlinks
    have hfirst := h.advances_linkTo hlink
    refine (hfirst.trans (ih hfirst.sound hlinks)).imp ?_
    rintro final labels p q ⟨_, ⟨rfl, hb⟩, rfl, hall⟩
    exact ⟨rfl, by simpa using ⟨hb, hall⟩⟩

theorem advances_moveOn (h : Sound rest s) :
    Advances rest rest (fun final _ p _ => p.2 = (final.items p.1).length) s s.moveOn := by
  have hfresh := h.advances_fresh
  refine (hfresh.trans (hfresh.sound.advances_moveTo (.refl _))).imp ?_
  rintro final labels p q ⟨_, rfl, hend, -⟩
  exact hend

theorem advances_fallOn (h : Sound rest s) (hfall : s.fallOn = .ok s') :
    Advances rest rest (fun final _ p q => final.Jumps p q.1 ∧ q.2 = 0) s s' := by
  have hfresh := h.advances_fresh
  refine (hfresh.trans (hfresh.sound.advances_goTo (.refl _) hfall)).imp ?_
  rintro final labels p q ⟨_, rfl, hjump, rfl⟩
  exact ⟨hjump, rfl⟩

theorem advances_setTarget (h : Sound rest s) (r : Ref) (target : Target) :
    Advances rest rest (fun _ _ p q => q = p) s
      { s with graph := s.graph.setTarget r target } := by
  obtain ⟨⟨hcurrent, hpending, hnodup, hempty, hedges⟩, htargets⟩ := h
  have hedges' : (s.graph.setTarget r target).Mirrored :=
    ⟨hedges.mem_pred, hedges.succ_lt, hedges.succ_nodup, hedges.pred_nodup, hedges.eq_of_id?⟩
  exact ⟨⟨⟨hcurrent, hpending, hnodup, hempty, hedges'⟩, htargets⟩, .refl _, .refl, rfl,
    fun hfinal => ⟨hfinal.succ_subset, hfinal.items_current, hfinal.items_eq⟩, fun _ _ => rfl⟩

theorem enter (h : Sound rest s) {scope : Scope} (hexit : scope.exit? = none)
    (htarget : ∀ b, scope.target? = some b → b < s.graph.size) : Sound rest (s.enter scope) := by
  refine ⟨by simpa [Lowering.enter, waiting, hexit] using h.filling, fun other hother => ?_⟩
  rcases List.mem_cons.mp hother with rfl | hother
  · exact htarget
  · exact h.target_lt other hother

theorem enterBlock (h : Sound rest s) (label : String) : Sound rest (s.enter (.block label none)) :=
  h.enter rfl (by simp [Scope.target?])

/-- Control goes on to the head of a loop, of which the exit is pending. -/
theorem advances_enterLoop (h : Sound rest s) {r : Ref} {label : String} {exit : Nat}
    (henter : s.enterLoop r label = .ok (s', exit)) :
    ∃ inner, s' = inner.enter (.loop label s.graph.size) ∧ Sound (exit :: rest) s' ∧
      Advances rest (exit :: rest)
        (fun final _ p q => final.Jumps p s.graph.size ∧ q = (s.graph.size, 0)) s inner := by
  obtain ⟨rfl, s₁, hgo, rfl⟩ := enterLoop_eq_ok henter
  have hhead := h.advances_fresh
  have hexit := hhead.sound.advances_fresh
  have hjump := hexit.sound.advances_goTo (.swap _ _ _) hgo
  have htarget := hjump.sound.advances_setTarget r
    { exit := s.fresh.1.graph.size, restart := some s.graph.size }
  refine ⟨_, rfl, ?_, (hhead.trans (hexit.trans (hjump.trans htarget))).imp ?_⟩
  · obtain ⟨s₂, -, rfl⟩ := goTo_eq_ok.mp hgo
    exact htarget.sound.enter rfl (by rintro b ⟨⟩; exact htarget.sound.filling.current_lt)
  · rintro final labels p q ⟨_, rfl, _, rfl, _, hjump, rfl⟩
    exact hjump

theorem advances_openArms (h : Sound rest s) (hopen : s.openArms = .ok s') :
    Advances rest (s.fresh.1.fresh.1.graph.size :: s.fresh.1.graph.size :: rest)
      (fun final _ p q => final.Jumps p s.graph.size ∧ final.Jumps p s.fresh.1.graph.size ∧
        q = (s.graph.size, 0)) s s' := by
  have hthen := h.advances_fresh
  have helse := hthen.sound.advances_fresh
  have hjoin := helse.sound.advances_fresh
  have hfork := hjoin.sound.advances_fork (@List.perm_middle _ _ [_, _] _) hopen
  refine (hthen.trans (helse.trans (hjoin.trans hfork))).imp ?_
  rintro final labels p q ⟨_, rfl, _, rfl, _, rfl, hfork⟩
  exact hfork

theorem advances_openArm (h : Sound rest s) (hopen : s.openArm = .ok s') :
    Advances rest (s.fresh.1.graph.size :: rest)
      (fun final _ p q => final.Jumps p s.graph.size ∧ final.Jumps p s.fresh.1.graph.size ∧
        q = (s.graph.size, 0)) s s' := by
  have hthen := h.advances_fresh
  have hjoin := hthen.sound.advances_fresh
  have hfork := hjoin.sound.advances_fork (.swap _ _ _) hopen
  refine (hthen.trans (hjoin.trans hfork)).imp ?_
  rintro final labels p q ⟨_, rfl, _, rfl, hfork⟩
  exact hfork

end Sound

theorem Advances.leave {scope : Scope} (hexit : scope.exit? = none)
    (h : Advances rest rest' related (s.enter scope) s') :
    ∃ scope' scopes, s'.scopes = scope' :: scopes ∧ scope.Fills scope' ∧
      Advances rest (scope'.exit?.toList ++ rest') (fun final labels p q =>
        related final (Function.update labels scope.label scope'.target?) p q) s
        { s' with scopes } := by
  obtain ⟨scope', scopes, hscope, hfills, heq⟩ := List.forall₂_cons_left_iff.mp h.fills
  have hperm : (waiting s'.scopes ++ rest').Perm
      (waiting scopes ++ (scope'.exit?.toList ++ rest')) := by
    rw [heq, waiting, List.filterMap_cons, ← waiting]
    cases scope'.exit? with
    | none => exact .refl _
    | some exit => exact List.perm_middle.symm
  have henter : waiting (scope :: s.scopes) = waiting s.scopes := by
    rw [waiting, List.filterMap_cons, hexit, waiting]
  refine ⟨scope', scopes, heq, hscope, ⟨h.sound.filling.perm hperm, ?_⟩, hfills, h.size_le,
    h.entry_eq, ?_, ?_⟩
  · intro other hother
    exact h.sound.target_lt other (heq ▸ .tail _ hother)
  · intro final hfinal
    have := h.before (Completes.perm hfinal hperm.symm)
    rwa [CompletedBy, Lowering.enter, henter] at this
  · intro final labels hfinal hlabels
    refine h.related (Completes.perm hfinal hperm.symm) fun label b hb => ?_
    rw [heq, labelsOf, hscope.label_eq] at hb
    by_cases hlabel : label = scope.label
    · subst hlabel
      rwa [Function.update_self] at hb ⊢
    · rw [Function.update_of_ne hlabel] at hb ⊢
      exact hlabels label b hb

/-! In a sound state the blocks that a step names exist, so the step succeeds. -/

namespace Sound

theorem exists_linkTo (h : Sound rest s) (hb : b < s.graph.size) : ∃ s', s.linkTo b = .ok s' :=
  ⟨_, linkTo_eq_ok.mpr ⟨h.filling.current_lt, hb, rfl⟩⟩

theorem exists_fork (h : Sound rest s) (hb : b < s.graph.size) (hc : c < s.graph.size) :
    ∃ s', s.fork b c = .ok s' := by
  obtain ⟨s₁, hfirst⟩ := h.exists_linkTo hb
  have hlinked := h.advances_linkTo hfirst
  obtain ⟨s₂, hsecond⟩ := hlinked.sound.exists_linkTo (Nat.lt_of_lt_of_le hc hlinked.size_le)
  exact ⟨_, fork_eq_ok.mpr ⟨s₁, hfirst, s₂, hsecond, rfl⟩⟩

theorem exists_openArms (h : Sound rest s) : ∃ s', s.openArms = .ok s' := by
  have hmade := h.advances_fresh.sound.advances_fresh.sound.advances_fresh.sound
  exact hmade.exists_fork (hmade.rest_lt (by simp)) (hmade.rest_lt (by simp))

theorem exists_openArm (h : Sound rest s) : ∃ s', s.openArm = .ok s' := by
  have hmade := h.advances_fresh.sound.advances_fresh.sound
  exact hmade.exists_fork (hmade.rest_lt (by simp)) (hmade.rest_lt (by simp))

theorem exists_record (h : Sound rest s) (recorder : Ref → Option α) (r : Ref) :
    ∃ s', s.record recorder r = .ok s' := by
  cases hr : recorder r with
  | none => exact ⟨s, by rw [record, hr]⟩
  | some item => exact ⟨_, record_of_some h.filling.current_lt hr⟩

theorem exists_linkAll {targets : List Nat} (h : Sound rest s)
    (htargets : ∀ b ∈ targets, b < s.graph.size) : ∃ s', targets.foldlM linkTo s = .ok s' := by
  induction targets generalizing s with
  | nil => exact ⟨s, rfl⟩
  | cons b targets ih =>
    obtain ⟨s₁, hlink⟩ := h.exists_linkTo (htargets b (by simp))
    have hlinked := h.advances_linkTo hlink
    obtain ⟨s', hlinks⟩ := ih hlinked.sound fun c hc =>
      Nat.lt_of_lt_of_le (htargets c (.tail _ hc)) hlinked.size_le
    exact ⟨s', foldlM_cons_eq_ok.mpr ⟨s₁, hlink, hlinks⟩⟩

theorem exists_branch (h : Sound rest s) {label : String} (hb : s.resolve label = .ok (s₁, b))
    (recorder : Ref → Option α) (r : Ref) :
    ∃ s₂ s₃ s₄, s₁.record recorder r = .ok s₂ ∧ s₂.linkTo b = .ok s₃ ∧ s₃.fallOn = .ok s₄ := by
  obtain ⟨hlt, hresolved⟩ := resolve_advances h hb
  obtain ⟨s₂, hrecord⟩ := hresolved.sound.exists_record recorder r
  have hrecorded := hresolved.sound.advances_record hrecord
  obtain ⟨s₃, hlink⟩ := hrecorded.sound.exists_linkTo (Nat.lt_of_lt_of_le hlt hrecorded.size_le)
  have hmade := (hrecorded.sound.advances_linkTo hlink).sound.advances_fresh.sound
  obtain ⟨s₄, hfall⟩ := exists_goTo hmade.filling.current_lt (hmade.rest_lt (List.mem_cons_self ..))
  exact ⟨s₂, s₃, s₄, hrecord, hlink, hfall⟩

theorem exists_brTable (h : Sound rest s) {names : List String} {targets : List Nat}
    (hb : s.resolveAll names = .ok (s₁, targets)) (recorder : Ref → Option α) (r : Ref) :
    ∃ s₂ s₃, s₁.record recorder r = .ok s₂ ∧ targets.foldlM linkTo s₂ = .ok s₃ := by
  obtain ⟨hlt, hresolved⟩ := resolveAll_advances h hb
  obtain ⟨s₂, hrecord⟩ := hresolved.sound.exists_record recorder r
  have hrecorded := hresolved.sound.advances_record hrecord
  obtain ⟨s₃, hlinks⟩ := hrecorded.sound.exists_linkAll fun x hx =>
    Nat.lt_of_lt_of_le (hlt x hx) hrecorded.size_le
  exact ⟨s₂, s₃, hrecord, hlinks⟩

theorem exists_enterLoop (h : Sound rest s) (r : Ref) (label : String) :
    ∃ s' exit, s.enterLoop r label = .ok (s', exit) := by
  have hmade := h.advances_fresh.sound.advances_fresh.sound
  obtain ⟨s₁, hgo⟩ := exists_goTo (b := s.graph.size) hmade.filling.current_lt
    (hmade.rest_lt (by simp))
  exact ⟨_, _, bind_eq_ok.mpr ⟨s₁, hgo, rfl⟩⟩

/-- A scope that was entered is left again, through its exit or in the current block. -/
theorem exists_leaveBlock (h : Sound rest s) {scope : Scope} {scopes : List Scope}
    (hscopes : s.scopes = scope :: scopes) (r : Ref) : ∃ s', s.leaveBlock r = .ok s' := by
  have hleave : s.leave = .ok ({ s with scopes }, scope) := leave_eq_ok.mpr ⟨scopes, hscopes, rfl⟩
  have hexit : ∃ out, { s with scopes }.goToExit scope = .ok out := by
    unfold goToExit
    split
    · rename_i exit hexit
      have hmem : exit ∈ waiting s.scopes :=
        List.mem_filterMap.mpr ⟨scope, by simp [hscopes], hexit⟩
      exact exists_goTo h.filling.current_lt
        (h.filling.pending_lt exit (List.mem_append_left _ hmem))
    · exact ⟨_, rfl⟩
  obtain ⟨out, hout⟩ := hexit
  exact ⟨_, bind_eq_ok.mpr ⟨_, hleave, bind_eq_ok.mpr ⟨out, hout, rfl⟩⟩⟩

theorem exists_leaveLoop (h : Sound (b :: rest) s) {scope : Scope} {scopes : List Scope}
    (hscopes : s.scopes = scope :: scopes) : ∃ s', s.leaveLoop b = .ok s' := by
  obtain ⟨s', hgo⟩ := exists_goTo (s := { s with scopes }) h.filling.current_lt
    (h.rest_lt (List.mem_cons_self ..))
  exact ⟨s', leaveLoop_eq_ok.mpr ⟨scope, scopes, hscopes, hgo⟩⟩

end Sound

end States

section Trees

variable {α : Type} {recorder : Ref → Option α} {s s' s₁ s₂ : Lowering α} {rest : List Nat} {r : Ref}
  {n : Node} {kids : List (Unit → Tree)}

/-- Lowering the tree, wherever it happens, makes a graph in which the tree lies. -/
def Lowered (recorder : Ref → Option α) (t : Tree) : Prop :=
  ∀ {rest s s'}, Sound rest s → visit recorder t s = .ok s' →
    Advances rest rest (fun final labels p q => final.Lays recorder labels t p q) s s'

theorem lowered_slot (hkids : ∀ k ∈ kids, Lowered recorder (k ())) (i : Nat) :
    Lowered recorder (Tree.slot kids i) := by
  apply Tree.slot_of_kids hkids
  intro rest s s' hs h
  cases h
  exact hs.advances_refl.imp fun _ _ _ _ hq => hq ▸ .absent

theorem visitAll_advances (hkids : ∀ k ∈ kids, Lowered recorder (k ())) (hs : Sound rest s)
    (h : visitAll recorder kids s = .ok s') :
    Advances rest rest (fun final labels p q => final.LaysAll recorder labels kids p q) s s' := by
  induction kids generalizing s with
  | nil =>
    cases h
    exact hs.advances_refl.imp fun _ _ _ _ hq => hq ▸ .nil
  | cons k kids ih =>
    obtain ⟨s₁, hk, h⟩ := bind_eq_ok.mp h
    have hfirst := hkids k (by simp) hs hk
    have hrest := ih (fun k hk => hkids k (by simp [hk])) hfirst.sound h
    refine (hfirst.trans hrest).imp ?_
    rintro final labels p q ⟨m, hpm, hmq⟩
    exact .cons hpm hmq

theorem block_advances (hkind : n.kind = .block) (hkids : ∀ k ∈ kids, Lowered recorder (k ()))
    (hs : Sound rest s) (h₁ : visitAll recorder kids (s.enter (.block n.label none)) = .ok s₁)
    (hleave : s₁.leaveBlock r = .ok s') :
    Advances rest rest (fun final labels p q => final.Lays recorder labels (.node r n kids) p q)
      s s' := by
  have hinside := visitAll_advances hkids (hs.enterBlock n.label) h₁
  obtain ⟨scope', scopes, heq, hfill, hleft⟩ := hinside.leave rfl
  obtain ⟨_, _, out, heq', hout, rfl⟩ := leaveBlock_cases hleave
  cases heq.symm.trans heq'
  have htarget : ∀ {rest}, Sound rest out → Advances rest rest (fun _ _ p q => q = p) out
      { out with graph := out.graph.setTarget r { exit := out.current } } :=
    fun hsound => hsound.advances_setTarget r _
  cases hfill with
  | same =>
    rcases hout with ⟨-, rfl⟩ | ⟨_, hexit, -⟩
    · refine (hleft.trans (htarget hleft.sound)).imp ?_
      rintro final labels p q ⟨m, hall, rfl⟩
      exact .block hkind hall
    · cases hexit
  | exit label x =>
    rcases hout with ⟨hexit, -⟩ | ⟨_, hexit, hgo⟩
    · cases hexit
    · cases hexit
      have hjump := hleft.sound.advances_goTo (.refl _) hgo
      refine ((hleft.trans hjump).trans (htarget hjump.sound)).imp ?_
      rintro final labels p q ⟨_, ⟨m, hall, hjump, rfl⟩, rfl⟩
      exact .leftBlock hkind hall hjump

theorem loop_advances {exit : Nat} (hkind : n.kind = .loop)
    (hkids : ∀ k ∈ kids, Lowered recorder (k ())) (hs : Sound rest s)
    (henter : s.enterLoop r n.label = .ok (s₁, exit))
    (h₁ : visit recorder (Tree.slot kids 0) s₁ = .ok s₂) (hleave : s₂.leaveLoop exit = .ok s') :
    Advances rest rest (fun final labels p q => final.Lays recorder labels (.node r n kids) p q)
      s s' := by
  obtain ⟨inner, rfl, hsound, hin⟩ := hs.advances_enterLoop henter
  have hbody := lowered_slot hkids 0 hsound h₁
  obtain ⟨scope', scopes, heq, hfill, hleft⟩ := hbody.leave rfl
  cases hfill
  obtain ⟨_, _, heq', hgo⟩ := leaveLoop_eq_ok.mp hleave
  cases heq.symm.trans heq'
  have hout := hleft.sound.advances_goTo (.refl _) hgo
  refine (hin.trans (hleft.trans hout)).imp ?_
  rintro final labels p q ⟨_, ⟨hin, rfl⟩, m, hlays, hout, rfl⟩
  exact .loop hkind hin hlays hout

/-- A branch leads from where it is recorded to the block that its label is bound to. -/
theorem branch_advances {label : String} {target : Nat} (hs : Sound rest s)
    (h : s.resolve label = .ok (s₁, target)) (hrecord : s₁.record recorder r = .ok s₂)
    (hlink : s₂.linkTo target = .ok s') :
    Advances rest rest (fun final labels p q => final.Records recorder r p q ∧ label ≠ "" ∧
      labels label = some target ∧ target ∈ final.succ q.1) s s' := by
  obtain ⟨-, hlabel⟩ := resolve_advances hs h
  have hrecorded := hlabel.sound.advances_record hrecord
  have hlinked := hrecorded.sound.advances_linkTo hlink
  refine (hlabel.trans (hrecorded.trans hlinked)).imp ?_
  rintro final labels p q ⟨_, ⟨rfl, hne, hlabel⟩, m, hm, rfl, hsucc⟩
  exact ⟨hm, hne, hlabel, hsucc⟩

theorem placed_advances (hs : Sound rest s) (h : Placed recorder r n s s') :
    Advances rest rest (fun final labels p q =>
      ∃ m, final.Records recorder r p m ∧ final.Departs labels n m q) s s' := by
  cases h with
  | br hkind hcond h hrecord hlink =>
    have hbranch := branch_advances hs h hrecord hlink
    refine (hbranch.trans hbranch.sound.advances_moveOn).imp ?_
    rintro final labels p q ⟨m, ⟨hm, hne, hlabel, hsucc⟩, hend⟩
    refine ⟨m, hm, ?_⟩
    simp only [Departs, hkind, hcond]
    exact ⟨hne, ⟨_, hlabel, hend, hsucc⟩, fun hfalse => by cases hfalse⟩
  | brIf hkind hcond h hrecord hlink hfall =>
    have hbranch := branch_advances hs h hrecord hlink
    refine (hbranch.trans (hbranch.sound.advances_fallOn hfall)).imp ?_
    rintro final labels p q ⟨m, ⟨hm, hne, hlabel, hsucc⟩, hfall, hzero⟩
    refine ⟨m, hm, ?_⟩
    simp only [Departs, hkind]
    exact ⟨hne, ⟨_, hlabel, hfall.1, hsucc⟩, fun _ => ⟨hfall, hzero⟩⟩
  | brTable hkind h hrecord hlinks =>
    obtain ⟨-, hlabels⟩ := resolveAll_advances hs h
    have hrecorded := hlabels.sound.advances_record hrecord
    have hlinked := hrecorded.sound.advances_linkAll hlinks
    have hon := hlinked.sound.advances_moveOn
    refine (hlabels.trans (hrecorded.trans (hlinked.trans hon))).imp ?_
    rintro final labels p q ⟨_, ⟨rfl, hlabels⟩, _, hm, m, ⟨rfl, hsucc⟩, hend⟩
    refine ⟨m, hm, ?_⟩
    simp only [Departs, hkind]
    intro label hmem
    obtain ⟨hne, b, hb, hlabel⟩ := hlabels label hmem
    exact ⟨hne, b, hlabel, hend, hsucc b hb⟩
  | leaving hkind hrecord =>
    have hrecorded := hs.advances_record hrecord
    refine (hrecorded.trans hrecorded.sound.advances_moveOn).imp ?_
    rintro final labels p q ⟨m, hm, hend⟩
    refine ⟨m, hm, ?_⟩
    rcases hkind with hkind | hkind <;> simpa only [Departs, hkind] using hend
  | going hgo hrecord =>
    exact (hs.advances_record hrecord).imp fun _ _ _ q hq => ⟨q, hq, departs_of_isJump hgo q⟩

theorem lowered (recorder : Ref → Option α) (t : Tree) : Lowered recorder t := by
  induction t with
  | absent =>
    intro rest s s' hs h
    cases h
    exact hs.advances_refl.imp fun _ _ _ _ hq => hq ▸ .absent
  | dangling => exact fun _ h => by cases h
  | endless => exact fun _ h => by cases h
  | node r n kids ih =>
    intro rest s s' hs h
    cases visited_of_visit h with
    | block hkind h₁ hleave => exact block_advances hkind ih hs h₁ hleave
    | loop hkind henter h₁ hleave => exact loop_advances hkind ih hs henter h₁ hleave
    | ifElse hkind _ h₁ hopen h₂ hlink h₃ hgo =>
      have hcond := lowered_slot ih 0 hs h₁
      have hopen := hcond.sound.advances_openArms hopen
      have harm := lowered_slot ih 1 hopen.sound h₂
      have hover := harm.sound.advances_linkTo_moveTo hlink (.swap _ _ _)
      have harm' := lowered_slot ih 2 hover.sound h₃
      have hout := harm'.sound.advances_goTo (.refl _) hgo
      refine (hcond.trans (hopen.trans (harm.trans (hover.trans (harm'.trans hout))))).imp ?_
      rintro final labels p q ⟨c, hc, _, ⟨hthen, helse, rfl⟩, m, hm, _, ⟨hjoin, rfl⟩, m', hm',
        hjoin', rfl⟩
      exact .ifElse hkind hc hthen hm hjoin helse hm' hjoin'
    | ifThen hkind habsent h₁ hopen h₂ hgo =>
      have hcond := lowered_slot ih 0 hs h₁
      have hopen := hcond.sound.advances_openArm hopen
      have harm := lowered_slot ih 1 hopen.sound h₂
      have hout := harm.sound.advances_goTo (.refl _) hgo
      refine (hcond.trans (hopen.trans (harm.trans hout))).imp ?_
      rintro final labels p q ⟨c, hc, _, ⟨hthen, hskip, rfl⟩, m, hm, hjoin, rfl⟩
      exact .ifThen hkind habsent hc hthen hm hjoin hskip
    | plain hplain h₁ hplaced =>
      have hargs := visitAll_advances ih hs h₁
      refine (hargs.trans (placed_advances hargs.sound hplaced)).imp ?_
      rintro final labels p q ⟨m, hall, m', hm', hdeparts⟩
      exact .plain hplain hall hm' hdeparts

theorem sound_start : Sound [] (start : Lowering α) := by
  refine ⟨⟨by simp [start, size], by simp [start, waiting], by simp [start, waiting],
    by simp [start, waiting], ?_, ?_, ?_, ?_, ?_⟩, by simp [start]⟩
  · intro a b
    rcases a with _ | a <;> rcases b with _ | b <;> simp [start, pred, succ]
  · intro a b
    rcases a with _ | a <;> simp [start, succ]
  · intro a
    rcases a with _ | a <;> simp [start, succ]
  · intro b
    rcases b with _ | b <;> simp [start, pred]
  · intro b i
    rcases b with _ | b <;> simp [start, id?, eq_comm]

end Trees

end Lowering

/-- The tree that was lowered lies in the graph, from the entry to the end of the block that was filled
last. -/
theorem Function.lower_lays_to_end {α : Type} {fn : Function} {root : Ref} {recorder : Ref → Option α}
    {g : Graph α} (h : fn.lower root recorder = .ok g) :
    g.Mirrored ∧ g.start? = some 0 ∧ ∃ q, g.Lays recorder (fun _ => none) (fn.tree root) (0, 0) q ∧
      q.2 = (g.items q.1).length := by
  obtain ⟨s, hs, h⟩ := bind_eq_ok.mp h
  cases h
  have h := Lowering.lowered recorder _ Lowering.sound_start hs
  have hscopes : s.scopes = [] := List.forall₂_nil_left_iff.mp h.fills
  have hfinal : Lowering.CompletedBy s.graph [] s := ⟨id, List.prefix_rfl, fun _ _ _ => rfl⟩
  have hsize : 0 < s.graph.size := h.size_le
  refine ⟨h.sound.filling.mirrored, start?_eq_some.mpr ⟨h.entry_eq, hsize⟩, s.point,
    h.related hfinal fun label b hb => ?_, rfl⟩
  rw [hscopes] at hb
  cases hb

theorem Function.lower_lays {α : Type} {fn : Function} {root : Ref} {recorder : Ref → Option α}
    {g : Graph α} (h : fn.lower root recorder = .ok g) :
    g.Mirrored ∧ g.start? = some 0 ∧ ∃ q, g.Lays recorder (fun _ => none) (fn.tree root) (0, 0) q := by
  obtain ⟨hmirrored, hstart, q, hlays, -⟩ := lower_lays_to_end h
  exact ⟨hmirrored, hstart, q, hlays⟩

end LocalFlow
