import Mathlib
import LocalFlow.Proofs.Graph.Completion

/-! Branches end blocks. A branch is recorded last in its block and leaves it at once, so that the
successors of the block are the targets of the branch. -/

namespace LocalFlow

open LocalFlow.Graph

/-- Where a branch to the construct goes: a loop starts over, a block is left. -/
def Node.aim? (n : Node) (target : Target) : Option Nat :=
  if n.kind = .loop then target.restart else some target.exit

/-- The constructs around the children of a node, innermost first. -/
def Node.around (n : Node) (r : Ref) (outside : List (Ref × Node)) : List (Ref × Node) :=
  if n.kind.isConstruct then (r, n) :: outside else outside

namespace Graph

/-- Where a branch to the label goes that stands inside the given constructs: to the target of the
innermost one that has the label. -/
def goal? {α : Type} (g : Graph α) : List (Ref × Node) → String → Option Nat
  | [], _ => none
  | (c, n) :: outside, label =>
    if n.label = label then (g.target? c).bind n.aim? else g.goal? outside label

/-- Block `b` ends with the jump `n` at `r`, and its successors are those that the jump gives it, if
branches to a label go where `leads` says. A branch with a condition falls through to a block of its
own. -/
def Ends (g : Graph Ref) (leads : String → Nat → Prop) (r : Ref) (n : Node) (b : Nat) : Prop :=
  (∃ before, g.items b = before ++ [r]) ∧
    match n.kind with
    | .br => ∃ target, leads n.label target ∧
        if n.isConditional then
          ∃ next, g.succ b = [target, next] ∧ g.pred next = [b] ∧ b < next ∧ target < next
        else g.succ b = [target]
    | .brTable => ∃ targets, List.Forall₂ leads (n.labels ++ [n.label]) targets ∧
        g.succ b = targets.eraseDups
    | _ => g.succ b = []

theorem Ends.imp {g : Graph Ref} {leads leads' : String → Nat → Prop} {r : Ref} {n : Node} {b : Nat}
    (h : g.Ends leads r n b) (himp : ∀ label target, leads label target → leads' label target) :
    g.Ends leads' r n b := by
  obtain ⟨hlast, h⟩ := h
  refine ⟨hlast, ?_⟩
  cases hkind : n.kind
  case br =>
    simp only [hkind] at h ⊢
    obtain ⟨target, hleads, hsucc⟩ := h
    exact ⟨target, himp _ _ hleads, hsucc⟩
  case brTable =>
    simp only [hkind] at h ⊢
    obtain ⟨targets, hleads, hsucc⟩ := h
    exact ⟨targets, hleads.imp himp, hsucc⟩
  all_goals simpa only [hkind] using h

end Graph

namespace Tree

theorem handlesAll_eq_slots {kids : List (Unit → Tree)} (h : kids.length ≤ 3) :
    handlesAll kids =
      (slot kids 0).handles ++ ((slot kids 1).handles ++ (slot kids 2).handles) := by
  simp only [handlesAll, nodesAll_eq_slots h, List.map_append, handles]

theorem handles_sublist {k : Unit → Tree} {kids : List (Unit → Tree)} (hk : k ∈ kids) :
    (k ()).handles.Sublist (handlesAll kids) := by
  induction kids with
  | nil => simp at hk
  | cons t ts ih =>
    rw [handlesAll_cons]
    rcases List.mem_cons.mp hk with rfl | hk
    · exact List.sublist_append_left _ _
    · exact (ih hk).trans (List.sublist_append_right _ _)

mutual

/-- All jumps of the tree end blocks, if the tree stands inside the given constructs. -/
def Fits (g : Graph Ref) (around : List (Ref × Node)) : Tree → Prop
  | .node r n kids => FitsAll g (n.around r around) kids ∧
      (n.kind.isJump = true →
        ∃ b, g.Ends (fun label target => g.goal? around label = some target) r n b)
  | _ => True

def FitsAll (g : Graph Ref) (around : List (Ref × Node)) : List (Unit → Tree) → Prop
  | [] => True
  | t :: ts => Fits g around (t ()) ∧ FitsAll g around ts

end

variable {g : Graph Ref} {around : List (Ref × Node)} {kids : List (Unit → Tree)}

theorem fitsAll_iff : FitsAll g around kids ↔ ∀ k ∈ kids, (k ()).Fits g around := by
  induction kids with
  | nil => simp [FitsAll]
  | cons k kids ih => simp [FitsAll, ih]

theorem fitsAll_of_slots (hlen : kids.length ≤ 3) (h₀ : (slot kids 0).Fits g around)
    (h₁ : (slot kids 1).Fits g around) (h₂ : (slot kids 2).Fits g around) :
    FitsAll g around kids := by
  match kids with
  | [] => trivial
  | [a] => exact ⟨h₀, trivial⟩
  | [a, b] => exact ⟨h₀, h₁, trivial⟩
  | [a, b, c] => exact ⟨h₀, h₁, h₂, trivial⟩
  | _ :: _ :: _ :: _ :: _ =>
    simp only [List.length_cons] at hlen
    omega

end Tree

namespace Lowering

variable {rest rest' rest₁ rest₂ rest₃ : List Nat} {b c : Nat} {scopes : List Scope} {scope : Scope}
  {label : String} {s s' s₁ s₂ s₃ s₄ s₅ : Lowering Ref} {final : Graph Ref} {around : List (Ref × Node)}
  {refs refs₁ refs₂ : List Ref} {fact fact₁ fact₂ : Graph Ref → List (Ref × Node) → Prop} {r : Ref}
  {n : Node} {kids : List (Unit → Tree)} {fn : Function} {t : Tree}

/-- Branches to the enclosing constructs go where they go inside the given ones. -/
def Agrees (final : Graph Ref) (around : List (Ref × Node)) (s : Lowering Ref) : Prop :=
  ∀ ⦃label b⦄, labelsOf s.scopes label = some b → final.goal? around label = some b

/-- The given constructs have in the end the targets that they have now. -/
def KeepsTargets (final : Graph Ref) (refs : List Ref) (s : Lowering Ref) : Prop :=
  ∀ r ∈ refs, final.target? r = s.graph.target? r

/-- A tree can be lowered next: neither from here nor from the pending blocks an edge leads on. -/
structure Ready (rest : List Nat) (s : Lowering Ref) : Prop where
  sound : Sound rest s
  unlinked : Unlinked rest s
  clear : s.graph.succ s.current = []

/-- Lowering goes on from `s` to `s'`, and the fact about the part that is lowered then holds in the end,
if the constructs around it and those inside it keep their targets. -/
structure Settles (rest rest' : List Nat) (refs : List Ref)
    (fact : Graph Ref → List (Ref × Node) → Prop) (s s' : Lowering Ref) : Prop where
  ready : Ready rest' s'
  fills : Fills s.scopes s'.scopes
  target_eq : ∀ {r}, r ∉ refs → s'.graph.target? r = s.graph.target? r
  before : ∀ {final}, KeptBy final rest' s' → KeptBy final rest s
  holds : ∀ {final around}, KeptBy final rest' s' → Agrees final around s' →
    KeepsTargets final refs s' → fact final around

theorem Passes.ready (h : Passes rest rest' s s') (hs : Ready rest s)
    (hclear : s'.graph.succ s'.current = []) : Ready rest' s' :=
  ⟨h.sound, h.unlinked hs.unlinked, hclear⟩

namespace Ready

theorem fresh (hs : Ready rest s) : Ready (s.graph.size :: rest) s.fresh.1 :=
  hs.sound.passes_fresh.ready hs ((succ_addBlock _).trans hs.clear)

/-- The block that is filled next was pending, so that nothing leads out of it. -/
theorem linkTo_moveTo (hs : Ready rest s) (hb : b ∈ rest) (hlink : s.linkTo b = .ok s')
    (hp : rest.Perm (c :: rest')) : Ready rest' (s'.moveTo c) := by
  have hlinked := hs.sound.passes_linkTo (List.mem_append_right _ hb) hlink
  exact (hlinked.trans (hlinked.sound.passes_moveTo hp)).ready hs
    (Sound.clear_moveTo (hlinked.unlinked hs.unlinked) hp)

theorem goTo (hs : Ready rest s) (hp : rest.Perm (b :: rest')) (hgo : s.goTo b = .ok s') :
    Ready rest' s' := by
  obtain ⟨s₁, hlink, rfl⟩ := goTo_eq_ok.mp hgo
  exact hs.linkTo_moveTo (hp.mem_iff.mpr (List.mem_cons_self ..)) hlink hp

theorem fork (hs : Ready rest s) (hp : rest.Perm (b :: rest')) (hc : c ∈ rest)
    (hfork : s.fork b c = .ok s') : Ready rest' s' := by
  have hpasses := hs.sound.passes_fork hp hc hfork
  obtain ⟨s₁, hfirst, s₂, hsecond, rfl⟩ := fork_eq_ok.mp hfork
  have hlinked := hs.sound.passes_linkTo
    (List.mem_append_right _ (hp.mem_iff.mpr (List.mem_cons_self ..))) hfirst
  have hboth := hlinked.trans (hlinked.sound.passes_linkTo (List.mem_append_right _ hc) hsecond)
  exact hpasses.ready hs (Sound.clear_moveTo (hboth.unlinked hs.unlinked) hp)

end Ready

theorem Sound.ready_moveOn (h : Sound rest s) (hs : Unlinked rest s) : Ready rest s.moveOn :=
  ⟨h.passes_moveOn.sound, h.passes_moveOn.unlinked hs,
    Sound.clear_moveTo (h.passes_fresh.unlinked hs) (.refl _)⟩

theorem Sound.ready_fallOn (h : Sound rest s) (hs : Unlinked rest s) (hfall : s.fallOn = .ok s') :
    Ready rest s' := by
  have hpasses := h.passes_fallOn hfall
  have hgo : s.fresh.1.goTo s.graph.size = .ok s' := hfall
  obtain ⟨s₁, hlink, rfl⟩ := goTo_eq_ok.mp hgo
  have hlinked := h.passes_fresh.sound.passes_linkTo (by simp) hlink
  exact ⟨hpasses.sound, hpasses.unlinked hs,
    Sound.clear_moveTo (hlinked.unlinked (h.passes_fresh.unlinked hs)) (.refl _)⟩

theorem Agrees.of_fills (h : Agrees final around s') (hfills : Fills s.scopes s'.scopes) :
    Agrees final around s :=
  fun _ _ hb => h (hfills.labelsOf_le hb)

theorem Silent.target?_eq (h : Silent s s') (r : Ref) :
    s'.graph.target? r = s.graph.target? r := by
  rw [target?, target?, h.targets_eq]

theorem Agrees.inside (h : Agrees final around { s with scopes }) (heq : s.scopes = scope :: scopes)
    (hlabel : scope.label = n.label)
    (htarget : ∀ b, scope.target? = some b → (final.target? r).bind n.aim? = some b) :
    Agrees final ((r, n) :: around) s := by
  intro label b hb
  rw [heq, labelsOf, hlabel] at hb
  rw [goal?]
  by_cases hsame : label = n.label
  · subst hsame
    rw [Function.update_self] at hb
    rw [if_pos rfl]
    exact htarget b hb
  · rw [Function.update_of_ne hsame] at hb
    rw [if_neg (Ne.symm hsame)]
    exact h hb

namespace Settles

theorem after (h : Settles rest₂ rest₃ refs fact s₂ s₃) (hp : Passes rest₁ rest₂ s₁ s₂)
    (hsilent : Silent s₁ s₂) (hscopes : s₂.scopes = s₁.scopes) :
    Settles rest₁ rest₃ refs fact s₁ s₃ :=
  ⟨h.ready, hscopes ▸ h.fills, fun hr => (h.target_eq hr).trans (hsilent.target?_eq _),
    fun hfinal => hp.before (h.before hfinal), h.holds⟩

theorem andThen (h : Settles rest₁ rest₂ refs fact s₁ s₂) (hp : Passes rest₂ rest₃ s₂ s₃)
    (hsilent : Silent s₂ s₃) (hscopes : s₃.scopes = s₂.scopes)
    (hclear : s₃.graph.succ s₃.current = []) : Settles rest₁ rest₃ refs fact s₁ s₃ := by
  refine ⟨hp.ready h.ready hclear, hscopes ▸ h.fills,
    fun hr => (hsilent.target?_eq _).trans (h.target_eq hr),
    fun hfinal => h.before (hp.before hfinal), ?_⟩
  intro final around hfinal hagrees hkeeps
  refine h.holds (hp.before hfinal) (hagrees.of_fills ?_) fun r hr => ?_
  · rw [hscopes]
    exact .refl _
  · exact (hkeeps r hr).trans (hsilent.target?_eq r)

theorem trans (h : Settles rest₁ rest₂ refs₁ fact₁ s₁ s₂) (h' : Settles rest₂ rest₃ refs₂ fact₂ s₂ s₃)
    (hdisjoint : ∀ r ∈ refs₁, r ∉ refs₂) :
    Settles rest₁ rest₃ (refs₁ ++ refs₂)
      (fun final around => fact₁ final around ∧ fact₂ final around) s₁ s₃ := by
  refine ⟨h'.ready, h.fills.trans h'.fills, fun hr => ?_,
    fun hfinal => h.before (h'.before hfinal), ?_⟩
  · rw [List.mem_append, not_or] at hr
    exact (h'.target_eq hr.2).trans (h.target_eq hr.1)
  · intro final around hfinal hagrees hkeeps
    refine ⟨?_, ?_⟩
    · refine h.holds (h'.before hfinal) (hagrees.of_fills h'.fills) fun r hr => ?_
      exact (hkeeps r (List.mem_append_left _ hr)).trans (h'.target_eq (hdisjoint r hr))
    · exact h'.holds hfinal hagrees fun r hr => hkeeps r (List.mem_append_right _ hr)

theorem imp (h : Settles rest rest' refs₁ fact₁ s s') (hrefs : refs₁ ⊆ refs₂)
    (himp : ∀ final around, fact₁ final around → fact₂ final around) :
    Settles rest rest' refs₂ fact₂ s s' :=
  ⟨h.ready, h.fills, fun hr => h.target_eq fun hmem => hr (hrefs hmem), h.before,
    fun hfinal hagrees hkeeps =>
      himp _ _ (h.holds hfinal hagrees fun r hr => hkeeps r (hrefs hr))⟩

end Settles

/-- Wherever the tree is lowered, its jumps end blocks. -/
def Settled (t : Tree) : Prop :=
  ∀ ⦃rest s s'⦄, Ready rest s → visit some t s = .ok s' →
    Settles rest rest t.handles (fun final around => t.Fits final around) s s'

theorem Ready.settles_refl (h : Ready rest s) :
    Settles rest rest [] (fun _ _ => True) s s :=
  ⟨h, .refl _, fun _ => rfl, id, fun _ _ _ => trivial⟩

theorem visitAll_settles (hkids : ∀ k ∈ kids, Settled (k ()))
    (hnodup : (Tree.handlesAll kids).Nodup) (hs : Ready rest s)
    (h : visitAll some kids s = .ok s') :
    Settles rest rest (Tree.handlesAll kids) (fun final around => Tree.FitsAll final around kids)
      s s' := by
  induction kids generalizing s with
  | nil =>
    cases h
    exact hs.settles_refl
  | cons k kids ih =>
    obtain ⟨s₁, hk, h⟩ := bind_eq_ok.mp h
    rw [Tree.handlesAll_cons] at hnodup ⊢
    obtain ⟨-, hrest, hdisjoint⟩ := List.nodup_append.mp hnodup
    have hfirst := hkids k (by simp) hs hk
    exact hfirst.trans (ih (fun k hk => hkids k (.tail _ hk)) hrest hfirst.ready h)
      fun r hr hr' => hdisjoint r hr r hr' rfl

theorem settled_slot (hkids : ∀ k ∈ kids, Settled (k ())) (i : Nat) :
    Settled (Tree.slot kids i) :=
  Tree.slot_of_kids hkids
    (fun rest s s' hs h => by
      cases h
      exact hs.settles_refl) i

theorem fits_construct (hkind : n.kind.isConstruct = true)
    (h : Tree.FitsAll final ((r, n) :: around) kids) : (Tree.node r n kids).Fits final around := by
  rw [Tree.Fits, Node.around, if_pos hkind]
  refine ⟨h, fun hjump => ?_⟩
  revert hkind hjump
  cases n.kind <;> simp [Kind.isConstruct, Kind.isJump]

/-- However a block is left, what is filled next is its target. -/
theorem Ready.leaveBlock (hs : Ready rest s) {exit : Option Nat}
    (heq : s.scopes = .block label exit :: scopes) (hleave : s.leaveBlock r = .ok s') :
    Passes rest rest s s' ∧ Ready rest s' ∧ s'.scopes = scopes ∧
      ∃ x, s'.graph.target? r = some { exit := x } ∧ ∀ b, exit = some b → b = x := by
  obtain ⟨_, _, out, heq', hout, rfl⟩ := leaveBlock_cases hleave
  cases heq.symm.trans heq'
  have hleft := hs.sound.passes_leave heq
  have htarget : (out.graph.setTarget r { exit := out.current }).target? r =
      some { exit := out.current } := target?_setTarget.trans (if_pos rfl)
  cases exit with
  | none =>
    rcases hout with ⟨-, rfl⟩ | ⟨_, hexit, -⟩
    · have hpasses := hleft.trans (hleft.sound.passes_setTarget r { exit := s.current })
      exact ⟨hpasses, hpasses.ready hs hs.clear, rfl, s.current, htarget, fun b hb => by cases hb⟩
    · cases hexit
  | some x =>
    rcases hout with ⟨hexit, -⟩ | ⟨_, hexit, hgo⟩
    · cases hexit
    · cases hexit
      have hready := (hleft.ready hs hs.clear : Ready (x :: rest) _).goTo (.refl _) hgo
      have hgone := hleft.trans (hleft.sound.passes_goTo (.refl _) hgo)
      have hpasses := hgone.trans (hgone.sound.passes_setTarget r { exit := out.current })
      refine ⟨hpasses, hpasses.ready hs hready.clear, scopes_goTo hgo, _, htarget, fun b hb => ?_⟩
      obtain ⟨s₁, -, rfl⟩ := goTo_eq_ok.mp hgo
      exact (Option.some.inj hb).symm

theorem block_settles (hkind : n.kind = .block) (hkids : ∀ k ∈ kids, Settled (k ()))
    (hnodup : (Tree.handlesAll kids).Nodup) (hr : r ∉ Tree.handlesAll kids) (hs : Ready rest s)
    (h₁ : visitAll some kids (s.enter (.block n.label none)) = .ok s₁)
    (hleave : s₁.leaveBlock r = .ok s') :
    Settles rest rest (Tree.node r n kids).handles
      (fun final around => (Tree.node r n kids).Fits final around) s s' := by
  have henter := hs.sound.passes_enterBlock n.label
  have hinside := visitAll_settles hkids hnodup (henter.ready hs hs.clear) h₁
  obtain ⟨scope', scopes, hfill, hfills, heq⟩ := List.forall₂_cons_left_iff.mp hinside.fills
  obtain ⟨exit, rfl⟩ : ∃ exit, scope' = .block n.label exit := by
    cases hfill with
    | same => exact ⟨none, rfl⟩
    | exit label x => exact ⟨some x, rfl⟩
  obtain ⟨hpasses, hready, hscopes, x, htarget, hexit⟩ := hinside.ready.leaveBlock heq hleave
  refine ⟨hready, hscopes ▸ hfills, fun {r'} hr' => ?_,
    fun hfinal => henter.before (hinside.before (hpasses.before hfinal)), ?_⟩
  · rw [Tree.handles_node, List.mem_append, not_or] at hr'
    exact ((logs_leaveBlock hleave).target_eq hr'.2).trans (hinside.target_eq hr'.1)
  intro final around hfinal hagrees hkeeps
  have hself : final.target? r = some { exit := x } := (hkeeps r (by simp)).trans htarget
  refine fits_construct (by rw [hkind]; rfl) (hinside.holds (hpasses.before hfinal) ?_ ?_)
  · refine Agrees.inside (fun label b hb => hagrees ?_) heq rfl fun b hb => ?_
    · rw [hscopes]
      exact hb
    · simp [hself, Node.aim?, hkind, hexit b hb]
  · intro r' hr'
    have hne : r' ∉ [r] := fun hmem => hr (List.mem_singleton.mp hmem ▸ hr')
    exact (hkeeps r' (by simp [hr'])).trans ((logs_leaveBlock hleave).target_eq hne)

/-- The body of a loop is lowered inside the loop, which has got its target. -/
theorem Ready.enterLoop (hs : Ready rest s) (henter : s.enterLoop r label = .ok (s', b)) :
    Ready (b :: rest) s' ∧ s'.scopes = .loop label s.graph.size :: s.scopes ∧
      s'.graph.target? r = some { exit := b, restart := some s.graph.size } := by
  have hpasses := hs.sound.passes_enterLoop henter
  obtain ⟨rfl, s₁, hgo, rfl⟩ := enterLoop_eq_ok henter
  have hready := hs.fresh.fresh.goTo (.swap _ _ _) hgo
  have hscopes := scopes_goTo hgo
  exact ⟨hpasses.ready hs hready.clear, congrArg _ hscopes, target?_setTarget.trans (if_pos rfl)⟩

theorem loop_settles (hkind : n.kind = .loop) (hlen : kids.length ≤ 1)
    (hkids : ∀ k ∈ kids, Settled (k ())) (hr : r ∉ Tree.handlesAll kids) (hs : Ready rest s)
    (henter : s.enterLoop r n.label = .ok (s₁, b)) (h₁ : visit some (Tree.slot kids 0) s₁ = .ok s₂)
    (hleave : s₂.leaveLoop b = .ok s') :
    Settles rest rest (Tree.node r n kids).handles
      (fun final around => (Tree.node r n kids).Fits final around) s s' := by
  have hentered := hs.sound.passes_enterLoop henter
  obtain ⟨hready, hscopes, htarget⟩ := hs.enterLoop henter
  have hbody := settled_slot hkids 0 hready h₁
  obtain ⟨scope', scopes, hfill, hfills, heq⟩ :=
    List.forall₂_cons_left_iff.mp (hscopes ▸ hbody.fills : Fills (_ :: s.scopes) s₂.scopes)
  cases hfill
  have hsilent := silent_leaveLoop hleave
  obtain ⟨_, _, heq', hgo⟩ := leaveLoop_eq_ok.mp hleave
  cases heq.symm.trans heq'
  have hleft := hbody.ready.sound.passes_leave heq
  have hready' : Ready (b :: rest) { s₂ with scopes } := hleft.ready hbody.ready hbody.ready.clear
  have hgone := hleft.trans (hready'.sound.passes_goTo (.refl _) hgo)
  have hscopes' : s'.scopes = scopes := scopes_goTo hgo
  have hhandles : Tree.handlesAll kids = (Tree.slot kids 0).handles := by
    rw [Tree.handlesAll_eq_slots (by omega), Tree.slot_eq_absent hlen,
      Tree.slot_eq_absent (i := 2) (by omega)]
    exact List.append_nil _
  refine ⟨hready'.goTo (.refl _) hgo, hscopes' ▸ hfills, fun {r'} hr' => ?_,
    fun hfinal => hentered.before (hbody.before (hgone.before hfinal)), ?_⟩
  · rw [Tree.handles_node, List.mem_append, not_or, hhandles] at hr'
    exact (hsilent.target?_eq r').trans
      ((hbody.target_eq hr'.1).trans ((logs_enterLoop henter).target_eq hr'.2))
  intro final around hfinal hagrees hkeeps
  -- The target was set on entry, and nothing inside the loop sets it again.
  have hself : final.target? r = some { exit := b, restart := some s.graph.size } :=
    (hkeeps r (by simp)).trans ((hsilent.target?_eq r).trans
      ((hbody.target_eq (hhandles ▸ hr)).trans htarget))
  have hinside : (Tree.slot kids 0).Fits final ((r, n) :: around) :=
    hbody.holds (hgone.before hfinal) ?_ ?_
  · refine fits_construct (by rw [hkind]; rfl) (Tree.fitsAll_of_slots (by omega) hinside ?_ ?_)
    · rw [Tree.slot_eq_absent hlen]
      trivial
    · rw [Tree.slot_eq_absent (by omega)]
      trivial
  · refine Agrees.inside (fun label b hb => hagrees (hscopes' ▸ hb)) heq rfl ?_
    rintro b ⟨⟩
    simp [hself, Node.aim?, hkind]
  · intro r' hr'
    exact (hkeeps r' (by simp [hhandles, hr'])).trans (hsilent.target?_eq r')

theorem fits_if (hkind : n.kind = .ifElse) (hlen : kids.length ≤ 3)
    (h₀ : (Tree.slot kids 0).Fits final around) (h₁ : (Tree.slot kids 1).Fits final around)
    (h₂ : (Tree.slot kids 2).Fits final around) : (Tree.node r n kids).Fits final around := by
  rw [Tree.Fits, Node.around, hkind]
  exact ⟨Tree.fitsAll_of_slots hlen h₀ h₁ h₂, fun hjump => by cases hjump⟩

theorem Ready.openArms (hs : Ready rest s) (hopen : s.openArms = .ok s') :
    Ready (s.fresh.1.fresh.1.graph.size :: s.fresh.1.graph.size :: rest) s' :=
  hs.fresh.fresh.fresh.fork (@List.perm_middle _ _ [_, _] _) (by simp) hopen

theorem Ready.openArm (hs : Ready rest s) (hopen : s.openArm = .ok s') :
    Ready (s.fresh.1.graph.size :: rest) s' :=
  hs.fresh.fresh.fork (.swap _ _ _) (by simp) hopen

theorem ifElse_settles (hkind : n.kind = .ifElse) (hlen : kids.length ≤ 3)
    (hkids : ∀ k ∈ kids, Settled (k ())) (hnodup : (Tree.handlesAll kids).Nodup) (hs : Ready rest s)
    (h₁ : visit some (Tree.slot kids 0) s = .ok s₁) (hopen : s₁.openArms = .ok s₂)
    (h₂ : visit some (Tree.slot kids 1) s₂ = .ok s₃)
    (hlink : s₃.linkTo s₁.fresh.1.fresh.1.graph.size = .ok s₄)
    (h₃ : visit some (Tree.slot kids 2) (s₄.moveTo s₁.fresh.1.graph.size) = .ok s₅)
    (hgo : s₅.goTo s₁.fresh.1.fresh.1.graph.size = .ok s') :
    Settles rest rest (Tree.node r n kids).handles
      (fun final around => (Tree.node r n kids).Fits final around) s s' := by
  rw [Tree.handlesAll_eq_slots hlen] at hnodup
  simp only [List.nodup_append, List.mem_append] at hnodup
  obtain ⟨-, ⟨-, -, harms⟩, hconds⟩ := hnodup
  have hslot := settled_slot hkids
  have hcond := hslot 0 hs h₁
  -- Both arms and the block behind them are pending, and the first arm is filled first.
  have harm := hslot 1 (hcond.ready.openArms hopen) h₂
  have hover := harm.ready.linkTo_moveTo (List.mem_cons_self ..) hlink (.swap _ _ _)
  have harm' := hslot 2 hover h₃
  have hopened := harm.after (hcond.ready.sound.passes_openArms hopen) (silent_openArms hopen)
    (scopes_openArms hopen)
  have hscopes := scopes_linkTo hlink
  have hfirst := hopened.andThen
    (harm.ready.sound.passes_linkTo_moveTo (List.mem_cons_self ..) hlink (.swap _ _ _))
    ((silent_linkTo hlink).trans (silent_moveTo _ _)) hscopes hover.clear
  have hsecond := harm'.andThen (harm'.ready.sound.passes_goTo (.refl _) hgo) (silent_goTo hgo)
    (scopes_goTo hgo) (harm'.ready.goTo (.refl _) hgo).clear
  have hboth := hfirst.trans hsecond fun x hx hx' => harms x hx x hx' rfl
  refine (hcond.trans hboth fun x hx hx' => hconds x hx x (List.mem_append.mp hx') rfl).imp ?_
    fun final around hfacts => fits_if hkind hlen hfacts.1 hfacts.2.1 hfacts.2.2
  rw [Tree.handles_node, Tree.handlesAll_eq_slots hlen]
  exact List.subset_append_left _ _

theorem ifThen_settles (hkind : n.kind = .ifElse) (hlen : kids.length ≤ 2)
    (hkids : ∀ k ∈ kids, Settled (k ())) (hnodup : (Tree.handlesAll kids).Nodup) (hs : Ready rest s)
    (h₁ : visit some (Tree.slot kids 0) s = .ok s₁) (hopen : s₁.openArm = .ok s₂)
    (h₂ : visit some (Tree.slot kids 1) s₂ = .ok s₃)
    (hgo : s₃.goTo s₁.fresh.1.graph.size = .ok s') :
    Settles rest rest (Tree.node r n kids).handles
      (fun final around => (Tree.node r n kids).Fits final around) s s' := by
  have habsent : Tree.slot kids 2 = .absent := Tree.slot_eq_absent hlen
  have hhandles : Tree.handlesAll kids = (Tree.slot kids 0).handles ++ (Tree.slot kids 1).handles := by
    rw [Tree.handlesAll_eq_slots (by omega), habsent]
    exact congrArg _ (List.append_nil _)
  rw [hhandles, List.nodup_append] at hnodup
  have hcond := settled_slot hkids 0 hs h₁
  have harm := settled_slot hkids 1 (hcond.ready.openArm hopen) h₂
  have hopened := harm.after (hcond.ready.sound.passes_openArm hopen) (silent_openArm hopen)
    (scopes_openArm hopen)
  have hfirst := hopened.andThen (harm.ready.sound.passes_goTo (.refl _) hgo) (silent_goTo hgo)
    (scopes_goTo hgo) (harm.ready.goTo (.refl _) hgo).clear
  refine (hcond.trans hfirst fun x hx hx' => hnodup.2.2 x hx x hx' rfl).imp ?_
    fun final around hfacts => fits_if hkind (by omega) hfacts.1 hfacts.2 (by rw [habsent]; trivial)
  rw [Tree.handles_node, hhandles]
  exact List.subset_append_left _ _

theorem Ready.settles_resolve (hs : Ready rest s) (hb : s.resolve label = .ok (s', b)) :
    Settles rest rest [] (fun final around => final.goal? around label = some b) s s' := by
  have hpasses := resolve_passes hs.sound hb
  obtain ⟨hcurrent, hsucc⟩ := resolve_stays hb
  refine ⟨hpasses.ready hs ?_, (resolve_cases hb).2.1,
    fun _ => (silent_resolve hb).target?_eq _, hpasses.before, fun _ hagrees _ => ?_⟩
  · rw [hcurrent, hsucc, hs.clear]
  · exact hagrees (labelsOf_of_resolve hb)

theorem Ready.settles_resolveAll {names : List String} {targets : List Nat} (hs : Ready rest s)
    (hr : s.resolveAll names = .ok (s', targets)) :
    Settles rest rest [] (fun final around =>
      List.Forall₂ (fun label b => final.goal? around label = some b) names targets) s s' := by
  obtain ⟨hpasses, hfills, hlabels, hcurrent, hsucc⟩ := resolveAll_passes hs.sound hr
  refine ⟨hpasses.ready hs ?_, hfills, fun _ => (silent_resolveAll hr).target?_eq _, hpasses.before,
    fun _ hagrees _ => ?_⟩
  · rw [hcurrent, hsucc, hs.clear]
  · exact hlabels.imp fun label b hb => hagrees hb

theorem record_some_eq_ok (h : s.record some r = .ok s') : s.current < s.graph.size ∧
    s' = { s with graph := s.graph.record s.current r } := by
  rcases record_cases h with ⟨hnone, -⟩ | ⟨_, hr, hlt, rfl⟩
  · cases hnone
  · cases hr
    exact ⟨hlt, rfl⟩

/-- A block that is left after it was linked to the targets has them as its successors. -/
theorem Ready.settles_jump (hs : Ready rest s) {targets : List Nat}
    (htargets : ∀ b ∈ targets, b ∈ aims s.scopes) (hrecord : s.record some r = .ok s₁)
    (hlinks : targets.foldlM linkTo s₁ = .ok s₂) :
    Settles rest rest [] (fun final _ => (∃ before, final.items s.current = before ++ [r]) ∧
      final.succ s.current = targets.eraseDups) s s₂.moveOn := by
  have hrecorded := hs.sound.passes_record hrecord
  obtain ⟨hlt, rfl⟩ := record_some_eq_ok hrecord
  have hlinked := hrecorded.sound.passes_linkAll
    (fun b hb => List.mem_append_left _ (htargets b hb)) hlinks
  have hbefore := hrecorded.trans hlinked
  have hsilent := silent_linkAll hlinks
  obtain ⟨hcurrent, hscopes, -⟩ := linkAll_stays hlinks
  refine ⟨hbefore.sound.ready_moveOn (hbefore.unlinked hs.unlinked), hscopes.symm ▸ .refl _,
    fun _ => (hsilent.trans (silent_moveOn _)).target?_eq _,
    (hbefore.trans hlinked.sound.passes_moveOn).before, fun hfinal _ _ => ?_⟩
  obtain ⟨hitems, hsucc⟩ := KeptBy.moveOn hfinal hlinked.sound
  rw [hcurrent] at hitems hsucc
  refine ⟨⟨s.graph.items s.current, ?_⟩, ?_⟩
  · refine hitems.trans ((hsilent.items_eq _).trans ?_)
    exact (items_record r hlt).trans (if_pos rfl)
  · exact hsucc.trans (succ_linkAll hlinks ((succ_record r).trans hs.clear))

theorem linkAll_singleton (s : Lowering Ref) (b : Nat) : [b].foldlM linkTo s = s.linkTo b := by
  rw [List.foldlM_cons]
  exact bind_pure _

/-- A block that is left after it was linked to the target falls through to a block of its own. -/
theorem Ready.settles_fall (hs : Ready rest s) (htarget : b ∈ aims s.scopes)
    (hrecord : s.record some r = .ok s₁) (hlink : s₁.linkTo b = .ok s₂) (hfall : s₂.fallOn = .ok s') :
    Settles rest rest [] (fun final _ => (∃ before, final.items s.current = before ++ [r]) ∧
      ∃ next, final.succ s.current = [b, next] ∧ final.pred next = [s.current] ∧
        s.current < next ∧ b < next) s s' := by
  have hrecorded := hs.sound.passes_record hrecord
  obtain ⟨hlt, rfl⟩ := record_some_eq_ok hrecord
  have hlinked := hrecorded.sound.passes_linkTo (List.mem_append_left rest htarget) hlink
  have hbefore := hrecorded.trans hlinked
  have hsilent := silent_linkTo hlink
  have hlinks := (linkAll_singleton _ b).trans hlink
  obtain ⟨hcurrent, hscopes, -⟩ := linkAll_stays hlinks
  have hscopes' := (scopes_goTo hfall).trans hscopes
  refine ⟨hbefore.sound.ready_fallOn (hbefore.unlinked hs.unlinked) hfall, hscopes'.symm ▸ .refl _,
    fun _ => (hsilent.trans (silent_fallOn hfall)).target?_eq _,
    (hbefore.trans (hlinked.sound.passes_fallOn hfall)).before, fun hfinal _ _ => ?_⟩
  obtain ⟨hitems, hsucc, hpred⟩ := KeptBy.fallOn hfinal hlinked.sound hfall
  have hnext := hlinked.sound.filling.current_lt
  rw [hcurrent] at hitems hsucc hpred hnext
  refine ⟨⟨s.graph.items s.current, ?_⟩, s₂.graph.size, ?_, hpred, hnext, ?_⟩
  · refine hitems.trans ((hsilent.items_eq _).trans ?_)
    exact (items_record r hlt).trans (if_pos rfl)
  · have hone := succ_linkAll hlinks ((succ_record r).trans hs.clear)
    exact hsucc.trans (congrArg (· ++ _) hone)
  · exact (linkTo_eq_ok.mp hlink).2.1.trans_le (hrecorded.sound.advances_linkTo hlink).size_le

theorem Ready.settles_record (hs : Ready rest s) (hrecord : s.record some r = .ok s') :
    Settles rest rest [] (fun _ _ => True) s s' := by
  have hrecorded := hs.sound.passes_record hrecord
  obtain ⟨-, rfl⟩ := record_some_eq_ok hrecord
  exact ⟨hrecorded.ready hs ((succ_record r).trans hs.clear), .refl _, fun _ => rfl,
    hrecorded.before, fun _ _ _ => trivial⟩

/-- A node that is no construct and is a jump ends a block. -/
theorem placed_settles (hs : Ready rest s) (h : Placed some r n s s') :
    Settles rest rest [] (fun final around => n.kind.isJump = true →
      ∃ b, final.Ends (fun label target => final.goal? around label = some target) r n b) s s' := by
  cases h with
  | @br s₁ s₂ s₃ target hkind hcond h₁ hrecord hlink =>
    have hlabel := hs.settles_resolve h₁
    have htargets : ∀ b ∈ [target], b ∈ aims s₁.scopes := by
      simpa using mem_aims_of_labelsOf (labelsOf_of_resolve h₁)
    have hjump := hlabel.ready.settles_jump htargets hrecord ((linkAll_singleton s₂ target).trans hlink)
    refine (hlabel.trans hjump (by simp)).imp (.refl _) ?_
    rintro final around ⟨hgoal, hlast, hsucc⟩ -
    refine ⟨s₁.current, hlast, ?_⟩
    simp only [hkind, hcond]
    exact ⟨target, hgoal, hsucc⟩
  | @brIf s₁ s₂ s₃ _ target hkind hcond h₁ hrecord hlink hfall =>
    have hlabel := hs.settles_resolve h₁
    have hfalls := hlabel.ready.settles_fall (mem_aims_of_labelsOf (labelsOf_of_resolve h₁)) hrecord
      hlink hfall
    refine (hlabel.trans hfalls (by simp)).imp (.refl _) ?_
    rintro final around ⟨hgoal, hlast, hnext⟩ -
    refine ⟨s₁.current, hlast, ?_⟩
    simp only [hkind, hcond, if_true]
    exact ⟨target, hgoal, hnext⟩
  | @brTable s₁ s₂ s₃ targets hkind h₁ hrecord hlinks =>
    have hlabels := hs.settles_resolveAll h₁
    obtain ⟨-, -, htargets, -, -⟩ := resolveAll_passes hs.sound h₁
    have hjump := hlabels.ready.settles_jump (mem_aims_of_forall₂ htargets) hrecord hlinks
    refine (hlabels.trans hjump (by simp)).imp (.refl _) ?_
    rintro final around ⟨hgoals, hlast, hsucc⟩ -
    refine ⟨s₁.current, hlast, ?_⟩
    simp only [hkind]
    exact ⟨targets, hgoals, hsucc⟩
  | @leaving s₁ hkind hrecord =>
    have htargets : ∀ b ∈ ([] : List Nat), b ∈ aims s.scopes := by simp
    refine (hs.settles_jump htargets hrecord rfl).imp (.refl _) ?_
    rintro final around ⟨hlast, hsucc⟩ -
    refine ⟨s.current, hlast, ?_⟩
    rcases hkind with hkind | hkind <;> simpa only [hkind, List.eraseDups_nil] using hsucc
  | going hgo hrecord =>
    exact (hs.settles_record hrecord).imp (.refl _) fun _ _ _ hjump => by simp [hgo] at hjump

theorem plain_settles (hplain : n.kind.isStructured = false) (hkids : ∀ k ∈ kids, Settled (k ()))
    (hnodup : (Tree.handlesAll kids).Nodup) (hs : Ready rest s)
    (h₁ : visitAll some kids s = .ok s₁) (h : Placed some r n s₁ s') :
    Settles rest rest (Tree.node r n kids).handles
      (fun final around => (Tree.node r n kids).Fits final around) s s' := by
  have hargs := visitAll_settles hkids hnodup hs h₁
  have hnot : n.kind.isConstruct = false := by
    revert hplain
    cases n.kind <;> simp [Kind.isStructured, Kind.isConstruct]
  refine (hargs.trans (placed_settles hargs.ready h) (by simp)).imp (by simp) ?_
  intro final around hfacts
  rw [Tree.Fits, Node.around, hnot]
  exact hfacts

theorem settled (hat : t.IsAt fn r) (haccepted : ∀ x ∈ t.nodes, fn.rejection? x.1 x.2 = none)
    (hnodup : t.handles.Nodup) : Settled t := by
  induction t generalizing r with
  | absent =>
    intro rest s s' hs h
    cases h
    exact hs.settles_refl
  | dangling => exact hat.elim
  | endless => exact hat.elim
  | node r n kids ih =>
    obtain ⟨rfl, -, hkids⟩ := hat
    have hself := haccepted (r, n) (by simp [Tree.nodes])
    rw [Tree.handles_node, List.nodup_append] at hnodup
    obtain ⟨hnodup, -, hdisjoint⟩ := hnodup
    have hr : r ∉ Tree.handlesAll kids := fun hmem => hdisjoint r hmem r (by simp) rfl
    have ih : ∀ k ∈ kids, Settled (k ()) := by
      intro k hk
      obtain ⟨r', -, hr'⟩ := hkids.exists_isAt hk
      exact ih k hk hr' (fun x hx => haccepted x (Tree.mem_nodes_of_kid hk hx))
        ((Tree.handles_sublist hk).nodup hnodup)
    intro rest s s' hs h
    cases visited_of_visit h with
    | block hkind h₁ hleave => exact block_settles hkind ih hnodup hr hs h₁ hleave
    | loop hkind henter h₁ hleave =>
      exact loop_settles hkind (Tree.length_le_of_loop hkids hself hkind) ih hr hs henter h₁ hleave
    | ifElse hkind _ h₁ hopen h₂ hlink h₃ hgo =>
      obtain ⟨hlen, -⟩ := Tree.length_le_of_if hkids hself hkind
      exact ifElse_settles hkind hlen ih hnodup hs h₁ hopen h₂ hlink h₃ hgo
    | ifThen hkind hnone h₁ hopen h₂ hgo =>
      obtain ⟨-, habsent⟩ := Tree.length_le_of_if hkids hself hkind
      exact ifThen_settles hkind (habsent hnone) ih hnodup hs h₁ hopen h₂ hgo
    | plain hplain h₁ hplaced => exact plain_settles hplain ih hnodup hs h₁ hplaced

end Lowering

namespace Function

variable {fn : Function} {g : Graph Ref} {t : Tree} {label : String} {r c e : Ref} {n : Node} {i : Nat}
  {s : List Nat} {around : List (Ref × Node)}

/-- The node at `c` is a block or loop with the label. -/
def Labelled (fn : Function) (label : String) (c : Ref) : Prop :=
  ∃ n, fn.node? c = some n ∧ (n.kind = .block ∨ n.kind = .loop) ∧ n.label = label

/-- Of the blocks and loops of the body that have the label and inside which `r` stands, `c` is the
innermost one. -/
def Innermost (fn : Function) (label : String) (c r : Ref) : Prop :=
  ∃ outer inner, fn.follow fn.body outer = some c ∧ inner ≠ [] ∧ fn.follow c inner = some r ∧
    fn.Labelled label c ∧
    ∀ p q e, inner = p ++ q → p ≠ [] → q ≠ [] → fn.follow c p = some e → ¬fn.Labelled label e

/-- A branch at `r` to the label goes to block `b`: a loop starts over, a block is left. -/
def Leads (fn : Function) (g : Graph Ref) (r : Ref) (label : String) (b : Nat) : Prop :=
  ∃ c n target, fn.Innermost label c r ∧ fn.node? c = some n ∧ g.target? c = some target ∧
    (n.kind = .loop ∧ target.restart = some b ∨ n.kind = .block ∧ target.exit = b)

/-- Branches that stand at `r` go where they go inside the given constructs. -/
def Inside (fn : Function) (around : List (Ref × Node)) (r : Ref) : Prop :=
  ∀ {g : Graph Ref} {label b}, g.goal? around label = some b → fn.Leads g r label b

theorem innermost_parent (hr : fn.follow fn.body s = some r) (hlabel : fn.Labelled label r)
    (hc : fn.child? r i = some c) : fn.Innermost label r c := by
  refine ⟨s, [i], hr, by simp, follow_child (p := []) rfl hc, hlabel, ?_⟩
  intro p q e heq hp hq
  have hlen := congrArg List.length heq
  have hp := List.length_pos_of_ne_nil hp
  have hq := List.length_pos_of_ne_nil hq
  simp only [List.length_append, List.length_singleton] at hlen
  omega

/-- What is around the parent is around the child, unless the parent itself is nearer. -/
theorem Innermost.child (h : fn.Innermost label e r) (hnot : ¬fn.Labelled label r)
    (hc : fn.child? r i = some c) : fn.Innermost label e c := by
  obtain ⟨outer, inner, houter, hne, hinner, hlabel, hbetween⟩ := h
  refine ⟨outer, inner ++ [i], houter, by simp, follow_child hinner hc, hlabel, ?_⟩
  intro p q x heq hp hq hx
  obtain ⟨q, j, rfl⟩ := (List.eq_nil_or_concat' q).resolve_left hq
  rw [← List.append_assoc] at heq
  obtain ⟨rfl, -⟩ := List.append_inj' heq rfl
  rcases eq_or_ne q [] with rfl | hq
  · rw [List.append_nil] at hinner
    obtain rfl := Option.some.inj (hx.symm.trans hinner)
    exact hnot
  · exact hbetween p q x rfl hp hq hx

theorem labelled_iff (hn : fn.node? r = some n) :
    fn.Labelled label r ↔ n.kind.isConstruct = true ∧ n.label = label := by
  rw [Kind.isConstruct_iff]
  constructor
  · rintro ⟨n', hn', h⟩
    obtain rfl := Option.some.inj (hn.symm.trans hn')
    exact h
  · exact fun h => ⟨n, hn, h⟩

theorem Leads.child {b : Nat} (h : fn.Leads g r label b) (hnot : ¬fn.Labelled label r)
    (hc : fn.child? r i = some c) : fn.Leads g c label b := by
  obtain ⟨e, n, target, hinnermost, h⟩ := h
  exact ⟨e, n, target, hinnermost.child hnot hc, h⟩

theorem Inside.child (h : fn.Inside around r) (hr : fn.follow fn.body s = some r)
    (hn : fn.node? r = some n) (hc : fn.child? r i = some c) : fn.Inside (n.around r around) c := by
  intro g label b hb
  unfold Node.around at hb
  split at hb
  · rename_i hkind
    rw [goal?] at hb
    split at hb
    · rename_i hlabel
      have hlabelled := (labelled_iff hn).mpr ⟨hkind, hlabel⟩
      obtain ⟨target, htarget, haim⟩ := Option.bind_eq_some_iff.mp hb
      refine ⟨r, n, target, innermost_parent hr hlabelled hc, hn, htarget, ?_⟩
      unfold Node.aim? at haim
      split at haim
      · rename_i hloop
        exact .inl ⟨hloop, haim⟩
      · rename_i hloop
        exact .inr ⟨(Kind.isConstruct_iff.mp hkind).resolve_right hloop, Option.some.inj haim⟩
    · rename_i hlabel
      exact (h hb).child (fun hlabelled => hlabel ((labelled_iff hn).mp hlabelled).2) hc
  · rename_i hkind
    exact (h hb).child (fun hlabelled => hkind ((labelled_iff hn).mp hlabelled).1) hc

/-- In a graph that a tree fits, each jump of the tree ends a block. -/
theorem exists_ends_of_fits (hfits : t.Fits g around) (hat : t.IsAt fn r)
    (hr : fn.follow fn.body s = some r) (hinside : fn.Inside around r) :
    ∀ x ∈ t.nodes, x.2.kind.isJump = true → ∃ b, g.Ends (fn.Leads g x.1) x.1 x.2 b := by
  induction t generalizing r s around with
  | absent => simp
  | dangling => exact hat.elim
  | endless => exact hat.elim
  | node r n kids ih =>
    obtain ⟨rfl, hn, hkids⟩ := hat
    obtain ⟨hall, hself⟩ := hfits
    rw [Tree.forall_mem_nodes]
    refine ⟨fun x hx => ?_, fun hjump => ?_⟩
    · obtain ⟨k, hk, hx⟩ := Tree.mem_nodesAll.mp hx
      obtain ⟨c, hc, hkat⟩ := hkids.exists_isAt hk
      cases hpresent : c.isPresent with
      | false =>
        rw [hkat.eq_absent hpresent] at hx
        simp at hx
      | true =>
        obtain ⟨i, hi⟩ := List.mem_iff_getElem?.mp hc
        have hchild := child?_of_slot hn hi hpresent
        exact ih k hk (Tree.fitsAll_iff.mp hall k hk) hkat (follow_child hr hchild)
          (hinside.child hr hn hchild) x hx
    · obtain ⟨b, hb⟩ := hself hjump
      exact ⟨b, hb.imp fun label target => hinside⟩

theorem WellFormed.fits (h : fn.WellFormed t) (hg : fn.nodeGraph = .ok g) : t.Fits g [] := by
  obtain ⟨s, hs, hg⟩ := bind_eq_ok.mp hg
  cases hg
  rw [h.tree_eq] at hs
  have hready : Lowering.Ready [] (Lowering.start : Lowering Ref) :=
    ⟨Lowering.sound_start, fun _ => by simp [Lowering.start, Lowering.waiting], rfl⟩
  have hsettles := Lowering.settled h.isAt h.accepted h.nodup hready hs
  have hscopes : s.scopes = [] := List.forall₂_nil_left_iff.mp hsettles.fills
  refine hsettles.holds ⟨fun _ _ _ => rfl, fun _ _ _ => rfl, fun _ _ => rfl⟩ ?_ fun _ _ => rfl
  intro label b hb
  rw [hscopes] at hb
  cases hb

theorem WellFormed.isSome_target?_iff (h : fn.WellFormed t) (hg : fn.nodeGraph = .ok g) :
    (g.target? c).isSome = true ↔ c ∈ Tree.constructsOf t.nodes := by
  obtain ⟨s, rfl, hlogs⟩ := h.nodeGraph_logs hg
  constructor
  · intro hsome
    by_contra hnot
    rw [hlogs.target_eq hnot] at hsome
    cases hsome
  · exact hlogs.target_made c

/-- In the graph of an accepted function a branch, a table, a return or a trap ends the block in which it
is recorded, and the block has no successors but the targets of its labels, in their order and without
repetitions. A branch with a condition also falls through, to a block of its own that is made after the
others and has no other predecessor. A label stands for the innermost construct around the branch that
has it: the head of a loop, the end of a block. The constructs that have targets are the blocks and loops
of the body. -/
theorem nodeGraph_jumps_end_blocks (hvalid : fn.validate = .ok ()) (hgraph : fn.nodeGraph = .ok g) :
    (∀ b r n, r ∈ g.items b → fn.node? r = some n → n.kind.isJump = true →
      g.Ends (fn.Leads g r) r n b) ∧
    ∀ c, (g.target? c).isSome = true ↔
      ∃ route n, fn.follow fn.body route = some c ∧ fn.node? c = some n ∧
        (n.kind = .block ∨ n.kind = .loop) := by
  obtain ⟨t, ht⟩ := wellFormed_of_validate hvalid
  refine ⟨fun b r n hr hn hjump => ?_, fun c => ?_⟩
  · have hall := ht.nodup_allItems hgraph
    obtain ⟨hmem, -⟩ := (ht.mem_allItems_iff hgraph).mp (mem_allItems.mpr ⟨b, hr⟩)
    obtain ⟨x, hx, rfl⟩ := List.mem_map.mp hmem
    obtain rfl := Option.some.inj (hn.symm.trans (ht.isAt.node?_eq x hx))
    obtain ⟨b', hends⟩ := exists_ends_of_fits (ht.fits hgraph) ht.isAt (s := []) rfl
      (fun hb => by cases hb) x hx hjump
    -- The node is recorded once, so the block that it ends is the one where it was found.
    obtain ⟨before, hitems⟩ := hends.1
    obtain rfl := eq_of_mem_items hall hr (hitems ▸ List.mem_append_right _ (.head _))
    exact hends
  · rw [ht.isSome_target?_iff hgraph, Tree.mem_constructsOf]
    constructor
    · rintro ⟨n, hmem, hkind⟩
      have hn := ht.isAt.node?_eq _ hmem
      obtain ⟨route, hroute⟩ :=
        (mem_handles_iff ht.isAt hn).mp (List.mem_map.mpr ⟨_, hmem, rfl⟩)
      exact ⟨route, n, hroute, hn, Kind.isConstruct_iff.mp hkind⟩
    · rintro ⟨route, n, hroute, hn, hkind⟩
      obtain ⟨x, hx, rfl⟩ := List.mem_map.mp ((mem_handles_iff ht.isAt hn).mpr ⟨route, hroute⟩)
      obtain rfl := Option.some.inj (hn.symm.trans (ht.isAt.node?_eq x hx))
      exact ⟨x.2, hx, Kind.isConstruct_iff.mpr hkind⟩

theorem nodeGraph_jumps_end_blocks_crossroads :
    ∃ g, crossroads.validate = .ok () ∧ crossroads.nodeGraph = .ok g ∧
      g.items 1 = [4, 3] ∧ g.succ 1 = [1, 3] ∧
      g.Ends (crossroads.Leads g 3) 3 { kind := .br, label := "again", kids := [.absent, 4] } 1 ∧
      g.items 3 = [6, 5] ∧ g.succ 3 = [1, 4] ∧
      (∃ targets, List.Forall₂ (crossroads.Leads g 5) ["again", "out", "again", "out"] targets ∧
        [1, 4] = targets.eraseDups) ∧
      g.items 6 = [10] ∧ g.succ 6 = [] ∧
      (g.target? 1).isSome = true ∧ (g.target? 8).isSome = false := by
  have hvalid : crossroads.validate = .ok () := by cbv
  obtain ⟨g, hgraph, hitems₁, hsucc₁, hitems₃, hsucc₃, hitems₆⟩ : ∃ g, crossroads.nodeGraph = .ok g ∧
      g.items 1 = [4, 3] ∧ g.succ 1 = [1, 3] ∧ g.items 3 = [6, 5] ∧ g.succ 3 = [1, 4] ∧
      g.items 6 = [10] :=
    ⟨_, by cbv, rfl, rfl, rfl, rfl, rfl⟩
  obtain ⟨hjumps, htargets⟩ := nodeGraph_jumps_end_blocks hvalid hgraph
  have htable := (hjumps 3 5 _ (by simp [hitems₃]) rfl rfl).2
  refine ⟨g, hvalid, hgraph, hitems₁, hsucc₁, hjumps 1 3 _ (by simp [hitems₁]) rfl rfl, hitems₃,
    hsucc₃, hsucc₃ ▸ htable, hitems₆, (hjumps 6 10 _ (by simp [hitems₆]) rfl rfl).2, ?_, ?_⟩
  · exact (htargets 1).mpr ⟨[0], _, rfl, rfl, .inr rfl⟩
  · -- An if has no target.
    rw [Bool.eq_false_iff]
    intro hsome
    obtain ⟨route, n, -, hn, hkind⟩ := (htargets 8).mp hsome
    obtain rfl := Option.some.inj hn
    rcases hkind with hkind | hkind <;> cases hkind

end Function

end LocalFlow
