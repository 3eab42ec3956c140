import Mathlib
import LocalFlow.Proofs.Function.Rewriting
import LocalFlow.Proofs.Graph.Coverage
import LocalFlow.Proofs.Graph.Items
import LocalFlow.Proofs.Graph.Resolution

/-! What lowering a tree leaves behind: its nodes, each where it is evaluated and all in the order of
evaluation, and the targets of its blocks and loops. -/

namespace LocalFlow

open LocalFlow.Graph

namespace Graph

variable {α : Type} {g : Graph α} {r r' : Ref} {target : Target}

theorem lookup_placeTarget (targets : List (Ref × Target)) :
    (placeTarget r target targets).lookup r' =
      if r' = r then some target else targets.lookup r' := by
  induction targets with
  | nil => by_cases h : r' = r <;> simp [placeTarget, List.lookup_cons, beq_eq_decide, h]
  | cons entry rest ih =>
    unfold placeTarget
    split
    · rw [List.lookup_cons]
      by_cases h : r' = r <;> simp [h, beq_eq_decide]
    · split
      · rename_i hr
        rw [List.lookup_cons, List.lookup_cons, ← hr]
        by_cases h : r' = r <;> simp [h, beq_eq_decide]
      · rename_i hr
        rw [List.lookup_cons, List.lookup_cons, ih]
        by_cases h : r' = r
        · subst h
          simp [hr, beq_eq_decide]
        · simp [h]

theorem target?_setTarget :
    (g.setTarget r target).target? r' = if r' = r then some target else g.target? r' :=
  lookup_placeTarget g.targets

@[simp]
theorem items_setTarget (b : Nat) : (g.setTarget r target).items b = g.items b := rfl

@[simp]
theorem targets_link (a b : Nat) : (g.link a b).targets = g.targets := by
  unfold link
  split <;> rfl

end Graph

/-- A block or loop, which branches may name. -/
def Kind.isConstruct : Kind → Bool
  | .block | .loop => true
  | _ => false

theorem Kind.isConstruct_iff {kind : Kind} :
    kind.isConstruct = true ↔ kind = .block ∨ kind = .loop := by
  cases kind <;> simp [isConstruct]

namespace Tree

variable {α : Type} {r : Ref} {n : Node} {kids : List (Unit → Tree)}

def recordedOf (recorder : Ref → Option α) (nodes : List (Ref × Node)) : List α :=
  (nodes.filter fun x => !x.2.kind.isStructured).filterMap fun x => recorder x.1

def constructsOf (nodes : List (Ref × Node)) : List Ref :=
  (nodes.filter fun x => x.2.kind.isConstruct).map (·.1)

theorem recordedOf_append (recorder : Ref → Option α) (xs ys : List (Ref × Node)) :
    recordedOf recorder (xs ++ ys) = recordedOf recorder xs ++ recordedOf recorder ys := by
  simp [recordedOf]

theorem recordedOf_some (nodes : List (Ref × Node)) :
    recordedOf some nodes = (nodes.filter fun x => !x.2.kind.isStructured).map (·.1) := by
  simp [recordedOf]

theorem constructsOf_append (xs ys : List (Ref × Node)) :
    constructsOf (xs ++ ys) = constructsOf xs ++ constructsOf ys := by
  simp [constructsOf]

theorem mem_constructsOf {nodes : List (Ref × Node)} :
    r ∈ constructsOf nodes ↔ ∃ n, (r, n) ∈ nodes ∧ n.kind.isConstruct = true := by
  simp [constructsOf]

end Tree

namespace Lowering

variable {α : Type} {recorder : Ref → Option α} {s s' s₁ s₂ s₃ : Lowering α} {rest : List Nat}
  {order order₁ order₂ : List α} {made made₁ made₂ : List Ref} {b : Nat} {r : Ref} {n : Node}
  {kids : List (Unit → Tree)} {fn : Function} {t : Tree}

/-- On the way from `s` to `s'` nothing is recorded and no construct gets a target. -/
structure Silent (s s' : Lowering α) : Prop where
  items_eq : ∀ b, s'.graph.items b = s.graph.items b
  targets_eq : s'.graph.targets = s.graph.targets

/-- On the way from `s` to `s'` the items in `order` are recorded, each behind those that come before
it, and the constructs in `made` get their targets. -/
structure Logs (order : List α) (made : List Ref) (s s' : Lowering α) : Prop where
  items_eq : ∀ b, ∃ added, added.Sublist order ∧ s'.graph.items b = s.graph.items b ++ added
  recorded : ∀ x ∈ order, ∃ b, x ∈ s'.graph.items b
  target_eq : ∀ {r}, r ∉ made → s'.graph.target? r = s.graph.target? r
  target_made : ∀ r ∈ made, (s'.graph.target? r).isSome = true

namespace Silent

theorem refl (s : Lowering α) : Silent s s := ⟨fun _ => rfl, rfl⟩

theorem trans (h : Silent s₁ s₂) (h' : Silent s₂ s₃) : Silent s₁ s₃ :=
  ⟨fun b => (h'.items_eq b).trans (h.items_eq b), h'.targets_eq.trans h.targets_eq⟩

theorem logs (h : Silent s s') : Logs [] [] s s' :=
  ⟨fun b => ⟨[], .refl _, by rw [h.items_eq, List.append_nil]⟩, by simp,
    fun _ => by rw [target?, target?, h.targets_eq], by simp⟩

end Silent

theorem silent_fresh (s : Lowering α) : Silent s s.fresh.1 := by
  refine ⟨fun b => ?_, rfl⟩
  simp only [fresh, items_addBlock]
  split
  · rename_i hb
    rw [items_eq_nil (Nat.le_of_eq hb.symm)]
  · rfl

theorem silent_linkTo (h : s.linkTo b = .ok s') : Silent s s' := by
  obtain ⟨-, -, rfl⟩ := linkTo_eq_ok.mp h
  exact ⟨fun _ => items_link, targets_link _ _⟩

theorem silent_moveTo (s : Lowering α) (b : Nat) : Silent s (s.moveTo b) := ⟨fun _ => rfl, rfl⟩

theorem silent_enter (s : Lowering α) (scope : Scope) : Silent s (s.enter scope) :=
  ⟨fun _ => rfl, rfl⟩

theorem silent_leave (s : Lowering α) (scopes : List Scope) : Silent s { s with scopes } :=
  ⟨fun _ => rfl, rfl⟩

theorem silent_goTo (h : s.goTo b = .ok s') : Silent s s' := by
  obtain ⟨s₁, hlink, rfl⟩ := goTo_eq_ok.mp h
  exact (silent_linkTo hlink).trans (silent_moveTo s₁ b)

theorem silent_fork {c : Nat} (h : s.fork b c = .ok s') : Silent s s' := by
  obtain ⟨s₁, hfirst, s₂, hsecond, rfl⟩ := fork_eq_ok.mp h
  exact (silent_linkTo hfirst).trans ((silent_linkTo hsecond).trans (silent_moveTo s₂ b))

theorem silent_moveOn (s : Lowering α) : Silent s s.moveOn :=
  (silent_fresh s).trans (silent_moveTo _ _)

theorem silent_fallOn (h : s.fallOn = .ok s') : Silent s s' :=
  (silent_fresh s).trans (silent_goTo h)

theorem silent_linkAll {targets : List Nat} (h : targets.foldlM linkTo s = .ok s') : Silent s s' :=
  foldlM_keeps (P := Silent s) (fun _ _ _ _ hlink hs => hs.trans (silent_linkTo hlink)) h (.refl s)

theorem silent_openArms (h : s.openArms = .ok s') : Silent s s' :=
  (silent_fresh s).trans ((silent_fresh _).trans ((silent_fresh _).trans (silent_fork h)))

theorem silent_openArm (h : s.openArm = .ok s') : Silent s s' :=
  (silent_fresh s).trans ((silent_fresh _).trans (silent_fork h))

theorem silent_leaveLoop (h : s.leaveLoop b = .ok s') : Silent s s' := by
  obtain ⟨scope, scopes, -, hgo⟩ := leaveLoop_eq_ok.mp h
  exact (silent_leave s scopes).trans (silent_goTo hgo)

theorem silent_resolve {label : String} (h : s.resolve label = .ok (s', b)) : Silent s s' := by
  obtain ⟨-, -, -, ⟨-, rfl⟩ | ⟨-, scopes, rfl, -⟩⟩ := resolve_cases h
  · split
    · exact .refl s
    · exact silent_fresh s
  · exact ⟨(silent_fresh s).items_eq, rfl⟩

theorem silent_resolveAll {names : List String} {targets : List Nat}
    (h : s.resolveAll names = .ok (s', targets)) : Silent s s' := by
  induction names generalizing s targets with
  | nil =>
    cases h
    exact .refl _
  | cons name names ih =>
    obtain ⟨⟨s₁, b⟩, hb, h⟩ := bind_eq_ok.mp h
    obtain ⟨⟨s₂, bs⟩, hbs, h⟩ := bind_eq_ok.mp h
    cases h
    exact (silent_resolve hb).trans (ih hbs)

namespace Logs

theorem trans (h : Logs order₁ made₁ s₁ s₂) (h' : Logs order₂ made₂ s₂ s₃) :
    Logs (order₁ ++ order₂) (made₁ ++ made₂) s₁ s₃ := by
  constructor
  case items_eq =>
    intro b
    obtain ⟨added, hadded, hitems⟩ := h.items_eq b
    obtain ⟨added', hadded', hitems'⟩ := h'.items_eq b
    exact ⟨added ++ added', hadded.append hadded', by rw [hitems', hitems, List.append_assoc]⟩
  case recorded =>
    intro x hx
    rcases List.mem_append.mp hx with hx | hx
    · obtain ⟨b, hb⟩ := h.recorded x hx
      obtain ⟨added, -, hitems⟩ := h'.items_eq b
      exact ⟨b, hitems ▸ List.mem_append_left _ hb⟩
    · exact h'.recorded x hx
  case target_eq =>
    intro r hr
    rw [List.mem_append, not_or] at hr
    exact (h'.target_eq hr.2).trans (h.target_eq hr.1)
  case target_made =>
    intro r hr
    by_cases hmade : r ∈ made₂
    · exact h'.target_made r hmade
    · rw [h'.target_eq hmade]
      exact h.target_made r ((List.mem_append.mp hr).resolve_right hmade)

theorem after (h : Logs order made s₁ s') (hs : Silent s s₁) : Logs order made s s' :=
  hs.logs.trans h

theorem before (h : Logs order made s s₁) (hs : Silent s₁ s') : Logs order made s s' := by
  simpa using h.trans hs.logs

theorem congr (h : Logs order made₁ s s') (hmade : ∀ r, r ∈ made₁ ↔ r ∈ made₂) :
    Logs order made₂ s s' :=
  ⟨h.items_eq, h.recorded, fun hr => h.target_eq fun hr' => hr ((hmade _).mp hr'),
    fun r hr => h.target_made r ((hmade r).mpr hr)⟩

end Logs

theorem logs_record (h : s.record recorder r = .ok s') : Logs (recorder r).toList [] s s' := by
  rcases record_cases h with ⟨hnone, rfl⟩ | ⟨item, hitem, hs, rfl⟩
  · rw [hnone]
    exact (Silent.refl s').logs
  · rw [hitem]
    refine ⟨fun b => ?_, fun x hx => ⟨s.current, ?_⟩, fun _ => rfl, by simp⟩
    · simp only [items_record item hs]
      split
      · rename_i hb
        exact ⟨[item], .refl _, by rw [hb]⟩
      · exact ⟨[], List.nil_sublist _, by rw [List.append_nil]⟩
    · rw [items_record item hs, if_pos rfl]
      exact List.mem_append_right _ hx

theorem logs_setTarget (s : Lowering α) (r : Ref) (target : Target) :
    Logs [] [r] s { s with graph := s.graph.setTarget r target } := by
  refine ⟨fun b => ⟨[], .refl _, by simp⟩, by simp, fun hr => ?_, fun x hx => ?_⟩
  · rw [target?_setTarget, if_neg (by simpa using hr)]
  · rw [target?_setTarget, if_pos (by simpa using hx)]
    rfl

theorem logs_leaveBlock (h : s.leaveBlock r = .ok s') : Logs [] [r] s s' := by
  obtain ⟨_, scopes, out, -, hout, rfl⟩ := leaveBlock_cases h
  refine (logs_setTarget out r { exit := out.current }).after ?_
  rcases hout with ⟨-, rfl⟩ | ⟨exit, -, hgo⟩
  · exact silent_leave s scopes
  · exact (silent_leave s scopes).trans (silent_goTo hgo)

theorem logs_enterLoop {label : String} (h : s.enterLoop r label = .ok (s', b)) :
    Logs [] [r] s s' := by
  obtain ⟨-, s₁, hgo, rfl⟩ := enterLoop_eq_ok h
  have hbefore := (silent_fresh s).trans ((silent_fresh _).trans (silent_goTo hgo))
  exact ((logs_setTarget s₁ r _).before (silent_enter _ _)).after hbefore

def Logged (recorder : Ref → Option α) (t : Tree) : Prop :=
  ∀ ⦃s s'⦄, visit recorder t s = .ok s' →
    Logs (Tree.recordedOf recorder t.nodes) (Tree.constructsOf t.nodes) s s'

theorem logged_slot (hkids : ∀ k ∈ kids, Logged recorder (k ())) (i : Nat) :
    Logged recorder (Tree.slot kids i) := by
  apply Tree.slot_of_kids hkids
  intro s s' h
  cases h
  exact (Silent.refl s).logs

theorem visitAll_logs (hkids : ∀ k ∈ kids, Logged recorder (k ()))
    (h : visitAll recorder kids s = .ok s') :
    Logs (Tree.recordedOf recorder (Tree.nodesAll kids)) (Tree.constructsOf (Tree.nodesAll kids))
      s s' := by
  induction kids generalizing s with
  | nil =>
    cases h
    exact (Silent.refl _).logs
  | cons k kids ih =>
    obtain ⟨s₁, hk, h⟩ := bind_eq_ok.mp h
    have hrest := ih (fun k hk => hkids k (by simp [hk])) h
    rw [Tree.nodesAll, Tree.recordedOf_append, Tree.constructsOf_append]
    exact (hkids k (by simp) hk).trans hrest

theorem block_logs (hkind : n.kind = .block) (hkids : ∀ k ∈ kids, Logged recorder (k ()))
    (h₁ : visitAll recorder kids (s.enter (.block n.label none)) = .ok s₁)
    (hleave : s₁.leaveBlock r = .ok s') :
    Logs (Tree.recordedOf recorder (Tree.node r n kids).nodes)
      (Tree.constructsOf (Tree.node r n kids).nodes) s s' := by
  rw [Tree.nodes, Tree.recordedOf_append, Tree.constructsOf_append]
  have hself : Tree.recordedOf recorder [(r, n)] = [] ∧ Tree.constructsOf [(r, n)] = [r] := by
    simp [Tree.recordedOf, Tree.constructsOf, hkind, Kind.isStructured, Kind.isConstruct]
  rw [hself.1, hself.2]
  exact ((visitAll_logs hkids h₁).trans (logs_leaveBlock hleave)).after (silent_enter s _)

theorem loop_logs (hkind : n.kind = .loop) (hlen : kids.length ≤ 1)
    (hkids : ∀ k ∈ kids, Logged recorder (k ())) (henter : s.enterLoop r n.label = .ok (s₁, b))
    (h₁ : visit recorder (Tree.slot kids 0) s₁ = .ok s₂) (hleave : s₂.leaveLoop b = .ok s') :
    Logs (Tree.recordedOf recorder (Tree.node r n kids).nodes)
      (Tree.constructsOf (Tree.node r n kids).nodes) s s' := by
  have hbody := (logs_enterLoop henter).trans (logged_slot hkids 0 h₁)
  have hnodes : (Tree.node r n kids).nodes = (Tree.slot kids 0).nodes ++ [(r, n)] := by
    rw [Tree.nodes, Tree.nodesAll_eq_slots (by omega), Tree.slot_eq_absent hlen,
      Tree.slot_eq_absent (i := 2) (by omega)]
    simp
  have hself : Tree.recordedOf recorder [(r, n)] = [] ∧ Tree.constructsOf [(r, n)] = [r] := by
    simp [Tree.recordedOf, Tree.constructsOf, hkind, Kind.isStructured, Kind.isConstruct]
  rw [hnodes, Tree.recordedOf_append, Tree.constructsOf_append, hself.1, hself.2, List.append_nil]
  exact (hbody.before (silent_leaveLoop hleave)).congr fun x => by
    rw [List.mem_append, List.mem_append, or_comm]

theorem if_logs (hkind : n.kind = .ifElse) (hlen : kids.length ≤ 3)
    (h : Logs
      (Tree.recordedOf recorder (Tree.slot kids 0).nodes ++
        (Tree.recordedOf recorder (Tree.slot kids 1).nodes ++
          Tree.recordedOf recorder (Tree.slot kids 2).nodes))
      (Tree.constructsOf (Tree.slot kids 0).nodes ++ (Tree.constructsOf (Tree.slot kids 1).nodes ++
        Tree.constructsOf (Tree.slot kids 2).nodes)) s s') :
    Logs (Tree.recordedOf recorder (Tree.node r n kids).nodes)
      (Tree.constructsOf (Tree.node r n kids).nodes) s s' := by
  have hself : Tree.recordedOf recorder [(r, n)] = [] ∧ Tree.constructsOf [(r, n)] = [] := by
    simp [Tree.recordedOf, Tree.constructsOf, hkind, Kind.isStructured, Kind.isConstruct]
  rw [Tree.nodes, Tree.nodesAll_eq_slots hlen]
  simpa only [Tree.recordedOf_append, Tree.constructsOf_append, hself.1, hself.2, List.append_nil]
    using h

/-- Any other node is recorded after its children, and what comes before and behind that is silent. -/
theorem placed_logs (h : Placed recorder r n s s') : Logs (recorder r).toList [] s s' := by
  cases h with
  | br _ _ h hrecord hlink =>
    exact ((logs_record hrecord).after (silent_resolve h)).before
      ((silent_linkTo hlink).trans (silent_moveOn _))
  | brIf _ _ h hrecord hlink hfall =>
    exact ((logs_record hrecord).after (silent_resolve h)).before
      ((silent_linkTo hlink).trans (silent_fallOn hfall))
  | brTable _ h hrecord hlinks =>
    exact ((logs_record hrecord).after (silent_resolveAll h)).before
      ((silent_linkAll hlinks).trans (silent_moveOn _))
  | leaving _ hrecord => exact (logs_record hrecord).before (silent_moveOn _)
  | going _ hrecord => exact logs_record hrecord

theorem plain_logs (hplain : n.kind.isStructured = false)
    (hkids : ∀ k ∈ kids, Logged recorder (k ())) (h₁ : visitAll recorder kids s = .ok s₁)
    (h : Placed recorder r n s₁ s') :
    Logs (Tree.recordedOf recorder (Tree.node r n kids).nodes)
      (Tree.constructsOf (Tree.node r n kids).nodes) s s' := by
  have hnot : n.kind.isConstruct = false := by
    revert hplain
    cases n.kind <;> simp [Kind.isStructured, Kind.isConstruct]
  have hself : Tree.recordedOf recorder [(r, n)] = (recorder r).toList ∧
      Tree.constructsOf [(r, n)] = [] := by
    cases hr : recorder r <;> simp [Tree.recordedOf, Tree.constructsOf, hplain, hnot, hr]
  rw [Tree.nodes, Tree.recordedOf_append, Tree.constructsOf_append, hself.1, hself.2]
  exact (visitAll_logs hkids h₁).trans (placed_logs h)

theorem logged (hat : t.IsAt fn r) (haccepted : ∀ x ∈ t.nodes, fn.rejection? x.1 x.2 = none)
    (recorder : Ref → Option α) : Logged recorder t := by
  induction t generalizing r with
  | absent =>
    intro s s' h
    cases h
    exact (Silent.refl s).logs
  | dangling => exact hat.elim
  | endless => exact hat.elim
  | node r n kids ih =>
    obtain ⟨rfl, -, hkids⟩ := hat
    have hself := haccepted (r, n) (by simp [Tree.nodes])
    have ih : ∀ k ∈ kids, Logged recorder (k ()) := by
      intro k hk
      obtain ⟨r', -, hr'⟩ := hkids.exists_isAt hk
      exact ih k hk hr' fun x hx => haccepted x (Tree.mem_nodes_of_kid hk hx)
    intro s s' h
    cases visited_of_visit h with
    | block hkind h₁ hleave => exact block_logs hkind ih h₁ hleave
    | loop hkind henter h₁ hleave =>
      exact loop_logs hkind (Tree.length_le_of_loop hkids hself hkind) ih henter h₁ hleave
    | ifElse hkind _ h₁ hopen h₂ hlink h₃ hgo =>
      obtain ⟨hlen, -⟩ := Tree.length_le_of_if hkids hself hkind
      have hfirst := (logged_slot ih 1 h₂).after (silent_openArms hopen)
      have hsecond := (logged_slot ih 2 h₃).after ((silent_linkTo hlink).trans (silent_moveTo _ _))
      exact if_logs hkind hlen ((logged_slot ih 0 h₁).trans
        (hfirst.trans (hsecond.before (silent_goTo hgo))))
    | ifThen hkind hnone h₁ hopen h₂ hgo =>
      obtain ⟨hlen, habsent⟩ := Tree.length_le_of_if hkids hself hkind
      have hfirst := (logged_slot ih 1 h₂).after (silent_openArm hopen)
      refine if_logs hkind hlen ((logged_slot ih 0 h₁).trans ?_)
      -- There is no third child that could be missed.
      rw [Tree.slot_eq_absent (habsent hnone)]
      exact hfirst.trans (silent_goTo hgo).logs
    | plain hplain h₁ hplaced => exact plain_logs hplain ih h₁ hplaced

end Lowering

namespace Function

variable {fn : Function} {g : Graph Ref} {t : Tree} {b : Nat} {r : Ref}

theorem WellFormed.nodup_allItems (h : fn.WellFormed t) (hg : fn.nodeGraph = .ok g) :
    g.allItems.Nodup := by
  obtain ⟨items, hperm, hitems⟩ := lower_allItems_subperm hg
  have hkept : t.kept some = t.nodes.map (·.1) := by simp [Tree.kept]
  rw [h.tree_eq, hkept] at hitems
  exact hperm.nodup_iff.mp (hitems.nodup h.nodup)

theorem WellFormed.nodeGraph_logs (h : fn.WellFormed t) (hg : fn.nodeGraph = .ok g) :
    ∃ s, s.graph = g ∧ Lowering.Logs (Tree.recordedOf some t.nodes) (Tree.constructsOf t.nodes)
      .start s := by
  obtain ⟨s, hs, hg⟩ := bind_eq_ok.mp hg
  cases hg
  rw [h.tree_eq] at hs
  exact ⟨s, rfl, Lowering.logged h.isAt h.accepted some hs⟩

theorem WellFormed.items_sublist (h : fn.WellFormed t) (hg : fn.nodeGraph = .ok g) (b : Nat) :
    (g.items b).Sublist (Tree.recordedOf some t.nodes) := by
  obtain ⟨s, rfl, hlogs⟩ := h.nodeGraph_logs hg
  obtain ⟨added, hadded, hitems⟩ := hlogs.items_eq b
  have hstart : (Lowering.start : Lowering Ref).graph.items b = [] := by
    rcases b with _ | b <;> rfl
  rw [hitems, hstart]
  exact hadded

/-- Exactly the nodes that are no block, loop or if are recorded. -/
theorem WellFormed.mem_allItems_iff (h : fn.WellFormed t) (hg : fn.nodeGraph = .ok g) :
    r ∈ g.allItems ↔ r ∈ t.handles ∧ ∃ n, fn.node? r = some n ∧ n.kind.isStructured = false := by
  have hrecorded : r ∈ g.allItems ↔ r ∈ Tree.recordedOf some t.nodes := by
    rw [mem_allItems]
    constructor
    · rintro ⟨b, hb⟩
      exact (h.items_sublist hg b).subset hb
    · obtain ⟨s, rfl, hlogs⟩ := h.nodeGraph_logs hg
      exact hlogs.recorded r
  rw [hrecorded, Tree.recordedOf_some, Tree.handles]
  simp only [List.mem_map, List.mem_filter, Bool.not_eq_true']
  constructor
  · rintro ⟨x, ⟨hx, hplain⟩, rfl⟩
    exact ⟨⟨x, hx, rfl⟩, x.2, h.isAt.node?_eq x hx, hplain⟩
  · rintro ⟨⟨x, hx, rfl⟩, n, hn, hplain⟩
    obtain rfl := Option.some.inj (hn.symm.trans (h.isAt.node?_eq x hx))
    exact ⟨x, ⟨hx, hplain⟩, rfl⟩

/-- In the graph of an accepted function every node of the body that is no block, loop or if is recorded
once, and nothing else is recorded. The nodes in a block stand in the order in which they are evaluated,
children first. -/
theorem nodeGraph_records_in_order (hvalid : fn.validate = .ok ()) (hgraph : fn.nodeGraph = .ok g) :
    ∃ refs, fn.postOrder fn.body = .ok refs ∧ refs.Nodup ∧
      (∀ r, r ∈ refs ↔ ∃ route n, fn.follow fn.body route = some r ∧ fn.node? r = some n) ∧
      g.allItems.Nodup ∧
      (∀ r, r ∈ g.allItems ↔ r ∈ refs ∧ ∃ n, fn.node? r = some n ∧ n.kind.isStructured = false) ∧
      ∀ b, (g.items b).Sublist refs := by
  obtain ⟨t, ht⟩ := wellFormed_of_validate hvalid
  refine ⟨t.handles, postOrder_eq ht.isAt, ht.nodup, fun r => mem_handles_iff_exists ht.isAt,
    ht.nodup_allItems hgraph, fun r => ht.mem_allItems_iff hgraph, fun b => ?_⟩
  refine (ht.items_sublist hgraph b).trans ?_
  rw [Tree.recordedOf_some]
  exact List.filter_sublist.map _

/-- A loop that starts over or is left by a table with repeated labels, and behind it an if that is never
reached and of which one arm does not return. -/
def crossroads : Function where
  name := "crossroads"
  params := [.i32]
  body := 0
  nodes := #[
    { kind := .block, label := "out", kids := [1, 7] },
    { kind := .loop, label := "again", kids := [2] },
    { kind := .block, kids := [3, 5] },
    { kind := .br, label := "again", kids := [.absent, 4] },
    { kind := .localGet, type := .i32, index := 0 },
    { kind := .brTable, labels := ["again", "out", "again"], label := "out", kids := [.absent, 6] },
    { kind := .localGet, type := .i32, index := 0 },
    { kind := .drop, kids := [8] },
    { kind := .ifElse, type := .i32, kids := [9, 10, 11] },
    { kind := .localGet, type := .i32, index := 0 },
    { kind := .unreachable },
    { kind := .const, type := .i32 }]

theorem nodeGraph_records_in_order_crossroads :
    ∃ g, crossroads.validate = .ok () ∧ crossroads.nodeGraph = .ok g ∧
      crossroads.postOrder crossroads.body = .ok [4, 3, 6, 5, 2, 1, 9, 10, 11, 8, 7, 0] ∧
      g.allItems = [4, 3, 9, 6, 5, 10, 11, 7] ∧ g.allItems.Nodup ∧ 8 ∉ g.allItems ∧
      ∀ b, (g.items b).Sublist [4, 3, 6, 5, 2, 1, 9, 10, 11, 8, 7, 0] := by
  have hvalid : crossroads.validate = .ok () := by cbv
  obtain ⟨g, hgraph, hitems⟩ : ∃ g, crossroads.nodeGraph = .ok g ∧
      g.allItems = [4, 3, 9, 6, 5, 10, 11, 7] :=
    ⟨_, by cbv, rfl⟩
  have horder : crossroads.postOrder crossroads.body =
    .ok [4, 3, 6, 5, 2, 1, 9, 10, 11, 8, 7, 0] := by cbv
  obtain ⟨refs, hrefs, -, -, hnodup, hmem, hsublist⟩ := nodeGraph_records_in_order hvalid hgraph
  obtain rfl := Except.ok.inj (horder.symm.trans hrefs)
  refine ⟨g, hvalid, hgraph, horder, hitems, hnodup, fun h => ?_, hsublist⟩
  -- Handle 8 is that of the if.
  obtain ⟨-, n, hn, hplain⟩ := (hmem 8).mp h
  obtain rfl := Option.some.inj hn
  cases hplain

end Function

end LocalFlow
