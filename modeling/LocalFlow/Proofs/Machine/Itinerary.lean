import Mathlib
import LocalFlow.Function.Validation
import LocalFlow.Proofs.Graph.Coverage
import LocalFlow.Proofs.Graph.Lowering
import LocalFlow.Proofs.Graph.Passage
import LocalFlow.Proofs.Machine.Simulation

/-! The way of a run through the control-flow graph. The nodes that a run applies, one after another,
are the items of the blocks along a path from the entry. A run that ends anywhere but at a division
ends where a block ends. -/

namespace LocalFlow

open LocalFlow.Graph

namespace Completion

variable {α β : Type} {g : Graph Ref} {labels : Labels} {divides : Ref → Prop} {p q mid : Point}
  {c : Completion α} {label : String}

/-- How far an evaluation has come along a path when it ends: a value is there at `q`, a branch has
jumped to the block of its label, and any other signal comes at the end of a block, unless the node
applied last is a division that trapped. -/
def OnPath (g : Graph Ref) (divides : Ref → Prop) (labels : Labels) (q : Point) :
    Completion α → Prop
  | .value _ m => g.Passed q m.applied.reverse
  | .signal (.branch label _) m => ∃ b, label ≠ "" ∧ labels label = some b ∧
      g.Passed (b, 0) m.applied.reverse ∧ g.Traversed m.applied.reverse
  | .signal .trap m => g.Traversed m.applied.reverse ∨
      (∃ p, g.Passed p m.applied.reverse) ∧ ∃ r, m.applied.head? = some r ∧ divides r
  | .signal _ m => g.Traversed m.applied.reverse
  | .fault _ => True

theorem OnPath.bind {next : α → Machine → Completion β} (h : c.OnPath g divides labels mid)
    (hnext : ∀ x m, g.Passed mid m.applied.reverse → (next x m).OnPath g divides labels q) :
    (c.bind next).OnPath g divides labels q := by
  cases c with
  | value x m => exact hnext x m h
  | signal s m =>
    cases s with
    | _ => exact h
  | fault f => trivial

theorem OnPath.pass (h : c.OnPath g divides labels mid)
    (hpass : ∀ {xs}, g.Passed mid xs → g.Passed q xs) : c.OnPath g divides labels q := by
  cases c with
  | value x m => exact hpass h
  | signal s m =>
    cases s with
    | _ => exact h
  | fault f => trivial

theorem OnPath.jump {b : Nat} (h : c.OnPath g divides labels mid) (hjump : g.Jumps mid b) :
    c.OnPath g divides labels (b, 0) :=
  h.pass fun hpassed => hpassed.jump hjump

/-- A block takes the branches to its label, which have jumped to its exit. -/
theorem OnPath.atBlock {c : Completion UInt64} {exit : Option Nat}
    (h : c.OnPath g divides (Function.update labels label exit) q)
    (hexit : ∀ b, exit = some b → q = (b, 0)) :
    (c.atBlock label).OnPath g divides labels q := by
  cases c with
  | value x m => exact h
  | signal s m =>
    cases s with
    | branch target x =>
      obtain ⟨b, hne, hb, hpassed, htraversed⟩ := h
      by_cases htarget : target = label
      · subst htarget
        rw [Function.update_self] at hb
        have hq := hexit b hb
        simp only [Completion.atBlock, hne, ne_eq, not_false_eq_true, decide_true, Bool.and_self,
          if_true]
        exact hq ▸ hpassed
      · rw [Function.update_of_ne htarget] at hb
        simp only [Completion.atBlock, htarget, decide_false, Bool.and_false, Bool.false_eq_true,
          if_false]
        exact ⟨b, hne, hb, hpassed, htraversed⟩
    | _ => exact h
  | fault f => trivial

end Completion

section Evaluation

variable {fn : Function} {g : Graph Ref} {labels : Labels} {divides : Ref → Prop} {p q mid : Point}
  {r : Ref} {n : Node} {m : Machine} {kids : List (Unit → Tree)} {t : Tree}

/-- Each time a loop starts over, it does so from its head, where the last branch has jumped. -/
theorem Machine.repeatLoop_onPath {label : String} {body : Machine → Completion UInt64}
    {head count : Nat}
    (hbody : ∀ m, g.Passed (head, 0) m.applied.reverse →
      (body m).OnPath g divides (Function.update labels label (some head)) mid)
    (hm : g.Passed (head, 0) m.applied.reverse) (hm' : g.Traversed m.applied.reverse) :
    (repeatLoop label body count m).OnPath g divides labels mid := by
  -- With no turn left the run ends at the head, which a jump has reached from the end of a block.
  induction count generalizing m with
  | zero => exact hm'
  | succ count ih =>
    have h := hbody m hm
    rw [repeatLoop]
    cases hc : body m with
    | value x m₁ =>
      rw [hc] at h
      exact h
    | signal s m₁ =>
      rw [hc] at h
      cases s with
      | branch target x =>
        obtain ⟨b, hne, hb, hpassed, htraversed⟩ := h
        simp only
        by_cases htarget : target = label
        · subst htarget
          rw [Function.update_self] at hb
          obtain rfl := Option.some.inj hb
          rw [if_pos rfl]
          cases m₁.fuel with
          | zero => exact htraversed
          | succ fuel => exact ih hpassed htraversed
        · rw [if_neg htarget]
          rw [Function.update_of_ne htarget] at hb
          exact ⟨b, hne, hb, hpassed, htraversed⟩
      | _ => exact h
    | fault f => trivial

/-- A node is applied where it is recorded, and evaluation departs from there. -/
theorem Node.apply_onPath (hdivides : n.kind = .binary → n.op = .divU → divides r)
    (hrecords : g.Records some r p mid) (hdeparts : g.Departs labels n mid q)
    (hm : g.Passed p m.applied.reverse) (args : List UInt64) :
    (n.apply args (m.noteApplied r)).OnPath g divides labels q := by
  obtain ⟨hitem, rfl⟩ := hrecords
  have hpassed : g.Passed (p.1, p.2 + 1) (m.noteApplied r).applied.reverse := by
    rw [Machine.noteApplied, List.reverse_cons]
    exact hm.step hitem
  have hends := n.apply_ends args (m.noteApplied r)
  generalize n.apply args (m.noteApplied r) = c at hends ⊢
  cases hends with
  | value x hgo halters =>
    rw [← halters.applied_eq] at hpassed
    rcases hdeparts.of_mayGoOn hgo with rfl | ⟨hjump, hzero⟩
    · exact hpassed
    · have hq : q = (q.1, 0) := by rw [← hzero]
      rw [hq]
      exact hpassed.jump hjump
  | branch label x hlabel =>
    obtain ⟨hne, b, hb, hjump⟩ := hdeparts.of_mayBranch hlabel
    exact ⟨b, hne, hb, hpassed.jump hjump, hpassed.traversed hjump.1⟩
  | ret x hkind =>
    simp only [Departs, hkind] at hdeparts
    exact hpassed.traversed hdeparts
  | trap hkind =>
    rcases hkind with hkind | ⟨hkind, hop⟩
    · simp only [Departs, hkind] at hdeparts
      exact .inl (hpassed.traversed hdeparts)
    · exact .inr ⟨⟨_, hpassed⟩, r, rfl, hdivides hkind hop⟩
  | fault f => trivial

namespace Tree

/-- Wherever the tree lies, evaluating it keeps to the paths of the graph. -/
def KeepsToPaths (g : Graph Ref) (divides : Ref → Prop) (t : Tree) : Prop :=
  ∀ {labels p q m}, g.Lays some labels t p q → g.Passed p m.applied.reverse →
    (t.eval m).OnPath g divides labels q

theorem evalAll_onPath (ih : ∀ k ∈ kids, (k ()).KeepsToPaths g divides)
    (h : g.LaysAll some labels kids p q) (hm : g.Passed p m.applied.reverse) :
    (evalAll kids m).OnPath g divides labels q := by
  induction kids generalizing p m with
  | nil =>
    cases h
    exact hm
  | cons k kids ihk =>
    cases h with
    | cons hk hkids =>
      rw [evalAll]
      refine (ih k (by simp) hk hm).bind fun x m₁ hm₁ => ?_
      refine (ihk (fun k hk => ih k (.tail _ hk)) hkids hm₁).bind fun xs m₂ hm₂ => ?_
      exact hm₂

theorem evalItems_onPath (ih : ∀ k ∈ kids, (k ()).KeepsToPaths g divides)
    (h : g.LaysAll some labels kids p q) (hm : g.Passed p m.applied.reverse) (last : UInt64) :
    (evalItems kids last m).OnPath g divides labels q := by
  induction kids generalizing p m last with
  | nil =>
    cases h
    exact hm
  | cons k kids ihk =>
    cases h with
    | cons hk hkids =>
      rw [evalItems]
      refine (ih k (by simp) hk hm).bind fun x m₁ hm₁ => ?_
      exact ihk (fun k hk => ih k (.tail _ hk)) hkids hm₁ x

theorem keepsToPaths_slot (ih : ∀ k ∈ kids, (k ()).KeepsToPaths g divides) (i : Nat) :
    (slot kids i).KeepsToPaths g divides := by
  apply slot_of_kids ih
  intro labels p q m h hm
  cases h
  exact hm

/-- Evaluating an accepted tree keeps to the paths of a graph in which it lies. -/
theorem keepsToPaths (hat : t.IsAt fn r)
    (haccepted : ∀ x ∈ t.nodes, fn.rejection? x.1 x.2 = none)
    (hdivides : ∀ x ∈ t.nodes, x.2.kind = .binary → x.2.op = .divU → divides x.1) :
    t.KeepsToPaths g divides := by
  induction t generalizing r with
  | absent =>
    intro labels p q m h hm
    cases h
    exact hm
  | dangling => exact hat.elim
  | endless => exact hat.elim
  | node r n kids ih =>
    obtain ⟨rfl, -, hkids⟩ := hat
    have hself := haccepted (r, n) (by simp [nodes])
    have ih : ∀ k ∈ kids, (k ()).KeepsToPaths g divides := by
      intro k hk
      obtain ⟨r', -, hr'⟩ := hkids.exists_isAt hk
      exact ih k hk hr' (fun x hx => haccepted x (mem_nodes_of_kid hk hx))
        fun x hx => hdivides x (mem_nodes_of_kid hk hx)
    have hslot := keepsToPaths_slot ih
    intro labels p q m h hm
    cases h with
    -- A block that no branch leaves has no exit of its own: evaluation goes on in the block it is in.
    | block hkind hall =>
      rw [eval_block hkind]
      exact (evalItems_onPath ih hall hm 0).atBlock (by simp)
    | leftBlock hkind hall hjump =>
      rw [eval_block hkind]
      have hitems := (evalItems_onPath ih hall hm 0).jump hjump
      exact hitems.atBlock fun b hb => by rw [Option.some.inj hb]
    | loop hkind hhead hbody hexit =>
      rw [eval_loop hkind]
      refine Completion.OnPath.jump ?_ hexit
      apply Machine.repeatLoop_onPath
      · exact fun m hm => hslot 0 hbody hm
      · exact hm.jump hhead
      · exact hm.traversed hhead.1
    | ifThen hkind habsent hcond htrue harm hjoin hskip =>
      have hlen := (length_le_of_if hkids hself hkind).2 habsent
      rw [eval_ifElse hkind, slot_eq_absent hlen]
      refine (hslot 0 hcond hm).bind fun x m₁ hm₁ => ?_
      split
      · exact hm₁.jump hskip
      · exact (hslot 1 harm (hm₁.jump htrue)).jump hjoin
    | ifElse hkind hcond htrue harm hjoin hfalse harm' hjoin' =>
      rw [eval_ifElse hkind]
      refine (hslot 0 hcond hm).bind fun x m₁ hm₁ => ?_
      split
      · exact (hslot 2 harm' (hm₁.jump hfalse)).jump hjoin'
      · exact (hslot 1 harm (hm₁.jump htrue)).jump hjoin
    | plain hkind hall hrecords hdeparts =>
      rw [eval_plain hkind]
      refine (evalAll_onPath ih hall hm).bind fun args m₁ hm₁ => ?_
      exact n.apply_onPath (hdivides (r, n) (by simp [nodes])) hrecords hdeparts hm₁ args

end Tree

end Evaluation

namespace Function

variable {fn : Function} {g : Graph Ref} {args : List UInt64} {fuel : Int64} {trace : Trace}

/-- The nodes that a run applies, in order, blocks, loops and ifs aside. -/
def itinerary (fn : Function) (args : List UInt64) (fuel : Int64) : List Ref :=
  match fn.execute args fuel with
  | .value _ m | .signal _ m => m.applied.reverse
  | .fault _ => []

/-- The node at `r` is an unsigned division. -/
def DividesAt (fn : Function) (r : Ref) : Prop :=
  ∃ n, fn.node? r = some n ∧ n.kind = .binary ∧ n.op = .divU

/-- The run ends in a trap at a division, which is the node applied last. -/
def TrapsDividing (fn : Function) (args : List UInt64) (fuel : Int64) (trace : Trace) : Prop :=
  trace.outcome = .trapped ∧ ∃ r, (fn.itinerary args fuel).getLast? = some r ∧ fn.DividesAt r

theorem execute_onPath (hvalid : fn.validate = .ok ()) (hg : fn.nodeGraph = .ok g)
    (args : List UInt64) (fuel : Int64) :
    g.start? = some 0 ∧ ∃ q : Point, q.2 = (g.items q.1).length ∧
      (fn.execute args fuel).OnPath g fn.DividesAt (fun _ => none) q := by
  obtain ⟨t, ht⟩ := wellFormed_of_validate hvalid
  obtain ⟨-, hstart, q, hlays, hend⟩ := lower_lays_to_end hg
  rw [ht.tree_eq] at hlays
  have hdivides : ∀ x ∈ t.nodes, x.2.kind = .binary → x.2.op = .divU → fn.DividesAt x.1 :=
    fun x hx hkind hop => ⟨x.2, ht.isAt.node?_eq x hx, hkind, hop⟩
  refine ⟨hstart, q, hend, ?_⟩
  rw [execute, ht.tree_eq]
  exact t.keepsToPaths ht.isAt ht.accepted hdivides hlays (.start g)

/-- When a run is over, a whole path is behind it, or it has trapped dividing on its way. -/
theorem traversed_or_trapsDividing (hvalid : fn.validate = .ok ()) (hg : fn.nodeGraph = .ok g)
    (hrun : fn.run args fuel = .ok trace) :
    g.Traversed (fn.itinerary args fuel) ∨
      (∃ p, g.Passed p (fn.itinerary args fuel)) ∧ fn.TrapsDividing args fuel trace := by
  obtain ⟨-, q, hend, honPath⟩ := execute_onPath hvalid hg args fuel
  unfold TrapsDividing itinerary
  unfold run at hrun
  cases hc : fn.execute args fuel with
  | value x m =>
    rw [hc] at honPath
    exact .inl (honPath.traversed hend)
  | signal s m =>
    rw [hc] at honPath hrun
    cases s with
    | branch label x => cases hrun
    | trap =>
      cases hrun
      rcases honPath with htraversed | ⟨hpassed, r, hlast, hdivides⟩
      · exact .inl htraversed
      · exact .inr ⟨hpassed, rfl, r, by simpa using hlast, hdivides⟩
    | _ => exact .inl honPath
  | fault f =>
    rw [hc] at hrun
    cases hrun

/-- The nodes that a run applies are the items along a path from the entry, up to a point of its last
block. Unless the run traps at a division, that point is the end of the block. -/
theorem run_follows_path (hvalid : fn.validate = .ok ()) (hg : fn.nodeGraph = .ok g)
    (hrun : fn.run args fuel = .ok trace) :
    ∃ e path b, g.start? = some e ∧ g.IsPath e path b ∧
      fn.itinerary args fuel <+: path.flatMap g.items ∧
      (¬fn.TrapsDividing args fuel trace → fn.itinerary args fuel = path.flatMap g.items) := by
  have hstart := (execute_onPath hvalid hg args fuel).1
  rcases traversed_or_trapsDividing hvalid hg hrun with ⟨path, b, hpath, heq⟩ | ⟨⟨p, hpassed⟩, htraps⟩
  · exact ⟨0, path, b, hstart, hpath, heq ▸ List.prefix_rfl, fun _ => heq.symm⟩
  · obtain ⟨path, b, hpath, hprefix⟩ := hpassed.isPrefix
    exact ⟨0, path, b, hstart, hpath, hprefix, fun hnot => absurd htraps hnot⟩

/-- Starts a loop over by a branch table until the first parameter is down to zero, and then divides by
the second one. -/
def countToDivision : Function where
  name := "count_to_division"
  params := [.i32, .i32]
  results := [.i32]
  body := 11
  nodes := #[
    { kind := .localGet, type := .i32, index := 0 },
    { kind := .const, type := .i32, value := .i32 1 },
    { kind := .binary, type := .i32, op := .sub, kids := [0, 1] },
    { kind := .localTee, type := .i32, index := 0, kids := [2] },
    { kind := .brTable, label := "again", labels := ["out"], kids := [.absent, 3] },
    { kind := .loop, label := "again", kids := [4] },
    { kind := .block, label := "out", kids := [5] },
    { kind := .const, type := .i32, value := .i32 10 },
    { kind := .localGet, type := .i32, index := 1 },
    { kind := .binary, type := .i32, op := .divU, kids := [7, 8] },
    { kind := .ret, kids := [9] },
    { kind := .block, kids := [6, 10] }]

theorem run_follows_path_countToDivision :
    ∃ g, countToDivision.validate = .ok () ∧ countToDivision.nodeGraph = .ok g ∧
      countToDivision.run [2, 5] 3 = .ok ⟨[], .returned⟩ ∧
      countToDivision.run [2, 0] 3 = .ok ⟨[], .trapped⟩ ∧
      (∃ e path b, g.start? = some e ∧ g.IsPath e path b ∧
        path.flatMap g.items = [0, 1, 2, 3, 4, 0, 1, 2, 3, 4, 7, 8, 9, 10]) ∧
      ∃ e path b, g.start? = some e ∧ g.IsPath e path b ∧
        [0, 1, 2, 3, 4, 0, 1, 2, 3, 4, 7, 8, 9] <+: path.flatMap g.items := by
  have hvalid : countToDivision.validate = .ok () := by cbv
  obtain ⟨g, hg⟩ : ∃ g, countToDivision.nodeGraph = .ok g := ⟨_, by cbv⟩
  have hreturns : countToDivision.run [2, 5] 3 = .ok ⟨[], .returned⟩ := by decide +kernel
  have htraps : countToDivision.run [2, 0] 3 = .ok ⟨[], .trapped⟩ := by decide +kernel
  have hitems : countToDivision.itinerary [2, 5] 3 =
      [0, 1, 2, 3, 4, 0, 1, 2, 3, 4, 7, 8, 9, 10] := by decide +kernel
  have hitems' : countToDivision.itinerary [2, 0] 3 =
      [0, 1, 2, 3, 4, 0, 1, 2, 3, 4, 7, 8, 9] := by decide +kernel
  obtain ⟨e, path, b, hstart, hpath, -, hwhole⟩ := run_follows_path hvalid hg hreturns
  obtain ⟨e', path', b', hstart', hpath', hprefix, -⟩ := run_follows_path hvalid hg htraps
  rw [hitems] at hwhole
  rw [hitems'] at hprefix
  refine ⟨g, hvalid, hg, hreturns, htraps, ⟨e, path, b, hstart, hpath, (hwhole ?_).symm⟩,
    e', path', b', hstart', hpath', hprefix⟩
  rintro ⟨houtcome, -⟩
  cases houtcome

end Function

end LocalFlow
