import Mathlib
import LocalFlow.Proofs.Ssa.Merging
import LocalFlow.Proofs.Ssa.Safety

/-! The stacks in the course of a renaming. A visit is taken apart into single changes of the state,
with no bound on how deep it goes. It comes to an end, in between no local is ever without a
definition, and at the end all stacks are what they were. -/

namespace LocalFlow

open LocalFlow.Graph

namespace Renaming

/-- What is left to do in a renaming. -/
inductive Job where
  /-- Visit a block and the blocks below it in the dominator tree. -/
  | visit (b : Nat)
  | push (d : Definition)
  | access (r : Ref)
  /-- Hand the current definitions to the merges of `succ`, as coming from `b`. -/
  | feed (b succ : Nat)
  | pop (v : Nat)

section Machine

variable (fn : Function) (g : Graph Ref) (t : DominatorTree)

/-- Begins with a job. A visit is noted and comes down to other jobs: to push the merges of the block,
to go through its nodes and its successors, to visit its children, and to pop what the block has
pushed. Any other job is done at once. -/
def Job.begin : Job → Renaming → Except Failure (List Job × Renaming)
  | .visit b, s => do
    let block ← fetch g.blocks b
    return ((s.phisAt b).map (fun phi => .push phi.definition) ++ block.items.map .access ++
      block.succ.map (.feed b) ++ (t.children b).map .visit ++ (pushedIn fn g b s).map .pop,
      { s with visited := b :: s.visited })
  | .push d, s => return ([], ← s.push d)
  | .access r, s => return ([], ← Renaming.access fn s r)
  | .feed b succ, s => return ([], ← Renaming.feed b s succ)
  | .pop v, s => return ([], ← s.pop v)

/-- So many steps. In each of them the first job is replaced by those that it comes down to. -/
def steps : Nat → List Job × Renaming → Except Failure (List Job × Renaming)
  | 0, state => .ok state
  | _ + 1, ([], s) => .ok ([], s)
  | count + 1, (job :: jobs, s) => do
    let begun ← job.begin fn g t s
    steps count (begun.1 ++ jobs, begun.2)

/-- Whatever comes after the jobs, they are done after finitely many steps. They lead from `s` to
`s'`, no step fails, and `P` holds of both and of all states in between. -/
def Completes (P : Renaming → Prop) (jobs : List Job) (s s' : Renaming) : Prop :=
  ∀ rest, ∃ count, steps fn g t count (jobs ++ rest, s) = .ok (rest, s') ∧
    ∀ i ≤ count, ∃ state, steps fn g t i (jobs ++ rest, s) = .ok state ∧ P state.2

end Machine

variable {fn : Function} {g : Graph Ref} {t : DominatorTree} {P Q : Renaming → Prop}
  {job : Job} {jobs jobs' : List Job} {s s' s'' : Renaming} {b depth : Nat} {vs : List Nat}

theorem steps_add {m n : Nat} {state state' : List Job × Renaming}
    (h : steps fn g t m state = .ok state') :
    steps fn g t (m + n) state = steps fn g t n state' := by
  induction m generalizing state with
  | zero =>
    cases h
    rw [Nat.zero_add]
  | succ m ih =>
    obtain ⟨jobs, s⟩ := state
    rw [Nat.succ_add]
    cases jobs with
    | nil =>
      cases h
      cases n <;> rfl
    | cons job jobs =>
      obtain ⟨begun, hbegin, h⟩ := bind_eq_ok.mp h
      rw [steps, hbegin]
      exact ih h

namespace Completes

theorem nil (h : P s) : Completes fn g t P [] s s := by
  intro rest
  refine ⟨0, rfl, fun i hi => ?_⟩
  obtain rfl := Nat.le_zero.mp hi
  exact ⟨_, rfl, h⟩

theorem append (h : Completes fn g t P jobs s s') (h' : Completes fn g t P jobs' s' s'') :
    Completes fn g t P (jobs ++ jobs') s s'' := by
  intro rest
  obtain ⟨m, hm, hfirst⟩ := h (jobs' ++ rest)
  obtain ⟨n, hn, hsecond⟩ := h' rest
  rw [List.append_assoc]
  refine ⟨m + n, (steps_add hm).trans hn, fun i hi => ?_⟩
  rcases Nat.le_total i m with him | hmi
  · exact hfirst i him
  · obtain ⟨k, rfl⟩ := Nat.exists_eq_add_of_le hmi
    rw [steps_add hm]
    exact hsecond k (by omega)

theorem of_begin {begun : List Job × Renaming} (hs : P s) (hbegin : job.begin fn g t s = .ok begun)
    (h : Completes fn g t P begun.1 begun.2 s') : Completes fn g t P [job] s s' := by
  intro rest
  obtain ⟨n, hn, hall⟩ := h rest
  have hstep : ∀ i, steps fn g t (i + 1) ([job] ++ rest, s) =
      steps fn g t i (begun.1 ++ rest, begun.2) := by
    intro i
    rw [List.singleton_append, steps, hbegin]
    rfl
  refine ⟨n + 1, (hstep n).trans hn, fun i hi => ?_⟩
  cases i with
  | zero => exact ⟨_, rfl, hs⟩
  | succ i =>
    rw [hstep]
    exact hall i (by omega)

theorem mono (h : Completes fn g t P jobs s s') (hPQ : ∀ x, P x → Q x) :
    Completes fn g t Q jobs s s' := by
  intro rest
  obtain ⟨n, hn, hall⟩ := h rest
  exact ⟨n, hn, fun i hi => (hall i hi).imp fun _ hx => ⟨hx.1, hPQ _ hx.2⟩⟩

theorem last (h : Completes fn g t P jobs s s') : P s' := by
  obtain ⟨n, hn, hall⟩ := h []
  obtain ⟨state, hstate, hP⟩ := hall n le_rfl
  obtain rfl := Except.ok.inj (hn.symm.trans hstate)
  exact hP

/-- Jobs of one kind, one after the other. The invariant may depend on which are left. -/
theorem foldlM {α : Type} {toJob : α → Job} {step : Renaming → α → Except Failure Renaming}
    {xs : List α} (inv : List α → Renaming → Prop) (hP : ∀ {xs s}, inv xs s → P s)
    (hstep : ∀ {x xs s s'}, inv (x :: xs) s → step s x = .ok s' →
      Completes fn g t P [toJob x] s s' ∧ inv xs s')
    (h : inv xs s) (hok : xs.foldlM step s = .ok s') : Completes fn g t P (xs.map toJob) s s' := by
  induction xs generalizing s with
  | nil =>
    cases hok
    exact nil (hP h)
  | cons x xs ih =>
    obtain ⟨s₁, hx, hxs⟩ := foldlM_cons_eq_ok.mp hok
    obtain ⟨hfirst, hrest⟩ := hstep h hx
    exact hfirst.append (ih hrest hxs)

/-- Jobs that are done at once, where each of them keeps `P`. -/
theorem foldlM_of_keeps {α : Type} {toJob : α → Job} {step : Renaming → α → Except Failure Renaming}
    {xs : List α} (hdone : ∀ x s, (toJob x).begin fn g t s = (step s x).map fun s' => ([], s'))
    (hkeeps : ∀ {x s s'}, step s x = .ok s' → P s → P s') (h : P s)
    (hok : xs.foldlM step s = .ok s') : Completes fn g t P (xs.map toJob) s s' := by
  refine foldlM (fun _ => P) id (fun {x _ s₁ s₂} hs hx => ?_) h hok
  have hbegin : (toJob x).begin fn g t s₁ = .ok ([], s₂) := by
    rw [hdone, hx]
    rfl
  exact ⟨of_begin hs hbegin (nil (hkeeps hx hs)), hkeeps hx hs⟩

end Completes

section Visiting

theorem completes_enterBlock {s₁ : Renaming} (h : enterBlock fn g b s = .ok s₁) :
    Completes fn g t s.BuildsOn
      ((s.phisAt b).map (fun phi => .push phi.definition) ++ (g.items b).map .access ++
        (g.succ b).map (.feed b))
      { s with visited := b :: s.visited } s₁ := by
  obtain ⟨-, x, y, hmerges, hitems, hsucc⟩ := enterBlock_eq_ok.mp h
  have hfirst : Completes fn g t s.BuildsOn ((s.phisAt b).map fun phi => .push phi.definition)
      { s with visited := b :: s.visited } x :=
    .foldlM_of_keeps (fun _ _ => rfl) (fun hpush hx => hx.trans (.push hpush)) (.of_eq rfl rfl) hmerges
  have hnodes : Completes fn g t s.BuildsOn ((g.items b).map .access) x y :=
    .foldlM_of_keeps (fun _ _ => rfl) (fun haccess hx => hx.trans (.access haccess)) hfirst.last hitems
  have hfeeds : Completes fn g t s.BuildsOn ((g.succ b).map (.feed b)) y s₁ :=
    .foldlM_of_keeps (fun _ _ => rfl) (fun hfeed hx => hx.trans (.feed hfeed)) hnodes.last hsucc
  exact (hfirst.append hnodes).append hfeeds

theorem completes_pops (h : Raised vs s s') (hbuilds : s.BuildsOn s')
    (hok : vs.foldlM pop s' = .ok s'') : Completes fn g t s.BuildsOn (vs.map .pop) s' s'' := by
  refine .foldlM (fun vs x => Raised vs s x ∧ s.BuildsOn x) (fun hx => hx.2)
    (fun {v vs x x'} hx hpop => ?_) ⟨h, hbuilds⟩ hok
  have hraised : Raised vs s x' := hx.1.pop hpop
  have hpopped : s.BuildsOn x' := by
    refine ⟨⟨vs, hraised⟩, ?_⟩
    obtain ⟨_, rfl⟩ := restacks_pop hpop
    exact hx.2.merges
  have hbegin : (Job.pop v).begin fn g t x = .ok ([], x') := by
    rw [Job.begin, hpop]
    rfl
  exact ⟨.of_begin hx.2 hbegin (.nil hpopped), hraised, hpopped⟩

/-- A visit comes to an end, and until then nothing of what it has found on the stacks is popped. -/
theorem completes_visit (h : visit fn g t depth b s = .ok s') :
    Completes fn g t s.BuildsOn [.visit b] s s' := by
  induction depth generalizing b s s' with
  | zero => cases h
  | succ depth ih =>
    obtain ⟨s₁, s₂, hb, hchildren, hpops⟩ := visit_succ_eq_ok.mp h
    have henter : Completes fn g t s.BuildsOn _ _ s₁ := completes_enterBlock hb
    have hbelow : Completes fn g t s.BuildsOn ((t.children b).map .visit) s₁ s₂ := by
      refine Completes.foldlM (fun _ => s.BuildsOn) id (fun hbuilds hvisit => ?_) henter.last hchildren
      -- A child keeps what it finds, and this is on top of what its parent has found.
      have hchild := (ih hvisit).mono fun y => hbuilds.trans
      exact ⟨hchild, hchild.last⟩
    have hraised := Raised.children hb reaching_visit hchildren
    have hbegin : (Job.visit b).begin fn g t s = .ok
        ((s.phisAt b).map (fun phi => .push phi.definition) ++ (g.items b).map .access ++
          (g.succ b).map (.feed b) ++ (t.children b).map .visit ++ (pushedIn fn g b s).map .pop,
          { s with visited := b :: s.visited }) := by
      have hblock := Array.getElem?_eq_getElem (enterBlock_eq_ok.mp hb).1
      rw [Job.begin, fetch_eq_ok.mpr hblock, ok_bind]
      simp [Graph.items, Graph.succ, hblock, pure, Except.pure]
    exact .of_begin (.refl s) hbegin
      ((henter.append hbelow).append (completes_pops hraised hbelow.last hpops))

end Visiting

end Renaming

namespace Function

variable {fn : Function} {form : SsaForm}

theorem localsDefined_start {g : Graph Ref} {t : DominatorTree} (ht : g.IsDominatorTree 0 t) :
    (Renaming.start fn (fn.placePhis g t)).LocalsDefined fn :=
  (enters_start ht).localsDefined fun _ _ hmerges => (mergesIn_iff.mp hmerges).1

/-- The form is what the visit of the first block records. From any state in which every local has a
definition, a visit of a block in the dominator tree comes to an end, and no local is without a
definition on the way. It leaves the stacks as they were, and comes to the blocks that its block
dominates and to no others, once to each. -/
theorem ssa_visits_restore (h : fn.ssa = .ok form) :
    form.graph.start? = some 0 ∧ form.dominators.isReachable 0 = true ∧
      (∃ first last, first = Renaming.start fn (fn.placePhis form.graph form.dominators) ∧
        first.LocalsDefined fn ∧
        Renaming.visit fn form.graph form.dominators form.graph.size 0 first = .ok last ∧
        form.phis = last.phis ∧ form.reads = last.reads.reverse) ∧
      ∀ b s, form.dominators.isReachable b = true → s.LocalsDefined fn → ∃ s' blocks,
        Renaming.visit fn form.graph form.dominators form.graph.size b s = .ok s' ∧
          Renaming.Completes fn form.graph form.dominators (Renaming.LocalsDefined fn) [.visit b] s s' ∧
          s'.reaching = s.reaching ∧ s'.visited = blocks ++ s.visited ∧ blocks.Nodup ∧
          ∀ x, x ∈ blocks ↔ form.graph.Dominates 0 b x := by
  obtain ⟨t, last, hform⟩ := exists_constructs h
  have htree := hform.tree.withFrontiers form.graph.pred
  rw [← hform.dominators] at htree
  have hlt := (start?_eq_some.mp hform.start).2
  have hitems := fun b hb =>
    forall_checkAccess_iff.mpr ((checkAccesses_eq_ok htree hform.mirrored hlt).mp hform.declared b hb)
  refine ⟨hform.start, htree.isReachable_iff.mpr (.refl 0),
    ⟨_, last, rfl, localsDefined_start htree, hform.visit, hform.phis, hform.reads⟩,
    fun b s hb hs => ?_⟩
  have hreach := htree.isReachable_iff.mp hb
  have hdepth : form.dominators.size ≤ form.dominators.rank b + form.graph.size := by
    rw [htree.size_eq]
    omega
  obtain ⟨s', hvisit⟩ := hs.exists_visit htree hform.mirrored hlt hitems hreach hdepth
  refine ⟨s', _, hvisit, ?_, Renaming.reaching_visit hvisit, Renaming.visited_visit hvisit, ?_,
    fun x => ?_⟩
  · exact (Renaming.completes_visit hvisit).mono fun x hx => hx.localsDefined hs
  · exact List.nodup_reverse.mpr (htree.nodup_descent hform.mirrored hlt hreach hdepth)
  · rw [List.mem_reverse, htree.mem_descent_iff hform.mirrored hlt hreach hdepth]

theorem ssa_visits_restore_settingInTurn :
    ∃ form first s, settingInTurn.ssa = .ok form ∧ form.dominators.isReachable 1 = true ∧
      first = Renaming.start settingInTurn (settingInTurn.placePhis form.graph form.dominators) ∧
      first.LocalsDefined settingInTurn ∧
      Renaming.Completes settingInTurn form.graph form.dominators
        (Renaming.LocalsDefined settingInTurn) [.visit 1] first s ∧
      s.reaching = first.reaching ∧ s.visited = [2, 5, 4, 3, 1] ∧
      ∀ x, x ∈ [2, 5, 4, 3, 1] ↔ form.graph.Dominates 0 1 x := by
  obtain ⟨form, last, hssa, hreach, hlast, hvisited⟩ : ∃ form last, settingInTurn.ssa = .ok form ∧
      form.dominators.isReachable 1 = true ∧
      Renaming.visit settingInTurn form.graph form.dominators form.graph.size 1 (.start settingInTurn
        (settingInTurn.placePhis form.graph form.dominators)) = .ok last ∧
      last.visited = [2, 5, 4, 3, 1] :=
    ⟨_, _, by cbv, by cbv, by cbv, by cbv⟩
  obtain ⟨-, -, ⟨first, -, rfl, hdefined, -⟩, hall⟩ := ssa_visits_restore hssa
  obtain ⟨s, blocks, hs, hcompletes, hreaching, hblocks, -, hmem⟩ := hall 1 _ hreach hdefined
  obtain rfl := Except.ok.inj (hlast.symm.trans hs)
  have heq : blocks = [2, 5, 4, 3, 1] :=
    (List.append_nil blocks).symm.trans (hblocks.symm.trans hvisited)
  exact ⟨form, _, _, hssa, hreach, rfl, hdefined, hcompletes, hreaching, hvisited, heq ▸ hmem⟩

end Function

end LocalFlow
