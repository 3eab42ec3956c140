import LocalFlow.Proofs.Function.Shape
import LocalFlow.Proofs.Machine.Application
import LocalFlow.Proofs.Machine.Conduct

/-! Safety of accepted functions. A run of a well-formed function without stray labels ends in a trace,
unless it comes to an operator that is not implemented. -/

namespace LocalFlow

namespace Node

variable {n : Node} {m m₁ : Machine}

theorem Alters.size_locals (h : n.Alters m m₁) : m₁.locals.size = m.locals.size := by
  cases h with
  | setLocal => exact Array.size_setIfInBounds
  | _ => rfl

theorem MayBranch.mem_branchLabels {label : String} (h : n.MayBranch label) :
    label ∈ n.branchLabels := by
  unfold MayBranch at h
  split at h
  · rename_i hkind
    simp [branchLabels, hkind, h]
  · rename_i hkind
    simpa [branchLabels, hkind] using h
  · exact h.elim

end Node

/-- The machine has the given number of locals, branches go to enclosing constructs, and only the given
failures occur. -/
def Conduct.safety (numLocals : Nat) (faults : Fault → Prop) : Conduct where
  state m := m.locals.size = numLocals
  signal labels s := ∀ label x, s = .branch label x → label ≠ "" ∧ label ∈ labels
  fault := faults
  leave := by
    intro label labels s h
    by_cases hs : ∃ x, s = .branch label x
    · obtain ⟨x, hx⟩ := hs
      exact .inr ⟨x, hx, (h label x hx).1⟩
    · left
      intro label' x hx
      obtain ⟨hne, hmem⟩ := h label' x hx
      refine ⟨hne, (List.mem_cons.mp hmem).resolve_left ?_⟩
      rintro rfl
      exact hs ⟨x, hx⟩
  restart := by
    intro label labels x _
    exact ⟨fun _ _ heq => (by cases heq), fun hm _ => hm⟩

theorem mem_of_unresolved_eq_nil {labels names : List String} {name : String}
    (h : unresolved labels names = []) (hname : name ∈ names) : name ≠ "" ∧ name ∈ labels := by
  have hnot := List.filter_eq_nil_iff.mp h name hname
  simpa using hnot

namespace Tree

variable {fn : Function} {t : Tree} {r : Ref} {labels : List String} {faults : Fault → Prop}

theorem straysAll_eq_nil_iff {kids : List (Unit → Tree)} :
    straysAll labels kids = [] ↔ ∀ k ∈ kids, (k ()).strays labels = [] := by
  induction kids with
  | nil => simp [straysAll]
  | cons k kids ih => simp [straysAll, ih]

theorem obeys_safety (hat : t.IsAt fn r) (haccepted : ∀ x ∈ t.nodes, fn.rejection? x.1 x.2 = none)
    (hstrays : t.strays labels = [])
    (hfaults : ∀ x ∈ t.nodes, ∀ f, x.2.Unimplemented f → faults f) :
    t.Obeys (.safety fn.numLocals faults) labels := by
  induction t generalizing r labels with
  | absent => trivial
  | dangling => exact hat.elim
  | endless => exact hat.elim
  | node r n kids ih =>
    obtain ⟨rfl, -, hkids⟩ := hat
    obtain ⟨hinside, hself⟩ := List.append_eq_nil_iff.mp hstrays
    have hmem : (r, n) ∈ (Tree.node r n kids).nodes := by simp [nodes]
    have hnone := haccepted _ hmem
    refine ⟨fun hplain args m hlength hm => ?_, obeysAll_iff.mpr fun k hk => ?_⟩
    · have hstate : (m.noteApplied r).locals.size = fn.numLocals := hm
      have hends := n.apply_ends args (m.noteApplied r)
      cases hx : n.apply args (m.noteApplied r) with
      | value x m₁ =>
        rw [hx] at hends
        cases hends with
        | value _ _ halters => exact halters.size_locals.trans hstate
      | signal s m₁ =>
        rw [hx] at hends
        cases hends with
        | branch label x hlabel =>
          refine ⟨fun label' x' heq => ?_, hstate⟩
          cases heq
          exact mem_of_unresolved_eq_nil hself hlabel.mem_branchLabels
        | ret => exact ⟨fun _ _ heq => (by cases heq), hstate⟩
        | trap => exact ⟨fun _ _ heq => (by cases heq), hstate⟩
      | fault f =>
        have hshape := (flaw?_eq_none_iff hkids).mp (Function.flaw?_of_rejection? hnone)
        obtain ⟨least, most, harity, hleast, -⟩ := hshape.arity
        refine hfaults _ hmem f (Node.unimplemented_of_apply hplain ?_ (fun haccess => ?_) hx)
        · exact ⟨least, most, harity, hlength ▸ hleast⟩
        · rw [hstate]
          exact Function.index_lt_of_rejection? hnone haccess
    · obtain ⟨r', -, hr'⟩ := hkids.exists_isAt hk
      exact ih k hk hr' (fun x hx => haccepted x (mem_nodes_of_kid hk hx))
        (straysAll_eq_nil_iff.mp hinside k hk) fun x hx => hfaults x (mem_nodes_of_kid hk hx)

end Tree

theorem Machine.size_start {fn : Function} {args : List UInt64} {fuel : Int64} :
    (start fn args fuel).locals.size = fn.numLocals := by
  simp [start, Function.numLocals]

namespace Function

variable {fn : Function} {t : Tree}

/-- A run of a well-formed function without stray labels gives a trace, or fails at an operator of the
function that cannot be applied. -/
theorem WellFormed.run_safe (h : fn.WellFormed t) (hstrays : fn.strayLabels = [])
    (args : List UInt64) (fuel : Int64) :
    (∃ trace, fn.run args fuel = .ok trace) ∨
      ∃ f, fn.run args fuel = .error f ∧ ∃ x ∈ t.nodes, x.2.Unimplemented f := by
  rw [strayLabels, h.tree_eq] at hstrays
  have hobeys : t.Obeys (.safety fn.numLocals fun f => ∃ x ∈ t.nodes, x.2.Unimplemented f) [] :=
    Tree.obeys_safety h.isAt h.accepted hstrays fun x hx f hf => ⟨x, hx, hf⟩
  have heval := Tree.eval_obeys hobeys (Machine.size_start : (Machine.start fn args fuel).locals.size = _)
  rw [run, execute, h.tree_eq]
  cases hx : t.eval (.start fn args fuel) with
  | value x m => exact .inl ⟨_, rfl⟩
  | fault f =>
    rw [hx] at heval
    exact .inr ⟨f, rfl, heval⟩
  | signal s m =>
    rw [hx] at heval
    cases s with
    | branch label x =>
      -- there is no construct around the body to branch to
      have hescaped := (heval.1 label x rfl).2
      exact absurd hescaped List.not_mem_nil
    | ret x => exact .inl ⟨_, rfl⟩
    | trap => exact .inl ⟨_, rfl⟩
    | outOfFuel => exact .inl ⟨_, rfl⟩

end Function

end LocalFlow
