import LocalFlow.Proofs.Coalescing.Acceptance
import LocalFlow.Proofs.Generator.Grammar
import LocalFlow.Proofs.Ssa.Safety

/-! Generated functions are fit for every pass: they are well formed, all their branches can be resolved,
what they write to a local has its type, and they run without failing. -/

namespace LocalFlow

namespace Function

variable {fn : Function} {body : Ref}

/-- A body that has grown from an empty arena is well formed, resolves all its labels and has all nodes
of the arena. -/
theorem Forest.wellFormed (h : fn.Forest 0 [] [body]) : ∃ t, (fn.finish body).WellFormed t ∧
    t.strays [] = [] ∧ ∀ r n, fn.node? r = some n → (r, n) ∈ t.nodes ∧ fn.Admits n := by
  obtain ⟨ts, hts⟩ := h
  match ts, hts with
  | [k], hts =>
    have hk := hts.areAt.1
    have hnodes : Tree.nodesAll [k] = (k ()).nodes := by simp [Tree.nodesAll]
    have hperm := hts.perm
    have hadmits := hts.admits
    rw [hnodes] at hperm hadmits
    have hat : (k ()).IsAt (fn.finish body) body := hk.congr fun _ _ => rfl
    have hnodup : ((k ()).nodes.map (·.1)).Nodup :=
      hperm.nodup_iff.mpr ((List.nodup_range' ..).map Int.ofNat_injective)
    have hshaped := hat.shaped_iff.mp (hts.shaped k (by simp))
    refine ⟨k (), ⟨hat, tree_eq_of_isAt hat, hnodup, fun x hx => ?_⟩,
      hts.resolved k (by simp), fun r n hn => ?_⟩
    · exact rejection?_eq_none (hshaped x hx) (hadmits x hx).declared
    · have hlt := node?_lt_size hn
      have hpresent : 0 ≤ r := by simpa [Ref.isPresent] using Tree.isPresent_of_node? hn
      have hrange : r ∈ (List.range' 0 (fn.nodes.size - 0)).map Int.ofNat :=
        List.mem_map.mpr ⟨r.toNat, by simp [hlt], Int.toNat_of_nonneg hpresent⟩
      obtain ⟨x, hx, rfl⟩ := List.mem_map.mp (hperm.mem_iff.mpr hrange)
      obtain rfl : x.2 = n := Option.some.inj ((hk.node?_eq x hx).symm.trans hn)
      exact ⟨hx, hadmits x hx⟩
  | [], hts => exact hts.areAt.elim
  | _ :: _ :: _, hts => exact hts.areAt.2.elim

end Function

namespace Gen

theorem run_bind_of_ok {α β : Type} {x : Gen α} {f : α → Gen β} {g g' : Generator} {a : α}
    (h : x.run g = .ok (a, g')) : (x >>= f).run g = (f a).run g' := by
  rw [StateT.run_bind, h]
  rfl

theorem localTypes_draws {fn : Function} (what : String) (count : Nat) :
    (localTypes what count).Draws fn fun types =>
      types.length = count ∧ ∀ type ∈ types, type = .i32 ∨ type = .i64 := by
  have htype : (oneOf what ValueType.name .i32 [.i64]).Draws fn (· ∈ [.i32, .i64]) :=
    oneOf_draws what ValueType.name .i32 [.i64]
  unfold localTypes
  simpa using mapM_draws (List.range count) htype

/-- Construction from an empty arena ends with a body that has grown in it, and declares at most two
parameters and seven variables. -/
theorem function_total (g : Generator) (hg : g.function.nodes.size = 0) :
    ∃ (g' : Generator) (fn : Function) (body : Ref), function.run g = .ok ((), g') ∧
      g'.function = fn.finish body ∧ fn.Forest 0 [] [body] ∧ fn.numLocals ≤ 9 := by
  have hparams : (below "params" 3).Draws g.function (· < 3) := below_draws "params" (by decide)
  have hvars : (number "vars" 1 7).Draws g.function fun value => 1 ≤ value ∧ value < 1 + (7 : Nat) :=
    number_draws "vars" 1 (by decide)
  obtain ⟨numParams, g₁, h₁, -, hfn₁, hfew⟩ := hparams g rfl
  obtain ⟨numVars, g₂, h₂, -, hfn₂, hpos, hmost⟩ := hvars g₁ hfn₁
  obtain ⟨params, g₃, h₃, -, hfn₃, hlength', hparamTypes⟩ := localTypes_draws "param" numParams g₂ hfn₂
  obtain ⟨vars, g₄, h₄, -, hfn₄, hlength, hvarTypes⟩ := localTypes_draws "var" numVars.toNat g₃ hfn₃
  let g₅ : Generator := { g₄ with function := { g₄.function with params, vars } }
  have h₅ : (modify fun g => { g with function := { g.function with params, vars } } : Gen Unit).run g₄ =
      .ok ((), g₅) := rfl
  have hcount : g₅.function.numLocals = params.length + vars.length := rfl
  have hdeclares : g₅.function.Declares := by
    refine ⟨by omega, fun v hv => ?_⟩
    have hmem : g₅.function.localType v ∈ params ++ vars := by
      apply getD_mem
      rwa [List.length_append, ← hcount]
    exact List.forall_mem_append.mpr ⟨hparamTypes, hvarTypes⟩ _ hmem
  have hblock : (block "" (statement 4 [])).Builds g₅.function (Made g₅.function.nodes.size []) :=
    block_builds hdeclares fun hfn => statement_builds 4 hfn (by simp [Around])
  obtain ⟨body, g₆, h₆, hextends, type, hforest, -⟩ := hblock g₅ rfl
  have hsize : g₅.function.nodes.size = 0 := by
    change g₄.function.nodes.size = 0
    rw [hfn₄, hg]
  refine ⟨{ g₆ with function := g₆.function.finish body }, g₆.function, body, ?_, rfl, hsize ▸ hforest,
    ?_⟩
  · rw [function, run_bind_of_ok h₁, run_bind_of_ok h₂, run_bind_of_ok h₃, run_bind_of_ok h₄,
      run_bind_of_ok h₅, run_bind_of_ok h₆]
    rfl
  · rw [hextends.numLocals_eq, hcount]
    omega

end Gen

namespace Function

/-- Any draws make a function that is accepted, that every pass can handle, whose writes have the types
of their locals, and that runs on all arguments and any fuel. -/
theorem generate_sound (draws : List Nat) : ∃ fn trace, generate draws = .ok (fn, trace) ∧
    fn.validate = .ok () ∧
    (∀ (α : Type) (recorder : Ref → Option α), ∃ g, fn.lower fn.body recorder = .ok g) ∧
    (∃ form, fn.ssa = .ok form) ∧ (∃ analysis, fn.analyze = .ok analysis) ∧
    (∀ r n, fn.node? r = some n → n.kind = .localSet ∨ n.kind = .localTee →
      ∃ value m, n.kids = [value] ∧ fn.node? value = some m ∧ m.type = fn.localType n.index) ∧
    ∀ args fuel, ∃ t, fn.run args fuel = .ok t := by
  obtain ⟨g, fn, body, hrun, hfunction, hforest, hfew⟩ :=
    Gen.function_total { draws, function := { name := "rand" } } rfl
  obtain ⟨t, hformed, hnone, hall⟩ := hforest.wellFormed
  have hstrays : (fn.finish body).strayLabels = [] := by
    rw [strayLabels, hformed.tree_eq, hnone]
  have hvalid := validate_eq_ok_iff.mpr ⟨t, hformed⟩
  have hroom : (fn.finish body).numLocals * (fn.finish body).numLocals ≤ 2 ^ 48 :=
    (Nat.mul_le_mul hfew hfew).trans (by decide)
  refine ⟨fn.finish body, g.trace.reverse, ?_, hvalid, fun α recorder => ?_, hformed.ssa_total hstrays,
    exists_analyze hvalid hstrays hroom, fun r n hn hwrite => ?_, fun args fuel => ?_⟩
  · rw [generate, hrun, ← hfunction]
    rfl
  · exact (hformed.lower_failsAt recorder).exists_ok hstrays
  · obtain ⟨value, hkids, m, hm, htype⟩ := (hall r n hn).2.typed (Kind.isLocalWrite_iff.mpr hwrite)
    exact ⟨value, m, hkids, hm, htype⟩
  · rcases hformed.run_safe hstrays args fuel with htrace | ⟨f, -, x, hx, hf⟩
    · exact htrace
    · have hadmits := (hall x.1 x.2 (hformed.isAt.node?_eq x hx)).2
      exact absurd hf (hadmits.implemented f)

end Function

end LocalFlow
