import LocalFlow.Proofs.Liveness.Execution

/-! The live sets of a graph are exact. Whatever a pass adds is read on some path before it is written,
so the sets have no more than the locals that are live, and since no further pass changes them they
have no less. -/

namespace LocalFlow

open LocalFlow.Graph

variable {g : Graph Action} {live : Liveness} {v b i s : Nat} {xs ys : List Action} {out : IndexSet}

/-- What is live before a run of actions is read first by it and what comes after it, if what is live
after the run is read first by what comes. -/
theorem Action.readsFirst_of_mem_through (h : v ∈ Liveness.through xs out)
    (hout : v ∈ out → ReadsFirst v ys) : ReadsFirst v (xs ++ ys) := by
  induction xs with
  | nil => exact hout h
  | cons a xs ih =>
    rw [Liveness.through, List.foldr_cons, before] at h
    rw [List.cons_append, ReadsFirst]
    cases haccess : a.access with
    | get =>
      simp only [haccess] at h
      have hcases := IndexSet.mem_insert.mp h
      exact hcases.imp Eq.symm ih
    | set =>
      simp only [haccess] at h
      have hboth := IndexSet.mem_erase.mp h
      exact ⟨Ne.symm hboth.2, ih hboth.1⟩

namespace Graph

theorem liveAt_zero_iff :
    g.LiveAt v b 0 ↔ ∃ p c, g.IsPath b p c ∧ Action.ReadsFirst v (p.flatMap g.items) := by
  have hitems : ∀ {p c}, g.IsPath b p c →
      (g.items b).drop 0 ++ p.tail.flatMap g.items = p.flatMap g.items := by
    intro p c hp
    have hcons : p = b :: p.tail := List.eq_cons_of_mem_head? hp.head
    rw [List.drop_zero, hcons, List.tail_cons, List.flatMap_cons]
  constructor
  · rintro ⟨p, c, hp, h⟩
    exact ⟨p, c, hp, hitems hp ▸ h⟩
  · rintro ⟨p, c, hp, h⟩
    exact ⟨p, c, hp, hitems hp ▸ h⟩

/-- What is live before the rest of a block is live there, if what is live after it is live on entry
to some successor. -/
theorem liveAt_of_mem_through (hout : v ∈ out → ∃ s ∈ g.succ b, g.LiveAt v s 0)
    (h : v ∈ Liveness.through ((g.items b).drop i) out) : g.LiveAt v b i := by
  by_cases hv : v ∈ out
  · obtain ⟨s, hs, hlive⟩ := hout hv
    obtain ⟨p, c, hp, hreads⟩ := liveAt_zero_iff.mp hlive
    have hpath : g.IsPath b (b :: p) c := hp.cons hs
    exact ⟨b :: p, c, hpath, Action.readsFirst_of_mem_through h fun _ => hreads⟩
  · exact ⟨[b], b, .single b, Action.readsFirst_of_mem_through h fun hmem => absurd hmem hv⟩

end Graph

namespace Liveness

/-- Every member of a set is there for a reason: some path reads it before writing it. -/
structure Justified (g : Graph Action) (live : Liveness) : Prop where
  liveAt_of_in : ∀ {b v}, v ∈ live.liveIn b → g.LiveAt v b 0
  liveAt_of_out : ∀ {b v}, v ∈ live.liveOut b → ∃ s ∈ g.succ b, g.LiveAt v s 0

theorem justified_empty (g : Graph Action) : (empty g.size).Justified g :=
  ⟨fun hv => absurd hv (not_mem_liveIn_empty _), fun hv => absurd hv (not_mem_liveOut_empty _)⟩

/-- An update adds only what there is a reason for. -/
theorem Justified.update (h : live.Justified g) (hwithin : live.Within g) (hb : b < g.size)
    (changed : Bool) : (update g (live, changed) b).1.Justified g := by
  have hout : ∀ {v}, v ∈ newOut g live b → ∃ s ∈ g.succ b, g.LiveAt v s 0 := by
    intro v hv
    rcases mem_newOut.mp hv with hv | ⟨s, hs, hv⟩
    · exact h.liveAt_of_out hv
    · exact ⟨s, hs, h.liveAt_of_in hv⟩
  -- Only the sets of `b` change, and what comes in from its successors was justified before.
  refine ⟨fun {c v} hv => ?_, fun {c v} hv => ?_⟩
  · rw [liveIn_update (hwithin.size_ins ▸ hb)] at hv
    split at hv
    · rename_i hcb
      subst hcb
      rcases IndexSet.mem_union.mp hv with hv | hv
      · exact h.liveAt_of_in hv
      · exact liveAt_of_mem_through hout (by simpa using hv)
    · exact h.liveAt_of_in hv
  · rw [liveOut_update (hwithin.size_outs ▸ hb)] at hv
    split at hv
    · rename_i hcb
      subst hcb
      exact hout hv
    · exact h.liveAt_of_out hv

end Liveness

namespace Graph

theorem liveness_justified (g : Graph Action) : g.liveness.Justified g :=
  Liveness.settle_induction (fun changed hwithin hb h => h.update hwithin hb changed)
    (Liveness.within_empty g) (Liveness.justified_empty g)

theorem mem_liveIn_iff : v ∈ g.liveness.liveIn b ↔ g.LiveAt v b 0 := by
  constructor
  · exact g.liveness_justified.liveAt_of_in
  · intro h
    have hmem := h.mem_through g.liveness_stable
    exact (g.liveness_stable b).in_of_through (by simpa using hmem)

/-- The live sets say exactly which locals are live: a local is live on entry to a block if and only if
some path that starts there reads it before writing it, and live on exit if and only if it is live on
entry to some successor. -/
theorem liveness_exact (g : Graph Action) (b v : Nat) :
    (v ∈ g.liveness.liveIn b ↔
      ∃ p c, g.IsPath b p c ∧ Action.ReadsFirst v (p.flatMap g.items)) ∧
    (v ∈ g.liveness.liveOut b ↔ ∃ s ∈ g.succ b, v ∈ g.liveness.liveIn s) := by
  refine ⟨mem_liveIn_iff.trans liveAt_zero_iff, fun hv => ?_, fun ⟨s, hs, hv⟩ => ?_⟩
  · obtain ⟨s, hs, hlive⟩ := g.liveness_justified.liveAt_of_out hv
    exact ⟨s, hs, mem_liveIn_iff.mpr hlive⟩
  · exact (g.liveness_stable b).out_of_succ hs hv

end Graph

end LocalFlow
