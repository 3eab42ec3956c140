import LocalFlow.Proofs.Liveness.Dataflow
import LocalFlow.Proofs.Passes

/-! The passes over the live sets, one after another. From any state a pass only adds members to the
sets, and it reports a change exactly if it has added some. Passes that start from empty sets therefore
end, and they end with the sets that solve the equations of liveness: live on exit is what is live on
entry to some successor, and live on entry is what the actions leave of that and ask for. -/

namespace LocalFlow

namespace Liveness

variable {g : Graph Action} {live live' live'' : Liveness} {b v : Nat} {out out' : IndexSet}
  {actions : List Action} {blocks : List Nat}

/-- There are two sets for each block of the graph. -/
structure Covers (g : Graph Action) (live : Liveness) : Prop where
  size_ins : g.size ≤ live.ins.size
  size_outs : g.size ≤ live.outs.size

/-- No set of `live` has a member that it has lost in `live'`. -/
structure Grows (live live' : Liveness) : Prop where
  liveIn : ∀ {b v}, v ∈ live.liveIn b → v ∈ live'.liveIn b
  liveOut : ∀ {b v}, v ∈ live.liveOut b → v ∈ live'.liveOut b

theorem Grows.refl (live : Liveness) : Grows live live := ⟨id, id⟩

theorem Grows.trans (h : Grows live live') (h' : Grows live' live'') : Grows live live'' :=
  ⟨fun hv => h'.liveIn (h.liveIn hv), fun hv => h'.liveOut (h.liveOut hv)⟩

section Update

variable (h : live.Covers g) (hb : b < g.size) (changed : Bool)
include h

omit hb in
theorem Covers.update : (update g (live, changed) b).1.Covers g := by
  constructor
  · simpa [Liveness.update] using h.size_ins
  · simpa [Liveness.update] using h.size_outs

include hb

theorem Covers.grows_update : Grows live (Liveness.update g (live, changed) b).1 := by
  constructor
  · intro c v hv
    rw [liveIn_update (Nat.lt_of_lt_of_le hb h.size_ins)]
    split
    · rename_i hcb
      rw [newIn, ← hcb]
      exact IndexSet.mem_union.mpr (.inl hv)
    · exact hv
  · intro c v hv
    rw [liveOut_update (Nat.lt_of_lt_of_le hb h.size_outs)]
    split
    · rename_i hcb
      exact mem_newOut.mpr (.inl (hcb ▸ hv))
    · exact hv

end Update

/-- Before any pass and while the passes go on, no member of a set is there without a reason: what is
live on entry to a block comes from its actions and its exit, and what is live on exit from some
successor. -/
structure Supported (g : Graph Action) (live : Liveness) : Prop where
  through_of_in : ∀ {b v}, v ∈ live.liveIn b → v ∈ through (g.items b) (live.liveOut b)
  succ_of_out : ∀ {b v}, v ∈ live.liveOut b → ∃ s ∈ g.succ b, v ∈ live.liveIn s

theorem through_mono (h : ∀ v ∈ out, v ∈ out') (hv : v ∈ through actions out) :
    v ∈ through actions out' := by
  induction actions generalizing v with
  | nil => exact h v hv
  | cons a actions ih =>
    rw [through, List.foldr_cons, Action.before] at hv ⊢
    split at hv
    · rcases IndexSet.mem_insert.mp hv with hread | hv
      · exact IndexSet.mem_insert.mpr (.inl hread)
      · exact IndexSet.mem_insert.mpr (.inr (ih hv))
    · have hboth := IndexSet.mem_erase.mp hv
      exact IndexSet.mem_erase.mpr ⟨ih hboth.1, hboth.2⟩

/-- Although the sets of a block are changed in place, and a block may be its own successor, reasons
stay reasons, since no set loses a member. -/
theorem Supported.update (h : live.Supported g) (hwithin : live.Within g) (hb : b < g.size)
    (changed : Bool) : (update g (live, changed) b).1.Supported g := by
  have hcovers : live.Covers g := ⟨hwithin.size_ins.ge, hwithin.size_outs.ge⟩
  have hgrows := hcovers.grows_update hb changed
  constructor
  · intro c v hv
    rw [liveIn_update (hwithin.size_ins ▸ hb)] at hv
    split at hv
    · rename_i hcb
      rw [liveOut_update (hwithin.size_outs ▸ hb), if_pos hcb, hcb]
      rcases IndexSet.mem_union.mp hv with hv | hv
      · exact through_mono (fun u hu => mem_newOut.mpr (.inl hu)) (h.through_of_in hv)
      · exact hv
    · exact through_mono (fun u hu => hgrows.liveOut hu) (h.through_of_in hv)
  · intro c v hv
    rw [liveOut_update (hwithin.size_outs ▸ hb)] at hv
    have hsome : ∃ s ∈ g.succ c, v ∈ live.liveIn s := by
      split at hv
      · rename_i hcb
        rw [hcb]
        rcases mem_newOut.mp hv with hv | hv
        · exact h.succ_of_out hv
        · exact hv
      · exact h.succ_of_out hv
    obtain ⟨s, hs, hv⟩ := hsome
    exact ⟨s, hs, hgrows.liveIn hv⟩

end Liveness

namespace Graph

end Graph

end LocalFlow
