import LocalFlow.Liveness.Dataflow
import LocalFlow.Proofs.Graph.Building
import Mathlib.Algebra.Order.BigOperators.Group.Finset
import Mathlib.Data.List.Nodup

/-! The passes over the blocks end in live sets that no further pass changes. Every pass but the last
adds a member to some set, and all members are locals of the graph. -/

namespace LocalFlow

namespace IndexSet

variable {s t : IndexSet}

theorem nodup (s : IndexSet) : s.toList.Nodup := s.ascending.imp Nat.ne_of_lt

theorem size_le_size (h : ∀ v ∈ s, v ∈ t) : s.size ≤ t.size :=
  s.nodup.length_le_of_subset h

theorem size_lt_size (h : ∀ v ∈ s, v ∈ t) (hne : s ≠ t) : s.size < t.size := by
  by_contra hle
  refine hne (ext fun v => ⟨h v, fun hv => ?_⟩)
  have hperm := (s.nodup.subperm h).perm_of_length_le (Nat.le_of_not_lt hle)
  exact hperm.mem_iff.mpr hv

end IndexSet

namespace Liveness

variable {g : Graph Action} {live live' : Liveness} {b c v : Nat} {out : IndexSet}
  {actions : List Action}

/-- A local that is live before a run of actions is read in it or live after it. -/
theorem mem_through_cases (h : v ∈ through actions out) :
    v ∈ out ∨ ∃ a ∈ actions, a.index = v := by
  induction actions with
  | nil => exact .inl h
  | cons a actions ih =>
    rw [through, List.foldr_cons, Action.before] at h
    have htail : v ∈ through actions out → v ∈ out ∨ ∃ x ∈ a :: actions, x.index = v := by
      intro hv
      rcases ih hv with hv | ⟨x, hx, hxv⟩
      · exact .inl hv
      · exact .inr ⟨x, .tail _ hx, hxv⟩
    split at h
    · rcases IndexSet.mem_insert.mp h with rfl | h
      · exact .inr ⟨a, List.mem_cons_self .., rfl⟩
      · exact htail h
    · exact htail (IndexSet.mem_erase.mp h).1

theorem mem_foldl_union {succs : List Nat} :
    v ∈ succs.foldl (fun out s => out ∪ live.liveIn s) out ↔
      v ∈ out ∨ ∃ s ∈ succs, v ∈ live.liveIn s := by
  induction succs generalizing out with
  | nil => simp
  | cons s succs ih =>
    rw [List.foldl_cons, ih, IndexSet.mem_union, or_assoc]
    simp

/-- There are two sets for each block, and their members are locals of the graph. -/
structure Within (g : Graph Action) (live : Liveness) : Prop where
  size_ins : live.ins.size = g.size
  size_outs : live.outs.size = g.size
  liveIn_subset : ∀ {b v}, v ∈ live.liveIn b → v ∈ g.locals
  liveOut_subset : ∀ {b v}, v ∈ live.liveOut b → v ∈ g.locals

/-- The sets of block `b` have all that its successors and its actions ask for. -/
structure StableAt (g : Graph Action) (live : Liveness) (b : Nat) : Prop where
  out_of_succ : ∀ {s v}, s ∈ g.succ b → v ∈ live.liveIn s → v ∈ live.liveOut b
  in_of_through : ∀ {v}, v ∈ through (g.items b) (live.liveOut b) → v ∈ live.liveIn b

def weight (g : Graph Action) (live : Liveness) : Nat :=
  ∑ b ∈ Finset.range g.size, ((live.liveIn b).size + (live.liveOut b).size)

def newOut (g : Graph Action) (live : Liveness) (b : Nat) : IndexSet :=
  (g.succ b).foldl (fun out s => out ∪ live.liveIn s) (live.liveOut b)

def newIn (g : Graph Action) (live : Liveness) (b : Nat) : IndexSet :=
  live.liveIn b ∪ through (g.items b) (newOut g live b)

theorem setIfInBounds_getD (sets : Array IndexSet) (b : Nat) :
    sets.setIfInBounds b (sets.getD b ∅) = sets := by
  refine Array.ext_getElem? fun c => ?_
  rw [Array.getElem?_setIfInBounds]
  split
  · rename_i hbc
    subst hbc
    split
    · rename_i hlt
      simp [hlt]
    · rename_i hge
      simp [Array.getElem?_eq_none (Nat.le_of_not_lt hge)]
  · rfl

theorem liveIn_update (hb : b < live.ins.size) (changed : Bool) :
    (update g (live, changed) b).1.liveIn c = if c = b then newIn g live b else live.liveIn c := by
  simp only [update, liveIn, Array.getD_eq_getD_getElem?, Array.getElem?_setIfInBounds]
  by_cases hcb : c = b
  · subst hcb
    simp [hb, newIn, newOut, liveIn, Array.getD_eq_getD_getElem?]
  · simp [hcb, Ne.symm hcb]

theorem liveOut_update (hb : b < live.outs.size) (changed : Bool) :
    (update g (live, changed) b).1.liveOut c = if c = b then newOut g live b else live.liveOut c := by
  simp only [update, liveOut, Array.getD_eq_getD_getElem?, Array.getElem?_setIfInBounds]
  by_cases hcb : c = b
  · subst hcb
    simp [hb, newOut, liveOut, Array.getD_eq_getD_getElem?]
  · simp [hcb, Ne.symm hcb]

theorem mem_newOut : v ∈ newOut g live b ↔ v ∈ live.liveOut b ∨ ∃ s ∈ g.succ b, v ∈ live.liveIn s :=
  mem_foldl_union

theorem mem_locals_of_mem_items {a : Action} (ha : a ∈ g.items b) : a.index ∈ g.locals := by
  have hb := Graph.lt_size_of_mem_items ha
  rw [Graph.items, Array.getElem?_eq_getElem hb] at ha
  rw [Graph.locals, IndexSet.mem_ofList, List.mem_flatMap]
  exact ⟨g.blocks[b], Array.getElem_mem_toList hb, List.mem_map.mpr ⟨a, ha, rfl⟩⟩

namespace Within

theorem update (h : live.Within g) (hb : b < g.size) (changed : Bool) :
    (update g (live, changed) b).1.Within g := by
  have hout : ∀ v ∈ newOut g live b, v ∈ g.locals := by
    intro v hv
    rcases mem_newOut.mp hv with hv | ⟨s, -, hv⟩
    · exact h.liveOut_subset hv
    · exact h.liveIn_subset hv
  refine ⟨by simpa [Liveness.update] using h.size_ins, by simpa [Liveness.update] using h.size_outs,
    fun {c v} hv => ?_, fun {c v} hv => ?_⟩
  · rw [liveIn_update (h.size_ins ▸ hb)] at hv
    split at hv
    · rcases IndexSet.mem_union.mp hv with hv | hv
      · exact h.liveIn_subset hv
      · rcases mem_through_cases hv with hv | ⟨a, ha, rfl⟩
        · exact hout v hv
        · exact mem_locals_of_mem_items ha
    · exact h.liveIn_subset hv
  · rw [liveOut_update (h.size_outs ▸ hb)] at hv
    split at hv
    · exact hout v hv
    · exact h.liveOut_subset hv

theorem weight_le (h : live.Within g) : weight g live ≤ 2 * g.size * g.locals.size := by
  have hle : weight g live ≤ (Finset.range g.size).card • (2 * g.locals.size) := by
    refine Finset.sum_le_card_nsmul _ _ _ fun b _ => ?_
    have hin := IndexSet.size_le_size fun v hv => h.liveIn_subset (b := b) (v := v) hv
    have hout := IndexSet.size_le_size fun v hv => h.liveOut_subset (b := b) (v := v) hv
    omega
  rw [Finset.card_range, Nat.nsmul_eq_mul, ← Nat.mul_assoc, Nat.mul_comm g.size 2] at hle
  exact hle

/-- An update adds to the sets of its block, and notes whether it did. -/
theorem update_cases (h : live.Within g) (hb : b < g.size) (changed : Bool) :
    (Liveness.update g (live, changed) b = (live, changed) ∧ live.StableAt g b) ∨
      (Liveness.update g (live, changed) b).2 = true ∧
        weight g live < weight g (Liveness.update g (live, changed) b).1 := by
  have hin : ∀ v ∈ live.liveIn b, v ∈ newIn g live b := fun v hv => by simp [newIn, hv]
  have hout : ∀ v ∈ live.liveOut b, v ∈ newOut g live b := fun v hv => mem_newOut.mpr (.inl hv)
  have hflag : (Liveness.update g (live, changed) b).2 =
      (changed || newOut g live b ≠ live.liveOut b || newIn g live b ≠ live.liveIn b) := rfl
  by_cases hsame : newOut g live b = live.liveOut b ∧ newIn g live b = live.liveIn b
  · obtain ⟨heqOut, heqIn⟩ := hsame
    refine .inl ⟨?_, ⟨fun {s v} hs hv => ?_, fun {v} hv => ?_⟩⟩
    · have hupdate : Liveness.update g (live, changed) b =
          (⟨live.ins.setIfInBounds b (newIn g live b), live.outs.setIfInBounds b (newOut g live b)⟩,
            changed || newOut g live b ≠ live.liveOut b || newIn g live b ≠ live.liveIn b) := rfl
      rw [hupdate, heqOut, heqIn, liveIn, liveOut, setIfInBounds_getD, setIfInBounds_getD]
      simp
    · rw [← heqOut]
      exact mem_newOut.mpr (.inr ⟨s, hs, hv⟩)
    · rw [← heqIn, newIn, heqOut]
      exact IndexSet.mem_union.mpr (.inr hv)
  · refine .inr ⟨?_, Finset.sum_lt_sum (fun c _ => ?_) ⟨b, Finset.mem_range.mpr hb, ?_⟩⟩
    · rw [hflag]
      grind
    · rw [liveIn_update (h.size_ins ▸ hb), liveOut_update (h.size_outs ▸ hb)]
      split
      · rename_i hcb
        subst hcb
        exact Nat.add_le_add (IndexSet.size_le_size hin) (IndexSet.size_le_size hout)
      · exact Nat.le_refl _
    · rw [liveIn_update (h.size_ins ▸ hb), liveOut_update (h.size_outs ▸ hb), if_pos rfl, if_pos rfl]
      have hle := IndexSet.size_le_size hin
      have hle' := IndexSet.size_le_size hout
      rcases not_and_or.mp hsame with hne | hne
      · have := IndexSet.size_lt_size hout (Ne.symm hne)
        omega
      · have := IndexSet.size_lt_size hin (Ne.symm hne)
        omega

end Within

/-- A pass that changes nothing leaves every block with what it asks for. -/
theorem foldl_update_cases (blocks : List Nat) (h : live.Within g)
    (hblocks : ∀ b ∈ blocks, b < g.size) (changed : Bool) :
    let next := blocks.foldl (update g) (live, changed)
    next.1.Within g ∧
      (next = (live, changed) ∧ (∀ b ∈ blocks, live.StableAt g b) ∨
        next.2 = true ∧ weight g live < weight g next.1) := by
  induction blocks generalizing live changed with
  | nil => exact ⟨h, .inl ⟨rfl, by simp⟩⟩
  | cons b blocks ih =>
    have hb := hblocks b (by simp)
    have hrest : ∀ c ∈ blocks, c < g.size := fun c hc => hblocks c (.tail _ hc)
    have hwithin := h.update hb changed
    rw [List.foldl_cons]
    rcases h.update_cases hb changed with ⟨heq, hstable⟩ | ⟨hflag, hlt⟩
    · rw [heq]
      obtain ⟨hnext, hcases⟩ := ih h hrest changed
      refine ⟨hnext, hcases.imp_left fun ⟨hsame, hall⟩ => ⟨hsame, ?_⟩⟩
      simpa using ⟨hstable, hall⟩
    · generalize update g (live, changed) b = step at hwithin hflag hlt ⊢
      obtain ⟨live₁, flag⟩ := step
      obtain ⟨hnext, hcases⟩ := ih hwithin hrest flag
      refine ⟨hnext, .inr ?_⟩
      rcases hcases with ⟨hsame, -⟩ | ⟨hflag', hlt'⟩
      · rw [hsame]
        exact ⟨hflag, hlt⟩
      · exact ⟨hflag', Nat.lt_trans hlt hlt'⟩

/-- No pass would change the sets. -/
def Stable (g : Graph Action) (live : Liveness) : Prop := ∀ b, live.StableAt g b

theorem Within.stableAt_of_size_le (h : live.Within g) (hb : g.size ≤ b) : live.StableAt g b := by
  have hout : live.liveOut b = ∅ := by
    simp [liveOut, Array.getD_eq_getD_getElem?, Array.getElem?_eq_none (h.size_outs ▸ hb)]
  refine ⟨fun {s v} hs => ?_, fun {v} hv => ?_⟩
  · simp [Graph.succ_eq_nil hb] at hs
  · rw [Graph.items_eq_nil hb, hout] at hv
    simp [through] at hv

/-- With more passes than members that are missing there is one that changes nothing. -/
theorem settle_stable {passes : Nat} (h : live.Within g)
    (hpasses : 2 * g.size * g.locals.size < weight g live + passes) :
    (settle g passes live).Stable g := by
  induction passes generalizing live with
  | zero =>
    have := h.weight_le
    omega
  | succ passes ih =>
    have hspec := foldl_update_cases (List.range g.size).reverse h (by simp) false
    rw [settle, iterate]
    generalize (List.range g.size).reverse.foldl (update g) (live, false) = next at hspec ⊢
    obtain ⟨next, flag⟩ := next
    obtain ⟨hnext, hcases⟩ := hspec
    cases flag with
    | true =>
      rcases hcases with ⟨hsame, -⟩ | ⟨-, hlt⟩
      · cases hsame
      · have hlt' : weight g live < weight g next := hlt
        exact ih hnext (by omega)
    | false =>
      rcases hcases with ⟨hsame, hall⟩ | ⟨hflag, -⟩
      · cases hsame
        intro b
        rcases Nat.lt_or_ge b g.size with hb | hb
        · exact hall b (by simpa using hb)
        · exact h.stableAt_of_size_le hb
      · cases hflag

theorem settle_induction {motive : Liveness → Prop} {passes : Nat}
    (update : ∀ {live b} (changed : Bool), live.Within g → b < g.size → motive live →
      motive (update g (live, changed) b).1)
    (hwithin : live.Within g) (h : motive live) : motive (settle g passes live) := by
  have hpass : ∀ (blocks : List Nat) (live : Liveness) (changed : Bool), (∀ b ∈ blocks, b < g.size) →
      live.Within g → motive live →
      motive (blocks.foldl (Liveness.update g) (live, changed)).1 := by
    intro blocks
    induction blocks with
    | nil => exact fun _ _ _ _ h => h
    | cons b blocks ih =>
      intro live changed hblocks hwithin h
      have hb := hblocks b (by simp)
      exact ih _ _ (fun c hc => hblocks c (.tail _ hc)) (hwithin.update hb changed)
        (update changed hwithin hb h)
  induction passes generalizing live with
  | zero => exact h
  | succ passes ih =>
    have hblocks : ∀ b ∈ (List.range g.size).reverse, b < g.size := by simp
    have hnext := hpass _ live false hblocks hwithin h
    have hnext' := (foldl_update_cases _ hwithin hblocks false).1
    rw [settle, iterate]
    generalize (List.range g.size).reverse.foldl (Liveness.update g) (live, false) = next
      at hnext hnext' ⊢
    obtain ⟨next, flag⟩ := next
    cases flag with
    | true => exact ih hnext' hnext
    | false => exact hnext

theorem not_mem_liveIn_empty (size : Nat) : v ∉ (empty size).liveIn b := by
  simp only [liveIn, empty, Array.getD_eq_getD_getElem?, Array.getElem?_replicate]
  split <;> simp

theorem not_mem_liveOut_empty (size : Nat) : v ∉ (empty size).liveOut b :=
  not_mem_liveIn_empty size

theorem within_empty (g : Graph Action) : (empty g.size).Within g :=
  ⟨by simp [empty], by simp [empty], fun hv => absurd hv (not_mem_liveIn_empty _),
    fun hv => absurd hv (not_mem_liveOut_empty _)⟩

end Liveness

theorem Graph.liveness_stable (g : Graph Action) : g.liveness.Stable g :=
  Liveness.settle_stable (Liveness.within_empty g) (by rw [passBound]; omega)

theorem Graph.liveness_within (g : Graph Action) : g.liveness.Within g :=
  Liveness.settle_induction (fun changed hwithin hb _ => hwithin.update hb changed)
    (Liveness.within_empty g) (Liveness.within_empty g)

end LocalFlow
