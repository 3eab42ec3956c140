import LocalFlow.Proofs.Graph.Dominators
import LocalFlow.Proofs.Outcome

/-! The passes that find immediate dominators, watched while they run. At every moment the blocks that
are known have known parents of lower rank. This is why the walks up that look for a common ancestor
meet, why the passes go on with a table that is still changing, and why they come to an end. -/

namespace LocalFlow

namespace Idoms

variable {α : Type} {g : Graph α} {e r : Nat} {order rest blocks preds : List Nat} {rank : Nat → Nat}
  {idoms : Idoms} {a b c d : Nat}

/-- Two blocks go up until they meet at a third. It is always the one of higher rank that goes on, and
it goes to its parent, which has to be known. -/
inductive Meets (idoms : Idoms) (rank : Nat → Nat) : Nat → Nat → Nat → Prop
  | here {a : Nat} : Meets idoms rank a a a
  | left {a a' b c : Nat} : rank b < rank a → idoms.get? a = some a' → Meets idoms rank a' b c →
      Meets idoms rank a b c
  | right {a b b' c : Nat} : rank a < rank b → idoms.get? b = some b' → Meets idoms rank a b' c →
      Meets idoms rank a b c

/-- In a search for a candidate each known predecessor is compared with the candidate of those before
it, if there is one. All these comparisons come to an end, and follow only entries that are set. -/
def ComparisonsEnd (idoms : Idoms) (rank : Nat → Nat) (preds : List Nat) : Prop :=
  ∀ before p after, preds = before ++ p :: after → ∃ best, idoms.candidate rank before = .ok best ∧
    ∀ d, best = some d → (idoms.get? p).isSome →
      ∃ c, idoms.intersect rank p d = .ok c ∧ idoms.Meets rank p d c

section Comparisons

variable (hr : g.IsRanking e order rank) (hi : idoms.Rising g e rank)
include hr hi

/-- No two known blocks have the same rank, so a walk that has not ended can go on. -/
theorem meets_of_meet {moves : Nat} (ha : (idoms.get? a).isSome) (hb : (idoms.get? b).isSome)
    (h : idoms.meet rank moves a b = .ok c) : idoms.Meets rank a b c := by
  induction moves generalizing a b with
  | zero => cases h
  | succ moves ih =>
    rw [meet] at h
    split at h
    · rename_i hab
      cases hab
      cases h
      exact .here
    · rename_i hab
      have hne : rank a ≠ rank b := fun heq =>
        hab (hr.rank_inj (hi.reaches_of_isSome ha) (hi.reaches_of_isSome hb) heq)
      split at h
      · rename_i hlt
        obtain ⟨a', ha', h⟩ := bind_eq_ok.mp h
        have hparent := parent_eq_ok.mp ha'
        exact .left hlt hparent (ih (hi.known hparent) hb h)
      · obtain ⟨b', hb', h⟩ := bind_eq_ok.mp h
        have hparent := parent_eq_ok.mp hb'
        exact .right (by omega) hparent (ih ha (hi.known hparent) h)

theorem comparisonsEnd (hpreds : ∀ p ∈ preds, p < idoms.size) : idoms.ComparisonsEnd rank preds := by
  rintro before p after rfl
  obtain ⟨best, hbest, hcand⟩ :=
    candidate_spec hr hi fun q hq => hpreds q (List.mem_append_left (p :: after) hq)
  refine ⟨best, hbest, ?_⟩
  rintro d rfl hp
  obtain ⟨c, hc, -⟩ := intersect_spec hr hi hp hcand.1
  exact ⟨c, hc, meets_of_meet hr hi hp hcand.1 hc⟩

end Comparisons

/-- No block that is known is forgotten. -/
theorem isSome_update {preds : Nat → List Nat} {state next : Idoms × Bool}
    (h : update rank preds state b = .ok next) (hc : (state.1.get? c).isSome) :
    (next.1.get? c).isSome := by
  obtain ⟨best, -, h⟩ := bind_eq_ok.mp h
  cases best with
  | none =>
    cases h
    exact hc
  | some d =>
    obtain ⟨old, -, h⟩ := bind_eq_ok.mp h
    split at h
    · cases h
      exact hc
    · obtain ⟨idoms', hassign, h⟩ := bind_eq_ok.mp h
      cases h
      obtain ⟨hlt, rfl⟩ := assign_eq_ok.mp hassign
      change (get? (state.1.setIfInBounds b (some d)) c).isSome
      rw [get?_setIfInBounds hlt]
      split
      · rfl
      · exact hc

theorem isSome_updates {preds : Nat → List Nat} {state next : Idoms × Bool}
    (h : blocks.foldlM (update rank preds) state = .ok next) (hc : (state.1.get? c).isSome) :
    (next.1.get? c).isSome :=
  foldlM_keeps (P := fun x => (x.1.get? c).isSome) (fun _ _ _ _ => isSome_update) h hc

/-- The table after so many passes over the blocks. -/
def afterPasses (rank : Nat → Nat) (preds : Nat → List Nat) (blocks : List Nat) (idoms : Idoms) :
    Nat → Except Failure Idoms
  | 0 => .ok idoms
  | k + 1 => do
    let next ← idoms.pass rank preds blocks
    afterPasses rank preds blocks next.1 k

/-- The table after `k` passes over the blocks and the first `i` blocks of the next pass. -/
def moment (rank : Nat → Nat) (preds : Nat → List Nat) (blocks : List Nat) (idoms : Idoms)
    (k i : Nat) : Except Failure Idoms := do
  let before ← afterPasses rank preds blocks idoms k
  return (← (blocks.take i).foldlM (update rank preds) (before, false)).1

theorem afterPasses_next {preds : Nat → List Nat} {next : Idoms × Bool} (k : Nat)
    (h : idoms.pass rank preds blocks = .ok next) :
    afterPasses rank preds blocks idoms (k + 1) = afterPasses rank preds blocks next.1 k := by
  rw [afterPasses, h, ok_bind]

theorem isSome_afterPasses {preds : Nat → List Nat} {k : Nat} {last : Idoms}
    (h : afterPasses rank preds blocks idoms k = .ok last) (hc : (idoms.get? c).isSome) :
    (last.get? c).isSome := by
  induction k generalizing idoms with
  | zero =>
    cases h
    exact hc
  | succ k ih =>
    obtain ⟨next, hnext, h⟩ := bind_eq_ok.mp h
    exact ih h (isSome_updates hnext hc)

section Moments

variable (hg : g.Mirrored) (he : e < g.size) (hr : g.IsRanking e order rank)
  (horder : order = e :: rest) (ha : idoms.Approaches g e rank 1)
include hg he hr horder ha

/-- A pass leaves the table such that the next one may begin. -/
theorem afterPasses_approaches (k : Nat) :
    ∃ before, afterPasses rank g.pred rest idoms k = .ok before ∧ before.Approaches g e rank 1 := by
  induction k generalizing idoms with
  | zero => exact ⟨idoms, rfl, ha⟩
  | succ k ih =>
    obtain ⟨next, hnext, hdone, -⟩ := pass_rest_spec hg he hr horder ha
    rw [afterPasses_next k hnext]
    exact ih (hdone.restart hr)

theorem exists_moment (k i : Nat) :
    ∃ now, moment rank g.pred rest idoms k i = .ok now ∧ now.Rising g e rank := by
  obtain ⟨before, hbefore, happroaches⟩ := afterPasses_approaches hg he hr horder ha k
  have hranks : ∀ j (h : j < (rest.take i).length), rank (rest.take i)[j] = 1 + j := by
    intro j hj
    rw [List.getElem_take]
    exact hr.rank_rest horder j _
  have hblocks : ∀ b ∈ rest.take i, g.Reaches e b ∧ b ≠ e := fun b hb =>
    hr.mem_rest horder (List.mem_of_mem_take hb)
  obtain ⟨next, hnext, hnow, -⟩ := pass_spec hg he hr happroaches hranks hblocks false
  exact ⟨next.1, bind_eq_ok.mpr ⟨before, hbefore, bind_eq_ok.mpr ⟨next, hnext, rfl⟩⟩, hnow.toRising⟩

/-- After the first pass every reachable block is known. -/
theorem isSome_moment_succ {now : Idoms} {k i : Nat}
    (hnow : moment rank g.pred rest idoms (k + 1) i = .ok now) (hb : g.Reaches e b) :
    (now.get? b).isSome := by
  obtain ⟨first, hfirst, hdone, -⟩ := pass_rest_spec hg he hr horder ha
  obtain ⟨before, hbefore, hnow⟩ := bind_eq_ok.mp hnow
  obtain ⟨next, hnext, hnow⟩ := bind_eq_ok.mp hnow
  cases hnow
  rw [afterPasses_next k hfirst] at hbefore
  exact isSome_updates hnext (isSome_afterPasses hbefore (hdone.settled hb (hr.rank_lt hb)))

theorem stops_of_settle {passes : Nat} {last : Idoms}
    (h : settle rank g.pred rest passes idoms = .ok last) :
    ∃ k, (∀ j < k, ∃ before after, afterPasses rank g.pred rest idoms j = .ok before ∧
        before.pass rank g.pred rest = .ok (after, true)) ∧
      afterPasses rank g.pred rest idoms k = .ok last ∧
      last.pass rank g.pred rest = .ok (last, false) := by
  induction passes generalizing idoms with
  | zero => cases h
  | succ passes ih =>
    obtain ⟨next, hnext, hdone, hcase⟩ := pass_rest_spec hg he hr horder ha
    rw [settle, hnext, ok_bind] at h
    rcases hcase with ⟨rfl, -⟩ | ⟨htrue, -⟩
    · cases h
      exact ⟨0, fun j hj => absurd hj (Nat.not_lt_zero j), rfl, hnext⟩
    · rw [if_pos htrue] at h
      obtain ⟨k, hchanged, hlast, hstop⟩ := ih (hdone.restart hr) h
      refine ⟨k + 1, fun j hj => ?_, (afterPasses_next k hnext).trans hlast, hstop⟩
      cases j with
      | zero => exact ⟨idoms, next.1, rfl, htrue ▸ hnext⟩
      | succ j =>
        rw [afterPasses_next j hnext]
        exact hchanged j (by omega)

end Moments

end Idoms

namespace Graph

variable {α : Type} {g : Graph α} {e : Nat} {t : DominatorTree}

/-- Before the first pass only the entry is known. -/
def startIdoms (g : Graph α) (e : Nat) : Idoms :=
  (Array.replicate g.size none).setIfInBounds e (some e)

/-- The table of the search after `k` passes over the blocks behind the entry and `i` blocks more. -/
def idomsAt (g : Graph α) (e : Nat) (rest : List Nat) (rank : Nat → Nat) (k i : Nat) :
    Except Failure Idoms :=
  (g.startIdoms e).moment rank g.pred rest k i

/-- The tree comes from passes over the blocks of `rest`, which follow the entry in reverse post order,
and the passes run safely. -/
structure SettlesSafely (g : Graph α) (e : Nat) (rest : List Nat) (t : DominatorTree) : Prop where
  rank_getElem : ∀ i (h : i < (e :: rest).length), t.rank (e :: rest)[i] = i
  /-- Some pass is the first to change nothing, and the tree is what it leaves. -/
  stops : ∃ k, (∀ j < k, ∃ before after,
      (g.startIdoms e).afterPasses t.rank g.pred rest j = .ok before ∧
        before.pass t.rank g.pred rest = .ok (after, true)) ∧
    (g.startIdoms e).afterPasses t.rank g.pred rest k = .ok t.idoms ∧
    t.idoms.pass t.rank g.pred rest = .ok (t.idoms, false)
  exists_idomsAt : ∀ k i, ∃ idoms, g.idomsAt e rest t.rank k i = .ok idoms
  comparisonsEnd : ∀ k i idoms b, g.idomsAt e rest t.rank k i = .ok idoms → rest[i]? = some b →
    idoms.ComparisonsEnd t.rank (g.pred b)
  parent_lower : ∀ k i idoms b d, g.idomsAt e rest t.rank k i = .ok idoms → b ≠ e →
    idoms.get? b = some d → (idoms.get? d).isSome ∧ t.rank d < t.rank b
  known_of_reaches : ∀ k i idoms b, g.idomsAt e rest t.rank (k + 1) i = .ok idoms →
    g.Reaches e b → (idoms.get? b).isSome
  reaches_of_known : ∀ k i idoms b, g.idomsAt e rest t.rank k i = .ok idoms →
    (idoms.get? b).isSome → g.Reaches e b

/-- The tree holds the order of the search and the immediate dominators that were found in it. -/
theorem order_idoms_of_dominatorTree (h : g.dominatorTree = .ok t) :
    g.reversePostOrder = .ok t.order ∧ g.immediateDominators t.order t.rank = .ok t.idoms := by
  obtain ⟨order, horder, h⟩ := bind_eq_ok.mp h
  obtain ⟨idoms, hidoms, h⟩ := bind_eq_ok.mp h
  obtain ⟨ways, -, h⟩ := bind_eq_ok.mp h
  obtain ⟨looked, -, h⟩ := bind_eq_ok.mp h
  cases h
  exact ⟨horder, hidoms⟩

/-- The search for immediate dominators ends. All its comparisons end without following an entry that
is not set, at every moment the known blocks have known parents of lower rank, and from the first pass
on exactly the reachable blocks are known. -/
theorem dominatorTree_settles_safely (hg : g.Built) (he : g.start? = some e) :
    ∃ t rest, g.dominatorTree = .ok t ∧ g.reversePostOrder = .ok (e :: rest) ∧
      g.SettlesSafely e rest t := by
  have hm := hg.mirrored
  have hlt := (start?_eq_some.mp he).2
  obtain ⟨t₀, ht, h₀⟩ := exists_dominatorTree hm he
  have h := h₀.withFrontiers g.pred
  generalize t₀.withFrontiers g.pred = t at ht h
  have hr := h.ranking
  obtain ⟨rest, horder⟩ := List.head?_eq_some_iff.mp hr.head
  obtain ⟨hsearch, hidoms⟩ := order_idoms_of_dominatorTree ht
  have hstart : (g.startIdoms e).Approaches g e t.rank 1 := Idoms.approaches_initial hlt hr
  have hmoment := Idoms.exists_moment hm hlt hr horder hstart
  have hrising : ∀ k i idoms, g.idomsAt e rest t.rank k i = .ok idoms → idoms.Rising g e t.rank := by
    intro k i idoms hnow
    obtain ⟨now, hmoment, hrising⟩ := hmoment k i
    obtain rfl := Except.ok.inj (hmoment.symm.trans hnow)
    exact hrising
  refine ⟨t, rest, ht, horder ▸ hsearch, fun i hi => ?_, ?_, fun k i => ?_, fun k i idoms b hnow _ => ?_,
    fun k i idoms b d hnow hbe hd => ?_, fun k i idoms b hnow hb => ?_, fun k i idoms b hnow hb => ?_⟩
  · have hrank := hr.rank_getElem i (horder ▸ hi)
    simpa only [horder] using hrank
  · rw [horder] at hidoms
    obtain ⟨start, hassign, hsettle⟩ := bind_eq_ok.mp hidoms
    obtain ⟨-, rfl⟩ := assign_eq_ok.mp hassign
    exact Idoms.stops_of_settle hm hlt hr horder hstart hsettle
  · exact (hmoment k i).imp fun _ hnow => hnow.1
  · have hi := hrising k i idoms hnow
    exact Idoms.comparisonsEnd hr hi (hi.pred_lt hm)
  · exact ⟨(hrising k i idoms hnow).known hd, (hrising k i idoms hnow).lower hbe hd⟩
  · exact Idoms.isSome_moment_succ hm hlt hr horder hstart hnow hb
  · exact (hrising k i idoms hnow).reaches_of_isSome hb

/-- Blocks 1 and 4 lead to each other and can each be entered first. Of the blocks that lead to block 1
the first is the later one, and the other one is its dominator only until the second pass. -/
def tangled : Graph Unit :=
  [(0, 2), (4, 1), (3, 0), (0, 4), (1, 4), (2, 1)].foldl (fun g x => g.link x.1 x.2)
    { blocks := #[{}, { id := 1 }, { id := 2 }, { id := 3 }, { id := 4 }] }

theorem dominatorTree_settles_safely_tangled :
    tangled.Built ∧ tangled.start? = some 0 ∧ ∃ t rest, tangled.dominatorTree = .ok t ∧
      tangled.reversePostOrder = .ok (0 :: rest) ∧ tangled.SettlesSafely 0 rest t := by
  have blocks : Built { blocks := #[{}, { id := 1 }, { id := 2 }, { id := 3 }, { id := 4 }] :
      Graph Unit } :=
    .addBlock [] (.addBlock [] (.addBlock [] (.addBlock [] (.addBlock [] (.empty 0)))))
  have built : tangled.Built := blocks.linkAll (by decide)
  exact ⟨built, rfl, dominatorTree_settles_safely built rfl⟩

end Graph

end LocalFlow
