import LocalFlow.Proofs.Function.Tree
import LocalFlow.Proofs.Graph.Frontiers
import LocalFlow.Ssa.Placement

/-! The definition of a local that reaches a block. Along a path it is the one that was met last;
down the dominator tree it is the one that the immediate dominator leaves. If merges stand wherever
definitions can meet, every path to a block brings the definition that the tree brings. -/

namespace LocalFlow

namespace Definition

/-- What defines `v` once block `b` is entered. -/
def enter (merges : Nat → Bool) (v : Nat) (d : Definition) (b : Nat) : Definition :=
  if merges b then .phi b v else d

/-- What defines `v` after the node at `r`. -/
def after (fn : Function) (v : Nat) (d : Definition) (r : Ref) : Definition :=
  match fn.node? r with
  | some n => if (n.kind = .localSet ∨ n.kind = .localTee) ∧ n.index = v then .instr r v else d
  | none => d

/-- What defines `v` at the end of block `b`. -/
def across (fn : Function) (g : Graph Ref) (merges : Nat → Bool) (v : Nat) (d : Definition)
    (b : Nat) : Definition :=
  (g.items b).foldl (after fn v) (enter merges v d b)

variable {fn : Function} {g : Graph Ref} {merges : Nat → Bool} {v b : Nat} {d : Definition}
  {items : List Ref}

theorem after_of_node? {r : Ref} {n : Node} (hr : fn.node? r = some n) :
    after fn v d r = if n.kind.isLocalWrite && n.index = v then .instr r v else d := by
  simp [after, hr, Kind.isLocalWrite_iff]

theorem foldl_after_of_not_writes
    (h : ((fn.accessesIn items).any fun (_, n) => n.kind.isLocalWrite && n.index = v) = false) :
    items.foldl (after fn v) d = d := by
  induction items with
  | nil => rfl
  | cons r items ih =>
    rw [List.foldl_cons]
    rw [Function.accessesIn, List.filterMap_cons] at h
    cases hr : fn.node? r with
    | none =>
      rw [hr] at h
      rw [after, hr]
      exact ih h
    | some n =>
      cases haccess : n.kind.isLocalAccess with
      | false =>
        have hwrite : n.kind.isLocalWrite = false := Bool.eq_false_iff.mpr fun hwrite =>
          absurd (Kind.isLocalAccess_of_isLocalWrite hwrite) (by simp [haccess])
        simp only [hr, haccess, Bool.false_eq_true, if_false] at h
        simp only [after_of_node? hr, hwrite, Bool.false_and, Bool.false_eq_true, if_false]
        exact ih h
      | true =>
        simp only [hr, haccess, if_true, List.any_cons, Bool.or_eq_false_iff] at h
        simp only [after_of_node? hr, h.1, Bool.false_eq_true, if_false]
        exact ih h.2

/-- A block that neither merges nor writes `v` leaves the definition that it was entered with. -/
theorem across_of_not_defined (hmerges : merges b = false) (hwrites : fn.writesIn g v b = false) :
    across fn g merges v d b = d := by
  rw [across, enter, hmerges]
  exact foldl_after_of_not_writes hwrites

end Definition

open Definition

/-- Blocks with a definition of `v` of their own: the entry, merges, and blocks that write `v`. -/
def Function.Defines (fn : Function) (g : Graph Ref) (merges : Nat → Bool) (e v b : Nat) : Prop :=
  b = e ∨ merges b = true ∨ (g.Reaches e b ∧ fn.writesIn g v b = true)

/-- Merges stand wherever the dominance of a definition ends. -/
def Function.MergesMeet (fn : Function) (g : Graph Ref) (merges : Nat → Bool) (e v : Nat) : Prop :=
  ∀ {x y p}, fn.Defines g merges e v x → g.Reaches e p → y ∈ g.succ p → g.Dominates e x p →
    ¬g.StrictlyDominates e x y → merges y = true

/-- Block `b` is entered with definition `d` of local `v` on the way down the dominator tree. -/
inductive Function.Inherits (fn : Function) (g : Graph Ref) (t : DominatorTree)
    (merges : Nat → Bool) (v : Nat) : Nat → Definition → Prop
  | entry {e : Nat} : t.entry = e → Inherits fn g t merges v e (.initial fn v)
  | child {b c : Nat} {d : Definition} : t.entry ≠ c → t.idom? c = some b →
      Inherits fn g t merges v b d → Inherits fn g t merges v c (across fn g merges v d b)

namespace Function.Inherits

variable {fn : Function} {g : Graph Ref} {t : DominatorTree} {merges : Nat → Bool}
  {v e b c p x y : Nat} {d d' : Definition}

theorem unique (h : Inherits fn g t merges v b d) (h' : Inherits fn g t merges v b d') : d = d' := by
  induction h generalizing d' with
  | entry he =>
    cases h' with
    | entry => rfl
    | child hne => exact absurd he hne
  | child hne hidom _ ih =>
    cases h' with
    | entry he => exact absurd he hne
    | child _ hidom' hb =>
      obtain rfl : _ = _ := Option.some.inj (hidom.symm.trans hidom')
      rw [ih hb]

section Tree

variable (ht : g.IsDominatorTree e t)
include ht

theorem exists_of_reaches (hb : g.Reaches e b) : ∃ d, Inherits fn g t merges v b d := by
  have habove := (ht.exact.above_iff hb).mpr (.entry hb)
  induction habove with
  | refl => exact ⟨_, .entry ht.entry⟩
  | up hbe hidom habove ih =>
    have hdom := (ht.exact.above_iff hb).mp (.up hbe hidom .refl)
    obtain ⟨d, hd⟩ := ih hdom.reaches_left
    refine ⟨_, .child ?_ ((ht.idom?_eq_get? hb).trans hidom) hd⟩
    rw [ht.entry]
    exact_mod_cast Ne.symm hbe

theorem eq_initial (h : Inherits fn g t merges v e d) : d = .initial fn v :=
  h.unique (.entry ht.entry)

theorem exists_parent (h : Inherits fn g t merges v b d) (hb : g.Reaches e b) (hbe : b ≠ e) :
    ∃ c d', t.idoms.get? b = some c ∧ Inherits fn g t merges v c d' ∧
      d = across fn g merges v d' c := by
  cases h with
  | entry he =>
    rw [ht.entry] at he
    exact absurd (Int.ofNat.inj he).symm hbe
  | child _ hidom hc => exact ⟨_, _, (ht.idom?_eq_get? hb).symm.trans hidom, hc, rfl⟩

/-- Up from a block to an ancestor nothing changes if no block before the ancestor defines `v`. -/
theorem across_eq_of_above (habove : Idoms.Above t.idoms e c x)
    (hnone : ∀ z, g.Dominates e c z → z ≠ c → g.Dominates e z x → ¬fn.Defines g merges e v z)
    (hx : g.Reaches e x) (h : Inherits fn g t merges v x d) (h' : Inherits fn g t merges v c d') :
    across fn g merges v d x = across fn g merges v d' c := by
  induction habove generalizing d with
  | refl => rw [h.unique h']
  | up hxe hidom habove ih =>
    rename_i x y
    have hyx : g.Dominates e y x := (ht.exact.above_iff hx).mp (.up hxe hidom .refl)
    have hcx : g.Dominates e c x := (ht.exact.above_iff hx).mp (.up hxe hidom habove)
    have hlower := ht.exact.lower hxe hidom
    have hle := habove.rank_le ht.exact.toRising
    have hdefines : ¬fn.Defines g merges e v x := by
      refine hnone x hcx ?_ (.refl hx)
      rintro rfl
      omega
    obtain ⟨y', d₀, hidom', hy', rfl⟩ := exists_parent ht h hx hxe
    obtain rfl : y = y' := Option.some.inj (hidom.symm.trans hidom')
    rw [across_of_not_defined]
    · exact ih (fun z hcz hzc hzy => hnone z hcz hzc (hzy.trans hyx)) hyx.reaches_left hy'
    · exact Bool.eq_false_iff.mpr fun hm => hdefines (.inr (.inl hm))
    · exact Bool.eq_false_iff.mpr fun hw => hdefines (.inr (.inr ⟨hx, hw⟩))

/-- Where nothing is merged, each predecessor leaves what the immediate dominator leaves. -/
theorem across_eq_of_not_merges (hmeet : fn.MergesMeet g merges e v) (hy : merges y = false)
    (hp : g.Reaches e p) (hpy : y ∈ g.succ p) (h : Inherits fn g t merges v p d)
    (h' : Inherits fn g t merges v y d') : across fn g merges v d p = d' := by
  have hnone : ∀ {x}, g.Dominates e x p → ¬g.StrictlyDominates e x y →
      ¬fn.Defines g merges e v x := fun hxp hxy hx =>
    absurd (hmeet hx hp hpy hxp hxy) (by simp [hy])
  have hye : y ≠ e := by
    rintro rfl
    exact hnone (.entry hp) (fun h => h.1 rfl) (.inl rfl)
  have hreach := hp.step hpy
  obtain ⟨c, d₀, hidom, hc, rfl⟩ := exists_parent ht h' hreach hye
  obtain ⟨c', hc', hcy, hnearest⟩ := ht.exists_idom? hreach hye
  obtain rfl : c' = c := Option.some.inj (hc'.symm.trans ((ht.idom?_eq_get? hreach).trans hidom))
  have hcp : g.Dominates e c' p := hcy.2.of_succ hcy.1 hp hpy
  refine across_eq_of_above ht ((ht.exact.above_iff hp).mpr hcp) (fun z hcz hzc hzp => ?_) hp h hc
  exact hnone hzp fun hzy => hzc ((hnearest z hzy).antisymm hcz)

/-- Every path to a block brings the definition that the dominator tree brings. -/
theorem enter_foldl_across (hmeet : fn.MergesMeet g merges e v) {path : List Nat}
    (hpath : g.IsPath e path b) (h : Inherits fn g t merges v b d) :
    enter merges v (path.dropLast.foldl (across fn g merges v) (.initial fn v)) b =
      enter merges v d b := by
  refine hpath.induction_snoc (motive := fun path b => ∀ d, Inherits fn g t merges v b d →
    enter merges v (path.dropLast.foldl (across fn g merges v) (.initial fn v)) b =
      enter merges v d b) ?_ ?_ d h
  · intro d h
    rw [eq_initial ht h]
    rfl
  · intro path b c hpath hbc ih d h
    obtain ⟨d₀, hd₀⟩ : ∃ d₀, Inherits fn g t merges v b d₀ := exists_of_reaches ht ⟨path, hpath⟩
    have hlast : path.dropLast ++ [b] = path := List.dropLast_append_getLast? b hpath.last
    have hleave : path.foldl (across fn g merges v) (.initial fn v) = across fn g merges v d₀ b := by
      rw [← hlast, List.foldl_append, List.foldl_cons, List.foldl_nil, across, ih d₀ hd₀]
      rfl
    rw [List.dropLast_concat, hleave, enter, enter]
    cases hm : merges c with
    | true => rfl
    | false => exact across_eq_of_not_merges ht hmeet hm ⟨path, hpath⟩ hbc hd₀ h

end Tree

end Function.Inherits

end LocalFlow
