import LocalFlow.Graph.Order
import LocalFlow.Proofs.Graph.Building
import LocalFlow.Proofs.Graph.Path
import LocalFlow.Proofs.Outcome
import Mathlib.Data.List.Nodup

/-! What a depth-first search lists: the blocks that can be reached, each once, and each of them but
the first before one that leads to it. -/

namespace LocalFlow.Graph

variable {α : Type} {g : Graph α} {e : Nat} {visited : List Nat} {frames : List Frame}

/-- The blocks on the current path are finished from the innermost one out. -/
theorem frames_sublist_finishOrder (g : Graph α) (visited : List Nat) (frames : List Frame) :
    (frames.map (·.1)).Sublist (g.finishOrder visited frames) := by
  fun_induction finishOrder g visited frames with
  | case1 => exact .slnil
  | case2 visited b frames ih => exact ih.cons_cons b
  | case3 visited b s rest frames h ih => exact (List.sublist_cons_self _ _).trans ih
  | case4 visited b s rest frames h ih => exact ih

theorem mem_frames_or_not_visited {x : Nat} (hx : x ∈ g.finishOrder visited frames) :
    x ∈ frames.map (·.1) ∨ (x < g.size ∧ x ∉ visited) := by
  fun_induction finishOrder g visited frames with
  | case1 => simp at hx
  | case2 visited b frames ih =>
    rcases List.mem_cons.mp hx with rfl | hx
    · exact .inl (by simp)
    · exact (ih hx).imp_left (List.mem_cons_of_mem _)
  | case3 visited b s rest frames h ih =>
    rcases ih hx with hmem | ⟨hlt, hnot⟩
    · rcases List.mem_cons.mp hmem with rfl | hmem
      · exact .inr h
      · exact .inl hmem
    · exact .inr ⟨hlt, fun hv => hnot (List.mem_cons_of_mem _ hv)⟩
  | case4 visited b s rest frames h ih => exact ih hx

theorem finishOrder_nodup (hnodup : (frames.map (·.1)).Nodup)
    (hsub : ∀ x ∈ frames.map (·.1), x ∈ visited) : (g.finishOrder visited frames).Nodup := by
  fun_induction finishOrder g visited frames with
  | case1 => exact .nil
  | case2 visited b frames ih =>
    obtain ⟨hb, hframes⟩ := List.nodup_cons.mp hnodup
    refine List.nodup_cons.mpr ⟨fun hmem => ?_, ih hframes fun x hx => hsub x (.tail _ hx)⟩
    rcases mem_frames_or_not_visited hmem with hmem | ⟨-, hnot⟩
    · exact hb hmem
    · exact hnot (hsub b (by simp))
  | case3 visited b s rest frames h ih =>
    refine ih (List.nodup_cons.mpr ⟨fun hs => h.2 (hsub s hs), hnodup⟩) fun x hx => ?_
    rcases List.mem_cons.mp hx with rfl | hx
    · simp
    · exact List.mem_cons_of_mem _ (hsub x hx)
  | case4 visited b s rest frames h ih => exact ih hnodup hsub

/-- Whatever is still to be explored is listed in the end, unless it was visited before. -/
theorem pending_mem_finishOrder :
    ∀ frame ∈ frames, ∀ s ∈ frame.2, s < g.size →
      s ∈ visited ∨ s ∈ g.finishOrder visited frames := by
  fun_induction finishOrder g visited frames with
  | case1 => simp
  | case2 visited b frames ih =>
    intro frame hframe s hs hlt
    rcases List.mem_cons.mp hframe with rfl | hframe
    · simp at hs
    · exact (ih frame hframe s hs hlt).imp_right (List.mem_cons_of_mem _)
  | case3 visited b t rest frames h ih =>
    intro frame hframe s hs hlt
    have ht : t ∈ g.finishOrder (t :: visited) ((t, g.succ t) :: (b, rest) :: frames) :=
      (frames_sublist_finishOrder _ _ _).subset (by simp)
    have hold : s ∈ t :: visited ∨
        s ∈ g.finishOrder (t :: visited) ((t, g.succ t) :: (b, rest) :: frames) := by
      rcases List.mem_cons.mp hframe with rfl | hframe
      · rcases List.mem_cons.mp hs with rfl | hs
        · exact .inr ht
        · exact ih (b, rest) (by simp) s hs hlt
      · exact ih frame (by simp [hframe]) s hs hlt
    rcases hold with hv | hmem
    · rcases List.mem_cons.mp hv with rfl | hv
      · exact .inr ht
      · exact .inl hv
    · exact .inr hmem
  | case4 visited b t rest frames h ih =>
    intro frame hframe s hs hlt
    rcases List.mem_cons.mp hframe with rfl | hframe
    · rcases List.mem_cons.mp hs with rfl | hs
      · left
        by_contra hv
        exact h ⟨hlt, hv⟩
      · exact ih (b, rest) (by simp) s hs hlt
    · exact ih frame (by simp [hframe]) s hs hlt

theorem succ_mem_finishOrder :
    ∀ x ∈ g.finishOrder visited frames, x ∉ frames.map (·.1) →
      ∀ s ∈ g.succ x, s < g.size → s ∈ visited ∨ s ∈ g.finishOrder visited frames := by
  fun_induction finishOrder g visited frames with
  | case1 => simp
  | case2 visited b frames ih =>
    intro x hx hnot s hs hlt
    rcases List.mem_cons.mp hx with rfl | hx
    · simp at hnot
    · exact (ih x hx (fun hmem => hnot (.tail _ hmem)) s hs hlt).imp_right (.tail _)
  | case3 visited b t rest frames h ih =>
    intro x hx hnot s hs hlt
    have ht : t ∈ g.finishOrder (t :: visited) ((t, g.succ t) :: (b, rest) :: frames) :=
      (frames_sublist_finishOrder _ _ _).subset (by simp)
    have hold : s ∈ t :: visited ∨
        s ∈ g.finishOrder (t :: visited) ((t, g.succ t) :: (b, rest) :: frames) := by
      by_cases hxt : x = t
      · subst hxt
        exact pending_mem_finishOrder (x, g.succ x) (by simp) s hs hlt
      · refine ih x hx (fun hmem => ?_) s hs hlt
        rcases List.mem_cons.mp hmem with rfl | hmem
        · exact hxt rfl
        · exact hnot hmem
    rcases hold with hv | hmem
    · rcases List.mem_cons.mp hv with rfl | hv
      · exact .inr ht
      · exact .inl hv
    · exact .inr hmem
  | case4 visited b t rest frames h ih => exact ih

/-- A block that the search comes to is finished before the block it was found from. -/
theorem exists_parent_finishOrder (hframes : ∀ frame ∈ frames, ∀ s ∈ frame.2, s ∈ g.succ frame.1) :
    ∀ x ∈ g.finishOrder visited frames, x ∉ frames.map (·.1) →
      ∃ p, x ∈ g.succ p ∧ [x, p].Sublist (g.finishOrder visited frames) := by
  fun_induction finishOrder g visited frames with
  | case1 => simp
  | case2 visited b frames ih =>
    intro x hx hnot
    rcases List.mem_cons.mp hx with rfl | hx
    · simp at hnot
    · obtain ⟨p, hp, hsub⟩ := ih (fun frame hframe => hframes frame (.tail _ hframe)) x hx
        fun hmem => hnot (.tail _ hmem)
      exact ⟨p, hp, hsub.cons b⟩
  | case3 visited b t rest frames h ih =>
    intro x hx hnot
    by_cases hxt : x = t
    · subst hxt
      have hsub : (x :: b :: frames.map (·.1)).Sublist
          (g.finishOrder (x :: visited) ((x, g.succ x) :: (b, rest) :: frames)) :=
        frames_sublist_finishOrder _ _ ((x, g.succ x) :: (b, rest) :: frames)
      refine ⟨b, hframes (b, x :: rest) (by simp) x (by simp), ?_⟩
      exact (List.sublist_append_left [x, b] _).trans hsub
    · refine ih (fun frame hframe s hs => ?_) x hx fun hmem => ?_
      · simp only [List.mem_cons] at hframe
        rcases hframe with rfl | rfl | hframe
        · exact hs
        · exact hframes (b, t :: rest) (by simp) s (.tail _ hs)
        · exact hframes frame (.tail _ hframe) s hs
      · rcases List.mem_cons.mp hmem with rfl | hmem
        · exact hxt rfl
        · exact hnot hmem
  | case4 visited b t rest frames h ih =>
    refine ih fun frame hframe s hs => ?_
    rcases List.mem_cons.mp hframe with rfl | hframe
    · exact hframes (b, t :: rest) (by simp) s (.tail _ hs)
    · exact hframes frame (.tail _ hframe) s hs

theorem Mirrored.lt_size_of_reaches {b : Nat} (hg : g.Mirrored) (he : e < g.size)
    (hb : g.Reaches e b) : b < g.size := by
  by_cases hbe : b = e
  · exact hbe ▸ he
  · obtain ⟨c, -, hbc⟩ := hb.exists_pred hbe
    exact hg.succ_lt hbc

theorem idxOf_lt_idxOf {L : List Nat} {x y : Nat} (hL : L.Nodup) (h : [x, y].Sublist L) :
    L.idxOf x < L.idxOf y := by
  have hpair : L.Pairwise fun x y => L.idxOf x < L.idxOf y := by
    rw [List.pairwise_iff_getElem]
    intro i j hi hj hij
    rwa [hL.idxOf_getElem, hL.idxOf_getElem]
  simpa using hpair.sublist h

/-- If every block of a list but `e` is followed by one that leads to it, all of them can be reached
from `e`. -/
theorem reaches_of_parents {L : List Nat} (hL : L.Nodup)
    (h : ∀ x ∈ L, x ≠ e → ∃ p, x ∈ g.succ p ∧ [x, p].Sublist L) : ∀ x ∈ L, g.Reaches e x := by
  induction L with
  | nil => simp
  | cons y L ih =>
    obtain ⟨hy, hnodup⟩ := List.nodup_cons.mp hL
    have hrest : ∀ x ∈ L, g.Reaches e x := by
      refine ih hnodup fun x hx hne => ?_
      obtain ⟨p, hp, hsub⟩ := h x (.tail _ hx) hne
      refine ⟨p, hp, ?_⟩
      cases hsub with
      | cons _ hsub => exact hsub
      | cons_cons => exact absurd hx hy
    intro x hx
    rcases List.mem_cons.mp hx with rfl | hx
    · by_cases hxe : x = e
      · exact hxe ▸ .refl x
      · obtain ⟨p, hp, hsub⟩ := h x (.head _) hxe
        have hpL : p ∈ L := by
          cases hsub with
          | cons _ hsub => exact hsub.subset (by simp)
          | cons_cons _ hsub => exact hsub.subset (by simp)
        exact (hrest p hpL).step hp
    · exact hrest x hx

/-- The reachable blocks, each once, the entry first and every other block after one that leads to
it. -/
structure IsSearchOrder (g : Graph α) (e : Nat) (order : List Nat) : Prop where
  nodup : order.Nodup
  head : order.head? = some e
  mem_iff : ∀ b, b ∈ order ↔ g.Reaches e b
  exists_earlier : ∀ b ∈ order, b ≠ e → ∃ p, b ∈ g.succ p ∧ [p, b].Sublist order

theorem IsSearchOrder.length_le {order : List Nat} (h : g.IsSearchOrder e order) (hg : g.Mirrored)
    (he : e < g.size) : order.length ≤ g.size := by
  have hsub : order ⊆ List.range g.size := fun b hb =>
    List.mem_range.mpr (hg.lt_size_of_reaches he ((h.mem_iff b).mp hb))
  simpa using h.nodup.length_le_of_subset hsub

theorem isSearchOrder_reverse_finishOrder (hg : g.Mirrored) :
    g.IsSearchOrder e (g.finishOrder [e] [(e, g.succ e)]).reverse := by
  set L := g.finishOrder [e] [(e, g.succ e)] with hL
  have he : e ∈ L := (frames_sublist_finishOrder _ _ _).subset (by simp)
  have hparent : ∀ x ∈ L, x ≠ e → ∃ p, x ∈ g.succ p ∧ [x, p].Sublist L := by
    intro x hx hne
    exact exists_parent_finishOrder (by simp) x hx (by simpa using hne)
  have hclosed : ∀ x ∈ L, ∀ s ∈ g.succ x, s ∈ L := by
    intro x hx s hs
    have hlt := hg.succ_lt hs
    have hlisted : s ∈ [e] ∨ s ∈ L := by
      by_cases hxe : x = e
      · subst hxe
        exact pending_mem_finishOrder (x, g.succ x) (by simp) s hs hlt
      · exact succ_mem_finishOrder x hx (by simpa using hxe) s hs hlt
    rcases hlisted with hs | hs
    · obtain rfl : s = e := by simpa using hs
      exact he
    · exact hs
  have hnodup : L.Nodup := finishOrder_nodup (by simp) (by simp)
  refine ⟨List.nodup_reverse.mpr hnodup, ?_, fun b => ?_, fun b hb hne => ?_⟩
  · obtain ⟨L₀, y, hy⟩ := (List.eq_nil_or_concat' L).resolve_left (List.ne_nil_of_mem he)
    rw [List.head?_reverse, hy, List.getLast?_concat]
    by_contra hne
    obtain ⟨p, -, hsub⟩ := hparent y (by simp [hy]) (by simpa using hne)
    have hlt := idxOf_lt_idxOf hnodup hsub
    have hp := List.idxOf_lt_length_of_mem (hsub.subset (by simp : p ∈ [y, p]))
    have hyidx : L.idxOf y = L₀.length := by
      have hnot : y ∉ L₀ := by
        rw [hy] at hnodup
        exact fun hmem => (List.nodup_append.mp hnodup).2.2 y hmem y (by simp) rfl
      rw [hy, List.idxOf_append_of_notMem hnot]
      simp
    have hlength : L.length = L₀.length + 1 := by simp [hy]
    omega
  · rw [List.mem_reverse]
    constructor
    · exact reaches_of_parents hnodup hparent b
    · rintro ⟨p, hp⟩
      exact hp.induction_snoc (motive := fun _ b => b ∈ L) he fun _ _ _ _ hs ih => hclosed _ ih _ hs
  · obtain ⟨p, hp, hsub⟩ := hparent b (List.mem_reverse.mp hb) hne
    exact ⟨p, hp, by simpa using hsub.reverse⟩

theorem postOrder_eq (hg : g.Mirrored) (he : g.start? = some e) :
    g.postOrder = .ok (g.finishOrder [e] [(e, g.succ e)]) := by
  have hsize : g.blocks.isEmpty = false := by
    have hlt := (start?_eq_some.mp he).2
    rw [Array.isEmpty_eq_false_iff]
    rintro hempty
    simp [size, hempty] at hlt
  have hends : ∀ c ∈ (g.finishOrder [e] [(e, g.succ e)]).flatMap g.succ, c < g.blocks.size := by
    intro c hc
    obtain ⟨b, -, hc⟩ := List.mem_flatMap.mp hc
    exact hg.succ_lt hc
  obtain ⟨ends, hends⟩ := exists_mapM_fetch hends
  rw [postOrder, hsize, he]
  exact bind_eq_ok.mpr ⟨e, rfl, bind_eq_ok.mpr ⟨ends, hends, rfl⟩⟩

theorem reversePostOrder_eq (hg : g.Mirrored) (he : g.start? = some e) :
    g.reversePostOrder = .ok (g.finishOrder [e] [(e, g.succ e)]).reverse := by
  rw [reversePostOrder, postOrder_eq hg he]
  rfl

end LocalFlow.Graph
