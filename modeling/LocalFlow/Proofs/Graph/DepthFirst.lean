import Mathlib
import LocalFlow.Proofs.Graph.Order

/-! Depth-first search as a plain recursion. The search that keeps its path in frames finishes the
blocks in the same order as the recursion does. In this order the end of an edge comes before its
start, unless there is a way back. -/

namespace LocalFlow.Graph

variable {α : Type} {g : Graph α} {e x y : Nat} {seen bs : List Nat}

/-- What a search comes back with: all blocks that have been seen by then, and those that it has
finished itself, in order. -/
structure Exploration (seen : List Nat) where
  all : List Nat
  finished : List Nat
  subset : seen ⊆ all

/-- Explores the listed blocks one after another. A block that has not been seen yet is noted as
seen, then its successors are explored in the order of their edges, and then it is finished. -/
def explore (g : Graph α) (seen : List Nat) : List Nat → Exploration seen
  | [] => ⟨seen, [], List.Subset.refl seen⟩
  | s :: rest =>
    if _ : s < g.size ∧ s ∉ seen then
      let below := g.explore (s :: seen) (g.succ s)
      let after := g.explore below.all rest
      ⟨after.all, below.finished ++ s :: after.finished,
        fun _ hx => after.subset (below.subset (.tail s hx))⟩
    else g.explore seen rest
termination_by bs => (unvisited g.size seen, bs.length)
decreasing_by
  · rename_i h
    exact Prod.Lex.left _ _ (unvisited_cons_lt h.1 h.2)
  · rename_i h
    have hle : unvisited g.size below.all ≤ unvisited g.size (s :: seen) :=
      unvisited_le_of_subset fun _ hx => below.subset hx
    exact Prod.Lex.left _ _ (Nat.lt_of_le_of_lt hle (unvisited_cons_lt h.1 h.2))
  · exact Prod.Lex.right _ (by simp)

/-- Frames are resumed in the way in which calls return. -/
theorem finishOrder_cons (seen : List Nat) (b : Nat) (rest : List Nat) (frames : List Frame) :
    g.finishOrder seen ((b, rest) :: frames) =
      (g.explore seen rest).finished ++ b :: g.finishOrder (g.explore seen rest).all frames := by
  fun_induction explore g seen rest generalizing b frames with
  | case1 seen => rw [finishOrder]; rfl
  | case2 seen s rest h below after ihbelow ihafter =>
    rw [finishOrder, dif_pos h, ihbelow, ihafter]
    simp [below, after]
  | case3 seen s rest h ih => rw [finishOrder, dif_neg h, ih]

theorem mem_explore_all (g : Graph α) (seen bs : List Nat) :
    x ∈ (g.explore seen bs).all ↔ x ∈ seen ∨ x ∈ (g.explore seen bs).finished := by
  fun_induction explore g seen bs with
  | case1 seen => simp
  | case2 seen s rest h below after ihbelow ihafter =>
    have hbelow : x ∈ below.all ↔ x ∈ s :: seen ∨ x ∈ below.finished := ihbelow
    have hafter : x ∈ after.all ↔ x ∈ below.all ∨ x ∈ after.finished := ihafter
    rw [hafter, hbelow, List.mem_append, List.mem_cons, List.mem_cons]
    simp only [or_assoc, or_left_comm]
  | case3 seen s rest h ih => exact ih

theorem mem_explore_all_of_mem (hx : x ∈ bs) (hlt : x < g.size) : x ∈ (g.explore seen bs).all := by
  fun_induction explore g seen bs with
  | case1 seen => simp at hx
  | case2 seen s rest h below after ihbelow ihafter =>
    rcases List.mem_cons.mp hx with rfl | hx
    · exact after.subset (below.subset (.head _))
    · exact ihafter hx
  | case3 seen s rest h ih =>
    rcases List.mem_cons.mp hx with rfl | hx
    · have hseen : x ∈ seen := by
        by_contra hnot
        exact h ⟨hlt, hnot⟩
      exact (g.explore seen rest).subset hseen
    · exact ih hx

/-- The search only comes to blocks that can be reached from those it starts with. -/
theorem exists_reaches_of_mem_finished (hx : x ∈ (g.explore seen bs).finished) :
    ∃ b ∈ bs, g.Reaches b x := by
  fun_induction explore g seen bs with
  | case1 seen => simp at hx
  | case2 seen s rest h below after ihbelow ihafter =>
    rcases List.mem_append.mp hx with hx | hx
    · obtain ⟨c, hc, p, hp⟩ := ihbelow hx
      exact ⟨s, by simp, s :: p, hp.cons hc⟩
    · rcases List.mem_cons.mp hx with rfl | hx
      · exact ⟨x, by simp, .refl x⟩
      · obtain ⟨b, hb, hreach⟩ := ihafter hx
        exact ⟨b, .tail _ hb, hreach⟩
  | case3 seen s rest h ih =>
    obtain ⟨b, hb, hreach⟩ := ih hx
    exact ⟨b, .tail _ hb, hreach⟩

/-- The end of an edge was seen before the search, or it is finished before the start of the edge,
or the search was on its way from there. -/
theorem seen_or_before_or_reaches (hx : x ∈ (g.explore seen bs).finished) (hy : y ∈ g.succ x)
    (hlt : y < g.size) :
    y ∈ seen ∨ [y, x].Sublist (g.explore seen bs).finished ∨ g.Reaches y x := by
  fun_induction explore g seen bs with
  | case1 seen => simp at hx
  | case2 seen s rest h below after ihbelow ihafter =>
    have hbelow : below.finished.Sublist (below.finished ++ s :: after.finished) :=
      List.sublist_append_left _ _
    rcases List.mem_append.mp hx with hx | hx
    · rcases ihbelow hx with hseen | hbefore | hback
      · rcases List.mem_cons.mp hseen with rfl | hseen
        · obtain ⟨c, hc, p, hp⟩ := exists_reaches_of_mem_finished hx
          exact .inr (.inr ⟨y :: p, hp.cons hc⟩)
        · exact .inl hseen
      · exact .inr (.inl (hbefore.trans hbelow))
      · exact .inr (.inr hback)
    · -- Whatever has been seen by now and was not seen before is finished already, but for `s`.
      have hold : y ∈ below.all → y ∈ seen ∨ y = s ∨ y ∈ below.finished := fun hy => by
        rcases (mem_explore_all g _ _).mp hy with hy | hy
        · rcases List.mem_cons.mp hy with rfl | hy
          · exact .inr (.inl rfl)
          · exact .inl hy
        · exact .inr (.inr hy)
      rcases List.mem_cons.mp hx with rfl | hx
      · rcases hold (mem_explore_all_of_mem hy hlt) with hseen | rfl | hdone
        · exact .inl hseen
        · exact .inr (.inr (.refl y))
        · refine .inr (.inl ?_)
          exact (List.singleton_sublist.mpr hdone).append (List.singleton_sublist.mpr (.head _))
      · rcases ihafter hx with hseen | hbefore | hback
        · rcases hold hseen with hseen | rfl | hdone
          · exact .inl hseen
          · refine .inr (.inl ?_)
            exact (List.Sublist.cons_cons y (List.singleton_sublist.mpr hx)).trans
              (List.sublist_append_right _ _)
          · refine .inr (.inl ?_)
            exact (List.singleton_sublist.mpr hdone).append (List.singleton_sublist.mpr (.tail _ hx))
        · exact .inr (.inl (hbefore.trans ((List.sublist_cons_self _ _).trans
            (List.sublist_append_right _ _))))
        · exact .inr (.inr hback)
  | case3 seen s rest h ih => exact ih hx

/-- The search with frames is the recursive search from the entry. -/
theorem finishOrder_entry (he : e < g.size) :
    g.finishOrder [e] [(e, g.succ e)] = (g.explore [] [e]).finished := by
  rw [finishOrder_cons, finishOrder]
  simp [explore, he]

/-- The blocks are listed in depth-first order: exactly those that can be reached from the entry,
each once and the entry last, as the recursive search finishes them. An edge is listed against its
direction, unless its end leads back to its start. In the reverse order every block but the entry
comes after one of its predecessors. -/
theorem postOrder_depthFirst (hg : g.Built) (he : g.start? = some e) :
    ∃ order, g.postOrder = .ok order ∧ order = (g.explore [] [e]).finished ∧
      order.Nodup ∧ (∀ b, b ∈ order ↔ g.Reaches e b) ∧ order.getLast? = some e ∧
      (∀ u v, g.Reaches e u → g.Reaches e v → v ∈ g.succ u →
        [v, u].Sublist order ∨ v = u ∨ g.Reaches v u) ∧
      g.reversePostOrder = .ok order.reverse ∧
      ∀ b, g.Reaches e b → b ≠ e → ∃ p ∈ g.pred b, [p, b].Sublist order.reverse := by
  have hm := hg.mirrored
  have hlt := (start?_eq_some.mp he).2
  have hsearch := isSearchOrder_reverse_finishOrder (e := e) hm
  have hreverse := reversePostOrder_eq hm he
  have hpost := postOrder_eq hm he
  rw [finishOrder_entry hlt] at hsearch hreverse hpost
  have hmem : ∀ b, b ∈ (g.explore [] [e]).finished ↔ g.Reaches e b := fun b => by
    rw [← hsearch.mem_iff, List.mem_reverse]
  refine ⟨_, hpost, rfl, List.nodup_reverse.mp hsearch.nodup, hmem, ?_, ?_, hreverse, ?_⟩
  · rw [← List.head?_reverse]
    exact hsearch.head
  · intro u v hu _ huv
    rcases seen_or_before_or_reaches ((hmem u).mpr hu) huv (hm.succ_lt huv) with
      hseen | hbefore | hback
    · simp at hseen
    · exact .inl hbefore
    · exact .inr (.inr hback)
  · intro b hb hne
    obtain ⟨p, hp, hbefore⟩ := hsearch.exists_earlier b ((hsearch.mem_iff b).mpr hb) hne
    exact ⟨p, hm.mem_pred.mpr hp, hbefore⟩

/-- From block 1 there are two ways to block 4, which leads to itself and back to one of them. Block
0 cannot be entered. -/
def roundabout : Graph Unit :=
  [(1, 2), (1, 3), (2, 4), (3, 4), (4, 2), (4, 4), (0, 3)].foldl (fun g x => g.link x.1 x.2)
    { entry := 1, blocks := #[{}, { id := 1 }, { id := 2 }, { id := 3 }, { id := 4 }] }

theorem postOrder_depthFirst_roundabout :
    roundabout.Built ∧ roundabout.start? = some 1 ∧
      roundabout.postOrder = .ok [4, 2, 3, 1] ∧ (roundabout.explore [] [1]).finished = [4, 2, 3, 1] ∧
      (∀ b, b ∈ [4, 2, 3, 1] ↔ roundabout.Reaches 1 b) ∧
      (∀ u v, roundabout.Reaches 1 u → roundabout.Reaches 1 v → v ∈ roundabout.succ u →
        [v, u].Sublist [4, 2, 3, 1] ∨ v = u ∨ roundabout.Reaches v u) ∧
      2 ∈ roundabout.succ 4 ∧ roundabout.Reaches 2 4 ∧
      ∀ b, roundabout.Reaches 1 b → b ≠ 1 →
        ∃ p ∈ roundabout.pred b, [p, b].Sublist [1, 3, 2, 4] := by
  have blocks : Built
      { entry := 1, blocks := #[{}, { id := 1 }, { id := 2 }, { id := 3 }, { id := 4 }] : Graph Unit } :=
    .addBlock [] (.addBlock [] (.addBlock [] (.addBlock [] (.addBlock [] (.empty 1)))))
  have built : roundabout.Built :=
    .addEdge (a := 0) (b := 3) (.addEdge (a := 4) (b := 4) (.addEdge (a := 4) (b := 2)
      (.addEdge (a := 3) (b := 4) (.addEdge (a := 2) (b := 4) (.addEdge (a := 1) (b := 3)
        (.addEdge (a := 1) (b := 2) blocks rfl) rfl) rfl) rfl) rfl) rfl) rfl
  have hlisted : roundabout.postOrder = .ok [4, 2, 3, 1] := by cbv
  obtain ⟨order, horder, hsearch, -, hmem, -, hedges, -, hpreds⟩ := postOrder_depthFirst built rfl
  obtain rfl : [4, 2, 3, 1] = order := Except.ok.inj (hlisted.symm.trans horder)
  exact ⟨built, rfl, hlisted, hsearch.symm, hmem, hedges, by decide, (Reaches.refl 2).step (by decide),
    hpreds⟩

end LocalFlow.Graph
