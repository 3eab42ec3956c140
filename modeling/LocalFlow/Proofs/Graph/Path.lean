import LocalFlow.Graph.Basic
import Mathlib.Data.List.Chain

/-! Paths of a control-flow graph, and what they say of its blocks: which blocks can be reached, and
which blocks no path to another one can avoid. -/

namespace LocalFlow.Graph

variable {α : Type} {g : Graph α} {a b c e x : Nat} {p q : List Nat}

/-- The blocks of a path from `a` to `b`, both included, each a successor of the one before. -/
structure IsPath (g : Graph α) (a : Nat) (p : List Nat) (b : Nat) : Prop where
  head : p.head? = some a
  last : p.getLast? = some b
  linked : p.IsChain fun x y => y ∈ g.succ x

def Reaches (g : Graph α) (a b : Nat) : Prop := ∃ p, g.IsPath a p b

/-- Block `b` can be reached from `e`, but not without passing through `a`. -/
structure Dominates (g : Graph α) (e a b : Nat) : Prop where
  reaches : g.Reaches e b
  mem_path : ∀ p, g.IsPath e p b → a ∈ p

def StrictlyDominates (g : Graph α) (e a b : Nat) : Prop := a ≠ b ∧ g.Dominates e a b

namespace IsPath

theorem single (b : Nat) : g.IsPath b [b] b := ⟨rfl, rfl, List.isChain_singleton b⟩

theorem ne_nil (h : g.IsPath a p b) : p ≠ [] := by
  rintro rfl
  exact absurd h.head (by simp)

theorem first_mem (h : g.IsPath a p b) : a ∈ p := List.mem_of_head? h.head

theorem last_mem (h : g.IsPath a p b) : b ∈ p := List.mem_of_getLast? h.last

theorem snoc (h : g.IsPath a p b) (hbc : c ∈ g.succ b) : g.IsPath a (p ++ [c]) c := by
  refine ⟨?_, by simp, h.linked.append (List.isChain_singleton c) fun y hy z hz => ?_⟩
  · rw [List.head?_append, h.head, Option.some_or]
  · have hyb : b = y := Option.some.inj (h.last.symm.trans hy)
    have hzc : c = z := Option.some.inj hz
    exact hyb ▸ hzc ▸ hbc

theorem cons (h : g.IsPath b p c) (hab : b ∈ g.succ a) : g.IsPath a (a :: p) c := by
  refine ⟨rfl, ?_, List.isChain_cons.mpr ⟨fun y hy => ?_, h.linked⟩⟩
  · rw [List.getLast?_cons_of_ne_nil h.ne_nil, h.last]
  · have hyb : b = y := Option.some.inj (h.head.symm.trans hy)
    exact hyb ▸ hab

theorem cases_cons (h : g.IsPath a p b) :
    (a = b ∧ p = [a]) ∨ ∃ c q, c ∈ g.succ a ∧ g.IsPath c q b ∧ p = a :: q := by
  obtain ⟨hhead, hlast, hlinked⟩ := h
  match p with
  | [] => simp at hhead
  | [y] =>
    have hy : y = a := Option.some.inj hhead
    have hb : y = b := Option.some.inj hlast
    exact .inl ⟨hy.symm.trans hb, by rw [hy]⟩
  | y :: z :: q =>
    have hy : y = a := Option.some.inj hhead
    obtain ⟨hyz, hq⟩ := List.isChain_cons_cons.mp hlinked
    refine .inr ⟨z, z :: q, hy ▸ hyz, ⟨rfl, ?_, hq⟩, by rw [hy]⟩
    rw [← hlast, List.getLast?_cons_cons]

theorem cases_snoc (h : g.IsPath a p b) :
    (a = b ∧ p = [a]) ∨ ∃ c q, b ∈ g.succ c ∧ g.IsPath a q c ∧ p = q ++ [b] := by
  obtain ⟨hhead, hlast, hlinked⟩ := h
  obtain ⟨q, rfl⟩ := List.getLast?_eq_some_iff.mp hlast
  rcases List.eq_nil_or_concat' q with rfl | ⟨r, c, rfl⟩
  · have hb : b = a := Option.some.inj hhead
    exact .inl ⟨hb.symm, by rw [hb]; rfl⟩
  · obtain ⟨hq, -, hcb⟩ := List.isChain_append.mp hlinked
    refine .inr ⟨c, r ++ [c], hcb c (by simp) b rfl, ⟨?_, by simp, hq⟩, rfl⟩
    rw [List.head?_append_of_ne_nil _ (by simp)] at hhead
    exact hhead

/-- Induction along a path, from its first block on. -/
theorem induction_snoc {motive : List Nat → Nat → Prop} (single : motive [a] a)
    (snoc : ∀ p b c, g.IsPath a p b → c ∈ g.succ b → motive p b → motive (p ++ [c]) c)
    (h : g.IsPath a p b) : motive p b := by
  induction hn : p.length using Nat.strong_induction_on generalizing p b with
  | _ n ih =>
    rcases h.cases_snoc with ⟨rfl, rfl⟩ | ⟨c, q, hcb, hq, rfl⟩
    · exact single
    · exact snoc q c b hq hcb (ih q.length (by simp at hn; omega) hq rfl)

/-- Induction along a path, from its last block back. -/
theorem induction_cons {motive : List Nat → Nat → Prop} (single : motive [b] b)
    (cons : ∀ p a c, g.IsPath c p b → c ∈ g.succ a → motive p c → motive (a :: p) a)
    (h : g.IsPath a p b) : motive p a := by
  induction p generalizing a with
  | nil => exact absurd rfl h.ne_nil
  | cons y p ih =>
    rcases h.cases_cons with ⟨rfl, hp⟩ | ⟨c, q, hac, hq, hp⟩
    · exact hp ▸ single
    · obtain ⟨rfl, rfl⟩ := List.cons.inj hp
      exact cons p y c hq hac (ih hq)

theorem split (h : g.IsPath a (p ++ x :: q) b) :
    g.IsPath a (p ++ [x]) x ∧ g.IsPath x (x :: q) b := by
  obtain ⟨hhead, hlast, hlinked⟩ := h
  have hchain := List.isChain_split.mp hlinked
  refine ⟨⟨?_, by simp, hchain.1⟩, ⟨rfl, ?_, hchain.2⟩⟩
  · cases p with
    | nil => simpa using hhead
    | cons y p => simpa using hhead
  · rw [List.getLast?_append_of_ne_nil _ (by simp)] at hlast
    exact hlast

/-- The way to a block of a path, with that block only at its end. -/
theorem exists_first (h : g.IsPath a p b) (hx : x ∈ p) :
    ∃ q, g.IsPath a (q ++ [x]) x ∧ x ∉ q ∧ ∀ y ∈ q, y ∈ p := by
  obtain ⟨q, r, rfl, hq⟩ := List.eq_append_cons_of_mem hx
  exact ⟨q, h.split.1, hq, fun y hy => List.mem_append_left _ hy⟩

theorem reaches_of_mem (h : g.IsPath a p b) (hx : x ∈ p) : g.Reaches a x := by
  obtain ⟨q, hq, -⟩ := h.exists_first hx
  exact ⟨_, hq⟩

end IsPath

theorem Reaches.refl (b : Nat) : g.Reaches b b := ⟨[b], .single b⟩

theorem Reaches.step (h : g.Reaches a b) (hbc : c ∈ g.succ b) : g.Reaches a c := by
  obtain ⟨p, hp⟩ := h
  exact ⟨p ++ [c], hp.snoc hbc⟩

theorem Reaches.exists_pred (h : g.Reaches a b) (hne : b ≠ a) :
    ∃ c, g.Reaches a c ∧ b ∈ g.succ c := by
  obtain ⟨p, hp⟩ := h
  rcases hp.cases_snoc with ⟨rfl, -⟩ | ⟨c, q, hcb, hq, -⟩
  · exact absurd rfl hne
  · exact ⟨c, ⟨q, hq⟩, hcb⟩

namespace Dominates

theorem refl (h : g.Reaches e b) : g.Dominates e b b := ⟨h, fun _ hp => hp.last_mem⟩

theorem entry (h : g.Reaches e b) : g.Dominates e e b := ⟨h, fun _ hp => hp.first_mem⟩

theorem reaches_left (h : g.Dominates e a b) : g.Reaches e a := by
  obtain ⟨p, hp⟩ := h.reaches
  exact hp.reaches_of_mem (h.mem_path p hp)

theorem trans (hab : g.Dominates e a b) (hbc : g.Dominates e b c) : g.Dominates e a c := by
  refine ⟨hbc.reaches, fun p hp => ?_⟩
  obtain ⟨q, hq, -, hsub⟩ := hp.exists_first (hbc.mem_path p hp)
  rcases List.mem_append.mp (hab.mem_path _ hq) with ha | ha
  · exact hsub a ha
  · obtain rfl : a = b := by simpa using ha
    exact hbc.mem_path p hp

theorem antisymm (hab : g.Dominates e a b) (hba : g.Dominates e b a) : a = b := by
  by_contra hne
  obtain ⟨p, hp⟩ := hab.reaches
  -- Cut the path where it first meets `b`: what leads to `a` before that avoids `b`.
  obtain ⟨q, hq, hbq, -⟩ := hp.exists_first hp.last_mem
  have haq : a ∈ q := by simpa [hne] using hab.mem_path _ hq
  obtain ⟨q₁, q₂, rfl⟩ := List.append_of_mem haq
  have hbefore : g.IsPath e (q₁ ++ [a]) a := by
    rw [List.append_assoc] at hq
    exact hq.split.1
  have hb : b ∈ q₁ := by simpa [Ne.symm hne] using hba.mem_path _ hbefore
  exact hbq (List.mem_append_left _ hb)

theorem eq_entry (h : g.Dominates e a e) : a = e := by
  simpa using h.mem_path [e] (.single e)

/-- A strict dominator of a block dominates every block that leads to it. -/
theorem of_succ (h : g.Dominates e a b) (hne : a ≠ b) (hc : g.Reaches e c) (hcb : b ∈ g.succ c) :
    g.Dominates e a c := by
  refine ⟨hc, fun p hp => ?_⟩
  rcases List.mem_append.mp (h.mem_path _ (hp.snoc hcb)) with ha | ha
  · exact ha
  · exact absurd (by simpa using ha) hne

/-- What dominates every block that leads to `b` dominates `b`. -/
theorem of_preds (hb : g.Reaches e b) (hne : b ≠ e)
    (h : ∀ c, g.Reaches e c → b ∈ g.succ c → g.Dominates e a c) : g.Dominates e a b := by
  refine ⟨hb, fun p hp => ?_⟩
  rcases hp.cases_snoc with ⟨rfl, -⟩ | ⟨c, q, hcb, hq, rfl⟩
  · exact absurd rfl hne
  · exact List.mem_append_left _ ((h c ⟨q, hq⟩ hcb).mem_path q hq)

end Dominates

end LocalFlow.Graph
