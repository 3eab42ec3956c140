import LocalFlow.Proofs.Machine.Application
import LocalFlow.Proofs.Machine.Effect
import Mathlib.Logic.Function.Basic

/-! Evaluations that go along with each other. Two trees of the same shape are evaluated on machines
that differ in their locals only. How the locals are related may change from position to position;
if every step of the two trees keeps them related, the evaluations end in the same way. Stores of
the first tree may be missing in the second one. -/

namespace LocalFlow

variable {π α β : Type}

/-- How the locals of two machines are related at each position. -/
abbrev LocalsRel (π : Type) := π → Array UInt64 → Array UInt64 → Prop

def LocalsRel.Passes (S : LocalsRel π) (p q : π) : Prop := ∀ ⦃l l'⦄, S p l l' → S q l l'

namespace Machine

/-- The machines differ at most in their locals and in the record of applied nodes. -/
structure Alike (m m' : Machine) : Prop where
  memory : m'.memory = m.memory
  events : m'.events = m.events
  calls : m'.calls = m.calls
  fuel : m'.fuel = m.fuel

theorem Alike.alter {m m' : Machine} (h : m.Alike m') (change : Alteration) :
    (change.on m).Alike (change.on m') := by
  obtain ⟨hmemory, hevents, hcalls, hfuel⟩ := h
  cases change with
  | nothing => exact ⟨hmemory, hevents, hcalls, hfuel⟩
  | setLocal index x => exact ⟨hmemory, hevents, hcalls, hfuel⟩
  | globalSet index x =>
    exact ⟨by simp [Alteration.on, observe, write, hmemory],
      by simp [Alteration.on, observe, write, hevents], hcalls, hfuel⟩
  | store address x =>
    exact ⟨by simp [Alteration.on, observe, write, hmemory],
      by simp [Alteration.on, observe, write, hevents], hcalls, hfuel⟩
  | memoryGrow x => exact ⟨hmemory, by simp [Alteration.on, observe, hevents], hcalls, hfuel⟩
  | call target args =>
    exact ⟨hmemory, by simp [Alteration.on, observe, hevents],
      by simp [Alteration.on, observe, hcalls], hfuel⟩

structure Related (S : LocalsRel π) (p : π) (m m' : Machine) : Prop extends m.Alike m' where
  locals : S p m.locals m'.locals

variable {S : LocalsRel π} {p q : π} {m m' : Machine}

theorem Related.pass (h : m.Related S p m') (hpass : S.Passes p q) : m.Related S q m' :=
  ⟨h.toAlike, hpass h.locals⟩

theorem Related.withApplied (h : m.Related S p m') (a a' : List Ref) :
    { m with applied := a }.Related S p { m' with applied := a' } :=
  ⟨⟨h.memory, h.events, h.calls, h.fuel⟩, h.locals⟩

end Machine

namespace Completion

variable {S : LocalsRel π} {labels : String → Option π} {p q mid : π} {safe : Prop}
  {c c' : Completion α}

/-- The evaluation neither fails nor, unless that is safe, traps. -/
def Fine (safe : Prop) : Completion α → Prop
  | .signal .trap _ => safe
  | .fault _ => False
  | _ => True

/-- The second evaluation ends as the first one does, with a value at position `q` or with a branch
to a position of the labels. -/
def Matches (S : LocalsRel π) (labels : String → Option π) (q : π) :
    Completion α → Completion α → Prop
  | .value x m, c' => ∃ m', c' = .value x m' ∧ m.Related S q m'
  | .signal (.branch label x) m, c' =>
    ∃ m' p, c' = .signal (.branch label x) m' ∧ labels label = some p ∧ m.Related S p m'
  | .signal s m, c' => ∃ m', c' = .signal s m' ∧ m'.events = m.events
  | .fault _, _ => True

theorem Fine.of_bind {next : α → Machine → Completion β} (h : (c.bind next).Fine safe) :
    c.Fine safe := by
  cases c with
  | value x m => trivial
  | signal s m =>
    cases s with
    | trap => exact h
    | _ => trivial
  | fault f => exact h

theorem Matches.bind {next next' : α → Machine → Completion β}
    (h : c.Fine safe → c.Matches S labels mid c') (hfine : (c.bind next).Fine safe)
    (hnext : ∀ x m m', c = .value x m → c' = .value x m' → m.Related S mid m' →
      (next x m).Fine safe → (next x m).Matches S labels q (next' x m')) :
    (c.bind next).Matches S labels q (c'.bind next') := by
  have h := h hfine.of_bind
  cases c with
  | value x m =>
    obtain ⟨m', rfl, hm⟩ := h
    exact hnext x m m' rfl rfl hm hfine
  | signal s m =>
    cases s with
    | branch label x =>
      obtain ⟨m', p, rfl, hm⟩ := h
      exact ⟨m', p, rfl, hm⟩
    | _ =>
      obtain ⟨m', rfl, hm⟩ := h
      exact ⟨m', rfl, hm⟩
  | fault f => trivial

theorem Matches.pass (h : c.Matches S labels p c') (hpass : S.Passes p q) :
    c.Matches S labels q c' := by
  cases c with
  | value x m =>
    obtain ⟨m', rfl, hm⟩ := h
    exact ⟨m', rfl, hm.pass hpass⟩
  | signal s m =>
    cases s with
    | branch label x => exact h
    | _ => exact h
  | fault f => trivial

theorem Matches.exists_signal {s : Signal} {m : Machine}
    (h : (Completion.signal s m : Completion α).Matches S labels q c') :
    ∃ m', c' = .signal s m' := by
  cases s with
  | branch label x =>
    obtain ⟨m', p, hc', -⟩ := h
    exact ⟨m', hc'⟩
  | _ =>
    obtain ⟨m', hc', -⟩ := h
    exact ⟨m', hc'⟩

end Completion

namespace Node

variable {S : LocalsRel π} {labels : String → Option π} {q mid : π} {safe : Prop} {n : Node}
  {args : List UInt64} {m m' m₁ : Machine} {x : UInt64}

theorem MayChange.locals_eq {change : Alteration} (h : n.MayChange change)
    (hkind : n.kind.isLocalAccess = false) (m : Machine) : (change.on m).locals = m.locals := by
  cases change with
  | setLocal index x =>
    rcases Kind.isLocalWrite_iff.mp h.1 with hwrite | hwrite
    · rw [hwrite] at hkind
      cases hkind
    · rw [hwrite] at hkind
      cases hkind
  | _ => rfl

/-- What a node does on two machines side by side without looking at their locals. -/
inductive Parallel (n : Node) (m m' : Machine) : Completion UInt64 → Completion UInt64 → Prop
  | value (x : UInt64) {m₁ m₁' : Machine} : m₁.Alike m₁' → m₁.locals = m.locals →
      m₁'.locals = m'.locals → Parallel n m m' (.value x m₁) (.value x m₁')
  | branch (label : String) (x : UInt64) : n.MayBranch label →
      Parallel n m m' (.signal (.branch label x) m) (.signal (.branch label x) m')
  | ret (x : UInt64) : Parallel n m m' (.signal (.ret x) m) (.signal (.ret x) m')
  | trap : Parallel n m m' (.signal .trap m) (.signal .trap m')
  | fault (f : Fault) : Parallel n m m' (.fault f) (.fault f)

/-- Nodes other than accesses of locals do the same on machines that differ in their locals. -/
theorem apply_parallel (hkind : n.kind.isLocalAccess = false) (h : m.Alike m') (args : List UInt64) :
    n.Parallel m m' (n.apply args m) (n.apply args m') := by
  have hlocal : n.kind.isLocalAccess = true → m'.locals[n.index]? = m.locals[n.index]? := by
    rw [hkind]
    intro haccess
    cases haccess
  obtain ⟨response, hpermits, heq, heq'⟩ := n.apply_responds args h.memory h.calls hlocal
  rw [heq, heq']
  cases hpermits with
  | value x _ hchange =>
    exact .value x (h.alter _) (hchange.locals_eq hkind m) (hchange.locals_eq hkind m')
  | branch label x hlabel => exact .branch label x hlabel
  | ret x => exact .ret x
  | trap => exact .trap
  | fault => exact .fault _

/-- Nodes other than accesses of locals keep the locals related. -/
theorem apply_matches (hkind : n.kind.isLocalAccess = false) (h : m.Related S mid m')
    (hvalue : n.MayGoOn → S.Passes mid q)
    (hbranch : ∀ label, n.MayBranch label → ∃ p, labels label = some p ∧ S.Passes mid p) :
    (n.apply args m).Matches S labels q (n.apply args m') := by
  have hparallel := apply_parallel hkind h.toAlike args
  have hgo := @mayGoOn_of_value n args m
  generalize n.apply args m' = c' at hparallel
  generalize n.apply args m = c at hparallel hgo
  cases hparallel with
  | value x halike hlocals hlocals' =>
    exact ⟨_, rfl, halike, hvalue (hgo rfl) (hlocals ▸ hlocals' ▸ h.locals)⟩
  | branch label x hlabel =>
    obtain ⟨p, hp, hpass⟩ := hbranch label hlabel
    exact ⟨m', p, rfl, hp, h.pass hpass⟩
  | ret x => exact ⟨m', rfl, h.events⟩
  | trap => exact ⟨m', rfl, h.events⟩
  | fault f => trivial

/-- A store that is there writes its local; a tee passes the value on. -/
theorem apply_store (h : n.kind.isLocalWrite = true) (hlt : n.index < m.locals.size) (x : UInt64)
    (args : List UInt64) : n.apply (x :: args) m =
      .value (if n.kind = .localTee then x else 0) (m.setLocal n.index x) := by
  unfold apply
  rcases Kind.isLocalWrite_iff.mp h with hkind | hkind
  · simp [hkind, hlt]
  · simp [hkind, hlt]

theorem exists_of_store_fine (h : n.kind.isLocalWrite = true) (hfine : (n.apply args m).Fine safe) :
    n.index < m.locals.size ∧ ∃ x rest, args = x :: rest := by
  unfold apply at hfine
  cases args with
  | nil =>
    rcases Kind.isLocalWrite_iff.mp h with hkind | hkind
    · simp [hkind, Completion.Fine] at hfine
    · simp [hkind, Completion.Fine] at hfine
  | cons x rest =>
    refine ⟨?_, x, rest, rfl⟩
    by_contra hlt
    rcases Kind.isLocalWrite_iff.mp h with hkind | hkind
    · simp [hkind, hlt, Completion.Fine] at hfine
    · simp [hkind, hlt, Completion.Fine] at hfine

theorem apply_nop (h : n.kind = .nop) : n.apply args m = .value 0 m := by
  unfold apply
  rw [h]

theorem apply_drop (h : n.kind = .drop) : n.apply args m = .value 0 m := by
  unfold apply
  rw [h]

theorem apply_get (h : n.kind = .localGet) :
    n.apply args m = (m.locals[n.index]?).elim (.fault .outOfRange) (.value · m) := by
  unfold apply
  rw [h]
  cases m.locals[n.index]? <;> rfl

end Node

def Tree.relabel (r : Ref) : Tree → Tree
  | .node _ n kids => .node r n kids
  | t => t

theorem Tree.exists_relabel_eq (t : Tree) : ∃ r, t.relabel r = t := by
  cases t with
  | node r n kids => exact ⟨r, rfl⟩
  | _ => exact ⟨0, rfl⟩

/-- What remains of a set or tee when the store is removed: the value of a tee, and of a set a drop
of the value, or nothing if the value has no side effects. -/
inductive Kind.Remains (safe : Prop) (kind : Kind) (value : Tree) : Tree → Prop
  | value (r : Ref) : kind = .localTee → Remains safe kind value (value.relabel r)
  | drop {r : Ref} {n : Node} : kind = .localSet → n.kind = .drop →
      Remains safe kind value (.node r n [fun _ => value])
  | nop {r : Ref} {n : Node} {e : Effect} : kind = .localSet → value.effects = .ok e →
      e.hasSideEffects = false → (safe → ¬value.Divides) → n.kind = .nop →
      Remains safe kind value (.node r n [])

theorem Kind.Remains.relabel {safe : Prop} {kind : Kind} {value t : Tree}
    (h : kind.Remains safe value t) (r : Ref) : kind.Remains safe value (t.relabel r) := by
  cases h with
  | value r' hkind =>
    have heq : (value.relabel r').relabel r = value.relabel r := by cases value <;> rfl
    exact heq ▸ .value r hkind
  | drop hkind hkind' => exact .drop hkind hkind'
  | nop hkind he hpure hsafe hkind' => exact .nop hkind he hpure hsafe hkind'

theorem Kind.Remains.of_safe {safe : Prop} {kind : Kind} {value t : Tree}
    (h : kind.Remains False value t) (hsafe : safe → ¬value.Divides) : kind.Remains safe value t := by
  cases h with
  | value r hkind => exact .value r hkind
  | drop hkind hkind' => exact .drop hkind hkind'
  | nop hkind he hpure _ hkind' => exact .nop hkind he hpure hsafe hkind'

/-- The position where a branch to a label ends, inside a block with the given label. A block without
a label takes no branches. -/
def inBlock (labels : String → Option π) (label : String) (exit : Option π) : String → Option π :=
  if label = "" then labels else Function.update labels label exit

section Follows

variable (S : LocalsRel π) (safe : Prop)

/-- Once the operands of `n` and `n'` have values, the two nodes keep the locals related. -/
def Node.Keeps (labels : String → Option π) (n n' : Node) (kids kids' : List (Unit → Tree))
    (mid q : π) : Prop :=
  ∀ {m₀ m₀' m m' : Machine} {args : List UInt64}, Tree.evalAll kids m₀ = .value args m →
    Tree.evalAll kids' m₀' = .value args m' → m.Related S mid m' →
    ∀ r r', (n.apply args (m.noteApplied r)).Fine safe →
      (n.apply args (m.noteApplied r)).Matches S labels q (n'.apply args (m'.noteApplied r'))

/-- The store `n` may be left out: the locals are related already once its value is there. -/
def Node.Skips (n : Node) (kid value : Tree) (mid q : π) : Prop :=
  ∀ {m₀ m₀' m m' m₁ : Machine} {x y : UInt64} {r r' : Ref}, kid.eval m₀ = .value x m →
    (value.relabel r').eval m₀' = .value x m' → m.Related S mid m' →
    n.apply [x] (m.noteApplied r) = .value y m₁ → S q m₁.locals m'.locals

namespace Tree

mutual

/-- Evaluating the second tree goes along with evaluating the first one from `p` to `q`. -/
inductive Follows : (String → Option π) → Tree → Tree → π → π → Prop
  | absent {labels : String → Option π} {p : π} : Follows labels .absent .absent p p
  | block {labels : String → Option π} {r r' : Ref} {n : Node} {kids kids' : List (Unit → Tree)}
      {p mid q : π} {exit : Option π} :
      n.kind = .block → FollowsAll (inBlock labels n.label exit) kids kids' p mid →
      S.Passes mid q → (∀ x, exit = some x → S.Passes x q) →
      Follows labels (.node r n kids) (.node r' n kids') p q
  | loop {labels : String → Option π} {r r' : Ref} {n : Node} {kids kids' : List (Unit → Tree)}
      {p head mid q : π} :
      n.kind = .loop → S.Passes p head →
      Follows (Function.update labels n.label (some head)) (slot kids 0) (slot kids' 0) head mid →
      S.Passes mid q → Follows labels (.node r n kids) (.node r' n kids') p q
  | ifElse {labels : String → Option π} {r r' : Ref} {n : Node} {kids kids' : List (Unit → Tree)}
      {p c ifTrue ifFalse mid mid' q : π} :
      n.kind = .ifElse → Follows labels (slot kids 0) (slot kids' 0) p c → S.Passes c ifTrue →
      Follows labels (slot kids 1) (slot kids' 1) ifTrue mid → S.Passes mid q →
      S.Passes c ifFalse → Follows labels (slot kids 2) (slot kids' 2) ifFalse mid' →
      S.Passes mid' q → Follows labels (.node r n kids) (.node r' n kids') p q
  | plain {labels : String → Option π} {r r' : Ref} {n n' : Node}
      {kids kids' : List (Unit → Tree)} {p mid q : π} :
      n.kind.isStructured = false → n'.kind.isStructured = false →
      FollowsAll labels kids kids' p mid → n.Keeps S safe labels n' kids kids' mid q →
      Follows labels (.node r n kids) (.node r' n' kids') p q
  | removed {labels : String → Option π} {r : Ref} {n : Node} {kid : Unit → Tree} {value t : Tree}
      {p mid q : π} :
      Follows labels (kid ()) value p mid → n.Skips S (kid ()) value mid q →
      n.kind.Remains safe value t → Follows labels (.node r n [kid]) t p q

inductive FollowsAll :
    (String → Option π) → List (Unit → Tree) → List (Unit → Tree) → π → π → Prop
  | nil {labels : String → Option π} {p : π} : FollowsAll labels [] [] p p
  | cons {labels : String → Option π} {t t' : Unit → Tree} {ts ts' : List (Unit → Tree)}
      {p mid q : π} :
      Follows labels (t ()) (t' ()) p mid → FollowsAll labels ts ts' mid q →
      FollowsAll labels (t :: ts) (t' :: ts') p q

end

end Tree

end Follows

namespace Completion

variable {S : LocalsRel π} {labels : String → Option π} {mid q : π} {safe : Prop}
  {c c' : Completion UInt64} {label : String}

theorem Fine.of_atBlock (h : (c.atBlock label).Fine safe) : c.Fine safe := by
  cases c with
  | value x m => trivial
  | signal s m =>
    cases s with
    | trap => exact h
    | _ => trivial
  | fault f => exact h

theorem Matches.atBlock {exit : Option π} (h : c.Matches S (inBlock labels label exit) mid c')
    (hpass : S.Passes mid q) (hexit : ∀ x, exit = some x → S.Passes x q) :
    (c.atBlock label).Matches S labels q (c'.atBlock label) := by
  cases c with
  | value x m =>
    obtain ⟨m', rfl, hm⟩ := h
    exact ⟨m', rfl, hm.pass hpass⟩
  | signal s m =>
    cases s with
    | branch target x =>
      obtain ⟨m', p, rfl, hp, hm⟩ := h
      simp only [Completion.atBlock]
      by_cases hcatch : label ≠ "" ∧ target = label
      · obtain ⟨hlabel, rfl⟩ := hcatch
        simp only [inBlock, if_neg hlabel, Function.update_self] at hp
        simp only [hlabel, ne_eq, not_false_eq_true, decide_true, Bool.and_self, if_true]
        exact ⟨m', rfl, hm.pass (hexit p hp)⟩
      · have hnot : (decide (label ≠ "") && decide (target = label)) = false := by
          simpa using hcatch
        have hp' : labels target = some p := by
          unfold inBlock at hp
          split at hp
          · exact hp
          · rename_i hlabel
            rwa [Function.update_of_ne fun heq => hcatch ⟨hlabel, heq⟩] at hp
        simp only [hnot, Bool.false_eq_true, if_false]
        exact ⟨m', p, rfl, hp', hm⟩
    | _ =>
      obtain ⟨m', rfl, hm⟩ := h
      exact ⟨m', rfl, hm⟩
  | fault f => trivial

end Completion

/-- Loops go along with each other if their bodies do. -/
theorem Machine.repeatLoop_matches {S : LocalsRel π} {labels : String → Option π} {head mid : π}
    {safe : Prop} {label : String} {body body' : Machine → Completion UInt64} {count : Nat}
    {m m' : Machine}
    (hbody : ∀ {m m' : Machine}, m.Related S head m' → (body m).Fine safe →
      (body m).Matches S (Function.update labels label (some head)) mid (body' m'))
    (hm : m.Related S head m') (hfine : (repeatLoop label body count m).Fine safe) :
    (repeatLoop label body count m).Matches S labels mid (repeatLoop label body' count m') := by
  induction count generalizing m m' with
  | zero => exact ⟨m', rfl, hm.events⟩
  | succ count ih =>
    have h := hbody hm
    rw [repeatLoop] at hfine ⊢
    rw [repeatLoop]
    cases hc : body m with
    | value x m₁ =>
      rw [hc] at h
      obtain ⟨m₁', hc', hm₁⟩ := h trivial
      rw [hc']
      exact ⟨m₁', rfl, hm₁⟩
    | signal s m₁ =>
      rw [hc] at h hfine
      cases s with
      | branch target x =>
        obtain ⟨m₁', p, hc', hp, hm₁⟩ := h trivial
        simp only [hc']
        simp only at hfine
        by_cases htarget : target = label
        · subst htarget
          rw [Function.update_self] at hp
          obtain rfl := Option.some.inj hp
          rw [if_pos rfl] at hfine ⊢
          rw [if_pos rfl, hm₁.fuel]
          cases hfuel : m₁.fuel with
          | zero => exact ⟨m₁', rfl, hm₁.events⟩
          | succ fuel =>
            rw [hfuel] at hfine
            exact ih ⟨⟨hm₁.memory, hm₁.events, hm₁.calls, rfl⟩, hm₁.locals⟩ hfine
        · rw [if_neg htarget, if_neg htarget]
          rw [Function.update_of_ne htarget] at hp
          exact ⟨m₁', p, rfl, hp, hm₁⟩
      | _ =>
        obtain ⟨m₁', hc', hm₁⟩ := h hfine
        rw [hc']
        exact ⟨m₁', rfl, hm₁⟩
    | fault f => trivial

namespace Tree

variable {S : LocalsRel π} {safe : Prop} {labels : String → Option π} {p q : π} {t t' : Tree}
  {kids kids' : List (Unit → Tree)} {r : Ref} {n : Node} {m m' : Machine}

theorem eval_block (h : n.kind = .block) :
    (node r n kids).eval m = (evalItems kids 0 m).atBlock n.label := by
  rw [eval, h]

theorem eval_loop (h : n.kind = .loop) : (node r n kids).eval m =
    Machine.repeatLoop n.label (fun m => (slot kids 0).eval m) (m.fuel + 1) m := by
  rw [eval, h]
  simp only [evalSlot_eq]

theorem eval_ifElse (h : n.kind = .ifElse) : (node r n kids).eval m =
    ((slot kids 0).eval m).bind fun cond m =>
      if lowHalf cond = 0 then (slot kids 2).eval m else (slot kids 1).eval m := by
  rw [eval, h]
  simp only [evalSlot_eq]

theorem eval_plain (h : n.kind.isStructured = false) : (node r n kids).eval m =
    (evalAll kids m).bind fun args m => n.apply args (m.noteApplied r) := by
  rw [eval]
  split
  · rw [‹n.kind = _›] at h
    cases h
  · rw [‹n.kind = _›] at h
    cases h
  · rw [‹n.kind = _›] at h
    cases h
  · rfl

theorem evalAll_singleton (kid : Unit → Tree) (m : Machine) :
    evalAll [kid] m = ((kid ()).eval m).bind fun x m => .value [x] m := by
  rw [evalAll]
  rfl

theorem Follows.relabel (h : Follows S safe labels t t' p q) (r : Ref) :
    Follows S safe labels t (t'.relabel r) p q := by
  cases h with
  | absent => exact .absent
  | block hkind hall hpass hexit => exact .block hkind hall hpass hexit
  | loop hkind hhead hbody hpass => exact .loop hkind hhead hbody hpass
  | ifElse hkind hc hct ht htq hcf hf hfq => exact .ifElse hkind hc hct ht htq hcf hf hfq
  | plain hkind hkind' hall hkeeps => exact .plain hkind hkind' hall hkeeps
  | removed hvalue hskips hremains => exact .removed hvalue hskips (hremains.relabel r)

/-- Whatever goes along with the tree ends as the tree does. -/
def Simulated (S : LocalsRel π) (safe : Prop) (t : Tree) : Prop :=
  ∀ {labels : String → Option π} {t' : Tree} {p q : π} {m m' : Machine},
    Follows S safe labels t t' p q → m.Related S p m' → (t.eval m).Fine safe →
      (t.eval m).Matches S labels q (t'.eval m')

theorem evalAll_matches (ih : ∀ k ∈ kids, (k ()).Simulated S safe)
    (h : FollowsAll S safe labels kids kids' p q) (hm : m.Related S p m')
    (hfine : (evalAll kids m).Fine safe) :
    (evalAll kids m).Matches S labels q (evalAll kids' m') := by
  induction kids generalizing kids' p m m' with
  | nil =>
    cases h
    exact ⟨m', rfl, hm⟩
  | cons k kids ihk =>
    cases h with
    | cons hk hkids =>
      rw [evalAll] at hfine ⊢
      rw [evalAll]
      refine .bind (fun hf => ih k (by simp) hk hm hf) hfine fun x m₁ m₁' _ _ hm₁ hfine => ?_
      refine .bind (fun hf => ihk (fun k hk => ih k (.tail _ hk)) hkids hm₁ hf) hfine ?_
      exact fun xs m₂ m₂' _ _ hm₂ _ => ⟨m₂', rfl, hm₂⟩

theorem evalItems_matches (ih : ∀ k ∈ kids, (k ()).Simulated S safe)
    (h : FollowsAll S safe labels kids kids' p q) (hm : m.Related S p m') (last : UInt64)
    (hfine : (evalItems kids last m).Fine safe) :
    (evalItems kids last m).Matches S labels q (evalItems kids' last m') := by
  induction kids generalizing kids' p m m' last with
  | nil =>
    cases h
    exact ⟨m', rfl, hm⟩
  | cons k kids ihk =>
    cases h with
    | cons hk hkids =>
      rw [evalItems] at hfine ⊢
      rw [evalItems]
      refine .bind (fun hf => ih k (by simp) hk hm hf) hfine fun x m₁ m₁' _ _ hm₁ hfine => ?_
      exact ihk (fun k hk => ih k (.tail _ hk)) hkids hm₁ x hfine

theorem simulated_slot (ih : ∀ k ∈ kids, (k ()).Simulated S safe) (i : Nat) :
    (slot kids i).Simulated S safe := by
  apply slot_of_kids ih
  intro labels t' p q m m' h hm _
  cases h
  exact ⟨m', rfl, hm⟩

theorem eval_store (kid : Unit → Tree) (h : n.kind.isLocalWrite = true) :
    (node r n [kid]).eval m =
      ((kid ()).eval m).bind fun x m => n.apply [x] (m.noteApplied r) := by
  have hplain := Kind.isStructured_of_isLocalAccess (Kind.isLocalAccess_of_isLocalWrite h)
  rw [eval_plain hplain, evalAll_singleton]
  cases (kid ()).eval m <;> rfl

theorem eval_drop (kid : Unit → Tree) (h : n.kind = .drop) :
    (node r n [kid]).eval m = ((kid ()).eval m).bind fun _ m => .value 0 (m.noteApplied r) := by
  rw [eval_plain (by rw [h]; rfl), evalAll_singleton]
  simp only [Node.apply_drop h]
  cases (kid ()).eval m <;> rfl

theorem eval_nop (h : n.kind = .nop) : (node r n []).eval m = .value 0 (m.noteApplied r) := by
  rw [eval_plain (by rw [h]; rfl), evalAll, Completion.bind, Node.apply_nop h]

section Removed

variable {kid : Unit → Tree} {value : Tree} {mid : π}

/-- Once its value is there, a store that may be left out leaves the locals related. -/
theorem exists_of_skips {r' : Ref} {x : UInt64} {m₁ m₁' : Machine}
    (hskips : n.Skips S (kid ()) value mid q) (hwrite : n.kind.isLocalWrite = true)
    (hx : (kid ()).eval m = .value x m₁) (hx' : (value.relabel r').eval m' = .value x m₁')
    (hm₁ : m₁.Related S mid m₁') (hfine : (n.apply [x] (m₁.noteApplied r)).Fine safe) :
    ∃ m₂, n.apply [x] (m₁.noteApplied r) = .value (if n.kind = .localTee then x else 0) m₂ ∧
      m₂.Related S q m₁' := by
  have happly := Node.apply_store hwrite (Node.exists_of_store_fine hwrite hfine).1 x []
  exact ⟨_, happly, ⟨hm₁.memory, hm₁.events, hm₁.calls, hm₁.fuel⟩, hskips hx hx' hm₁ happly⟩

theorem removed_matches_value (ih : (kid ()).Simulated S safe) (hkind : n.kind = .localTee)
    (hvalue : Follows S safe labels (kid ()) value p mid) (hskips : n.Skips S (kid ()) value mid q)
    (hm : m.Related S p m') (hfine : ((node r n [kid]).eval m).Fine safe) (r' : Ref) :
    ((node r n [kid]).eval m).Matches S labels q ((value.relabel r').eval m') := by
  have hwrite : n.kind.isLocalWrite = true := Kind.isLocalWrite_iff.mpr (.inr hkind)
  have hid : (value.relabel r').eval m' =
      ((value.relabel r').eval m').bind fun x m => .value x m := by
    cases (value.relabel r').eval m' <;> rfl
  rw [eval_store kid hwrite] at hfine ⊢
  rw [hid]
  refine .bind (fun hf => ih (hvalue.relabel r') hm hf) hfine fun x m₁ m₁' hx hx' hm₁ hfine => ?_
  obtain ⟨m₂, happly, hm₂⟩ := exists_of_skips hskips hwrite hx hx' hm₁ hfine
  rw [happly, if_pos hkind]
  exact ⟨m₁', rfl, hm₂⟩

theorem removed_matches_drop {r' : Ref} {n' : Node} (ih : (kid ()).Simulated S safe)
    (hkind : n.kind = .localSet) (hkind' : n'.kind = .drop)
    (hvalue : Follows S safe labels (kid ()) value p mid) (hskips : n.Skips S (kid ()) value mid q)
    (hm : m.Related S p m') (hfine : ((node r n [kid]).eval m).Fine safe) :
    ((node r n [kid]).eval m).Matches S labels q ((node r' n' [fun _ => value]).eval m') := by
  have hwrite : n.kind.isLocalWrite = true := Kind.isLocalWrite_iff.mpr (.inl hkind)
  obtain ⟨r₀, hr₀⟩ := value.exists_relabel_eq
  rw [eval_store kid hwrite] at hfine ⊢
  rw [eval_drop _ hkind']
  refine .bind (fun hf => ih hvalue hm hf) hfine fun x m₁ m₁' hx hx' hm₁ hfine => ?_
  obtain ⟨m₂, happly, hm₂⟩ := exists_of_skips hskips hwrite hx (hr₀ ▸ hx') hm₁ hfine
  rw [happly, if_neg (by simp [hkind])]
  exact ⟨_, rfl, hm₂.withApplied m₂.applied _⟩

/-- The value of a store that is left out altogether signals nothing: without side effects it could
only trap, and only if it divides. -/
theorem removed_matches_nop {r' : Ref} {n' : Node} {e : Effect} (ih : (kid ()).Simulated S safe)
    (hkind : n.kind = .localSet) (he : value.effects = .ok e) (hpure : e.hasSideEffects = false)
    (hsafe : safe → ¬value.Divides) (hkind' : n'.kind = .nop)
    (hvalue : Follows S safe labels (kid ()) value p mid) (hskips : n.Skips S (kid ()) value mid q)
    (hm : m.Related S p m') (hfine : ((node r n [kid]).eval m).Fine safe) :
    ((node r n [kid]).eval m).Matches S labels q ((node r' n' []).eval m') := by
  have hwrite : n.kind.isLocalWrite = true := Kind.isLocalWrite_iff.mpr (.inl hkind)
  obtain ⟨r₀, hr₀⟩ := value.exists_relabel_eq
  have hidle := eval_idle he hpure m'
  rw [eval_store kid hwrite] at hfine ⊢
  rw [eval_nop hkind']
  have hmatches := ih hvalue hm hfine.of_bind
  cases hx : (kid ()).eval m with
  | value x m₁ =>
    rw [hx] at hmatches hfine
    obtain ⟨m₁', hx', hm₁⟩ := hmatches
    obtain ⟨m₂, happly, hm₂⟩ := exists_of_skips hskips hwrite hx (hr₀ ▸ hx') hm₁ hfine
    rw [hx'] at hidle
    obtain ⟨applied, rfl⟩ := hidle
    rw [Completion.bind, happly, if_neg (by simp [hkind])]
    exact ⟨_, rfl, hm₂.withApplied m₂.applied _⟩
  | signal s m₁ =>
    rw [hx] at hmatches hfine
    obtain ⟨m₁', hx'⟩ := hmatches.exists_signal
    rw [hx'] at hidle
    obtain ⟨rfl, hdivides, -⟩ := hidle
    exact absurd hdivides (hsafe hfine)
  | fault f => trivial

/-- A removed store goes along with what remains of it. -/
theorem removed_matches (ih : (kid ()).Simulated S safe)
    (hvalue : Follows S safe labels (kid ()) value p mid) (hskips : n.Skips S (kid ()) value mid q)
    (hremains : n.kind.Remains safe value t') (hm : m.Related S p m')
    (hfine : ((node r n [kid]).eval m).Fine safe) :
    ((node r n [kid]).eval m).Matches S labels q (t'.eval m') := by
  cases hremains with
  | value r' hkind => exact removed_matches_value ih hkind hvalue hskips hm hfine r'
  | drop hkind hkind' => exact removed_matches_drop ih hkind hkind' hvalue hskips hm hfine
  | nop hkind he hpure hsafe hkind' =>
    exact removed_matches_nop ih hkind he hpure hsafe hkind' hvalue hskips hm hfine

end Removed

/-- Trees that go along with each other end in the same way. -/
theorem simulated (S : LocalsRel π) (safe : Prop) (t : Tree) : t.Simulated S safe := by
  induction t with
  | absent =>
    intro labels t' p q m m' h hm _
    cases h
    exact ⟨m', rfl, hm⟩
  | dangling => exact fun h => by cases h
  | endless => exact fun h => by cases h
  | node r n kids ih =>
    intro labels t' p q m m' h hm hfine
    cases h with
    | block hkind hall hpass hexit =>
      rw [eval_block hkind] at hfine ⊢
      rw [eval_block hkind]
      exact (evalItems_matches ih hall hm 0 hfine.of_atBlock).atBlock hpass hexit
    | loop hkind hhead hbody hpass =>
      rw [eval_loop hkind] at hfine ⊢
      rw [eval_loop hkind, hm.fuel]
      refine (Machine.repeatLoop_matches ?_ (hm.pass hhead) hfine).pass hpass
      exact fun hm hfine => simulated_slot ih 0 hbody hm hfine
    | ifElse hkind hc hct ht htq hcf hf hfq =>
      rw [eval_ifElse hkind] at hfine ⊢
      rw [eval_ifElse hkind]
      refine .bind (fun hfine => simulated_slot ih 0 hc hm hfine) hfine ?_
      intro x m₁ m₁' _ _ hm₁ hfine
      by_cases hx : lowHalf x = 0
      · rw [if_pos hx] at hfine ⊢
        rw [if_pos hx]
        exact (simulated_slot ih 2 hf (hm₁.pass hcf) hfine).pass hfq
      · rw [if_neg hx] at hfine ⊢
        rw [if_neg hx]
        exact (simulated_slot ih 1 ht (hm₁.pass hct) hfine).pass htq
    | plain hkind hkind' hall hkeeps =>
      rw [eval_plain hkind] at hfine ⊢
      rw [eval_plain hkind']
      refine .bind (fun hfine => evalAll_matches ih hall hm hfine) hfine ?_
      exact fun args m₁ m₁' hargs hargs' hm₁ hfine => hkeeps hargs hargs' hm₁ _ _ hfine
    | removed hvalue hskips hremains =>
      exact removed_matches (ih _ (by simp)) hvalue hskips hremains hm hfine

end Tree

end LocalFlow
