import LocalFlow.Graph.Lowering
import LocalFlow.Proofs.Graph.Building
import LocalFlow.Proofs.Graph.Lowering
import LocalFlow.Proofs.Outcome

/-! Graphs of one tree under different recorders. A recorder decides what is kept of the nodes and
nothing else: keeping it while the graph is built is the same as keeping it afterwards. -/

namespace LocalFlow

variable {α : Type}

def Block.keep (recorder : Ref → Option α) (b : Block Ref) : Block α where
  id := b.id
  pred := b.pred
  succ := b.succ
  items := b.items.filterMap recorder

namespace Graph

def keep (recorder : Ref → Option α) (g : Graph Ref) : Graph α where
  entry := g.entry
  blocks := g.blocks.map (Block.keep recorder)
  targets := g.targets

variable {recorder : Ref → Option α} {g : Graph Ref} {a b x : Nat}

@[simp]
theorem size_keep : (g.keep recorder).size = g.size := by
  simp [keep, size]

@[simp]
theorem succ_keep : (g.keep recorder).succ x = g.succ x := by
  simp only [keep, succ, Array.getElem?_map]
  cases g.blocks[x]? <;> rfl

@[simp]
theorem pred_keep : (g.keep recorder).pred x = g.pred x := by
  simp only [keep, pred, Array.getElem?_map]
  cases g.blocks[x]? <;> rfl

@[simp]
theorem items_keep : (g.keep recorder).items x = (g.items x).filterMap recorder := by
  simp only [keep, items, Array.getElem?_map]
  cases g.blocks[x]? <;> rfl

theorem map_modify_keep {blocks : Array (Block Ref)} {p : Block α → Block α} (f : Block Ref → Block Ref)
    (h : ∀ block, (f block).keep recorder = p (block.keep recorder)) :
    (blocks.map (Block.keep recorder)).modify x p =
      (blocks.modify x f).map (Block.keep recorder) := by
  apply Array.ext_getElem?
  intro i
  simp only [Array.getElem?_modify, Array.getElem?_map]
  by_cases hi : x = i
  · simp only [if_pos hi, Option.map_map]
    congr 1
    funext block
    exact (h block).symm
  · simp only [if_neg hi]

theorem addBlock_keep : ((g.keep recorder).addBlock []).1 = (g.addBlock []).1.keep recorder := by
  simp [addBlock, keep, Block.keep, size]

theorem link_keep : (g.keep recorder).link a b = (g.link a b).keep recorder := by
  unfold link
  rw [succ_keep]
  split
  · rfl
  · simp only [keep]
    rw [map_modify_keep (fun block => { block with succ := block.succ ++ [b] }) fun _ => rfl,
      map_modify_keep (fun block => { block with pred := block.pred ++ [a] }) fun _ => rfl]

theorem addEdge_keep (i j : Int) :
    (g.keep recorder).addEdge i j = (g.addEdge i j).map (keep recorder) := by
  unfold addEdge
  rw [size_keep]
  split
  · split
    · rw [link_keep]
      rfl
    · rfl
  · rfl

theorem record_keep_of_some {r : Ref} {item : α} (h : recorder r = some item) :
    (g.keep recorder).record b item = (g.record b r).keep recorder := by
  simp only [record, keep]
  rw [map_modify_keep fun block => { block with items := block.items ++ [r] }]
  intro block
  simp [Block.keep, List.filterMap_append, h]

theorem keep_record_of_none {r : Ref} (h : recorder r = none) :
    (g.record b r).keep recorder = g.keep recorder := by
  simp only [record, keep]
  congr 1
  apply Array.ext_getElem?
  intro i
  simp only [Array.getElem?_map, Array.getElem?_modify]
  split
  · rw [Option.map_map]
    congr 1
    funext block
    simp [Block.keep, List.filterMap_append, h]
  · rfl

end Graph

namespace Lowering

def keep (recorder : Ref → Option α) (s : Lowering Ref) : Lowering α where
  graph := s.graph.keep recorder
  scopes := s.scopes
  current := s.current

variable {recorder : Ref → Option α} {s : Lowering Ref} {b : Nat} {r : Ref}

theorem fresh_keep : (s.keep recorder).fresh = (s.fresh.1.keep recorder, s.fresh.2) := by
  simp only [fresh, keep, Graph.addBlock_keep]
  simp

theorem moveTo_keep : (s.keep recorder).moveTo b = (s.moveTo b).keep recorder := rfl

theorem linkTo_keep : (s.keep recorder).linkTo b = (s.linkTo b).map (keep recorder) :=
  bind_eq_map (Graph.addEdge_keep _ _) fun _ _ => rfl

theorem goTo_keep : (s.keep recorder).goTo b = (s.goTo b).map (keep recorder) :=
  bind_eq_map linkTo_keep fun _ _ => rfl

theorem fork_keep {c : Nat} : (s.keep recorder).fork b c = (s.fork b c).map (keep recorder) :=
  bind_eq_map linkTo_keep fun _ _ => bind_eq_map linkTo_keep fun _ _ => rfl

theorem moveOn_keep : (s.keep recorder).moveOn = s.moveOn.keep recorder := by
  simp only [moveOn, fresh_keep, moveTo_keep]

theorem fallOn_keep : (s.keep recorder).fallOn = s.fallOn.map (keep recorder) := by
  simp only [fallOn, fresh_keep, goTo_keep]

theorem linkAll_keep (targets : List Nat) :
    targets.foldlM linkTo (s.keep recorder) = (targets.foldlM linkTo s).map (keep recorder) := by
  induction targets generalizing s with
  | nil => rfl
  | cons b targets ih =>
    rw [List.foldlM_cons, List.foldlM_cons]
    exact bind_eq_map linkTo_keep fun _ _ => ih

theorem record_keep (hs : s.current < s.graph.size) :
    (s.keep recorder).record recorder r = (s.record some r).map (keep recorder) := by
  have hkept : (s.keep recorder).current < (s.keep recorder).graph.size := by
    simpa [keep] using hs
  rw [record_of_some hs rfl]
  cases h : recorder r with
  | none => simp [record, h, keep, Graph.keep_record_of_none h, Except.map]
  | some item =>
    rw [record_of_some hkept h]
    simp [keep, Graph.record_keep_of_some h, Except.map]

theorem enter_keep (scope : Scope) : (s.keep recorder).enter scope = (s.enter scope).keep recorder :=
  rfl

theorem leave_keep : (s.keep recorder).leave = s.leave.map fun x => (x.1.keep recorder, x.2) := by
  unfold leave
  have hscopes : (s.keep recorder).scopes = s.scopes := rfl
  rw [hscopes]
  split
  · rfl
  · rfl

theorem goToExit_keep (scope : Scope) :
    (s.keep recorder).goToExit scope = (s.goToExit scope).map (keep recorder) := by
  unfold goToExit
  split
  · exact goTo_keep
  · rfl

theorem leaveBlock_keep : (s.keep recorder).leaveBlock r = (s.leaveBlock r).map (keep recorder) :=
  bind_eq_map leave_keep fun x _ => bind_eq_map (goToExit_keep x.2) fun _ _ => rfl

theorem enterLoop_keep (label : String) : (s.keep recorder).enterLoop r label =
    (s.enterLoop r label).map fun x => (x.1.keep recorder, x.2) := by
  simp only [enterLoop, fresh_keep]
  exact bind_eq_map goTo_keep fun _ _ => rfl

theorem leaveLoop_keep : (s.keep recorder).leaveLoop b = (s.leaveLoop b).map (keep recorder) :=
  bind_eq_map leave_keep fun _ _ => goTo_keep

theorem resolve_keep (label : String) : (s.keep recorder).resolve label =
    (s.resolve label).map fun x => (x.1.keep recorder, x.2) := by
  unfold resolve
  have hscopes : (s.keep recorder).scopes = s.scopes := rfl
  have hsize : (s.keep recorder).graph.size = s.graph.size := Graph.size_keep
  rw [hscopes, hsize]
  split
  · rw [fresh_keep]
    split
    · rfl
    · rfl
  · rfl

theorem resolveAll_keep (names : List String) : (s.keep recorder).resolveAll names =
    (s.resolveAll names).map fun x => (x.1.keep recorder, x.2) := by
  induction names generalizing s with
  | nil => rfl
  | cons name names ih =>
    apply bind_eq_map (resolve_keep name)
    intro x _
    apply bind_eq_map ih
    intro y _
    rfl

variable {t : Tree} {n : Node} {kids : List (Unit → Tree)} {rest : List Nat}

/-- Lowering the tree under the recorder makes what is kept of its nodes. -/
def Uniform (recorder : Ref → Option α) (t : Tree) : Prop :=
  ∀ ⦃rest⦄ ⦃s : Lowering Ref⦄, Sound rest s →
    visit recorder t (s.keep recorder) = (visit some t s).map (keep recorder)

theorem uniform_slot (ih : ∀ k ∈ kids, Uniform recorder (k ())) (i : Nat) :
    Uniform recorder (Tree.slot kids i) :=
  Tree.slot_of_kids ih (fun _ _ _ => rfl) i

theorem visitAll_keep (ih : ∀ k ∈ kids, Uniform recorder (k ())) (hs : Sound rest s) :
    visitAll recorder kids (s.keep recorder) = (visitAll some kids s).map (keep recorder) := by
  induction kids generalizing s with
  | nil => rfl
  | cons k kids ihk =>
    apply bind_eq_map (ih k (by simp) hs)
    intro s₁ h₁
    exact ihk (fun k hk => ih k (.tail _ hk)) (lowered some _ hs h₁).sound

theorem uniform_block (hkind : n.kind = .block) (ih : ∀ k ∈ kids, Uniform recorder (k ())) :
    Uniform recorder (.node r n kids) := by
  intro rest s hs
  rw [visit, visit, hkind]
  simp only [enter_keep]
  apply bind_eq_map (visitAll_keep ih (hs.enterBlock n.label))
  intro s₁ _
  exact leaveBlock_keep

theorem uniform_loop (hkind : n.kind = .loop) (ih : ∀ k ∈ kids, Uniform recorder (k ())) :
    Uniform recorder (.node r n kids) := by
  intro rest s hs
  rw [visit, visit, hkind]
  simp only [visitSlot_eq]
  apply bind_eq_map (enterLoop_keep n.label)
  intro x henter
  obtain ⟨_, -, hin, -⟩ := hs.advances_enterLoop henter
  apply bind_eq_map (uniform_slot ih 0 hin)
  intro s₁ _
  exact leaveLoop_keep

theorem uniform_if (hkind : n.kind = .ifElse) (ih : ∀ k ∈ kids, Uniform recorder (k ())) :
    Uniform recorder (.node r n kids) := by
  intro rest s hs
  have hslot := uniform_slot ih
  rw [visit, visit, hkind]
  simp only [visitSlot_eq]
  apply bind_eq_map (hslot 0 hs)
  intro s₁ h₁
  have hs₁ := (lowered some _ hs h₁).sound
  simp only [fresh_keep]
  split
  · apply bind_eq_map fork_keep
    intro s₂ hopen
    have hs₂ := (hs₁.advances_openArms hopen).sound
    apply bind_eq_map (hslot 1 hs₂)
    intro s₃ h₃
    have hs₃ := (lowered some _ hs₂ h₃).sound
    apply bind_eq_map linkTo_keep
    intro s₄ hlink
    have hs₄ := (hs₃.advances_linkTo_moveTo hlink (.swap _ _ _)).sound
    rw [moveTo_keep]
    apply bind_eq_map (hslot 2 hs₄)
    intro s₅ _
    exact goTo_keep
  · apply bind_eq_map fork_keep
    intro s₂ hopen
    apply bind_eq_map (hslot 1 (hs₁.advances_openArm hopen).sound)
    intro s₃ _
    exact goTo_keep

theorem uniform_plain (hplain : n.kind.isStructured = false)
    (ih : ∀ k ∈ kids, Uniform recorder (k ())) : Uniform recorder (.node r n kids) := by
  intro rest s hs
  have hargs := visitAll_keep ih hs
  -- Whether the block that a node is recorded in exists is asked only if the recorder keeps the node.
  have hsound : ∀ s₁, visitAll some kids s = .ok s₁ → Sound rest s₁ :=
    fun s₁ h₁ => (visitAll_advances (fun k _ => lowered some (k ())) hs h₁).sound
  rw [visit, visit]
  cases hkind : n.kind
  case block | loop | ifElse => simp [hkind, Kind.isStructured] at hplain
  case br =>
    apply bind_eq_map hargs
    intro s₁ h₁
    apply bind_eq_map (resolve_keep n.label)
    intro x hx
    have hlt := (resolve_advances (hsound s₁ h₁) hx).2.sound.filling.current_lt
    apply bind_eq_map (record_keep hlt)
    intro s₂ _
    apply bind_eq_map linkTo_keep
    intro s₃ _
    split
    · exact fallOn_keep
    · rw [moveOn_keep]
      rfl
  case brTable =>
    apply bind_eq_map hargs
    intro s₁ h₁
    apply bind_eq_map (resolveAll_keep _)
    intro x hx
    have hlt := (resolveAll_advances (hsound s₁ h₁) hx).2.sound.filling.current_lt
    apply bind_eq_map (record_keep hlt)
    intro s₂ _
    apply bind_eq_map (linkAll_keep _)
    intro s₃ _
    rw [moveOn_keep]
    rfl
  case ret | unreachable =>
    apply bind_eq_map hargs
    intro s₁ h₁
    apply bind_eq_map (record_keep (hsound s₁ h₁).filling.current_lt)
    intro s₂ _
    rw [moveOn_keep]
    rfl
  all_goals
    apply bind_eq_map hargs
    intro s₁ h₁
    exact record_keep (hsound s₁ h₁).filling.current_lt

theorem uniform (recorder : Ref → Option α) (t : Tree) : Uniform recorder t := by
  induction t with
  | absent => exact fun _ _ _ => rfl
  | dangling => exact fun _ _ _ => rfl
  | endless => exact fun _ _ _ => rfl
  | node r n kids ih =>
    cases hkind : n.kind
    case block => exact uniform_block hkind ih
    case loop => exact uniform_loop hkind ih
    case ifElse => exact uniform_if hkind ih
    all_goals exact uniform_plain (by rw [hkind]; rfl) ih

end Lowering

namespace Function

variable {fn : Function} {root : Ref} {recorder : Ref → Option α}

theorem lower_eq_map : fn.lower root recorder = (fn.lower root some).map (Graph.keep recorder) := by
  have hstart : (Lowering.start : Lowering α) = Lowering.start.keep recorder := by
    simp [Lowering.start, Lowering.keep, Graph.keep, Block.keep]
  unfold lower
  rw [hstart]
  apply bind_eq_map (Lowering.uniform recorder (fn.tree root) Lowering.sound_start)
  intro s _
  rfl

/-- Whatever is recorded, lowering fails alike and otherwise makes the same blocks with the same edges
and targets. The items of each block are what the recorder keeps of the nodes that stand there when all
of them are recorded. -/
theorem lower_uniform (fn : Function) (root : Ref) (recorder : Ref → Option α) :
    (∀ f, fn.lower root recorder = .error f ↔ fn.lower root some = .error f) ∧
      ∀ g, fn.lower root some = .ok g → ∃ g', fn.lower root recorder = .ok g' ∧
        g'.entry = g.entry ∧ g'.size = g.size ∧ g'.targets = g.targets ∧
        ∀ b, g'.pred b = g.pred b ∧ g'.succ b = g.succ b ∧
          g'.items b = (g.items b).filterMap recorder := by
  rw [lower_eq_map]
  cases fn.lower root some with
  | error f => exact ⟨fun f' => by simp [Except.map], nofun⟩
  | ok g =>
    refine ⟨fun f' => by simp [Except.map], fun g' hg' => ?_⟩
    cases hg'
    exact ⟨g.keep recorder, rfl, rfl, Graph.size_keep, rfl,
      fun b => ⟨Graph.pred_keep, Graph.succ_keep, Graph.items_keep⟩⟩

end Function

end LocalFlow
