import LocalFlow.Graph.Lowering
import LocalFlow.Proofs.Function.Tree
import LocalFlow.Proofs.Graph.Building
import LocalFlow.Proofs.Outcome

/-! How a tree lies in a control-flow graph, said without regard to how the graph was made: between
which points its evaluation takes place, where the graph has the items of its nodes, and which edges
its jumps may follow. -/

namespace LocalFlow

namespace Graph

variable {α : Type}

/-- A place between the items of a block: the block, and how many of its items come before. -/
abbrev Point := Nat × Nat

/-- The items of the block of `p` are all before `p`, and an edge leads on to block `b`. -/
def Jumps (g : Graph α) (p : Point) (b : Nat) : Prop :=
  p.2 = (g.items p.1).length ∧ b ∈ g.succ p.1

/-- Between `p` and `q` stands what the recorder keeps of the node at `r`. -/
def Records (g : Graph α) (recorder : Ref → Option α) (r : Ref) (p q : Point) : Prop :=
  match recorder r with
  | some item => (g.items p.1)[p.2]? = some item ∧ q = (p.1, p.2 + 1)
  | none => q = p

/-- The blocks that branches to the labels in scope go to. -/
abbrev Labels := String → Option Nat

/-- What a node that is no construct does after it is recorded: a branch jumps to the blocks of its
labels, a conditional one may also go on, and after any jump evaluation goes on in a block of its
own. A node that ends the evaluation ends its block too. -/
def Departs (g : Graph α) (labels : Labels) (n : Node) (p q : Point) : Prop :=
  match n.kind with
  | .br => n.label ≠ "" ∧ (∃ b, labels n.label = some b ∧ g.Jumps p b) ∧
      (n.isConditional = true → g.Jumps p q.1 ∧ q.2 = 0)
  | .brTable =>
    ∀ label ∈ n.labels ++ [n.label], label ≠ "" ∧ ∃ b, labels label = some b ∧ g.Jumps p b
  | .ret | .unreachable => p.2 = (g.items p.1).length
  | _ => q = p

mutual

/-- Evaluating the tree takes place between `p` and `q`. -/
inductive Lays (g : Graph α) (recorder : Ref → Option α) : Labels → Tree → Point → Point → Prop
  | absent {labels : Labels} {p : Point} : Lays g recorder labels .absent p p
  | block {labels : Labels} {r : Ref} {n : Node} {kids : List (Unit → Tree)} {p q : Point} :
      n.kind = .block → LaysAll g recorder (Function.update labels n.label none) kids p q →
      Lays g recorder labels (.node r n kids) p q
  /-- Some branch leaves the block. -/
  | leftBlock {labels : Labels} {r : Ref} {n : Node} {kids : List (Unit → Tree)} {p m : Point}
      {exit : Nat} :
      n.kind = .block → LaysAll g recorder (Function.update labels n.label (some exit)) kids p m →
      g.Jumps m exit → Lays g recorder labels (.node r n kids) p (exit, 0)
  | loop {labels : Labels} {r : Ref} {n : Node} {kids : List (Unit → Tree)} {p m : Point}
      {head exit : Nat} :
      n.kind = .loop → g.Jumps p head →
      Lays g recorder (Function.update labels n.label (some head)) (Tree.slot kids 0) (head, 0) m →
      g.Jumps m exit → Lays g recorder labels (.node r n kids) p (exit, 0)
  | ifThen {labels : Labels} {r : Ref} {n : Node} {kids : List (Unit → Tree)} {p c m : Point}
      {ifTrue join : Nat} :
      n.kind = .ifElse → (n.kid 2).isPresent = false →
      Lays g recorder labels (Tree.slot kids 0) p c → g.Jumps c ifTrue →
      Lays g recorder labels (Tree.slot kids 1) (ifTrue, 0) m → g.Jumps m join →
      g.Jumps c join → Lays g recorder labels (.node r n kids) p (join, 0)
  | ifElse {labels : Labels} {r : Ref} {n : Node} {kids : List (Unit → Tree)} {p c m m' : Point}
      {ifTrue ifFalse join : Nat} :
      n.kind = .ifElse → Lays g recorder labels (Tree.slot kids 0) p c → g.Jumps c ifTrue →
      Lays g recorder labels (Tree.slot kids 1) (ifTrue, 0) m → g.Jumps m join →
      g.Jumps c ifFalse → Lays g recorder labels (Tree.slot kids 2) (ifFalse, 0) m' →
      g.Jumps m' join → Lays g recorder labels (.node r n kids) p (join, 0)
  | plain {labels : Labels} {r : Ref} {n : Node} {kids : List (Unit → Tree)} {p m m' q : Point} :
      n.kind.isStructured = false → LaysAll g recorder labels kids p m →
      g.Records recorder r m m' → g.Departs labels n m' q →
      Lays g recorder labels (.node r n kids) p q

inductive LaysAll (g : Graph α) (recorder : Ref → Option α) :
    Labels → List (Unit → Tree) → Point → Point → Prop
  | nil {labels : Labels} {p : Point} : LaysAll g recorder labels [] p p
  | cons {labels : Labels} {t : Unit → Tree} {ts : List (Unit → Tree)} {p m q : Point} :
      Lays g recorder labels (t ()) p m → LaysAll g recorder labels ts m q →
      LaysAll g recorder labels (t :: ts) p q

end

end Graph

end LocalFlow
