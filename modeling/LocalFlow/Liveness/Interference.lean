import LocalFlow.Failure

/-!
Interference: which locals cannot share a slot. The relation is a square table of bits in one row
after another; a pair is entered at both of its places. Places are numbers, so a local beyond the
size of the table may come to lie on the place of another pair.
-/

namespace LocalFlow

structure Interference where
  /-- The length of a row. That of a table which no function has may be negative. -/
  size : Int
  bits : Array Bool

namespace Interference

/-- The relation in which no locals interfere. The bits of its table are counted in a signed word, and
there are at most `2 ^ 48` of them. -/
def ofSize (size : Int) : Except Failure Interference :=
  let count := (size * size).bmod UInt64.size
  if 0 ≤ count && count ≤ 0x1000000000000 then .ok ⟨size, Array.replicate count.toNat false⟩
  else .error .outOfRange

def numLocals (m : Interference) : Nat := m.size.toNat

/-- The place of a pair in the table. A number outside the table is taken as a signed word. -/
def place? (m : Interference) (a b : Nat) : Option Nat :=
  let inside (p : Int) : Bool := 0 ≤ p && p < m.bits.size
  let p := a * m.size + b
  if inside p then some p.toNat
  else if inside (p.bmod UInt64.size) then some (p.bmod UInt64.size).toNat
  else none

def mark (m : Interference) (a b : Nat) : Except Failure Interference :=
  match m.place? a b with
  | some p => .ok { m with bits := m.bits.setIfInBounds p true }
  | none => .error .outOfRange

/-- Enters a pair in both orders and gives the table that is left, also when the second entry
fails. A local does not interfere with itself. -/
def enter (m : Interference) (a b : Nat) : Interference × Except Failure Unit :=
  if a = b then (m, .ok ())
  else match m.mark a b with
    | .error f => (m, .error f)
    | .ok m =>
      match m.mark b a with
      | .error f => (m, .error f)
      | .ok m => (m, .ok ())

def add (m : Interference) (a b : Nat) : Except Failure Interference :=
  match m.enter a b with
  | (m, .ok _) => .ok m
  | (_, .error f) => .error f

def bit? (m : Interference) (a b : Nat) : Option Bool := (m.place? a b).bind (m.bits[·]?)

def interferes (m : Interference) (a b : Nat) : Except Failure Bool :=
  match m.bit? a b with
  | some bit => .ok bit
  | none => .error .outOfRange

/-- Those of the `count` locals from `b` on that interfere with `a`. -/
def neighborsFrom (m : Interference) (a b : Nat) : Nat → Except Failure (List Nat)
  | 0 => .ok []
  | count + 1 => do
    let here ← m.interferes a b
    let rest ← m.neighborsFrom a (b + 1) count
    return if here then b :: rest else rest

def neighbors (m : Interference) (a : Nat) : Except Failure (List Nat) :=
  m.neighborsFrom a 0 m.numLocals

def degree (m : Interference) (a : Nat) : Except Failure Nat :=
  return (← m.neighbors a).length

def rowsFrom (m : Interference) (a : Nat) : Nat → Except Failure (List (List Nat))
  | 0 => .ok []
  | count + 1 => return (← m.neighbors a) :: (← m.rowsFrom (a + 1) count)

def rows (m : Interference) : Except Failure (List (List Nat)) := m.rowsFrom 0 m.numLocals

/-- The interfering pairs whose smaller local is one of the last `count`, of which `a` is the first. -/
def edgesFrom (m : Interference) (a : Nat) : Nat → Except Failure (List (Nat × Nat))
  | 0 => .ok []
  | count + 1 => do
    let later ← m.neighborsFrom a (a + 1) count
    return later.map (a, ·) ++ (← m.edgesFrom (a + 1) count)

/-- Every interfering pair once, with the smaller local first, in lexicographic order. -/
def edges (m : Interference) : Except Failure (List (Nat × Nat)) := m.edgesFrom 0 m.numLocals

def partners (edges : List (Nat × Nat)) (a : Nat) : List Nat :=
  edges.filterMap fun (x, y) => if x = a then some y else if y = a then some x else none

end Interference

end LocalFlow
