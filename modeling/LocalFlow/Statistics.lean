import LocalFlow.Coalescing.Pass

/-!
Running totals of what coalescing did, and the same totals as named counters.
-/

namespace LocalFlow

/-- The totals are words, which wrap around. -/
structure Statistics where
  functions : UInt64 := 0
  before : UInt64 := 0
  after : UInt64 := 0
  stores : UInt64 := 0
  copies : UInt64 := 0
deriving DecidableEq

namespace Statistics

def add (s t : Statistics) : Statistics :=
  ⟨s.functions + t.functions, s.before + t.before, s.after + t.after, s.stores + t.stores,
    s.copies + t.copies⟩

instance : Add Statistics := ⟨add⟩

def ofSummary (s : Summary) : Statistics :=
  ⟨1, .ofNat s.before, .ofNat s.after, .ofNat s.stores, .ofNat s.copies⟩

def saved (s : Statistics) : Int64 := s.before.toInt64 - s.after.toInt64

end Statistics

end LocalFlow
