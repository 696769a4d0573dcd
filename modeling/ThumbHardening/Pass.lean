import ThumbHardening.Program

/-!
# Runs of passes

A pass looks at a program and may change it. What a run gives back is the pass with what it has learnt, the
program as the run left it, the number of anomalies it warned of, and whether it changed the program or why
it gave up.
-/

namespace ThumbHardening

/-- The result of running a pass with state `σ` and errors `ε`. -/
structure PassRun (σ ε : Type) where
  pass : σ
  program : Program
  warnings : Nat := 0
  outcome : Except ε Bool

end ThumbHardening
