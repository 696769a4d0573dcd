import ThumbHardening.Address

/-!
# Leakage statistics

How much code there is and how much of it an attacker could locate, before and after hardening.
-/

namespace ThumbHardening

/-- Sizes in bytes and counts of one analysis. -/
structure LeakageStatistics where
  codeSize : Nat := 0
  /-- The code leakable in any way, each block counted once. -/
  codeSizeLeakable : Nat := 0
  codeSizeViaPointer : Nat := 0
  codeSizeViaReturn : Nat := 0
  functions : Nat := 0
  functionsLeakable : Nat := 0
  blocks : Nat := 0
  blocksLeakable : Nat := 0
  deriving DecidableEq, Repr

open Address in
/-- Adds up two analyses. -/
def LeakageStatistics.add (a b : LeakageStatistics) : LeakageStatistics where
  codeSize := wrap (a.codeSize + b.codeSize)
  codeSizeLeakable := wrap (a.codeSizeLeakable + b.codeSizeLeakable)
  codeSizeViaPointer := wrap (a.codeSizeViaPointer + b.codeSizeViaPointer)
  codeSizeViaReturn := wrap (a.codeSizeViaReturn + b.codeSizeViaReturn)
  functions := wrap (a.functions + b.functions)
  functionsLeakable := wrap (a.functionsLeakable + b.functionsLeakable)
  blocks := wrap (a.blocks + b.blocks)
  blocksLeakable := wrap (a.blocksLeakable + b.blocksLeakable)

/-- The analyses of the code before and after hardening. -/
structure Statistics where
  before : LeakageStatistics := {}
  after : LeakageStatistics := {}
  deriving DecidableEq, Repr

/-- Adds the numbers of another run. -/
def Statistics.merge (a b : Statistics) : Statistics where
  before := a.before.add b.before
  after := a.after.add b.after

end ThumbHardening
