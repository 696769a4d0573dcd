import ThumbHardening.CallLimit
import ThumbHardening.Layout
import ThumbHardening.Leakage
import ThumbHardening.Promotion
import ThumbHardening.Verify

/-!
# The hardening pipeline

Runs the passes in a fixed order: the leakage analysis of the code as it is, promotion, the call limiter,
the randomizer, and the leakage analysis of the hardened code. The program is verified at the start and after
every pass that changed it.
-/

namespace ThumbHardening

/-- Why hardening gives up. -/
inductive HardenError where
  | leakage (error : LeakageError)
  | callLimit (error : CallLimitError)
  | promotion (error : PromotionError)
  | layout (error : LayoutError)
  | verification (error : VerifyError)
  deriving DecidableEq, Repr

def HardenError.label : HardenError → String
  | .leakage error => "Cdla." ++ error.label
  | .callLimit error => "ICall." ++ error.label
  | .promotion error => "Promote." ++ error.label
  | .layout error => "Gdlr." ++ error.label
  | .verification error => "Verify." ++ error.label

def HardenError.fault? : HardenError → Option Fault
  | .callLimit error => error.fault?
  | .promotion error => error.fault?
  | .layout error => error.fault?
  | .leakage _ | .verification _ => none

def HardenError.message : HardenError → String
  | .leakage error => "Leakage analysis failed: " ++ error.message
  | .callLimit error => "Indirect call limiter failed: " ++ error.message
  | .promotion error => "Local-to-global promotion failed: " ++ error.message
  | .layout error => "Layout randomization failed: " ++ error.message
  | .verification error => "Verification failed: " ++ error.message

/-- What hardening gives back. -/
structure HardenReport where
  program : Program
  /-- The leakage before and after. -/
  statistics : Statistics
  layout : LayoutStatistics
  promotion : PromotionStatistics
  limitedCalls : Nat
  warnings : Nat

/-- A program on its way through the passes. -/
structure Pipeline where
  program : Program
  options : Options
  /-- Whether the program may have changed since it was verified. -/
  modified : Bool := false
  /-- The anomalies that the passes have met. -/
  warnings : Nat := 0

namespace Pipeline
variable {σ ε : Type}

/-- Takes over the result of a pass. -/
def absorb (h : Pipeline) (run : PassRun σ ε) : Pipeline :=
  { h with
    program := run.program
    modified := h.modified || (match run.outcome with | .ok changed => changed | .error _ => false)
    warnings := h.warnings + run.warnings }

def verify (h : Pipeline) : Except VerifyError Pipeline :=
  h.program.verify.map fun _ => { h with modified := false }

/-- A pipeline for a program that is accepted. -/
def start (p : Program) (o : Options) : Except VerifyError Pipeline :=
  verify { program := p, options := o }

/-- Runs a pass that may change the program, and verifies the program if it did. -/
def advance (h : Pipeline) (wrap : ε → HardenError) (run : PassRun σ ε) :
    Except HardenError (Pipeline × σ) :=
  match run.outcome with
  | .error e => .error (wrap e)
  | .ok false => .ok (h.absorb run, run.pass)
  | .ok true =>
    match (h.absorb run).verify with
    | .error e => .error (.verification e)
    | .ok h => .ok (h, run.pass)

/-- Runs the leakage analysis. -/
def measure (h : Pipeline) (postHardening : Bool) : Except HardenError (Pipeline × Statistics) :=
  let run := LeakageAnalysis.run { postHardening } h.program
  match run.outcome with
  | .error e => .error (.leakage e)
  | .ok _ => .ok (h.absorb run, run.pass.statistics)

/-- Runs the promotion if it is enabled. -/
def promote (h : Pipeline) : Except HardenError (Pipeline × PromotionStatistics) :=
  if h.options.promotion then h.advance .promotion (Promotion.run {} h.program)
  else .ok (h, {})

/-- Runs the call limiter if it is enabled. -/
def limitCalls (h : Pipeline) : Except HardenError (Pipeline × Nat) :=
  if h.options.callLimiter then h.advance .callLimit (CallLimit.run 0 h.program)
  else .ok (h, 0)

/-- Runs the randomizer, which measures the objects even if it is not enabled. -/
def randomize (h : Pipeline) : Except HardenError (Pipeline × LayoutRandomizer) :=
  h.advance .layout (LayoutRandomizer.run { options := h.options } h.program)

/-- Verifies the program if it may have changed. -/
def verifyIfModified (h : Pipeline) : Except HardenError Pipeline :=
  if h.modified then h.verify.mapError .verification else .ok h

/-- Runs the whole pipeline. -/
def harden (h : Pipeline) : Except HardenError HardenReport := do
  let (h, before) ← h.measure false
  let (h, promotion) ← h.promote
  let (h, limitedCalls) ← h.limitCalls
  let (h, randomizer) ← h.randomize
  let (h, after) ← h.measure true
  let h ← h.verifyIfModified
  return {
    program := h.program
    statistics := (Statistics.merge {} before).merge after
    layout := randomizer.statistics, promotion, limitedCalls, warnings := h.warnings }

end Pipeline
end ThumbHardening
