import ThumbHardening.Proofs.Pipeline

/-!
# Hardening hands out accepted programs

The pipeline verifies only after a pass that reports a change. That is enough since no pass of the library
reports less than it did: one that reports no change has left the program as it was. So at all times the
program is accepted unless the pipeline is marked as modified, and a pipeline that is still marked at the end
is verified then.
-/

namespace ThumbHardening

variable {p q : Program} {o : Options}

/-- A run of one of the passes of the library, on the program `p`. -/
inductive LibraryRun (p : Program) : {σ ε : Type} → PassRun σ ε → Prop
  | verification : LibraryRun p (verifyPass p)
  | leakage (a : LeakageAnalysis) : LibraryRun p (a.run p)
  | promotion (statistics : PromotionStatistics) : LibraryRun p (Promotion.run statistics p)
  | callLimit (limited : Nat) : LibraryRun p (CallLimit.run limited p)
  | layout (r : LayoutRandomizer) (stream : RandomStream) : LibraryRun p (r.runWith stream p)

theorem LeakageAnalysis.run_program (a : LeakageAnalysis) (p : Program) : (a.run p).program = p := by
  rw [run]
  split
  · rfl
  · dsimp only
    split <;> rfl

/-- A pass that reports no change has left the program exactly as it was. -/
theorem LibraryRun.program_of_unchanged {σ ε : Type} {run : PassRun σ ε} (h : LibraryRun p run)
    (hok : run.outcome = .ok false) : run.program = p := by
  cases h with
  | verification => rfl
  | leakage a => exact a.run_program p
  | promotion => exact Promotion.program_of_unchanged hok
  | callLimit => exact CallLimit.program_of_unchanged hok
  | layout => exact LayoutRandomizer.program_of_unchanged hok

namespace Pipeline

variable {σ ε : Type} {wrap : ε → HardenError} {run : PassRun σ ε} {result : σ} {l l' : Pipeline}

/-- A pipeline whose program has been verified since its last change, or that is marked as modified. -/
def Checked (l : Pipeline) : Prop :=
  l.modified = false → l.program.verify = .ok ()

/-- A pipeline after some more passes of the library that succeeded, as a caller may run them before
hardening. -/
inductive Prepared (l : Pipeline) : Pipeline → Prop
  | start : Prepared l l
  | pass {σ ε : Type} {l' : Pipeline} {run : PassRun σ ε} {changed : Bool} : Prepared l l' →
      LibraryRun l'.program run → run.outcome = .ok changed → Prepared l (l'.absorb run)

/-! ### Stages keep the mark honest -/

theorem checked_start (hok : start p o = .ok l) : l.Checked ∧ l.program = p ∧ l.options = o := by
  obtain ⟨haccepted, rfl⟩ := verify_eq_ok hok
  exact ⟨fun _ => haccepted, rfl, rfl⟩

theorem Checked.absorb {changed : Bool} (h : l.Checked) (hrun : LibraryRun l.program run)
    (hok : run.outcome = .ok changed) : (l.absorb run).Checked := by
  intro hunmodified
  simp only [Pipeline.absorb, hok, Bool.or_eq_false_iff] at hunmodified
  rw [hunmodified.2] at hok
  exact (congrArg Program.verify (hrun.program_of_unchanged hok)).trans (h hunmodified.1)

theorem Checked.prepared (h : l.Checked) (hprepared : l.Prepared l') :
    l'.Checked ∧ l'.options = l.options := by
  induction hprepared with
  | start => exact ⟨h, rfl⟩
  | pass _ hrun hok ih => exact ⟨ih.1.absorb hrun hok, ih.2⟩

theorem Checked.advance (h : l.Checked) (hrun : LibraryRun l.program run)
    (hok : l.advance wrap run = .ok (l', result)) : l'.Checked := by
  rw [Pipeline.advance] at hok
  split at hok
  · cases hok
  · next houtcome =>
    cases hok
    exact h.absorb hrun houtcome
  · split at hok
    · cases hok
    · next hverify =>
      obtain ⟨haccepted, rfl⟩ := verify_eq_ok hverify
      cases hok
      exact fun _ => haccepted

theorem Checked.promote {numbers : PromotionStatistics} (h : l.Checked)
    (hok : l.promote = .ok (l', numbers)) : l'.Checked := by
  rw [Pipeline.promote] at hok
  split at hok
  · exact h.advance (.promotion _) hok
  · cases hok
    exact h

theorem Checked.limitCalls {limitedCalls : Nat} (h : l.Checked)
    (hok : l.limitCalls = .ok (l', limitedCalls)) : l'.Checked := by
  rw [Pipeline.limitCalls] at hok
  split at hok
  · exact h.advance (.callLimit _) hok
  · cases hok
    exact h

theorem Checked.measure {postHardening : Bool} {numbers : Statistics} (h : l.Checked)
    (hok : l.measure postHardening = .ok (l', numbers)) : l'.Checked := by
  rw [Pipeline.measure] at hok
  split at hok
  · cases hok
  · next houtcome =>
    cases hok
    exact h.absorb (.leakage _) houtcome

/-- At the end the program is accepted, whether it had to be verified once more or not. -/
theorem Checked.verifyIfModified (h : l.Checked) (hok : l.verifyIfModified = .ok l') :
    l'.program.verify = .ok () := by
  obtain ⟨hprogram, hverified⟩ := verifyIfModified_eq_ok hok
  rw [hprogram]
  cases hmodified : l.modified with
  | true => exact hverified hmodified
  | false => exact h hmodified

/-! ### Stages that are not enabled -/

theorem promote_of_disabled {numbers : PromotionStatistics} (hoff : l.options.promotion = false)
    (hok : l.promote = .ok (l', numbers)) : l' = l := by
  rw [Pipeline.promote, hoff] at hok
  cases hok
  rfl

theorem limitCalls_of_disabled {limitedCalls : Nat} (hoff : l.options.callLimiter = false)
    (hok : l.limitCalls = .ok (l', limitedCalls)) : l' = l := by
  rw [Pipeline.limitCalls, hoff] at hok
  cases hok
  rfl

theorem randomize_of_disabled {randomizer : LayoutRandomizer} (hoff : l.options.randomization = false)
    (hok : l.randomize = .ok (l', randomizer)) : l'.program = l.program := by
  obtain ⟨hprogram, -⟩ := advance_eq_ok hok
  rw [hprogram]
  simp [LayoutRandomizer.run, LayoutRandomizer.runWith, hoff]

/-! ### The report -/

/-- Hardening hands out accepted programs only, also if passes were run before. A pass that reports no change
has left the program exactly as it was. With promotion, limiter and randomizer disabled the program is the one
given in, and leaks as much afterwards as it did. -/
theorem harden_verified {report : HardenReport} (hstart : start p o = .ok l) (hprepared : l.Prepared l')
    (hok : l'.harden = .ok report) :
    l.program = p ∧ report.program.verify = .ok () ∧
    (∀ (q : Program) (σ ε : Type) (run : PassRun σ ε), LibraryRun q run → run.outcome = .ok false →
      run.program = q) ∧
    (o.promotion = false → o.callLimiter = false → o.randomization = false →
      report.program = l'.program ∧ report.statistics.after = report.statistics.before) := by
  obtain ⟨hchecked, hprogram, hoptions⟩ := checked_start hstart
  obtain ⟨hchecked, hoptions'⟩ := hchecked.prepared hprepared
  obtain ⟨l₁, l₂, l₃, l₄, l₅, l₆, before, promotion, limitedCalls, randomizer, after, hbefore, hpromote,
    hlimit, hrandomize, hafter, hlast, rfl⟩ := harden_eq_ok hok
  have hchecked₃ := ((hchecked.measure hbefore).promote hpromote).limitCalls hlimit
  have hchecked₅ := (hchecked₃.advance (.layout _ _) hrandomize).measure hafter
  refine ⟨hprogram, hchecked₅.verifyIfModified hlast, fun q σ ε run => LibraryRun.program_of_unchanged,
    fun hpromotion hlimiter hrandomization => ?_⟩
  obtain ⟨hprogram₁, hoptions₁, spills, s, hspills, hvisit, rfl⟩ := measure_eq_ok hbefore
  obtain ⟨hprogram₅, -, spills', t, hspills', hvisit', rfl⟩ := measure_eq_ok hafter
  rw [← hoptions, ← hoptions', ← hoptions₁] at hpromotion hlimiter hrandomization
  obtain rfl := promote_of_disabled hpromotion hpromote
  obtain rfl := limitCalls_of_disabled hlimiter hlimit
  have hprogram₄ := (randomize_of_disabled hrandomization hrandomize).trans hprogram₁
  refine ⟨((verifyIfModified_eq_ok hlast).1.trans hprogram₅).trans hprogram₄, ?_⟩
  rw [hprogram₄, hspills, Except.ok.injEq] at hspills'
  rw [hprogram₄, ← hspills', hvisit, Prod.mk.injEq] at hvisit'
  rw [Statistics.merge_placed, hvisit'.1]

/-- Every pass changes that program, and what comes out is accepted. -/
theorem harden_verified_dispatchProgram :
    ∃ l report, start dispatchProgram everyPass = .ok l ∧ l.harden = .ok report ∧
      report.promotion.promoted = 1 ∧ report.limitedCalls = 1 ∧ report.layout.trapsEtched = 1 ∧
      report.program.verify = .ok () := by
  have hverify : dispatchProgram.verify = .ok () := by decide +kernel
  have hstart : start dispatchProgram everyPass
      = .ok { program := dispatchProgram, options := everyPass } := by
    rw [start, verify, hverify]
    rfl
  have hrun : ((harden { program := dispatchProgram, options := everyPass }).toOption.any fun report =>
      report.promotion.promoted = 1 ∧ report.limitedCalls = 1 ∧ report.layout.trapsEtched = 1)
        = true := by decide +kernel
  cases hok : harden { program := dispatchProgram, options := everyPass } with
  | error e =>
    rw [hok] at hrun
    cases hrun
  | ok report =>
    rw [hok] at hrun
    obtain ⟨hpromoted, hlimited, hetched⟩ := of_decide_eq_true hrun
    exact ⟨_, report, hstart, hok, hpromoted, hlimited, hetched,
      (harden_verified hstart .start hok).2.1⟩

end Pipeline
end ThumbHardening
