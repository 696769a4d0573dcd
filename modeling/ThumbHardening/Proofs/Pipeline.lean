import ThumbHardening.Pipeline
import ThumbHardening.Proofs.Layout.Names
import ThumbHardening.Proofs.Leakage.Limited
import ThumbHardening.Proofs.Leakage.Randomized
import ThumbHardening.Proofs.Promotion

/-!
# Hardening keeps the leaks

Every pass leaves an accepted program that leaks what the one before did, and the analysis at the end of the
pipeline finds what the one at its start found. Only the accessor of the guard is new, and it is not leakable.
-/

namespace ThumbHardening

/-! ### Numbers of a report -/

/-- The numbers of one analysis as a report has them, reduced to 64 bits. -/
def LeakageStatistics.reported (a : LeakageStatistics) : LeakageStatistics :=
  add {} a

theorem LeakageStatistics.reported_add (a : LeakageStatistics) : a.reported.add {} = a.reported := by
  simp [reported, add, Address.wrap]

theorem Statistics.merge_placed (before after : LeakageStatistics) :
    (Statistics.merge {} (LeakageAnalysis.place { postHardening := false } before)).merge
        (LeakageAnalysis.place { postHardening := true } after)
      = { before := before.reported, after := after.reported } := by
  change Statistics.mk (before.reported.add {}) after.reported = _
  rw [LeakageStatistics.reported_add]

namespace Pipeline

variable {σ ε : Type} {wrap : ε → HardenError} {run : PassRun σ ε} {result : σ} {l l' : Pipeline}
  {p : Program} {o : Options}

/-! ### Stages -/

theorem verify_eq_ok (hok : l.verify = .ok l') :
    l.program.verify = .ok () ∧ l' = { l with modified := false } := by
  obtain ⟨_, hverify, heq⟩ := Outcome.map_eq_ok_iff.mp hok
  exact ⟨hverify, heq.symm⟩

theorem advance_eq_ok (hok : l.advance wrap run = .ok (l', result)) :
    l'.program = run.program ∧ l'.options = l.options ∧ result = run.pass ∧
      ∃ changed, run.outcome = .ok changed ∧ (changed = true → run.program.verify = .ok ()) := by
  rw [advance] at hok
  split at hok
  · cases hok
  · next houtcome =>
    cases hok
    exact ⟨rfl, rfl, rfl, false, houtcome, nofun⟩
  · next houtcome =>
    split at hok
    · cases hok
    · next hverify =>
      obtain ⟨haccepted, rfl⟩ := verify_eq_ok hverify
      cases hok
      exact ⟨rfl, rfl, rfl, true, houtcome, fun _ => haccepted⟩

theorem measure_eq_ok {postHardening : Bool} {numbers : Statistics}
    (hok : l.measure postHardening = .ok (l', numbers)) :
    l'.program = l.program ∧ l'.options = l.options ∧
      ∃ spills s, LinkSpill.compute l.program = .ok spills ∧
        LeakageSweep.visitProgram l.program spills = (s, none) ∧
        numbers = LeakageAnalysis.place { postHardening } s.statistics := by
  rw [measure] at hok
  split at hok
  · cases hok
  · next houtcome =>
    obtain ⟨spills, s, hspills, hvisit⟩ := LeakageAnalysis.visitProgram_of_run houtcome
    rw [LeakageAnalysis.run_eq hspills hvisit] at hok
    cases hok
    exact ⟨rfl, rfl, spills, s, hspills, hvisit, rfl⟩

theorem verifyIfModified_eq_ok (hok : l.verifyIfModified = .ok l') :
    l'.program = l.program ∧ (l.modified = true → l.program.verify = .ok ()) := by
  rw [verifyIfModified] at hok
  split at hok
  · obtain ⟨haccepted, rfl⟩ := verify_eq_ok (Outcome.mapError_eq_ok_iff.mp hok)
    exact ⟨rfl, fun _ => haccepted⟩
  · next hmodified =>
    cases hok
    exact ⟨rfl, fun h => absurd h hmodified⟩

/-- The stages of a run that succeeds. -/
theorem harden_eq_ok {report : HardenReport} (hok : l.harden = .ok report) :
    ∃ l₁ l₂ l₃ l₄ l₅ l₆ before promotion limitedCalls randomizer after,
      l.measure false = .ok (l₁, before) ∧ l₁.promote = .ok (l₂, promotion) ∧
      l₂.limitCalls = .ok (l₃, limitedCalls) ∧ l₃.randomize = .ok (l₄, randomizer) ∧
      l₄.measure true = .ok (l₅, after) ∧ l₅.verifyIfModified = .ok l₆ ∧
      report = {
        program := l₆.program
        statistics := (Statistics.merge {} before).merge after
        layout := randomizer.statistics, promotion, limitedCalls, warnings := l₆.warnings } := by
  rw [harden] at hok
  obtain ⟨⟨l₁, before⟩, hbefore, hok⟩ := Outcome.bind_eq_ok_iff.mp hok
  obtain ⟨⟨l₂, promotion⟩, hpromote, hok⟩ := Outcome.bind_eq_ok_iff.mp hok
  obtain ⟨⟨l₃, limitedCalls⟩, hlimit, hok⟩ := Outcome.bind_eq_ok_iff.mp hok
  obtain ⟨⟨l₄, randomizer⟩, hrandomize, hok⟩ := Outcome.bind_eq_ok_iff.mp hok
  obtain ⟨⟨l₅, after⟩, hafter, hok⟩ := Outcome.bind_eq_ok_iff.mp hok
  obtain ⟨l₆, hverify, hok⟩ := Outcome.bind_eq_ok_iff.mp hok
  cases hok
  exact ⟨l₁, l₂, l₃, l₄, l₅, l₆, before, promotion, limitedCalls, randomizer, after, hbefore, hpromote,
    hlimit, hrandomize, hafter, hverify, rfl⟩

/-! ### Passes -/

/-- A pipeline whose program is accepted and leaks what `p` does. -/
structure Faithful (p : Program) (l : Pipeline) : Prop where
  alike : p.Alike l.program []
  accepted : l.program.verify = .ok ()

/-- The program is accepted behind a pass if a pass without a change leaves it alone. -/
theorem accepted_of_advance (hok : l.advance wrap run = .ok (l', result))
    (haccepted : l.program.verify = .ok ())
    (hsame : run.outcome = .ok false → run.program = l.program) : l'.program.verify = .ok () := by
  obtain ⟨hprogram, -, -, changed, houtcome, hverify⟩ := advance_eq_ok hok
  rw [hprogram]
  cases changed with
  | true => exact hverify rfl
  | false => exact (congrArg Program.verify (hsame houtcome)).trans haccepted

theorem Faithful.promote {numbers : PromotionStatistics} (h : l.Faithful p)
    (hok : l.promote = .ok (l', numbers)) : l'.Faithful p ∧ l'.options = l.options := by
  rw [Pipeline.promote] at hok
  split at hok
  · obtain ⟨hprogram, hoptions, -, changed, houtcome, -⟩ := advance_eq_ok hok
    refine ⟨⟨?_, accepted_of_advance hok h.accepted Promotion.program_of_unchanged⟩, hoptions⟩
    rw [hprogram]
    exact Promotion.run_alike h.alike houtcome
  · cases hok
    exact ⟨h, rfl⟩

theorem Faithful.limitCalls {limitedCalls : Nat} (h : l.Faithful p)
    (hblocks : ∀ f ∈ p.functions.elems, (f.blocks.map Block.id).Nodup)
    (hok : l.limitCalls = .ok (l', limitedCalls)) : l'.Faithful p ∧ l'.options = l.options := by
  rw [Pipeline.limitCalls] at hok
  split at hok
  · obtain ⟨hprogram, hoptions, -, changed, houtcome, -⟩ := advance_eq_ok hok
    obtain ⟨halike, haccepted⟩ :=
      CallLimit.run_alike h.alike h.accepted (h.alike.nodup_blocks hblocks) houtcome
    rw [← hprogram] at halike haccepted
    exact ⟨⟨halike, haccepted⟩, hoptions⟩
  · cases hok
    exact ⟨h, rfl⟩

theorem Faithful.randomize {randomizer : LayoutRandomizer} (h : l.Faithful p) (hwf : p.WellFormed)
    (hfunctions : p.functions.ids.Nodup)
    (hblocks : ∀ f ∈ p.functions.elems, (f.blocks.map Block.id).Nodup)
    (hname : p.symbolNamed? Guard.functionName = none)
    (hok : l.randomize = .ok (l', randomizer)) :
    l'.program.verify = .ok () ∧ ∃ extra, p.Alike l'.program extra ∧
      extra.map Function.name = Layout.newFunctions (l.options.randomization && l.options.guard) := by
  rw [Pipeline.randomize] at hok
  obtain ⟨hprogram, -, -, changed, houtcome, -⟩ := advance_eq_ok hok
  refine ⟨accepted_of_advance hok h.accepted LayoutRandomizer.program_of_unchanged, ?_⟩
  rw [hprogram]
  exact LayoutRandomizer.runWith_alike h.alike hwf h.accepted hfunctions hblocks hname houtcome

/-! ### The whole pipeline -/

/-- The number of accessors of the guard. -/
def accessors (p : Program) : Nat :=
  p.functions.elems.countP fun f => p.IsAccessor f

section Accessors

variable {q : Program} {extra : List Function}

/-- If the name of the accessor was free, it belongs to a function that has joined. -/
theorem isAccessor_iff_of_alike (h : p.Alike q extra) (hname : p.symbolNamed? Guard.functionName = none)
    {f : Function} : q.IsAccessor f ↔ ∃ f' ∈ extra, f'.name = Guard.functionName ∧ f'.id = f.id := by
  rw [Program.IsAccessor, h.named, hname]
  simp

/-- A function that was there has an ID that no new function gets. -/
theorem not_isAccessor_of_alike (h : p.Alike q extra) (hwf : p.WellFormed)
    (hname : p.symbolNamed? Guard.functionName = none) {f old : Function} (hold : old ∈ p.functions.elems)
    (hid : f.id = old.id) : ¬ q.IsAccessor f := by
  intro haccessor
  obtain ⟨f', hf', -, heq⟩ := (isAccessor_iff_of_alike h hname).mp haccessor
  have hle := h.fresh f' hf'
  rw [heq, hid] at hle
  exact Nat.not_lt.mpr hle (hwf.functions old hold)

/-- The accessors afterwards are the functions that have joined. -/
theorem accessors_of_alike {guard : Bool} (h : p.Alike q extra) (hwf : p.WellFormed)
    (hname : p.symbolNamed? Guard.functionName = none)
    (hextra : extra.map Function.name = Layout.newFunctions guard) :
    q.functions.size = p.functions.size + accessors q ∧ accessors q = extra.length ∧
      extra.length = if guard then 1 else 0 := by
  obtain ⟨kept, hkept, hprofiles⟩ := h.functions
  have hold : kept.countP (fun f => q.IsAccessor f) = 0 := by
    rw [List.countP_eq_zero]
    intro f hf haccessor
    obtain ⟨old, hold, hprofile⟩ := Pairs.exists_of_mem_right (Pairs.of_map_eq hprofiles) hf
    exact not_isAccessor_of_alike h hwf hname hold (Function.id_eq_of_profile hprofile)
      (of_decide_eq_true haccessor)
  have hnew : extra.countP (fun f => q.IsAccessor f) = extra.length := by
    rw [List.countP_eq_length]
    intro f hf
    have hmem : f.name ∈ Layout.newFunctions guard := hextra ▸ List.mem_map_of_mem hf
    refine decide_eq_true ((isAccessor_iff_of_alike h hname).mpr ⟨f, hf, ?_, rfl⟩)
    rw [Layout.newFunctions] at hmem
    split at hmem
    · exact List.mem_singleton.mp hmem
    · cases hmem
  have hcount : accessors q = extra.length := by
    rw [accessors, hkept, List.countP_append, hold, hnew, Nat.zero_add]
  have hsize := congrArg List.length hprofiles
  have hlength := congrArg List.length hextra
  rw [List.length_map, List.length_map] at hsize
  rw [List.length_map] at hlength
  refine ⟨?_, hcount, ?_⟩
  · rw [hcount, Roster.size, hkept, List.length_append, hsize, Roster.size]
  · rw [hlength]
    cases guard <;> rfl

end Accessors

/-- A run that succeeds has measured two programs that leak alike, the second of which it hands out. -/
theorem harden_alike {report : HardenReport} (hwf : p.WellFormed) (hstart : start p o = .ok l)
    (hfunctions : p.functions.ids.Nodup)
    (hblocks : ∀ f ∈ p.functions.elems, (f.blocks.map Block.id).Nodup)
    (hname : p.symbolNamed? Guard.functionName = none) (hok : l.harden = .ok report) :
    ∃ extra spills spills' s t,
      p.Alike report.program extra ∧
      extra.map Function.name = Layout.newFunctions (o.randomization && o.guard) ∧
      p.verify = .ok () ∧ report.program.verify = .ok () ∧
      LinkSpill.compute p = .ok spills ∧ LeakageSweep.visitProgram p spills = (s, none) ∧
      LinkSpill.compute report.program = .ok spills' ∧
      LeakageSweep.visitProgram report.program spills' = (t, none) ∧
      report.statistics = { before := s.statistics.reported, after := t.statistics.reported } := by
  obtain ⟨hverify, rfl⟩ := verify_eq_ok hstart
  obtain ⟨l₁, l₂, l₃, l₄, l₅, l₆, before, promotion, limitedCalls, randomizer, after, hbefore, hpromote,
    hlimit, hrandomize, hafter, hlast, rfl⟩ := harden_eq_ok hok
  obtain ⟨hprogram₁, hoptions₁, spills, s, hspills, hvisit, rfl⟩ := measure_eq_ok hbefore
  have hfaithful₁ : l₁.Faithful p :=
    ⟨by rw [hprogram₁]; exact .refl p, (congrArg Program.verify hprogram₁).trans hverify⟩
  obtain ⟨hfaithful₂, hoptions₂⟩ := hfaithful₁.promote hpromote
  obtain ⟨hfaithful₃, hoptions₃⟩ := hfaithful₂.limitCalls hblocks hlimit
  obtain ⟨haccepted, extra, halike, hextra⟩ :=
    hfaithful₃.randomize hwf hfunctions hblocks hname hrandomize
  rw [hoptions₃, hoptions₂, hoptions₁] at hextra
  obtain ⟨hprogram₅, -, spills', t, hspills', hvisit', rfl⟩ := measure_eq_ok hafter
  -- Measuring and the last verification change nothing.
  have hprogram : l₄.program = l₆.program := ((verifyIfModified_eq_ok hlast).1.trans hprogram₅).symm
  rw [hprogram] at haccepted halike hspills' hvisit'
  exact ⟨extra, spills, spills', s, t, halike, hextra, hverify, haccepted, hspills, hvisit, hspills',
    hvisit', Statistics.merge_placed ..⟩

/-- Hardening does not change what leaks, for every program that can be built. The analysis finds the same
functions and blocks before and after, and the numbers in the report agree but for the accessor of the guard,
which counts as a function if it is made. Counters have 64 bits. -/
theorem harden_keeps_leaks {report : HardenReport} (hwf : p.WellFormed) (hstart : start p o = .ok l)
    (hfunctions : p.functions.ids.Nodup)
    (hblocks : ∀ f ∈ p.functions.elems, (f.blocks.map Block.id).Nodup)
    (hname : p.symbolNamed? Guard.functionName = none) (hok : l.harden = .ok report) :
    (∀ a a' : LeakageAnalysis,
      (a.run p).outcome = .ok false ∧ (a'.run report.program).outcome = .ok false ∧
      (∀ function, (a'.run report.program).pass.isLeakableFunction function
        = (a.run p).pass.isLeakableFunction function) ∧
      ∀ function id, (a'.run report.program).pass.isLeakableBlock function id
        = (a.run p).pass.isLeakableBlock function id) ∧
    report.statistics.after.functionsLeakable = report.statistics.before.functionsLeakable ∧
    report.statistics.after.blocksLeakable = report.statistics.before.blocksLeakable ∧
    (accessors report.program = if o.randomization && o.guard then 1 else 0) ∧
    report.program.functions.size = p.functions.size + accessors report.program ∧
    report.statistics.after.functions
      = Address.wrap (report.statistics.before.functions + accessors report.program) ∧
    (p.functions.size + 1 < 2 ^ 64 → report.statistics.after.functions
      = report.statistics.before.functions + accessors report.program) := by
  obtain ⟨extra, spills, spills', s, t, halike, hextra, hverify, haccepted, hspills, hvisit, hspills',
    hvisit', hstatistics⟩ := harden_alike hwf hstart hfunctions hblocks hname hok
  obtain ⟨hsize, haccessors, hlength⟩ := accessors_of_alike halike hwf hname hextra
  have hagree : LeakageSweep.Agree extra.length s t :=
    LeakageSweep.visitProgram_agree halike hwf hverify haccepted hfunctions hblocks hspills hspills'
      hvisit hvisit'
  have hcount : s.statistics.functions ≤ p.functions.size := by
    rw [LeakageSweep.functions_runAll hvisit]
    exact (Nat.zero_add _).trans_le List.countP_le_length
  rw [haccessors] at hsize
  rw [hstatistics, haccessors]
  refine ⟨fun a a' => ?_, ?_, ?_, hlength, hsize, ?_, fun hroom => ?_⟩
  · rw [LeakageAnalysis.run_eq hspills hvisit, LeakageAnalysis.run_eq hspills' hvisit']
    refine ⟨rfl, rfl, fun function => ?_, fun function id => ?_⟩
    · exact congrArg (·.contains function) hagree.functions
    · exact congrArg (·.contains (function, id)) hagree.blocks
  · exact congrArg (fun n => Address.wrap (0 + n)) hagree.functionsLeakable
  · exact congrArg (fun n => Address.wrap (0 + n)) hagree.blocksLeakable
  · change Address.wrap (0 + t.statistics.functions)
      = Address.wrap (Address.wrap (0 + s.statistics.functions) + extra.length)
    rw [hagree.functionCount, Nat.zero_add, Nat.zero_add]
    exact (Nat.mod_add_mod ..).symm
  · change Address.wrap (0 + t.statistics.functions)
      = Address.wrap (0 + s.statistics.functions) + extra.length
    have hone : extra.length ≤ 1 := by
      rw [hlength]
      split <;> decide
    rw [hagree.functionCount, Nat.zero_add, Nat.zero_add, Address.wrap_of_lt, Address.wrap_of_lt]
    · omega
    · omega

/-- A function that calls through a pointer in its frame. Its last block is a trap. -/
def dispatcher : Function :=
  { name := "dispatch", addressTaken := true, calleeSaved := some [.link]
    frame := ({} : Frame).insert
      { name := "handler", type := some .functionPointer, size := 4, align := 4 }
    registers := { allocated := true }
    body := some
      { blocks := ((({} : Roster Block).insert
            (.ofCode [.load (.phys .r4) (.frame 1) 0, .callIndirect (.phys .r4), .nop])).insert
            (.ofCode [.ret])).insert .trapBlock
        entry := 1 } }

def dispatcherAlone : Program :=
  let empty : Program := (Program.new 4).toOption.getD { pointerSize := 4 }
  ((empty.addFunction dispatcher).toOption.map Prod.fst).getD empty

/-- A program with that function and a table that holds its address. -/
def dispatchProgram : Program :=
  (dispatcherAlone.addGlobal
    { name := "table", size := 4, initializer := some (.pointers [.function 1]) }).1

/-- All passes, with room for decoys in front of the data. -/
def everyPass : Options :=
  { promotion := true, callLimiter := true, randomization := true, trapDecoys := true, guard := true
    maxRodata := 0, maxData := 64, maxBss := 0, guardCandidates := 2 }

theorem built_dispatchProgram : dispatchProgram.Built := by
  have hnew : Program.new 4 = .ok ((Program.new 4).toOption.getD { pointerSize := 4 }) := rfl
  have hadd : ((Program.new 4).toOption.getD { pointerSize := 4 }).addFunction dispatcher
      = .ok (dispatcherAlone, 1) := rfl
  exact .addGlobal _ (.addFunction (.new hnew) hadd)

/-- Every pass finds something to do there, and the function with its two blocks stays leakable. -/
theorem harden_keeps_leaks_dispatchProgram :
    ∃ l report, start dispatchProgram everyPass = .ok l ∧ l.harden = .ok report ∧
      report.promotion.promoted = 1 ∧ report.limitedCalls = 1 ∧ report.layout.trapsEtched = 1 ∧
      report.statistics.after.functions = 2 ∧ report.statistics.after.functionsLeakable = 1 ∧
      report.statistics.after.blocksLeakable = 2 := by
  have hverify : dispatchProgram.verify = .ok () := by decide +kernel
  have hstart : start dispatchProgram everyPass
      = .ok { program := dispatchProgram, options := everyPass } := by
    rw [start, verify, hverify]
    rfl
  have hrun : ((harden { program := dispatchProgram, options := everyPass }).toOption.any fun report =>
      report.promotion.promoted = 1 ∧ report.limitedCalls = 1 ∧ report.layout.trapsEtched = 1 ∧
        report.statistics.before.functions = 1 ∧ report.statistics.before.functionsLeakable = 1 ∧
        report.statistics.before.blocksLeakable = 2) = true := by decide +kernel
  cases hok : harden { program := dispatchProgram, options := everyPass } with
  | error e =>
    rw [hok] at hrun
    cases hrun
  | ok report =>
    rw [hok] at hrun
    obtain ⟨hpromoted, hlimited, hetched, hcount, hfunctions, hblocks⟩ := of_decide_eq_true hrun
    obtain ⟨-, hleakable, hgiven, haccessors, -, -, hnumber⟩ :=
      harden_keeps_leaks built_dispatchProgram.wellFormed hstart (by decide +kernel) (by decide +kernel)
        (by decide +kernel) hok
    refine ⟨_, report, hstart, hok, hpromoted, hlimited, hetched, ?_, hleakable.trans hfunctions,
      hgiven.trans hblocks⟩
    rw [hnumber (by decide +kernel), haccessors, hcount]
    rfl

end Pipeline
end ThumbHardening
