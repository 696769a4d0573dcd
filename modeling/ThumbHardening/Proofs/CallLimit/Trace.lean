import ThumbHardening.Proofs.CallLimit.Function

/-!
# Runs that give up

The limiter changes one call after the other, and finds out that a call cannot be limited only when it comes to
that call. What it has done by then stays: the functions in front of the one with that call are limited, that one
is limited up to the call, and those behind are as they were. Every limited call is counted, so the count tells
whether anything has changed.
-/

namespace ThumbHardening
namespace CallLimit
open Code

variable {p : Program} {f f' f₁ f₂ : Function} {g : FlowGraph} {b : Block} {id index limit limited total n m : Nat}
  {call : Instr} {code front back : Code} {failure : Option CallLimitError} {e : CallLimitError}

/-! ### Calls that are limited -/

/-- What comes out when the first unlimited call of one of a function's blocks is to be limited. -/
def Attempt (f : Function) (outcome : Except CallLimitError Function) : Prop :=
  ∃ g id index call, f.body = some g ∧ (g.block? id).bind firstUnlimited? = some (index, call) ∧
    limitCall f g id index call = outcome

/-- That a function becomes another one as some of its calls are limited, one after the other. -/
inductive LimitedCalls : Nat → Function → Function → Prop
  | none (f : Function) : LimitedCalls 0 f f
  | next {n : Nat} {f f₁ f₂ : Function} :
      Attempt f (.ok f₁) → LimitedCalls n f₁ f₂ → LimitedCalls (n + 1) f f₂

theorem LimitedCalls.trans (h : LimitedCalls n f f₁) (h' : LimitedCalls m f₁ f₂) :
    LimitedCalls (n + m) f f₂ := by
  induction h with
  | none => rwa [Nat.zero_add]
  | @next n _ _ _ hfirst _ ih =>
    rw [Nat.add_right_comm]
    exact .next hfirst (ih h')

/-! ### How many calls are left -/

theorem unlimitedCalls_updateBlock (hbody : f.body = some g) (hblock : g.block? id = some b)
    (change : Block → Block) :
    unlimitedCalls { f with body := some (g.updateBlock id change) } + List.countP isUnlimited b.instrs
      = unlimitedCalls f + List.countP isUnlimited (change b).instrs := by
  have hblocks : f.blocks = g.blocks.elems := by rw [Function.blocks, hbody]; rfl
  rw [unlimitedCalls_eq_sum, unlimitedCalls_eq_sum f, hblocks]
  exact Roster.sum_update (fun b => List.countP isUnlimited b.instrs) change hblock

/-- A call that is retargeted does not count any more. -/
theorem unlimitedCalls_updateInstr (hbody : f.body = some g) (hblock : g.block? id = some b)
    (hcall : isUnlimited call = true) (hat : At b.instrs index front call back) (target : Reg) :
    unlimitedCalls f = unlimitedCalls (updateInstr f id index (retarget target)) + 1 := by
  have hcount : List.countP isUnlimited b.instrs
      = List.countP isUnlimited (b.instrs.modify index (retarget target)) + 1 := by
    rw [← countP_ordinary, ← countP_ordinary (b.instrs.modify _ _),
      hat.ordinary_eq (isIt_of_isUnlimited hcall), (hat.modify (retarget target)).ordinary_eq rfl,
      List.countP_append, List.countP_append, List.countP_cons_of_pos hcall,
      List.countP_cons_of_neg (by simp [isUnlimited, retarget]), Nat.add_assoc]
  have hchange := unlimitedCalls_updateBlock hbody hblock
    fun b => { b with instrs := b.instrs.modify index (retarget target) }
  have hupdated : updateInstr f id index (retarget target)
      = { f with body := some (g.updateBlock id fun b =>
          { b with instrs := b.instrs.modify index (retarget target) }) } := by
    rw [updateInstr, Function.updateBody, hbody]
    rfl
  rw [hupdated]
  dsimp only at hchange
  omega

theorem StepsTo.unlimitedCalls_eq (h : StepsTo f g b f') (hbody : f.body = some g)
    (hblock : g.block? b.id = some b) : unlimitedCalls f = unlimitedCalls f' + 1 := by
  obtain ⟨change, hsame, -, hstep⟩ := h
  have hchange := unlimitedCalls_updateBlock hbody hblock change
  have hcall := hstep.countP_eq
  have hcount : unlimitedCalls f' = unlimitedCalls { f with body := some (g.updateBlock b.id change) } := by
    rw [hsame]
    rfl
  omega

/-- Each attempt that succeeds leaves one call less. -/
theorem Attempt.unlimitedCalls_eq (h : Attempt f (.ok f')) : unlimitedCalls f = unlimitedCalls f' + 1 := by
  obtain ⟨g, id, index, call, hbody, hnext, h⟩ := h
  obtain ⟨b, hblock, hfirst⟩ := Option.bind_eq_some_iff.mp hnext
  obtain rfl : b.id = id := Roster.id_of_get? hblock
  obtain ⟨hcall, front, back, hat, hfront⟩ := firstUnlimited?_eq_some hfirst
  rw [limitCall] at h
  split at h
  · cases h
  · next number hnumber =>
    split at h
    · cases h
      exact unlimitedCalls_updateInstr (f := { f with registers := f.registers.constrain number .tailCall }) hbody
        hblock hcall hat _
    · exact (limitByCopy_eq_ok hblock hcall hat hfront (head?_of_reg? hnumber) h).unlimitedCalls_eq hbody hblock
  · next r hr =>
    split at h
    · cases h
      exact unlimitedCalls_updateInstr hbody hblock hcall hat _
    · exact (limitByCopy_eq_ok hblock hcall hat hfront (head?_of_reg? hr) h).unlimitedCalls_eq hbody hblock

theorem LimitedCalls.unlimitedCalls_eq (h : LimitedCalls n f f') : unlimitedCalls f = unlimitedCalls f' + n := by
  induction h with
  | none => rfl
  | next hfirst _ ih =>
    rw [hfirst.unlimitedCalls_eq, ih]
    omega

/-! ### Visits -/

/-- What a visit has done, whether or not it fails: the calls that it counts are limited, and it fails as the next
call does. -/
structure Traced (f : Function) (limited : Nat) (f' : Function) (total : Nat) (failure : Option CallLimitError) :
    Prop where
  calls : ∃ n, LimitedCalls n f f' ∧ total = limited + n
  failed : ∀ e ∈ failure, Attempt f' (.error e)

theorem Traced.refl (f : Function) (limited : Nat) : Traced f limited f limited none :=
  ⟨⟨0, .none f, rfl⟩, by simp⟩

theorem Traced.trans {count : Nat} (h : Traced f limited f₁ count none) (h' : Traced f₁ count f' total failure) :
    Traced f limited f' total failure := by
  obtain ⟨n, hn, rfl⟩ := h.calls
  obtain ⟨m, hm, rfl⟩ := h'.calls
  exact ⟨⟨n + m, hn.trans hm, Nat.add_assoc ..⟩, h'.failed⟩

theorem traced_limitBlock (h : limitBlock id limit f limited = (f', total, failure)) :
    Traced f limited f' total failure := by
  induction limit generalizing f limited with
  | zero =>
    cases h
    exact .refl ..
  | succ limit ih =>
    rw [limitBlock] at h
    split at h
    · cases h
      exact .refl ..
    · next g hbody =>
      split at h
      · cases h
        exact .refl ..
      · next index call hnext =>
        split at h
        · next e hfails =>
          cases h
          refine ⟨⟨0, .none _, rfl⟩, fun e' he' => ?_⟩
          cases he'
          exact ⟨g, id, index, call, hbody, hnext, hfails⟩
        · next f₁ hlimits =>
          have hfirst : Traced f limited f₁ (limited + 1) none :=
            ⟨⟨1, .next ⟨g, id, index, call, hbody, hnext, hlimits⟩ (.none f₁), rfl⟩, by simp⟩
          exact hfirst.trans (ih h)

theorem traced_visitBlocks {ids : List Nat}
    (h : Steps.runAll visitBlock ids (f, limited) = ((f', total), failure)) :
    Traced f limited f' total failure := by
  induction ids generalizing f limited with
  | nil =>
    cases h
    exact .refl ..
  | cons id rest ih =>
    rw [Steps.runAll] at h
    rcases hlimit : limitBlock id (unlimitedCalls f) f limited with ⟨f₁, count, _ | e⟩
    · simp only [visitBlock, hlimit] at h
      exact (traced_limitBlock hlimit).trans (ih h)
    · simp only [visitBlock, hlimit] at h
      cases h
      exact traced_limitBlock hlimit

theorem traced_visitFunction (h : visitFunction f limited = (f', total, failure)) :
    Traced f limited f' total failure := by
  rcases hrun : Steps.runAll visitBlock (f.blocks.map Block.id) (f, limited) with ⟨⟨f₁, count⟩, failure₁⟩
  rw [visitFunction, hrun] at h
  cases h
  exact traced_visitBlocks hrun

/-- A visit has changed a function exactly if it has counted a call. -/
theorem Traced.counts (h : Traced f limited f' total failure) :
    limited ≤ total ∧ (total = limited → f' = f) ∧ total + unlimitedCalls f' = limited + unlimitedCalls f := by
  obtain ⟨n, hcalls, rfl⟩ := h.calls
  refine ⟨Nat.le_add_right .., fun heq => ?_, ?_⟩
  · obtain rfl : n = 0 := by omega
    cases hcalls
    rfl
  · rw [hcalls.unlimitedCalls_eq]
    omega

theorem mapAll_visitFunction_counts {functions functions' : List Function}
    (h : Steps.mapAll visitFunction functions limited = (functions', total, failure)) :
    limited ≤ total ∧ (total = limited → functions' = functions) ∧
      total + (functions'.map unlimitedCalls).sum = limited + (functions.map unlimitedCalls).sum := by
  induction functions generalizing limited functions' with
  | nil =>
    cases h
    exact ⟨Nat.le_refl _, fun _ => rfl, rfl⟩
  | cons f rest ih =>
    rw [Steps.mapAll] at h
    rcases hfirst : visitFunction f limited with ⟨f₁, count, failure₁⟩
    obtain ⟨hle, hsame, hcount⟩ := (traced_visitFunction hfirst).counts
    cases failure₁ with
    | some e =>
      simp only [hfirst] at h
      cases h
      refine ⟨hle, fun heq => by rw [hsame heq], ?_⟩
      rw [List.map_cons, List.map_cons, List.sum_cons, List.sum_cons]
      omega
    | none =>
      rcases hrest : Steps.mapAll visitFunction rest count with ⟨rest', count', failure'⟩
      simp only [hfirst, hrest] at h
      cases h
      obtain ⟨hle', hsame', hcount'⟩ := ih hrest
      refine ⟨hle.trans hle', fun heq => ?_, ?_⟩
      · rw [hsame (Nat.le_antisymm (heq ▸ hle') hle), hsame' (Nat.le_antisymm (heq ▸ hle) hle')]
      · rw [List.map_cons, List.map_cons, List.sum_cons, List.sum_cons]
        omega

/-! ### Runs that fail -/

/-- A run that fails has limited all calls that it came to before. The functions in front of the one at which it
gives up have been visited, that one is changed by the calls limited in it, of which the next cannot be limited,
and those behind are untouched. So nothing has changed exactly if no call was counted. -/
theorem run_error (limited : Nat) (p : Program) (h : (run limited p).outcome = .error e) :
    (∃ front f back front' f',
      p.functions.elems = front ++ f :: back ∧
      (run limited p).program
        = { p with functions := { p.functions with elems := front' ++ f' :: back } } ∧
      List.Forall₂ (fun f f' => ∃ count n, visitFunction f count = (f', count + n, none) ∧ LimitedCalls n f f')
        front front' ∧
      (∃ n, LimitedCalls n f f') ∧ Attempt f' (.error e)) ∧
    (run limited p).pass + ((run limited p).program.functions.elems.map unlimitedCalls).sum
      = limited + (p.functions.elems.map unlimitedCalls).sum ∧
    ((run limited p).program = p ↔ (run limited p).pass = limited) := by
  rcases hrun : Steps.mapAll visitFunction p.functions.elems limited with ⟨functions, total, failure⟩
  obtain ⟨hle, hsame, hcount⟩ := mapAll_visitFunction_counts hrun
  simp only [run, hrun] at h ⊢
  cases failure with
  | none => cases h
  | some e' =>
    cases h
    refine ⟨?_, hcount, fun heq => ?_, fun heq => by rw [hsame heq]⟩
    · obtain ⟨front, f, back, front', f', count, hsplit, rfl, hfront, hfails⟩ := Steps.mapAll_eq_some hrun
      have htraced := traced_visitFunction hfails
      obtain ⟨n, hcalls, -⟩ := htraced.calls
      refine ⟨front, f, back, front', f', hsplit, rfl, hfront.imp ?_, ⟨n, hcalls⟩, htraced.failed e rfl⟩
      rintro f f' ⟨count, count', hvisit⟩
      obtain ⟨n, hcalls, rfl⟩ := (traced_visitFunction hvisit).calls
      exact ⟨count, n, hvisit, hcalls⟩
    · have hfunctions : functions = p.functions.elems := congrArg (fun p => p.functions.elems) heq
      rw [hfunctions] at hcount
      exact Nat.add_right_cancel hcount

/-- A function with a call that can be limited in front of one that cannot. -/
def numberTarget : Program :=
  let code : Code := [.callIndirect (.phys .r0), ⟨.callIndirect, [.imm 1], .al⟩, .ret]
  let graph : FlowGraph :=
    { blocks := { elems := [{ Block.ofCode code with id := 1 }], next := 2 }, entry := 1 }
  { functions := { elems := [{ id := 1, name := "f", body := some graph }], next := 2 }, pointerSize := 4 }

/-- The first call stays limited, and is counted. -/
theorem run_error_numberTarget :
    (run 0 numberTarget).outcome = .error (.unexpectedOperand "f") ∧ (run 0 numberTarget).pass = 1 ∧
      (run 0 numberTarget).program ≠ numberTarget ∧
      ((run 0 numberTarget).program.functions.elems.map unlimitedCalls).sum = 1 := by
  have hfails : (run 0 numberTarget).outcome = .error (.unexpectedOperand "f") := by decide +kernel
  have hcount : (run 0 numberTarget).pass = 1 := by decide +kernel
  have hbefore : (numberTarget.functions.elems.map unlimitedCalls).sum = 2 := by decide +kernel
  obtain ⟨-, hleft, hiff⟩ := run_error 0 numberTarget hfails
  rw [hcount] at hleft hiff
  exact ⟨hfails, hcount, fun heq => absurd (hiff.mp heq) (by decide), by omega⟩

/-- Runs that fail do change functions. -/
theorem not_run_error_unchanged :
    ¬∀ (limited : Nat) (p : Program) (e : CallLimitError), (run limited p).outcome = .error e →
      (run limited p).program.functions.elems = p.functions.elems := by
  intro hclaim
  have hfails : (run 0 numberTarget).outcome = .error (.unexpectedOperand "f") := by decide +kernel
  have hsame := congrArg (List.map unlimitedCalls) (hclaim 0 numberTarget _ hfails)
  revert hsame
  decide +kernel

end CallLimit
end ThumbHardening
