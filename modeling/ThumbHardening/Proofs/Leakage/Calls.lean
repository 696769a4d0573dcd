import ThumbHardening.Leakage
import ThumbHardening.Proofs.FlowGraph
import ThumbHardening.Proofs.Steps

/-!
# Calls that leak

When the analysis gets an answer about a call, the answer is whether the call leaks, and its answers about a
whole block are about the calls in it. It stops at the first call that decides, so a call that it cannot
tell is met only if nothing else decides.
-/

namespace ThumbHardening

/-- A call whose return address may get into memory. -/
inductive LinkSpill.Leaking (p : Program) (spills : LinkSpill) (i : Instr) : Prop
  | indirect : i.opcode = .callIndirect ∨ i.opcode = .callIndirectLimited → Leaking p spills i
  | external {name rest} : i.opcode = .call → i.operands = .external name :: rest →
      Leaking p spills i
  | internal {symbol offset part rest id} : i.opcode = .call →
      i.operands = .symbol symbol offset part :: rest → p.resolveFunction symbol = .ok id →
      spills.canSpill id = true → Leaking p spills i

variable {p : Program} {spills : LinkSpill} {i : Instr} {b : Block} {name : String}

theorem LinkSpill.leaking_call_iff (hopcode : i.opcode = .call) :
    spills.Leaking p i ↔
      (∃ name rest, i.operands = .external name :: rest) ∨
        ∃ symbol offset part rest id, i.operands = .symbol symbol offset part :: rest ∧
          p.resolveFunction symbol = .ok id ∧ spills.canSpill id = true := by
  constructor
  · intro h
    cases h with
    | indirect h => simp [hopcode] at h
    | external _ hoperands => exact .inl ⟨_, _, hoperands⟩
    | internal _ hoperands hresolve hspill =>
      exact .inr ⟨_, _, _, _, _, hoperands, hresolve, hspill⟩
  · intro hcase
    rcases hcase with ⟨_, _, hoperands⟩ | ⟨_, _, _, _, _, hoperands, hresolve, hspill⟩
    · exact .external hopcode hoperands
    · exact .internal hopcode hoperands hresolve hspill

/-- The answer about an instruction is whether it is a call that leaks. -/
theorem callLeaks_eq_ok {answer : Bool} (h : p.callLeaks spills name i = .ok answer) :
    answer = true ↔ spills.Leaking p i := by
  rw [Program.callLeaks] at h
  split at h
  · next hopcode =>
    rw [LinkSpill.leaking_call_iff hopcode]
    obtain ⟨target, htarget, rfl⟩ := Outcome.map_eq_ok_iff.mp h
    rw [Program.callTarget] at htarget
    split at htarget
    · next symbol offset part rest hoperands =>
      split at htarget
      · next id hresolve =>
        cases htarget
        simp [hoperands, hresolve]
      · cases htarget
    · next hoperands =>
      cases htarget
      simp [hoperands]
    · cases htarget
  · next hopcode =>
    cases h
    exact iff_of_true rfl (.indirect (.inl hopcode))
  · next hopcode =>
    cases h
    exact iff_of_true rfl (.indirect (.inr hopcode))
  · next hcall hindirect hlimited =>
    cases h
    refine iff_of_false (by simp) ?_
    intro hcase
    rcases hcase with h | ⟨h, -⟩ | ⟨h, -⟩
    · exact h.elim hindirect hlimited
    · exact hcall h
    · exact hcall h

/-- A block with a call that leaks and is not its last instruction. -/
def LinkSpill.LeaksInside (spills : LinkSpill) (p : Program) (b : Block) : Prop :=
  ∃ index i, b.instrs[index]? = some i ∧ spills.Leaking p i ∧ b.lastNonDebug?.map Prod.fst ≠ some index

/-- A block whose last instruction is a call that leaks. -/
def LinkSpill.EndsLeaking (spills : LinkSpill) (p : Program) (b : Block) : Prop :=
  ∃ index i, b.lastNonDebug? = some (index, i) ∧ spills.Leaking p i

namespace LeakageSweep

variable {f : Function} {g : FlowGraph} {s : LeakageSweep} {answer : Bool}

theorem anyLeaks_eq_ok {last : Option Nat} {code : List Instr} {start : Nat}
    (h : anyLeaks p spills name last code start = .ok answer) :
    answer = true ↔ ∃ offset i, code[offset]? = some i ∧ spills.Leaking p i ∧
      last ≠ some (start + offset) := by
  induction code generalizing start with
  | nil =>
    cases h
    simp
  | cons i rest ih =>
    rw [anyLeaks] at h
    split at h
    · cases h
    · next leaks hleaks =>
      have hanswer := callLeaks_eq_ok hleaks
      split at h
      · next hdecided =>
        cases h
        simp only [Bool.and_eq_true, decide_eq_true_eq, ne_eq] at hdecided
        exact iff_of_true rfl ⟨0, i, rfl, hanswer.mp hdecided.1, fun heq => hdecided.2 heq.symm⟩
      · next hundecided =>
        rw [ih h]
        constructor
        · intro hparts
          obtain ⟨offset, j, hj, hleak, hlast⟩ := hparts
          exact ⟨offset + 1, j, hj, hleak, by rwa [Nat.add_comm offset 1, ← Nat.add_assoc]⟩
        · intro hparts
          obtain ⟨offset, j, hj, hleak, hlast⟩ := hparts
          cases offset with
          | zero =>
            cases hj
            refine absurd ?_ hundecided
            simp only [Bool.and_eq_true, decide_eq_true_eq, ne_eq]
            exact ⟨hanswer.mpr hleak, fun heq => hlast heq.symm⟩
          | succ offset =>
            refine ⟨offset, j, hj, hleak, ?_⟩
            rwa [Nat.add_assoc, Nat.add_comm 1 offset]

theorem leaksInside_eq_ok (h : leaksInside p spills f b = .ok answer) :
    answer = true ↔ spills.LeaksInside p b := by
  rw [anyLeaks_eq_ok h]
  simp only [Nat.zero_add]
  rfl

theorem leaksFromFront_eq_ok (hids : g.blocks.ids.Nodup)
    (h : leaksFromFront p spills f g b s = .ok answer) :
    answer = true ↔ ∃ front, g.layoutPredecessor? b.id = some front ∧
      ((f.id, front.id) ∈ s.blocks ∨ spills.EndsLeaking p front) := by
  rw [leaksFromFront] at h
  split at h
  · next hnone =>
    cases h
    simp [hnone]
  · next front hfront =>
    rw [FlowGraph.block?_id hids (FlowGraph.mem_of_layoutPredecessor? hfront)] at h
    simp only [hfront, Option.some.injEq, exists_eq_left']
    split at h
    · next hmarked =>
      cases h
      exact iff_of_true rfl (.inl (List.contains_iff_mem.mp hmarked))
    · next hmarked =>
      rw [List.contains_iff_mem] at hmarked
      rw [or_iff_right hmarked]
      simp only [Option.bind_some] at h
      split at h
      · next hlast =>
        cases h
        simp [LinkSpill.EndsLeaking, hlast]
      · next index last hlast =>
        rw [callLeaks_eq_ok h]
        simp [LinkSpill.EndsLeaking, hlast]

/-- The answer about a block. -/
theorem isGivenAway_eq_ok (hids : g.blocks.ids.Nodup)
    (h : isGivenAway p spills f g b s = .ok answer) :
    answer = true ↔ spills.LeaksInside p b ∨ ∃ front, g.layoutPredecessor? b.id = some front ∧
      ((f.id, front.id) ∈ s.blocks ∨ spills.EndsLeaking p front) := by
  rw [isGivenAway] at h
  split at h
  · next hfront =>
    rw [leaksInside_eq_ok h, ← leaksFromFront_eq_ok hids hfront]
    simp
  · next hother =>
    cases answer with
    | false => exact absurd h hother
    | true => exact iff_of_true rfl (.inr ((leaksFromFront_eq_ok hids h).mp rfl))

end LeakageSweep
end ThumbHardening
