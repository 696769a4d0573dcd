import ThumbHardening.Instruction.Build

/-!
# Predicated groups

An `It` instruction covers the next one to four instructions that produce code. The first of them executes
under the condition that `It` names, each other one under that condition or its opposite. The mask has
one bit for each instruction after the first, set for the opposite condition, and a final 1 behind them.

A list of instructions is consistent when every `It` agrees with what it covers, no two cover the same
instruction, and nothing that needs a group is left out. `Code.repair` restores this after an edit: it drops
each `It` that no longer agrees and opens new groups for what has lost its own.
-/

namespace ThumbHardening

/-- The instructions of a block, in order. -/
abbrev Code := List Instr

/-- The most instructions that one `It` covers. -/
def maxGroupLength : Nat := 4

/-- The mask bits for the conditions behind the first one, then the final 1. -/
def maskBits (first : Cond) : Nat → List Cond → Nat
  | weight, [] => weight
  | weight, c :: rest => (if c = first then 0 else weight) + maskBits first (weight / 2) rest

/-- The mask of a group with these conditions, which are one to four. -/
def encodeMask? : List Cond → Option Nat
  | [] => none
  | first :: rest => if rest.length < maxGroupLength then some (maskBits first 8 rest) else none

/-- The conditions that the lowest `k` bits of a mask stand for. -/
def expandMask (first : Cond) : (k : Nat) → (mask : Nat) → Option (List Cond)
  | 0, _ => some []
  | k + 1, mask =>
    if mask = Nat.pow 2 k then some []
    else if mask < Nat.pow 2 k then (expandMask first k mask).map (first :: ·)
    else if first = .al then none
    else (expandMask first k (mask - Nat.pow 2 k)).map (first.inverse :: ·)

/-- The conditions of the instructions covered under a first condition and a mask. -/
def decodeMask? (first : Cond) (mask : Nat) : Option (List Cond) :=
  if mask % 16 = 0 then none else (expandMask first 4 (mask % 16)).map (first :: ·)

namespace Code

/-- The positions of the instructions that execute under the given conditions, one after the other with
only debug information between them, if the code starts so. -/
def matchConds : List Cond → Code → Option (List Nat)
  | [], _ => some []
  | _ :: _, [] => none
  | c :: conds, i :: rest =>
    if i.isDebug then (matchConds (c :: conds) rest).map (List.map (· + 1))
    else if i.needsGroup && i.pred = c && (!i.opcode.endsGroup || conds.isEmpty) then
      (matchConds conds rest).map fun positions => 0 :: positions.map (· + 1)
    else none

/-- The positions that the instruction covers in the code behind it, if it is an `It` that agrees with
that code. -/
def coverage (i : Instr) (behind : Code) : Option (List Nat) := do
  let (first, mask) ← i.itFields?
  let conds ← decodeMask? first mask
  matchConds conds behind

/-- The positions covered by the `It` at position `it`, if it agrees with the code. -/
def coveredBy (code : Code) (it : Nat) : Option (List Nat) := do
  let i ← code[it]?
  let positions ← coverage i (code.drop (it + 1))
  return positions.map (· + (it + 1))

/-- How many instructions before a position the search for its `It` looks at. -/
def groupWindow : Nat := 2 * maxGroupLength + 1

/-- The position of the `It` that covers the instruction at position `at`. Debug information does not count
towards the distance. -/
def findGroup (code : Code) (index : Nat) : Option Nat :=
  let before := (List.range (min index code.length)).reverse
  let near := (before.filter fun pos => (code[pos]?).any fun i => !i.isDebug).take groupWindow
  near.find? fun it => (coveredBy code it).any (·.contains index)

def itPositions (code : Code) : List Nat :=
  (List.range code.length).filter fun pos => (code[pos]?).any Instr.isIt

/-- All positions covered by some `It`, one group after the other. -/
def coveredPositions (code : Code) : List Nat :=
  code.itPositions.flatMap fun it => (coveredBy code it).getD []

/-- Whether every instruction that needs a group stands at one of the positions. -/
def needsOnlyAt (code : Code) (positions : List Nat) : Bool :=
  (List.range code.length).all fun pos =>
    positions.contains pos || !(code[pos]?).any Instr.needsGroup

/-- Whether every `It` agrees with the code, no instruction is covered twice, and every instruction that
needs a group is covered. -/
def isConsistent (code : Code) : Bool :=
  (code.itPositions.all fun it => (coveredBy code it).isSome)
    && decide code.coveredPositions.Nodup
    && code.needsOnlyAt code.coveredPositions

/-- Drops every `It` that does not agree with the code behind it. What an `It` covers lies behind it, so one
pass from the end suffices. -/
def dropStale : Code → Code
  | [] => []
  | i :: rest =>
    let kept := dropStale rest
    if i.isIt && (coverage i kept).isNone then kept else i :: kept

/-- Which instructions are covered. -/
def coveredMarks : Code → List Bool
  | [] => []
  | i :: rest =>
    let marks := coveredMarks rest
    false :: ((coverage i rest).getD []).foldl (fun marks pos => marks.set pos true) marks

/-- Splits off the further members of a group: up to `room` instructions under the first condition or its
opposite that need a group and have none, and the debug information between them. -/
def takeMembers (first : Cond) : (room : Nat) → List (Instr × Bool) → Code × List (Instr × Bool)
  | _, [] => ([], [])
  | 0, rest => ([], rest)
  | room + 1, (i, covered) :: rest =>
    if i.isDebug then
      match takeMembers first (room + 1) rest with
      | ([], _) => ([], (i, covered) :: rest)
      | (members, behind) => (i :: members, behind)
    else if covered || !i.needsGroup || !(i.pred = first || i.pred = first.inverse) then
      ([], (i, covered) :: rest)
    else if i.opcode.endsGroup then ([i], rest)
    else
      let (members, behind) := takeMembers first room rest
      (i :: members, behind)

theorem length_takeMembers_le (first : Cond) (room : Nat) (marked : List (Instr × Bool)) :
    (takeMembers first room marked).2.length ≤ marked.length := by
  fun_induction takeMembers first room marked <;> simp_all <;> omega

/-- How many further instructions the group of a first instruction may take. -/
def groupRoom (i : Instr) : Nat :=
  if i.opcode.endsGroup then 0 else maxGroupLength - 1

/-- The `It` of a group that starts with `i` and goes on with `members`. -/
def openGroup (i : Instr) (members : Code) : Instr :=
  .it i.pred (maskBits i.pred 8 ((members.filter fun m => !m.isDebug).map Instr.pred))

/-- Opens a group for every instruction that needs one and is not marked as covered. -/
def regroup : List (Instr × Bool) → Code
  | [] => []
  | (i, covered) :: rest =>
    if covered || !i.needsGroup then i :: regroup rest
    else
      let split := takeMembers i.pred (groupRoom i) rest
      openGroup i split.1 :: i :: (split.1 ++ regroup split.2)
termination_by marked => marked.length
decreasing_by
  · simp
  · have := length_takeMembers_le i.pred (groupRoom i) rest
    simp only [List.length_cons]
    omega

/-- Makes the code consistent by dropping `It` instructions that do not agree with it and opening new groups.
Groups that agree stay as they are. -/
def repair (code : Code) : Code :=
  let kept := dropStale code
  regroup (kept.zip (coveredMarks kept))

/-- The last `It` that does not agree with the code behind it. -/
def lastStale? (code : Code) : Option Nat :=
  code.itPositions.reverse.find? fun it => (coveredBy code it).isNone

theorem length_eraseIdx_lastStale? {code : Code} {it : Nat} (h : code.lastStale? = some it) :
    (code.eraseIdx it).length < code.length := by
  have hmem := List.mem_reverse.mp (List.mem_of_find?_eq_some h)
  have hlt : it < code.length := List.mem_range.mp (List.mem_filter.mp hmem).1
  rw [List.length_eraseIdx_of_lt hlt]
  omega

/-- Drops the `It` instructions that do not agree one at a time, always the last one, and tells whether there
was any. -/
def dropOneByOne (code : Code) : Code × Bool :=
  match _h : code.lastStale? with
  | none => (code, false)
  | some it => ((dropOneByOne (code.eraseIdx it)).1, true)
termination_by code.length
decreasing_by exact length_eraseIdx_lastStale? _h

/-- Repairs code in place, and tells whether there was anything to repair: an `It` that does not agree, or then
an instruction without the group that it needs. -/
def repairInPlace (code : Code) : Code × Bool :=
  let (kept, dropped) := dropOneByOne code
  let marked := kept.zip (coveredMarks kept)
  if marked.all fun entry => entry.2 || !entry.1.needsGroup then (kept, dropped)
  else (regroup marked, true)

end Code
end ThumbHardening
