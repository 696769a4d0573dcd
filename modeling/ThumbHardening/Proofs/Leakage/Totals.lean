import ThumbHardening.Proofs.Leakage.Lockstep
import ThumbHardening.Proofs.Leakage.Monotone
import Mathlib.Algebra.BigOperators.Group.List.Basic
import Mathlib.Algebra.Order.BigOperators.Group.List
import Mathlib.Algebra.Order.Group.Nat
import Mathlib.Data.List.Nodup

/-!
# What the numbers of the analysis add up

The blocks that count are those that are no traps. Each number of a run is a sum over these blocks or over
the functions, and which of them take part can be told from the marks at the end: a block is counted as
given away by a return address if a call in it leaks, or if the block in front of it is marked or ends with
a call that leaks. That block has its final mark by the time the next one is looked at. The size of the
leakable code goes up with every new mark, so it is the size of what is marked at the end.
-/

namespace ThumbHardening

/-- The block in front of a block in the layout. -/
def Function.front? (f : Function) (b : Block) : Option Block :=
  f.body.bind fun g => g.layoutPredecessor? b.id

/-- A call in the block leaks, or the block in front of it is marked or ends with a call that leaks. -/
def LinkSpill.Returned (spills : LinkSpill) (p : Program) (marks : List (Nat × Nat)) (f : Function)
    (b : Block) : Prop :=
  spills.LeaksInside p b ∨
    ∃ front, f.front? b = some front ∧ ((f.id, front.id) ∈ marks ∨ spills.EndsLeaking p front)

theorem LinkSpill.returned_congr {spills : LinkSpill} {p : Program} {marks marks' : List (Nat × Nat)}
    {f : Function} {b : Block} (h : ∀ id, (f.id, id) ∈ marks ↔ (f.id, id) ∈ marks') :
    spills.Returned p marks f b ↔ spills.Returned p marks' f b := by
  simp only [Returned, h]

/-! ### Conditions that can be tested -/

section Decidable

variable {p : Program} {spills : LinkSpill} {name : String} {i : Instr}

theorem callLeaks_eq_true_iff : p.callLeaks spills name i = .ok true ↔ spills.Leaking p i := by
  refine ⟨fun h => (callLeaks_eq_ok h).mp rfl, fun h => ?_⟩
  cases h with
  | indirect h => rcases h with h | h <;> simp [Program.callLeaks, h]
  | external hopcode hoperands =>
    simp [Program.callLeaks, Program.callTarget, hopcode, hoperands, Except.map]
  | internal hopcode hoperands hresolve hspill =>
    simp [Program.callLeaks, Program.callTarget, hopcode, hoperands, hresolve, hspill, Except.map]

instance : Decidable (spills.Leaking p i) :=
  decidable_of_iff ((p.callLeaks spills "" i).toOption = some true)
    (Outcome.toOption_eq_some_iff.trans callLeaks_eq_true_iff)

instance (b : Block) : Decidable (spills.LeaksInside p b) :=
  decidable_of_iff
    (∃ x ∈ b.instrs.zipIdx, spills.Leaking p x.1 ∧ b.lastNonDebug?.map Prod.fst ≠ some x.2) <| by
    simp only [LinkSpill.LeaksInside, Prod.exists, List.mk_mem_zipIdx_iff_getElem?]
    exact exists_comm

instance (b : Block) : Decidable (spills.EndsLeaking p b) :=
  decidable_of_iff (∃ x ∈ b.lastNonDebug?, spills.Leaking p x.2) <| by
    simp only [LinkSpill.EndsLeaking, Prod.exists, Option.mem_def]

instance (marks : List (Nat × Nat)) (f : Function) (b : Block) :
    Decidable (spills.Returned p marks f b) :=
  decidable_of_iff (spills.LeaksInside p b ∨
    ∃ front ∈ f.front? b, (f.id, front.id) ∈ marks ∨ spills.EndsLeaking p front) Iff.rfl

end Decidable

/-! ### Sums over the blocks of a program -/

/-- What a block of a function is marked by. -/
def markOf (x : Function × Block) : Nat × Nat :=
  (x.1.id, x.2.id)

namespace Program

/-- The blocks that count, each with its function. -/
def codeBlocks (p : Program) : List (Function × Block) :=
  p.functions.elems.flatMap fun f => f.codeBlocks.map (f, ·)

/-- The weight of all blocks that satisfy a condition. -/
def totalWhere (p : Program) (weight : Block → Nat) (which : Function → Block → Prop)
    [∀ f b, Decidable (which f b)] : Nat :=
  (p.codeBlocks.map fun x => if which x.1 x.2 then weight x.2 else 0).sum

/-- The encoded size of all blocks that satisfy a condition. -/
def bytesWhere (p : Program) (which : Function → Block → Prop) [∀ f b, Decidable (which f b)] : Nat :=
  p.totalWhere Block.size which

/-- The number of blocks that satisfy a condition. -/
def countWhere (p : Program) (which : Function → Block → Prop) [∀ f b, Decidable (which f b)] : Nat :=
  p.totalWhere (fun _ => 1) which

variable {p q : Program} {weight : Block → Nat} {which which' : Function → Block → Prop}
  [∀ f b, Decidable (which f b)] [∀ f b, Decidable (which' f b)]

theorem mem_codeBlocks_iff {f : Function} {b : Block} :
    (f, b) ∈ p.codeBlocks ↔ f ∈ p.functions.elems ∧
      ∃ g, f.body = some g ∧ b ∈ g.blocks.elems ∧ b.trap = false := by
  simp only [codeBlocks, Function.codeBlocks, Function.blocks, List.mem_flatMap, List.mem_map,
    Prod.mk.injEq, List.mem_filter]
  constructor
  · rintro ⟨f, hf, b, ⟨hb, htrap⟩, rfl, rfl⟩
    cases hbody : f.body with
    | none => simp [hbody] at hb
    | some g => exact ⟨hf, g, rfl, by simpa [hbody] using hb, by simpa using htrap⟩
  · rintro ⟨hf, g, hbody, hb, htrap⟩
    exact ⟨f, hf, b, ⟨by simpa [hbody] using hb, by simpa using htrap⟩, rfl, rfl⟩

@[simp] theorem totalWhere_zero : p.totalWhere (fun _ => 0) which = 0 := by
  simp [totalWhere]

theorem totalWhere_congr (h : ∀ f b, (f, b) ∈ p.codeBlocks → (which f b ↔ which' f b)) :
    p.totalWhere weight which = p.totalWhere weight which' := by
  rw [totalWhere, totalWhere]
  congr 1
  apply List.map_congr_left
  intro x hx
  simp only [h x.1 x.2 hx]

theorem totalWhere_mono (h : ∀ f b, (f, b) ∈ p.codeBlocks → which f b → which' f b) :
    p.totalWhere weight which ≤ p.totalWhere weight which' := by
  apply List.sum_le_sum
  intro x hx
  have himp := h x.1 x.2 hx
  split <;> split <;> simp_all

/-- What satisfies one of two conditions weighs as much as what satisfies the first, and the rest. -/
theorem totalWhere_or :
    p.totalWhere weight (fun f b => which f b ∨ which' f b)
      = p.totalWhere weight which + p.totalWhere weight fun f b => which' f b ∧ ¬ which f b := by
  rw [totalWhere, totalWhere, totalWhere, ← List.sum_map_add]
  congr 1
  apply List.map_congr_left
  intro x _
  by_cases hx : which x.1 x.2 <;> simp [hx]

/-- Distinct IDs make distinct marks. -/
theorem nodup_marks (hfunctions : p.functions.ids.Nodup)
    (hblocks : ∀ f ∈ p.functions.elems, ∀ g, f.body = some g → g.blocks.ids.Nodup) :
    (p.codeBlocks.map markOf).Nodup := by
  rw [codeBlocks, List.map_flatMap, List.nodup_flatMap]
  constructor
  · intro f hf
    have hids : (f.codeBlocks.map Block.id).Nodup := by
      rw [Function.codeBlocks, Function.blocks]
      cases hbody : f.body with
      | none => exact List.nodup_nil
      | some g => exact (hblocks f hf g hbody).sublist (List.filter_sublist.map _)
    apply List.Nodup.of_map Prod.snd
    rw [List.map_map, List.map_map]
    exact hids
  · refine (List.pairwise_map.mp hfunctions).imp fun {f f'} hne x hx hx' => hne ?_
    simp only [List.map_map, List.mem_map, Function.comp_apply, markOf] at hx hx'
    obtain ⟨b, -, rfl⟩ := hx
    obtain ⟨b', -, heq⟩ := hx'
    exact (congrArg Prod.fst heq).symm

/-- The sum function by function. -/
theorem totalWhere_eq_sum :
    p.totalWhere weight which = (p.functions.elems.map fun f =>
      (f.codeBlocks.map fun b => if which f b then weight b else 0).sum).sum := by
  rw [totalWhere, codeBlocks, List.map_flatMap]
  induction p.functions.elems with
  | nil => rfl
  | cons f rest ih =>
    rw [List.flatMap_cons, List.sum_append, ih, List.map_cons, List.sum_cons, List.map_map]
    rfl

end Program

/-! ### Numbers that steps add to -/

namespace LeakageSweep

variable {p : Program} {spills : LinkSpill} {f : Function} {g : FlowGraph} {b : Block}
  {s s' : LeakageSweep}

/-- By how much a number goes up for a function, for an address that escapes, and for a block each time that
it is counted. -/
structure Weights where
  function : Nat := 0
  escape : Nat := 0
  block : Block → Nat := fun _ => 0
  escaped : Block → Nat := fun _ => 0
  returned : Block → Nat := fun _ => 0

/-- The number goes up by these weights, whichever blocks are marked. -/
structure Weights.Of (w : Weights) (number : LeakageStatistics → Nat) : Prop where
  function : ∀ s, number { s with functions := s.functions + 1 } = number s + w.function
  escape : ∀ s, number { s with functionsLeakable := s.functionsLeakable + 1 } = number s + w.escape
  block : ∀ s (b : Block),
    number { s with blocks := s.blocks + 1, codeSize := s.codeSize + b.size } = number s + w.block b
  escaped : ∀ s (b : Block),
    number { s with codeSizeViaPointer := s.codeSizeViaPointer + b.size } = number s + w.escaped b
  returned : ∀ s (b : Block), number { s with
    blocksLeakable := s.blocksLeakable + 1
    codeSizeViaReturn := s.codeSizeViaReturn + b.size } = number s + w.returned b
  marked : ∀ s n, number { s with codeSizeLeakable := n } = number s

/-- What a function adds if these are the marks at the end. -/
def Weights.ofFunction (w : Weights) (p : Program) (spills : LinkSpill) (marks : List (Nat × Nat))
    (f : Function) : Nat :=
  (if f.body.isSome = true then w.function else 0) + (f.codeBlocks.map w.block).sum +
    (if f.body.isSome = true ∧ p.addressEscapes f = true then
      w.escape + (f.codeBlocks.map w.escaped).sum else 0) +
    (f.codeBlocks.map fun b => if spills.Returned p marks f b then w.returned b else 0).sum

variable {number : LeakageStatistics → Nat} {w : Weights}

theorem Weights.Of.mark (h : w.Of number) (s : LeakageSweep) (function : Nat) (b : Block) :
    number (s.mark function b).statistics = number s.statistics := by
  rw [LeakageSweep.mark]
  split
  · rfl
  · exact h.marked ..

theorem foldl_add {step : LeakageSweep → Block → LeakageSweep} {weight : Block → Nat}
    (hstep : ∀ s b, number (step s b).statistics = number s.statistics + weight b) (blocks : List Block)
    (s : LeakageSweep) :
    number (blocks.foldl step s).statistics = number s.statistics + (blocks.map weight).sum := by
  induction blocks generalizing s with
  | nil => rfl
  | cons b rest ih => rw [List.foldl_cons, ih, hstep, List.map_cons, List.sum_cons, Nat.add_assoc]

theorem Weights.Of.markFunction (h : w.Of number) (s : LeakageSweep) (function : Nat)
    (blocks : List Block) :
    number (s.markFunction function blocks).statistics
      = number s.statistics + w.escape + (blocks.map w.escaped).sum := by
  have hstep : ∀ (s : LeakageSweep) (b : Block),
      number (markEscaped function s b).statistics = number s.statistics + w.escaped b :=
    fun s b => (h.mark ..).trans (h.escaped s.statistics b)
  rw [LeakageSweep.markFunction, foldl_add hstep, h.escape]

/-- The block in front of one is none of those that are looked at from that one on. -/
theorem id_ne_front {before behind : List Block} {front c : Block} (hids : g.blocks.ids.Nodup)
    (hsplit : g.blocks.elems.filter (fun b => !b.trap) = before ++ b :: behind)
    (hfront : g.layoutPredecessor? b.id = some front) (hc : c ∈ b :: behind) : c.id ≠ front.id := by
  obtain ⟨first, rest, hlayout, -, hrest⟩ := List.filter_eq_append_iff.mp hsplit
  obtain ⟨skipped, second, rfl, -, -, rfl⟩ := List.filter_eq_cons_iff.mp hrest
  rw [← List.append_assoc] at hlayout
  generalize first ++ skipped = done at hlayout
  have hc : c ∈ b :: second := by
    rw [List.mem_cons, List.mem_filter] at hc
    exact List.mem_cons.mpr (hc.imp_right And.left)
  obtain ⟨j, hj⟩ := List.mem_iff_getElem?.mp hc
  have hat : ∀ k, g.blocks.elems[done.length + k]? = (b :: second)[k]? := by
    intro k
    rw [hlayout, List.getElem?_append_right (Nat.le_add_right ..), Nat.add_sub_cancel_left]
  intro hid
  cases hlength : done.length with
  | zero =>
    rw [FlowGraph.layoutPredecessor?_zero hids (by simpa [hlength] using hat 0)] at hfront
    cases hfront
  | succ k =>
    have hb : g.blocks.elems[k + 1]? = some b := by simpa [hlength] using hat 0
    rw [FlowGraph.layoutPredecessor?_succ hids hb] at hfront
    have hsame := Roster.index_unique hids ((hat j).trans hj) hfront hid
    omega

/-- The answer about a block is what the marks at the end say, for the block in front has its mark by then. -/
theorem returned_iff {before behind : List Block} {answer : Bool} (hids : g.blocks.ids.Nodup)
    (hbody : f.body = some g)
    (hsplit : g.blocks.elems.filter (fun b => !b.trap) = before ++ b :: behind)
    (hrun : Steps.runAll (visitBlock p spills f g) (b :: behind) s = (s', none))
    (hanswer : isGivenAway p spills f g b s = .ok answer) :
    answer = true ↔ spills.Returned p s'.blocks f b := by
  rw [isGivenAway_eq_ok hids hanswer, LinkSpill.Returned, Function.front?, hbody, Option.bind_some]
  refine or_congr_right (exists_congr fun front => and_congr_right fun hfront => or_congr_left ?_)
  obtain ⟨hkeep, hnew⟩ := runAll_visitBlock_marks (x := (f.id, front.id)) hrun
  refine ⟨hkeep, fun hmarked => (hnew hmarked).resolve_right ?_⟩
  intro hlater
  obtain ⟨c, hc, heq⟩ := hlater
  exact id_ne_front hids hsplit hfront hc (congrArg Prod.snd heq).symm

/-- The blocks counted as given away by return addresses are those of which the marks at the end say so. -/
theorem Weights.Of.visitBlocks (h : w.Of number) (hids : g.blocks.ids.Nodup) (hbody : f.body = some g)
    {before todo : List Block}
    (hsplit : g.blocks.elems.filter (fun b => !b.trap) = before ++ todo)
    (hrun : Steps.runAll (visitBlock p spills f g) todo s = (s', none)) :
    number s'.statistics = number s.statistics +
      (todo.map fun b => if spills.Returned p s'.blocks f b then w.returned b else 0).sum := by
  apply Steps.runAll_sum (fun s => number s.statistics) hrun
  intro front b back t t' htodo hvisit hback
  obtain ⟨answer, hanswer, rfl⟩ := visitBlock_eq_ite hvisit
  rw [htodo, ← List.append_assoc] at hsplit
  have hiff := returned_iff hids hbody hsplit
    (Steps.runAll_cons_eq_none_iff.mpr ⟨_, hvisit, hback⟩) hanswer
  by_cases hreturned : spills.Returned p s'.blocks f b
  · rw [if_pos (hiff.mpr hreturned), if_pos hreturned]
    exact (h.mark ..).trans (h.returned t.statistics b)
  · rw [if_neg (mt hiff.mp hreturned), if_neg hreturned, Nat.add_zero]

/-! ### All functions -/

theorem Weights.Of.opened (h : w.Of number) (p : Program) (f : Function) (s : LeakageSweep) :
    number (opened p f s).statistics = number s.statistics + w.function + (f.codeBlocks.map w.block).sum +
      if p.addressEscapes f = true then w.escape + (f.codeBlocks.map w.escaped).sum else 0 := by
  have hcount (s : LeakageSweep) : number (f.codeBlocks.foldl countBlock s).statistics
      = number s.statistics + (f.codeBlocks.map w.block).sum :=
    foldl_add (fun s b => h.block s.statistics b) f.codeBlocks s
  rw [LeakageSweep.opened]
  split
  · rw [h.markFunction, hcount, h.function, Nat.add_assoc _ w.escape]
  · rw [hcount, h.function, Nat.add_zero]

theorem Weights.Of.visitFunction (h : w.Of number) (hids : ∀ g, f.body = some g → g.blocks.ids.Nodup)
    (hvisit : visitFunction p spills f s = (s', none)) :
    number s'.statistics = number s.statistics + w.ofFunction p spills s'.blocks f := by
  rcases visitFunction_cases hvisit with ⟨hbody, rfl⟩ | ⟨g, hbody, hrun⟩
  · simp [Weights.ofFunction, Function.codeBlocks, Function.blocks, hbody]
  · have hall : g.blocks.elems.filter (fun b => !b.trap) = [] ++ f.codeBlocks :=
      (Function.codeBlocks_eq hbody).symm
    rw [h.visitBlocks (hids g hbody) hbody hall hrun, h.opened, Weights.ofFunction]
    simp [hbody, Nat.add_assoc]

/-- The functions behind one leave its marks alone, so it has added what the marks at the end say. -/
theorem Weights.Of.visitProgram (h : w.Of number) (hfunctions : p.functions.ids.Nodup)
    (hblocks : ∀ f ∈ p.functions.elems, ∀ g, f.body = some g → g.blocks.ids.Nodup)
    (hvisit : visitProgram p spills = (s, none)) :
    number s.statistics
      = number {} + (p.functions.elems.map (w.ofFunction p spills s.blocks)).sum := by
  apply Steps.runAll_sum (fun s => number s.statistics) hvisit
  intro front f back t t' hsplit hstep hback
  have hother : f.id ∉ back.map Function.id := by
    rw [Roster.ids, hsplit, List.map_append, List.nodup_append] at hfunctions
    exact (List.nodup_cons.mp hfunctions.2.1).1
  have hreturned : ∀ b, spills.Returned p s.blocks f b ↔ spills.Returned p t'.blocks f b :=
    fun b => LinkSpill.returned_congr fun id => mem_runAll_visitFunction_of_notMem hback hother
  rw [h.visitFunction (hblocks f (by simp [hsplit])) hstep]
  simp only [Weights.ofFunction, hreturned]

/-! ### The size of what is marked -/

/-- The blocks that are marked, each one once, and the size counted for them. -/
structure Tally (p : Program) (s : LeakageSweep) (found : List (Function × Block)) : Prop where
  marks : s.blocks = found.map markOf
  nodup : s.blocks.Nodup
  code : ∀ x ∈ found, x ∈ p.codeBlocks
  size : s.statistics.codeSizeLeakable = (found.map fun x => x.2.size).sum

theorem Tally.mark {found : List (Function × Block)} (h : Tally p s found)
    (hb : (f, b) ∈ p.codeBlocks) : ∃ found, Tally p (s.mark f.id b) found := by
  rw [LeakageSweep.mark]
  split
  · exact ⟨found, h⟩
  · next hnew =>
    rw [List.contains_iff_mem] at hnew
    refine ⟨(f, b) :: found, congrArg _ h.marks, List.nodup_cons.mpr ⟨hnew, h.nodup⟩, ?_, ?_⟩
    · exact List.forall_mem_cons.mpr ⟨hb, h.code⟩
    · rw [List.map_cons, List.sum_cons, h.size, Nat.add_comm]

theorem Tally.foldl {step : LeakageSweep → Block → LeakageSweep} {blocks : List Block}
    (h : ∃ found, Tally p s found)
    (hstep : ∀ b ∈ blocks, ∀ s found, Tally p s found → ∃ found, Tally p (step s b) found) :
    ∃ found, Tally p (blocks.foldl step s) found := by
  induction blocks generalizing s with
  | nil => exact h
  | cons b rest ih =>
    obtain ⟨found, h⟩ := h
    exact ih (hstep b List.mem_cons_self s found h) fun c hc => hstep c (List.mem_cons_of_mem _ hc)

theorem Tally.opened {found : List (Function × Block)} (h : Tally p s found)
    (hcode : ∀ b ∈ f.codeBlocks, (f, b) ∈ p.codeBlocks) : ∃ found, Tally p (opened p f s) found := by
  have hcounted : ∃ found, Tally p (f.codeBlocks.foldl countBlock
      { s with
        statistics := { s.statistics with functions := s.statistics.functions + 1 }
        warnings := s.warnings + p.escapeWarnings f }) found :=
    Tally.foldl ⟨found, h.marks, h.nodup, h.code, h.size⟩
      fun b _ t found ht => ⟨found, ht.marks, ht.nodup, ht.code, ht.size⟩
  rw [LeakageSweep.opened]
  split
  · obtain ⟨found, hcounted⟩ := hcounted
    refine Tally.foldl ⟨found, hcounted.marks, hcounted.nodup, hcounted.code, hcounted.size⟩ ?_
    intro b hb t found ht
    exact Tally.mark ⟨ht.marks, ht.nodup, ht.code, ht.size⟩ (hcode b hb)
  · exact hcounted

theorem Tally.visitFunction {found : List (Function × Block)} (h : Tally p s found)
    (hf : f ∈ p.functions.elems) (hvisit : visitFunction p spills f s = (s', none)) :
    ∃ found, Tally p s' found := by
  rcases visitFunction_cases hvisit with ⟨-, rfl⟩ | ⟨g, hbody, hrun⟩
  · exact ⟨found, h⟩
  · have hcode : ∀ b ∈ f.codeBlocks, (f, b) ∈ p.codeBlocks := fun b hb =>
      List.mem_flatMap.mpr ⟨f, hf, List.mem_map_of_mem hb⟩
    refine Steps.runAll_induction hrun (P := fun t => ∃ found, Tally p t found) (h.opened hcode) ?_
    intro b hb t t' hstep ht
    obtain ⟨found, ht⟩ := ht
    obtain ⟨answer, -, rfl⟩ := visitBlock_eq_ite hstep
    split
    · exact Tally.mark ⟨ht.marks, ht.nodup, ht.code, ht.size⟩ (hcode b hb)
    · exact ⟨found, ht⟩

theorem exists_tally (hvisit : visitProgram p spills = (s, none)) : ∃ found, Tally p s found :=
  Steps.runAll_induction hvisit (P := fun t => ∃ found, Tally p t found)
    ⟨[], rfl, List.nodup_nil, by simp, rfl⟩
    fun _ hf _ _ hstep ⟨_, h⟩ => h.visitFunction hf hstep

/-- Up to their order, the blocks found are those of the program that are marked. -/
theorem Tally.perm {found : List (Function × Block)} (h : Tally p s found)
    (hmarks : (p.codeBlocks.map markOf).Nodup) :
    found.Perm (p.codeBlocks.filter fun x => s.blocks.contains (markOf x)) := by
  have hfound : found.Nodup := List.Nodup.of_map markOf (h.marks ▸ h.nodup)
  rw [List.perm_ext_iff_of_nodup hfound ((List.Nodup.of_map markOf hmarks).filter _)]
  intro x
  rw [List.mem_filter, List.contains_iff_mem, h.marks, List.mem_map]
  constructor
  · exact fun hx => ⟨h.code x hx, x, hx, rfl⟩
  · intro hparts
    obtain ⟨hx, y, hy, heq⟩ := hparts
    exact List.inj_on_of_nodup_map hmarks (h.code y hy) hx heq ▸ hy

/-! ### The numbers at the end -/

theorem sum_map_filter {α : Type} (keep : α → Bool) (weight : α → Nat) (xs : List α) :
    ((xs.filter keep).map weight).sum = (xs.map fun x => if keep x = true then weight x else 0).sum := by
  induction xs with
  | nil => rfl
  | cons x rest ih => cases hx : keep x <;> simp [hx, ih]

theorem sum_map_ite {α : Type} (keep : α → Bool) (xs : List α) :
    (xs.map fun x => if keep x = true then 1 else 0).sum = xs.countP keep := by
  rw [← sum_map_filter, List.countP_eq_length_filter]
  simp

theorem Tally.sum_eq {found : List (Function × Block)} (h : Tally p s found)
    (hmarks : (p.codeBlocks.map markOf).Nodup) (weight : Block → Nat) :
    (found.map fun x => weight x.2).sum
      = p.totalWhere weight fun f b => (f.id, b.id) ∈ s.blocks := by
  rw [((h.perm hmarks).map _).sum_eq, sum_map_filter]
  simp only [List.contains_iff_mem]
  rfl

/-- A number at the end, as a sum over the functions and sums over the blocks. -/
theorem Weights.Of.eq_totals (h : w.Of number) (hfunctions : p.functions.ids.Nodup)
    (hblocks : ∀ f ∈ p.functions.elems, ∀ g, f.body = some g → g.blocks.ids.Nodup)
    (hvisit : LeakageSweep.visitProgram p spills = (s, none)) :
    number s.statistics = number {} +
      ((p.functions.elems.map fun f =>
          (if f.body.isSome = true then w.function else 0) +
            if f.body.isSome = true ∧ p.addressEscapes f = true then w.escape else 0).sum +
        (p.totalWhere w.block (fun _ _ => True) +
          p.totalWhere w.escaped (fun f _ => p.addressEscapes f = true) +
          p.totalWhere w.returned (spills.Returned p s.blocks))) := by
  rw [h.visitProgram hfunctions hblocks hvisit, Program.totalWhere_eq_sum, Program.totalWhere_eq_sum,
    Program.totalWhere_eq_sum, ← List.sum_map_add, ← List.sum_map_add, ← List.sum_map_add]
  congr 2
  apply List.map_congr_left
  intro f _
  rw [Weights.ofFunction]
  have hescaped : (if f.body.isSome = true ∧ p.addressEscapes f = true then
      w.escape + (f.codeBlocks.map w.escaped).sum else 0)
      = (if f.body.isSome = true ∧ p.addressEscapes f = true then w.escape else 0) +
        (f.codeBlocks.map fun b => if p.addressEscapes f = true then w.escaped b else 0).sum := by
    cases hbody : f.body with
    | none => simp [Function.codeBlocks, Function.blocks, hbody]
    | some g => by_cases hescapes : p.addressEscapes f = true <;> simp [hescapes]
  have hall : (f.codeBlocks.map fun b => if True then w.block b else 0) = f.codeBlocks.map w.block := by
    simp
  rw [hescaped, hall]
  omega

/-- All numbers at the end. -/
theorem statistics_visitProgram (hfunctions : p.functions.ids.Nodup)
    (hblocks : ∀ f ∈ p.functions.elems, ∀ g, f.body = some g → g.blocks.ids.Nodup)
    (hvisit : visitProgram p spills = (s, none)) :
    s.statistics = {
      codeSize := p.bytesWhere fun _ _ => True
      codeSizeLeakable := p.bytesWhere fun f b => (f.id, b.id) ∈ s.blocks
      codeSizeViaPointer := p.bytesWhere fun f _ => p.addressEscapes f = true
      codeSizeViaReturn := p.bytesWhere (spills.Returned p s.blocks)
      functions := p.functions.elems.countP fun f => f.body.isSome
      functionsLeakable := p.functions.elems.countP fun f => f.body.isSome && p.addressEscapes f
      blocks := p.countWhere fun _ _ => True
      blocksLeakable := p.countWhere (spills.Returned p s.blocks) } := by
  have htotal (number : LeakageStatistics → Nat) (w : Weights) (h : w.Of number) :=
    h.eq_totals hfunctions hblocks hvisit
  have hcodeSize : s.statistics.codeSize = p.bytesWhere fun _ _ => True := by
    simpa [Program.bytesWhere] using
      htotal LeakageStatistics.codeSize { block := Block.size }
        (by constructor <;> intros <;> rfl)
  have hviaPointer : s.statistics.codeSizeViaPointer
      = p.bytesWhere fun f _ => p.addressEscapes f = true := by
    simpa [Program.bytesWhere] using
      htotal LeakageStatistics.codeSizeViaPointer { escaped := Block.size }
        (by constructor <;> intros <;> rfl)
  have hviaReturn : s.statistics.codeSizeViaReturn = p.bytesWhere (spills.Returned p s.blocks) := by
    simpa [Program.bytesWhere] using
      htotal LeakageStatistics.codeSizeViaReturn { returned := Block.size }
        (by constructor <;> intros <;> rfl)
  have hcount : s.statistics.functions = p.functions.elems.countP fun f => f.body.isSome := by
    simpa [sum_map_ite] using
      htotal LeakageStatistics.functions { function := 1 }
        (by constructor <;> intros <;> rfl)
  have hescaping : s.statistics.functionsLeakable
      = p.functions.elems.countP fun f => f.body.isSome && p.addressEscapes f := by
    simpa [← sum_map_ite] using
      htotal LeakageStatistics.functionsLeakable { escape := 1 }
        (by constructor <;> intros <;> rfl)
  have hblockCount : s.statistics.blocks = p.countWhere fun _ _ => True := by
    simpa [Program.countWhere] using
      htotal LeakageStatistics.blocks { block := fun _ => 1 }
        (by constructor <;> intros <;> rfl)
  have hreturned : s.statistics.blocksLeakable = p.countWhere (spills.Returned p s.blocks) := by
    simpa [Program.countWhere] using
      htotal LeakageStatistics.blocksLeakable { returned := fun _ => 1 }
        (by constructor <;> intros <;> rfl)
  obtain ⟨found, hfound⟩ := exists_tally hvisit
  have hmarked : s.statistics.codeSizeLeakable = p.bytesWhere fun f b => (f.id, b.id) ∈ s.blocks :=
    hfound.size.trans (hfound.sum_eq (Program.nodup_marks hfunctions hblocks) Block.size)
  rw [← hcodeSize, ← hmarked, ← hviaPointer, ← hviaReturn, ← hcount, ← hescaping, ← hblockCount,
    ← hreturned]

end LeakageSweep
end ThumbHardening
