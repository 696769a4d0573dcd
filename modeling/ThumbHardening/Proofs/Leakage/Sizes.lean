import ThumbHardening.Proofs.Leakage.Totals
import Mathlib.Data.Set.Card

/-!
# Leakable code, each block counted once

A block is leakable if the address of its function escapes or if a return address gives it away. Where both
hold, its size is in both of the sizes via one channel, and once in the size of all leakable code. The number
of leakable blocks goes up with the size via return addresses, so blocks that only the address of their
function makes leakable are missing in it.
-/

namespace ThumbHardening

/-- The block stands behind one that is no trap. -/
def Function.FollowsCode (f : Function) (b : Block) : Prop :=
  ∃ front, f.front? b = some front ∧ front.trap = false

instance (f : Function) (b : Block) : Decidable (f.FollowsCode b) :=
  decidable_of_iff (∃ front ∈ f.front? b, front.trap = false) Iff.rfl

namespace LeakageSweep

variable {p : Program} {spills : LinkSpill} {f : Function} {g : FlowGraph} {b : Block}
  {s s' : LeakageSweep}

/-! ### The functions found -/

theorem found_mark (s : LeakageSweep) (function : Nat) (b : Block) :
    (s.mark function b).functions = s.functions := by
  rw [mark]
  split <;> rfl

theorem found_markFunction (s : LeakageSweep) (function : Nat) (blocks : List Block) :
    (s.markFunction function blocks).functions = function :: s.functions := by
  rw [markFunction, foldl_keeps LeakageSweep.functions]
  exact fun _ _ => found_mark ..

theorem found_opened (p : Program) (f : Function) (s : LeakageSweep) :
    (opened p f s).functions
      = if p.addressEscapes f = true then f.id :: s.functions else s.functions := by
  have hcount (s : LeakageSweep) : (f.codeBlocks.foldl countBlock s).functions = s.functions := by
    apply foldl_keeps LeakageSweep.functions
    exact fun _ _ => rfl
  rw [opened]
  split
  · rw [found_markFunction, hcount]
  · rw [hcount]

theorem found_visitFunction (hvisit : visitFunction p spills f s = (s', none)) :
    s'.functions
      = if f.body.isSome = true ∧ p.addressEscapes f = true then f.id :: s.functions
        else s.functions := by
  rcases visitFunction_cases hvisit with ⟨hbody, rfl⟩ | ⟨g, hbody, hrun⟩
  · simp [hbody]
  · simp only [hbody, Option.isSome_some, true_and]
    refine Steps.runAll_induction hrun (P := fun t => t.functions = _) (found_opened p f s) ?_
    intro b _ t t' hstep ht
    obtain ⟨answer, -, rfl⟩ := visitBlock_eq_ite hstep
    split
    · exact (found_mark ..).trans ht
    · exact ht

/-- The functions found are those with a body whose address escapes. -/
theorem mem_found_iff {id : Nat} (hvisit : visitProgram p spills = (s, none)) :
    id ∈ s.functions ↔
      ∃ f ∈ p.functions.elems, f.id = id ∧ f.body.isSome = true ∧ p.addressEscapes f = true := by
  have hrun : ∀ (functions : List Function) (t : LeakageSweep),
      Steps.runAll (visitFunction p spills) functions t = (s, none) →
      (id ∈ s.functions ↔ id ∈ t.functions ∨
        ∃ f ∈ functions, f.id = id ∧ f.body.isSome = true ∧ p.addressEscapes f = true) := by
    intro functions
    induction functions with
    | nil =>
      intro t hrun
      cases hrun
      simp
    | cons f rest ih =>
      intro t hrun
      obtain ⟨u, hstep, hrest⟩ := Steps.runAll_cons_eq_none_iff.mp hrun
      rw [ih u hrest, found_visitFunction hstep]
      by_cases hfound : f.body.isSome = true ∧ p.addressEscapes f = true
      · rw [if_pos hfound, List.mem_cons, List.exists_mem_cons_iff, and_iff_left hfound, eq_comm,
          or_assoc, or_left_comm]
      · rw [if_neg hfound]
        simp [hfound]
  simpa using hrun p.functions.elems {} hvisit

theorem mem_found_code_iff (hfunctions : p.functions.ids.Nodup)
    (hvisit : visitProgram p spills = (s, none)) (hx : (f, b) ∈ p.codeBlocks) :
    f.id ∈ s.functions ↔ p.addressEscapes f = true := by
  obtain ⟨hf, g, hbody, -⟩ := Program.mem_codeBlocks_iff.mp hx
  rw [mem_found_iff hvisit]
  constructor
  · intro hparts
    obtain ⟨f', hf', hid, -, hescapes⟩ := hparts
    exact Roster.eq_of_id_eq hfunctions hf' hf hid ▸ hescapes
  · exact fun hescapes => ⟨f, hf, rfl, by simp [hbody], hescapes⟩

/-! ### The blocks marked -/

section Marks

variable (hfunctions : p.functions.ids.Nodup)
  (hblocks : ∀ f ∈ p.functions.elems, ∀ g, f.body = some g → g.blocks.ids.Nodup)
  (hvisit : visitProgram p spills = (s, none))
include hfunctions hblocks hvisit

/-- A mark from an address that escapes is handed on like one from a return address, so then all blocks
behind code count for the return addresses. -/
theorem returned_at_iff {k : Nat} (hf : f ∈ p.functions.elems) (hbody : f.body = some g)
    (hb : g.blocks.elems[k]? = some b) (htrap : b.trap = false) :
    spills.Returned p s.blocks f b ↔
      spills.GivenAway p g.blocks.elems k ∨ p.addressEscapes f = true ∧ f.FollowsCode b := by
  have hids := hblocks f hf g hbody
  rw [LinkSpill.Returned, LinkSpill.givenAway_iff hb, and_iff_right htrap, Function.FollowsCode,
    Function.front?, hbody, Option.bind_some]
  cases k with
  | zero => simp [FlowGraph.layoutPredecessor?_zero hids hb]
  | succ m =>
    obtain ⟨front, hfront⟩ : ∃ front, g.blocks.elems[m]? = some front := by
      have hlt := (List.getElem?_eq_some_iff.mp hb).1
      exact ⟨_, List.getElem?_eq_getElem (Nat.lt_of_succ_lt hlt)⟩
    have hmarked := mem_blocks_at_iff hfunctions hblocks hvisit hf hbody hfront
    have hruns : spills.GivenAway p g.blocks.elems m → front.trap = false :=
      fun hgiven => ((LinkSpill.givenAway_iff hfront).mp hgiven).1
    have hsource : (∃ n c, m + 1 = n + 1 ∧ g.blocks.elems[n]? = some c ∧
        (spills.GivenAway p g.blocks.elems n ∨ spills.EndsLeaking p c)) ↔
        spills.GivenAway p g.blocks.elems m ∨ spills.EndsLeaking p front := by
      simp [hfront]
    rw [FlowGraph.layoutPredecessor?_succ hids hb, hfront, hsource]
    simp only [Option.some.injEq, exists_eq_left', hmarked]
    by_cases hescapes : p.addressEscapes f = true
    · rw [if_pos hescapes, and_iff_right hescapes]
      constructor
      · rintro (hinside | hcode | hends)
        · exact .inl (.inl hinside)
        · exact .inr hcode
        · exact .inl (.inr (.inr hends))
      · rintro ((hinside | hgiven | hends) | hcode)
        · exact .inl hinside
        · exact .inr (.inl (hruns hgiven))
        · exact .inr (.inr hends)
        · exact .inr (.inl hcode)
    · rw [if_neg hescapes]
      exact (or_iff_left fun hcode => hescapes hcode.1).symm

/-- A block is marked if one of the channels leads to it. -/
theorem mem_blocks_iff_returned (hx : (f, b) ∈ p.codeBlocks) :
    (f.id, b.id) ∈ s.blocks ↔ p.addressEscapes f = true ∨ spills.Returned p s.blocks f b := by
  obtain ⟨hf, g, hbody, hmem, htrap⟩ := Program.mem_codeBlocks_iff.mp hx
  obtain ⟨k, hb⟩ := List.mem_iff_getElem?.mp hmem
  rw [mem_blocks_at_iff hfunctions hblocks hvisit hf hbody hb,
    returned_at_iff hfunctions hblocks hvisit hf hbody hb htrap]
  by_cases hescapes : p.addressEscapes f = true <;> simp [hescapes, htrap]

/-- The marks are as many as the blocks marked. -/
theorem length_blocks : s.blocks.length = p.countWhere fun f b => (f.id, b.id) ∈ s.blocks := by
  obtain ⟨found, hfound⟩ := exists_tally hvisit
  have hlength : s.blocks.length = found.length := by rw [hfound.marks, List.length_map]
  rw [hlength, Program.countWhere, ← hfound.sum_eq (Program.nodup_marks hfunctions hblocks)]
  simp

end Marks

theorem nodup_blocks (hvisit : visitProgram p spills = (s, none)) : s.blocks.Nodup := by
  obtain ⟨found, hfound⟩ := exists_tally hvisit
  exact hfound.nodup

end LeakageSweep

theorem Program.countWhere_eq_zero_iff {p : Program} {which : Function → Block → Prop}
    [∀ f b, Decidable (which f b)] :
    p.countWhere which = 0 ↔ ∀ f b, (f, b) ∈ p.codeBlocks → ¬ which f b := by
  simp only [countWhere, totalWhere, List.sum_eq_zero_iff, List.forall_mem_map, Prod.forall,
    ite_eq_right_iff, one_ne_zero, imp_false]

/-! ### The results of a run -/

namespace LeakageAnalysis

/-- The numbers of the last run, those before or after hardening. -/
def numbers (a : LeakageAnalysis) : LeakageStatistics :=
  if a.postHardening then a.statistics.after else a.statistics.before

variable {a : LeakageAnalysis} {p : Program} {spills : LinkSpill} {s : LeakageSweep} {changed : Bool}

/-- The blocks that the last run found leakable, each with its function. -/
def leakablePairs (a : LeakageAnalysis) : Set (Nat × Nat) :=
  {x | a.isLeakableBlock x.1 x.2 = true}

theorem ncard_leakablePairs (hnodup : a.leakableBlocks.Nodup) :
    a.leakablePairs.ncard = a.leakableBlocks.length := by
  rw [← List.toFinset_card_of_nodup hnodup, ← Set.ncard_coe_finset, List.coe_toFinset, leakablePairs]
  simp only [isLeakableBlock, List.contains_iff_mem]

theorem numbers_run (hspills : LinkSpill.compute p = .ok spills)
    (hvisit : LeakageSweep.visitProgram p spills = (s, none)) :
    (a.run p).pass.numbers = s.statistics := by
  rw [run_eq hspills hvisit, numbers, place]
  split <;> rfl

theorem isLeakableFunction_run_iff (hspills : LinkSpill.compute p = .ok spills)
    (hvisit : LeakageSweep.visitProgram p spills = (s, none)) {function : Nat} :
    (a.run p).pass.isLeakableFunction function = true ↔ function ∈ s.functions := by
  rw [run_eq hspills hvisit, isLeakableFunction, List.contains_iff_mem]

/-- The sizes add up what the analysis says about blocks and functions, and each leakable block counts once,
whichever channels lead to it. -/
structure Sized (a : LeakageAnalysis) (p : Program) : Prop where
  code : a.numbers.codeSize = p.bytesWhere fun _ _ => True
  leakable : a.numbers.codeSizeLeakable
    = p.bytesWhere fun f b => a.isLeakableBlock f.id b.id = true
  viaPointer : a.numbers.codeSizeViaPointer
    = p.bytesWhere fun f _ => a.isLeakableFunction f.id = true
  channels_le : max a.numbers.codeSizeViaPointer a.numbers.codeSizeViaReturn
    ≤ a.numbers.codeSizeLeakable
  le_channels : a.numbers.codeSizeLeakable
    ≤ min a.numbers.codeSize (a.numbers.codeSizeViaPointer + a.numbers.codeSizeViaReturn)

/-- With distinct IDs, a successful run sizes the leakable code block by block. All its numbers are those before
hardening or those after it, as the analysis is told, the others are zero, and what earlier runs have found
has no part in the results. -/
theorem run_sized (hfunctions : p.functions.ids.Nodup)
    (hblocks : ∀ f ∈ p.functions.elems, ∀ g, f.body = some g → g.blocks.ids.Nodup)
    (hok : (a.run p).outcome = .ok changed) :
    (a.run p).pass.Sized p ∧
      (a.run p).pass.statistics = (if a.postHardening = true
        then { before := {}, after := (a.run p).pass.numbers }
        else { before := (a.run p).pass.numbers, after := {} }) ∧
      ∀ earlier : LeakageAnalysis, earlier.postHardening = a.postHardening →
        earlier.run p = a.run p := by
  obtain ⟨spills, s, hspills, hvisit⟩ := visitProgram_of_run hok
  have hnumbers : (a.run p).pass.numbers = s.statistics := numbers_run hspills hvisit
  have htotals := LeakageSweep.statistics_visitProgram hfunctions hblocks hvisit
  have hcode : (a.run p).pass.numbers.codeSize = p.bytesWhere fun _ _ => True := by
    rw [hnumbers, htotals]
  have hleakable : (a.run p).pass.numbers.codeSizeLeakable
      = p.bytesWhere fun f b => (f.id, b.id) ∈ s.blocks := by
    rw [hnumbers, htotals]
  have hpointer : (a.run p).pass.numbers.codeSizeViaPointer
      = p.bytesWhere fun f _ => p.addressEscapes f = true := by
    rw [hnumbers, htotals]
  have hreturn : (a.run p).pass.numbers.codeSizeViaReturn
      = p.bytesWhere (spills.Returned p s.blocks) := by
    rw [hnumbers, htotals]
  have hmarked {f : Function} {b : Block} (hx : (f, b) ∈ p.codeBlocks) :=
    LeakageSweep.mem_blocks_iff_returned hfunctions hblocks hvisit hx
  refine ⟨⟨hcode, ?_, ?_, ?_, ?_⟩, ?_, ?_⟩
  · simp only [hleakable, isLeakableBlock_run_iff hspills hvisit]
  · rw [hpointer]
    apply Program.totalWhere_congr
    intro f b hx
    rw [isLeakableFunction_run_iff hspills hvisit, LeakageSweep.mem_found_code_iff hfunctions hvisit hx]
  · rw [hpointer, hreturn, hleakable]
    apply max_le
    · exact Program.totalWhere_mono fun f b hx hescapes => (hmarked hx).mpr (.inl hescapes)
    · exact Program.totalWhere_mono fun f b hx hreturned => (hmarked hx).mpr (.inr hreturned)
  · rw [hleakable, hcode, hpointer, hreturn]
    apply le_min
    · exact Program.totalWhere_mono fun _ _ _ _ => trivial
    · calc p.bytesWhere (fun f b => (f.id, b.id) ∈ s.blocks)
          = p.bytesWhere fun f b => p.addressEscapes f = true ∨ spills.Returned p s.blocks f b :=
            Program.totalWhere_congr fun f b hx => hmarked hx
        _ = p.bytesWhere (fun f _ => p.addressEscapes f = true) +
              p.bytesWhere fun f b => spills.Returned p s.blocks f b ∧ ¬ p.addressEscapes f = true :=
            Program.totalWhere_or
        _ ≤ p.bytesWhere (fun f _ => p.addressEscapes f = true) +
              p.bytesWhere (spills.Returned p s.blocks) :=
            Nat.add_le_add_left (Program.totalWhere_mono fun _ _ _ hparts => hparts.1) _
  · rw [hnumbers, run_eq hspills hvisit, place]
  · intro earlier hside
    rw [run_eq hspills hvisit, run_eq hspills hvisit, place, place, hside]

/-- A function that calls nothing, of two blocks. -/
def handlerFunction (addressTaken : Bool) : Function :=
  { id := 1, name := "handler", addressTaken, calleeSaved := some []
    body := some
      { blocks := (({} : Roster Block).insert (.ofCode [.nop])).insert (.ofCode [.ret])
        entry := 1 } }

/-- A program with that function and one that calls out of it. The address of the handler is stored or not used
at all. -/
def callbackProgram (stored : Bool) : Program :=
  let empty : Program := (Program.new 4).toOption.getD { pointerSize := 4 }
  let handler := ((empty.addFunction (handlerFunction stored)).toOption.map Prod.fst).getD empty
  let both := ((handler.addFunction { outwardCaller with id := 0 }).toOption.map Prod.fst).getD handler
  if stored then { both with values := both.values.add .store [2] } else both

theorem nodup_callbackProgram (stored : Bool) :
    (callbackProgram stored).functions.ids.Nodup ∧ ∀ f ∈ (callbackProgram stored).functions.elems,
      ∀ g, f.body = some g → g.blocks.ids.Nodup := by
  constructor
  · cases stored <;> decide +kernel
  · intro f hf g hbody
    have hall : ∀ f ∈ (callbackProgram stored).functions.elems,
        ((f.body.getD {}).blocks.ids.Nodup) := by
      cases stored <;> decide +kernel
    simpa [hbody] using hall f hf

/-- The handler leaks by its address, and its second block and one of the caller by return addresses. -/
theorem run_sized_callbackProgram :
    ((run { postHardening := true } (callbackProgram true)).pass.Sized (callbackProgram true)) ∧
      (run { postHardening := true } (callbackProgram true)).pass.statistics
        = { after := (run { postHardening := true } (callbackProgram true)).pass.numbers } ∧
      (run { postHardening := true, leakableBlocks := [(2, 4)] } (callbackProgram true))
        = run { postHardening := true } (callbackProgram true) := by
  obtain ⟨hfunctions, hblocks⟩ := nodup_callbackProgram true
  have hok : (run { postHardening := true } (callbackProgram true)).outcome = .ok false := rfl
  obtain ⟨hsized, hstatistics, hearlier⟩ := run_sized hfunctions hblocks hok
  exact ⟨hsized, hstatistics, hearlier _ rfl⟩

example : (run { postHardening := true } (callbackProgram true)).pass.numbers =
    { codeSize := 14, codeSizeLeakable := 8, codeSizeViaPointer := 4, codeSizeViaReturn := 6
      functions := 2, functionsLeakable := 1, blocks := 5, blocksLeakable := 2 } := by
  decide +kernel

/-- The number of leakable blocks counts those that return addresses give away, the same ones that make up the
size via return addresses. All of them are leakable. The leakable blocks that are missing belong to functions
whose address escapes, so the number is that of all leakable blocks exactly if return addresses give away all
blocks of these functions. -/
theorem run_blocksLeakable (hfunctions : p.functions.ids.Nodup)
    (hblocks : ∀ f ∈ p.functions.elems, ∀ g, f.body = some g → g.blocks.ids.Nodup)
    (hok : (a.run p).outcome = .ok changed) :
    ∃ spills, LinkSpill.compute p = .ok spills ∧
      (a.run p).pass.numbers.blocksLeakable
        = p.countWhere (spills.Returned p (a.run p).pass.leakableBlocks) ∧
      (a.run p).pass.numbers.codeSizeViaReturn
        = p.bytesWhere (spills.Returned p (a.run p).pass.leakableBlocks) ∧
      (∀ f b, (f, b) ∈ p.codeBlocks → spills.Returned p (a.run p).pass.leakableBlocks f b →
        (a.run p).pass.isLeakableBlock f.id b.id = true) ∧
      (a.run p).pass.leakablePairs.ncard
        = (a.run p).pass.numbers.blocksLeakable +
          p.countWhere (fun f b => (a.run p).pass.isLeakableFunction f.id = true ∧
            ¬ spills.Returned p (a.run p).pass.leakableBlocks f b) ∧
      ((a.run p).pass.numbers.blocksLeakable
          = (a.run p).pass.leakablePairs.ncard ↔
        ∀ f b, (f, b) ∈ p.codeBlocks → (a.run p).pass.isLeakableFunction f.id = true →
          spills.Returned p (a.run p).pass.leakableBlocks f b) := by
  obtain ⟨spills, s, hspills, hvisit⟩ := visitProgram_of_run hok
  have hnumbers : (a.run p).pass.numbers = s.statistics := numbers_run hspills hvisit
  have hmarks : (a.run p).pass.leakableBlocks = s.blocks := by rw [run_eq hspills hvisit]
  have htotals := LeakageSweep.statistics_visitProgram hfunctions hblocks hvisit
  have hmarked {f : Function} {b : Block} (hx : (f, b) ∈ p.codeBlocks) :=
    LeakageSweep.mem_blocks_iff_returned hfunctions hblocks hvisit hx
  have hcount : (a.run p).pass.numbers.blocksLeakable
      = p.countWhere (spills.Returned p (a.run p).pass.leakableBlocks) := by
    rw [hnumbers, htotals, hmarks]
  have hreturn : (a.run p).pass.numbers.codeSizeViaReturn
      = p.bytesWhere (spills.Returned p (a.run p).pass.leakableBlocks) := by
    rw [hnumbers, htotals, hmarks]
  have hall : (a.run p).pass.leakablePairs.ncard
      = (a.run p).pass.numbers.blocksLeakable +
        p.countWhere fun f b => (a.run p).pass.isLeakableFunction f.id = true ∧
          ¬ spills.Returned p (a.run p).pass.leakableBlocks f b := by
    have hnodup : (a.run p).pass.leakableBlocks.Nodup := hmarks ▸ LeakageSweep.nodup_blocks hvisit
    rw [ncard_leakablePairs hnodup, hcount, hmarks,
      LeakageSweep.length_blocks hfunctions hblocks hvisit]
    calc p.countWhere (fun f b => (f.id, b.id) ∈ s.blocks)
        = p.countWhere fun f b => spills.Returned p s.blocks f b ∨
            (a.run p).pass.isLeakableFunction f.id = true := by
          apply Program.totalWhere_congr
          intro f b hx
          rw [hmarked hx, isLeakableFunction_run_iff hspills hvisit,
            LeakageSweep.mem_found_code_iff hfunctions hvisit hx, or_comm]
      _ = _ := Program.totalWhere_or
  refine ⟨spills, hspills, hcount, hreturn, ?_, hall, ?_⟩
  · intro f b hx hreturned
    rw [isLeakableBlock_run_iff hspills hvisit]
    exact (hmarked hx).mpr (.inr (hmarks ▸ hreturned))
  · rw [hall, left_eq_add, Program.countWhere_eq_zero_iff]
    simp only [not_and, not_not]

/-- Three blocks are leakable, and two are counted. -/
theorem run_blocksLeakable_callbackProgram :
    (run { postHardening := false } (callbackProgram true)).pass.numbers.blocksLeakable = 2 ∧
      (run { postHardening := false } (callbackProgram true)).pass.leakablePairs.ncard = 3 := by
  obtain ⟨hfunctions, hblocks⟩ := nodup_callbackProgram true
  have hok : (run { postHardening := false } (callbackProgram true)).outcome = .ok false := rfl
  have hcompute : LinkSpill.compute (callbackProgram true) = .ok { known := [1, 2], spilling := [] } :=
    rfl
  obtain ⟨spills, hspills, -, -, -, hall, -⟩ := run_blocksLeakable hfunctions hblocks hok
  rw [hcompute, Except.ok.injEq] at hspills
  subst hspills
  rw [hall]
  decide +kernel

/-- The count of leakable blocks is not the number of blocks found leakable. -/
theorem not_blocksLeakable_eq_ncard :
    ¬ ∀ (a : LeakageAnalysis) (p : Program) (changed : Bool), p.functions.ids.Nodup →
      (∀ f ∈ p.functions.elems, ∀ g, f.body = some g → g.blocks.ids.Nodup) →
      (a.run p).outcome = .ok changed →
      (a.run p).pass.numbers.blocksLeakable = (a.run p).pass.leakablePairs.ncard := by
  intro hclaim
  obtain ⟨hfunctions, hblocks⟩ := nodup_callbackProgram true
  have hequal := hclaim { postHardening := false } (callbackProgram true) false hfunctions hblocks rfl
  rw [ncard_leakablePairs (by decide +kernel)] at hequal
  revert hequal
  decide +kernel

end LeakageAnalysis
end ThumbHardening
