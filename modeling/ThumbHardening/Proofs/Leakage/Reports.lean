import ThumbHardening.Proofs.Leakage.Leakable
import ThumbHardening.Proofs.Leakage.Profile
import ThumbHardening.Proofs.Leakage.TailCalls
import ThumbHardening.Proofs.Leakage.Totals

/-!
# Calls without a target

The analysis reports a call or a tail call whose target it cannot tell, that is, one that names neither a
function of the program nor code outside. All tail calls are read before anything else, so those are always
reported. The calls are only read as long as they may decide whether a block is leakable: not those behind a
call in the same block that leaks, and none in a block that the one in front of it gives away. Here is told
which blocks make the analysis give up.
-/

namespace ThumbHardening

variable {p : Program} {spills : LinkSpill} {i : Instr} {b : Block} {name : String}

/-! ### One call -/

/-- That the first operand of a call is a name outside of the program or a symbol that stands for a
function. -/
def Program.HasTarget (p : Program) (i : Instr) : Prop :=
  (∃ name rest, i.operands = .external name :: rest) ∨
    ∃ symbol offset part rest id, i.operands = .symbol symbol offset part :: rest ∧
      p.resolveFunction symbol = .ok id

/-- That an instruction is a call, or a tail call, without a target. -/
def Program.Malformed (p : Program) (opcode : Opcode) (i : Instr) : Prop :=
  i.opcode = opcode ∧ ¬ p.HasTarget i

theorem hasTarget_iff (name : String) : p.HasTarget i ↔ ∃ target, p.callTarget name i = .ok target := by
  rw [Program.HasTarget, Program.callTarget]
  split
  · next symbol offset part rest hoperands =>
    rw [hoperands]
    cases hresolve : p.resolveFunction symbol <;> simp [hresolve]
  · next hoperands => simp [hoperands]
  · next hsymbol hexternal =>
    simp only [reduceCtorEq, exists_false, iff_false]
    rintro (⟨name, rest, hoperands⟩ | ⟨symbol, offset, part, rest, -, hoperands, -⟩)
    · exact hexternal name rest hoperands
    · exact hsymbol symbol offset part rest hoperands

theorem not_knowsTarget_iff : ¬ p.KnowsTarget i ↔ p.Malformed .tailCall i := by
  rw [Program.KnowsTarget, Classical.not_imp, Program.Malformed]
  refine and_congr_right fun hopcode => not_congr ?_
  have hcallee : i.tailCallee? = i.operands.head?.bind Operand.callee? := by
    simp [Instr.tailCallee?, hopcode]
  rw [hcallee, ← TailCalls.exists_callTarget_iff "", ← hasTarget_iff]

/-- There is no answer about a call if and only if the call has no target. -/
theorem callLeaks_fails_iff :
    (∃ e, p.callLeaks spills name i = .error e) ↔ p.Malformed .call i := by
  rw [Program.callLeaks, Program.Malformed, hasTarget_iff name]
  split
  · next hopcode =>
    rw [and_iff_right hopcode]
    cases p.callTarget name i <;> simp [Except.map]
  · next hopcode => simp [hopcode]
  · next hopcode => simp [hopcode]
  · next hcall _ _ =>
    simp only [reduceCtorEq, exists_false, false_iff, not_and]
    exact fun hopcode => absurd hopcode hcall

/-! ### One block -/

/-- A block whose last instruction is a call without a target. -/
def Program.EndsMalformed (p : Program) (b : Block) : Prop :=
  ∃ index i, b.lastNonDebug? = some (index, i) ∧ p.Malformed .call i

/-- A block with a call without a target and no call in front of it that leaks. -/
def LinkSpill.MeetsMalformed (spills : LinkSpill) (p : Program) (b : Block) : Prop :=
  ∃ front i back, b.instrs = front ++ i :: back ∧ p.Malformed .call i ∧
    ∀ j ∈ front, ¬ spills.Leaking p j

/-- Code behind a position with a call without a target and no call in front of it that leaks, unless that is
the one at `last`. -/
def LinkSpill.MeetsMalformedFrom (spills : LinkSpill) (p : Program) (last : Option Nat) (start : Nat)
    (code : List Instr) : Prop :=
  ∃ front i back, code = front ++ i :: back ∧ p.Malformed .call i ∧
    ∀ k j, front[k]? = some j → spills.Leaking p j → last = some (start + k)

/-- The first instruction is such a call, or it does not decide and the call is behind it. -/
theorem LinkSpill.meetsMalformedFrom_cons_iff {last : Option Nat} {start : Nat} {rest : List Instr} :
    spills.MeetsMalformedFrom p last start (i :: rest) ↔
      p.Malformed .call i ∨
        (spills.Leaking p i → last = some start) ∧ spills.MeetsMalformedFrom p last (start + 1) rest := by
  constructor
  · rintro ⟨_ | ⟨first, front⟩, j, back, hsplit, hj, hfront⟩
    · cases hsplit
      exact .inl hj
    · cases hsplit
      refine .inr ⟨hfront 0 i rfl, front, j, back, rfl, hj, fun k m hm hleak => ?_⟩
      rw [Nat.add_assoc, Nat.add_comm 1]
      exact hfront (k + 1) m hm hleak
  · rintro (hmalformed | ⟨hfirst, front, j, back, rfl, hj, hfront⟩)
    · exact ⟨[], i, rest, rfl, hmalformed, by simp⟩
    · refine ⟨i :: front, j, back, rfl, hj, fun k m hm hleak => ?_⟩
      cases k with
      | zero =>
        cases hm
        exact hfirst hleak
      | succ k =>
        rw [Nat.add_comm k, ← Nat.add_assoc]
        exact hfront k m hm hleak

namespace LeakageSweep

variable {f : Function} {g : FlowGraph} {s t : LeakageSweep}

theorem anyLeaks_fails_iff {last : Option Nat} {code : List Instr} {start : Nat} :
    (∃ e, anyLeaks p spills name last code start = .error e) ↔
      spills.MeetsMalformedFrom p last start code := by
  induction code generalizing start with
  | nil => simp [anyLeaks, LinkSpill.MeetsMalformedFrom]
  | cons i rest ih =>
    rw [anyLeaks, LinkSpill.meetsMalformedFrom_cons_iff]
    split
    · next e hfails => exact iff_of_true ⟨e, rfl⟩ (.inl (callLeaks_fails_iff.mp ⟨e, hfails⟩))
    · next leaks hanswer =>
      have hleaks := callLeaks_eq_ok hanswer
      have hfine : ¬ p.Malformed .call i := fun hmalformed => by
        obtain ⟨e, he⟩ := callLeaks_fails_iff.mpr hmalformed
        rw [hanswer] at he
        cases he
      rw [or_iff_right hfine]
      split
      · next hdecided =>
        simp only [Bool.and_eq_true, decide_eq_true_eq, ne_eq] at hdecided
        simp only [reduceCtorEq, exists_false, false_iff, not_and]
        exact fun hfirst => absurd (hfirst (hleaks.mp hdecided.1)).symm hdecided.2
      · next hundecided =>
        rw [ih, and_iff_right]
        intro hleak
        by_contra hlast
        refine hundecided ?_
        simp only [Bool.and_eq_true, decide_eq_true_eq, ne_eq]
        exact ⟨hleaks.mpr hleak, fun heq => hlast heq.symm⟩

/-- An instruction that produces code is not behind the last one that does so. -/
theorem length_le_of_lastNonDebug? {index : Nat} {last : Instr} {front back : List Instr}
    (hlast : b.lastNonDebug? = some (index, last)) (hcode : b.instrs = front ++ i :: back)
    (hdebug : i.isDebug = false) : front.length ≤ index := by
  obtain ⟨front', back', hcode', rfl, -, hback⟩ := Code.lastNonDebug?_eq_some hlast
  by_contra hlt
  have hi : b.instrs[front.length]? = some i := by simp [hcode]
  rw [hcode', List.getElem?_append_right (by omega),
    List.getElem?_cons, if_neg (by omega)] at hi
  rw [hback i (List.mem_of_getElem? hi)] at hdebug
  cases hdebug

theorem leaksInside_fails_iff :
    (∃ e, leaksInside p spills f b = .error e) ↔ spills.MeetsMalformed p b := by
  rw [leaksInside, anyLeaks_fails_iff, LinkSpill.MeetsMalformedFrom, LinkSpill.MeetsMalformed]
  refine exists_congr fun front => exists_congr fun i => exists_congr fun back =>
    and_congr_right fun hcode => and_congr_right fun hmalformed => ?_
  constructor
  · intro hfront j hj hleak
    obtain ⟨k, hk⟩ := List.mem_iff_getElem?.mp hj
    obtain ⟨⟨index, last⟩, hlast, rfl⟩ := Option.map_eq_some_iff.mp (hfront k j hk hleak)
    have hdebug : i.isDebug = false := by simp [Instr.isDebug, hmalformed.1]
    have := length_le_of_lastNonDebug? hlast hcode hdebug
    have := (List.getElem?_eq_some_iff.mp hk).1
    omega
  · intro hfront k j hk hleak
    exact absurd hleak (hfront j (List.mem_of_getElem? hk))

theorem leaksFromFront_fails_iff (hids : g.blocks.ids.Nodup) :
    (∃ e, leaksFromFront p spills f g b s = .error e) ↔
      ∃ front, g.layoutPredecessor? b.id = some front ∧ (f.id, front.id) ∉ s.blocks ∧
        p.EndsMalformed front := by
  rw [leaksFromFront]
  split
  · next hnone => simp [hnone]
  · next front hfront =>
    rw [FlowGraph.block?_id hids (FlowGraph.mem_of_layoutPredecessor? hfront)]
    simp only [hfront, Option.some.injEq, exists_eq_left', Option.bind_some]
    split
    · next hmarked => simp [List.contains_iff_mem.mp hmarked]
    · next hmarked =>
      rw [List.contains_iff_mem] at hmarked
      rw [and_iff_right hmarked]
      split
      · next hlast => simp [Program.EndsMalformed, hlast]
      · next index last hlast =>
        rw [callLeaks_fails_iff]
        simp [Program.EndsMalformed, hlast]

/-- The analysis gives up at a block if it cannot tell a call at the end of the block in front, unless that
block is marked, or if nothing is decided by the block in front and it then meets a call that it cannot
tell. -/
theorem isGivenAway_fails_iff (hids : g.blocks.ids.Nodup) :
    (∃ e, isGivenAway p spills f g b s = .error e) ↔
      (∃ front, g.layoutPredecessor? b.id = some front ∧ (f.id, front.id) ∉ s.blocks ∧
        p.EndsMalformed front) ∨
      (∀ front, g.layoutPredecessor? b.id = some front →
        (f.id, front.id) ∉ s.blocks ∧ ¬ spills.EndsLeaking p front) ∧ spills.MeetsMalformed p b := by
  rw [← leaksFromFront_fails_iff hids, ← leaksInside_fails_iff (f := f), isGivenAway]
  cases hfront : leaksFromFront p spills f g b s with
  | error e => simp
  | ok given =>
    have hgiven := leaksFromFront_eq_ok hids hfront
    cases given with
    | true =>
      obtain ⟨front, hpredecessor, hsource⟩ := hgiven.mp rfl
      simp only [reduceCtorEq, exists_false, false_or, false_iff, not_and]
      exact fun hnone => absurd hsource (not_or.mpr (hnone front hpredecessor))
    | false =>
      simp only [reduceCtorEq, exists_false, false_or]
      rw [and_iff_right]
      intro front hpredecessor
      rw [← not_or]
      exact fun hsource => Bool.false_ne_true (hgiven.mpr ⟨front, hpredecessor, hsource⟩)

theorem visitBlock_fails_iff :
    (∃ e, (visitBlock p spills f g b s).2 = some e) ↔ ∃ e, isGivenAway p spills f g b s = .error e := by
  rw [visitBlock]
  rcases isGivenAway p spills f g b s with e | (_ | _) <;> simp

/-! ### The blocks of a function -/

/-- Whether the analysis gives up at a block of a function. -/
def GivesUpAt (p : Program) (spills : LinkSpill) (f : Function) (g : FlowGraph) (b : Block) : Prop :=
  (∃ front, g.layoutPredecessor? b.id = some front ∧ ¬ Leakable p spills f g front.id ∧
    p.EndsMalformed front) ∨
  (∀ front, g.layoutPredecessor? b.id = some front →
    ¬ Leakable p spills f g front.id ∧ ¬ spills.EndsLeaking p front) ∧ spills.MeetsMalformed p b

theorem leakable_iff (hids : g.blocks.ids.Nodup) {k : Nat} (hb : g.blocks.elems[k]? = some b) :
    Leakable p spills f g b.id ↔
      if p.addressEscapes f = true then b.trap = false else spills.GivenAway p g.blocks.elems k := by
  constructor
  · rintro ⟨k', b', hb', hid, hsource⟩
    obtain rfl := Roster.index_unique hids hb hb' hid.symm
    rw [hb, Option.some.injEq] at hb'
    rwa [hb']
  · exact fun hsource => ⟨k, b, hb, rfl, hsource⟩

/-- When the blocks in front of a block have been looked at, the one directly in front has its final mark. -/
theorem mem_blocks_front_iff (hbody : f.body = some g) (hids : g.blocks.ids.Nodup)
    (hclean : ∀ id, (f.id, id) ∉ s.blocks) {done rest : List Block} {front : Block}
    (hlayout : g.blocks.elems = done ++ b :: rest)
    (hrun : Steps.runAll (visitBlock p spills f g) (done.filter fun b => !b.trap) (opened p f s) = (t, none))
    (hfront : g.layoutPredecessor? b.id = some front) :
    (f.id, front.id) ∈ t.blocks ↔ Leakable p spills f g front.id := by
  cases hescapes : p.addressEscapes f with
  | true =>
    have hwhole : MarkedWhole f g t :=
      Steps.runAll_induction hrun (P := MarkedWhole f g) (markedWhole_opened hbody hclean hescapes)
        fun b hb t t' hvisit hmarked => by
          refine hmarked.visitBlock hids ?_ hvisit
          obtain ⟨hb, htrap⟩ := List.mem_filter.mp hb
          exact List.mem_filter.mpr ⟨hlayout ▸ List.mem_append_left _ hb, htrap⟩
    exact hwhole.mem_iff hescapes
  | false =>
    have hlayout' : g.blocks.elems = [] ++ done ++ b :: rest := hlayout
    have hswept : SweptTo p spills f g.blocks.elems done.length t :=
      SweptTo.runAll hids hlayout' (sweptTo_opened hclean hescapes) hrun
    have hb : g.blocks.elems[done.length]? = some b := by simp [hlayout]
    rcases hlength : done.length with _ | m
    · rw [hlength] at hb
      rw [FlowGraph.layoutPredecessor?_zero hids hb] at hfront
      cases hfront
    · rw [hlength] at hb hswept
      rw [FlowGraph.layoutPredecessor?_succ hids hb] at hfront
      rw [hswept.mem_iff hids (Nat.lt_succ_self m) hfront, leakable_iff hids hfront, hescapes]
      simp

/-- A function is given up at exactly if that is so of one of its blocks. -/
theorem visitFunction_fails_iff (hblocks : ∀ g, f.body = some g → g.blocks.ids.Nodup)
    (hclean : ∀ id, (f.id, id) ∉ s.blocks) :
    (∃ e, (visitFunction p spills f s).2 = some e) ↔
      ∃ g, f.body = some g ∧ ∃ b ∈ g.blocks.elems, b.trap = false ∧ GivesUpAt p spills f g b := by
  cases hbody : f.body with
  | none => simp [visitFunction, hbody]
  | some g =>
    have hids := hblocks g hbody
    have hiff : (∃ e, (Steps.runAll (visitBlock p spills f g) f.codeBlocks (opened p f s)).2 = some e) ↔
        ∃ b ∈ f.codeBlocks, GivesUpAt p spills f g b := by
      refine Steps.runAll_fails_iff fun front b back t hsplit hrun => ?_
      rw [Function.codeBlocks_eq hbody] at hsplit
      obtain ⟨done, rest, hlayout, rfl, hrest⟩ := List.filter_eq_append_iff.mp hsplit
      obtain ⟨traps, rest, rfl, htraps, -, -⟩ := List.filter_eq_cons_iff.mp hrest
      have hfilter : (done ++ traps).filter (fun b => !b.trap) = done.filter fun b => !b.trap := by
        rw [List.filter_append, List.filter_eq_nil_iff.mpr htraps, List.append_nil]
      rw [← List.append_assoc] at hlayout
      rw [← hfilter] at hrun
      have hmark : ∀ front, g.layoutPredecessor? b.id = some front →
          ((f.id, front.id) ∉ t.blocks ↔ ¬ Leakable p spills f g front.id) :=
        fun front hfront => not_congr (mem_blocks_front_iff hbody hids hclean hlayout hrun hfront)
      rw [visitBlock_fails_iff, isGivenAway_fails_iff hids, GivesUpAt]
      refine or_congr (exists_congr fun front => and_congr_right fun hfront => ?_)
        (and_congr_left fun _ => forall₂_congr fun front hfront => ?_)
      · exact and_congr_left fun _ => hmark front hfront
      · exact and_congr_left fun _ => hmark front hfront
    rw [visitFunction_eq_runAll hbody, hiff, Function.codeBlocks_eq hbody]
    simp [and_assoc]

/-- The sweep over a program fails exactly if a function is given up at. -/
theorem visitProgram_fails_iff (hfunctions : p.functions.ids.Nodup)
    (hblocks : ∀ f ∈ p.functions.elems, ∀ g, f.body = some g → g.blocks.ids.Nodup) :
    (∃ e, (visitProgram p spills).2 = some e) ↔ ∃ f ∈ p.functions.elems, ∃ g, f.body = some g ∧
      ∃ b ∈ g.blocks.elems, b.trap = false ∧ GivesUpAt p spills f g b := by
  refine Steps.runAll_fails_iff fun front f back t hsplit hrun => ?_
  have hf : f ∈ p.functions.elems := by simp [hsplit]
  refine visitFunction_fails_iff (hblocks f hf) fun id hmarked => ?_
  -- Nothing of a function is marked before its turn comes.
  have hnew : f.id ∉ front.map Function.id := by
    rw [Roster.ids, hsplit, List.map_append, List.map_cons] at hfunctions
    exact fun hmem => List.disjoint_of_nodup_append hfunctions hmem List.mem_cons_self
  exact List.not_mem_nil ((mem_runAll_visitFunction_of_notMem hrun hnew).mp hmarked)

end LeakageSweep

/-! ### A whole run -/

/-- Whether a function has a call without a target in a block that is no trap, or at the end of a trap block
directly in front of such a block. -/
def Program.HasMalformedCall (p : Program) (f : Function) : Prop :=
  ∃ g, f.body = some g ∧
    ((∃ b ∈ g.blocks.elems, b.trap = false ∧ ∃ i ∈ b.instrs, p.Malformed .call i) ∨
      ∃ b ∈ g.blocks.elems, b.trap = false ∧ ∃ front, g.layoutPredecessor? b.id = some front ∧
        front.trap = true ∧ p.EndsMalformed front)

theorem mem_instrs_of_mem {f : Function} {g : FlowGraph} (hbody : f.body = some g)
    (hb : b ∈ g.blocks.elems) (hi : i ∈ b.instrs) : i ∈ f.instrs := by
  rw [Function.instrs, Function.blocks, hbody]
  exact List.mem_flatMap.mpr ⟨b, hb, hi⟩

namespace LeakageSweep

variable {f : Function} {g : FlowGraph}

/-- The analysis gives up for a reason. -/
theorem hasMalformedCall_of_givesUpAt (hbody : f.body = some g) (hb : b ∈ g.blocks.elems)
    (htrap : b.trap = false) (h : GivesUpAt p spills f g b) : p.HasMalformedCall f := by
  refine ⟨g, hbody, ?_⟩
  rcases h with ⟨front, hfront, -, hends⟩ | ⟨-, start, i, back, hcode, hi, -⟩
  · cases hcover : front.trap with
    | true => exact .inr ⟨b, hb, htrap, front, hfront, hcover, hends⟩
    | false =>
      obtain ⟨index, i, hlast, hi⟩ := hends
      have hmem := FlowGraph.mem_of_layoutPredecessor? hfront
      exact .inl ⟨front, hmem, hcover, i, Code.mem_of_lastNonDebug? hlast, hi⟩
  · exact .inl ⟨b, hb, htrap, i, by simp [hcode], hi⟩

/-- Only calls that leak make the blocks of a function leakable, unless its address escapes. -/
theorem not_leakable_of_forall (hbody : f.body = some g) (hescapes : p.addressEscapes f = false)
    (hquiet : ∀ i ∈ f.instrs, ¬ spills.Leaking p i) (id : Nat) : ¬ Leakable p spills f g id := by
  rintro ⟨k, b, -, -, hsource⟩
  rw [hescapes, if_neg Bool.false_ne_true] at hsource
  obtain ⟨j, -, -, ⟨source, hsource, index, i, hi, hleak, -⟩ | ⟨-, front, hfront, index, i, hlast, hleak⟩⟩ :=
    hsource
  · refine hquiet i (mem_instrs_of_mem hbody (List.mem_of_getElem? hsource) ?_) hleak
    exact List.mem_of_getElem? hi
  · refine hquiet i (mem_instrs_of_mem hbody (List.mem_of_getElem? hfront) ?_) hleak
    exact Code.mem_of_lastNonDebug? hlast

/-- In a function without calls that leak no call decides before one without a target is met. -/
theorem exists_givesUpAt (hescapes : p.addressEscapes f = false)
    (hquiet : ∀ i ∈ f.instrs, ¬ spills.Leaking p i) (h : p.HasMalformedCall f) :
    ∃ g, f.body = some g ∧ ∃ b ∈ g.blocks.elems, b.trap = false ∧ GivesUpAt p spills f g b := by
  obtain ⟨g, hbody, hcall⟩ := h
  have hnone := not_leakable_of_forall hbody hescapes hquiet
  refine ⟨g, hbody, ?_⟩
  rcases hcall with ⟨b, hb, htrap, i, hi, hmalformed⟩ | ⟨b, hb, htrap, front, hfront, -, hends⟩
  · refine ⟨b, hb, htrap, .inr ⟨fun front hfront => ⟨hnone _, ?_⟩, ?_⟩⟩
    · rintro ⟨index, j, hlast, hleak⟩
      have hmem := FlowGraph.mem_of_layoutPredecessor? hfront
      exact hquiet j (mem_instrs_of_mem hbody hmem (Code.mem_of_lastNonDebug? hlast)) hleak
    · obtain ⟨start, back, hcode⟩ := List.append_of_mem hi
      refine ⟨start, i, back, hcode, hmalformed, fun j hj => hquiet j (mem_instrs_of_mem hbody hb ?_)⟩
      rw [hcode]
      exact List.mem_append_left _ hj
  · exact ⟨b, hb, htrap, .inl ⟨front, hfront, hnone _, hends⟩⟩

end LeakageSweep

namespace LeakageAnalysis

/-- A run fails if the link spills cannot be told or the sweep fails. -/
theorem run_fails_iff {a : LeakageAnalysis} :
    (∃ e, (a.run p).outcome = .error e) ↔ (¬ ∃ spills, LinkSpill.compute p = .ok spills) ∨
      ∃ spills, LinkSpill.compute p = .ok spills ∧
        ∃ e, (LeakageSweep.visitProgram p spills).2 = some e := by
  rw [run]
  cases hspills : LinkSpill.compute p with
  | error e => simp
  | ok spills =>
    rcases hvisit : LeakageSweep.visitProgram p spills with ⟨s, _ | e⟩ <;> simp [hvisit]

/-- When a run fails: exactly if a tail call has no target, or the sweep gives up at a block that is no trap.
Then there is a call or a tail call without a target where the analysis could read it. A function whose
address does not escape and in which nothing leaks hides no such call. -/
theorem run_fails_iff_givesUpAt {a : LeakageAnalysis} (hfunctions : p.functions.ids.Nodup)
    (hblocks : ∀ f ∈ p.functions.elems, ∀ g, f.body = some g → g.blocks.ids.Nodup) :
    ((∃ e, (a.run p).outcome = .error e) ↔
      (∃ f ∈ p.functions.elems, ∃ i ∈ f.instrs, p.Malformed .tailCall i) ∨
      ∃ spills, LinkSpill.compute p = .ok spills ∧ ∃ f ∈ p.functions.elems, ∃ g, f.body = some g ∧
        ∃ b ∈ g.blocks.elems, b.trap = false ∧ LeakageSweep.GivesUpAt p spills f g b) ∧
    ((∃ e, (a.run p).outcome = .error e) →
      (∃ f ∈ p.functions.elems, ∃ i ∈ f.instrs, p.Malformed .tailCall i) ∨
      ∃ f ∈ p.functions.elems, p.HasMalformedCall f) ∧
    (∀ spills, LinkSpill.compute p = .ok spills → ∀ f ∈ p.functions.elems, p.addressEscapes f = false →
      (∀ i ∈ f.instrs, ¬ spills.Leaking p i) → p.HasMalformedCall f →
        ∃ e, (a.run p).outcome = .error e) := by
  have htails : (¬ ∃ spills, LinkSpill.compute p = .ok spills) ↔
      ∃ f ∈ p.functions.elems, ∃ i ∈ f.instrs, p.Malformed .tailCall i := by
    rw [LinkSpill.exists_compute_iff]
    simp only [not_forall, exists_prop, not_knowsTarget_iff]
  have hfails := run_fails_iff (p := p) (a := a)
  simp only [htails, LeakageSweep.visitProgram_fails_iff hfunctions hblocks] at hfails
  refine ⟨hfails, fun herror => ?_, fun spills hspills f hf hescapes hquiet hcall => ?_⟩
  · refine (hfails.mp herror).imp_right ?_
    rintro ⟨spills, -, f, hf, g, hbody, b, hb, htrap, hgives⟩
    exact ⟨f, hf, LeakageSweep.hasMalformedCall_of_givesUpAt hbody hb htrap hgives⟩
  · exact hfails.mpr
      (.inr ⟨spills, hspills, f, hf, LeakageSweep.exists_givesUpAt hescapes hquiet hcall⟩)

/-- A function of these blocks that saves no register. -/
def blockCaller (blocks : List Block) : Function :=
  { id := 1, name := "caller", calleeSaved := some []
    body := some { blocks := blocks.foldl Roster.insert {}, entry := 1 } }

/-- A program with that function alone. -/
def blockProgram (blocks : List Block) : Program :=
  let empty : Program := (Program.new 4).toOption.getD { pointerSize := 4 }
  ((empty.addFunction (blockCaller blocks)).toOption.map Prod.fst).getD empty

/-- A call of a number. -/
def numberCall : Instr :=
  ⟨.call, [.imm 1], .al⟩

theorem malformed_numberCall (p : Program) : p.Malformed .call numberCall := by
  refine ⟨rfl, ?_⟩
  rintro (⟨name, rest, hoperands⟩ | ⟨symbol, offset, part, rest, id, hoperands, -⟩) <;> cases hoperands

/-- A call of a number at the end of a trap block, in front of a return. -/
def trappedCall : List Block :=
  [{ Block.trapBlock with instrs := [.trap 0, numberCall] }, .ofCode [.ret]]

/-- The call behind the trap is never executed, but it is read. -/
theorem run_fails_trappedCall :
    (blockProgram trappedCall).functions.ids.Nodup ∧
      (∀ f ∈ (blockProgram trappedCall).functions.elems, ∀ g, f.body = some g → g.blocks.ids.Nodup) ∧
      (blockProgram trappedCall).HasMalformedCall (blockCaller trappedCall) ∧
      ∃ e, (run { postHardening := false } (blockProgram trappedCall)).outcome = .error e := by
  have hlist : (blockProgram trappedCall).functions.elems = [blockCaller trappedCall] := rfl
  have hfunctions : (blockProgram trappedCall).functions.ids.Nodup := by decide +kernel
  have hblocks : ∀ f ∈ (blockProgram trappedCall).functions.elems, ∀ g, f.body = some g →
      g.blocks.ids.Nodup := by
    intro f hf g hbody
    obtain rfl := List.mem_singleton.mp (hlist ▸ hf)
    cases hbody
    decide
  have hcall : (blockProgram trappedCall).HasMalformedCall (blockCaller trappedCall) :=
    ⟨_, rfl, .inr ⟨_, .tail _ (.head _), rfl, _, rfl, rfl, 1, numberCall, rfl, malformed_numberCall _⟩⟩
  have hspills : LinkSpill.compute (blockProgram trappedCall)
      = .ok { known := [1], spilling := [] } := by decide +kernel
  have hescapes : (blockProgram trappedCall).addressEscapes (blockCaller trappedCall) = false := by
    decide +kernel
  have hquiet : ∀ i ∈ (blockCaller trappedCall).instrs,
      ¬ ({ known := [1], spilling := [] } : LinkSpill).Leaking (blockProgram trappedCall) i := by
    decide +kernel
  have hcaller : blockCaller trappedCall ∈ (blockProgram trappedCall).functions.elems := by
    rw [hlist]
    exact List.mem_singleton_self _
  exact ⟨hfunctions, hblocks, hcall,
    (run_fails_iff_givesUpAt hfunctions hblocks).2.2 _ hspills _ hcaller hescapes hquiet hcall⟩

/-- A call of a number behind a call out of the program. -/
def hiddenCall : List Block :=
  [.ofCode [.callExternal "puts", numberCall, .ret]]

/-- The call in front decides, so the one of a number is not read, and the run succeeds. -/
theorem run_ok_hiddenCall :
    (blockProgram hiddenCall).functions.ids.Nodup ∧
      (∀ f ∈ (blockProgram hiddenCall).functions.elems, ∀ g, f.body = some g → g.blocks.ids.Nodup) ∧
      (∃ f ∈ (blockProgram hiddenCall).functions.elems, (blockProgram hiddenCall).HasMalformedCall f) ∧
      ¬ ∃ e, (run { postHardening := false } (blockProgram hiddenCall)).outcome = .error e := by
  have hlist : (blockProgram hiddenCall).functions.elems = [blockCaller hiddenCall] := rfl
  refine ⟨by decide +kernel, fun f hf g hbody => ?_, ⟨blockCaller hiddenCall, ?_, ?_⟩, ?_⟩
  · obtain rfl := List.mem_singleton.mp (hlist ▸ hf)
    cases hbody
    decide
  · rw [hlist]
    exact List.mem_singleton_self _
  · exact ⟨_, rfl, .inl ⟨_, .head _, rfl, numberCall, .tail _ (.head _), malformed_numberCall _⟩⟩
  · rintro ⟨e, he⟩
    have hok : (run { postHardening := false } (blockProgram hiddenCall)).outcome = .ok false := rfl
    rw [hok] at he
    cases he

end LeakageAnalysis
end ThumbHardening
