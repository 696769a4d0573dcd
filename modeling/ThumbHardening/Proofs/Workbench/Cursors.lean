import ThumbHardening.Proofs.Predication.Growth
import ThumbHardening.Proofs.Workbench.Exact

/-!
# Cursors

A block inserts instructions at its cursor, which has to be at an instruction or behind the last one. The edits of
the block itself see to that. The editor changes the same instructions and leaves the cursor where it is, unless it
splits the block, and then it looks at the front part before the repair. So a cursor is out of range exactly when an
edit leaves fewer instructions than there are in front of the cursor, and the next insertion fails.
-/

namespace ThumbHardening

/-! ### Edits of a block -/

def Block.CursorInRange (b : Block) : Prop :=
  b.cursor ≤ b.instrs.length

/-- An edit of a block at its cursor. The instructions that a block makes itself are inserted like any other. -/
inductive BlockEdit where
  | setCursor (index : Nat)
  | moveCursorToEnd
  | delete
  | insert (i : Instr)

def BlockEdit.make? (b : Block) : BlockEdit → Option Block
  | setCursor index => b.setCursor? index
  | moveCursorToEnd => some b.moveCursorToEnd
  | delete => b.delete?.map Prod.snd
  | insert i => b.insert? i

/-- Each edit that a block carries out leaves the cursor in range. -/
theorem BlockEdit.cursorInRange {edit : BlockEdit} {b b' : Block} (h : edit.make? b = some b') :
    b'.CursorInRange := by
  cases edit with
  | setCursor index =>
    obtain ⟨hindex, heq⟩ := Option.ite_none_right_eq_some.mp h
    cases heq
    exact hindex
  | moveCursorToEnd =>
    cases h
    exact Nat.le_refl b.instrs.length
  | delete =>
    obtain ⟨⟨i, b'⟩, hdelete, rfl⟩ := Option.map_eq_some_iff.mp h
    obtain ⟨j, -, heq⟩ := Option.map_eq_some_iff.mp hdelete
    cases heq
    exact Nat.min_le_right ..
  | insert i =>
    obtain ⟨hcursor, heq⟩ := Option.ite_none_right_eq_some.mp h
    cases heq
    show b.cursor + 1 ≤ (b.instrs.insertIdx b.cursor i).length
    rw [List.length_insertIdx_of_le_length hcursor]
    omega

theorem Block.isSome_insert?_iff {b : Block} {i : Instr} : (b.insert? i).isSome = true ↔ b.CursorInRange := by
  rw [insert?, CursorInRange]
  split <;> simp [*]

/-! ### Edits of a graph -/

def FlowGraph.CursorsInRange (g : FlowGraph) : Prop :=
  ∀ b ∈ g.blocks.elems, b.CursorInRange

/-- Whether a split leaves a front part that is shorter than its cursor. -/
def FlowGraph.SplitOutruns (g : FlowGraph) (id index : Nat) : Prop :=
  ∃ b, g.block? id = some b ∧ index ≤ b.instrs.length ∧
    (Code.repair (b.instrs.take index)).length < min b.cursor index

namespace Edit

/-- Whether an edit is carried out and leaves a block shorter than its cursor. -/
def Outruns (g : FlowGraph) : Edit → Prop
  | insertBefore id index new => ∃ b anchor, g.block? id = some b ∧ b.instrs[index]? = some anchor ∧
      (b.instrs.insertAround anchor index false new).1.length < b.cursor
  | insertAfter id index new => ∃ b anchor, g.block? id = some b ∧ b.instrs[index]? = some anchor ∧
      (b.instrs.insertAround anchor index true new).1.length < b.cursor
  | remove id index => ∃ b i, g.block? id = some b ∧ b.instrs[index]? = some i ∧ i.isIt = false ∧
      (b.instrs.removeAt index).length < b.cursor
  | splitBefore id index => g.SplitOutruns id index
  | splitAfter id index => g.SplitOutruns id (Address.wrap (index + 1))

end Edit

namespace Workbench

variable {w w' : Workbench} {id index : Nat} {front back : List Block} {b : Block}

/-- Makes an edit in place. What is refused changes nothing. -/
def edit (w : Workbench) : Edit → Workbench
  | .insertBefore id index new => (w.insertBefore id index new).1
  | .insertAfter id index new => (w.insertAfter id index new).1
  | .remove id index => (w.remove id index).1
  | .splitBefore id index => (w.splitBefore id index).1
  | .splitAfter id index => (w.splitAfter id index).1

/-- Where one block is replaced, the cursors are in range if the cursor of the new one is. -/
theorem cursorsInRange_recode_iff (hw : w.graph.CursorsInRange) (hfound : w.graph.blocks.FoundBetween id front b back)
    (instrs : Code) (editor : Editor) :
    (w.recode front b back instrs editor).graph.CursorsInRange ↔ b.cursor ≤ instrs.length := by
  rw [FlowGraph.CursorsInRange, hfound.elems_eq, List.forall_mem_append, List.forall_mem_cons] at hw
  show (∀ other ∈ front ++ { b with instrs } :: back, other.CursorInRange) ↔ _
  rw [List.forall_mem_append, List.forall_mem_cons]
  exact ⟨fun h => h.2.1, fun h => ⟨hw.1, h, hw.2.2⟩⟩

theorem cursorsInRange_insertAround_iff (hw : w.graph.CursorsInRange) (id index : Nat) (behind : Bool)
    (new : List Instr) :
    (w.insertAround id index behind new).1.graph.CursorsInRange ↔
      ¬∃ b anchor, w.graph.block? id = some b ∧ b.instrs[index]? = some anchor ∧
        (b.instrs.insertAround anchor index behind new).1.length < b.cursor := by
  cases hb : w.graph.block? id with
  | none =>
    rw [insertAround, hb]
    exact iff_of_true hw (by simp)
  | some b =>
    cases hanchor : b.instrs[index]? with
    | none =>
      rw [insertAround, hb]
      simp only [hanchor]
      exact iff_of_true hw (by simp [hanchor])
    | some anchor =>
      obtain ⟨front, back, hfound⟩ := Roster.exists_foundBetween hb
      rw [insertAround_eq_recode hfound hanchor, cursorsInRange_recode_iff hw hfound]
      simp [hanchor]

theorem cursorsInRange_remove_iff (hw : w.graph.CursorsInRange) (id index : Nat) :
    (w.remove id index).1.graph.CursorsInRange ↔ ¬(Edit.remove id index).Outruns w.graph := by
  rw [Edit.Outruns]
  cases hb : w.graph.block? id with
  | none =>
    rw [remove, hb]
    exact iff_of_true hw (by simp)
  | some b =>
    cases hi : b.instrs[index]? with
    | none =>
      rw [remove, hb]
      simp only [hi]
      exact iff_of_true hw (by simp [hi])
    | some i =>
      cases hit : i.isIt with
      | true =>
        rw [remove, hb]
        simp only [hi, hit, if_true]
        exact iff_of_true hw (by simp [hi, hit])
      | false =>
        obtain ⟨front, back, hfound⟩ := Roster.exists_foundBetween hb
        rw [remove_eq_recode hfound hi hit, cursorsInRange_recode_iff hw hfound]
        simp [hi, hit]

theorem cursorsInRange_splitBefore_iff (hw : w.graph.CursorsInRange) (id index : Nat) :
    (w.splitBefore id index).1.graph.CursorsInRange ↔ ¬w.graph.SplitOutruns id index := by
  rw [FlowGraph.SplitOutruns]
  cases hb : w.graph.block? id with
  | none =>
    rw [splitBefore, hb]
    exact iff_of_true hw (by simp)
  | some b =>
    rcases Nat.lt_or_ge b.instrs.length index with hlt | hle
    · rw [splitBefore, hb]
      simp only [if_pos hlt]
      refine iff_of_true hw ?_
      rintro ⟨b', hb', hindex, -⟩
      obtain rfl := Option.some.inj hb'
      omega
    · obtain ⟨front, back, hfound⟩ := Roster.exists_foundBetween hb
      rw [splitBefore_eq_cut hfound hle]
      rw [FlowGraph.CursorsInRange, hfound.elems_eq, List.forall_mem_append, List.forall_mem_cons] at hw
      show (∀ other ∈ front ++ b.head index w.graph.blocks.next :: b.tail index w.graph.blocks.next :: back,
        other.CursorInRange) ↔ _
      have hhead : (b.head index w.graph.blocks.next).CursorInRange ↔
          min b.cursor index ≤ (Code.repair (b.instrs.take index)).length := by
        show min b.cursor (b.instrs.take index).length ≤ _ ↔ _
        rw [List.length_take_of_le hle]
        rfl
      have htail : (b.tail index w.graph.blocks.next).CursorInRange := Nat.zero_le _
      rw [List.forall_mem_append, List.forall_mem_cons, List.forall_mem_cons, hhead]
      constructor
      · rintro ⟨-, hcursor, -⟩ ⟨b', hb', -, hshort⟩
        obtain rfl := Option.some.inj hb'
        omega
      · intro hfits
        refine ⟨hw.1, ?_, htail, hw.2.2⟩
        by_contra hshort
        exact hfits ⟨b, rfl, hle, by omega⟩

/-- An edit leaves the cursors in range unless it makes a block shorter than its cursor. -/
theorem cursorsInRange_edit_iff (hw : w.graph.CursorsInRange) (edit : Edit) :
    (w.edit edit).graph.CursorsInRange ↔ ¬edit.Outruns w.graph := by
  cases edit with
  | insertBefore id index new => exact cursorsInRange_insertAround_iff hw id index false new
  | insertAfter id index new => exact cursorsInRange_insertAround_iff hw id index true new
  | remove id index => exact cursorsInRange_remove_iff hw id index
  | splitBefore id index => exact cursorsInRange_splitBefore_iff hw id index
  | splitAfter id index => exact cursorsInRange_splitBefore_iff hw id _

end Workbench

/-! ### Blocks with consistent groups -/

namespace FlowGraph

variable {g : FlowGraph} {id : Nat} {b : Block}

theorem splitOutruns_iff (hb : g.block? id = some b) (hcode : b.instrs.isConsistent = true) (index : Nat) :
    g.SplitOutruns id index ↔
      index ≤ b.instrs.length ∧ index ≤ b.cursor ∧ Code.endsWithIt (b.instrs.take index) = true := by
  rw [SplitOutruns, hb]
  constructor
  · rintro ⟨b', hb', hindex, hshort⟩
    obtain rfl := Option.some.inj hb'
    have hlength := Code.length_repair_take hcode hindex
    split at hlength
    · next hends => exact ⟨hindex, by omega, hends⟩
    · omega
  · rintro ⟨hindex, hcursor, hends⟩
    have hlength := Code.length_repair_take hcode hindex
    rw [if_pos hends] at hlength
    exact ⟨b, rfl, hindex, by omega⟩

end FlowGraph

/-- When an edit makes a block with consistent groups shorter than its cursor. -/
theorem Edit.outruns_iff {g : FlowGraph} {id : Nat} {b : Block} (hb : g.block? id = some b)
    (hcode : b.instrs.isConsistent = true) (hcursor : b.CursorInRange) (index : Nat) :
    (∀ new, ¬(insertBefore id index new).Outruns g ∧ ¬(insertAfter id index new).Outruns g) ∧
    ((remove id index).Outruns g ↔ ∃ i, b.instrs[index]? = some i ∧ i.isIt = false ∧
      b.instrs.length < b.cursor + if b.instrs.aloneInGroup index then 2 else 1) ∧
    ((splitBefore id index).Outruns g ↔ index ≤ b.instrs.length ∧ index ≤ b.cursor ∧
      Code.endsWithIt (b.instrs.take index) = true) := by
  have hinsert (behind : Bool) (new : List Instr) : ¬∃ b anchor, g.block? id = some b ∧
      b.instrs[index]? = some anchor ∧ (b.instrs.insertAround anchor index behind new).1.length < b.cursor := by
    rintro ⟨b', anchor, hb', hanchor, hshort⟩
    obtain rfl := Option.some.inj (hb.symm.trans hb')
    have hlength := Code.length_le_insertAround hcode hanchor behind new
    have hle : b.cursor ≤ b.instrs.length := hcursor
    omega
  refine ⟨fun new => ⟨hinsert false new, hinsert true new⟩, ⟨?_, ?_⟩, FlowGraph.splitOutruns_iff hb hcode index⟩
  · rintro ⟨b', i, hb', hi, hit, hshort⟩
    obtain rfl := Option.some.inj (hb.symm.trans hb')
    have hlength := Code.length_removeAt hcode hi hit
    exact ⟨i, hi, hit, by omega⟩
  · rintro ⟨i, hi, hit, hshort⟩
    have hlength := Code.length_removeAt hcode hi hit
    exact ⟨b, i, hb, hi, hit, by omega⟩

/-! ### Runs -/

/-- A change of a graph: an edit of one of its blocks, or an edit of the graph. -/
inductive Change where
  | block (id : Nat) (edit : BlockEdit)
  | graph (edit : Edit)

/-- Makes a change, unless a block cannot carry it out. -/
def Change.make? (w : Workbench) : Change → Option Workbench
  | block id edit =>
    match w.graph.block? id with
    | none => some w
    | some b => (edit.make? b).map fun b' => { w with graph := w.graph.updateBlock id fun _ => b' }
  | graph edit => some (w.edit edit)

namespace Workbench

variable {w w' : Workbench} {changes rest : List Change}

/-- What a workbench has become on the way through a list of changes, and the changes that are still to be made. -/
inductive Reaches (w : Workbench) (changes : List Change) : Workbench → List Change → Prop
  | start : Reaches w changes w changes
  | step {w' w'' : Workbench} {change : Change} {rest : List Change} : Reaches w changes w' (change :: rest) →
      change.make? w' = some w'' → Reaches w changes w'' rest

/-- What is reached before any change is made, or behind some of them. -/
theorem Reaches.eq_or_lt (h : Reaches w changes w' rest) :
    (w' = w ∧ rest = changes) ∨ rest.length < changes.length := by
  induction h with
  | start => exact .inl ⟨rfl, rfl⟩
  | step _ _ ih =>
    rcases ih with ⟨-, rfl⟩ | hlt
    · exact .inr (Nat.lt_succ_self _)
    · exact .inr (Nat.lt_of_succ_lt hlt)

theorem cursorsInRange_block {id : Nat} {edit : BlockEdit} (hw : w.graph.CursorsInRange)
    (hmake : (Change.block id edit).make? w = some w') : w'.graph.CursorsInRange := by
  rw [Change.make?] at hmake
  split at hmake
  · cases hmake
    exact hw
  · next b hb =>
    obtain ⟨b', hb', rfl⟩ := Option.map_eq_some_iff.mp hmake
    exact (Roster.forall_mem_update_iff hb hw).mpr (BlockEdit.cursorInRange hb')

theorem isSome_insert (hw : w.graph.CursorsInRange) (id : Nat) (i : Instr) :
    ((Change.block id (.insert i)).make? w).isSome = true := by
  rw [Change.make?]
  split
  · rfl
  · next b hb =>
    rw [Option.isSome_map]
    exact Block.isSome_insert?_iff.mpr (hw b (Roster.mem_of_get? hb))

theorem cursorsInRange_reaches_iff (hw : w.graph.CursorsInRange) :
    (∀ w' rest, Reaches w changes w' rest → w'.graph.CursorsInRange) ↔
      ∀ w' edit rest, Reaches w changes w' (.graph edit :: rest) → ¬edit.Outruns w'.graph := by
  constructor
  · intro h w' edit rest hreaches
    exact (cursorsInRange_edit_iff (h w' _ hreaches) edit).mp (h _ _ (hreaches.step rfl))
  · intro h w' rest hreaches
    induction hreaches with
    | start => exact hw
    | @step w' w'' change rest hbefore hmake ih =>
      cases change with
      | block id edit => exact cursorsInRange_block ih hmake
      | graph edit =>
        cases hmake
        exact (cursorsInRange_edit_iff ih edit).mpr (h w' edit rest hbefore)

/-- On the way through changes of a graph, all cursors stay in range and every insertion into a block succeeds, exactly
if no edit of the graph makes a block shorter than its cursor. In a block with consistent groups, no insertion next to
an instruction does. A removal does if the cursor is behind the last instruction, or in front of it if the `It` goes
as well. A split does if it cuts directly behind an `It`, apart from debug information, and the cursor is not in front
of the cut. -/
theorem cursorsInRange_iff (hw : w.graph.CursorsInRange) (changes : List Change) :
    ((∀ w' rest, Reaches w changes w' rest →
        w'.graph.CursorsInRange ∧ ∀ id i, ((Change.block id (.insert i)).make? w').isSome = true) ↔
      ∀ w' edit rest, Reaches w changes w' (.graph edit :: rest) → ¬edit.Outruns w'.graph) ∧
    ∀ (g : FlowGraph) (id : Nat) (b : Block), g.block? id = some b → b.instrs.isConsistent = true →
      b.CursorInRange → ∀ index,
        (∀ new, ¬(Edit.insertBefore id index new).Outruns g ∧ ¬(Edit.insertAfter id index new).Outruns g) ∧
        ((Edit.remove id index).Outruns g ↔ ∃ i, b.instrs[index]? = some i ∧ i.isIt = false ∧
          b.instrs.length < b.cursor + if b.instrs.aloneInGroup index then 2 else 1) ∧
        (g.SplitOutruns id index ↔ index ≤ b.instrs.length ∧ index ≤ b.cursor ∧
          Code.endsWithIt (b.instrs.take index) = true) := by
  refine ⟨?_, fun g id b hb hcode hcursor index => Edit.outruns_iff hb hcode hcursor index⟩
  rw [← cursorsInRange_reaches_iff hw]
  constructor
  · intro h w' rest hreaches
    exact (h w' rest hreaches).1
  · intro h w' rest hreaches
    have hrange := h w' rest hreaches
    exact ⟨hrange, isSome_insert hrange⟩

/-- With the cursor behind a group and the end of a function, new code may join the group, but its only member may not
go. -/
theorem cursorsInRange_predicatedMove :
    Edit.predicatedMove.CursorsInRange ∧
      (∀ w' rest, Reaches { graph := Edit.predicatedMove } [.graph (.insertBefore 1 1 [.nop])] w' rest →
        w'.graph.CursorsInRange) ∧
      ¬∀ w' rest, Reaches { graph := Edit.predicatedMove } [.graph (.remove 1 1)] w' rest →
        w'.graph.CursorsInRange := by
  have hrange : Edit.predicatedMove.CursorsInRange := by
    unfold FlowGraph.CursorsInRange Block.CursorInRange
    decide
  have hwhen := (cursorsInRange_iff (w := { graph := Edit.predicatedMove }) hrange []).2 Edit.predicatedMove 1 _ rfl
    (by decide) (by unfold Block.CursorInRange; decide) 1
  refine ⟨hrange, fun w' rest hreaches => ?_, fun h => ?_⟩
  · have hiff := (cursorsInRange_iff (w := { graph := Edit.predicatedMove }) hrange
      [.graph (.insertBefore 1 1 [.nop])]).1
    refine (hiff.mpr (fun w' edit rest hbefore => ?_) w' rest hreaches).1
    rcases hbefore.eq_or_lt with ⟨rfl, heq⟩ | hlt
    · cases heq
      exact (hwhen.1 [.nop]).1
    · simp at hlt
  · have hiff := (cursorsInRange_iff (w := { graph := Edit.predicatedMove }) hrange [.graph (.remove 1 1)]).1
    have hinsert := fun w' rest hreaches => And.intro (h w' rest hreaches) (isSome_insert (h w' rest hreaches))
    exact hiff.mp hinsert _ (.remove 1 1) [] .start (hwhen.2.1.mpr ⟨_, rfl, rfl, by decide⟩)

/-- An instruction that does nothing, and the end of a function. -/
def nopThenReturn : FlowGraph :=
  { blocks := ({} : Roster Block).insert (.ofCode [.nop, .ret]), entry := 1 }

/-- The cursors do not stay in range in general: once an instruction in front of the cursor is removed, the block
cannot insert another one. -/
theorem not_cursorsInRange_remove :
    ¬∀ (w : Workbench) (changes : List Change), w.graph.CursorsInRange → ∀ w' rest, Reaches w changes w' rest →
      w'.graph.CursorsInRange ∧ ∀ id i, ((Change.block id (.insert i)).make? w').isSome = true := by
  intro hclaim
  have hrange : nopThenReturn.CursorsInRange := by
    unfold FlowGraph.CursorsInRange Block.CursorInRange
    decide
  have hremoved := hclaim { graph := nopThenReturn } [.graph (.remove 1 0)] hrange _ [] (.step .start rfl)
  have hinsert := hremoved.2 1 .nop
  revert hinsert
  decide +kernel

end Workbench
end ThumbHardening
