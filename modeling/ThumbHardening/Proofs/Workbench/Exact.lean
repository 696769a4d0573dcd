import ThumbHardening.Proofs.Workbench

/-!
# Edits change what they are asked to change

Taking a group apart and repairing the code moves `It` instructions only. Among the others, an insertion puts the
new instructions next to the anchor and tells where the anchor is then, a removal takes out one instruction, and
nothing else in the graph changes.
-/

namespace ThumbHardening
namespace Code

variable {code front back : Code} {index : Nat} {anchor i : Instr}

/-! ### Code -/

/-- The instructions other than `It` that join an anchor, as they execute there: one without a condition takes the
anchor's if that one needs a group. -/
def joining (anchor : Instr) (new : List Instr) : Code :=
  (ordinary new).map fun i => if anchor.needsGroup ∧ i.pred = .al then { i with pred := anchor.pred } else i

theorem adopt_neighbourPred (hit : i.isIt = false) :
    adopt (neighbourPred anchor) i
      = if anchor.needsGroup ∧ i.pred = .al then { i with pred := anchor.pred } else i := by
  cases hneeds : anchor.needsGroup with
  | false => simp [adopt, neighbourPred, hneeds]
  | true =>
    have hpred := pred_ne_al_of_needsGroup hneeds
    simp [adopt, neighbourPred, hneeds, hpred, hit, Instr.isConditional]

theorem isIt_adopt (pred : Cond) (i : Instr) : (adopt pred i).isIt = i.isIt := by
  rw [adopt]
  split <;> rfl

theorem ordinary_map_adopt (anchor : Instr) (new : List Instr) :
    ordinary (new.map (adopt (neighbourPred anchor))) = joining anchor new := by
  have hkept : (fun i => !i.isIt) ∘ adopt (neighbourPred anchor) = fun i => !i.isIt :=
    funext fun i => congrArg (!·) (isIt_adopt _ i)
  rw [ordinary, List.filter_map, hkept, joining]
  refine List.map_congr_left fun i hi => adopt_neighbourPred ?_
  simpa using (List.mem_filter.mp hi).2

theorem at_take_drop (h : code[index]? = some i) :
    At code index (ordinary (code.take index)) i (ordinary (code.drop (index + 1))) := by
  obtain ⟨hlt, rfl⟩ := List.getElem?_eq_some_iff.mp h
  refine ⟨_, _, ?_, (List.length_take_of_le (Nat.le_of_lt hlt)).symm, rfl, rfl⟩
  rw [List.getElem_cons_drop, List.take_append_drop]

theorem ordinary_removeAt (h : At code index front i back) : ordinary (code.removeAt index) = front ++ back := by
  obtain ⟨a, b, hcode, hindex, rfl, rfl⟩ := h.ungroup
  have hungroup : code.ungroup index = (a ++ i :: b, a.length) := Prod.ext hcode hindex
  rw [removeAt, hungroup]
  simp only
  rw [ordinary_repair, List.eraseIdx_append_of_length_le (Nat.le_refl _), Nat.sub_self, List.eraseIdx_cons_zero,
    ordinary_append]

end Code

/-! ### Workbenches -/

namespace Workbench

variable {w : Workbench} {id index : Nat} {front back : List Block} {b : Block} {anchor : Instr}

/-- The workbench with other instructions in a block between others, and with other counts. -/
def recode (w : Workbench) (front : List Block) (b : Block) (back : List Block) (instrs : Code)
    (editor : Editor) : Workbench :=
  { graph := { w.graph with blocks := { w.graph.blocks with elems := front ++ { b with instrs } :: back } }
    editor }

theorem insertAround_eq_recode (hfound : w.graph.blocks.FoundBetween id front b back)
    (hanchor : b.instrs[index]? = some anchor) (behind : Bool) (new : List Instr) :
    w.insertAround id index behind new
      = (w.recode front b back (b.instrs.insertAround anchor index behind new).1
          { w.editor with inserted := w.editor.inserted + new.length },
        .ok (b.instrs.insertAround anchor index behind new).2) := by
  have hb : w.graph.block? id = some b := hfound.get?_eq
  rw [insertAround_eq, FlowGraph.insertAround, hb]
  simp only [hanchor, FlowGraph.updateBlock, hfound.update_eq]
  rfl

theorem remove_eq_recode (hfound : w.graph.blocks.FoundBetween id front b back)
    (hanchor : b.instrs[index]? = some anchor) (hit : anchor.isIt = false) :
    w.remove id index
      = (w.recode front b back (b.instrs.removeAt index) { w.editor with removed := w.editor.removed + 1 },
        .ok anchor) := by
  have hb : w.graph.block? id = some b := hfound.get?_eq
  rw [remove_eq, Editor.remove, FlowGraph.removeInstr, hb]
  simp only [hanchor, hit, FlowGraph.updateBlock, hfound.update_eq]
  rfl

/-- Next to an instruction other than `It`, an insertion adds the new instructions and finds the instruction again,
and a removal takes just that instruction out. Both change one block's instructions and one count. An edit that is
refused changes nothing. -/
theorem edits_exact (w : Workbench) (id index : Nat) (new : List Instr) :
    (∀ b anchor, w.graph.block? id = some b → b.instrs[index]? = some anchor → anchor.isIt = false →
      ∃ front back, w.graph.blocks.FoundBetween id front b back ∧
        (∃ code pos,
          w.insertBefore id index new
            = (w.recode front b back code { w.editor with inserted := w.editor.inserted + new.length }, .ok pos) ∧
          Code.At code pos (Code.ordinary (b.instrs.take index) ++ Code.joining anchor new) anchor
            (Code.ordinary (b.instrs.drop (index + 1)))) ∧
        (∃ code pos,
          w.insertAfter id index new
            = (w.recode front b back code { w.editor with inserted := w.editor.inserted + new.length }, .ok pos) ∧
          Code.At code pos (Code.ordinary (b.instrs.take index)) anchor
            (Code.joining anchor new ++ Code.ordinary (b.instrs.drop (index + 1)))) ∧
        ∃ code,
          w.remove id index
            = (w.recode front b back code { w.editor with removed := w.editor.removed + 1 }, .ok anchor) ∧
          Code.ordinary code = Code.ordinary (b.instrs.take index) ++ Code.ordinary (b.instrs.drop (index + 1))) ∧
    (∀ e, (w.insertBefore id index new).2 = .error e → (w.insertBefore id index new).1 = w) ∧
    (∀ e, (w.insertAfter id index new).2 = .error e → (w.insertAfter id index new).1 = w) ∧
    ∀ e, (w.remove id index).2 = .error e → (w.remove id index).1 = w := by
  refine ⟨fun b anchor hb hanchor hit => ?_, fun e he => ?_, fun e he => ?_, fun e he => ?_⟩
  · obtain ⟨front, back, hfound⟩ := Roster.exists_foundBetween hb
    have hat := Code.at_take_drop hanchor
    refine ⟨front, back, hfound, ⟨_, _, insertAround_eq_recode hfound hanchor false new, ?_⟩,
      ⟨_, _, insertAround_eq_recode hfound hanchor true new, ?_⟩,
      ⟨_, remove_eq_recode hfound hanchor hit, Code.ordinary_removeAt hat⟩⟩
    · rw [← Code.ordinary_map_adopt]
      exact Code.insertAround_before hat hit new
    · rw [← Code.ordinary_map_adopt]
      exact Code.insertAround_behind hat hit new
  · rw [insertBefore_eq] at he ⊢
    exact fst_settle_of_error he
  · rw [insertAfter_eq] at he ⊢
    exact fst_settle_of_error he
  · rw [remove_eq] at he ⊢
    exact fst_settle_of_error he

/-- In a group of one move, new code in front of the move executes under its condition, and removing the move leaves
the end of the function. -/
theorem edits_exact_predicatedMove :
    ∃ move : Instr, move.pred = .eq ∧ move.isIt = false ∧
      (∃ w' code pos, ({ graph := Edit.predicatedMove } : Workbench).insertBefore 1 1 [.nop] = (w', .ok pos) ∧
        Code.At code pos [{ Instr.nop with pred := .eq }] move [.ret]) ∧
      ∃ w' code, ({ graph := Edit.predicatedMove } : Workbench).remove 1 1 = (w', .ok move) ∧
        Code.ordinary code = [.ret] := by
  obtain ⟨_, _, -, ⟨_, _, hbefore, hat⟩, -, _, hremove, hleft⟩ :=
    (edits_exact { graph := Edit.predicatedMove } 1 1 [.nop]).1 _ _ rfl rfl rfl
  exact ⟨_, rfl, rfl, ⟨_, _, _, hbefore, hat⟩, _, _, hremove, hleft⟩

end Workbench
end ThumbHardening
