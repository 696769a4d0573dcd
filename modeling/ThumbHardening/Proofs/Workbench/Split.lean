import ThumbHardening.Proofs.FlowGraph.Grown
import ThumbHardening.Proofs.Predication.Verbatim
import ThumbHardening.Proofs.Workbench

/-!
# Splits conserve code, edges and fallthrough

A split cuts a block in two and repairs both parts. The instructions other than `It` are shared out, the groups on
either side of the cut stay as they are, the new block takes the edges along, and control reaches it from the old
one only. The blocks in front and behind do not change, and each `next` edge that led to the following block still
does.
-/

namespace ThumbHardening

/-! ### Parts of a block -/

/-- The two blocks that are left of a block which is cut at a position. -/
structure Block.Parts (b : Block) (index new : Nat) (head tail : Block) : Prop where
  head_id : head.id = b.id
  tail_id : tail.id = new
  head_ordinary : Code.ordinary head.instrs = Code.ordinary (b.instrs.take index)
  tail_ordinary : Code.ordinary tail.instrs = Code.ordinary (b.instrs.drop index)
  head_consistent : head.instrs.isConsistent = true
  tail_consistent : tail.instrs.isConsistent = true
  /-- Groups that end in front of the cut are kept where they are among the instructions other than `It`. -/
  head_groups : ∀ it group, Code.GroupAt b.instrs it group → it + group.length ≤ index →
    ∃ it', Code.GroupAt head.instrs it' group ∧ Code.rankOf head.instrs it' = Code.rankOf b.instrs it
  /-- So are groups that start behind it. -/
  tail_groups : ∀ it group, Code.GroupAt b.instrs it group → index ≤ it →
    ∃ it', Code.GroupAt tail.instrs it' group ∧
      Code.rankOf b.instrs index + Code.rankOf tail.instrs it' = Code.rankOf b.instrs it
  head_edges : head.edges = [.next new]
  tail_edges : tail.edges = b.edges

theorem Block.parts {b : Block} (hcode : b.instrs.isConsistent = true) (index new : Nat) :
    b.Parts index new (b.head index new) (b.tail index new) :=
  -- a repair leaves predicated debug information as it is, and consistent code has none
  have hbare := Code.debugBare_of_isConsistent hcode
  { head_id := rfl
    tail_id := rfl
    head_ordinary := Code.ordinary_repair _
    tail_ordinary := Code.ordinary_repair _
    head_consistent := Code.isConsistent_repair_take hbare index
    tail_consistent := Code.isConsistent_repair_drop hbare index
    head_groups := fun _ _ hgroup hindex => hgroup.repair_take hbare hindex
    tail_groups := fun _ _ hgroup hindex => hgroup.repair_drop hbare hindex
    head_edges := rfl
    tail_edges := rfl }

/-! ### Layout -/

namespace FlowGraph

variable {g : FlowGraph} {front back : List Block} {b : Block} {id index k : Nat}

theorem ids_cut (g : FlowGraph) (front : List Block) (b : Block) (back : List Block) (index : Nat) :
    (g.cut front b back index).blocks.ids
      = (front ++ [b]).map Block.id ++ g.blocks.next :: back.map Block.id := by
  rw [List.map_append, List.map_singleton, ← List.append_cons, Roster.ids, cut, List.map_append, List.map_cons,
    List.map_cons]
  rfl

theorem ids_of_foundBetween (hfound : g.blocks.FoundBetween id front b back) :
    g.blocks.ids = (front ++ [b]).map Block.id ++ back.map Block.id := by
  rw [Roster.ids, hfound.elems_eq, List.append_cons, List.map_append]
  rfl

/-- The new block is one more block with an ID of its own. -/
theorem ids_cut_perm (hfound : g.blocks.FoundBetween id front b back) (index : Nat) :
    (g.cut front b back index).blocks.ids.Perm (g.blocks.next :: g.blocks.ids) := by
  rw [ids_cut, ids_of_foundBetween hfound]
  exact List.perm_middle

theorem length_map_id (front : List Block) (b : Block) :
    ((front ++ [b]).map Block.id).length = front.length + 1 := by
  rw [List.length_map, List.length_append, List.length_singleton]

/-- Up to the block that is cut, all IDs stand where they were. -/
theorem standsAt_cut_of_le (hfound : g.blocks.FoundBetween id front b back) (hk : k ≤ front.length)
    (index other : Nat) : (g.cut front b back index).StandsAt other k ↔ g.StandsAt other k := by
  have hlt : k < ((front ++ [b]).map Block.id).length := by
    rw [length_map_id]
    exact Nat.lt_succ_of_le hk
  rw [StandsAt, StandsAt, ids_cut, ids_of_foundBetween hfound, List.getElem?_append_left hlt,
    List.getElem?_append_left hlt]

/-- Behind the block that is cut, all IDs have moved on by one. -/
theorem standsAt_cut_succ (hfound : g.blocks.FoundBetween id front b back) (hk : front.length < k)
    (index other : Nat) : (g.cut front b back index).StandsAt other (k + 1) ↔ g.StandsAt other k := by
  have hle : ((front ++ [b]).map Block.id).length ≤ k := by
    rw [length_map_id]
    exact hk
  rw [StandsAt, StandsAt, ids_cut, ids_of_foundBetween hfound, List.getElem?_append_right (Nat.le_succ_of_le hle),
    List.getElem?_append_right hle, Nat.succ_sub hle, List.getElem?_cons_succ]

theorem standsAt_cut_new (g : FlowGraph) (front : List Block) (b : Block) (back : List Block) (index : Nat) :
    (g.cut front b back index).StandsAt g.blocks.next (front.length + 1) := by
  rw [StandsAt, ids_cut, ← length_map_id front b, List.getElem?_append_right (Nat.le_refl _), Nat.sub_self,
    List.getElem?_cons_zero]

theorem FallsThrough.cut (h : g.FallsThrough) (hfound : g.blocks.FoundBetween id front b back) (index : Nat) :
    (g.cut front b back index).FallsThrough := by
  intro k c hc target hedge
  rw [FallsThrough, hfound.elems_eq] at h
  change (front ++ b.head index g.blocks.next :: b.tail index g.blocks.next :: back)[k]? = some c at hc
  rcases Nat.lt_or_ge k front.length with hlt | hge
  · -- in front of the block that is cut
    rw [List.getElem?_append_left hlt] at hc
    exact (standsAt_cut_of_le hfound hlt index target).mpr
      (h k c ((List.getElem?_append_left hlt).trans hc) target hedge)
  · obtain ⟨past, rfl⟩ := Nat.exists_eq_add_of_le hge
    rw [List.getElem?_append_right hge, Nat.add_sub_cancel_left] at hc
    -- an edge of the block that is cut, or of one behind it, leads one position further on
    have hold (j : Nat) (d : Block) (hd : (b :: back)[j]? = some d) (hd' : .next target ∈ d.edges) :
        (g.cut front b back index).StandsAt target (front.length + j + 1 + 1) := by
      refine (standsAt_cut_succ hfound (by omega) index target).mpr (h (front.length + j) d ?_ target hd')
      rw [List.getElem?_append_right (Nat.le_add_right ..), Nat.add_sub_cancel_left]
      exact hd
    match past with
    | 0 =>
      cases hc
      obtain rfl : target = g.blocks.next := by simpa [Block.head] using hedge
      exact standsAt_cut_new ..
    | 1 =>
      cases hc
      exact hold 0 b rfl hedge
    | j + 2 => exact hold (j + 1) c hc hedge

/-- A split is an insertion of a block between changes in place. -/
theorem Grown.cut {reused : List Nat} (h : Grown reused g) (hfound : g.blocks.FoundBetween id front b back)
    (index : Nat) : Grown reused (g.cut front b back index) := by
  have hids : (g.updateBlock id fun _ => b.head index g.blocks.next).blocks.ids = g.blocks.ids := by
    refine Roster.map_update fun other hother => ?_
    rw [Option.some.inj (hother.symm.trans hfound.get?_eq)]
    rfl
  have hhead : Grown reused (g.updateBlock id fun _ => b.head index g.blocks.next) :=
    h.kept hids (Roster.next_update ..)
  have hnew : (g.updateBlock id fun _ => b.head index g.blocks.next).reuse (b.tail index 0) = [] :=
    if_neg fun hzero => ((Tallied.of_grown hhead).bounds 0 hzero).1 rfl
  have hcut := Grown.inserted (b.tail index 0) hhead (insertAfter?_head hfound index)
  rwa [hnew, List.nil_append] at hcut

end FlowGraph

/-! ### Splits -/

namespace Workbench

variable {w : Workbench} {reused : List Nat}

/-- A block with consistent groups is split at any position up to its end. The new block has an ID that no block
has had, stands directly behind the old one and takes its edges, and both parts are consistent and hold the
instructions and groups on their side. Nothing else changes but the count, and the graph remains one with distinct
IDs and real fallthroughs. A split of an unknown block or beyond the end changes nothing. -/
theorem splitBefore_conserves (hgrown : FlowGraph.Grown reused w.graph) (hids : w.graph.blocks.ids.Nodup)
    (id index : Nat) :
    (∀ b, w.graph.block? id = some b → b.instrs.isConsistent = true → index ≤ b.instrs.length →
      ∃ front back head tail new w', w.graph.blocks.FoundBetween id front b back ∧
        w.splitBefore id index = (w', .ok new) ∧
        (∀ earlier, FlowGraph.Later earlier w.graph → new ∉ earlier.blocks.ids) ∧
        b.Parts index new head tail ∧
        w'.graph = { w.graph with blocks := { elems := front ++ head :: tail :: back, next := new + 1 } } ∧
        w'.editor = { w.editor with splits := w.editor.splits + 1 } ∧
        FlowGraph.Grown reused w'.graph ∧ w'.graph.blocks.ids.Nodup ∧
        (w.graph.FallsThrough → w'.graph.FallsThrough)) ∧
    (w.graph.block? id = none → w.splitBefore id index = (w, .error (.unknownBlock id))) ∧
    ∀ b, w.graph.block? id = some b → b.instrs.length < index →
      w.splitBefore id index = (w, .error (.invalidPosition id index)) := by
  refine ⟨fun b hb hcode hindex => ?_, fun hb => ?_, fun b hb hindex => ?_⟩
  · obtain ⟨front, back, hfound⟩ := Roster.exists_foundBetween hb
    have hnew := fun earlier (h : FlowGraph.Later earlier w.graph) => hgrown.next_notMem h
    refine ⟨front, back, _, _, _, _, hfound, splitBefore_eq_cut hfound hindex, hnew,
      Block.parts hcode index w.graph.blocks.next, rfl, rfl, hgrown.cut hfound index, ?_,
      fun h => h.cut hfound index⟩
    exact (FlowGraph.ids_cut_perm hfound index).nodup_iff.mpr (List.nodup_cons.mpr ⟨hnew _ .same, hids⟩)
  · rw [splitBefore, hb]
  · rw [splitBefore, hb]
    exact if_pos hindex

/-- A cut between an `It` and its move leaves the `It` nothing to cover, and the move gets another one in the new
block. -/
theorem splitBefore_conserves_predicatedMove :
    ∃ front back head tail new w',
      ({ graph := Edit.predicatedMove } : Workbench).splitBefore 1 1 = (w', .ok new) ∧ new ≠ 1 ∧
        w'.graph.blocks.elems = front ++ head :: tail :: back ∧ head.edges = [.next new] ∧
        tail.instrs.isConsistent = true ∧ Code.ordinary head.instrs = [] ∧
        (Code.ordinary tail.instrs).map Instr.opcode = [.mov, .ret] := by
  have hgrown : FlowGraph.Grown [] Edit.predicatedMove := .kept (.appended _ .new) rfl rfl
  obtain ⟨front, back, head, tail, new, w', -, hsplit, hnew, hparts, hgraph, -⟩ :=
    (splitBefore_conserves (w := { graph := Edit.predicatedMove }) hgrown (by decide) 1 1).1 _ rfl (by decide)
      (by decide)
  refine ⟨front, back, head, tail, new, w', hsplit, ?_, by rw [hgraph], hparts.head_edges, hparts.tail_consistent,
    hparts.head_ordinary, ?_⟩
  · rintro rfl
    exact hnew _ .same (by decide)
  · rw [hparts.tail_ordinary]
    rfl

end Workbench
end ThumbHardening
