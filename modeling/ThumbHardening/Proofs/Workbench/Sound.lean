import ThumbHardening.Proofs.Verify
import ThumbHardening.Proofs.Workbench.Split

/-!
# Splits and verification

A split keeps everything that the verification asks of a flow graph but one thing. A trap block has to start with a
trap, and the front part of a trap block is still one. It starts with the trap unless it is empty or a repair puts
an `It` in front of the trap.
-/

namespace ThumbHardening

variable {id index : Nat} {front back : List Block} {b : Block}

/-! ### The first instruction -/

/-- A repair leaves the first instruction first, unless it opens a group for it. -/
theorem Code.head?_repair {i : Instr} {rest : Code} (hit : i.isIt = false) :
    (repair (i :: rest)).head?.map Instr.opcode = some (if i.needsGroup then .it else i.opcode) := by
  have hkept : dropStale (i :: rest) = i :: dropStale rest := by simp [dropStale, hit]
  rw [repair]
  simp only [hkept, coveredMarks_cons, coverage_eq_none hit, List.zip_cons_cons]
  rw [regroup]
  cases i.needsGroup <;> rfl

theorem Instr.needsGroup_of_trap {i : Instr} (htrap : i.opcode = .trap) : i.needsGroup = i.isConditional := by
  simp [needsGroup, isIt, htrap, Opcode.hasInlinePredicate]

/-- Whether the front part of a block that starts with a trap starts with it as well. -/
theorem Code.head?_repair_take_iff {code : Code} (htrap : code.head?.map Instr.opcode = some .trap) :
    (repair (code.take index)).head?.map Instr.opcode = some .trap ↔
      index ≠ 0 ∧ code.head?.any Instr.isConditional = false := by
  obtain ⟨i, hi, hopcode⟩ := Option.map_eq_some_iff.mp htrap
  obtain ⟨rest, rfl⟩ := List.head?_eq_some_iff.mp hi
  have hit : i.isIt = false := by simp [Instr.isIt, hopcode]
  cases index with
  | zero =>
    have hempty : (repair []).head? = none := by simp [repair, dropStale, coveredMarks, regroup]
    rw [List.take_zero, hempty]
    simp
  | succ index =>
    rw [List.take_succ_cons, head?_repair hit, Instr.needsGroup_of_trap hopcode]
    cases hcond : i.isConditional <;> simp [hopcode, hcond]

/-! ### Flow graphs -/

namespace FlowGraph

variable {g : FlowGraph}

theorem contains_cut (hfound : g.blocks.FoundBetween id front b back) (index : Nat) {target : Nat}
    (h : g.blocks.contains target = true) : (g.cut front b back index).blocks.contains target = true := by
  rw [Roster.contains_eq, List.contains_iff_mem] at h ⊢
  exact (ids_cut_perm hfound index).mem_iff.mpr (List.mem_cons_of_mem _ h)

/-- A sound graph stays sound exactly if the front part of a trap block starts with a trap. -/
theorem Sound.cut_iff (h : g.Sound) (hnext : g.blocks.next ≠ 0)
    (hfound : g.blocks.FoundBetween id front b back) (index : Nat) :
    (g.cut front b back index).Sound ↔
      (b.trap = true → (Code.repair (b.instrs.take index)).head?.map Instr.opcode = some .trap) := by
  have hb : b ∈ g.blocks.elems := Roster.mem_of_get? hfound.get?_eq
  have hmem (other : Block) : other ∈ (g.cut front b back index).blocks.elems ↔
      other = b.head index g.blocks.next ∨ other = b.tail index g.blocks.next ∨ other ∈ front ++ back := by
    simp only [FlowGraph.cut, List.mem_append, List.mem_cons]
    tauto
  have hkept (other : Block) (hother : other ∈ front ++ back) : other ∈ g.blocks.elems := by
    rw [hfound.elems_eq]
    simp only [List.mem_append, List.mem_cons] at hother ⊢
    tauto
  constructor
  · intro hcut
    exact (hcut.blocks _ ((hmem _).mpr (.inl rfl))).trap_first
  · intro htrap
    refine ⟨h.entry_ne_zero, contains_cut hfound index h.contains_entry, fun other hother => ?_,
      fun other hother edge hedge => ?_⟩
    · rcases (hmem other).mp hother with rfl | rfl | hother
      · exact ⟨(h.blocks b hb).id_ne_zero, Nat.le_refl _, htrap⟩
      · exact ⟨hnext, (h.blocks b hb).one_next, fun htail => absurd htail Bool.false_ne_true⟩
      · exact h.blocks other (hkept other hother)
    · rcases (hmem other).mp hother with rfl | rfl | hother
      · rw [List.mem_singleton.mp hedge, Roster.contains_eq, List.contains_iff_mem]
        exact (ids_cut_perm hfound index).mem_iff.mpr List.mem_cons_self
      · exact contains_cut hfound index (h.targets b hb edge hedge)
      · exact contains_cut hfound index (h.targets other (hkept other hother) edge hedge)

end FlowGraph

namespace Workbench

variable {w w' : Workbench} {new : Nat}

theorem splitBefore_eq_ok (hfound : w.graph.blocks.FoundBetween id front b back)
    (hok : w.splitBefore id index = (w', .ok new)) : w'.graph = w.graph.cut front b back index := by
  have hb : w.graph.block? id = some b := hfound.get?_eq
  rcases Nat.lt_or_ge b.instrs.length index with hlt | hle
  · rw [splitBefore, hb] at hok
    simp [hlt] at hok
  · rw [splitBefore_eq_cut hfound hle] at hok
    rw [← (Prod.mk.inj hok).1]

theorem exists_splitBefore_eq_ok (hb : w.graph.block? id = some b) (hindex : index ≤ b.instrs.length) :
    ∃ w' new, w.splitBefore id index = (w', .ok new) := by
  obtain ⟨front, back, hfound⟩ := Roster.exists_foundBetween hb
  exact ⟨_, _, splitBefore_eq_cut hfound hindex⟩

theorem verify_splitBefore_iff (hnext : w.graph.blocks.next ≠ 0) (hverify : w.graph.verify = .ok ())
    (hb : w.graph.block? id = some b) (hok : w.splitBefore id index = (w', .ok new)) :
    w'.graph.verify = .ok () ↔
      (b.trap = true → index ≠ 0 ∧ b.instrs.head?.any Instr.isConditional = false) := by
  obtain ⟨front, back, hfound⟩ := Roster.exists_foundBetween hb
  have hsound := FlowGraph.verify_eq_ok_iff.mp hverify
  rw [splitBefore_eq_ok hfound hok, FlowGraph.verify_eq_ok_iff, hsound.cut_iff hnext hfound]
  refine imp_congr_right fun htrap => Code.head?_repair_take_iff ?_
  exact (hsound.blocks b (Roster.mem_of_get? hb)).trap_first htrap

/-- The verification accepts a graph after a split unless a trap block was split in front of its first instruction,
or that one is a predicated trap. Splitting behind a position cuts in front of the next one. -/
theorem verify_split_iff (hnext : w.graph.blocks.next ≠ 0) (hverify : w.graph.verify = .ok ())
    (hb : w.graph.block? id = some b) :
    (∀ index w' new, w.splitBefore id index = (w', .ok new) →
      (w'.graph.verify = .ok () ↔
        (b.trap = true → index ≠ 0 ∧ b.instrs.head?.any Instr.isConditional = false))) ∧
    ∀ index w' new, w.splitAfter id index = (w', .ok new) →
      (w'.graph.verify = .ok () ↔
        (b.trap = true → Address.wrap (index + 1) ≠ 0 ∧ b.instrs.head?.any Instr.isConditional = false)) :=
  ⟨fun _ _ _ hok => verify_splitBefore_iff hnext hverify hb hok,
    fun _ _ _ hok => verify_splitBefore_iff hnext hverify hb hok⟩

/-- The end of a function and a trap block. -/
def trapGraph : FlowGraph :=
  { blocks := (({} : Roster Block).insert (.ofCode [.ret])).insert .trapBlock, entry := 1 }

/-- A trap block may be split behind its trap. -/
theorem verify_split_trapGraph :
    trapGraph.verify = .ok () ∧ ∃ w' new, ({ graph := trapGraph } : Workbench).splitAfter 2 0 = (w', .ok new) ∧
      w'.graph.verify = .ok () := by
  have hverify : trapGraph.verify = .ok () := rfl
  have hb : trapGraph.block? 2 = some { Block.trapBlock with id := 2 } := rfl
  obtain ⟨w', new, hok⟩ : ∃ w' new, ({ graph := trapGraph } : Workbench).splitAfter 2 0 = (w', .ok new) :=
    exists_splitBefore_eq_ok hb (by decide)
  have hiff := (verify_split_iff (w := { graph := trapGraph }) (by decide) hverify hb).2 0 w' new hok
  exact ⟨hverify, w', new, hok, hiff.mpr fun _ => ⟨by decide, rfl⟩⟩

/-- Not every split is accepted: in front of the trap it leaves a trap block without instructions. -/
theorem verify_splitBefore_rejected :
    ¬∀ (w w' : Workbench) (id index new : Nat), w.graph.blocks.next ≠ 0 → w.graph.verify = .ok () →
      w.splitBefore id index = (w', .ok new) → w'.graph.verify = .ok () := by
  intro hclaim
  have hb : trapGraph.block? 2 = some { Block.trapBlock with id := 2 } := rfl
  obtain ⟨w', new, hok⟩ : ∃ w' new, ({ graph := trapGraph } : Workbench).splitBefore 2 0 = (w', .ok new) :=
    exists_splitBefore_eq_ok hb (by decide)
  have haccepted := hclaim { graph := trapGraph } w' 2 0 new (by decide) rfl hok
  have hfirst := (verify_splitBefore_iff (by decide) rfl hb hok).mp haccepted rfl
  exact hfirst.1 rfl

end Workbench
end ThumbHardening
