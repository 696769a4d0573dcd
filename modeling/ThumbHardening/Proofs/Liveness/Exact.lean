import ThumbHardening.Proofs.Liveness.FreeRegisters
import Mathlib.Logic.Function.Iterate

/-!
# Exactness

As far as the analysis knows a graph, execution goes through blocks to their ends and on along their edges. A
register is live at a position exactly if some walk of this kind reads it before it overwrites it. A settled
map has every such register, since it agrees with what each block computes. No map on the way to it has any
other, since a block only adds what it reads itself or finds in the entries of other blocks.
-/

namespace ThumbHardening
namespace FlowGraph

/-! ### Walks -/

/-- The instructions from a position of a block on, through the rest of the block and then along edges through
whole blocks. A walk ends at any point, and at the latest at an edge to a block that does not exist. -/
inductive Walk (g : FlowGraph) : (id index : Nat) → Code → Prop
  | stop (id index) : Walk g id index []
  | next {id index i rest} : g.instr? id index = some i → Walk g id (index + 1) rest →
      Walk g id index (i :: rest)
  | edge {id b edge rest} : g.block? id = some b → edge ∈ b.edges → Walk g edge.target 0 rest →
      Walk g id b.instrs.length rest

/-- Whether a walk reads a register before it overwrites it. -/
def ReadFrom (g : FlowGraph) (r : PhysReg) (id index : Nat) : Prop :=
  ∃ path, g.Walk id index path ∧ Code.ReadsFirst r path

variable {g : FlowGraph} {live live' : LiveMap} {b : Block} {r : PhysReg} {id index : Nat}

/-- What a walk reads first is live at its start. -/
theorem liveAt_of_readFrom (hsettled : g.Settled live) (h : g.ReadFrom r id index) :
    g.LiveAt live r id index := by
  obtain ⟨path, hpath, hread⟩ := h
  induction hpath with
  | stop => cases hread
  | next hi _ ih =>
    rw [liveAt_iff_of_instr? hi]
    cases hread with
    | here huses => exact .inl huses
    | later hkept hread => exact .inr ⟨hkept, ih hread⟩
  | edge hb hedge _ ih =>
    exact (liveAt_length_iff hb).mpr ⟨_, hedge, (ih hread).contains_get hsettled⟩

/-! ### Maps on the way -/

/-- Whether a walk reads each register of the entries first. -/
def Grounded (g : FlowGraph) (live : LiveMap) : Prop :=
  ∀ id r, (live.get id).contains r = true → g.ReadFrom r id 0

theorem grounded_nil (g : FlowGraph) : g.Grounded [] :=
  fun _ r hr => absurd hr (by simp [LiveMap.get])

/-- What a grounded map makes live at a position is read on a walk from there. -/
theorem Grounded.readFrom (hgrounded : g.Grounded live) (hb : g.block? id = some b)
    (hle : index ≤ b.instrs.length) (h : g.LiveAt live r id index) : g.ReadFrom r id index := by
  induction hle using Nat.decreasingInduction with
  | self =>
    obtain ⟨edge, hedge, hlive⟩ := (liveAt_length_iff hb).mp h
    obtain ⟨path, hpath, hread⟩ := hgrounded _ _ hlive
    exact ⟨path, .edge hb hedge hpath, hread⟩
  | of_succ index hlt ih =>
    have hi : g.instr? id index = some b.instrs[index] :=
      instr?_eq_some_iff.mpr ⟨b, hb, List.getElem?_eq_getElem hlt⟩
    rcases (liveAt_iff_of_instr? hi).mp h with huses | ⟨hkept, hbehind⟩
    · exact ⟨[b.instrs[index]], .next hi (.stop _ _), .here huses⟩
    · obtain ⟨path, hpath, hread⟩ := ih hbehind
      exact ⟨_ :: path, .next hi hpath, .later hkept hread⟩

theorem Grounded.liveStep (hids : g.blocks.ids.Nodup) (hb : b ∈ g.blocks.elems) {changed : Bool}
    (hgrounded : g.Grounded live) : g.Grounded (liveStep b (live, changed)).1 := by
  rw [FlowGraph.liveStep]
  split
  · exact hgrounded
  · intro id r hr
    rw [LiveMap.get, LiveMap.lookup_put] at hr
    by_cases hid : id = b.id
    · have hblock := block?_id hids hb
      rw [if_pos hid, Option.getD_some] at hr
      rw [hid]
      exact hgrounded.readFrom hblock (Nat.zero_le _) ⟨_, liveAt?_of_le hblock (Nat.zero_le _), hr⟩
    · rw [if_neg hid] at hr
      exact hgrounded id r hr

theorem Grounded.liveRound (hids : g.blocks.ids.Nodup) (hgrounded : g.Grounded live) :
    g.Grounded (g.liveRound live).1 := by
  have hpart : ∀ blocks : List Block, (∀ b ∈ blocks, b ∈ g.blocks.elems) →
      g.Grounded (blocks.foldr FlowGraph.liveStep (live, false)).1 := by
    intro blocks hblocks
    induction blocks with
    | nil => exact hgrounded
    | cons b rest ih =>
      obtain ⟨hb, hrest⟩ := List.forall_mem_cons.mp hblocks
      exact (ih hrest).liveStep hids hb
  exact hpart _ fun _ hb => hb

/-! ### Rounds -/

theorem fst_foldr_liveStep {blocks : List Block} (h : (blocks.foldr liveStep (live, false)).2 = false) :
    (blocks.foldr liveStep (live, false)).1 = live := by
  induction blocks with
  | nil => rfl
  | cons b rest ih =>
    rw [List.foldr_cons, liveStep] at h ⊢
    split at h
    · next hagrees =>
      rw [if_pos hagrees]
      exact ih h
    · cases h

/-- A round that reports no change leaves the map as it is. -/
theorem eq_of_liveRound (h : g.liveRound live = (live', false)) : live' = live := by
  have hquiet : (g.blocks.elems.foldr liveStep (live, false)).2 = false := congrArg Prod.snd h
  exact (congrArg Prod.fst h).symm.trans (fst_foldr_liveStep hquiet)

/-- The map that the rounds settle in is the result of some number of rounds, and the next round does not
change it. -/
theorem exists_rounds_of_liveSettle {limit : Nat} (h : g.liveSettle limit live = some live') :
    ∃ rounds, (fun live => (g.liveRound live).1)^[rounds] live = live' ∧
      g.liveRound live' = (live', false) := by
  fun_induction g.liveSettle limit live with
  | case1 => cases h
  | case2 live limit next hround =>
    cases h
    cases eq_of_liveRound hround
    exact ⟨0, rfl, hround⟩
  | case3 live limit next hround ih =>
    obtain ⟨rounds, hiterate, hlast⟩ := ih h
    refine ⟨rounds + 1, ?_, hlast⟩
    rw [Function.iterate_succ_apply, hround]
    exact hiterate

theorem Grounded.iterate (hids : g.blocks.ids.Nodup) (hgrounded : g.Grounded live) (rounds : Nat) :
    g.Grounded ((fun live => (g.liveRound live).1)^[rounds] live) := by
  induction rounds generalizing live with
  | zero => exact hgrounded
  | succ rounds ih => exact ih (hgrounded.liveRound hids)

/-! ### Exact sets -/

/-- The settled map makes exactly those registers live at a position that some walk from there reads first, and
the queries give out the others. -/
theorem exists_liveAt?_exact (hids : g.blocks.ids.Nodup) (huses : g.hasUses = true) (hlive : g.liveness? = some live)
    (hb : b ∈ g.blocks.elems) (hle : index ≤ b.instrs.length) :
    ∃ regs, g.liveAt? live b.id index = some regs ∧ (∀ r, regs.contains r = true ↔ g.ReadFrom r b.id index) ∧
      ∀ reported compact, g.freeRegistersAt b.id index reported compact = .ok (freeOf regs compact) := by
  obtain ⟨settled, hsettles, hsettled⟩ := exists_liveness hids
  obtain rfl : settled = live := Option.some.inj (hsettles.symm.trans hlive)
  obtain ⟨rounds, hiterate, -⟩ := exists_rounds_of_liveSettle hlive
  have hgrounded : g.Grounded settled := hiterate ▸ (grounded_nil g).iterate hids rounds
  have hblock := block?_id hids hb
  have hregs : g.liveAt? settled b.id index = _ := liveAt?_of_le hblock hle
  refine ⟨_, hregs, fun r => ⟨fun hr => ?_, fun hread => ?_⟩, fun reported compact => ?_⟩
  · exact hgrounded.readFrom hblock hle ⟨_, hregs, hr⟩
  · obtain ⟨regs, hregs', hr⟩ := liveAt_of_readFrom hsettled hread
    rw [hregs, Option.some.injEq] at hregs'
    exact hregs' ▸ hr
  · simp [freeRegistersAt, huses, hlive, hregs]

/-- In a graph with distinct block IDs in which the registers read are defined, the rounds reach a map that the
next round does not change. At every position of every block it makes exactly those registers live that some
walk from there reads before it overwrites them, and the queries give out the others. -/
theorem liveness_exact (hids : g.blocks.ids.Nodup) (huses : g.hasUses = true) :
    ∃ live rounds, g.liveness? = some live ∧
      (fun live => (g.liveRound live).1)^[rounds] [] = live ∧ g.liveRound live = (live, false) ∧
      ∀ b ∈ g.blocks.elems, ∀ index ≤ b.instrs.length, ∃ regs, g.liveAt? live b.id index = some regs ∧
        (∀ r, regs.contains r = true ↔
          ∃ path, g.Walk b.id index path ∧ Code.ReadsFirst r path) ∧
        ∀ reported compact,
          g.freeRegistersAt b.id index reported compact = .ok (freeOf regs compact) := by
  obtain ⟨live, hlive, -⟩ := exists_liveness hids
  obtain ⟨rounds, hiterate, hlast⟩ := exists_rounds_of_liveSettle hlive
  exact ⟨live, rounds, hlive, hiterate, hlast, fun b hb index hle => exists_liveAt?_exact hids huses hlive hb hle⟩

/-- A loop that may replace `r3` before it adds it up, and that leaves to a block outside the graph. -/
def sumLoop : FlowGraph :=
  { blocks := (({} : Roster Block).insert
        { instrs := [.it .eq 8, { Instr.movImm (.phys .r3) 0 with pred := .eq }]
          edges := [.next 2] }).insert
      { instrs := [.add (.phys .r0) (.phys .r0) (.reg (.phys .r3)), .movImm (.phys .r2) 1]
        edges := [.jump 1, .jump 3] }
    entry := 1 }

/-- From behind the addition, `r3` is read in the next turn of the loop, and `r2` is not read at all. -/
theorem liveness_exact_sumLoop :
    (∃ path, sumLoop.Walk 2 1 path ∧ Code.ReadsFirst .r3 path) ∧
      ¬∃ path, sumLoop.Walk 2 1 path ∧ Code.ReadsFirst .r2 path := by
  obtain ⟨live, -, hlive, -, -, hall⟩ := liveness_exact (g := sumLoop) (by decide) (by decide)
  obtain ⟨regs, hregs, hexact, -⟩ := hall _ (List.mem_cons_of_mem _ List.mem_cons_self) 1 (by decide)
  have hcalculated : (sumLoop.liveness?.bind fun live => sumLoop.liveAt? live 2 1).map
      (fun regs => (regs.contains .r3, regs.contains .r2)) = some (true, false) := by decide +kernel
  rw [hlive] at hcalculated
  have hpair := Option.some.inj ((congrArg (Option.map _) hregs).symm.trans hcalculated)
  obtain ⟨hr3, hr2⟩ := Prod.mk.inj hpair
  exact ⟨(hexact .r3).mp hr3, fun hread => Bool.false_ne_true (hr2.symm.trans ((hexact .r2).mpr hread))⟩

end FlowGraph
end ThumbHardening
