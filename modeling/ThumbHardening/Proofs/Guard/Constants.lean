import ThumbHardening.Layout.Guard
import ThumbHardening.Proofs.Machine

/-!
# Constants in registers

A constant takes one instruction if it is an expansion of twelve bits. Any other takes two, which write its halves
one after the other. Either way the register holds the constant afterwards and nothing else has changed.
-/

namespace ThumbHardening
namespace Guard

variable {pl : Platform} {g : FlowGraph} {b : Block} {rest : Code} {m t : Machine}

/-! ### Halves of a word -/

theorem shiftRight_and (v : BitVec 32) : v >>> 16 &&& 0xffff#32 = v >>> 16 := by
  have hlt : v.toNat / 2 ^ 16 < 2 ^ 16 := by
    have := v.isLt
    omega
  apply BitVec.eq_of_toNat_eq
  rw [BitVec.toNat_and, BitVec.toNat_ushiftRight, Nat.shiftRight_eq_div_pow]
  exact Nat.and_two_pow_sub_one_of_lt_two_pow hlt

theorem join_halves (v : BitVec 32) :
    (v >>> 16) <<< 16 ||| (v &&& 0xffff#32) &&& 0xffff#32 = v := by
  have hmask : ∀ i : Fin 32, (0xffff#32).getLsbD i.val = decide (i.val < 16) := by decide
  apply BitVec.eq_of_getLsbD_eq
  intro i hi
  rw [BitVec.and_assoc, BitVec.and_self, BitVec.getLsbD_or, BitVec.getLsbD_and, hmask ⟨i, hi⟩,
    BitVec.getLsbD_shiftLeft, BitVec.getLsbD_ushiftRight]
  by_cases hlow : i < 16
  · simp [hlow]
  · have hback : 16 + (i - 16) = i := by omega
    simp [hlow, hi, hback]

theorem toNat_and_lowMask (v : BitVec 32) : (v &&& 0xffff#32).toNat = (v.setWidth 16).toNat := by
  rw [BitVec.toNat_and, BitVec.toNat_setWidth]
  exact Nat.and_two_pow_sub_one_eq_mod v.toNat 16

/-! ### Loading -/

theorem plain_loadConstant (dst : PhysReg) (value : BitVec 32) : ∀ i ∈ loadConstant dst value, i.Plain := by
  rw [loadConstant]
  split
  · exact List.forall_mem_singleton.mpr ⟨rfl, rfl, rfl⟩
  · exact List.forall_mem_cons.mpr ⟨⟨rfl, rfl, rfl⟩, List.forall_mem_singleton.mpr ⟨rfl, rfl, rfl⟩⟩

theorem run?_loadConstant (pl : Platform) (dst : PhysReg) (value : BitVec 32) (m : Machine) :
    pl.run? (loadConstant dst value) m = some (m.set dst value) := by
  rw [loadConstant]
  split
  · next hfits =>
    have hmove : pl.perform (.movImm (.phys dst) value.toNat) m = some (.next (m.set dst value)) := by
      simp only [Instr.movImm, Platform.perform, Platform.word?_imm, Option.bind_eq_bind, Option.bind_some]
      rw [if_pos (isModifiedImmediate_iff.mp hfits)]
    rw [Platform.run?_cons hmove]
    rfl
  · have hlow : pl.perform (.movw (.phys dst) (.imm (value &&& 0xffff#32).toNat)) m
        = some (.next (m.set dst (value &&& 0xffff#32))) := by
      simp only [Instr.movw, Platform.perform, Platform.half?_imm, Option.bind_eq_bind, Option.bind_some]
    have hhigh : pl.perform (.movt (.phys dst) (.imm (value >>> 16 &&& 0xffff#32).toNat))
        (m.set dst (value &&& 0xffff#32)) = some (.next (m.set dst value)) := by
      simp only [Instr.movt, Platform.perform, Platform.half?_imm, Option.bind_eq_bind, Option.bind_some, if_true]
      rw [shiftRight_and, Machine.regs_set, if_pos rfl, join_halves, Machine.set_set]
    rw [Platform.run?_cons hlow, Platform.run?_cons hhigh]
    rfl

theorem returns_loadConstant (dst : PhysReg) (value : BitVec 32)
    (h : Returns pl g b rest [] (m.set dst value) t) :
    Returns pl g b (loadConstant dst value ++ rest) [] m t :=
  .of_run? (plain_loadConstant dst value) (run?_loadConstant pl dst value m) h

/-- The test of a constant accepts exactly the expansions of twelve bits. Such a constant is loaded by one
instruction that holds it, any other one by two that hold 16 bits each. On every machine the register then holds
exactly the constant. -/
theorem loadConstant_exact (value : BitVec 32) :
    (isModifiedImmediate value = true ↔ ExpandedImmediate value) ∧
    ∀ dst : PhysReg,
      ((ExpandedImmediate value ∧ loadConstant dst value = [.movImm (.phys dst) value.toNat]) ∨
        (¬ ExpandedImmediate value ∧ ∃ low high : BitVec 16, loadConstant dst value
          = [.movw (.phys dst) (.imm low.toNat), .movt (.phys dst) (.imm high.toNat)])) ∧
      ∀ (pl : Platform) (m : Machine), pl.run? (loadConstant dst value) m = some (m.set dst value) := by
  refine ⟨isModifiedImmediate_iff, fun dst => ⟨?_, fun pl m => run?_loadConstant pl dst value m⟩⟩
  by_cases hfits : isModifiedImmediate value = true
  · exact .inl ⟨isModifiedImmediate_iff.mp hfits, by rw [loadConstant, if_pos hfits]⟩
  · refine .inr ⟨fun hexpanded => hfits hexpanded.isModifiedImmediate, value.setWidth 16,
      (value >>> 16).setWidth 16, ?_⟩
    rw [loadConstant, if_neg hfits, toNat_and_lowMask, toNat_and_lowMask]

/-- The address of a generator takes two instructions, the number of candidates one. -/
example : loadConstant .r2 0x40025800#32 = [.movw (.phys .r2) (.imm 0x5800), .movt (.phys .r2) (.imm 0x4002)] ∧
    loadConstant .r2 3#32 = [.movImm (.phys .r2) 3] := by decide

end Guard
end ThumbHardening
