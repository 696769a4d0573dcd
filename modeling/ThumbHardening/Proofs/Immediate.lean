import ThumbHardening.Immediate

/-!
# Expanded immediates

An instruction holds a constant as twelve bits: a byte with the pattern in which it is repeated, or a byte
whose top bit is set with the amount it is rotated by. The test of a constant accepts exactly what such
twelve bits expand to. The byte is recovered from the constant by cutting off the bits above it, in the
rotated form after the rotation has been taken back.
-/

namespace ThumbHardening

/-- The constants that the twelve bits of an instruction expand to. -/
inductive ExpandedImmediate : BitVec 32 → Prop
  | byte (b : BitVec 8) : ExpandedImmediate (b.setWidth 32)
  | low (b : BitVec 8) : ExpandedImmediate (b.setWidth 32 <<< 16 ||| b.setWidth 32)
  | high (b : BitVec 8) : ExpandedImmediate (b.setWidth 32 <<< 24 ||| b.setWidth 32 <<< 8)
  | every (b : BitVec 8) : ExpandedImmediate
      (b.setWidth 32 <<< 24 ||| b.setWidth 32 <<< 16 ||| b.setWidth 32 <<< 8 ||| b.setWidth 32)
  | rotated (b : BitVec 8) (amount : Nat) : b.msb = true → 8 ≤ amount → amount < 32 →
      ExpandedImmediate ((b.setWidth 32).rotateRight amount)

/-! ### Bytes of a word -/

theorem getLsbD_lowMask {i : Nat} (hi : i < 32) : (0xff#32).getLsbD i = decide (i < 8) := by
  have listed : ∀ i : Fin 32, (0xff#32).getLsbD i.val = decide (i.val < 8) := by decide
  exact listed ⟨i, hi⟩

theorem getLsbD_highMask {i : Nat} (hi : i < 32) :
    (0xff00#32).getLsbD i = decide (8 ≤ i ∧ i < 16) := by
  have listed : ∀ i : Fin 32, (0xff00#32).getLsbD i.val = decide (8 ≤ i.val ∧ i.val < 16) := by
    decide
  exact listed ⟨i, hi⟩

theorem setWidth_byte (v : BitVec 32) : (v.setWidth 8).setWidth 32 = v &&& 0xff#32 := by
  apply BitVec.eq_of_getLsbD_eq
  intro i hi
  rw [BitVec.getLsbD_and, getLsbD_lowMask hi, BitVec.getLsbD_setWidth, BitVec.getLsbD_setWidth,
    decide_eq_true hi, Bool.true_and, Bool.and_comm]

theorem shiftLeft_byte (v : BitVec 32) :
    ((v >>> 8).setWidth 8).setWidth 32 <<< 8 = v &&& 0xff00#32 := by
  apply BitVec.eq_of_getLsbD_eq
  intro i hi
  rw [BitVec.getLsbD_and, getLsbD_highMask hi, BitVec.getLsbD_shiftLeft, setWidth_byte,
    BitVec.getLsbD_and, getLsbD_lowMask (by omega), BitVec.getLsbD_ushiftRight]
  by_cases hlow : i < 8
  · have houtside : ¬(8 ≤ i ∧ i < 16) := by omega
    rw [decide_eq_true hlow, decide_eq_false houtside]
    simp
  · have hback : 8 + (i - 8) = i := by omega
    have hrange : (8 ≤ i ∧ i < 16) ↔ i - 8 < 8 := by omega
    simp [hi, hlow, hback, hrange]

theorem setWidth_le (b : BitVec 8) : b.setWidth 32 ≤ 0xff#32 := by
  rw [BitVec.le_def, BitVec.toNat_setWidth]
  have hb := b.isLt
  change b.toNat % 2 ^ 32 ≤ 255
  omega

/-- A constant that fits a byte is that byte. -/
theorem setWidth_setWidth_of_le {v : BitVec 32} (h : v ≤ 0xff#32) :
    (v.setWidth 8).setWidth 32 = v := by
  have hlt : v.toNat < 2 ^ 8 := Nat.lt_succ_of_le (BitVec.le_def.mp h)
  apply BitVec.eq_of_toNat_eq
  rw [BitVec.toNat_setWidth, BitVec.toNat_setWidth]
  omega

/-- The byte that a pattern repeats is in the lowest place, or in the one above it. -/
theorem byte_of_pattern (b : BitVec 8) :
    (b.setWidth 32 <<< 16 ||| b.setWidth 32) &&& 0xff#32 = b.setWidth 32
      ∧ (b.setWidth 32 <<< 24 ||| b.setWidth 32 <<< 16 ||| b.setWidth 32 <<< 8 ||| b.setWidth 32)
          &&& 0xff#32 = b.setWidth 32
      ∧ (b.setWidth 32 <<< 24 ||| b.setWidth 32 <<< 8) &&& 0xff00#32 = b.setWidth 32 <<< 8 := by
  revert b
  decide +kernel

theorem getLsbD_seven {v : BitVec 32} : v &&& 0x80#32 ≠ 0#32 ↔ v.getLsbD 7 = true := by
  have hbit : (0x80#32) = BitVec.twoPow 32 7 := by decide
  rw [hbit, BitVec.and_twoPow]
  cases v.getLsbD 7 <;> decide

/-! ### Rotations -/

theorem rotateRight_rotateLeft (v : BitVec 32) {amount : Nat} (h : amount < 32) :
    (v.rotateLeft amount).rotateRight amount = v := by
  apply BitVec.eq_of_getLsbD_eq
  intro i hi
  rw [BitVec.getLsbD_rotateRight_of_lt h]
  by_cases hwrap : i < 32 - amount
  · have hback : amount + i - amount = i := by omega
    have hahead : ¬ amount + i < amount := by omega
    have hin : amount + i < 32 := by omega
    rw [decide_eq_true hwrap, cond_true, BitVec.getLsbD_rotateLeft_of_le h, decide_eq_false hahead,
      cond_false, decide_eq_true hin, Bool.true_and, hback]
  · have hback : 32 - amount + (i - (32 - amount)) = i := by omega
    have hbehind : i - (32 - amount) < amount := by omega
    rw [decide_eq_false hwrap, cond_false, decide_eq_true hi, Bool.true_and,
      BitVec.getLsbD_rotateLeft_of_le h, decide_eq_true hbehind, cond_true, hback]

theorem rotateLeft_rotateRight (v : BitVec 32) {amount : Nat} (h : amount < 32) :
    (v.rotateRight amount).rotateLeft amount = v := by
  apply BitVec.eq_of_getLsbD_eq
  intro i hi
  rw [BitVec.getLsbD_rotateLeft_of_le h]
  by_cases hwrap : i < amount
  · have hback : 32 - amount + i - (32 - amount) = i := by omega
    have hahead : ¬ 32 - amount + i < 32 - amount := by omega
    have hin : 32 - amount + i < 32 := by omega
    rw [decide_eq_true hwrap, cond_true, BitVec.getLsbD_rotateRight_of_lt h,
      decide_eq_false hahead, cond_false, decide_eq_true hin, Bool.true_and, hback]
  · have hback : amount + (i - amount) = i := by omega
    have hbehind : i - amount < 32 - amount := by omega
    rw [decide_eq_false hwrap, cond_false, decide_eq_true hi, Bool.true_and,
      BitVec.getLsbD_rotateRight_of_lt h, decide_eq_true hbehind, cond_true, hback]

/-! ### The test -/

theorem ExpandedImmediate.isModifiedImmediate {v : BitVec 32} (h : ExpandedImmediate v) :
    isModifiedImmediate v = true := by
  simp only [ThumbHardening.isModifiedImmediate, Bool.or_eq_true, beq_iff_eq, decide_eq_true_eq,
    List.any_eq_true, Bool.and_eq_true, bne_iff_ne, List.mem_range'_1]
  cases h with
  | byte b => exact .inl (.inl (.inl (.inl (setWidth_le b))))
  | low b =>
    refine .inl (.inl (.inl (.inr ?_)))
    rw [(byte_of_pattern b).1]
  | high b =>
    refine .inl (.inr ?_)
    rw [(byte_of_pattern b).2.2, ← BitVec.shiftLeft_add]
  | every b =>
    refine .inl (.inl (.inr ?_))
    rw [(byte_of_pattern b).2.1]
  | rotated b amount htop hleast hmost =>
    refine .inr ⟨amount, ⟨hleast, by omega⟩, ?_⟩
    rw [rotateLeft_rotateRight _ hmost]
    refine ⟨setWidth_le b, getLsbD_seven.mpr ?_⟩
    rw [BitVec.getLsbD_setWidth, ← htop, BitVec.msb_eq_getLsbD_last]
    rfl

theorem expandedImmediate_of_isModifiedImmediate {v : BitVec 32} (h : isModifiedImmediate v = true) :
    ExpandedImmediate v := by
  simp only [isModifiedImmediate, Bool.or_eq_true, beq_iff_eq, decide_eq_true_eq, List.any_eq_true,
    Bool.and_eq_true, bne_iff_ne, List.mem_range'_1] at h
  obtain (((hbyte | hlow) | hevery) | hhigh) | hrotated := h
  · rw [← setWidth_setWidth_of_le hbyte]
    exact .byte _
  · rw [hlow, ← setWidth_byte]
    exact .low _
  · rw [hevery, ← setWidth_byte]
    exact .every _
  · rw [hhigh, ← shiftLeft_byte, ← BitVec.shiftLeft_add]
    exact .high _
  · obtain ⟨amount, hamount, hfits, htop⟩ := hrotated
    rw [← rotateRight_rotateLeft v (show amount < 32 by omega), ← setWidth_setWidth_of_le hfits]
    refine .rotated _ amount ?_ hamount.1 (by omega)
    rw [BitVec.msb_eq_getLsbD_last, BitVec.getLsbD_setWidth, getLsbD_seven.mp htop]
    rfl

theorem isModifiedImmediate_iff {v : BitVec 32} :
    isModifiedImmediate v = true ↔ ExpandedImmediate v :=
  ⟨expandedImmediate_of_isModifiedImmediate, ExpandedImmediate.isModifiedImmediate⟩

instance : DecidablePred ExpandedImmediate :=
  fun _ => decidable_of_iff _ isModifiedImmediate_iff

end ThumbHardening
