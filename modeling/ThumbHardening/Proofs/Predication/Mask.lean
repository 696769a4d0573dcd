import ThumbHardening.Predication
import Mathlib.Algebra.GroupWithZero.Nat

/-!
# Masks

The mask of a group says what the conditions of its members are. Writing the mask and reading it back gives
the conditions again, for every group of up to four members under one condition and its opposite. Each bit
is read off by comparing with its weight: what the bits behind it add up to is less.
-/

namespace ThumbHardening

/-! ### Bits -/

theorem maskBits_cons (first c : Cond) (rest : List Cond) (k : Nat) :
    maskBits first (2 ^ (k + 1)) (c :: rest)
      = (if c = first then 0 else 2 ^ (k + 1)) + maskBits first (2 ^ k) rest := by
  have hhalf : 2 ^ (k + 1) / 2 = 2 ^ k := by omega
  rw [maskBits, hhalf]

theorem expandMask_succ (first : Cond) (k mask : Nat) :
    expandMask first (k + 1) mask
      = if mask = 2 ^ k then some []
        else if mask < 2 ^ k then (expandMask first k mask).map (first :: ·)
        else if first = .al then none
        else (expandMask first k (mask - 2 ^ k)).map (first.inverse :: ·) := rfl

theorem maskBits_pos (first : Cond) (conds : List Cond) {k : Nat} (hlen : conds.length ≤ k) :
    0 < maskBits first (2 ^ k) conds := by
  induction conds generalizing k with
  | nil => exact Nat.two_pow_pos k
  | cons c rest ih =>
    cases k with
    | zero => simp at hlen
    | succ k =>
      rw [maskBits_cons]
      exact Nat.add_pos_right _ (ih (Nat.le_of_succ_le_succ hlen))

theorem maskBits_lt (first : Cond) (conds : List Cond) {k : Nat} (hlen : conds.length ≤ k) :
    maskBits first (2 ^ k) conds < 2 ^ (k + 1) := by
  induction conds generalizing k with
  | nil => exact Nat.pow_lt_pow_right (by decide) (Nat.lt_succ_self k)
  | cons c rest ih =>
    cases k with
    | zero => simp at hlen
    | succ k =>
      have hrest := ih (Nat.le_of_succ_le_succ hlen)
      rw [maskBits_cons]
      split <;> omega

/-- The bits of a mask give its conditions again. -/
theorem expandMask_maskBits {first : Cond} (hfirst : first ≠ .al) {conds : List Cond} {k : Nat}
    (hlen : conds.length ≤ k) (hconds : ∀ c ∈ conds, c = first ∨ c = first.inverse) :
    expandMask first (k + 1) (maskBits first (2 ^ k) conds) = some conds := by
  induction conds generalizing k with
  | nil => rw [maskBits, expandMask_succ, if_pos rfl]
  | cons c rest ih =>
    cases k with
    | zero => simp at hlen
    | succ k =>
      have hshort : rest.length ≤ k := Nat.le_of_succ_le_succ hlen
      have hpos := maskBits_pos first rest hshort
      have hlt := maskBits_lt first rest hshort
      have hrest := ih hshort fun c hc => hconds c (List.mem_cons_of_mem _ hc)
      rw [maskBits_cons, expandMask_succ]
      by_cases hc : c = first
      · rw [if_pos hc, Nat.zero_add, if_neg (by omega), if_pos hlt, hrest, hc]
        rfl
      · have hinverse : c = first.inverse := (hconds c List.mem_cons_self).resolve_left hc
        rw [if_neg hc, if_neg (by omega), if_neg (by omega), if_neg hfirst,
          Nat.add_sub_cancel_left, hrest, hinverse]
        rfl

/-! ### Masks of groups -/

/-- Reading back the mask of a group gives the conditions of its members. -/
theorem decodeMask?_maskBits {first : Cond} (hfirst : first ≠ .al) {conds : List Cond}
    (hlen : conds.length < maxGroupLength) (hconds : ∀ c ∈ conds, c = first ∨ c = first.inverse) :
    decodeMask? first (maskBits first 8 conds) = some (first :: conds) := by
  have hshort : conds.length ≤ 3 := Nat.le_of_lt_succ hlen
  have hpos := maskBits_pos first conds hshort
  have hlt := maskBits_lt first conds hshort
  have hexpand := expandMask_maskBits hfirst hshort hconds
  change 0 < maskBits first 8 conds at hpos
  change maskBits first 8 conds < 16 at hlt
  change expandMask first 4 (maskBits first 8 conds) = some conds at hexpand
  rw [decodeMask?, Nat.mod_eq_of_lt hlt, if_neg (by omega), hexpand]
  rfl

/-- The conditions that an instruction announces for those behind it, if it is an `It`. -/
def Instr.announced? (i : Instr) : Option (List Cond) :=
  i.itFields?.bind fun fields => decodeMask? fields.1 fields.2

theorem Instr.isIt_of_announced? {i : Instr} {conds : List Cond} (h : i.announced? = some conds) :
    i.isIt = true := by
  obtain ⟨fields, hfields, -⟩ := Option.bind_eq_some_iff.mp h
  rw [itFields?] at hfields
  split at hfields
  · next hopcode _ => simp [isIt, hopcode]
  · cases hfields

/-- Only an `It` announces conditions. -/
theorem Instr.announced?_eq_none {i : Instr} (h : i.isIt = false) : i.announced? = none := by
  cases hconds : i.announced? with
  | none => rfl
  | some conds =>
    rw [isIt_of_announced? hconds] at h
    cases h

/-- The `It` of a group announces the conditions of its members. -/
theorem announced?_it {first : Cond} (hfirst : first ≠ .al) {conds : List Cond}
    (hlen : conds.length < maxGroupLength) (hconds : ∀ c ∈ conds, c = first ∨ c = first.inverse) :
    (Instr.it first (maskBits first 8 conds)).announced? = some (first :: conds) := by
  have hlt : maskBits first 8 conds < 16 := maskBits_lt first conds (Nat.le_of_lt_succ hlen)
  have hcode : first.code < 256 := by cases first <;> decide
  have hfields : (Instr.it first (maskBits first 8 conds)).itFields?
      = some (first, maskBits first 8 conds) := by
    simp only [Instr.it, Instr.itFields?]
    have hcode' : ((first.code : Int) % 256).toNat = first.code := by omega
    have hmask' : ((maskBits first 8 conds : Int) % 256).toNat = maskBits first 8 conds := by omega
    rw [hcode', hmask', Cond.ofCode?_code]
    rfl
  rw [Instr.announced?, hfields]
  exact decodeMask?_maskBits hfirst hlen hconds

end ThumbHardening
