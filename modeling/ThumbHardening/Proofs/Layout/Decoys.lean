import ThumbHardening.Layout
import ThumbHardening.Proofs.Address
import ThumbHardening.Proofs.Random
import Mathlib.Algebra.BigOperators.Group.List.Basic

/-!
# Planned decoys

Whatever is drawn, a planned decoy consists of whole pointer-sized entries, and its content is such that the
object made of it belongs to the class it was planned for: decoys of zero-initialized objects are zero, and
the others hold an odd word or the address of a trap block. The decoys in front of an object fill exactly its
share.
-/

namespace ThumbHardening

/-- The pointer sizes that a program can have. -/
def IsPointerSize (ptr : Nat) : Prop :=
  ptr = 4 ∨ ptr = 8

namespace IsPointerSize
variable {ptr : Nat}

theorem pos (h : IsPointerSize ptr) : 0 < ptr := by
  rcases h with rfl | rfl <;> decide

theorem dvd_decoyBlockSize (h : IsPointerSize ptr) : ptr ∣ decoyBlockSize := by
  rcases h with rfl | rfl <;> decide

/-- Reducing a product to 64 bits leaves whole entries. -/
theorem dvd_wrap_mul (h : IsPointerSize ptr) (units : Nat) : ptr ∣ Address.wrap (units * ptr) := by
  refine (Nat.dvd_mod_iff ?_).mpr (Nat.dvd_mul_left ..)
  rcases h with rfl | rfl <;> decide

end IsPointerSize

/-! ### Contents -/

theorem randomWord_ne_zero (ptr : Nat) (s : RandomStream) : (randomWord ptr s).1 ≠ 0 := by
  have hbits : Nat.pow 2 32 = 0x100000000 := rfl
  simp only [randomWord, hbits]
  split <;> omega

namespace DecoyContent

theorem isZero_words {words : List Nat} (hne : words ≠ []) (hodd : ∀ w ∈ words, w ≠ 0) :
    (DecoyContent.words words).initializer.isZero = false := by
  obtain ⟨w, rest, rfl⟩ := List.exists_cons_of_ne_nil hne
  simp [initializer, Initializer.isZero, hodd w (List.mem_cons_self ..)]

theorem isZero_traps {blocks : List BlockPointer} (hne : blocks ≠ []) :
    (DecoyContent.traps blocks).initializer.isZero = false := by
  obtain ⟨b, rest, rfl⟩ := List.exists_cons_of_ne_nil hne
  simp [initializer, Initializer.isZero]

/-- Content that is not zero has an entry that is not. -/
theorem exists_ne_zero {content : DecoyContent} (h : content.initializer.isZero = false) :
    ∃ entry ∈ content.initializer.entries, entry ≠ .null ∧ entry ≠ .raw 0 := by
  cases content with
  | zero => cases h
  | traps | words => simpa [initializer, Initializer.isZero, Initializer.entries] using h

end DecoyContent

theorem replicate_ne_nil {α : Type} (draw : RandomStream → α × RandomStream) {count : Nat}
    (hcount : 0 < count) (s : RandomStream) : (RandomStream.replicate draw count s).1 ≠ [] := by
  rw [← List.length_pos_iff_ne_nil, RandomStream.length_replicate]
  exact hcount

/-- The content of a decoy is zero exactly in the class of zero-initialized objects. -/
theorem DecoyState.isZero_chooseContent (storage : StorageClass) (ptr : Nat) (useTraps : Bool)
    {entries : Nat} (hentries : 0 < entries) (d : DecoyState) :
    (d.chooseContent storage ptr useTraps entries).1.initializer.isZero
      = decide (storage = .bss) := by
  rw [chooseContent]
  split
  · next hbss =>
    rw [hbss]
    rfl
  · next hbss =>
    rw [decide_eq_false hbss]
    split
    · exact DecoyContent.isZero_traps (replicate_ne_nil _ hentries _)
    · exact DecoyContent.isZero_words (replicate_ne_nil _ hentries _)
        (RandomStream.forall_mem_replicate (randomWord_ne_zero ptr) _ _)

theorem DecoyState.chooseContent_eq_zero_iff (storage : StorageClass) (ptr : Nat) (useTraps : Bool) (entries : Nat)
    (d : DecoyState) : (d.chooseContent storage ptr useTraps entries).1 = .zero ↔ storage = .bss := by
  rw [chooseContent]
  split
  · next hbss => simp [hbss]
  · next hbss => split <;> simp [hbss]

/-- Content that is not zero fills all entries. -/
theorem DecoyState.length_entries_chooseContent {storage : StorageClass} (hstorage : storage ≠ .bss) (ptr : Nat)
    (useTraps : Bool) (entries : Nat) (d : DecoyState) :
    (d.chooseContent storage ptr useTraps entries).1.initializer.entries.length = entries := by
  rw [chooseContent, if_neg hstorage]
  split <;> simp [DecoyContent.initializer, Initializer.entries]

/-- What holds of every planned decoy: it has whole entries, and it is zero if it has to be. -/
structure DecoyPlan.Sound (ptr : Nat) (d : DecoyPlan) : Prop where
  whole : ptr ∣ d.size
  isZero_eq : d.content.initializer.isZero = decide (d.storage = .bss)

/-- The object made of a decoy belongs to the class that the decoy was planned for. -/
theorem DecoyPlan.Sound.class_eq {ptr : Nat} {d : DecoyPlan} (h : d.Sound ptr) (name : String) :
    StorageClass.of? (Layout.decoyObject name d) = some d.storage := by
  simp only [StorageClass.of?, Layout.decoyObject, Option.map_some, h.isZero_eq]
  cases d.storage <;> rfl

namespace Layout

def plannedBytes (storage : StorageClass) (decoys : List DecoyPlan) : Nat :=
  ((decoys.filter fun d => d.storage = storage).map DecoyPlan.size).sum

@[simp] theorem plannedBytes_append (storage : StorageClass) (a b : List DecoyPlan) :
    plannedBytes storage (a ++ b) = plannedBytes storage a + plannedBytes storage b := by
  simp only [plannedBytes, List.filter_append, List.map_append, List.sum_append]

theorem plannedBytes_singleton (storage : StorageClass) (d : DecoyPlan) :
    plannedBytes storage [d] = if d.storage = storage then d.size else 0 := by
  by_cases h : d.storage = storage <;> simp [plannedBytes, h]

theorem plannedBytes_of_storage {storage : StorageClass} {decoys : List DecoyPlan}
    (h : ∀ d ∈ decoys, d.storage = storage) :
    plannedBytes storage decoys = (decoys.map DecoyPlan.size).sum := by
  rw [plannedBytes, List.filter_eq_self.mpr fun d hd => by simpa using h d hd]

theorem plannedBytes_of_ne {storage other : StorageClass} (hne : other ≠ storage)
    {decoys : List DecoyPlan} (h : ∀ d ∈ decoys, d.storage = other) :
    plannedBytes storage decoys = 0 := by
  rw [plannedBytes, List.filter_eq_nil_iff.mpr fun d hd => by simpa [h d hd] using hne]
  rfl

/-! ### The decoys in front of one object -/

theorem decoySize_le {remaining : Nat} : decoySize remaining ≤ remaining := by
  rw [decoySize]
  split <;> omega

/-- The decoys in front of an object fill the space they are planned for. -/
theorem sum_size_planDecoys (storage : StorageClass) (ptr : Nat) (useTraps : Bool) (anchor : Nat)
    (remaining : Nat) (d : DecoyState) :
    (((planDecoys storage ptr useTraps anchor remaining d).1).map DecoyPlan.size).sum = remaining := by
  induction remaining using Nat.strongRecOn generalizing d with
  | ind remaining ih =>
    cases remaining with
    | zero => simp [planDecoys]
    | succ remaining =>
      rw [planDecoys]
      simp only [List.map_cons, List.sum_cons]
      have hpos : 0 < decoySize (remaining + 1) := decoySize_pos (Nat.succ_ne_zero remaining)
      have hle : decoySize (remaining + 1) ≤ remaining + 1 := decoySize_le
      rw [ih _ (by omega)]
      omega

theorem dvd_decoySize {ptr : Nat} (hptr : IsPointerSize ptr) {remaining : Nat}
    (hdvd : ptr ∣ remaining) : ptr ∣ decoySize remaining := by
  rw [decoySize]
  split
  · exact hdvd
  · exact hptr.dvd_decoyBlockSize

theorem planDecoys_sound {ptr : Nat} (hptr : IsPointerSize ptr) (storage : StorageClass)
    (useTraps : Bool) (anchor : Nat) {remaining : Nat} (hdvd : ptr ∣ remaining) (d : DecoyState) :
    ∀ plan ∈ (planDecoys storage ptr useTraps anchor remaining d).1,
      plan.storage = storage ∧ plan.Sound ptr := by
  induction remaining using Nat.strongRecOn generalizing d with
  | ind remaining ih =>
    cases remaining with
    | zero => simp [planDecoys]
    | succ remaining =>
      rw [planDecoys]
      intro plan hplan
      have hpos : 0 < decoySize (remaining + 1) := decoySize_pos (Nat.succ_ne_zero remaining)
      have hsize : ptr ∣ decoySize (remaining + 1) := dvd_decoySize hptr hdvd
      rcases List.mem_cons.mp hplan with rfl | hrest
      · refine ⟨rfl, hsize, DecoyState.isZero_chooseContent storage ptr useTraps ?_ d⟩
        exact Nat.div_pos (Nat.le_of_dvd hpos hsize) hptr.pos
      · exact ih _ (by omega) (Nat.dvd_sub hdvd hsize) _ plan hrest

end Layout
end ThumbHardening
