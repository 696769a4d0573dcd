import ThumbHardening.Layout.Plan
import ThumbHardening.Proofs.Address
import ThumbHardening.Proofs.Roster
import Mathlib.Algebra.BigOperators.Group.List.Basic
import Mathlib.Algebra.Order.BigOperators.Group.List
import Mathlib.Algebra.Order.Group.Nat

/-!
# The objects of each class

The randomizer finds the members of a class in the order of the program and adds up their sizes with 64-bit
arithmetic. The sum is exact as long as all objects together fit 64-bit addresses.
-/

namespace ThumbHardening

@[simp] theorem PerClass.get_update {α : Type} (v : PerClass α) (c c' : StorageClass)
    (change : α → α) :
    (v.update c change).get c' = if c = c' then change (v.get c') else v.get c' := by
  cases c <;> cases c' <;> rfl

namespace Layout

/-- The bytes that objects take up. -/
def totalSize (objects : List GlobalObject) : Nat :=
  (objects.map GlobalObject.size).sum

theorem totalSize_cons (g : GlobalObject) (rest : List GlobalObject) :
    totalSize (g :: rest) = g.size + totalSize rest := by
  simp [totalSize]

theorem totalSize_append (xs ys : List GlobalObject) :
    totalSize (xs ++ ys) = totalSize xs + totalSize ys := by
  simp [totalSize]

/-- Whether an object is randomized within a class. -/
def isMember (c : StorageClass) (g : GlobalObject) : Bool :=
  StorageClass.of? g = some c && Members.sectionFits c g

/-- The objects of a program that are randomized within a class. -/
def originals (p : Program) (c : StorageClass) : List GlobalObject :=
  p.globals.elems.filter (isMember c)

namespace Members

/-- An object joins one class, or its sizes are left out. -/
theorem add_cases (m : Members) (g : GlobalObject) :
    (∃ c, (∀ c', isMember c' g = decide (c = c')) ∧ m.add g = m.enroll c g) ∨
      (∀ c, isMember c g = false) ∧ (m.add g).ofClass = m.ofClass ∧
        (m.add g).statistics.bytes = m.statistics.bytes := by
  rw [add]
  split
  · next hnone => exact .inr ⟨fun c => by simp [isMember, hnone], rfl, rfl⟩
  · next storage hsome =>
    split
    · next hfits =>
      refine .inl ⟨storage, fun c => ?_, rfl⟩
      by_cases hc : storage = c
      · subst hc
        simp [isMember, hsome, hfits]
      · simp [isMember, hsome, hc]
    · next hfits =>
      refine .inr ⟨fun c => ?_, rfl, rfl⟩
      by_cases hc : storage = c
      · subst hc
        simp [isMember, hfits]
      · simp [isMember, hsome, hc]

theorem get_ofClass_add (m : Members) (g : GlobalObject) (c : StorageClass) :
    (m.add g).ofClass.get c = m.ofClass.get c ++ if isMember c g then [g.id] else [] := by
  rcases add_cases m g with ⟨storage, hmember, hadd⟩ | ⟨hmember, hsame, -⟩
  · rw [hadd, hmember c]
    by_cases hc : storage = c <;> simp [enroll, hc]
  · rw [hsame, hmember c]
    simp

theorem get_bytes_add (m : Members) (g : GlobalObject) (c : StorageClass) :
    (m.add g).statistics.bytes.get c
      = if isMember c g then Address.wrap (m.statistics.bytes.get c + g.size)
        else m.statistics.bytes.get c := by
  rcases add_cases m g with ⟨storage, hmember, hadd⟩ | ⟨hmember, -, hsame⟩
  · rw [hadd, hmember c]
    by_cases hc : storage = c <;> simp [enroll, hc]
  · rw [hsame, hmember c]
    simp

theorem get_ofClass_foldl (objects : List GlobalObject) (m : Members) (c : StorageClass) :
    (objects.foldl add m).ofClass.get c
      = m.ofClass.get c ++ (objects.filter (isMember c)).map GlobalObject.id := by
  induction objects generalizing m with
  | nil => simp
  | cons g rest ih =>
    rw [List.foldl_cons, ih, get_ofClass_add]
    by_cases hg : isMember c g = true <;> simp [hg]

theorem get_bytes_foldl (objects : List GlobalObject) (m : Members) (c : StorageClass)
    (hsmall : m.statistics.bytes.get c + totalSize (objects.filter (isMember c)) < 2 ^ 64) :
    (objects.foldl add m).statistics.bytes.get c
      = m.statistics.bytes.get c + totalSize (objects.filter (isMember c)) := by
  induction objects generalizing m with
  | nil => rfl
  | cons g rest ih =>
    have hbytes := get_bytes_add m g c
    by_cases hg : isMember c g = true
    · rw [List.filter_cons_of_pos hg, totalSize_cons] at hsmall ⊢
      rw [if_pos hg, Address.wrap_of_lt (by omega)] at hbytes
      rw [List.foldl_cons, ih _ (by omega), hbytes]
      omega
    · rw [List.filter_cons_of_neg hg] at hsmall ⊢
      rw [if_neg hg] at hbytes
      rw [List.foldl_cons, ih _ (by omega), hbytes]

/-- Measuring counts objects and their bytes, and nothing else. -/
theorem counts_add (m : Members) (g : GlobalObject) :
    (m.add g).statistics.decoyWords = m.statistics.decoyWords ∧
      (m.add g).statistics.trapsEtched = m.statistics.trapsEtched := by
  rw [add]
  split
  · exact ⟨rfl, rfl⟩
  · split <;> exact ⟨rfl, rfl⟩

theorem counts_ofProgram (p : Program) :
    (ofProgram p).statistics.decoyWords = ⟨0, 0, 0⟩ ∧ (ofProgram p).statistics.trapsEtched = 0 := by
  have hfold (objects : List GlobalObject) (m : Members) :
      (objects.foldl add m).statistics.decoyWords = m.statistics.decoyWords ∧
        (objects.foldl add m).statistics.trapsEtched = m.statistics.trapsEtched := by
    induction objects generalizing m with
    | nil => exact ⟨rfl, rfl⟩
    | cons g rest ih =>
      obtain ⟨hwords, htraps⟩ := counts_add m g
      obtain ⟨hwords', htraps'⟩ := ih (m.add g)
      exact ⟨hwords'.trans hwords, htraps'.trans htraps⟩
  exact hfold p.globals.elems {}

theorem get_decoyWords_ofProgram (p : Program) (c : StorageClass) :
    (ofProgram p).statistics.decoyWords.get c = 0 := by
  rw [(counts_ofProgram p).1]
  cases c <;> rfl

/-- The IDs of the members of a class, in the order of the program. -/
theorem get_ofClass_ofProgram (p : Program) (c : StorageClass) :
    (ofProgram p).ofClass.get c = (originals p c).map GlobalObject.id := by
  rw [ofProgram, get_ofClass_foldl]
  cases c <;> rfl

theorem nodup_ofClass {p : Program} (hids : p.globals.ids.Nodup) (c : StorageClass) :
    ((ofProgram p).ofClass.get c).Nodup := by
  rw [get_ofClass_ofProgram]
  exact hids.sublist (List.filter_sublist.map _)

/-- The measured bytes of a class are exact if its objects fit 64-bit addresses. -/
theorem get_bytes_ofProgram_of_lt {p : Program} {c : StorageClass}
    (hsmall : totalSize (originals p c) < 2 ^ 64) :
    (ofProgram p).statistics.bytes.get c = totalSize (originals p c) := by
  have hstart : ({} : Members).statistics.bytes.get c = 0 := by cases c <;> rfl
  rw [originals] at hsmall ⊢
  rw [ofProgram, get_bytes_foldl _ _ _ (by omega), hstart, Nat.zero_add]

theorem totalSize_originals_le (p : Program) (c : StorageClass) :
    totalSize (originals p c) ≤ totalSize p.globals.elems :=
  (List.filter_sublist.map GlobalObject.size).sum_le_sum fun _ _ => Nat.zero_le _

/-- The measured bytes of the classes are exact if all objects fit 64-bit addresses. -/
theorem get_bytes_ofProgram {p : Program} (hsmall : totalSize p.globals.elems < 2 ^ 64)
    (c : StorageClass) :
    (ofProgram p).statistics.bytes.get c = totalSize (originals p c) :=
  get_bytes_ofProgram_of_lt (Nat.lt_of_le_of_lt (totalSize_originals_le p c) hsmall)

end Members
end Layout
end ThumbHardening
