import ThumbHardening.Layout.Plan
import ThumbHardening.Proofs.Random
import Mathlib.Data.List.Nodup
import Mathlib.Algebra.BigOperators.Group.List.Basic
import Mathlib.Algebra.GroupWithZero.Nat

/-!
# Shares of the free space

The free units of a class are shared out by random weights, and every share is rounded down, so all shares
together never exceed what is free. The shares are kept by ID: they belong to the shuffled objects but are
read in the order the objects had before.
-/

namespace ThumbHardening
namespace Layout

private theorem sum_div_le (k units sum : Nat) (weights : List Nat) (hsum : weights.sum = k) :
    (weights.map fun w => w * units / sum).sum ≤ k * units / sum := by
  induction weights generalizing k with
  | nil => simp
  | cons w rest ih =>
    subst hsum
    have hrest := ih rest.sum rfl
    have hsplit : w * units / sum + rest.sum * units / sum ≤ (w + rest.sum) * units / sum := by
      rw [Nat.add_mul]
      exact Nat.div_add_div_le_add_div
    simp only [List.map_cons, List.sum_cons]
    omega

/-- Shares that are rounded down do not add up to more than there is. -/
theorem sum_share_le (units : Nat) (weights : List Nat) :
    (weights.map (share units weights.sum)).sum ≤ units := by
  by_cases hzero : weights.sum = 0
  · have hshare : share units weights.sum = fun _ => 0 := by
      funext w
      rw [share, if_pos hzero]
    rw [hshare, List.map_const', List.sum_replicate_nat, Nat.mul_zero]
    exact Nat.zero_le units
  · have hshare : share units weights.sum = fun w => w * units / weights.sum := by
      funext w
      rw [share, if_neg hzero]
    rw [hshare]
    calc (weights.map fun w => w * units / weights.sum).sum
        ≤ weights.sum * units / weights.sum := sum_div_le _ units _ weights rfl
      _ = units := Nat.mul_div_cancel_left units (Nat.pos_of_ne_zero hzero)

private theorem map_lookup_zip (ids values : List Nat) (hids : ids.Nodup)
    (hlength : ids.length = values.length) :
    ids.map (fun id => ((ids.zip values).lookup id).getD 0) = values := by
  induction ids generalizing values with
  | nil => simpa using hlength.symm
  | cons id rest ih =>
    cases values with
    | nil => simp at hlength
    | cons value others =>
      obtain ⟨hnew, hrest⟩ := List.nodup_cons.mp hids
      have htail : rest.map (fun id' => (((id :: rest).zip (value :: others)).lookup id').getD 0)
          = rest.map fun id' => ((rest.zip others).lookup id').getD 0 := by
        apply List.map_congr_left
        intro id' hid'
        have hne : (id' == id) = false := by
          simp only [beq_eq_false_iff_ne, ne_eq]
          rintro rfl
          exact hnew hid'
        rw [List.zip_cons_cons, List.lookup_cons, hne]
      rw [List.map_cons, htail, ih others hrest (by simpa using hlength)]
      simp

/-- What the members of a class get does not add up to more than there is, in whatever order it is read. -/
theorem sum_lookup_shareOut_le (units : Nat) {ids members : List Nat} (hids : ids.Nodup)
    (hperm : members.Perm ids) (s : RandomStream) :
    (members.map fun id => ((shareOut units ids s).1.lookup id).getD 0).sum ≤ units := by
  rw [(hperm.map _).sum_eq]
  simp only [shareOut]
  rw [map_lookup_zip ids _ hids (by simp)]
  exact sum_share_le units _

end Layout
end ThumbHardening
