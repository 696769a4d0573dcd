import ThumbHardening.Random.Stream
import Mathlib.Algebra.GroupWithZero.Nat

/-!
# What random draws give

Nothing here is about chance: these are the facts that hold of every stream. A list of draws has the asked
length, an index that is drawn is below its bound, and a shuffle loses and repeats nothing.

The last two, `index_lt` and `shuffle_perm`, are all that is proved and used of the draws that may be refused.
They hold however many refusals are allowed, and the limit plays no part once a draw is in the zone
(`drawBelow_add`).
-/

namespace ThumbHardening
namespace RandomStream
variable {α : Type}

@[simp] theorem length_replicate (draw : RandomStream → α × RandomStream) (count : Nat)
    (s : RandomStream) : (replicate draw count s).1.length = count := by
  induction count generalizing s with
  | zero => rfl
  | succ count ih => simp only [replicate, List.length_cons, ih]

/-- What holds of a draw from every stream holds of all draws. -/
theorem forall_mem_replicate {P : α → Prop} {draw : RandomStream → α × RandomStream}
    (hdraw : ∀ s, P (draw s).1) (count : Nat) (s : RandomStream) :
    ∀ value ∈ (replicate draw count s).1, P value := by
  induction count generalizing s with
  | zero => simp [replicate]
  | succ count ih =>
    intro value hvalue
    simp only [replicate, List.mem_cons] at hvalue
    rcases hvalue with rfl | hrest
    · exact hdraw s
    · exact ih _ value hrest

/-! ### Numbers below a bound -/

theorem next32_lt (s : RandomStream) : s.next32.1 < 2 ^ 32 := by
  rw [next32]
  split <;> exact UInt32.toNat_lt _

theorem next64_lt (s : RandomStream) : s.next64.1 < 2 ^ 64 := by
  have hlow := s.next32_lt
  have hhigh := s.next32.2.next32_lt
  change s.next32.1 + 2 ^ 32 * s.next32.2.next32.1 < 2 ^ 64
  omega

theorem drawBelow_lt {bits n : Nat} {draw : RandomStream → Nat × RandomStream}
    (hdraw : ∀ s, (draw s).1 < 2 ^ bits) (hn : 0 < n) (tries : Nat) (s : RandomStream) :
    (drawBelow bits draw n tries s).1 < n := by
  have hquotient : ∀ s, (draw s).1 * n / Nat.pow 2 bits < n := by
    intro s
    apply Nat.div_lt_of_lt_mul
    exact Nat.mul_lt_mul_of_pos_right (hdraw s) hn
  induction tries generalizing s with
  | zero => exact hquotient s
  | succ tries ih =>
    simp only [drawBelow]
    split
    · exact hquotient s
    · exact ih _

/-- A draw that is in the zone is taken, whether or not more of them could have been refused. -/
theorem drawBelow_add {bits n tries k : Nat} {draw : RandomStream → Nat × RandomStream} {s : RandomStream}
    (hk : k < tries)
    (hzone : (draw (replicate draw k s).2).1 * n % Nat.pow 2 bits ≤ acceptanceZone bits n) (more : Nat) :
    drawBelow bits draw n (tries + more) s = drawBelow bits draw n tries s := by
  induction tries generalizing k s with
  | zero => exact absurd hk (Nat.not_lt_zero k)
  | succ tries ih =>
    rw [Nat.succ_add]
    simp only [drawBelow]
    split
    · rfl
    · next hrefused =>
      cases k with
      | zero => exact absurd hzone hrefused
      | succ k => exact ih (Nat.lt_of_succ_lt_succ hk) hzone

/-- An index that is drawn is one. -/
theorem index_lt {n : Nat} (hn : 0 < n) (s : RandomStream) : (s.index n).1 < n :=
  drawBelow_lt next64_lt hn _ s

/-! ### Permutations -/

private theorem swapIfInBounds_perm (xs : Array α) (i j : Nat) :
    (xs.swapIfInBounds i j).Perm xs := by
  rw [Array.swapIfInBounds_def]
  split
  · split
    · exact Array.swap_perm _ _
    · exact .refl xs
  · exact .refl xs

theorem shuffleTo_perm (count : Nat) (xs : Array α) (s : RandomStream) :
    (shuffleTo count xs s).1.Perm xs := by
  induction count generalizing xs s with
  | zero => exact .refl xs
  | succ count ih => exact (ih _ _).trans (swapIfInBounds_perm xs _ _)

/-- A shuffled list has the members that it had before, whatever is drawn. -/
theorem shuffle_perm (xs : List α) (s : RandomStream) : (shuffle xs s).1.Perm xs := by
  have h := Array.perm_iff_toList_perm.mp (shuffleTo_perm (xs.length - 1) xs.toArray s)
  simpa only [shuffle] using h

end RandomStream
end ThumbHardening
