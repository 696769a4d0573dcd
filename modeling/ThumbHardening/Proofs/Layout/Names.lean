import ThumbHardening.Layout
import ThumbHardening.Proofs.Program.Names

/-!
# Names of decoys and of the guard

The names that are tried for decoys differ from each other and from all names that mean something. Fewer names
are taken than are tried, so one of them is free. The accessor of the guard is the function that its name belongs
to.
-/

namespace ThumbHardening

/-- Whether the name of the guard's accessor is taken, and belongs to this function. As long as the table of names
is in step with the functions, this is the function that has the name. -/
def Program.IsAccessor (p : Program) (f : Function) : Prop :=
  p.symbolNamed? Guard.functionName = some (.function f.id)

instance (p : Program) (f : Function) : Decidable (p.IsAccessor f) :=
  inferInstanceAs (Decidable (_ = _))

/-- The accessor of the guard can be made: its name belongs to a function, or to no symbol. -/
def Program.HasRoomForAccessor (p : Program) : Prop :=
  (∃ f ∈ p.functions.elems, p.IsAccessor f) ∨ p.symbolNamed? Guard.functionName = none

namespace Layout

variable {p : Program} {limit number : Nat}

theorem decoyName_injective : Function.Injective decoyName := by
  intro m n h
  exact Program.repr_injective ((String.append_right_inj _).mp h)

theorem decoyName_ne {name : String} (h : decoyNameStart.toList.isPrefixOf name.toList = false) (number : Nat) :
    decoyName number ≠ name := by
  rintro rfl
  have hstart : decoyNameStart.toList <+: (decoyName number).toList := by
    rw [decoyName, String.append_assoc, String.toList_append]
    exact List.prefix_append ..
  rw [List.isPrefixOf_iff_prefix.mpr hstart] at h
  cases h

/-- No decoy has the name of the accessor. -/
theorem functionName_ne_decoyName (number : Nat) : Guard.functionName ≠ decoyName number :=
  (decoyName_ne (by decide) number).symm

/-- The number that is found has a free name, unless all names that were tried are taken. -/
theorem freeNumber_cases (p : Program) (limit number : Nat) :
    decoyName (freeNumber p limit number) ∉ p.taken ∨
      ∀ k ≤ limit, decoyName (number + k) ∈ p.taken := by
  induction limit generalizing number with
  | zero =>
    rw [freeNumber]
    by_cases hmem : decoyName number ∈ p.taken
    · exact .inr fun k hk => by rwa [Nat.le_zero.mp hk]
    · exact .inl hmem
  | succ limit ih =>
    rw [freeNumber]
    split
    · next hfree => exact .inl (Program.symbolNamed?_eq_none_iff.mp (Option.isNone_iff_eq_none.mp hfree))
    · next htaken =>
      rw [Option.isNone_iff_eq_none, Program.symbolNamed?_eq_none_iff, not_not] at htaken
      refine (ih (number + 1)).imp_right fun hall k hk => ?_
      cases k with
      | zero => exact htaken
      | succ k =>
        rw [Nat.add_comm k, ← Nat.add_assoc]
        exact hall k (Nat.le_of_succ_le_succ hk)

/-- The name that a decoy gets is free. -/
theorem isFreeName_freeNumber (p : Program) (number : Nat) :
    p.isFreeName (decoyName (freeNumber p p.names.length number)) = true := by
  have hlist : ∀ n, isListName (decoyName n) = false := by
    intro n
    have hused : decoyName n ≠ usedList := decoyName_ne (by decide) n
    have hcompiler : decoyName n ≠ compilerUsedList := decoyName_ne (by decide) n
    simp [isListName, hused, hcompiler]
  refine Program.isFreeName_iff.mpr ⟨?_, hlist _⟩
  refine (freeNumber_cases p p.names.length number).resolve_right fun hall => ?_
  have hinjective : Function.Injective fun k => decoyName (number + k) := fun _ _ h =>
    Nat.add_left_cancel (decoyName_injective h)
  obtain ⟨k, hk, hfree⟩ := Program.exists_notMem_of_injective hinjective p.taken
  rw [Program.taken, List.length_map] at hk
  exact hfree (hall k hk)

end Layout
end ThumbHardening
