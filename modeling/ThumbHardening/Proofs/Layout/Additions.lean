import ThumbHardening.Layout
import ThumbHardening.Proofs.Program
import ThumbHardening.Proofs.Layout.Decoys
import ThumbHardening.Proofs.Layout.Members

/-!
# What a plan adds

Carrying out a plan makes one object for each decoy and gives it a fresh ID. Afterwards the program has the
objects it had and the new ones, in some order. Etching, keeping symbols and making the guard do not touch
global objects.
-/

namespace ThumbHardening

namespace Layout

/-! ### Steps that leave the objects alone -/

/-- Two states with the same global objects and the same decoys. -/
structure State.SameData (s s' : State) : Prop where
  globals : s'.program.globals = s.program.globals
  pointerSize : s'.program.pointerSize = s.program.pointerSize
  decoyWords : s'.statistics.decoyWords = s.statistics.decoyWords
  placed : s'.placed = s.placed

namespace State.SameData
variable {s t u : State}

theorem refl (s : State) : s.SameData s :=
  ⟨rfl, rfl, rfl, rfl⟩

theorem trans (h : s.SameData t) (h' : t.SameData u) : s.SameData u :=
  ⟨h'.globals.trans h.globals, h'.pointerSize.trans h.pointerSize,
    h'.decoyWords.trans h.decoyWords, h'.placed.trans h.placed⟩

end State.SameData

variable {s s' : State}

theorem etch_sameData {decoy : Nat} {target : BlockPointer} (h : etch decoy target s = (s', none)) :
    s.SameData s' := by
  rw [etch] at h
  split at h
  · cases h
    exact .refl s
  · split at h
    · cases h
    · cases h
      exact ⟨rfl, rfl, rfl, rfl⟩

theorem keep_sameData {symbol : Symbol} (h : keep symbol s = (s', none)) : s.SameData s' := by
  rw [keep] at h
  split at h
  · cases h
  · next value _ =>
    cases h
    obtain ⟨values, used, usedSet, huse⟩ := s.program.use_frame symbol value
    rw [huse]
    exact ⟨rfl, rfl, rfl, rfl⟩

theorem addGuard_sameData {o : Options} {guard : GuardPlan} (h : addGuard o guard s = (s', none)) :
    s.SameData s' := by
  rw [addGuard] at h
  split at h
  · cases h
  · next program id hinsert =>
    have hsame : program.globals = s.program.globals ∧
        program.pointerSize = s.program.pointerSize := by
      rw [insertGuard] at hinsert
      split at hinsert
      · cases hinsert
        exact ⟨rfl, rfl⟩
      · obtain ⟨-, -, rfl⟩ := Program.addFunction_eq_ok hinsert
        exact ⟨rfl, rfl⟩
    have hfirst : s.SameData { s with program } := ⟨hsame.1, hsame.2, rfl, rfl⟩
    exact hfirst.trans (keep_sameData h)

/-! ### Making the decoys -/

/-- The objects made of decoys, with IDs counted from `next` on. -/
inductive Made : (next : Nat) → List DecoyPlan → List GlobalObject → Prop where
  | nil (next : Nat) : Made next [] []
  | cons {next : Nat} {d : DecoyPlan} {decoys : List DecoyPlan} {objects : List GlobalObject}
      (name : String) (rest : Made (next + 1) decoys objects) :
      Made next (d :: decoys) ({ decoyObject name d with id := next } :: objects)

/-- The entries of the decoys planned for a class. -/
def plannedWords (ptr : Nat) (c : StorageClass) (decoys : List DecoyPlan) : Nat :=
  ((decoys.filter fun d => d.storage = c).map fun d => d.size / ptr).sum

theorem plannedWords_cons (ptr : Nat) (c : StorageClass) (d : DecoyPlan) (decoys : List DecoyPlan) :
    plannedWords ptr c (d :: decoys) = plannedWords ptr c [d] + plannedWords ptr c decoys := by
  by_cases h : d.storage = c <;> simp [plannedWords, h]

theorem get_decoyWords_countWords (ptr : Nat) (d : DecoyPlan) (statistics : LayoutStatistics)
    (c : StorageClass) :
    (countWords ptr d statistics).decoyWords.get c
      = statistics.decoyWords.get c + plannedWords ptr c [d] := by
  rw [countWords, PerClass.get_update]
  by_cases h : d.storage = c <;> simp [plannedWords, h]

/-- A decoy becomes the last object and gets the next fresh ID. -/
theorem addDecoy_eq_none {d : DecoyPlan} (h : addDecoy d s = (s', none)) :
    ∃ name, s'.program.globals = s.program.globals.insert (decoyObject name d) ∧
      s'.program.pointerSize = s.program.pointerSize ∧
      (∀ c, s'.statistics.decoyWords.get c = s.statistics.decoyWords.get c
        + plannedWords s.program.pointerSize c [d]) ∧
      s'.placed = (d, s.program.globals.next) :: s.placed := by
  rw [addDecoy] at h
  dsimp only at h
  split at h
  · cases h
  · next program id hadd =>
    obtain ⟨rfl, hglobals, hsize, -⟩ := Program.addGlobal_eq_ok hadd
    refine ⟨decoyName (freeNumber s.program s.program.names.length s.counter), ?_⟩
    split at h
    · cases h
      refine ⟨hglobals, hsize, fun c => ?_, rfl⟩
      rw [← hsize]
      exact get_decoyWords_countWords _ d s.statistics c
    · have hlater := etch_sameData h
      refine ⟨hlater.globals.trans hglobals, hlater.pointerSize.trans hsize, fun c => ?_,
        hlater.placed⟩
      rw [hlater.decoyWords, ← hsize]
      exact get_decoyWords_countWords _ d s.statistics c

/-- The IDs that decoys have been given. -/
def placedAs (decoys : List DecoyPlan) (objects : List GlobalObject) : List (DecoyPlan × Nat) :=
  (decoys.zip objects).map fun d => (d.1, d.2.id)

/-- What decoys are made of does not decide about their IDs. -/
theorem Made.placedAs_eq {next : Nat} {decoys : List DecoyPlan} {objects objects' : List GlobalObject}
    (h : Made next decoys objects) (h' : Made next decoys objects') :
    placedAs decoys objects' = placedAs decoys objects := by
  induction h generalizing objects' with
  | nil =>
    cases h'
    rfl
  | cons name rest ih =>
    cases h' with
    | cons name' rest' => exact congrArg (List.cons _) (ih rest')

theorem runAll_addDecoy {decoys : List DecoyPlan}
    (h : Steps.runAll addDecoy decoys s = (s', none)) :
    ∃ objects, Made s.program.globals.next decoys objects ∧
      s'.program.globals.elems = s.program.globals.elems ++ objects ∧
      s'.program.pointerSize = s.program.pointerSize ∧
      s'.placed.reverse = s.placed.reverse ++ placedAs decoys objects ∧
      ∀ c, s'.statistics.decoyWords.get c = s.statistics.decoyWords.get c
        + plannedWords s.program.pointerSize c decoys := by
  induction decoys generalizing s with
  | nil =>
    cases h
    exact ⟨[], .nil _, by simp, rfl, by simp [placedAs], fun c => rfl⟩
  | cons d rest ih =>
    obtain ⟨t, hfirst, hrest⟩ := Steps.runAll_cons_eq_none_iff.mp h
    obtain ⟨name, hglobals, hsize, hwords, hplaced⟩ := addDecoy_eq_none hfirst
    obtain ⟨objects, hmade, helems, hsize', hplaced', hwords'⟩ := ih hrest
    have hnext : t.program.globals.next = s.program.globals.next + 1 := by
      rw [hglobals]
      rfl
    rw [hnext] at hmade
    refine ⟨_, hmade.cons name, ?_, hsize'.trans hsize, ?_, fun c => ?_⟩
    · rw [helems, hglobals]
      simp [Roster.insert, Roster.admitted, Identified.id, Identified.setId, decoyObject]
    · rw [hplaced', hplaced]
      simp [placedAs]
    · rw [hwords' c, hwords c, hsize, plannedWords_cons _ c d rest, Nat.add_assoc]

/-! ### Carrying out a plan -/

theorem andThen_eq_none_iff {first : State × Option LayoutError}
    {next : State → State × Option LayoutError} :
    andThen first next = (s', none) ↔ ∃ t, first = (t, none) ∧ next t = (s', none) := by
  obtain ⟨t, failure⟩ := first
  cases failure with
  | none => simp [andThen]
  | some e => simp [andThen]

theorem reorder_eq_none {plan : Plan} (h : reorder plan s = (s', none)) :
    s'.program.globals.elems.Perm s.program.globals.elems ∧
      s'.program.globals.ids = order plan s.placed.reverse ∧
      s'.program.globals.ids.Nodup ∧
      s'.statistics.decoyWords = s.statistics.decoyWords := by
  rw [reorder] at h
  split at h
  · cases h
  · next program hreorder =>
    cases h
    obtain ⟨globals, hglobals, rfl⟩ := Outcome.map_eq_ok_iff.mp hreorder
    obtain ⟨hids, hnodup⟩ := Roster.ids_of_reorder hglobals
    exact ⟨Roster.perm_of_reorder hglobals, hids, hnodup, rfl⟩

/-- The steps of carrying out a plan: the decoys, the order, the symbols that are kept, and the guard if there is
one. -/
theorem carryOut_steps {o : Options} {plan : Plan} (h : carryOut o plan s = (s', none)) :
    ∃ added ordered kept, Steps.runAll addDecoy plan.decoys s = (added, none) ∧
      reorder plan added = (ordered, none) ∧
      Steps.runAll (fun entry => keep (.global entry.2)) ordered.placed.reverse ordered = (kept, none) ∧
      ((plan.guard = none ∧ s' = kept) ∨
        ∃ guard, plan.guard = some guard ∧ addGuard o guard kept = (s', none)) := by
  have hkept : ∃ kept, andThen (andThen (Steps.runAll addDecoy plan.decoys s) (reorder plan))
      (fun s => Steps.runAll (fun entry => keep (.global entry.2)) s.placed.reverse s) = (kept, none) ∧
      ((plan.guard = none ∧ s' = kept) ∨
        ∃ guard, plan.guard = some guard ∧ addGuard o guard kept = (s', none)) := by
    rw [carryOut] at h
    split at h
    · next hnone => exact ⟨s', h, .inl ⟨hnone, rfl⟩⟩
    · next guard hsome =>
      obtain ⟨kept, hkept, hguard⟩ := andThen_eq_none_iff.mp h
      exact ⟨kept, hkept, .inr ⟨guard, hsome, hguard⟩⟩
  obtain ⟨kept, hkept, hguard⟩ := hkept
  obtain ⟨ordered, hordered, hkeep⟩ := andThen_eq_none_iff.mp hkept
  obtain ⟨added, hadded, hreorder⟩ := andThen_eq_none_iff.mp hordered
  exact ⟨added, ordered, kept, hadded, hreorder, hkeep, hguard⟩

/-- Carrying out a plan adds one object for each decoy, nothing gets lost, and the objects are in the order of
the plan. -/
theorem carryOut_eq_none {o : Options} {plan : Plan} (h : carryOut o plan s = (s', none)) :
    ∃ objects, Made s.program.globals.next plan.decoys objects ∧
      s'.program.globals.elems.Perm (s.program.globals.elems ++ objects) ∧
      s'.program.globals.ids = order plan (s.placed.reverse ++ placedAs plan.decoys objects) ∧
      s'.program.globals.ids.Nodup ∧
      ∀ c, s'.statistics.decoyWords.get c = s.statistics.decoyWords.get c
        + plannedWords s.program.pointerSize c plan.decoys := by
  obtain ⟨added, ordered, kept, hadded, hreorder, hkeep, hlast⟩ := carryOut_steps h
  have hguard : kept.SameData s' := by
    rcases hlast with ⟨-, rfl⟩ | ⟨_, -, hguard⟩
    · exact .refl _
    · exact addGuard_sameData hguard
  obtain ⟨objects, hmade, helems, -, hplaced, hwords⟩ := runAll_addDecoy hadded
  obtain ⟨hperm, hids, hnodup, hcounts⟩ := reorder_eq_none hreorder
  have hlater : ordered.SameData s' :=
    (Steps.runAll_induction hkeep (P := ordered.SameData) (.refl ordered)
      fun _ _ _ _ hstep hsame => hsame.trans (keep_sameData hstep)).trans hguard
  refine ⟨objects, hmade, ?_, ?_, ?_, fun c => ?_⟩
  · rw [hlater.globals, ← helems]
    exact hperm
  · rw [hlater.globals, hids, hplaced]
  · rw [hlater.globals]
    exact hnodup
  · rw [hlater.decoyWords, hcounts]
    exact hwords c

end Layout
end ThumbHardening
