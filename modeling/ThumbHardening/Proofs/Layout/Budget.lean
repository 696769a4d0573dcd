import ThumbHardening.Proofs.Layout.Decoys
import ThumbHardening.Proofs.Layout.Shares
import ThumbHardening.Proofs.Steps

/-!
# The budget of a plan

What a plan adds to each class, as far as the plan alone decides it. The decoys in front of the objects stay
within the free space of their class. A decoy that only the guard needs comes on top, and is checked against
the capacity by itself. So every class is within its capacity.
-/

namespace ThumbHardening
namespace Layout

variable {o : Options} {p : Program} {m : Members} {s : RandomStream} {ptr : Nat}

/-! ### One class -/

theorem plannedBytes_planClass_le (storage : StorageClass) (useTraps : Bool)
    (hptr : IsPointerSize ptr) (shares : List (Nat × Nat)) (ids : List Nat) (d : DecoyState) :
    plannedBytes storage (planClass storage ptr useTraps shares ids d).1
      ≤ (ids.map fun id => (shares.lookup id).getD 0).sum * ptr := by
  induction ids generalizing d with
  | nil => simp [planClass, plannedBytes]
  | cons id rest ih =>
    simp only [planClass, plannedBytes_append, List.map_cons, List.sum_cons, Nat.add_mul]
    refine Nat.add_le_add ?_ (ih _)
    rw [plannedBytes_of_storage fun plan hplan =>
      (planDecoys_sound hptr storage useTraps id (hptr.dvd_wrap_mul _) d plan hplan).1,
      sum_size_planDecoys]
    exact Address.wrap_le _

theorem planClass_sound (storage : StorageClass) (useTraps : Bool) (hptr : IsPointerSize ptr)
    (shares : List (Nat × Nat)) (ids : List Nat) (d : DecoyState) :
    ∀ plan ∈ (planClass storage ptr useTraps shares ids d).1,
      plan.storage = storage ∧ plan.Sound ptr := by
  induction ids generalizing d with
  | nil => simp [planClass]
  | cons id rest ih =>
    intro plan hplan
    simp only [planClass, List.mem_append] at hplan
    rcases hplan with hfirst | hothers
    · exact planDecoys_sound hptr storage useTraps id (hptr.dvd_wrap_mul _) d plan hfirst
    · exact ih _ plan hothers

/-! ### All classes -/

theorem shuffleClasses_perm (ids : PerClass (List Nat)) (s : RandomStream) (c : StorageClass) :
    ((shuffleClasses ids s).1.get c).Perm (ids.get c) := by
  cases c <;> exact RandomStream.shuffle_perm _ _

theorem exists_shareClasses_eq (units : StorageClass → Nat) (shuffled : PerClass (List Nat))
    (s : RandomStream) (c : StorageClass) :
    ∃ s', (shareClasses units shuffled s).1.get c = (shareOut (units c) (shuffled.get c) s').1 := by
  cases c <;> exact ⟨_, rfl⟩

theorem planClasses_sound (useTraps : Bool) (hptr : IsPointerSize ptr)
    (shares : PerClass (List (Nat × Nat))) (ids : PerClass (List Nat)) (d : DecoyState) :
    ∀ plan ∈ (planClasses ptr useTraps shares ids d).1, plan.Sound ptr := by
  intro plan hplan
  simp only [planClasses, List.mem_append] at hplan
  rcases hplan with (hplan | hplan) | hplan <;>
    exact (planClass_sound _ useTraps hptr _ _ _ plan hplan).2

theorem plannedBytes_planClasses_le (useTraps : Bool) (hptr : IsPointerSize ptr)
    (shares : PerClass (List (Nat × Nat))) (ids : PerClass (List Nat)) (d : DecoyState)
    (c : StorageClass) :
    plannedBytes c (planClasses ptr useTraps shares ids d).1
      ≤ ((ids.get c).map fun id => ((shares.get c).lookup id).getD 0).sum * ptr := by
  have hother (other : StorageClass) (hne : other ≠ c) (shares : List (Nat × Nat)) (ids : List Nat)
      (d : DecoyState) : plannedBytes c (planClass other ptr useTraps shares ids d).1 = 0 :=
    plannedBytes_of_ne hne fun plan hplan =>
      (planClass_sound other useTraps hptr shares ids d plan hplan).1
  cases c with
  | rodata =>
    simp only [planClasses, plannedBytes_append, hother .data (by decide),
      hother .bss (by decide), Nat.add_zero]
    exact plannedBytes_planClass_le .rodata useTraps hptr _ _ _
  | data =>
    simp only [planClasses, plannedBytes_append, hother .rodata (by decide),
      hother .bss (by decide), Nat.add_zero, Nat.zero_add]
    exact plannedBytes_planClass_le .data useTraps hptr _ _ _
  | bss =>
    simp only [planClasses, plannedBytes_append, hother .rodata (by decide),
      hother .data (by decide), Nat.zero_add]
    exact plannedBytes_planClass_le .bss useTraps hptr _ _ _

/-- The decoys that a plan puts in front of the objects. -/
def anchoredDecoys (o : Options) (p : Program) (m : Members) (pool : TrapPool) (s : RandomStream) :
    List DecoyPlan × DecoyState :=
  let shuffled := shuffleClasses m.ofClass s
  let shares := shareClasses (freeUnits o p.pointerSize m.statistics.bytes) shuffled.1 shuffled.2
  planClasses p.pointerSize o.trapDecoys shares.1 m.ofClass { pool, stream := shares.2 }

/-- The decoys in front of the objects stay within the space that is free. -/
theorem plannedBytes_anchoredDecoys_le (hptr : IsPointerSize p.pointerSize)
    (hids : ∀ c, (m.ofClass.get c).Nodup) (pool : TrapPool) (c : StorageClass) :
    plannedBytes c (anchoredDecoys o p m pool s).1
      ≤ c.capacity o - m.statistics.bytes.get c := by
  have hperm := shuffleClasses_perm m.ofClass s c
  obtain ⟨t, ht⟩ := exists_shareClasses_eq (freeUnits o p.pointerSize m.statistics.bytes)
    (shuffleClasses m.ofClass s).1 (shuffleClasses m.ofClass s).2 c
  apply Nat.le_trans (plannedBytes_planClasses_le o.trapDecoys hptr _ m.ofClass _ c)
  rw [ht]
  have hshares := sum_lookup_shareOut_le (freeUnits o p.pointerSize m.statistics.bytes c)
    (hperm.nodup_iff.mpr (hids c)) hperm.symm t
  calc _ ≤ freeUnits o p.pointerSize m.statistics.bytes c * p.pointerSize :=
        Nat.mul_le_mul_right _ hshares
    _ ≤ c.capacity o - m.statistics.bytes.get c := Nat.div_mul_le_self _ _

theorem anchoredDecoys_sound (hptr : IsPointerSize p.pointerSize) (pool : TrapPool) :
    ∀ d ∈ (anchoredDecoys o p m pool s).1, d.Sound p.pointerSize :=
  planClasses_sound o.trapDecoys hptr _ m.ofClass _

/-! ### The guard -/

theorem fallbackDecoy_sound (hptr : IsPointerSize ptr) (s : RandomStream) :
    (fallbackDecoy ptr s).1.Sound ptr where
  whole := hptr.dvd_decoyBlockSize
  isZero_eq := by
    have hentries : 0 < decoyBlockSize / ptr := by rcases hptr with rfl | rfl <;> decide
    exact DecoyContent.isZero_words (replicate_ne_nil _ hentries _)
      (RandomStream.forall_mem_replicate (randomWord_ne_zero ptr) _ _)

theorem dataDecoyBytes_eq (decoys : List DecoyPlan) :
    dataDecoyBytes decoys = plannedBytes .data decoys := by
  rw [plannedBytes, List.sum, List.foldr_map]
  rfl

/-- A guard either uses decoys that are there or adds one to the data class, which the check admits. -/
theorem planGuard_eq_ok {dataBytes : Nat} {decoys decoys' : List DecoyPlan} {guard : GuardPlan}
    (h : planGuard o dataBytes ptr decoys s = .ok (decoys', guard)) :
    decoys' = decoys ∨ decoys' = decoys ++ [(fallbackDecoy ptr s).1] ∧
      dataBytes + plannedBytes .data decoys + decoyBlockSize ≤ o.maxData := by
  rw [planGuard] at h
  dsimp only at h
  split at h
  · split at h
    · cases h
    · split at h
      · cases h
      · next hfits =>
        rw [dataDecoyBytes_eq] at hfits
        simp only [Except.ok.injEq, Prod.mk.injEq] at h
        exact .inr ⟨h.1.symm, Nat.not_lt.mp hfits⟩
  · simp only [Except.ok.injEq, Prod.mk.injEq] at h
    exact .inl h.1.symm

/-- What is given out is a decoy, whether it is chosen beforehand or at run time. -/
structure GuardPlan.Sound (decoys : List DecoyPlan) (guard : GuardPlan) : Prop where
  candidates : ∀ k ∈ guard.candidates, k < decoys.length
  staticPick : guard.staticPick < guard.candidates.length

theorem pickStatic_sound {decoys : List DecoyPlan} {candidates : List Nat} (hpos : 0 < candidates.length)
    (hcandidates : ∀ k ∈ candidates, k < decoys.length) (s : RandomStream) :
    (pickStatic o candidates s).Sound decoys := by
  rw [pickStatic]
  split
  · exact ⟨hcandidates, hpos⟩
  · exact ⟨hcandidates, s.index_lt hpos⟩

theorem drawCandidates_lt {decoys : List DecoyPlan} (hfound : eligible decoys ≠ []) (count : Nat)
    (s : RandomStream) : ∀ k ∈ (drawCandidates (eligible decoys) count s).1, k < decoys.length := by
  have hlt : ∀ k ∈ eligible decoys, k < decoys.length :=
    fun k hk => List.mem_range.mp (List.mem_of_mem_filter hk)
  refine RandomStream.forall_mem_replicate (fun s => ?_) count s
  have hindex := s.index_lt (List.length_pos_iff.mpr hfound)
  change (eligible decoys).getD (s.index (eligible decoys).length).1 0 < decoys.length
  rw [List.getD_eq_getElem?_getD, List.getElem?_eq_getElem hindex, Option.getD_some]
  exact hlt _ (List.getElem_mem hindex)

theorem planGuard_sound {dataBytes : Nat} {decoys decoys' : List DecoyPlan} {guard : GuardPlan}
    (hcount : o.guardCandidates ≠ 0) (h : planGuard o dataBytes ptr decoys s = .ok (decoys', guard)) :
    guard.Sound decoys' := by
  rw [planGuard] at h
  dsimp only at h
  split at h
  · split at h
    · cases h
    · split at h
      · cases h
      · cases h
        have hpos : 0 < [decoys.length].length := Nat.one_pos
        exact pickStatic_sound hpos (List.forall_mem_singleton.mpr (by simp)) _
  · next hfound =>
    cases h
    refine pickStatic_sound ?_ (drawCandidates_lt (by simpa using hfound) _ _) _
    rw [drawCandidates, RandomStream.length_replicate]
    exact Nat.pos_of_ne_zero hcount

/-! ### The whole plan -/

theorem le_capacity_of_checkCapacity {bytes : PerClass Nat} (h : checkCapacity o bytes = .ok ())
    (c : StorageClass) : bytes.get c ≤ c.capacity o := by
  have hmem : c ∈ StorageClass.all := by cases c <;> decide
  have hc := Outcome.forM_eq_ok_iff.mp h c hmem
  split at hc
  · cases hc
  · next hle => exact Nat.not_lt.mp hle

/-- What a plan may add to classes that hold `bytes` already. -/
structure Plan.WithinBudget (o : Options) (ptr : Nat) (bytes : PerClass Nat) (plan : Plan) : Prop where
  sound : ∀ d ∈ plan.decoys, d.Sound ptr
  fits : ∀ c, bytes.get c + plannedBytes c plan.decoys ≤ c.capacity o

/-- One more decoy in the data class is within the budget if the check of the guard admits it. -/
theorem Plan.WithinBudget.of_extra {bytes : PerClass Nat} {plan : Plan} {decoys : List DecoyPlan}
    {extra : DecoyPlan} (hsound : ∀ d ∈ decoys, d.Sound ptr)
    (hfits : ∀ c, bytes.get c + plannedBytes c decoys ≤ c.capacity o)
    (hplan : plan.decoys = decoys ++ [extra]) (hextra : extra.Sound ptr)
    (hstorage : extra.storage = .data) (hsize : extra.size = decoyBlockSize)
    (hcheck : bytes.data + plannedBytes .data decoys + decoyBlockSize ≤ o.maxData) :
    plan.WithinBudget o ptr bytes := by
  refine ⟨fun d hd => ?_, fun c => ?_⟩
  · rw [hplan, List.mem_append, List.mem_singleton] at hd
    rcases hd with hd | rfl
    · exact hsound d hd
    · exact hextra
  · rw [hplan, plannedBytes_append, plannedBytes_singleton, hstorage]
    by_cases hc : c = .data
    · subst hc
      rw [if_pos rfl, hsize, ← Nat.add_assoc]
      exact hcheck
    · rw [if_neg fun h => hc h.symm, Nat.add_zero]
      exact hfits c

/-- A plan consists of the decoys in front of the objects, and of one more if the guard needs it. -/
theorem planWith_eq_ok {pool : TrapPool} {warnings : Nat} {plan : Plan}
    (h : planWith o p m pool s = (warnings, .ok plan)) :
    plan.excluded = m.excluded ∧ plan.shuffled = (shuffleClasses m.ofClass s).1 ∧
      plan.guard.isSome = o.guard ∧
      (plan.decoys = (anchoredDecoys o p m pool s).1 ∨ o.guard = true ∧
        ∃ s', plan.decoys = (anchoredDecoys o p m pool s).1 ++ [(fallbackDecoy p.pointerSize s').1] ∧
          m.statistics.bytes.data + plannedBytes .data (anchoredDecoys o p m pool s).1 + decoyBlockSize
            ≤ o.maxData) := by
  simp only [planWith, Prod.mk.injEq] at h
  replace h := h.2
  split at h
  · next hguard =>
    obtain ⟨⟨decoys, guard⟩, hplanned, rfl⟩ := Outcome.map_eq_ok_iff.mp h
    refine ⟨rfl, rfl, hguard.symm, ?_⟩
    rcases planGuard_eq_ok hplanned with hsame | ⟨hmore, hcheck⟩
    · exact .inl hsame
    · exact .inr ⟨hguard, _, hmore, hcheck⟩
  · next hguard =>
    cases h
    exact ⟨rfl, rfl, (Bool.eq_false_iff.mpr hguard).symm, .inl rfl⟩

/-- A plan is made with the trap blocks of the program once the objects are known to fit. -/
theorem plan_eq_ok {warnings : Nat} {plan : Plan} (h : Layout.plan o p m s = (warnings, .ok plan)) :
    ∃ pool, checkCapacity o m.statistics.bytes = .ok () ∧ checkGuard o p = .ok () ∧ trapPool p = .ok pool ∧
      planWith o p m pool s = (warnings, .ok plan) := by
  rw [Layout.plan] at h
  split at h
  · cases h
  · next pool hchecked =>
    obtain ⟨hcapacity, hchecked⟩ := Outcome.seq_eq_ok_iff.mp hchecked
    obtain ⟨hguard, hpool⟩ := Outcome.seq_eq_ok_iff.mp hchecked
    exact ⟨pool, hcapacity, hguard, hpool, h⟩

theorem guard_of_plan {warnings : Nat} {plan : Plan} {guard : GuardPlan}
    (h : Layout.plan o p m s = (warnings, .ok plan)) (hguard : plan.guard = some guard) :
    guard.Sound plan.decoys := by
  obtain ⟨pool, -, hchecked, -, hwith⟩ := plan_eq_ok h
  simp only [planWith, Prod.mk.injEq] at hwith
  have hmade := hwith.2
  split at hmade
  · next hoption =>
    have hcount : o.guardCandidates ≠ 0 := by
      rintro hzero
      simp [checkGuard, hoption, hzero] at hchecked
    obtain ⟨⟨decoys, guard'⟩, hplanned, rfl⟩ := Outcome.map_eq_ok_iff.mp hmade
    cases hguard
    exact planGuard_sound hcount hplanned
  · cases hmade
    cases hguard

theorem withinBudget_of_plan {warnings : Nat} {plan : Plan} (hptr : IsPointerSize p.pointerSize)
    (hids : ∀ c, (m.ofClass.get c).Nodup) (h : Layout.plan o p m s = (warnings, .ok plan)) :
    plan.WithinBudget o p.pointerSize m.statistics.bytes := by
  obtain ⟨pool, hcapacity, -, -, hplan⟩ := plan_eq_ok h
  have hsound := anchoredDecoys_sound (o := o) (m := m) (s := s) hptr pool
  have hfits : ∀ c, m.statistics.bytes.get c + plannedBytes c (anchoredDecoys o p m pool s).1
      ≤ c.capacity o := by
    intro c
    have hused := le_capacity_of_checkCapacity hcapacity c
    have hadded := plannedBytes_anchoredDecoys_le (o := o) (s := s) hptr hids pool c
    omega
  obtain ⟨-, -, -, hsame | ⟨-, s', hmore, hcheck⟩⟩ := planWith_eq_ok hplan
  · exact ⟨hsame ▸ hsound, hsame ▸ hfits⟩
  · exact .of_extra hsound hfits hmore (fallbackDecoy_sound hptr s') rfl rfl hcheck

end Layout
end ThumbHardening
