import ThumbHardening.Proofs.Layout.Decoys
import ThumbHardening.Proofs.Layout.Draws
import ThumbHardening.Proofs.Layout.Shares
import Mathlib.Algebra.Order.BigOperators.Group.List
import Mathlib.Algebra.Order.Group.Nat

/-!
# Nothing but fractions is wasted

Every share is rounded down, so each weight loses less than one unit, and all shares together fall short of the
free units by less than their number. The decoys in front of an object fill its share to the byte: full ones, and
perhaps one smaller one behind them, each with content for all of its entries.
-/

namespace ThumbHardening
namespace Layout

/-! ### Shares -/

/-- Division with remainder, summed over the weights. -/
theorem sum_div_add_sum_mod (units k : Nat) (weights : List Nat) :
    k * (weights.map fun w => w * units / k).sum + (weights.map fun w => w * units % k).sum
      = weights.sum * units := by
  induction weights with
  | nil => simp
  | cons w rest ih =>
    have hfirst := Nat.div_add_mod (w * units) k
    simp only [List.map_cons, List.sum_cons, Nat.mul_add, Nat.add_mul]
    omega

theorem sum_mod_lt {k : Nat} (hk : 0 < k) (units : Nat) {weights : List Nat} (hne : weights ≠ []) :
    (weights.map fun w => w * units % k).sum < weights.length * k := by
  calc (weights.map fun w => w * units % k).sum
      < (weights.map fun _ => k).sum := List.sum_lt_sum_of_ne_nil hne _ _ fun w _ => Nat.mod_lt _ hk
    _ = weights.length * k := by rw [List.map_const', List.sum_replicate_nat]

theorem share_eq {sum : Nat} (hsum : sum ≠ 0) (units weight : Nat) :
    share units sum weight = weight * units / sum :=
  if_neg hsum

/-- The remainders of the divisions add up to less than a unit for each weight. -/
theorem lt_sum_share_add_length (units : Nat) {weights : List Nat} (hsum : weights.sum ≠ 0) :
    units < (weights.map (share units weights.sum)).sum + weights.length := by
  have hpos : 0 < weights.sum := Nat.pos_of_ne_zero hsum
  have hshares : weights.map (share units weights.sum) = weights.map fun w => w * units / weights.sum :=
    List.map_congr_left fun w _ => share_eq hsum units w
  have hne : weights ≠ [] := by
    rintro rfl
    exact hsum rfl
  have hparts := sum_div_add_sum_mod units weights.sum weights
  have hrest := sum_mod_lt hpos units hne
  rw [hshares]
  refine Nat.lt_of_mul_lt_mul_left (a := weights.sum) ?_
  rw [Nat.mul_add, Nat.mul_comm weights.sum weights.length]
  omega

/-- Shares that leave less than one unit for each weight, computed without overflow. -/
structure FairShares (units : Nat) (weights : List Nat) : Prop where
  share_eq : ∀ w ∈ weights, share units weights.sum w = w * units / weights.sum
  sum_le : (weights.map (share units weights.sum)).sum ≤ units
  lt_sum_add_length : units < (weights.map (share units weights.sum)).sum + weights.length
  /-- The products fit 128 bits. -/
  product_lt : ∀ w ∈ weights, w * units < 2 ^ 128
  /-- So does the sum of the weights, of which there are no more than an address can count. -/
  sum_lt : weights.length < 2 ^ 64 → weights.sum < 2 ^ 128
  /-- The shares fit 64 bits. -/
  share_lt : ∀ w ∈ weights, share units weights.sum w < 2 ^ 64

theorem fairShares {units : Nat} {weights : List Nat} (hunits : units < 2 ^ 64) (hsum : weights.sum ≠ 0)
    (hweights : ∀ w ∈ weights, w < 2 ^ 32) : FairShares units weights where
  share_eq w _ := share_eq hsum units w
  sum_le := sum_share_le units weights
  lt_sum_add_length := lt_sum_share_add_length units hsum
  product_lt w hw := by
    calc w * units < 2 ^ 32 * 2 ^ 64 := Nat.mul_lt_mul'' (hweights w hw) hunits
      _ ≤ 2 ^ 128 := by decide
  sum_lt hlength := by
    have hle : weights.sum ≤ weights.length * 2 ^ 32 :=
      List.sum_le_card_nsmul weights (2 ^ 32) fun w hw => Nat.le_of_lt (hweights w hw)
    omega
  share_lt w hw := by
    refine Nat.lt_of_le_of_lt (Nat.le_trans ?_ (sum_share_le units weights)) hunits
    exact List.le_sum_of_mem (List.mem_map_of_mem hw)

/-- What is shared out belongs to weights of 32 bits, one for each object. -/
theorem exists_weights_shareOut (units : Nat) (ids : List Nat) (s : RandomStream) :
    ∃ weights : List Nat, weights.length = ids.length ∧ (∀ w ∈ weights, w < 2 ^ 32) ∧
      (shareOut units ids s).1 = ids.zip (weights.map (share units weights.sum)) :=
  ⟨(RandomStream.replicate RandomStream.next32 ids.length s).1, RandomStream.length_replicate ..,
    RandomStream.forall_mem_replicate RandomStream.next32_lt _ _, rfl⟩

/-! ### Decoys -/

end Layout

/-- A decoy of the usual size. -/
structure DecoyPlan.Full (d : DecoyPlan) : Prop where
  size_eq : d.size = 32
  align_eq : d.align = 32

/-- A decoy for what is left behind full ones. -/
structure DecoyPlan.Remainder (ptr : Nat) (d : DecoyPlan) : Prop where
  size_pos : 0 < d.size
  size_lt : d.size < 32
  whole : ptr ∣ d.size
  align_eq : d.align = ptr

/-- A decoy with the content that its class asks for. -/
structure DecoyPlan.Filled (ptr : Nat) (storage : StorageClass) (d : DecoyPlan) : Prop where
  storage_eq : d.storage = storage
  zero_iff : d.content = .zero ↔ storage = .bss
  length_entries : storage ≠ .bss → d.content.initializer.entries.length = d.size / ptr
  exists_ne_zero : storage ≠ .bss → ∃ entry ∈ d.content.initializer.entries, entry ≠ .null ∧ entry ≠ .raw 0

namespace Layout

/-- Decoys that fill a space: full ones, and perhaps a smaller one behind them. -/
structure Fills (ptr bytes : Nat) (decoys : List DecoyPlan) : Prop where
  sum_size : (decoys.map DecoyPlan.size).sum = bytes
  full : ∀ d ∈ decoys.dropLast, d.Full
  last : ∀ d, decoys.getLast? = some d → d.Full ∨ d.Remainder ptr

variable {ptr bytes : Nat} {decoys : List DecoyPlan} {first : DecoyPlan}

theorem Fills.nil (ptr : Nat) : Fills ptr 0 [] where
  sum_size := rfl
  full _ h := nomatch h
  last _ h := nomatch h

/-- A full decoy in front of others fills its own space in addition. -/
theorem Fills.cons (h : Fills ptr bytes decoys) (hfirst : first.Full) :
    Fills ptr (first.size + bytes) (first :: decoys) := by
  refine ⟨?_, ?_, ?_⟩
  · rw [List.map_cons, List.sum_cons, h.sum_size]
  · cases decoys with
    | nil => simp
    | cons second rest => exact List.forall_mem_cons.mpr ⟨hfirst, h.full⟩
  · intro d hd
    cases decoys with
    | nil =>
      cases hd
      exact .inl hfirst
    | cons second rest => exact h.last d ((List.getLast?_cons_cons ..).symm.trans hd)

/-- The remainder fills its space alone. -/
theorem Fills.singleton (hfirst : first.Remainder ptr) : Fills ptr first.size [first] where
  sum_size := List.sum_singleton
  full _ h := nomatch h
  last d hd := by
    cases hd
    exact .inr hfirst

/-! ### Planning -/

theorem planDecoys_succ (storage : StorageClass) (ptr : Nat) (useTraps : Bool) (anchor remaining : Nat)
    (d : DecoyState) :
    (planDecoys storage ptr useTraps anchor (remaining + 1) d).1
      = (drawDecoy storage ptr useTraps anchor (decoySize (remaining + 1)) d).1
        :: (planDecoys storage ptr useTraps anchor (remaining + 1 - decoySize (remaining + 1))
            (drawDecoy storage ptr useTraps anchor (decoySize (remaining + 1)) d).2).1 := by
  rw [planDecoys]
  rfl

/-- The space in front of an object is filled from the front, and only what is less than a full decoy is left for
another one. -/
theorem fills_planDecoys (storage : StorageClass) (useTraps : Bool) (anchor : Nat) {remaining : Nat}
    (hdvd : ptr ∣ remaining) (hptr : IsPointerSize ptr) (d : DecoyState) :
    Fills ptr remaining (planDecoys storage ptr useTraps anchor remaining d).1 := by
  induction remaining using Nat.strongRecOn generalizing d with
  | ind remaining ih =>
    cases remaining with
    | zero =>
      rw [planDecoys]
      exact .nil ptr
    | succ remaining =>
      rw [planDecoys_succ]
      rcases Nat.lt_or_ge (remaining + 1) decoyBlockSize with hlt | hge
      · have hsize : decoySize (remaining + 1) = remaining + 1 := if_pos hlt
        have hlast : (drawDecoy storage ptr useTraps anchor (remaining + 1) d).1.Remainder ptr :=
          ⟨Nat.succ_pos _, hlt, hdvd, if_pos hlt⟩
        rw [hsize, Nat.sub_self, planDecoys]
        exact .singleton hlast
      · have hsize : decoySize (remaining + 1) = decoyBlockSize := if_neg (Nat.not_lt.mpr hge)
        have hpos : 0 < decoyBlockSize := by decide
        have hrest := ih (remaining + 1 - decoyBlockSize) (by omega)
          (Nat.dvd_sub hdvd hptr.dvd_decoyBlockSize) (drawDecoy storage ptr useTraps anchor decoyBlockSize d).2
        have hfull : (drawDecoy storage ptr useTraps anchor decoyBlockSize d).1.Full := ⟨rfl, rfl⟩
        have hall := hrest.cons hfull
        change Fills ptr (decoyBlockSize + (remaining + 1 - decoyBlockSize)) _ at hall
        rw [hsize]
        rwa [Nat.add_sub_cancel' hge] at hall

/-- Whatever is drawn, a decoy is zero if its class is, and otherwise uses all entries that it has room for. -/
theorem Draws.content {useTraps : Bool} {d d' : DecoyState} (h : Draws ptr useTraps d decoys d') :
    ∀ decoy ∈ decoys, (decoy.content = .zero ↔ decoy.storage = .bss) ∧
      (decoy.storage ≠ .bss → decoy.content.initializer.entries.length = decoy.size / ptr) := by
  induction h with
  | nil => simp
  | cons storage anchor size _ ih =>
    exact List.forall_mem_cons.mpr ⟨⟨DecoyState.chooseContent_eq_zero_iff ..,
      fun hstorage => DecoyState.length_entries_chooseContent hstorage ..⟩, ih⟩

theorem filled_planDecoys (storage : StorageClass) (useTraps : Bool) (anchor : Nat) {remaining : Nat}
    (hdvd : ptr ∣ remaining) (hptr : IsPointerSize ptr) (d : DecoyState) :
    ∀ decoy ∈ (planDecoys storage ptr useTraps anchor remaining d).1, decoy.Filled ptr storage := by
  intro decoy hdecoy
  obtain ⟨hstorage, hsound⟩ := planDecoys_sound hptr storage useTraps anchor hdvd d decoy hdecoy
  obtain ⟨hzero, hlength⟩ := (draws_planDecoys storage ptr useTraps anchor remaining d).content decoy hdecoy
  rw [hstorage] at hzero hlength
  refine ⟨hstorage, hzero, hlength, fun hne => DecoyContent.exists_ne_zero ?_⟩
  rw [hsound.isZero_eq, hstorage, decide_eq_false hne]

/-- The free units of a class are shared out among its objects by weights that are drawn, and less than one unit for
each object is left. No number on the way exceeds its width. The decoys in front of an object fill its share
exactly, and all of them have the content that the class asks for. Addresses in it are those of trap blocks. -/
theorem shares_fill_budget (hptr : IsPointerSize ptr) :
    (∀ units ids s, ∃ weights : List Nat, weights.length = ids.length ∧ (∀ w ∈ weights, w < 2 ^ 32) ∧
      (shareOut units ids s).1 = ids.zip (weights.map (share units weights.sum))) ∧
    (∀ units weights, units < 2 ^ 64 → weights.sum ≠ 0 → (∀ w ∈ weights, w < 2 ^ 32) → FairShares units weights) ∧
    ∀ storage useTraps anchor units (d : DecoyState), units * ptr < 2 ^ 64 →
      ∃ decoys d', planDecoys storage ptr useTraps anchor (Address.wrap (units * ptr)) d = (decoys, d') ∧
        Fills ptr (units * ptr) decoys ∧ (∀ decoy ∈ decoys, decoy.Filled ptr storage) ∧
        (d.pool.Sound → ∀ decoy ∈ decoys, ∀ blocks, decoy.content = .traps blocks → ∀ t ∈ blocks, t ∈ d.pool.all) := by
  refine ⟨exists_weights_shareOut, fun _ _ => fairShares, fun storage useTraps anchor units d hbytes => ?_⟩
  rw [show Address.wrap (units * ptr) = units * ptr from Nat.mod_eq_of_lt hbytes]
  have hdvd : ptr ∣ units * ptr := Nat.dvd_mul_left ptr units
  exact ⟨_, _, rfl, fills_planDecoys storage useTraps anchor hdvd hptr d,
    filled_planDecoys storage useTraps anchor hdvd hptr d, (draws_planDecoys ..).traps_mem⟩

/-- Weights 1 and 2 share 20 words out as 6 and 13, and the decoys for the 13 words fill 52 bytes. There is one trap
block whose address they may hold. -/
theorem shares_fill_budget_twenty_words :
    FairShares 20 [1, 2] ∧ [1, 2].map (share 20 3) = [6, 13] ∧
      ∃ decoys, Fills 4 52 decoys ∧ (∀ decoy ∈ decoys, decoy.Filled 4 .data) ∧
        ∀ decoy ∈ decoys, ∀ blocks, decoy.content = .traps blocks → ∀ t ∈ blocks, t ∈ [⟨1, 2⟩] := by
  obtain ⟨-, hshares, hdecoys⟩ := shares_fill_budget (.inl rfl)
  obtain ⟨decoys, -, -, hfills, hfilled, htraps⟩ := hdecoys .data true 1 13
    { pool := { all := [⟨1, 2⟩], unetched := [⟨1, 2⟩] }, stream := { block := fun _ => Vector.replicate 16 7 } }
    (by decide)
  exact ⟨hshares 20 [1, 2] (by decide) (by decide) (by decide), rfl, decoys, hfills, hfilled, htraps fun _ h => h⟩

end Layout
end ThumbHardening
