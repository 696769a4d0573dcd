import ThumbHardening.DataType
import ThumbHardening.Proofs.Layout.Decoys
import Mathlib.Algebra.Order.Group.Nat
import Mathlib.Data.List.Basic
import Mathlib.Data.Nat.Prime.Basic

/-!
# Layout of types

Size, alignment and the offsets of function pointers are three recursions over a type that have to agree. They
do as long as every size inside the type has 64 bits: sizes are then what they are without a bound, each part
of a type that holds a function pointer starts at a multiple of the pointer size, and the offsets that are
collected are places for pointers inside the type which do not overlap.
-/

namespace ThumbHardening
namespace DataType
open Address

variable {ptr : Nat} {t u elem field : DataType} {count : Nat} {fields : List DataType}

/-! ### The parts of a type -/

/-- Induction over types, over all fields of a record at once. -/
@[elab_as_elim]
theorem induction_on {motive : DataType → Prop} (int : ∀ bits, motive (.int bits))
    (pointer : motive .pointer) (functionPointer : motive .functionPointer)
    (array : ∀ elem count, motive elem → motive (.array elem count))
    (record : ∀ fields, (∀ field ∈ fields, motive field) → motive (.record fields)) :
    ∀ t, motive t
  | .int bits => int bits
  | .pointer => pointer
  | .functionPointer => functionPointer
  | .array elem count =>
    array elem count (induction_on int pointer functionPointer array record elem)
  | .record fields =>
    record fields fun field _ => induction_on int pointer functionPointer array record field

mutual

/-- The types that a type is made of, itself among them. -/
def parts : DataType → List DataType
  | array elem count => array elem count :: elem.parts
  | record fields => record fields :: partsOfFields fields
  | t => [t]

def partsOfFields : List DataType → List DataType
  | [] => []
  | field :: rest => field.parts ++ partsOfFields rest

end

theorem self_mem_parts (t : DataType) : t ∈ t.parts := by
  cases t <;> simp [parts]

theorem mem_partsOfFields_iff : u ∈ partsOfFields fields ↔ ∃ field ∈ fields, u ∈ field.parts := by
  induction fields with
  | nil => simp [partsOfFields]
  | cons field rest ih => simp [partsOfFields, ih]

/-- That a type has a function pointer which is not below an array without elements. -/
inductive HasSlot : DataType → Prop
  | functionPointer : HasSlot .functionPointer
  | elem {elem : DataType} {count : Nat} (hcount : 0 < count) (h : HasSlot elem) :
    HasSlot (.array elem count)
  | field {field : DataType} {fields : List DataType} (hmem : field ∈ fields) (h : HasSlot field) :
    HasSlot (.record fields)

theorem anyContainsFunctionPointer_iff :
    anyContainsFunctionPointer fields = true ↔ ∃ field ∈ fields, field.containsFunctionPointer = true := by
  induction fields with
  | nil => simp [anyContainsFunctionPointer]
  | cons field rest ih => simp [anyContainsFunctionPointer, ih]

theorem HasSlot.containsFunctionPointer (h : HasSlot t) : t.containsFunctionPointer = true := by
  induction h with
  | functionPointer => rfl
  | elem _ _ ih => exact ih
  | field hmem _ ih => exact anyContainsFunctionPointer_iff.mpr ⟨_, hmem, ih⟩

/-! ### Sizes -/

mutual

/-- The size in bytes, however large. -/
def extent (ptr : Nat) : DataType → Nat
  | int bits => (bits + 7) / 8
  | pointer | functionPointer => ptr
  | array elem count => elem.extent ptr * count
  | record fields => roundUp (extentOfFields ptr 0 fields) (alignOfFields ptr fields)

/-- The offset behind the last of the fields when the first one is placed at `offset` or later. -/
def extentOfFields (ptr offset : Nat) : List DataType → Nat
  | [] => offset
  | field :: rest => extentOfFields ptr (roundUp offset (field.align ptr) + field.extent ptr) rest

end

/-- That the sizes of a type and of the types inside have 64 bits. -/
def Representable (ptr : Nat) (t : DataType) : Prop :=
  ∀ u ∈ t.parts, u.extent ptr < 2 ^ 64

instance : Decidable (Representable ptr t) :=
  inferInstanceAs (Decidable (∀ u ∈ t.parts, u.extent ptr < 2 ^ 64))

namespace Representable

theorem extent_lt (h : Representable ptr t) : t.extent ptr < 2 ^ 64 :=
  h t t.self_mem_parts

theorem of_array (h : Representable ptr (.array elem count)) : Representable ptr elem :=
  fun u hu => h u (List.mem_cons_of_mem _ hu)

theorem of_record (h : Representable ptr (.record fields)) (hmem : field ∈ fields) :
    Representable ptr field :=
  fun u hu => h u (List.mem_cons_of_mem _ (mem_partsOfFields_iff.mpr ⟨field, hmem, hu⟩))

/-- No offset of a field exceeds the size of its record. -/
theorem extentOfFields_lt (h : Representable ptr (.record fields)) :
    extentOfFields ptr 0 fields < 2 ^ 64 :=
  (le_roundUp _ _).trans_lt h.extent_lt

end Representable

theorem le_extentOfFields (ptr : Nat) (fields : List DataType) (offset : Nat) :
    offset ≤ extentOfFields ptr offset fields := by
  induction fields generalizing offset with
  | nil => exact le_rfl
  | cons field rest ih =>
    calc
      offset ≤ roundUp offset (field.align ptr) := le_roundUp _ _
      _ ≤ roundUp offset (field.align ptr) + field.extent ptr := Nat.le_add_right _ _
      _ ≤ _ := ih _

/-- Where a field starts and ends when the offset behind its record has 64 bits. -/
theorem field_eq_extent {offset : Nat} {rest : List DataType}
    (hsize : field.size ptr = field.extent ptr)
    (hlt : extentOfFields ptr offset (field :: rest) < 2 ^ 64) :
    alignUp offset (field.align ptr) = roundUp offset (field.align ptr) ∧
      wrap (alignUp offset (field.align ptr) + field.size ptr)
        = roundUp offset (field.align ptr) + field.extent ptr := by
  have hend : roundUp offset (field.align ptr) + field.extent ptr < 2 ^ 64 :=
    (le_extentOfFields ptr rest _).trans_lt hlt
  have hstart := alignUp_of_lt ((Nat.le_add_right _ _).trans_lt hend)
  rw [hstart, hsize]
  exact ⟨rfl, wrap_of_lt hend⟩

theorem endOfFields_eq_extent {offset : Nat}
    (hsizes : ∀ field ∈ fields, field.size ptr = field.extent ptr)
    (hlt : extentOfFields ptr offset fields < 2 ^ 64) :
    endOfFields ptr offset fields = extentOfFields ptr offset fields := by
  induction fields generalizing offset with
  | nil => rfl
  | cons field rest ih =>
    rw [endOfFields, (field_eq_extent (hsizes field List.mem_cons_self) hlt).2]
    exact ih (fun f hf => hsizes f (List.mem_cons_of_mem _ hf)) hlt

/-- Reducing sizes to 64 bits changes none that has so many. -/
theorem size_eq_extent (h : Representable ptr t) : t.size ptr = t.extent ptr := by
  induction t using induction_on with
  | int bits => rfl
  | pointer => rfl
  | functionPointer => rfl
  | array elem count ih =>
    rw [size, ih h.of_array]
    exact wrap_of_lt h.extent_lt
  | record fields ih =>
    rw [size, endOfFields_eq_extent (fun f hf => ih f hf (h.of_record hf)) h.extentOfFields_lt]
    exact alignUp_of_lt h.extent_lt

/-! ### Alignments -/

/-- Of two alignments the larger one is a multiple of the other. -/
theorem dvd_max_of_dvd_eight {a b : Nat} (ha : a ∣ 8) (hb : b ∣ 8) :
    a ∣ max a b ∧ b ∣ max a b ∧ max a b ∣ 8 := by
  obtain ⟨i, -, rfl⟩ := (Nat.dvd_prime_pow Nat.prime_two).mp (show a ∣ 2 ^ 3 from ha)
  obtain ⟨j, -, rfl⟩ := (Nat.dvd_prime_pow Nat.prime_two).mp (show b ∣ 2 ^ 3 from hb)
  rcases le_total i j with hle | hle
  · rw [max_eq_right (Nat.pow_le_pow_right (by decide) hle)]
    exact ⟨Nat.pow_dvd_pow 2 hle, Nat.dvd_refl _, hb⟩
  · rw [max_eq_left (Nat.pow_le_pow_right (by decide) hle)]
    exact ⟨Nat.dvd_refl _, Nat.pow_dvd_pow 2 hle, ha⟩

theorem min_nextPowerOfTwo_dvd_eight (n : Nat) : min n.nextPowerOfTwo 8 ∣ 8 := by
  obtain ⟨k, hk⟩ := Nat.isPowerOfTwo_nextPowerOfTwo n
  rw [hk, show 8 = 2 ^ 3 from rfl]
  rcases le_total k 3 with hle | hle
  · rw [min_eq_left (Nat.pow_le_pow_right (by decide) hle)]
    exact Nat.pow_dvd_pow 2 hle
  · rw [min_eq_right (Nat.pow_le_pow_right (by decide) hle)]

theorem alignOfFields_cons_cons (ptr : Nat) (field next : DataType) (rest : List DataType) :
    alignOfFields ptr (field :: next :: rest)
      = max (field.align ptr) (alignOfFields ptr (next :: rest)) := by
  rw [alignOfFields]
  exact List.cons_ne_nil _ _

theorem alignOfFields_dvd_eight (h : ∀ field ∈ fields, field.align ptr ∣ 8) :
    alignOfFields ptr fields ∣ 8 ∧ ∀ field ∈ fields, field.align ptr ∣ alignOfFields ptr fields := by
  induction fields with
  | nil => exact ⟨Nat.one_dvd _, by simp⟩
  | cons field rest ih =>
    have hfield := h field List.mem_cons_self
    obtain ⟨hrest, hdvd⟩ := ih fun f hf => h f (List.mem_cons_of_mem _ hf)
    cases rest with
    | nil => simpa [alignOfFields] using hfield
    | cons next rest =>
      obtain ⟨hleft, hright, hmax⟩ := dvd_max_of_dvd_eight hfield hrest
      rw [alignOfFields_cons_cons]
      exact ⟨hmax, List.forall_mem_cons.mpr ⟨hleft, fun f hf => (hdvd f hf).trans hright⟩⟩

theorem align_dvd_eight (hptr : IsPointerSize ptr) (t : DataType) : t.align ptr ∣ 8 := by
  have hdvd : ptr ∣ 8 := by rcases hptr with rfl | rfl <;> decide
  induction t using induction_on with
  | int bits => exact min_nextPowerOfTwo_dvd_eight _
  | pointer => exact hdvd
  | functionPointer => exact hdvd
  | array elem count ih => exact ih
  | record fields ih => exact (alignOfFields_dvd_eight ih).1

theorem align_pos (hptr : IsPointerSize ptr) (t : DataType) : 0 < t.align ptr :=
  Nat.pos_of_dvd_of_pos (align_dvd_eight hptr t) (by decide)

/-- A type with a function pointer inside is aligned at least like one. -/
theorem dvd_align (hptr : IsPointerSize ptr) (h : t.containsFunctionPointer = true) :
    ptr ∣ t.align ptr := by
  induction t using induction_on with
  | int bits => cases h
  | pointer => cases h
  | functionPointer => exact Nat.dvd_refl _
  | array elem count ih => exact ih h
  | record fields ih =>
    obtain ⟨field, hmem, hfield⟩ := anyContainsFunctionPointer_iff.mp h
    exact (ih field hmem hfield).trans
      ((alignOfFields_dvd_eight fun f _ => align_dvd_eight hptr f).2 field hmem)

/-- The size of a type with a function pointer inside is a whole number of pointers. -/
theorem dvd_extent (hptr : IsPointerSize ptr) (h : t.containsFunctionPointer = true) :
    ptr ∣ t.extent ptr := by
  induction t using induction_on with
  | int bits => cases h
  | pointer => cases h
  | functionPointer => exact Nat.dvd_refl _
  | array elem count ih => exact (ih h).mul_right count
  | record fields ih =>
    exact (dvd_align hptr h).trans (dvd_roundUp _ (align_pos hptr (.record fields)))

/-! ### Places for pointers -/

/-- Offsets of pointers in memory order between two bounds. -/
structure Slots (ptr lo hi : Nat) (offsets : List Nat) : Prop where
  apart : offsets.Pairwise fun a b => a + ptr ≤ b
  within : ∀ o ∈ offsets, lo ≤ o ∧ o + ptr ≤ hi
  aligned : ∀ o ∈ offsets, ptr ∣ o

namespace Slots
variable {lo mid hi base : Nat} {offsets offsets' : List Nat}

theorem nil : Slots ptr lo hi [] :=
  ⟨.nil, by simp, by simp⟩

theorem mono {lo' hi' : Nat} (h : Slots ptr lo hi offsets) (hlo : lo' ≤ lo) (hhi : hi ≤ hi') :
    Slots ptr lo' hi' offsets where
  apart := h.apart
  within o ho := ⟨hlo.trans (h.within o ho).1, (h.within o ho).2.trans hhi⟩
  aligned := h.aligned

theorem append (h : Slots ptr lo mid offsets) (h' : Slots ptr mid hi offsets') (hlo : lo ≤ mid)
    (hhi : mid ≤ hi) : Slots ptr lo hi (offsets ++ offsets') where
  apart := List.pairwise_append.mpr
    ⟨h.apart, h'.apart, fun a ha b hb => (h.within a ha).2.trans (h'.within b hb).1⟩
  within o ho := by
    rcases List.mem_append.mp ho with ho | ho
    · exact (h.mono le_rfl hhi).within o ho
    · exact (h'.mono hlo le_rfl).within o ho
  aligned o ho := (List.mem_append.mp ho).elim (h.aligned o) (h'.aligned o)

/-- Places inside something that starts at `base`, whose end has 64 bits. -/
theorem shift (h : Slots ptr 0 hi offsets) (hptr : 0 < ptr) (hbase : offsets ≠ [] → ptr ∣ base)
    (hlt : base + hi < 2 ^ 64) :
    Slots ptr base (base + hi) (offsets.map fun o => wrap (base + o)) := by
  have hmap : (offsets.map fun o => wrap (base + o)) = offsets.map (base + ·) := by
    refine List.map_congr_left fun o ho => wrap_of_lt ?_
    have := (h.within o ho).2
    omega
  rw [hmap]
  refine ⟨List.pairwise_map.mpr (h.apart.imp fun hab => ?_), ?_, ?_⟩
  · omega
  · simp only [List.forall_mem_map]
    intro o ho
    have := (h.within o ho).2
    omega
  · simp only [List.forall_mem_map]
    exact fun o ho => Nat.dvd_add (hbase (List.ne_nil_of_mem ho)) (h.aligned o ho)

end Slots

theorem fieldPointerOffsets_eq_nil_iff {offset : Nat} :
    fieldPointerOffsets ptr offset fields = []
      ↔ ∀ field ∈ fields, field.functionPointerOffsets ptr = [] := by
  induction fields generalizing offset with
  | nil => simp [fieldPointerOffsets]
  | cons field rest ih =>
    rw [fieldPointerOffsets, List.append_eq_nil_iff, List.map_eq_nil_iff, ih, List.forall_mem_cons]

/-- Offsets are collected if and only if there is a place for a pointer. -/
theorem functionPointerOffsets_ne_nil_iff : t.functionPointerOffsets ptr ≠ [] ↔ t.HasSlot := by
  induction t using induction_on with
  | int bits => exact ⟨fun h => absurd rfl h, nofun⟩
  | pointer => exact ⟨fun h => absurd rfl h, nofun⟩
  | functionPointer => exact ⟨fun _ => .functionPointer, fun _ => List.cons_ne_nil _ _⟩
  | array elem count ih =>
    rw [functionPointerOffsets]
    split
    · simp only [ne_eq, List.flatMap_eq_nil_iff, List.map_eq_nil_iff, List.mem_range]
      constructor
      · intro hne
        obtain ⟨i, hi⟩ := not_forall.mp hne
        obtain ⟨hi, hinner⟩ := Classical.not_imp.mp hi
        exact .elem (Nat.zero_lt_of_lt hi) (ih.mp hinner)
      · rintro (_ | ⟨hcount, h⟩) hnil
        exact ih.mpr h (hnil 0 hcount)
    · next hcontains =>
      refine ⟨fun h => absurd rfl h, ?_⟩
      rintro (_ | ⟨hcount, h⟩)
      exact absurd h.containsFunctionPointer hcontains
  | record fields ih =>
    rw [functionPointerOffsets, ne_eq, fieldPointerOffsets_eq_nil_iff]
    constructor
    · intro hne
      obtain ⟨field, hfield⟩ := not_forall.mp hne
      obtain ⟨hmem, hoffsets⟩ := Classical.not_imp.mp hfield
      exact .field hmem ((ih field hmem).mp hoffsets)
    · rintro (_ | _ | ⟨hmem, h⟩) hnil
      exact (ih _ hmem).mpr h (hnil _ hmem)

/-- The elements of an array one behind the other. -/
theorem slots_elems {offsets : List Nat} {size n : Nat} (h : Slots ptr 0 size offsets) (hptr : 0 < ptr)
    (hdvd : ptr ∣ size) (hlt : n * size < 2 ^ 64) :
    Slots ptr 0 (n * size) ((List.range n).flatMap fun i => offsets.map fun o => wrap (i * size + o)) := by
  induction n with
  | zero => exact .nil
  | succ n ih =>
    rw [Nat.succ_mul] at hlt ⊢
    rw [List.range_succ, List.flatMap_append, List.flatMap_singleton]
    exact (ih (by omega)).append (h.shift hptr (fun _ => hdvd.mul_left n) hlt) (Nat.zero_le _)
      (Nat.le_add_right _ _)

/-- The fields of a record from some offset on. -/
theorem slots_fields {offset : Nat} (hptr : IsPointerSize ptr)
    (h : ∀ field ∈ fields, Slots ptr 0 (field.extent ptr) (field.functionPointerOffsets ptr))
    (hsizes : ∀ field ∈ fields, field.size ptr = field.extent ptr)
    (hlt : extentOfFields ptr offset fields < 2 ^ 64) :
    Slots ptr offset (extentOfFields ptr offset fields) (fieldPointerOffsets ptr offset fields) := by
  induction fields generalizing offset with
  | nil => exact .nil
  | cons field rest ih =>
    obtain ⟨hstart, hend⟩ := field_eq_extent (hsizes field List.mem_cons_self) hlt
    have hrest := ih (fun f hf => h f (List.mem_cons_of_mem _ hf))
      (fun f hf => hsizes f (List.mem_cons_of_mem _ hf)) hlt
    have hle := le_extentOfFields ptr rest (roundUp offset (field.align ptr) + field.extent ptr)
    have hbase : field.functionPointerOffsets ptr ≠ [] → ptr ∣ roundUp offset (field.align ptr) :=
      fun hne => (dvd_align hptr (functionPointerOffsets_ne_nil_iff.mp hne).containsFunctionPointer).trans
        (dvd_roundUp offset (align_pos hptr field))
    have hfield := (h field List.mem_cons_self).shift hptr.pos hbase (hle.trans_lt hlt)
    simp only [fieldPointerOffsets, hend]
    rw [hstart]
    exact (hfield.mono (le_roundUp _ _) le_rfl).append hrest
      ((le_roundUp _ _).trans (Nat.le_add_right _ _)) hle

/-- The collected offsets are places for pointers inside the type. -/
theorem slots_functionPointerOffsets (hptr : IsPointerSize ptr) (h : Representable ptr t) :
    Slots ptr 0 (t.extent ptr) (t.functionPointerOffsets ptr) := by
  induction t using induction_on with
  | int bits => exact .nil
  | pointer => exact .nil
  | functionPointer =>
    rw [functionPointerOffsets, extent]
    exact ⟨List.pairwise_singleton _ _, by simp, by simp⟩
  | array elem count ih =>
    rw [functionPointerOffsets, extent]
    split
    · next hcontains =>
      have hlt := h.extent_lt
      rw [extent, Nat.mul_comm] at hlt
      rw [Nat.mul_comm, size_eq_extent h.of_array]
      exact slots_elems (ih h.of_array) hptr.pos (dvd_extent hptr hcontains) hlt
    · exact .nil
  | record fields ih =>
    refine (slots_fields hptr (fun f hf => ih f hf (h.of_record hf))
      (fun f hf => size_eq_extent (h.of_record hf)) h.extentOfFields_lt).mono le_rfl (le_roundUp _ _)

end DataType
end ThumbHardening
