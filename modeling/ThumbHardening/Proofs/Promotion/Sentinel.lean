import ThumbHardening.Promotion
import ThumbHardening.Proofs.DataType

/-!
# Content of promoted objects

The content of an object that has moved is zero except for its function pointers. Writing it slot by slot
into zeros gives just that, also when the object ends within a slot or in front of one: what is filled is
never out of range. Only the zeros have a limit, half of the addresses at most.
-/

namespace ThumbHardening
namespace Promotion
open Address

variable {type : DataType} {size ptr : Nat}

/-! ### Slot by slot -/

/-- Fills the bytes between two positions, if those are positions. -/
def fill? (value start stop : Nat) (bytes : List Nat) : Option (List Nat) :=
  if start ≤ stop ∧ stop ≤ bytes.length then
    some (bytes.take start ++ List.replicate (stop - start) value ++ bytes.drop stop)
  else none

/-- Marks the pointer at an offset, or the part of it that there is room for. -/
def markSlot? (ptr : Nat) (bytes : List Nat) (offset : Nat) : Option (List Nat) :=
  let stop := min (wrap (offset + ptr)) bytes.length
  fill? sentinelByte (min offset stop) stop bytes

/-- The initial content of a promoted object, written slot by slot if there can be so many bytes. -/
def sentinelInPlace? (type : DataType) (size ptr : Nat) : Option Initializer :=
  let offsets := type.functionPointerOffsets ptr
  if offsets.isEmpty then some .zero
  else if size < 2 ^ 63 then
    (offsets.foldlM (markSlot? ptr) (List.replicate size 0)).map .bytes
  else none

theorem fill?_eq_some {value start stop : Nat} {bytes : List Nat} (hle : start ≤ stop)
    (hstop : stop ≤ bytes.length) :
    fill? value start stop bytes
      = some (bytes.mapIdx fun i b => if start ≤ i ∧ i < stop then value else b) := by
  rw [fill?, if_pos ⟨hle, hstop⟩, Option.some_inj]
  refine List.ext_getElem (by simp; omega) fun i hi hi' => ?_
  simp only [List.getElem_append, List.getElem_mapIdx, List.getElem_take, List.getElem_replicate,
    List.getElem_drop, List.length_append, List.length_take, List.length_replicate]
  grind

/-- A slot can always be marked. -/
theorem markSlot?_eq_some (ptr : Nat) (bytes : List Nat) (offset : Nat) :
    markSlot? ptr bytes offset
      = some (bytes.mapIdx fun i b => if inSlot [offset] ptr i then sentinelByte else b) := by
  have hle := Nat.min_le_right offset (min (wrap (offset + ptr)) bytes.length)
  rw [markSlot?, fill?_eq_some hle (Nat.min_le_right _ _), Option.some_inj]
  refine List.ext_getElem (by simp) fun i hi hi' => ?_
  rw [List.length_mapIdx] at hi
  simp only [List.getElem_mapIdx, inSlot, List.any_cons, List.any_nil, Bool.or_false, Bool.and_eq_true,
    decide_eq_true_eq]
  congr 1
  simp only [eq_iff_iff]
  omega

/-- Marking all slots sets the bytes that belong to one. -/
theorem foldlM_markSlot? (ptr : Nat) (offsets bytes : List Nat) :
    offsets.foldlM (markSlot? ptr) bytes
      = some (bytes.mapIdx fun i b => if inSlot offsets ptr i then sentinelByte else b) := by
  induction offsets generalizing bytes with
  | nil =>
    have hsame : (bytes.mapIdx fun _ b => b) = bytes := by
      refine List.ext_getElem (by simp) fun i hi hi' => ?_
      rw [List.getElem_mapIdx]
    simpa [inSlot] using hsame.symm
  | cons offset rest ih =>
    rw [List.foldlM_cons, markSlot?_eq_some, Option.bind_eq_bind, Option.bind_some, ih, List.mapIdx_mapIdx]
    congr 1
    refine congrArg (List.mapIdx · bytes) ?_
    funext i b
    simp only [inSlot, List.any_cons, List.any_nil, Bool.or_false, Function.comp_apply]
    grind

/-- So many bytes, zero except for those that belong to a pointer. -/
def markedBytes (offsets : List Nat) (size ptr : Nat) : List Nat :=
  (List.range size).map fun i => if inSlot offsets ptr i then sentinelByte else 0

theorem mapIdx_replicate_zero (offsets : List Nat) (size ptr : Nat) :
    (List.replicate size 0).mapIdx (fun i b => if inSlot offsets ptr i then sentinelByte else b)
      = markedBytes offsets size ptr := by
  refine List.ext_getElem (by simp [markedBytes]) fun i hi hi' => ?_
  simp [markedBytes]

theorem sentinelInitializer_eq_bytes (size : Nat) (h : type.functionPointerOffsets ptr ≠ []) :
    sentinelInitializer type size ptr
      = .bytes (markedBytes (type.functionPointerOffsets ptr) size ptr) := by
  rw [sentinelInitializer, List.isEmpty_eq_false_iff.mpr h]
  rfl

theorem fitsMemory_iff :
    fitsMemory type size ptr = true ↔ type.functionPointerOffsets ptr ≠ [] → size < 2 ^ 63 := by
  rw [fitsMemory, Bool.or_eq_true, decide_eq_true_eq, List.isEmpty_iff, or_comm, or_iff_not_imp_left]
  rfl

/-- Slot by slot the same content results, unless there is no memory for it. -/
theorem sentinelInPlace?_eq (type : DataType) (size ptr : Nat) :
    sentinelInPlace? type size ptr
      = if fitsMemory type size ptr then some (sentinelInitializer type size ptr) else none := by
  by_cases hnil : type.functionPointerOffsets ptr = []
  · simp [sentinelInPlace?, fitsMemory, sentinelInitializer, hnil]
  · simp only [sentinelInPlace?, foldlM_markSlot?, mapIdx_replicate_zero, List.isEmpty_iff,
      sentinelInitializer_eq_bytes size hnil, fitsMemory_iff, ne_eq, hnil, not_false_eq_true, true_imp_iff,
      Option.map_some, if_false]

/-! ### Marked bytes -/

/-- As long as no sum leaves 64 bits, a byte belongs to a pointer if it stands behind its start and not
behind its end. -/
theorem inSlot_iff {offsets : List Nat} {hi i : Nat} (h : DataType.Slots ptr 0 hi offsets)
    (hlt : hi < 2 ^ 64) : inSlot offsets ptr i = true ↔ ∃ o ∈ offsets, o ≤ i ∧ i < o + ptr := by
  simp only [inSlot, List.any_eq_true, Bool.and_eq_true, decide_eq_true_eq]
  refine exists_congr fun o => and_congr_right fun ho => ?_
  rw [wrap_of_lt ((h.within o ho).2.trans_lt hlt)]

/-- Where a type has its function pointers, and which content an object of the type has once it has moved,
whatever its own size. -/
theorem sentinel_marks_slots (hptr : IsPointerSize ptr) (h : type.Representable ptr) :
    (type.functionPointerOffsets ptr).Pairwise (fun a b => a < b ∧ a + ptr ≤ b) ∧
    (∀ o ∈ type.functionPointerOffsets ptr, ptr ∣ o ∧ o + ptr ≤ type.size ptr) ∧
    (type.functionPointerOffsets ptr ≠ [] ↔ type.HasSlot) ∧
    ∀ size,
      (¬ type.HasSlot →
        sentinelInPlace? type size ptr = some .zero ∧ sentinelInitializer type size ptr = .zero ∧
        fitsMemory type size ptr = true) ∧
      (type.HasSlot → size < 2 ^ 63 → ∃ bytes,
        sentinelInPlace? type size ptr = some (.bytes bytes) ∧
        sentinelInitializer type size ptr = .bytes bytes ∧ fitsMemory type size ptr = true ∧
        bytes.length = size ∧
        ∀ i (hi : i < bytes.length),
          bytes[i] = if ∃ o ∈ type.functionPointerOffsets ptr, o ≤ i ∧ i < o + ptr then 0xff else 0) ∧
      (type.HasSlot → 2 ^ 63 ≤ size →
        sentinelInPlace? type size ptr = none ∧ fitsMemory type size ptr = false) := by
  have hslots := DataType.slots_functionPointerOffsets hptr h
  have hiff : type.functionPointerOffsets ptr ≠ [] ↔ type.HasSlot :=
    DataType.functionPointerOffsets_ne_nil_iff
  have hpos := hptr.pos
  refine ⟨hslots.apart.imp fun hab => ⟨by omega, hab⟩, fun o ho => ?_, hiff, fun size => ⟨?_, ?_, ?_⟩⟩
  · rw [DataType.size_eq_extent h]
    exact ⟨hslots.aligned o ho, (hslots.within o ho).2⟩
  · intro hnone
    have hnil : type.functionPointerOffsets ptr = [] := not_not.mp fun hne => hnone (hiff.mp hne)
    simp [sentinelInPlace?, sentinelInitializer, fitsMemory, hnil]
  · intro hslot hsize
    have hfits : fitsMemory type size ptr = true := fitsMemory_iff.mpr fun _ => hsize
    have hbytes := sentinelInitializer_eq_bytes size (hiff.mpr hslot)
    refine ⟨markedBytes _ size ptr, ?_, hbytes, hfits, by simp [markedBytes], fun i hi => ?_⟩
    · rw [sentinelInPlace?_eq, if_pos hfits, hbytes]
    · simp only [markedBytes, List.getElem_map, List.getElem_range, inSlot_iff hslots h.extent_lt]
      rfl
  · intro hslot hsize
    have hfits : ¬ fitsMemory type size ptr = true :=
      fun hfits => Nat.not_lt.mpr hsize (fitsMemory_iff.mp hfits (hiff.mpr hslot))
    exact ⟨by rw [sentinelInPlace?_eq, if_neg hfits], Bool.eq_false_of_not_eq_true hfits⟩

/-- A byte, a function pointer and two more of them. -/
def callbacks : DataType :=
  .record [.int 8, .functionPointer, .array .functionPointer 2]

/-- An object that ends within the second of three slots. -/
theorem sentinel_marks_slots_callbacks :
    IsPointerSize 4 ∧ callbacks.Representable 4 ∧ callbacks.HasSlot ∧
    callbacks.functionPointerOffsets 4 = [4, 8, 12] ∧
    (callbacks.functionPointerOffsets 4).Pairwise (fun a b => a < b ∧ a + 4 ≤ b) ∧
    ∃ bytes, sentinelInPlace? callbacks 10 4 = some (.bytes bytes) ∧
      sentinelInitializer callbacks 10 4 = .bytes bytes ∧ bytes.length = 10 ∧
      ∀ i (hi : i < bytes.length), bytes[i] = if 4 ≤ i then 0xff else 0 := by
  have hptr : IsPointerSize 4 := .inl rfl
  have hsizes : callbacks.Representable 4 := by decide +kernel
  have hslot : callbacks.HasSlot := .field (.tail _ (.head _)) .functionPointer
  have hoffsets : callbacks.functionPointerOffsets 4 = [4, 8, 12] := by decide +kernel
  obtain ⟨hapart, -, -, hcontent⟩ := sentinel_marks_slots hptr hsizes
  obtain ⟨bytes, hplace, hinit, -, hlength, hbytes⟩ := (hcontent 10).2.1 hslot (by decide)
  refine ⟨hptr, hsizes, hslot, hoffsets, hapart, bytes, hplace, hinit, hlength, fun i hi => ?_⟩
  rw [hbytes i hi, hoffsets]
  congr 1
  simp only [List.mem_cons, List.not_mem_nil, or_false, exists_eq_or_imp, exists_eq_left, eq_iff_iff]
  omega

/-- An object of half of the addresses has no room for its content, and stops the promotion. -/
theorem not_forall_size_sentinel :
    IsPointerSize 4 ∧ DataType.functionPointer.Representable 4 ∧ DataType.functionPointer.HasSlot ∧
    ¬ (∀ size, size < 2 ^ 64 → (sentinelInPlace? .functionPointer size 4).isSome) ∧
    (promote 1
      { object := 1, name := "f.fp", size := 2 ^ 63, align := 4, type := .functionPointer }
      { program := { pointerSize := 4 }, statistics := {} }).2 = some (.fault .outOfMemory) := by
  refine ⟨.inl rfl, by decide, .functionPointer, fun h => ?_, by decide⟩
  exact absurd (h (2 ^ 63) (by decide)) (by decide)

end Promotion
end ThumbHardening
