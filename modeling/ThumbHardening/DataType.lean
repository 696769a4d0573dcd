import ThumbHardening.Address

/-!
# Types of memory objects

The types of stack objects and globals, as far as layout is concerned: their size and alignment for a
given pointer size, and the offsets at which they hold function pointers.
-/

namespace ThumbHardening

/-- The type of a memory object. -/
inductive DataType where
  /-- An integer of so many bits. -/
  | int (bits : Nat)
  | pointer
  | functionPointer
  | array (elem : DataType) (count : Nat)
  /-- Fields in order, each at its natural alignment. -/
  | record (fields : List DataType)
  deriving Repr

namespace DataType
open Address

mutual

/-- The alignment in bytes for pointers of `ptr` bytes. -/
def align (ptr : Nat) : DataType → Nat
  | int bits => min (Nat.nextPowerOfTwo ((bits + 7) / 8)) 8
  | pointer | functionPointer => ptr
  | array elem _ => elem.align ptr
  | record fields => alignOfFields ptr fields

/-- The largest alignment of the fields, 1 without any. -/
def alignOfFields (ptr : Nat) : List DataType → Nat
  | [] => 1
  | [field] => field.align ptr
  | field :: rest => max (field.align ptr) (alignOfFields ptr rest)

end

mutual

/-- The size in bytes, padding included. -/
def size (ptr : Nat) : DataType → Nat
  | int bits => (bits + 7) / 8
  | pointer | functionPointer => ptr
  | array elem count => wrap (elem.size ptr * count)
  | record fields => alignUp (endOfFields ptr 0 fields) (alignOfFields ptr fields)

/-- The offset behind the last of the fields when the first one is placed at `offset` or later. -/
def endOfFields (ptr offset : Nat) : List DataType → Nat
  | [] => offset
  | field :: rest =>
    endOfFields ptr (wrap (alignUp offset (field.align ptr) + field.size ptr)) rest

end

mutual

/-- Whether a function pointer is stored somewhere inside. -/
def containsFunctionPointer : DataType → Bool
  | functionPointer => true
  | int _ | pointer => false
  | array elem _ => elem.containsFunctionPointer
  | record fields => anyContainsFunctionPointer fields

def anyContainsFunctionPointer : List DataType → Bool
  | [] => false
  | field :: rest => field.containsFunctionPointer || anyContainsFunctionPointer rest

end

mutual

/-- The offsets of all function pointers inside, in memory order. -/
def functionPointerOffsets (ptr : Nat) : DataType → List Nat
  | functionPointer => [0]
  | int _ | pointer => []
  | array elem count =>
    if elem.containsFunctionPointer then
      let inner := elem.functionPointerOffsets ptr
      (List.range count).flatMap fun i => inner.map fun o => wrap (i * elem.size ptr + o)
    else []
  | record fields => fieldPointerOffsets ptr 0 fields

/-- The offsets inside fields of which the first one is placed at `offset` or later. -/
def fieldPointerOffsets (ptr offset : Nat) : List DataType → List Nat
  | [] => []
  | field :: rest =>
    let start := alignUp offset (field.align ptr)
    (field.functionPointerOffsets ptr).map (fun o => wrap (start + o))
      ++ fieldPointerOffsets ptr (wrap (start + field.size ptr)) rest

end

end DataType
end ThumbHardening
