import ThumbHardening.Layout.StorageClass
import ThumbHardening.Layout.TrapPool

/-!
# Decoys

Objects without a purpose of their own that fill the space between the others. Planning decides their size
and content from random numbers; the program is not touched.
-/

namespace ThumbHardening

/-- The size and the alignment of a full decoy. -/
def decoyBlockSize : Nat := 32

inductive DecoyContent where
  | zero
  /-- Addresses of trap blocks. -/
  | traps (blocks : List BlockPointer)
  /-- Random words. -/
  | words (words : List Nat)
  deriving DecidableEq, Repr

namespace DecoyContent

def initializer : DecoyContent → Initializer
  | zero => .zero
  | traps blocks => .pointers (blocks.map fun b => .block b.function b.block)
  | words ws => .pointers (ws.map .raw)

end DecoyContent

/-- A decoy that has not been added to the program. -/
structure DecoyPlan where
  storage : StorageClass
  size : Nat
  align : Nat
  content : DecoyContent
  /-- The trap block that is going to hold its address. -/
  etch : Option BlockPointer := none
  /-- The object in front of which it is placed. -/
  anchor : Option Nat := none
  deriving DecidableEq, Repr

structure DecoyState where
  pool : TrapPool
  stream : RandomStream
  warnings : Nat := 0

/-- A random odd word of pointer size. -/
def randomWord (ptr : Nat) (s : RandomStream) : Nat × RandomStream :=
  let (word, s) := s.next64
  let odd := word / 2 * 2 + 1
  (if ptr < 8 then odd % Nat.pow 2 32 else odd, s)

namespace DecoyState

/-- Chooses the content of a decoy with so many entries. -/
def chooseContent (storage : StorageClass) (ptr : Nat) (useTraps : Bool) (entries : Nat)
    (d : DecoyState) : DecoyContent × DecoyState :=
  if storage = .bss then (.zero, d)
  else if useTraps && !d.pool.unetched.isEmpty then
    let (blocks, stream) := RandomStream.replicate d.pool.randomTrap entries d.stream
    (.traps blocks, { d with stream })
  else
    let (words, stream) := RandomStream.replicate (randomWord ptr) entries d.stream
    (.words words, { d with stream })

/-- Chooses the trap block that holds the address of a decoy. -/
def chooseEtch (d : DecoyState) : Option BlockPointer × DecoyState :=
  let (etch, pool, stream, warnings) := d.pool.take d.stream
  (etch, { pool, stream, warnings := d.warnings + warnings })

end DecoyState

/-- The size of the first decoy of a space that has to be filled. -/
def decoySize (remaining : Nat) : Nat :=
  if remaining < decoyBlockSize then remaining else decoyBlockSize

def decoyAlign (ptr size : Nat) : Nat :=
  if size < decoyBlockSize then ptr else decoyBlockSize

theorem decoySize_pos {remaining : Nat} (h : remaining ≠ 0) : 0 < decoySize remaining := by
  unfold decoySize decoyBlockSize
  split <;> omega

/-- Fills so many bytes in front of an object with full decoys and one smaller one. -/
def planDecoys (storage : StorageClass) (ptr : Nat) (useTraps : Bool) (anchor : Nat) :
    (remaining : Nat) → DecoyState → List DecoyPlan × DecoyState
  | 0, d => ([], d)
  | remaining + 1, d =>
    let size := decoySize (remaining + 1)
    let (content, d) := d.chooseContent storage ptr useTraps (size / ptr)
    let (etch, d) := d.chooseEtch
    let (rest, d) := planDecoys storage ptr useTraps anchor (remaining + 1 - size) d
    ({ storage, size, align := decoyAlign ptr size, content, etch, anchor := some anchor } :: rest, d)
termination_by remaining => remaining
decreasing_by
  have : 0 < decoySize (remaining + 1) := decoySize_pos (Nat.succ_ne_zero remaining)
  omega

end ThumbHardening
