import ThumbHardening.DataObject
import ThumbHardening.Options

/-!
# Storage classes

The three regions of memory that hold global objects: constants, variables with an initial value, and
variables that start as zero.
-/

namespace ThumbHardening

/-- A region for global objects. -/
inductive StorageClass where
  | rodata | data | bss
  deriving DecidableEq, Repr

namespace StorageClass

/-- The classes in the order of their regions. -/
def all : List StorageClass := [rodata, data, bss]

def name : StorageClass → String
  | rodata => "rodata"
  | data => "data"
  | bss => "bss"

/-- How the names of the sections of a class begin. -/
def sectionStart : StorageClass → String
  | rodata => ".rodata"
  | data => ".data"
  | bss => ".bss"

/-- The class of a global object. Declarations have none. -/
def of? (g : GlobalObject) : Option StorageClass :=
  g.initializer.map fun init =>
    if g.constant then rodata else if init.isZero then bss else data

/-- The bytes available for a class. -/
def capacity (o : Options) : StorageClass → Nat
  | rodata => o.maxRodata
  | data => o.maxData
  | bss => o.maxBss

end StorageClass

/-- A value for each storage class. -/
structure PerClass (α : Type) where
  rodata : α
  data : α
  bss : α
  deriving DecidableEq, Repr

namespace PerClass
variable {α β : Type}

def get (v : PerClass α) : StorageClass → α
  | .rodata => v.rodata
  | .data => v.data
  | .bss => v.bss

def update (v : PerClass α) (c : StorageClass) (change : α → α) : PerClass α :=
  match c with
  | .rodata => { v with rodata := change v.rodata }
  | .data => { v with data := change v.data }
  | .bss => { v with bss := change v.bss }

end PerClass

/-- What the randomizer found in the storage classes and added to them. -/
structure LayoutStatistics where
  /-- The bytes of the objects that are randomized. -/
  bytes : PerClass Nat := ⟨0, 0, 0⟩
  /-- The pointer-sized entries of the decoys. -/
  decoyWords : PerClass Nat := ⟨0, 0, 0⟩
  trapsEtched : Nat := 0
  /-- Objects that are declarations or have a section of another class. -/
  ignoredGlobals : Nat := 0
  deriving DecidableEq, Repr

end ThumbHardening
