import ThumbHardening.DataType
import ThumbHardening.Roster

/-!
# Memory objects

Global objects with their initial contents, and the objects in the stack frame of a function.
-/

namespace ThumbHardening

/-- Something that does not describe a complete element of a program. -/
inductive BuildError where
  | unnamedFunction
  | emptyBody
  | unnamedGlobal
  | unsizedGlobal
  | badAlignment
  deriving DecidableEq, Repr

def BuildError.message : BuildError → String
  | .unnamedFunction => "Function has no name"
  | .emptyBody => "Function body has no basic blocks"
  | .unnamedGlobal => "Global object has no name"
  | .unsizedGlobal => "Global object has no size"
  | .badAlignment => "Alignment of global object is not a power of two"

/-- How the linker sees a symbol. -/
inductive Linkage where
  | external
  | internal
  /-- Internal, and not in the symbol table. -/
  | hidden
  /-- Merged with other definitions of the same name. -/
  | linkOnce
  deriving DecidableEq, Repr

def Linkage.name : Linkage → String
  | external => "External"
  | internal => "Internal"
  | hidden => "Private"
  | linkOnce => "LinkOnce"

def Linkage.ofName? (text : String) : Option Linkage :=
  [external, internal, hidden, linkOnce].find? (·.name == text)

/-- A pointer-sized entry of an initializer. -/
inductive Pointer where
  | null
  | raw (value : Nat)
  | global (id offset : Nat)
  | function (id : Nat)
  | block (function id : Nat)
  deriving DecidableEq, Repr

/-- The initial content of a global object. -/
inductive Initializer where
  | zero
  | bytes (bytes : List Nat)
  | pointers (entries : List Pointer)
  deriving DecidableEq, Repr

namespace Initializer

/-- Whether every byte is zero. -/
def isZero : Initializer → Bool
  | zero => true
  | bytes bs => bs.all (· == 0)
  | pointers entries => entries.all fun p => p = .null || p = .raw 0

/-- The pointer entries. -/
def entries : Initializer → List Pointer
  | pointers entries => entries
  | _ => []

/-- The number of bytes that the content takes up, as far as it has a length of its own. -/
def encodedSize (ptr : Nat) : Initializer → Nat
  | zero => 0
  | bytes bs => bs.length
  | pointers entries => entries.length * ptr

end Initializer

/-- A global variable or constant. Without an initializer it is a declaration. -/
structure GlobalObject where
  id : Nat := 0
  name : String
  size : Nat
  align : Nat := 1
  constant : Bool := false
  initializer : Option Initializer := none
  sectionName : Option String := none
  linkage : Linkage := .external
  /-- Whether the object only fills space between others. -/
  decoy : Bool := false
  type : Option DataType := none
  deriving Repr

instance : Identified GlobalObject where
  id := GlobalObject.id
  setId g id := { g with id }

/-- What is known about a global object that is still to be built. -/
structure GlobalDraft where
  name : Option String := none
  size : Option Nat := none
  align : Nat := 1
  constant : Bool := false
  initializer : Option Initializer := none
  sectionName : Option String := none
  linkage : Linkage := .external
  type : Option DataType := none

/-- Builds the object if it has a name, a size and a proper alignment. -/
def GlobalDraft.build (d : GlobalDraft) : Except BuildError GlobalObject :=
  match d.name, d.size with
  | none, _ => .error .unnamedGlobal
  | some _, none => .error .unsizedGlobal
  | some name, some size =>
    if !Address.isPowerOfTwo d.align then .error .badAlignment
    else
      .ok {
        name, size, align := d.align, constant := d.constant, initializer := d.initializer
        sectionName := d.sectionName, linkage := d.linkage, type := d.type }

structure StackObject where
  id : Nat := 0
  name : String
  type : Option DataType
  size : Nat
  align : Nat
  /-- Whether the size is only known at run time. -/
  variableSized : Bool := false
  deriving Repr

instance : Identified StackObject where
  id := StackObject.id
  setId o id := { o with id }

namespace StackObject

/-- An object whose size is only known at run time. -/
def ofVariableSize (name : String) (type : Option DataType) (align : Nat) : StackObject :=
  { name, type, size := 0, align, variableSized := true }

end StackObject

abbrev Frame := Roster StackObject

end ThumbHardening
