import ThumbHardening.Function
import ThumbHardening.ValueGraph

/-!
# Programs

A program is a compilation unit: functions, global objects and aliases, each with a name of its own, and the
graph of the values that use them. Each symbol is bound to a value of that graph. Two further values are
lists of symbols that have to be kept; their names are reserved. A program keeps a table of the names that are
taken and a set of the symbols on the list of used ones, so that neither has to be searched for; both are
written when a symbol is added or kept, and nothing else changes them.
-/

namespace ThumbHardening

/-- The name of the list of symbols that are kept even if nothing refers to them. -/
def usedList : String := "obscura.used"

/-- The name of the list of symbols that the compiler keeps and the linker may drop. -/
def compilerUsedList : String := "obscura.compiler.used"

/-- Whether a name belongs to one of the lists that a program keeps itself. -/
def isListName (name : String) : Bool :=
  name == usedList || name == compilerUsedList

/-- Another name for a symbol. -/
structure Alias where
  id : Nat := 0
  name : String
  target : Symbol
  deriving DecidableEq, Repr

instance : Identified Alias where
  id := Alias.id
  setId a id := { a with id }

/-- Why a program refuses a change or has no answer. -/
inductive ProgramError where
  | invalidPointerSize (size : Nat)
  | unknownSymbol (symbol : Symbol)
  | duplicateName (name : String)
  | notAFunction (name : String)
  | aliasCycle (name : String)
  | order (error : OrderError)
  deriving DecidableEq, Repr

def ProgramError.label : ProgramError → String
  | .invalidPointerSize _ => "InvalidPointerSize"
  | .unknownSymbol _ => "UnknownSymbol"
  | .duplicateName _ => "DuplicateName"
  | .notAFunction _ => "NotAFunction"
  | .aliasCycle _ => "AliasCycle"
  | .order error => error.label

def ProgramError.message : ProgramError → String
  | .invalidPointerSize size => s!"Unsupported pointer size: {size}"
  | .unknownSymbol symbol => s!"Unknown symbol: {symbol.describe}"
  | .duplicateName name => s!"Symbol name is already in use: {name}"
  | .notAFunction name => s!"Alias {name} does not resolve to a function"
  | .aliasCycle name => s!"Alias {name} is part of an alias cycle"
  | .order error => error.message

/-- A compilation unit. -/
structure Program where
  functions : Roster Function := {}
  globals : Roster GlobalObject := {}
  aliases : Roster Alias := {}
  /-- The symbol of each name that is taken, the latest one first. -/
  names : List (String × Symbol) := []
  values : ValueGraph := {}
  /-- The value of each symbol, the latest binding first. -/
  bindings : List (Symbol × Nat) := []
  /-- The symbols that are kept even if nothing refers to them, in the order they were named. -/
  used : List Symbol := []
  /-- The same symbols as a set. -/
  usedSet : List Symbol := []
  pointerSize : Nat
  deriving Repr

namespace Program

/-- The value of the list of used symbols. -/
def usedValue : Nat := 0

/-- The value of the list of symbols that the compiler keeps. -/
def compilerUsedValue : Nat := 1

/-- An empty program for pointers of 4 or 8 bytes. -/
def new (pointerSize : Nat) : Except ProgramError Program :=
  if pointerSize = 4 ∨ pointerSize = 8 then
    let values := ValueGraph.add {} (.global none usedList) []
    .ok { values := values.add (.global none compilerUsedList) [], pointerSize }
  else .error (.invalidPointerSize pointerSize)

def function? (p : Program) (id : Nat) : Option Function :=
  p.functions.get? id

def global? (p : Program) (id : Nat) : Option GlobalObject :=
  p.globals.get? id

def alias? (p : Program) (id : Nat) : Option Alias :=
  p.aliases.get? id

def block? (p : Program) (function id : Nat) : Option Block := do
  let f ← p.function? function
  let g ← f.body
  g.block? id

def symbolName? (p : Program) : Symbol → Option String
  | .function id => (p.function? id).map Function.name
  | .global id => (p.global? id).map GlobalObject.name
  | .aliased id => (p.alias? id).map Alias.name

def symbolNamed? (p : Program) (name : String) : Option Symbol :=
  p.names.lookup name

def valueOf? (p : Program) (symbol : Symbol) : Option Nat :=
  p.bindings.lookup symbol

/-- The value of a symbol that has to exist. -/
def valueOf (p : Program) (symbol : Symbol) : Except ProgramError Nat :=
  match p.valueOf? symbol with
  | some value => .ok value
  | none => .error (.unknownSymbol symbol)

/-- Whether a new symbol may have this name. -/
def isFreeName (p : Program) (name : String) : Bool :=
  (p.symbolNamed? name).isNone && !isListName name

/-- Gives a new symbol its name and its value. -/
def bind (p : Program) (name : String) (symbol : Symbol) (kind : ValueKind) (operands : List Nat) : Program :=
  let value := p.values.size
  { p with
    values := p.values.add kind operands
    names := (name, symbol) :: p.names
    bindings := (symbol, value) :: p.bindings }

/-- Adds a function, and returns its ID. -/
def addFunction (p : Program) (f : Function) : Except ProgramError (Program × Nat) :=
  if p.isFreeName f.name then
    let id := p.functions.idFor f
    let p := { p with functions := p.functions.insert f }
    .ok (p.bind f.name (.function id) (.function id) [], id)
  else .error (.duplicateName f.name)

/-- Adds the value of the address of a block. -/
def addBlockAddress (p : Program) (function : Nat) : Program :=
  { p with values := p.values.add .blockAddress [function] }

/-- The operand that an entry of an initializer stands for, if it refers to a symbol. The address of a block is
a value of its own. -/
def resolveEntry (p : Program) : Pointer → Except ProgramError (Program × Option Nat)
  | .null | .raw _ => .ok (p, none)
  | .global id _ => (p.valueOf (.global id)).map fun value => (p, some value)
  | .function id => (p.valueOf (.function id)).map fun value => (p, some value)
  | .block function _ =>
    (p.valueOf (.function function)).map fun value =>
      (p.addBlockAddress value, some p.values.size)

/-- The operands that the entries of an initializer stand for. When an entry refers to an unknown symbol, the
values added for the entries before it stay. -/
def resolveEntries (p : Program) : List Pointer → Program × Except ProgramError (List Nat)
  | [] => (p, .ok [])
  | entry :: rest =>
    match p.resolveEntry entry with
    | .error e => (p, .error e)
    | .ok (p, operand) =>
      let (p, operands) := p.resolveEntries rest
      (p, operands.map (operand.toList ++ ·))

/-- Adds a global object, and returns its ID. What its initializer refers to has to exist. -/
def addGlobal (p : Program) (g : GlobalObject) : Program × Except ProgramError Nat :=
  if p.isFreeName g.name then
    match p.resolveEntries ((g.initializer.map Initializer.entries).getD []) with
    | (p, .error e) => (p, .error e)
    | (p, .ok operands) =>
      let id := p.globals.idFor g
      let p := { p with globals := p.globals.insert g }
      (p.bind g.name (.global id) (.global (some id) g.name) operands, .ok id)
  else (p, .error (.duplicateName g.name))

/-- Adds an alias, and returns its ID. The target need not exist yet; its value becomes the operand of the
alias only if it does. -/
def addAlias (p : Program) (name : String) (target : Symbol) :
    Except ProgramError (Program × Nat) :=
  if p.isFreeName name then
    let id := p.aliases.next
    let operands := (p.valueOf? target).toList
    let p := { p with aliases := p.aliases.insert { name, target } }
    .ok (p.bind name (.aliased id) (.aliased id) operands, id)
  else .error (.duplicateName name)

/-- Points an alias to another symbol. -/
def setAliasTarget (p : Program) (id : Nat) (target : Symbol) : Except ProgramError Program := do
  let targetValue ← p.valueOf target
  let aliasValue ← p.valueOf (.aliased id)
  if (p.alias? id).isNone then
    throw (.unknownSymbol (.aliased id))
  return { p with
    aliases := p.aliases.update id fun a => { a with target }
    values := p.values.setOperands aliasValue [targetValue] }

def isUsed (p : Program) (symbol : Symbol) : Bool :=
  p.usedSet.contains symbol

/-- Puts a symbol with its value on the list of used symbols, once. -/
def use (p : Program) (symbol : Symbol) (value : Nat) : Program :=
  if p.isUsed symbol then p
  else
    { p with
      used := p.used ++ [symbol]
      usedSet := symbol :: p.usedSet
      values := p.values.addOperand usedValue value }

/-- Puts a symbol that exists on the list of used symbols. -/
def appendToUsed (p : Program) (symbol : Symbol) : Except ProgramError Program :=
  (p.valueOf symbol).map (p.use symbol)

/-- Records a use of a symbol by the list that only the compiler keeps. -/
def appendToCompilerUsed (p : Program) (symbol : Symbol) : Except ProgramError Program :=
  (p.valueOf symbol).map fun value =>
    { p with values := p.values.addOperand compilerUsedValue value }

/-- Brings the global objects into another order. -/
def reorderGlobals (p : Program) (order : List Nat) : Except OrderError Program :=
  (p.globals.reorder order).map fun globals => { p with globals }

/-- Follows aliases from a symbol. `seen` are the IDs of the aliases passed so far and `limit` bounds the
number of further ones; no more than all aliases can be new. -/
def follow (p : Program) : (limit : Nat) → (seen : List Nat) → Symbol → Except ProgramError Nat
  | _, _, .function id =>
    if p.functions.contains id then .ok id else .error (.unknownSymbol (.function id))
  | _, _, .global id =>
    match p.global? id with
    | some g => .error (.notAFunction g.name)
    | none => .error (.unknownSymbol (.global id))
  | limit, seen, .aliased id =>
    match p.alias? id with
    | none => .error (.unknownSymbol (.aliased id))
    | some a =>
      if seen.contains id then .error (.aliasCycle a.name)
      else
        match limit with
        | 0 => .error (.aliasCycle a.name)
        | limit + 1 => p.follow limit (id :: seen) a.target

def resolveFunction (p : Program) (symbol : Symbol) : Except ProgramError Nat :=
  p.follow (p.aliases.size + 1) [] symbol

def updateFunction (p : Program) (id : Nat) (change : Function → Function) : Program :=
  { p with functions := p.functions.update id change }

end Program
end ThumbHardening
