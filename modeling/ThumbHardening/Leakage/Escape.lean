import ThumbHardening.Program

/-!
# Escaping addresses

Whether the address of a function can get into memory. The walk follows the uses of the address through
values that hand it on, until it finds a store, a global object or an argument of a call. Comparisons and the
lists that a program keeps itself are harmless; uses of an unknown kind are reported and not followed.
-/

namespace ThumbHardening

/-- What a user does with a value. -/
inductive UseEffect where
  /-- The value gets into memory. -/
  | escapes
  /-- The user has the address too. -/
  | handsOn
  | harmless
  /-- A use of an unknown kind, taken for harmless. -/
  | unknown
  deriving DecidableEq, Repr

/-- What a node does with a value that is among its operands. -/
def ValueNode.effectOn (n : ValueNode) (value : Nat) : UseEffect :=
  match n.kind with
  | .phi | .aliased _ | .function _ | .constant | .cast | .select => .handsOn
  | .blockAddress | .compare => .harmless
  | .constantExpr compare => if compare then .harmless else .handsOn
  | .global _ name => if isListName name then .harmless else .escapes
  | .store => .escapes
  | .call => if (n.operands.drop 1).contains value then .escapes else .harmless
  | .other _ => .unknown

def ValueGraph.effectOf (g : ValueGraph) (value user : Nat) : UseEffect :=
  match g.node? user with
  | some n => n.effectOn value
  | none => .harmless

/-- The state of a walk along the uses of a value. -/
structure EscapeWalk where
  /-- The values that hold the address. -/
  reached : List Nat
  /-- Those whose users have not been looked at, the next one first. -/
  pending : List Nat
  /-- How many uses of an unknown kind were met. -/
  warnings : Nat := 0
  deriving DecidableEq, Repr

namespace EscapeWalk

/-- Adds a value to those that hold the address. -/
def reach (w : EscapeWalk) (value : Nat) : EscapeWalk :=
  if w.reached.contains value then w
  else { w with reached := value :: w.reached, pending := value :: w.pending }

/-- Looks at users of a value in order, and tells whether one lets the address escape. -/
def scan (g : ValueGraph) (value : Nat) : List Nat → EscapeWalk → EscapeWalk × Bool
  | [], w => (w, false)
  | user :: rest, w =>
    match g.effectOf value user with
    | .escapes => (w, true)
    | .handsOn => scan g value rest (w.reach user)
    | .unknown => scan g value rest { w with warnings := w.warnings + 1 }
    | .harmless => scan g value rest w

/-- Walks on until the address escapes or no value is pending. Each value is taken up once, so the number of
values bounds the walk. -/
def run (g : ValueGraph) : (limit : Nat) → EscapeWalk → EscapeWalk × Bool
  | 0, w => (w, false)
  | limit + 1, w =>
    match w.pending with
    | [] => (w, false)
    | value :: rest =>
      let users := ((g.node? value).map ValueNode.users).getD []
      match scan g value users { w with pending := rest } with
      | (w, true) => (w, true)
      | (w, false) => run g limit w

end EscapeWalk

namespace Program

/-- The walk along the uses of a function's address, and whether it escapes. -/
def escapeWalk (p : Program) (f : Function) : EscapeWalk × Bool :=
  match f.addressTaken, p.valueOf? (.function f.id) with
  | true, some value =>
    EscapeWalk.run p.values (p.values.size + 1) { reached := [value], pending := [value] }
  | _, _ => ({ reached := [], pending := [] }, false)

/-- Whether the address of a function can get into memory. -/
def addressEscapes (p : Program) (f : Function) : Bool :=
  (p.escapeWalk f).2

/-- How many uses of an unknown kind the walk for a function meets. -/
def escapeWarnings (p : Program) (f : Function) : Nat :=
  (p.escapeWalk f).1.warnings

end Program
end ThumbHardening
