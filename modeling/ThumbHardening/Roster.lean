/-!
# Rosters

A roster is an ordered collection whose elements carry an ID that stays with them wherever they move. An
element with ID 0 has not been given one: it gets a fresh ID when it joins. An element that already has an
ID keeps it, and fresh IDs are always larger than every ID the roster has seen.
-/

namespace ThumbHardening

/-- What can be a member of a roster. -/
class Identified (α : Type) where
  id : α → Nat
  setId : α → Nat → α

/-- An ordered collection of elements with IDs, and the next ID to give away. -/
structure Roster (α : Type) where
  elems : List α := []
  next : Nat := 1
  deriving Repr

/-- Why a new order of a roster is refused. -/
inductive OrderError where
  | wrongLength (given present : Nat)
  /-- The first ID of the order that no element has or that came before. -/
  | unknownId (id : Nat)
  deriving DecidableEq, Repr

def OrderError.label : OrderError → String
  | .wrongLength _ _ => "InvalidOrder"
  | .unknownId _ => "UnknownId"

def OrderError.message : OrderError → String
  | .wrongLength given present => s!"New order has {given} elements but there are {present}"
  | .unknownId id => s!"New order contains an unknown or repeated ID: {id}"

namespace Roster
variable {α : Type} [Identified α]

/-- The element as the roster takes it in: with a fresh ID, unless it has one. -/
def admitted (r : Roster α) (elem : α) : α :=
  if Identified.id elem = 0 then Identified.setId elem r.next else elem

/-- The next fresh ID after taking in the element. -/
def nextAfter (r : Roster α) (elem : α) : Nat :=
  if Identified.id elem = 0 then r.next + 1 else max r.next (Identified.id elem + 1)

/-- Takes in an element at position `index`. -/
def insertAt (r : Roster α) (index : Nat) (elem : α) : Roster α :=
  { elems := r.elems.insertIdx index (r.admitted elem), next := r.nextAfter elem }

/-- Takes in an element at the end. -/
def insert (r : Roster α) (elem : α) : Roster α :=
  { elems := r.elems ++ [r.admitted elem], next := r.nextAfter elem }

/-- The ID that the element has once it is taken in. -/
def idFor (r : Roster α) (elem : α) : Nat :=
  if Identified.id elem = 0 then r.next else Identified.id elem

/-- The first element with the given ID. -/
def get? (r : Roster α) (id : Nat) : Option α :=
  r.elems.find? fun elem => Identified.id elem = id

/-- The position of the first element with the given ID. -/
def position? (r : Roster α) (id : Nat) : Option Nat :=
  r.elems.findIdx? fun elem => Identified.id elem = id

def contains (r : Roster α) (id : Nat) : Bool :=
  r.elems.any fun elem => Identified.id elem = id

def ids (r : Roster α) : List Nat :=
  r.elems.map Identified.id

def size (r : Roster α) : Nat :=
  r.elems.length

/-- Takes in an element directly behind the element with ID `after`. -/
def insertAfter? (r : Roster α) (after : Nat) (elem : α) : Option (Roster α) :=
  (r.position? after).map fun index => r.insertAt (index + 1) elem

/-- Changes the first element with the given ID. -/
def update (r : Roster α) (id : Nat) (change : α → α) : Roster α :=
  match r.position? id with
  | some index => { r with elems := r.elems.modify index change }
  | none => r

/-- Removes the first element with the given ID. Its ID is not given away again. -/
def erase (r : Roster α) (id : Nat) : Roster α :=
  { r with elems := r.elems.eraseP fun elem => Identified.id elem = id }

/-- The elements with the given IDs, each taken once. -/
def pick (pool : List α) : List Nat → Except OrderError (List α)
  | [] => .ok []
  | id :: rest =>
    match pool.find? fun elem => Identified.id elem = id with
    | none => .error (.unknownId id)
    | some elem =>
      (pick (pool.filter fun other => Identified.id other ≠ id) rest).map (elem :: ·)

/-- Brings the elements into the order of the IDs, which has to name each element once. -/
def reorder (r : Roster α) (order : List Nat) : Except OrderError (Roster α) :=
  if order.length ≠ r.elems.length then .error (.wrongLength order.length r.elems.length)
  else (pick r.elems order).map fun elems => { r with elems }

/-- Where each ID stands, the last position first. -/
def positions (r : Roster α) : List (Nat × Nat) :=
  r.ids.zipIdx.reverse

/-- The positions of the given IDs. What has been looked up once is not found again. -/
def lookUpAll : (table : List (Nat × Nat)) → List Nat → Except OrderError (List Nat)
  | _, [] => .ok []
  | table, id :: rest =>
    match table.lookup id with
    | none => .error (.unknownId id)
    | some index => (lookUpAll (table.filter fun entry => entry.1 ≠ id) rest).map (index :: ·)

/-- The elements in the given slots. A slot is empty once its element has been taken. -/
def takeOut : (slots : List (Option α)) → List Nat → List α
  | _, [] => []
  | slots, index :: rest => slots[index]?.join.toList ++ takeOut (slots.set index none) rest

/-- Reorders a roster in place, and tells why if the order is refused. No element is moved before the positions
of all of them are known. -/
def reorderInPlace (r : Roster α) (order : List Nat) : Roster α × Except OrderError Unit :=
  if order.length ≠ r.elems.length then (r, .error (.wrongLength order.length r.elems.length))
  else
    match lookUpAll r.positions order with
    | .error e => (r, .error e)
    | .ok indices => ({ r with elems := takeOut (r.elems.map some) indices }, .ok ())

end Roster
end ThumbHardening
