import ThumbHardening.Fault
import ThumbHardening.Layout.Decoy
import ThumbHardening.Layout.Guard

/-!
# Planning a layout

Everything that the randomizer is going to do, decided before the program is touched: the order of the
objects in each storage class, the decoys in front of each object, and the guard. The space that is left in a
class is shared out among its objects by random weights.
-/

namespace ThumbHardening

/-- Why a layout cannot be randomized. -/
inductive LayoutError where
  | capacityExceeded (storage : StorageClass) (used capacity : Nat)
  | invalidTrapBlock (function : String) (block : Nat)
  | guardDoesNotFit (used capacity : Nat)
  | guardNameTaken
  | noGuardCandidates
  | invalidRngAddress (address : Nat)
  | program (error : ProgramError)
  | fault (cause : Fault)
  deriving DecidableEq, Repr

def LayoutError.label : LayoutError → String
  | .capacityExceeded _ _ _ => "CapacityExceeded"
  | .invalidTrapBlock _ _ => "InvalidTrapBlock"
  | .guardDoesNotFit _ _ => "GuardDoesNotFit"
  | .guardNameTaken => "GuardNameTaken"
  | .noGuardCandidates => "NoGuardCandidates"
  | .invalidRngAddress _ => "InvalidRngAddress"
  | .program error => "Ir." ++ error.label
  | .fault _ => "Fault"

def LayoutError.fault? : LayoutError → Option Fault
  | .fault cause => some cause
  | _ => none

/-- The lower case hexadecimal digits of a number. -/
def hexDigits (n : Nat) : String :=
  String.ofList (Nat.toDigits 16 n)

def LayoutError.message : LayoutError → String
  | .capacityExceeded storage used capacity =>
    "The " ++ storage.name
      ++ s!" objects take up {used} bytes but only {capacity} bytes are available"
  | .invalidTrapBlock function block =>
    s!"Trap block {block} of function {function} does not start with an etchable trap instruction"
  | .guardDoesNotFit used capacity =>
    s!"No room for the global guard: data region would grow to {used} bytes "
      ++ s!"but only {capacity} bytes are available"
  | .guardNameTaken => "The name of the global guard function is taken by another symbol"
  | .noGuardCandidates => "The global guard needs at least one candidate"
  | .invalidRngAddress address =>
    "RNG address 0x" ++ hexDigits address ++ " does not fit into 32 bits"
  | .program error => error.message
  | .fault cause => cause.message

namespace Layout

/-- The objects of a program by storage class. -/
structure Members where
  /-- The IDs of the objects that are randomized. -/
  ofClass : PerClass (List Nat) := ⟨[], [], []⟩
  /-- The IDs of the objects that keep their order in front of all others. -/
  excluded : List Nat := []
  statistics : LayoutStatistics := {}
  warnings : Nat := 0
  deriving DecidableEq, Repr

namespace Members

/-- Leaves an object out. -/
def exclude (m : Members) (g : GlobalObject) : Members :=
  { m with
    excluded := m.excluded ++ [g.id]
    statistics := { m.statistics with ignoredGlobals := m.statistics.ignoredGlobals + 1 } }

/-- Takes an object into a class. -/
def enroll (m : Members) (storage : StorageClass) (g : GlobalObject) : Members :=
  { m with
    ofClass := m.ofClass.update storage (· ++ [g.id])
    statistics := { m.statistics with
      bytes := m.statistics.bytes.update storage fun n => Address.wrap (n + g.size) } }

/-- Whether the object may be in a section of the class: it names none, or one of the class. -/
def sectionFits (storage : StorageClass) (g : GlobalObject) : Bool :=
  g.sectionName.all fun name => storage.sectionStart.toList.isPrefixOf name.toList

/-- Puts an object where it belongs. An object whose section belongs to another class is an anomaly. -/
def add (m : Members) (g : GlobalObject) : Members :=
  match StorageClass.of? g with
  | none => m.exclude g
  | some storage =>
    if sectionFits storage g then m.enroll storage g
    else { m.exclude g with warnings := m.warnings + 1 }

/-- The objects of a program. -/
def ofProgram (p : Program) : Members :=
  p.globals.elems.foldl add {}

end Members

/-- The guard that is going to be made. -/
structure GuardPlan where
  /-- The candidates, as positions in the list of decoys. -/
  candidates : List Nat
  /-- The candidate that is given out if the choice is not made at run time. -/
  staticPick : Nat
  deriving DecidableEq, Repr

/-- What the randomizer is going to do. -/
structure Plan where
  excluded : List Nat
  /-- The new order of each class. -/
  shuffled : PerClass (List Nat)
  /-- The decoys in the order of their creation. One without an anchor was made for the guard alone. -/
  decoys : List DecoyPlan
  guard : Option GuardPlan
  deriving DecidableEq, Repr

/-- Checks that the objects of each class fit. -/
def checkCapacity (o : Options) (bytes : PerClass Nat) : Except LayoutError Unit :=
  StorageClass.all.forM fun storage =>
    if storage.capacity o < bytes.get storage then
      .error (.capacityExceeded storage (bytes.get storage) (storage.capacity o))
    else .ok ()

/-- Checks that a guard can be made if one is asked for. -/
def checkGuard (o : Options) (p : Program) : Except LayoutError Unit :=
  if !o.guard then .ok ()
  else if o.guardCandidates = 0 then .error .noGuardCandidates
  else
    match p.symbolNamed? Guard.functionName with
    | none | some (.function _) => .ok ()
    | some _ => .error .guardNameTaken

def shuffleClasses (m : PerClass (List Nat)) (s : RandomStream) :
    PerClass (List Nat) × RandomStream :=
  let (rodata, s) := s.shuffle m.rodata
  let (data, s) := s.shuffle m.data
  let (bss, s) := s.shuffle m.bss
  (⟨rodata, data, bss⟩, s)

/-- The part of the free units that belongs to one of several weights. -/
def share (units sum weight : Nat) : Nat :=
  if sum = 0 then 0 else weight * units / sum

/-- The parts of the free units of a class that its objects get, by ID. -/
def shareOut (units : Nat) (ids : List Nat) (s : RandomStream) : List (Nat × Nat) × RandomStream :=
  let (weights, s) := RandomStream.replicate RandomStream.next32 ids.length s
  let sum := weights.foldr (· + ·) 0
  (ids.zip (weights.map (share units sum)), s)

/-- The entries that are free in a class. -/
def freeUnits (o : Options) (ptr : Nat) (bytes : PerClass Nat) (storage : StorageClass) : Nat :=
  (storage.capacity o - bytes.get storage) / ptr

/-- The parts of the free units that the objects of each class get. -/
def shareClasses (units : StorageClass → Nat) (shuffled : PerClass (List Nat)) (s : RandomStream) :
    PerClass (List (Nat × Nat)) × RandomStream :=
  let (rodata, s) := shareOut (units .rodata) shuffled.rodata s
  let (data, s) := shareOut (units .data) shuffled.data s
  let (bss, s) := shareOut (units .bss) shuffled.bss s
  (⟨rodata, data, bss⟩, s)

/-- Plans the decoys in front of the objects of a class. -/
def planClass (storage : StorageClass) (ptr : Nat) (useTraps : Bool) (shares : List (Nat × Nat)) :
    List Nat → DecoyState → List DecoyPlan × DecoyState
  | [], d => ([], d)
  | id :: rest, d =>
    let units := (shares.lookup id).getD 0
    let (first, d) := planDecoys storage ptr useTraps id (Address.wrap (units * ptr)) d
    let (others, d) := planClass storage ptr useTraps shares rest d
    (first ++ others, d)

/-- Plans the decoys in front of all objects, class by class in the order the objects had before. -/
def planClasses (ptr : Nat) (useTraps : Bool) (shares : PerClass (List (Nat × Nat)))
    (members : PerClass (List Nat)) (d : DecoyState) : List DecoyPlan × DecoyState :=
  let (rodata, d) := planClass .rodata ptr useTraps shares.rodata members.rodata d
  let (data, d) := planClass .data ptr useTraps shares.data members.data d
  let (bss, d) := planClass .bss ptr useTraps shares.bss members.bss d
  (rodata ++ data ++ bss, d)

/-- Whether a decoy can be given out by the guard. -/
def isEligible (d : DecoyPlan) : Bool :=
  d.storage = .data && d.size = decoyBlockSize && d.content ≠ .zero

/-- The positions of the decoys that can be given out by the guard. -/
def eligible (decoys : List DecoyPlan) : List Nat :=
  (List.range decoys.length).filter fun k => (decoys[k]?).any isEligible

/-- The bytes of the decoys in the data class. -/
def dataDecoyBytes (decoys : List DecoyPlan) : Nat :=
  (decoys.filter fun d => d.storage = .data).foldr (fun d n => d.size + n) 0

/-- A decoy that only the guard needs. -/
def fallbackDecoy (ptr : Nat) (s : RandomStream) : DecoyPlan × RandomStream :=
  let (words, s) := RandomStream.replicate (randomWord ptr) (decoyBlockSize / ptr) s
  ({ storage := .data, size := decoyBlockSize, align := decoyBlockSize, content := .words words }, s)

/-- Draws so many of the eligible decoys. -/
def drawCandidates (eligible : List Nat) (count : Nat) (s : RandomStream) :
    List Nat × RandomStream :=
  RandomStream.replicate
    (fun s =>
      let (k, s) := s.index eligible.length
      (eligible.getD k 0, s))
    count s

/-- Chooses the candidate of a guard that does not choose at run time. -/
def pickStatic (o : Options) (candidates : List Nat) (s : RandomStream) : GuardPlan :=
  if o.rngAddress.isSome && 1 < candidates.length then { candidates, staticPick := 0 }
  else { candidates, staticPick := (s.index candidates.length).1 }

/-- Plans the guard. Without an eligible decoy it gets one of its own, if the data class has room. What the class
would then hold has to be a 64-bit number. -/
def planGuard (o : Options) (dataBytes ptr : Nat) (decoys : List DecoyPlan) (s : RandomStream) :
    Except LayoutError (List DecoyPlan × GuardPlan) :=
  let found := eligible decoys
  if found.isEmpty then
    let used := dataBytes + dataDecoyBytes decoys + decoyBlockSize
    if Nat.pow 2 64 ≤ used then .error (.fault .sizeOverflow)
    else if o.maxData < used then .error (.guardDoesNotFit used o.maxData)
    else
      let (fallback, s) := fallbackDecoy ptr s
      .ok (decoys ++ [fallback], pickStatic o [decoys.length] s)
  else
    let (candidates, s) := drawCandidates found o.guardCandidates s
    .ok (decoys, pickStatic o candidates s)

def trapPool (p : Program) : Except LayoutError TrapPool :=
  (TrapPool.collect p).mapError fun bad => .invalidTrapBlock bad.function bad.block

def planWith (o : Options) (p : Program) (m : Members) (pool : TrapPool) (s : RandomStream) :
    Nat × Except LayoutError Plan :=
  let ptr := p.pointerSize
  let bytes := m.statistics.bytes
  let (shuffled, s) := shuffleClasses m.ofClass s
  let (shares, s) := shareClasses (freeUnits o ptr bytes) shuffled s
  let (decoys, d) := planClasses ptr o.trapDecoys shares m.ofClass { pool, stream := s }
  (d.warnings,
    if o.guard then
      (planGuard o bytes.data ptr decoys d.stream).map fun (decoys, guard) =>
        { excluded := m.excluded, shuffled, decoys, guard := some guard }
    else .ok { excluded := m.excluded, shuffled, decoys, guard := none })

/-- Plans the layout. The number is that of the anomalies met. -/
def plan (o : Options) (p : Program) (m : Members) (s : RandomStream) :
    Nat × Except LayoutError Plan :=
  let checked : Except LayoutError TrapPool := do
    checkCapacity o m.statistics.bytes
    checkGuard o p
    trapPool p
  match checked with
  | .error e => (0, .error e)
  | .ok pool => planWith o p m pool s

end Layout
end ThumbHardening
