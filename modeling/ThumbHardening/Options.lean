/-!
# Options

The configuration of the hardening pipeline, and how it is read from a document. A document names its
fields, in which case fields of other names are ignored, or it lists their values in the order of the fields,
in which case there may be no more of them than there are fields. A field that the document leaves out has
its default.
-/

namespace ThumbHardening

/-- What to harden and how. Numbers are 64-bit. -/
structure Options where
  /-- Move stack objects with function pointers into global objects. -/
  promotion : Bool := false
  /-- Restrict the registers of indirect calls. -/
  callLimiter : Bool := false
  /-- Shuffle the global objects and fill their regions with decoys. -/
  randomization : Bool := false
  /-- Fill decoys with addresses of trap blocks. -/
  trapDecoys : Bool := false
  /-- Create the function that gives out a decoy's address. -/
  guard : Bool := false
  seed : Nat := 0
  maxRodata : Nat := 0x40000
  maxData : Nat := 0x10000
  maxBss : Nat := 0x10000
  /-- How many decoys are drawn as guard candidates. -/
  guardCandidates : Nat := 16
  /-- The address of a hardware random number generator that the guard reads. -/
  rngAddress : Option Nat := none
  deriving DecidableEq, Repr

/-- Why options are refused. -/
inductive OptionsError where
  | noGuardCandidates
  /-- A field does not hold a value of its type. -/
  | badValue (field : String)
  /-- A list of values is longer than the list of fields. -/
  | tooManyValues (count : Nat)
  deriving DecidableEq, Repr

def OptionsError.message : OptionsError → String
  | .noGuardCandidates => "Number of global guard candidates must not be zero"
  | .badValue field => s!"The value of {field} has the wrong type"
  | .tooManyValues count => s!"There are {count} values but fewer fields"

/-- The value of a field in a document. -/
inductive FieldValue where
  | null
  | flag (value : Bool)
  | integer (value : Int)
  /-- Text, a fraction, a list or an object. -/
  | other
  deriving DecidableEq, Repr

/-- The fields of a document, by name. -/
abbrev Fields := String → Option FieldValue

namespace Fields

/-- The names of the fields in their order. -/
def names : List String :=
  ["enable_lgpromote", "enable_icall_limiter", "enable_gdlr", "enable_trap_decoys",
    "enable_global_guard", "gdlr_seed", "max_rodata_size", "max_data_size", "max_bss_size",
    "num_guard_candidates", "rng_address"]

/-- The fields of a document that lists their values without names. -/
def ofValues (values : List FieldValue) : Fields := fun name =>
  List.lookup name (names.zip values)

def flag (fields : Fields) (name : String) (default : Bool) : Except OptionsError Bool :=
  match fields name with
  | none => .ok default
  | some (.flag value) => .ok value
  | some _ => .error (.badValue name)

/-- A field that holds a 64-bit number. -/
def number (fields : Fields) (name : String) (default : Nat) : Except OptionsError Nat :=
  match fields name with
  | none => .ok default
  | some (.integer value) =>
    if 0 ≤ value ∧ value < Nat.pow 2 64 then .ok value.toNat else .error (.badValue name)
  | some _ => .error (.badValue name)

/-- A field that holds a 64-bit number or nothing. -/
def optionalNumber (fields : Fields) (name : String) : Except OptionsError (Option Nat) :=
  match fields name with
  | none | some .null => .ok none
  | some _ => (fields.number name 0).map some

end Fields

namespace Options

/-- Accepts options under which the guard has a candidate. -/
def check (o : Options) : Except OptionsError Options :=
  if o.guardCandidates = 0 then .error .noGuardCandidates else .ok o

/-- Reads options from the fields of a document. Of several faults the one in the alphabetically first field
is reported. -/
def read (fields : Fields) : Except OptionsError Options := do
  let defaults : Options := {}
  let randomization ← fields.flag "enable_gdlr" defaults.randomization
  let guard ← fields.flag "enable_global_guard" defaults.guard
  let callLimiter ← fields.flag "enable_icall_limiter" defaults.callLimiter
  let promotion ← fields.flag "enable_lgpromote" defaults.promotion
  let trapDecoys ← fields.flag "enable_trap_decoys" defaults.trapDecoys
  let seed ← fields.number "gdlr_seed" defaults.seed
  let maxBss ← fields.number "max_bss_size" defaults.maxBss
  let maxData ← fields.number "max_data_size" defaults.maxData
  let maxRodata ← fields.number "max_rodata_size" defaults.maxRodata
  let guardCandidates ← fields.number "num_guard_candidates" defaults.guardCandidates
  if guardCandidates = 0 then
    throw .noGuardCandidates
  let rngAddress ← fields.optionalNumber "rng_address"
  return {
    promotion, callLimiter, randomization, trapDecoys, guard, seed, maxRodata, maxData, maxBss
    guardCandidates, rngAddress }

/-- Reads options from a list of the values of the fields. A fault in a value comes before the length. -/
def readValues (values : List FieldValue) : Except OptionsError Options := do
  let o ← read (Fields.ofValues values)
  if Fields.names.length < values.length then
    throw (.tooManyValues values.length)
  return o

end Options
end ThumbHardening
