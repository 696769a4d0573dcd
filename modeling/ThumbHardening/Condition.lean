/-!
# Conditions

The condition codes under which an instruction executes. Codes come in pairs that differ in the lowest
bit: a condition and its opposite. The last code, "always", has no opposite.
-/

namespace ThumbHardening

inductive Cond where
  | eq | ne | hs | lo | mi | pl | vs | vc | hi | ls | ge | lt | gt | le | al
  deriving DecidableEq, Repr

namespace Cond

/-- All conditions in the order of their codes. -/
def all : List Cond :=
  [eq, ne, hs, lo, mi, pl, vs, vc, hi, ls, ge, lt, gt, le, al]

/-- The 4-bit code of a condition. -/
def code : Cond → Nat
  | eq => 0 | ne => 1 | hs => 2 | lo => 3 | mi => 4 | pl => 5 | vs => 6 | vc => 7 | hi => 8
  | ls => 9 | ge => 10 | lt => 11 | gt => 12 | le => 13 | al => 14

/-- The condition with the given code; code 15 belongs to none. -/
def ofCode? (code : Nat) : Option Cond :=
  all[code]?

/-- The opposite condition. "Always" is its own opposite. -/
def inverse : Cond → Cond
  | eq => ne | ne => eq | hs => lo | lo => hs | mi => pl | pl => mi | vs => vc | vc => vs
  | hi => ls | ls => hi | ge => lt | lt => ge | gt => le | le => gt | al => al

def name : Cond → String
  | eq => "Eq" | ne => "Ne" | hs => "Hs" | lo => "Lo" | mi => "Mi" | pl => "Pl" | vs => "Vs"
  | vc => "Vc" | hi => "Hi" | ls => "Ls" | ge => "Ge" | lt => "Lt" | gt => "Gt" | le => "Le"
  | al => "Al"

def ofName? (text : String) : Option Cond :=
  all.find? (·.name == text)

@[simp] theorem inverse_inverse (c : Cond) : c.inverse.inverse = c := by
  cases c <;> rfl

@[simp] theorem ofCode?_code (c : Cond) : ofCode? c.code = some c := by
  cases c <;> rfl

theorem inverse_eq_self_iff (c : Cond) : c.inverse = c ↔ c = al := by
  cases c <;> decide

theorem mem_all (c : Cond) : c ∈ all := by
  cases c <;> decide

end Cond
end ThumbHardening
