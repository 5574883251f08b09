/- # VarStore.Value — the values a variable can hold

Integers have 64 bits.  `Value.render` is the text of a value: a decimal
number, `true` or `false`, or the characters of a text between double quotes,
none of them escaped.
-/
import VarStore.Ty

namespace VarStore

set_option autoImplicit false

inductive Value where
  | int (n : Int64)
  | bool (b : Bool)
  | str (s : String)
  deriving DecidableEq, Repr, Inhabited

namespace Value

def ty : Value → Ty
  | int _ => .int
  | bool _ => .bool
  | str _ => .str

def asInt? : Value → Option Int64
  | int n => some n
  | _ => none

def asBool? : Value → Option Bool
  | bool b => some b
  | _ => none

def asStr? : Value → Option String
  | str s => some s
  | _ => none

def render : Value → String
  | int n => n.toInt.repr
  | bool true => "true"
  | bool false => "false"
  | str s => "\"" ++ s ++ "\""

@[simp] theorem ty_int (n : Int64) : (int n).ty = .int := rfl

@[simp] theorem ty_bool (b : Bool) : (bool b).ty = .bool := rfl

@[simp] theorem ty_str (s : String) : (str s).ty = .str := rfl

theorem ty_eq_int_iff {x : Value} : x.ty = .int ↔ ∃ n, x = int n := by
  cases x <;> simp

theorem ty_eq_bool_iff {x : Value} : x.ty = .bool ↔ ∃ b, x = bool b := by
  cases x <;> simp

theorem ty_eq_str_iff {x : Value} : x.ty = .str ↔ ∃ s, x = str s := by
  cases x <;> simp

theorem asInt?_eq_some_iff {x : Value} {n : Int64} : x.asInt? = some n ↔ x = int n := by
  cases x <;> simp [asInt?]

theorem asBool?_eq_some_iff {x : Value} {b : Bool} : x.asBool? = some b ↔ x = bool b := by
  cases x <;> simp [asBool?]

theorem asStr?_eq_some_iff {x : Value} {s : String} : x.asStr? = some s ↔ x = str s := by
  cases x <;> simp [asStr?]

end Value

end VarStore
