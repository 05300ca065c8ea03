/-!
# TOML values

What a TOML text says.  Numbers are kept as they are written, because whether one is too large
depends on what it is read for.
-/

namespace Bpmn.Toml

/-- A number with a fraction or an exponent, or one of the special values. -/
inductive Real where
  /-- The number `digits * 10 ^ exponent`, negated if so marked. -/
  | decimal (negative : Bool) (digits : Nat) (exponent : Int)
  | infinite (negative : Bool)
  | nan
deriving DecidableEq, Repr

inductive Value where
  | string (s : String)
  | integer (n : Int)
  /-- A word that stands for a whole number but has no value. -/
  | unreadable (word : String)
  | real (r : Real)
  | boolean (b : Bool)
  /-- A date, a time, or both. -/
  | dateTime (text : String)
  | array (items : List Value)
  | table (entries : List (String × Value))
deriving Repr

namespace Real

/-- The nearest double precision number, none for a decimal whose nearest is infinite.  Decimals
far beyond either end of the range are settled by their magnitude alone. -/
def toFloat? : Real → Option Float
  | decimal negative digits exponent =>
    let sign (x : Float) : Float := if negative then -x else x
    let magnitude := (toString digits).length + exponent
    if digits = 0 || magnitude < -400 then some (sign 0)
    else if 400 < magnitude then none
    else
      let x := Float.ofScientific digits (exponent < 0) exponent.natAbs
      if x.isInf then none else some (sign x)
  | infinite negative => some (if negative then -1 / 0 else 1 / 0)
  | nan => some (0 / 0)

end Real

namespace Value

mutual

/-- Whether every number in a value has a representation: integers in 128 bits, signed or not, and
decimals in double precision. -/
def isRepresentable : Value → Bool
  | integer n => -(2 ^ 127) ≤ n && n < 2 ^ 128
  | real r => r.toFloat?.isSome
  | unreadable _ => false
  | array items => allRepresentable items
  | table entries => entriesRepresentable entries
  | string _ | boolean _ | dateTime _ => true

def allRepresentable : List Value → Bool
  | [] => true
  | v :: rest => v.isRepresentable && allRepresentable rest

def entriesRepresentable : List (String × Value) → Bool
  | [] => true
  | (_, v) :: rest => v.isRepresentable && entriesRepresentable rest

end

end Value
end Bpmn.Toml
