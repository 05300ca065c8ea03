import Bpmn.Number.Decimal

/-!
# Single precision

Coordinates are single precision numbers, and every operation on them rounds once.  This module
adds to core's `Float32` the operations that placement needs, and its text: the fewest digits
that read back, never with an exponent.
-/

namespace Bpmn.Binary32

inductive Meaning where
  | nan
  | infinite (negative : Bool)
  /-- The number `m * 2 ^ q`, with `powerOfTwo` set where the gap below it is the smaller one. -/
  | finite (negative : Bool) (m : Nat) (q : Int) (powerOfTwo : Bool)
deriving DecidableEq, Repr

def isNegative (x : Float32) : Bool := x.toBits >>> 31 == 1

def meaning (x : Float32) : Meaning :=
  let fraction := (x.toBits &&& 0x7FFFFF).toNat
  let exponent := (x.toBits >>> 23 &&& 0xFF).toNat
  if exponent = 255 then
    if fraction = 0 then .infinite (isNegative x) else .nan
  else if exponent = 0 then
    .finite (isNegative x) fraction (-149) false
  else
    .finite (isNegative x) (0x800000 + fraction) (exponent - 150)
      (fraction == 0 && 1 < exponent)

/-- The fewest digits that read back as the same number, written without an exponent.  Nine
digits always suffice, and magnitudes run from `1e-45` to below `1e39`. -/
def text (x : Float32) : String :=
  match meaning x with
  | .nan => "NaN"
  | .infinite negative => if negative then "-inf" else "inf"
  | .finite negative m q powerOfTwo =>
    let sign := if negative then "-" else ""
    if m = 0 then sign ++ "0"
    else sign ++ (Decimal.shortest (.ofBinary m q powerOfTwo) (-45) 84 9).positional

/-- The nearest integer, halves away from zero. -/
def round (x : Float32) : Float32 :=
  let size := x.abs
  if size < 8388608 then
    let floor := size.toUInt32
    let nearest := if size - floor.toFloat32 < 0.5 then floor else floor + 1
    if isNegative x then -nearest.toFloat32 else nearest.toFloat32
  else x

/-- The smaller number; a NaN gives way to the other operand, and of two equal ones the first is
taken. -/
def minNum (x y : Float32) : Float32 :=
  if x.isNaN then y else if y < x then y else x

/-- The larger number; a NaN gives way to the other operand, and of two equal ones the first is
taken. -/
def maxNum (x y : Float32) : Float32 :=
  if x.isNaN then y else if x < y then y else x

/-- The number nearest to a count of rows or columns. -/
def ofCount (n : Nat) : Float32 := n.toUInt64.toFloat32

end Bpmn.Binary32
