/-!
# Decimals

A decimal is a natural number of units of a power of ten.  `Decimal.positional` writes it
without an exponent, and `Decimal.shortest` finds, for a value in binary notation, the decimal
with the fewest digits among those nearer to it than to either of its neighbours.
-/

namespace Bpmn

/-- The number `digits * 10 ^ exponent`. -/
structure Decimal where
  digits : Nat
  exponent : Int
deriving DecidableEq, Repr

namespace Decimal

/-- The digits with the point put where the exponent says, and zeros filled in up to it. -/
def positional (d : Decimal) : String :=
  let digits := Nat.toDigits 10 d.digits
  let places := (-d.exponent).toNat
  .ofList <|
    if 0 ≤ d.exponent then
      digits ++ List.replicate d.exponent.toNat '0'
    else if places < digits.length then
      digits.take (digits.length - places) ++ '.' :: digits.drop (digits.length - places)
    else
      '0' :: '.' :: List.replicate (places - digits.length) '0' ++ digits

/-! ## The shortest decimal

A binary value lies between two neighbours.  Every number strictly nearer to it than to them
reads back as the value, and so do the two halfway points if ties go to it.  All of it is kept
as natural numbers over one common denominator. -/

/-- A value and the distances to the points halfway to its neighbours, as numerators over
`denominator`. -/
structure Window where
  value : Nat
  below : Nat
  above : Nat
  denominator : Nat
  /-- Whether the halfway points themselves read back as the value. -/
  closed : Bool

namespace Window

/-- The window of `m * 2 ^ q`.  Below a power of two the neighbours stand half as far apart, so
there the lower halfway point is half as far away. -/
def ofBinary (m : Nat) (q : Int) (powerOfTwo : Bool) : Window :=
  let scale := 1 <<< q.toNat
  { value := 4 * m * scale
    below := if powerOfTwo then scale else 2 * scale
    above := 2 * scale
    denominator := 4 <<< (-q).toNat
    closed := m % 2 == 0 }

/-- Whether `numerator / denominator` reads back as the value. -/
def contains (w : Window) (numerator : Nat) : Bool :=
  if w.closed then
    w.value ≤ numerator + w.below && numerator ≤ w.value + w.above
  else
    w.value < numerator + w.below && numerator < w.value + w.above

/-- The numerator of `digits * 10 ^ exponent` and the window, over a denominator common to both. -/
def align (w : Window) (exponent : Int) : Window × Nat :=
  let grow := Nat.pow 10 (-exponent).toNat
  ({ w with
      value := w.value * grow
      below := w.below * grow
      above := w.above * grow
      denominator := w.denominator * grow },
    w.denominator * Nat.pow 10 exponent.toNat)

/-- The multiple of `10 ^ exponent` that reads back as the value and lies nearest to it, of two
equally near ones the larger. -/
def nearest? (w : Window) (exponent : Int) : Option Nat :=
  let (w, unit) := w.align exponent
  let floor := w.value / unit
  let down := floor * unit
  let up := down + unit
  match w.contains down, w.contains up with
  | true, true => some (if w.value - down < up - w.value then floor else floor + 1)
  | true, false => some floor
  | false, true => some (floor + 1)
  | false, false => none

/-- Least `e` within `span` steps from `start` such that the value is below `10 ^ e`. -/
def magnitude (w : Window) (start : Int) : (span : Nat) → Int
  | 0 => start
  | span + 1 =>
    let (aligned, unit) := w.align start
    if aligned.value < unit then start else w.magnitude (start + 1) span

end Window

/-- Of the grids with 1, 2, … digits, the first that holds a decimal which reads back as the
value. -/
def ofGrid? (w : Window) (magnitude : Int) (fewest : Nat) : (tries : Nat) → Option Decimal
  | 0 => none
  | tries + 1 =>
    match w.nearest? (magnitude - fewest) with
    | some digits =>
      if digits = Nat.pow 10 fewest then some ⟨1, magnitude⟩ else some ⟨digits, magnitude - fewest⟩
    | none => ofGrid? w magnitude (fewest + 1) tries

/-- The decimal with the fewest digits, and nearest to the value among those, that reads back as
a value of at most `precision` decimal digits and a magnitude within `span` powers of ten from
`smallest`. -/
def shortest (w : Window) (smallest : Int) (span precision : Nat) : Decimal :=
  (ofGrid? w (w.magnitude smallest span) 1 precision).getD ⟨0, 0⟩

end Decimal
end Bpmn
