import Bpmn.Number.Decimal
import Mathlib.Algebra.Order.Field.Power
import Mathlib.Data.Rat.Lemmas
import Mathlib.Tactic.FieldSimp
import Mathlib.Tactic.Linarith
import Mathlib.Tactic.Positivity
import Mathlib.Tactic.Ring

/-!
# Decimals read back

Digits with a point stand for a number (`Numeral`), and a decimal is written as digits that stand
for it (`numeral_positional`).  Whatever the search for a short decimal finds reads back as the
value that it was sought for (`holds_ofGrid?`), and it does find one as soon as the window of the
value is wider than the grid (`exists_ofGrid?`).
-/

namespace Bpmn

/-- Decimal digits with at most one point among them, and the number that they stand for. -/
inductive Numeral : List Char → ℚ → Prop where
  | whole {digits : List Char} (hne : digits ≠ []) (hdigits : digits.all Char.isDigit = true) :
    Numeral digits (Nat.ofDigitChars 10 digits 0)
  | fraction {whole part : List Char} (hwhole : whole ≠ []) (hpart : part ≠ [])
    (hdigits : (whole ++ part).all Char.isDigit = true) :
    Numeral (whole ++ '.' :: part) (Nat.ofDigitChars 10 (whole ++ part) 0 / 10 ^ part.length)

namespace Decimal

def value (d : Decimal) : ℚ := d.digits * 10 ^ d.exponent

/-! ## Written and read -/

theorem all_isDigit_toDigits (n : Nat) : (Nat.toDigits 10 n).all Char.isDigit = true :=
  List.all_eq_true.mpr fun _ hc => Nat.isDigit_of_mem_toDigits (by decide) (by decide) hc

theorem all_isDigit_replicate (n : Nat) : (List.replicate n '0').all Char.isDigit = true := by
  rw [List.all_replicate]
  exact ite_eq_left_iff.mpr fun _ => rfl

/-- Zeros in front make no difference. -/
theorem ofDigitChars_zeros_append (n : Nat) (digits : List Char) :
    Nat.ofDigitChars 10 (List.replicate n '0' ++ digits) 0 = Nat.ofDigitChars 10 digits 0 := by
  rw [Nat.ofDigitChars_append, Nat.ofDigitChars_replicate_zero, Nat.mul_zero]

theorem ten_zpow_neg_toNat {e : ℤ} (h : e < 0) : (10 : ℚ) ^ e = 1 / 10 ^ (-e).toNat := by
  have htoNat : ((-e).toNat : ℤ) = -e := Int.toNat_of_nonneg (by omega)
  rw [one_div, ← zpow_natCast, htoNat, zpow_neg, inv_inv]

theorem numeral_fraction (whole part : List Char) {n places : Nat} (hwhole : whole ≠ [])
    (hlength : part.length = places) (hplaces : places ≠ 0)
    (hdigits : (whole ++ part).all Char.isDigit = true)
    (hread : Nat.ofDigitChars 10 (whole ++ part) 0 = n) :
    Numeral (whole ++ '.' :: part) (n / 10 ^ places) := by
  subst hlength hread
  exact .fraction hwhole (mt List.length_eq_zero_iff.mpr hplaces) hdigits

theorem numeral_positional (d : Decimal) : Numeral d.positional.toList d.value := by
  obtain ⟨n, e⟩ := d
  have hread : Nat.ofDigitChars 10 (Nat.toDigits 10 n) 0 = n := Nat.ofDigitChars_ten_toDigits
  have hdigits : (Nat.toDigits 10 n).all Char.isDigit = true := all_isDigit_toDigits n
  have hne : Nat.toDigits 10 n ≠ [] := Nat.toDigits_ne_nil
  rw [positional, value, String.toList_ofList]
  dsimp only
  generalize Nat.toDigits 10 n = digits at hread hdigits hne ⊢
  split
  next hwhole =>
    have hvalue : (n * 10 ^ e : ℚ) =
        Nat.ofDigitChars 10 (digits ++ List.replicate e.toNat '0') 0 := by
      rw [Nat.ofDigitChars_append, hread, Nat.ofDigitChars_replicate_zero, Nat.cast_mul,
        Nat.cast_pow, mul_comm, ← zpow_natCast, Int.toNat_of_nonneg hwhole]
      rfl
    rw [hvalue]
    refine .whole (List.append_ne_nil_of_left_ne_nil hne _) ?_
    rw [List.all_append, hdigits, all_isDigit_replicate, Bool.and_true]
  next hneg =>
    rw [ten_zpow_neg_toNat (not_le.mp hneg), mul_one_div]
    generalize hplaces : (-e).toNat = places
    split
    next hinside =>
      have hsplit := List.take_append_drop (digits.length - places) digits
      refine numeral_fraction _ _ ?_ ?_ (by omega) (by rw [hsplit, hdigits]) (by rw [hsplit, hread])
      · exact List.ne_nil_of_length_pos (by rw [List.length_take]; omega)
      · rw [List.length_drop]
        omega
    next hbefore =>
      have hzeros : ∀ k, ['0'] ++ (List.replicate k '0' ++ digits) =
          List.replicate (k + 1) '0' ++ digits := fun _ => rfl
      refine numeral_fraction ['0'] (List.replicate (places - digits.length) '0' ++ digits)
        (List.cons_ne_nil _ _) ?_ (by omega) ?_ ?_
      · rw [List.length_append, List.length_replicate]
        omega
      · rw [hzeros, List.all_append, all_isDigit_replicate, hdigits, Bool.and_true]
      · rw [hzeros, ofDigitChars_zeros_append, hread]

/-! ## Windows -/

/-- A power comes off the exponent where it is negative. -/
theorem zpow_mul_pow_toNat_neg {b : ℚ} (hb : b ≠ 0) (e : ℤ) :
    b ^ e * b ^ (-e).toNat = b ^ e.toNat := by
  rw [← zpow_natCast, ← zpow_natCast, ← zpow_add₀ hb]
  congr 1
  omega

namespace Window

/-- Whether a number reads back as the value of a window. -/
def Holds (w : Window) (v : ℚ) : Prop :=
  if w.closed then
    w.value ≤ v * w.denominator + w.below ∧ v * w.denominator ≤ w.value + w.above
  else
    w.value < v * w.denominator + w.below ∧ v * w.denominator < w.value + w.above

section

variable {w : Window} {e : ℤ} {n : Nat}

/-- What all numerators of an aligned window are multiplied by. -/
def growth (e : ℤ) : Nat := 10 ^ (-e).toNat

theorem growth_pos (e : ℤ) : 0 < growth e := Nat.pow_pos (by decide)

theorem cast_unit (w : Window) (e : ℤ) :
    ((w.align e).2 : ℚ) = 10 ^ e * w.denominator * growth e := by
  have hten : ((10 ^ e.toNat : Nat) : ℚ) = 10 ^ e * growth e := by
    rw [growth, Nat.cast_pow, Nat.cast_pow]
    exact (zpow_mul_pow_toNat_neg (by norm_num) e).symm
  rw [align, Nat.cast_mul]
  exact (congrArg _ hten).trans (by ring)

theorem unit_le_iff {k : Nat} :
    (w.align e).2 ≤ k * growth e ↔ 10 ^ e * w.denominator ≤ (k : ℚ) := by
  have hgrow : (0 : ℚ) < growth e := Nat.cast_pos.mpr (growth_pos e)
  rw [← Nat.cast_le (α := ℚ), cast_unit, Nat.cast_mul, mul_le_mul_iff_left₀ hgrow]

theorem contains_align :
    (w.align e).1.contains (n * (w.align e).2) = true ↔ w.Holds (n * 10 ^ e) := by
  have hgrow : (0 : ℚ) < growth e := Nat.cast_pos.mpr (growth_pos e)
  have hleft : ∀ k : Nat, ((n * (w.align e).2 + k * growth e : Nat) : ℚ) =
      (n * 10 ^ e * w.denominator + k) * growth e := by
    intro k
    rw [Nat.cast_add, Nat.cast_mul, Nat.cast_mul, cast_unit]
    ring
  have hright : ((n * (w.align e).2 : Nat) : ℚ) = n * 10 ^ e * w.denominator * growth e := by
    simpa using hleft 0
  have hsum : ((w.value * growth e + w.above * growth e : Nat) : ℚ) =
      (w.value + w.above) * growth e := by
    rw [← add_mul, Nat.cast_mul, Nat.cast_add]
  have hvalue : (w.align e).1.value = w.value * growth e := rfl
  have hbelow : (w.align e).1.below = w.below * growth e := rfl
  have habove : (w.align e).1.above = w.above * growth e := rfl
  have hclosed : (w.align e).1.closed = w.closed := rfl
  rw [contains, Holds, hvalue, hbelow, habove, hclosed]
  cases w.closed with
  | true =>
    rw [if_pos rfl, if_pos rfl, Bool.and_eq_true, decide_eq_true_eq, decide_eq_true_eq,
      ← Nat.cast_le (α := ℚ), ← Nat.cast_le (α := ℚ), hleft, hright, hsum, Nat.cast_mul,
      mul_le_mul_iff_left₀ hgrow, mul_le_mul_iff_left₀ hgrow]
  | false =>
    rw [if_neg Bool.false_ne_true, if_neg Bool.false_ne_true, Bool.and_eq_true, decide_eq_true_eq,
      decide_eq_true_eq, ← Nat.cast_lt (α := ℚ), ← Nat.cast_lt (α := ℚ), hleft, hright, hsum,
      Nat.cast_mul, mul_lt_mul_iff_left₀ hgrow, mul_lt_mul_iff_left₀ hgrow]

theorem holds_nearest? (h : w.nearest? e = some n) : w.Holds (n * 10 ^ e) := by
  have hup : (w.align e).1.value / (w.align e).2 * (w.align e).2 + (w.align e).2 =
      ((w.align e).1.value / (w.align e).2 + 1) * (w.align e).2 := (Nat.succ_mul _ _).symm
  rw [← contains_align]
  simp only [nearest?] at h
  rw [hup] at h
  split at h
  next hdown hup =>
    obtain rfl := Option.some.inj h
    split
    · exact hdown
    · exact hup
  next hdown _ =>
    obtain rfl := Option.some.inj h
    exact hdown
  next _ hup =>
    obtain rfl := Option.some.inj h
    exact hup
  next => cases h

/-- A grid that is finer than a window has a number in it. -/
theorem nearest?_ne_none (hfine : 10 ^ e * w.denominator ≤ (w.below : ℚ))
    (hpos : 0 < w.denominator) (habove : 0 < w.above) : w.nearest? e ≠ none := by
  have hunit : (w.align e).2 ≤ (w.align e).1.below := unit_le_iff.mpr hfine
  have hunitpos : 0 < (w.align e).2 := Nat.mul_pos hpos (Nat.pow_pos (by decide))
  have habove : 0 < (w.align e).1.above := Nat.mul_pos habove (growth_pos e)
  have hle := Nat.div_mul_le_self (w.align e).1.value (w.align e).2
  have hlt := Nat.lt_div_mul_add hunitpos (a := (w.align e).1.value)
  -- The value rounded down to the grid is less than one unit away from it.
  have hdown : (w.align e).1.contains
      ((w.align e).1.value / (w.align e).2 * (w.align e).2) = true := by
    rw [contains]
    split
    · simp only [Bool.and_eq_true, decide_eq_true_eq]
      omega
    · simp only [Bool.and_eq_true, decide_eq_true_eq]
      omega
  intro hnone
  simp only [nearest?] at hnone
  rw [hdown] at hnone
  split at hnone
  next => cases hnone
  next => cases hnone
  next hfalse _ => cases hfalse
  next hfalse _ => cases hfalse

/-- Unless the value lies below the first magnitude, it does not lie below the one before the one
that is found. -/
theorem pow_magnitude_le {start : ℤ} (h : 10 ^ (start - 1) * w.denominator ≤ (w.value : ℚ))
    (span : Nat) : 10 ^ (w.magnitude start span - 1) * w.denominator ≤ (w.value : ℚ) := by
  induction span generalizing start with
  | zero => exact h
  | succ span ih =>
    simp only [magnitude]
    split
    next => exact h
    next hnot =>
      refine ih ?_
      rw [add_sub_cancel_right]
      exact unit_le_iff.mp (not_lt.mp hnot)

end
end Window

/-! ## The search for a short decimal -/

section

variable {w : Window} {magnitude : ℤ} {fewest tries : Nat} {d : Decimal}

theorem holds_ofGrid? (h : ofGrid? w magnitude fewest tries = some d) : w.Holds d.value := by
  induction tries generalizing fewest with
  | zero => cases h
  | succ tries ih =>
    rw [ofGrid?] at h
    split at h
    next digits hdigits =>
      have hholds := Window.holds_nearest? hdigits
      split at h
      next hround =>
        obtain rfl := Option.some.inj h
        have hvalue : (digits : ℚ) * 10 ^ (magnitude - fewest) = 10 ^ magnitude := by
          rw [hround, Nat.pow_eq, Nat.cast_pow, ← zpow_natCast, Nat.cast_ofNat,
            ← zpow_add₀ (by norm_num), add_sub_cancel]
        rw [hvalue] at hholds
        simpa [value] using hholds
      next =>
        obtain rfl := Option.some.inj h
        exact hholds
    next => exact ih h

theorem nearest?_of_ofGrid?_eq_none (h : ofGrid? w magnitude fewest tries = none) {k : Nat}
    (hk : k < tries) : w.nearest? (magnitude - (fewest + k : Nat)) = none := by
  induction tries generalizing fewest k with
  | zero => cases hk
  | succ tries ih =>
    rw [ofGrid?] at h
    split at h
    next =>
      split at h <;> cases h
    next hnone =>
      cases k with
      | zero => exact hnone
      | succ k =>
        have hlater := ih h (Nat.lt_of_succ_lt_succ hk)
        rwa [Nat.add_assoc, Nat.add_comm 1] at hlater

/-- A value that lies on the grid of some digits to within its window has a short decimal. -/
theorem holds_shortest {smallest : ℤ} {precision : Nat} (span : Nat)
    (hsmallest : 10 ^ (smallest - 1) * w.denominator ≤ (w.value : ℚ))
    (hbelow : w.value ≤ 10 ^ precision * w.below) (hpos : 0 < w.denominator)
    (habove : 0 < w.above) : w.Holds (shortest w smallest span (precision + 1)).value := by
  have hgrid : ofGrid? w (w.magnitude smallest span) 1 (precision + 1) ≠ none := by
    intro hnone
    refine Window.nearest?_ne_none ?_ hpos habove
      (nearest?_of_ofGrid?_eq_none hnone precision.lt_succ_self)
    have hten : (0 : ℚ) < 10 ^ precision := by positivity
    have hvalue : (w.value : ℚ) ≤ 10 ^ precision * w.below := by exact_mod_cast hbelow
    have hexponent : w.magnitude smallest span - (1 + precision : Nat) =
        w.magnitude smallest span - 1 - precision := by omega
    rw [hexponent, zpow_sub₀ (by norm_num), zpow_natCast, div_mul_eq_mul_div, div_le_iff₀ hten,
      mul_comm (w.below : ℚ)]
    exact (Window.pow_magnitude_le hsmallest span).trans hvalue
  obtain ⟨d, hd⟩ := Option.ne_none_iff_exists'.mp hgrid
  rw [shortest, hd, Option.getD_some]
  exact holds_ofGrid? hd

end
end Decimal
end Bpmn
