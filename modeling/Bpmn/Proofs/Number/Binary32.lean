import Bpmn.Number.Binary32
import Bpmn.Proofs.Number.Decimal

/-!
# Numbers read back

The text of a single precision number denotes it (`denotes_text`): its sign and digits stand for a
number to which no other single precision number is as near.  So it is read as the same bits by
whatever rounds to the nearest, halves to even.
-/

namespace Bpmn
namespace Binary32

/-- The magnitude of the number whose bits below the sign are these: 23 bits of fraction, and eight
of exponent before them. -/
def magnitude (size : Nat) : ℚ :=
  if size < 2 ^ 23 then size * 2 ^ (-149 : ℤ)
  else (2 ^ 23 + size % 2 ^ 23 : Nat) * 2 ^ ((size / 2 ^ 23 : Nat) - 150 : ℤ)

/-- The bits of infinity.  Those of finite numbers come before them. -/
def infinity : Nat := 255 * 2 ^ 23

/-- Bits to whose magnitude a number is rounded.  No other magnitude is nearer to it, and if one is
as near then theirs ends in a zero.  Infinity takes part as the magnitude that would come next. -/
def IsNearest (v : ℚ) (size : Nat) : Prop :=
  ∀ other ≤ infinity, other ≠ size →
    |v - magnitude size| < |v - magnitude other| ∨
      |v - magnitude size| = |v - magnitude other| ∧ size % 2 = 0

/-- A text that is read as this number. -/
def Denotes (text : String) (x : Float32) : Prop :=
  let size := x.toBits.toNat % 2 ^ 31
  let sign := if 2 ^ 31 ≤ x.toBits.toNat then "-" else ""
  if size < infinity then
    ∃ digits v, text = sign ++ String.ofList digits ∧ Numeral digits v ∧ IsNearest v size
  else if size = infinity then text = sign ++ "inf"
  else text = "NaN"

/-! ## Magnitudes -/

def mantissa (size : Nat) : Nat := if size < 2 ^ 23 then size else 2 ^ 23 + size % 2 ^ 23

/-- The exponent of the last place of a magnitude. -/
def lastPlace (size : Nat) : ℤ := (max 1 (size / 2 ^ 23) : Nat) - 150

theorem magnitude_eq (size : Nat) : magnitude size = mantissa size * 2 ^ lastPlace size := by
  rw [magnitude, mantissa, lastPlace]
  split
  next hsmall =>
    rw [Nat.div_eq_of_lt hsmall]
    rfl
  next hlarge =>
    have hexponent : 1 ≤ size / 2 ^ 23 := by omega
    rw [max_eq_right hexponent]

theorem mantissa_lt (size : Nat) : mantissa size < 2 ^ 24 := by
  rw [mantissa]
  split <;> omega

/-- The next magnitude is one last place away, also where a larger exponent starts. -/
theorem magnitude_succ (size : Nat) :
    magnitude (size + 1) = magnitude size + 2 ^ lastPlace size := by
  rw [magnitude_eq, magnitude_eq]
  -- The largest fraction carries over into the exponent, except below the first normal number,
  -- where the last place is the same on both sides.
  by_cases hcarry : size % 2 ^ 23 = 2 ^ 23 - 1 ∧ 2 ^ 23 ≤ size
  · have hmantissa : mantissa size + 1 = 2 ^ 24 := by
      rw [mantissa, if_neg (by omega)]
      omega
    have hmantissa' : mantissa (size + 1) = 2 ^ 23 := by
      rw [mantissa, if_neg (by omega)]
      omega
    have hplace : lastPlace (size + 1) = lastPlace size + 1 := by
      rw [lastPlace, lastPlace]
      omega
    rw [hmantissa', hplace, zpow_add_one₀ (by norm_num), ← add_one_mul, ← Nat.cast_add_one,
      hmantissa]
    push_cast
    ring
  · have hmantissa : mantissa (size + 1) = mantissa size + 1 := by
      rw [mantissa, mantissa]
      split <;> split <;> omega
    have hplace : lastPlace (size + 1) = lastPlace size := by
      rw [lastPlace, lastPlace]
      omega
    rw [hmantissa, hplace, Nat.cast_add_one, add_one_mul]

theorem two_zpow_pos (e : ℤ) : (0 : ℚ) < 2 ^ e := zpow_pos (by norm_num) e

theorem strictMono_magnitude : StrictMono magnitude := by
  refine strictMono_nat_of_lt_succ fun size => ?_
  rw [magnitude_succ]
  exact lt_add_of_pos_right _ (two_zpow_pos _)

/-! ## Rounding to the nearest -/

/-- Of two magnitudes, the one on whose side of the middle a number lies is nearer to it. -/
theorem nearer_or_tied {v a b : ℚ} {even : Prop} (hne : a ≠ b)
    (hside : 0 ≤ (b - a) * (2 * v - (a + b))) (htie : 2 * v = a + b → even) :
    |v - b| < |v - a| ∨ |v - b| = |v - a| ∧ even := by
  rcases hside.lt_or_eq with hlt | heq
  · left
    have hsquares : (v - a) ^ 2 - (v - b) ^ 2 = (b - a) * (2 * v - (a + b)) := by ring
    rw [← sq_lt_sq, ← sub_pos, hsquares]
    exact hlt
  · right
    have hmiddle : 2 * v = a + b :=
      sub_eq_zero.mp ((mul_eq_zero.mp heq.symm).resolve_left (sub_ne_zero.mpr hne.symm))
    have hopposite : v - b = -(v - a) := by linarith
    exact ⟨by rw [hopposite, abs_neg], htie hmiddle⟩

/-- A number is rounded to a magnitude if it lies between the points halfway to its neighbours, or
at one of them if the magnitude is the even one there. -/
theorem isNearest_of_between {v : ℚ} {before : Nat}
    (hlow : magnitude before + magnitude (before + 1) ≤ 2 * v)
    (hhigh : 2 * v ≤ magnitude (before + 1) + magnitude (before + 2))
    (hties : magnitude before + magnitude (before + 1) = 2 * v ∨
      2 * v = magnitude (before + 1) + magnitude (before + 2) → (before + 1) % 2 = 0) :
    IsNearest v (before + 1) := by
  intro other _ hne
  rcases Nat.lt_or_gt_of_ne hne with hlt | hgt
  · have hmag := strictMono_magnitude hlt
    have hother : magnitude other ≤ magnitude before :=
      strictMono_magnitude.monotone (Nat.le_of_lt_succ hlt)
    refine nearer_or_tied hmag.ne (mul_nonneg (by linarith) (by linarith)) fun htie => ?_
    exact hties (.inl (by linarith))
  · have hmag := strictMono_magnitude hgt
    have hother : magnitude (before + 2) ≤ magnitude other := strictMono_magnitude.monotone hgt
    refine nearer_or_tied hmag.ne'
      (mul_nonneg_of_nonpos_of_nonpos (by linarith) (by linarith)) fun htie => ?_
    exact hties (.inr (by linarith))

theorem magnitude_zero : magnitude 0 = 0 := by
  rw [magnitude, if_pos (by decide), Nat.cast_zero, zero_mul]

theorem isNearest_zero : IsNearest 0 0 := by
  intro other _ hne
  have hpos : 0 < magnitude other := by
    rw [← magnitude_zero]
    exact strictMono_magnitude (Nat.pos_of_ne_zero hne)
  left
  rw [magnitude_zero, sub_zero, abs_zero, zero_sub, abs_neg, abs_of_pos hpos]
  exact hpos

/-! ## The window of a magnitude -/

open Decimal

/-- Whether the magnitude before this one has a smaller last place. -/
def startsExponent (size : Nat) : Bool := size % 2 ^ 23 == 0 && decide (1 < size / 2 ^ 23)

/-- The half of the gap below the magnitude `m * 2 ^ q`. -/
def halfBelow (q : ℤ) (powerOfTwo : Bool) : ℚ := if powerOfTwo then 2 ^ q / 4 else 2 ^ q / 2

/-- The numbers that a window is made of, over one denominator. -/
theorem exists_denominator_ofBinary (m : Nat) (q : ℤ) (powerOfTwo : Bool) :
    ∃ unit : ℚ, 0 < unit ∧ (Window.ofBinary m q powerOfTwo).denominator = unit ∧
      (Window.ofBinary m q powerOfTwo).value = m * 2 ^ q * unit ∧
      (Window.ofBinary m q powerOfTwo).below = halfBelow q powerOfTwo * unit ∧
      (Window.ofBinary m q powerOfTwo).above = 2 ^ q / 2 * unit := by
  have hscale : ((1 <<< q.toNat : Nat) : ℚ) = 2 ^ q * 2 ^ (-q).toNat := by
    rw [Nat.one_shiftLeft, Nat.cast_pow]
    exact (zpow_mul_pow_toNat_neg (by norm_num) q).symm
  refine ⟨4 * 2 ^ (-q).toNat, by positivity, ?_, ?_, ?_, ?_⟩
  · have hdenominator : (Window.ofBinary m q powerOfTwo).denominator = 4 <<< (-q).toNat := rfl
    rw [hdenominator, Nat.shiftLeft_eq, Nat.cast_mul, Nat.cast_pow]
    rfl
  · rw [Window.ofBinary, Nat.cast_mul, hscale]
    push_cast
    ring
  · rw [Window.ofBinary, halfBelow]
    cases powerOfTwo with
    | true =>
      rw [if_pos rfl, if_pos rfl, hscale]
      ring
    | false =>
      rw [if_neg Bool.false_ne_true, if_neg Bool.false_ne_true, Nat.cast_mul, hscale]
      push_cast
      ring
  · rw [Window.ofBinary, Nat.cast_mul, hscale]
    push_cast
    ring

/-- Whatever the window of a magnitude holds lies between the points halfway to its neighbours, and
at one of them only if the magnitude is even. -/
theorem between_of_holds {m : Nat} {q : ℤ} {powerOfTwo : Bool} {v : ℚ}
    (h : (Window.ofBinary m q powerOfTwo).Holds v) :
    m * 2 ^ q ≤ v + halfBelow q powerOfTwo ∧ v ≤ m * 2 ^ q + 2 ^ q / 2 ∧
      (m * 2 ^ q = v + halfBelow q powerOfTwo ∨ v = m * 2 ^ q + 2 ^ q / 2 → m % 2 = 0) := by
  obtain ⟨unit, hpos, hdenominator, hvalue, hbelow, habove⟩ :=
    exists_denominator_ofBinary m q powerOfTwo
  have hclosed : (Window.ofBinary m q powerOfTwo).closed = (m % 2 == 0) := rfl
  rw [Window.Holds, hdenominator, hvalue, hbelow, habove, ← add_mul, ← add_mul, hclosed] at h
  split at h
  next heven =>
    rw [mul_le_mul_iff_left₀ hpos, mul_le_mul_iff_left₀ hpos] at h
    exact ⟨h.1, h.2, fun _ => beq_iff_eq.mp heven⟩
  next =>
    rw [mul_lt_mul_iff_left₀ hpos, mul_lt_mul_iff_left₀ hpos] at h
    exact ⟨h.1.le, h.2.le, fun htie => (htie.elim h.1.ne h.2.ne).elim⟩

/-- Nine digits are enough for every magnitude. -/
theorem holds_shortest_ofBinary {m : Nat} {q : ℤ} (powerOfTwo : Bool) (hm : m ≠ 0)
    (hm' : m < 2 ^ 24) (hq : -149 ≤ q) : (Window.ofBinary m q powerOfTwo).Holds
      (shortest (.ofBinary m q powerOfTwo) (-45) 84 9).value := by
  obtain ⟨unit, hpos, hdenominator, hvalue, hbelow, habove⟩ :=
    exists_denominator_ofBinary m q powerOfTwo
  have hgap : (0 : ℚ) < 2 ^ q := two_zpow_pos q
  -- Nine digits are finer than the last place of a mantissa of 24 bits, as 2 ^ 26 < 10 ^ 8.
  refine holds_shortest 84 ?_ ?_ ?_ ?_
  · have hsmallest : (2 : ℚ) ^ (-149 : ℤ) ≤ 2 ^ q := zpow_le_zpow_right₀ (by norm_num) hq
    have hm : (1 : ℚ) ≤ m := Nat.one_le_cast.mpr (Nat.pos_of_ne_zero hm)
    rw [hdenominator, hvalue, mul_le_mul_iff_left₀ hpos]
    calc (10 : ℚ) ^ (-45 - 1 : ℤ) ≤ 2 ^ (-149 : ℤ) := by norm_num
      _ ≤ 2 ^ q := hsmallest
      _ ≤ m * 2 ^ q := le_mul_of_one_le_left hgap.le hm
  · rw [← Nat.cast_le (α := ℚ), Nat.cast_mul, hvalue, hbelow, ← mul_assoc,
      mul_le_mul_iff_left₀ hpos]
    have hm : (m : ℚ) ≤ 2 ^ 24 := by exact_mod_cast hm'.le
    have hhalf : 2 ^ q / 4 ≤ halfBelow q powerOfTwo := by
      rw [halfBelow]
      split <;> linarith
    calc (m : ℚ) * 2 ^ q ≤ 2 ^ 24 * 2 ^ q := mul_le_mul_of_nonneg_right hm hgap.le
      _ ≤ 10 ^ 8 * (2 ^ q / 4) := by linarith
      _ ≤ ((10 ^ 8 : Nat) : ℚ) * halfBelow q powerOfTwo := by
        push_cast
        linarith
  · rw [← Nat.cast_pos (α := ℚ), hdenominator]
    exact hpos
  · rw [← Nat.cast_pos (α := ℚ), habove]
    positivity

/-! ## From bits to text -/

theorem toNat_and_mask (a : UInt32) (n : Nat) (hn : n < 32) :
    (a &&& UInt32.ofNat (2 ^ n - 1)).toNat = a.toNat % 2 ^ n := by
  have hlt : 2 ^ n - 1 < 2 ^ 32 := by
    have := Nat.pow_lt_pow_right (a := 2) (by decide) hn
    omega
  rw [UInt32.toNat_and, UInt32.toNat_ofNat', Nat.mod_eq_of_lt hlt, Nat.and_two_pow_sub_one_eq_mod]

theorem toNat_fraction (x : Float32) :
    (x.toBits &&& 0x7FFFFF).toNat = x.toBits.toNat % 2 ^ 31 % 2 ^ 23 := by
  rw [Nat.mod_mod_of_dvd _ (by decide)]
  exact toNat_and_mask x.toBits 23 (by decide)

theorem toNat_exponent (x : Float32) :
    (x.toBits >>> 23 &&& 0xFF).toNat = x.toBits.toNat % 2 ^ 31 / 2 ^ 23 := by
  have hshift : (x.toBits >>> 23).toNat = x.toBits.toNat / 2 ^ 23 := by
    rw [UInt32.toNat_shiftRight, Nat.shiftRight_eq_div_pow]
    rfl
  refine (toNat_and_mask (x.toBits >>> 23) 8 (by decide)).trans ?_
  rw [hshift]
  omega

theorem isNegative_iff (x : Float32) : isNegative x = true ↔ 2 ^ 31 ≤ x.toBits.toNat := by
  have hlt : x.toBits.toNat < 2 ^ 32 := x.toBits.toNat_lt
  rw [isNegative, beq_iff_eq, ← UInt32.toNat_inj, UInt32.toNat_shiftRight,
    Nat.shiftRight_eq_div_pow]
  change x.toBits.toNat / 2 ^ 31 = 1 ↔ _
  omega

theorem meaning_eq (x : Float32) : meaning x =
    if x.toBits.toNat % 2 ^ 31 < infinity then
      .finite (isNegative x) (mantissa (x.toBits.toNat % 2 ^ 31))
        (lastPlace (x.toBits.toNat % 2 ^ 31)) (startsExponent (x.toBits.toNat % 2 ^ 31))
    else if x.toBits.toNat % 2 ^ 31 = infinity then .infinite (isNegative x)
    else .nan := by
  simp only [meaning, toNat_fraction, toNat_exponent]
  have hlt : x.toBits.toNat % 2 ^ 31 < 2 ^ 31 := Nat.mod_lt _ (by decide)
  generalize x.toBits.toNat % 2 ^ 31 = size at hlt
  have hinfinity : infinity = 255 * 2 ^ 23 := rfl
  by_cases hlast : size / 2 ^ 23 = 255
  · have hiff : size % 2 ^ 23 = 0 ↔ size = infinity := by omega
    rw [if_pos hlast, if_neg (by omega : ¬size < infinity)]
    simp only [hiff]
  · rw [if_neg hlast, if_pos (by omega : size < infinity)]
    by_cases hfirst : size / 2 ^ 23 = 0
    · have hsmall : size < 2 ^ 23 := by omega
      have hstarts : startsExponent size = false := by
        rw [startsExponent, hfirst]
        exact Bool.and_false _
      have hplace : lastPlace size = -149 := by
        rw [lastPlace, hfirst]
        rfl
      rw [if_pos hfirst, mantissa, if_pos hsmall, hplace, hstarts, Nat.mod_eq_of_lt hsmall]
    · have hplace : lastPlace size = (size / 2 ^ 23 : Nat) - 150 := by
        rw [lastPlace]
        omega
      rw [if_neg hfirst, mantissa, if_neg (by omega : ¬size < 2 ^ 23), hplace, startsExponent]
      rfl

/-- The half of the gap below a magnitude is that of the last place of the magnitude before it. -/
theorem two_mul_halfBelow (before : Nat) :
    2 * halfBelow (lastPlace (before + 1)) (startsExponent (before + 1)) =
      2 ^ lastPlace before := by
  rw [halfBelow]
  split
  next hstarts =>
    simp only [startsExponent, Bool.and_eq_true, beq_iff_eq, decide_eq_true_eq] at hstarts
    have hplace : lastPlace (before + 1) = lastPlace before + 1 := by
      rw [lastPlace, lastPlace]
      omega
    rw [hplace, zpow_add_one₀ (by norm_num)]
    ring
  next hstarts =>
    simp only [startsExponent, Bool.and_eq_true, beq_iff_eq, decide_eq_true_eq] at hstarts
    have hplace : lastPlace (before + 1) = lastPlace before := by
      rw [lastPlace, lastPlace]
      omega
    rw [hplace]
    ring

/-- The window of a magnitude holds only what is rounded to it. -/
theorem isNearest_of_holds {size : Nat} (hsize : size ≠ 0) {v : ℚ}
    (h : (Window.ofBinary (mantissa size) (lastPlace size) (startsExponent size)).Holds v) :
    IsNearest v size := by
  obtain ⟨before, rfl : size = before + 1⟩ := Nat.exists_eq_succ_of_ne_zero hsize
  obtain ⟨hlow, hhigh, hties⟩ := between_of_holds h
  have hafter := magnitude_succ (before + 1)
  have hbefore := magnitude_succ before
  have hgap := two_mul_halfBelow before
  have heven : mantissa (before + 1) % 2 = 0 → (before + 1) % 2 = 0 := by
    rw [mantissa]
    split <;> omega
  rw [← magnitude_eq] at hlow hhigh hties
  refine isNearest_of_between (by linarith) (by linarith) fun htie => heven (hties ?_)
  exact htie.imp (fun htie => by linarith) (fun htie => by linarith)

/-- The digits of a finite number stand for one that is rounded to its magnitude. -/
theorem exists_numeral (size : Nat) : ∃ digits v,
    (if mantissa size = 0 then "0" else (shortest (.ofBinary (mantissa size) (lastPlace size)
      (startsExponent size)) (-45) 84 9).positional) = String.ofList digits ∧
      Numeral digits v ∧ IsNearest v size := by
  split
  next hzero =>
    have hsize : size = 0 := by
      rw [mantissa] at hzero
      split at hzero <;> omega
    subst hsize
    exact ⟨['0'], 0, rfl, .whole (List.cons_ne_nil _ _) rfl, isNearest_zero⟩
  next hmantissa =>
    have hsize : size ≠ 0 := by
      rintro rfl
      exact hmantissa rfl
    have hplace : -149 ≤ lastPlace size := by
      rw [lastPlace]
      omega
    exact ⟨_, _, String.ofList_toList.symm, numeral_positional _,
      isNearest_of_holds hsize (holds_shortest_ofBinary _ hmantissa (mantissa_lt size) hplace)⟩

/-- The text of a number is read as the number, whatever it is. -/
theorem denotes_text (x : Float32) : Denotes (text x) x := by
  have hsign : (if isNegative x = true then "-" else "") =
      if 2 ^ 31 ≤ x.toBits.toNat then "-" else "" := by
    simp only [isNegative_iff]
  rw [Denotes, text, meaning_eq]
  dsimp only
  generalize x.toBits.toNat % 2 ^ 31 = size
  by_cases hfinite : size < infinity
  · obtain ⟨digits, v, hdigits, hnumeral, hnearest⟩ := exists_numeral size
    rw [if_pos hfinite, if_pos hfinite]
    refine ⟨digits, v, ?_, hnumeral, hnearest⟩
    dsimp only
    rw [← hdigits, hsign]
    split
    · rfl
    · rfl
  · rw [if_neg hfinite, if_neg hfinite]
    by_cases hinfinite : size = infinity
    · rw [if_pos hinfinite, if_pos hinfinite]
      dsimp only
      rw [← hsign]
      cases isNegative x with
      | true => rfl
      | false => rfl
    · rw [if_neg hinfinite, if_neg hinfinite]

end Binary32
end Bpmn
