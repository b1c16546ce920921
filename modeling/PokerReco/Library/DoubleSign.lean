/-
  PokerReco.Library.DoubleSign
  ────────────────────────────
  **THE SIGN OF A ROUNDED QUOTIENT.**

  How many times a positive number goes into a positive integer is computed by a
  division and a conversion to `int`.  Both round, and an exponent may be out of
  range; but no rounding takes a plus away, so that the count is not negative.

      HasPlus               the numbers that are not below zero
      HasPlus.unpack_pack   the 64 bits keep the plus
      HasPlus.div           so does a quotient
      truncate_div_nonneg   the count is not negative
-/
import Mathlib
import PokerReco.Library.Double

namespace PokerReco.Library

open Float.Model UnpackedFloat

/-! ## §1. Numbers with a plus. -/

/-- The sign is plus: the number is not below zero.  What is not a number has
no sign, and counts as well. -/
def HasPlus : UnpackedFloat → Prop
  | .infinity sign | .zero sign | .finite sign _ _ _ => sign = .positive
  | .notANumber => True

/-- A number with a plus is packed with the bit of the sign clear: the infinity
that an exponent out of range becomes has the same sign. -/
theorem unpackSign_pack {spec : Format} {u : UnpackedFloat} (h : HasPlus u) :
    unpackSign (UnpackedFloat.pack spec u) = 0#1 := by
  cases u with
  | infinity sign =>
    obtain rfl : sign = .positive := h
    exact unpackSign_packComponents .positive _ _
  | notANumber => exact unpackSign_packComponents .positive _ _
  | zero sign =>
    obtain rfl : sign = .positive := h
    exact unpackSign_packComponents .positive _ _
  | finite sign mantissa exponent hpos =>
    obtain rfl : sign = .positive := h
    -- an infinity, a normal number or a subnormal one
    simp only [UnpackedFloat.pack]
    split_ifs
    all_goals exact unpackSign_packComponents .positive _ _

/-- To pack a number and read it back keeps the plus, also where the mantissa
is not that of the number. -/
theorem HasPlus.unpack_pack {u : UnpackedFloat} (h : HasPlus u) :
    HasPlus (Float.Model.unpack (.pack u)) := by
  have hsign : Sign.ofBitVec (unpackSign (UnpackedFloat.pack .binary64 u)) = .positive := by
    rw [unpackSign_pack h]
    rfl
  unfold Float.Model.unpack Float.Model.pack UnpackedFloat.unpack
  simp only
  split_ifs
  all_goals first | exact hsign | trivial

/-- Rounding keeps the sign, also of what it rounds to zero. -/
theorem hasPlus_roundWithAccuracy (spec : Format) (m : Nat) (e : Int) (acc : Accuracy) :
    HasPlus (roundWithAccuracy spec .positive m e acc) := by
  unfold roundWithAccuracy
  simp only
  split
  all_goals rfl

/-- The quotient of two numbers with a plus has one; the quotients that are not
a number, such as that of two infinities, count as well. -/
theorem HasPlus.div {spec : Format} {u v : UnpackedFloat} (hu : HasPlus u) (hv : HasPlus v) :
    HasPlus (UnpackedFloat.div spec u v) := by
  -- where the quotient is a number its sign is plus; in one case it is rounded
  cases u <;> cases v <;> try trivial
  all_goals
    obtain rfl := hu
    obtain rfl := hv
  all_goals first | rfl | exact hasPlus_roundWithAccuracy _ _ _ _

/-! ## §2. The numbers of a quotient. -/

/-- A positive integer is rounded to a number with a plus. -/
theorem hasPlus_cast {n : Int} (hn : 0 < n) : HasPlus (Int.cast n : Binary64).unpack := by
  have hround : UnpackedFloat.ofInt .binary64 n = round .binary64 .positive n.toNat 0 := by
    have hcompare : compare n 0 = .gt := compare_gt_iff_gt.mpr hn
    rw [UnpackedFloat.ofInt, UnpackedFloat.normalize, hcompare]
  refine HasPlus.unpack_pack ?_
  rw [hround]
  exact hasPlus_roundWithAccuracy _ _ _ _

/-- What compares as greater than zero is a number, and has a plus. -/
theorem hasPlus_of_pos {x : Binary64} (hx : 0 < x) : HasPlus x.unpack := by
  have hcompare : (UnpackedFloat.zero .positive).compare x.unpack = some .lt := by
    have hzero : (0 : Binary64).unpack = .zero .positive := rfl
    have hlt : ((0 : Binary64).unpack.compare x.unpack == some .lt) = true := hx
    rw [← hzero]
    exact eq_of_beq hlt
  cases hunpack : x.unpack with
  | notANumber => trivial
  | zero sign =>
    rw [hunpack] at hcompare
    cases hcompare
  | infinity sign =>
    rw [hunpack] at hcompare
    cases sign with
    | positive => rfl
    | negative => cases hcompare
  | finite sign mantissa exponent hpos =>
    rw [hunpack] at hcompare
    cases sign with
    | positive => rfl
    | negative => cases hcompare

/-! ## §3. The conversion to `int`. -/

/-- A number with a plus is cut to an integer that is not negative. -/
theorem roundToInt_nonneg (m : Nat) (e : Int) : 0 ≤ roundToInt .positive m e :=
  Int.natCast_nonneg _

/-- A number with a plus is not converted to a negative `int`. -/
theorem truncate_nonneg {x : Binary64} {n : Int} (hx : HasPlus x.unpack)
    (hn : truncate x = some n) : 0 ≤ n := by
  cases hunpack : x.unpack with
  | zero sign =>
    simp only [truncate, hunpack] at hn
    exact le_of_eq (Option.some.inj hn)
  | finite sign mantissa exponent hpos =>
    rw [hunpack] at hx
    obtain rfl : sign = .positive := hx
    simp only [truncate, hunpack, asInt32] at hn
    split at hn
    · exact Option.some.inj hn ▸ roundToInt_nonneg _ _
    · cases hn
  | infinity sign =>
    simp only [truncate, hunpack] at hn
    cases hn
  | notANumber =>
    simp only [truncate, hunpack] at hn
    cases hn

/-- **The number of times that one positive number goes into another** is not
negative, however the quotient is rounded. -/
theorem truncate_div_nonneg {n count : Int} {x : Binary64} (hn : 0 < n) (hx : 0 < x)
    (hcount : truncate (Int.cast n / x) = some count) : 0 ≤ count :=
  truncate_nonneg ((hasPlus_cast hn).div (hasPlus_of_pos hx)).unpack_pack hcount

end PokerReco.Library
