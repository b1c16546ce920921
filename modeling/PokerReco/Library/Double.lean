/-
  PokerReco.Library.Double
  ────────────────────────
  **THE ARITHMETIC OF A `double`.**

  A program that computes in `double` rounds each sum, product and quotient, and
  a comparison with what is not a number is false.  A function that is
  translated over the class `Double` can be read twice: over `ℚ`, where nothing
  is rounded, and over `Binary64`, where every operation is that of the
  hardware, bit by bit.

      Double        the operations
      Binary64      the 64 bits of a `double`, by Lean's own model of them
      truncate      the conversion to `int`, which has no result out of range
      moments       the two sums that a mean and a spread are taken from
-/
import Mathlib.Algebra.Ring.Rat

namespace PokerReco.Library

/-! ## §1. The operations. -/

/-- The operations of C's `double` that a program uses.  There is no law: two
roundings in a row are not one, and the order of the operations counts. -/
class Double (D : Type) where
  [zero : Zero D]
  [add : Add D]
  [sub : Sub D]
  [mul : Mul D]
  [div : Div D]
  [intCast : IntCast D]
  [le : LE D]
  [lt : LT D]
  [decidableEq : DecidableEq D]
  [decidableLE : DecidableLE D]
  [decidableLT : DecidableLT D]
  /-- `(int) x`, toward zero; `none` when that is not an `int`, and the
  conversion has no defined result. -/
  truncate : D → Option Int

export Double (truncate)

section Operations

variable {D : Type} [Double D]

-- of low priority: a type that has operations of its own, such as `ℚ`, keeps them
instance (priority := low) Double.instZero : Zero D := Double.zero
instance (priority := low) Double.instAdd : Add D := Double.add
instance (priority := low) Double.instSub : Sub D := Double.sub
instance (priority := low) Double.instMul : Mul D := Double.mul
instance (priority := low) Double.instDiv : Div D := Double.div
instance (priority := low) Double.instIntCast : IntCast D := Double.intCast
instance (priority := low) Double.instLE : LE D := Double.le
instance (priority := low) Double.instLT : LT D := Double.lt
instance (priority := low) Double.instDecidableEq : DecidableEq D := Double.decidableEq
instance (priority := low) Double.instDecidableLE : DecidableLE D := Double.decidableLE
instance (priority := low) Double.instDecidableLT : DecidableLT D := Double.decidableLT

end Operations

/-- An integer, when it is an `int` of 32 bits. -/
def asInt32 (n : Int) : Option Int := if -2 ^ 31 ≤ n ∧ n < 2 ^ 31 then some n else none

/-- **Exact arithmetic**: the numbers of a claim that leaves rounding out. -/
instance : Double ℚ where
  truncate x := asInt32 (x.num.tdiv x.den)

/-! ## §2. The numbers of 64 bits. -/

/-- A `double` of IEEE 754: a sign, an exponent of 11 bits and 52 bits of the
mantissa, with the infinities and what is not a number. -/
abbrev Binary64 := Float.Model

/-- **Binary arithmetic**: each operation is rounded to the nearest `double`. -/
instance : Double Binary64 where
  zero := ⟨.ofNat 0⟩
  intCast := ⟨.ofInt⟩
  truncate x := match x.unpack with
    | .zero _ => some 0
    | .finite sign mantissa exponent _ =>
        asInt32 (Float.Model.UnpackedFloat.roundToInt sign mantissa exponent)
    | .infinity _ => none
    | .notANumber => none

/-- One third of the sum of three tenths, squared, is more than one third of the
sum of their squares: the difference, a variance, has no root. -/
example : let x : Binary64 := .ofScientific 1 (-1)
    let mean := (x + x + x) / Int.cast 3
    ((x * x + x * x + x * x) / Int.cast 3 - mean * mean).sqrt.isNaN = true := by
  decide +kernel

/-! ## §3. The sum and the sum of squares. -/

section Moments

variable {D : Type} [Double D]

/-- The sum of the numbers and that of their squares, in the order in which a
loop over them rounds. -/
def moments (xs : List D) : D × D := xs.foldl (fun s x => (s.1 + x, s.2 + x * x)) (0, 0)

@[simp] theorem moments_nil : moments ([] : List D) = (0, 0) := rfl

/-- A loop that adds one number more. -/
theorem moments_concat (xs : List D) (x : D) :
    moments (xs ++ [x]) = ((moments xs).1 + x, (moments xs).2 + x * x) := by
  rw [moments, List.foldl_append]
  rfl

end Moments

end PokerReco.Library
