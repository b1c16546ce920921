/-
  PokerReco.Library.SignedArithmetic
  ──────────────────────────────────
  **32-BIT SIGNED NUMBERS AS C HAS THEM.**

  The language says what a left shift, a sum and a product are where the result
  fits into the type.  Where it does not, and where the count of a shift is not
  below the width, a program may compute anything.

      Arithmetic               what a compiled program computes
      sshiftRight_and_one      the test of a bit of a signed word
      testBit_zero_toUInt64    the last bit of a word that is made longer
-/
import PokerReco.Library.IndexLoop

namespace PokerReco.Library

/-! ## §1. What is left open. -/

/-- Left shift, sum and product of `int` as one compiled program has them, with
the values that the language fixes.  A theorem about every `Arithmetic` holds
whatever the program does with the values that are left open. -/
structure Arithmetic where
  shl : Int32 → Nat → Int32
  add : Int32 → Int32 → Int32
  mul : Int32 → Int32 → Int32
  shl_eq : ∀ w k, 0 ≤ w.toInt → k < 32 → w.toInt * 2 ^ k < 2 ^ 31 →
    (shl w k).toInt = w.toInt * 2 ^ k
  add_eq : ∀ v w, -2 ^ 31 ≤ v.toInt + w.toInt → v.toInt + w.toInt < 2 ^ 31 →
    (add v w).toInt = v.toInt + w.toInt
  mul_eq : ∀ v w, -2 ^ 31 ≤ v.toInt * w.toInt → v.toInt * w.toInt < 2 ^ 31 →
    (mul v w).toInt = v.toInt * w.toInt

/-- The bit that a shift of 1 sets is not lost as long as the shift is one that
the language fixes. -/
theorem Arithmetic.one_shl_ne_zero (A : Arithmetic) {k : Nat} (hk : k < 31) : A.shl 1 k ≠ 0 := by
  intro h
  have hpow : (2 : Int) ^ k < 2 ^ 31 := by
    exact_mod_cast Nat.pow_lt_pow_right (by decide : 1 < 2) hk
  have heq := A.shl_eq 1 k (by decide) (by omega) (by rw [Int32.toInt_one, Int.one_mul]; exact hpow)
  -- the language fixes the value, and it is a power of two
  rw [h, Int32.toInt_one, Int.one_mul] at heq
  exact absurd heq.symm (ne_of_gt (Int.pow_pos (by decide)))

/-- A shift in the range of `int` is the product with a power of 2. -/
theorem toInt_ofInt_eq (w : Int32) (k : Nat) (h0 : 0 ≤ w.toInt) (h : w.toInt * 2 ^ k < 2 ^ 31) :
    (Int32.ofInt (w.toInt * 2 ^ k)).toInt = w.toInt * 2 ^ k := by
  have hnonneg : 0 ≤ w.toInt * 2 ^ k := Int.mul_nonneg h0 (Int.pow_nonneg (by decide))
  exact Int32.toInt_ofInt_of_le (by omega) h

/-- A sum in the range of `int` is not changed by the reduction to 32 bits. -/
theorem toInt_add_eq (v w : Int32) (h1 : -2 ^ 31 ≤ v.toInt + w.toInt)
    (h2 : v.toInt + w.toInt < 2 ^ 31) : (v + w).toInt = v.toInt + w.toInt := by
  rw [Int32.toInt_add]
  exact Int.bmod_eq_of_le (by omega) (by omega)

/-- A product in the range of `int` is not changed by the reduction to 32
bits. -/
theorem toInt_mul_eq (v w : Int32) (h1 : -2 ^ 31 ≤ v.toInt * w.toInt)
    (h2 : v.toInt * w.toInt < 2 ^ 31) : (v * w).toInt = v.toInt * w.toInt := by
  rw [Int32.toInt_mul]
  exact Int.bmod_eq_of_le (by omega) (by omega)

/-- The program in which sums and products wrap around, and a shift by too much
gives a fixed number. -/
def Arithmetic.wrapping (beyond : Int32) : Arithmetic where
  shl w k := if k < 32 then .ofInt (w.toInt * 2 ^ k) else beyond
  add v w := v + w
  mul v w := v * w
  shl_eq := by
    intro w k h0 hk h
    rw [if_pos hk]
    exact toInt_ofInt_eq w k h0 h
  add_eq := toInt_add_eq
  mul_eq := toInt_mul_eq

/-! ## §2. Bits of signed words. -/

/-- The test of the last bit of a signed word. -/
theorem and_one_ne_zero (w : Int32) : w &&& 1 ≠ 0 ↔ w.toBitVec.getLsbD 0 = true := by
  rw [Ne, ← Int32.toBitVec_inj, Int32.toBitVec_and]
  show ¬ w.toBitVec &&& 1#32 = 0#32 ↔ _
  rw [BitVec.and_one_eq_setWidth_ofBool_getLsbD]
  cases w.toBitVec.getLsbD 0 <;> decide

/-- The test `(w >> k) & 1` on a signed word is that of its bit `k`, also
for the sign. -/
theorem sshiftRight_and_one (w : Int32) (k : Fin 32) :
    (w >>> Int32.ofNat k) &&& 1 ≠ 0 ↔ w.toBitVec.getLsbD k = true := by
  have hk : ((Int32.ofNat k).toBitVec.smod 32).toNat = k := by
    revert k
    decide
  rw [and_one_ne_zero, Int32.toBitVec_shiftRight, BitVec.sshiftRight', BitVec.getLsbD_sshiftRight,
    hk, Nat.add_zero, if_pos k.isLt]
  rfl

/-- The last bit stays when a signed word is made longer. -/
theorem testBit_zero_toUInt64 (w : Int32) :
    w.toInt64.toUInt64.toNat.testBit 0 = w.toBitVec.getLsbD 0 := by
  show (w.toBitVec.signExtend 64).getLsbD 0 = _
  rw [BitVec.getLsbD_signExtend]
  rfl

/-- The test of a word and a truth value is that of its last bit, when the
value is true. -/
theorem and_toUInt64 (w : UInt64) (b : Bool) :
    w &&& b.toUInt64 ≠ 0 ↔ b = true ∧ w.toNat.testBit 0 = true := by
  cases b with
  | false =>
      show w &&& 0 ≠ 0 ↔ _
      rw [UInt64.and_zero]
      exact iff_of_false (fun h => h rfl) fun h => Bool.false_ne_true h.1
  | true => exact (and_shiftLeft w 0).trans (and_iff_right rfl).symm

/-- An even and an odd number, added to the same word, give different last bits. -/
theorem getLsbD_zero_one_add (w : Int32) :
    (1 + w).toBitVec.getLsbD 0 = !(0 + w).toBitVec.getLsbD 0 := by
  rw [Int32.zero_add, Int32.toBitVec_add, BitVec.getLsbD, BitVec.getLsbD, BitVec.toNat_add,
    Nat.testBit_zero, Nat.testBit_zero, ← decide_not, decide_eq_decide]
  show (1 + w.toBitVec.toNat) % 2 ^ 32 % 2 = 1 ↔ ¬ w.toBitVec.toNat % 2 = 1
  omega

end PokerReco.Library
