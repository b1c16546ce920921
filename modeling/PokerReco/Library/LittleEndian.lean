/-
  PokerReco.Library.LittleEndian
  ──────────────────────────────
  **NUMBERS AS BYTES, AND BYTES IN MEMORY.**

      leBytes w n     the `w` little-endian bytes of `n`
      leValue bs      the number with the bytes `bs`
      read mem o w    the number a read of `w` bytes at the offset `o` gives
      Stored mem o bs the bytes `bs` stand in memory from the offset `o` on

  `Stored` splits over `++`, so a reader that consumes a format piece by piece
  is followed piece by piece: `read_leBytes` at each field, `stored_append`
  between two fields.  `packWords` packs bytes into 32-bit words, zeros at the
  end.
-/
import Mathlib.Algebra.Order.Ring.Nat
import Mathlib.Data.List.Basic

namespace PokerReco.Library

/-! ## §1. Bytes of a number. -/

/-- The `w` little-endian bytes of `n`; what does not fit into them is lost. -/
def leBytes : Nat → Nat → List UInt8
  | 0, _ => []
  | w + 1, n => UInt8.ofNat n :: leBytes w (n / 256)

/-- The number with the given little-endian bytes, the first of which
counts least. -/
def leValue : List UInt8 → Nat
  | [] => 0
  | b :: bs => b.toNat + 256 * leValue bs

/-- There are `w` bytes, whatever the number is. -/
@[simp] theorem length_leBytes (w n : Nat) : (leBytes w n).length = w := by
  induction w generalizing n with
  | zero => rfl
  | succ w ih =>
      show (leBytes w (n / 256)).length + 1 = w + 1
      rw [ih]

/-- The number of some bytes fits into as many bytes. -/
theorem leValue_lt (bs : List UInt8) : leValue bs < 256 ^ bs.length := by
  induction bs with
  | nil => exact Nat.one_pos
  | cons b bs ih =>
      have hb := b.toNat_lt
      rw [List.length_cons, Nat.pow_succ]
      show b.toNat + 256 * leValue bs < _
      omega

/-- A number that fits is read back from its bytes. -/
theorem leValue_leBytes {w n : Nat} (h : n < 256 ^ w) : leValue (leBytes w n) = n := by
  induction w generalizing n with
  | zero =>
      show 0 = n
      omega
  | succ w ih =>
      -- the low byte is `n % 256`, the others are the bytes of `n / 256`
      have hdiv : n / 256 < 256 ^ w := by
        rw [Nat.pow_succ] at h
        omega
      show (UInt8.ofNat n).toNat + 256 * leValue (leBytes w (n / 256)) = n
      rw [ih hdiv, UInt8.toNat_ofNat']
      omega

/-- The bytes of the number of some bytes are these bytes. -/
theorem leBytes_leValue (bs : List UInt8) : leBytes bs.length (leValue bs) = bs := by
  induction bs with
  | nil => rfl
  | cons b bs ih =>
      have hb := b.toNat_lt
      -- a carry cannot reach the low byte, which is below 256
      have hlow : UInt8.ofNat (b.toNat + 256 * leValue bs) = b := by
        apply UInt8.toNat_inj.mp
        rw [UInt8.toNat_ofNat']
        omega
      have hhigh : (b.toNat + 256 * leValue bs) / 256 = leValue bs := by omega
      show UInt8.ofNat (b.toNat + 256 * leValue bs)
        :: leBytes bs.length ((b.toNat + 256 * leValue bs) / 256) = b :: bs
      rw [hlow, hhigh, ih]

/-! ## §2. Bytes in memory. -/

/-- What each address holds, also behind the end of what a program has written. -/
abbrev Memory := Nat → UInt8

/-- A read of `w` bytes at an address, the first of which counts least. -/
def read (mem : Memory) (o : Nat) : Nat → Nat
  | 0 => 0
  | w + 1 => (mem o).toNat + 256 * read mem (o + 1) w

/-- The bytes `bs` stand in memory from `o` on. -/
def Stored (mem : Memory) : Nat → List UInt8 → Prop
  | _, [] => True
  | o, b :: bs => mem o = b ∧ Stored mem (o + 1) bs

/-- Two pieces stand in memory behind each other when each stands at its place. -/
theorem stored_append {mem : Memory} {as bs : List UInt8} {o : Nat} :
    Stored mem o (as ++ bs) ↔ Stored mem o as ∧ Stored mem (o + as.length) bs := by
  induction as generalizing o with
  | nil => simp [Stored]
  | cons a as ih =>
      show mem o = a ∧ Stored mem (o + 1) (as ++ bs) ↔ _
      -- the offset of `bs` counts the byte that was taken off
      rw [ih, List.length_cons, ← Nat.add_assoc o, Nat.add_right_comm]
      exact and_assoc.symm

/-- What is read where some bytes stand is their number. -/
theorem read_of_stored {mem : Memory} {bs : List UInt8} {o : Nat} (h : Stored mem o bs) :
    read mem o bs.length = leValue bs := by
  induction bs generalizing o with
  | nil => rfl
  | cons b bs ih =>
      obtain ⟨hb, hbs⟩ := h
      show (mem o).toNat + 256 * read mem (o + 1) bs.length = b.toNat + 256 * leValue bs
      rw [hb, ih hbs]

/-- Reading what was written gives it back, when it fits into the bytes. -/
theorem read_leBytes {mem : Memory} {o w n : Nat} (h : Stored mem o (leBytes w n))
    (hn : n < 256 ^ w) : read mem o w = n := by
  have hread := read_of_stored h
  rw [length_leBytes, leValue_leBytes hn] at hread
  exact hread

/-- A buffer, and behind it whatever follows it. -/
def buffer (bytes : List UInt8) (after : Memory) : Memory := fun i => (bytes[i]?).getD (after i)

/-- A piece of a buffer stands in memory behind the piece before it, whatever
follows the buffer. -/
theorem stored_buffer (after : Memory) (front bytes : List UInt8) :
    Stored (buffer (front ++ bytes) after) front.length bytes := by
  induction bytes generalizing front with
  | nil => trivial
  | cons b bytes ih =>
      refine ⟨?_, ?_⟩
      · simp [buffer]
      -- the first byte joins the part in front
      · have hnext := ih (front ++ [b])
        rw [List.append_assoc, List.length_append] at hnext
        exact hnext

/-! ## §3. Words. -/

/-- The bytes of a vector of 32-bit words, each from its low end. -/
def wordBytes (words : List UInt32) : List UInt8 := words.flatMap fun w => leBytes 4 w.toNat

/-- Bytes packed into 32-bit words, the last one filled up with zeros. -/
def packWords : List UInt8 → List UInt32
  | [] => []
  | a :: b :: c :: d :: bytes => UInt32.ofNat (leValue [a, b, c, d]) :: packWords bytes
  | bytes => [UInt32.ofNat (leValue bytes)]

/-- Each word has four bytes. -/
theorem length_wordBytes (words : List UInt32) : (wordBytes words).length = 4 * words.length := by
  induction words with
  | nil => rfl
  | cons w words ih =>
      show (leBytes 4 w.toNat ++ wordBytes words).length = 4 * (words.length + 1)
      rw [List.length_append, length_leBytes, ih]
      omega

/-- Packing the bytes of words gives the words back. -/
theorem packWords_wordBytes (words : List UInt32) : packWords (wordBytes words) = words := by
  induction words with
  | nil => rfl
  | cons w words ih =>
      show UInt32.ofNat (leValue (leBytes 4 w.toNat)) :: packWords (wordBytes words) = w :: words
      rw [leValue_leBytes w.toNat_lt, ih, UInt32.ofNat_toNat]

/-- Zeros at the end of little-endian bytes change nothing. -/
theorem leValue_append_zeros (bytes : List UInt8) (k : Nat) :
    leValue (bytes ++ List.replicate k 0) = leValue bytes := by
  induction bytes with
  | nil =>
      induction k with
      | zero => rfl
      | succ k ih =>
          show (0 : UInt8).toNat + 256 * leValue ([] ++ List.replicate k 0) = 0
          rw [ih]
          rfl
  | cons b bytes ih =>
      show b.toNat + 256 * leValue (bytes ++ List.replicate k 0) = b.toNat + 256 * leValue bytes
      rw [ih]

/-- The bytes of a word made of at most four bytes are these, filled up
with zeros. -/
theorem leBytes_word {bytes : List UInt8} (h : bytes.length ≤ 4) :
    leBytes 4 (UInt32.ofNat (leValue bytes)).toNat
      = bytes ++ List.replicate (4 - bytes.length) 0 := by
  have hlength : (bytes ++ List.replicate (4 - bytes.length) 0).length = 4 := by
    rw [List.length_append, List.length_replicate]
    omega
  have hbound := leValue_lt (bytes ++ List.replicate (4 - bytes.length) 0)
  rw [hlength] at hbound
  -- filled up to four bytes, the number is still that of `bytes`
  have hback := leBytes_leValue (bytes ++ List.replicate (4 - bytes.length) 0)
  rw [hlength] at hback
  rw [leValue_append_zeros] at hbound hback
  rw [UInt32.toNat_ofNat', Nat.mod_eq_of_lt (by omega), hback]

/-- Packing appends at most three zero bytes, and changes none. -/
theorem wordBytes_packWords (bytes : List UInt8) :
    ∃ pad ≤ 3, wordBytes (packWords bytes) = bytes ++ List.replicate pad 0 := by
  -- the last word, when the bytes do not fill it
  have hshort : ∀ short : List UInt8, short ≠ [] → short.length ≤ 3 →
      packWords short = [UInt32.ofNat (leValue short)] →
      ∃ pad ≤ 3, wordBytes (packWords short) = short ++ List.replicate pad 0 := by
    intro short hne hlt hpack
    have hpos := List.length_pos_of_ne_nil hne
    refine ⟨4 - short.length, by omega, ?_⟩
    rw [hpack, wordBytes, List.flatMap_singleton, leBytes_word (by omega)]
  match bytes with
  | [] => exact ⟨0, by omega, rfl⟩
  | [a] => exact hshort [a] (by simp) (by simp) rfl
  | [a, b] => exact hshort [a, b] (by simp) (by simp) rfl
  | [a, b, c] => exact hshort [a, b, c] (by simp) (by simp) rfl
  | a :: b :: c :: d :: bytes =>
      obtain ⟨pad, hpad, hbytes⟩ := wordBytes_packWords bytes
      refine ⟨pad, hpad, ?_⟩
      have hword := leBytes_word (show [a, b, c, d].length ≤ 4 by simp)
      show leBytes 4 (UInt32.ofNat (leValue [a, b, c, d])).toNat ++ wordBytes (packWords bytes)
        = [a, b, c, d] ++ (bytes ++ List.replicate pad 0)
      rw [hword, hbytes]
      rfl

end PokerReco.Library
