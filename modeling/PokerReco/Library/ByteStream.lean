/-
  PokerReco.Library.ByteStream
  ────────────────────────────
  **READING A FILE AS A STREAM.**

  A stream is a file with a place in it and the two flags of an input stream:
  `eof` after it has come to the end, `fail` after an operation that got less
  than it wanted.  With a flag set nothing more is read.

      StreamReader E α   a reader: it may throw an `E`, and moves the stream on
      Ready s tail       no flag is set, and `tail` is what is still to be read
      Before s tail      the same, but `eof` may be set when `tail` is empty
      Stuck s            at the end with `fail` set: nothing is read any more

  A reader of a format is followed piece by piece: `bind_ok` from one piece to
  the next, `read_ready` and `ignore_before` for the pieces themselves.
-/
import Mathlib.Data.List.Basic

namespace PokerReco.Library

/-! ## §1. Streams. -/

/-- An input stream on a file: its bytes, the place of the next one and the two
flags that an operation can set. -/
structure InputStream where
  bytes : List UInt8
  pos : Nat
  eof : Bool
  fail : Bool
  deriving DecidableEq, Repr

namespace InputStream

/-- The stream of a file that has just been opened: at its start, without a flag. -/
def ofBytes (bytes : List UInt8) : InputStream := ⟨bytes, 0, false, false⟩

/-- `good()`: neither flag is set.  Only then does an operation read anything. -/
def good (s : InputStream) : Bool := !s.eof && !s.fail

/-- What is still to be read: the bytes from the place of the stream on. -/
def rest (s : InputStream) : List UInt8 := s.bytes.drop s.pos

/-- Read `n` bytes, or those that there are; with fewer than `n` both flags are
set. -/
def read (s : InputStream) (n : Nat) : List UInt8 × InputStream :=
  if s.good then
    let got := s.rest.take n
    let short := decide (got.length < n)
    (got, { s with pos := s.pos + got.length, eof := short, fail := short })
  else ([], { s with fail := true })

/-- Skip `n` bytes, or those that there are.  A library may look for the byte
behind them (`looks`), and then sets `eof` when there is none. -/
def ignore (looks : Bool) (s : InputStream) (n : Nat) : InputStream :=
  if s.good then
    let got := (s.rest.take n).length
    { s with
      pos := s.pos + got
      eof := decide (got < n) || (looks && decide (0 < n) && decide (s.rest.length = n)) }
  else { s with fail := true }

/-- Go to a place of the file; not with `fail` set. -/
def seekg (s : InputStream) (pos : Nat) : InputStream :=
  if s.fail then { s with eof := false } else { s with pos := pos, eof := false }

/-- `clear()`: both flags are taken away, and the place stays as it is. -/
def clear (s : InputStream) : InputStream := { s with eof := false, fail := false }

/-- The place in the file, or none when a flag is set; to ask is an operation too,
and can set a flag itself. -/
def tellg (s : InputStream) : Option Nat × InputStream :=
  if s.good then (some s.pos, s) else (none, { s with fail := true })

/-! ## §2. What is still to be read. -/

/-- No flag is set, and `tail` is still to be read: what a reader wants before it
reads a piece. -/
structure Ready (s : InputStream) (tail : List UInt8) : Prop where
  eof : s.eof = false
  fail : s.fail = false
  rest : s.rest = tail

/-- `tail` is still to be read, without a failure; `eof` may be set when that is
nothing. -/
structure Before (s : InputStream) (tail : List UInt8) : Prop where
  eof : s.eof = true → tail = []
  fail : s.fail = false
  rest : s.rest = tail

variable {s : InputStream} {piece tail : List UInt8}

/-- A stream that is ready passes the test that a reading loop makes. -/
theorem Ready.good (h : Ready s tail) : s.good = true := by
  unfold InputStream.good
  rw [h.eof, h.fail]
  rfl

/-- To be ready is the stronger of the two: the place is known and no flag is set. -/
theorem Ready.before (h : Ready s tail) : Before s tail where
  eof he := by
    rw [h.eof] at he
    cases he
  fail := h.fail
  rest := h.rest

/-- With something still to be read, `eof` is not set, and the stream is ready. -/
theorem Before.ready (h : Before s tail) (hne : tail ≠ []) : Ready s tail where
  eof := by
    cases he : s.eof with
    | false => rfl
    | true => exact absurd (h.eof he) hne
  fail := h.fail
  rest := h.rest

/-- A file that has just been opened is ready with all its bytes. -/
theorem ofBytes_ready (bytes : List UInt8) : Ready (ofBytes bytes) bytes := ⟨rfl, rfl, rfl⟩

/-- What is still to be read is not more than the file: it bounds the turns of a
reading loop. -/
theorem length_rest_le (s : InputStream) : s.rest.length ≤ s.bytes.length := by
  unfold rest
  rw [List.length_drop]
  omega

/-- The stream with its place `n` bytes on, and no other change: what reading a
piece does to it. -/
def advance (s : InputStream) (n : Nat) : InputStream := { s with pos := s.pos + n }

/-- Two pieces read one after the other are as far as both together. -/
theorem advance_advance (s : InputStream) (m n : Nat) :
    (s.advance m).advance n = s.advance (m + n) := by
  unfold advance
  rw [Nat.add_assoc]

/-- Behind a piece that has been read the stream is ready with what follows it. -/
theorem Ready.advance (h : Ready s (piece ++ tail)) : Ready (s.advance piece.length) tail where
  eof := h.eof
  fail := h.fail
  rest := by
    show s.bytes.drop (s.pos + piece.length) = tail
    have hrest : s.bytes.drop s.pos = piece ++ tail := h.rest
    rw [← List.drop_drop, hrest, List.drop_left]

/-- A piece that is there is read in full, and the stream stands behind it. -/
theorem read_ready (h : Ready s (piece ++ tail)) :
    s.read piece.length = (piece, s.advance piece.length) := by
  unfold read
  rw [h.good, if_pos rfl, h.rest, List.take_left]
  simp [InputStream.advance, h.eof, h.fail]

/-- A piece that is there is skipped in full.  Whether the library looks at the
byte behind it does not change the place. -/
theorem ignore_before (looks : Bool) (h : Ready s (piece ++ tail)) :
    Before (s.ignore looks piece.length) tail ∧ (s.ignore looks piece.length).bytes = s.bytes
      ∧ (s.ignore looks piece.length).pos = s.pos + piece.length := by
  unfold ignore
  rw [h.good, if_pos rfl, h.rest, List.take_left]
  refine ⟨⟨?_, h.fail, h.advance.rest⟩, rfl, rfl⟩
  intro heof
  -- the piece is there in full, so `eof` comes from looking at what follows it
  have hlook : (piece ++ tail).length = piece.length := by simp at heof; simp [heof.2]
  simpa using hlook

/-! ### Files that end too early. -/

/-- `cut` is the front of `bytes`, and not all of it: what is left of a file that
was cut off. -/
def Cut (cut bytes : List UInt8) : Prop := ∃ lost, lost ≠ [] ∧ cut ++ lost = bytes

/-- What is left of a cut is shorter than what there was. -/
theorem Cut.length_lt {cut bytes : List UInt8} (h : Cut cut bytes) : cut.length < bytes.length := by
  obtain ⟨lost, hne, rfl⟩ := h
  have hpos := List.length_pos_of_ne_nil hne
  rw [List.length_append]
  omega

/-- Of two pieces the first is cut, or it is there in full and the second is cut. -/
theorem Cut.append {cut front back : List UInt8} (h : Cut cut (front ++ back)) :
    Cut cut front ∨ ∃ cut', cut = front ++ cut' ∧ Cut cut' back := by
  obtain ⟨lost, hne, happend⟩ := h
  cases List.append_eq_append_iff.mp happend with
  | inl hfront =>
      obtain ⟨rest, hfront, hlost⟩ := hfront
      by_cases hrest : rest = []
      · refine Or.inr ⟨[], by rw [hfront, hrest, List.append_nil, List.append_nil], lost, hne, ?_⟩
        rw [hlost, hrest]
        rfl
      · exact Or.inl ⟨rest, hrest, hfront.symm⟩
  | inr hback =>
      obtain ⟨rest, hcut, hback⟩ := hback
      exact Or.inr ⟨rest, hcut, lost, hne, hback.symm⟩

/-- An operation has failed at the end of the file: the flags are set, and nothing
more will be read. -/
structure Stuck (s : InputStream) : Prop where
  fail : s.fail = true
  rest : s.rest = []

/-- A stuck stream fails the test of a reading loop. -/
theorem Stuck.good (h : Stuck s) : s.good = false := by
  unfold InputStream.good
  rw [h.fail, Bool.not_true, Bool.and_false]

/-- Fewer bytes than wanted: those that there are have been read, and the stream
is stuck. -/
theorem read_short (h : Before s piece) {n : Nat} (hn : piece.length < n) :
    ∃ s', s.read n = (piece, s') ∧ Stuck s' ∧ s'.bytes = s.bytes := by
  unfold read
  cases hgood : s.good with
  | false =>
      -- `eof` is set, and so nothing is left
      have heof : s.eof = true := by
        unfold good at hgood
        rw [h.fail] at hgood
        simpa using hgood
      rw [if_neg Bool.false_ne_true, h.eof heof]
      exact ⟨_, rfl, ⟨rfl, h.rest.trans (h.eof heof)⟩, rfl⟩
  | true =>
      have htake : s.rest.take n = piece := by
        rw [h.rest]
        exact List.take_of_length_le (Nat.le_of_lt hn)
      rw [if_pos rfl, htake]
      refine ⟨_, rfl, ⟨by simpa using hn, ?_⟩, rfl⟩
      have hrest := h.rest
      unfold rest at hrest
      show s.bytes.drop (s.pos + piece.length) = []
      rw [← List.drop_drop, hrest, List.drop_length]

/-- From a stuck stream no byte is read, and it stays stuck. -/
theorem read_stuck (h : Stuck s) (n : Nat) :
    ∃ s', s.read n = ([], s') ∧ Stuck s' ∧ s'.bytes = s.bytes := by
  unfold read
  rw [h.good, if_neg Bool.false_ne_true]
  exact ⟨_, rfl, ⟨rfl, h.rest⟩, rfl⟩

/-- A stuck stream stays stuck when bytes are to be skipped. -/
theorem ignore_stuck (looks : Bool) (h : Stuck s) (n : Nat) :
    Stuck (s.ignore looks n) ∧ (s.ignore looks n).bytes = s.bytes := by
  unfold ignore
  rw [h.good, if_neg Bool.false_ne_true]
  exact ⟨⟨rfl, h.rest⟩, rfl⟩

/-- Fewer bytes than are to be skipped: that is no failure, and the stream is at
its end. -/
theorem ignore_short (looks : Bool) (h : Ready s piece) {n : Nat} (hn : piece.length < n) :
    Before (s.ignore looks n) [] ∧ (s.ignore looks n).bytes = s.bytes := by
  have htake : s.rest.take n = piece := by
    rw [h.rest]
    exact List.take_of_length_le (Nat.le_of_lt hn)
  unfold ignore
  rw [h.good, if_pos rfl, htake]
  refine ⟨⟨fun _ => rfl, h.fail, ?_⟩, rfl⟩
  have hrest := h.rest
  unfold rest at hrest
  show s.bytes.drop (s.pos + piece.length) = []
  rw [← List.drop_drop, hrest, List.drop_length]

/-- To ask for the place either answers it and changes nothing, or finds the end
of the file and leaves the stream stuck. -/
theorem tellg_before (h : Before s piece) :
    (s.tellg = (some s.pos, s) ∧ s.good = true)
      ∨ ∃ s', s.tellg = (none, s') ∧ Stuck s' ∧ s'.bytes = s.bytes := by
  unfold tellg
  cases hgood : s.good with
  | true => exact Or.inl ⟨rfl, rfl⟩
  | false =>
      right
      have heof : s.eof = true := by
        unfold good at hgood
        rw [h.fail] at hgood
        simpa using hgood
      exact ⟨_, rfl, ⟨rfl, h.rest.trans (h.eof heof)⟩, rfl⟩

/-! ### Going to a place. -/

/-- A place found again is ready with what is behind it, whatever was read
meanwhile, as long as nothing has failed. -/
theorem seekg_clear_ready (hfail : s.fail = false) (pos : Nat) :
    Ready (s.seekg pos).clear (s.bytes.drop pos) := by
  unfold seekg
  rw [hfail, if_neg Bool.false_ne_true]
  exact ⟨rfl, rfl, rfl⟩

/-- To find a place again does not change the file. -/
theorem bytes_seekg_clear (s : InputStream) (pos : Nat) : (s.seekg pos).clear.bytes = s.bytes := by
  unfold seekg
  split
  · rfl
  · rfl

/-- With `fail` set the place is not found again: it stays where it is, at the
end. -/
theorem seekg_clear_stuck (h : Stuck s) (pos : Nat) : Before (s.seekg pos).clear [] := by
  unfold seekg
  rw [h.fail, if_pos rfl]
  exact ⟨fun _ => rfl, rfl, h.rest⟩

end InputStream

/-! ## §3. Readers. -/

/-- A reader: it takes the stream on, and answers with a value or with an error. -/
def StreamReader (E α : Type) : Type := InputStream → Except E α × InputStream

namespace StreamReader

variable {E α β : Type}

instance : Monad (StreamReader E) where
  pure a s := (.ok a, s)
  bind x f s :=
    match x s with
    | (.ok a, s') => f a s'
    | (.error e, s') => (.error e, s')

/-- Stop with an error; the stream stays where the error was found. -/
def throw (e : E) : StreamReader E α := fun s => (.error e, s)

/-- An operation of the stream as a reader that cannot fail by itself. -/
def lift (f : InputStream → α × InputStream) : StreamReader E α := fun s => (.ok (f s).1, (f s).2)

/-- An operation that only moves the stream, without a value. -/
def move (f : InputStream → InputStream) : StreamReader E Unit := fun s => (.ok (), f s)

/-- Whether the stream has not failed. -/
def holds : StreamReader E Bool := fun s => (.ok !s.fail, s)

/-- Behind a reader with a value the next one goes on from where it stopped. -/
theorem bind_ok {x : StreamReader E α} {f : α → StreamReader E β} {s s' : InputStream} {a : α}
    (h : x s = (.ok a, s')) : (x >>= f) s = f a s' := by
  show (match x s with | (.ok a, s') => f a s' | (.error e, s') => (.error e, s')) = _
  rw [h]

/-- Behind an error nothing is read any more. -/
theorem bind_error {x : StreamReader E α} {f : α → StreamReader E β} {s s' : InputStream} {e : E}
    (h : x s = (.error e, s')) : (x >>= f) s = (.error e, s') := by
  show (match x s with | (.ok a, s') => f a s' | (.error e, s') => (.error e, s')) = _
  rw [h]

/-- An operation of the stream gives the reader its value and its place. -/
theorem lift_of {f : InputStream → α × InputStream} {s s' : InputStream} {a : α}
    (h : f s = (a, s')) : (lift f : StreamReader E α) s = (.ok a, s') := by
  show (Except.ok (f s).1, (f s).2) = _
  rw [h]

/-- A move is the operation, and there is nothing to answer. -/
theorem move_apply (f : InputStream → InputStream) (s : InputStream) :
    (move f : StreamReader E Unit) s = (.ok (), f s) := rfl

/-- The question whether the stream has failed does not move it. -/
theorem holds_of {s : InputStream} (h : s.fail = false) :
    (holds : StreamReader E Bool) s = (.ok true, s) := by
  unfold holds
  rw [h]
  rfl

/-- A piece that is there is read, and the reader stands behind it. -/
theorem lift_read {s : InputStream} {piece tail : List UInt8} {n : Nat} (hn : piece.length = n)
    (h : s.Ready (piece ++ tail)) :
    (lift (·.read n) : StreamReader E (List UInt8)) s = (.ok piece, s.advance n) := by
  subst hn
  exact lift_of (InputStream.read_ready h)

end StreamReader

end PokerReco.Library
