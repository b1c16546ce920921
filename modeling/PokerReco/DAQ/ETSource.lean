/-
  PokerReco.DAQ.ETSource
  ──────────────────────
  **EVENTS FROM THE NETWORK** (`DAQ/JEventSourceEVIODAQ.cc`, `GetEvent`).

  An event of the ET system is a buffer of words: a header of eight words, the
  first of them the number of words behind it, and a stack of events, each a
  length word and as many words behind it.  The branch copies the buffer, word
  by word with exchanged bytes when its magic word says so.  Every length is a
  number from the network, and all sums are made in 32 bits.

      copy_safe_iff   the copy stays inside the buffer and ends exactly when no
                      sum that is tested wraps around
-/
import Mathlib.Algebra.Group.Nat.Defs
import Mathlib.Data.List.Basic
import Mathlib.Data.Set.Basic
import PokerReco.Library.Iteration

namespace PokerReco.DAQ

open PokerReco.Library

/-! ## §1. The copy. -/

/-- The words of a memory, from an address on. -/
abbrev Words := Nat → UInt32

/-- What the branch takes from the EVIO library, which is not part of the
repository: the macro `EVIO_SWAP32`, and `swap_int32_t`, which exchanges the
bytes of `length` words from the word `first` of `data` on, into the same words
of `dest`.  `touched` are the words that it reads and writes.

The two laws are what the library documents: each of the `length` words goes
through the macro, and no other word is read or written. -/
structure EvioLibrary where
  EVIO_SWAP32 : UInt32 → UInt32
  swap_int32_t : (data : Words) → (first : Nat) → (length : UInt32) → (dest : Words) → Words
  touched : (first : Nat) → (length : UInt32) → Set Nat
  swap_int32_t_eq : ∀ data first length dest i, swap_int32_t data first length dest i
    = if first ≤ i ∧ i < first + length.toNat then EVIO_SWAP32 (data i) else dest i
  mem_touched : ∀ first length i,
    i ∈ touched first length ↔ first ≤ i ∧ i < first + length.toNat

/-- What has been copied so far: the contents of `buff`, the calls that copied
it, each by its first word and its number of words, and the words that were
read from `et_buff` and written in `buff`. -/
structure Copy where
  buff : Words
  stretches : List (Nat × Nat)
  touched : Set Nat

/-- `memcpy` of whole words, as many as the number of bytes gives. -/
def memcpy (dest src : Words) (bytes : UInt32) : Words :=
  fun i => if i < bytes.toNat / 4 then src i else dest i

/-- `swap_needed`, by the magic word; `none` when there is no magic word. -/
def swapNeeded (magic : UInt32) : Option Bool :=
  if magic = 0xc0da0100 then some false
  else if magic = 0x0001dac0 then some true
  else none

/-- `len`: the first word of the buffer, with its bytes exchanged where that
is needed. -/
def bufferLen (E : EvioLibrary) (et_buff : Words) (swap_needed : Bool) : UInt32 :=
  if swap_needed then E.EVIO_SWAP32 (et_buff 0) else et_buff 0

/-- `bufsize_bytes`: +1 is for the buffer length word. -/
def bufsizeBytes (len : UInt32) : UInt32 := (len + 1) * 4

/-- The variables of the loop over the events in the stack. -/
structure SwapLoop where
  idx : UInt32
  Nevents_in_stack : Nat
  copy : Copy

/-- The body of the loop: an event is swapped when it lies in the buffer; `.inr`
when the loop is left. -/
def swapTurn (E : EvioLibrary) (et_buff : Words) (len : UInt32) (s : SwapLoop) :
    SwapLoop ⊕ SwapLoop :=
  if s.idx < len then
    let mylen := E.EVIO_SWAP32 (et_buff s.idx.toNat)
    -- bad word count
    if s.idx + mylen > len then .inr s
    else .inl
      { idx := s.idx + (mylen + 1)
        Nevents_in_stack := s.Nevents_in_stack + 1
        copy :=
          { buff := E.swap_int32_t et_buff s.idx.toNat (mylen + 1) s.copy.buff
            stretches := s.copy.stretches ++ [(s.idx.toNat, (mylen + 1).toNat)]
            touched := s.copy.touched ∪ E.touched s.idx.toNat (mylen + 1) } }
  else .inr s

/-- The variables before the loop: the header of the buffer is swapped already. -/
def swapStart (E : EvioLibrary) (et_buff buff : Words) : SwapLoop where
  idx := 8
  Nevents_in_stack := 0
  copy :=
    { buff := E.swap_int32_t et_buff 0 8 buff
      stretches := [(0, 8)]
      touched := E.touched 0 8 }

/-- How the branch ends, up to the creation of the event tree. -/
inductive Fetched where
  | noMagic
  | tooLarge
  | copied (copy : Copy)

/-- The branch ends with `o`; `buff` is what `new uint32_t[BUFFER_SIZE]` held. -/
def Fetch (E : EvioLibrary) (BUFFER_SIZE : UInt32) (et_buff buff : Words)
    (o : Fetched) : Prop :=
  match swapNeeded (et_buff 7) with
  | none => o = .noMagic
  | some swap_needed =>
      let len := bufferLen E et_buff swap_needed
      if bufsizeBytes len > BUFFER_SIZE then o = .tooLarge
      else if swap_needed then
        ∃ s, Returns (swapTurn E et_buff len) (swapStart E et_buff buff) s
          ∧ o = .copied s.copy
      else
        o = .copied
          { buff := memcpy buff et_buff (bufsizeBytes len)
            stretches := [(0, (bufsizeBytes len).toNat / 4)]
            touched := { i | i < (bufsizeBytes len).toNat / 4 } }

/-! ## §2. What the copy is to keep. -/

/-- A buffer that passes the test of the magic word and the size guard. -/
structure EtEvent (E : EvioLibrary) (BUFFER_SIZE : UInt32) where
  et_buff : Words
  swap_needed : Bool
  magic : swapNeeded (et_buff 7) = some swap_needed
  guard : ¬ bufsizeBytes (bufferLen E et_buff swap_needed) > BUFFER_SIZE

/-- From the word `first` on, up to the word `last`, stand events of these
lengths. -/
def StackFrom (E : EvioLibrary) (et_buff : Words) : Nat → List Nat → Nat → Prop
  | first, [], last => first = last
  | first, mylen :: lens, last =>
      (E.EVIO_SWAP32 (et_buff first)).toNat = mylen
        ∧ StackFrom E et_buff (first + mylen + 1) lens last

/-- The stretches of events of these lengths. -/
def spans : Nat → List Nat → List (Nat × Nat)
  | _, [] => []
  | first, mylen :: lens => (first, mylen + 1) :: spans (first + mylen + 1) lens

namespace EtEvent

variable {E : EvioLibrary} {BUFFER_SIZE : UInt32}
  (e : EtEvent E BUFFER_SIZE)

/-- The length word of the buffer, as the branch uses it. -/
def len : UInt32 := bufferLen E e.et_buff e.swap_needed

/-- The length of the event at `idx`, as its first word says. -/
def mylen (idx : Nat) : Nat := (E.EVIO_SWAP32 (e.et_buff idx)).toNat

/-- **A safe copy**: the length is below `BUFFER_SIZE`, the branch ends, no
word behind `len` is touched, and a stack of events that fills the buffer is
swapped, every event once. -/
structure CopySafe (buff : Words) : Prop where
  len_lt : e.len < BUFFER_SIZE
  ends : ∃ copy, Fetch E BUFFER_SIZE e.et_buff buff (.copied copy)
  inside : ∀ copy, Fetch E BUFFER_SIZE e.et_buff buff (.copied copy) →
    ∀ i ∈ copy.touched, i ≤ e.len.toNat
  once : e.swap_needed = true →
    ∀ lens, StackFrom E e.et_buff 8 lens (e.len.toNat + 1) →
      ∀ copy, Fetch E BUFFER_SIZE e.et_buff buff (.copied copy) →
        copy.stretches = (0, 8) :: spans 8 lens
          ∧ ∀ i ≤ e.len.toNat, copy.buff i = E.EVIO_SWAP32 (e.et_buff i)

/-- The words at which an event begins, counted without any wrap around. -/
inductive Begins : Nat → Prop where
  | first : Begins 8
  | next {idx : Nat} : Begins idx → idx < e.len.toNat → idx + e.mylen idx ≤ e.len.toNat →
      Begins (idx + e.mylen idx + 1)

/-- **Lengths that no sum wraps around**: that of the buffer, which holds the
header at least, and those of the events; and no event is a lone length word
at the very end. -/
structure Plausible : Prop where
  size : e.len.toNat < 2 ^ 30 - 1 ∨ e.len < BUFFER_SIZE
  header : e.swap_needed = true → 7 ≤ e.len.toNat
  sums : e.swap_needed = true → ∀ idx, e.Begins idx → idx < e.len.toNat →
    idx + e.mylen idx < 2 ^ 32 ∨ e.len.toNat < idx + e.mylen idx - 2 ^ 32
  last : e.swap_needed = true → e.Begins e.len.toNat → e.mylen e.len.toNat ≠ 0

/-! ## §3. One turn of the loop. -/

/-- What a turn makes of `s`, when it swaps an event: its words are copied, and
the index goes on behind it. -/
def swapped (s : SwapLoop) : SwapLoop where
  idx := s.idx + (E.EVIO_SWAP32 (e.et_buff s.idx.toNat) + 1)
  Nevents_in_stack := s.Nevents_in_stack + 1
  copy :=
    { buff := E.swap_int32_t e.et_buff s.idx.toNat
        (E.EVIO_SWAP32 (e.et_buff s.idx.toNat) + 1) s.copy.buff
      stretches := s.copy.stretches
        ++ [(s.idx.toNat, (E.EVIO_SWAP32 (e.et_buff s.idx.toNat) + 1).toNat)]
      touched := s.copy.touched
        ∪ E.touched s.idx.toNat (E.EVIO_SWAP32 (e.et_buff s.idx.toNat) + 1) }

/-- The turn of the loop on the words of this event. -/
abbrev turn : SwapLoop → SwapLoop ⊕ SwapLoop := swapTurn E e.et_buff e.len

/-- The sum that is tested against `len`, as 32 bits hold it. -/
def testedSum (s : SwapLoop) : Nat := (s.idx.toNat + e.mylen s.idx.toNat) % 2 ^ 32

variable {e} {s s' : SwapLoop}

/-- At the end of the buffer the loop is left. -/
theorem turn_stop (h : e.len.toNat ≤ s.idx.toNat) : e.turn s = .inr s := by
  unfold turn swapTurn
  rw [if_neg (fun hlt => by rw [UInt32.lt_iff_toNat_lt] at hlt; omega)]

/-- Where the tested sum is beyond the end of the buffer the loop is broken off. -/
theorem turn_bad (h : e.len.toNat < e.testedSum s) : e.turn s = .inr s := by
  unfold turn swapTurn
  dsimp only
  split
  · rw [if_pos]
    show e.len < _
    rw [UInt32.lt_iff_toNat_lt, UInt32.toNat_add]
    exact h
  · rfl

/-- Where the tested sum lies in the buffer the event is swapped. -/
theorem turn_swap (hidx : s.idx.toNat < e.len.toNat) (h : e.testedSum s ≤ e.len.toNat) :
    e.turn s = .inl (e.swapped s) := by
  unfold turn swapTurn
  dsimp only
  rw [if_pos (UInt32.lt_iff_toNat_lt.mpr hidx), if_neg]
  · rfl
  · show ¬ e.len < _
    rw [UInt32.lt_iff_toNat_lt, UInt32.toNat_add]
    exact Nat.not_lt.mpr h

/-- A turn that goes on has swapped an event, with the tested sum in the buffer. -/
theorem turn_cases (h : e.turn s = .inl s') :
    s.idx.toNat < e.len.toNat ∧ e.testedSum s ≤ e.len.toNat ∧ s' = e.swapped s := by
  by_cases hidx : s.idx.toNat < e.len.toNat
  · by_cases hsum : e.testedSum s ≤ e.len.toNat
    · rw [turn_swap hidx hsum] at h
      exact ⟨hidx, hsum, (Sum.inl.inj h).symm⟩
    · rw [turn_bad (Nat.lt_of_not_le hsum)] at h
      cases h
  · rw [turn_stop (Nat.le_of_not_lt hidx)] at h
    cases h

/-- Where the loop is left, it is left with the state it is in. -/
theorem turn_break {r : SwapLoop} (h : e.turn s = .inr r) : r = s := by
  by_cases hidx : s.idx.toNat < e.len.toNat
  · by_cases hsum : e.testedSum s ≤ e.len.toNat
    · rw [turn_swap hidx hsum] at h
      cases h
    · rw [turn_bad (Nat.lt_of_not_le hsum)] at h
      exact (Sum.inr.inj h).symm
  · rw [turn_stop (Nat.le_of_not_lt hidx)] at h
    exact (Sum.inr.inj h).symm

/-- Without a wrap around the index goes to the word behind the event that
was swapped. -/
theorem swapped_idx (h : s.idx.toNat + e.mylen s.idx.toNat + 1 < 2 ^ 32) :
    (e.swapped s).idx.toNat = s.idx.toNat + e.mylen s.idx.toNat + 1 := by
  have hmylen : (E.EVIO_SWAP32 (e.et_buff s.idx.toNat)).toNat = e.mylen s.idx.toNat := rfl
  show (s.idx + (E.EVIO_SWAP32 (e.et_buff s.idx.toNat) + 1)).toNat = _
  rw [UInt32.toNat_add, UInt32.toNat_add, hmylen, UInt32.toNat_one]
  omega

/-- The number of words swapped is the length of the event and its length word,
when that sum does not wrap. -/
theorem swapped_length (h : e.mylen s.idx.toNat + 1 < 2 ^ 32) :
    (E.EVIO_SWAP32 (e.et_buff s.idx.toNat) + 1).toNat = e.mylen s.idx.toNat + 1 := by
  have hmylen : (E.EVIO_SWAP32 (e.et_buff s.idx.toNat)).toNat = e.mylen s.idx.toNat := rfl
  rw [UInt32.toNat_add, hmylen, UInt32.toNat_one, Nat.mod_eq_of_lt h]

/-- A turn adds the stretch of its event to those swapped before. -/
theorem swapped_stretches (h : e.mylen s.idx.toNat + 1 < 2 ^ 32) :
    (e.swapped s).copy.stretches
      = s.copy.stretches ++ [(s.idx.toNat, e.mylen s.idx.toNat + 1)] := by
  show s.copy.stretches ++ [(s.idx.toNat, _)] = _
  rw [swapped_length h]

/-- The words that a turn touches besides those before: the event with its
length word. -/
theorem mem_touched_swapped (h : e.mylen s.idx.toNat + 1 < 2 ^ 32) (i : Nat) :
    i ∈ (e.swapped s).copy.touched ↔ i ∈ s.copy.touched
      ∨ s.idx.toNat ≤ i ∧ i < s.idx.toNat + (e.mylen s.idx.toNat + 1) := by
  show i ∈ s.copy.touched ∪ E.touched _ _ ↔ _
  rw [Set.mem_union, E.mem_touched, swapped_length h]

/-- A length word is a word of 32 bits. -/
theorem mylen_lt (idx : Nat) : e.mylen idx < 2 ^ 32 := UInt32.toNat_lt _

/-! ## §4. Where the branch ends. -/

/-- A buffer whose bytes are in order is copied as a whole, by the number of bytes
that 32 bits hold. -/
theorem fetch_without_swap (hswap : e.swap_needed = false) (buff : Words) (o : Fetched) :
    Fetch E BUFFER_SIZE e.et_buff buff o
      ↔ o = .copied
          { buff := memcpy buff e.et_buff (bufsizeBytes e.len)
            stretches := [(0, (bufsizeBytes e.len).toNat / 4)]
            touched := { i | i < (bufsizeBytes e.len).toNat / 4 } } := by
  have hguard := e.guard
  unfold Fetch
  rw [e.magic]
  dsimp only
  rw [if_neg hguard, if_neg (by rw [hswap]; exact Bool.false_ne_true)]
  rfl

/-- A buffer with exchanged bytes is copied by the loop, and the branch ends
exactly when the loop does. -/
theorem fetch_with_swap (hswap : e.swap_needed = true) (buff : Words) (o : Fetched) :
    Fetch E BUFFER_SIZE e.et_buff buff o
      ↔ ∃ s, Returns e.turn (swapStart E e.et_buff buff) s ∧ o = .copied s.copy := by
  have hguard := e.guard
  unfold Fetch
  rw [e.magic]
  dsimp only
  rw [if_neg hguard, if_pos hswap]
  rfl

/-! ## §5. The events of the stack. -/

/-- A stack of events does not end before it begins. -/
theorem stackFrom_le {first last : Nat} {lens : List Nat}
    (h : StackFrom E e.et_buff first lens last) : first ≤ last := by
  induction lens generalizing first with
  | nil => exact Nat.le_of_eq h
  | cons mylen lens ih =>
      have := ih h.2
      omega

/-- A stack with one more event behind it is a stack. -/
theorem stackFrom_concat {first last : Nat} {lens : List Nat}
    (h : StackFrom E e.et_buff first lens last) :
    StackFrom E e.et_buff first (lens ++ [e.mylen last]) (last + e.mylen last + 1)
      ∧ spans first (lens ++ [e.mylen last]) = spans first lens ++ [(last, e.mylen last + 1)] := by
  induction lens generalizing first with
  | nil =>
      obtain rfl : first = last := h
      exact ⟨⟨rfl, rfl⟩, rfl⟩
  | cons mylen lens ih =>
      obtain ⟨hmylen, hrest⟩ := h
      obtain ⟨hstack, hspans⟩ := ih hrest
      refine ⟨⟨hmylen, hstack⟩, ?_⟩
      show (first, mylen + 1) :: spans _ (lens ++ _) = _
      rw [hspans]
      rfl

/-- Events begin inside the buffer, or at its end. -/
theorem Begins.le {idx : Nat} (h : e.Begins idx) (hheader : 7 ≤ e.len.toNat) :
    idx ≤ e.len.toNat + 1 := by
  cases h with
  | first => omega
  | next _ _ hsum => omega

/-- **The loop gets to every word at which an event begins**, and then has
swapped the events in front of it. -/
theorem Begins.reached {idx : Nat} (h : e.Begins idx) (hlen : e.len.toNat + 1 < 2 ^ 32)
    (buff : Words) :
    ∃ s lens, s.idx.toNat = idx ∧ StackFrom E e.et_buff 8 lens idx
      ∧ s.copy.stretches = (0, 8) :: spans 8 lens
      ∧ ∀ r, Returns e.turn (swapStart E e.et_buff buff) r ↔ Returns e.turn s r := by
  induction h with
  | first => exact ⟨_, [], rfl, rfl, rfl, fun r => Iff.rfl⟩
  | next hbegins hidx hsum ih =>
      obtain ⟨s, lens, rfl, hstack, hstretches, hreturns⟩ := ih
      obtain ⟨hstack', hspans⟩ := stackFrom_concat hstack
      have hturn : e.turn s = .inl (e.swapped s) := by
        refine turn_swap hidx ?_
        unfold testedSum
        omega
      refine ⟨e.swapped s, lens ++ [e.mylen s.idx.toNat], ?_, hstack', ?_, fun r => ?_⟩
      · exact swapped_idx (by omega)
      · rw [swapped_stretches (by omega), hspans, hstretches]
        rfl
      · rw [hreturns r]
        exact returns_iff_of_turn hturn r

/-- What the loop has touched stays touched until it is left. -/
theorem returns_touched {r : SwapLoop} {i : Nat} (h : Returns e.turn s r)
    (hs : i ∈ s.copy.touched) : i ∈ r.copy.touched := by
  refine invariant_of_returns (I := fun s => i ∈ s.copy.touched)
    (Q := fun r => i ∈ r.copy.touched) (fun s s' hs hturn => ?_)
    (fun s r hs hturn => ?_) hs h
  · obtain ⟨-, -, rfl⟩ := turn_cases hturn
    exact Set.mem_union_left _ hs
  · rw [turn_break hturn]
    exact hs

/-! ## §6. A safe copy has plausible lengths. -/

/-- A length word of 2^32 - 1 keeps the loop where it is. -/
theorem not_returns_of_stuck (hidx : s.idx.toNat < e.len.toNat)
    (hmylen : e.mylen s.idx.toNat = 2 ^ 32 - 1) (hpos : 1 ≤ s.idx.toNat) (r : SwapLoop) :
    ¬ Returns e.turn s r := by
  have hlen := e.len.toNat_lt
  refine not_returns_of_stays (I := fun s' => s'.idx = s.idx) (fun s' hs' => ?_) rfl r
  have hturn : e.turn s' = .inl (e.swapped s') := by
    refine turn_swap (by rw [hs']; exact hidx) ?_
    unfold testedSum
    rw [hs', hmylen]
    omega
  refine ⟨e.swapped s', hturn, ?_⟩
  have hzero : E.EVIO_SWAP32 (e.et_buff s'.idx.toNat) + 1 = 0 := by
    apply UInt32.toNat_inj.mp
    have hword : (E.EVIO_SWAP32 (e.et_buff s'.idx.toNat)).toNat = 2 ^ 32 - 1 := by
      rw [hs']
      exact hmylen
    rw [UInt32.toNat_add, hword]
    rfl
  show s'.idx + (E.EVIO_SWAP32 (e.et_buff s'.idx.toNat) + 1) = s.idx
  rw [hzero, hs', UInt32.add_zero]

/-- Events begin behind the header of 8 words. -/
theorem Begins.pos {idx : Nat} (h : e.Begins idx) : 8 ≤ idx := by
  induction h with
  | first => exact Nat.le_refl 8
  | next _ _ _ ih => omega

/-- The number of bytes copied is that of the words and the length word, as 32
bits hold it. -/
theorem bufsizeBytes_toNat (len : UInt32) :
    (bufsizeBytes len).toNat = (len.toNat + 1) * 4 % 2 ^ 32 := by
  unfold bufsizeBytes
  rw [UInt32.toNat_mul, UInt32.toNat_add, UInt32.toNat_one]
  show (len.toNat + 1) % 2 ^ 32 * 4 % 2 ^ 32 = _
  omega

variable {buff : Words}

/-- Where bytes are exchanged, a safe copy is the result of the loop, with what it
has touched and swapped. -/
theorem CopySafe.loop (h : e.CopySafe buff) (hswap : e.swap_needed = true) :
    ∃ r, Returns e.turn (swapStart E e.et_buff buff) r
      ∧ (∀ i ∈ r.copy.touched, i ≤ e.len.toNat)
      ∧ ∀ lens, StackFrom E e.et_buff 8 lens (e.len.toNat + 1) →
        r.copy.stretches = (0, 8) :: spans 8 lens := by
  obtain ⟨copy, hfetch⟩ := h.ends
  obtain ⟨r, hr, hcopy⟩ := (fetch_with_swap hswap buff _).mp hfetch
  injection hcopy with hcopy
  subst hcopy
  exact ⟨r, hr, h.inside _ hfetch, fun lens hlens => (h.once hswap lens hlens _ hfetch).1⟩

/-- A sum that wraps around below `len` sends the loop out of the buffer, or
keeps it where it is. -/
theorem CopySafe.sum (h : e.CopySafe buff) (hswap : e.swap_needed = true)
    {idx : Nat} (hbegins : e.Begins idx) (hidx : idx < e.len.toNat) :
    idx + e.mylen idx < 2 ^ 32 ∨ e.len.toNat < idx + e.mylen idx - 2 ^ 32 := by
  by_contra hnot
  have hwrap : 2 ^ 32 ≤ idx + e.mylen idx ∧ idx + e.mylen idx - 2 ^ 32 ≤ e.len.toNat := by omega
  have hlt := UInt32.lt_iff_toNat_lt.mp h.len_lt
  have hBUFFER := BUFFER_SIZE.toNat_lt
  obtain ⟨r, hr, hinside, -⟩ := h.loop hswap
  obtain ⟨s, lens, rfl, -, -, hreturns⟩ := hbegins.reached (by omega) buff
  have hmylen := e.mylen_lt s.idx.toNat
  have hturn : e.turn s = .inl (e.swapped s) := by
    refine turn_swap hidx ?_
    unfold testedSum
    omega
  by_cases hfull : e.mylen s.idx.toNat = 2 ^ 32 - 1
  · have hpos := hbegins.pos
    exact not_returns_of_stuck hidx hfull (by omega) r ((hreturns r).mp hr)
  · -- the word behind `len` is one of those swapped
    have htouched : e.len.toNat + 1 ∈ r.copy.touched := by
      refine returns_touched ((returns_iff_of_turn hturn r).mp ((hreturns r).mp hr)) ?_
      exact (mem_touched_swapped (by omega) _).mpr (Or.inr (by omega))
    have := hinside _ htouched
    omega

/-- A safe copy needs plausible lengths: each length that is not would send the
copy out of the buffer, or on forever. -/
theorem CopySafe.toPlausible (h : e.CopySafe buff) : e.Plausible where
  size := .inr h.len_lt
  header hswap := by
    obtain ⟨r, hr, hinside, -⟩ := h.loop hswap
    exact hinside 7 (returns_touched hr ((E.mem_touched 0 8 7).mpr (by decide)))
  sums hswap idx hbegins hidx := h.sum hswap hbegins hidx
  last hswap hbegins hzero := by
    have hlt := UInt32.lt_iff_toNat_lt.mp h.len_lt
    have hBUFFER := BUFFER_SIZE.toNat_lt
    obtain ⟨r, hr, -, honce⟩ := h.loop hswap
    obtain ⟨s, lens, hidx, hstack, hstretches, hreturns⟩ := hbegins.reached (by omega) buff
    -- the loop ends before the lone word, which is an event of the stack
    obtain ⟨hstack', hspans⟩ := stackFrom_concat hstack
    rw [hzero] at hstack' hspans
    have hall := honce _ hstack'
    have hr' := (returns_iff_of_break (turn_stop (Nat.le_of_eq hidx.symm)) r).mp
      ((hreturns r).mp hr)
    rw [← hr', hstretches, hspans] at hall
    have hlength := congrArg List.length hall
    simp only [List.length_cons, List.length_append, List.length_nil] at hlength
    omega

/-! ## §7. Plausible lengths make a safe copy. -/

/-- Plausible lengths pass the test of the size. -/
theorem Plausible.len_lt (h : e.Plausible) : e.len < BUFFER_SIZE := by
  rcases h.size with hsmall | hlt
  · have hguard : ¬ bufsizeBytes e.len > BUFFER_SIZE := e.guard
    rw [gt_iff_lt, UInt32.lt_iff_toNat_lt, bufsizeBytes_toNat] at hguard
    rw [UInt32.lt_iff_toNat_lt]
    omega
  · exact hlt

/-- **What the loop keeps**: it stands at the first word of an event, and all
it has touched lies inside the buffer. -/
structure Inside (e : EtEvent E BUFFER_SIZE) (s : SwapLoop) : Prop where
  begins : e.Begins s.idx.toNat
  touched : ∀ i ∈ s.copy.touched, i ≤ e.len.toNat

/-- Before the loop nothing but the header was touched. -/
theorem Plausible.inside_start (h : e.Plausible) (hswap : e.swap_needed = true) (buff : Words) :
    e.Inside (swapStart E e.et_buff buff) where
  begins := .first
  touched i hi := by
    have hheader := h.header hswap
    have hlt : i < 0 + 8 := ((E.mem_touched 0 8 i).mp hi).2
    omega

/-- A turn of the loop makes no sum that wraps around. -/
theorem Plausible.sum_le (h : e.Plausible) (hswap : e.swap_needed = true)
    (hbegins : e.Begins s.idx.toNat) (hidx : s.idx.toNat < e.len.toNat)
    (hsum : e.testedSum s ≤ e.len.toNat) : s.idx.toNat + e.mylen s.idx.toNat ≤ e.len.toNat := by
  have hmylen := e.mylen_lt s.idx.toNat
  have hlen := e.len.toNat_lt
  unfold testedSum at hsum
  rcases h.sums hswap _ hbegins hidx with hlt | hwrap
  · omega
  · omega

/-- With plausible lengths a turn keeps to the buffer. -/
theorem Plausible.inside_turn (h : e.Plausible) (hswap : e.swap_needed = true)
    (hs : e.Inside s) (hturn : e.turn s = .inl s') : e.Inside s' := by
  obtain ⟨hidx, hsum, rfl⟩ := turn_cases hturn
  have hle := h.sum_le hswap hs.begins hidx hsum
  have hlt := UInt32.lt_iff_toNat_lt.mp h.len_lt
  have hBUFFER := BUFFER_SIZE.toNat_lt
  refine ⟨?_, fun i hi => ?_⟩
  · rw [swapped_idx (by omega)]
    exact .next hs.begins hidx hle
  · obtain hold | hnew := (mem_touched_swapped (by omega) i).mp hi
    · exact hs.touched i hold
    · omega

/-- With plausible lengths every event moves the loop on, and so it ends. -/
theorem Plausible.loop_returns (h : e.Plausible) (hswap : e.swap_needed = true)
    (hs : e.Inside s) : ∃ r, Returns e.turn s r := by
  induction hn : e.len.toNat - s.idx.toNat using Nat.strongRecOn generalizing s with
  | _ n ih =>
      subst hn
      cases hturn : e.turn s with
      | inr r => exact ⟨r, (returns_iff_of_break hturn r).mpr rfl⟩
      | inl s' =>
          have hs' := h.inside_turn hswap hs hturn
          obtain ⟨hidx, hsum, rfl⟩ := turn_cases hturn
          have hle := h.sum_le hswap hs.begins hidx hsum
          have hlt := UInt32.lt_iff_toNat_lt.mp h.len_lt
          have hBUFFER := BUFFER_SIZE.toNat_lt
          have hnext : (e.swapped s).idx.toNat = _ := swapped_idx (by omega)
          obtain ⟨r, hr⟩ := ih (e.len.toNat - (e.swapped s).idx.toNat) (by omega) hs' rfl
          exact ⟨r, (returns_iff_of_turn hturn r).mpr hr⟩

/-- The words in front of the place where the loop stands are in `buff` with their
bytes exchanged. -/
def SwappedBelow (e : EtEvent E BUFFER_SIZE) (s : SwapLoop) : Prop :=
  ∀ i < s.idx.toNat, s.copy.buff i = E.EVIO_SWAP32 (e.et_buff i)

/-- A turn swaps the words up to the place where the loop stands after it. -/
theorem swappedBelow_swapped (h : e.SwappedBelow s)
    (hlt : s.idx.toNat + e.mylen s.idx.toNat + 1 < 2 ^ 32) : e.SwappedBelow (e.swapped s) := by
  intro i hi
  rw [swapped_idx hlt] at hi
  show E.swap_int32_t e.et_buff s.idx.toNat _ s.copy.buff i = _
  rw [E.swap_int32_t_eq, swapped_length (by omega)]
  split
  · rfl
  · exact h i (by omega)

/-- **A stack that fills the buffer** is swapped event by event, to its end. -/
theorem Plausible.loop_stack (h : e.Plausible) (hswap : e.swap_needed = true) (lens : List Nat)
    (hs : e.Inside s) (hbelow : e.SwappedBelow s)
    (hstack : StackFrom E e.et_buff s.idx.toNat lens (e.len.toNat + 1)) :
    ∀ r, Returns e.turn s r → r.copy.stretches = s.copy.stretches ++ spans s.idx.toNat lens
      ∧ ∀ i ≤ e.len.toNat, r.copy.buff i = E.EVIO_SWAP32 (e.et_buff i) := by
  induction lens generalizing s with
  | nil =>
      have hidx : s.idx.toNat = e.len.toNat + 1 := hstack
      intro r hr
      obtain rfl := (returns_iff_of_break (turn_stop (by omega)) r).mp hr
      exact ⟨(List.append_nil _).symm, fun i hi => hbelow i (by omega)⟩
  | cons mylen lens ih =>
      obtain ⟨hmylen, hrest⟩ := hstack
      obtain rfl : e.mylen s.idx.toNat = mylen := hmylen
      have hle := stackFrom_le hrest
      have hlt := UInt32.lt_iff_toNat_lt.mp h.len_lt
      have hBUFFER := BUFFER_SIZE.toNat_lt
      -- an event at the last word would be a lone length word
      have hidx : s.idx.toNat < e.len.toNat := by
        by_contra hnot
        have heq : s.idx.toNat = e.len.toNat := by omega
        have hzero := h.last hswap (heq ▸ hs.begins)
        rw [heq] at hle
        omega
      have hturn : e.turn s = .inl (e.swapped s) := by
        refine turn_swap hidx ?_
        unfold testedSum
        omega
      have hnext : (e.swapped s).idx.toNat = _ := swapped_idx (by omega)
      intro r hr
      obtain ⟨hstretches, hwords⟩ := ih (h.inside_turn hswap hs hturn)
        (swappedBelow_swapped hbelow (by omega)) (by rw [hnext]; exact hrest) r
        ((returns_iff_of_turn hturn r).mp hr)
      refine ⟨?_, hwords⟩
      rw [hstretches, swapped_stretches (by omega), hnext, List.append_assoc]
      rfl

/-- Plausible lengths are enough for a safe copy, with or without an
exchange of bytes. -/
theorem Plausible.copySafe (h : e.Plausible) (buff : Words) : e.CopySafe buff := by
  cases hswap : e.swap_needed with
  | false =>
      refine ⟨h.len_lt, ⟨_, (fetch_without_swap hswap buff _).mpr rfl⟩, fun copy hcopy => ?_,
        fun htrue => ?_⟩
      · injection (fetch_without_swap hswap buff _).mp hcopy with hcopy
        subst hcopy
        intro i hi
        have hlt : i < (bufsizeBytes e.len).toNat / 4 := hi
        rw [bufsizeBytes_toNat] at hlt
        omega
      · rw [hswap] at htrue
        cases htrue
  | true =>
      have hstart := h.inside_start hswap buff
      refine ⟨h.len_lt, ?_, fun copy hcopy => ?_, fun _ lens hlens copy hcopy => ?_⟩
      · obtain ⟨r, hr⟩ := h.loop_returns hswap hstart
        exact ⟨r.copy, (fetch_with_swap hswap buff _).mpr ⟨r, hr, rfl⟩⟩
      · obtain ⟨r, hr, hr'⟩ := (fetch_with_swap hswap buff _).mp hcopy
        injection hr' with hr'
        subst hr'
        have hinside : e.Inside r := invariant_of_returns
          (fun s s' hs hturn => h.inside_turn hswap hs hturn)
          (fun s r hs hturn => (turn_break hturn).symm ▸ hs) hstart hr
        exact hinside.touched
      · obtain ⟨r, hr, hr'⟩ := (fetch_with_swap hswap buff _).mp hcopy
        injection hr' with hr'
        subst hr'
        have hbelow : e.SwappedBelow (swapStart E e.et_buff buff) := by
          intro i hi
          have hi : i < 8 := hi
          show E.swap_int32_t e.et_buff 0 8 buff i = _
          rw [E.swap_int32_t_eq, if_pos ⟨Nat.zero_le i, by show i < 0 + 8; omega⟩]
        exact h.loop_stack hswap lens hstart hbelow hlens r hr

end EtEvent

/-- **A SAFE COPY**, whatever the words of the buffer are: exactly when the
lengths in it are plausible. -/
theorem copy_safe_iff {E : EvioLibrary} {BUFFER_SIZE : UInt32}
    (e : EtEvent E BUFFER_SIZE) (buff : Words) : e.CopySafe buff ↔ e.Plausible :=
  ⟨EtEvent.CopySafe.toPlausible, fun h => h.copySafe buff⟩

/-- The four bytes of a word in the other order. -/
def exchangeBytes (x : UInt32) : UInt32 :=
  x >>> 24 ||| (x >>> 8 &&& (0xff00 : UInt32)) ||| (x <<< 8 &&& (0xff0000 : UInt32)) ||| x <<< 24

/-- A library that does what is documented and nothing else. -/
def exchangingLibrary : EvioLibrary where
  EVIO_SWAP32 := exchangeBytes
  swap_int32_t data first length dest :=
    fun i => if first ≤ i ∧ i < first + length.toNat then exchangeBytes (data i) else dest i
  touched first length := { i | first ≤ i ∧ i < first + length.toNat }
  swap_int32_t_eq _ _ _ _ _ := rfl
  mem_touched _ _ _ := Iff.rfl

/-- A buffer of 11 words with exchanged bytes: the header, and an event of two
words behind its length word. -/
def oneEvent : EtEvent exchangingLibrary 3000000 where
  et_buff i :=
    if i = 0 then 0x0a000000 else if i = 7 then 0x0001dac0 else if i = 8 then 0x02000000 else 0
  swap_needed := true
  magic := by decide
  guard := by decide

/-- The one event begins behind the header, and the next would behind it. -/
theorem begins_oneEvent {idx : Nat} (h : oneEvent.Begins idx) : idx = 8 ∨ idx = 11 := by
  have hlen : oneEvent.len.toNat = 10 := by decide
  have hmylen : oneEvent.mylen 8 = 2 := by decide
  induction h with
  | first => exact Or.inl rfl
  | next _ hlt _ ih =>
      obtain rfl | rfl := ih
      · exact Or.inr (by rw [hmylen])
      · omega

/-- **One event, swapped once**: the buffer is filled by it, and no word behind
it is touched. -/
theorem one_event_copied : oneEvent.CopySafe (fun _ => 0) := by
  have hlen : oneEvent.len.toNat = 10 := by decide
  refine (copy_safe_iff oneEvent _).mpr ⟨.inl (by omega), fun _ => by omega, ?_, ?_⟩
  · intro _ idx hbegins hidx
    obtain rfl | rfl := begins_oneEvent hbegins
    · exact .inl (by decide)
    · omega
  · intro _ hbegins
    have := begins_oneEvent hbegins
    omega

/-- A buffer of 16 words with exchanged bytes, whose first event has a length
word of ones. -/
def onesEvent : EtEvent exchangingLibrary 3000000 where
  et_buff i :=
    if i = 0 then 0x10000000 else if i = 7 then 0x0001dac0 else if i = 8 then 0xffffffff else 0
  swap_needed := true
  magic := by decide
  guard := by decide

/-- **A length word of ones**: `idx` never leaves the word 8. -/
theorem length_word_of_ones : ¬ onesEvent.CopySafe (fun _ => 0) := by
  intro h
  obtain ⟨r, hr, -⟩ := h.loop rfl
  refine EtEvent.not_returns_of_stuck ?_ ?_ ?_ r hr
  · decide
  · decide
  · decide

end PokerReco.DAQ
