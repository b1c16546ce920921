/-
  PokerReco.EvioReader.EvioCompositeDecoder
  ─────────────────────────────────────────
  **DECODING FADC BANKS** (`evioReader/EvioCompositeDecoder.cc`).

  A bank is a sequence of blocks, padded to whole words:

      block    slot 1 byte, trigger 4, time 8, number of channels 4, channels
      channel  number 1 byte, number of entries 4, entries

  `decode` reads entries that are samples (2 bytes), `decodePulse` entries
  that are pulses (10 bytes).  The two functions are the same loops; what they
  do differently is a `Format`.  `Layout` says what a format reads back, and
  `scan_encodeBlocks` that the loops then undo the encoding of any list of
  blocks, with any padding and whatever follows the bank in memory.

  A bank comes out of the buffer of the event channel, far below 2^31 bytes,
  so no offset (an `int` in the source) overflows.
-/
import PokerReco.Library.LittleEndian

namespace PokerReco.EvioReader

open PokerReco.Library

/-! ## §1. Reads. -/

/-- `getInt8`: the byte at an offset. -/
def getInt8 (data : Memory) (offset : Nat) : UInt8 := .ofNat (read data offset 1)

/-- `getInt16`: the two bytes at an offset, from the low end. -/
def getInt16 (data : Memory) (offset : Nat) : UInt16 := .ofNat (read data offset 2)

/-- `getInt32`: the four bytes at an offset, from the low end. -/
def getInt32 (data : Memory) (offset : Nat) : UInt32 := .ofNat (read data offset 4)

/-- `getInt64`: the eight bytes at an offset, from the low end. -/
def getInt64 (data : Memory) (offset : Nat) : UInt64 := .ofNat (read data offset 8)

/-! ## §2. The loops. -/

/-- `CompositeADCRaw_t`, `CompositeADCPulse_t`: `entries` are the samples or
the pulses.  `slot` and `channel` are `int`s that hold a byte. -/
structure CompositeADC (τ ε : Type) where
  slot : UInt8
  time : τ
  trigger : Int32
  channel : UInt8
  entries : List ε
  deriving DecidableEq, Repr

/-- What the two decoders do differently: the time, the entries with their size and
reads, the slots and counts that are accepted, and the test before the entries. -/
structure Format (τ ε : Type) where
  /-- No `continue` on the block header. -/
  accepts : UInt8 → Int32 → Bool
  /-- From the 8 bytes of the time. -/
  time : UInt64 → τ
  /-- The test before a channel is scanned: offset, number of entries, size of
  the bank in bytes. -/
  exceeds : Nat → UInt32 → Nat → Bool
  /-- Bytes of an entry. -/
  size : Nat
  entry : Memory → Nat → ε
  /-- Offset and width of the reads of an entry. -/
  entryReads : Nat → List (Nat × Nat)

/-- The variables of the loops, and the reads made so far. -/
structure Scan (τ ε : Type) where
  offset : Nat
  reads : List (Nat × Nat)
  adcs : List (CompositeADC τ ε)

namespace Format

variable {τ ε : Type}

/-- The entries of one channel. -/
def entries (f : Format τ ε) (data : Memory) : Nat → Nat → List ε
  | 0, _ => []
  | samples + 1, offset => f.entry data offset :: f.entries data samples (offset + f.size)

/-- The reads that the entries of one channel take, in the order in which
they are made. -/
def entriesReads (f : Format τ ε) : Nat → Nat → List (Nat × Nat)
  | 0, _ => []
  | samples + 1, offset => f.entryReads offset ++ f.entriesReads samples (offset + f.size)

/-- The loop over the channels of a block, with the number of channels still
to come. -/
def channels (f : Format τ ε) (data : Memory) (limit : Nat) (bankSlot : UInt8) (bankTime : τ)
    (bankTrigger : Int32) : Nat → Scan τ ε → Scan τ ε
  | 0, s => s
  | n + 1, s =>
      let chan := getInt8 data s.offset
      let samples := getInt32 data (s.offset + 1)
      let reads := s.reads ++ [(s.offset, 1), (s.offset + 1, 4)]
      let offset := s.offset + 1 + 4
      -- `break`: the offset stays behind the sample count
      if f.exceeds offset samples limit then { s with offset := offset, reads := reads }
      else
        f.channels data limit bankSlot bankTime bankTrigger n
          { offset := offset + samples.toNat * f.size
            reads := reads ++ f.entriesReads samples.toNat offset
            adcs := s.adcs ++ [{ slot := bankSlot, time := bankTime, trigger := bankTrigger,
                                 channel := chan,
                                 entries := f.entries data samples.toNat offset }] }

/-- One turn of the outer loop: a block header, and its channels if it is
accepted. -/
def block (f : Format τ ε) (data : Memory) (limit : Nat) (s : Scan τ ε) : Scan τ ε :=
  let bankSlot := getInt8 data s.offset
  let bankTrigger := (getInt32 data (s.offset + 1)).toInt32
  let bankTime := f.time (getInt64 data (s.offset + 1 + 4))
  let bankNChannels := (getInt32 data (s.offset + 1 + 4 + 8)).toInt32
  let s := { s with
    offset := s.offset + 1 + 4 + 8 + 4
    reads := s.reads ++ [(s.offset, 1), (s.offset + 1, 4), (s.offset + 1 + 4, 8),
      (s.offset + 1 + 4 + 8, 4)] }
  -- `continue` on a header that is not accepted: 17 bytes further
  if f.accepts bankSlot bankNChannels then
    f.channels data limit bankSlot bankTime bankTrigger bankNChannels.toInt.toNat s
  else s

/-- The loop over the channels does not go back. -/
theorem channels_offset_le (f : Format τ ε) (data : Memory) (limit : Nat) (slot : UInt8) (time : τ)
    (trigger : Int32) (n : Nat) (s : Scan τ ε) :
    s.offset ≤ (f.channels data limit slot time trigger n s).offset := by
  induction n generalizing s with
  | zero => exact Nat.le_refl _
  | succ n ih =>
      simp only [channels]
      split
      · show s.offset ≤ s.offset + 1 + 4
        omega
      · refine Nat.le_trans ?_ (ih _)
        show s.offset ≤ s.offset + 1 + 4 + _
        omega

/-- A turn of the outer loop goes on by a block header at least, so that the
loop ends. -/
theorem block_offset_le (f : Format τ ε) (data : Memory) (limit : Nat) (s : Scan τ ε) :
    s.offset + 17 ≤ (f.block data limit s).offset := by
  simp only [block]
  split
  · refine Nat.le_trans ?_ (channels_offset_le f data limit _ _ _ _ _)
    show s.offset + 17 ≤ s.offset + 1 + 4 + 8 + 4
    omega
  · exact Nat.le_refl _

/-- The outer loop, as long as the offset is before the end of the bank. -/
def scan (f : Format τ ε) (data : Memory) (limit : Nat) (s : Scan τ ε) : Scan τ ε :=
  if s.offset < limit then f.scan data limit (f.block data limit s) else s
  termination_by limit - s.offset
  decreasing_by
    -- every turn reads a header, whatever is in it
    have hnext := block_offset_le f data limit s
    omega

end Format

/-! ## §3. The two decoders. -/

/-- `vector<short>` entries, the halves of the time exchanged. -/
def mode1 : Format UInt64 Int16 where
  accepts bankSlot bankNChannels :=
    ¬ bankNChannels ≤ 0 ∧ ¬ 16 < bankNChannels ∧ ¬ (bankSlot ≤ 0 ∨ 21 < bankSlot)
  time bankTimeTMP := (bankTimeTMP &&& 0xffffff000000) >>> 24 ||| (bankTimeTMP &&& 0xffffff) <<< 24
  -- `samples * sizeof(short)` is computed in 64 bits
  exceeds offset samples limit := limit < offset + samples.toNat * 2
  size := 2
  entry data offset := (getInt16 data offset).toInt16
  entryReads offset := [(offset, 2)]

/-- `Pulse_t`: the four fields of a pulse, as the decoder keeps them. -/
structure Pulse where
  tdc : Int32
  adc : Int32
  ped : Int32
  max : Int32
  deriving DecidableEq, Repr

/-- `Pulse_t` entries, the time narrowed to an `int`, any number of channels. -/
def mode7 : Format Int32 Pulse where
  accepts bankSlot bankNChannels := ¬ bankNChannels ≤ 0 ∧ ¬ (bankSlot ≤ 0 ∨ 21 < bankSlot)
  time bankTime := .ofNat bankTime.toNat
  -- `offset + samples * sizeOfEntry` is computed in 32 bits
  exceeds offset samples limit := limit < (offset + samples.toNat * 10) % 2 ^ 32
  size := 2 + 4 + 2 + 2
  entry data offset :=
    { tdc := .ofNat (getInt16 data offset).toNat
      adc := (getInt32 data (offset + 2)).toInt32
      ped := .ofNat (getInt16 data (offset + 2 + 4)).toNat
      max := .ofNat (getInt16 data (offset + 2 + 4 + 2)).toNat }
  entryReads offset :=
    [(offset, 2), (offset + 2, 4), (offset + 2 + 4, 2), (offset + 2 + 4 + 2, 2)]

/-- `EvioCompositeDecoder`: the waveforms of the last call of `decode` and the
pulses of the last call of `decodePulse`. -/
structure EvioCompositeDecoder where
  adcSamples : List (CompositeADC UInt64 Int16)
  adcSamplesPulse : List (CompositeADC Int32 Pulse)

namespace EvioCompositeDecoder

/-- A decoder that has not been called yet: both of its lists are empty. -/
def new : EvioCompositeDecoder := ⟨[], []⟩

/-- `decode`; `after` is what follows the copy of the bank in memory. -/
def decode (d : EvioCompositeDecoder) (vec : List UInt32) (after : Memory) :
    EvioCompositeDecoder :=
  { d with
    adcSamples :=
      (mode1.scan (buffer (wordBytes vec) after) (4 * vec.length) ⟨0, [], []⟩).adcs }

/-- `decodePulse`: the same loops with the format of mode 7, into the other list. -/
def decodePulse (d : EvioCompositeDecoder) (vec : List UInt32) (after : Memory) :
    EvioCompositeDecoder :=
  { d with
    adcSamplesPulse :=
      (mode7.scan (buffer (wordBytes vec) after) (4 * vec.length) ⟨0, [], []⟩).adcs }

/-- `getData`: the waveforms. -/
def getData (d : EvioCompositeDecoder) : List (CompositeADC UInt64 Int16) := d.adcSamples

/-- `getDataPulse`: the pulses.  They stay empty when only `decode` was called. -/
def getDataPulse (d : EvioCompositeDecoder) : List (CompositeADC Int32 Pulse) := d.adcSamplesPulse

end EvioCompositeDecoder

/-! ## §4. Banks. -/

/-- One channel of a block, on the wire: its number and its entries. -/
structure Channel (ε : Type) where
  channel : UInt8
  entries : List ε
  /-- The number of entries has a 32-bit field. -/
  count : entries.length < 2 ^ 32

/-- A block, on the wire: a slot and a number of channels that the decoder
accepts, the trigger and the time. -/
structure Block (τ ε : Type) (maxChannels : Nat) where
  slot : UInt8
  trigger : Int32
  time : τ
  channels : List (Channel ε)
  slot_pos : 1 ≤ slot.toNat
  slot_le : slot.toNat ≤ 21
  channels_pos : 1 ≤ channels.length
  channels_le : channels.length ≤ maxChannels

/-- The wire side of a format: the bytes of its times and entries, and that the
format reads them back. -/
structure Layout {τ ε : Type} (f : Format τ ε) (τ' ε' : Type) (maxChannels : Nat) where
  timeBits : τ' → UInt64
  timeValue : τ' → τ
  time_eq : ∀ t, f.time (timeBits t) = timeValue t
  bytes : ε' → List UInt8
  value : ε' → ε
  length_bytes : ∀ e, (bytes e).length = f.size
  entry_eq : ∀ data o e, Stored data o (bytes e) → f.entry data o = value e
  maxChannels_lt : maxChannels < 2 ^ 31
  accepts_block : ∀ (slot : UInt8) (n : Nat), 1 ≤ slot.toNat → slot.toNat ≤ 21 → 1 ≤ n →
    n ≤ maxChannels → f.accepts slot (UInt32.ofNat n).toInt32 = true
  rejects_padding : ∀ n, f.accepts 0 n = false
  exceeds_eq : ∀ (o limit : Nat) (samples : UInt32), o + samples.toNat * f.size ≤ limit →
    f.exceeds o samples limit = false

namespace Layout

variable {τ ε τ' ε' : Type} {f : Format τ ε} {maxChannels : Nat}

/-- The bytes of a channel: its number, the number of its entries, and the
entries. -/
def encodeChannel (L : Layout f τ' ε' maxChannels) (c : Channel ε') : List UInt8 :=
  [c.channel] ++ leBytes 4 c.entries.length ++ c.entries.flatMap L.bytes

/-- The bytes of a block: its header and its channels. -/
def encodeBlock (L : Layout f τ' ε' maxChannels) (b : Block τ' ε' maxChannels) : List UInt8 :=
  [b.slot] ++ leBytes 4 b.trigger.toUInt32.toNat ++ leBytes 8 (L.timeBits b.time).toNat
    ++ leBytes 4 b.channels.length ++ b.channels.flatMap L.encodeChannel

/-- The bank of a list of blocks, padded with zero bytes to whole words. -/
def encodeBank (L : Layout f τ' ε' maxChannels) (blocks : List (Block τ' ε' maxChannels)) :
    List UInt32 :=
  packWords (blocks.flatMap L.encodeBlock)

/-- What the decoder should make of one channel. -/
def decodedChannel (L : Layout f τ' ε' maxChannels) (b : Block τ' ε' maxChannels)
    (c : Channel ε') : CompositeADC τ ε :=
  { slot := b.slot, time := L.timeValue b.time, trigger := b.trigger, channel := c.channel,
    entries := c.entries.map L.value }

/-- What the decoder should make of a list of blocks. -/
def decodedBlocks (L : Layout f τ' ε' maxChannels) (blocks : List (Block τ' ε' maxChannels)) :
    List (CompositeADC τ ε) :=
  blocks.flatMap fun b => b.channels.map (L.decodedChannel b)

/-! ## §5. Decoding undoes encoding. -/

section RoundTrip

variable {L : Layout f τ' ε' maxChannels} {data : Memory} {o limit : Nat}

/-- A byte that is stored is read back. -/
theorem getInt8_eq {b : UInt8} (h : Stored data o [b]) : getInt8 data o = b := by
  have hread := read_of_stored h
  show UInt8.ofNat (read data o 1) = b
  rw [show read data o 1 = b.toNat from hread, UInt8.ofNat_toNat]

/-- A word that is stored, low end first, is read back. -/
theorem getInt32_eq {n : Nat} (h : Stored data o (leBytes 4 n)) (hn : n < 2 ^ 32) :
    getInt32 data o = UInt32.ofNat n := by
  show UInt32.ofNat (read data o 4) = _
  rw [read_leBytes h (by omega)]

/-- A long word that is stored, low end first, is read back. -/
theorem getInt64_eq {n : UInt64} (h : Stored data o (leBytes 8 n.toNat)) :
    getInt64 data o = n := by
  have hn := n.toNat_lt
  show UInt64.ofNat (read data o 8) = n
  rw [read_leBytes h (by omega), UInt64.ofNat_toNat]

/-- A number below half of the range of a word is the same as an `int`. -/
theorem toInt_ofNat_of_lt {n : Nat} (h : n < 2 ^ 31) : (UInt32.ofNat n).toInt32.toInt = n := by
  show (BitVec.ofNat 32 n).toInt = n
  rw [BitVec.toInt_eq_toNat_of_lt]
  · simp
    omega
  · simp
    omega

/-- The entries take the size that the format says for each. -/
theorem length_entries (L : Layout f τ' ε' maxChannels) (es : List ε') :
    (es.flatMap L.bytes).length = es.length * f.size := by
  induction es with
  | nil => simp
  | cons e es ih =>
      rw [List.flatMap_cons, List.length_append, L.length_bytes, ih, List.length_cons, Nat.succ_mul]
      omega

/-- Entries that are stored are read back, one after the other. -/
theorem entries_eq (es : List ε') (h : Stored data o (es.flatMap L.bytes)) :
    f.entries data es.length o = es.map L.value := by
  induction es generalizing o with
  | nil => rfl
  | cons e es ih =>
      rw [List.flatMap_cons, stored_append, L.length_bytes] at h
      show f.entry data o :: f.entries data es.length (o + f.size) = L.value e :: es.map L.value
      rw [L.entry_eq data o e h.1, ih h.2]

/-- The loop over the channels consumes them and adds one record for each. -/
theorem channels_eq (b : Block τ' ε' maxChannels) (cs : List (Channel ε')) (s : Scan τ ε)
    (h : Stored data s.offset (cs.flatMap L.encodeChannel))
    (hlimit : s.offset + (cs.flatMap L.encodeChannel).length ≤ limit) :
    let s' := f.channels data limit b.slot (L.timeValue b.time) b.trigger cs.length s
    s'.offset = s.offset + (cs.flatMap L.encodeChannel).length
      ∧ s'.adcs = s.adcs ++ cs.map (L.decodedChannel b) := by
  induction cs generalizing s with
  | nil => simp [Format.channels]
  | cons c cs ih =>
      rw [List.flatMap_cons, stored_append] at h
      obtain ⟨hc, hcs⟩ := h
      -- number and count take five bytes, then the entries
      have hlength : (L.encodeChannel c).length = 5 + c.entries.length * f.size := by
        simp only [encodeChannel, List.length_append, length_leBytes, length_entries,
          List.length_singleton]
      rw [List.flatMap_cons, List.length_append, hlength] at hlimit ⊢
      rw [hlength] at hcs
      simp only [encodeChannel, stored_append, List.length_append, List.length_singleton,
        length_leBytes] at hc
      obtain ⟨⟨hchan, hsamples⟩, hentries⟩ := hc
      have hcount := c.count
      have hn : (UInt32.ofNat c.entries.length).toNat = c.entries.length := by
        rw [UInt32.toNat_ofNat']
        omega
      -- the entries end before the bank does
      have hfits : f.exceeds (s.offset + 1 + 4) (UInt32.ofNat c.entries.length) limit = false := by
        apply L.exceeds_eq
        rw [hn]
        omega
      simp only [List.length_cons, Format.channels, getInt8_eq hchan,
        getInt32_eq hsamples hcount, hfits, Bool.false_eq_true, if_false, hn]
      have hread : f.entries data c.entries.length (s.offset + 1 + 4) = c.entries.map L.value :=
        entries_eq c.entries hentries
      rw [hread]
      obtain ⟨hoffset, hadcs⟩ := ih
        { offset := s.offset + 1 + 4 + c.entries.length * f.size
          reads := s.reads ++ [(s.offset, 1), (s.offset + 1, 4)]
            ++ f.entriesReads c.entries.length (s.offset + 1 + 4)
          adcs := s.adcs ++ [L.decodedChannel b c] }
        (by rw [show s.offset + 1 + 4 + c.entries.length * f.size
              = s.offset + (5 + c.entries.length * f.size) by omega]
            exact hcs)
        (by show s.offset + 1 + 4 + c.entries.length * f.size + _ ≤ limit
            omega)
      refine ⟨?_, ?_⟩
      · refine Eq.trans hoffset ?_
        show s.offset + 1 + 4 + c.entries.length * f.size + _ = _
        omega
      · refine Eq.trans hadcs ?_
        rw [List.map_cons, List.append_assoc, List.singleton_append]

/-- One turn of the outer loop consumes one block and adds a record for each of
its channels. -/
theorem block_eq (b : Block τ' ε' maxChannels) (s : Scan τ ε)
    (h : Stored data s.offset (L.encodeBlock b))
    (hlimit : s.offset + (L.encodeBlock b).length ≤ limit) :
    (f.block data limit s).offset = s.offset + (L.encodeBlock b).length
      ∧ (f.block data limit s).adcs = s.adcs ++ b.channels.map (L.decodedChannel b) := by
  have hlength : (L.encodeBlock b).length = 17 + (b.channels.flatMap L.encodeChannel).length := by
    simp only [encodeBlock, List.length_append, length_leBytes, List.length_singleton]
  simp only [encodeBlock, stored_append, List.length_append, List.length_singleton,
    length_leBytes] at h
  obtain ⟨⟨⟨⟨hslot, htrigger⟩, htime⟩, hcount⟩, hchannels⟩ := h
  have hn : b.channels.length < 2 ^ 31 := Nat.lt_of_le_of_lt b.channels_le L.maxChannels_lt
  -- the four fields of the header
  have htrig : (getInt32 data (s.offset + 1)).toInt32 = b.trigger := by
    rw [getInt32_eq htrigger b.trigger.toUInt32.toNat_lt, UInt32.ofNat_toNat]
    rfl
  have hnum : getInt32 data (s.offset + 1 + 4 + 8) = UInt32.ofNat b.channels.length :=
    getInt32_eq hcount (by omega)
  have hcounted : (UInt32.ofNat b.channels.length).toInt32.toInt.toNat = b.channels.length := by
    rw [toInt_ofNat_of_lt hn]
    rfl
  have haccepts := L.accepts_block b.slot b.channels.length b.slot_pos b.slot_le b.channels_pos
    b.channels_le
  simp only [Format.block, getInt8_eq hslot, htrig, getInt64_eq htime, L.time_eq, hnum, haccepts,
    if_true, hcounted]
  -- then the channels, with the offset behind the header
  obtain ⟨hoffset, hadcs⟩ := channels_eq b b.channels
    { s with
      offset := s.offset + 1 + 4 + 8 + 4
      reads := s.reads ++ [(s.offset, 1), (s.offset + 1, 4), (s.offset + 1 + 4, 8),
        (s.offset + 1 + 4 + 8, 4)] }
    hchannels
    (by show s.offset + 1 + 4 + 8 + 4 + _ ≤ limit
        omega)
  refine ⟨?_, hadcs⟩
  refine Eq.trans hoffset ?_
  show s.offset + 1 + 4 + 8 + 4 + _ = _
  omega

/-- **Decoding undoes encoding**: the outer loop on the bytes of a list of
blocks and at most three zero bytes, whatever follows. -/
theorem scan_encodeBlocks (blocks : List (Block τ' ε' maxChannels)) (pad : Nat) (hpad : pad ≤ 3)
    (s : Scan τ ε)
    (h : Stored data s.offset (blocks.flatMap L.encodeBlock ++ List.replicate pad 0))
    (hlimit : s.offset + (blocks.flatMap L.encodeBlock).length + pad = limit) :
    (f.scan data limit s).adcs = s.adcs ++ L.decodedBlocks blocks := by
  induction blocks generalizing s with
  | nil =>
      rw [List.flatMap_nil, List.nil_append] at h
      rw [List.flatMap_nil, List.length_nil] at hlimit
      show _ = s.adcs ++ []
      rw [List.append_nil]
      by_cases hzero : pad = 0
      · rw [Format.scan, if_neg (by omega)]
      · -- one more turn, on a header that begins in the padding
        obtain ⟨k, rfl⟩ := Nat.exists_eq_succ_of_ne_zero hzero
        have hslot : getInt8 data s.offset = 0 := getInt8_eq ⟨h.1, trivial⟩
        have hnext := Format.block_offset_le f data limit s
        have hadcs : (f.block data limit s).adcs = s.adcs := by
          simp only [Format.block, hslot, L.rejects_padding, Bool.false_eq_true, if_false]
        rw [Format.scan, if_pos (by omega), Format.scan, if_neg (by omega), hadcs]
  | cons b blocks ih =>
      rw [List.flatMap_cons, List.append_assoc, stored_append] at h
      rw [List.flatMap_cons, List.length_append] at hlimit
      -- a turn on the first block, then the induction on the rest
      have hpos : 0 < (L.encodeBlock b).length := by
        simp only [encodeBlock, List.length_append, List.length_singleton]
        omega
      obtain ⟨hoffset, hadcs⟩ := block_eq b s h.1
        (show s.offset + (L.encodeBlock b).length ≤ limit by omega)
      rw [Format.scan, if_pos (by omega), ih (f.block data limit s), hadcs, List.append_assoc]
      · rfl
      · rw [hoffset]
        exact h.2
      · rw [hoffset]
        omega

/-- A whole bank: the outer loop finds the records of all its blocks, and none in
the padding. -/
theorem scan_encodeBank (L : Layout f τ' ε' maxChannels)
    (blocks : List (Block τ' ε' maxChannels)) (after : Memory) :
    (f.scan (buffer (wordBytes (L.encodeBank blocks)) after) (4 * (L.encodeBank blocks).length)
        ⟨0, [], []⟩).adcs = L.decodedBlocks blocks := by
  obtain ⟨pad, hpad, hbytes⟩ := wordBytes_packWords (blocks.flatMap L.encodeBlock)
  have hlength := length_wordBytes (L.encodeBank blocks)
  have hlimit : 0 + (blocks.flatMap L.encodeBlock).length + pad
      = 4 * (L.encodeBank blocks).length := by
    rw [← hlength, encodeBank, hbytes, List.length_append, List.length_replicate]
    omega
  have hscan := scan_encodeBlocks (L := L) blocks pad hpad ⟨0, [], []⟩ (stored_buffer after [] _)
    hlimit
  rw [List.nil_append, ← hbytes] at hscan
  exact hscan

end RoundTrip

end Layout

/-! ## §6. The two layouts. -/

/-- The two 24-bit halves of a time are exchanged back. -/
theorem swapHalves_eq {a b : Nat} (ha : a < 2 ^ 24) (hb : b < 2 ^ 24) :
    ((a * 2 ^ 24 + b) &&& 0xffffff000000) >>> 24 ||| ((a * 2 ^ 24 + b) &&& 0xffffff) <<< 24
      = b * 2 ^ 24 + a := by
  -- a mask of ones below a power of two is a remainder
  have hhigh : ((a * 2 ^ 24 + b) &&& 0xffffff000000) >>> 24 = a := by
    rw [Nat.shiftRight_and_distrib, Nat.shiftRight_eq_div_pow]
    show (a * 2 ^ 24 + b) / 2 ^ 24 &&& (2 ^ 24 - 1) = a
    rw [Nat.and_two_pow_sub_one_eq_mod]
    omega
  have hlow : (a * 2 ^ 24 + b) &&& 0xffffff = b := by
    show (a * 2 ^ 24 + b) &&& (2 ^ 24 - 1) = b
    rw [Nat.and_two_pow_sub_one_eq_mod]
    omega
  rw [hhigh, hlow, Nat.or_comm, ← Nat.shiftLeft_add_eq_or_of_lt ha, Nat.shiftLeft_eq]

/-- The time on the wire: the halves exchanged. -/
def swappedTime (t : BitVec 48) : UInt64 :=
  .ofNat (t.toNat % 2 ^ 24 * 2 ^ 24 + t.toNat / 2 ^ 24)

/-- The time of mode 1 is read back with its halves exchanged again. -/
theorem mode1_time_eq (t : BitVec 48) : mode1.time (swappedTime t) = .ofNat t.toNat := by
  have ht := t.isLt
  have hwire : (swappedTime t).toNat = t.toNat % 2 ^ 24 * 2 ^ 24 + t.toNat / 2 ^ 24 := by
    rw [swappedTime, UInt64.toNat_ofNat']
    omega
  have hswap : ((swappedTime t).toNat &&& 0xffffff000000) >>> 24
      ||| ((swappedTime t).toNat &&& 0xffffff) <<< 24
      = t.toNat / 2 ^ 24 * 2 ^ 24 + t.toNat % 2 ^ 24 := by
    rw [hwire]
    exact swapHalves_eq (by omega) (by omega)
  -- the same operations on 64-bit words, none of which overflows
  have hdown : ((swappedTime t &&& 0xffffff000000) >>> 24).toNat
      = ((swappedTime t).toNat &&& 0xffffff000000) >>> 24 := by
    rw [UInt64.toNat_shiftRight, UInt64.toNat_and]
    rfl
  have hup : ((swappedTime t &&& 0xffffff) <<< 24).toNat
      = ((swappedTime t).toNat &&& 0xffffff) <<< 24 := by
    have hle : (swappedTime t).toNat &&& 0xffffff ≤ 0xffffff := Nat.and_le_right
    rw [UInt64.toNat_shiftLeft, UInt64.toNat_and]
    show ((swappedTime t).toNat &&& 0xffffff) <<< 24 % 2 ^ 64 = _
    rw [Nat.shiftLeft_eq]
    omega
  apply UInt64.toNat_inj.mp
  show ((swappedTime t &&& 0xffffff000000) >>> 24
    ||| (swappedTime t &&& 0xffffff) <<< 24).toNat = _
  rw [UInt64.toNat_or, hdown, hup, hswap, UInt64.toNat_ofNat']
  omega

/-- The slots from 1 to 21 pass the test of the decoders. -/
theorem slot_accepted {slot : UInt8} (hpos : 1 ≤ slot.toNat) (hle : slot.toNat ≤ 21) :
    ¬ (slot ≤ 0 ∨ 21 < slot) := by
  rw [UInt8.le_iff_toNat_le, UInt8.lt_iff_toNat_lt]
  show ¬ (slot.toNat ≤ 0 ∨ 21 < slot.toNat)
  omega

/-- The number of channels of a block passes the test, as it is positive
as an `int`. -/
theorem count_pos {n : Nat} (hpos : 1 ≤ n) (hlt : n < 2 ^ 31) :
    ¬ (UInt32.ofNat n).toInt32 ≤ 0 := by
  rw [Int32.le_iff_toInt_le, Layout.toInt_ofNat_of_lt hlt]
  show ¬ (n : Int) ≤ 0
  omega

/-- Mode 1: 48-bit times, signed 16-bit samples, up to 16 channels. -/
def mode1Layout : Layout mode1 (BitVec 48) Int16 16 where
  timeBits := swappedTime
  timeValue t := .ofNat t.toNat
  time_eq := mode1_time_eq
  bytes sample := leBytes 2 sample.toUInt16.toNat
  value sample := sample
  length_bytes _ := length_leBytes 2 _
  entry_eq := by
    intro data o sample h
    have hlt := sample.toUInt16.toNat_lt
    show (UInt16.ofNat (read data o 2)).toInt16 = sample
    rw [read_leBytes h (by omega), UInt16.ofNat_toNat]
    rfl
  maxChannels_lt := by omega
  accepts_block := by
    intro slot n hpos hle hn hmax
    have hcount : ¬ 16 < (UInt32.ofNat n).toInt32 := by
      rw [Int32.lt_iff_toInt_lt, Layout.toInt_ofNat_of_lt (by omega)]
      show ¬ (16 : Int) < n
      omega
    exact decide_eq_true ⟨count_pos hn (by omega), hcount, slot_accepted hpos hle⟩
  rejects_padding n := decide_eq_false (fun h => h.2.2 (.inl (UInt8.le_refl 0)))
  exceeds_eq := by
    intro o limit samples h
    refine decide_eq_false ?_
    show ¬ limit < o + samples.toNat * 2
    exact Nat.not_lt.mpr h

/-- A pulse on the wire: its four fields in the order of the bytes. -/
structure WirePulse where
  tdc : UInt16
  adc : UInt32
  ped : UInt16
  max : UInt16
  deriving DecidableEq, Repr

/-- Mode 7: 64-bit times, pulses, any number of channels an `int` can count. -/
def mode7Layout : Layout mode7 UInt64 WirePulse (2 ^ 31 - 1) where
  timeBits t := t
  timeValue t := .ofNat t.toNat
  time_eq _ := rfl
  bytes p := leBytes 2 p.tdc.toNat ++ leBytes 4 p.adc.toNat ++ leBytes 2 p.ped.toNat
    ++ leBytes 2 p.max.toNat
  value p :=
    { tdc := .ofNat p.tdc.toNat, adc := p.adc.toInt32, ped := .ofNat p.ped.toNat,
      max := .ofNat p.max.toNat }
  length_bytes _ := by simp [mode7]
  entry_eq := by
    intro data o p h
    simp only [stored_append, List.length_append, length_leBytes] at h
    obtain ⟨⟨⟨htdc, hadc⟩, hped⟩, hmax⟩ := h
    -- the four numbers of a pulse stand one behind the other
    have h16 : ∀ {o : Nat} {n : UInt16}, Stored data o (leBytes 2 n.toNat) →
        getInt16 data o = n := by
      intro o n hn
      have hlt := n.toNat_lt
      show UInt16.ofNat (read data o 2) = n
      rw [read_leBytes hn (by omega), UInt16.ofNat_toNat]
    have h32 : getInt32 data (o + 2) = p.adc := by
      rw [Layout.getInt32_eq hadc p.adc.toNat_lt, UInt32.ofNat_toNat]
    simp only [mode7, h16 htdc, h32, h16 hped, h16 hmax]
  maxChannels_lt := by omega
  accepts_block := by
    intro slot n hpos hle hn hmax
    exact decide_eq_true ⟨count_pos hn (by omega), slot_accepted hpos hle⟩
  rejects_padding n := decide_eq_false (fun h => h.2 (.inl (UInt8.le_refl 0)))
  exceeds_eq := by
    intro o limit samples h
    refine decide_eq_false ?_
    show ¬ limit < (o + samples.toNat * 10) % 2 ^ 32
    have hmod := Nat.mod_le (o + samples.toNat * 10) (2 ^ 32)
    have hle : o + samples.toNat * 10 ≤ limit := h
    omega

/-- A block of mode 1 on the wire. -/
abbrev Mode1Block := Block (BitVec 48) Int16 16

/-- A block of mode 7 on the wire. -/
abbrev Mode7Block := Block UInt64 WirePulse (2 ^ 31 - 1)

/-- **`decode` undoes the encoding of any list of mode-1 blocks.** -/
theorem decode_encodeBank (d : EvioCompositeDecoder) (blocks : List Mode1Block) (after : Memory) :
    (d.decode (mode1Layout.encodeBank blocks) after).getData
      = mode1Layout.decodedBlocks blocks :=
  mode1Layout.scan_encodeBank blocks after

/-- **`decodePulse` undoes the encoding of any list of mode-7 blocks.** -/
theorem decodePulse_encodeBank (d : EvioCompositeDecoder) (blocks : List Mode7Block)
    (after : Memory) :
    (d.decodePulse (mode7Layout.encodeBank blocks) after).getDataPulse
      = mode7Layout.decodedBlocks blocks :=
  mode7Layout.scan_encodeBank blocks after

end PokerReco.EvioReader
