/-
  PokerReco.EvioReader.DecoderReads
  ─────────────────────────────────
  **WHAT THE DECODERS READ** (`evioReader/EvioCompositeDecoder.cc`).

  The loops test for the end of the bank at the beginning of a block and
  before the entries of a channel, and not before the 17 bytes of a block
  header or the 5 bytes of a channel header.

      reads_inside_iff   all reads lie inside the bank exactly when the bank
                         ends where a header could begin
-/
import PokerReco.EvioReader.EvioCompositeDecoder
import PokerReco.Library.Iteration

namespace PokerReco.EvioReader

open PokerReco.Library

variable {τ ε : Type}

/-! ## §1. Banks that are cut at no header. -/

/-- The 17 bytes of a block header. -/
def blockHeader (slot : UInt8) (trigger : UInt32) (time : UInt64) (count : UInt32) : List UInt8 :=
  [slot] ++ leBytes 4 trigger.toNat ++ leBytes 8 time.toNat ++ leBytes 4 count.toNat

/-- The 5 bytes of a channel header. -/
def channelHeader (chan : UInt8) (samples : UInt32) : List UInt8 :=
  [chan] ++ leBytes 4 samples.toNat

/-- The bytes begin with `n` channels, `behind` is what follows them; the last
one can be a header with more entries than the test lets through. -/
inductive WholeChannels (f : Format τ ε) (limit : Nat) : Nat → List UInt8 → List UInt8 → Prop where
  | none (bytes : List UInt8) : WholeChannels f limit 0 bytes bytes
  | broken {n : Nat} {chan : UInt8} {samples : UInt32} {rest : List UInt8} :
      f.exceeds (limit - rest.length) samples limit = true →
      WholeChannels f limit (n + 1) (channelHeader chan samples ++ rest) rest
  | channel {n : Nat} {chan : UInt8} {samples : UInt32} {entries rest behind : List UInt8} :
      f.exceeds (limit - (entries ++ rest).length) samples limit = false →
      entries.length = samples.toNat * f.size → WholeChannels f limit n rest behind →
      WholeChannels f limit (n + 1) (channelHeader chan samples ++ (entries ++ rest)) behind

/-- The bytes are block headers, those that are accepted with their channels. -/
inductive WholeBlocks (f : Format τ ε) (limit : Nat) : List UInt8 → Prop where
  | none : WholeBlocks f limit []
  | skipped {slot : UInt8} {trigger : UInt32} {time : UInt64} {count : UInt32}
      {rest : List UInt8} : f.accepts slot count.toInt32 = false → WholeBlocks f limit rest →
      WholeBlocks f limit (blockHeader slot trigger time count ++ rest)
  | block {slot : UInt8} {trigger : UInt32} {time : UInt64} {count : UInt32}
      {rest behind : List UInt8} : f.accepts slot count.toInt32 = true →
      WholeChannels f limit count.toInt32.toInt.toNat rest behind → WholeBlocks f limit behind →
      WholeBlocks f limit (blockHeader slot trigger time count ++ rest)

/-- All reads, each an offset and a width, lie inside the first `limit` bytes. -/
def Inside (limit : Nat) (reads : List (Nat × Nat)) : Prop := ∀ r ∈ reads, r.1 + r.2 ≤ limit

/-- Two stretches of reads lie inside exactly when each of them does. -/
theorem inside_append {limit : Nat} {reads reads' : List (Nat × Nat)} :
    Inside limit (reads ++ reads') ↔ Inside limit reads ∧ Inside limit reads' :=
  List.forall_mem_append

/-! ## §2. Fields of the bank. -/

/-- A block header is 17 bytes long. -/
@[simp] theorem length_blockHeader (slot : UInt8) (trigger : UInt32) (time : UInt64)
    (count : UInt32) : (blockHeader slot trigger time count).length = 17 := by
  simp [blockHeader]

/-- A channel header is 5 bytes long. -/
@[simp] theorem length_channelHeader (chan : UInt8) (samples : UInt32) :
    (channelHeader chan samples).length = 5 := by
  simp [channelHeader]

/-- A number that fits into `w` bytes is known from them. -/
theorem leBytes_inj {w m n : Nat} (hm : m < 256 ^ w) (hn : n < 256 ^ w)
    (h : leBytes w m = leBytes w n) : m = n := by
  rw [← leValue_leBytes hm, h, leValue_leBytes hn]

/-- A word is known from its four bytes. -/
theorem leBytes_word_inj {m n : UInt32} (h : leBytes 4 m.toNat = leBytes 4 n.toNat) : m = n := by
  have hm := m.toNat_lt
  have hn := n.toNat_lt
  exact UInt32.toNat_inj.mp (leBytes_inj (by omega) (by omega) h)

/-- A channel header tells the number of its entries and where it ends. -/
theorem channelHeader_inj {chan chan' : UInt8} {samples samples' : UInt32}
    {rest rest' : List UInt8}
    (h : channelHeader chan samples ++ rest = channelHeader chan' samples' ++ rest') :
    samples = samples' ∧ rest = rest' := by
  obtain ⟨hheader, hrest⟩ := List.append_inj h (by simp)
  obtain ⟨-, hsamples⟩ := List.append_inj hheader rfl
  exact ⟨leBytes_word_inj hsamples, hrest⟩

/-- A block header tells the slot and the number of channels, and where it ends. -/
theorem blockHeader_inj {slot slot' : UInt8} {trigger trigger' : UInt32} {time time' : UInt64}
    {count count' : UInt32} {rest rest' : List UInt8}
    (h : blockHeader slot trigger time count ++ rest
      = blockHeader slot' trigger' time' count' ++ rest') :
    slot = slot' ∧ count = count' ∧ rest = rest' := by
  obtain ⟨hheader, hrest⟩ := List.append_inj h (by simp)
  obtain ⟨hfront, hcount⟩ := List.append_inj hheader (by simp)
  obtain ⟨hfront, -⟩ := List.append_inj hfront (by simp)
  obtain ⟨hslot, -⟩ := List.append_inj hfront rfl
  exact ⟨(List.cons.inj hslot).1, leBytes_word_inj hcount, hrest⟩

/-- The field of `w` bytes at an offset, when the bank holds it, is the number
that the decoder reads there. -/
theorem drop_eq_leBytes {bytes : List UInt8} {o w : Nat} (h : o + w ≤ bytes.length)
    (after : Memory) :
    bytes.drop o = leBytes w (read (buffer bytes after) o w) ++ bytes.drop (o + w) := by
  have hlength : ((bytes.drop o).take w).length = w := by
    rw [List.length_take, List.length_drop]
    omega
  have hstored : Stored (buffer bytes after) o ((bytes.drop o).take w) := by
    have hall := stored_buffer after (bytes.take o) (bytes.drop o)
    rw [List.take_append_drop, List.length_take, Nat.min_eq_left (by omega),
      ← List.take_append_drop w (bytes.drop o)] at hall
    exact (stored_append.mp hall).1
  have hread := read_of_stored hstored
  have hback := leBytes_leValue ((bytes.drop o).take w)
  rw [hlength] at hread hback
  rw [hread, hback, ← List.drop_drop, List.take_append_drop]

/-- What is read from `w` bytes fits into them. -/
theorem read_lt (mem : Memory) (o w : Nat) : read mem o w < 256 ^ w := by
  induction w generalizing o with
  | zero => exact Nat.one_pos
  | succ w ih =>
      have hbyte := (mem o).toNat_lt
      have hrest := ih (o + 1)
      rw [Nat.pow_succ]
      show (mem o).toNat + 256 * read mem (o + 1) w < _
      omega

/-- A word that is read is the number in its four bytes. -/
theorem getInt32_toNat (mem : Memory) (o : Nat) : (getInt32 mem o).toNat = read mem o 4 := by
  have hlt := read_lt mem o 4
  unfold getInt32
  rw [UInt32.toNat_ofNat']
  omega

/-- A long word that is read is the number in its eight bytes. -/
theorem getInt64_toNat (mem : Memory) (o : Nat) : (getInt64 mem o).toNat = read mem o 8 := by
  have hlt := read_lt mem o 8
  unfold getInt64
  rw [UInt64.toNat_ofNat']
  omega

section Fields

variable {bytes : List UInt8} {o : Nat} (after : Memory)

/-- A channel header that the bank holds has the fields that the decoder reads
there. -/
theorem drop_eq_channelHeader (h : o + 5 ≤ bytes.length) :
    bytes.drop o = channelHeader (getInt8 (buffer bytes after) o)
        (getInt32 (buffer bytes after) (o + 1)) ++ bytes.drop (o + 1 + 4) := by
  rw [drop_eq_leBytes (show o + 1 ≤ bytes.length by omega) after,
    drop_eq_leBytes (show o + 1 + 4 ≤ bytes.length by omega) after, ← getInt32_toNat]
  rfl

/-- A block header that the bank holds has the fields that the decoder reads
there. -/
theorem drop_eq_blockHeader (h : o + 17 ≤ bytes.length) :
    bytes.drop o = blockHeader (getInt8 (buffer bytes after) o)
        (getInt32 (buffer bytes after) (o + 1)) (getInt64 (buffer bytes after) (o + 1 + 4))
        (getInt32 (buffer bytes after) (o + 1 + 4 + 8)) ++ bytes.drop (o + 1 + 4 + 8 + 4) := by
  rw [drop_eq_leBytes (show o + 1 ≤ bytes.length by omega) after,
    drop_eq_leBytes (show o + 1 + 4 ≤ bytes.length by omega) after,
    drop_eq_leBytes (show o + 1 + 4 + 8 ≤ bytes.length by omega) after,
    drop_eq_leBytes (show o + 1 + 4 + 8 + 4 ≤ bytes.length by omega) after,
    ← getInt32_toNat, ← getInt32_toNat, ← getInt64_toNat]
  unfold blockHeader
  simp only [List.append_assoc]
  rfl

end Fields

/-! ## §3. The shape of the pieces. -/

section Pieces

variable {f : Format τ ε} {limit n : Nat} {rest behind : List UInt8}

/-- The first of some channels, by its header: the test lets its entries through
and they are there, or they are not read at all. -/
theorem wholeChannels_succ {chan : UInt8} {samples : UInt32} :
    WholeChannels f limit (n + 1) (channelHeader chan samples ++ rest) behind
      ↔ if f.exceeds (limit - rest.length) samples limit = true then behind = rest
        else samples.toNat * f.size ≤ rest.length
          ∧ WholeChannels f limit n (rest.drop (samples.toNat * f.size)) behind := by
  constructor
  · intro h
    generalize hbytes : channelHeader chan samples ++ rest = bytes at h
    cases h with
    | broken hexceeds =>
        obtain ⟨rfl, rfl⟩ := channelHeader_inj hbytes
        rw [if_pos hexceeds]
    | channel hexceeds hlength hrest =>
        obtain ⟨rfl, rfl⟩ := channelHeader_inj hbytes
        rw [if_neg (by rw [hexceeds]; exact Bool.false_ne_true), List.drop_left' hlength]
        refine ⟨?_, hrest⟩
        rw [List.length_append]
        omega
  · intro h
    split at h
    next hexceeds =>
      subst h
      exact .broken hexceeds
    next hexceeds =>
      obtain ⟨hlength, hrest⟩ := h
      rw [← List.take_append_drop (samples.toNat * f.size) rest]
      refine .channel ?_ (List.length_take_of_le hlength) hrest
      rw [List.take_append_drop]
      exact Bool.eq_false_iff.mpr hexceeds

/-- Where there is no room for a header there is no channel. -/
theorem not_wholeChannels_short {bytes : List UInt8} (h : bytes.length < 5) :
    ¬ WholeChannels f limit (n + 1) bytes behind := by
  intro hwhole
  cases hwhole with
  | broken =>
      rw [List.length_append, length_channelHeader] at h
      omega
  | channel =>
      rw [List.length_append, length_channelHeader] at h
      omega

/-- The first block, by its header: it is accepted and followed by its channels,
or it is refused and the next header is right behind it. -/
theorem wholeBlocks_header {slot : UInt8} {trigger : UInt32} {time : UInt64} {count : UInt32} :
    WholeBlocks f limit (blockHeader slot trigger time count ++ rest)
      ↔ ∃ behind, (if f.accepts slot count.toInt32 = true
          then WholeChannels f limit count.toInt32.toInt.toNat rest behind
          else behind = rest) ∧ WholeBlocks f limit behind := by
  constructor
  · intro h
    generalize hbytes : blockHeader slot trigger time count ++ rest = bytes at h
    cases h with
    | none =>
        have hlength := congrArg List.length hbytes
        rw [List.length_append, length_blockHeader, List.length_nil] at hlength
        omega
    | skipped haccepts hrest =>
        obtain ⟨rfl, rfl, rfl⟩ := blockHeader_inj hbytes
        refine ⟨rest, ?_, hrest⟩
        rw [if_neg (by rw [haccepts]; exact Bool.false_ne_true)]
    | block haccepts hchannels hbehind =>
        obtain ⟨rfl, rfl, rfl⟩ := blockHeader_inj hbytes
        refine ⟨_, ?_, hbehind⟩
        rw [if_pos haccepts]
        exact hchannels
  · rintro ⟨behind, hblock, hbehind⟩
    split at hblock
    next haccepts => exact .block haccepts hblock hbehind
    next haccepts =>
      subst hblock
      exact .skipped (Bool.eq_false_iff.mpr haccepts) hbehind

/-- Bytes that are fewer than a header, and not none, are not whole blocks. -/
theorem not_wholeBlocks_short {bytes : List UInt8} (hpos : 0 < bytes.length)
    (h : bytes.length < 17) : ¬ WholeBlocks f limit bytes := by
  intro hwhole
  cases hwhole with
  | none => exact Nat.lt_irrefl 0 hpos
  | skipped =>
      rw [List.length_append, length_blockHeader] at h
      omega
  | block =>
      rw [List.length_append, length_blockHeader] at h
      omega

end Pieces

/-! ## §4. The reads of the loops. -/

/-- The reads of an entry cover its bytes, up to the last one, so that an entry is
read inside exactly when it is there. -/
structure Widths (f : Format τ ε) : Prop where
  pos : 0 < f.size
  entry : ∀ limit o, Inside limit (f.entryReads o) ↔ o + f.size ≤ limit

section Reads

variable {f : Format τ ε} {data : Memory} {limit : Nat}

/-- The entries of a channel are read inside exactly when the last of them ends
inside. -/
theorem entriesReads_inside (hw : Widths f) (samples : Nat) {o : Nat} (ho : o ≤ limit) :
    Inside limit (f.entriesReads samples o) ↔ o + samples * f.size ≤ limit := by
  induction samples generalizing o with
  | zero =>
      rw [Nat.zero_mul, Nat.add_zero]
      exact ⟨fun _ => ho, fun _ r hr => absurd hr List.not_mem_nil⟩
  | succ samples ih =>
      have hmul : (samples + 1) * f.size = f.size + samples * f.size := by
        rw [Nat.succ_mul, Nat.add_comm]
      show Inside limit (f.entryReads o ++ f.entriesReads samples (o + f.size)) ↔ _
      rw [inside_append, hw.entry, hmul]
      constructor
      · intro ⟨hentry, hrest⟩
        have := (ih hentry).mp hrest
        omega
      · intro h
        have hentry : o + f.size ≤ limit := by omega
        exact ⟨hentry, (ih hentry).mpr (by omega)⟩

/-- The variables behind a channel header: the offset, and the two reads that were
made. -/
def behindChannelHeader (s : Scan τ ε) : Scan τ ε :=
  { s with
    offset := s.offset + 1 + 4
    reads := s.reads ++ [(s.offset, 1), (s.offset + 1, 4)] }

/-- The variables behind a channel whose entries have been read, and its hit. -/
def behindChannel (f : Format τ ε) (data : Memory) (slot : UInt8) (time : τ) (trigger : Int32)
    (s : Scan τ ε) : Scan τ ε :=
  let samples := getInt32 data (s.offset + 1)
  { offset := s.offset + 1 + 4 + samples.toNat * f.size
    reads := s.reads ++ [(s.offset, 1), (s.offset + 1, 4)]
      ++ f.entriesReads samples.toNat (s.offset + 1 + 4)
    adcs := s.adcs ++ [{ slot := slot, time := time, trigger := trigger,
                         channel := getInt8 data s.offset,
                         entries := f.entries data samples.toNat (s.offset + 1 + 4) }] }

/-- The variables behind a block header: the offset, and the four reads that were
made. -/
def behindBlockHeader (s : Scan τ ε) : Scan τ ε :=
  { s with
    offset := s.offset + 1 + 4 + 8 + 4
    reads := s.reads ++ [(s.offset, 1), (s.offset + 1, 4), (s.offset + 1 + 4, 8),
      (s.offset + 1 + 4 + 8, 4)] }

/-- A turn of the loop over the channels: the header is read, and then the test
decides whether the entries are. -/
theorem channels_succ (slot : UInt8) (time : τ) (trigger : Int32) (n : Nat) (s : Scan τ ε) :
    f.channels data limit slot time trigger (n + 1) s
      = if f.exceeds (s.offset + 1 + 4) (getInt32 data (s.offset + 1)) limit = true then
          behindChannelHeader s
        else f.channels data limit slot time trigger n (behindChannel f data slot time trigger s) :=
  rfl

/-- A block: its header is read, and then its channels if it is accepted. -/
theorem block_cases (s : Scan τ ε) :
    f.block data limit s
      = if f.accepts (getInt8 data s.offset) (getInt32 data (s.offset + 1 + 4 + 8)).toInt32 = true
        then f.channels data limit (getInt8 data s.offset)
          (f.time (getInt64 data (s.offset + 1 + 4))) (getInt32 data (s.offset + 1)).toInt32
          (getInt32 data (s.offset + 1 + 4 + 8)).toInt32.toInt.toNat (behindBlockHeader s)
        else behindBlockHeader s := rfl

/-- A channel that is read in full has made the reads of its header first. -/
theorem behindChannelHeader_reads (slot : UInt8) (time : τ) (trigger : Int32) (s : Scan τ ε) :
    (behindChannelHeader s).reads <+: (behindChannel f data slot time trigger s).reads :=
  List.prefix_append _ _

/-- A channel adds its reads to those made before. -/
theorem behindChannel_reads (slot : UInt8) (time : τ) (trigger : Int32) (s : Scan τ ε) :
    s.reads <+: (behindChannel f data slot time trigger s).reads :=
  (List.prefix_append _ _).trans (List.prefix_append _ _)

/-- The loop over the channels adds its reads to those made before, and takes none
back. -/
theorem channels_reads (slot : UInt8) (time : τ) (trigger : Int32) (n : Nat) (s : Scan τ ε) :
    s.reads <+: (f.channels data limit slot time trigger n s).reads := by
  induction n generalizing s with
  | zero => exact List.prefix_refl s.reads
  | succ n ih =>
      rw [channels_succ]
      split
      · exact List.prefix_append _ _
      · exact (behindChannel_reads slot time trigger s).trans (ih _)

/-- The loop has read the header of its first channel, whatever the test says. -/
theorem channels_header_reads (slot : UInt8) (time : τ) (trigger : Int32) (n : Nat)
    (s : Scan τ ε) : (behindChannelHeader s).reads
      <+: (f.channels data limit slot time trigger (n + 1) s).reads := by
  rw [channels_succ]
  split
  · exact List.prefix_refl _
  · exact (behindChannelHeader_reads slot time trigger s).trans (channels_reads _ _ _ n _)

/-- A block has read its header, whether it is accepted or not. -/
theorem block_reads (s : Scan τ ε) :
    (behindBlockHeader s).reads <+: (f.block data limit s).reads := by
  rw [block_cases]
  split
  · exact channels_reads _ _ _ _ _
  · exact List.prefix_refl _

/-- The outer loop adds its reads to those made before, turn by turn. -/
theorem scan_reads (s : Scan τ ε) : s.reads <+: (f.scan data limit s).reads := by
  induction hn : limit - s.offset using Nat.strongRecOn generalizing s with
  | _ n ih =>
      subst hn
      rw [Format.scan]
      split
      · next hlt =>
          have hnext := Format.block_offset_le f data limit s
          have hheader : s.reads <+: (behindBlockHeader s).reads := List.prefix_append _ _
          exact (hheader.trans (block_reads s)).trans (ih _ (by omega) (f.block data limit s) rfl)
      · exact List.prefix_refl s.reads

/-- Where all reads lie inside, those made up to some point do. -/
theorem Inside.of_le {reads reads' : List (Nat × Nat)} (h : Inside limit reads')
    (hle : reads <+: reads') : Inside limit reads :=
  fun r hr => h r (hle.subset hr)

/-- A channel header whose reads lie inside the first bytes is one of them. -/
theorem channelHeader_le {s : Scan τ ε} (h : Inside limit (behindChannelHeader s).reads) :
    s.offset + 5 ≤ limit := by
  have := (inside_append.mp h).2 (s.offset + 1, 4) (by simp)
  dsimp only at this
  omega

/-- A block header whose reads lie inside the first bytes is one of them. -/
theorem blockHeader_le {s : Scan τ ε} (h : Inside limit (behindBlockHeader s).reads) :
    s.offset + 17 ≤ limit := by
  have := (inside_append.mp h).2 (s.offset + 1 + 4 + 8, 4) (by simp)
  dsimp only at this
  omega

/-- A channel header that is there adds reads that lie inside. -/
theorem inside_channelHeader {s : Scan τ ε} (hs : Inside limit s.reads)
    (h : s.offset + 5 ≤ limit) : Inside limit (behindChannelHeader s).reads := by
  refine inside_append.mpr ⟨hs, fun r hr => ?_⟩
  simp only [List.mem_cons, List.not_mem_nil, or_false] at hr
  rcases hr with rfl | rfl
  · show s.offset + 1 ≤ limit
    omega
  · show s.offset + 1 + 4 ≤ limit
    omega

/-- A block header that is there adds reads that lie inside. -/
theorem inside_blockHeader {s : Scan τ ε} (hs : Inside limit s.reads)
    (h : s.offset + 17 ≤ limit) : Inside limit (behindBlockHeader s).reads := by
  refine inside_append.mpr ⟨hs, fun r hr => ?_⟩
  simp only [List.mem_cons, List.not_mem_nil, or_false] at hr
  rcases hr with rfl | rfl | rfl | rfl
  · show s.offset + 1 ≤ limit
    omega
  · show s.offset + 1 + 4 ≤ limit
    omega
  · show s.offset + 1 + 4 + 8 ≤ limit
    omega
  · show s.offset + 1 + 4 + 8 + 4 ≤ limit
    omega

/-- While the reads of the channels stay inside, so does the offset, also where
the last channel is not read. -/
theorem channels_offset (hw : Widths f) (slot : UInt8) (time : τ) (trigger : Int32) (n : Nat)
    {s : Scan τ ε} (ho : s.offset ≤ limit)
    (h : Inside limit (f.channels data limit slot time trigger n s).reads) :
    (f.channels data limit slot time trigger n s).offset ≤ limit := by
  induction n generalizing s with
  | zero => exact ho
  | succ n ih =>
      have hheader := channelHeader_le (h.of_le (channels_header_reads slot time trigger n s))
      rw [channels_succ] at h ⊢
      split
      · exact hheader
      · next hexceeds =>
          rw [if_neg hexceeds] at h
          have hchannel := h.of_le (channels_reads slot time trigger n _)
          exact ih ((entriesReads_inside hw _ hheader).mp (inside_append.mp hchannel).2) h

end Reads

/-! ## §5. Inside the bank. -/

section Bank

variable {f : Format τ ε} (hw : Widths f) {bytes : List UInt8} (after : Memory)

include hw

/-- **The channels of a block**: their reads stay inside the bank exactly when
the bytes are whole channels, and then the offset stands behind them. -/
theorem channels_inside_iff (slot : UInt8) (time : τ) (trigger : Int32) (n : Nat)
    (s : Scan τ ε) (ho : s.offset ≤ bytes.length)
    (hs : Inside bytes.length s.reads) (behind : List UInt8) :
    let s' := f.channels (buffer bytes after) bytes.length slot time trigger n s
    (Inside bytes.length s'.reads ∧ s'.offset ≤ bytes.length ∧ behind = bytes.drop s'.offset)
      ↔ WholeChannels f bytes.length n (bytes.drop s.offset) behind := by
  induction n generalizing s with
  | zero =>
      refine ⟨fun h => ?_, fun h => ?_⟩
      · rw [h.2.2]
        exact .none _
      · cases h
        exact ⟨hs, ho, rfl⟩
  | succ n ih =>
      intro s'
      by_cases hheader : s.offset + 5 ≤ bytes.length
      · -- the header is there, and the rest begins behind it
        have hrest : bytes.length - (bytes.drop (s.offset + 1 + 4)).length = s.offset + 1 + 4 := by
          rw [List.length_drop]
          omega
        have hin := inside_channelHeader hs hheader
        rw [drop_eq_channelHeader after hheader, wholeChannels_succ, hrest]
        subst s'
        rw [channels_succ]
        split
        · exact ⟨fun h => h.2.2, fun h => ⟨hin, hheader, h⟩⟩
        · -- the entries, and the other channels behind them
          have hentries := entriesReads_inside hw
            (getInt32 (buffer bytes after) (s.offset + 1)).toNat
            (show s.offset + 1 + 4 ≤ bytes.length from hheader)
          rw [List.length_drop, List.drop_drop]
          constructor
          · intro h
            have hchannel := h.1.of_le (channels_reads slot time trigger n _)
            have hfits := hentries.mp (inside_append.mp hchannel).2
            exact ⟨by omega, (ih (behindChannel f _ slot time trigger s) hfits hchannel).mp h⟩
          · intro ⟨hlength, hwhole⟩
            have hfits : s.offset + 1 + 4
                + (getInt32 (buffer bytes after) (s.offset + 1)).toNat * f.size ≤ bytes.length := by
              omega
            exact (ih (behindChannel f _ slot time trigger s) hfits
              (inside_append.mpr ⟨hin, hentries.mpr hfits⟩)).mpr hwhole
      · -- the header is cut off
        refine iff_of_false (fun h => ?_) (not_wholeChannels_short ?_)
        · exact hheader (channelHeader_le
            (h.1.of_le (channels_header_reads slot time trigger n s)))
        · rw [List.length_drop]
          omega

/-- **A block whose header is there**: its reads stay inside the bank exactly
when the header is refused or whole channels follow it, and then the offset
stands behind them. -/
theorem block_inside_iff {s : Scan τ ε} (hheader : s.offset + 17 ≤ bytes.length)
    (hs : Inside bytes.length s.reads) (behind : List UInt8) :
    let s' := f.block (buffer bytes after) bytes.length s
    let count := (getInt32 (buffer bytes after) (s.offset + 1 + 4 + 8)).toInt32
    let rest := bytes.drop (s.offset + 1 + 4 + 8 + 4)
    (Inside bytes.length s'.reads ∧ behind = bytes.drop s'.offset)
      ↔ if f.accepts (getInt8 (buffer bytes after) s.offset) count = true
        then WholeChannels f bytes.length count.toInt.toNat rest behind
        else behind = rest := by
  intro s' count rest
  have hin := inside_blockHeader hs hheader
  have hblock : s' = _ := block_cases s
  split at hblock
  next haccepts =>
    have hchannels := channels_inside_iff hw after (getInt8 (buffer bytes after) s.offset)
      (f.time (getInt64 (buffer bytes after) (s.offset + 1 + 4)))
      (getInt32 (buffer bytes after) (s.offset + 1)).toInt32 count.toInt.toNat
      (behindBlockHeader s) hheader hin behind
    rw [if_pos haccepts, hblock]
    exact ⟨fun h => hchannels.mp ⟨h.1, channels_offset hw _ _ _ _ hheader h.1, h.2⟩,
      fun h => ⟨(hchannels.mpr h).1, (hchannels.mpr h).2.2⟩⟩
  next haccepts =>
    rw [if_neg haccepts, hblock]
    exact ⟨fun h => h.2, fun h => ⟨hin, h⟩⟩

/-- While the reads of a block stay inside the bank, so does the offset. -/
theorem block_offset {s : Scan τ ε} (hheader : s.offset + 17 ≤ bytes.length)
    (h : Inside bytes.length (f.block (buffer bytes after) bytes.length s).reads) :
    (f.block (buffer bytes after) bytes.length s).offset ≤ bytes.length := by
  rw [block_cases] at h ⊢
  split
  next haccepts =>
    rw [if_pos haccepts] at h
    exact channels_offset hw _ _ _ _ hheader h
  next => exact hheader

/-- **The outer loop**: its reads stay inside the bank exactly when the bytes
are whole blocks. -/
theorem blocks_inside_iff (s : Scan τ ε) (ho : s.offset ≤ bytes.length)
    (hs : Inside bytes.length s.reads) :
    Inside bytes.length (f.scan (buffer bytes after) bytes.length s).reads
      ↔ WholeBlocks f bytes.length (bytes.drop s.offset) := by
  induction hn : bytes.length - s.offset using Nat.strongRecOn generalizing s with
  | _ n ih =>
      subst hn
      rw [Format.scan]
      split
      · next hlt =>
          have hnext := Format.block_offset_le f (buffer bytes after) bytes.length s
          by_cases hheader : s.offset + 17 ≤ bytes.length
          · -- the first block is inside, and then the others by the induction
            have hblock := block_inside_iff hw after hheader hs
            rw [drop_eq_blockHeader after hheader, wholeBlocks_header]
            constructor
            · intro h
              have hin := h.of_le (scan_reads _)
              have hoffset := block_offset hw after hheader hin
              exact ⟨_, (hblock _).mp ⟨hin, rfl⟩, (ih _ (by omega) _ hoffset hin rfl).mp h⟩
            · rintro ⟨behind, hfirst, hblocks⟩
              obtain ⟨hin, rfl⟩ := (hblock behind).mpr hfirst
              have hoffset := block_offset hw after hheader hin
              exact (ih _ (by omega) _ hoffset hin rfl).mpr hblocks
          · -- the header is cut off
            refine iff_of_false (fun h => ?_) (not_wholeBlocks_short ?_ ?_)
            · exact hheader (blockHeader_le
                (h.of_le ((block_reads s).trans (scan_reads _))))
            · rw [List.length_drop]
              omega
            · rw [List.length_drop]
              omega
      · next hend =>
          have hnil : bytes.drop s.offset = [] := List.drop_eq_nil_of_le (by omega)
          rw [hnil]
          exact ⟨fun _ => .none, fun _ => hs⟩

end Bank

/-! ## §6. The two decoders. -/

/-- The entries of mode 1, samples of two bytes, are covered by their reads. -/
theorem mode1_widths : Widths mode1 where
  pos := by decide
  entry limit o := by simp [Inside, mode1]

/-- The entries of mode 7, with four fields, are covered by their reads. -/
theorem mode7_widths : Widths mode7 where
  pos := by decide
  entry limit o := by
    simp only [Inside, mode7, List.forall_mem_cons, List.not_mem_nil, false_imp_iff,
      implies_true, and_true]
    omega

/-- A turn of the outer loop, which goes on with other variables or ends. -/
def Format.scanTurn (f : Format τ ε) (data : Memory) (limit : Nat) (s : Scan τ ε) :
    Scan τ ε ⊕ Scan τ ε :=
  if s.offset < limit then .inl (f.block data limit s) else .inr s

/-- The outer loop ends, whatever the bank holds. -/
theorem returns_scan (f : Format τ ε) (data : Memory) (limit : Nat) (s r : Scan τ ε) :
    Returns (f.scanTurn data limit) s r ↔ f.scan data limit s = r := by
  induction hn : limit - s.offset using Nat.strongRecOn generalizing s with
  | _ n ih =>
      subst hn
      rw [Format.scan]
      split
      · next hlt =>
          have hnext := Format.block_offset_le f data limit s
          have hturn : f.scanTurn data limit s = .inl (f.block data limit s) := if_pos hlt
          rw [returns_iff_of_turn hturn]
          exact ih _ (by omega) _ rfl
      · next hend =>
          have hturn : f.scanTurn data limit s = .inr s := if_neg hend
          exact returns_iff_of_break hturn r

/-- `decode` or `decodePulse` returns on the bank, and all its reads lie inside
the copy of the bank. -/
def DecodesInside (f : Format τ ε) (vec : List UInt32) (after : Memory) : Prop :=
  ∃ s, Returns (f.scanTurn (buffer (wordBytes vec) after) (4 * vec.length)) ⟨0, [], []⟩ s
    ∧ Inside (4 * vec.length) s.reads

/-- Either decoder stays inside exactly when the bytes of the bank are whole
blocks. -/
theorem decodesInside_iff {f : Format τ ε} (hw : Widths f) (vec : List UInt32) (after : Memory) :
    DecodesInside f vec after ↔ WholeBlocks f (4 * vec.length) (wordBytes vec) := by
  have hscan : Inside (wordBytes vec).length
        (f.scan (buffer (wordBytes vec) after) (wordBytes vec).length ⟨0, [], []⟩).reads
      ↔ WholeBlocks f (wordBytes vec).length ((wordBytes vec).drop 0) :=
    blocks_inside_iff hw after ⟨0, [], []⟩ (Nat.zero_le _) (fun r hr => absurd hr List.not_mem_nil)
  rw [length_wordBytes, List.drop_zero] at hscan
  rw [← hscan]
  constructor
  · intro ⟨s, hs, hinside⟩
    rw [(returns_scan f _ _ _ _).mp hs]
    exact hinside
  · intro h
    exact ⟨_, (returns_scan f _ _ _ _).mpr rfl, h⟩

/-- **THE DECODERS READ INSIDE THE BANK**, whatever follows it in memory,
exactly when it ends where a block header could begin. -/
theorem reads_inside_iff (vec : List UInt32) (after : Memory) :
    (DecodesInside mode1 vec after ↔ WholeBlocks mode1 (4 * vec.length) (wordBytes vec))
      ∧ (DecodesInside mode7 vec after ↔ WholeBlocks mode7 (4 * vec.length) (wordBytes vec)) :=
  ⟨decodesInside_iff mode1_widths vec after, decodesInside_iff mode7_widths vec after⟩

/-- A block of one channel without samples: 22 bytes, and two of padding. -/
def shortBlock : Mode1Block where
  slot := 3
  trigger := 1
  time := 1
  channels := [⟨0, [], by decide⟩]
  slot_pos := Nat.le_add_left 1 2
  slot_le := Nat.le_add_right 3 18
  channels_pos := by decide
  channels_le := by decide

/-- A bank of one block is padded to words, and the padding is read as the header
of a block that is not there. -/
theorem padding_read_as_header :
    ¬ DecodesInside mode1 (mode1Layout.encodeBank [shortBlock]) (fun _ => 0) := by
  intro ⟨s, hs, hinside⟩
  rw [← (returns_scan mode1 _ _ _ _).mp hs] at hinside
  have hread := hinside (35, 4) (by decide +kernel)
  revert hread
  decide

end PokerReco.EvioReader
