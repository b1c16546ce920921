/-
  PokerReco.DAQ.PtFileFormat
  ──────────────────────────
  **THE BYTES OF A POST-TRIGGER FILE** (`TRIDAS/s_dataformat_bdx.hpp`).

      PT header, datacard
        time slice header
          event header
            data frame header, samples, padding
            …

  All headers are made of 32-bit words.  A `Frame`, a `TriggeredEvent`, a
  `Slice` and a `PtFile` are what may be written: the counts and the sizes in
  the headers are those of what follows them.
-/
import Mathlib.Data.List.SplitBy
import PokerReco.DAQ.TRIDASObjects
import PokerReco.Library.LittleEndian

namespace PokerReco.DAQ.PostTrigger

open PokerReco.Library

/-! ## §1. Headers. -/

/-- A header of a fixed number of words, that is known from its words. -/
class Header (α : Type) where
  dwords : Nat
  words : α → List UInt32
  ofWords : List UInt32 → α
  length_words : ∀ head, (words head).length = dwords
  ofWords_words : ∀ head, ofWords (words head) = head

/-- The low and the high word of a number of 64 bits. -/
def halves (n : UInt64) : List UInt32 := [.ofNat n.toNat, .ofNat (n.toNat / 2 ^ 32)]

/-- A number of 64 bits from its low and its high word. -/
def joined (low high : UInt32) : UInt64 := .ofNat (low.toNat + 2 ^ 32 * high.toNat)

/-- A number put together from its halves is the number. -/
theorem joined_halves (n : UInt64) :
    joined (.ofNat n.toNat) (.ofNat (n.toNat / 2 ^ 32)) = n := by
  have hn := n.toNat_lt
  apply UInt64.toNat_inj.mp
  unfold joined
  rw [UInt64.toNat_ofNat', UInt32.toNat_ofNat', UInt32.toNat_ofNat']
  omega

/-- `PTHeader`: the header of a file, with the size of its datacard and the number
of its slices. -/
structure PTHeader where
  run_number : UInt32
  file_number : UInt32
  run_start_time : UInt64
  datacard_size : UInt32
  number_of_events : UInt32
  number_of_timeslices : UInt32
  effective_file_size : UInt32
  deriving DecidableEq, Repr

instance : Header PTHeader where
  dwords := 8
  words head :=
    [head.run_number, head.file_number] ++ halves head.run_start_time
      ++ [head.datacard_size, head.number_of_events, head.number_of_timeslices,
        head.effective_file_size]
  ofWords words :=
    { run_number := words.getD 0 0
      file_number := words.getD 1 0
      run_start_time := joined (words.getD 2 0) (words.getD 3 0)
      datacard_size := words.getD 4 0
      number_of_events := words.getD 5 0
      number_of_timeslices := words.getD 6 0
      effective_file_size := words.getD 7 0 }
  length_words _ := rfl
  ofWords_words head :=
    congrArg (fun time => { head with run_start_time := time }) (joined_halves head.run_start_time)

/-- `TimeSliceHeader`: the number of a slice, how many events it has and how many
bytes they are. -/
structure TimeSliceHeader where
  TS_ID : UInt64
  NEvents : UInt32
  TS_size : UInt32
  deriving DecidableEq, Repr

instance : Header TimeSliceHeader where
  dwords := 4
  words head := halves head.TS_ID ++ [head.NEvents, head.TS_size]
  ofWords words :=
    { TS_ID := joined (words.getD 0 0) (words.getD 1 0)
      NEvents := words.getD 2 0
      TS_size := words.getD 3 0 }
  length_words _ := rfl
  ofWords_words head :=
    congrArg (fun id => { head with TS_ID := id }) (joined_halves head.TS_ID)

/-- `TEHeaderInfo`, all of its members. -/
@[ext] structure EventHeader extends TEHeaderInfo where
  EventTag : UInt32
  EventID : UInt32
  EventL : UInt32
  nHit : UInt32
  StartTime : UInt64
  TSCompleted : UInt32

/-- An element of an array among the members of a header, by its place in
the words. -/
theorem getD_ofFn {n : Nat} (front back : List UInt32) (f : Fin n → UInt32) (i : Fin n) :
    (front ++ List.ofFn f ++ back).getD (front.length + i) 0 = f i := by
  rw [List.getD_eq_getElem?_getD, List.append_assoc, List.getElem?_append_right (by omega),
    List.getElem?_append_left (by simp)]
  simp

instance : Header EventHeader where
  dwords := 28
  words head :=
    [head.EventTag, head.EventID, head.EventL, head.nHit] ++ halves head.StartTime
      ++ [head.TSCompleted] ++ List.ofFn head.nseeds ++ List.ofFn head.plugin_trigtype
      ++ List.ofFn head.plugin_nseeds
  ofWords words :=
    { EventTag := words.getD 0 0
      EventID := words.getD 1 0
      EventL := words.getD 2 0
      nHit := words.getD 3 0
      StartTime := joined (words.getD 4 0) (words.getD 5 0)
      TSCompleted := words.getD 6 0
      nseeds := fun i => words.getD (7 + i) 0
      plugin_trigtype := fun i => words.getD (12 + i) 0
      plugin_nseeds := fun i => words.getD (20 + i) 0 }
  length_words head := by simp [halves]
  ofWords_words head := by
    have hnseeds := getD_ofFn ([head.EventTag, head.EventID, head.EventL, head.nHit]
      ++ halves head.StartTime ++ [head.TSCompleted])
      (List.ofFn head.plugin_trigtype ++ List.ofFn head.plugin_nseeds) head.nseeds
    have htrigtype := getD_ofFn ([head.EventTag, head.EventID, head.EventL, head.nHit]
      ++ halves head.StartTime ++ [head.TSCompleted] ++ List.ofFn head.nseeds)
      (List.ofFn head.plugin_nseeds) head.plugin_trigtype
    have hplugin := getD_ofFn ([head.EventTag, head.EventID, head.EventL, head.nHit]
      ++ halves head.StartTime ++ [head.TSCompleted] ++ List.ofFn head.nseeds
      ++ List.ofFn head.plugin_trigtype) [] head.plugin_nseeds
    rw [← List.append_assoc] at hnseeds
    rw [List.append_nil] at hplugin
    exact EventHeader.ext (funext hnseeds) (funext htrigtype) (funext hplugin) rfl rfl rfl rfl
      (joined_halves head.StartTime) rfl

/-- `DataFrameHeader`, all of its members. -/
@[ext] structure FrameHeader extends DataFrameHeader where
  SyncBytes : BitVec 16
  NDataSamples : BitVec 7
  FifoFull : Bool
  FragFlag : Bool
  ZipFlag : Bool

/-- The first word of a data frame. -/
def FrameHeader.id (head : FrameHeader) : Nat :=
  head.PMTID.toNat + 2 ^ 4 * head.EFCMID.toNat + 2 ^ 9 * head.TowerID.toNat
    + 2 ^ 16 * head.SyncBytes.toNat

/-- The second and the third word of a data frame: its time. -/
def FrameHeader.time (head : FrameHeader) : Nat :=
  head.T4ns.toNat + 2 ^ 16 * head.FrameCounter.toNat + 2 ^ 29 * head.Seconds.toNat
    + 2 ^ 46 * head.Days.toNat + 2 ^ 56 * head.Years.toNat

/-- The fourth word of a data frame: its flags and the number of its samples. -/
def FrameHeader.info (head : FrameHeader) : Nat :=
  head.NDataSamples.toNat + 2 ^ 7 * head.FifoFull.toNat + 2 ^ 8 * head.Charge.toNat
    + 2 ^ 30 * head.FragFlag.toNat + 2 ^ 31 * head.ZipFlag.toNat

/-- The bit-fields, from the low end of the words. -/
def FrameHeader.ofFields (id time info : Nat) : FrameHeader where
  PMTID := .ofNat 4 id
  EFCMID := .ofNat 5 (id / 2 ^ 4)
  TowerID := .ofNat 7 (id / 2 ^ 9)
  SyncBytes := .ofNat 16 (id / 2 ^ 16)
  T4ns := .ofNat 16 time
  FrameCounter := .ofNat 13 (time / 2 ^ 16)
  Seconds := .ofNat 17 (time / 2 ^ 29)
  Days := .ofNat 10 (time / 2 ^ 46)
  Years := .ofNat 8 (time / 2 ^ 56)
  NDataSamples := .ofNat 7 info
  FifoFull := info / 2 ^ 7 % 2 == 1
  Charge := .ofNat 22 (info / 2 ^ 8)
  FragFlag := info / 2 ^ 30 % 2 == 1
  ZipFlag := info / 2 ^ 31 % 2 == 1

/-- A bit-field `w` bits wide, read from the place it starts at. -/
theorem ofNat_field {w n : Nat} (field : BitVec w) (h : n % 2 ^ w = field.toNat) :
    BitVec.ofNat w n = field := by
  apply BitVec.eq_of_toNat_eq
  rw [BitVec.toNat_ofNat, h]

/-- A flag, read from the one bit that it takes. -/
theorem flag_field {n : Nat} (flag : Bool) (h : n % 2 = flag.toNat) : (n % 2 == 1) = flag := by
  rw [h]
  cases flag <;> rfl

/-- A header put together from its bit-fields is the header. -/
theorem FrameHeader.ofFields_fields (head : FrameHeader) :
    ofFields head.id head.time head.info = head := by
  have hPMTID := head.PMTID.isLt
  have hEFCMID := head.EFCMID.isLt
  have hTowerID := head.TowerID.isLt
  have hSync := head.SyncBytes.isLt
  have hT4ns := head.T4ns.isLt
  have hFrame := head.FrameCounter.isLt
  have hSeconds := head.Seconds.isLt
  have hDays := head.Days.isLt
  have hYears := head.Years.isLt
  have hN := head.NDataSamples.isLt
  have hCharge := head.Charge.isLt
  have hFifo := head.FifoFull.toNat_lt
  have hFrag := head.FragFlag.toNat_lt
  have hZip := head.ZipFlag.toNat_lt
  unfold ofFields
  ext1
  · exact ofNat_field _ (by unfold id; omega)
  · exact ofNat_field _ (by unfold id; omega)
  · exact ofNat_field _ (by unfold id; omega)
  · exact ofNat_field _ (by unfold time; omega)
  · exact ofNat_field _ (by unfold time; omega)
  · exact ofNat_field _ (by unfold time; omega)
  · exact ofNat_field _ (by unfold time; omega)
  · exact ofNat_field _ (by unfold time; omega)
  · exact ofNat_field _ (by unfold info; omega)
  · exact ofNat_field _ (by unfold id; omega)
  · exact ofNat_field _ (by unfold info; omega)
  · exact flag_field _ (by unfold info; omega)
  · exact flag_field _ (by unfold info; omega)
  · exact flag_field _ (by unfold info; omega)

/-- The bit-fields of a header fit into the words that hold them. -/
theorem FrameHeader.fields_lt (head : FrameHeader) :
    head.id < 2 ^ 32 ∧ head.time < 2 ^ 64 ∧ head.info < 2 ^ 32 := by
  have hPMTID := head.PMTID.isLt
  have hEFCMID := head.EFCMID.isLt
  have hTowerID := head.TowerID.isLt
  have hSync := head.SyncBytes.isLt
  have hT4ns := head.T4ns.isLt
  have hFrame := head.FrameCounter.isLt
  have hSeconds := head.Seconds.isLt
  have hDays := head.Days.isLt
  have hYears := head.Years.isLt
  have hN := head.NDataSamples.isLt
  have hCharge := head.Charge.isLt
  have hFifo := head.FifoFull.toNat_lt
  have hFrag := head.FragFlag.toNat_lt
  have hZip := head.ZipFlag.toNat_lt
  unfold id time info
  omega

instance : Header FrameHeader where
  dwords := 4
  words head := [.ofNat head.id] ++ halves (.ofNat head.time) ++ [.ofNat head.info]
  ofWords words :=
    .ofFields (words.getD 0 0).toNat (joined (words.getD 1 0) (words.getD 2 0)).toNat
      (words.getD 3 0).toNat
  length_words _ := rfl
  ofWords_words head := by
    obtain ⟨hid, htime, hinfo⟩ := head.fields_lt
    have hwords : FrameHeader.ofFields (UInt32.ofNat head.id).toNat
        (joined (.ofNat (UInt64.ofNat head.time).toNat)
          (.ofNat ((UInt64.ofNat head.time).toNat / 2 ^ 32))).toNat
        (UInt32.ofNat head.info).toNat = head := by
      rw [joined_halves, UInt32.toNat_ofNat_of_lt' hid, UInt64.toNat_ofNat_of_lt' htime,
        UInt32.toNat_ofNat_of_lt' hinfo, head.ofFields_fields]
    exact hwords

/-- The bytes of a header, word by word and each from its low end. -/
def headerBytes {α : Type} [Header α] (head : α) : List UInt8 := wordBytes (Header.words head)

/-- `sizeof` of a header, which is what the reader asks the stream for. -/
def headerSize (α : Type) [Header α] : Nat := 4 * Header.dwords α

/-- A header takes as many bytes in the file as the reader asks for. -/
theorem length_headerBytes {α : Type} [Header α] (head : α) :
    (headerBytes head).length = headerSize α := by
  unfold headerBytes headerSize
  rw [length_wordBytes, Header.length_words]

/-- A data frame begins with a byte at least. -/
theorem headerBytes_ne (header : FrameHeader) : headerBytes header ≠ [] :=
  List.ne_nil_of_length_pos (by rw [length_headerBytes]; decide)

/-- A header read back from its bytes. -/
theorem ofWords_headerBytes {α : Type} [Header α] (head : α) :
    Header.ofWords (packWords (headerBytes head)) = head := by
  unfold headerBytes
  rw [packWords_wordBytes, Header.ofWords_words]

/-! ## §2. Data frames. -/

namespace FrameHeader

/-- `getDFHSampleSize`: two bytes for every header, also for one of
compressed samples. -/
def getDFHSampleSize (_header : FrameHeader) : Nat := 2

variable (header : FrameHeader)

/-- `compressed`: the samples of the frame take one byte each in the file. -/
def compressed : Bool := header.ZipFlag

/-- `subsequent`: the frame goes on with the hit of the frame before it. -/
def subsequent : Bool := header.FragFlag

/-- `getDFHNSamples`: how many samples the frame has. -/
def getDFHNSamples : Nat := header.NDataSamples.toNat

/-- `getDFHPayloadSize`: how many bytes stand behind the header of the frame,
which is more than its samples when these are compressed. -/
def getDFHPayloadSize : Nat :=
  let pad := if header.NDataSamples.toNat % 2 = 0 then 0 else 2
  header.NDataSamples.toNat * header.getDFHSampleSize + pad

/-- The bytes of one sample in the file. -/
def sampleWidth : Nat := if header.compressed then 1 else 2

/-- The payload of a frame is at most 256 bytes, so that sizes of frames stay
in an `int`. -/
theorem getDFHPayloadSize_le : header.getDFHPayloadSize ≤ 256 := by
  have hN := header.NDataSamples.isLt
  unfold getDFHPayloadSize getDFHSampleSize
  dsimp only
  split_ifs <;> omega

end FrameHeader

/-- A data frame: as many samples as the header says, below 256 where they are
compressed, and bytes of no meaning up to the size of the payload. -/
structure Frame where
  header : FrameHeader
  samples : List UInt16
  padding : List UInt8
  length_samples : samples.length = header.getDFHNSamples
  samples_lt : ∀ sample ∈ samples, sample.toNat < 256 ^ header.sampleWidth
  length_padding : samples.length * header.sampleWidth + padding.length = header.getDFHPayloadSize

namespace Frame

/-- The bytes of the samples, `width` for each, from the low end. -/
def sampleBytes (width : Nat) (samples : List UInt16) : List UInt8 :=
  samples.flatMap fun sample => leBytes width sample.toNat

/-- The bytes of a frame: its header, its samples, and what fills the payload. -/
def bytes (frame : Frame) : List UInt8 :=
  headerBytes frame.header
    ++ (sampleBytes frame.header.sampleWidth frame.samples ++ frame.padding)

/-- The samples take `width` bytes each. -/
theorem length_sampleBytes (width : Nat) (samples : List UInt16) :
    (sampleBytes width samples).length = samples.length * width := by
  induction samples with
  | nil => simp [sampleBytes]
  | cons sample samples ih =>
      show (leBytes width sample.toNat ++ sampleBytes width samples).length = _
      rw [List.length_append, length_leBytes, ih, List.length_cons, Nat.succ_mul]
      omega

/-- The bytes of a frame in a stream: header, samples and padding, and then what
is behind the frame. -/
theorem bytes_append (frame : Frame) (tail : List UInt8) :
    frame.bytes ++ tail = headerBytes frame.header
      ++ (sampleBytes frame.header.sampleWidth frame.samples ++ (frame.padding ++ tail)) := by
  unfold bytes
  simp only [List.append_assoc]

/-- A frame takes its header and its payload. -/
theorem length_bytes (frame : Frame) :
    frame.bytes.length = 16 + frame.header.getDFHPayloadSize := by
  unfold bytes
  rw [List.length_append, length_headerBytes, List.length_append, length_sampleBytes,
    frame.length_padding]
  rfl

end Frame

/-! ## §3. Hits and events. -/

/-- `Hit<sample::uncompressed>`: the headers of its frames and all their samples. -/
structure Hit where
  m_heads : List FrameHeader
  m_samples : List UInt16

/-- A hit without frames, as `std::vector` makes it. -/
def Hit.empty : Hit := ⟨[], []⟩

/-- The hit of some frames. -/
def Hit.ofFrames (frames : List Frame) : Hit where
  m_heads := frames.map Frame.header
  m_samples := frames.flatMap Frame.samples

/-- The hits of the frames of an event: a frame that is not subsequent begins
one. -/
def hitsOf (frames : List Frame) : List Hit :=
  (frames.splitBy fun _ frame => frame.header.subsequent).map Hit.ofFrames

/-- An event: its header and its hits. -/
structure Event where
  m_head : EventHeader
  m_hits : List Hit

/-- `TimeSlice`: its header and its events. -/
structure TimeSlice where
  m_head : TimeSliceHeader
  m_events : List Event

/-- The bytes of some frames. -/
def frameBytes (frames : List Frame) : List UInt8 := frames.flatMap Frame.bytes

/-- Each frame takes 16 bytes at least, so that a loop over the bytes makes turns
enough for the frames. -/
theorem length_frameBytes (frames : List Frame) :
    16 * frames.length ≤ (frameBytes frames).length := by
  induction frames with
  | nil => exact Nat.le_refl 0
  | cons frame frames ih =>
      have hlength := frame.length_bytes
      have hcons : (frameBytes (frame :: frames)).length
          = frame.bytes.length + (frameBytes frames).length := List.length_append
      rw [List.length_cons]
      omega

/-- An event that may be written: there is a frame, the header counts the hits,
and the size of the frames is a positive `int`. -/
structure TriggeredEvent where
  EventTag : UInt32
  EventID : UInt32
  StartTime : UInt64
  TSCompleted : UInt32
  info : TEHeaderInfo
  frames : List Frame
  frames_ne : frames ≠ []
  length_lt : (frameBytes frames).length + 112 < 2 ^ 31

namespace TriggeredEvent

variable (event : TriggeredEvent)

/-- The header of the event, with the size that its frames make. -/
def header : EventHeader where
  toTEHeaderInfo := event.info
  EventTag := event.EventTag
  EventID := event.EventID
  EventL := .ofNat (112 + (frameBytes event.frames).length)
  nHit := .ofNat (hitsOf event.frames).length
  StartTime := event.StartTime
  TSCompleted := event.TSCompleted

/-- The bytes of the event: its header and its frames. -/
def bytes : List UInt8 := headerBytes event.header ++ frameBytes event.frames

/-- The event as a reader is to find it: the frames put together to hits. -/
def read : Event := ⟨event.header, hitsOf event.frames⟩

/-- An event takes its header and its frames. -/
theorem length_bytes : event.bytes.length = 112 + (frameBytes event.frames).length := by
  unfold bytes
  rw [List.length_append, length_headerBytes]
  rfl

end TriggeredEvent

/-! ## §4. Time slices and files. -/

/-- A time slice that may be written. -/
structure Slice where
  TS_ID : UInt64
  events : List TriggeredEvent
  length_lt : (events.flatMap TriggeredEvent.bytes).length + 16 < 2 ^ 32

namespace Slice

variable (slice : Slice)

/-- The bytes of the events of the slice. -/
def eventBytes : List UInt8 := slice.events.flatMap TriggeredEvent.bytes

/-- The header of the slice, with the size and the number of its events. -/
def header : TimeSliceHeader where
  TS_ID := slice.TS_ID
  NEvents := .ofNat slice.events.length
  TS_size := .ofNat (16 + slice.eventBytes.length)

/-- The bytes of the slice: its header and its events. -/
def bytes : List UInt8 := headerBytes slice.header ++ slice.eventBytes

/-- The slice as a reader is to find it. -/
def read : TimeSlice := ⟨slice.header, slice.events.map TriggeredEvent.read⟩

/-- A slice takes its header and its events. -/
theorem length_bytes : slice.bytes.length = 16 + slice.eventBytes.length := by
  unfold bytes
  rw [List.length_append, length_headerBytes]
  rfl

end Slice

/-- A file that may be written: it has a slice. -/
structure PtFile where
  run_number : UInt32
  file_number : UInt32
  run_start_time : UInt64
  number_of_events : UInt32
  effective_file_size : UInt32
  datacard : List UInt8
  slices : List Slice
  datacard_lt : datacard.length < 2 ^ 32
  slices_ne : slices ≠ []
  slices_lt : slices.length < 2 ^ 32

namespace PtFile

variable (file : PtFile)

/-- The header of the file, with the size of the datacard and the number of
the slices. -/
def header : PTHeader where
  run_number := file.run_number
  file_number := file.file_number
  run_start_time := file.run_start_time
  datacard_size := .ofNat file.datacard.length
  number_of_events := file.number_of_events
  number_of_timeslices := .ofNat file.slices.length
  effective_file_size := file.effective_file_size

/-- The bytes of some slices. -/
def sliceBytes (slices : List Slice) : List UInt8 := slices.flatMap Slice.bytes

/-- The bytes of the file: its header, the datacard and the slices. -/
def bytes : List UInt8 := headerBytes file.header ++ (file.datacard ++ sliceBytes file.slices)

end PtFile

end PokerReco.DAQ.PostTrigger
