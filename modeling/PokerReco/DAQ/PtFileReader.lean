/-
  PokerReco.DAQ.PtFileReader
  ──────────────────────────
  **READING A POST-TRIGGER FILE** (`TRIDAS/ptfile_reader.hpp`,
  `TRIDAS/ptfile_reader.cc`).

  The reader goes through the file once to find where its slices begin, and
  reads a slice when it is asked for.  An event is read frame by frame until
  its size is used up; `hits` has been made with as many hits as the header of
  the event counts, and `++current` does not look for its end.

      parse_event_frames   which hits come out, and when `current` runs over
                           the end
      slices_in_any_order  what was written is read, in whatever order
-/
import PokerReco.DAQ.PtFileFormat
import PokerReco.Library.ByteStream

namespace PokerReco.DAQ.PostTrigger

open PokerReco.Library

/-! ## §1. The reader. -/

/-- What ends a call of the reader: an exception, which somebody may catch, or an
access that the language leaves undefined. -/
inductive PtFault where
  | runtime_error (what : String)
  | length_error
  | undefined
  deriving DecidableEq, Repr

/-- A computation on the file that may end in a `PtFault`; the stream keeps the
place and the flags it has at that point. -/
abbrev PtReading (α : Type) : Type := StreamReader PtFault α

/-- `readHeader`: as many bytes as the structure has are read over it, and the
place moves behind them. -/
def readHeader (α : Type) [Header α] : PtReading α := do
  let bytes ← StreamReader.lift (·.read (headerSize α))
  if bytes.length ≠ headerSize α then
    StreamReader.throw (.runtime_error "Error reading the full header from file.")
  else pure (Header.ofWords (packWords bytes))

/-- `read_samples`, for samples of `width` bytes: the samples, and how many
bytes were read. -/
def read_samples (width : Nat) : Nat → PtReading (List UInt16 × Nat)
  | 0 => pure ([], 0)
  | nsamples + 1 => do
      let bytes ← StreamReader.lift (·.read width)
      let rest ← read_samples width nsamples
      pure (.ofNat (leValue bytes) :: rest.1, bytes.length + rest.2)

/-- The hit that `current` points to is changed; where `current` is behind the
last hit of the vector, the access is undefined. -/
def changeHit (hits : List Hit) (current : Nat) (change : Hit → Hit) : PtReading (List Hit) :=
  match hits[current]? with
  | some hit => pure (hits.set current (change hit))
  | none => StreamReader.throw .undefined

/-- `++current` before a frame that begins a hit, if there are frames in the
current one. -/
def nextCurrent (hits : List Hit) (current : Nat) (head : FrameHeader) : PtReading Nat :=
  if head.subsequent then pure current
  else
    match hits[current]? with
    | some hit => pure (if hit.m_heads.isEmpty then current else current + 1)
    | none => StreamReader.throw .undefined

/-- A turn of the loop of `parse_event`: the header of a frame is read, it decides
on the current hit, and the samples go into that hit. -/
def turn (looks : Bool) (hits : List Hit) (current : Nat) (event_size : Int32) :
    PtReading (List Hit × Nat × Int32) := do
  let head ← readHeader FrameHeader
  let current ← nextCurrent hits current head
  let hits ← changeHit hits current fun hit => { hit with m_heads := hit.m_heads ++ [head] }
  let samples ← read_samples head.sampleWidth head.getDFHNSamples
  let hits ← changeHit hits current fun hit =>
    { hit with m_samples := hit.m_samples ++ samples.1 }
  let diff := head.getDFHPayloadSize - head.getDFHNSamples * head.sampleWidth
  StreamReader.move (·.ignore looks diff)
  pure (hits, current,
    event_size - .ofNat (headerSize FrameHeader) - .ofNat samples.2 - .ofNat diff)

/-- The loop of `parse_event`.  Each turn takes 16 bytes of the file or throws,
and so there are no more turns than bytes. -/
def parseFrames (looks : Bool) : Nat → List Hit → Nat → Int32 → PtReading (List Hit × Int32)
  | 0, _, _, _ => StreamReader.throw .undefined
  | turns + 1, hits, current, event_size => do
      let parsed ← turn looks hits current event_size
      let stream ← StreamReader.holds
      if stream ∧ parsed.2.2 > 0 then parseFrames looks turns parsed.1 parsed.2.1 parsed.2.2
      else pure (parsed.1, parsed.2.2)

/-- `parse_event`: a vector of `nhits` hits is made first, for which a negative
number is a `length_error`, and then the frames fill it. -/
def parse_event (looks : Bool) (nhits event_size : Int32) : PtReading (List Hit) := do
  if nhits < 0 then StreamReader.throw .length_error
  else
    let hits := List.replicate nhits.toInt.toNat Hit.empty
    let turns ← StreamReader.lift fun s => (s.bytes.length + 1, s)
    let parsed ← parseFrames looks turns hits 0 event_size
    if parsed.2 ≠ 0 then StreamReader.throw (.runtime_error "Incomplete event in file.")
    else pure parsed.1

/-- The constructor of `Event`: its header, and then the hits that the header
counts, from as many bytes as it says. -/
def readEvent (looks : Bool) : PtReading Event := do
  let m_head ← readHeader EventHeader
  -- the difference is a `size_t`, and is taken as an `int`
  let event_size := m_head.EventL.toInt32 - .ofNat (headerSize EventHeader)
  let m_hits ← parse_event looks m_head.nHit.toInt32 event_size
  pure ⟨m_head, m_hits⟩

/-- The loop of the constructor of `TimeSlice`: one event after the other, as many
as the header of the slice says. -/
def readEvents (looks : Bool) : Nat → PtReading (List Event)
  | 0 => pure []
  | nEvents + 1 => do
      let event ← readEvent looks
      let events ← readEvents looks nEvents
      pure (event :: events)

/-- The constructor of `TimeSlice`: the header, and then the events behind it. -/
def readTimeSlice (looks : Bool) : PtReading TimeSlice := do
  let m_head ← readHeader TimeSliceHeader
  let nEvents := m_head.NEvents.toInt32
  if nEvents < 0 then StreamReader.throw .length_error
  else
    let m_events ← readEvents looks nEvents.toInt.toNat
    pure ⟨m_head, m_events⟩

/-- `PtFileReader`: the open file with the header of its run and the places at
which its slices begin. -/
structure PtFileReader where
  m_file : InputStream
  m_head : PTHeader
  m_ts_pos : List Nat

/-- The loop of the constructor of `PtFileReader`: the places of the slices, of
which `found` are found.  A place of `-1` is not kept: the header after it
cannot be read. -/
def findSlices (looks : Bool) (nTS : Nat) : Nat → List Nat → PtReading (List Nat)
  | 0, _ => StreamReader.throw .undefined
  | turns + 1, found => do
      let place ← StreamReader.lift InputStream.tellg
      let found := found ++ place.toList
      let ts_head ← readHeader TimeSliceHeader
      -- a negative number of bytes to skip is none
      StreamReader.move (·.ignore looks (ts_head.TS_size.toNat - headerSize TimeSliceHeader))
      let m_file ← StreamReader.holds
      if m_file ∧ found.length < nTS then findSlices looks nTS turns found
      else pure found

namespace PtFileReader

/-- What the constructor reads of an open file: the header of the run, past the
datacard, and then the places of all slices. -/
def scan (looks : Bool) : PtReading (PTHeader × List Nat) := do
  let m_head ← readHeader PTHeader
  StreamReader.move fun s => s.seekg (s.pos + m_head.datacard_size.toNat)
  let turns ← StreamReader.lift fun s => (s.bytes.length + 1, s)
  let m_ts_pos ← findSlices looks m_head.number_of_timeslices.toNat turns []
  StreamReader.move fun s => (s.seekg 0).clear
  pure (m_head, m_ts_pos)

/-- The constructor, of the file `bytes`: the reader keeps the stream as the
search for the slices leaves it. -/
def new (looks : Bool) (bytes : List UInt8) : Except PtFault PtFileReader :=
  match scan looks (.ofBytes bytes) with
  | (.ok scanned, m_file) => .ok ⟨m_file, scanned.1, scanned.2⟩
  | (.error e, _) => .error e

/-- `operator []`: the stream is put to the place of the slice at `pos` and its
flags are cleared, the slice is read there, and the reader is left behind it. -/
def getSlice (looks : Bool) (reader : PtFileReader) (pos : Nat) :
    Except PtFault TimeSlice × PtFileReader :=
  match reader.m_ts_pos[pos]? with
  | none => (.error .undefined, reader)
  | some place =>
      let result := readTimeSlice looks (reader.m_file.seekg place).clear
      (result.1, { reader with m_file := result.2 })

/-- The slices at some positions, one after the other with the same reader; a
failed access does not end the reading of the others. -/
def getSlices (looks : Bool) : PtFileReader → List Nat → List (Except PtFault TimeSlice)
  | _, [] => []
  | reader, pos :: places =>
      (reader.getSlice looks pos).1 :: getSlices looks (reader.getSlice looks pos).2 places

end PtFileReader

/-! ## §2. One frame. -/

variable {s : InputStream} {tail : List UInt8}

/-- Where the bytes of a header are next in the stream, `readHeader` gives that
header and moves the stream over its bytes. -/
theorem readHeader_ready {α : Type} [Header α] (head : α)
    (h : s.Ready (headerBytes head ++ tail)) :
    readHeader α s = (.ok head, s.advance (headerSize α)) := by
  unfold readHeader
  rw [StreamReader.bind_ok (StreamReader.lift_read (length_headerBytes head) h),
    if_neg (not_not.mpr (length_headerBytes head)), ofWords_headerBytes]
  rfl

/-- Where samples are next in the stream, as many as are asked for, they are read
with the number of bytes they take. -/
theorem read_samples_ready {width : Nat} (samples : List UInt16)
    (hlt : ∀ sample ∈ samples, sample.toNat < 256 ^ width)
    (h : s.Ready (Frame.sampleBytes width samples ++ tail)) :
    read_samples width samples.length s
      = (.ok (samples, samples.length * width), s.advance (samples.length * width)) := by
  induction samples generalizing s with
  | nil =>
      rw [List.length_nil, Nat.zero_mul]
      rfl
  | cons sample samples ih =>
      have hbytes : Frame.sampleBytes width (sample :: samples) ++ tail
          = leBytes width sample.toNat ++ (Frame.sampleBytes width samples ++ tail) := by
        rw [← List.append_assoc]
        rfl
      rw [hbytes] at h
      have hnext := h.advance
      rw [length_leBytes] at hnext
      have hrest := ih (fun q hq => hlt q (List.mem_cons_of_mem _ hq)) hnext
      show (StreamReader.lift (·.read width) >>= fun bytes =>
        read_samples width samples.length >>= _) s = _
      rw [StreamReader.bind_ok (StreamReader.lift_read (length_leBytes width sample.toNat) h),
        StreamReader.bind_ok hrest, leValue_leBytes (hlt sample List.mem_cons_self), length_leBytes,
        UInt16.ofNat_toNat]
      show (Except.ok _, (s.advance width).advance _) = _
      rw [InputStream.advance_advance, List.length_cons, Nat.succ_mul, Nat.add_comm width]

/-- The hit with one more frame: its header and its samples are put behind those
that the hit has already. -/
def Hit.add (hit : Hit) (frame : Frame) : Hit where
  m_heads := hit.m_heads ++ [frame.header]
  m_samples := hit.m_samples ++ frame.samples

/-- A frame is put into the hit that `current` points to, first the header. -/
theorem changeHit_twice (hits : List Hit) {current : Nat} {hit : Hit}
    (hhit : hits[current]? = some hit) (head : FrameHeader) (samples : List UInt16)
    (s : InputStream) :
    changeHit hits current (fun hit => { hit with m_heads := hit.m_heads ++ [head] }) s
      = (.ok (hits.set current ⟨hit.m_heads ++ [head], hit.m_samples⟩), s)
    ∧ changeHit (hits.set current ⟨hit.m_heads ++ [head], hit.m_samples⟩) current
        (fun hit => { hit with m_samples := hit.m_samples ++ samples }) s
      = (.ok (hits.set current ⟨hit.m_heads ++ [head], hit.m_samples ++ samples⟩), s) := by
  obtain ⟨hlt, -⟩ := List.getElem?_eq_some_iff.mp hhit
  refine ⟨?_, ?_⟩
  · unfold changeHit
    rw [hhit]
    rfl
  · unfold changeHit
    rw [List.getElem?_set_self hlt]
    show (Except.ok _, s) = _
    rw [List.set_set]

/-- **A frame** that is next in the stream goes into the hit to which its header
makes `current` point, and its bytes are taken from the size. -/
theorem turn_ready (looks : Bool) (frame : Frame) {hits : List Hit} {current current' : Nat}
    {hit : Hit} (event_size : Int32) (h : s.Ready (frame.bytes ++ tail))
    (hnext : ∀ s, nextCurrent hits current frame.header s = (.ok current', s))
    (hhit : hits[current']? = some hit) :
    ∃ s', s'.Before tail ∧ s'.bytes = s.bytes
      ∧ turn looks hits current event_size s
        = (.ok (hits.set current' (hit.add frame), current',
            event_size - .ofNat frame.bytes.length), s') := by
  rw [frame.bytes_append] at h
  -- header, samples and padding are next in the stream, one after the other
  have hhead := h.advance
  rw [length_headerBytes] at hhead
  have hsamples := hhead.advance
  rw [Frame.length_sampleBytes] at hsamples
  obtain ⟨hbefore, hfile, -⟩ := InputStream.ignore_before looks hsamples
  refine ⟨_, hbefore, hfile, ?_⟩
  -- what the source skips is the payload without its samples
  have hdiff : frame.header.getDFHPayloadSize
      - frame.header.getDFHNSamples * frame.header.sampleWidth = frame.padding.length := by
    have := frame.length_padding
    rw [← frame.length_samples]
    omega
  have hread := read_samples_ready frame.samples frame.samples_lt hhead
  rw [frame.length_samples] at hread
  unfold turn
  rw [StreamReader.bind_ok (readHeader_ready frame.header h), StreamReader.bind_ok (hnext _),
    StreamReader.bind_ok (changeHit_twice hits hhit _ [] _).1, StreamReader.bind_ok hread,
    StreamReader.bind_ok (changeHit_twice hits hhit _ frame.samples _).2]
  dsimp only
  rw [hdiff]
  -- the three parts that are taken from the size make the frame
  show (Except.ok (_, _, event_size - .ofNat 16 - .ofNat _ - .ofNat _), _) = _
  rw [Int32.sub_sub, Int32.sub_sub, ← Int32.add_assoc, ← Int32.ofNat_add, ← Int32.ofNat_add,
    frame.length_bytes, ← frame.length_padding, ← frame.length_samples, Nat.add_assoc]
  rfl

/-! ## §3. The frames of an event. -/

/-- The hits from the current one on when some frames follow it: a frame that
begins a hit closes the current one. -/
def collect : Hit → List Frame → List Hit
  | hit, [] => [hit]
  | hit, frame :: frames =>
      if frame.header.subsequent then collect (hit.add frame) frames
      else hit :: collect (Hit.empty.add frame) frames

/-- The hit of some frames with one more frame added is the hit of all of them. -/
theorem ofFrames_add (frames : List Frame) (frame : Frame) :
    (Hit.ofFrames frames).add frame = Hit.ofFrames (frames ++ [frame]) := by
  unfold Hit.ofFrames Hit.add
  simp

/-- The grouping of the frames by `splitBy` and the collection from a current hit
make the same hits; it is by induction on the frames that are left. -/
theorem collect_ofFrames (frames : List Frame) (frame : Frame) (back : List Frame)
    (found : List (List Frame)) :
    (List.splitBy.loop (fun _ frame => frame.header.subsequent) frames frame back found).map
        Hit.ofFrames
      = (found.reverse.map Hit.ofFrames)
        ++ collect (Hit.ofFrames ((frame :: back).reverse)) frames := by
  induction frames generalizing frame back found with
  | nil => simp [List.splitBy.loop, collect]
  | cons next frames ih =>
      unfold List.splitBy.loop collect
      cases hnext : next.header.subsequent with
      | true =>
          rw [if_pos rfl, ofFrames_add]
          dsimp only
          rw [ih]
          simp
      | false =>
          rw [if_neg Bool.false_ne_true]
          dsimp only
          rw [ih]
          simp [Hit.ofFrames, Hit.add, Hit.empty]

/-- The hits of a list of frames are those collected from an empty hit to which
the first frame is added. -/
theorem hitsOf_cons (frame : Frame) (frames : List Frame) :
    hitsOf (frame :: frames) = collect (Hit.empty.add frame) frames := by
  have h := collect_ofFrames frames frame [] []
  unfold hitsOf List.splitBy
  rw [h]
  simp [Hit.ofFrames, Hit.add, Hit.empty]

/-- At least the current hit is among the hits collected. -/
theorem collect_length_pos (hit : Hit) (frames : List Frame) : 0 < (collect hit frames).length := by
  induction frames generalizing hit with
  | nil => exact Nat.one_pos
  | cons frame frames ih =>
      unfold collect
      split
      · exact ih _
      · exact Nat.succ_pos _

/-- A hit to which a frame was added has a `frameHeader(0)`. -/
theorem Hit.add_heads_ne (hit : Hit) (frame : Frame) : (hit.add frame).m_heads ≠ [] := by
  unfold Hit.add
  simp

/-- The size that is left of an event once the first `m` of its bytes are read:
the subtraction of two `int`s does not go below zero there. -/
theorem size_left (m n : Nat) : Int32.ofNat (m + n) - .ofNat m = .ofNat n := by
  rw [Int32.ofNat_add, Int32.add_comm, Int32.add_sub_cancel]

/-- A number of bytes below 2^31 that is not zero is positive as an `int`, and so
the loop goes on. -/
theorem size_pos {n : Nat} (hpos : 0 < n) (hlt : n < 2 ^ 31) : Int32.ofNat n > 0 := by
  rw [gt_iff_lt, Int32.lt_iff_toInt_lt, Int32.toInt_ofNat_of_lt hlt]
  show (0 : Int) < n
  omega

/-- What `hits` holds while frames are read: `done`, the current hit, and
`spare` hits without frames. -/
def hitsAt (done : List Hit) (hit : Hit) (spare : Nat) : List Hit :=
  done ++ hit :: List.replicate spare Hit.empty

/-- How the loop ends: the hits that were there are filled from the front, or
there are too many. -/
def Filled (done found : List Hit) (room : Nat) (s : InputStream) (tail : List UInt8)
    (result : Except PtFault (List Hit × Int32) × InputStream) : Prop :=
  if found.length ≤ room then
    ∃ s', result = (.ok (done ++ found ++ List.replicate (room - found.length) Hit.empty, 0), s')
      ∧ s'.Before tail ∧ s'.bytes = s.bytes
  else ∃ s', result = (.error .undefined, s') ∧ s'.bytes = s.bytes

/-- A fill of the hits behind the current one is a fill of the hits from the
current one on. -/
theorem Filled.shift {done found : List Hit} {hit : Hit} {room : Nat} {s s₁ : InputStream}
    {result : Except PtFault (List Hit × Int32) × InputStream} (hbytes : s₁.bytes = s.bytes)
    (h : Filled (done ++ [hit]) found room s₁ tail result) :
    Filled done (hit :: found) (room + 1) s tail result := by
  unfold Filled at *
  rw [List.length_cons]
  split at h
  · rw [if_pos (by omega), Nat.add_sub_add_right]
    obtain ⟨s', hresult, hbefore, hs'⟩ := h
    refine ⟨s', ?_, hbefore, hs'.trans hbytes⟩
    rw [hresult, List.append_assoc done, List.singleton_append]
  · rw [if_neg (by omega)]
    obtain ⟨s', hresult, hs'⟩ := h
    exact ⟨s', hresult, hs'.trans hbytes⟩

/-- How the loop ends depends on the bytes of the file only and not on where the
stream is. -/
theorem Filled.of_bytes {done found : List Hit} {room : Nat} {s s₁ : InputStream}
    {result : Except PtFault (List Hit × Int32) × InputStream} (hbytes : s₁.bytes = s.bytes)
    (h : Filled done found room s₁ tail result) : Filled done found room s tail result := by
  unfold Filled at *
  rw [hbytes] at h
  exact h

/-- The hit that `current` points to while the frames are read. -/
theorem hitsAt_current (done : List Hit) (hit : Hit) (spare : Nat) :
    (hitsAt done hit spare)[done.length]? = some hit := by
  simp [hitsAt]

/-- A change of the current hit leaves the hits before it and the spare ones
as they are. -/
theorem set_hitsAt (done : List Hit) (hit hit' : Hit) (spare : Nat) :
    (hitsAt done hit spare).set done.length hit' = hitsAt done hit' spare := by
  simp [hitsAt]

/-- When `current` is moved on, the first of the spare hits becomes the current
one, with nothing in it yet. -/
theorem hitsAt_next (done : List Hit) (hit : Hit) (spare : Nat) :
    hitsAt done hit (spare + 1) = hitsAt (done ++ [hit]) Hit.empty spare := by
  simp [hitsAt, List.replicate_succ]

/-- Without a spare hit `current` is moved on to a place behind the end of
the vector. -/
theorem hitsAt_over (done : List Hit) (hit : Hit) :
    (hitsAt done hit 0)[done.length + 1]? = none := by
  simp [hitsAt]

/-- With a spare hit, the one behind the current hit is empty. -/
theorem hitsAt_spare (done : List Hit) (hit : Hit) (spare : Nat) :
    (hitsAt done hit (spare + 1))[done.length + 1]? = some Hit.empty := by
  have h := hitsAt_current (done ++ [hit]) Hit.empty spare
  rw [hitsAt_next]
  rwa [List.length_append] at h

/-- A change of the hit behind the current one makes that one done, and the
changed one the current one. -/
theorem set_hitsAt_spare (done : List Hit) (hit hit' : Hit) (spare : Nat) :
    (hitsAt done hit (spare + 1)).set (done.length + 1) hit'
      = hitsAt (done ++ [hit]) hit' spare := by
  have h := set_hitsAt (done ++ [hit]) Hit.empty hit' spare
  rw [hitsAt_next]
  rwa [List.length_append] at h

/-- A subsequent frame leaves `current` where it is. -/
theorem nextCurrent_subsequent {head : FrameHeader} (h : head.subsequent = true)
    (hits : List Hit) (current : Nat) (s : InputStream) :
    nextCurrent hits current head s = (.ok current, s) := by
  unfold nextCurrent
  rw [h, if_pos rfl]
  rfl

/-- The first frame goes into the first hit, subsequent or not: that hit is empty. -/
theorem nextCurrent_first (head : FrameHeader) (spare : Nat) (s : InputStream) :
    nextCurrent (hitsAt [] Hit.empty spare) 0 head s = (.ok 0, s) := by
  unfold nextCurrent
  split
  · rfl
  · rfl

/-- A frame that begins a hit counts `current` up, if the current hit has frames. -/
theorem nextCurrent_begins {head : FrameHeader} (h : head.subsequent = false) {hit : Hit}
    (hheads : hit.m_heads ≠ []) (done : List Hit) (spare : Nat) (s : InputStream) :
    nextCurrent (hitsAt done hit spare) done.length head s = (.ok (done.length + 1), s) := by
  unfold nextCurrent
  rw [h, if_neg Bool.false_ne_true, hitsAt_current]
  dsimp only
  rw [if_neg (by simpa using hheads)]
  rfl

/-- A frame for which `current` is moved behind the last hit ends the turn with an
undefined access. -/
theorem turn_over (looks : Bool) (frame : Frame) {hits : List Hit} {current current' : Nat}
    (event_size : Int32) (h : s.Ready (frame.bytes ++ tail))
    (hnext : ∀ s, nextCurrent hits current frame.header s = (.ok current', s))
    (hover : hits[current']? = none) :
    turn looks hits current event_size s = (.error .undefined, s.advance 16) := by
  rw [frame.bytes_append] at h
  have hchange : changeHit hits current'
      (fun hit => { hit with m_heads := hit.m_heads ++ [frame.header] }) (s.advance 16)
      = (.error .undefined, s.advance 16) := by
    unfold changeHit
    rw [hover]
    rfl
  unfold turn
  rw [StreamReader.bind_ok (readHeader_ready frame.header h), StreamReader.bind_ok (hnext _)]
  exact StreamReader.bind_error hchange

/-- From the current hit on, the frames fill the spare hits or run over them; it
is by induction on the frames, one turn each. -/
theorem parseFrames_after (looks : Bool) (frames : List Frame) :
    ∀ (turns : Nat) (done : List Hit) (hit : Hit) (spare : Nat) (s : InputStream),
      frames.length ≤ turns → (frameBytes frames).length < 2 ^ 31 →
      s.Before (frameBytes frames ++ tail) → hit.m_heads ≠ [] →
      Filled done (collect hit frames) (spare + 1) s tail
        ((do
          let stream ← StreamReader.holds
          if stream ∧ Int32.ofNat (frameBytes frames).length > 0 then
            parseFrames looks turns (hitsAt done hit spare) done.length
              (.ofNat (frameBytes frames).length)
          else pure (hitsAt done hit spare, .ofNat (frameBytes frames).length) :
          PtReading (List Hit × Int32)) s) := by
  induction frames with
  | nil =>
      intro turns done hit spare s _ _ hbefore _
      unfold Filled collect
      rw [if_pos (by simp)]
      have hholds : (StreamReader.holds : PtReading Bool) s = (.ok !s.fail, s) := rfl
      refine ⟨s, ?_, hbefore, rfl⟩
      -- nothing is left of the size, and so the loop ends
      rw [StreamReader.bind_ok hholds, if_neg (fun h => absurd h.2 (by decide))]
      show (Except.ok (hitsAt done hit spare, (0 : Int32)), s) = _
      simp [hitsAt]
  | cons frame frames ih =>
      intro turns done hit spare s hturns hlt hbefore hheads
      have hsplit : frameBytes (frame :: frames) = frame.bytes ++ frameBytes frames := rfl
      have hlength := frame.length_bytes
      rw [hsplit, List.length_append] at hlt
      have hne : frame.bytes ≠ [] := by
        intro h
        rw [h, List.length_nil] at hlength
        omega
      rw [hsplit, List.append_assoc] at hbefore
      -- the frame is next in the stream, and its size is left of the event
      have hready := hbefore.ready (List.append_ne_nil_of_left_ne_nil hne _)
      have hholds : (StreamReader.holds : PtReading Bool) s = (.ok true, s) := by
        unfold StreamReader.holds
        rw [hbefore.fail]
        rfl
      rw [StreamReader.bind_ok hholds, hsplit, List.length_append,
        if_pos ⟨rfl, size_pos (by omega) hlt⟩]
      cases turns with
      | zero => simp at hturns
      | succ turns =>
          have hturns' : frames.length ≤ turns := by simpa using hturns
          unfold parseFrames collect
          -- the header says whether the frame goes on with the current hit
          cases hsub : frame.header.subsequent with
          | true =>
              rw [if_pos rfl]
              have hnext := nextCurrent_subsequent hsub (hitsAt done hit spare) done.length
              obtain ⟨s₁, hs₁, hbytes, hturn⟩ := turn_ready looks frame
                (.ofNat (frame.bytes.length + (frameBytes frames).length)) hready hnext
                (hitsAt_current done hit spare)
              rw [StreamReader.bind_ok hturn, set_hitsAt, size_left]
              -- the current hit has one frame more
              exact (ih turns done (hit.add frame) spare s₁ hturns' (by omega) hs₁
                (hit.add_heads_ne frame)).of_bytes hbytes
          | false =>
              rw [if_neg Bool.false_ne_true]
              have hnext := nextCurrent_begins hsub hheads done spare
              cases spare with
              | zero =>
                  -- `current` leaves the vector, and one hit more than there is room for is
                  -- counted
                  have hturn := turn_over looks frame
                    (.ofNat (frame.bytes.length + (frameBytes frames).length)) hready hnext
                    (hitsAt_over done hit)
                  rw [StreamReader.bind_error hturn]
                  unfold Filled
                  have hpos := collect_length_pos (Hit.empty.add frame) frames
                  rw [List.length_cons, if_neg (by omega)]
                  exact ⟨_, rfl, rfl⟩
              | succ spare =>
                  -- the first spare hit becomes the current one
                  obtain ⟨s₁, hs₁, hbytes, hturn⟩ := turn_ready looks frame
                    (.ofNat (frame.bytes.length + (frameBytes frames).length)) hready hnext
                    (hitsAt_spare done hit spare)
                  have hrest := ih turns (done ++ [hit]) (Hit.empty.add frame) spare s₁ hturns'
                    (by omega) hs₁ (Hit.empty.add_heads_ne frame)
                  rw [List.length_append] at hrest
                  rw [StreamReader.bind_ok hturn, set_hitsAt_spare, size_left]
                  exact hrest.shift hbytes

/-- All frames of an event, from a vector of empty hits: the first frame is added
to the hit at the front without a step of `current`. -/
theorem parseFrames_filled (looks : Bool) {frame : Frame} {frames : List Frame} (room : Nat)
    {turns : Nat} (hturns : frames.length ≤ turns)
    (hlt : (frameBytes (frame :: frames)).length < 2 ^ 31)
    (h : s.Ready (frameBytes (frame :: frames) ++ tail)) :
    Filled [] (hitsOf (frame :: frames)) room s tail
      (parseFrames looks (turns + 1) (List.replicate room Hit.empty) 0
        (.ofNat (frameBytes (frame :: frames)).length) s) := by
  have hsplit : frameBytes (frame :: frames) = frame.bytes ++ frameBytes frames := rfl
  rw [hsplit] at h
  rw [hsplit, List.length_append] at hlt ⊢
  rw [List.append_assoc] at h
  rw [hitsOf_cons]
  unfold parseFrames
  cases room with
  | zero =>
      -- there is no hit to put the first frame into
      have hover : ∃ s', s'.bytes = s.bytes ∧
          turn looks [] 0 (.ofNat (frame.bytes.length + (frameBytes frames).length)) s
            = (.error .undefined, s') := by
        cases hsub : frame.header.subsequent with
        | true =>
            exact ⟨s.advance 16, rfl,
              turn_over looks frame _ h (nextCurrent_subsequent hsub [] 0) rfl⟩
        | false =>
            have hnext : ∀ s, nextCurrent [] 0 frame.header s = (.error .undefined, s) := by
              intro s
              unfold nextCurrent
              rw [hsub, if_neg Bool.false_ne_true]
              rfl
            rw [frame.bytes_append] at h
            refine ⟨s.advance 16, rfl, ?_⟩
            unfold turn
            rw [StreamReader.bind_ok (readHeader_ready frame.header h)]
            exact StreamReader.bind_error (hnext _)
      obtain ⟨s', hs', hturn⟩ := hover
      have hpos := collect_length_pos (Hit.empty.add frame) frames
      unfold Filled
      rw [if_neg (by omega)]
      exact ⟨s', StreamReader.bind_error hturn, hs'⟩
  | succ spare =>
      obtain ⟨s₁, hs₁, hbytes, hturn⟩ := turn_ready looks frame
        (.ofNat (frame.bytes.length + (frameBytes frames).length)) h
        (nextCurrent_first frame.header spare) (hitsAt_current [] Hit.empty spare)
      have hrest := parseFrames_after looks frames turns [] (Hit.empty.add frame) spare s₁ hturns
        (by omega) hs₁ (Hit.empty.add_heads_ne frame)
      have hset : (hitsAt [] Hit.empty spare).set 0 (Hit.empty.add frame)
          = hitsAt [] (Hit.empty.add frame) spare := set_hitsAt [] _ _ spare
      rw [hset, size_left] at hturn
      show Filled _ _ _ _ _ ((turn looks (hitsAt [] Hit.empty spare) 0 _ >>= _) s)
      rw [StreamReader.bind_ok hturn]
      exact hrest.of_bytes hbytes

/-- **The hits of an event**: the frames make them, and the hits that the header
counts beyond them are without frames.  With fewer in the header than there
are, `current` runs over the end. -/
theorem parse_event_frames (looks : Bool) {frames : List Frame} (hne : frames ≠ [])
    (hlt : (frameBytes frames).length < 2 ^ 31) (nhits : Int32) (hnhits : 0 ≤ nhits)
    (h : s.Ready (frameBytes frames ++ tail)) :
    if (hitsOf frames).length ≤ nhits.toInt.toNat then
      ∃ s', parse_event looks nhits (.ofNat (frameBytes frames).length) s
          = (.ok (hitsOf frames
              ++ List.replicate (nhits.toInt.toNat - (hitsOf frames).length) Hit.empty), s')
        ∧ s'.Before tail ∧ s'.bytes = s.bytes
    else ∃ s', parse_event looks nhits (.ofNat (frameBytes frames).length) s
        = (.error .undefined, s') := by
  obtain ⟨frame, frames, rfl⟩ := List.exists_cons_of_ne_nil hne
  -- each frame takes 16 bytes of the file
  have hturns : frames.length ≤ s.bytes.length := by
    have hlength := length_frameBytes frames
    have htail := s.length_rest_le
    rw [h.rest, List.length_append] at htail
    have hcons : (frameBytes (frame :: frames)).length
        = frame.bytes.length + (frameBytes frames).length := List.length_append
    omega
  have hfilled := parseFrames_filled looks nhits.toInt.toNat hturns hlt h
  have hsize : (StreamReader.lift fun s => (s.bytes.length + 1, s) : PtReading Nat) s
      = (.ok (s.bytes.length + 1), s) := rfl
  unfold parse_event
  rw [if_neg (Int32.not_lt.mpr hnhits)]
  rw [StreamReader.bind_ok hsize]
  unfold Filled at hfilled
  split at hfilled
  · next hroom =>
      obtain ⟨s', hresult, hbefore, hbytes⟩ := hfilled
      rw [if_pos hroom]
      refine ⟨s', ?_, hbefore, hbytes⟩
      rw [StreamReader.bind_ok hresult, if_neg (not_not.mpr rfl)]
      rfl
  · next hroom =>
      obtain ⟨s', hresult, -⟩ := hfilled
      rw [if_neg hroom]
      exact ⟨s', StreamReader.bind_error hresult⟩

/-! ## §4. Events and slices. -/

/-- Each frame begins at most one hit, and so there are at most as many hits as
frames, with the current one. -/
theorem collect_length_le (hit : Hit) (frames : List Frame) :
    (collect hit frames).length ≤ frames.length + 1 := by
  induction frames generalizing hit with
  | nil => exact Nat.le_refl 1
  | cons frame frames ih =>
      unfold collect
      rw [List.length_cons]
      split
      · exact Nat.le_succ_of_le (ih _)
      · exact Nat.succ_le_succ (ih _)

/-- An event has no more hits than frames. -/
theorem hitsOf_length_le (frames : List Frame) : (hitsOf frames).length ≤ frames.length := by
  cases frames with
  | nil => exact Nat.le_refl 0
  | cons frame frames =>
      rw [hitsOf_cons]
      exact collect_length_le _ frames

/-- The hits of an event are few enough for an `int`: each takes a frame of at
least 16 bytes out of fewer than 2^31. -/
theorem TriggeredEvent.hits_lt (event : TriggeredEvent) :
    (hitsOf event.frames).length < 2 ^ 27 := by
  have hlt := event.length_lt
  have hframes := length_frameBytes event.frames
  have hhits := hitsOf_length_le event.frames
  omega

/-- A number that is written with 32 bits without a sign, and taken as an `int` by
the reader. -/
theorem toInt32_ofNat (n : Nat) : (UInt32.ofNat n).toInt32 = Int32.ofNat n := rfl

/-- An `int` made of a number below 2^31 is that number when it is used as
a count. -/
theorem toNat_ofNat_int {n : Nat} (h : n < 2 ^ 31) : (Int32.ofNat n).toInt.toNat = n := by
  rw [Int32.toInt_ofNat_of_lt h, Int.toNat_natCast]

/-- An `int` made of a number below 2^31 is not negative. -/
theorem nonneg_ofNat_int {n : Nat} (h : n < 2 ^ 31) : ¬ Int32.ofNat n < 0 := by
  rw [Int32.lt_iff_toInt_lt, Int32.toInt_ofNat_of_lt h]
  show ¬ (n : Int) < 0
  omega

/-- **An event** that is next in the stream is read as it was written, and the
stream is left before what follows it. -/
theorem readEvent_ready (looks : Bool) (event : TriggeredEvent)
    (h : s.Ready (event.bytes ++ tail)) :
    ∃ s', readEvent looks s = (.ok event.read, s') ∧ s'.Before tail ∧ s'.bytes = s.bytes := by
  have hlt := event.length_lt
  have hhits := event.hits_lt
  unfold TriggeredEvent.bytes at h
  rw [List.append_assoc] at h
  have hnext := h.advance
  rw [length_headerBytes] at hnext
  have hsize : event.header.EventL.toInt32 - .ofNat (headerSize EventHeader)
      = .ofNat (frameBytes event.frames).length := size_left 112 _
  have hparse := parse_event_frames looks event.frames_ne (by omega) _
    (Int32.not_lt.mp (nonneg_ofNat_int (n := (hitsOf event.frames).length) (by omega))) hnext
  rw [toNat_ofNat_int (by omega), if_pos (Nat.le_refl _), Nat.sub_self, List.replicate_zero,
    List.append_nil] at hparse
  obtain ⟨s', hresult, hbefore, hbytes⟩ := hparse
  refine ⟨s', ?_, hbefore, hbytes⟩
  unfold readEvent
  rw [StreamReader.bind_ok (readHeader_ready event.header h), hsize]
  exact StreamReader.bind_ok hresult

/-- The bytes of an event are never none: its header alone has some. -/
theorem TriggeredEvent.bytes_ne (event : TriggeredEvent) : event.bytes ≠ [] := by
  intro h
  have hlength := event.length_bytes
  rw [h, List.length_nil] at hlength
  omega

/-- The events of a slice are read one after the other, each from where the one
before left the stream. -/
theorem readEvents_before (looks : Bool) (events : List TriggeredEvent) :
    ∀ s : InputStream, s.Before (events.flatMap TriggeredEvent.bytes ++ tail) →
      ∃ s', readEvents looks events.length s = (.ok (events.map TriggeredEvent.read), s')
        ∧ s'.Before tail ∧ s'.bytes = s.bytes := by
  induction events with
  | nil =>
      intro s h
      exact ⟨s, rfl, h, rfl⟩
  | cons event events ih =>
      intro s h
      rw [List.flatMap_cons, List.append_assoc] at h
      obtain ⟨s₁, hfirst, hbefore, hbytes⟩ := readEvent_ready looks event
        (h.ready (List.append_ne_nil_of_left_ne_nil event.bytes_ne _))
      obtain ⟨s', hrest, htail, hbytes'⟩ := ih s₁ hbefore
      refine ⟨s', ?_, htail, hbytes'.trans hbytes⟩
      show (readEvent looks >>= fun event => readEvents looks events.length >>= _) s = _
      rw [StreamReader.bind_ok hfirst, StreamReader.bind_ok hrest]
      rfl

/-- Each event takes 112 bytes or more, which bounds the number of events of a
slice by its size. -/
theorem length_eventBytes (events : List TriggeredEvent) :
    112 * events.length ≤ (events.flatMap TriggeredEvent.bytes).length := by
  induction events with
  | nil => exact Nat.le_refl 0
  | cons event events ih =>
      have hlength := event.length_bytes
      rw [List.flatMap_cons, List.length_append, List.length_cons]
      omega

/-- **A slice** that is next in the stream is read as it was written, and the
stream is left before what follows it. -/
theorem readTimeSlice_ready (looks : Bool) (slice : Slice) (h : s.Ready (slice.bytes ++ tail)) :
    ∃ s', readTimeSlice looks s = (.ok slice.read, s') ∧ s'.Before tail ∧ s'.bytes = s.bytes := by
  unfold Slice.bytes at h
  rw [List.append_assoc] at h
  have hnext := h.advance
  rw [length_headerBytes] at hnext
  obtain ⟨s', hresult, hbefore, hbytes⟩ := readEvents_before looks slice.events _ hnext.before
  have hcount : slice.header.NEvents.toInt32 = .ofNat slice.events.length := rfl
  have hlt : slice.events.length < 2 ^ 31 := by
    have hevents := length_eventBytes slice.events
    have hslice := slice.length_lt
    omega
  refine ⟨s', ?_, hbefore, hbytes⟩
  unfold readTimeSlice
  rw [StreamReader.bind_ok (readHeader_ready slice.header h)]
  rw [hcount, if_neg (nonneg_ofNat_int hlt), toNat_ofNat_int hlt, StreamReader.bind_ok hresult]
  rfl

/-- A number of hits from 2^31 on is a negative `int`, and the vector of that many
hits is not made. -/
theorem parse_event_negative (looks : Bool) {nhits : Int32} (hneg : nhits < 0) (event_size : Int32)
    (s : InputStream) : parse_event looks nhits event_size s = (.error .length_error, s) := by
  unfold parse_event
  rw [if_pos hneg]
  rfl

/-- The bytes of the event with another number of hits in its header; the frames
and all sizes stay as they are. -/
def TriggeredEvent.miscounted (event : TriggeredEvent) (nHit : UInt32) : List UInt8 :=
  headerBytes { event.header with nHit := nHit } ++ frameBytes event.frames

/-- The event is read, and each of its hits has a `frameHeader(0)`. -/
def Processable (looks : Bool) (bytes : List UInt8) : Prop :=
  ∃ event s', readEvent looks (.ofBytes bytes) = (.ok event, s')
    ∧ ∀ hit ∈ event.m_hits, hit.m_heads ≠ []

/-- Each hit that frames make has a `frameHeader(0)`, from which its time
can be taken. -/
theorem heads_hitsOf (frames : List Frame) : ∀ hit ∈ hitsOf frames, hit.m_heads ≠ [] := by
  intro hit hmem
  unfold hitsOf at hmem
  obtain ⟨group, hgroup, rfl⟩ := List.mem_map.mp hmem
  have hne := List.ne_nil_of_mem_splitBy hgroup
  unfold Hit.ofFrames
  simpa using hne

/-- **The count of the hits** has to be the number of frames that begin one:
with a smaller one `current` leaves the vector, and with a greater one a hit
has no frame to take the time from. -/
theorem processable_iff (looks : Bool) (event : TriggeredEvent) (nHit : UInt32)
    (tail : List UInt8) :
    Processable looks (event.miscounted nHit ++ tail)
      ↔ nHit.toNat = (hitsOf event.frames).length := by
  have hlt := event.length_lt
  have hhits := event.hits_lt
  have hstart : (InputStream.ofBytes (event.miscounted nHit ++ tail)).Ready
      (headerBytes { event.header with nHit := nHit } ++ (frameBytes event.frames ++ tail)) := by
    rw [← List.append_assoc]
    exact InputStream.ofBytes_ready _
  have hnext := hstart.advance
  rw [length_headerBytes] at hnext
  have hsize : event.header.EventL.toInt32 - .ofNat (headerSize EventHeader)
      = .ofNat (frameBytes event.frames).length := size_left 112 _
  have hread : ∀ {result s'},
      parse_event looks nHit.toInt32 (.ofNat (frameBytes event.frames).length)
      ((InputStream.ofBytes (event.miscounted nHit ++ tail)).advance (headerSize EventHeader))
        = (result, s') →
      readEvent looks (.ofBytes (event.miscounted nHit ++ tail))
        = (result.map fun m_hits => ⟨{ event.header with nHit := nHit }, m_hits⟩, s') := by
    intro result s' hparse
    unfold readEvent
    rw [StreamReader.bind_ok (readHeader_ready _ hstart)]
    show (parse_event looks nHit.toInt32
      (event.header.EventL.toInt32 - .ofNat (headerSize EventHeader)) >>= _) _ = _
    rw [hsize]
    cases result with
    | ok hits => exact StreamReader.bind_ok hparse
    | error e => exact StreamReader.bind_error hparse
  have hfault : ∀ {e s'}, parse_event looks nHit.toInt32 (.ofNat (frameBytes event.frames).length)
      ((InputStream.ofBytes (event.miscounted nHit ++ tail)).advance (headerSize EventHeader))
        = (.error e, s') → ¬ Processable looks (event.miscounted nHit ++ tail) := by
    intro e s' hparse hprocessable
    obtain ⟨read, s'', hok, -⟩ := hprocessable
    rw [hread hparse] at hok
    cases congrArg Prod.fst hok
  by_cases hsmall : nHit.toNat < 2 ^ 31
  · have hnhits : nHit.toInt32 = .ofNat nHit.toNat := by
      rw [← toInt32_ofNat, UInt32.ofNat_toNat]
    have hparse := parse_event_frames looks event.frames_ne (by omega) nHit.toInt32
      (by rw [hnhits]; exact Int32.not_lt.mp (nonneg_ofNat_int hsmall)) hnext
    rw [show nHit.toInt32.toInt.toNat = nHit.toNat by rw [hnhits, toNat_ofNat_int hsmall]] at hparse
    split at hparse
    · next hroom =>
        obtain ⟨s', hresult, -, -⟩ := hparse
        constructor
        · intro hprocessable
          obtain ⟨read, s'', hok, hheads⟩ := hprocessable
          rw [hread hresult] at hok
          obtain rfl := Except.ok.inj (congrArg Prod.fst hok)
          -- a hit without frames would be among them
          by_contra hcount
          refine hheads Hit.empty ?_ rfl
          refine List.mem_append_right _ (List.mem_replicate.mpr ⟨?_, rfl⟩)
          omega
        · intro hcount
          refine ⟨_, _, hread hresult, ?_⟩
          rw [hcount, Nat.sub_self, List.replicate_zero, List.append_nil]
          exact heads_hitsOf event.frames
    · next hroom =>
        obtain ⟨s', hresult⟩ := hparse
        exact iff_of_false (hfault hresult) (by omega)
  · have hneg : nHit.toInt32 < 0 := by
      have hmax := nHit.toNat_lt
      rw [Int32.lt_iff_toInt_lt]
      show nHit.toBitVec.toInt < 0
      rw [BitVec.toInt_eq_toNat_cond, if_neg (by rw [UInt32.toNat_toBitVec]; omega),
        UInt32.toNat_toBitVec]
      omega
    exact iff_of_false (hfault (parse_event_negative looks hneg _ _)) (by omega)

/-! ## §5. The file. -/

/-- The places at which the slices begin in the file, when the first of them
begins at `place`. -/
def places : Nat → List Slice → List Nat
  | _, [] => []
  | place, slice :: slices => place :: places (place + slice.bytes.length) slices

/-- There is one place for each slice. -/
theorem length_places (place : Nat) (slices : List Slice) :
    (places place slices).length = slices.length := by
  induction slices generalizing place with
  | nil => rfl
  | cons slice slices ih => exact congrArg (· + 1) (ih _)

/-- At the place that is noted for a slice the file goes on with the bytes of
that slice. -/
theorem drop_places {bytes : List UInt8} {place : Nat} {slices : List Slice}
    (h : bytes.drop place = PtFile.sliceBytes slices) {pos : Nat} (hpos : pos < slices.length) :
    ∃ found rest, (places place slices)[pos]? = some found
      ∧ bytes.drop found = slices[pos].bytes ++ rest := by
  induction slices generalizing place pos with
  | nil => exact absurd hpos (Nat.not_lt_zero _)
  | cons slice slices ih =>
      have hsplit : PtFile.sliceBytes (slice :: slices)
          = slice.bytes ++ PtFile.sliceBytes slices := rfl
      rw [hsplit] at h
      cases pos with
      | zero => exact ⟨place, _, rfl, h⟩
      | succ pos =>
          have hrest : bytes.drop (place + slice.bytes.length) = PtFile.sliceBytes slices := by
            rw [← List.drop_drop, h, List.drop_left]
          exact ih hrest (Nat.lt_of_succ_lt_succ hpos)

/-- The bytes of a slice are never none: its header alone has some. -/
theorem Slice.bytes_ne (slice : Slice) : slice.bytes ≠ [] := by
  intro h
  have hlength := slice.length_bytes
  rw [h, List.length_nil] at hlength
  omega

/-- What the search skips behind the header of a slice is exactly the bytes of
its events. -/
theorem Slice.ignored (slice : Slice) :
    slice.header.TS_size.toNat - headerSize TimeSliceHeader = slice.eventBytes.length := by
  have hlt := slice.length_lt
  have hsize : slice.header.TS_size.toNat = 16 + slice.eventBytes.length := by
    refine UInt32.toNat_ofNat_of_lt' ?_
    show 16 + slice.eventBytes.length < 2 ^ 32
    unfold Slice.eventBytes
    omega
  rw [hsize]
  show 16 + slice.eventBytes.length - 16 = _
  omega

/-- The end of a turn of the search that found a place: the place is put behind
the others, and the search goes on. -/
theorem findSlices_found (looks : Bool) (slice : Slice) (nTS turns : Nat) (found : List Nat)
    {s' : InputStream} (h : s.Ready (headerBytes slice.header ++ tail))
    (hignore : (s.advance (headerSize TimeSliceHeader)).ignore looks slice.eventBytes.length = s')
    (hfail : s'.fail = false) :
    findSlices looks nTS (turns + 1) found s
      = if found.length + 1 < nTS then findSlices looks nTS turns (found ++ [s.pos]) s'
        else (.ok (found ++ [s.pos]), s') := by
  subst hignore
  have htellg : (StreamReader.lift InputStream.tellg : PtReading (Option Nat)) s
      = (.ok (some s.pos), s) := by
    refine StreamReader.lift_of ?_
    unfold InputStream.tellg
    rw [h.good, if_pos rfl]
  have hfound : (found ++ (some s.pos).toList).length = found.length + 1 := List.length_append
  conv_lhs => unfold findSlices
  rw [StreamReader.bind_ok htellg, StreamReader.bind_ok (readHeader_ready slice.header h),
    slice.ignored, StreamReader.bind_ok (StreamReader.move_apply _ _),
    StreamReader.bind_ok (StreamReader.holds_of hfail)]
  by_cases hmore : found.length + 1 < nTS
  · rw [if_pos hmore, if_pos ⟨rfl, by rw [hfound]; exact hmore⟩]
    rfl
  · rw [if_neg hmore, if_neg (fun h => hmore (by rw [← hfound]; exact h.2))]
    rfl

/-- A turn of the search reads the header of the slice that is next, skips its
events and is left before the next slice. -/
theorem findSlices_turn (looks : Bool) (slice : Slice) (nTS turns : Nat) (found : List Nat)
    (h : s.Ready (slice.bytes ++ tail)) :
    ∃ s', s'.Before tail ∧ s'.bytes = s.bytes ∧ s'.pos = s.pos + slice.bytes.length
      ∧ findSlices looks nTS (turns + 1) found s
        = if found.length + 1 < nTS then findSlices looks nTS turns (found ++ [s.pos]) s'
          else (.ok (found ++ [s.pos]), s') := by
  have hlength := slice.length_bytes
  unfold Slice.bytes at h
  rw [List.append_assoc] at h
  have hnext := h.advance
  rw [length_headerBytes] at hnext
  obtain ⟨hbefore, hbytes, hpos⟩ := InputStream.ignore_before looks hnext
  refine ⟨_, hbefore, hbytes, ?_, findSlices_found looks slice nTS turns found h rfl hbefore.fail⟩
  rw [hpos, hlength]
  show s.pos + 16 + _ = _
  unfold Slice.eventBytes
  omega

/-- The search for the slices finds all of them in their order; it is by induction
on the slices that are left. -/
theorem findSlices_ready (looks : Bool) (slices : List Slice) :
    ∀ (slice : Slice) (turns : Nat) (found : List Nat) (s : InputStream),
      slices.length < turns → s.Ready (PtFile.sliceBytes (slice :: slices)) →
      ∃ s', findSlices looks (found.length + (slice :: slices).length) turns found s
          = (.ok (found ++ places s.pos (slice :: slices)), s')
        ∧ s'.fail = false ∧ s'.bytes = s.bytes := by
  induction slices with
  | nil =>
      intro slice turns found s hturns h
      cases turns with
      | zero => exact absurd hturns (Nat.not_lt_zero _)
      | succ turns =>
          obtain ⟨s', hbefore, hbytes, -, hturn⟩ :=
            findSlices_turn looks slice (found.length + 1) turns found h
          -- with this slice all of them are found
          rw [if_neg (Nat.lt_irrefl _)] at hturn
          exact ⟨s', hturn, hbefore.fail, hbytes⟩
  | cons next slices ih =>
      intro slice turns found s hturns h
      cases turns with
      | zero => exact absurd hturns (Nat.not_lt_zero _)
      | succ turns =>
          obtain ⟨s₁, hbefore, hbytes, hpos, hturn⟩ := findSlices_turn looks slice
            (found.length + (slice :: next :: slices).length) turns found h
          -- the search goes on at the next slice, with one place more
          have hready : s₁.Ready (PtFile.sliceBytes (next :: slices)) :=
            hbefore.ready (List.append_ne_nil_of_left_ne_nil next.bytes_ne _)
          obtain ⟨s', hrest, hfail, hbytes'⟩ :=
            ih next turns (found ++ [s.pos]) s₁ (Nat.lt_of_succ_lt_succ hturns) hready
          rw [List.length_append, List.append_assoc, hpos] at hrest
          refine ⟨s', ?_, hfail, hbytes'.trans hbytes⟩
          have hcount : found.length + (slice :: next :: slices).length
              = found.length + [s.pos].length + (next :: slices).length := by
            simp only [List.length_cons, List.length_nil]
            omega
          rw [hturn, if_pos (by simp), hcount]
          exact hrest

/-- There are no more slices than bytes in the file, and so the search does not
run out of turns. -/
theorem length_sliceBytes (slices : List Slice) :
    slices.length ≤ (PtFile.sliceBytes slices).length := by
  induction slices with
  | nil => exact Nat.le_refl 0
  | cons slice slices ih =>
      have hlength := slice.length_bytes
      have hcons : (PtFile.sliceBytes (slice :: slices)).length
          = slice.bytes.length + (PtFile.sliceBytes slices).length := List.length_append
      rw [List.length_cons]
      omega

/-- What holds of a reader of the file between two accesses: its stream is
over the bytes of the file and has not failed, and its header and places are
those of the file. -/
structure Opened (file : PtFile) (reader : PtFileReader) : Prop where
  bytes : reader.m_file.bytes = file.bytes
  fail : reader.m_file.fail = false
  m_head : reader.m_head = file.header
  m_ts_pos : reader.m_ts_pos = places (32 + file.datacard.length) file.slices

/-- The slices begin behind the header of the file and its datacard. -/
theorem drop_file (file : PtFile) :
    file.bytes.drop (32 + file.datacard.length) = PtFile.sliceBytes file.slices := by
  have hhead : (headerBytes file.header).length = 32 := length_headerBytes file.header
  unfold PtFile.bytes
  rw [← List.drop_drop, ← hhead, List.drop_left, List.drop_left]

/-- The constructor opens the file, with the place of each of its slices. -/
theorem new_opened (looks : Bool) (file : PtFile) :
    ∃ reader, PtFileReader.new looks file.bytes = .ok reader ∧ Opened file reader := by
  obtain ⟨slice, slices, hslices⟩ := List.exists_cons_of_ne_nil file.slices_ne
  have hstart : (InputStream.ofBytes file.bytes).Ready (headerBytes file.header
      ++ (file.datacard ++ PtFile.sliceBytes file.slices)) := InputStream.ofBytes_ready _
  have hhead := hstart.advance
  rw [length_headerBytes] at hhead
  have hcard : file.header.datacard_size.toNat = file.datacard.length :=
    UInt32.toNat_ofNat_of_lt' file.datacard_lt
  have hcount : file.header.number_of_timeslices.toNat = file.slices.length :=
    UInt32.toNat_ofNat_of_lt' file.slices_lt
  -- the stream behind the datacard
  have hseek : ((InputStream.ofBytes file.bytes).advance (headerSize PTHeader)).seekg
      (32 + file.datacard.length) = ⟨file.bytes, 32 + file.datacard.length, false, false⟩ := rfl
  have hslice : (⟨file.bytes, 32 + file.datacard.length, false, false⟩ : InputStream).Ready
      (PtFile.sliceBytes (slice :: slices)) := ⟨rfl, rfl, by
        rw [← hslices]
        exact drop_file file⟩
  have hturns : slices.length < file.bytes.length + 1 := by
    have hlength := length_sliceBytes file.slices
    unfold PtFile.bytes
    rw [List.length_append, List.length_append]
    rw [hslices, List.length_cons] at hlength
    rw [hslices]
    omega
  obtain ⟨s', hfind, hfail, hbytes⟩ :=
    findSlices_ready looks slices slice (file.bytes.length + 1) [] _ hturns hslice
  have hturn : (StreamReader.lift fun s => (s.bytes.length + 1, s) : PtReading Nat)
      ⟨file.bytes, 32 + file.datacard.length, false, false⟩
      = (.ok (file.bytes.length + 1), ⟨file.bytes, 32 + file.datacard.length, false, false⟩) := rfl
  rw [List.length_nil, Nat.zero_add, ← hslices, List.nil_append] at hfind
  have hscan : PtFileReader.scan looks (.ofBytes file.bytes)
      = (.ok (file.header, places (32 + file.datacard.length) file.slices),
          (s'.seekg 0).clear) := by
    unfold PtFileReader.scan
    rw [StreamReader.bind_ok (readHeader_ready file.header hstart),
      StreamReader.bind_ok (StreamReader.move_apply _ _), hcard]
    show (StreamReader.lift _ >>= _) (((InputStream.ofBytes file.bytes).advance
      (headerSize PTHeader)).seekg (32 + file.datacard.length)) = _
    rw [hseek, StreamReader.bind_ok hturn, hcount, StreamReader.bind_ok hfind,
      StreamReader.bind_ok (StreamReader.move_apply _ _)]
    rfl
  refine ⟨⟨(s'.seekg 0).clear, file.header, places (32 + file.datacard.length) file.slices⟩, ?_,
    ⟨?_, rfl, rfl, rfl⟩⟩
  · unfold PtFileReader.new
    rw [hscan]
  · rw [InputStream.bytes_seekg_clear]
    exact hbytes

/-- One access gives the slice as it was written and leaves the reader open: only
the place in the stream is another. -/
theorem getSlice_opened (looks : Bool) {file : PtFile} {reader : PtFileReader}
    (h : Opened file reader) (pos : Fin file.slices.length) :
    (reader.getSlice looks pos).1 = .ok file.slices[pos].read
      ∧ Opened file (reader.getSlice looks pos).2 := by
  obtain ⟨place, rest, hplace, hdrop⟩ := drop_places (drop_file file) pos.isLt
  have hready := InputStream.seekg_clear_ready h.fail place
  rw [h.bytes, hdrop] at hready
  obtain ⟨s', hread, hbefore, hbytes⟩ := readTimeSlice_ready looks file.slices[pos.val] hready
  unfold PtFileReader.getSlice
  rw [h.m_ts_pos, hplace]
  dsimp only
  rw [hread]
  refine ⟨rfl, ?_, hbefore.fail, h.m_head, rfl⟩
  rw [hbytes, InputStream.bytes_seekg_clear]
  exact h.bytes

/-- **What was written is read**, in whatever order the slices are asked for. -/
theorem slices_in_any_order (looks : Bool) (file : PtFile)
    (positions : List (Fin file.slices.length)) :
    ∃ reader, PtFileReader.new looks file.bytes = .ok reader ∧ reader.m_head = file.header
      ∧ reader.m_ts_pos.length = file.slices.length
      ∧ reader.getSlices looks (positions.map Fin.val)
        = positions.map fun pos => .ok file.slices[pos].read := by
  obtain ⟨reader, hnew, hopened⟩ := new_opened looks file
  refine ⟨reader, hnew, hopened.m_head, by rw [hopened.m_ts_pos, length_places], ?_⟩
  clear hnew
  induction positions generalizing reader with
  | nil => rfl
  | cons pos positions ih =>
      obtain ⟨hslice, hnext⟩ := getSlice_opened looks hopened pos
      show (reader.getSlice looks pos).1 :: _ = _
      rw [hslice]
      exact congrArg _ (ih _ hnext)

end PokerReco.DAQ.PostTrigger
