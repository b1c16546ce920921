/-
  PokerReco.DAQ.PtFileTruncated
  ─────────────────────────────
  **A POST-TRIGGER FILE THAT ENDS TOO EARLY** (`TRIDAS/ptfile_reader.hpp`,
  `TRIDAS/ptfile_reader.cc`).

  A run that is stopped leaves a file without its end.  Reading it never gives a
  wrong event: a slice comes out as it was written, or an exception does.  After
  the first exception there are only exceptions, also for the slices that are in
  the file: `operator []` calls `seekg` before `clear`, and a stream that has
  failed does not go to another place.

      truncated_never_misread   slices as they were written, then exceptions
-/
import PokerReco.DAQ.PtFileReader

namespace PokerReco.DAQ.PostTrigger

open PokerReco.Library
open PokerReco.Library.InputStream (Cut)

variable {s : InputStream} {cut tail : List UInt8}

/-! ## §1. Headers and samples. -/

/-- What comes of a reader that the end of the file stops: an exception, or the
value all the same when no byte of it is missing that is looked at. -/
def Stopped {α : Type} (value : α) (s : InputStream) (result : Except PtFault α × InputStream) :
    Prop :=
  (∃ what s', result = (.error (.runtime_error what), s') ∧ s'.Stuck ∧ s'.bytes = s.bytes)
    ∨ ∃ s', result = (.ok value, s') ∧ s'.Before [] ∧ s'.bytes = s.bytes

/-- A reader that was stopped behind other bytes of the same file was stopped. -/
theorem Stopped.of_bytes {α : Type} {value : α} {s₁ : InputStream}
    {result : Except PtFault α × InputStream} (hbytes : s₁.bytes = s.bytes)
    (h : Stopped value s₁ result) : Stopped value s result := by
  unfold Stopped at *
  rw [hbytes] at h
  exact h

/-- A value that is made from what a stopped reader has read is the right one, or
never made. -/
theorem Stopped.map {α β : Type} {value : α} {x : PtReading α} (h : Stopped value s (x s))
    (f : α → β) : Stopped (f value) s ((x >>= fun value => pure (f value)) s) := by
  cases h with
  | inl herror =>
      obtain ⟨what, s', hread, hstuck, hbytes⟩ := herror
      exact Or.inl ⟨what, s', StreamReader.bind_error hread, hstuck, hbytes⟩
  | inr hvalue =>
      obtain ⟨s', hread, hbefore, hbytes⟩ := hvalue
      refine Or.inr ⟨s', ?_, hbefore, hbytes⟩
      rw [StreamReader.bind_ok hread]
      rfl

/-- A header that the file does not have in full is not read, and the
reader says so. -/
theorem readHeader_cut {α : Type} [Header α] (h : s.Before cut) (hlt : cut.length < headerSize α) :
    ∃ s', readHeader α s
        = (.error (.runtime_error "Error reading the full header from file."), s')
      ∧ s'.Stuck ∧ s'.bytes = s.bytes := by
  obtain ⟨s', hread, hstuck, hbytes⟩ := InputStream.read_short h hlt
  refine ⟨s', ?_, hstuck, hbytes⟩
  unfold readHeader
  rw [StreamReader.bind_ok (StreamReader.lift_of hread), if_pos (by omega)]
  rfl

/-- On a stuck stream no sample is read, and none is counted. -/
theorem read_samples_stuck (width nsamples : Nat) :
    ∀ s : InputStream, s.Stuck → ∃ samples s', read_samples width nsamples s
      = (.ok (samples, 0), s') ∧ s'.Stuck ∧ s'.bytes = s.bytes := by
  induction nsamples with
  | zero =>
      intro s h
      exact ⟨[], s, rfl, h, rfl⟩
  | succ nsamples ih =>
      intro s h
      obtain ⟨s₁, hread, hstuck, hbytes⟩ := InputStream.read_stuck h width
      obtain ⟨samples, s', hrest, hstuck', hbytes'⟩ := ih s₁ hstuck
      refine ⟨.ofNat (leValue []) :: samples, s', ?_, hstuck', hbytes'.trans hbytes⟩
      unfold read_samples
      rw [StreamReader.bind_ok (StreamReader.lift_of hread), StreamReader.bind_ok hrest]
      rfl

/-- When the file ends in the samples of a frame the bytes that are there are
counted, and they are too few. -/
theorem read_samples_cut {width : Nat} (samples : List UInt16) :
    ∀ (s : InputStream) (cut : List UInt8), s.Ready cut →
      Cut cut (Frame.sampleBytes width samples) →
      ∃ found s', read_samples width samples.length s = (.ok (found, cut.length), s')
        ∧ s'.Stuck ∧ s'.bytes = s.bytes := by
  induction samples with
  | nil =>
      intro s cut _ hcut
      exact absurd hcut.length_lt (Nat.not_lt_zero _)
  | cons sample samples ih =>
      intro s cut h hcut
      have hsplit : Frame.sampleBytes width (sample :: samples)
          = leBytes width sample.toNat ++ Frame.sampleBytes width samples := rfl
      rw [hsplit] at hcut
      rw [List.length_cons]
      unfold read_samples
      cases hcut.append with
      | inl hshort =>
          have hlt := hshort.length_lt
          rw [length_leBytes] at hlt
          -- the file ends in this sample, and the others are read as nothing
          obtain ⟨s₁, hread, hstuck, hbytes⟩ := InputStream.read_short h.before hlt
          obtain ⟨found, s', hrest, hstuck', hbytes'⟩ :=
            read_samples_stuck width samples.length s₁ hstuck
          refine ⟨.ofNat (leValue cut) :: found, s', ?_, hstuck', hbytes'.trans hbytes⟩
          rw [StreamReader.bind_ok (StreamReader.lift_of hread), StreamReader.bind_ok hrest]
          rfl
      | inr hfull =>
          obtain ⟨cut', rfl, hcut'⟩ := hfull
          -- this sample is there, and the file ends in one behind it
          have hnext := h.advance
          rw [length_leBytes] at hnext
          obtain ⟨found, s', hrest, hstuck, hbytes⟩ := ih _ cut' hnext hcut'
          refine ⟨.ofNat (leValue (leBytes width sample.toNat)) :: found, s', ?_, hstuck, hbytes⟩
          rw [StreamReader.bind_ok (StreamReader.lift_read (length_leBytes width sample.toNat) h),
            StreamReader.bind_ok hrest, List.length_append]
          rfl

/-! ## §2. Frames. -/

/-- What a turn leaves of the size. -/
theorem sizes_left {size a b c left : Nat} (h : size = a + (b + c) + left) :
    Int32.ofNat size - .ofNat a - .ofNat b - .ofNat c = .ofNat left := by
  rw [h, Int32.sub_sub, Int32.sub_sub, ← Int32.add_assoc, ← Int32.ofNat_add, ← Int32.ofNat_add,
    Nat.add_assoc a b c, size_left]

/-- A turn of the loop that the end of the file stops: an exception, or a size
that is not used up, or only padding is missing. -/
def TurnStopped (hits : List Hit) (current : Nat) (later : Nat) (s : InputStream)
    (result : Except PtFault (List Hit × Nat × Int32) × InputStream) : Prop :=
  (∃ what s', result = (.error (.runtime_error what), s') ∧ s'.Stuck ∧ s'.bytes = s.bytes)
    ∨ (∃ hits' missing s', 0 < missing ∧ missing ≤ 256
        ∧ result = (.ok (hits', current, .ofNat (missing + later)), s')
        ∧ s'.Stuck ∧ s'.bytes = s.bytes)
    ∨ s.rest ≠ []
      ∧ ∃ s', result = (.ok (hits, current, .ofNat later), s') ∧ s'.Before []
        ∧ s'.bytes = s.bytes

/-- A turn of the loop over a frame that the file does not have in full is
stopped. -/
theorem turn_cut (looks : Bool) (frame : Frame) {hits : List Hit} {current current' : Nat}
    {hit : Hit} (later : Nat) (h : s.Before cut) (hcut : Cut cut frame.bytes)
    (hnext : ∀ s, nextCurrent hits current frame.header s = (.ok current', s))
    (hhit : hits[current']? = some hit) :
    TurnStopped (hits.set current' (hit.add frame)) current' later s
      (turn looks hits current (.ofNat (frame.bytes.length + later)) s) := by
  unfold Frame.bytes at hcut
  unfold turn
  cases hcut.append with
  | inl hshort =>
      have hlt := hshort.length_lt
      rw [length_headerBytes] at hlt
      -- the file ends in the header, which is not read
      obtain ⟨s', hread, hstuck, hbytes⟩ := readHeader_cut (α := FrameHeader) h hlt
      exact Or.inl ⟨_, s', StreamReader.bind_error hread, hstuck, hbytes⟩
  | inr hfull =>
      obtain ⟨cut₁, rfl, hcut₁⟩ := hfull
      have hready := h.ready (List.append_ne_nil_of_left_ne_nil (headerBytes_ne frame.header) _)
      have hhead := hready.advance
      rw [length_headerBytes] at hhead
      have hlength := frame.length_bytes
      have hpadding := frame.length_padding
      have hcount := frame.length_samples
      have hpayload := frame.header.getDFHPayloadSize_le
      -- what the source skips is the payload without its samples
      have hdiff : frame.header.getDFHPayloadSize
          - frame.header.getDFHNSamples * frame.header.sampleWidth = frame.padding.length := by
        rw [← hcount]
        omega
      rw [StreamReader.bind_ok (readHeader_ready frame.header hready),
        StreamReader.bind_ok (hnext _),
        StreamReader.bind_ok (changeHit_twice hits hhit _ [] _).1]
      dsimp only
      rw [hdiff, ← hcount]
      cases hcut₁.append with
      | inl hshort =>
          have hlt := hshort.length_lt
          rw [Frame.length_sampleBytes] at hlt
          -- the file ends in the samples: fewer bytes are taken from the size than the frame
          -- has
          obtain ⟨found, s₁, hread, hstuck, hbytes⟩ := read_samples_cut _ _ _ hhead hshort
          obtain ⟨hstuck', hbytes'⟩ := InputStream.ignore_stuck looks hstuck frame.padding.length
          have hleft : frame.bytes.length + later = 16 + (cut₁.length + frame.padding.length)
              + (frame.samples.length * frame.header.sampleWidth - cut₁.length + later) := by
            omega
          right
          left
          refine ⟨hits.set current' ⟨hit.m_heads ++ [frame.header], hit.m_samples ++ found⟩,
            frame.samples.length * frame.header.sampleWidth - cut₁.length, _, by omega, by omega,
            ?_, hstuck', hbytes'.trans hbytes⟩
          rw [StreamReader.bind_ok hread,
            StreamReader.bind_ok (changeHit_twice hits hhit _ found _).2,
            StreamReader.bind_ok (StreamReader.move_apply _ _)]
          show (Except.ok (_, _, _ - Int32.ofNat 16 - Int32.ofNat cut₁.length - Int32.ofNat _),
            _) = _
          rw [sizes_left hleft]
      | inr hfull =>
          obtain ⟨cut₂, rfl, hcut₂⟩ := hfull
          -- the file ends in the padding, which is skipped as far as it goes
          have hread := read_samples_ready frame.samples frame.samples_lt hhead
          have hsamples := hhead.advance
          rw [Frame.length_sampleBytes] at hsamples
          obtain ⟨hbefore, hbytes⟩ := InputStream.ignore_short looks hsamples hcut₂.length_lt
          have hleft : frame.bytes.length + later
              = 16 + (frame.samples.length * frame.header.sampleWidth + frame.padding.length)
                + later := by
            omega
          right
          right
          refine ⟨?_, _, ?_, hbefore, hbytes⟩
          · rw [h.rest]
            exact List.append_ne_nil_of_left_ne_nil (headerBytes_ne frame.header) _
          rw [StreamReader.bind_ok hread,
            StreamReader.bind_ok (changeHit_twice hits hhit _ frame.samples _).2,
            StreamReader.bind_ok (StreamReader.move_apply _ _)]
          show (Except.ok (_, _, _ - Int32.ofNat 16 - Int32.ofNat _ - Int32.ofNat _), _) = _
          rw [sizes_left hleft]
          rfl

/-- The loop of `parse_event` that the end of the file stops: an exception, a size
that is not used up, or the right hits. -/
def FramesStopped (hits : List Hit) (s : InputStream)
    (result : Except PtFault (List Hit × Int32) × InputStream) : Prop :=
  (∃ what s', result = (.error (.runtime_error what), s') ∧ s'.Stuck ∧ s'.bytes = s.bytes)
    ∨ (∃ hits' size s', size ≠ 0 ∧ result = (.ok (hits', size), s') ∧ s'.Stuck
        ∧ s'.bytes = s.bytes)
    ∨ ∃ s', result = (.ok (hits, 0), s') ∧ s'.Before [] ∧ s'.bytes = s.bytes

/-- The loop behind a turn, with the size that is left. -/
def afterTurn (looks : Bool) (turns : Nat) (hits : List Hit) (current : Nat) (event_size : Int32) :
    PtReading (List Hit × Int32) := do
  let stream ← StreamReader.holds
  if stream ∧ event_size > 0 then parseFrames looks turns hits current event_size
  else pure (hits, event_size)

/-- The loop is a turn, and the loop behind it. -/
theorem parseFrames_succ (looks : Bool) (turns : Nat) {hits hits' : List Hit}
    {current current' : Nat} {event_size event_size' : Int32} {s' : InputStream}
    (h : turn looks hits current event_size s = (.ok (hits', current', event_size'), s')) :
    parseFrames looks (turns + 1) hits current event_size s
      = afterTurn looks turns hits' current' event_size' s' := by
  conv_lhs => unfold parseFrames
  rw [StreamReader.bind_ok h]
  rfl

/-- A loop that was stopped further on in the same file was stopped. -/
theorem FramesStopped.of_bytes {hits : List Hit} {s₁ : InputStream}
    {result : Except PtFault (List Hit × Int32) × InputStream} (hbytes : s₁.bytes = s.bytes)
    (h : FramesStopped hits s₁ result) : FramesStopped hits s result := by
  unfold FramesStopped at *
  rw [hbytes] at h
  exact h

/-- A size that is positive and fits into a word is not 0 as an `int`: the
loop goes on. -/
theorem size_ne {n : Nat} (hpos : 0 < n) (hlt : n < 2 ^ 32) : Int32.ofNat n ≠ 0 := by
  intro h
  have hbits : (UInt32.ofNat n).toNat = (UInt32.ofNat 0).toNat :=
    congrArg (fun size : Int32 => size.toUInt32.toNat) h
  rw [UInt32.toNat_ofNat_of_lt' hlt] at hbits
  exact absurd hbits (Nat.ne_of_gt hpos)

/-- The hits of an event, with those that no frame was found for. -/
def filledFrom (done : List Hit) (hit : Hit) (spare : Nat) (frames : List Frame) : List Hit :=
  done ++ collect hit frames ++ List.replicate (spare + 1 - (collect hit frames).length) Hit.empty

/-- Behind a turn the file ends in the frames that follow. -/
def EndsAfter (looks : Bool) (frames : List Frame) : Prop :=
  ∀ (turns : Nat) (done : List Hit) (hit : Hit) (spare : Nat) (s : InputStream) (cut : List UInt8),
    cut.length < turns → (frameBytes frames).length < 2 ^ 31 → s.Before cut →
    Cut cut (frameBytes frames) → hit.m_heads ≠ [] → (collect hit frames).length ≤ spare + 1 →
    FramesStopped (filledFrom done hit spare frames) s
      (afterTurn looks turns (hitsAt done hit spare) done.length
        (.ofNat (frameBytes frames).length) s)

/-- A frame goes into `hit`; the file ends in it or behind it. -/
theorem parseFrames_cut (looks : Bool) {frame : Frame} {frames : List Frame} {hits done : List Hit}
    {hit : Hit} {current spare turns : Nat} (hafter : EndsAfter looks frames)
    (hnext : ∀ s, nextCurrent hits current frame.header s = (.ok done.length, s))
    (hhit : hits[done.length]? = some hit)
    (hset : hits.set done.length (hit.add frame) = hitsAt done (hit.add frame) spare)
    (hroom : (collect (hit.add frame) frames).length ≤ spare + 1)
    (hturns : cut.length ≤ turns) (hlt : frame.bytes.length + (frameBytes frames).length < 2 ^ 31)
    (h : s.Before cut) (hcut : Cut cut (frame.bytes ++ frameBytes frames)) :
    FramesStopped (filledFrom done (hit.add frame) spare frames) s
      (parseFrames looks (turns + 1) hits current
        (.ofNat (frame.bytes.length + (frameBytes frames).length)) s) := by
  cases hcut.append with
  | inr hfull =>
      obtain ⟨cut', rfl, hcut'⟩ := hfull
      have hlength := frame.length_bytes
      rw [List.length_append] at hturns
      have hne : frame.bytes ≠ [] := List.ne_nil_of_length_pos (by omega)
      obtain ⟨s₁, hbefore, hbytes, hturn⟩ := turn_ready looks frame
        (.ofNat (frame.bytes.length + (frameBytes frames).length))
        (h.ready (List.append_ne_nil_of_left_ne_nil hne _)) hnext hhit
      rw [hset, size_left] at hturn
      rw [parseFrames_succ looks turns hturn]
      exact (hafter turns done _ spare s₁ cut' (by omega) (by omega) hbefore hcut'
        (hit.add_heads_ne frame) hroom).of_bytes hbytes
  | inl hshort =>
      cases turn_cut looks frame (frameBytes frames).length h hshort hnext hhit with
      | inl herror =>
          obtain ⟨what, s', hturn, hstuck, hbytes⟩ := herror
          left
          refine ⟨what, s', ?_, hstuck, hbytes⟩
          unfold parseFrames
          exact StreamReader.bind_error hturn
      | inr hrest =>
          cases hrest with
          | inl hmissing =>
              -- the loop ends with the stream, and the size is not used up
              obtain ⟨hits', missing, s', hpos, hle, hturn, hstuck, hbytes⟩ := hmissing
              have hholds : (StreamReader.holds : PtReading Bool) s' = (.ok false, s') := by
                unfold StreamReader.holds
                rw [hstuck.fail]
                rfl
              right
              left
              refine ⟨hits', .ofNat (missing + (frameBytes frames).length), s',
                size_ne (by omega) (by omega), ?_, hstuck, hbytes⟩
              rw [parseFrames_succ looks turns hturn]
              unfold afterTurn
              rw [StreamReader.bind_ok hholds, if_neg (fun h => Bool.false_ne_true h.1)]
              rfl
          | inr hpadding =>
              obtain ⟨hrest, s₁, hturn, hbefore, hbytes⟩ := hpadding
              rw [h.rest] at hrest
              have hpos := List.length_pos_of_ne_nil hrest
              rw [hset] at hturn
              rw [parseFrames_succ looks turns hturn]
              cases frames with
              | nil =>
                  have hholds : (StreamReader.holds : PtReading Bool) s₁ = (.ok true, s₁) :=
                    StreamReader.holds_of hbefore.fail
                  right
                  right
                  refine ⟨s₁, ?_, hbefore, hbytes⟩
                  unfold afterTurn
                  rw [StreamReader.bind_ok hholds, if_neg (fun h => absurd h.2 (by decide))]
                  show (Except.ok (hitsAt done (hit.add frame) spare, (0 : Int32)), s₁) = _
                  unfold filledFrom collect hitsAt
                  simp
              | cons next frames =>
                  have hnone : Cut [] (frameBytes (next :: frames)) := by
                    have hlength : 16 * (frames.length + 1) ≤ _ :=
                      length_frameBytes (next :: frames)
                    refine ⟨frameBytes (next :: frames), List.ne_nil_of_length_pos ?_, rfl⟩
                    omega
                  exact (hafter turns done _ spare s₁ [] (Nat.lt_of_lt_of_le hpos hturns)
                    (by omega) hbefore hnone
                    (hit.add_heads_ne frame) hroom).of_bytes hbytes

/-- The loop behind a turn is stopped when the file ends in the frames that
follow, by induction over them. -/
theorem ends_after (looks : Bool) (frames : List Frame) : EndsAfter looks frames := by
  induction frames with
  | nil =>
      intro turns done hit spare s cut _ _ _ hcut
      exact absurd hcut.length_lt (Nat.not_lt_zero _)
  | cons frame frames ih =>
      intro turns done hit spare s cut hturns hlt h hcut hheads hroom
      have hsplit : frameBytes (frame :: frames) = frame.bytes ++ frameBytes frames := rfl
      have hlength := frame.length_bytes
      have hholds : (StreamReader.holds : PtReading Bool) s = (.ok true, s) :=
        StreamReader.holds_of h.fail
      rw [hsplit] at hcut
      rw [hsplit, List.length_append] at hlt ⊢
      unfold afterTurn
      rw [StreamReader.bind_ok hholds, if_pos ⟨rfl, size_pos (by omega) hlt⟩]
      unfold filledFrom
      unfold collect at hroom ⊢
      cases turns with
      | zero => exact absurd hturns (Nat.not_lt_zero _)
      | succ turns =>
          have hturns' : cut.length ≤ turns := Nat.le_of_lt_succ hturns
          cases hsub : frame.header.subsequent with
          | true =>
              rw [hsub, if_pos rfl] at hroom
              rw [if_pos rfl]
              -- the frame goes on with the current hit
              have hnext := nextCurrent_subsequent hsub (hitsAt done hit spare) done.length
              exact parseFrames_cut looks ih hnext (hitsAt_current done hit spare)
                (set_hitsAt done hit _ spare) hroom hturns' hlt h hcut
          | false =>
              rw [hsub, if_neg Bool.false_ne_true] at hroom
              rw [if_neg Bool.false_ne_true]
              have hpos := collect_length_pos (Hit.empty.add frame) frames
              rw [List.length_cons] at hroom
              cases spare with
              -- there is room for all hits, so one is spare
              | zero => omega
              | succ spare =>
                  have hnext : ∀ s, nextCurrent (hitsAt done hit (spare + 1)) done.length
                      frame.header s = (.ok (done ++ [hit]).length, s) := by
                    intro s
                    rw [List.length_append]
                    exact nextCurrent_begins hsub hheads done (spare + 1) s
                  rw [hitsAt_next] at hnext ⊢
                  have hcut := parseFrames_cut looks ih hnext
                    (hitsAt_current (done ++ [hit]) Hit.empty spare)
                    (set_hitsAt (done ++ [hit]) Hit.empty _ spare) (by omega) hturns' hlt h hcut
                  unfold filledFrom at hcut
                  rw [List.append_assoc done, List.singleton_append] at hcut
                  rw [List.length_cons, Nat.add_sub_add_right]
                  exact hcut

/-- An event whose frames the file does not have in full is never read with
other hits. -/
theorem parse_event_cut (looks : Bool) {frames : List Frame}
    (hlt : (frameBytes frames).length < 2 ^ 31) (hhits : (hitsOf frames).length < 2 ^ 31)
    (h : s.Before cut) (hcut : Cut cut (frameBytes frames)) :
    Stopped (hitsOf frames) s
      (parse_event looks (.ofNat (hitsOf frames).length) (.ofNat (frameBytes frames).length)
        s) := by
  cases frames with
  | nil => exact absurd hcut.length_lt (Nat.not_lt_zero _)
  | cons frame frames =>
      have hsplit : frameBytes (frame :: frames) = frame.bytes ++ frameBytes frames := rfl
      have hpos := collect_length_pos (Hit.empty.add frame) frames
      -- each frame takes 16 of the bytes that are there
      have hturns : cut.length ≤ s.bytes.length := by
        rw [← h.rest]
        exact s.length_rest_le
      have hsize : (StreamReader.lift fun s => (s.bytes.length + 1, s) : PtReading Nat) s
          = (.ok (s.bytes.length + 1), s) := rfl
      obtain ⟨spare, hspare⟩ := Nat.exists_eq_succ_of_ne_zero (Nat.ne_of_gt hpos)
      unfold parse_event
      rw [if_neg (nonneg_ofNat_int hhits), toNat_ofNat_int hhits, StreamReader.bind_ok hsize]
      rw [hsplit] at hcut
      rw [hsplit, List.length_append] at hlt ⊢
      have hmade : List.replicate spare.succ Hit.empty = hitsAt [] Hit.empty spare := rfl
      rw [hitsOf_cons, hspare, hmade]
      have hset : (hitsAt [] Hit.empty spare).set ([] : List Hit).length (Hit.empty.add frame)
          = hitsAt [] (Hit.empty.add frame) spare := set_hitsAt [] Hit.empty _ spare
      have hloop := parseFrames_cut looks (ends_after looks frames)
        (nextCurrent_first frame.header spare)
        (hitsAt_current [] Hit.empty spare) hset (Nat.le_of_eq hspare) hturns hlt h hcut
      have hfilled : filledFrom [] (Hit.empty.add frame) spare frames
          = collect (Hit.empty.add frame) frames := by
        unfold filledFrom
        rw [hspare, Nat.sub_self, List.replicate_zero, List.append_nil, List.nil_append]
      rw [hfilled] at hloop
      cases hloop with
      | inl herror =>
          obtain ⟨what, s', hread, hstuck, hbytes⟩ := herror
          exact Or.inl ⟨what, s', StreamReader.bind_error hread, hstuck, hbytes⟩
      | inr hrest =>
          cases hrest with
          | inl hsize =>
              obtain ⟨hits', size, s', hne, hread, hstuck, hbytes⟩ := hsize
              refine Or.inl ⟨"Incomplete event in file.", s', ?_, hstuck, hbytes⟩
              rw [StreamReader.bind_ok hread, if_pos hne]
              rfl
          | inr hread =>
              obtain ⟨s', hread, hbefore, hbytes⟩ := hread
              refine Or.inr ⟨s', ?_, hbefore, hbytes⟩
              rw [StreamReader.bind_ok hread, if_neg (not_not.mpr rfl)]
              rfl

/-! ## §3. Events and slices. -/

/-- An event that the file does not have in full: an exception, or the event. -/
theorem readEvent_cut (looks : Bool) (event : TriggeredEvent) (h : s.Before cut)
    (hcut : Cut cut event.bytes) : Stopped event.read s (readEvent looks s) := by
  have hlt := event.length_lt
  have hhits := event.hits_lt
  unfold TriggeredEvent.bytes at hcut
  unfold readEvent
  cases hcut.append with
  | inl hshort =>
      have hhead := hshort.length_lt
      rw [length_headerBytes] at hhead
      obtain ⟨s', hread, hstuck, hbytes⟩ := readHeader_cut (α := EventHeader) h hhead
      exact Or.inl ⟨_, s', StreamReader.bind_error hread, hstuck, hbytes⟩
  | inr hfull =>
      obtain ⟨cut', rfl, hcut'⟩ := hfull
      have hne : headerBytes event.header ≠ [] :=
        List.ne_nil_of_length_pos (by rw [length_headerBytes]; decide)
      have hready := h.ready (List.append_ne_nil_of_left_ne_nil hne _)
      have hnext := hready.advance
      rw [length_headerBytes] at hnext
      have hsize : event.header.EventL.toInt32 - .ofNat (headerSize EventHeader)
          = .ofNat (frameBytes event.frames).length := size_left 112 _
      rw [StreamReader.bind_ok (readHeader_ready event.header hready), hsize]
      have hparse := parse_event_cut looks (by omega) (by omega) hnext.before hcut'
      exact (hparse.map fun m_hits => (⟨event.header, m_hits⟩ : Event)).of_bytes rfl

/-- Events that the file does not have in full, by induction over them: an
exception, or the events. -/
theorem readEvents_cut (looks : Bool) (events : List TriggeredEvent) :
    ∀ (s : InputStream) (cut : List UInt8), s.Before cut →
      Cut cut (events.flatMap TriggeredEvent.bytes) →
      Stopped (events.map TriggeredEvent.read) s (readEvents looks events.length s) := by
  induction events with
  | nil =>
      intro s cut _ hcut
      exact absurd hcut.length_lt (Nat.not_lt_zero _)
  | cons event events ih =>
      intro s cut h hcut
      rw [List.flatMap_cons] at hcut
      show Stopped _ s ((readEvent looks >>= fun event => readEvents looks events.length >>= _) s)
      -- the events that follow
      have hevents : ∀ {cut' s₁}, s₁.Before cut' → s₁.bytes = s.bytes →
          Cut cut' (events.flatMap TriggeredEvent.bytes) →
          Stopped ((event :: events).map TriggeredEvent.read) s
            ((readEvents looks events.length >>= fun rest => pure (event.read :: rest)) s₁) := by
        intro cut' s₁ hbefore hbytes hcut'
        exact ((ih s₁ cut' hbefore hcut').map (event.read :: ·)).of_bytes hbytes
      cases hcut.append with
      | inr hfull =>
          obtain ⟨cut', rfl, hcut'⟩ := hfull
          obtain ⟨s₁, hfirst, hbefore, hbytes⟩ := readEvent_ready looks event
            (h.ready (List.append_ne_nil_of_left_ne_nil event.bytes_ne _))
          rw [StreamReader.bind_ok hfirst]
          exact hevents hbefore hbytes hcut'
      | inl hshort =>
          cases readEvent_cut looks event h hshort with
          | inl herror =>
              obtain ⟨what, s', hread, hstuck, hbytes⟩ := herror
              exact Or.inl ⟨what, s', StreamReader.bind_error hread, hstuck, hbytes⟩
          | inr hvalue =>
              obtain ⟨s₁, hread, hbefore, hbytes⟩ := hvalue
              rw [StreamReader.bind_ok hread]
              cases events with
              | nil => exact Or.inr ⟨s₁, rfl, hbefore, hbytes⟩
              | cons next events =>
                  refine hevents hbefore hbytes ⟨_, ?_, rfl⟩
                  exact List.append_ne_nil_of_left_ne_nil next.bytes_ne _

/-- The number of events of a slice fits into an `int`. -/
theorem Slice.events_lt (slice : Slice) : slice.events.length < 2 ^ 31 := by
  have hevents := length_eventBytes slice.events
  have hslice := slice.length_lt
  omega

/-- **A slice** that the file ends in: it is read, or an exception comes. -/
theorem readTimeSlice_cut (looks : Bool) (slice : Slice) (h : s.Before cut)
    (hcut : Cut cut slice.bytes) : Stopped slice.read s (readTimeSlice looks s) := by
  unfold Slice.bytes at hcut
  unfold readTimeSlice
  cases hcut.append with
  | inl hshort =>
      have hhead := hshort.length_lt
      rw [length_headerBytes] at hhead
      obtain ⟨s', hread, hstuck, hbytes⟩ := readHeader_cut (α := TimeSliceHeader) h hhead
      exact Or.inl ⟨_, s', StreamReader.bind_error hread, hstuck, hbytes⟩
  | inr hfull =>
      obtain ⟨cut', rfl, hcut'⟩ := hfull
      have hne : headerBytes slice.header ≠ [] :=
        List.ne_nil_of_length_pos (by rw [length_headerBytes]; decide)
      have hready := h.ready (List.append_ne_nil_of_left_ne_nil hne _)
      have hnext := hready.advance
      rw [length_headerBytes] at hnext
      have hcount : slice.header.NEvents.toInt32 = .ofNat slice.events.length := rfl
      rw [StreamReader.bind_ok (readHeader_ready slice.header hready)]
      rw [hcount, if_neg (nonneg_ofNat_int slice.events_lt), toNat_ofNat_int slice.events_lt]
      have hevents := readEvents_cut looks slice.events _ cut' hnext.before hcut'
      exact (hevents.map fun m_events => (⟨slice.header, m_events⟩ : TimeSlice)).of_bytes rfl

/-! ## §4. The search for the slices. -/

/-- On a stuck stream no header is read, and the reader says so. -/
theorem readHeader_stuck (α : Type) [Header α] (hsize : 0 < headerSize α) (h : s.Stuck) :
    ∃ s', readHeader α s
        = (.error (.runtime_error "Error reading the full header from file."), s')
      ∧ s'.Stuck ∧ s'.bytes = s.bytes := by
  obtain ⟨s', hread, hstuck, hbytes⟩ := InputStream.read_stuck h (headerSize α)
  refine ⟨s', ?_, hstuck, hbytes⟩
  unfold readHeader
  rw [StreamReader.bind_ok (StreamReader.lift_of hread), List.length_nil,
    if_pos (Nat.ne_of_lt hsize)]
  rfl

/-- A turn of the search that finds no header to read ends with an exception. -/
theorem findSlices_headless (looks : Bool) (nTS turns : Nat) (found : List Nat) (h : s.Before cut)
    (hlt : cut.length < headerSize TimeSliceHeader) :
    ∃ what s', findSlices looks nTS (turns + 1) found s = (.error (.runtime_error what), s') := by
  unfold findSlices
  cases InputStream.tellg_before h with
  | inl hgood =>
      obtain ⟨s', hread, -, -⟩ := readHeader_cut (α := TimeSliceHeader) h hlt
      refine ⟨"Error reading the full header from file.", s', ?_⟩
      rw [StreamReader.bind_ok (StreamReader.lift_of hgood.1)]
      exact StreamReader.bind_error hread
  | inr hbad =>
      obtain ⟨s₁, htellg, hstuck, -⟩ := hbad
      obtain ⟨s', hread, -, -⟩ := readHeader_stuck TimeSliceHeader (by decide) hstuck
      refine ⟨"Error reading the full header from file.", s', ?_⟩
      rw [StreamReader.bind_ok (StreamReader.lift_of htellg)]
      exact StreamReader.bind_error hread

/-- A turn of the search that finds a header goes on, although the events behind
it are cut. -/
theorem findSlices_body (looks : Bool) (slice : Slice) (nTS turns : Nat) (found : List Nat)
    (h : s.Ready (headerBytes slice.header ++ cut)) (hcut : Cut cut slice.eventBytes) :
    ∃ s', s'.Before [] ∧ s'.bytes = s.bytes
      ∧ findSlices looks nTS (turns + 1) found s
        = if found.length + 1 < nTS then findSlices looks nTS turns (found ++ [s.pos]) s'
          else (.ok (found ++ [s.pos]), s') := by
  have hnext := h.advance
  rw [length_headerBytes] at hnext
  obtain ⟨hbefore, hbytes⟩ := InputStream.ignore_short looks hnext hcut.length_lt
  exact ⟨_, hbefore, hbytes, findSlices_found looks slice nTS turns found h rfl hbefore.fail⟩

/-- The search in a file that ends in the slices throws, or has found all
of them. -/
theorem findSlices_cut (looks : Bool) (slices : List Slice) :
    ∀ (slice : Slice) (turns : Nat) (found : List Nat) (s : InputStream) (cut : List UInt8),
      cut.length < turns → s.Before cut → Cut cut (PtFile.sliceBytes (slice :: slices)) →
      (∃ what s', findSlices looks (found.length + (slice :: slices).length) turns found s
          = (.error (.runtime_error what), s'))
        ∨ ∃ s', findSlices looks (found.length + (slice :: slices).length) turns found s
            = (.ok (found ++ places s.pos (slice :: slices)), s')
          ∧ s'.fail = false ∧ s'.bytes = s.bytes := by
  induction slices with
  | nil =>
      intro slice turns found s cut hturns h hcut
      have hsplit : PtFile.sliceBytes [slice] = headerBytes slice.header ++ slice.eventBytes := by
        unfold PtFile.sliceBytes Slice.bytes
        simp
      rw [hsplit] at hcut
      cases turns with
      | zero => exact absurd hturns (Nat.not_lt_zero _)
      | succ turns =>
          cases hcut.append with
          | inl hshort =>
              have hlt := hshort.length_lt
              rw [length_headerBytes] at hlt
              exact Or.inl (findSlices_headless looks _ turns found h hlt)
          | inr hfull =>
              obtain ⟨cut', rfl, hcut'⟩ := hfull
              have hne : headerBytes slice.header ≠ [] :=
                List.ne_nil_of_length_pos (by rw [length_headerBytes]; decide)
              obtain ⟨s', hbefore, hbytes, hturn⟩ := findSlices_body looks slice
                (found.length + 1) turns found
                (h.ready (List.append_ne_nil_of_left_ne_nil hne _)) hcut'
              rw [if_neg (Nat.lt_irrefl _)] at hturn
              exact Or.inr ⟨s', hturn, hbefore.fail, hbytes⟩
  | cons next slices ih =>
      intro slice turns found s cut hturns h hcut
      have hsplit : PtFile.sliceBytes (slice :: next :: slices)
          = slice.bytes ++ PtFile.sliceBytes (next :: slices) := rfl
      have hcount : found.length + (slice :: next :: slices).length
          = (found ++ [s.pos]).length + (next :: slices).length := by
        rw [List.length_append, List.length_cons, List.length_singleton]
        omega
      have hmore : found.length + 1 < (found ++ [s.pos]).length + (next :: slices).length := by
        rw [List.length_append, List.length_singleton, List.length_cons]
        omega
      rw [hsplit] at hcut
      rw [hcount]
      cases turns with
      | zero => exact absurd hturns (Nat.not_lt_zero _)
      | succ turns =>
          cases hcut.append with
          | inr hfull =>
              obtain ⟨cut', rfl, hcut'⟩ := hfull
              have hready := h.ready (List.append_ne_nil_of_left_ne_nil slice.bytes_ne cut')
              have hpos := List.length_pos_of_ne_nil slice.bytes_ne
              rw [List.length_append] at hturns
              obtain ⟨s₁, hbefore, hbytes, hplace, hturn⟩ := findSlices_turn looks slice
                ((found ++ [s.pos]).length + (next :: slices).length) turns found hready
              rw [if_pos hmore] at hturn
              rw [hturn]
              cases ih next turns (found ++ [s.pos]) s₁ cut' (by omega) hbefore hcut' with
              | inl herror => exact Or.inl herror
              | inr hfound =>
                  obtain ⟨s', hrest, hfail, hbytes'⟩ := hfound
                  rw [hplace, List.append_assoc] at hrest
                  exact Or.inr ⟨s', hrest, hfail, hbytes'.trans hbytes⟩
          | inl hshort =>
              left
              unfold Slice.bytes at hshort
              cases hshort.append with
              | inl hhead =>
                  have hlt := hhead.length_lt
                  rw [length_headerBytes] at hlt
                  exact findSlices_headless looks _ turns found h hlt
              | inr hbody =>
                  -- the header of the slice after this one is not there
                  obtain ⟨cut', rfl, hcut'⟩ := hbody
                  have hpos : 0 < (headerBytes slice.header).length := by
                    rw [length_headerBytes]
                    decide
                  have hne := List.ne_nil_of_length_pos hpos
                  rw [List.length_append] at hturns
                  obtain ⟨s₁, hbefore, -, hturn⟩ := findSlices_body looks slice
                    ((found ++ [s.pos]).length + (next :: slices).length) turns found
                    (h.ready (List.append_ne_nil_of_left_ne_nil hne _)) hcut'
                  rw [if_pos hmore] at hturn
                  rw [hturn]
                  obtain ⟨turns, rfl⟩ := Nat.exists_eq_succ_of_ne_zero (n := turns) (by omega)
                  exact findSlices_headless looks _ turns (found ++ [s.pos]) hbefore (by decide)

/-! ## §5. The file. -/

/-- A reader of the first `t` bytes of the file, with no failure behind it. -/
structure OpenedCut (file : PtFile) (t : Nat) (reader : PtFileReader) : Prop where
  bytes : reader.m_file.bytes = file.bytes.take t
  fail : reader.m_file.fail = false
  m_head : reader.m_head = file.header
  m_ts_pos : reader.m_ts_pos = places (32 + file.datacard.length) file.slices

/-- The front of a file is a piece and what follows it, or the piece is cut. -/
theorem take_cut (piece rest : List UInt8) (n : Nat) :
    (piece.length ≤ n ∧ ∃ rest', (piece ++ rest).take n = piece ++ rest')
      ∨ n < piece.length ∧ Cut ((piece ++ rest).take n) piece := by
  cases Nat.lt_or_ge n piece.length with
  | inl hlt =>
      refine Or.inr ⟨hlt, piece.drop n, List.ne_nil_of_length_pos ?_, ?_⟩
      · rw [List.length_drop]
        omega
      · rw [List.take_append_of_le_length (Nat.le_of_lt hlt), List.take_append_drop]
  | inr hle =>
      refine Or.inl ⟨hle, rest.take (n - piece.length), ?_⟩
      rw [List.take_append, List.take_of_length_le hle]

/-- The stream behind the datacard of a file of which the first `t` bytes
are there. -/
def behindCard (file : PtFile) (t : Nat) : InputStream :=
  ⟨file.bytes.take t, 32 + file.datacard.length, false, false⟩

/-- The search throws, or it finds all slices. -/
theorem findSlices_behindCard (looks : Bool) (file : PtFile) (t : Nat) :
    (∃ what s', findSlices looks file.slices.length ((file.bytes.take t).length + 1) []
          (behindCard file t) = (.error (.runtime_error what), s'))
      ∨ ∃ s', findSlices looks file.slices.length ((file.bytes.take t).length + 1) []
            (behindCard file t) = (.ok (places (32 + file.datacard.length) file.slices), s')
          ∧ s'.fail = false ∧ s'.bytes = file.bytes.take t := by
  obtain ⟨slice, slices, hslices⟩ := List.exists_cons_of_ne_nil file.slices_ne
  have hthere : (behindCard file t).Ready
      ((PtFile.sliceBytes file.slices).take (t - (32 + file.datacard.length))) := by
    refine ⟨rfl, rfl, ?_⟩
    rw [← drop_file, ← List.drop_take]
    rfl
  have hlength : (behindCard file t).rest.length ≤ (file.bytes.take t).length :=
    (behindCard file t).length_rest_le
  rw [hthere.rest] at hlength
  rw [hslices] at hthere hlength ⊢
  rw [← Nat.zero_add (slice :: slices).length]
  cases Nat.lt_or_ge (t - (32 + file.datacard.length))
      (PtFile.sliceBytes (slice :: slices)).length with
  | inl hlt =>
      refine findSlices_cut looks slices slice _ [] _ _ (Nat.lt_succ_of_le hlength) hthere.before
        ⟨(PtFile.sliceBytes (slice :: slices)).drop (t - (32 + file.datacard.length)),
          List.ne_nil_of_length_pos ?_, List.take_append_drop _ _⟩
      rw [List.length_drop]
      omega
  | inr hge =>
      have hcount := length_sliceBytes (slice :: slices)
      rw [List.length_cons] at hcount
      rw [List.take_of_length_le hge] at hthere hlength
      exact Or.inr (findSlices_ready looks slices slice _ [] _ (by omega) hthere)

/-- The constructor throws, or it has found all slices. -/
theorem new_cut (looks : Bool) (file : PtFile) (t : Nat) :
    (∃ what, PtFileReader.new looks (file.bytes.take t) = .error (.runtime_error what))
      ∨ ∃ reader, PtFileReader.new looks (file.bytes.take t) = .ok reader
          ∧ OpenedCut file t reader := by
  have hcard : file.header.datacard_size.toNat = file.datacard.length :=
    UInt32.toNat_ofNat_of_lt' file.datacard_lt
  have hcount : file.header.number_of_timeslices.toNat = file.slices.length :=
    UInt32.toNat_ofNat_of_lt' file.slices_lt
  have hthrows : ∀ {what s'}, PtFileReader.scan looks (.ofBytes (file.bytes.take t))
        = (.error (.runtime_error what), s') →
      PtFileReader.new looks (file.bytes.take t) = .error (.runtime_error what) := by
    intro what s' hscan
    unfold PtFileReader.new
    rw [hscan]
  -- the file ends in its own header, or behind it
  cases take_cut (headerBytes file.header) (file.datacard ++ PtFile.sliceBytes file.slices) t with
  | inr hshort =>
      obtain ⟨-, hcut⟩ := hshort
      have hlt := hcut.length_lt
      rw [length_headerBytes] at hlt
      obtain ⟨s', hread, -, -⟩ := readHeader_cut (α := PTHeader)
        (InputStream.ofBytes_ready (file.bytes.take t)).before hlt
      exact Or.inl ⟨_, hthrows (StreamReader.bind_error hread)⟩
  | inl hfull =>
      obtain ⟨-, rest, hrest⟩ := hfull
      have hstart : (InputStream.ofBytes (file.bytes.take t)).Ready
          (headerBytes file.header ++ rest) := by
        rw [← hrest]
        exact InputStream.ofBytes_ready _
      have hturns : (StreamReader.lift fun s => (s.bytes.length + 1, s) : PtReading Nat)
          (behindCard file t) = (.ok ((file.bytes.take t).length + 1), behindCard file t) := rfl
      have hseek : ((InputStream.ofBytes (file.bytes.take t)).advance (headerSize PTHeader)).seekg
          (32 + file.datacard.length) = behindCard file t := rfl
      -- behind the header the constructor does no more than look for the slices
      have hscan : PtFileReader.scan looks (.ofBytes (file.bytes.take t))
          = (findSlices looks file.slices.length ((file.bytes.take t).length + 1) [] >>=
              fun m_ts_pos => do
                StreamReader.move fun s => (s.seekg 0).clear
                pure (file.header, m_ts_pos) : PtReading (PTHeader × List Nat))
            (behindCard file t) := by
        unfold PtFileReader.scan
        rw [StreamReader.bind_ok (readHeader_ready file.header hstart),
          StreamReader.bind_ok (StreamReader.move_apply _ _), hcard]
        show (StreamReader.lift _ >>= _) (((InputStream.ofBytes (file.bytes.take t)).advance
          (headerSize PTHeader)).seekg (32 + file.datacard.length)) = _
        rw [hseek, StreamReader.bind_ok hturns, hcount]
      cases findSlices_behindCard looks file t with
      | inl herror =>
          obtain ⟨what, s', herror⟩ := herror
          exact Or.inl ⟨what, hthrows (hscan.trans (StreamReader.bind_error herror))⟩
      | inr hfound =>
          obtain ⟨s', hfound, hfail, hbytes⟩ := hfound
          rw [StreamReader.bind_ok hfound,
            StreamReader.bind_ok (StreamReader.move_apply _ _)] at hscan
          right
          -- all places are found, and the reader goes back to the start
          refine ⟨⟨(s'.seekg 0).clear, file.header,
            places (32 + file.datacard.length) file.slices⟩, ?_, ?_, rfl, rfl, rfl⟩
          · unfold PtFileReader.new
            rw [hscan]
            rfl
          · rw [InputStream.bytes_seekg_clear]
            exact hbytes

/-- Where a slice ends in the file: with so many bytes it is there in full. -/
def sliceEnd (file : PtFile) (pos : Fin file.slices.length) : Nat :=
  (places (32 + file.datacard.length) file.slices).getD pos 0 + (file.slices.get pos).bytes.length

/-- A reader that has failed; the place stays at the end. -/
structure Broken (file : PtFile) (reader : PtFileReader) : Prop where
  stuck : reader.m_file.Stuck
  m_ts_pos : reader.m_ts_pos = places (32 + file.datacard.length) file.slices

/-- A reader that has failed throws at each slice, and stays as it is. -/
theorem getSlice_broken (looks : Bool) {file : PtFile} {reader : PtFileReader}
    (h : Broken file reader) (pos : Fin file.slices.length) :
    (∃ what, (reader.getSlice looks pos).1 = .error (.runtime_error what))
      ∧ Broken file (reader.getSlice looks pos).2 := by
  obtain ⟨place, rest, hplace, -⟩ := drop_places (drop_file file) pos.isLt
  have hend := InputStream.seekg_clear_stuck h.stuck place
  obtain ⟨s', hread, hstuck, -⟩ := readHeader_cut (α := TimeSliceHeader) hend (by decide)
  have hslice : readTimeSlice looks (reader.m_file.seekg place).clear
      = (.error (.runtime_error "Error reading the full header from file."), s') := by
    unfold readTimeSlice
    exact StreamReader.bind_error hread
  unfold PtFileReader.getSlice
  rw [h.m_ts_pos, hplace]
  dsimp only
  rw [hslice]
  exact ⟨⟨_, rfl⟩, hstuck, rfl⟩

/-- A slice is read as it was written when it is there, or when only padding is
missing; else the reader has failed. -/
theorem getSlice_cut (looks : Bool) {file : PtFile} {t : Nat} {reader : PtFileReader}
    (h : OpenedCut file t reader) (pos : Fin file.slices.length) :
    ((reader.getSlice looks pos).1 = .ok (file.slices.get pos).read
        ∧ OpenedCut file t (reader.getSlice looks pos).2)
      ∨ t < sliceEnd file pos
        ∧ (∃ what, (reader.getSlice looks pos).1 = .error (.runtime_error what))
        ∧ Broken file (reader.getSlice looks pos).2 := by
  obtain ⟨place, rest, hplace, hdrop⟩ := drop_places (drop_file file) pos.isLt
  have hready := InputStream.seekg_clear_ready h.fail place
  rw [h.bytes, List.drop_take, hdrop] at hready
  have hend : sliceEnd file pos = place + file.slices[pos].bytes.length := by
    unfold sliceEnd
    rw [List.getD_eq_getElem?_getD, hplace]
    rfl
  -- the reader after the access is the one before it, but for its stream
  have hlast : ∀ {result : Except PtFault TimeSlice} {s'},
      readTimeSlice looks (reader.m_file.seekg place).clear = (result, s') →
      reader.getSlice looks pos = (result, { reader with m_file := s' }) := by
    intro result s' hread
    unfold PtFileReader.getSlice
    rw [h.m_ts_pos, hplace]
    dsimp only
    rw [hread, ← h.m_ts_pos]
  have hgood : ∀ {s'}, s'.bytes = (reader.m_file.seekg place).clear.bytes → s'.fail = false →
      OpenedCut file t { reader with m_file := s' } := by
    intro s' hbytes hfail
    refine ⟨?_, hfail, h.m_head, h.m_ts_pos⟩
    rw [← h.bytes, ← reader.m_file.bytes_seekg_clear place]
    exact hbytes
  -- the slice is there in full, or the file ends in it
  cases take_cut file.slices[pos].bytes rest (t - place) with
  | inl hfull =>
      obtain ⟨-, rest', hrest⟩ := hfull
      rw [← Fin.getElem_fin, hrest] at hready
      obtain ⟨s', hread, hbefore, hbytes⟩ := readTimeSlice_ready looks file.slices[pos] hready
      left
      rw [hlast hread]
      exact ⟨rfl, hgood hbytes hbefore.fail⟩
  | inr hshort =>
      obtain ⟨hlt, hcut⟩ := hshort
      rw [← Fin.getElem_fin] at hready
      -- where it ends in the padding of the last frame, the slice is read all the same
      cases readTimeSlice_cut looks file.slices[pos] hready.before hcut with
      | inl herror =>
          obtain ⟨what, s', hread, hstuck, -⟩ := herror
          right
          rw [hlast hread, hend]
          exact ⟨by omega, ⟨what, rfl⟩, hstuck, h.m_ts_pos⟩
      | inr hvalue =>
          obtain ⟨s', hread, hbefore, hbytes⟩ := hvalue
          left
          rw [hlast hread]
          exact ⟨rfl, hgood hbytes hbefore.fail⟩

/-! ## §6. No slice is misread. -/

/-- A reader that has failed throws at each slice from then on. -/
theorem getSlices_broken (looks : Bool) {file : PtFile}
    (positions : List (Fin file.slices.length)) :
    ∀ reader : PtFileReader, Broken file reader →
      ∃ whats : List String, whats.length = positions.length
        ∧ reader.getSlices looks (positions.map Fin.val)
          = whats.map fun what => .error (.runtime_error what) := by
  induction positions with
  | nil =>
      intro reader _
      exact ⟨[], rfl, rfl⟩
  | cons pos positions ih =>
      intro reader h
      obtain ⟨hthrows, hnext⟩ := getSlice_broken looks h pos
      obtain ⟨what, hslice⟩ := hthrows
      obtain ⟨whats, hlength, hrest⟩ := ih _ hnext
      refine ⟨what :: whats, congrArg (· + 1) hlength, ?_⟩
      show (reader.getSlice looks pos).1 :: _ = _
      rw [hslice]
      exact congrArg _ hrest

/-- The answers of a reader: slices as they were written, up to one that is not
there in full, and exceptions from then on. -/
def AnswersUpTo (file : PtFile) (t : Nat) (positions : List (Fin file.slices.length))
    (answers : List (Except PtFault TimeSlice)) : Prop :=
  ∃ (k : Nat) (whats : List String), k + whats.length = positions.length
    ∧ (∀ h : k < positions.length, t < sliceEnd file (positions.get ⟨k, h⟩))
    ∧ answers = (positions.take k).map (fun pos => .ok (file.slices.get pos).read)
      ++ whats.map fun what => .error (.runtime_error what)

/-- The answers of a reader to a sequence of slices: right ones up to some point,
and exceptions from then on. -/
theorem getSlices_cut (looks : Bool) {file : PtFile} {t : Nat}
    (positions : List (Fin file.slices.length)) :
    ∀ reader : PtFileReader, OpenedCut file t reader →
      AnswersUpTo file t positions (reader.getSlices looks (positions.map Fin.val)) := by
  induction positions with
  | nil =>
      intro reader _
      exact ⟨0, [], rfl, fun h => absurd h (Nat.lt_irrefl 0), rfl⟩
  | cons pos positions ih =>
      intro reader h
      show AnswersUpTo file t _ ((reader.getSlice looks pos).1 :: _)
      cases getSlice_cut looks h pos with
      | inl hread =>
          obtain ⟨hslice, hnext⟩ := hread
          obtain ⟨k, whats, hlength, hend, hrest⟩ := ih _ hnext
          rw [hslice]
          refine ⟨k + 1, whats, ?_, fun hk => hend (Nat.lt_of_succ_lt_succ hk), ?_⟩
          · rw [List.length_cons]
            omega
          · exact congrArg (List.cons _) hrest
      | inr hthrows =>
          obtain ⟨hlt, hwhat, hnext⟩ := hthrows
          obtain ⟨what, hslice⟩ := hwhat
          obtain ⟨whats, hlength, hrest⟩ := getSlices_broken looks positions _ hnext
          rw [hslice]
          refine ⟨0, what :: whats, ?_, fun _ => hlt, congrArg (List.cons _) hrest⟩
          rw [List.length_cons, List.length_cons]
          omega

/-- **No slice is misread** in a file that ends after `t` bytes. -/
theorem truncated_never_misread (looks : Bool) (file : PtFile) (t : Nat)
    (positions : List (Fin file.slices.length)) :
    (∃ what, PtFileReader.new looks (file.bytes.take t) = .error (.runtime_error what))
      ∨ ∃ reader, PtFileReader.new looks (file.bytes.take t) = .ok reader
          ∧ reader.m_head = file.header
          ∧ AnswersUpTo file t positions (reader.getSlices looks (positions.map Fin.val)) := by
  cases new_cut looks file t with
  | inl herror => exact Or.inl herror
  | inr hnew =>
      obtain ⟨reader, hnew, hopened⟩ := hnew
      exact Or.inr ⟨reader, hnew, hopened.m_head, getSlices_cut looks positions reader hopened⟩

end PokerReco.DAQ.PostTrigger
