/-
  PokerReco.DAQ.JEventSourceTRIDASDAQ
  ───────────────────────────────────
  **READING A TRIDAS FILE** (`DAQ/JEventSourceTRIDASDAQ.cc` over
  `TRIDAS/ptfile_reader.hpp`).

  A post-trigger file is a sequence of time slices, each a sequence of events.
  The source keeps one iterator on the slices and one on the events of the
  current slice, and advances them from call to call of `GetEvent`.

  At the end of a slice `GetEvent` moves on once, by an `if`, and then
  dereferences the event iterator.  `delivers_whole_file_iff` says for which
  files that is enough: those whose slices, the first excepted, have events.
-/
import Mathlib.Data.List.Basic
import PokerReco.JANA.Basic

namespace PokerReco.DAQ

open PokerReco.JANA

/-! ## §1. The file. -/

/-- `Event`: the id of its header and its hits. -/
structure PtEvent (H : Type) where
  id : UInt32
  m_hits : List H
  deriving DecidableEq, Repr

/-- `TimeSlice`: the id of its header and its events. -/
structure TimeSlice (H : Type) where
  id : UInt64
  m_events : List (PtEvent H)
  deriving DecidableEq, Repr

/-- `PtFileReader`: its constructor finds at least one slice. -/
structure PtFileReader (H : Type) where
  runNumber : UInt32
  slices : List (TimeSlice H)
  nonempty : slices ≠ []

variable {H : Type}

/-- The slice `begin()` points to. -/
def PtFileReader.first (ptReader : PtFileReader H) : TimeSlice H :=
  ptReader.slices.head ptReader.nonempty

/-! ## §2. The source. -/

/-- `JEvent`, the members a source sets. -/
structure JEvent (H : Type) where
  ref : Option (PtEvent H)
  event_number : UInt64
  event_TS : UInt64
  run_number : Int32
  deriving DecidableEq, Repr

/-- A `JEvent` as `ReadEvent` hands it to the source. -/
def JEvent.fresh : JEvent H := ⟨none, 0, 0, 0⟩

/-- `DAQSourceType`. -/
inductive SourceType where
  | kNoSource
  | kFileSource
  deriving DecidableEq, Repr

/-- `JEventSourceTRIDASDAQ`.  An iterator is a position; `ptTimeSlice` is
`none` once it was deleted and not replaced. -/
structure JEventSourceTRIDASDAQ (H : Type) where
  source_type : SourceType
  curRunNumber : Int32
  overwriteRunNumber : Int32
  ptReader : PtFileReader H
  it_ptReader : Nat
  nEventsTimeSlice : Nat
  ptTimeSlice : Option (TimeSlice H)
  it_ptTimeSlice : Nat

namespace JEventSourceTRIDASDAQ

/-- The constructor, which opens the first slice. -/
def new (ptReader : PtFileReader H) : JEventSourceTRIDASDAQ H where
  source_type := .kFileSource
  curRunNumber := 0
  overwriteRunNumber := -1
  ptReader := ptReader
  it_ptReader := 0
  nEventsTimeSlice := ptReader.first.m_events.length
  ptTimeSlice := some ptReader.first
  it_ptTimeSlice := 0

/-- The second half of `GetEvent`: hand out the event `it_ptTimeSlice` points
to; `none` when it points past the end. -/
def deliver (s : JEventSourceTRIDASDAQ H) (slice : TimeSlice H) (event : JEvent H) :
    Option (JError × JEvent H × JEventSourceTRIDASDAQ H) :=
  match slice.m_events[s.it_ptTimeSlice]? with
  | none => none
  | some ptEvent =>
      let curRunNumber := .ofInt s.ptReader.runNumber.toNat
      some (.NOERROR,
        { event with
          ref := some ptEvent
          event_number := ptEvent.id.toUInt64
          event_TS := slice.id
          run_number := if s.overwriteRunNumber ≠ -1 then s.overwriteRunNumber else curRunNumber },
        { s with curRunNumber := curRunNumber, it_ptTimeSlice := s.it_ptTimeSlice + 1 })

/-- `GetEvent`; `none` when it dereferences a past-the-end iterator or a
deleted slice. -/
def GetEvent (s : JEventSourceTRIDASDAQ H) (event : JEvent H) :
    Option (JError × JEvent H × JEventSourceTRIDASDAQ H) :=
  -- no reference until an event is found
  let event := { event with ref := none }
  match s.source_type with
  | .kNoSource => some (.EVENT_SOURCE_NOT_OPEN, event, s)
  | .kFileSource =>
      match s.ptTimeSlice with
      | none => none
      | some slice =>
          if s.it_ptTimeSlice = slice.m_events.length then
            let s := { s with it_ptReader := s.it_ptReader + 1, ptTimeSlice := none }
            if s.it_ptReader = s.ptReader.slices.length then
              some (.NO_MORE_EVENTS_IN_SOURCE, event, s)
            else
              -- the next slice, whether or not it has events
              match s.ptReader.slices[s.it_ptReader]? with
              | none => none
              | some next =>
                  let s := { s with
                    nEventsTimeSlice := next.m_events.length
                    ptTimeSlice := some next
                    it_ptTimeSlice := 0 }
                  s.deliver next event
          else s.deliver slice event

/-- Successive calls of `GetEvent`, each with a fresh event: what they
return. -/
def calls : Nat → JEventSourceTRIDASDAQ H → Option (List (JError × JEvent H))
  | 0, _ => some []
  | n + 1, s =>
      match s.GetEvent .fresh with
      | none => none
      | some (err, event, s) => (calls n s).map ((err, event) :: ·)

/-! ## §3. What the calls should return. -/

/-- The call that delivers an event of a slice. -/
def deliveryOf (ptReader : PtFileReader H) (slice : TimeSlice H) (e : PtEvent H) :
    JError × JEvent H :=
  (.NOERROR, { ref := some e, event_number := e.id.toUInt64, event_TS := slice.id,
               run_number := .ofInt ptReader.runNumber.toNat })

/-- The calls that deliver the events of some slices, in file order. -/
def deliveries (ptReader : PtFileReader H) (slices : List (TimeSlice H)) :
    List (JError × JEvent H) :=
  slices.flatMap fun slice => slice.m_events.map (deliveryOf ptReader slice)

/-- **The whole file, once and in order**: one call for each event, then the
end of the source. -/
def DeliversWholeFile (ptReader : PtFileReader H) : Prop :=
  (new ptReader).calls ((deliveries ptReader ptReader.slices).length + 1)
    = some (deliveries ptReader ptReader.slices ++ [(.NO_MORE_EVENTS_IN_SOURCE, .fresh)])

/-! ## §4. One slice. -/

/-- The source with the current slice at place `p` and the next event at
place `i` in it. -/
structure At (s : JEventSourceTRIDASDAQ H) (file : PtFileReader H) (p i : Nat) : Prop where
  source_type : s.source_type = .kFileSource
  overwriteRunNumber : s.overwriteRunNumber = -1
  ptReader : s.ptReader = file
  it_ptReader : s.it_ptReader = p
  ptTimeSlice : s.ptTimeSlice = file.slices[p]?
  it_ptTimeSlice : s.it_ptTimeSlice = i

variable {s : JEventSourceTRIDASDAQ H} {ptReader : PtFileReader H} {p i : Nat}
variable {slice next : TimeSlice H} {e : PtEvent H}

/-- The new source stands at the first event of the first slice. -/
theorem new_at (ptReader : PtFileReader H) : (new ptReader).At ptReader 0 0 where
  source_type := rfl
  overwriteRunNumber := rfl
  ptReader := rfl
  it_ptReader := rfl
  ptTimeSlice := by
    show some (ptReader.slices.head ptReader.nonempty) = ptReader.slices[0]?
    rw [← List.head?_eq_getElem?, List.head?_eq_some_head]
  it_ptTimeSlice := rfl

/-- The source hands out the event that its iterator points to, and stands at
the next one. -/
theorem deliver_at (hat : s.At ptReader p i) (he : slice.m_events[i]? = some e) :
    ∃ s' : JEventSourceTRIDASDAQ H,
      s.deliver slice .fresh
          = some ((deliveryOf ptReader slice e).1, (deliveryOf ptReader slice e).2, s')
        ∧ s'.At ptReader p (i + 1) := by
  refine ⟨{ s with
    curRunNumber := .ofInt s.ptReader.runNumber.toNat
    it_ptTimeSlice := s.it_ptTimeSlice + 1 }, ?_, { hat with it_ptTimeSlice := ?_ }⟩
  · unfold deliver
    rw [hat.it_ptTimeSlice, he, hat.overwriteRunNumber, hat.ptReader]
    rfl
  · show s.it_ptTimeSlice + 1 = i + 1
    rw [hat.it_ptTimeSlice]

/-- Before the end of a slice a call goes straight to the event. -/
theorem GetEvent_of_ne (hat : s.At ptReader p i) (hslice : ptReader.slices[p]? = some slice)
    (hne : i ≠ slice.m_events.length) : s.GetEvent .fresh = s.deliver slice .fresh := by
  unfold GetEvent
  rw [hat.source_type, hat.ptTimeSlice, hslice]
  simp only [hat.it_ptTimeSlice, hne, if_false]
  rfl

/-- Inside a slice a call delivers the event the iterator points to. -/
theorem GetEvent_inside (hat : s.At ptReader p i) (hslice : ptReader.slices[p]? = some slice)
    (he : slice.m_events[i]? = some e) :
    ∃ s' : JEventSourceTRIDASDAQ H,
      s.GetEvent .fresh
          = some ((deliveryOf ptReader slice e).1, (deliveryOf ptReader slice e).2, s')
        ∧ s'.At ptReader p (i + 1) := by
  have hne : i ≠ slice.m_events.length := by
    have := (List.getElem?_eq_some_iff.mp he).1
    omega
  rw [GetEvent_of_ne hat hslice hne]
  exact deliver_at hat he

/-- At the end of the last slice a call reports the end of the source. -/
theorem GetEvent_end (hat : s.At ptReader p slice.m_events.length)
    (hslice : ptReader.slices[p]? = some slice) (hlast : p + 1 = ptReader.slices.length) :
    ∃ s' : JEventSourceTRIDASDAQ H,
      s.GetEvent .fresh = some (.NO_MORE_EVENTS_IN_SOURCE, .fresh, s') := by
  refine ⟨{ s with it_ptReader := s.it_ptReader + 1, ptTimeSlice := none }, ?_⟩
  unfold GetEvent
  rw [hat.source_type, hat.ptTimeSlice, hslice]
  simp only [hat.it_ptTimeSlice, hat.it_ptReader, hat.ptReader, hlast, if_true]
  rfl

/-- At the end of another slice a call dereferences the first event of the
next slice, whether or not there is one. -/
theorem GetEvent_next (hat : s.At ptReader p slice.m_events.length)
    (hslice : ptReader.slices[p]? = some slice)
    (hnext : ptReader.slices[p + 1]? = some next) :
    ∃ s' : JEventSourceTRIDASDAQ H,
      s'.At ptReader (p + 1) 0 ∧ s.GetEvent .fresh = s'.deliver next .fresh := by
  have hne : p + 1 ≠ ptReader.slices.length := by
    have := (List.getElem?_eq_some_iff.mp hnext).1
    omega
  refine ⟨{ s with
    it_ptReader := s.it_ptReader + 1
    nEventsTimeSlice := next.m_events.length
    ptTimeSlice := some next
    it_ptTimeSlice := 0 }, { hat with
      it_ptReader := congrArg (· + 1) hat.it_ptReader
      ptTimeSlice := hnext.symm
      it_ptTimeSlice := rfl }, ?_⟩
  unfold GetEvent
  rw [hat.source_type, hat.ptTimeSlice, hslice]
  simp only [hat.it_ptTimeSlice, hat.it_ptReader, hat.ptReader, hne, if_true, if_false, hnext]
  rfl

/-! ## §5. The whole file. -/

/-- One more call comes in front of the calls from the source that it leaves. -/
theorem calls_succ_of_some {n : Nat} {s s' : JEventSourceTRIDASDAQ H} {err : JError}
    {event : JEvent H} (h : s.GetEvent .fresh = some (err, event, s')) :
    s.calls (n + 1) = (s'.calls n).map ((err, event) :: ·) := by
  simp only [calls, h]

/-- The calls up to the end of a slice deliver the rest of its events. -/
theorem calls_slice (n : Nat) (hslice : ptReader.slices[p]? = some slice) :
    ∀ (es : List (PtEvent H)) (i : Nat) (s : JEventSourceTRIDASDAQ H),
      s.At ptReader p i → slice.m_events.drop i = es →
      ∃ s' : JEventSourceTRIDASDAQ H, s'.At ptReader p (i + es.length)
        ∧ s.calls (es.length + n)
          = (s'.calls n).map (es.map (deliveryOf ptReader slice) ++ ·)
  | [], i, s, hat, _ => by
      refine ⟨s, hat, ?_⟩
      simp
  | e :: es, i, s, hat, hdrop => by
      have he : slice.m_events[i]? = some e := by
        rw [← List.head?_drop, hdrop]
        rfl
      have hrest : slice.m_events.drop (i + 1) = es := by
        rw [← List.tail_drop, hdrop]
        rfl
      obtain ⟨s₁, hcall, hat₁⟩ := GetEvent_inside hat hslice he
      obtain ⟨s', hat', hcalls⟩ := calls_slice n hslice es (i + 1) s₁ hat₁ hrest
      refine ⟨s', ?_, ?_⟩
      · rw [List.length_cons, Nat.add_comm es.length 1, ← Nat.add_assoc]
        exact hat'
      · rw [List.length_cons, Nat.succ_add, calls_succ_of_some hcall, hcalls, Option.map_map]
        rfl

/-- From the beginning of a slice the calls deliver the rest of the file if and
only if every later slice has events. -/
theorem calls_from_iff :
    ∀ (rest : List (TimeSlice H)) (p : Nat) (slice : TimeSlice H) (s : JEventSourceTRIDASDAQ H),
      s.At ptReader p 0 → ptReader.slices.drop p = slice :: rest →
      (s.calls ((deliveries ptReader (slice :: rest)).length + 1)
          = some (deliveries ptReader (slice :: rest) ++ [(.NO_MORE_EVENTS_IN_SOURCE, .fresh)])
        ↔ ∀ later ∈ rest, later.m_events ≠ []) := by
  intro rest p slice s hat hdrop
  have hslice : ptReader.slices[p]? = some slice := by
    rw [← List.head?_drop, hdrop]
    rfl
  obtain ⟨s₁, hat₁, hcalls⟩ := calls_slice ((deliveries ptReader rest).length + 1) hslice
    slice.m_events 0 s hat List.drop_zero
  rw [Nat.zero_add] at hat₁
  -- the calls split into those of this slice and those of the rest
  have hlength : (deliveries ptReader (slice :: rest)).length + 1
      = slice.m_events.length + ((deliveries ptReader rest).length + 1) := by
    simp [deliveries, Nat.add_assoc]
  have hsplit : deliveries ptReader (slice :: rest)
      = slice.m_events.map (deliveryOf ptReader slice) ++ deliveries ptReader rest := by
    simp [deliveries]
  have hcancel : s.calls ((deliveries ptReader (slice :: rest)).length + 1)
        = some (deliveries ptReader (slice :: rest) ++ [(.NO_MORE_EVENTS_IN_SOURCE, .fresh)])
      ↔ s₁.calls ((deliveries ptReader rest).length + 1)
        = some (deliveries ptReader rest ++ [(.NO_MORE_EVENTS_IN_SOURCE, .fresh)]) := by
    rw [hlength, hcalls, hsplit, List.append_assoc]
    cases s₁.calls ((deliveries ptReader rest).length + 1) with
    | none => simp
    | some log => simp
  rw [hcancel]
  have hrest : ptReader.slices.drop (p + 1) = rest := by
    rw [← List.tail_drop, hdrop]
    rfl
  cases rest with
  | nil =>
      have hlast : p + 1 = ptReader.slices.length := by
        have h1 := (List.getElem?_eq_some_iff.mp hslice).1
        have h2 := List.drop_eq_nil_iff.mp hrest
        omega
      -- one call is left, the one that reports the end
      obtain ⟨s₂, hend⟩ := GetEvent_end hat₁ hslice hlast
      simp [deliveries, calls, hend]
  | cons next rest =>
      have hnext : ptReader.slices[p + 1]? = some next := by
        rw [← List.head?_drop, hrest]
        rfl
      obtain ⟨s₂, hat₂, hcall⟩ := GetEvent_next hat₁ hslice hnext
      cases hevents : next.m_events with
      | nil =>
          -- the iterator on the events of `next` is at its end already
          have hfault : s₁.GetEvent .fresh = none := by
            rw [hcall]
            unfold deliver
            rw [hat₂.it_ptTimeSlice, hevents]
            rfl
          refine iff_of_false ?_ (fun h => h next List.mem_cons_self hevents)
          simp [calls, hfault]
      | cons e es =>
          -- this call is the call at the beginning of `next`
          have hsame : ∀ n, s₁.calls (n + 1) = s₂.calls (n + 1) := by
            intro n
            have hbegin := GetEvent_of_ne hat₂ hnext (by simp [hevents])
            simp only [calls, hcall, hbegin]
          rw [hsame, calls_from_iff rest (p + 1) next s₂ hat₂ hrest, List.forall_mem_cons]
          simp [hevents]

/-- **The source delivers the whole file, once and in order, and then reports
its end, if and only if every slice after the first has an event.**  At any
other file a call dereferences a past-the-end event iterator. -/
theorem delivers_whole_file_iff (ptReader : PtFileReader H) :
    DeliversWholeFile ptReader ↔ ∀ slice ∈ ptReader.slices.tail, slice.m_events ≠ [] := by
  obtain ⟨slice, rest, hslices⟩ := List.exists_cons_of_ne_nil ptReader.nonempty
  have hiff := calls_from_iff rest 0 slice (new ptReader) (new_at ptReader) hslices
  unfold DeliversWholeFile
  rw [hslices]
  exact hiff

/-- **A slice without events after the first slice**: the second call dereferences
its past-the-end event iterator. -/
theorem empty_slice_not_delivered :
    ¬ DeliversWholeFile
      { runNumber := 7
        slices := [{ id := 40, m_events := [{ id := 1, m_hits := ([] : List Nat) }] },
          { id := 41, m_events := [] }]
        nonempty := List.cons_ne_nil _ _ } := by
  unfold DeliversWholeFile
  decide

end JEventSourceTRIDASDAQ

end PokerReco.DAQ
