/-
  PokerReco.EPICS.Persistence
  ───────────────────────────
  **SLOW-CONTROL DATA ACROSS THE EVENT BUFFER** (`EPICS/epicsData_factory.cc`
  under `JApplication::EventBufferThread`, `NextEvent`, `JEventLoop::Loop`).

  One thread reads the source and pushes events into a buffer, the processing
  threads take them out of it.  An EPICS event is flagged sequential, which
  makes it a barrier for the reading thread: it is pushed when the buffer is
  empty, and the next event is read after it has been processed.

      read    the next event of the source
      push    the event that was read, into the buffer
      resume  after the sequential event was processed
      take    a thread takes the oldest event of the buffer
      process its `epicsData` is made
      finish  the thread is done with the event

  The buffer is empty when the last event before the EPICS event was taken,
  not when it was processed.  `published_data` says that each DAQ event gets
  the data of the EPICS events before it in every schedule in which no EPICS
  event is processed while another thread holds an event it has not processed.
-/
import Mathlib.Data.Fintype.Basic
import Mathlib.Data.List.Nodup
import PokerReco.Library.Schedule
import PokerReco.EPICS.EpicsData

namespace PokerReco.EPICS

open PokerReco.DAQ PokerReco.JANA PokerReco.Library

/-! ## §1. The source. -/

/-- An event of the source.  An EPICS event has the EPICS bank, from which
both its `eventData` and its texts are made. -/
inductive SourceEvent where
  | daqEvent (tData : Option EventData)
  | epicsEvent (tData : EventData) (m_rawdata : List String)

namespace SourceEvent

/-- `GetEvent` calls `SetSequential` on EPICS events. -/
def sequential : SourceEvent → Bool
  | daqEvent _ => false
  | epicsEvent _ _ => true

/-- The texts of an event: those of the EPICS bank, and none for a DAQ event. -/
def m_rawdata : SourceEvent → List String
  | daqEvent _ => []
  | epicsEvent _ raws => raws

/-- The `eventData` of an event, from which the factory learns what kind it is. -/
def tData : SourceEvent → Option EventData
  | daqEvent tData => tData
  | epicsEvent tData _ => some tData

end SourceEvent

variable {Val : Type}

/-- The source and the parameters of a job. -/
structure Job (Val : Type) where
  num_get : List Char → NumGet Val
  m_deltaTime : Int32
  MAX_EVENTS_IN_BUFFER : Nat
  source : List SourceEvent

namespace Job

/-- The effect of one event on the slow-control data: an EPICS event with
texts decodes them. -/
def persist (J : Job Val) (d : EpicsData Val) : SourceEvent → EpicsData Val
  | .epicsEvent tData (raw :: raws) => (d.update J.num_get J.m_deltaTime tData (raw :: raws)).1
  | _ => d

/-- The slow-control data before event `i`: the EPICS events that precede it,
in source order. -/
def persisted (J : Job Val) (i : Nat) : EpicsData Val :=
  (J.source.take i).foldl J.persist .zero

/-- Event `i` is flagged sequential. -/
def sequential (J : Job Val) (i : Nat) : Bool :=
  match J.source[i]? with
  | some e => e.sequential
  | none => false

/-- Behind an event of the source the data are what the event makes of those
before it. -/
theorem persisted_succ (J : Job Val) {i : Nat} {e : SourceEvent} (h : J.source[i]? = some e) :
    J.persisted (i + 1) = J.persist (J.persisted i) e := by
  unfold persisted
  rw [List.take_add_one, h]
  simp [List.foldl_append]

/-- An event that is not sequential has no text to decode, and leaves the data
as they are. -/
theorem persist_of_not_sequential (J : Job Val) (d : EpicsData Val) {e : SourceEvent}
    (h : e.sequential = false) : J.persist d e = d := by
  cases e with
  | daqEvent tData => rfl
  | epicsEvent tData raws => cases h

/-- Events that are not sequential leave the data of the source as they are, so
that events between two EPICS events get the same. -/
theorem persisted_succ_of_not_sequential (J : Job Val) {i : Nat} (h : J.sequential i = false) :
    J.persisted (i + 1) = J.persisted i := by
  unfold sequential at h
  cases he : J.source[i]? with
  | none =>
      unfold persisted
      rw [List.take_add_one, he]
      simp
  | some e =>
      rw [he] at h
      rw [J.persisted_succ he]
      exact J.persist_of_not_sequential _ h

/-- `evnt` of the factory on an event of the source. -/
def evnt (J : Job Val) (m_data : EpicsData Val) (e : SourceEvent) :
    EpicsData Val × Ending Val :=
  EPICS.evnt J.num_get J.m_deltaTime m_data e.m_rawdata e.tData

/-- `evnt` leaves in `m_data` what the event makes of it. -/
theorem evnt_m_data (J : Job Val) (d : EpicsData Val) (e : SourceEvent) :
    (J.evnt d e).1 = J.persist d e := by
  unfold evnt EPICS.evnt
  cases e with
  | daqEvent tData =>
      cases tData with
      | none => rfl
      | some tData => rfl
  | epicsEvent tData raws =>
      cases raws with
      | nil => rfl
      | cons raw raws =>
          simp only [SourceEvent.tData, SourceEvent.m_rawdata, List.length_cons,
            Nat.zero_lt_succ, gt_iff_lt, if_true, persist]
          split
          next h => rw [h]
          next h => rw [h]

end Job

/-! ## §2. The buffer and the threads. -/

/-- A processing thread: idle, with an event that it took, or with one that it has
processed and not given back. -/
inductive Worker where
  | idle
  | took (i : Nat)
  | processed (i : Nat)
  /-- In a `decode` that never ends. -/
  | hung (i : Nat)
  deriving DecidableEq, Repr

/-- The event a thread is busy with. -/
def Worker.event : Worker → Option Nat
  | idle => none
  | took i => some i
  | processed i => some i
  | hung i => some i

/-- The event a thread took and has not processed. -/
def Worker.unprocessed : Worker → Option Nat
  | took i => some i
  | _ => none

/-- The buffer, the reading thread with the event that it holds and what it waits
for, the processing threads `θ` and the global `m_data`.  Events are known by
their place in the source. -/
structure State (θ Val : Type) where
  /-- Read but not pushed. -/
  event : Option Nat
  NEvents_read : Nat
  /-- The front is the event pushed last. -/
  event_buffer : List Nat
  /-- The reading thread waits for a sequential event. -/
  waiting : Bool
  sequential_event_complete : Bool
  thread : θ → Worker
  m_data : EpicsData Val
  /-- The `epicsData` made so far, each with its event. -/
  published : List (Nat × EpicsData Val)

/-- The moves of the threads: the reading thread reads, pushes and resumes, and a
processing thread takes, processes and finishes. -/
inductive Move (θ : Type) where
  | read
  | push
  | resume
  | take (t : θ)
  | process (t : θ)
  | finish (t : θ)

namespace State

variable {θ : Type} [DecidableEq θ]

/-- Before the first event is read: an empty buffer, idle threads and no data. -/
def start : State θ Val where
  event := none
  NEvents_read := 0
  event_buffer := []
  waiting := false
  sequential_event_complete := false
  thread _ := .idle
  m_data := .zero
  published := []

/-- One thread goes on to another state; all else stays. -/
def goto (s : State θ Val) (t : θ) (w : Worker) : State θ Val :=
  { s with thread := Function.update s.thread t w }

/-- One step of one of the threads; `none` where the thread has to wait. -/
def exec (J : Job Val) (s : State θ Val) : Move θ → Option (State θ Val)
  | .read =>
      if s.event = none ∧ s.waiting = false ∧ s.event_buffer.length < J.MAX_EVENTS_IN_BUFFER
          ∧ s.NEvents_read < J.source.length then
        some { s with event := some s.NEvents_read, NEvents_read := s.NEvents_read + 1 }
      else none
  | .push =>
      match s.event with
      | none => none
      | some i =>
          if J.sequential i then
            -- wait for the buffer to drain, then for the event to be processed
            if s.event_buffer = [] then
              some { s with
                event := none
                event_buffer := [i]
                waiting := true
                sequential_event_complete := false }
            else none
          else some { s with event := none, event_buffer := i :: s.event_buffer }
  | .resume =>
      if s.waiting = true ∧ s.sequential_event_complete = true then
        some { s with waiting := false }
      else none
  | .take t =>
      if s.thread t = .idle then
        match s.event_buffer.getLast? with
        | none => none
        | some i => some { s.goto t (.took i) with event_buffer := s.event_buffer.dropLast }
      else none
  | .process t =>
      match s.thread t with
      | .took i =>
          match J.source[i]? with
          | none => none
          | some e =>
              match J.evnt s.m_data e with
              | (m_data, .returned _ data) =>
                  some { s.goto t (.processed i) with
                    m_data := m_data
                    published := s.published ++ data.map (i, ·) }
              | (m_data, .hung) => some { s.goto t (.hung i) with m_data := m_data }
      | _ => none
  | .finish t =>
      match s.thread t with
      | .processed i =>
          some { s.goto t .idle with
            sequential_event_complete := J.sequential i || s.sequential_event_complete }
      | _ => none

/-- Each DAQ event got the data of the EPICS events that precede it. -/
def Published (J : Job Val) (s : State θ Val) : Prop :=
  ∀ i d, (i, d) ∈ s.published → J.sequential i = false → d.SameData (J.persisted i)

/-- No other thread holds an event that it took and has not processed. -/
def OthersDone (s : State θ Val) (t : θ) : Prop :=
  ∀ u, u ≠ t → (s.thread u).unprocessed = none

/-- An EPICS event is processed while no other thread holds an event that it
took and has not processed, or it changes no value and no time. -/
def ProcessedAlone (J : Job Val) (s : State θ Val) : Move θ → Prop
  | .process t => ∀ i, (s.thread t).unprocessed = some i → J.sequential i = true →
      s.OthersDone t
        ∨ ∀ e, J.source[i]? = some e → s.m_data.SameData (J.persist s.m_data e)
  | _ => True

/-- The events pushed so far are those before this place. -/
def pushed (s : State θ Val) : Nat :=
  match s.event with
  | some i => i
  | none => s.NEvents_read

/-- The event has been pushed, and no thread is done with it: what a sequential
event is to be alone in. -/
def InFlight (s : State θ Val) (i : Nat) : Prop :=
  i ∈ s.event_buffer ∨ ∃ t, (s.thread t).event = some i

/-- The event has been pushed and not processed: it is in the buffer, or a
thread took it. -/
def Unprocessed (s : State θ Val) (i : Nat) : Prop :=
  i ∈ s.event_buffer ∨ ∃ t, s.thread t = .took i

omit [DecidableEq θ] in
/-- An event that is still to be processed is in flight. -/
theorem Unprocessed.inFlight {s : State θ Val} {i : Nat} (h : s.Unprocessed i) :
    s.InFlight i := by
  obtain hb | ⟨t, ht⟩ := h
  · exact .inl hb
  · exact .inr ⟨t, by rw [ht]; rfl⟩

/-! ## §3. Where the events are. -/

/-- Each event is in one place, and a sequential event in flight is the event
pushed last, which the reading thread waits for. -/
structure Places (J : Job Val) (s : State θ Val) : Prop where
  event : ∀ i, s.event = some i → s.waiting = false ∧ i + 1 = s.NEvents_read
  buffer_lt : ∀ i ∈ s.event_buffer, i < s.pushed
  thread_lt : ∀ t i, (s.thread t).event = some i → i < s.pushed
  nodup : s.event_buffer.Nodup
  apart : ∀ t i, (s.thread t).event = some i → i ∉ s.event_buffer
  single : ∀ t u i, (s.thread t).event = some i → (s.thread u).event = some i → t = u
  barrier : ∀ i, s.InFlight i → J.sequential i = true →
    s.waiting = true ∧ i + 1 = s.pushed ∧ s.sequential_event_complete = false
  alone : s.waiting = true → ∀ i ∈ s.event_buffer, i + 1 = s.pushed

omit [DecidableEq θ] in
/-- Before the first event no event is in any place. -/
theorem start_places (J : Job Val) : Places J (start : State θ Val) := by
  constructor
  case event =>
    intro i h
    cases h
  case buffer_lt =>
    intro i h
    cases h
  case thread_lt =>
    intro t i h
    cases h
  case nodup => exact List.nodup_nil
  case apart =>
    intro t i h
    cases h
  case single =>
    intro t u i h
    cases h
  case barrier =>
    intro i h
    obtain h | ⟨t, h⟩ := h
    · cases h
    · cases h
  case alone =>
    intro h
    cases h

omit [DecidableEq θ] in
/-- While the reading thread does not wait, nothing sequential is in flight. -/
theorem Places.quiet {J : Job Val} {s : State θ Val} (hp : Places J s) (hw : s.waiting = false)
    {i : Nat} (hi : s.InFlight i) : J.sequential i = false := by
  by_contra hseq
  have hwait := (hp.barrier i hi (by simpa using hseq)).1
  rw [hw] at hwait
  cases hwait

omit [DecidableEq θ] in
/-- A step that pushes and takes nothing keeps the events in their places, as they
only leave the threads. -/
theorem Places.leave {J : Job Val} {s s' : State θ Val} (hp : Places J s)
    (hevent : ∀ i, s'.event = some i → s'.waiting = false ∧ i + 1 = s'.NEvents_read)
    (hbuffer : s'.event_buffer = s.event_buffer) (hpushed : s'.pushed = s.pushed)
    (hthread : ∀ t i, (s'.thread t).event = some i → (s.thread t).event = some i)
    (hbarrier : ∀ i, s'.InFlight i → J.sequential i = true →
      s'.waiting = true ∧ i + 1 = s'.pushed ∧ s'.sequential_event_complete = false)
    (hwaiting : s'.waiting = true → s.waiting = true) : Places J s' where
  event := hevent
  buffer_lt := by
    rw [hbuffer, hpushed]
    exact hp.buffer_lt
  thread_lt := by
    intro t i h
    rw [hpushed]
    exact hp.thread_lt t i (hthread t i h)
  nodup := by
    rw [hbuffer]
    exact hp.nodup
  apart := by
    intro t i h
    rw [hbuffer]
    exact hp.apart t i (hthread t i h)
  single := by
    intro t u i ht hu
    exact hp.single t u i (hthread t i ht) (hthread u i hu)
  barrier := hbarrier
  alone := by
    intro h
    rw [hbuffer, hpushed]
    exact hp.alone (hwaiting h)

omit [DecidableEq θ] in
/-- What is in flight after such a step was in flight before. -/
theorem InFlight.before {s s' : State θ Val} {i : Nat} (h : s'.InFlight i)
    (hbuffer : s'.event_buffer = s.event_buffer)
    (hthread : ∀ t i, (s'.thread t).event = some i → (s.thread t).event = some i) :
    s.InFlight i := by
  obtain hb | ⟨t, ht⟩ := h
  · rw [hbuffer] at hb
    exact .inl hb
  · exact .inr ⟨t, hthread t i ht⟩

/-- A thread that is given another state is busy with the event of that
state. -/
theorem event_goto {s : State θ Val} {t u : θ} {w : Worker} {i : Nat}
    (h : ((s.goto t w).thread u).event = some i) :
    (u = t ∧ w.event = some i) ∨ (u ≠ t ∧ (s.thread u).event = some i) := by
  by_cases hu : u = t
  · subst hu
    simp only [goto, Function.update_self] at h
    exact .inl ⟨rfl, h⟩
  · simp only [goto, Function.update_of_ne hu] at h
    exact .inr ⟨hu, h⟩

/-- The reading thread reads an event when it has none and does not wait. -/
theorem read_cases {J : Job Val} {s s' : State θ Val} (h : s.exec J .read = some s') :
    s.event = none ∧ s.waiting = false
      ∧ s' = { s with event := some s.NEvents_read, NEvents_read := s.NEvents_read + 1 } := by
  simp only [exec] at h
  split at h
  next hg => exact ⟨hg.1, hg.2.1, (Option.some.inj h).symm⟩
  next => cases h

/-- It pushes the event that it has: a sequential one into an empty buffer, and
then waits for it to be completed. -/
theorem push_cases {J : Job Val} {s s' : State θ Val} (h : s.exec J .push = some s') :
    ∃ i, s.event = some i
      ∧ (J.sequential i = true ∧ s.event_buffer = [] ∧ s' = { s with
            event := none
            event_buffer := [i]
            waiting := true
            sequential_event_complete := false }
          ∨ ¬ J.sequential i = true
            ∧ s' = { s with event := none, event_buffer := i :: s.event_buffer }) := by
  simp only [exec] at h
  split at h
  next => cases h
  next i hev =>
    refine ⟨i, hev, ?_⟩
    split at h
    next hseq =>
      split at h
      next hempty => exact .inl ⟨hseq, hempty, (Option.some.inj h).symm⟩
      next => cases h
    next hseq => exact .inr ⟨hseq, (Option.some.inj h).symm⟩

/-- It goes on when the sequential event is complete. -/
theorem resume_cases {J : Job Val} {s s' : State θ Val} (h : s.exec J .resume = some s') :
    s.sequential_event_complete = true ∧ s' = { s with waiting := false } := by
  simp only [exec] at h
  split at h
  next hg => exact ⟨hg.2, (Option.some.inj h).symm⟩
  next => cases h

/-- A thread takes the event at the end of the buffer when it is idle. -/
theorem take_cases {J : Job Val} {s s' : State θ Val} {t : θ}
    (h : s.exec J (.take t) = some s') :
    ∃ i, s.thread t = .idle ∧ s.event_buffer.dropLast ++ [i] = s.event_buffer
      ∧ s' = { s.goto t (.took i) with event_buffer := s.event_buffer.dropLast } := by
  simp only [exec] at h
  split at h
  next hidle =>
    split at h
    next => cases h
    next i hlast =>
      exact ⟨i, hidle, List.dropLast_append_getLast? i hlast, (Option.some.inj h).symm⟩
  next => cases h

/-- A thread gives back the event that it has processed, and says so when it is
sequential. -/
theorem finish_cases {J : Job Val} {s s' : State θ Val} {t : θ}
    (h : s.exec J (.finish t) = some s') :
    ∃ i, s.thread t = .processed i ∧ s' = { s.goto t .idle with
      sequential_event_complete := J.sequential i || s.sequential_event_complete } := by
  simp only [exec] at h
  split at h
  next i hproc => exact ⟨i, hproc, (Option.some.inj h).symm⟩
  next => cases h

/-- An event that is read is with the reading thread, and not in flight yet. -/
theorem Places.read {J : Job Val} {s s' : State θ Val} (hp : Places J s)
    (h : s.exec J .read = some s') : Places J s' := by
  obtain ⟨hev, hw, rfl⟩ := read_cases h
  have hpushed : s.pushed = s.NEvents_read := by simp [pushed, hev]
  refine hp.leave ?_ rfl ?_ (fun t i h => h) ?_ (fun h => h)
  · intro i hi
    obtain rfl := Option.some.inj hi
    exact ⟨hw, rfl⟩
  · show s.NEvents_read = s.pushed
    exact hpushed.symm
  · intro i hi hseq
    have hquiet := hp.quiet hw (hi.before rfl (fun t i h => h))
    rw [hseq] at hquiet
    cases hquiet

/-- An event that is pushed is in flight, and if it is sequential the reading
thread waits for it. -/
theorem Places.push {J : Job Val} {s s' : State θ Val} (hp : Places J s)
    (h : s.exec J .push = some s') : Places J s' := by
  obtain ⟨i, hev, hcases⟩ := push_cases h
  obtain ⟨hw, hi⟩ := hp.event i hev
  have hpushed : s.pushed = i := by simp [pushed, hev]
  have hnone : ∀ j, s.InFlight j → J.sequential j = false := fun j hj => hp.quiet hw hj
  obtain ⟨hseq, hempty, rfl⟩ | ⟨hseq, rfl⟩ := hcases
  · -- a sequential event: it is alone in the buffer, and the thread waits
    constructor
    case event =>
      intro j hj
      cases hj
    case buffer_lt =>
      intro j hj
      obtain rfl := List.mem_singleton.mp hj
      show j < s.NEvents_read
      omega
    case thread_lt =>
      intro t j hj
      have := hp.thread_lt t j hj
      show j < s.NEvents_read
      omega
    case nodup => exact List.nodup_singleton i
    case apart =>
      intro t j hj hmem
      obtain rfl := List.mem_singleton.mp hmem
      have := hp.thread_lt t j hj
      omega
    case single => exact hp.single
    case barrier =>
      intro j hj hjseq
      obtain hb | ht := hj
      · obtain rfl := List.mem_singleton.mp hb
        exact ⟨rfl, hi, rfl⟩
      · have := hnone j (.inr ht)
        rw [hjseq] at this
        cases this
    case alone =>
      intro _ j hj
      obtain rfl := List.mem_singleton.mp hj
      exact hi
  · -- any other event joins those in the buffer
    constructor
    case event =>
      intro j hj
      cases hj
    case buffer_lt =>
      intro j hj
      show j < s.NEvents_read
      obtain rfl | hj := List.mem_cons.mp hj
      · omega
      · have := hp.buffer_lt j hj
        omega
    case thread_lt =>
      intro t j hj
      have := hp.thread_lt t j hj
      show j < s.NEvents_read
      omega
    case nodup =>
      refine List.nodup_cons.mpr ⟨fun hmem => ?_, hp.nodup⟩
      have := hp.buffer_lt i hmem
      omega
    case apart =>
      intro t j hj hmem
      obtain rfl | hmem := List.mem_cons.mp hmem
      · have := hp.thread_lt t j hj
        omega
      · exact hp.apart t j hj hmem
    case single => exact hp.single
    case barrier =>
      intro j hj hjseq
      have hfalse : J.sequential j = false := by
        obtain hb | ht := hj
        · obtain rfl | hb := List.mem_cons.mp hb
          · simpa using hseq
          · exact hnone j (.inl hb)
        · exact hnone j (.inr ht)
      rw [hjseq] at hfalse
      cases hfalse
    case alone =>
      intro hwait
      rw [show s.waiting = true from hwait] at hw
      cases hw

/-- When the reading thread goes on the sequential event is not in flight
any more. -/
theorem Places.resume {J : Job Val} {s s' : State θ Val} (hp : Places J s)
    (h : s.exec J .resume = some s') : Places J s' := by
  obtain ⟨hcomplete, rfl⟩ := resume_cases h
  refine hp.leave ?_ rfl rfl (fun t i h => h) ?_ (fun h => nomatch h)
  · intro i hi
    exact ⟨rfl, (hp.event i hi).2⟩
  · intro i hi hseq
    have hdone := (hp.barrier i (hi.before rfl (fun t i h => h)) hseq).2.2
    rw [hcomplete] at hdone
    cases hdone

/-- An event that is taken goes from the buffer to a thread. -/
theorem Places.take {J : Job Val} {s s' : State θ Val} {t : θ} (hp : Places J s)
    (h : s.exec J (.take t) = some s') : Places J s' := by
  obtain ⟨i, -, hsplit, rfl⟩ := take_cases h
  -- the event taken is the last one of the buffer, and in no other place
  have hmem : i ∈ s.event_buffer := by
    rw [← hsplit]
    simp
  have hsub : ∀ j ∈ s.event_buffer.dropLast, j ∈ s.event_buffer :=
    fun j => (List.dropLast_subset _ ·)
  have hnodup : (s.event_buffer.dropLast ++ [i]).Nodup := by
    rw [hsplit]
    exact hp.nodup
  have hout : i ∉ s.event_buffer.dropLast := by
    intro hi
    exact List.disjoint_of_nodup_append hnodup hi (List.mem_singleton_self i)
  constructor
  case event => exact hp.event
  case buffer_lt =>
    intro j hj
    exact hp.buffer_lt j (hsub j hj)
  case thread_lt =>
    intro u j hj
    obtain ⟨-, hw⟩ | ⟨-, hj⟩ := event_goto hj
    · obtain rfl := Option.some.inj hw
      exact hp.buffer_lt i hmem
    · exact hp.thread_lt u j hj
  case nodup => exact hnodup.of_append_left
  case apart =>
    intro u j hj
    obtain ⟨-, hw⟩ | ⟨-, hj⟩ := event_goto hj
    · obtain rfl := Option.some.inj hw
      exact hout
    · exact fun hjb => hp.apart u j hj (hsub j hjb)
  -- the event taken was in the buffer, and so no other thread has it
  case single =>
    intro u v j hu hv
    obtain ⟨hut, hw⟩ | ⟨-, hu⟩ := event_goto hu
    · obtain rfl := Option.some.inj hw
      obtain ⟨hvt, -⟩ | ⟨-, hv⟩ := event_goto hv
      · rw [hut, hvt]
      · exact absurd hmem (hp.apart v i hv)
    · obtain ⟨-, hw⟩ | ⟨-, hv⟩ := event_goto hv
      · obtain rfl := Option.some.inj hw
        exact absurd hmem (hp.apart u i hu)
      · exact hp.single u v j hu hv
  case barrier =>
    intro j hj
    refine hp.barrier j ?_
    obtain hb | ⟨u, hu⟩ := hj
    · exact .inl (hsub j hb)
    · obtain ⟨-, hw⟩ | ⟨-, hu⟩ := event_goto hu
      · obtain rfl := Option.some.inj hw
        exact .inl hmem
      · exact .inr ⟨u, hu⟩
  case alone =>
    intro hw j hj
    exact hp.alone hw j (hsub j hj)

/-- What a thread that processes an event changes: its own state, `m_data`, and
what has been published. -/
structure Processes (J : Job Val) (s s' : State θ Val) (t : θ) (i : Nat) (e : SourceEvent)
    (w : Worker) : Prop where
  took : s.thread t = .took i
  source : J.source[i]? = some e
  worker : w.event = some i ∧ ∀ j, w ≠ .took j
  thread : s'.thread = (s.goto t w).thread
  m_data : s'.m_data = J.persist s.m_data e
  event : s'.event = s.event
  NEvents_read : s'.NEvents_read = s.NEvents_read
  event_buffer : s'.event_buffer = s.event_buffer
  waiting : s'.waiting = s.waiting
  complete : s'.sequential_event_complete = s.sequential_event_complete
  published : ∀ p ∈ s'.published, p ∈ s.published ∨ p = (i, s'.m_data)

/-- A thread processes the event that it took, and no other. -/
theorem process_cases {J : Job Val} {s s' : State θ Val} {t : θ}
    (h : s.exec J (.process t) = some s') : ∃ i e w, Processes J s s' t i e w := by
  simp only [exec] at h
  split at h
  next i htook =>
    split at h
    next => cases h
    next e he =>
      have hdata : (J.evnt s.m_data e).1 = J.persist s.m_data e := J.evnt_m_data s.m_data e
      split at h
      next m_data err data hev =>
        obtain rfl := Option.some.inj h
        rw [hev] at hdata
        refine ⟨i, e, .processed i, htook, he, ⟨rfl, fun j hj => nomatch hj⟩, rfl, hdata, rfl,
          rfl, rfl, rfl, rfl, ?_⟩
        intro p hp
        obtain hp | hp := List.mem_append.mp hp
        · exact .inl hp
        · obtain ⟨d, hd, rfl⟩ := List.mem_map.mp hp
          have hcopy : d = m_data := evnt_data hev d hd
          rw [hcopy]
          exact .inr rfl
      next m_data hev =>
        obtain rfl := Option.some.inj h
        rw [hev] at hdata
        exact ⟨i, e, .hung i, htook, he, ⟨rfl, fun j hj => nomatch hj⟩, rfl, hdata, rfl,
          rfl, rfl, rfl, rfl, fun p hp => .inl hp⟩
  next => cases h

omit [DecidableEq θ] in
/-- How many events were pushed is known from the reading thread. -/
theorem pushed_congr {s s' : State θ Val} (hevent : s'.event = s.event)
    (hread : s'.NEvents_read = s.NEvents_read) : s'.pushed = s.pushed := by
  unfold pushed
  rw [hevent, hread]

/-- An event that is processed stays with its thread. -/
theorem Places.process {J : Job Val} {s s' : State θ Val} {t : θ} (hp : Places J s)
    (h : s.exec J (.process t) = some s') : Places J s' := by
  obtain ⟨i, e, w, hproc⟩ := process_cases h
  have hthread : ∀ u j, (s'.thread u).event = some j → (s.thread u).event = some j := by
    intro u j hj
    rw [hproc.thread] at hj
    obtain ⟨hut, hw⟩ | ⟨-, hj⟩ := event_goto hj
    · rw [hproc.worker.1] at hw
      rw [hut, hproc.took]
      exact hw
    · exact hj
  have hpushed := pushed_congr hproc.event hproc.NEvents_read
  refine hp.leave ?_ hproc.event_buffer hpushed hthread ?_ ?_
  · rw [hproc.event, hproc.waiting, hproc.NEvents_read]
    exact hp.event
  · intro j hj
    rw [hproc.waiting, hpushed, hproc.complete]
    exact hp.barrier j (hj.before hproc.event_buffer hthread)
  · rw [hproc.waiting]
    exact fun hw => hw

/-- An event that is given back is in no place any more. -/
theorem Places.finish {J : Job Val} {s s' : State θ Val} {t : θ} (hp : Places J s)
    (h : s.exec J (.finish t) = some s') : Places J s' := by
  obtain ⟨i, hproc, rfl⟩ := finish_cases h
  have hbusy : (s.thread t).event = some i := by
    rw [hproc]
    rfl
  have hthread : ∀ u j, ((s.goto t .idle).thread u).event = some j →
      u ≠ t ∧ (s.thread u).event = some j := by
    intro u j hj
    obtain ⟨-, hw⟩ | hj := event_goto hj
    · cases hw
    · exact hj
  refine hp.leave hp.event rfl rfl (fun u j hj => (hthread u j hj).2) ?_ (fun hw => hw)
  intro j hj hseq
  obtain ⟨hw, hj1, hfalse⟩ :=
    hp.barrier j (hj.before rfl fun u j hj => (hthread u j hj).2) hseq
  refine ⟨hw, hj1, ?_⟩
  show (J.sequential i || s.sequential_event_complete) = false
  rw [hfalse, Bool.or_false]
  -- a second sequential event in flight would be the same one
  by_contra hi
  have hi1 := (hp.barrier i (.inr ⟨t, hbusy⟩) (by simpa using hi)).2.1
  obtain rfl : j = i := by
    change j + 1 = s.pushed at hj1
    omega
  obtain hb | ⟨u, hu⟩ := hj
  · exact hp.apart t j hbusy hb
  · obtain ⟨hut, hu⟩ := hthread u j hu
    exact hut (hp.single u t j hu hbusy)

/-- **One step** keeps each event in one place, and a sequential event in flight
the last one pushed. -/
theorem exec_places {J : Job Val} {s s' : State θ Val} {a : Move θ} (hp : Places J s)
    (h : s.exec J a = some s') : Places J s' := by
  cases a with
  | read => exact hp.read h
  | push => exact hp.push h
  | resume => exact hp.resume h
  | take t => exact hp.take h
  | process t => exact hp.process h
  | finish t => exact hp.finish h

/-! ## §4. What `m_data` holds. -/

/-- `m_data` is right for every event that is still to be processed, and,
once no sequential event is, for the event that is pushed next. -/
structure Data (J : Job Val) (s : State θ Val) : Prop where
  unprocessed : ∀ i, s.Unprocessed i → s.m_data.SameData (J.persisted i)
  barrier : ∀ i, s.Unprocessed i → J.sequential i = true → s.m_data = J.persisted i
  current : (∀ i, s.Unprocessed i → J.sequential i = false) → s.m_data = J.persisted s.pushed
  published : s.Published J

omit [DecidableEq θ] in
/-- Before the first event the data are those of no EPICS event. -/
theorem start_data (J : Job Val) : Data J (start : State θ Val) where
  unprocessed := by
    intro i h
    obtain h | ⟨t, h⟩ := h
    · cases h
    · cases h
  barrier := by
    intro i h
    obtain h | ⟨t, h⟩ := h
    · cases h
    · cases h
  current := fun _ => rfl
  published := by
    intro i d h
    cases h

omit [DecidableEq θ] in
/-- A step that neither pushes nor processes leaves the data right for all
events. -/
theorem Data.same {J : Job Val} {s s' : State θ Val} (hd : Data J s)
    (hm : s'.m_data = s.m_data) (hpushed : s'.pushed = s.pushed)
    (hpub : s'.published = s.published) (hun : ∀ i, s'.Unprocessed i ↔ s.Unprocessed i) :
    Data J s' where
  unprocessed := by
    intro i h
    rw [hm]
    exact hd.unprocessed i ((hun i).mp h)
  barrier := by
    intro i h
    rw [hm]
    exact hd.barrier i ((hun i).mp h)
  current := by
    intro h
    rw [hm, hpushed]
    exact hd.current (fun i hi => h i ((hun i).mpr hi))
  published := by
    intro i d h
    rw [hpub] at h
    exact hd.published i d h

/-- The thread that goes on is in its new state. -/
theorem thread_goto_self (s : State θ Val) (t : θ) (w : Worker) :
    (s.goto t w).thread t = w := by
  simp [goto]

/-- Another thread is where it was. -/
theorem thread_goto_of_ne (s : State θ Val) {t u : θ} (w : Worker) (h : u ≠ t) :
    (s.goto t w).thread u = s.thread u := by
  simp [goto, h]

/-- When a thread moves between states in which it holds nothing to process, what
is still to be processed is the same. -/
theorem unprocessed_goto {s : State θ Val} {t : θ} {w : Worker}
    (hbefore : ∀ j, s.thread t ≠ .took j) (hafter : ∀ j, w ≠ .took j) (i : Nat) :
    (s.goto t w).Unprocessed i ↔ s.Unprocessed i := by
  refine or_congr_right ⟨?_, ?_⟩
  · rintro ⟨u, hu⟩
    by_cases hut : u = t
    · subst hut
      rw [thread_goto_self] at hu
      exact absurd hu (hafter i)
    · rw [thread_goto_of_ne s w hut] at hu
      exact ⟨u, hu⟩
  · rintro ⟨u, hu⟩
    refine ⟨u, ?_⟩
    by_cases hut : u = t
    · subst hut
      exact absurd hu (hbefore i)
    · rw [thread_goto_of_ne s w hut]
      exact hu

/-- A pushed event sees the data that are right for the event pushed next, as
nothing sequential is to be processed. -/
theorem Data.push {J : Job Val} {s s' : State θ Val} (hp : Places J s) (hd : Data J s)
    (h : s.exec J .push = some s') : Data J s' := by
  obtain ⟨i, hev, hpush⟩ := push_cases h
  obtain ⟨hw, hi⟩ := hp.event i hev
  have hpushed : s.pushed = i := by simp [pushed, hev]
  have hnone : ∀ j, s.Unprocessed j → J.sequential j = false := by
    intro j hj
    exact hp.quiet hw hj.inFlight
  -- so the data are those of the event that is pushed now
  have hm : s.m_data = J.persisted i := by
    rw [← hpushed]
    exact hd.current hnone
  obtain ⟨hseq, -, rfl⟩ | ⟨hseq, rfl⟩ := hpush
  · have hcases : ∀ j, State.Unprocessed { s with
        event := none
        event_buffer := [i]
        waiting := true
        sequential_event_complete := false } j → j = i ∨ s.Unprocessed j := by
      rintro j (hb | ht)
      · exact .inl (List.mem_singleton.mp hb)
      · exact .inr (.inr ht)
    constructor
    case unprocessed =>
      intro j hj
      obtain rfl | hj := hcases j hj
      · exact ⟨congrArg _ hm, congrArg _ hm⟩
      · exact hd.unprocessed j hj
    case barrier =>
      intro j hj hjseq
      obtain rfl | hj := hcases j hj
      · exact hm
      · exact hd.barrier j hj hjseq
    case current =>
      intro hall
      have := hall i (.inl (List.mem_singleton_self i))
      rw [hseq] at this
      cases this
    case published => exact hd.published
  · have hcases : ∀ j, State.Unprocessed { s with
        event := none, event_buffer := i :: s.event_buffer } j → j = i ∨ s.Unprocessed j := by
      rintro j (hb | ht)
      · obtain hb | hb := List.mem_cons.mp hb
        · exact .inl hb
        · exact .inr (.inl hb)
      · exact .inr (.inr ht)
    constructor
    case unprocessed =>
      intro j hj
      obtain rfl | hj := hcases j hj
      · exact ⟨congrArg _ hm, congrArg _ hm⟩
      · exact hd.unprocessed j hj
    case barrier =>
      intro j hj hjseq
      obtain rfl | hj := hcases j hj
      · exact absurd hjseq hseq
      · exact hd.barrier j hj hjseq
    case current =>
      intro _
      show s.m_data = J.persisted s.NEvents_read
      rw [hm, ← hi, J.persisted_succ_of_not_sequential (by simpa using hseq)]
    case published => exact hd.published

/-- To take an event changes neither the data nor what is to be processed. -/
theorem Data.take {J : Job Val} {s s' : State θ Val} {t : θ} (hd : Data J s)
    (h : s.exec J (.take t) = some s') : Data J s' := by
  obtain ⟨i, hidle, hsplit, rfl⟩ := take_cases h
  -- the event goes from the end of the buffer to the thread
  refine hd.same rfl rfl rfl (fun j => ⟨?_, ?_⟩)
  · rintro (hb | ⟨u, hu⟩)
    · exact .inl (List.dropLast_subset _ hb)
    · by_cases hut : u = t
      · subst hut
        rw [show ((s.goto u (.took i)).thread u) = .took i from thread_goto_self s u _] at hu
        injection hu with hij
        subst hij
        refine .inl ?_
        rw [← hsplit]
        simp
      · exact .inr ⟨u, (thread_goto_of_ne s _ hut).symm.trans hu⟩
  · rintro (hb | ⟨u, hu⟩)
    · rw [← hsplit] at hb
      obtain hb | hb := List.mem_append.mp hb
      · exact .inl hb
      · obtain rfl := List.mem_singleton.mp hb
        exact .inr ⟨t, thread_goto_self s t _⟩
    · refine .inr ⟨u, (thread_goto_of_ne s _ ?_).trans hu⟩
      rintro rfl
      rw [hidle] at hu
      cases hu

/-- What is still to be processed is in the buffer or with another thread. -/
theorem Processes.unprocessed {J : Job Val} {s s' : State θ Val} {t : θ} {i j : Nat}
    {e : SourceEvent} {w : Worker} (hproc : Processes J s s' t i e w) (hj : s'.Unprocessed j) :
    j ∈ s.event_buffer ∨ ∃ u, u ≠ t ∧ s.thread u = .took j := by
  obtain hb | ⟨u, hu⟩ := hj
  · rw [hproc.event_buffer] at hb
    exact .inl hb
  · rw [hproc.thread] at hu
    by_cases hut : u = t
    · subst hut
      rw [thread_goto_self] at hu
      exact absurd hu (hproc.worker.2 j)
    · rw [thread_goto_of_ne s w hut] at hu
      exact .inr ⟨u, hut, hu⟩

/-- What is still to be processed after a thread has processed an event was
so before. -/
theorem Processes.unprocessed_before {J : Job Val} {s s' : State θ Val} {t : θ} {i j : Nat}
    {e : SourceEvent} {w : Worker} (hproc : Processes J s s' t i e w) (hj : s'.Unprocessed j) :
    s.Unprocessed j := by
  obtain hb | ⟨u, -, hu⟩ := hproc.unprocessed hj
  · exact .inl hb
  · exact .inr ⟨u, hu⟩

/-- The events other than the one that was processed are still to be processed. -/
theorem Processes.unprocessed_after {J : Job Val} {s s' : State θ Val} {t : θ} {i j : Nat}
    {e : SourceEvent} {w : Worker} (hproc : Processes J s s' t i e w) (hj : s.Unprocessed j)
    (hji : j ≠ i) : s'.Unprocessed j := by
  obtain hb | ⟨u, hu⟩ := hj
  · refine .inl ?_
    rw [hproc.event_buffer]
    exact hb
  · refine .inr ⟨u, ?_⟩
    rw [hproc.thread, thread_goto_of_ne s w]
    · exact hu
    · rintro rfl
      rw [hproc.took] at hu
      injection hu with hij
      exact hji hij.symm

/-- An event that is no barrier leaves the data as they are. -/
theorem Data.process_of_not_sequential {J : Job Val} {s s' : State θ Val} {t : θ} {i : Nat}
    {e : SourceEvent} {w : Worker} (hd : Data J s) (hproc : Processes J s s' t i e w)
    (hseq : J.sequential i = false) : Data J s' := by
  have hnot : e.sequential = false := by
    unfold Job.sequential at hseq
    rw [hproc.source] at hseq
    exact hseq
  -- such an event leaves the persistent data as they are
  have hm : s'.m_data = s.m_data := by
    rw [hproc.m_data]
    exact J.persist_of_not_sequential _ hnot
  constructor
  case unprocessed =>
    intro j hj
    rw [hm]
    exact hd.unprocessed j (hproc.unprocessed_before hj)
  case barrier =>
    intro j hj
    rw [hm]
    exact hd.barrier j (hproc.unprocessed_before hj)
  case current =>
    intro hall
    rw [hm, pushed_congr hproc.event hproc.NEvents_read]
    refine hd.current (fun j hj => ?_)
    by_cases hji : j = i
    · rw [hji]
      exact hseq
    · exact hall j (hproc.unprocessed_after hj hji)
  case published =>
    intro j d hmem
    obtain hold | hnew := hproc.published _ hmem
    · exact hd.published j d hold
    · injection hnew with hji hdm
      intro _
      rw [hji, hdm, hm]
      exact hd.unprocessed i (.inr ⟨t, hproc.took⟩)

/-- A barrier event writes what the next events are to see. -/
theorem Data.process_of_sequential {J : Job Val} {s s' : State θ Val} {t : θ} {i : Nat}
    {e : SourceEvent} {w : Worker} (hp : Places J s) (hd : Data J s)
    (halone : s.ProcessedAlone J (.process t)) (hproc : Processes J s s' t i e w)
    (hseq : J.sequential i = true) : Data J s' := by
  have hmine : s.Unprocessed i := .inr ⟨t, hproc.took⟩
  have hbusy : (s.thread t).event = some i := by
    rw [hproc.took]
    rfl
  obtain ⟨hwait, hi1, -⟩ := hp.barrier i hmine.inFlight hseq
  -- the barrier keeps the buffer empty
  have hthreads : ∀ j, s'.Unprocessed j → ∃ u, u ≠ t ∧ s.thread u = .took j := by
    intro j hj
    obtain hb | hu := hproc.unprocessed hj
    · have hj1 := hp.alone hwait j hb
      obtain rfl : j = i := by omega
      exact absurd hb (hp.apart t j hbusy)
    · exact hu
  constructor
  case unprocessed =>
    intro j hj
    -- here alone the condition is used: for an event another thread holds
    obtain ⟨u, hut, hu⟩ := hthreads j hj
    obtain hdone | hsame := halone i (by rw [hproc.took]; rfl) hseq
    · have hnone := hdone u hut
      rw [hu] at hnone
      cases hnone
    · obtain ⟨hv, ht⟩ := hsame e hproc.source
      obtain ⟨hv', ht'⟩ := hd.unprocessed j (hproc.unprocessed_before hj)
      rw [hproc.m_data]
      exact ⟨hv.symm.trans hv', ht.symm.trans ht'⟩
  case barrier =>
    intro j hj hjseq
    have hj1 := (hp.barrier j (hproc.unprocessed_before hj).inFlight hjseq).2.1
    obtain rfl : j = i := by omega
    obtain ⟨u, hut, hu⟩ := hthreads j hj
    refine absurd (hp.single u t j ?_ hbusy) hut
    rw [hu]
    rfl
  case current =>
    intro _
    -- the next event pushed is the one after this one
    rw [pushed_congr hproc.event hproc.NEvents_read, ← hi1, J.persisted_succ hproc.source,
      hproc.m_data, hd.barrier i hmine hseq]
  case published =>
    intro j d hmem hjseq
    obtain hold | hnew := hproc.published _ hmem
    · exact hd.published j d hold hjseq
    · injection hnew with hji _
      rw [hji, hseq] at hjseq
      cases hjseq

/-- **To process an event** keeps the data right, if an EPICS event is
processed alone. -/
theorem Data.process {J : Job Val} {s s' : State θ Val} {t : θ} (hp : Places J s)
    (hd : Data J s) (halone : s.ProcessedAlone J (.process t))
    (h : s.exec J (.process t) = some s') : Data J s' := by
  obtain ⟨i, e, w, hproc⟩ := process_cases h
  cases hseq : J.sequential i with
  | false => exact hd.process_of_not_sequential hproc hseq
  | true => exact Data.process_of_sequential hp hd halone hproc hseq

/-- **One step** keeps the data right for the events that are still to be
processed, if an EPICS event is processed alone. -/
theorem exec_data {J : Job Val} {s s' : State θ Val} {a : Move θ} (hp : Places J s)
    (hd : Data J s) (halone : s.ProcessedAlone J a) (h : s.exec J a = some s') : Data J s' := by
  cases a with
  | read =>
      obtain ⟨hev, -, rfl⟩ := read_cases h
      refine hd.same rfl ?_ rfl (fun i => Iff.rfl)
      show s.NEvents_read = s.pushed
      simp [pushed, hev]
  | push => exact hd.push hp h
  | resume =>
      obtain ⟨-, rfl⟩ := resume_cases h
      exact hd.same rfl rfl rfl (fun i => Iff.rfl)
  | take t => exact hd.take h
  | process t => exact hd.process hp halone h
  | finish t =>
      obtain ⟨i, hproc, rfl⟩ := finish_cases h
      refine hd.same rfl rfl rfl (fun j => ?_)
      exact unprocessed_goto (w := .idle) (fun k hk => by rw [hproc] at hk; cases hk)
        (fun k hk => by cases hk) j

/-! ## §5. Every schedule. -/

/-- **Each DAQ event gets the values and times of exactly the EPICS events
before it**, in every state of every schedule in which each EPICS event that
changes the data is processed while no other thread holds an event it took
and has not processed. -/
theorem published_data (J : Job Val) (schedule : List (Move θ))
    (halone : StepsMeet (exec J) (ProcessedAlone J) start schedule) :
    StatesMeet (exec J) (Published J) start schedule := by
  have hinv : StatesMeet (exec J) (fun s => Places J s ∧ Data J s) start schedule :=
    statesMeet_of_stepsMeet
      (fun _ _ _ hs hG h => ⟨exec_places hs.1 h, exec_data hs.1 hs.2 hG h⟩)
      ⟨start_places J, start_data J⟩ halone
  exact hinv.imp (fun _ hs => hs.2.published)

/-- Numbers of digits only, for the examples below. -/
def digits (text : List Char) : NumGet Nat :=
  let ds := text.takeWhile Char.isDigit
  ⟨ds.length, ds.foldl (fun n c => 10 * n + (c.toNat - '0'.toNat)) 0, ds ≠ []⟩

/-- A DAQ event, an EPICS event with one line, a DAQ event. -/
def daqEpicsDaq : Job Nat where
  num_get := digits
  m_deltaTime := 0
  MAX_EVENTS_IN_BUFFER := 10
  source :=
    let tData (type : EventSource) : EventData := ⟨0, 0, 0, 1, 100, [], type⟩
    [.daqEvent (some (tData .DAQ)), .epicsEvent (tData .EPICS) ["5 HALLA:current\n"],
      .daqEvent (some (tData .DAQ))]

/-- Every event is processed while no other thread holds one. -/
def OneAtATime (s : State θ Val) : Move θ → Prop
  | .process t => s.OthersDone t
  | _ => True

instance [Fintype θ] (s : State θ Val) (a : Move θ) : Decidable (s.OneAtATime a) :=
  match a with
  | .process t => inferInstanceAs (Decidable (∀ u, u ≠ t → (s.thread u).unprocessed = none))
  | .read | .push | .resume | .take _ | .finish _ => .isTrue trivial

omit [DecidableEq θ] in
/-- A schedule that processes one event at a time processes EPICS events alone. -/
theorem OneAtATime.processedAlone {J : Job Val} {s : State θ Val} {a : Move θ}
    (h : s.OneAtATime a) : s.ProcessedAlone J a := by
  cases a with
  | process t => exact fun i _ _ => .inl h
  | read | push | resume | take t | finish t => trivial

/-- The first DAQ event is processed before the EPICS event is taken. -/
theorem processed_in_time_published :
    StatesMeet (exec daqEpicsDaq) (Published daqEpicsDaq) (start : State Bool Nat)
      [.read, .push, .take false, .read, .push, .process false, .take true, .process true,
        .finish true, .resume, .read, .push, .take true, .process true] := by
  have hone : StepsMeet (exec daqEpicsDaq) OneAtATime (start : State Bool Nat)
      [.read, .push, .take false, .read, .push, .process false, .take true, .process true,
        .finish true, .resume, .read, .push, .take true, .process true] := by
    decide +kernel
  exact published_data daqEpicsDaq _ (hone.imp fun _ _ h => h.processedAlone)

/-- **The buffer is empty, the thread is not idle**: the first DAQ event is
taken, then the EPICS event is pushed, taken and processed, and only then is
the first event processed: it gets the data of the EPICS event after it. -/
theorem taken_event_gets_later_data :
    ¬ StatesMeet (exec daqEpicsDaq) (Published daqEpicsDaq) (start : State Bool Nat)
      [.read, .push, .take false, .read, .push, .take true, .process true, .process false] := by
  intro h
  have hrun : (execAll (exec daqEpicsDaq) (start : State Bool Nat)
      [.read, .push, .take false, .read, .push, .take true, .process true,
        .process false]).map (fun s => s.published.map fun p => (p.1, p.2.values.toList))
      = some [(1, [("HALLA:current", 5)]), (0, [("HALLA:current", 5)])] := by
    decide +kernel
  obtain ⟨s, hs, hpub⟩ := Option.map_eq_some_iff.mp hrun
  have hmem : (0, [("HALLA:current", 5)]) ∈ s.published.map fun p => (p.1, p.2.values.toList) := by
    rw [hpub]
    decide
  obtain ⟨⟨i, d⟩, hd, heq⟩ := List.mem_map.mp hmem
  obtain ⟨hi, hvalues⟩ := Prod.mk.inj heq
  obtain rfl : i = 0 := hi
  -- no EPICS event precedes the first event
  have hempty : d.values = ∅ := ((h.last hs) 0 d hd rfl).1
  replace hvalues : d.values.toList = [("HALLA:current", 5)] := hvalues
  rw [hempty] at hvalues
  revert hvalues
  decide

end State

end PokerReco.EPICS
