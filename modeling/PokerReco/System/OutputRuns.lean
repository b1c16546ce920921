/-
  PokerReco.System.OutputRuns
  ───────────────────────────
  **ONE JOB OVER MANY RUNS** (`BDXEventProcessor`).

  A job is one `init`, then for each run `brun`, `evnt` for each event and
  `erun`, then `fini`.  The flag `isFirstCallToBrun` is set by the constructor
  and read by `brun`, and nothing clears it; the time range that `erun` writes
  to `RunInfo` is set by the constructor and extended by `evnt`, and nothing
  resets it.

      one_output_iff         the output is one tree of each name, with aligned
                             rows, exactly for a job of a single run whose DAQ
                             events are all complete
      runInfo_rows_of_nested the rows of `RunInfo` are per run when each run's
                             times enclose those of the runs before it
-/
import Mathlib.Algebra.Group.Int.Defs
import Mathlib.Algebra.Group.Nat.Defs
import Mathlib.Data.List.Forall2
import PokerReco.System.BDXEventProcessor
import PokerReco.System.JROOTOutput

namespace PokerReco.System

open PokerReco.JANA PokerReco.DAQ

variable {ε ω : Type}

/-! ## §1. The job. -/

/-- The trees handed to the output; each `brun` can make an `EventDST`. -/
inductive TTree where
  | EventDST (serial : Nat)
  | EventHeader
  | RunInfo
  deriving DecidableEq, Repr

/-- `GetName`: the name that a tree is written under, which does not tell one
`EventDST` from another. -/
def TTree.GetName : TTree → String
  | .EventDST _ => "EventDST"
  | .EventHeader => "EventHeader"
  | .RunInfo => "RunInfo"

/-- The branches of `RunInfo`. -/
structure RunInfoRow where
  runN : Int32
  dT : Int
  deriving DecidableEq, Repr

/-- The settings `init` reads, those of `evnt` among them. -/
structure Settings (ε ω : Type) extends Config ε ω where
  isET : Bool
  outFile : String

/-- The processor with what `brun`, `erun` and `fini` use beside the members
that `evnt` writes. -/
structure Job (ε : Type) where
  processor : BDXEventProcessor ε
  isFirstCallToBrun : Bool
  m_output : JROOTOutput TTree
  /-- How many trees `EventDST` were made; `m_eventDST` points at the last. -/
  dstTrees : Nat
  /-- The rows of the trees `m_eventDST` pointed at before. -/
  olderDST : List (List (Row ε))
  deltaTime : Int
  m_runInfo : List RunInfoRow
  /-- The number of `evnt` calls so far. -/
  calls : Nat

/-- A run: the number `brun` is called with, and its events. -/
structure Run (ε ω : Type) where
  runnumber : Int32
  events : List (EvntInput ε ω)

namespace Job

/-- The constructor and `init`. -/
def init : Job ε where
  processor := .new
  isFirstCallToBrun := true
  m_output := .new
  dstTrees := 0
  olderDST := []
  deltaTime := 0
  m_runInfo := []
  calls := 0

/-- `new TTree("EventDST", "EventDST")`, and its `AddObject`. -/
def newEventDST (job : Job ε) : Job ε :=
  { job with
    processor := { job.processor with m_eventDST := [] }
    dstTrees := job.dstTrees + 1
    olderDST := if job.dstTrees = 0 then job.olderDST
      else job.olderDST ++ [job.processor.m_eventDST]
    m_output := (job.m_output.AddObject (.EventDST job.dstTrees)).2 }

/-- `brun`: the output is opened the first time, and every time the trees are made
and handed over. -/
def brun (cfg : Settings ε ω) (job : Job ε) (runnumber : Int32) : Job ε :=
  if job.isFirstCallToBrun then
    if cfg.m_output then
      let outFile :=
        if cfg.isET then "out." ++ toString runnumber.toInt ++ ".online.root" else cfg.outFile
      let job := { job with m_output := job.m_output.OpenOutput outFile }
      let job := if cfg.m_DObuildDST then job.newEventDST else job
      { job with
        m_output := ((job.m_output.AddObject .EventHeader).2.AddObject .RunInfo).2 }
    else job
  else job

/-- `evnt`: one thread, so its locked sections come one after the other. -/
def evnt (cfg : Settings ε ω) (job : Job ε) (input : EvntInput ε ω) : Job ε :=
  { job with
    processor := (System.evnt cfg.toConfig input).2.foldl (·.run job.calls) job.processor
    calls := job.calls + 1 }

/-- `erun`: a row of `RunInfo` with what the processor has gathered. -/
def erun (cfg : Settings ε ω) (job : Job ε) : Job ε :=
  let deltaTime := job.processor.stopTime - job.processor.startTime
  { job with
    deltaTime := deltaTime
    m_runInfo := job.m_runInfo ++ [⟨job.processor.runN, deltaTime⟩]
    m_output := if cfg.m_output && cfg.isET then job.m_output.CloseOutput else job.m_output }

/-- `fini`: the output is closed. -/
def fini (cfg : Settings ε ω) (job : Job ε) : Job ε :=
  { job with m_output := if cfg.m_output then job.m_output.CloseOutput else job.m_output }

/-- All of one run: `brun`, its events and `erun`. -/
def run (cfg : Settings ε ω) (job : Job ε) (r : Run ε ω) : Job ε :=
  (r.events.foldl (evnt cfg) (job.brun cfg r.runnumber)).erun cfg

/-- All runs; the state in which `fini` is called. -/
def runs (cfg : Settings ε ω) (rs : List (Run ε ω)) : Job ε := rs.foldl (run cfg) init

end Job

/-! ## §2. What an event leaves behind. -/

/-- The `eventData` of an event of the data acquisition. -/
def EvntInput.daq (input : EvntInput ε ω) : Option EventData :=
  input.tData.filter (·.eventType = .DAQ)

/-- The object for the DST, with the slow control data copied in. -/
def EvntInput.dstEvent (copyEpicsData : ω → ε → ε) (input : EvntInput ε ω) : Option ε :=
  match input.eData, input.events with
  | some eData, [event] => some (copyEpicsData eData event)
  | _, _ => none

/-- There is slow control data, and one DST object where a DST is built. -/
def EvntInput.Complete (cfg : Config ε ω) (input : EvntInput ε ω) : Prop :=
  input.eData.isSome = true ∧ (cfg.m_DObuildDST = true → input.events.length = 1)

instance (cfg : Config ε ω) (input : EvntInput ε ω) : Decidable (input.Complete cfg) :=
  inferInstanceAs (Decidable (_ ∧ (_ → _)))

/-- The `eventData` of an event that `evnt` takes a header row for. -/
def EvntInput.recorded (cfg : Config ε ω) (input : EvntInput ε ω) : Option EventData :=
  if input.Complete cfg then input.daq else none

/-- An event that is not one of the data acquisition takes no header row. -/
theorem recorded_of_daq_none {cfg : Config ε ω} {input : EvntInput ε ω}
    (h : input.daq = none) : input.recorded cfg = none := by
  unfold EvntInput.recorded
  rw [h, ite_self]

/-- The sections of a data event, where there is an output. -/
theorem evnt_eq {cfg : Config ε ω} (hMC : cfg.m_isMC = false) (hout : cfg.m_output = true)
    (input : EvntInput ε ω) :
    (evnt cfg input).2 = match input.recorded cfg with
      | none => []
      | some d =>
          (if cfg.m_DObuildDST then
            (input.dstEvent cfg.copyEpicsData).toList.map Section.dst else [])
            ++ [.header input.eventnumber d] := by
  obtain ⟨n, tData, eData, events⟩ := input
  rcases tData with _ | d
  · rw [recorded_of_daq_none rfl]
    simp [evnt, hMC]
  by_cases hd : d.eventType = .DAQ
  · have hdaq : EvntInput.daq ⟨n, some d, eData, events⟩ = some d := by
      simp [EvntInput.daq, Option.filter, hd]
    unfold EvntInput.recorded EvntInput.Complete EvntInput.dstEvent evnt
    rw [hdaq, hMC, hout]
    rcases eData with _ | w
    · simp
    by_cases hdst : cfg.m_DObuildDST = true
    -- exactly one DST object, or the event is refused
    · rcases events with _ | ⟨e, _ | ⟨e', es⟩⟩
      · simp [hd, hdst]
      · simp [hd, hdst]
      · simp [hd, hdst]
    · simp [hd, hdst]
  · have hdaq : EvntInput.daq ⟨n, some d, eData, events⟩ = none := by
      simp [EvntInput.daq, Option.filter, hd]
    rw [recorded_of_daq_none hdaq]
    rcases eData with _ | w
    · simp [evnt, hMC]
    · simp [evnt, hMC, hd]

/-- `evnt` leaves the row lists and the time range of its processor as a
header section does, if the event is recorded, and untouched otherwise. -/
theorem evnt_header {cfg : Settings ε ω} (hMC : cfg.m_isMC = false) (hout : cfg.m_output = true)
    (job : Job ε) (input : EvntInput ε ω) :
    ∃ p : BDXEventProcessor ε,
      (p.startTime = job.processor.startTime ∧ p.stopTime = job.processor.stopTime
        ∧ p.runN = job.processor.runN)
      ∧ (job.evnt cfg input).processor = match input.recorded cfg.toConfig with
        | none => p
        | some d => p.run job.calls (.header input.eventnumber d) := by
  unfold Job.evnt
  rw [evnt_eq hMC hout]
  cases input.recorded cfg.toConfig with
  | none => exact ⟨job.processor, ⟨rfl, rfl, rfl⟩, rfl⟩
  | some d =>
      simp only [List.foldl_append, List.foldl_cons, List.foldl_nil]
      refine ⟨_, ?_, rfl⟩
      split
      · cases input.dstEvent cfg.copyEpicsData with
        | none => exact ⟨rfl, rfl, rfl⟩
        | some e => exact ⟨rfl, rfl, rfl⟩
      · exact ⟨rfl, rfl, rfl⟩

/-! ## §3. The time range. -/

/-- The member `eventT` for an event: its time, narrowed to an `int`. -/
def eventT (d : EventData) : Int := d.time.toUInt32.toInt32.toInt

/-- A time below `2 ^ 32` is read as it is, or shifted down by `2 ^ 32`. -/
theorem eventT_eq {d : EventData} (h : d.time.toNat < 2 ^ 32) :
    eventT d = if d.time.toNat < 2 ^ 31 then (d.time.toNat : Int)
      else (d.time.toNat : Int) - 2 ^ 32 := by
  have hn : d.time.toUInt32.toNat = d.time.toNat := by
    rw [UInt64.toNat_toUInt32]
    omega
  unfold eventT
  show d.time.toUInt32.toBitVec.toInt = _
  rw [BitVec.toInt_eq_toNat_cond]
  show (if 2 * d.time.toUInt32.toNat < 2 ^ 32 then (d.time.toUInt32.toNat : Int) else _) = _
  rw [show d.time.toUInt32.toBitVec.toNat = d.time.toNat from hn, hn]
  split <;> split <;> omega

/-- The member `eventT` is an `int`. -/
theorem eventT_bounds (d : EventData) : -2 ^ 31 ≤ eventT d ∧ eventT d < 2 ^ 31 :=
  ⟨Int32.le_toInt _, Int32.toInt_lt _⟩

/-- **The time range of the processor** is that of all the events recorded so
far, and its run number that of the last one. -/
structure TimeRange (p : BDXEventProcessor ε) (seen : List EventData) : Prop where
  lower : ∀ d ∈ seen, p.startTime ≤ eventT d
  upper : ∀ d ∈ seen, eventT d ≤ p.stopTime
  start_mem : seen ≠ [] → ∃ d ∈ seen, p.startTime = eventT d
  stop_mem : seen ≠ [] → ∃ d ∈ seen, p.stopTime = eventT d
  unset : seen = [] → p.startTime = 9999999999 ∧ p.stopTime = -9999999999
  runN : ∀ d, seen.getLast? = some d → p.runN = d.runN.toInt32

/-- Only the times and the run number of the processor count. -/
theorem TimeRange.congr {p q : BDXEventProcessor ε} {seen : List EventData}
    (hpq : q.startTime = p.startTime ∧ q.stopTime = p.stopTime ∧ q.runN = p.runN)
    (h : TimeRange p seen) : TimeRange q seen where
  lower := by
    rw [hpq.1]
    exact h.lower
  upper := by
    rw [hpq.2.1]
    exact h.upper
  start_mem := by
    rw [hpq.1]
    exact h.start_mem
  stop_mem := by
    rw [hpq.2.1]
    exact h.stop_mem
  unset := by
    rw [hpq.1, hpq.2.1]
    exact h.unset
  runN := by
    rw [hpq.2.2]
    exact h.runN

/-- A new processor has the range of no event. -/
theorem new_timeRange : TimeRange (BDXEventProcessor.new : BDXEventProcessor ε) [] where
  lower d hd := absurd hd List.not_mem_nil
  upper d hd := absurd hd List.not_mem_nil
  start_mem h := absurd rfl h
  stop_mem h := absurd rfl h
  unset _ := ⟨rfl, rfl⟩
  runN d hd := by simp at hd

/-- A header section takes its event into the range.  The limits the
constructor sets lie beyond every `int`. -/
theorem TimeRange.header {p : BDXEventProcessor ε} {seen : List EventData}
    (h : TimeRange p seen) (call : Nat) (n : UInt64) (d : EventData) :
    TimeRange (p.run call (.header n d)) (seen ++ [d]) := by
  have hb := eventT_bounds d
  have hstart : (p.run call (.header n d)).startTime
      = if eventT d < p.startTime then eventT d else p.startTime := rfl
  have hstop : (p.run call (.header n d)).stopTime
      = if eventT d > p.stopTime then eventT d else p.stopTime := rfl
  refine ⟨fun x hx => ?_, fun x hx => ?_, fun _ => ?_, fun _ => ?_, fun h0 => ?_, fun x hx => ?_⟩
  · -- the earlier of the two times is below both
    rw [hstart]
    rcases List.mem_append.mp hx with hx | hx
    · have := h.lower x hx
      split <;> omega
    · rw [List.mem_singleton.mp hx]
      split <;> omega
  · rw [hstop]
    rcases List.mem_append.mp hx with hx | hx
    · have := h.upper x hx
      split <;> omega
    · rw [List.mem_singleton.mp hx]
      split <;> omega
  · rw [hstart]
    split
    · exact ⟨d, by simp, rfl⟩
    · -- the first time replaces the start value, which no `int` is above
      by_cases hs : seen = []
      · have := (h.unset hs).1
        omega
      · obtain ⟨x, hx, hxs⟩ := h.start_mem hs
        exact ⟨x, List.mem_append_left _ hx, hxs⟩
  · rw [hstop]
    split
    · exact ⟨d, by simp, rfl⟩
    · by_cases hs : seen = []
      · have := (h.unset hs).2
        omega
      · obtain ⟨x, hx, hxs⟩ := h.stop_mem hs
        exact ⟨x, List.mem_append_left _ hx, hxs⟩
  · simp at h0
  · rw [List.getLast?_concat] at hx
    injection hx with hx
    rw [← hx]
    rfl

section DataRuns

variable {cfg : Settings ε ω} (hMC : cfg.m_isMC = false) (hout : cfg.m_output = true)

include hMC hout

/-- One `evnt` takes its event into the range of the processor, if it is
recorded. -/
theorem evnt_timeRange {job : Job ε} {seen : List EventData}
    (h : TimeRange job.processor seen) (input : EvntInput ε ω) :
    TimeRange (job.evnt cfg input).processor
      (seen ++ (input.recorded cfg.toConfig).toList) := by
  obtain ⟨p, hp, hevnt⟩ := evnt_header hMC hout job input
  rw [hevnt]
  cases input.recorded cfg.toConfig with
  | none =>
      rw [Option.toList_none, List.append_nil]
      exact h.congr hp
  | some d => exact (h.congr hp).header job.calls input.eventnumber d

/-- The events of a run are taken into the range of the processor, by induction
over them. -/
theorem events_timeRange (events : List (EvntInput ε ω)) {job : Job ε} {seen : List EventData}
    (h : TimeRange job.processor seen) :
    TimeRange (events.foldl (Job.evnt cfg) job).processor
      (seen ++ events.filterMap (EvntInput.recorded cfg.toConfig)) := by
  induction events generalizing job seen with
  | nil =>
      show TimeRange job.processor (seen ++ [])
      rw [List.append_nil]
      exact h
  | cons input events ih =>
      have hrest := ih (evnt_timeRange hMC hout h input)
      rw [List.append_assoc] at hrest
      rw [List.foldl_cons, List.filterMap_cons]
      cases hrec : input.recorded cfg.toConfig with
      | none =>
          rw [hrec] at hrest
          exact hrest
      | some d =>
          rw [hrec] at hrest
          exact hrest

end DataRuns

/-! ## §4. The rows of `RunInfo`. -/

/-- The events of the data acquisition among the events of a run. -/
def Run.daq (r : Run ε ω) : List EventData := r.events.filterMap EvntInput.daq

/-- A run as the data acquisition makes it: it has events, they carry the
number of the run, and their times fit in 32 bits. -/
structure Run.FromDAQ (r : Run ε ω) : Prop where
  nonempty : r.daq ≠ []
  runN : ∀ d ∈ r.daq, ∀ d' ∈ r.daq, d.runN = d'.runN
  time : ∀ d ∈ r.daq, d.time.toNat < 2 ^ 32

/-- A row with the number of the run, and the latest time minus the earliest
one of its events. -/
def RunInfoRow.Of (row : RunInfoRow) (r : Run ε ω) : Prop :=
  (∀ d ∈ r.daq, row.runN.toInt = d.runN.toNat)
    ∧ ∃ first ∈ r.daq, ∃ last ∈ r.daq,
        (∀ d ∈ r.daq, first.time.toNat ≤ d.time.toNat ∧ d.time.toNat ≤ last.time.toNat)
          ∧ row.dT = (last.time.toNat : Int) - first.time.toNat

/-- All data events of the run reach the header tree, its number is an `int`,
and its times lie on one side of `2 ^ 31`. -/
structure Run.Clean (cfg : Config ε ω) (r : Run ε ω) : Prop where
  complete : ∀ input ∈ r.events, input.daq.isSome = true → input.Complete cfg
  runN : ∀ d ∈ r.daq, d.runN.toNat < 2 ^ 31
  oneSide : (∀ d ∈ r.daq, d.time.toNat < 2 ^ 31) ∨ ∀ d ∈ r.daq, 2 ^ 31 ≤ d.time.toNat

/-- The times of the events `earlier`, as the member `eventT` has them, lie
between two of the run. -/
def Run.Encloses (r : Run ε ω) (earlier : List EventData) : Prop :=
  ∀ d ∈ earlier, ∃ first ∈ r.daq, ∃ last ∈ r.daq, eventT first ≤ eventT d ∧ eventT d ≤ eventT last

/-- Every run encloses those before it, and the events `earlier`. -/
def Nested : List EventData → List (Run ε ω) → Prop
  | _, [] => True
  | earlier, r :: runs => r.Encloses earlier ∧ Nested (earlier ++ r.daq) runs

/-- An event that is complete wherever it is a data event is recorded as
what it is. -/
theorem recorded_of_complete {cfg : Config ε ω} {input : EvntInput ε ω}
    (h : input.daq.isSome = true → input.Complete cfg) : input.recorded cfg = input.daq := by
  unfold EvntInput.recorded
  cases hd : input.daq with
  | none => rw [ite_self]
  | some d =>
      rw [hd] at h
      rw [if_pos (h rfl)]

/-- All data events of a clean run are recorded. -/
theorem Run.Clean.recorded_eq {cfg : Config ε ω} {r : Run ε ω} (h : r.Clean cfg) :
    r.events.filterMap (EvntInput.recorded cfg) = r.daq := by
  unfold Run.daq
  refine List.filterMap_congr (fun input hi => ?_)
  exact recorded_of_complete (h.complete input hi)

/-- On one side of `2 ^ 31` the differences of the times are kept. -/
theorem Run.Clean.shift {cfg : Config ε ω} {r : Run ε ω} (h : r.Clean cfg) (hr : r.FromDAQ) :
    ∃ c : Int, ∀ d ∈ r.daq, eventT d = (d.time.toNat : Int) - c := by
  rcases h.oneSide with hlow | hhigh
  · refine ⟨0, fun d hd => ?_⟩
    rw [eventT_eq (hr.time d hd), if_pos (hlow d hd)]
    omega
  · refine ⟨2 ^ 32, fun d hd => ?_⟩
    have := hhigh d hd
    rw [eventT_eq (hr.time d hd), if_neg (by omega)]

/-- A word below half of its range is the same as an `int`. -/
theorem toInt32_eq {n : UInt32} (h : n.toNat < 2 ^ 31) : n.toInt32.toInt = n.toNat := by
  show n.toBitVec.toInt = _
  rw [BitVec.toInt_eq_toNat_cond]
  show (if 2 * n.toNat < 2 ^ 32 then (n.toNat : Int) else _) = _
  rw [if_pos (by omega)]

/-- After a clean run that encloses the earlier ones, the range of the
processor is that of the run. -/
theorem TimeRange.of_encloses {p : BDXEventProcessor ε} {earlier : List EventData} {r : Run ε ω}
    (h : TimeRange p (earlier ++ r.daq)) (hne : r.daq ≠ []) (henc : r.Encloses earlier) :
    ∃ first ∈ r.daq, ∃ last ∈ r.daq, p.startTime = eventT first ∧ p.stopTime = eventT last := by
  have hne' : earlier ++ r.daq ≠ [] := List.append_ne_nil_of_right_ne_nil _ hne
  have hstart : ∃ first ∈ r.daq, p.startTime = eventT first := by
    obtain ⟨d, hd, hds⟩ := h.start_mem hne'
    rcases List.mem_append.mp hd with hd | hd
    · -- the minimum is an earlier time: one of the run is not above it
      obtain ⟨first, hf, -, -, hle, -⟩ := henc d hd
      have := h.lower first (List.mem_append_right _ hf)
      exact ⟨first, hf, by omega⟩
    · exact ⟨d, hd, hds⟩
  have hstop : ∃ last ∈ r.daq, p.stopTime = eventT last := by
    obtain ⟨d, hd, hds⟩ := h.stop_mem hne'
    rcases List.mem_append.mp hd with hd | hd
    · obtain ⟨-, -, last, hl, -, hle⟩ := henc d hd
      have := h.upper last (List.mem_append_right _ hl)
      exact ⟨last, hl, by omega⟩
    · exact ⟨d, hd, hds⟩
  obtain ⟨first, hf, hfs⟩ := hstart
  obtain ⟨last, hl, hls⟩ := hstop
  exact ⟨first, hf, last, hl, hfs, hls⟩

/-- The row `erun` adds. -/
def BDXEventProcessor.runInfoRow (p : BDXEventProcessor ε) : RunInfoRow :=
  ⟨p.runN, p.stopTime - p.startTime⟩

/-- **One row**: for a clean run it is right exactly when the run encloses the
runs before it. -/
theorem row_iff {cfg : Config ε ω} {p : BDXEventProcessor ε} {earlier : List EventData}
    {r : Run ε ω} (h : TimeRange p (earlier ++ r.daq)) (hr : r.FromDAQ) (hclean : r.Clean cfg) :
    p.runInfoRow.Of r ↔ r.Encloses earlier := by
  obtain ⟨c, hc⟩ := hclean.shift hr
  have hmem : ∀ d ∈ r.daq, p.startTime ≤ eventT d ∧ eventT d ≤ p.stopTime := fun d hd =>
    ⟨h.lower d (List.mem_append_right _ hd), h.upper d (List.mem_append_right _ hd)⟩
  refine ⟨fun hrow d hd => ?_, fun henc => ⟨fun d hd => ?_, ?_⟩⟩
  · -- the range is as wide as the run, and it contains the run
    obtain ⟨-, first, hf, last, hl, -, hdT⟩ := hrow
    have hdT : p.stopTime - p.startTime = (last.time.toNat : Int) - first.time.toNat := hdT
    have h1 := hmem first hf
    have h2 := hmem last hl
    have h3 := hc first hf
    have h4 := hc last hl
    have h5 := h.lower d (List.mem_append_left _ hd)
    have h6 := h.upper d (List.mem_append_left _ hd)
    exact ⟨first, hf, last, hl, by omega, by omega⟩
  · -- the last event recorded is one of the run
    obtain ⟨x, hx⟩ := Option.isSome_iff_exists.mp (List.getLast?_isSome.mpr hr.nonempty)
    have hlast : (earlier ++ r.daq).getLast? = some x := by
      rw [List.getLast?_append, hx]
      rfl
    show p.runN.toInt = d.runN.toNat
    rw [h.runN x hlast, toInt32_eq (hclean.runN x (List.mem_of_getLast? hx)),
      hr.runN x (List.mem_of_getLast? hx) d hd]
  · obtain ⟨first, hf, last, hl, hstart, hstop⟩ := h.of_encloses hr.nonempty henc
    refine ⟨first, hf, last, hl, fun d hd => ?_, ?_⟩
    · have h1 := hmem d hd
      have h2 := hc d hd
      have h3 := hc first hf
      have h4 := hc last hl
      omega
    · have h3 := hc first hf
      have h4 := hc last hl
      show p.stopTime - p.startTime = _
      omega

/-- The events of a run leave the output and `RunInfo` alone. -/
theorem events_frame (cfg : Settings ε ω) (events : List (EvntInput ε ω)) (job : Job ε) :
    (events.foldl (Job.evnt cfg) job).m_runInfo = job.m_runInfo
      ∧ (events.foldl (Job.evnt cfg) job).m_output = job.m_output
      ∧ (events.foldl (Job.evnt cfg) job).dstTrees = job.dstTrees
      ∧ (events.foldl (Job.evnt cfg) job).isFirstCallToBrun = job.isFirstCallToBrun := by
  induction events generalizing job with
  | nil => exact ⟨rfl, rfl, rfl, rfl⟩
  | cons input events ih => exact ih (job.evnt cfg input)

/-- `brun` leaves the rows of `RunInfo` alone, and the times and counts of the
processor as they are. -/
theorem brun_frame (cfg : Settings ε ω) (job : Job ε) (runnumber : Int32) :
    (job.brun cfg runnumber).m_runInfo = job.m_runInfo
      ∧ (job.brun cfg runnumber).processor.startTime = job.processor.startTime
      ∧ (job.brun cfg runnumber).processor.stopTime = job.processor.stopTime
      ∧ (job.brun cfg runnumber).processor.runN = job.processor.runN := by
  unfold Job.brun
  split
  · split
    · dsimp only
      split <;> exact ⟨rfl, rfl, rfl, rfl⟩
    · exact ⟨rfl, rfl, rfl, rfl⟩
  · exact ⟨rfl, rfl, rfl, rfl⟩

/-- The rows of the runs from some point on: right if each run encloses those
before it, and otherwise one is wrong. -/
theorem runInfo_from {cfg : Settings ε ω} (hMC : cfg.m_isMC = false)
    (hout : cfg.m_output = true) (runs : List (Run ε ω))
    (hruns : ∀ r ∈ runs, r.FromDAQ ∧ r.Clean cfg.toConfig) {job : Job ε}
    {earlier : List EventData} (h : TimeRange job.processor earlier) :
    ∃ rows, (runs.foldl (Job.run cfg) job).m_runInfo = job.m_runInfo ++ rows
      ∧ (List.Forall₂ RunInfoRow.Of rows runs ↔ Nested earlier runs) := by
  induction runs generalizing job earlier with
  | nil => exact ⟨[], (List.append_nil _).symm, ⟨fun _ => trivial, fun _ => .nil⟩⟩
  | cons r runs ih =>
      obtain ⟨hr, hclean⟩ := hruns r List.mem_cons_self
      have hbrun := brun_frame cfg job r.runnumber
      have hrange := events_timeRange hMC hout r.events (h.congr hbrun.2)
      rw [hclean.recorded_eq] at hrange
      -- `erun` adds one row and leaves the range as it is
      have hjob : TimeRange (job.run cfg r).processor (earlier ++ r.daq) :=
        hrange.congr ⟨rfl, rfl, rfl⟩
      obtain ⟨rows, hrows, hiff⟩ := ih (fun r' hr' => hruns r' (List.mem_cons_of_mem _ hr')) hjob
      have hone : (job.run cfg r).m_runInfo = job.m_runInfo
          ++ [(job.run cfg r).processor.runInfoRow] := by
        rw [← hbrun.1, ← (events_frame cfg r.events (job.brun cfg r.runnumber)).1]
        rfl
      refine ⟨(job.run cfg r).processor.runInfoRow :: rows, ?_, ?_⟩
      · rw [List.foldl_cons, hrows, hone, List.append_assoc]
        rfl
      · rw [List.forall₂_cons, row_iff hjob hr hclean, hiff]
        rfl

/-- The settings of a data run with an output. -/
def dataSettings (buildDST isET : Bool) (outFile : String) (copyEpicsData : ω → ε → ε) :
    Settings ε ω where
  m_isMC := false
  m_DObuildDST := buildDST
  m_output := true
  copyEpicsData := copyEpicsData
  isET := isET
  outFile := outFile

/-- **ROWS OF `RunInfo` PER RUN.**  Let the runs be clean.  If each encloses
those before it, the `k`-th row is that of the `k`-th run, and otherwise some
row is not. -/
theorem runInfo_rows_of_nested (buildDST isET : Bool) (outFile : String)
    (copyEpicsData : ω → ε → ε) (runs : List (Run ε ω)) (hruns : ∀ r ∈ runs, r.FromDAQ) :
    let cfg := dataSettings buildDST isET outFile copyEpicsData
    ((∀ r ∈ runs, r.Clean cfg.toConfig) ∧ Nested [] runs →
        List.Forall₂ RunInfoRow.Of (Job.runs cfg runs).m_runInfo runs)
      ∧ ((∀ r ∈ runs, r.Clean cfg.toConfig) →
        List.Forall₂ RunInfoRow.Of (Job.runs cfg runs).m_runInfo runs → Nested [] runs) := by
  intro cfg
  have hiff : (∀ r ∈ runs, r.Clean cfg.toConfig) →
      (List.Forall₂ RunInfoRow.Of (Job.runs cfg runs).m_runInfo runs ↔ Nested [] runs) := by
    intro hclean
    have hinit : TimeRange (Job.init : Job ε).processor [] := new_timeRange
    obtain ⟨rows, hrows, h⟩ := runInfo_from (show cfg.m_isMC = false from rfl) rfl runs
      (fun r hr => ⟨hruns r hr, hclean r hr⟩) hinit
    unfold Job.runs
    rw [hrows]
    exact h
  exact ⟨fun h => (hiff h.1).mpr h.2, fun hclean h => (hiff hclean).mp h⟩

/-- A data event of the run `runN`, taken at `time`, with its DST object. -/
def eventAt (runN : UInt32) (time : UInt64) : EvntInput Nat Unit where
  eventnumber := time
  tData := some ⟨time, 0, 0, runN, time, [], .DAQ⟩
  eData := some ()
  events := [time.toNat]

instance (row : RunInfoRow) (r : Run ε ω) : Decidable (row.Of r) :=
  inferInstanceAs (Decidable (_ ∧ _))

/-- The second run begins before the first one and ends after it. -/
theorem enclosing_runs_have_their_rows :
    List.Forall₂ RunInfoRow.Of
      (Job.runs (dataSettings true false "out.root" (fun _ e => e))
        [⟨7, [eventAt 7 100, eventAt 7 200]⟩, ⟨8, [eventAt 8 50, eventAt 8 300]⟩]).m_runInfo
      [⟨7, [eventAt 7 100, eventAt 7 200]⟩, ⟨8, [eventAt 8 50, eventAt 8 300]⟩] := by
  refine (runInfo_rows_of_nested true false "out.root" (fun _ e => e) _ (fun r hr => ?_)).1
    ⟨fun r hr => ?_, ?_, ?_, trivial⟩
  · simp only [List.mem_cons, List.not_mem_nil, or_false] at hr
    rcases hr with rfl | rfl
    · exact ⟨by decide, by decide, by decide⟩
    · exact ⟨by decide, by decide, by decide⟩
  · simp only [List.mem_cons, List.not_mem_nil, or_false] at hr
    rcases hr with rfl | rfl
    · exact ⟨by decide, by decide, Or.inl (by decide)⟩
    · exact ⟨by decide, by decide, Or.inl (by decide)⟩
  · unfold Run.Encloses
    decide
  · unfold Run.Encloses
    decide

/-- Run 7 takes data from 100 to 200, run 8 from 1000 to 1010: the row of run
8 has 910 for its duration. -/
theorem second_run_counts_from_the_first :
    (∀ r ∈ ([⟨7, [eventAt 7 100, eventAt 7 200]⟩, ⟨8, [eventAt 8 1000, eventAt 8 1010]⟩] :
        List (Run Nat Unit)), r.FromDAQ)
      ∧ ¬ List.Forall₂ RunInfoRow.Of
        (Job.runs (dataSettings true false "out.root" (fun _ e => e))
          [⟨7, [eventAt 7 100, eventAt 7 200]⟩, ⟨8, [eventAt 8 1000, eventAt 8 1010]⟩]).m_runInfo
        [⟨7, [eventAt 7 100, eventAt 7 200]⟩, ⟨8, [eventAt 8 1000, eventAt 8 1010]⟩] := by
  refine ⟨fun r hr => ?_, fun h => ?_⟩
  · simp only [List.mem_cons, List.not_mem_nil, or_false] at hr
    rcases hr with rfl | rfl
    · exact ⟨by decide, by decide, by decide⟩
    · exact ⟨by decide, by decide, by decide⟩
  · have hrows : (Job.runs (dataSettings true false "out.root" (fun _ e => e))
        [⟨7, [eventAt 7 100, eventAt 7 200]⟩, ⟨8, [eventAt 8 1000, eventAt 8 1010]⟩]).m_runInfo
          = [⟨7, 100⟩, ⟨8, 910⟩] := by decide
    rw [hrows] at h
    obtain ⟨-, hrest⟩ := List.forall₂_cons.mp h
    obtain ⟨hrow, -⟩ := List.forall₂_cons.mp hrest
    revert hrow
    decide

/-! ## §5. The trees at `CloseOutput`. -/

/-- The data events among the events of the job, each with the number of its
`evnt` call. -/
def daqEvents (events : List (EvntInput ε ω)) (first : Nat) : List (EvntInput ε ω × Nat) :=
  (events.zipIdx first).filter (·.1.daq.isSome)

/-- **One output**: each tree is registered once, there is one `EventDST`, its
rows are the data events, and row `i` of `EventHeader` is for the same event
as row `i` of `EventDST`. -/
structure OneOutput (copyEpicsData : ω → ε → ε) (events : List (EvntInput ε ω))
    (job : Job ε) : Prop where
  registered : ∃ objects, job.m_output.m_objects = some objects
    ∧ ∀ name ∈ ["EventDST", "EventHeader", "RunInfo"],
        (objects.map TTree.GetName).count name = 1
  single : job.dstTrees = 1
  rows : job.processor.m_eventDST.map (fun row => (row.filledFor, some row.content))
    = (daqEvents events 0).map (fun e => (e.2, e.1.dstEvent copyEpicsData))
  length : job.processor.m_eventDST.length = job.processor.m_eventHeader.length
  aligned : ∀ (i : Nat) (d : Row ε) (h : Row HeaderRow),
    job.processor.m_eventDST[i]? = some d → job.processor.m_eventHeader[i]? = some h →
      d.filledFor = h.filledFor

/-- Where a DST is built an event is complete exactly when it has a DST object. -/
theorem complete_iff_dstEvent {cfg : Config ε ω} (hdst : cfg.m_DObuildDST = true)
    (input : EvntInput ε ω) :
    input.Complete cfg ↔ ∃ e, input.dstEvent cfg.copyEpicsData = some e := by
  obtain ⟨n, tData, eData, events⟩ := input
  unfold EvntInput.Complete EvntInput.dstEvent
  rw [hdst]
  rcases eData with _ | w
  · simp
  rcases events with _ | ⟨e, _ | ⟨e', es⟩⟩
  · simp
  · simp
  · simp

/-- Where every data event is complete, the events of a run add one row each
to both trees. -/
theorem events_rows {cfg : Settings ε ω} (hMC : cfg.m_isMC = false)
    (hout : cfg.m_output = true) (hdst : cfg.m_DObuildDST = true)
    (events : List (EvntInput ε ω)) (job : Job ε)
    (hcomplete : ∀ input ∈ events, input.daq.isSome = true → input.Complete cfg.toConfig) :
    ∃ dst header,
      (events.foldl (Job.evnt cfg) job).processor.m_eventDST
          = job.processor.m_eventDST ++ dst
        ∧ (events.foldl (Job.evnt cfg) job).processor.m_eventHeader
          = job.processor.m_eventHeader ++ header
        ∧ dst.map (fun row => (row.filledFor, some row.content))
          = (daqEvents events job.calls).map (fun e => (e.2, e.1.dstEvent cfg.copyEpicsData))
        ∧ dst.map Row.filledFor = header.map Row.filledFor := by
  induction events generalizing job with
  | nil => exact ⟨[], [], (List.append_nil _).symm, (List.append_nil _).symm, rfl, rfl⟩
  | cons input events ih =>
      have hinput := hcomplete input List.mem_cons_self
      obtain ⟨dst, header, hd, hh, hrows, hcalls⟩ := ih (job.evnt cfg input)
        (fun x hx => hcomplete x (List.mem_cons_of_mem _ hx))
      have hevnt := evnt_eq hMC hout input
      rw [recorded_of_complete hinput] at hevnt
      rw [List.foldl_cons, hd, hh]
      unfold daqEvents at hrows ⊢
      rw [List.zipIdx_cons, List.filter_cons]
      cases hdaq : input.daq with
      | none =>
          -- no section, no row
          rw [hdaq] at hevnt
          have hsame : (job.evnt cfg input).processor = job.processor := by
            unfold Job.evnt
            rw [hevnt]
            rfl
          rw [hsame]
          exact ⟨dst, header, rfl, rfl, hrows, hcalls⟩
      | some d =>
          rw [hdaq] at hinput hevnt
          obtain ⟨e, he⟩ := (complete_iff_dstEvent hdst input).mp (hinput rfl)
          rw [he, hdst] at hevnt
          have hboth : (job.evnt cfg input).processor
              = (job.processor.run job.calls (.dst e)).run job.calls
                  (.header input.eventnumber d) := by
            unfold Job.evnt
            rw [hevnt]
            rfl
          rw [hboth]
          refine ⟨⟨job.calls, e⟩ :: dst,
            ⟨job.calls, ⟨input.eventnumber.toUInt32.toInt32, d.runN.toInt32,
              d.time.toUInt32.toInt32⟩⟩ :: header, ?_, ?_, ?_, ?_⟩
          · show (job.processor.m_eventDST ++ [⟨job.calls, e⟩]) ++ dst = _
            rw [List.append_assoc]
            rfl
          · show (job.processor.m_eventHeader ++ [_]) ++ header = _
            rw [List.append_assoc]
            rfl
          · rw [List.map_cons, hrows]
            simp only [Option.isSome_some, if_true, List.map_cons, he]
            rfl
          · rw [List.map_cons, hcalls]
            rfl

/-- `brun` of a data run with a DST: the output is opened if it was not, and
the three trees are handed over. -/
theorem brun_output {cfg : Settings ε ω} (hout : cfg.m_output = true)
    (hdst : cfg.m_DObuildDST = true) (hET : cfg.isET = false) {job : Job ε}
    (hfirst : job.isFirstCallToBrun = true) (runnumber : Int32) :
    (job.brun cfg runnumber).m_output
        = ((((job.m_output.OpenOutput cfg.outFile).AddObject (.EventDST job.dstTrees)).2.AddObject
            .EventHeader).2.AddObject .RunInfo).2
      ∧ (job.brun cfg runnumber).dstTrees = job.dstTrees + 1
      ∧ (job.brun cfg runnumber).processor = { job.processor with m_eventDST := [] }
      ∧ (job.brun cfg runnumber).calls = job.calls
      ∧ (job.brun cfg runnumber).isFirstCallToBrun = true := by
  unfold Job.brun
  rw [hfirst, hout, hdst, hET]
  exact ⟨rfl, rfl, rfl, rfl, rfl⟩

/-- A run leaves the output as its `brun` has made it. -/
theorem run_output {cfg : Settings ε ω} (hET : cfg.isET = false) (job : Job ε) (r : Run ε ω) :
    (job.run cfg r).m_output = (job.brun cfg r.runnumber).m_output := by
  unfold Job.run Job.erun
  dsimp only
  rw [hET, Bool.and_false]
  exact (events_frame cfg r.events _).2.1

/-- Every run registers `EventHeader` once more. -/
theorem runs_register {cfg : Settings ε ω} (hout : cfg.m_output = true)
    (hdst : cfg.m_DObuildDST = true) (hET : cfg.isET = false) (runs : List (Run ε ω))
    {job : Job ε} (hfirst : job.isFirstCallToBrun = true) {file : Option (TFile TTree)}
    {objects : List TTree} (hopen : job.m_output = ⟨true, file, some objects⟩) :
    ∃ objects', (runs.foldl (Job.run cfg) job).m_output.m_objects = some objects'
      ∧ (objects'.map TTree.GetName).count "EventHeader"
        = (objects.map TTree.GetName).count "EventHeader" + runs.length := by
  induction runs generalizing job objects with
  | nil => exact ⟨objects, by rw [List.foldl_nil, hopen], rfl⟩
  | cons r runs ih =>
      obtain ⟨hbrun, -, -, -, hfirst'⟩ := brun_output hout hdst hET hfirst r.runnumber
      have hnext : (job.run cfg r).m_output
          = ⟨true, file, some (objects ++ [.EventDST job.dstTrees, .EventHeader, .RunInfo])⟩ := by
        rw [run_output hET, hbrun, hopen]
        -- the output is open already
        simp [JROOTOutput.OpenOutput, JROOTOutput.AddObject]
      have hflag : (job.run cfg r).isFirstCallToBrun = true := by
        rw [← hfirst']
        exact (events_frame cfg r.events _).2.2.2
      obtain ⟨objects', hobjs, hcount⟩ := ih hflag hnext
      refine ⟨objects', hobjs, ?_⟩
      rw [hcount, List.map_append, List.count_append, List.length_cons]
      have : ([.EventDST job.dstTrees, .EventHeader, .RunInfo].map TTree.GetName).count
          "EventHeader" = 1 := rfl
      omega

/-- The first run of a job opens the output and hands over the three trees. -/
theorem first_run_output (outFile : String) (copyEpicsData : ω → ε → ε) (r : Run ε ω) :
    (Job.init.run (dataSettings true false outFile copyEpicsData) r).m_output
      = ⟨true, some ⟨outFile, [], true⟩, some [.EventDST 0, .EventHeader, .RunInfo]⟩ := by
  rw [run_output rfl, (brun_output rfl rfl rfl rfl r.runnumber).1]
  rfl

/-- A job whose output has `EventHeader` once is a job of one run. -/
theorem single_run_of_registered {outFile : String} {copyEpicsData : ω → ε → ε}
    {runs : List (Run ε ω)} {objects : List TTree}
    (hobjs : (Job.runs (dataSettings true false outFile copyEpicsData) runs).m_output.m_objects
      = some objects)
    (hone : (objects.map TTree.GetName).count "EventHeader" = 1) : ∃ r, runs = [r] := by
  cases runs with
  | nil => cases hobjs
  | cons r rest =>
      let cfg : Settings ε ω := dataSettings true false outFile copyEpicsData
      have hflag : (Job.init.run cfg r).isFirstCallToBrun = true :=
        (events_frame cfg r.events _).2.2.2.trans
          (brun_output (show cfg.m_output = true from rfl) rfl rfl rfl r.runnumber).2.2.2.2
      -- one registration for each run, so there is no second run
      obtain ⟨objects', hobjs', hcount⟩ := runs_register (show cfg.m_output = true from rfl) rfl
        rfl rest hflag (first_run_output outFile copyEpicsData r)
      have hsame : objects = objects' := Option.some.inj (hobjs.symm.trans hobjs')
      rw [← hsame, hone] at hcount
      have hfirst : ([.EventDST 0, .EventHeader, .RunInfo].map TTree.GetName).count
          "EventHeader" = 1 := rfl
      have hrest : rest = [] := List.eq_nil_of_length_eq_zero (by omega)
      exact ⟨r, by rw [hrest]⟩

/-- The row of a data event holds its DST object, so the event was complete. -/
theorem OneOutput.complete {cfg : Config ε ω} (hdst : cfg.m_DObuildDST = true)
    {events : List (EvntInput ε ω)} {job : Job ε} (h : OneOutput cfg.copyEpicsData events job)
    (input : EvntInput ε ω) (hi : input ∈ events) (hdaq : input.daq.isSome = true) :
    input.Complete cfg := by
  obtain ⟨n, hn⟩ := List.mem_iff_getElem?.mp hi
  have hmem : (input, n) ∈ daqEvents events 0 := by
    unfold daqEvents
    rw [List.mem_filter, List.mk_mem_zipIdx_iff_getElem?]
    exact ⟨hn, hdaq⟩
  have hrow := List.mem_map_of_mem (f := fun e => (e.2, e.1.dstEvent cfg.copyEpicsData)) hmem
  rw [← h.rows] at hrow
  obtain ⟨row, -, hrow⟩ := List.mem_map.mp hrow
  rw [complete_iff_dstEvent hdst]
  exact ⟨row.content, (Prod.mk.inj hrow).2.symm⟩

/-- Two trees filled by the same calls, in the same order, are aligned. -/
theorem filledFor_eq_of_getElem? {α β : Type} {dst : List (Row α)} {header : List (Row β)}
    (h : dst.map Row.filledFor = header.map Row.filledFor) {i : Nat} {d : Row α} {x : Row β}
    (hd : dst[i]? = some d) (hx : header[i]? = some x) : d.filledFor = x.filledFor := by
  have hi : (dst.map Row.filledFor)[i]? = some d.filledFor := by
    rw [List.getElem?_map, hd]
    rfl
  rw [h, List.getElem?_map, hx] at hi
  exact (Option.some.inj hi).symm

/-- **ONE OUTPUT OVER MANY RUNS** is what a job of a single run gets, if all
its data events are complete, and no other job. -/
theorem one_output_iff (outFile : String) (copyEpicsData : ω → ε → ε) (runs : List (Run ε ω)) :
    let cfg := dataSettings true false outFile copyEpicsData
    OneOutput copyEpicsData (runs.flatMap Run.events) (Job.runs cfg runs)
      ↔ ∃ r, runs = [r]
        ∧ ∀ input ∈ r.events, input.daq.isSome = true → input.Complete cfg.toConfig := by
  intro cfg
  constructor
  · intro h
    obtain ⟨objects, hobjs, hcount⟩ := h.registered
    obtain ⟨r, hruns⟩ := single_run_of_registered hobjs (hcount "EventHeader" (by simp))
    subst hruns
    rw [List.flatMap_singleton] at h
    exact ⟨r, rfl, OneOutput.complete (show cfg.m_DObuildDST = true from rfl) h⟩
  · intro h
    obtain ⟨r, hruns, hcomplete⟩ := h
    subst hruns
    obtain ⟨dst, header, hd, hh, hrows, hcalls⟩ := events_rows (show cfg.m_isMC = false from rfl)
      rfl rfl r.events (Job.init.brun cfg r.runnumber) hcomplete
    have hdst : (Job.runs cfg [r]).processor.m_eventDST = dst := hd
    have hheader : (Job.runs cfg [r]).processor.m_eventHeader = header := hh
    refine ⟨⟨_, congrArg JROOTOutput.m_objects (first_run_output outFile copyEpicsData r),
      by decide⟩, ?_, ?_, ?_, ?_⟩
    · exact (events_frame cfg r.events _).2.2.1.trans
        (brun_output (show cfg.m_output = true from rfl) rfl rfl rfl r.runnumber).2.1
    · rw [hdst, List.flatMap_singleton]
      exact hrows
    · rw [hdst, hheader, ← List.length_map (f := Row.filledFor), hcalls, List.length_map]
    · intro i d x hi hx
      rw [hdst] at hi
      rw [hheader] at hx
      exact filledFor_eq_of_getElem? hcalls hi hx

/-- Two runs of one event each: the second `brun` makes a second `EventDST`. -/
theorem second_run_splits_dst :
    ¬ OneOutput (fun _ e => e) [eventAt 7 100, eventAt 8 300]
      (Job.runs (dataSettings true false "out.root" (fun _ e => e))
        [⟨7, [eventAt 7 100]⟩, ⟨8, [eventAt 8 300]⟩]) := by
  intro h
  have := h.single
  revert this
  decide

end PokerReco.System
