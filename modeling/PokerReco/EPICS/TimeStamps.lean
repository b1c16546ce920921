/-
  PokerReco.EPICS.TimeStamps
  ──────────────────────────
  **THE TIMES OF THE SLOW-CONTROL DATA** (`EPICS/epicsData_factory.cc`).

  An EPICS event sets the time of the global `m_data` to its own plus
  `EPICS:DELTA_TIME`, and `decode` adds `EPICS:DELTA_TIME` once more to what it
  writes into the map of times.  A key keeps the time of the last EPICS event
  that had it.

      persisted_times    the times, by the last EPICS event with each key
      times_right_iff    they are the documented ones exactly for a zero offset
                         and times below 2^31
-/
import Mathlib.Algebra.Group.Nat.Defs
import PokerReco.EPICS.Entries
import PokerReco.EPICS.Persistence

namespace PokerReco.EPICS

open PokerReco.DAQ PokerReco.JANA PokerReco.Library

variable {Val : Type}

/-! ## §1. Runs on one thread. -/

/-- `m_data` before event `i`, where the events are taken one after the other. -/
def Job.m_data (J : Job Val) (i : Nat) : EpicsData Val :=
  (J.source.take i).foldl (fun d e => (J.evnt d e).1) .zero

/-- Where the events are taken one after the other, `m_data` is what the events
before have made. -/
theorem Job.m_data_eq (J : Job Val) (i : Nat) : J.m_data i = J.persisted i := by
  unfold m_data persisted
  congr 1
  funext d e
  exact J.evnt_m_data d e

/-- A line `value name`; the name is there. -/
structure Line (num_get : List Char → NumGet Val) extends Entry num_get where
  name_ne : name ≠ ""

/-- Events whose EPICS texts are lists of lines, each with its newline. -/
inductive SlowEvent (num_get : List Char → NumGet Val) where
  | daqEvent (tData : Option EventData)
  | epicsEvent (tData : EventData) (texts : List (List (Line num_get)))

variable {num_get : List Char → NumGet Val}

/-- The text of some lines. -/
def Line.text (lines : List (Line num_get)) : String :=
  String.ofList (Entry.text (lines.map Line.toEntry) true)

namespace SlowEvent

/-- The event as the source hands it over. -/
def toSource : SlowEvent num_get → SourceEvent
  | daqEvent tData => .daqEvent tData
  | epicsEvent tData texts => .epicsEvent tData (texts.map Line.text)

/-- The text of the event contains the key: the event is one that changes
its time. -/
def Contains (key : String) : SlowEvent num_get → Prop
  | daqEvent _ => False
  | epicsEvent _ texts => ∃ lines ∈ texts, ∃ l ∈ lines, l.name = key

/-- The time of an EPICS event; a DAQ event has none. -/
def time : SlowEvent num_get → Nat
  | daqEvent _ => 0
  | epicsEvent tData _ => tData.time.toNat

end SlowEvent

/-- The last event before event `i` that contains the key is event `j`. -/
def LastWith (events : List (SlowEvent num_get)) (key : String) (i j : Nat)
    (e : SlowEvent num_get) : Prop :=
  j < i ∧ events[j]? = some e ∧ e.Contains key
    ∧ ∀ k e', j < k → k < i → events[k]? = some e' → ¬ e'.Contains key

/-- A job on such events. -/
def slowJob (m_deltaTime : Int32) (buffer : Nat) (events : List (SlowEvent num_get)) : Job Val where
  num_get := num_get
  m_deltaTime := m_deltaTime
  MAX_EVENTS_IN_BUFFER := buffer
  source := events.map SlowEvent.toSource

/-- **Time stamps with the offset once**: where event `i` is a DAQ event and
publishes `data`, every key in it has the time of the last EPICS event with
the key, plus `EPICS:DELTA_TIME`. -/
def TimesRight (m_deltaTime : Int32) (buffer : Nat) (events : List (SlowEvent num_get)) : Prop :=
  ∀ i tData, events[i]? = some (.daqEvent tData) →
    ∀ err _data, ((slowJob m_deltaTime buffer events).evnt
        ((slowJob m_deltaTime buffer events).m_data i) (.daqEvent tData)).2 = .returned err _data →
      ∀ data ∈ _data, ∀ key, data.hasData key = true →
        ∃ j e, LastWith events key i j e
          ∧ (data.getDataTime key).toInt = e.time + m_deltaTime.toInt

/-! ## §2. One EPICS event. -/

/-- The time an event leaves at its keys: the offset is added to the time of
`m_data`, and again by `decode`. -/
def SlowEvent.stamp (m_deltaTime : Int32) (e : SlowEvent num_get) : Int32 :=
  .ofInt (e.time + m_deltaTime.toInt) + m_deltaTime

/-- The stamp is the time with the offset once, when there is nothing to add. -/
theorem SlowEvent.stamp_iff (m_deltaTime : Int32) (e : SlowEvent num_get) :
    (e.stamp m_deltaTime).toInt = e.time + m_deltaTime.toInt
      ↔ m_deltaTime = 0 ∧ e.time < 2 ^ 31 := by
  have hle := m_deltaTime.le_toInt
  have hlt := m_deltaTime.toInt_lt
  have hsize : ((e.time : Int) + m_deltaTime.toInt).bmod Int32.size
      = ((e.time : Int) + m_deltaTime.toInt).bmod (2 ^ 32) := rfl
  unfold stamp
  rw [Int32.toInt_add, Int32.toInt_ofInt, hsize, Int.bmod_add_bmod, ← Int32.toInt_inj,
    Int.bmod_def]
  show _ ↔ m_deltaTime.toInt = 0 ∧ _
  split
  · omega
  · omega

/-- All entries of the texts of an event. -/
def Line.entries (texts : List (List (Line num_get))) : List (Entry num_get) :=
  texts.flatten.map Line.toEntry

/-- Every line of every text is stored, with the time of its event. -/
theorem decodeAll_lines (m_deltaTime : Int32) (texts : List (List (Line num_get)))
    (d : EpicsData Val) :
    d.decodeAll num_get m_deltaTime (texts.map Line.text)
      = (Entry.storeAll m_deltaTime d (Line.entries texts), true) := by
  induction texts generalizing d with
  | nil => rfl
  | cons lines texts ih =>
      have hnames : ∀ e ∈ lines.map Line.toEntry, e.name ≠ "" := fun e he => by
        obtain ⟨l, -, rfl⟩ := List.mem_map.mp he
        exact l.name_ne
      have hdecode : d.decode num_get (Line.text lines) m_deltaTime
          = (Entry.storeAll m_deltaTime d (lines.map Line.toEntry), true) := by
        unfold EpicsData.decode Line.text
        rw [String.toList_ofList]
        exact decodeLoop_text_newline m_deltaTime hnames "" d
      rw [List.map_cons]
      unfold EpicsData.decodeAll
      rw [hdecode]
      dsimp only
      rw [ih]
      unfold Line.entries Entry.storeAll
      rw [List.flatten_cons, List.map_append, List.foldl_append]

/-- The event contains a key when one of its entries has that name. -/
theorem contains_iff {tData : EventData} {texts : List (List (Line num_get))} {key : String} :
    (SlowEvent.epicsEvent tData texts).Contains key
      ↔ (Entry.lastNamed (Line.entries texts) key).isSome = true := by
  unfold Entry.lastNamed Line.entries
  rw [lastWrite_isSome_iff]
  constructor
  · intro ⟨lines, hlines, l, hl, hname⟩
    exact ⟨l.toEntry, List.mem_map_of_mem (List.mem_flatten_of_mem hlines hl), hname⟩
  · intro ⟨e, he, hname⟩
    obtain ⟨l, hl, rfl⟩ := List.mem_map.mp he
    obtain ⟨lines, hlines, hl⟩ := List.mem_flatten.mp hl
    exact ⟨lines, hlines, l, hl, hname⟩

/-- **What an event does to the maps**: at the keys it contains the times
become its stamp, and the other keys are left alone. -/
structure SlowEvent.Effect (m_deltaTime : Int32) (e : SlowEvent num_get)
    (d d' : EpicsData Val) : Prop where
  contained : ∀ key, e.Contains key →
    d'.values[key]?.isSome = true ∧ d'.times[key]? = some (e.stamp m_deltaTime)
  others : ∀ key, ¬ e.Contains key →
    d'.values[key]? = d.values[key]? ∧ d'.times[key]? = d.times[key]?

/-- To decode the texts of an event has this effect on the maps. -/
theorem persist_effect (J : Job Val) (e : SlowEvent J.num_get) (d : EpicsData Val) :
    e.Effect J.m_deltaTime d (J.persist d e.toSource) := by
  cases e with
  | daqEvent tData => exact ⟨fun key h => h.elim, fun key _ => ⟨rfl, rfl⟩⟩
  | epicsEvent tData texts =>
      cases texts with
      | nil =>
          refine ⟨fun key h => ?_, fun key _ => ⟨rfl, rfl⟩⟩
          obtain ⟨lines, hlines, -⟩ := h
          cases hlines
      | cons lines texts =>
          have hpersist : J.persist d (SlowEvent.epicsEvent tData (lines :: texts)).toSource
              = Entry.storeAll J.m_deltaTime { d with
                  runNumber := .ofInt tData.runN.toNat
                  time := .ofInt (tData.time.toNat + J.m_deltaTime.toInt) }
                (Line.entries (lines :: texts)) :=
            congrArg Prod.fst (decodeAll_lines J.m_deltaTime (lines :: texts) _)
          rw [hpersist]
          refine ⟨fun key h => ?_, fun key h => ?_⟩
          · obtain ⟨entry, hentry⟩ := Option.isSome_iff_exists.mp (contains_iff.mp h)
            rw [Entry.storeAll_values, Entry.storeAll_times, hentry]
            exact ⟨rfl, rfl⟩
          · rw [contains_iff, Option.not_isSome_iff_eq_none] at h
            rw [Entry.storeAll_values, Entry.storeAll_times, h]
            exact ⟨rfl, rfl⟩

/-! ## §3. Every run. -/

section Runs

variable {events : List (SlowEvent num_get)} {key : String} {i j : Nat} {e : SlowEvent num_get}

/-- An event that contains the key is the last one from then on. -/
theorem LastWith.of_contains (he : events[i]? = some e) (h : e.Contains key) :
    LastWith events key (i + 1) i e :=
  ⟨Nat.lt_succ_self i, he, h, fun k _ hik hki => by omega⟩

/-- An event that does not contain the key changes nothing about the last
event with it. -/
theorem LastWith.succ (h : LastWith events key i j e)
    (hi : ∀ e', events[i]? = some e' → ¬ e'.Contains key) : LastWith events key (i + 1) j e := by
  obtain ⟨hji, he, hkey, hlater⟩ := h
  refine ⟨by omega, he, hkey, fun k e' hjk hki he' => ?_⟩
  by_cases hk : k = i
  · subst hk
    exact hi e' he'
  · exact hlater k e' hjk (by omega) he'

/-- There is one last event with a key at most. -/
theorem LastWith.unique {j' : Nat} {e' : SlowEvent num_get} (h : LastWith events key i j e)
    (h' : LastWith events key i j' e') : e = e' := by
  obtain ⟨hji, he, hkey, hlater⟩ := h
  obtain ⟨hji', he', hkey', hlater'⟩ := h'
  rcases Nat.lt_trichotomy j j' with hlt | heq | hlt
  · exact absurd hkey' (hlater j' e' hlt hji' he')
  · subst heq
    exact Option.some.inj (he.symm.trans he')
  · exact absurd hkey (hlater' j e hlt hji he)

/-- Without the key in the event before it, the last event with it is that of one
event earlier. -/
theorem LastWith.of_succ (h : LastWith events key (i + 1) j e)
    (hi : ∀ e', events[i]? = some e' → ¬ e'.Contains key) : LastWith events key i j e := by
  obtain ⟨hji, he, hkey, hlater⟩ := h
  have hne : j ≠ i := fun heq => hi e (heq ▸ he) hkey
  exact ⟨by omega, he, hkey, fun k e' hjk hki => hlater k e' hjk (by omega)⟩

/-- **The maps at a key, before event `i`**: a last event with the key, and its
stamp, or nothing. -/
def KeyState (m_deltaTime : Int32) (events : List (SlowEvent num_get)) (key : String) (i : Nat)
    (d : EpicsData Val) : Prop :=
  (d.values[key]? = none ∧ ∀ j e, ¬ LastWith events key i j e)
    ∨ (d.values[key]?.isSome = true
      ∧ ∃ j e, LastWith events key i j e ∧ d.times[key]? = some (e.stamp m_deltaTime))

/-- An event without the key hands the state of the maps at the key on. -/
theorem KeyState.succ {m_deltaTime : Int32} {d d' : EpicsData Val}
    (h : KeyState m_deltaTime events key i d)
    (hi : ∀ e', events[i]? = some e' → ¬ e'.Contains key)
    (hd : d'.values[key]? = d.values[key]? ∧ d'.times[key]? = d.times[key]?) :
    KeyState m_deltaTime events key (i + 1) d' := by
  unfold KeyState
  rw [hd.1, hd.2]
  rcases h with ⟨hnone, hno⟩ | ⟨hsome, j, e, hlast, htime⟩
  · exact .inl ⟨hnone, fun j e hlast => hno j e (hlast.of_succ hi)⟩
  · exact .inr ⟨hsome, j, e, hlast.succ hi, htime⟩

/-- Before each event the maps are at each key in this state, by induction over
the events. -/
theorem m_data_keyState (m_deltaTime : Int32) (buffer : Nat) (events : List (SlowEvent num_get))
    (key : String) (i : Nat) :
    KeyState m_deltaTime events key i ((slowJob m_deltaTime buffer events : Job Val).m_data i) := by
  rw [Job.m_data_eq]
  induction i with
  | zero => exact .inl ⟨rfl, fun j e h => absurd h.1 (Nat.not_lt_zero j)⟩
  | succ i ih =>
      have hsource : (slowJob m_deltaTime buffer events : Job Val).source[i]?
          = events[i]?.map SlowEvent.toSource := List.getElem?_map
      cases he : events[i]? with
      | none =>
          rw [he] at hsource
          have hsame :=
            (slowJob m_deltaTime buffer events : Job Val).persisted_succ_of_not_sequential
            (i := i) (by unfold Job.sequential; rw [hsource]; rfl)
          rw [hsame]
          exact ih.succ (fun e' he' => by rw [he] at he'; cases he') ⟨rfl, rfl⟩
      | some e =>
          rw [he] at hsource
          rw [Job.persisted_succ _ hsource]
          have heffect := persist_effect (slowJob m_deltaTime buffer events : Job Val) e
            ((slowJob m_deltaTime buffer events : Job Val).persisted i)
          by_cases hkey : e.Contains key
          · obtain ⟨hvalue, htime⟩ := heffect.contained key hkey
            exact .inr ⟨hvalue, i, e, LastWith.of_contains he hkey, htime⟩
          · refine ih.succ (fun e' he' => ?_) (heffect.others key hkey)
            rw [← Option.some.inj (he.symm.trans he')]
            exact hkey

/-- What a DAQ event publishes is a copy of `m_data`. -/
theorem evnt_daqEvent (J : Job Val) (d : EpicsData Val) (tData : Option EventData) :
    (J.evnt d (.daqEvent tData)).2 = match tData with
      | none => .returned .OBJECT_NOT_AVAILABLE []
      | some _ => .returned .NOERROR [d] := by
  cases tData with
  | none => rfl
  | some tData => rfl

/-- **THE OFFSET ONCE**: the times published with every DAQ event are the
documented ones exactly when no event with a key that is published later comes
with an offset, or with a time from 2^31 on. -/
theorem times_right_iff (m_deltaTime : Int32) (buffer : Nat)
    (events : List (SlowEvent num_get)) :
    TimesRight m_deltaTime buffer events
      ↔ ∀ i tData key j e, events[i]? = some (.daqEvent (some tData)) →
        LastWith events key i j e → m_deltaTime = 0 ∧ e.time < 2 ^ 31 := by
  have hstate := fun key i => m_data_keyState m_deltaTime buffer events key i
  constructor
  · intro h i tData key j e hi hlast
    rcases hstate key i with ⟨-, hno⟩ | ⟨hsome, j', e', hlast', htime⟩
    · exact absurd hlast (hno j e)
    · obtain ⟨j'', e'', hlast'', hright⟩ := h i (some tData) hi .NOERROR _ (evnt_daqEvent _ _ _) _
        List.mem_cons_self key hsome
      unfold EpicsData.getDataTime at hright
      rw [htime, Option.getD_some, hlast''.unique hlast, hlast'.unique hlast] at hright
      exact (e.stamp_iff m_deltaTime).mp hright
  · intro h i tData hi err _data hevnt data hdata key hkey
    rw [evnt_daqEvent] at hevnt
    cases tData with
    | none =>
        injection hevnt with _ hnone
        rw [← hnone] at hdata
        cases hdata
    | some tData =>
        injection hevnt with _ hone
        rw [← hone, List.mem_singleton] at hdata
        subst hdata
        rcases hstate key i with ⟨hnone, -⟩ | ⟨-, j, e, hlast, htime⟩
        · unfold EpicsData.hasData at hkey
          rw [hnone] at hkey
          cases hkey
        · refine ⟨j, e, hlast, ?_⟩
          unfold EpicsData.getDataTime
          rw [htime, Option.getD_some]
          exact (e.stamp_iff m_deltaTime).mpr (h i tData key j e hi hlast)

end Runs

/-- An event taken at `time`. -/
def takenAt (time : UInt64) (eventType : EventSource) : EventData where
  eventN := 0
  eventTS := 0
  spillN := 0
  runN := 7
  time := time
  triggerWords := []
  eventType := eventType

/-- An EPICS event at 100 with one line, and a DAQ event behind it. -/
def currentThenData : List (SlowEvent readDouble) :=
  [.epicsEvent (takenAt 100 .EPICS) [[⟨entryOf "HALLB:current" (word_of_all rfl), by decide⟩]],
    .daqEvent (some (takenAt 110 .DAQ))]

/-- With an offset of 3600 s the DAQ event has the time 7300, not 3700. -/
theorem offset_added_twice : ¬ TimesRight 3600 0 currentThenData := by
  intro h
  have hlast : LastWith currentThenData "HALLB:current" 1 0 _ :=
    LastWith.of_contains rfl ⟨_, List.mem_cons_self, _, List.mem_cons_self, rfl⟩
  rcases m_data_keyState 3600 0 currentThenData "HALLB:current" 1 with
    ⟨-, hno⟩ | ⟨hsome, j', e', hlast', htime⟩
  · exact hno _ _ hlast
  · obtain ⟨j, e, hlast'', hright⟩ := h 1 _ rfl .NOERROR _ (evnt_daqEvent _ _ _) _
      List.mem_cons_self "HALLB:current" hsome
    unfold EpicsData.getDataTime at hright
    rw [htime, Option.getD_some, hlast''.unique hlast, hlast'.unique hlast] at hright
    revert hright
    decide

end PokerReco.EPICS
