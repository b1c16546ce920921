/-
  PokerReco.EPICS.EpicsData
  ─────────────────────────
  **THE SLOW-CONTROL DATA** (`EPICS/epicsData.cc`, `EPICS/epicsData_factory.cc`).

  An EPICS event carries texts with one `value description` line for each
  quantity.  `decode` reads such a text into the maps of an `epicsData`, and
  the factory keeps one global `m_data` that every EPICS event updates and
  every other event copies.

  `stream >> val` is the standard library's, over the type `Val` of the values:
  `num_get` says what it makes of a text that starts with no white space.
-/
import Mathlib.Data.List.Basic
import PokerReco.DAQ.EventData
import PokerReco.JANA.Basic

namespace PokerReco.EPICS

open PokerReco.DAQ PokerReco.JANA

variable {Val : Type}

/-! ## §1. Reading one text. -/

/-- What the extraction of a number makes of a text: the characters it takes,
the value it stores, and whether they are a number in the range of the type, so
that `failbit` is not set. -/
structure NumGet (Val : Type) where
  taken : Nat
  val : Val
  ok : Bool

/-- `isspace`, in the locale of C. -/
def isspace (c : Char) : Bool := c ∈ [' ', '\t', '\n', '\x0b', '\x0c', '\r']

/-- `epicsData`: the values and the times by name, the number of the run and the
time of the event. -/
structure EpicsData (Val : Type) where
  values : Std.TreeMap String Val
  times : Std.TreeMap String Int32
  runNumber : Int32
  time : Int32

/-- A global `epicsData` before any event, with empty maps. -/
def EpicsData.zero : EpicsData Val := ⟨∅, ∅, 0, 0⟩

/-- Two copies have the same values and the same times. -/
def EpicsData.SameData (d d' : EpicsData Val) : Prop :=
  d.values = d'.values ∧ d.times = d'.times

/-- The two assignments of the decoding loop, of the value and of the time
under the name. -/
def EpicsData.store (d : EpicsData Val) (desc : String) (val : Val) (deltaTime : Int32) :
    EpicsData Val :=
  { d with
    values := d.values.insert desc val
    times := d.times.insert desc (d.time + deltaTime) }

/-- The loop of `decode`, from the rest of the stream.  The flag is false when
the loop is never left. -/
def decodeLoop (num_get : List Char → NumGet Val) (deltaTime : Int32) (d : EpicsData Val)
    (desc : String) (stream : List Char) : EpicsData Val × Bool :=
  match _hval : stream.dropWhile isspace with
  | [] => (d, true)
  | c :: cs =>
      let n := num_get (c :: cs)
      let rest := (c :: cs).drop n.taken
      -- the number ends with the text: `>> desc` finds nothing
      if rest = [] then (d, true)
      -- not a number in range: from here the stream fails without being at its end
      else if n.ok = false then (d.store desc n.val deltaTime, false)
      else
        match _hdesc : rest.dropWhile isspace with
        | [] => (d, true)
        | w :: word =>
            let stop := word.dropWhile (!isspace ·)
            -- a description that ends with the text is not stored
            if stop = [] then (d, true)
            else
              let desc := String.ofList (w :: word.takeWhile (!isspace ·))
              decodeLoop num_get deltaTime (d.store desc n.val deltaTime) desc stop
  termination_by stream.length
  decreasing_by
    have h1 : (stream.dropWhile isspace).length ≤ stream.length :=
      (List.dropWhile_suffix _).length_le
    have h2 : (((c :: cs).drop (num_get (c :: cs)).taken).dropWhile isspace).length
        ≤ ((c :: cs).drop (num_get (c :: cs)).taken).length :=
      (List.dropWhile_suffix _).length_le
    have h3 : (word.dropWhile (!isspace ·)).length ≤ word.length :=
      (List.dropWhile_suffix _).length_le
    have h4 : ((c :: cs).drop (num_get (c :: cs)).taken).length ≤ (c :: cs).length := by
      rw [List.length_drop]
      omega
    rw [_hval] at h1
    rw [_hdesc] at h2
    rw [List.length_cons] at h2
    show (word.dropWhile (!isspace ·)).length < stream.length
    omega

/-- `decode` of one text, into the maps as they are. -/
def EpicsData.decode (num_get : List Char → NumGet Val) (d : EpicsData Val) (rawData : String)
    (deltaTime : Int32) : EpicsData Val × Bool :=
  decodeLoop num_get deltaTime d "" rawData.toList

/-! ## §2. The factory. -/

/-- The loop over the raw data of one event, text by text; the flag is false when
one of them does not return. -/
def EpicsData.decodeAll (num_get : List Char → NumGet Val) (m_deltaTime : Int32) :
    EpicsData Val → List String → EpicsData Val × Bool
  | d, [] => (d, true)
  | d, rawData :: m_rawdata =>
      -- a text that is never left leaves the others undecoded
      match d.decode num_get rawData m_deltaTime with
      | (d, true) => d.decodeAll num_get m_deltaTime m_rawdata
      | (d, false) => (d, false)

/-- What an EPICS event makes of `m_data`, before it is published. -/
def EpicsData.update (num_get : List Char → NumGet Val) (m_deltaTime : Int32)
    (m_data : EpicsData Val) (tData : EventData) (m_rawdata : List String) :
    EpicsData Val × Bool :=
  -- run and time are those of the event, before any text is read
  let m_data := { m_data with
    runNumber := .ofInt tData.runN.toNat
    time := .ofInt (tData.time.toNat + m_deltaTime.toInt) }
  m_data.decodeAll num_get m_deltaTime m_rawdata

/-- How `evnt` ends: with a value and the object it publishes, or not at all. -/
inductive Ending (Val : Type) where
  | returned (err : JError) (_data : List (EpicsData Val))
  | hung

/-- `epicsData_factory::evnt`, with the global `m_data` it leaves. -/
def evnt (num_get : List Char → NumGet Val) (m_deltaTime : Int32) (m_data : EpicsData Val)
    (m_rawdata : List String) (tData : Option EventData) : EpicsData Val × Ending Val :=
  match tData with
  | none => (m_data, .returned .OBJECT_NOT_AVAILABLE [])
  | some tData =>
      if m_rawdata.length > 0 then
        match m_data.update num_get m_deltaTime tData m_rawdata with
        | (m_data, true) => (m_data, .returned .NOERROR [m_data])
        | (m_data, false) => (m_data, .hung)
      else (m_data, .returned .NOERROR [m_data])

/-- What `evnt` publishes is a copy of the `m_data` it leaves. -/
theorem evnt_data {num_get : List Char → NumGet Val} {m_deltaTime : Int32}
    {before after : EpicsData Val} {m_rawdata : List String} {tData : Option EventData}
    {err : JError} {data : List (EpicsData Val)}
    (h : evnt num_get m_deltaTime before m_rawdata tData = (after, .returned err data)) :
    ∀ d ∈ data, d = after := by
  intro d hd
  unfold evnt at h
  split at h
  next =>
    injection h with _ hend
    injection hend with _ hdata
    rw [← hdata] at hd
    cases hd
  next tData =>
    split at h
    next =>
      split at h
      next =>
        injection h with hafter hend
        injection hend with _ hdata
        rw [← hdata, List.mem_singleton] at hd
        rw [hd, hafter]
      next =>
        injection h with _ hend
        cases hend
    next =>
      injection h with hafter hend
      injection hend with _ hdata
      rw [← hdata, List.mem_singleton] at hd
      rw [hd, hafter]

end PokerReco.EPICS
