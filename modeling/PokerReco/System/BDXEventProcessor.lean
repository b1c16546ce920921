/-
  PokerReco.System.BDXEventProcessor
  ──────────────────────────────────
  **TWO TREES, TWO LOCKED SECTIONS** (`BDXEventProcessor::evnt`).

  For each event that passes its checks, `evnt` fills a row of the tree
  `EventDST` in one `RootWriteLock .. RootUnLock` section and a row of
  `EventHeader` in a second one.  The header tree is made a friend of the
  DST tree, so row `i` of one is read with row `i` of the other.

  Any number of threads run `evnt` on the one processor.  A section is one
  step; between its two sections a thread can wait as long as it likes.

      rows_aligned_iff_in_order    the trees agree whenever no thread is
                                   between its sections, exactly when the
                                   header sections come in the order of the
                                   DST sections
-/
import PokerReco.DAQ.EventData
import PokerReco.JANA.Basic
import PokerReco.Library.Schedule

namespace PokerReco.System

open PokerReco.Library PokerReco.JANA PokerReco.DAQ

/-! ## §1. The processor and its `evnt`. -/

/-- A row of a tree, with the `evnt` call that filled it. -/
structure Row (α : Type) where
  filledFor : Nat
  content : α
  deriving DecidableEq, Repr

/-- The branches of `EventHeader`, as a section fills them. -/
structure HeaderRow where
  eventN : Int32
  runN : Int32
  T : Int32
  deriving DecidableEq, Repr

/-- The settings that `evnt` looks at, and what it calls for EPICS data. -/
structure Config (ε ω : Type) where
  m_isMC : Bool
  m_DObuildDST : Bool
  /-- `m_output != 0` -/
  m_output : Bool
  /-- `TEventHeader::copyEpicsData`, on the header of an event. -/
  copyEpicsData : ω → ε → ε

/-- What the event loop hands to one `evnt` call. -/
structure EvntInput (ε ω : Type) where
  eventnumber : UInt64
  /-- `GetSingle(tData)`, `none` when it throws. -/
  tData : Option EventData
  /-- `GetSingle(eData)`, `none` when it throws. -/
  eData : Option ω
  /-- `Get(events, m_buildDST)`. -/
  events : List ε

/-- The members of `BDXEventProcessor` that `evnt` writes; `ε` is the type of
the DST events. -/
structure BDXEventProcessor (ε : Type) where
  m_event : Option ε
  m_eventDST : List (Row ε)
  eventT : Int32
  eventN : Int32
  runN : Int32
  m_eventHeader : List (Row HeaderRow)
  startTime : Int
  stopTime : Int

/-- The constructor, and the trees as `init` and `brun` make them: without rows. -/
def BDXEventProcessor.new {ε : Type} : BDXEventProcessor ε where
  m_event := none
  m_eventDST := []
  eventT := 0
  eventN := 0
  runN := 0
  m_eventHeader := []
  startTime := 9999999999
  stopTime := -9999999999

/-- A locked section of `evnt`, with what it writes. -/
inductive Section (ε : Type) where
  | dst (event : ε)
  | header (eventnumber : UInt64) (tData : EventData)

variable {ε ω θ : Type}

/-- `evnt`: the value it returns and the locked sections it goes through on
the way. -/
def evnt (cfg : Config ε ω) (input : EvntInput ε ω) : JError × List (Section ε) :=
  let dst (event : ε) : List (Section ε) := if cfg.m_output then [.dst event] else []
  let header (tData : EventData) : List (Section ε) :=
    if cfg.m_output then [.header input.eventnumber tData] else []
  if cfg.m_isMC then
    if cfg.m_DObuildDST then
      match input.events with
      | [event] => (.NOERROR, dst event)
      | _ => (.RESOURCE_UNAVAILABLE, [])
    else (.NOERROR, [])
  else
    match input.tData, input.eData with
    | none, _ => (.OBJECT_NOT_AVAILABLE, [])
    | some _, none => (.OBJECT_NOT_AVAILABLE, [])
    | some tData, some eData =>
        if tData.eventType ≠ .DAQ then (.OBJECT_NOT_AVAILABLE, [])
        else if cfg.m_DObuildDST then
          match input.events with
          | [event] => (.NOERROR, dst (cfg.copyEpicsData eData event) ++ header tData)
          | _ => (.RESOURCE_UNAVAILABLE, [])
        else (.NOERROR, header tData)

/-- What a section does, on behalf of the `evnt` call `call`. -/
def BDXEventProcessor.run (p : BDXEventProcessor ε) (call : Nat) :
    Section ε → BDXEventProcessor ε
  | .dst event =>
      { p with
        m_event := some event
        m_eventDST := p.m_eventDST ++ [⟨call, event⟩] }
  | .header eventnumber tData =>
      -- `int` members: the counters are narrowed to 32 bits
      let eventT := tData.time.toUInt32.toInt32
      let eventN := eventnumber.toUInt32.toInt32
      let runN := tData.runN.toInt32
      { p with
        eventT := eventT
        eventN := eventN
        runN := runN
        m_eventHeader := p.m_eventHeader ++ [⟨call, ⟨eventN, runN, eventT⟩⟩]
        startTime := if eventT.toInt < p.startTime then eventT.toInt else p.startTime
        stopTime := if eventT.toInt > p.stopTime then eventT.toInt else p.stopTime }

/-! ## §2. The threads. -/

/-- The processor and the threads that call it.  A thread has the sections of
its current `evnt` call still ahead, and the serial number of that call. -/
structure Threads (θ ε : Type) where
  processor : BDXEventProcessor ε
  ahead : θ → List (Section ε)
  call : θ → Nat
  calls : Nat

/-- What a thread can do next. -/
inductive Step (θ ε ω : Type) where
  /-- An idle thread enters `evnt`. -/
  | evnt (t : θ) (input : EvntInput ε ω)
  /-- A thread goes through its next locked section. -/
  | locked (t : θ)

namespace Threads

variable [DecidableEq θ]

/-- The start: no thread is in `evnt`, and the trees have no rows. -/
def start : Threads θ ε where
  processor := .new
  ahead _ := []
  call _ := 0
  calls := 0

/-- A thread enters `evnt`: its sections are ahead, the call gets a number. -/
def enter (s : Threads θ ε) (t : θ) (sections : List (Section ε)) : Threads θ ε :=
  { s with
    ahead := Function.update s.ahead t sections
    call := Function.update s.call t s.calls
    calls := s.calls + 1 }

/-- A thread goes through the section `x` and has `rest` ahead. -/
def lock (s : Threads θ ε) (t : θ) (x : Section ε) (rest : List (Section ε)) : Threads θ ε :=
  { s with
    processor := s.processor.run (s.call t) x
    ahead := Function.update s.ahead t rest }

/-- A step of a schedule, which is possible for the threads that it says. -/
def exec (cfg : Config ε ω) (s : Threads θ ε) : Step θ ε ω → Option (Threads θ ε)
  | .evnt t input =>
      match s.ahead t with
      | [] => some (s.enter t (evnt cfg input).2)
      | _ => none
  | .locked t =>
      match s.ahead t with
      | [] => none
      | x :: rest => some (s.lock t x rest)

omit [DecidableEq θ] in
/-- The calls that the rows of `EventDST` were filled for, row by row. -/
def dstCalls (s : Threads θ ε) : List Nat := s.processor.m_eventDST.map Row.filledFor

/-- The calls that the rows of `EventHeader` were filled for, row by row. -/
def headerCalls (s : Threads θ ε) : List Nat := s.processor.m_eventHeader.map Row.filledFor

/-- The thread has filled the DST row of its event and not the header row. -/
def Between (s : Threads θ ε) (t : θ) : Prop := ∃ n d, s.ahead t = [.header n d]

/-- The two trees have equally many rows, and rows with the same index were
filled for the same event. -/
def RowsAligned (s : Threads θ ε) : Prop :=
  s.processor.m_eventDST.length = s.processor.m_eventHeader.length
    ∧ ∀ (i : Nat) (d : Row ε) (h : Row HeaderRow),
        s.processor.m_eventDST[i]? = some d → s.processor.m_eventHeader[i]? = some h →
          d.filledFor = h.filledFor

/-- The rows are aligned, unless some thread is between its sections. -/
def AlignedAtRest (s : Threads θ ε) : Prop := (∀ t, ¬ s.Between t) → s.RowsAligned

/-- A header section is entered by the thread whose DST row is the first one
that has no header row yet. -/
def HeaderInOrder (s : Threads θ ε) : Step θ ε ω → Prop
  | .evnt _ _ => True
  | .locked t => s.Between t → s.dstCalls[s.headerCalls.length]? = some (s.call t)

/-! ## §3. What a step does to the two lists of calls. -/

/-- The settings of a data run with DST building and an output. -/
def dstConfig (copyEpicsData : ω → ε → ε) : Config ε ω where
  m_isMC := false
  m_DObuildDST := true
  m_output := true
  copyEpicsData := copyEpicsData

/-- With these settings an event goes through both sections or through
none. -/
theorem evnt_sections (copyEpicsData : ω → ε → ε) (input : EvntInput ε ω) :
    (evnt (dstConfig copyEpicsData) input).2 = []
      ∨ ∃ e n d, (evnt (dstConfig copyEpicsData) input).2 = [.dst e, .header n d] := by
  rcases input with ⟨n, tData, eData, events⟩
  unfold evnt dstConfig
  rcases tData with _ | d
  · exact Or.inl rfl
  · rcases eData with _ | w
    · exact Or.inl rfl
    · by_cases hd : d.eventType ≠ .DAQ
      · left
        simp [hd]
      -- `events.size() != 1` is refused before both sections
      · rcases events with _ | ⟨e, _ | ⟨e', es⟩⟩
        · left
          simp [hd]
        · right
          exact ⟨copyEpicsData w e, n, d, by simp [hd]⟩
        · left
          simp [hd]

omit [DecidableEq θ] in
/-- The header rows were filled in the order of the DST rows, as far as they go. -/
def InOrder (s : Threads θ ε) : Prop := s.headerCalls = s.dstCalls.take s.headerCalls.length

/-- The invariant of every schedule; `between` lists the threads between
their two sections. -/
structure Inv (s : Threads θ ε) (between : List θ) : Prop where
  nodup : between.Nodup
  mem : ∀ t, t ∈ between ↔ s.Between t
  /-- A thread is idle, before its DST section, or between the two. -/
  shape : ∀ t, s.ahead t = [] ∨ (∃ e n d, s.ahead t = [.dst e, .header n d]) ∨ s.Between t
  count : s.dstCalls.length = s.headerCalls.length + between.length

omit [DecidableEq θ] in
/-- At the start no thread is between its sections. -/
theorem start_inv : (start : Threads θ ε).Inv [] where
  nodup := List.nodup_nil
  mem t := by simp [Between, start]
  shape t := Or.inl rfl
  count := rfl

/-- What a step can be: an entry, a DST section, a header section. -/
theorem exec_cases {copyEpicsData : ω → ε → ε} {s s' : Threads θ ε} {a : Step θ ε ω}
    {between : List θ} (hinv : s.Inv between)
    (h : s.exec (dstConfig copyEpicsData) a = some s') :
    (∃ t input sections, a = .evnt t input ∧ s.ahead t = [] ∧ s' = s.enter t sections
        ∧ (sections = [] ∨ ∃ e n d, sections = [.dst e, .header n d]))
      ∨ (∃ t e n d, a = .locked t ∧ s.ahead t = [.dst e, .header n d]
        ∧ s' = s.lock t (.dst e) [.header n d])
      ∨ ∃ t n d, a = .locked t ∧ s.ahead t = [.header n d] ∧ s' = s.lock t (.header n d) [] := by
  cases a with
  | evnt t input =>
      simp only [exec] at h
      split at h
      next hidle =>
        exact Or.inl ⟨t, input, _, rfl, hidle, (Option.some.inj h).symm,
          evnt_sections copyEpicsData input⟩
      next => cases h
  | locked t =>
      right
      rcases hinv.shape t with hidle | ⟨e, n, d, hdst⟩ | ⟨n, d, hhdr⟩
      · simp [exec, hidle] at h
      · left
        simp only [exec, hdst] at h
        exact ⟨t, e, n, d, rfl, hdst, (Option.some.inj h).symm⟩
      · right
        simp only [exec, hhdr] at h
        exact ⟨t, n, d, rfl, hhdr, (Option.some.inj h).symm⟩

/-- A DST section adds its call to those of `EventDST`. -/
theorem dstCalls_lock_dst (s : Threads θ ε) (t : θ) (e : ε) (rest : List (Section ε)) :
    (s.lock t (.dst e) rest).dstCalls = s.dstCalls ++ [s.call t] := by
  simp [dstCalls, lock, BDXEventProcessor.run]

/-- A DST section leaves the rows of `EventHeader`. -/
theorem headerCalls_lock_dst (s : Threads θ ε) (t : θ) (e : ε) (rest : List (Section ε)) :
    (s.lock t (.dst e) rest).headerCalls = s.headerCalls := by
  simp [headerCalls, lock, BDXEventProcessor.run]

/-- A header section leaves the rows of `EventDST`. -/
theorem dstCalls_lock_header (s : Threads θ ε) (t : θ) (n : UInt64) (d : EventData)
    (rest : List (Section ε)) : (s.lock t (.header n d) rest).dstCalls = s.dstCalls := by
  simp [dstCalls, lock, BDXEventProcessor.run]

/-- A header section adds its call to those of `EventHeader`. -/
theorem headerCalls_lock_header (s : Threads θ ε) (t : θ) (n : UInt64) (d : EventData)
    (rest : List (Section ε)) :
    (s.lock t (.header n d) rest).headerCalls = s.headerCalls ++ [s.call t] := by
  simp [headerCalls, lock, BDXEventProcessor.run]

/-- A change to what one thread has ahead leaves the others where they
are. -/
theorem between_update {s : Threads θ ε} (s' : Threads θ ε) {t u : θ}
    {sections : List (Section ε)} (hahead : s'.ahead = Function.update s.ahead t sections)
    (hne : u ≠ t) : s'.Between u ↔ s.Between u := by
  unfold Between
  rw [hahead, Function.update_of_ne hne]

/-- After a step of one thread every thread has still nothing ahead, both
sections, or the header section. -/
theorem shape_update {s : Threads θ ε} (s' : Threads θ ε) {between : List θ}
    (hinv : s.Inv between) {t : θ} {sections : List (Section ε)}
    (hahead : s'.ahead = Function.update s.ahead t sections)
    (hsec : sections = [] ∨ (∃ e n d, sections = [.dst e, .header n d])
      ∨ ∃ n d, sections = [.header n d]) (u : θ) :
    s'.ahead u = [] ∨ (∃ e n d, s'.ahead u = [.dst e, .header n d]) ∨ s'.Between u := by
  unfold Between
  rw [hahead]
  by_cases hu : u = t
  · subst hu
    rw [Function.update_self]
    exact hsec
  · rw [Function.update_of_ne hu]
    exact hinv.shape u

/-- Every step keeps the invariant, with the thread that fills a DST row put
behind the others, and the one that fills a header row taken out. -/
theorem exec_inv {copyEpicsData : ω → ε → ε} {s s' : Threads θ ε} {a : Step θ ε ω}
    {between : List θ} (hinv : s.Inv between)
    (h : s.exec (dstConfig copyEpicsData) a = some s') : ∃ between', s'.Inv between' := by
  rcases exec_cases hinv h with ⟨t, input, sections, -, hidle, rfl, hsec⟩
    | ⟨t, e, n, d, -, hdst, rfl⟩ | ⟨t, n, d, -, hhdr, rfl⟩
  · -- an entry: the thread is not between its sections, before or after
    refine ⟨between, hinv.nodup, fun u => ?_, fun u => ?_, hinv.count⟩
    · by_cases hu : u = t
      · subst hu
        have hbefore : ¬ s.Between u := by
          rintro ⟨n, d, hb⟩
          rw [hidle] at hb
          cases hb
        have hafter : ¬ (s.enter u sections).Between u := by
          rintro ⟨n, d, hb⟩
          have hs : sections = [.header n d] := by simpa [enter] using hb
          rcases hsec with h0 | ⟨e, n', d', h2⟩
          · rw [h0] at hs
            cases hs
          · rw [h2] at hs
            cases hs
        rw [hinv.mem]
        exact iff_of_false hbefore hafter
      · rw [hinv.mem, between_update (s.enter t sections) rfl hu]
    · refine shape_update (s.enter t sections) hinv rfl ?_ u
      rcases hsec with h0 | h2
      · exact Or.inl h0
      · exact Or.inr (Or.inl h2)
  · -- a DST section: the thread is now between
    have hnot : t ∉ between := by
      rw [hinv.mem]
      rintro ⟨n', d', hb⟩
      rw [hdst] at hb
      cases hb
    refine ⟨t :: between, List.nodup_cons.mpr ⟨hnot, hinv.nodup⟩, fun u => ?_, fun u => ?_, ?_⟩
    · by_cases hu : u = t
      · subst hu
        have hnow : (s.lock u (.dst e) [.header n d]).Between u := ⟨n, d, by simp [lock]⟩
        exact iff_of_true (by simp) hnow
      · rw [List.mem_cons, between_update (s.lock t (.dst e) [.header n d]) rfl hu,
          ← hinv.mem]
        simp [hu]
    · exact shape_update (s.lock t (.dst e) [.header n d]) hinv rfl
        (Or.inr (Or.inr ⟨n, d, rfl⟩)) u
    · rw [dstCalls_lock_dst, headerCalls_lock_dst, List.length_append, hinv.count]
      simp only [List.length_cons, List.length_nil]
      omega
  · -- a header section: the thread is idle again
    have hmem : t ∈ between := (hinv.mem t).mpr ⟨n, d, hhdr⟩
    refine ⟨between.erase t, hinv.nodup.erase t, fun u => ?_, fun u => ?_, ?_⟩
    · by_cases hu : u = t
      · subst hu
        have hnow : ¬ (s.lock u (.header n d) []).Between u := by
          rintro ⟨n', d', hb⟩
          simp [lock] at hb
        exact iff_of_false hinv.nodup.not_mem_erase hnow
      · rw [between_update (s.lock t (.header n d) []) rfl hu, ← hinv.mem,
          List.mem_erase_of_ne hu]
    · exact shape_update (s.lock t (.header n d) []) hinv rfl (Or.inl rfl) u
    · rw [dstCalls_lock_header, headerCalls_lock_header, hinv.count, List.length_append,
        List.length_erase_of_mem hmem]
      have hpos : 0 < between.length := List.length_pos_of_mem hmem
      simp only [List.length_cons, List.length_nil]
      omega

/-! ## §4. When a step keeps the order. -/

/-- A list that gains one element is still a prefix exactly when the element
is the next one. -/
theorem append_eq_take_iff {xs ys : List Nat} {x : Nat} (hlen : xs.length < ys.length) :
    xs ++ [x] = ys.take (xs ++ [x]).length ↔ xs = ys.take xs.length ∧ ys[xs.length]? = some x := by
  -- one more element of `ys` is taken, and it is the one at `xs.length`
  have hget : ys[xs.length]? = some ys[xs.length] := List.getElem?_eq_getElem hlen
  rw [List.length_append, List.length_singleton, List.take_add_one, hget]
  simp only [Option.toList_some, Option.some.injEq]
  constructor
  · intro h
    obtain ⟨h1, h2⟩ := List.append_inj' h rfl
    exact ⟨h1, (List.singleton_inj.mp h2).symm⟩
  · rintro ⟨h1, h2⟩
    rw [h2, ← h1]

/-- A step keeps the rows in order exactly when a header section is the one
that is due. -/
theorem exec_inOrder_iff {copyEpicsData : ω → ε → ε} {s s' : Threads θ ε} {a : Step θ ε ω}
    {between : List θ} (hinv : s.Inv between)
    (h : s.exec (dstConfig copyEpicsData) a = some s') :
    s'.InOrder ↔ s.InOrder ∧ s.HeaderInOrder a := by
  have hcount := hinv.count
  rcases exec_cases hinv h with ⟨t, input, sections, rfl, -, rfl, -⟩
    | ⟨t, e, n, d, rfl, hdst, rfl⟩ | ⟨t, n, d, rfl, hhdr, rfl⟩
  · exact ⟨fun ho => ⟨ho, trivial⟩, fun ho => ho.1⟩
  · -- the new DST row is behind every header row
    unfold InOrder
    rw [dstCalls_lock_dst, headerCalls_lock_dst, List.take_append_of_le_length (by omega)]
    refine ⟨fun ho => ⟨ho, fun hb => ?_⟩, fun ho => ho.1⟩
    obtain ⟨n', d', hb⟩ := hb
    rw [hdst] at hb
    cases hb
  · have hmem : t ∈ between := (hinv.mem t).mpr ⟨n, d, hhdr⟩
    have hpos : 0 < between.length := List.length_pos_of_mem hmem
    unfold InOrder
    rw [dstCalls_lock_header, headerCalls_lock_header, append_eq_take_iff (by omega)]
    refine and_congr_right (fun _ => ?_)
    exact ⟨fun hx _ => hx, fun hx => hx ⟨n, d, hhdr⟩⟩

omit [DecidableEq θ] in
/-- At rest the two lists are equally long, and in order means aligned. -/
theorem rowsAligned_iff_inOrder {s : Threads θ ε} {between : List θ} (hinv : s.Inv between)
    (hrest : ∀ t, ¬ s.Between t) : s.RowsAligned ↔ s.InOrder := by
  have hnil : between = [] := by
    rw [List.eq_nil_iff_forall_not_mem]
    intro t ht
    exact hrest t ((hinv.mem t).mp ht)
  have hlen : s.dstCalls.length = s.headerCalls.length := by
    rw [hinv.count, hnil]
    rfl
  unfold InOrder
  rw [← hlen, List.take_length]
  constructor
  · rintro ⟨-, hrow⟩
    refine List.ext_getElem? (fun i => ?_)
    by_cases hi : i < s.dstCalls.length
    · have hid : i < s.processor.m_eventDST.length := by simpa [dstCalls] using hi
      have hih : i < s.processor.m_eventHeader.length := by
        rw [hlen] at hi
        simpa [headerCalls] using hi
      -- a row of one list is a row of the other
      have := hrow i _ _ (List.getElem?_eq_getElem hid) (List.getElem?_eq_getElem hih)
      simp [dstCalls, headerCalls, hid, hih, this]
    · rw [List.getElem?_eq_none (by omega), List.getElem?_eq_none (by omega)]
  · intro heq
    refine ⟨by simpa [dstCalls, headerCalls] using hlen, fun i d h hd hh => ?_⟩
    have h1 : s.dstCalls[i]? = some d.filledFor := by simp [dstCalls, hd]
    have h2 : s.headerCalls[i]? = some h.filledFor := by simp [headerCalls, hh]
    rw [heq, h1] at h2
    exact Option.some.inj h2

/-! ## §5. Every schedule. -/

/-- **ROW ALIGNMENT OF THE OUTPUT TREES.**  In a schedule of any number of
threads whose header sections all come in the order of the DST sections, the
trees are aligned in every state in which no thread is between its sections.
Conversely, a schedule that comes to rest and keeps the trees aligned has
taken all its header sections in that order. -/
theorem rows_aligned_iff_in_order (copyEpicsData : ω → ε → ε) (schedule : List (Step θ ε ω)) :
    (StepsMeet (exec (dstConfig copyEpicsData)) HeaderInOrder start schedule →
        StatesMeet (exec (dstConfig copyEpicsData)) AlignedAtRest start schedule)
      ∧ ∀ last : Threads θ ε,
        execAll (exec (dstConfig copyEpicsData)) start schedule = some last →
        (∀ t, ¬ last.Between t) →
        StatesMeet (exec (dstConfig copyEpicsData)) AlignedAtRest start schedule →
        StepsMeet (exec (dstConfig copyEpicsData)) HeaderInOrder start schedule := by
  have hstart : ∃ between, (start : Threads θ ε).Inv between := ⟨[], start_inv⟩
  have horder : (start : Threads θ ε).InOrder := rfl
  have hinv : ∀ (s : Threads θ ε) (a : Step θ ε ω) (s' : Threads θ ε),
      (∃ between, s.Inv between) → s.exec (dstConfig copyEpicsData) a = some s' →
      ∃ between, s'.Inv between := by
    rintro s a s' ⟨between, hi⟩ h
    exact exec_inv hi h
  constructor
  · intro hsteps
    -- order is kept along the way; at rest it is alignment
    refine StatesMeet.imp ?_ (statesMeet_of_stepsMeet
      (P := fun s => (∃ between, s.Inv between) ∧ s.InOrder) ?_ ⟨hstart, horder⟩ hsteps)
    · rintro s ⟨⟨between, hi⟩, ho⟩ hrest
      exact (rowsAligned_iff_inOrder hi hrest).mpr ho
    · rintro s a s' ⟨⟨between, hi⟩, ho⟩ hg h
      exact ⟨exec_inv hi h, (exec_inOrder_iff hi h).mpr ⟨ho, hg⟩⟩
  · intro last hlast hrest hmeet
    -- alignment at the end is order at the end, hence order all the way
    obtain ⟨between, hi⟩ := (statesMeet_of_step hinv hstart).last hlast
    have hend : last.InOrder := (rowsAligned_iff_inOrder hi hrest).mp (hmeet.last hlast hrest)
    have hall := statesMeet_of_last hinv
      (fun s a s' hs h ho => by
        obtain ⟨b, hb⟩ := hs
        exact ((exec_inOrder_iff hb h).mp ho).1) hstart hlast hend
    refine (statesMeet_iff_stepsMeet hinv (fun s a s' hs ho h => ?_) hstart horder).mp hall
    obtain ⟨b, hb⟩ := hs
    rw [exec_inOrder_iff hb h]
    exact and_iff_right ho

/-- A DAQ event of run 7, with its number. -/
def daqEvent (n : UInt64) : EvntInput Nat Unit where
  eventnumber := n
  tData := some ⟨n, 0, 0, 7, 100, [], .DAQ⟩
  eData := some ()
  events := [n.toNat]

/-- Two threads, one after the other, in a schedule in order. -/
theorem two_threads_in_order_aligned :
    StatesMeet (exec (dstConfig (fun _ e => e))) AlignedAtRest (start : Threads (Fin 2) Nat)
      [.evnt 0 (daqEvent 1), .evnt 1 (daqEvent 2), .locked 0, .locked 1, .locked 0, .locked 1] := by
  refine (rows_aligned_iff_in_order (fun _ e => e) _).1 ?_
  intro s₁ h₁
  injection h₁ with h₁
  subst h₁
  refine ⟨trivial, fun s₂ h₂ => ?_⟩
  injection h₂ with h₂
  subst h₂
  refine ⟨trivial, fun s₃ h₃ => ⟨?_, ?_⟩⟩
  · rintro ⟨n, d, hb⟩
    cases hb
  · injection h₃ with h₃
    subst h₃
    refine fun s₄ h₄ => ⟨?_, ?_⟩
    · rintro ⟨n, d, hb⟩
      cases hb
    · injection h₄ with h₄
      subst h₄
      refine fun s₅ h₅ => ⟨fun _ => rfl, ?_⟩
      injection h₅ with h₅
      subst h₅
      exact fun s₆ h₆ => ⟨fun _ => rfl, trivial⟩

/-- Thread 1 overtakes thread 0 between the two sections of its event: both
trees end with two rows, in opposite order. -/
theorem overtaken_thread_swaps_rows :
    ¬ StatesMeet (exec (dstConfig (fun _ e => e))) AlignedAtRest (start : Threads (Fin 2) Nat)
      [.evnt 0 (daqEvent 1), .evnt 1 (daqEvent 2), .locked 0, .locked 1, .locked 1,
        .locked 0] := by
  intro h
  have hlast := StatesMeet.last h rfl
  have hrest := hlast (fun t => by
    rintro ⟨n, d, hb⟩
    match t with
    | 0 => cases hb
    | 1 => cases hb)
  have hrow := hrest.2 0 _ _ rfl rfl
  revert hrow
  decide

end Threads

end PokerReco.System
