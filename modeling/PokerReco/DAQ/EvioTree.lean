/-
  PokerReco.DAQ.EvioTree
  ──────────────────────
  **THE OTHER WALKS OVER AN EVIO EVENT** (`DAQ/JEventSourceEVIODAQ.cc`).

  `GetEvent` goes through all nodes for the run number and the event number,
  `GetObjects` through the banks of the crates and of the slow control for the
  `eventData`, and through the latter for the strings of the slow control.
  Each walk has its own idea of what a node holds:

      prestart      word 1, not tested
      header        words 1, 2 and 4 in `GetEvent`, not tested; all 5 words in
                    `GetObjects`, tested
      trigger       the third trigger word, when the bank has two words

  Every access is an `Option`, `none` when the word or the child list does not
  exist.
-/
import PokerReco.DAQ.EventData
import PokerReco.DAQ.JEventSourceEvioDAQ
import PokerReco.Library.PartialFold

namespace PokerReco.DAQ

open PokerReco.EvioReader PokerReco.JANA PokerReco.Library

/-! ## §1. The source. -/

/-- The strings of the node, seen as a leaf of strings. -/
def Node.stringData : Node → Option (List String)
  | .strings _ data => some data
  | .container _ _ => none
  | .words _ _ => none

/-- The tags and settings of all walks. -/
structure EvioTreeSource extends JEventSourceEvioDAQ where
  epics_mother_tag : Int
  child_trigger_tag : Int
  child_epics_tag : Int
  eventHeader_tag : Int
  prestart_tag : Int
  end_tag : Int
  overwriteRunNumber : Int32
  eventTypeEPICS : Int
  deriving DecidableEq, Repr

/-- The constructor, before the parameters. -/
def EvioTreeSource.default : EvioTreeSource where
  toJEventSourceEvioDAQ := .default
  epics_mother_tag := 0x81
  child_trigger_tag := 0xe118
  child_epics_tag := 0xe114
  eventHeader_tag := 0xe10F
  prestart_tag := 0x11
  end_tag := 0x14
  overwriteRunNumber := -1
  eventTypeEPICS := 31

/-! ## §2. `GetEvent`. -/

/-- `JEvent`, the members that `GetEvent` sets. -/
structure EvioTreeSource.JEvent where
  sequential : Bool
  run_number : Int32
  event_number : UInt64
  deriving DecidableEq, Repr

/-- The members and the event that `GetEvent` works on. -/
structure Reading where
  curRunNumber : Int32
  curEventType : Int
  event : EvioTreeSource.JEvent
  deriving DecidableEq, Repr

namespace EvioTreeSource

/-- The first node defines the event: its tag is the type of the event, and an
event of the slow control is sequential. -/
def startReading (s : EvioTreeSource) (r : Reading) (first : Node) : Reading :=
  let r := { r with curEventType := first.tag }
  if r.curEventType = s.eventTypeEPICS then
    { r with event := { r.event with sequential := true } }
  else r

/-- A prestart node gives the run number, which is read from its second word. -/
def readPrestart (r : Reading) (node : Node) : Option Reading := do
  let pData ← node.data
  let run ← pData[1]?
  return { r with curRunNumber := run.toInt32 }

/-- A header node gives the number, the run and the type of the event, for which
five words are read. -/
def readHeader (r : Reading) (node : Node) : Option Reading := do
  let pData ← node.data
  let number ← pData[2]?
  let run ← pData[1]?
  let type ← pData[4]?
  return { r with
    curRunNumber := run.toInt32
    curEventType := type.toInt32.toInt
    event := { r.event with event_number := number.toUInt64 } }

/-- The body of the loop over all nodes: what is taken from a node depends
on its tag. -/
def readNode (s : EvioTreeSource) (r : Reading) (node : Node) : Option Reading :=
  (if node.tag = s.prestart_tag ∧ s.overwriteRunNumber = -1 then readPrestart r node
    else some r).bind fun r =>
      if node.tag = s.eventHeader_tag then readHeader r node else some r

/-- What `GetEvent` does after the loop over the nodes: the event gets the run
number that was read, or the one that the user set. -/
def finishReading (s : EvioTreeSource) (r : Reading) : Reading :=
  if s.overwriteRunNumber ≠ -1 then
    { r with event := { r.event with run_number := s.overwriteRunNumber } }
  else { r with event := { r.event with run_number := r.curRunNumber } }

/-- `GetEvent` on the nodes of an event from a file: the first node is asked for
before it is known that there is one. -/
def GetEventFile (s : EvioTreeSource) (r : Reading) (fullList : List Node) :
    Option (JError × Reading) :=
  match fullList with
  | [] => none
  | first :: _ =>
      (fullList.foldlM s.readNode (s.startReading r first)).map fun r =>
        (.NOERROR, s.finishReading r)

/-- The loop of the ET branch: a node with the end tag ends the source. -/
def readNodesET (s : EvioTreeSource) : Reading → List Node → Option (JError × Reading)
  | r, [] => some (.NOERROR, s.finishReading r)
  | r, node :: rest =>
      if node.tag = s.end_tag then some (.NO_MORE_EVENTS_IN_SOURCE, r)
      else (s.readNode r node).bind fun r => s.readNodesET r rest

/-- `GetEvent` on the nodes of an event from the network, where the loop may
end early. -/
def GetEventET (s : EvioTreeSource) (r : Reading) (fullList : List Node) :
    Option (JError × Reading) :=
  match fullList with
  | [] => none
  | first :: _ => s.readNodesET (s.startReading r first) fullList

/-! ## §3. `GetObjects` for `eventData` and `epicsRawData`. -/

/-- `new eventData()`: the constructor leaves `spillN` as it is in memory. -/
def newEventData (spillN : UInt64) : EventData where
  eventN := 0
  eventTS := 0
  spillN := spillN
  runN := 0
  time := 0
  triggerWords := []
  eventType := .unset

/-- A trigger bank is put behind the trigger words, and when it has two words or
more the third trigger word becomes `spillN`. -/
def onTrigger (d : EventData) (pData : List UInt32) : Option EventData :=
  if pData.length > 0 then
    let d := { d with triggerWords := d.triggerWords ++ pData }
    if pData.length ≥ 2 then do
      let third ← d.triggerWords[2]?
      return { d with spillN := third.toUInt64 }
    else some d
  else some d

/-- A header bank gives the number, the run and the time of the event; there is
only a message when it has not 5 words. -/
def onHead (d : EventData) (pData : List UInt32) : Option EventData :=
  if pData.length ≠ 5 then some d
  else do
    let number ← pData[2]?
    let run ← pData[1]?
    let time ← pData[3]?
    return { d with eventN := number.toUInt64, runN := run, time := time.toUInt64 }

/-- The body of the loop over the children of a node, which goes by the tag of
the child. -/
def onBranch (s : EvioTreeSource) (d : EventData) (branch : Node) : Option EventData :=
  if branch.tag = s.child_trigger_tag then branch.data.bind (onTrigger d)
  else if branch.tag = s.eventHeader_tag then branch.data.bind (onHead d)
  else some d

/-- The tag of a bank whose children are looked at. -/
def IsMother (s : EvioTreeSource) (node : Node) : Prop :=
  node.tag = s.vme_mother_tag ∨ node.tag = s.epics_mother_tag

instance (s : EvioTreeSource) (node : Node) : Decidable (s.IsMother node) :=
  inferInstanceAs (Decidable (_ ∨ _))

/-- `eventType` after a bank: the tag of the slow control wins over that
of the data. -/
def motherType (s : EvioTreeSource) (type : EventSource) (node : Node) : EventSource :=
  let type := if node.tag = s.vme_mother_tag then .DAQ else type
  if node.tag = s.epics_mother_tag then .EPICS else type

/-- The body of the loop over all nodes: the children of a node that is not one of
the banks are not looked at. -/
def onNode (s : EvioTreeSource) (d : EventData) (node : Node) : Option EventData :=
  if s.IsMother node then
    node.getChildList.bind fun leafList =>
      leafList.foldlM s.onBranch { d with eventType := s.motherType d.eventType node }
  else some d

/-- `GetObjects` for `eventData`; `spillN` is what the new object's memory
holds. -/
def GetObjectsEventData (s : EvioTreeSource) (spillN : UInt64) (fullList : List Node) :
    Option (JError × List EventData) :=
  (fullList.foldlM s.onNode (newEventData spillN)).map fun this_eventData =>
    (.NOERROR,
      -- only copy this further for VME or EPICS
      if this_eventData.eventType = .DAQ ∨ this_eventData.eventType = .EPICS
      then [this_eventData] else [])

/-- The loop over the children of the slow control, which puts the strings of each
behind those of the others. -/
def onEpicsBranch (s : EvioTreeSource) (epicsData : List String) (branch : Node) :
    Option (List String) :=
  if branch.tag = s.child_epics_tag then branch.stringData.map fun data => epicsData ++ data
  else some epicsData

/-- The body of the loop over all nodes, when the strings of the slow control are
collected. -/
def onEpicsNode (s : EvioTreeSource) (epicsData : List String) (node : Node) :
    Option (List String) :=
  if node.tag = s.epics_mother_tag then
    node.getChildList.bind fun leafList => leafList.foldlM s.onEpicsBranch epicsData
  else some epicsData

/-- `GetObjects` for `epicsRawData`, whose one member is the string. -/
def GetObjectsEpics (s : EvioTreeSource) (fullList : List Node) :
    Option (JError × List String) :=
  (fullList.foldlM s.onEpicsNode []).map fun epicsData => (.NOERROR, epicsData)

end EvioTreeSource

/-! ## §4. Which nodes a walk stops at. -/

/-- The node is a leaf of at least `n` words, so that the words up to `n`
can be read. -/
def Node.HoldsWords (n : Nat) (node : Node) : Prop :=
  ∃ pData, node.data = some pData ∧ n ≤ pData.length

/-- The words of a node are there exactly when it is a leaf of words. -/
theorem Node.data_ne_none_iff (node : Node) : node.data ≠ none ↔ node.HoldsWords 0 := by
  constructor
  · intro h
    obtain ⟨pData, hdata⟩ := Option.ne_none_iff_exists'.mp h
    exact ⟨pData, hdata, Nat.zero_le _⟩
  · rintro ⟨pData, hdata, -⟩ hnone
    rw [hdata] at hnone
    cases hnone

namespace EvioTreeSource

/-- A prestart node is read without leaving its words exactly when it has
two of them. -/
theorem readPrestart_isSome (r : Reading) (node : Node) :
    (readPrestart r node).isSome = true ↔ node.HoldsWords 2 := by
  cases hdata : node.data with
  | none => simp [readPrestart, Node.HoldsWords, hdata]
  | some pData =>
      simp only [readPrestart, Node.HoldsWords, hdata, Option.some.injEq, exists_eq_left',
        Option.bind_eq_bind, Option.bind_some]
      by_cases hlen : 2 ≤ pData.length
      · rw [List.getElem?_eq_getElem (show 1 < pData.length from hlen)]
        exact iff_of_true rfl hlen
      · rw [List.getElem?_eq_none (show pData.length ≤ 1 by omega)]
        exact iff_of_false Bool.false_ne_true hlen

/-- A header node is read without leaving its words exactly when it has
five of them. -/
theorem readHeader_isSome (r : Reading) (node : Node) :
    (readHeader r node).isSome = true ↔ node.HoldsWords 5 := by
  cases hdata : node.data with
  | none => simp [readHeader, Node.HoldsWords, hdata]
  | some pData =>
      simp only [readHeader, Node.HoldsWords, hdata, Option.some.injEq, exists_eq_left',
        Option.bind_eq_bind, Option.bind_some]
      by_cases hlen : 5 ≤ pData.length
      · rw [List.getElem?_eq_getElem (show 2 < pData.length by omega),
          List.getElem?_eq_getElem (show 1 < pData.length by omega),
          List.getElem?_eq_getElem (show 4 < pData.length by omega)]
        exact iff_of_true rfl hlen
      -- the last of the three words is the one that is missing
      · rw [List.getElem?_eq_none (show pData.length ≤ 4 by omega)]
        refine iff_of_false ?_ hlen
        cases pData[2]? <;> cases pData[1]? <;> exact Bool.false_ne_true

/-- The nodes that `GetEvent` can read without leaving their words: prestart and
header nodes have the words that it takes. -/
def Readable (s : EvioTreeSource) (node : Node) : Prop :=
  (node.tag = s.prestart_tag → s.overwriteRunNumber = -1 → node.HoldsWords 2)
    ∧ (node.tag = s.eventHeader_tag → node.HoldsWords 5)

/-- The body of the loop can be run on a node exactly when the node is readable. -/
theorem readNode_isSome (s : EvioTreeSource) (r : Reading) (node : Node) :
    (s.readNode r node).isSome = true ↔ s.Readable node := by
  have hheader : ∀ r : Reading,
      (if node.tag = s.eventHeader_tag then readHeader r node else some r).isSome = true
        ↔ (node.tag = s.eventHeader_tag → node.HoldsWords 5) := by
    intro r
    rw [ite_isSome_iff, readHeader_isSome]
  have hprestart : (if node.tag = s.prestart_tag ∧ s.overwriteRunNumber = -1 then
        readPrestart r node else some r).isSome = true
      ↔ (node.tag = s.prestart_tag → s.overwriteRunNumber = -1 → node.HoldsWords 2) := by
    rw [ite_isSome_iff, readPrestart_isSome, and_imp]
  rw [Readable, ← hprestart, readNode]
  cases (if node.tag = s.prestart_tag ∧ s.overwriteRunNumber = -1 then readPrestart r node
      else some r) with
  | none => exact ⟨fun h => absurd h Bool.false_ne_true, fun h => h.1⟩
  | some r' => exact (hheader r').trans ⟨fun h => ⟨rfl, h⟩, fun h => h.2⟩

/-- **`GetEvent` on a file** needs every node to be readable, and a node. -/
theorem GetEventFile_isSome (s : EvioTreeSource) (r : Reading) {fullList : List Node}
    (hne : fullList ≠ []) :
    (s.GetEventFile r fullList).isSome = true ↔ ∀ node ∈ fullList, s.Readable node := by
  cases fullList with
  | nil => exact absurd rfl hne
  | cons first rest =>
      simp only [GetEventFile, Option.isSome_map]
      exact foldlM_isSome_iff s.readNode_isSome _ _

/-- **`GetEvent` on the network** needs less than on a file: nothing has to be
readable behind an end node. -/
theorem GetEventET_isSome (s : EvioTreeSource) (r : Reading) {fullList : List Node}
    (hne : fullList ≠ []) (hread : ∀ node ∈ fullList, s.Readable node) :
    (s.GetEventET r fullList).isSome = true := by
  have hwalk : ∀ (l : List Node) (r : Reading), (∀ node ∈ l, s.Readable node) →
      (s.readNodesET r l).isSome = true := by
    intro l
    induction l with
    | nil => exact fun r _ => rfl
    | cons node rest ih =>
        intro r hl
        rw [readNodesET]
        split
        · rfl
        · obtain ⟨r', hr'⟩ := Option.isSome_iff_exists.mp
            ((s.readNode_isSome r node).mpr (hl node List.mem_cons_self))
          rw [hr']
          exact ih r' fun node hmem => hl node (List.mem_cons_of_mem _ hmem)
  cases fullList with
  | nil => exact absurd rfl hne
  | cons first rest => exact hwalk _ _ hread

end EvioTreeSource

/-! ### The loops over the children. -/

/-- A loop over the children of a node can be run exactly when the node has
children and its body can be run on each. -/
theorem children_isSome {σ : Type} {step : σ → Node → Option σ} {ok : Node → Prop}
    (hstep : ∀ s branch, (step s branch).isSome = true ↔ ok branch) (s : σ) (node : Node) :
    (node.getChildList.bind fun leafList => leafList.foldlM step s).isSome = true
      ↔ node.getChildList ≠ none ∧ ∀ branch ∈ node.getChildList.getD [], ok branch := by
  cases node.getChildList with
  | none => exact ⟨fun h => absurd h Bool.false_ne_true, fun h => absurd rfl h.1⟩
  | some leafList =>
      refine (foldlM_isSome_iff hstep leafList s).trans ⟨fun h => ⟨Option.some_ne_none _, h⟩, ?_⟩
      exact fun h => h.2

namespace Walk

variable {H : Type} {vme_mother_tag child_tag : Int} {onBank : Walk H → List UInt32 → Walk H}

/-- The loop over the children in the walk of a decoder, written as a fold. -/
theorem overBranches_eq_foldlM (w : Walk H) (branches : List Node) :
    overBranches child_tag onBank w branches
      = branches.foldlM (fun w branch => if branch.tag = child_tag then branch.data.map (onBank w)
          else some w) w := by
  induction branches generalizing w with
  | nil => rfl
  | cons branch rest ih =>
      rw [List.foldlM_cons, overBranches]
      split
      · cases branch.data with
        | none => rfl
        | some pData => exact ih (onBank w pData)
      · exact ih w

/-- The loop over the nodes in the walk of a decoder, written as a fold. -/
theorem overNodes_eq_foldlM (w : Walk H) (nodes : List Node) :
    overNodes vme_mother_tag child_tag onBank w nodes
      = nodes.foldlM (fun w node => if node.tag = vme_mother_tag then
          node.getChildList.bind fun leafList => overBranches child_tag onBank w leafList
          else some w) w := by
  induction nodes generalizing w with
  | nil => rfl
  | cons node rest ih =>
      rw [List.foldlM_cons, overNodes]
      split
      · cases node.getChildList with
        | none => rfl
        | some leafList =>
            dsimp only
            cases hbranches : overBranches child_tag onBank w leafList with
            | none => simp only [Option.bind_some, hbranches]; rfl
            | some w' => simp only [Option.bind_some, hbranches]; exact ih w'
      · exact ih w

/-- **The walk over the crates** needs children in each, and words in each of
their banks that is decoded. -/
theorem overNodes_isSome (w : Walk H) (nodes : List Node) :
    (overNodes vme_mother_tag child_tag onBank w nodes).isSome = true
      ↔ ∀ node ∈ nodes, node.tag = vme_mother_tag → node.getChildList ≠ none
          ∧ ∀ branch ∈ node.getChildList.getD [], branch.tag = child_tag →
            branch.HoldsWords 0 := by
  rw [overNodes_eq_foldlM]
  refine foldlM_isSome_iff (fun w node => ?_) nodes w
  rw [ite_isSome_iff]
  refine imp_congr_right fun _ => ?_
  simp only [overBranches_eq_foldlM]
  refine children_isSome (fun w branch => ?_) w node
  rw [ite_isSome_iff, Option.isSome_map, Option.isSome_iff_ne_none, Node.data_ne_none_iff]

end Walk

namespace EvioTreeSource

/-- The strings of an event can be collected exactly when the nodes of the slow
control have children that are leaves of strings. -/
theorem GetObjectsEpics_isSome (s : EvioTreeSource) (fullList : List Node) :
    (s.GetObjectsEpics fullList).isSome = true
      ↔ ∀ node ∈ fullList, node.tag = s.epics_mother_tag → node.getChildList ≠ none
          ∧ ∀ branch ∈ node.getChildList.getD [], branch.tag = s.child_epics_tag →
            branch.stringData ≠ none := by
  rw [GetObjectsEpics, Option.isSome_map]
  refine foldlM_isSome_iff (fun data node => ?_) fullList []
  rw [onEpicsNode, ite_isSome_iff]
  refine imp_congr_right fun _ => children_isSome (fun data branch => ?_) data node
  rw [onEpicsBranch, ite_isSome_iff, Option.isSome_map, Option.isSome_iff_ne_none]

/-! ## §5. The event data. -/

/-- The children of the banks that the event data is made from, in the order in
which they are looked at. -/
def branches (s : EvioTreeSource) (fullList : List Node) : List Node :=
  fullList.flatMap fun node => if s.IsMother node then node.getChildList.getD [] else []

/-- The words of a trigger leaf, and none of any other node. -/
def triggerLeaf (s : EvioTreeSource) (branch : Node) : Option (List UInt32) :=
  if branch.tag = s.child_trigger_tag then branch.data else none

/-- The words of the trigger leaves, leaf by leaf. -/
def triggerLeaves (s : EvioTreeSource) (fullList : List Node) : List (List UInt32) :=
  (s.branches fullList).filterMap s.triggerLeaf

/-- What a trigger leaf does to the trigger words and to `spillN`, apart from the
rest of the event data. -/
def spillStep (state : List UInt32 × UInt64) (pData : List UInt32) :
    Option (List UInt32 × UInt64) :=
  if pData.length > 0 then
    let triggerWords := state.1 ++ pData
    if pData.length ≥ 2 then
      triggerWords[2]?.map fun third => (triggerWords, third.toUInt64)
    else some (triggerWords, state.2)
  else some state

/-- The part of the event data that the trigger leaves make. -/
def triggerPart (d : EventData) : List UInt32 × UInt64 := (d.triggerWords, d.spillN)

/-- A trigger bank does to the trigger part what `spillStep` says. -/
theorem onTrigger_part (d : EventData) (pData : List UInt32) :
    (onTrigger d pData).map triggerPart = spillStep (triggerPart d) pData := by
  simp only [onTrigger, spillStep, triggerPart]
  split
  · split
    · cases (d.triggerWords ++ pData)[2]? <;> rfl
    · rfl
  · rfl

/-- A header bank of any length leaves the trigger part as it is. -/
theorem onHead_part (d : EventData) (pData : List UInt32) :
    (onHead d pData).map triggerPart = some (triggerPart d) := by
  rw [onHead]
  split
  · rfl
  · next hlen =>
    have hlen : pData.length = 5 := not_not.mp hlen
    rw [List.getElem?_eq_getElem (show 2 < pData.length by omega),
      List.getElem?_eq_getElem (show 1 < pData.length by omega),
      List.getElem?_eq_getElem (show 3 < pData.length by omega)]
    rfl

/-- A trigger or header bank is a leaf of words; of the other children
nothing is asked. -/
def HasWords (s : EvioTreeSource) (branch : Node) : Prop :=
  branch.tag = s.child_trigger_tag ∨ branch.tag = s.eventHeader_tag → branch.HoldsWords 0

/-- A child does to the trigger part what its trigger words do, and nothing when
it has none. -/
theorem onBranch_part (s : EvioTreeSource) (d : EventData) {branch : Node}
    (hwords : s.HasWords branch) :
    (s.onBranch d branch).map triggerPart
      = (s.triggerLeaf branch).elim (some (triggerPart d)) (spillStep (triggerPart d)) := by
  rw [onBranch, triggerLeaf]
  by_cases htrigger : branch.tag = s.child_trigger_tag
  · obtain ⟨pData, hdata, -⟩ := hwords (Or.inl htrigger)
    simp only [if_pos htrigger, hdata, Option.bind_some, Option.elim_some, onTrigger_part]
  · simp only [if_neg htrigger, Option.elim_none]
    split
    · next hheader =>
      obtain ⟨pData, hdata, -⟩ := hwords (Or.inr hheader)
      rw [hdata, Option.bind_some, onHead_part]
    · rfl

/-- The banks are containers, and what is read of them are words. -/
structure BanksFit (s : EvioTreeSource) (fullList : List Node) : Prop where
  mothers : ∀ node ∈ fullList, s.IsMother node → node.getChildList ≠ none
  words : ∀ branch ∈ s.branches fullList, s.HasWords branch

/-- **The trigger part is made by the trigger leaves alone**, one after the
other. -/
theorem onNode_part {s : EvioTreeSource} {fullList : List Node} (hfit : s.BanksFit fullList)
    (d : EventData) :
    (fullList.foldlM s.onNode d).map triggerPart
      = (s.triggerLeaves fullList).foldlM spillStep (triggerPart d) := by
  rw [triggerLeaves, List.foldlM_filterMap, branches, foldlM_flatMap]
  refine foldlM_map (fun d node hmem => ?_) d
  rw [onNode]
  by_cases hmother : s.IsMother node
  · obtain ⟨leafList, hchildren⟩ := Option.ne_none_iff_exists'.mp (hfit.mothers node hmem hmother)
    have hbranches : ∀ branch ∈ leafList, s.HasWords branch := by
      intro branch hbranch
      refine hfit.words branch (List.mem_flatMap.mpr ⟨node, hmem, ?_⟩)
      rw [if_pos hmother, hchildren]
      exact hbranch
    rw [if_pos hmother, if_pos hmother, hchildren]
    refine foldlM_map (fun d branch hbranch => ?_) _
    rw [onBranch_part s d (hbranches branch hbranch)]
    cases s.triggerLeaf branch <;> rfl
  · rw [if_neg hmother, if_neg hmother]
    rfl

/-- Where the event data can be made the banks fit, since whatever does not fit is
dereferenced. -/
theorem banksFit_of_isSome {s : EvioTreeSource} {fullList : List Node} {d : EventData}
    (h : (fullList.foldlM s.onNode d).isSome = true) : s.BanksFit fullList := by
  have hnode : ∀ node ∈ fullList, ¬ ∀ d, s.onNode d node = none := by
    intro node hmem hnone
    rw [foldlM_eq_none hmem hnone] at h
    cases h
  constructor
  · intro node hmem hmother hleaf
    refine hnode node hmem fun d => ?_
    rw [onNode, if_pos hmother, hleaf]
    rfl
  · intro branch hbranch htag
    rw [← Node.data_ne_none_iff]
    intro hdata
    obtain ⟨node, hmem, hin⟩ := List.mem_flatMap.mp hbranch
    have hmother : s.IsMother node := by
      by_contra hmother
      rw [if_neg hmother] at hin
      cases hin
    rw [if_pos hmother] at hin
    refine hnode node hmem fun d => ?_
    rw [onNode, if_pos hmother]
    cases hchildren : node.getChildList with
    | none => rfl
    | some leafList =>
        rw [hchildren] at hin
        refine foldlM_eq_none hin (fun d => ?_) _
        rw [onBranch, hdata]
        obtain htrigger | hheader := htag
        · rw [if_pos htrigger]
          rfl
        · rw [if_pos hheader]
          split <;> rfl

/-! ### `spillN`. -/

/-- The first leaf that adds words does not add two of them: then the third
word is not there yet. -/
def FirstNotTwo (leaves : List (List UInt32)) : Prop :=
  ∀ pData, leaves.find? (fun pData => 0 < pData.length) = some pData → pData.length ≠ 2

/-- `spillN` after the leaves: the third of all trigger words when there is one,
or else what it was. -/
def spillOf (leaves : List (List UInt32)) (triggerWords : List UInt32) (spillN : UInt64) :
    UInt64 :=
  if leaves.any fun pData => 2 ≤ pData.length then
    triggerWords[2]?.elim spillN UInt32.toUInt64
  else spillN

/-- **The words are all there, and `spillN` is the third** when a leaf of two
words or more has set it. -/
theorem foldlM_spillStep (leaves : List (List UInt32)) (words : List UInt32) (spillN : UInt64)
    (hfirst : words = [] → FirstNotTwo leaves) :
    leaves.foldlM spillStep (words, spillN)
      = some (words ++ leaves.flatten, spillOf leaves (words ++ leaves.flatten) spillN) := by
  induction leaves generalizing words spillN with
  | nil => simp [spillOf]
  | cons pData leaves ih =>
      rw [List.foldlM_cons, List.flatten_cons, ← List.append_assoc]
      by_cases hempty : pData = []
      · subst hempty
        have hrest : words = [] → FirstNotTwo leaves := fun h => hfirst h
        rw [List.append_nil]
        exact ih words spillN hrest
      have hpos : 0 < pData.length := List.length_pos_iff.mpr hempty
      have hne : words ++ pData ≠ [] := List.append_ne_nil_of_right_ne_nil words hempty
      have hrest : words ++ pData = [] → FirstNotTwo leaves := fun h => absurd h hne
      by_cases htwo : 2 ≤ pData.length
      -- three words are there, of which the later leaves change none
      · have hlen : 2 < (words ++ pData).length := by
          rw [List.length_append]
          by_cases hwords : words = []
          · have := hfirst hwords pData (List.find?_cons_of_pos (by exact decide_eq_true hpos))
            omega
          · have := List.length_pos_iff.mpr hwords
            omega
        have hstep : spillStep (words, spillN) pData
            = some (words ++ pData, (words ++ pData)[2].toUInt64) := by
          simp only [spillStep, gt_iff_lt, ge_iff_le, if_pos hpos, if_pos htwo,
            List.getElem?_eq_getElem hlen, Option.map_some]
        rw [hstep, Option.bind_eq_bind, Option.bind_some, ih _ _ hrest]
        have hthird : (words ++ pData ++ leaves.flatten)[2]? = some (words ++ pData)[2] := by
          rw [List.getElem?_append_left hlen, List.getElem?_eq_getElem hlen]
        simp only [spillOf, hthird, Option.elim_some, List.any_cons, htwo, decide_true,
          Bool.true_or, if_true, ite_self]
      · have hstep : spillStep (words, spillN) pData = some (words ++ pData, spillN) := by
          simp only [spillStep, gt_iff_lt, ge_iff_le, if_pos hpos, if_neg htwo]
        rw [hstep, Option.bind_eq_bind, Option.bind_some, ih _ _ hrest]
        simp only [spillOf, List.any_cons, htwo, decide_false, Bool.false_or]

/-- A third word that is not there is read when the first leaf with words has
two of them. -/
theorem foldlM_spillStep_none {leaves : List (List UInt32)} {spillN : UInt64}
    (hfirst : ¬ FirstNotTwo leaves) : leaves.foldlM spillStep ([], spillN) = none := by
  induction leaves with
  | nil => exact absurd (fun pData h => by cases h) hfirst
  | cons pData leaves ih =>
      rw [List.foldlM_cons]
      by_cases hempty : pData = []
      · subst hempty
        exact ih hfirst
      have hpos : 0 < pData.length := List.length_pos_iff.mpr hempty
      have htwo : pData.length = 2 := by
        by_contra hne
        refine hfirst fun other hother => ?_
        rw [List.find?_cons_of_pos (by exact decide_eq_true hpos)] at hother
        obtain rfl : pData = other := Option.some.inj hother
        exact hne
      have hstep : spillStep ([], spillN) pData = none := by
        simp only [spillStep, htwo, List.nil_append,
          List.getElem?_eq_none (show pData.length ≤ 2 by omega)]
        rfl
      rw [hstep]
      rfl

/-! ### The published object. -/

/-- A type of event whose data are copied further by `GetObjects`. -/
def Copied (type : EventSource) : Prop := type = .DAQ ∨ type = .EPICS

/-- After a bank the type of the event is one that is copied further. -/
theorem motherType_copied (s : EvioTreeSource) (type : EventSource) {node : Node}
    (hmother : s.IsMother node) : Copied (s.motherType type node) := by
  simp only [motherType]
  split
  · exact Or.inr rfl
  · next hepics =>
    rw [if_pos (hmother.resolve_right hepics)]
    exact Or.inl rfl

/-- The children of a bank do not change the type of the event. -/
theorem onBranch_type (s : EvioTreeSource) (d : EventData) (branch : Node) (d' : EventData)
    (h : s.onBranch d branch = some d') : d'.eventType = d.eventType := by
  rw [onBranch] at h
  split at h
  · obtain ⟨pData, -, h⟩ := Option.bind_eq_some_iff.mp h
    simp only [onTrigger] at h
    split at h
    · split at h
      · obtain ⟨third, -, h⟩ := Option.bind_eq_some_iff.mp h
        obtain rfl := Option.some.inj h
        rfl
      · obtain rfl := Option.some.inj h
        rfl
    · obtain rfl := Option.some.inj h
      rfl
  · split at h
    · obtain ⟨pData, -, h⟩ := Option.bind_eq_some_iff.mp h
      rw [onHead] at h
      split at h
      · obtain rfl := Option.some.inj h
        rfl
      · obtain ⟨number, -, h⟩ := Option.bind_eq_some_iff.mp h
        obtain ⟨run, -, h⟩ := Option.bind_eq_some_iff.mp h
        obtain ⟨time, -, h⟩ := Option.bind_eq_some_iff.mp h
        obtain rfl := Option.some.inj h
        rfl
    · obtain rfl := Option.some.inj h
      rfl

/-- The type of the event after a node, which only a bank changes. -/
def nodeType (s : EvioTreeSource) (type : EventSource) (node : Node) : EventSource :=
  if s.IsMother node then s.motherType type node else type

/-- The body of the loop leaves the type that `nodeType` says. -/
theorem onNode_type (s : EvioTreeSource) (d : EventData) (node : Node) (d' : EventData)
    (h : s.onNode d node = some d') : d'.eventType = s.nodeType d.eventType node := by
  rw [onNode] at h
  rw [nodeType]
  split at h
  · next hmother =>
    obtain ⟨leafList, -, h⟩ := Option.bind_eq_some_iff.mp h
    rw [if_pos hmother, foldlM_part (fun type _ => type) s.onBranch_type h]
    exact List.foldl_fixed leafList
  · next hmother =>
    obtain rfl := Option.some.inj h
    rw [if_neg hmother]

/-- With a bank among the nodes the type of the event is in the end one that is
copied further. -/
theorem foldl_nodeType_copied (s : EvioTreeSource) (type : EventSource) {fullList : List Node}
    (h : Copied type ∨ ∃ node ∈ fullList, s.IsMother node) :
    Copied (fullList.foldl s.nodeType type) := by
  induction fullList generalizing type with
  | nil =>
      obtain h | ⟨node, hmem, -⟩ := h
      · exact h
      · cases hmem
  | cons first rest ih =>
      refine ih (s.nodeType type first) ?_
      by_cases hmother : s.IsMother first
      · rw [nodeType, if_pos hmother]
        exact Or.inl (s.motherType_copied type hmother)
      · rw [nodeType, if_neg hmother]
        obtain h | ⟨node, hmem, hnode⟩ := h
        · exact Or.inl h
        · obtain rfl | hrest := List.mem_cons.mp hmem
          · exact absurd hnode hmother
          · exact Or.inr ⟨node, hrest, hnode⟩

/-- The published event data are right, whatever the new object's memory
holds: the words of all trigger leaves, and the third of them. -/
def EventDataRight (s : EvioTreeSource) (fullList : List Node) : Prop :=
  ∀ spillN, ∃ data, s.GetObjectsEventData spillN fullList = some (.NOERROR, data)
    ∧ ∀ this_eventData ∈ data,
        this_eventData.triggerWords = (s.triggerLeaves fullList).flatten
          ∧ ∀ third, this_eventData.triggerWords[2]? = some third →
              this_eventData.spillN = third.toUInt64

/-- With three words in all, some leaf has two: otherwise nobody sets
`spillN`. -/
def SpillSet (leaves : List (List UInt32)) : Prop :=
  3 ≤ leaves.flatten.length → ∃ pData ∈ leaves, 2 ≤ pData.length

/-- What the walk makes of a fresh object: all trigger words, and `spillN` by
`spillOf`. -/
theorem walk_eq {s : EvioTreeSource} {fullList : List Node} (hfit : s.BanksFit fullList)
    (hfirst : FirstNotTwo (s.triggerLeaves fullList)) (spillN : UInt64) :
    ∃ d, fullList.foldlM s.onNode (newEventData spillN) = some d
      ∧ d.triggerWords = (s.triggerLeaves fullList).flatten
      ∧ d.spillN = spillOf (s.triggerLeaves fullList) (s.triggerLeaves fullList).flatten spillN
      ∧ d.eventType = fullList.foldl s.nodeType .unset := by
  have hpart := onNode_part hfit (newEventData spillN)
  rw [show triggerPart (newEventData spillN) = ([], spillN) from rfl,
    foldlM_spillStep _ _ _ fun _ => hfirst, List.nil_append] at hpart
  obtain ⟨d, hd, hparts⟩ := Option.map_eq_some_iff.mp hpart
  obtain ⟨hwords, hspill⟩ := Prod.mk.inj hparts
  exact ⟨d, hd, hwords, hspill, foldlM_part _ s.onNode_type hd⟩

/-- An event with trigger leaves has a bank to make the event data from. -/
theorem exists_isMother {s : EvioTreeSource} {fullList : List Node}
    (hleaves : s.triggerLeaves fullList ≠ []) : ∃ node ∈ fullList, s.IsMother node := by
  by_contra hno
  have hnone : s.branches fullList = [] := by
    refine List.flatMap_eq_nil_iff.mpr fun node hmem => ?_
    rw [if_neg fun hmother => hno ⟨node, hmem, hmother⟩]
  rw [triggerLeaves, hnone, List.filterMap_nil] at hleaves
  exact hleaves rfl

/-- An event with trigger leaves publishes the one object that the walk
has filled. -/
theorem GetObjectsEventData_eq {s : EvioTreeSource} {fullList : List Node}
    (hfit : s.BanksFit fullList) (hfirst : FirstNotTwo (s.triggerLeaves fullList))
    (hleaves : s.triggerLeaves fullList ≠ []) (spillN : UInt64) :
    ∃ d, s.GetObjectsEventData spillN fullList = some (.NOERROR, [d])
      ∧ d.triggerWords = (s.triggerLeaves fullList).flatten
      ∧ d.spillN
        = spillOf (s.triggerLeaves fullList) (s.triggerLeaves fullList).flatten spillN := by
  obtain ⟨d, hd, hwords, hspill, htype⟩ := walk_eq hfit hfirst spillN
  have hcopied : d.eventType = .DAQ ∨ d.eventType = .EPICS := by
    rw [htype]
    exact s.foldl_nodeType_copied .unset (Or.inr (exists_isMother hleaves))
  refine ⟨d, ?_, hwords, hspill⟩
  rw [GetObjectsEventData, hd, Option.map_some, if_pos hcopied]

/-- Right event data need the words of all banks, and not two of them at
first. -/
theorem EventDataRight.fits {s : EvioTreeSource} {fullList : List Node}
    (h : s.EventDataRight fullList) :
    s.BanksFit fullList ∧ FirstNotTwo (s.triggerLeaves fullList) := by
  have hsome : (fullList.foldlM s.onNode (newEventData 0)).isSome = true := by
    obtain ⟨data, hdata, -⟩ := h 0
    obtain ⟨d, hd, -⟩ := Option.map_eq_some_iff.mp hdata
    rw [hd]
    rfl
  have hfit : s.BanksFit fullList := banksFit_of_isSome hsome
  refine ⟨hfit, ?_⟩
  by_contra hfirst
  have hpart := onNode_part hfit (newEventData 0)
  rw [show triggerPart (newEventData 0) = ([], 0) from rfl,
    foldlM_spillStep_none hfirst] at hpart
  rw [Option.map_eq_none_iff.mp hpart] at hsome
  cases hsome

/-- For right event data `spillN` has to be set: else a value in memory that is
not the third word would be published. -/
theorem EventDataRight.spillSet {s : EvioTreeSource} {fullList : List Node}
    (h : s.EventDataRight fullList) : SpillSet (s.triggerLeaves fullList) := by
  intro hthree
  obtain ⟨hfit, hfirst⟩ := h.fits
  obtain ⟨third, hthird⟩ : ∃ third, (s.triggerLeaves fullList).flatten[2]? = some third :=
    ⟨_, List.getElem?_eq_getElem hthree⟩
  have hleaves : s.triggerLeaves fullList ≠ [] := by
    intro hnil
    rw [hnil, List.flatten_nil] at hthird
    cases hthird
  obtain ⟨d, hd, hwords, hspill⟩ :=
    GetObjectsEventData_eq hfit hfirst hleaves (third.toUInt64 + 1)
  obtain ⟨data, hdata, hpublished⟩ := h (third.toUInt64 + 1)
  obtain rfl : [d] = data := (Prod.mk.inj (Option.some.inj (hd.symm.trans hdata))).2
  have hset : d.spillN = third.toUInt64 :=
    (hpublished d List.mem_cons_self).2 third (hwords ▸ hthird)
  by_contra hno
  have hany : ¬ (s.triggerLeaves fullList).any (fun pData => 2 ≤ pData.length) = true := by
    intro hany
    obtain ⟨pData, hmem, htwo⟩ := List.any_eq_true.mp hany
    exact hno ⟨pData, hmem, of_decide_eq_true htwo⟩
  rw [hspill, spillOf, if_neg hany] at hset
  have hone : (1 : UInt64) = 0 := UInt64.add_eq_left.mp hset
  exact absurd hone (by decide)

/-- The event data are right exactly when the banks fit, the first leaf with words
has not two, and somebody sets `spillN`. -/
theorem eventDataRight_iff (s : EvioTreeSource) (fullList : List Node) :
    s.EventDataRight fullList ↔ s.BanksFit fullList ∧ FirstNotTwo (s.triggerLeaves fullList)
      ∧ SpillSet (s.triggerLeaves fullList) := by
  constructor
  · intro h
    exact ⟨h.fits.1, h.fits.2, h.spillSet⟩
  · rintro ⟨hfit, hfirst, hset⟩ spillN
    obtain ⟨d, hd, hwords, hspill, -⟩ := walk_eq hfit hfirst spillN
    refine ⟨_, by rw [GetObjectsEventData, hd, Option.map_some], fun this_eventData hmem => ?_⟩
    obtain rfl : this_eventData = d := by
      split at hmem
      · exact List.mem_singleton.mp hmem
      · cases hmem
    refine ⟨hwords, fun third hthird => ?_⟩
    rw [hwords] at hthird
    obtain ⟨pData, hpData, htwo⟩ := hset (List.getElem?_eq_some_iff.mp hthird).1
    have hany : (s.triggerLeaves fullList).any (fun pData => 2 ≤ pData.length) = true :=
      List.any_eq_true.mpr ⟨pData, hpData, decide_eq_true htwo⟩
    rw [hspill, spillOf, if_pos hany, hthird, Option.elim_some]

/-! ## §6. All walks. -/

/-- **No walk over the event leaves it**, and the event data are right.
`after` is what follows the banks in memory, `r` what `GetEvent` finds. -/
structure WalksRight (s : EvioTreeSource) (fullList : List Node) : Prop where
  file : ∀ r, (s.GetEventFile r fullList).isSome = true
  et : ∀ r, (s.GetEventET r fullList).isSome = true
  mode1 : ∀ after, (s.GetObjectsMode1 after fullList).isSome = true
  mode7 : ∀ after, (s.GetObjectsMode7 after fullList).isSome = true
  eventData : s.EventDataRight fullList
  epics : (s.GetObjectsEpics fullList).isSome = true

/-- **What the walks assume** of the nodes of an event. -/
structure NodesFit (s : EvioTreeSource) (fullList : List Node) : Prop where
  /-- Two words in each prestart node that is read, five in each header node. -/
  readable : ∀ node ∈ fullList, s.Readable node
  /-- Children in each crate and each bank of the slow control, and words in
  their trigger and header banks. -/
  banks : s.BanksFit fullList
  /-- Words in the banks with hits. -/
  hits : ∀ node ∈ fullList, node.tag = s.vme_mother_tag →
    ∀ branch ∈ node.getChildList.getD [],
      branch.tag = s.child_mode1_tag ∨ branch.tag = s.child_mode7_tag → branch.HoldsWords 0
  /-- Strings in the banks of the slow control. -/
  strings : ∀ node ∈ fullList, node.tag = s.epics_mother_tag →
    ∀ branch ∈ node.getChildList.getD [], branch.tag = s.child_epics_tag →
      branch.stringData ≠ none
  /-- Three trigger words by the time `spillN` is set. -/
  first : FirstNotTwo (s.triggerLeaves fullList)
  /-- `spillN` is set when there are three. -/
  spill : SpillSet (s.triggerLeaves fullList)

/-- For a list of nodes that is not empty the walks are right exactly when the
nodes fit. -/
theorem walksRight_iff (s : EvioTreeSource) {fullList : List Node} (hne : fullList ≠ []) :
    s.WalksRight fullList ↔ s.NodesFit fullList := by
  -- the walks of the two kinds of hits need children of the crates and words in their banks
  have hmode1 : ∀ after, (s.GetObjectsMode1 after fullList).isSome = true
      ↔ ∀ node ∈ fullList, node.tag = s.vme_mother_tag → node.getChildList ≠ none
          ∧ ∀ branch ∈ node.getChildList.getD [], branch.tag = s.child_mode1_tag →
            branch.HoldsWords 0 := by
    intro after
    rw [JEventSourceEvioDAQ.GetObjectsMode1, Option.isSome_map, Walk.overNodes_isSome]
  have hmode7 : ∀ after, (s.GetObjectsMode7 after fullList).isSome = true
      ↔ ∀ node ∈ fullList, node.tag = s.vme_mother_tag → node.getChildList ≠ none
          ∧ ∀ branch ∈ node.getChildList.getD [], branch.tag = s.child_mode7_tag →
            branch.HoldsWords 0 := by
    intro after
    rw [JEventSourceEvioDAQ.GetObjectsMode7, Option.isSome_map, Walk.overNodes_isSome]
  -- each walk gives one of the conditions, and needs no other
  constructor
  · intro h
    obtain ⟨hbanks, hfirst, hspill⟩ := (s.eventDataRight_iff fullList).mp h.eventData
    exact
      { readable := (s.GetEventFile_isSome ⟨0, 0, false, 0, 0⟩ hne).mp (h.file _)
        banks := hbanks
        hits := by
          intro node hmem htag branch hbranch hhits
          obtain hone | hseven := hhits
          · exact ((hmode1 fun _ _ => 0).mp (h.mode1 _) node hmem htag).2 branch hbranch hone
          · exact ((hmode7 fun _ _ => 0).mp (h.mode7 _) node hmem htag).2 branch hbranch hseven
        strings := fun node hmem htag =>
          ((s.GetObjectsEpics_isSome fullList).mp h.epics node hmem htag).2
        first := hfirst
        spill := hspill }
  · intro h
    have hchildren := h.banks.mothers
    exact
      { file := fun r => (s.GetEventFile_isSome r hne).mpr h.readable
        et := fun r => s.GetEventET_isSome r hne h.readable
        mode1 := fun after => (hmode1 after).mpr fun node hmem htag =>
          ⟨hchildren node hmem (Or.inl htag), fun branch hbranch hone =>
            h.hits node hmem htag branch hbranch (Or.inl hone)⟩
        mode7 := fun after => (hmode7 after).mpr fun node hmem htag =>
          ⟨hchildren node hmem (Or.inl htag), fun branch hbranch hseven =>
            h.hits node hmem htag branch hbranch (Or.inr hseven)⟩
        eventData := (s.eventDataRight_iff fullList).mpr ⟨h.banks, h.first, h.spill⟩
        epics := (s.GetObjectsEpics_isSome fullList).mpr fun node hmem htag =>
          ⟨hchildren node hmem (Or.inr htag), h.strings node hmem htag⟩ }

end EvioTreeSource

/-- **The walks are safe and the event data right, for any tree, if and only
if its nodes fit** what each walk assumes of them.  `getNodeList` is the
library's: all that counts is that the root is in the list. -/
theorem walks_right_iff (s : EvioTreeSource) (getNodeList : Node → List Node)
    (hroot : ∀ root, root ∈ getNodeList root) (root : Node) :
    s.WalksRight (getNodeList root) ↔ s.NodesFit (getNodeList root) :=
  s.walksRight_iff (List.ne_nil_of_mem (hroot root))

mutual
/-- The nodes of a tree, each before its children. -/
def Node.nodes : Node → List Node
  | .container tag children => .container tag children :: nodesOf children
  | .words tag data => [.words tag data]
  | .strings tag data => [.strings tag data]

/-- The nodes of some trees, one tree after the other. -/
def nodesOf : List Node → List Node
  | [] => []
  | node :: rest => node.nodes ++ nodesOf rest
end

/-- An event of one bank, with a header and a trigger bank. -/
def spillEvent (triggerWords : List UInt32) : Node :=
  .container 0x81
    [.container 0x50 [.words 0xe118 triggerWords], .words 0xe10F [4, 1500, 7, 1690000000, 129]]

/-- The nodes of that event: the bank and its two children. -/
theorem spillEvent_nodes (triggerWords : List UInt32) {node : Node}
    (hmem : node ∈ (spillEvent triggerWords).nodes) :
    node = spillEvent triggerWords ∨ node = .container 0x50 [.words 0xe118 triggerWords]
      ∨ node = .words 0xe118 triggerWords
      ∨ node = .words 0xe10F [4, 1500, 7, 1690000000, 129] := by
  simpa only [spillEvent, Node.nodes, nodesOf, List.append_nil, List.nil_append,
    List.cons_append, List.mem_cons, List.not_mem_nil, or_false] using hmem

/-- With three trigger words all walks over the event are right. -/
theorem three_trigger_words_right :
    EvioTreeSource.default.WalksRight (spillEvent [1, 2, 3]).nodes := by
  have hroot : ∀ root : Node, root ∈ root.nodes := by
    intro root
    cases root with
    | container tag children => exact List.mem_cons_self
    | words tag data => exact List.mem_cons_self
    | strings tag data => exact List.mem_cons_self
  refine (walks_right_iff .default Node.nodes hroot (spillEvent [1, 2, 3])).mpr ?_
  have hleaves : EvioTreeSource.default.triggerLeaves (spillEvent [1, 2, 3]).nodes = [[1, 2, 3]] :=
    rfl
  refine
    { readable := fun node hmem => ?_
      banks := ⟨fun node hmem hmother => ?_, fun branch hbranch _ => ?_⟩
      hits := fun node hmem htag branch hbranch hhits => ?_
      strings := fun node hmem htag branch hbranch hepics => ?_
      first := fun pData hpData => ?_
      spill := fun _ => ⟨[1, 2, 3], hleaves ▸ List.mem_singleton.mpr rfl, by decide⟩ }
  · obtain rfl | rfl | rfl | rfl := spillEvent_nodes [1, 2, 3] hmem
    · exact ⟨fun h => absurd h (by decide), fun h => absurd h (by decide)⟩
    · exact ⟨fun h => absurd h (by decide), fun h => absurd h (by decide)⟩
    · exact ⟨fun h => absurd h (by decide), fun h => absurd h (by decide)⟩
    · exact ⟨fun h => absurd h (by decide), fun _ => ⟨_, rfl, by decide⟩⟩
  · obtain rfl | rfl | rfl | rfl := spillEvent_nodes [1, 2, 3] hmem
    · exact Option.some_ne_none _
    · exact Option.some_ne_none _
    · exact absurd hmother (by decide)
    · exact absurd hmother (by decide)
  -- the children of the root, then those of the crate
  · obtain rfl | rfl | rfl : branch = .container 0x50 [.words 0xe118 [1, 2, 3]]
        ∨ branch = .words 0xe10F [4, 1500, 7, 1690000000, 129]
        ∨ branch = .words 0xe118 [1, 2, 3] := by
      have hbranches : EvioTreeSource.default.branches (spillEvent [1, 2, 3]).nodes
          = [.container 0x50 [.words 0xe118 [1, 2, 3]],
              .words 0xe10F [4, 1500, 7, 1690000000, 129], .words 0xe118 [1, 2, 3]] := rfl
      rw [hbranches] at hbranch
      simpa only [List.mem_cons, List.not_mem_nil, or_false] using hbranch
    · exact absurd ‹_› (by decide)
    · exact ⟨_, rfl, by decide⟩
    · exact ⟨_, rfl, by decide⟩
  · obtain rfl | rfl | rfl | rfl := spillEvent_nodes [1, 2, 3] hmem
    · exact absurd htag (by decide)
    · obtain rfl : branch = .words 0xe118 [1, 2, 3] := List.mem_singleton.mp hbranch
      exact absurd hhits (by decide)
    · exact absurd htag (by decide)
    · exact absurd htag (by decide)
  · obtain rfl | rfl | rfl | rfl := spillEvent_nodes [1, 2, 3] hmem
    · have htags : ∀ child ∈ (spillEvent [1, 2, 3]).getChildList.getD [],
          ¬ child.tag = EvioTreeSource.default.child_epics_tag := by
        simp only [spillEvent, Node.getChildList, Option.getD_some]
        exact List.forall_mem_cons.mpr ⟨by decide, List.forall_mem_singleton.mpr (by decide)⟩
      exact absurd hepics (htags branch hbranch)
    · exact absurd htag (by decide)
    · exact absurd htag (by decide)
    · exact absurd htag (by decide)
  · rw [hleaves] at hpData
    obtain rfl : [1, 2, 3] = pData := Option.some.inj hpData
    decide

/-- **A trigger bank of two words**: the third is read. -/
theorem two_trigger_words :
    ¬ ∀ root : Node, EvioTreeSource.default.WalksRight root.nodes := by
  intro h
  obtain ⟨data, hdata, -⟩ := (h (spillEvent [1, 2])).eventData 0
  have hnone : EvioTreeSource.default.GetObjectsEventData 0 (spillEvent [1, 2]).nodes = none := rfl
  rw [hnone] at hdata
  cases hdata

end PokerReco.DAQ
