/-
  PokerReco.DAQ.EventDataMemory
  ─────────────────────────────
  **WHAT MEMORY LEAVES IN THE EVENT DATA** (`DAQ/eventData.h`,
  `DAQ/JEventSourceEVIODAQ.cc`, `DAQ/JEventSourceTRIDASDAQ.cc`).

  The constructor of `eventData` sets every member but `spillN`.  The source of
  TRIDAS events does not set it either, and that of EVIO events sets it when a
  trigger bank has two words or more.  Else it stays what the memory of the new
  object holds.

      eventData_isSome_iff  when the source reads only what is there
      eventData_of_gives    the event data, as a function of that memory
      eventData_of_other    an event that is not one of the data acquisition
-/
import PokerReco.DAQ.EvioTree
import PokerReco.DAQ.TRIDASObjects

namespace PokerReco.DAQ

open PokerReco.Library

/-! ## §1. The events of the sources. -/

/-- An event as its source hands it over: the banks of an EVIO event, or what
TRIDAS has made of one. -/
inductive SourceEvent where
  | evio (fullList : List Node)
  | tridas (event : JEvent TridasHit) (head : TEHeaderInfo) (hits : List TridasHit)

namespace SourceEvent

/-- `GetObjects` for `eventData`; `spillN` is what the new object's memory
holds. -/
def eventData (s : EvioTreeSource) (spillN : UInt64) : SourceEvent → Option (List EventData)
  | evio fullList => (s.GetObjectsEventData spillN fullList).map Prod.snd
  | tridas event head hits =>
      (DAQ.eventData (EvioTreeSource.newEventData spillN) event head hits).map fun d => [d]

/-- What the source reads of the event is there: the banks of an EVIO event are
containers and leaves of words, and the first trigger bank with words has not
just two, behind which the third would be read; a TRIDAS event has a hit, whose
time is read. -/
def Readable (s : EvioTreeSource) : SourceEvent → Prop
  | evio fullList => s.BanksFit fullList ∧ EvioTreeSource.FirstNotTwo (s.triggerLeaves fullList)
  | tridas _ _ hits => hits ≠ []

/-- The event is one of the data acquisition: among the banks of crates and of the
slow control in an EVIO event the last one is of a crate. -/
def OfDAQ (s : EvioTreeSource) : SourceEvent → Prop
  | evio fullList => fullList.foldl s.nodeType .unset = .DAQ
  | tridas _ _ _ => True

/-- The source makes event data of the data acquisition: what it reads is there,
and the event is of that kind. -/
def Gives (s : EvioTreeSource) (e : SourceEvent) : Prop := e.Readable s ∧ e.OfDAQ s

/-- The source sets `spillN`: a trigger bank has two words. -/
def SetsSpill (s : EvioTreeSource) : SourceEvent → Prop
  | evio fullList => ∃ pData ∈ s.triggerLeaves fullList, 2 ≤ pData.length
  | tridas _ _ _ => False

end SourceEvent

/-! ## §2. The walk does not read `spillN`. -/

/-- The event data but for `spillN`, the one member that the source may leave as
the memory had it. -/
def EventData.forgetSpill (d : EventData) : EventData := { d with spillN := 0 }

/-- Event data that agree but for `spillN` differ in nothing else. -/
theorem EventData.eq_of_forgetSpill {d d' : EventData} (h : d.forgetSpill = d'.forgetSpill) :
    d' = { d with spillN := d'.spillN } := by
  obtain ⟨h1, h2, -, h4, h5, h6, h7⟩ := EventData.mk.inj h
  cases d
  cases d'
  rw [EventData.mk.injEq]
  exact ⟨h1.symm, h2.symm, rfl, h4.symm, h5.symm, h6.symm, h7.symm⟩

namespace EvioTreeSource

/-- What a trigger bank does to the event data does not depend on `spillN`,
`spillN` itself apart. -/
theorem onTrigger_forget (d : EventData) (spillN : UInt64) (pData : List UInt32) :
    (onTrigger d pData).map EventData.forgetSpill
      = (onTrigger { d with spillN := spillN } pData).map EventData.forgetSpill := by
  unfold onTrigger
  dsimp only
  split
  · split
    · cases (d.triggerWords ++ pData)[2]? with
      | none => rfl
      | some third => rfl
    · rfl
  · rfl

/-- Nor does what the head bank does. -/
theorem onHead_forget (d : EventData) (spillN : UInt64) (pData : List UInt32) :
    (onHead d pData).map EventData.forgetSpill
      = (onHead { d with spillN := spillN } pData).map EventData.forgetSpill := by
  unfold onHead
  split
  · rfl
  · cases pData[2]? <;> cases pData[1]? <;> cases pData[3]? <;> rfl

/-- Nor does what a bank below the event does, whichever of them it is. -/
theorem onBranch_forget (s : EvioTreeSource) (d : EventData) (spillN : UInt64) (branch : Node) :
    (s.onBranch d branch).map EventData.forgetSpill
      = (s.onBranch { d with spillN := spillN } branch).map EventData.forgetSpill := by
  unfold onBranch
  split
  · cases branch.data with
    | none => rfl
    | some pData => exact onTrigger_forget d spillN pData
  · split
    · cases branch.data with
      | none => rfl
      | some pData => exact onHead_forget d spillN pData
    · rfl

/-- A step that shows nothing of `spillN`, from event data that differ in it. -/
theorem forget_congr {α : Type} {step : EventData → α → Option EventData}
    (hstep : ∀ d spillN a, (step d a).map EventData.forgetSpill
      = (step { d with spillN := spillN } a).map EventData.forgetSpill)
    (d d' : EventData) (a : α) (h : d.forgetSpill = d'.forgetSpill) :
    (step d a).map EventData.forgetSpill = (step d' a).map EventData.forgetSpill := by
  rw [EventData.eq_of_forgetSpill h]
  exact hstep d d'.spillN a

/-- Nor does a turn of the walk. -/
theorem onNode_forget (s : EvioTreeSource) (d : EventData) (spillN : UInt64) (node : Node) :
    (s.onNode d node).map EventData.forgetSpill
      = (s.onNode { d with spillN := spillN } node).map EventData.forgetSpill := by
  unfold onNode
  split
  · cases node.getChildList with
    | none => rfl
    | some leafList =>
        exact foldlM_part_congr (forget_congr s.onBranch_forget) leafList rfl
  · rfl

/-- **The walk does not read `spillN`.** -/
theorem walk_forget (s : EvioTreeSource) (fullList : List Node) (spillN spillN' : UInt64) :
    (fullList.foldlM s.onNode (newEventData spillN)).map EventData.forgetSpill
      = (fullList.foldlM s.onNode (newEventData spillN')).map EventData.forgetSpill :=
  foldlM_part_congr (forget_congr s.onNode_forget) fullList rfl

/-! ## §3. What the walk leaves of the memory. -/

/-- A leaf of two words hides what `spillN` was. -/
theorem foldlM_spillStep_congr {leaves : List (List UInt32)}
    (h : ∃ pData ∈ leaves, 2 ≤ pData.length) (words : List UInt32) (spillN spillN' : UInt64) :
    leaves.foldlM spillStep (words, spillN) = leaves.foldlM spillStep (words, spillN') := by
  induction leaves generalizing words with
  | nil =>
      obtain ⟨pData, hmem, -⟩ := h
      exact absurd hmem List.not_mem_nil
  | cons first rest ih =>
      rw [List.foldlM_cons, List.foldlM_cons]
      by_cases htwo : 2 ≤ first.length
      -- the two steps are the same
      · have hstep : spillStep (words, spillN) first = spillStep (words, spillN') first := by
          have hpos : first.length > 0 := by omega
          unfold spillStep
          dsimp only
          rw [if_pos hpos, if_pos hpos, if_pos htwo, if_pos htwo]
        rw [hstep]
      · have hrest : ∃ pData ∈ rest, 2 ≤ pData.length := by
          obtain ⟨pData, hmem, hlen⟩ := h
          obtain rfl | hmem := List.mem_cons.mp hmem
          · exact absurd hlen htwo
          · exact ⟨pData, hmem, hlen⟩
        unfold spillStep
        dsimp only
        by_cases hempty : first.length > 0
        · rw [if_pos hempty, if_pos hempty, if_neg htwo, if_neg htwo]
          exact ih hrest _
        · rw [if_neg hempty, if_neg hempty]
          exact ih hrest _

/-- The event data of the walk, in any memory. -/
theorem walk_memory {s : EvioTreeSource} {fullList : List Node} (hfit : s.BanksFit fullList)
    (hfirst : FirstNotTwo (s.triggerLeaves fullList)) :
    ∃ d, d.eventType = fullList.foldl s.nodeType .unset ∧ ∀ spillN,
      ((∃ pData ∈ s.triggerLeaves fullList, 2 ≤ pData.length) →
        fullList.foldlM s.onNode (newEventData spillN) = some d) ∧
      (¬ (∃ pData ∈ s.triggerLeaves fullList, 2 ≤ pData.length) →
        fullList.foldlM s.onNode (newEventData spillN) = some { d with spillN := spillN }) := by
  obtain ⟨d, hd, -, -, htype⟩ := walk_eq hfit hfirst 0
  refine ⟨d, htype, fun spillN => ?_⟩
  obtain ⟨d', hd', -, hspill, -⟩ := walk_eq hfit hfirst spillN
  have hforget := walk_forget s fullList 0 spillN
  rw [hd, hd'] at hforget
  have heq : d' = { d with spillN := d'.spillN } :=
    EventData.eq_of_forgetSpill (Option.some.inj hforget)
  constructor
  · intro htwo
    -- the trigger leaves make the same of both memories
    have hpart := onNode_part hfit (newEventData 0)
    have hpart' := onNode_part hfit (newEventData spillN)
    have hsame : (s.triggerLeaves fullList).foldlM spillStep (triggerPart (newEventData 0))
        = (s.triggerLeaves fullList).foldlM spillStep (triggerPart (newEventData spillN)) :=
      foldlM_spillStep_congr htwo [] 0 spillN
    rw [← hpart, ← hpart', hd, hd'] at hsame
    have hspills : d.spillN = d'.spillN := congrArg Prod.snd (Option.some.inj hsame)
    rw [hd', heq, ← hspills]
  · intro hno
    have hany : ¬ (s.triggerLeaves fullList).any (fun pData => 2 ≤ pData.length) = true := by
      intro hany
      obtain ⟨pData, hmem, htwo⟩ := List.any_eq_true.mp hany
      exact hno ⟨pData, hmem, of_decide_eq_true htwo⟩
    rw [spillOf, if_neg hany] at hspill
    rw [hd', heq, hspill]

/-- A walk that comes to its end has met the banks it assumes, and no third word
that is not there. -/
theorem walk_isSome {s : EvioTreeSource} {fullList : List Node} {spillN : UInt64} {d : EventData}
    (h : fullList.foldlM s.onNode (newEventData spillN) = some d) :
    s.BanksFit fullList ∧ FirstNotTwo (s.triggerLeaves fullList) := by
  have hfit : s.BanksFit fullList := banksFit_of_isSome (Option.isSome_of_eq_some h)
  refine ⟨hfit, ?_⟩
  by_contra hfirst
  have hpart := onNode_part hfit (newEventData spillN)
  rw [show triggerPart (newEventData spillN) = ([], spillN) from rfl,
    foldlM_spillStep_none hfirst, h] at hpart
  cases hpart

end EvioTreeSource

/-! ## §4. The event data of an event. -/

namespace SourceEvent

open EvioTreeSource

/-- The event data of an EVIO event are those that the walk has filled, when it
has found out what kind they are. -/
theorem eventData_evio {s : EvioTreeSource} {fullList : List Node} {spillN : UInt64}
    {d : EventData} (h : fullList.foldlM s.onNode (newEventData spillN) = some d) :
    (evio fullList).eventData s spillN
      = some (if d.eventType = .DAQ ∨ d.eventType = .EPICS then [d] else []) := by
  show (s.GetObjectsEventData spillN fullList).map Prod.snd = _
  unfold GetObjectsEventData
  rw [h]
  rfl

/-- **The event data, as a function of the memory**: it does not show where the
source sets `spillN`, and else it is there. -/
theorem eventData_of_gives {s : EvioTreeSource} {e : SourceEvent} (h : e.Gives s) :
    ∃ d, d.eventType = .DAQ ∧ ∀ spillN,
      (e.SetsSpill s → e.eventData s spillN = some [d]) ∧
      (¬ e.SetsSpill s → e.eventData s spillN = some [{ d with spillN := spillN }]) := by
  cases e with
  | evio fullList =>
      obtain ⟨⟨hfit, hfirst⟩, hDAQ⟩ := h
      obtain ⟨d, htype, hwalk⟩ := walk_memory hfit hfirst
      have hd : d.eventType = .DAQ := htype.trans hDAQ
      refine ⟨d, hd, fun spillN => ⟨fun hset => ?_, fun hset => ?_⟩⟩
      · rw [eventData_evio ((hwalk spillN).1 hset), if_pos (Or.inl hd)]
      · rw [eventData_evio ((hwalk spillN).2 hset), if_pos (Or.inl hd)]
  | tridas event head hits =>
      cases hits with
      | nil => exact absurd rfl h.1
      | cons first rest =>
          obtain ⟨d, hd, -⟩ := eventData_time (newEventData 0) event head first rest
          refine ⟨d, ?_, fun spillN => ⟨fun hset => absurd hset not_false, fun _ => ?_⟩⟩
          · obtain rfl := Option.some.inj hd
            rfl
          · obtain rfl := Option.some.inj hd
            rfl

/-- The source comes to its end when it reads only what is there, whatever the
memory holds. -/
theorem eventData_isSome_iff {s : EvioTreeSource} {e : SourceEvent} (spillN : UInt64) :
    (e.eventData s spillN).isSome = true ↔ e.Readable s := by
  cases e with
  | evio fullList =>
      constructor
      · intro h
        cases hwalk : fullList.foldlM s.onNode (newEventData spillN) with
        | some d => exact walk_isSome hwalk
        | none =>
            have hnone : (evio fullList).eventData s spillN = none := by
              show (s.GetObjectsEventData spillN fullList).map Prod.snd = none
              rw [GetObjectsEventData, hwalk]
              rfl
            rw [hnone] at h
            cases h
      · rintro ⟨hfit, hfirst⟩
        obtain ⟨d, hd, -⟩ := walk_eq hfit hfirst spillN
        rw [eventData_evio hd]
        rfl
  | tridas event head hits =>
      cases hits with
      | nil => exact iff_of_false Bool.false_ne_true fun h => h rfl
      | cons first rest => exact iff_of_true rfl (List.cons_ne_nil first rest)

/-- **An event that is not one of the data acquisition** has no event data, or
event data of the slow control. -/
theorem eventData_of_other {s : EvioTreeSource} {e : SourceEvent} (hread : e.Readable s)
    (h : ¬ e.OfDAQ s) (spillN : UInt64) :
    ∃ data, e.eventData s spillN = some data ∧ ∀ d ∈ data, d.eventType = .EPICS := by
  cases e with
  | evio fullList =>
      obtain ⟨d, hd, -, -, htype⟩ := walk_eq hread.1 hread.2 spillN
      have hDAQ : d.eventType ≠ .DAQ := fun hDAQ => h (htype.symm.trans hDAQ)
      refine ⟨_, eventData_evio hd, fun d' hmem => ?_⟩
      split at hmem
      · next htype =>
        rw [List.mem_singleton.mp hmem]
        exact htype.resolve_left hDAQ
      · cases hmem
  | tridas event head hits => exact absurd trivial h

end SourceEvent

end PokerReco.DAQ
