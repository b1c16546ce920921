/-
  PokerReco.NA64.JEventProcessorSimpleEB
  ──────────────────────────────────────
  **THE ROWS OF NA64** (`plugins/NA64/simpleEB/JEventProcessor_simpleEB.cc`).

  `evnt` fills one row of a tree for each event, from its members: it sets them
  to their values for an event without hits, and then goes through the hits.
  Among the three large crystals it does so for `A1` and `A2`, and not for
  `Abig`, which keeps the amplitude of the last event that had one.  The spill
  number of the row is that of the event data, which the sources of events do
  not always set.

      fillRow_eq             what a row has of the members before it, and of
                             the spill number
      rows_have_no_past_iff  when an event has one row, whatever was before
-/
import PokerReco.Calorimeter.CalorimeterHitFactory
import PokerReco.Cerenkov.CerenkovHitFactory
import PokerReco.DAQ.EventDataMemory
import PokerReco.JANA.Basic
import PokerReco.Library.LastWrite
import PokerReco.Library.Schedule
import PokerReco.Library.SignedArithmetic

namespace PokerReco.NA64

open PokerReco.Calorimeter PokerReco.Cerenkov PokerReco.DAQ PokerReco.JANA PokerReco.Library
open PokerReco.TT

/-! ## §1. The plugin. -/

/-- `CalorimeterHit`, with the member `Araw` that the plugin reads. -/
structure Hit extends CalorimeterHit where
  Araw : ℚ

/-- The sector of a hit and its `x`, of which the large crystals are told. -/
def Hit.place (m_hit : Hit) : Int × Int :=
  (m_hit.m_channel.sector.toInt, m_hit.m_channel.x.toInt)

/-- `JEventProcessor_simpleEB`, the members that are branches of the tree.  A
row of the tree is their values. -/
structure JEventProcessorSimpleEB where
  m_A : Fin 3 → Fin 3 → ℚ
  m_Araw : Fin 3 → Fin 3 → ℚ
  m_E : Fin 3 → Fin 3 → ℚ
  m_Q : Fin 3 → Fin 3 → ℚ
  m_T : Fin 3 → Fin 3 → ℚ
  m_Etot : ℚ
  A1 : ℚ
  A2 : ℚ
  Abig : ℚ
  cerenkov : Int32
  m_evnN : Int32
  m_runN : Int32
  m_spillN : Int32
  m_evnTime : UInt64

/-- One element of a table of three by three crystals is assigned. -/
def assign (m : Fin 3 → Fin 3 → ℚ) (X Y : Fin 3) (v : ℚ) : Fin 3 → Fin 3 → ℚ :=
  Function.update m X (Function.update (m X) Y v)

namespace JEventProcessorSimpleEB

/-- The values that `evnt` sets before it looks at the hits; `Abig` is not
among them. -/
def reset (p : JEventProcessorSimpleEB) : JEventProcessorSimpleEB :=
  { p with
    m_Q := fun _ _ => -1
    m_A := fun _ _ => -1
    m_Araw := fun _ _ => -1
    m_E := fun _ _ => -1
    m_T := fun _ _ => -1
    A1 := -100
    A2 := -100
    m_Etot := 0
    cerenkov := 0 }

/-- The members that are taken from the event data: the numbers of the run, the
event and the spill, and the time. -/
def onEventData (p : JEventProcessorSimpleEB) (tData : EventData) : JEventProcessorSimpleEB :=
  { p with
    m_evnN := tData.eventN.toUInt32.toInt32
    m_runN := tData.runN.toInt32
    m_evnTime := tData.time
    m_spillN := tData.spillN.toUInt32.toInt32 }

/-- A turn of the loop over `m_chits`.  A negative `index` is a count of shifts
that is too large. -/
def onCerenkovHit (A : Arithmetic) (p : JEventProcessorSimpleEB) (m_chit : CerenkovHit) :
    JEventProcessorSimpleEB :=
  let index := m_chit.m_channel.index.toInt
  { p with cerenkov := p.cerenkov ||| A.shl 1 (index % 2 ^ 32).toNat }

/-- A turn of the loop over `m_hits`: the place of a hit says which member
it assigns. -/
def onHit (p : JEventProcessorSimpleEB) (m_hit : Hit) : JEventProcessorSimpleEB :=
  let sector := m_hit.m_channel.sector.toInt
  let X := m_hit.m_channel.x.toInt
  let Y := m_hit.m_channel.y.toInt
  if sector = 0 then
    if h : X < 0 ∨ X > 2 ∨ Y < 0 ∨ Y > 2 then p
    else
      let X : Fin 3 := ⟨X.toNat, by omega⟩
      let Y : Fin 3 := ⟨Y.toNat, by omega⟩
      { p with
        m_E := assign p.m_E X Y m_hit.E
        m_Q := assign p.m_Q X Y m_hit.Eraw
        m_A := assign p.m_A X Y m_hit.A
        m_Araw := assign p.m_Araw X Y m_hit.Araw
        m_T := assign p.m_T X Y m_hit.T
        m_Etot := if m_hit.E > 1 / 10 then p.m_Etot + m_hit.E else p.m_Etot }
  else if sector = 1 then
    { p with
      A1 := if X = 0 then m_hit.A else p.A1
      A2 := if X = 1 then m_hit.A else p.A2
      Abig := if X = 2 then m_hit.A else p.Abig }
  else p

/-- The statements of `evnt` up to `Fill`, in their order. -/
def fillRow (A : Arithmetic) (p : JEventProcessorSimpleEB) (m_hits : List Hit)
    (m_chits : List CerenkovHit) (tData : EventData) : JEventProcessorSimpleEB :=
  m_hits.foldl onHit (m_chits.foldl (onCerenkovHit A) (p.reset.onEventData tData))

/-- `evnt`: the value it returns, the members, and the row if one is filled;
`tData` is none when `GetSingle` throws. -/
def evnt (A : Arithmetic) (p : JEventProcessorSimpleEB) (m_hits : List Hit)
    (m_chits : List CerenkovHit) (tData : Option EventData) :
    JError × JEventProcessorSimpleEB × Option JEventProcessorSimpleEB :=
  match tData with
  | none => (.OBJECT_NOT_AVAILABLE, p, none)
  | some tData =>
      if tData.eventType = .EPICS then (.NOERROR, p, none)
      else
        let p := p.fillRow A m_hits m_chits tData
        (.NOERROR, p, some p)

end JEventProcessorSimpleEB

/-! ## §2. Sequences of events. -/

/-- `GetSingle`, which is none when it throws: there has to be exactly one
object. -/
def GetSingle : List EventData → Option EventData
  | [d] => some d
  | _ => none

/-- An event: the hits that the factories make of it, and what its source hands
over. -/
structure Event where
  m_hits : List Hit
  m_chits : List CerenkovHit
  source : SourceEvent

namespace Event

/-- `evnt` on an event; `spillN` is what the memory of its event data holds. -/
def process (A : Arithmetic) (s : EvioTreeSource) (p : JEventProcessorSimpleEB)
    (e : Event × UInt64) :
    Option (JError × JEventProcessorSimpleEB × Option JEventProcessorSimpleEB) :=
  (e.1.source.eventData s e.2).map fun data => p.evnt A e.1.m_hits e.1.m_chits (GetSingle data)

/-- The members after an event, which the next event begins with. -/
def exec (A : Arithmetic) (s : EvioTreeSource) (p : JEventProcessorSimpleEB)
    (e : Event × UInt64) : Option JEventProcessorSimpleEB :=
  (process A s p e).map fun result => result.2.1

/-- The row of an event, if it fills one; none at all when something is read that
is not there. -/
def row (A : Arithmetic) (s : EvioTreeSource) (p : JEventProcessorSimpleEB)
    (e : Event × UInt64) : Option (Option JEventProcessorSimpleEB) :=
  (process A s p e).map fun result => result.2.2

/-- **The row has no past**: after any two sequences of events, from the members
`init` and `init'`, and in any memory, `evnt` comes to its end on the event and
fills the same row, or none each time. -/
def HasNoPast (A : Arithmetic) (s : EvioTreeSource) (init init' : JEventProcessorSimpleEB)
    (e : Event) : Prop :=
  ∀ events events' p p' spillN spillN', execAll (exec A s) init events = some p →
    execAll (exec A s) init' events' = some p' →
    ∃ filled, row A s p (e, spillN) = some filled ∧ row A s p' (e, spillN') = some filled

/-- The event has a hit of the crystal that `Abig` is of. -/
def HasBig (e : Event) : Prop := ∃ m_hit ∈ e.m_hits, m_hit.place = (1, 2)

end Event

/-! ## §3. What a row has of the members before it. -/

namespace JEventProcessorSimpleEB

/-- The members with another `Abig` and another spill number. -/
def withBig (p : JEventProcessorSimpleEB) (Abig : ℚ) (m_spillN : Int32) :
    JEventProcessorSimpleEB :=
  { p with Abig := Abig, m_spillN := m_spillN }

/-- **One hit**: nothing else is made from the two. -/
theorem onHit_withBig (p : JEventProcessorSimpleEB) (Abig : ℚ) (m_spillN : Int32) (m_hit : Hit) :
    (p.withBig Abig m_spillN).onHit m_hit
      = (p.onHit m_hit).withBig (if m_hit.place = (1, 2) then m_hit.A else Abig) m_spillN := by
  have hplace : m_hit.place = (1, 2)
      ↔ m_hit.m_channel.sector.toInt = 1 ∧ m_hit.m_channel.x.toInt = 2 := Prod.mk_inj
  unfold onHit
  dsimp only
  by_cases h0 : m_hit.m_channel.sector.toInt = 0
  · have hno : ¬ m_hit.place = (1, 2) := fun h => by
      have := (hplace.mp h).1
      omega
    rw [if_pos h0, if_pos h0, if_neg hno]
    split
    · rfl
    · rfl
  · rw [if_neg h0, if_neg h0]
    by_cases h1 : m_hit.m_channel.sector.toInt = 1
    · rw [if_pos h1, if_pos h1]
      by_cases h2 : m_hit.m_channel.x.toInt = 2
      · rw [if_pos (hplace.mpr ⟨h1, h2⟩), if_pos h2, if_pos h2]
        rfl
      · rw [if_neg (fun h => h2 (hplace.mp h).2), if_neg h2, if_neg h2]
        rfl
    · rw [if_neg h1, if_neg h1, if_neg (fun h => h1 (hplace.mp h).1)]

/-- The loop over the hits makes nothing else from the two either. -/
theorem onHits_withBig (m_hits : List Hit) (p : JEventProcessorSimpleEB) (Abig : ℚ)
    (m_spillN : Int32) :
    m_hits.foldl onHit (p.withBig Abig m_spillN)
      = (m_hits.foldl onHit p).withBig
          (m_hits.foldl (fun Abig m_hit => if m_hit.place = (1, 2) then m_hit.A else Abig) Abig)
          m_spillN := by
  induction m_hits generalizing p Abig with
  | nil => rfl
  | cons m_hit m_hits ih =>
      rw [List.foldl_cons, onHit_withBig, ih, List.foldl_cons, List.foldl_cons]

/-- The loop over the Cerenkov hits makes nothing else from the two either. -/
theorem onCerenkovHits_withBig (A : Arithmetic) (m_chits : List CerenkovHit)
    (p : JEventProcessorSimpleEB) (Abig : ℚ) (m_spillN : Int32) :
    m_chits.foldl (onCerenkovHit A) (p.withBig Abig m_spillN)
      = (m_chits.foldl (onCerenkovHit A) p).withBig Abig m_spillN :=
  List.foldl_hom (fun p : JEventProcessorSimpleEB => p.withBig Abig m_spillN) fun _ _ => rfl

/-- **What a row has of the members before it**: `Abig`, unless a hit assigns it;
and what it has of the spill number. -/
theorem fillRow_eq (A : Arithmetic) (p p' : JEventProcessorSimpleEB) (m_hits : List Hit)
    (m_chits : List CerenkovHit) (tData : EventData) (spillN : UInt64) :
    p.fillRow A m_hits m_chits { tData with spillN := spillN }
      = (p'.fillRow A m_hits m_chits tData).withBig
          (((lastWrite Hit.place m_hits (1, 2)).map fun m_hit => m_hit.A).getD p.Abig)
          spillN.toUInt32.toInt32 := by
  unfold fillRow
  have hstart : p.reset.onEventData { tData with spillN := spillN }
      = (p'.reset.onEventData tData).withBig p.Abig spillN.toUInt32.toInt32 := rfl
  rw [hstart, onCerenkovHits_withBig, onHits_withBig, foldl_assign]

/-- With a hit of the crystal of `Abig` a row has nothing of the members
before it. -/
theorem fillRow_of_big (A : Arithmetic) (p p' : JEventProcessorSimpleEB) {m_hits : List Hit}
    (hbig : ∃ m_hit ∈ m_hits, m_hit.place = (1, 2)) (m_chits : List CerenkovHit)
    (tData : EventData) : p.fillRow A m_hits m_chits tData = p'.fillRow A m_hits m_chits tData := by
  obtain ⟨m_hit, hlast⟩ := Option.isSome_iff_exists.mp (lastWrite_isSome_iff.mpr hbig)
  have h := fillRow_eq A p p' m_hits m_chits tData tData.spillN
  have h' := fillRow_eq A p' p' m_hits m_chits tData tData.spillN
  rw [hlast] at h h'
  exact h.trans h'.symm

/-- Without a hit of the crystal of `Abig` a row has the `Abig` of the members
before it. -/
theorem fillRow_Abig (A : Arithmetic) (p : JEventProcessorSimpleEB) {m_hits : List Hit}
    (hbig : ¬ ∃ m_hit ∈ m_hits, m_hit.place = (1, 2)) (m_chits : List CerenkovHit)
    (tData : EventData) : (p.fillRow A m_hits m_chits tData).Abig = p.Abig := by
  have hlast : lastWrite Hit.place m_hits (1, 2) = none := by
    rw [← Option.not_isSome_iff_eq_none, lastWrite_isSome_iff]
    exact hbig
  have h := fillRow_eq A p p m_hits m_chits tData tData.spillN
  rw [hlast] at h
  have hAbig := congrArg JEventProcessorSimpleEB.Abig h
  exact hAbig

/-- The spill number of a row is that of the event data, whatever the hits are. -/
theorem fillRow_spillN (A : Arithmetic) (p : JEventProcessorSimpleEB) (m_hits : List Hit)
    (m_chits : List CerenkovHit) (tData : EventData) :
    (p.fillRow A m_hits m_chits tData).m_spillN = tData.spillN.toUInt32.toInt32 :=
  congrArg JEventProcessorSimpleEB.m_spillN
    (fillRow_eq A p p m_hits m_chits tData tData.spillN)

end JEventProcessorSimpleEB

/-! ## §4. The row of an event. -/

namespace Event

open JEventProcessorSimpleEB

variable {A : Arithmetic} {s : EvioTreeSource}

/-- An event with event data of the data acquisition fills a row. -/
theorem process_of_DAQ {e : Event} {spillN : UInt64} {d : EventData} (htype : d.eventType = .DAQ)
    (h : e.source.eventData s spillN = some [d]) (p : JEventProcessorSimpleEB) :
    process A s p (e, spillN)
      = some (.NOERROR, p.fillRow A e.m_hits e.m_chits d,
          some (p.fillRow A e.m_hits e.m_chits d)) := by
  have hEPICS : ¬ d.eventType = .EPICS := by
    rw [htype]
    decide
  unfold process
  rw [h, Option.map_some]
  show some (p.evnt A e.m_hits e.m_chits (some d)) = _
  unfold JEventProcessorSimpleEB.evnt
  dsimp only
  rw [if_neg hEPICS]

/-- Event data of the slow control, or none, fill no row. -/
theorem row_of_EPICS {e : Event} {spillN : UInt64} {data : List EventData}
    (h : e.source.eventData s spillN = some data) (hEPICS : ∀ d ∈ data, d.eventType = .EPICS)
    (p : JEventProcessorSimpleEB) : row A s p (e, spillN) = some none := by
  have hsingle : ∀ d ∈ GetSingle data, d.eventType = .EPICS := by
    intro d hd
    unfold GetSingle at hd
    split at hd
    · obtain rfl := Option.some.inj hd
      exact hEPICS _ List.mem_cons_self
    · cases hd
  unfold row process
  rw [h]
  show some (p.evnt A e.m_hits e.m_chits (GetSingle data)).2.2 = some none
  unfold JEventProcessorSimpleEB.evnt
  cases hdata : GetSingle data with
  | none => rfl
  | some d =>
      dsimp only
      rw [if_pos (hsingle d hdata)]

/-- There is a row, or none, only when the source reads what is there. -/
theorem readable_of_row {e : Event} {p : JEventProcessorSimpleEB} {spillN : UInt64}
    {filled : Option JEventProcessorSimpleEB} (h : row A s p (e, spillN) = some filled) :
    e.source.Readable s := by
  rw [← SourceEvent.eventData_isSome_iff spillN]
  have hsome : (row A s p (e, spillN)).isSome = true := Option.isSome_of_eq_some h
  unfold row process at hsome
  rwa [Option.isSome_map, Option.isSome_map] at hsome

/-- An event that is not one of the data acquisition fills no row. -/
theorem row_of_other {e : Event} (hread : e.source.Readable s) (hother : ¬ e.source.OfDAQ s)
    (p : JEventProcessorSimpleEB) (spillN : UInt64) : row A s p (e, spillN) = some none := by
  obtain ⟨data, hdata, hEPICS⟩ := SourceEvent.eventData_of_other hread hother spillN
  exact row_of_EPICS hdata hEPICS p

/-- The row of an event that assigns `Abig` and whose source sets `spillN`. -/
theorem row_of_big {e : Event} (hgives : e.source.Gives s) (hbig : e.HasBig)
    (hset : e.source.SetsSpill s) (p p' : JEventProcessorSimpleEB) (spillN spillN' : UInt64) :
    ∃ filled, row A s p (e, spillN) = some filled ∧ row A s p' (e, spillN') = some filled := by
  obtain ⟨d, htype, hdata⟩ := SourceEvent.eventData_of_gives hgives
  unfold row
  rw [process_of_DAQ htype ((hdata spillN).1 hset), process_of_DAQ htype ((hdata spillN').1 hset),
    fillRow_of_big A p p' hbig]
  exact ⟨_, rfl, rfl⟩

/-- An event of the data acquisition fills a row, whose amplitudes and spill
number come from the members and the memory. -/
theorem row_of_gives {e : Event} (hgives : e.source.Gives s) (p : JEventProcessorSimpleEB)
    (spillN : UInt64) :
    ∃ filled, row A s p (e, spillN) = some (some filled)
      ∧ (¬ e.HasBig → filled.Abig = p.Abig)
      ∧ (¬ e.source.SetsSpill s → filled.m_spillN = spillN.toUInt32.toInt32) := by
  obtain ⟨d, htype, hdata⟩ := SourceEvent.eventData_of_gives hgives
  unfold row
  by_cases hset : e.source.SetsSpill s
  · rw [process_of_DAQ htype ((hdata spillN).1 hset)]
    exact ⟨_, rfl, fun hbig => fillRow_Abig A p hbig _ _, fun hno => absurd hset hno⟩
  · rw [process_of_DAQ (d := { d with spillN := spillN }) htype ((hdata spillN).2 hset)]
    exact ⟨_, rfl, fun hbig => fillRow_Abig A p hbig _ _, fun _ => fillRow_spillN A p _ _ _⟩

/-- An event with one hit, of the amplitude `v` in the crystal of `Abig`. -/
def bigEvent (v : ℚ) : Event where
  m_hits := [⟨⟨⟨1, 2, 0, 0⟩, 0, 0, 0, v, 0, false⟩, 0⟩]
  m_chits := []
  source := .tridas .fresh ⟨fun _ => 0, fun _ => 0, fun _ => 0⟩ [⟨0, 0, 0, 0, 0, by decide, []⟩]

/-- After that event `Abig` is its amplitude. -/
theorem exec_bigEvent (A : Arithmetic) (s : EvioTreeSource) (p : JEventProcessorSimpleEB) (v : ℚ) :
    ∃ p', execAll (exec A s) p [(bigEvent v, 0)] = some p' ∧ p'.Abig = v := by
  obtain ⟨d, htype, hdata⟩ := SourceEvent.eventData_of_gives (s := s)
    (show (bigEvent v).source.Gives s from ⟨List.cons_ne_nil _ _, trivial⟩)
  have hexec : exec A s p (bigEvent v, 0)
      = some (p.fillRow A (bigEvent v).m_hits [] { d with spillN := 0 }) := by
    unfold exec
    rw [process_of_DAQ (d := { d with spillN := 0 }) htype ((hdata 0).2 not_false)]
    rfl
  refine ⟨_, execAll_cons_eq_some.mpr ⟨_, hexec, rfl⟩, ?_⟩
  rw [fillRow_eq A p p]
  rfl

/-- Without a hit of the crystal of `Abig` a row tells which of two sequences came
before it. -/
theorem not_hasNoPast_of_not_big {e : Event} (hgives : e.source.Gives s) (hbig : ¬ e.HasBig)
    (init init' : JEventProcessorSimpleEB) : ¬ HasNoPast A s init init' e := by
  intro hpast
  obtain ⟨p, hrun, hp⟩ := exec_bigEvent A s init 0
  obtain ⟨p', hrun', hp'⟩ := exec_bigEvent A s init' 1
  obtain ⟨same, hrow, hrow'⟩ := hpast _ _ p p' 0 0 hrun hrun'
  obtain ⟨filled, hfilled, hAbig, -⟩ := row_of_gives (A := A) hgives p 0
  obtain ⟨filled', hfilled', hAbig', -⟩ := row_of_gives (A := A) hgives p' 0
  obtain rfl := Option.some.inj (Option.some.inj
    ((hfilled.symm.trans hrow).trans (hrow'.symm.trans hfilled')))
  have hzero : (0 : ℚ) = 1 := by rw [← hp, ← hp', ← hAbig hbig, ← hAbig' hbig]
  exact absurd hzero (by decide)

/-- Where the source leaves `spillN` alone a row tells what the memory of the
event data held. -/
theorem not_hasNoPast_of_not_set {e : Event} (hgives : e.source.Gives s)
    (hset : ¬ e.source.SetsSpill s) (init init' : JEventProcessorSimpleEB) :
    ¬ HasNoPast A s init init' e := by
  intro hpast
  obtain ⟨same, hrow, hrow'⟩ := hpast [] [] init init' 0 1 rfl rfl
  obtain ⟨filled, hfilled, -, hspill⟩ := row_of_gives (A := A) hgives init 0
  obtain ⟨filled', hfilled', -, hspill'⟩ := row_of_gives (A := A) hgives init' 1
  obtain rfl := Option.some.inj (Option.some.inj
    ((hfilled.symm.trans hrow).trans (hrow'.symm.trans hfilled')))
  have hzero : (0 : UInt64).toUInt32.toInt32 = (1 : UInt64).toUInt32.toInt32 := by
    rw [← hspill hset, ← hspill' hset]
  exact absurd hzero (by decide)

/-- **The rows have no past** exactly for the events of which all that is read is
there, and which have a hit of the crystal of `Abig` and a spill number when they
are of the data acquisition; the others fill no row. -/
theorem rows_have_no_past_iff (A : Arithmetic) (s : EvioTreeSource)
    (init init' : JEventProcessorSimpleEB) (e : Event) :
    HasNoPast A s init init' e
      ↔ e.source.Readable s ∧ (e.source.OfDAQ s → e.HasBig ∧ e.source.SetsSpill s) := by
  constructor
  · intro hpast
    obtain ⟨filled, hrow, -⟩ := hpast [] [] init init' 0 0 rfl rfl
    have hread := readable_of_row hrow
    refine ⟨hread, fun hDAQ => ⟨?_, ?_⟩⟩
    · by_contra hbig
      exact not_hasNoPast_of_not_big ⟨hread, hDAQ⟩ hbig init init' hpast
    · by_contra hset
      exact not_hasNoPast_of_not_set ⟨hread, hDAQ⟩ hset init init' hpast
  · rintro ⟨hread, h⟩ events events' p p' spillN spillN' - -
    by_cases hDAQ : e.source.OfDAQ s
    · exact row_of_big ⟨hread, hDAQ⟩ (h hDAQ).1 (h hDAQ).2 p p' spillN spillN'
    · exact ⟨none, row_of_other hread hDAQ p spillN, row_of_other hread hDAQ p' spillN'⟩

/-- The members when all of them are zero. -/
def zero : JEventProcessorSimpleEB where
  m_A := fun _ _ => 0
  m_Araw := fun _ _ => 0
  m_E := fun _ _ => 0
  m_Q := fun _ _ => 0
  m_T := fun _ _ => 0
  m_Etot := 0
  A1 := 0
  A2 := 0
  Abig := 0
  cerenkov := 0
  m_evnN := 0
  m_runN := 0
  m_spillN := 0
  m_evnTime := 0

/-- A TRIDAS event with one hit, of a small crystal. -/
def smallEvent : Event where
  m_hits := [⟨⟨⟨0, 1, 1, 0⟩, 2, 0, 0, 5, 0, false⟩, 0⟩]
  m_chits := []
  source := .tridas .fresh ⟨fun _ => 0, fun _ => 0, fun _ => 0⟩ [⟨0, 0, 0, 0, 0, by decide, []⟩]

/-- An event without a hit of the crystal of `Abig`, after one with a large
amplitude in it. -/
theorem small_event_has_past :
    ¬ HasNoPast (.wrapping 0) .default zero zero smallEvent := by
  have hgives : smallEvent.source.Gives .default := ⟨List.cons_ne_nil _ _, trivial⟩
  refine not_hasNoPast_of_not_big hgives ?_ zero zero
  rintro ⟨m_hit, hmem, hplace⟩
  rw [List.mem_singleton.mp hmem] at hplace
  exact absurd hplace (by decide)

end Event

end PokerReco.NA64
