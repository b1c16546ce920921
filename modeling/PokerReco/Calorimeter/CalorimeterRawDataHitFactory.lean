/-
  PokerReco.Calorimeter.CalorimeterRawDataHitFactory
  ──────────────────────────────────────────────────
  **CHARGES AND DIGI HITS OF THE DATA**
  (`Calorimeter/CalorimeterRawDataHit_factory.cc`,
  `Calorimeter/CalorimeterDigiHit_factory.cc`).

  The first factory integrates the waveforms on channels of the calorimeter,
  the second copies each result into a digi hit.  Both write `new T()`, so a
  member that no statement writes is 0.
-/
import PokerReco.Calorimeter.CalorimeterHitFactory
import PokerReco.DAQ.Fa250
import PokerReco.TT.TranslationTable

namespace PokerReco.Calorimeter

open PokerReco.DAQ PokerReco.TT

/-! ## §1. `CalorimeterRawDataHit_factory`. -/

/-- `CalorimeterRawDataHit`, with the members that the integration writes. -/
structure CalorimeterRawDataHit where
  m_channel : ChannelInfo
  Qraw : ℚ
  Q : ℚ
  T : ℚ
  A : ℚ
  pedMean : ℚ
  pedRMS : ℚ
  RMSflag : Bool
  deriving DecidableEq, Repr

/-- `new CalorimeterRawDataHit()`, with its channel. -/
def CalorimeterRawDataHit.new (m_channel : ChannelInfo) : CalorimeterRawDataHit :=
  ⟨m_channel, 0, 0, 0, 0, 0, 0, false⟩

/-- The variables of the integration: the two sums, the maximum and its time. -/
structure Integration where
  ped : ℚ
  Q : ℚ
  A : ℚ
  T : ℚ

/-- `CalorimeterRawDataHit_factory`: the pedestal, the window and the scale. -/
structure CalorimeterRawDataHitFactory where
  m_ped : Int32
  m_first : Int32
  m_last : Int32
  m_scale : ℚ

namespace CalorimeterRawDataHitFactory

/-- The settings of `init`, before the parameters. -/
def default : CalorimeterRawDataHitFactory := ⟨20, 40, 200, 1⟩

/-- A turn of the loop over the samples; `Araw`, which nothing reads, is left
out. -/
def turn (f : CalorimeterRawDataHitFactory) (m_dT : ℚ) (s : Integration) (sample : ℚ × Nat) :
    Integration where
  ped := if (sample.2 : Int) < f.m_ped.toInt then s.ped + sample.1 * f.m_scale else s.ped
  Q := if (sample.2 : Int) ≥ f.m_first.toInt ∧ (sample.2 : Int) ≤ f.m_last.toInt then
      s.Q + sample.1 * f.m_scale
    else s.Q
  A := if sample.1 * f.m_scale > s.A then sample.1 * f.m_scale else s.A
  T := if sample.1 * f.m_scale > s.A then sample.2 * m_dT else s.T

/-- The integration of a waveform; `none` for a pedestal of no samples. -/
def integrate (f : CalorimeterRawDataHitFactory) (m_channel : ChannelInfo)
    (hit : Fa250Mode1CalibPedSubHit) : Option CalorimeterRawDataHit :=
  if f.m_ped = 0 then none
  else
    let m_ped : ℚ := f.m_ped.toInt
    let s := hit.samples.zipIdx.foldl (f.turn hit.m_dT) ⟨0, 0, -9999, 0⟩
    let Q := s.Q - s.ped * (f.m_last.toInt - f.m_first.toInt + 1) / m_ped
    some { CalorimeterRawDataHit.new m_channel with
      pedMean := s.ped / m_ped
      Qraw := Q
      A := s.A - s.ped / m_ped
      T := s.T
      Q := Q }

/-- A turn of the loop over the hits: what it pushes, which is nothing for a
channel of another detector or another readout. -/
def ofHit (f : CalorimeterRawDataHitFactory) (m_tt : Table) (hit : Fa250Mode1CalibPedSubHit) :
    Option (List CalorimeterRawDataHit) :=
  let m_channel := getChannelInfo m_tt hit.m_channel
  if m_channel.det_sys = .CALORIMETER then
    match m_channel.index with
    | .calorimeter index =>
        if index.readout ≤ 2 then (f.integrate m_channel hit).map ([·]) else some []
    | _ => none
  else some []

/-- `evnt`: the contents of `_data`, a hit for each waveform of the calorimeter. -/
def evnt (f : CalorimeterRawDataHitFactory) (m_tt : Table)
    (hits : List Fa250Mode1CalibPedSubHit) : Option (List CalorimeterRawDataHit) :=
  (hits.mapM (f.ofHit m_tt)).map List.flatten

end CalorimeterRawDataHitFactory

/-! ## §2. `CalorimeterDigiHit_factory`. -/

/-- A turn of the loop that copies a hit into a digi hit. -/
def digiHitOf (hit : CalorimeterRawDataHit) : Option DigiHit :=
  match hit.m_channel.index with
  | .calorimeter index =>
      some { m_channel := index
             Q := hit.Q
             T := hit.T
             A := hit.A
             pedMean := hit.pedMean
             pedRMS := hit.pedRMS
             RMSflag := hit.RMSflag }
  | _ => none

/-- `evnt` of the factory of the digi hits: the contents of its `_data`. -/
def digiHits (hits : List CalorimeterRawDataHit) : Option (List DigiHit) := hits.mapM digiHitOf

end PokerReco.Calorimeter
