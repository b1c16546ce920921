/-
  PokerReco.Cerenkov.CerenkovHitFactory
  ─────────────────────────────────────
  **THE HITS OF THE CERENKOV COUNTERS** (`Cerenkov/CerenkovHit_factory.cc`).

  A waveform gives a hit when its amplitude, the maximum above the mean of the
  first samples, is above the threshold of its readout.  The number of these
  samples is a `double`.
-/
import PokerReco.DAQ.Fa250
import PokerReco.TT.TranslationTable

namespace PokerReco.Cerenkov

open PokerReco.DAQ PokerReco.TT

/-- `CerenkovHit`, which is no more than its channel. -/
structure CerenkovHit where
  m_channel : CerenkovIndex
  associated : Fa250Mode1CalibPedSubHit

/-- `CerenkovHit_factory`: the thresholds, the number of samples of the pedestal
and the scale. -/
structure CerenkovHitFactory where
  m_thr_analog : ℚ
  m_thr_digital : ℚ
  m_pedestal : ℚ
  m_scale : ℚ

namespace CerenkovHitFactory

/-- The settings of `init`, before the parameters. -/
def default : CerenkovHitFactory := ⟨20, 20, 15, -1⟩

/-- A turn of the loop over the samples, which makes `ped` and `A`. -/
def turn (f : CerenkovHitFactory) (s : ℚ × ℚ) (sample : ℚ × Nat) : ℚ × ℚ where
  fst := if (sample.2 : ℚ) < f.m_pedestal then s.1 + sample.1 * f.m_scale else s.1
  snd := if sample.1 * f.m_scale > s.2 then sample.1 * f.m_scale else s.2

/-- `A` when it is compared with a threshold; `none` for a pedestal of no
samples. -/
def amplitude (f : CerenkovHitFactory) (hit : Fa250Mode1CalibPedSubHit) : Option ℚ :=
  if f.m_pedestal = 0 then none
  else
    let s := hit.samples.zipIdx.foldl f.turn (0, -9999)
    some (s.2 - s.1 / f.m_pedestal)

/-- `isGood`; other readouts have no threshold and are not good. -/
def isGood (f : CerenkovHitFactory) (cerenkov : CerenkovIndex) (A : ℚ) : Bool :=
  if cerenkov.readout = 1 then A > f.m_thr_digital
  else if cerenkov.readout = 0 then A > f.m_thr_analog
  else false

/-- A turn of the loop over the hits: what it pushes. -/
def ofHit (f : CerenkovHitFactory) (m_tt : Table) (hit : Fa250Mode1CalibPedSubHit) :
    Option (List CerenkovHit) :=
  let m_channel := getChannelInfo m_tt hit.m_channel
  if m_channel.det_sys = .CERENKOV then
    match m_channel.index with
    | .cerenkov cerenkov =>
        (f.amplitude hit).map fun A =>
          if f.isGood cerenkov A then [{ m_channel := cerenkov, associated := hit }] else []
    | _ => none
  else some []

/-- `evnt`: the contents of `_data`, the good hits in the order of the event. -/
def evnt (f : CerenkovHitFactory) (m_tt : Table) (hits : List Fa250Mode1CalibPedSubHit) :
    Option (List CerenkovHit) :=
  (hits.mapM (f.ofHit m_tt)).map List.flatten

end CerenkovHitFactory

end PokerReco.Cerenkov
