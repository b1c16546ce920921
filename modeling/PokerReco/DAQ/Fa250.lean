/-
  PokerReco.DAQ.Fa250
  ───────────────────
  **THE HITS OF THE FLASH ADCS** (`DAQ/fa250*Hit.h`,
  `DAQ/fa250Mode1CalibPedSubHit_factory.cc`, `DAQ/fa250Converter.h`).

  A mode-1 hit is a waveform.  The factory subtracts the pedestals of the
  waveforms and converts them to mV; the converters of the detectors share a
  sum and a maximum over a stretch of samples.

  The samples of a calibrated hit, and the sum and the maximum over them, are
  over any numbers with the operations of a `double`.  Where no numbers are
  named they are those of `ℚ`, and nothing is rounded.
-/
import Mathlib.Algebra.Order.Ring.Unbundled.Rat
import PokerReco.DAQ.JEventSourceEvioDAQ
import PokerReco.Library.Double
import PokerReco.Library.PartialFold

namespace PokerReco.DAQ

open PokerReco.Library PokerReco.TT

/-! ## §1. The hits. -/

/-- `fa250WaveboardV1Hit`: the waveform of a channel of a waveboard, as it
was read. -/
structure Fa250WaveboardV1Hit where
  m_channel : Csc
  trigger : Int32
  timestamp : UInt64
  samplesRaw : List Int32
  deriving DecidableEq, Repr

/-- `fa250Mode1CalibPedSubHit`: the waveform as it was read, and in mV with the
pedestal subtracted. -/
structure Fa250Mode1CalibPedSubHit (D : Type := ℚ) where
  m_channel : Csc
  trigger : Int32
  timestamp : UInt64
  samplesRaw : List Int32
  samples : List D
  m_dT : D
  m_ped : D
  m_RMS : D
  deriving DecidableEq, Repr

/-! ## §2. `fa250Mode1CalibPedSubHit_factory`. -/

/-- `fa250Mode1CalibPedSubHit_factory`, with the answers of its
calibration handlers. -/
structure Fa250Mode1CalibPedSubHitFactory where
  m_pedestals : Csc → List ℚ
  m_parms : Csc → List ℚ

namespace Fa250Mode1CalibPedSubHitFactory

/-- The new hit for a waveform, each sample of which loses the pedestal and is
scaled to mV. -/
def pedSub (hit : Fa250Mode1Hit) (pedestal RMS LSB dT : ℚ) : Fa250Mode1CalibPedSubHit where
  m_channel := hit.m_channel
  trigger := hit.trigger
  timestamp := hit.timestamp
  samplesRaw := hit.samplesRaw
  samples := hit.samplesRaw.map fun sampleRaw => (sampleRaw.toInt - pedestal) * LSB
  m_dT := dT
  m_ped := pedestal * LSB
  -- there are cases where LSB is < 0
  m_RMS := |RMS * LSB|

/-- A turn of the loop over the hits of the JLab boards; `none` when a
calibration has too few columns. -/
def ofMode1 (f : Fa250Mode1CalibPedSubHitFactory) (hit : Fa250Mode1Hit) :
    Option Fa250Mode1CalibPedSubHit := do
  let DAQdata := f.m_pedestals hit.m_channel
  let pedestal ← DAQdata[0]?
  let RMS ← DAQdata[1]?
  let PARMSdata := f.m_parms hit.m_channel
  let LSB ← PARMSdata[0]?
  let dT := PARMSdata[1]?.getD 0
  -- retro-compatibility
  let dT := if dT = 0 then 4 else dT
  return pedSub hit pedestal RMS LSB dT

/-- A turn of the loop over the hits of the waveboards. -/
def ofWaveboardV1 (f : Fa250Mode1CalibPedSubHitFactory) (hit : Fa250WaveboardV1Hit) :
    Option Fa250Mode1CalibPedSubHit := do
  let DAQdata := f.m_pedestals hit.m_channel
  let pedestal ← DAQdata[0]?
  let RMS ← DAQdata[1]?
  let PARMSdata := f.m_parms hit.m_channel
  let LSB ← PARMSdata[0]?
  let dT ← PARMSdata[1]?
  return pedSub ⟨hit.m_channel, hit.trigger, hit.timestamp, hit.samplesRaw⟩ pedestal RMS LSB dT

/-- `evnt`: the contents of `_data`, the hits of the JLab boards before those of
the waveboards. -/
def evnt (f : Fa250Mode1CalibPedSubHitFactory) (hits : List Fa250Mode1Hit)
    (wbhitsV1 : List Fa250WaveboardV1Hit) : Option (List Fa250Mode1CalibPedSubHit) := do
  let data ← hits.mapM f.ofMode1
  let wbdata ← wbhitsV1.mapM f.ofWaveboardV1
  return data ++ wbdata

end Fa250Mode1CalibPedSubHitFactory

/-! ## §3. `fa250Converter`. -/

section Converter

variable {D : Type}

/-- `x[i]`, which is `none` outside the array. -/
def sampleAt (x : List D) (i : Int) : Option D :=
  if i < 0 then none else x[i.toNat]?

/-- The indices of `for (int ii = first; ii <= last; ii++)`. -/
def indices (first last : Int) : List Int :=
  (List.range (last + 1 - first).toNat).map fun n : Nat => first + n

/-- A place inside the array can be read. -/
theorem sampleAt_isSome {samples : List D} {i : Int} (hi : 0 ≤ i) (hlt : i < samples.length) :
    (sampleAt samples i).isSome = true := by
  rw [sampleAt, if_neg (by omega), List.getElem?_eq_getElem (by omega)]
  rfl

/-- The places that a loop from `first` to `last` goes through. -/
theorem mem_indices {first last ii : Int} (hmem : ii ∈ indices first last) :
    first ≤ ii ∧ ii ≤ last := by
  obtain ⟨n, hn, rfl⟩ := List.mem_map.mp hmem
  have := List.mem_range.mp hn
  omega

/-- A loop over places inside the waveform that can fail in its reads only
comes to its end. -/
theorem foldlM_indices_isSome {σ : Type} (samples : List D) {first last : Int}
    {step : σ → Int → Option σ} (hstep : ∀ s ii, (step s ii).isSome = (sampleAt samples ii).isSome)
    (hfirst : 0 ≤ first) (hlast : last < samples.length) (s : σ) :
    ((indices first last).foldlM step s).isSome = true := by
  refine (foldlM_isSome_iff (fun s ii => by rw [hstep]) _ s).mpr fun ii hmem => ?_
  obtain ⟨hle, hle'⟩ := mem_indices hmem
  exact sampleAt_isSome (hfirst.trans hle) (by omega)

variable [Double D]

/-- `sumSamples`; the one that takes a number `N` of samples calls it with `0`
and `N - 1`. -/
def sumSamples (first last : Int) (samples : List D) : Option D :=
  (indices first last).foldlM (fun ret ii => (sampleAt samples ii).map (ret + ·)) 0

/-- `getMaximum`: the maximum and `Tmax`, the place of the first sample
that has it. -/
def getMaximum (first last : Int) (x : List D) : Option (D × Int) := do
  let start ← sampleAt x first
  (indices first last).foldlM
    (fun (max, Tmax) ii => do
      let sample ← sampleAt x ii
      return if sample > max then (sample, ii) else (max, Tmax))
    (start, first)

end Converter

end PokerReco.DAQ
