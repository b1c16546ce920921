/-
  PokerReco.IntVeto.IntVetofa250Converter
  ───────────────────────────────────────
  **THE HIT OF A VETO SENSOR** (`IntVeto/IntVetoSiPMHit.h`,
  `IntVeto/IntVetofa250Converter.cc`).

  `convertHit` makes a sensor hit with `new IntVetoSiPMHit`, whose members hold
  what the memory held.  From a waveform it fills them all but `Qphe` and
  `Aphe`; from a hit of mode 7 it fills none but the channel.

      convertMode1Hit_eq   what a waveform leaves of the memory
      convertMode7Hit      writes no member

  A division by 0, a conversion to `int` out of its range and a read outside a
  vector are `none`.  The conversion is over any numbers with the operations of
  a `double`, in the order in which the program computes; where no numbers are
  named they are those of `ℚ`, and nothing is rounded.
-/
import Mathlib.Algebra.Ring.Rat
import PokerReco.DAQ.Fa250
import PokerReco.Library.FreshMemory
import PokerReco.TT.TranslationTable

namespace PokerReco.IntVeto

open PokerReco.DAQ PokerReco.Library PokerReco.TT

/-! ## §1. The hit. -/

/-- `IntVetoSiPMHit::hit_type`: what the converter took the waveform for. -/
inductive HitType where
  | noise
  | real_signal
  | num_hit_type
  deriving DecidableEq, Repr

/-- `IntVetoSiPMHit`. -/
structure IntVetoSiPMHit (D : Type := ℚ) where
  m_channel : ChannelInfo
  Qraw : D
  Qphe : D
  T : D
  Araw : D
  Aphe : D
  average : D
  pedMean : D
  pedRMS : D
  nSingles : Int
  RMSflag : Bool
  m_type : HitType
  deriving DecidableEq, Repr

/-- `*m_channel.int_veto`; `none` when the union holds another index. -/
def intVeto (m_channel : ChannelInfo) : Option IntVetoIndex :=
  match m_channel.index with
  | .int_veto i => some i
  | _ => none

/-- The hits that have a conversion, by their class. -/
inductive Fa250Hit (D : Type := ℚ) where
  | mode1CalibPedSub (hit : Fa250Mode1CalibPedSubHit D)
  | mode7 (hit : Fa250Mode7Hit)

/-! ## §2. `convertHit`. -/

/-- `IntVetofa250Converter`, with the answers of its calibration handler and
the square root of the library. -/
structure IntVetofa250Converter (D : Type := ℚ) where
  m_thrCalib : IntVetoIndex → List D
  m_minTot : D
  m_thr : D
  m_NSB : Int32
  m_NSA : Int32
  m_NPED : Int32
  m_RMSTHRscale : D
  sqrt : D → D

namespace IntVetofa250Converter

section Conversion

variable {D : Type} [Double D]

/-- The number of checks that are made for a quiet pedestal. -/
def NRMSCHECKS : Nat := 10

/-- The refined pedestal: `found` is false when no check succeeded, and then
`pedRMS` is that of the last check. -/
structure Pedestal (D : Type := ℚ) where
  ped : D
  pedRMS : D
  found : Bool

/-- A check: mean and spread of as many samples as asked for, from `istart` on. -/
def checkPedestal (f : IntVetofa250Converter D) (m_NPEDs istart : Int) (samples : List D) :
    Option (D × D) := do
  let (ped, pedRMS) ← (indices 0 (m_NPEDs - 1)).foldlM
    (fun (ped, pedRMS) ii => do
      let sample ← sampleAt samples (ii + istart)
      return (ped + sample, pedRMS + sample * sample))
    (0, 0)
  if m_NPEDs = 0 then none
  else
    let ped := ped / m_NPEDs
    let pedRMS := pedRMS / m_NPEDs
    return (ped, f.sqrt (pedRMS - ped * ped))

/-- The loop over the checks. -/
def refinePedestal (f : IntVetofa250Converter D) (m_NPEDs : Int)
    (input : Fa250Mode1CalibPedSubHit D) : (checks : List Nat) → (pedRMS : D) → Option (Pedestal D)
  -- not able to correct the pedestal here
  | [], pedRMS => some { ped := 0, pedRMS := pedRMS, found := false }
  | icheck :: checks, _ => do
      let size : Int := input.samples.length
      let istart := icheck * (size.tdiv NRMSCHECKS)
      let istart := if istart + m_NPEDs ≥ size then size - f.m_NPED.toInt - 1 else istart
      let (ped, pedRMS) ← f.checkPedestal m_NPEDs istart input.samples
      if pedRMS ≤ input.m_RMS * f.m_RMSTHRscale then
        return { ped := ped, pedRMS := pedRMS, found := true }
      else f.refinePedestal m_NPEDs input checks pedRMS

/-- `getCalibSingle`: the one constant of a sensor, or 0 when there is not
exactly one. -/
def getCalibSingle (f : IntVetofa250Converter D) (index : IntVetoIndex) : D :=
  match f.m_thrCalib index with
  | [value] => value
  | _ => 0

/-- The loop over the samples from place `ii` on: `prev` is the sample before,
`first` the member of `m_thisCrossingTime`.  The crossings it pushes. -/
def crossings (thr : D) : (ii : Int) → (prev : D) → (first : Int) → List D → List (Int × Int)
  -- the last sample is still over threshold
  | ii, prev, first, [] => if prev > thr then [(first, ii)] else []
  | ii, prev, first, sample :: rest =>
      if sample > thr ∧ prev < thr then crossings thr (ii + 1) sample ii rest
      else if sample < thr ∧ prev > thr ∧ first ≠ -1 then
        (first, ii) :: crossings thr (ii + 1) sample (-1) rest
      else crossings thr (ii + 1) sample first rest

/-- `m_crossingTimes`: the first and the last place of each stretch of samples
over threshold. -/
def crossingTimes (thr : D) : (m_waveform : List D) → Option (List (Int × Int))
  | [] => none
  | sample :: rest => some (crossings thr 1 sample (if sample > thr then 0 else -1) rest)

/-- The crossings of `m_singleCrossingIndexes`; a negative time over threshold
is reported and not taken. -/
def singleCrossings (f : IntVetofa250Converter D) (m_dT : D) (size : Int)
    (m_crossingTimes : List (Int × Int)) : List (Int × Int) :=
  m_crossingTimes.filter fun (first, second) =>
    ¬ second - first < 0 ∧
      (((second - first : Int) : D) > f.m_minTot / m_dT ∨ second = size ∨ first = 0)

/-- The maximum of the samples of a pulse, and its place. -/
def pulseMaximum (m_waveform : List D) (pulse : Int × Int) : Option (D × Int) :=
  let ixmin := if pulse.1 < 0 then 0 else pulse.1
  let ixmax := if pulse.2 ≥ m_waveform.length then (m_waveform.length : Int) - 1 else pulse.2
  getMaximum ixmin ixmax m_waveform

/-- The loop that selects the highest pulse: `Araw` and `imax`, which is not
set while no pulse is above the number that `Araw` starts from. -/
def highestPulse (m_waveform : List D) (pulses : List (Int × Int)) :
    Option (D × Option (Int × Int)) :=
  pulses.foldlM
    (fun (Araw, imax) pulse => do
      let (max, _) ← pulseMaximum m_waveform pulse
      return if Araw < max then (max, some pulse) else (Araw, imax))
    (Int.cast (-9999), none)

/-- The branch for no pulse: the charge is a sum from the first sample on, and the
amplitude is the maximum of all. -/
def noise (output : IntVetoSiPMHit D) (m_NSAs m_NSBs : Int) (m_waveform : List D) :
    Option (IntVetoSiPMHit D) := do
  let size : Int := m_waveform.length
  let N := if m_NSAs + m_NSBs > size then size else m_NSAs + m_NSBs
  let Qraw ← sumSamples 0 (N - 1) m_waveform
  let (Araw, _) ← getMaximum 0 (size - 1) m_waveform
  return { output with m_type := .noise, Qraw := Qraw, Araw := Araw, T := Int.cast (-1) }

/-- The branch for one pulse or more: charge and amplitude are those of the
highest one, but the time is that of the maximum of all. -/
def signal (output : IntVetoSiPMHit D) (m_dT : D) (m_NSAs m_NSBs : Int) (m_waveform : List D)
    (pulses : List (Int × Int)) : Option (IntVetoSiPMHit D) := do
  let size : Int := m_waveform.length
  let (Araw, imax) ← highestPulse m_waveform pulses
  let pulse ← imax
  let (_, Tmax) ← pulseMaximum m_waveform pulse
  let xmin := if Tmax - m_NSAs < 0 then 0 else Tmax - m_NSAs
  let xmax := if Tmax + m_NSBs ≥ size then size - 1 else Tmax + m_NSBs
  let Qraw ← sumSamples xmin xmax m_waveform
  -- the time is that of the maximum of the whole waveform
  let (_, Tmax) ← getMaximum 0 (size - 1) m_waveform
  return { output with m_type := .real_signal, Araw := Araw, Qraw := Qraw, T := Tmax * m_dT }

/-- `convertMode1Hit`: what it leaves in `output`. -/
def convertMode1Hit (f : IntVetofa250Converter D) (output : IntVetoSiPMHit D)
    (input : Fa250Mode1CalibPedSubHit D) : Option (IntVetoSiPMHit D) :=
  if input.m_dT = 0 then none
  else do
    let m_NPEDs ← truncate (f.m_NPED.toInt / input.m_dT)
    let m_NSAs ← truncate (f.m_NSA.toInt / input.m_dT)
    let m_NSBs ← truncate (f.m_NSB.toInt / input.m_dT)
    let pedestal ← f.refinePedestal m_NPEDs input (List.range NRMSCHECKS) 0
    let m_waveform := input.samples.map (· - pedestal.ped)
    let output := { output with
      pedMean := pedestal.ped
      pedRMS := pedestal.pedRMS
      RMSflag := pedestal.found
      average := m_waveform.foldl (· + ·) 0 / Int.cast m_waveform.length }
    let index ← intVeto output.m_channel
    let m_crossingTimes ← crossingTimes (f.getCalibSingle index * f.m_thr) m_waveform
    let pulses := f.singleCrossings input.m_dT input.samples.length m_crossingTimes
    let output := { output with nSingles := pulses.length }
    if output.nSingles = 0 then noise output m_NSAs m_NSBs m_waveform
    else signal output input.m_dT m_NSAs m_NSBs m_waveform pulses

/-- `convertMode7Hit` only adds the associated object. -/
def convertMode7Hit (output : IntVetoSiPMHit D) (_input : Fa250Mode7Hit) :
    Option (IntVetoSiPMHit D) :=
  some output

/-- `convertHit`; `fresh` is the memory that `new IntVetoSiPMHit` returns. -/
def convertHit (f : IntVetofa250Converter D) (fresh : IntVetoSiPMHit D) (hit : Fa250Hit D)
    (m_channel : ChannelInfo) : Option (IntVetoSiPMHit D) :=
  let m_IntVetoSiPMHit := { fresh with m_channel := m_channel }
  match hit with
  | .mode1CalibPedSub hit => f.convertMode1Hit m_IntVetoSiPMHit hit
  | .mode7 hit => convertMode7Hit m_IntVetoSiPMHit hit

end Conversion

end IntVetofa250Converter

/-! ## §3. What a waveform leaves of the memory. -/

/-- `s` with the members of `output` that no statement writes. -/
def IntVetoSiPMHit.over (output s : IntVetoSiPMHit) : IntVetoSiPMHit :=
  { s with Qphe := output.Qphe, Aphe := output.Aphe }

/-- The members written before the branch on the number of pulses agree. -/
structure IntVetoSiPMHit.Agree (output other : IntVetoSiPMHit) : Prop where
  m_channel : output.m_channel = other.m_channel
  average : output.average = other.average
  pedMean : output.pedMean = other.pedMean
  pedRMS : output.pedRMS = other.pedRMS
  nSingles : output.nSingles = other.nSingles
  RMSflag : output.RMSflag = other.RMSflag

namespace IntVetofa250Converter

/-- What the branch for no pulse leaves does not depend on the members that
it writes. -/
theorem noise_eq {output other : IntVetoSiPMHit} (h : output.Agree other) (m_NSAs m_NSBs : Int)
    (m_waveform : List ℚ) :
    noise output m_NSAs m_NSBs m_waveform
      = (noise other m_NSAs m_NSBs m_waveform).map output.over := by
  obtain ⟨hchannel, haverage, hpedMean, hpedRMS, hnSingles, hRMSflag⟩ := h
  unfold noise
  refine bind_eq_map fun Qraw _ => ?_
  refine bind_eq_map fun max _ => ?_
  rw [hchannel, haverage, hpedMean, hpedRMS, hnSingles, hRMSflag]
  rfl

/-- What the branch for pulses leaves does not depend on the members that
it writes. -/
theorem signal_eq {output other : IntVetoSiPMHit} (h : output.Agree other) (m_dT : ℚ)
    (m_NSAs m_NSBs : Int) (m_waveform : List ℚ) (pulses : List (Int × Int)) :
    signal output m_dT m_NSAs m_NSBs m_waveform pulses
      = (signal other m_dT m_NSAs m_NSBs m_waveform pulses).map output.over := by
  obtain ⟨hchannel, haverage, hpedMean, hpedRMS, hnSingles, hRMSflag⟩ := h
  unfold signal
  refine bind_eq_map fun highest _ => ?_
  refine bind_eq_map fun pulse _ => ?_
  refine bind_eq_map fun max _ => ?_
  refine bind_eq_map fun Qraw _ => ?_
  refine bind_eq_map fun last _ => ?_
  rw [hchannel, haverage, hpedMean, hpedRMS, hnSingles, hRMSflag]
  rfl

/-- **Two conversions of a waveform** go through the same reads, and their hits
differ in `Qphe` and `Aphe` only. -/
theorem convertMode1Hit_eq (f : IntVetofa250Converter) {output other : IntVetoSiPMHit}
    (h : output.m_channel = other.m_channel) (input : Fa250Mode1CalibPedSubHit) :
    f.convertMode1Hit output input = (f.convertMode1Hit other input).map output.over := by
  unfold convertMode1Hit
  split
  · rfl
  · refine bind_eq_map fun m_NPEDs _ => ?_
    refine bind_eq_map fun m_NSAs _ => ?_
    refine bind_eq_map fun m_NSBs _ => ?_
    refine bind_eq_map fun pedestal _ => ?_
    dsimp only
    rw [h]
    refine bind_eq_map fun index _ => ?_
    refine bind_eq_map fun m_crossingTimes _ => ?_
    split
    · refine noise_eq ?_ _ _ _
      exact ⟨rfl, rfl, rfl, rfl, rfl, rfl⟩
    · refine signal_eq ?_ _ _ _ _ _
      exact ⟨rfl, rfl, rfl, rfl, rfl, rfl⟩

end IntVetofa250Converter

end PokerReco.IntVeto
