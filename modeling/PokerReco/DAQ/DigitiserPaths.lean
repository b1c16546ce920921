/-
  PokerReco.DAQ.DigitiserPaths
  ────────────────────────────
  **THE TWO BOARDS** (`DAQ/fa250Mode1CalibPedSubHit_factory.cc`).

  The factory has a loop for the hits of the JLab boards and a loop for those
  of the waveboards.  The first takes 4 ns for the time of a sample when the
  parameters of a channel have none or 0; the second reads it as it is.

      calibrated_alike_iff   when the two give the same hit
      dT_of_waveboard_zero   a time of 0 in the table
-/
import PokerReco.DAQ.Fa250
import PokerReco.System.CalibrationAnswers

namespace PokerReco.DAQ

open PokerReco.System PokerReco.TT

/-! ## §1. Hits of one waveform. -/

/-- The two hits agree in all but the trigger, and have a time between samples:
what the rest of the program sees of them is the same. -/
structure CalibratedAlike (mode1 waveboard : Fa250Mode1CalibPedSubHit) : Prop where
  samplesRaw : mode1.samplesRaw = waveboard.samplesRaw
  samples : mode1.samples = waveboard.samples
  m_ped : mode1.m_ped = waveboard.m_ped
  m_RMS : mode1.m_RMS = waveboard.m_RMS
  m_dT : mode1.m_dT = waveboard.m_dT
  not_zero : waveboard.m_dT ≠ 0

/-! ## §2. What each loop makes of the columns. -/

namespace Fa250Mode1CalibPedSubHitFactory

variable {f : Fa250Mode1CalibPedSubHitFactory} {pedestal RMS LSB : ℚ} {others rest : List ℚ}

/-- The time of a sample, for the JLab boards: that of the parameters, and 4 ns
where these have none or 0. -/
def sampleTime (rest : List ℚ) : ℚ := if rest[0]?.getD 0 = 0 then 4 else rest[0]?.getD 0

/-- A time in the parameters that is not 0 is taken for these boards, too. -/
theorem sampleTime_of_some {dT : ℚ} (hdT : rest[0]? = some dT) (hne : dT ≠ 0) :
    sampleTime rest = dT := by
  unfold sampleTime
  rw [hdT, Option.getD_some, if_neg hne]

/-- The same waveform with the same columns is calibrated alike, whichever board
it is from. -/
theorem calibratedAlike_pedSub (hit : Fa250Mode1Hit) {hit' : Fa250Mode1Hit}
    (hsamples : hit.samplesRaw = hit'.samplesRaw) (pedestal RMS LSB : ℚ) {dT : ℚ} (hne : dT ≠ 0) :
    CalibratedAlike (pedSub hit pedestal RMS LSB dT) (pedSub hit' pedestal RMS LSB dT) where
  samplesRaw := hsamples
  samples := by
    unfold pedSub
    rw [hsamples]
  m_ped := rfl
  m_RMS := rfl
  m_dT := rfl
  not_zero := hne

/-- A JLab hit whose channel has a pedestal, a spread and a scale: the pedestal is
subtracted, and the time is never missing. -/
theorem ofMode1_eq {hit : Fa250Mode1Hit}
    (hpedestals : f.m_pedestals hit.m_channel = pedestal :: RMS :: others)
    (hparms : f.m_parms hit.m_channel = LSB :: rest) :
    f.ofMode1 hit = some (pedSub hit pedestal RMS LSB (sampleTime rest)) := by
  unfold ofMode1 sampleTime
  rw [hpedestals, hparms]
  rfl

/-- A waveboard hit with the same columns: the time of a sample is a column as
well, and there is no default. -/
theorem ofWaveboardV1_eq {hit : Fa250WaveboardV1Hit}
    (hpedestals : f.m_pedestals hit.m_channel = pedestal :: RMS :: others)
    (hparms : f.m_parms hit.m_channel = LSB :: rest) :
    f.ofWaveboardV1 hit = rest[0]?.map fun dT =>
      pedSub ⟨hit.m_channel, hit.trigger, hit.timestamp, hit.samplesRaw⟩ pedestal RMS LSB dT := by
  unfold ofWaveboardV1
  rw [hpedestals, hparms]
  show (rest[0]?).bind _ = _
  cases rest[0]? <;> rfl

/-- The factory on one hit of each kind makes one calibrated hit of each. -/
theorem evnt_two (mode1 : Fa250Mode1Hit) (waveboard : Fa250WaveboardV1Hit)
    (a b : Fa250Mode1CalibPedSubHit) :
    f.evnt [mode1] [waveboard] = some [a, b]
      ↔ f.ofMode1 mode1 = some a ∧ f.ofWaveboardV1 waveboard = some b := by
  unfold evnt
  rw [List.mapM_cons, List.mapM_nil, List.mapM_cons, List.mapM_nil]
  cases f.ofMode1 mode1 with
  | none => simp
  | some a' =>
      cases f.ofWaveboardV1 waveboard with
      | none => simp
      | some b' => simp

end Fa250Mode1CalibPedSubHitFactory

/-! ## §3. When the boards calibrate alike. -/

open Fa250Mode1CalibPedSubHitFactory

/-- **The two boards calibrate alike** exactly when the parameters of the
channel have a time of the samples that is not 0. -/
theorem calibrated_alike_iff (m_pedestals m_parms : LoadedHandler Csc)
    (mode1 : Fa250Mode1Hit) (waveboard : Fa250WaveboardV1Hit)
    (hchannel : waveboard.m_channel = mode1.m_channel)
    (hsamples : waveboard.samplesRaw = mode1.samplesRaw)
    (hpedestals : m_pedestals.table.HasColumn mode1.m_channel 1)
    (hparms : m_parms.table.HasColumn mode1.m_channel 0) :
    (∃ a b, (⟨m_pedestals.getCalib, m_parms.getCalib⟩ : Fa250Mode1CalibPedSubHitFactory).evnt
        [mode1] [waveboard] = some [a, b] ∧ CalibratedAlike a b)
      ↔ ∃ columns dT, m_parms.table.columns mode1.m_channel = some columns
        ∧ columns[1]? = some dT ∧ dT ≠ 0 := by
  obtain ⟨pedestal, RMS, others, hped⟩ := LoadedHandler.exists_of_two hpedestals
  obtain ⟨LSB, rest, hpar⟩ := LoadedHandler.exists_of_one hparms
  simp only [evnt_two]
  rw [LoadedHandler.columns_eq hparms, ofMode1_eq hped hpar,
    ofWaveboardV1_eq (hchannel ▸ hped) (hchannel ▸ hpar), hpar]
  constructor
  · -- the loop for the waveboards comes to its end only with a second parameter
    rintro ⟨a, b, ⟨-, hb⟩, halike⟩
    obtain ⟨dT, hdT, rfl⟩ := Option.map_eq_some_iff.mp hb
    exact ⟨LSB :: rest, dT, rfl, hdT, halike.not_zero⟩
  · rintro ⟨columns, dT, hcolumns, hdT, hne⟩
    obtain rfl := Option.some.inj hcolumns
    replace hdT : rest[0]? = some dT := hdT
    rw [sampleTime_of_some hdT hne]
    refine ⟨_, _, ⟨rfl, Option.map_eq_some_iff.mpr ⟨dT, hdT, rfl⟩⟩, ?_⟩
    exact calibratedAlike_pedSub mode1 hsamples.symm pedestal RMS LSB hne

/-- A channel whose parameters have a time of 4 ns: both boards calibrate its
samples alike. -/
theorem four_ns_calibrated_alike :
    ∃ a b, (⟨(⟨"/DAQ/pedestals", ⟨[[0, 0, 1, 100, 2]], by decide⟩, []⟩ :
          LoadedHandler Csc).getCalib,
        (⟨"DAQ/parms", ⟨[[0, 0, 1, 1, 4]], by decide⟩, []⟩ : LoadedHandler Csc).getCalib⟩ :
          Fa250Mode1CalibPedSubHitFactory).evnt
        [⟨⟨0, 0, 1⟩, 0, 0, [100, 140]⟩] [⟨⟨0, 0, 1⟩, 0, 0, [100, 140]⟩] = some [a, b]
        ∧ CalibratedAlike a b :=
  (calibrated_alike_iff ⟨"/DAQ/pedestals", ⟨[[0, 0, 1, 100, 2]], by decide⟩, []⟩
    ⟨"DAQ/parms", ⟨[[0, 0, 1, 1, 4]], by decide⟩, []⟩ ⟨⟨0, 0, 1⟩, 0, 0, [100, 140]⟩
    ⟨⟨0, 0, 1⟩, 0, 0, [100, 140]⟩ rfl rfl
    ⟨[0, 0, 1, 100, 2], List.mem_singleton.mpr rfl, by decide +kernel, by decide⟩
    ⟨[0, 0, 1, 1, 4], List.mem_singleton.mpr rfl, by decide +kernel, by decide⟩).mpr
    ⟨[1, 4], 4, by decide +kernel, rfl, by decide⟩

/-- Parameters of 0 for the time of a sample: the waveboard takes them, and the
JLab boards take 4 ns. -/
theorem dT_of_waveboard_zero :
    ¬ ∃ a b, (⟨(⟨"/DAQ/pedestals", ⟨[[0, 0, 1, 100, 2]], by decide⟩, []⟩ :
          LoadedHandler Csc).getCalib,
        (⟨"DAQ/parms", ⟨[[0, 0, 1, 1, 0]], by decide⟩, []⟩ : LoadedHandler Csc).getCalib⟩ :
          Fa250Mode1CalibPedSubHitFactory).evnt
        [⟨⟨0, 0, 1⟩, 0, 0, [100, 140]⟩] [⟨⟨0, 0, 1⟩, 0, 0, [100, 140]⟩] = some [a, b]
        ∧ CalibratedAlike a b := by
  rintro ⟨a, b, hevnt, halike⟩
  have hped : (⟨"/DAQ/pedestals", ⟨[[0, 0, 1, 100, 2]], by decide⟩, []⟩ :
      LoadedHandler Csc).getCalib ⟨0, 0, 1⟩ = [100, 2] := by
    rw [LoadedHandler.getCalib_eq]
    decide +kernel
  have hpar : (⟨"DAQ/parms", ⟨[[0, 0, 1, 1, 0]], by decide⟩, []⟩ :
      LoadedHandler Csc).getCalib ⟨0, 0, 1⟩ = [1, 0] := by
    rw [LoadedHandler.getCalib_eq]
    decide +kernel
  have hb := (evnt_two _ _ a b).mp hevnt
  rw [ofWaveboardV1_eq hped hpar] at hb
  obtain rfl := Option.some.inj hb.2
  exact halike.not_zero rfl

end PokerReco.DAQ
