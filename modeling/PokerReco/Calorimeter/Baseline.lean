/-
  PokerReco.Calorimeter.Baseline
  ──────────────────────────────
  **A BASELINE UNDER A WAVEFORM** (`Calorimeter/CalorimeterRawDataHit_factory.cc`,
  `Cerenkov/CerenkovHit_factory.cc`).

  Both factories subtract the mean of the first `NPED` samples.  The sum is
  made of the samples that there are, and is divided by `NPED`; the charge is
  the sum of the samples that the window has, less as many pedestals as it is
  wide.

      integrate_eq         the integration as two sums and a maximum
      baseline_free_iff    a constant under all samples shows in the results
                           unless the waveform is as long as `NPED` and the
                           window
-/
import Mathlib.Algebra.Order.Ring.Rat
import Mathlib.Algebra.Order.Floor.Ring
import Mathlib.Data.Rat.Floor
import Mathlib.Tactic.FieldSimp
import Mathlib.Tactic.Linarith
import PokerReco.Calorimeter.CalorimeterRawDataHitFactory
import PokerReco.Cerenkov.CerenkovHitFactory
import PokerReco.Library.PartialFold
import PokerReco.Library.PlacedLoops

namespace PokerReco.DAQ.Fa250Mode1CalibPedSubHit

/-- The hit with a constant added to each of its samples. -/
def addBaseline (hit : Fa250Mode1CalibPedSubHit) (c : ℚ) : Fa250Mode1CalibPedSubHit :=
  { hit with samples := hit.samples.map (· + c) }

/-- The samples that the loops compare and add, which are the ones of the hit
times a scale. -/
def scaled (hit : Fa250Mode1CalibPedSubHit) (scale : ℚ) : List ℚ := hit.samples.map (· * scale)

/-- A constant under the samples is a constant under the scaled samples. -/
theorem scaled_addBaseline (hit : Fa250Mode1CalibPedSubHit) (c scale : ℚ) :
    (hit.addBaseline c).scaled scale = (hit.scaled scale).map (· + c * scale) := by
  simp only [scaled, addBaseline, List.map_map, Function.comp_def, add_mul]

/-- A scale leaves the number of samples. -/
theorem length_scaled (hit : Fa250Mode1CalibPedSubHit) (scale : ℚ) :
    (hit.scaled scale).length = hit.samples.length := List.length_map _

/-- A scale leaves samples where there are some. -/
theorem scaled_ne_nil {hit : Fa250Mode1CalibPedSubHit} {scale : ℚ} (h : hit.samples ≠ []) :
    hit.scaled scale ≠ [] := fun hnil => h (List.map_eq_nil_iff.mp hnil)

end PokerReco.DAQ.Fa250Mode1CalibPedSubHit

namespace PokerReco.Calorimeter

open PokerReco.DAQ PokerReco.Library PokerReco.TT
open Fa250Mode1CalibPedSubHit (length_scaled scaled_addBaseline scaled_ne_nil)

/-! ## §1. An amplitude, a charge. -/

/-- An amplitude stays when the mean moves as much as the maximum. -/
theorem amplitude_eq_iff {A ped d q n : ℚ} (hn : 0 < n) (hd : d ≠ 0) :
    A + d - (ped + q * d) / n = A - ped / n ↔ q = n := by
  constructor
  · intro h
    have hmoved : q * d = n * d := by
      field_simp at h
      linarith
    exact mul_right_cancel₀ hd hmoved
  · rintro rfl
    field_simp
    ring

/-- A charge stays when the window moves as often as it is wide. -/
theorem charge_eq_iff {Q ped d w n width : ℚ} (hn : 0 < n) (hd : d ≠ 0) :
    Q + w * d - (ped + n * d) * width / n = Q - ped * width / n ↔ w = width := by
  have hmean : (ped + n * d) * width / n = ped * width / n + width * d := by
    field_simp
  rw [hmean]
  constructor
  · intro h
    have hmoved : w * d = width * d := by linarith
    exact mul_right_cancel₀ hd hmoved
  · rintro rfl
    ring

/-! ## §2. The calorimeter. -/

namespace CalorimeterRawDataHitFactory

variable {f : CalorimeterRawDataHitFactory} {m_tt : Table} {hit : Fa250Mode1CalibPedSubHit} {c : ℚ}

/-- The sum for the pedestal, of the first samples of the waveform. -/
def pedestalSum (f : CalorimeterRawDataHitFactory) (hit : Fa250Mode1CalibPedSubHit) : ℚ :=
  sumAt (fun k : Nat => (k : Int) < f.m_ped.toInt) (hit.scaled f.m_scale)

/-- The sum over the window, from the first to the last sample of it. -/
def windowSum (f : CalorimeterRawDataHitFactory) (hit : Fa250Mode1CalibPedSubHit) : ℚ :=
  sumAt (fun k : Nat => (k : Int) ≥ f.m_first.toInt ∧ (k : Int) ≤ f.m_last.toInt)
    (hit.scaled f.m_scale)

/-- The loop over the samples is two sums and a maximum. -/
theorem foldl_turn_eq (f : CalorimeterRawDataHitFactory) (hit : Fa250Mode1CalibPedSubHit) :
    hit.samples.zipIdx.foldl (f.turn hit.m_dT) ⟨0, 0, -9999, 0⟩
      = ⟨f.pedestalSum hit, f.windowSum hit, (peakAt (-9999) (hit.scaled f.m_scale)).1,
          (peakAt (-9999) (hit.scaled f.m_scale)).2 * hit.m_dT⟩ := by
  unfold pedestalSum windowSum Fa250Mode1CalibPedSubHit.scaled
  induction hit.samples using List.reverseRecOn with
  | nil =>
      show (⟨0, 0, -9999, 0⟩ : Integration) = ⟨0, 0, -9999, ((0 : Nat) : ℚ) * hit.m_dT⟩
      rw [Nat.cast_zero, zero_mul]
  | append_singleton samples sample ih =>
      rw [List.zipIdx_append, List.foldl_append, ih, List.map_append, List.map_singleton,
        sumAt_append, sumAt_append, peakAt_append, List.length_map]
      simp only [List.zipIdx_singleton, List.foldl_cons, List.foldl_nil, Nat.zero_add, turn]
      congr 1
      · split <;> rfl
      · split <;> rfl

/-- **The integration** of a waveform, by the two sums and the maximum. -/
theorem integrate_eq (hped : 0 < f.m_ped.toInt) (m_channel : ChannelInfo) :
    f.integrate m_channel hit = some { CalorimeterRawDataHit.new m_channel with
      pedMean := f.pedestalSum hit / f.m_ped.toInt
      Qraw := f.windowSum hit
        - f.pedestalSum hit * (f.m_last.toInt - f.m_first.toInt + 1) / f.m_ped.toInt
      A := (peakAt (-9999) (hit.scaled f.m_scale)).1 - f.pedestalSum hit / f.m_ped.toInt
      T := (peakAt (-9999) (hit.scaled f.m_scale)).2 * hit.m_dT
      Q := f.windowSum hit
        - f.pedestalSum hit * (f.m_last.toInt - f.m_first.toInt + 1) / f.m_ped.toInt } := by
  have hne : f.m_ped ≠ 0 := by
    rintro hzero
    rw [hzero] at hped
    exact absurd hped (by decide)
  rw [integrate, if_neg hne]
  simp only [foldl_turn_eq]

/-- What a hit says about charge, amplitude and time. -/
def charges (hit : CalorimeterRawDataHit) : ℚ × ℚ × ℚ := (hit.Q, hit.A, hit.T)

/-- A waveform of a calorimeter channel, with usable settings, that stays above
the start value of the maximum with the constant and without it. -/
structure Measures (f : CalorimeterRawDataHitFactory) (m_tt : Table)
    (hit : Fa250Mode1CalibPedSubHit) (c : ℚ) : Prop where
  m_ped : 0 < f.m_ped.toInt
  m_first : 0 ≤ f.m_first.toInt
  m_last : f.m_first.toInt ≤ f.m_last.toInt
  m_scale : 0 < f.m_scale
  det_sys : (getChannelInfo m_tt hit.m_channel).det_sys = .CALORIMETER
  index : ∃ index, (getChannelInfo m_tt hit.m_channel).index = .calorimeter index
    ∧ index.readout ≤ 2
  samples : hit.samples ≠ []
  above : ∀ sample ∈ hit.scaled f.m_scale, -9999 < sample
  moved : ∀ sample ∈ hit.scaled f.m_scale, -9999 < sample + c * f.m_scale

/-- The constant does not change what `evnt` publishes, whatever else is in the
event. -/
def BaselineFree (f : CalorimeterRawDataHitFactory) (m_tt : Table)
    (hit : Fa250Mode1CalibPedSubHit) (c : ℚ) : Prop :=
  ∀ before after, (f.evnt m_tt (before ++ hit.addBaseline c :: after)).map (List.map charges)
    = (f.evnt m_tt (before ++ hit :: after)).map (List.map charges)

/-- The waveform is as long as the pedestal and the window ask for. -/
def LongEnough (f : CalorimeterRawDataHitFactory) (hit : Fa250Mode1CalibPedSubHit) : Prop :=
  f.m_ped.toInt ≤ hit.samples.length ∧ f.m_last.toInt < hit.samples.length

/-- The turn of a waveform on the hit's channel makes one hit, by its
integration. -/
theorem ofHit_eq (h : f.Measures m_tt hit c) {hit' : Fa250Mode1CalibPedSubHit}
    (hchannel : hit'.m_channel = hit.m_channel) :
    (f.ofHit m_tt hit').map (List.map charges) = some [(
      f.windowSum hit'
        - f.pedestalSum hit' * (f.m_last.toInt - f.m_first.toInt + 1) / f.m_ped.toInt,
      (peakAt (-9999) (hit'.scaled f.m_scale)).1 - f.pedestalSum hit' / f.m_ped.toInt,
      (peakAt (-9999) (hit'.scaled f.m_scale)).2 * hit'.m_dT)] := by
  obtain ⟨index, hindex, hreadout⟩ := h.index
  rw [ofHit, hchannel]
  simp only [h.det_sys, if_true, hindex, if_pos hreadout, integrate_eq h.m_ped]
  rfl

/-- The sum for the pedestal moves once for each of its samples. -/
theorem pedestalSum_addBaseline (f : CalorimeterRawDataHitFactory)
    (hit : Fa250Mode1CalibPedSubHit) (c : ℚ) :
    f.pedestalSum (hit.addBaseline c) = f.pedestalSum hit
      + (min hit.samples.length f.m_ped.toInt.toNat : Nat) * (c * f.m_scale) := by
  have hcount : countAt (fun k : Nat => (k : Int) < f.m_ped.toInt) hit.samples.length
      = min hit.samples.length f.m_ped.toInt.toNat := by
    rw [← countAt_lt]
    exact countAt_congr (fun k => by omega) _
  rw [pedestalSum, scaled_addBaseline, sumAt_map_add, length_scaled, hcount,
    nsmul_eq_mul]
  rfl

/-- The sum over the window moves once for each of its samples. -/
theorem windowSum_addBaseline (hit : Fa250Mode1CalibPedSubHit) (c : ℚ)
    (hfirst : 0 ≤ f.m_first.toInt) (hlast : f.m_first.toInt ≤ f.m_last.toInt) :
    f.windowSum (hit.addBaseline c) = f.windowSum hit
      + (min hit.samples.length (f.m_last.toInt.toNat + 1) - f.m_first.toInt.toNat : Nat)
        * (c * f.m_scale) := by
  have hcount : countAt (fun k : Nat => (k : Int) ≥ f.m_first.toInt ∧ (k : Int) ≤ f.m_last.toInt)
      hit.samples.length
      = min hit.samples.length (f.m_last.toInt.toNat + 1) - f.m_first.toInt.toNat := by
    rw [← countAt_between]
    exact countAt_congr (fun k => by omega) _
  rw [windowSum, scaled_addBaseline, sumAt_map_add, length_scaled, hcount,
    nsmul_eq_mul]
  rfl

/-- **A baseline of the calorimeter** does not show exactly when it is 0 or the
waveform is long enough. -/
theorem baselineFree_iff (h : f.Measures m_tt hit c) :
    f.BaselineFree m_tt hit c ↔ c = 0 ∨ f.LongEnough hit := by
  have hped := h.m_ped
  have hfirst := h.m_first
  have hlast := h.m_last
  have hn : (0 : ℚ) < f.m_ped.toInt := Int.cast_pos.mpr h.m_ped
  have hpeak := peakAt_map_add (scaled_ne_nil h.samples) h.above h.moved
  have hchannel : (hit.addBaseline c).m_channel = hit.m_channel := rfl
  have hdT : (hit.addBaseline c).m_dT = hit.m_dT := rfl
  unfold BaselineFree evnt
  rw [flatten_mapM_replace, ofHit_eq h hchannel, ofHit_eq h rfl, hdT]
  rw [scaled_addBaseline, hpeak, pedestalSum_addBaseline, windowSum_addBaseline hit c hfirst hlast,
    Option.some_inj, List.singleton_inj, Prod.mk_inj, Prod.mk_inj]
  rcases eq_or_ne c 0 with rfl | hc
  · simp
  · have hd : c * f.m_scale ≠ 0 := mul_ne_zero hc h.m_scale.ne'
    rw [amplitude_eq_iff hn hd]
    have hmean : ((min hit.samples.length f.m_ped.toInt.toNat : Nat) : ℚ) = f.m_ped.toInt
        ↔ f.m_ped.toInt ≤ hit.samples.length := by
      rw [← Int.cast_natCast, Int.cast_inj]
      omega
    have hwindow : ((min hit.samples.length (f.m_last.toInt.toNat + 1) - f.m_first.toInt.toNat
        : Nat) : ℚ) = f.m_last.toInt - f.m_first.toInt + 1
        ↔ f.m_last.toInt < hit.samples.length := by
      rw [← Int.cast_natCast, ← Int.cast_sub, ← Int.cast_one, ← Int.cast_add, Int.cast_inj]
      omega
    constructor
    · rintro ⟨hQ, hA, -⟩
      rw [hA, charge_eq_iff hn hd] at hQ
      exact .inr ⟨hmean.mp hA, hwindow.mp hQ⟩
    · rintro (hzero | ⟨hlong, hcover⟩)
      · exact absurd hzero hc
      · rw [hmean.mpr hlong, charge_eq_iff hn hd]
        exact ⟨hwindow.mpr hcover, rfl, rfl⟩

end CalorimeterRawDataHitFactory

end PokerReco.Calorimeter

/-! ## §3. The Cerenkov counters. -/

namespace PokerReco.Cerenkov.CerenkovHitFactory

open PokerReco.Calorimeter PokerReco.DAQ PokerReco.Library PokerReco.TT
open Fa250Mode1CalibPedSubHit (length_scaled scaled_addBaseline scaled_ne_nil)

variable {f : CerenkovHitFactory} {m_tt : Table} {hit : Fa250Mode1CalibPedSubHit} {c : ℚ}

/-- The sum for the pedestal of a Cerenkov counter, of the first samples of
the waveform. -/
def pedestalSum (f : CerenkovHitFactory) (hit : Fa250Mode1CalibPedSubHit) : ℚ :=
  sumAt (fun k : Nat => (k : ℚ) < f.m_pedestal) (hit.scaled f.m_scale)

/-- The loop over the samples of a Cerenkov counter is a sum and a maximum. -/
theorem foldl_turn_eq (f : CerenkovHitFactory) (hit : Fa250Mode1CalibPedSubHit) :
    hit.samples.zipIdx.foldl f.turn (0, -9999)
      = (f.pedestalSum hit, (peakAt (-9999) (hit.scaled f.m_scale)).1) := by
  unfold pedestalSum Fa250Mode1CalibPedSubHit.scaled
  induction hit.samples using List.reverseRecOn with
  | nil => rfl
  | append_singleton samples sample ih =>
      rw [List.zipIdx_append, List.foldl_append, ih, List.map_append, List.map_singleton,
        sumAt_append, peakAt_append, List.length_map]
      simp only [List.zipIdx_singleton, List.foldl_cons, List.foldl_nil, Nat.zero_add, turn]
      congr 1
      split <;> rfl

/-- **The amplitude** of a waveform of a Cerenkov counter, by the sum and
the maximum. -/
theorem amplitude_eq (hped : 0 < f.m_pedestal) (hit : Fa250Mode1CalibPedSubHit) :
    f.amplitude hit = some ((peakAt (-9999) (hit.scaled f.m_scale)).1
      - f.pedestalSum hit / f.m_pedestal) := by
  rw [amplitude, if_neg hped.ne']
  simp only [foldl_turn_eq]

/-- A waveform of a Cerenkov channel, with usable settings, that stays above
the start value of the maximum with the constant and without it. -/
structure Measures (f : CerenkovHitFactory) (m_tt : Table) (hit : Fa250Mode1CalibPedSubHit)
    (c : ℚ) : Prop where
  m_pedestal : 0 < f.m_pedestal
  m_scale : f.m_scale ≠ 0
  det_sys : (getChannelInfo m_tt hit.m_channel).det_sys = .CERENKOV
  index : ∃ index, (getChannelInfo m_tt hit.m_channel).index = .cerenkov index
  samples : hit.samples ≠ []
  above : ∀ sample ∈ hit.scaled f.m_scale, -9999 < sample
  moved : ∀ sample ∈ hit.scaled f.m_scale, -9999 < sample + c * f.m_scale

/-- The constant changes neither the amplitude that `evnt` compares nor, in any
event, what it accepts. -/
def BaselineFree (f : CerenkovHitFactory) (m_tt : Table) (hit : Fa250Mode1CalibPedSubHit)
    (c : ℚ) : Prop :=
  f.amplitude (hit.addBaseline c) = f.amplitude hit
    ∧ ∀ before after,
        (f.evnt m_tt (before ++ hit.addBaseline c :: after)).map (List.map CerenkovHit.m_channel)
          = (f.evnt m_tt (before ++ hit :: after)).map (List.map CerenkovHit.m_channel)

/-- The pedestal is a whole number of samples that the waveform has. -/
def LongEnough (f : CerenkovHitFactory) (hit : Fa250Mode1CalibPedSubHit) : Prop :=
  ∃ n : Nat, f.m_pedestal = n ∧ n ≤ hit.samples.length

/-- The sum for the pedestal of a Cerenkov counter moves once for each of
its samples. -/
theorem pedestalSum_addBaseline (f : CerenkovHitFactory) (hit : Fa250Mode1CalibPedSubHit) (c : ℚ) :
    f.pedestalSum (hit.addBaseline c) = f.pedestalSum hit
      + (min hit.samples.length ⌈f.m_pedestal⌉₊ : Nat) * (c * f.m_scale) := by
  have hcount : countAt (fun k : Nat => (k : ℚ) < f.m_pedestal) hit.samples.length
      = min hit.samples.length ⌈f.m_pedestal⌉₊ := by
    rw [← countAt_lt]
    exact countAt_congr (fun k => Nat.lt_ceil.symm) _
  rw [pedestalSum, scaled_addBaseline, sumAt_map_add, length_scaled, hcount, nsmul_eq_mul]
  rfl

/-- With the amplitude goes the decision whether there is a Cerenkov hit. -/
theorem ofHit_addBaseline (h : f.amplitude (hit.addBaseline c) = f.amplitude hit) :
    (f.ofHit m_tt (hit.addBaseline c)).map (List.map CerenkovHit.m_channel)
      = (f.ofHit m_tt hit).map (List.map CerenkovHit.m_channel) := by
  have hchannel : (hit.addBaseline c).m_channel = hit.m_channel := rfl
  rw [ofHit, ofHit, h, hchannel]
  split
  · split
    · rw [Option.map_map, Option.map_map]
      congr 1
      funext A
      show List.map CerenkovHit.m_channel (if _ then _ else _) = List.map _ (if _ then _ else _)
      split <;> rfl
    · rfl
  · rfl

/-- **A baseline of a Cerenkov counter** does not show exactly when it is 0 or the
waveform is long enough. -/
theorem baselineFree_iff (h : f.Measures m_tt hit c) :
    f.BaselineFree m_tt hit c ↔ c = 0 ∨ f.LongEnough hit := by
  have hdecision : f.BaselineFree m_tt hit c
      ↔ f.amplitude (hit.addBaseline c) = f.amplitude hit :=
    ⟨And.left, fun hA => ⟨hA, flatten_mapM_replace.mpr (ofHit_addBaseline hA)⟩⟩
  have hpeak := peakAt_map_add (scaled_ne_nil h.samples) h.above h.moved
  rw [hdecision, amplitude_eq h.m_pedestal, amplitude_eq h.m_pedestal, scaled_addBaseline, hpeak,
    pedestalSum_addBaseline, Option.some_inj]
  rcases eq_or_ne c 0 with rfl | hc
  · simp
  · rw [amplitude_eq_iff h.m_pedestal (mul_ne_zero hc h.m_scale)]
    constructor
    · intro hmean
      exact .inr ⟨_, hmean.symm, Nat.min_le_left _ _⟩
    · rintro (hzero | ⟨n, hn, hlong⟩)
      · exact absurd hzero hc
      · rw [hn, Nat.ceil_natCast, Nat.min_eq_right hlong]

end PokerReco.Cerenkov.CerenkovHitFactory

/-! ## §4. Both. -/

namespace PokerReco.Calorimeter

open PokerReco.Cerenkov PokerReco.DAQ PokerReco.TT

/-- **A constant under the samples of a waveform shows in the results** unless
it is 0 or the waveform has the samples that the settings ask for. -/
theorem baseline_free_iff {f : CalorimeterRawDataHitFactory} {g : CerenkovHitFactory}
    {m_tt : Table} {hit hit' : Fa250Mode1CalibPedSubHit} {c c' : ℚ}
    (h : f.Measures m_tt hit c) (h' : g.Measures m_tt hit' c') :
    (f.BaselineFree m_tt hit c ↔ c = 0 ∨ f.LongEnough hit)
      ∧ (g.BaselineFree m_tt hit' c' ↔ c' = 0 ∨ g.LongEnough hit') :=
  ⟨CalorimeterRawDataHitFactory.baselineFree_iff h, CerenkovHitFactory.baselineFree_iff h'⟩

/-- A translation table with a channel of each detector. -/
def twoChannels : Table :=
  ((∅ : Table).insert ⟨1, 1, 1⟩ ⟨⟨1, 1, 1⟩, .CALORIMETER, .calorimeter ⟨0, 1, 1, 1⟩⟩).insert
    ⟨1, 1, 2⟩ ⟨⟨1, 1, 2⟩, .CERENKOV, .cerenkov ⟨1, 0⟩⟩

/-- A waveform on a channel of slot 1 of crate 1. -/
def waveform (channel : UInt8) (samples : List ℚ) : Fa250Mode1CalibPedSubHit where
  m_channel := ⟨1, 1, channel⟩
  trigger := 0
  timestamp := 0
  samplesRaw := samples.map fun _ => 0
  samples := samples
  m_dT := 4
  m_ped := 0
  m_RMS := 0

/-- The calorimeter measures a waveform on channel 1, when the samples stay above
the start value. -/
theorem measures_waveform {f : CalorimeterRawDataHitFactory} {samples : List ℚ} {c : ℚ}
    (hped : 0 < f.m_ped.toInt) (hfirst : 0 ≤ f.m_first.toInt)
    (hlast : f.m_first.toInt ≤ f.m_last.toInt) (hscale : 0 < f.m_scale) (hne : samples ≠ [])
    (habove : ∀ sample ∈ samples, -9999 < sample * f.m_scale)
    (hmoved : ∀ sample ∈ samples, -9999 < sample * f.m_scale + c * f.m_scale) :
    f.Measures twoChannels (waveform 1 samples) c where
  m_ped := hped
  m_first := hfirst
  m_last := hlast
  m_scale := hscale
  det_sys := rfl
  index := ⟨_, rfl, by decide⟩
  samples := hne
  above := List.forall_mem_map.mpr habove
  moved := List.forall_mem_map.mpr hmoved

/-- The Cerenkov counter measures a waveform on channel 2, when the samples stay
above the start value. -/
theorem measures_cerenkov_waveform {g : CerenkovHitFactory} {samples : List ℚ} {c : ℚ}
    (hped : 0 < g.m_pedestal) (hscale : g.m_scale ≠ 0) (hne : samples ≠ [])
    (habove : ∀ sample ∈ samples, -9999 < sample * g.m_scale)
    (hmoved : ∀ sample ∈ samples, -9999 < sample * g.m_scale + c * g.m_scale) :
    g.Measures twoChannels (waveform 2 samples) c where
  m_pedestal := hped
  m_scale := hscale
  det_sys := rfl
  index := ⟨_, rfl⟩
  samples := hne
  above := List.forall_mem_map.mpr habove
  moved := List.forall_mem_map.mpr hmoved

/-- Two samples with the first as pedestal and both in the window: a constant
shows in neither detector. -/
theorem two_samples_baseline_free :
    (⟨1, 0, 1, 1⟩ : CalorimeterRawDataHitFactory).BaselineFree twoChannels (waveform 1 [1, 5]) 3
      ∧ (⟨20, 20, 2, -1⟩ : CerenkovHitFactory).BaselineFree twoChannels
          (waveform 2 [-1, -5]) 3 := by
  have hcalorimeter : (⟨1, 0, 1, 1⟩ : CalorimeterRawDataHitFactory).Measures twoChannels
      (waveform 1 [1, 5]) 3 :=
    measures_waveform (by decide) (by decide) (by decide) (by decide +kernel) (by decide)
      (by decide +kernel) (by decide +kernel)
  have hcerenkov : (⟨20, 20, 2, -1⟩ : CerenkovHitFactory).Measures twoChannels
      (waveform 2 [-1, -5]) 3 :=
    measures_cerenkov_waveform (by decide +kernel) (by decide +kernel) (by decide)
      (by decide +kernel) (by decide +kernel)
  have h := baseline_free_iff hcalorimeter hcerenkov
  exact ⟨h.1.mpr (.inr ⟨by decide, by decide⟩), h.2.mpr (.inr ⟨2, rfl, by decide⟩)⟩

/-- With the settings of `init` and one sample, most of the constant stays in
the amplitudes, and it decides whether there is a Cerenkov hit. -/
theorem one_sample_keeps_the_baseline :
    (CalorimeterRawDataHitFactory.default.Measures twoChannels (waveform 1 [0]) 1
        ∧ ¬ CalorimeterRawDataHitFactory.default.BaselineFree twoChannels (waveform 1 [0]) 1)
      ∧ CerenkovHitFactory.default.Measures twoChannels (waveform 2 [0]) (-30)
        ∧ ¬ CerenkovHitFactory.default.BaselineFree twoChannels (waveform 2 [0]) (-30) := by
  refine ⟨⟨?_, fun h => absurd (h [] []) (by decide +kernel)⟩, ?_,
    fun h => absurd (h.2 [] []) (by decide +kernel)⟩
  · exact measures_waveform (by decide) (by decide) (by decide) (by decide +kernel) (by decide)
      (by decide +kernel) (by decide +kernel)
  · exact measures_cerenkov_waveform (by decide +kernel) (by decide +kernel) (by decide)
      (by decide +kernel) (by decide +kernel)

end PokerReco.Calorimeter
