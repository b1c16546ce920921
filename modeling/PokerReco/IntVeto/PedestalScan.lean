/-
  PokerReco.IntVeto.PedestalScan
  ──────────────────────────────
  **THE PEDESTAL SCAN** (`IntVeto/IntVetofa250Converter.cc`).

  `convertMode1Hit` looks for a quiet stretch of the waveform in `NRMSCHECKS`
  places.  A stretch that would reach the last sample is moved to the front, by
  `NPED` and one more samples before the end: but `NPED` is a time, and the
  stretch has `NPED / dT` samples.

  Which checks are come to depends on which of them find a quiet stretch, and
  so on how means and spreads are rounded: of equal samples the difference
  under the root may come out below 0, and what is then not a number is not
  quiet.  The scan is therefore followed over any numbers with the operations
  of a `double`, and the result is about `double` itself.

      refinePedestal_isSome_iff   the scan is inside if each check that it
                                  comes to is
      scan_isSome_iff_scanFits    which is when the moved stretch fits or a
                                  quiet one is found before it is used
      scan_inside_iff             every access is inside the waveform, and no
                                  number of samples that is divided by is 0,
                                  exactly then
-/
import PokerReco.IntVeto.IntVetofa250Converter
import PokerReco.Library.DoubleSign
import PokerReco.Library.PartialFold

namespace PokerReco.IntVeto

open PokerReco.DAQ PokerReco.Library

namespace IntVetofa250Converter

/-! ## §1. A check. -/

section Scan

variable {D : Type} [Double D] (f : IntVetofa250Converter D) (input : Fa250Mode1CalibPedSubHit D)

/-- The samples of a stretch, by its first place and their number. -/
def stretch (samples : List D) (first count : Nat) : List D := (samples.drop first).take count

/-- The mean of the samples of a stretch, rounded as `checkPedestal` rounds. -/
def mean (samples : List D) (first count : Nat) : D :=
  (moments (stretch samples first count)).1 / Int.cast count

/-- The spread of the samples of a stretch.  Over `double` the difference under
the root may be below 0 when the samples are equal, and the spread is then not
a number. -/
def spread (samples : List D) (first count : Nat) : D :=
  f.sqrt ((moments (stretch samples first count)).2 / Int.cast count
    - mean samples first count * mean samples first count)

/-- The loop over the samples of a stretch that is inside the waveform. -/
theorem checkPedestal_loop {samples : List D} {first count : Nat}
    (hcount : first + count ≤ samples.length) :
    ((List.range count).map fun m : Nat => (0 : Int) + m).foldlM
        (fun (s : D × D) ii => do
          let sample ← sampleAt samples (ii + first)
          return (s.1 + sample, s.2 + sample * sample))
        (0, 0)
      = some (moments (stretch samples first count)) := by
  induction count with
  | zero => rfl
  | succ count ih =>
      have hlt : first + count < samples.length := by omega
      have hat : sampleAt samples ((0 : Int) + (count : Nat) + first)
          = some samples[first + count] := by
        rw [sampleAt, if_neg (by omega), show ((0 : Int) + (count : Nat) + first).toNat
          = first + count by omega, List.getElem?_eq_getElem hlt]
      have hstretch : stretch samples first (count + 1)
          = stretch samples first count ++ [samples[first + count]] := by
        rw [stretch, List.take_add_one, List.getElem?_drop, List.getElem?_eq_getElem hlt]
        rfl
      rw [List.range_succ, List.map_append, List.foldlM_append, ih (by omega), List.map_singleton,
        Option.bind_eq_bind, Option.bind_some, List.foldlM_cons, hat, hstretch, moments_concat]
      rfl

/-- A check inside the waveform comes to the mean and the spread of its
stretch. -/
theorem checkPedestal_eq {samples : List D} {first count : Nat} (hpos : 0 < count)
    (hcount : first + count ≤ samples.length) :
    f.checkPedestal count first samples
      = some (mean samples first count, f.spread samples first count) := by
  have hne : ¬ (count : Int) = 0 := by omega
  have hindices : indices 0 ((count : Int) - 1)
      = (List.range count).map fun m : Nat => (0 : Int) + m := by
    rw [indices, show ((count : Int) - 1 + 1 - 0).toNat = count by omega]
  have hloop := checkPedestal_loop hcount
  rw [checkPedestal, hindices]
  simp only [mean, spread, if_neg hne]
  exact congrArg (Option.bind · _) hloop

/-- A check that is not inside the waveform reads outside it. -/
theorem checkPedestal_outside {samples : List D} {istart : Int} {count : Nat} (hpos : 0 < count)
    (hout : ¬ (0 ≤ istart ∧ istart + count ≤ samples.length)) :
    f.checkPedestal count istart samples = none := by
  obtain ⟨ii, hii, hsample⟩ : ∃ ii ∈ indices 0 ((count : Int) - 1),
      sampleAt samples (ii + istart) = none := by
    have hmem : ∀ m < count, (0 : Int) + (m : Nat) ∈ indices 0 ((count : Int) - 1) := by
      intro m hm
      rw [indices]
      exact List.mem_map.mpr ⟨m, List.mem_range.mpr (by omega), rfl⟩
    by_cases hnegative : istart < 0
    · exact ⟨_, hmem 0 hpos, if_pos (by omega)⟩
    -- the last sample of the stretch
    · refine ⟨_, hmem (count - 1) (by omega), ?_⟩
      rw [sampleAt, if_neg (by omega), List.getElem?_eq_none (by omega)]
  rw [checkPedestal, foldlM_eq_none hii]
  · rfl
  · intro s
    rw [hsample]
    rfl

/-! ## §2. The scan. -/

/-- The first sample of a check: the checks begin a tenth of the waveform apart. -/
def checkStart (size icheck : Nat) : Nat := icheck * (size / NRMSCHECKS)

/-- The stretch of a check reaches the last sample, and is moved for that reason. -/
def RunsOut (size count icheck : Nat) : Prop := size ≤ checkStart size icheck + count

instance (size count icheck : Nat) : Decidable (RunsOut size count icheck) :=
  inferInstanceAs (Decidable (_ ≤ _))

/-- The moved stretch is inside the waveform: it starts `NPED` and one samples
before the end, although `NPED` is a time. -/
def MovedFits (size count : Nat) : Prop :=
  f.m_NPED.toInt + 1 ≤ size ∧ (count : Int) ≤ f.m_NPED.toInt + 1

instance (size count : Nat) : Decidable (f.MovedFits size count) :=
  inferInstanceAs (Decidable (_ ∧ _))

/-- The stretch is as quiet as a pedestal: its spread is below that of the
calibration. -/
def Quiet (first count : Nat) : Prop :=
  f.spread input.samples first count ≤ input.m_RMS * f.m_RMSTHRscale

instance (first count : Nat) : Decidable (f.Quiet input first count) :=
  inferInstanceAs (Decidable (_ ≤ _))

/-- The scan stays inside: the moved stretch fits, or a check that is not moved
is successful before each that is. -/
def ScanFits (count : Nat) : Prop :=
  f.MovedFits input.samples.length count
    ∨ ∀ icheck < NRMSCHECKS, RunsOut input.samples.length count icheck →
        ∃ before < icheck, ¬ RunsOut input.samples.length count before
          ∧ f.Quiet input (checkStart input.samples.length before) count

instance (count : Nat) : Decidable (f.ScanFits input count) :=
  inferInstanceAs (Decidable (_ ∨ ∀ _ < _, _ → ∃ _ < _, _))

/-- `istart` of a check, moved to the front where the stretch runs out. -/
def istartOf (size count icheck : Nat) : Int :=
  if RunsOut size count icheck then size - f.m_NPED.toInt - 1 else checkStart size icheck

/-- What a check comes to, or nothing where it reads outside the waveform. -/
def checkAt (count icheck : Nat) : Option (D × D) :=
  f.checkPedestal count (f.istartOf input.samples.length count icheck) input.samples

/-- The loop over the checks goes on to the next one while no check is
successful. -/
theorem refinePedestal_cons (count icheck : Nat) (checks : List Nat) (pedRMS : D) :
    f.refinePedestal count input (icheck :: checks) pedRMS
      = (f.checkAt input count icheck).bind fun s =>
          if s.2 ≤ input.m_RMS * f.m_RMSTHRscale then
            some { ped := s.1, pedRMS := s.2, found := true }
          else f.refinePedestal count input checks s.2 := by
  have hstart : (icheck : Int) * ((input.samples.length : Int).tdiv (NRMSCHECKS : Nat))
      = (checkStart input.samples.length icheck : Nat) := by
    rw [checkStart, Int.natCast_mul]
    rfl
  have hmoved : (checkStart input.samples.length icheck : Int) + count ≥ input.samples.length
      ↔ RunsOut input.samples.length count icheck := by
    rw [RunsOut]
    omega
  rw [refinePedestal, checkAt, istartOf]
  simp only [hstart, hmoved]
  rfl

/-- **The scan is inside if each check that it comes to is.** -/
theorem refinePedestal_isSome_iff (count : Nat) (checks : List Nat) (pedRMS : D) :
    (f.refinePedestal count input checks pedRMS).isSome = true
      ↔ ∀ before icheck after, checks = before ++ icheck :: after →
          (∀ earlier ∈ before, ∀ s, f.checkAt input count earlier = some s →
            ¬ s.2 ≤ input.m_RMS * f.m_RMSTHRscale) →
          (f.checkAt input count icheck).isSome = true := by
  induction checks generalizing pedRMS with
  | nil =>
      refine iff_of_true rfl fun before icheck after h _ => ?_
      exact absurd (List.append_eq_nil_iff.mp h.symm).2 (List.cons_ne_nil _ _)
  | cons first checks ih =>
      rw [refinePedestal_cons]
      cases hfirst : f.checkAt input count first with
      | none =>
          refine iff_of_false Bool.false_ne_true fun h => ?_
          have hsome := h [] first checks rfl fun earlier hmem => absurd hmem List.not_mem_nil
          rw [hfirst] at hsome
          cases hsome
      | some s =>
          rw [Option.bind_some]
          split
          · next hquiet =>
            refine iff_of_true rfl fun before icheck after hsplit hloud => ?_
            -- the scan ends here, so no later check is come to
            cases before with
            | nil =>
                obtain ⟨rfl, -⟩ := List.cons.inj hsplit
                rw [hfirst]
                rfl
            | cons earlier before =>
                obtain ⟨rfl, -⟩ := List.cons.inj hsplit
                exact absurd hquiet (hloud first List.mem_cons_self s hfirst)
          · next hloud =>
            rw [ih]
            constructor
            · intro h before icheck after hsplit hbefore
              cases before with
              | nil =>
                  obtain ⟨rfl, -⟩ := List.cons.inj hsplit
                  rw [hfirst]
                  rfl
              | cons earlier before =>
                  obtain ⟨rfl, hrest⟩ := List.cons.inj hsplit
                  exact h before icheck after hrest
                    fun c hc => hbefore c (List.mem_cons_of_mem _ hc)
            · intro h before icheck after hsplit hbefore
              refine h (first :: before) icheck after (by rw [hsplit]; rfl) ?_
              refine List.forall_mem_cons.mpr ⟨fun s' hs' => ?_, hbefore⟩
              rw [hfirst] at hs'
              rw [← Option.some.inj hs']
              exact hloud

/-- The scan over all checks is inside if each that it comes to is. -/
theorem scan_isSome_iff (count : Nat) (pedRMS : D) :
    (f.refinePedestal count input (List.range NRMSCHECKS) pedRMS).isSome = true
      ↔ ∀ icheck < NRMSCHECKS,
          (∀ earlier < icheck, ∀ s, f.checkAt input count earlier = some s →
            ¬ s.2 ≤ input.m_RMS * f.m_RMSTHRscale) →
          (f.checkAt input count icheck).isSome = true := by
  rw [refinePedestal_isSome_iff, List.range_eq_range']
  constructor
  · intro h icheck hlt hloud
    refine h (List.range' 0 icheck) icheck (List.range' (icheck + 1) (NRMSCHECKS - icheck - 1)) ?_
      fun earlier hmem => hloud earlier ?_
    · refine List.range'_eq_append_iff.mpr ⟨icheck, Nat.le_of_lt hlt, rfl, ?_⟩
      exact (List.range'_eq_cons_iff.mpr ⟨by omega, by omega, rfl⟩).symm
    · have := List.mem_range'_1.mp hmem
      omega
  · intro h before icheck after hsplit hloud
    obtain ⟨k, hk, rfl, hrest⟩ := List.range'_eq_append_iff.mp hsplit
    obtain ⟨hstart, hpos, -⟩ := List.range'_eq_cons_iff.mp hrest.symm
    obtain rfl : k = icheck := by omega
    exact h k (by omega) fun earlier hlt => hloud earlier (List.mem_range'_1.mpr (by omega))

/-- A check that is not moved comes to the mean and the spread of its stretch. -/
theorem checkAt_eq {count icheck : Nat} (hpos : 0 < count)
    (hstays : ¬ RunsOut input.samples.length count icheck) :
    f.checkAt input count icheck
      = some (mean input.samples (checkStart input.samples.length icheck) count,
          f.spread input.samples (checkStart input.samples.length icheck) count) := by
  rw [checkAt, istartOf, if_neg hstays]
  exact f.checkPedestal_eq hpos (Nat.le_of_not_le hstays)

/-- A check is inside the waveform when it is not moved or can be. -/
theorem checkAt_isSome_iff {count icheck : Nat} (hpos : 0 < count) :
    (f.checkAt input count icheck).isSome = true
      ↔ ¬ RunsOut input.samples.length count icheck ∨ f.MovedFits input.samples.length count := by
  by_cases hout : RunsOut input.samples.length count icheck
  · rw [checkAt, istartOf, if_pos hout]
    by_cases hfits : f.MovedFits input.samples.length count
    · obtain ⟨hsize, hcount⟩ := hfits
      obtain ⟨first, hfirst⟩ := Int.eq_ofNat_of_zero_le
        (show 0 ≤ (input.samples.length : Int) - f.m_NPED.toInt - 1 by omega)
      rw [hfirst, f.checkPedestal_eq hpos (by omega)]
      exact iff_of_true rfl (Or.inr ⟨hsize, hcount⟩)
    · have hmoved : ¬ (0 ≤ (input.samples.length : Int) - f.m_NPED.toInt - 1
          ∧ (input.samples.length : Int) - f.m_NPED.toInt - 1 + count ≤ input.samples.length) :=
        fun h => hfits ⟨by omega, by omega⟩
      rw [f.checkPedestal_outside hpos hmoved]
      exact iff_of_false Bool.false_ne_true fun h => h.elim (fun h => h hout) hfits
  · rw [f.checkAt_eq input hpos hout]
    exact iff_of_true rfl (Or.inl hout)

/-- **The scan stays inside the waveform** as `ScanFits` says. -/
theorem scan_isSome_iff_scanFits {count : Nat} (hpos : 0 < count) (pedRMS : D) :
    (f.refinePedestal count input (List.range NRMSCHECKS) pedRMS).isSome = true
      ↔ f.ScanFits input count := by
  rw [scan_isSome_iff]
  by_cases hfits : f.MovedFits input.samples.length count
  · exact iff_of_true (fun icheck _ _ => (f.checkAt_isSome_iff input hpos).mpr (Or.inr hfits))
      (Or.inl hfits)
  constructor
  · refine fun h => Or.inr fun icheck hlt hout => ?_
    by_contra hnone
    -- without a quiet stretch before it the check is come to
    have hsome := h icheck hlt fun earlier hearlier s hs hquiet => by
      have hstays : ¬ RunsOut input.samples.length count earlier := by
        refine ((f.checkAt_isSome_iff input hpos).mp ?_).resolve_right hfits
        rw [hs]
        rfl
      rw [f.checkAt_eq input hpos hstays] at hs
      rw [← Option.some.inj hs] at hquiet
      exact hnone ⟨earlier, hearlier, hstays, hquiet⟩
    exact ((f.checkAt_isSome_iff input hpos).mp hsome).elim (fun h => h hout) hfits
  · rintro (hmoved | hchecks) icheck hlt hloud
    · exact absurd hmoved hfits
    · by_contra hnone
      have hout : RunsOut input.samples.length count icheck := by
        by_contra hstays
        exact hnone ((f.checkAt_isSome_iff input hpos).mpr (Or.inl hstays))
      obtain ⟨before, hbefore, hstays, hquiet⟩ := hchecks icheck hlt hout
      exact hloud before hbefore _ (f.checkAt_eq input hpos hstays) hquiet

/-! ## §3. All accesses. -/

/-- The pedestal scan reads inside the waveform and divides by a number of
samples that is not 0; the waveform it leaves has a first and a last sample;
and the branch for no pulse reads inside it. -/
def AccessesInside : Prop :=
  ∃ m_NPEDs pedestal, truncate (Int.cast f.m_NPED.toInt / input.m_dT) = some m_NPEDs
    ∧ f.refinePedestal m_NPEDs input (List.range NRMSCHECKS) 0 = some pedestal
    ∧ (sampleAt (input.samples.map (· - pedestal.ped)) 0).isSome = true
    ∧ (sampleAt (input.samples.map (· - pedestal.ped)) (input.samples.length - 1)).isSome = true
    ∧ ∀ output m_NSAs m_NSBs,
        (noise output m_NSAs m_NSBs (input.samples.map (· - pedestal.ped))).isSome = true

/-- The branch for no pulse takes at most as many samples as there are, and the
maximum of all of them. -/
theorem noise_isSome (output : IntVetoSiPMHit D) (m_NSAs m_NSBs : Int) {m_waveform : List D}
    (hne : m_waveform ≠ []) : (noise output m_NSAs m_NSBs m_waveform).isSome = true := by
  have hpos : 0 < m_waveform.length := List.length_pos_iff.mpr hne
  have hsum : ∀ N : Int, N ≤ m_waveform.length →
      (sumSamples 0 (N - 1) m_waveform).isSome = true := fun N hN =>
    foldlM_indices_isSome m_waveform (fun s ii => Option.isSome_map) (le_refl 0) (by omega) _
  obtain ⟨start, hstart⟩ : ∃ start, sampleAt m_waveform 0 = some start :=
    Option.isSome_iff_exists.mp (sampleAt_isSome (le_refl 0) (by omega))
  have hmaximum : (getMaximum 0 ((m_waveform.length : Int) - 1) m_waveform).isSome = true := by
    rw [getMaximum, hstart]
    refine foldlM_indices_isSome m_waveform (fun s ii => ?_) (le_refl 0) (by omega) _
    cases sampleAt m_waveform ii with
    | none => rfl
    | some sample => rfl
  obtain ⟨Qraw, hQraw⟩ := Option.isSome_iff_exists.mp (hsum
    (if m_NSAs + m_NSBs > m_waveform.length then m_waveform.length else m_NSAs + m_NSBs)
    (by split <;> omega))
  obtain ⟨m, hm⟩ := Option.isSome_iff_exists.mp hmaximum
  rw [noise, hQraw, hm]
  rfl

end Scan

/-- **All accesses are inside, and nothing is divided by 0, if and only if**
the stretch has a sample and the scan fits; quotient, means and spreads are
those of `double`. -/
theorem scan_inside_iff (f : IntVetofa250Converter Binary64)
    (input : Fa250Mode1CalibPedSubHit Binary64) (hsize : input.samples ≠ [])
    (hdT : 0 < input.m_dT) (hNPED : 0 < f.m_NPED.toInt) :
    f.AccessesInside input ↔ ∃ count : Nat,
      truncate (Int.cast f.m_NPED.toInt / input.m_dT) = some (count : Int)
        ∧ 0 < count ∧ f.ScanFits input count := by
  constructor
  · rintro ⟨m_NPEDs, pedestal, htruncate, hpedestal, -⟩
    obtain ⟨count, rfl⟩ :=
      Int.eq_ofNat_of_zero_le (truncate_div_nonneg hNPED hdT htruncate)
    have hpos : 0 < count := by
      by_contra hzero
      obtain rfl : count = 0 := Nat.eq_zero_of_not_pos hzero
      cases hpedestal
    refine ⟨count, htruncate, hpos, (f.scan_isSome_iff_scanFits input hpos 0).mp ?_⟩
    rw [hpedestal]
    rfl
  · rintro ⟨count, htruncate, hpos, hfits⟩
    obtain ⟨pedestal, hpedestal⟩ := Option.isSome_iff_exists.mp
      ((f.scan_isSome_iff_scanFits input hpos 0).mpr hfits)
    have hlength : 0 < input.samples.length := List.length_pos_iff.mpr hsize
    refine ⟨count, pedestal, htruncate, hpedestal, sampleAt_isSome (le_refl 0) ?_,
      sampleAt_isSome (by omega) ?_, fun output m_NSAs m_NSBs => noise_isSome _ _ _ ?_⟩
    · rw [List.length_map]
      omega
    · rw [List.length_map]
      omega
    · exact fun hnil => hsize (List.map_eq_nil_iff.mp hnil)

/-- A converter with a stretch of `NPED` ns for a sensor with 5 mV at one phe,
that takes the square root of the hardware. -/
def sensorSettings (NPED : Int32) : IntVetofa250Converter Binary64 where
  m_thrCalib := fun _ => [Int.cast 5]
  m_minTot := Int.cast 12
  m_thr := Int.cast 1
  m_NSB := 20
  m_NSA := 30
  m_NPED := NPED
  m_RMSTHRscale := Int.cast 5
  sqrt := Float.Model.sqrt

/-- A waveform of a sensor, in mV and every 4 ns, with a spread of half a mV. -/
def every4ns (samples : List Binary64) : Fa250Mode1CalibPedSubHit Binary64 where
  m_channel := ⟨0, 0, 0⟩
  trigger := 0
  timestamp := 0
  samplesRaw := []
  samples := samples
  m_dT := Int.cast 4
  m_ped := 0
  m_RMS := .ofScientific 5 (-1)

/-- Ten samples, the first two of which are quiet: the stretches of two samples
from the ninth and from the tenth on are not come to. -/
theorem quiet_start_inside :
    (sensorSettings 10).AccessesInside
      (every4ns ([0, 0, 90, 60, 30, 0, 90, 60, 30, 0].map Int.cast)) := by
  refine (scan_inside_iff _ _ (List.cons_ne_nil _ _) (by decide +kernel) (by decide)).mpr
    ⟨2, by decide +kernel, by decide, by decide +kernel⟩

/-- **A waveform of one sample**: the moved stretch starts at -10. -/
theorem one_sample_read_outside :
    ¬ ∀ input : Fa250Mode1CalibPedSubHit Binary64, input.samples ≠ [] → 0 < input.m_dT →
      (sensorSettings 10).AccessesInside input := by
  intro h
  obtain ⟨m_NPEDs, pedestal, htruncate, hpedestal, -⟩ :=
    h (every4ns [Int.cast 7]) (List.cons_ne_nil _ _) (by decide +kernel)
  have hNPEDs : truncate (Int.cast (sensorSettings 10).m_NPED.toInt / (every4ns [Int.cast 7]).m_dT)
      = some 2 := by
    decide +kernel
  obtain rfl : 2 = m_NPEDs := Option.some.inj (hNPEDs.symm.trans htruncate)
  have hnone : ((sensorSettings 10).refinePedestal 2 (every4ns [Int.cast 7])
      (List.range NRMSCHECKS) 0).isNone = true := by
    decide +kernel
  rw [hpedestal] at hnone
  cases hnone

/-- **Ten samples of 0.1 mV**, of which no stretch of three has a spread that is
a number: the stretch from the tenth on is moved to -3. -/
example :
    ¬ (sensorSettings 12).ScanFits (every4ns (List.replicate 10 (.ofScientific 1 (-1)))) 3 := by
  decide +kernel

end IntVetofa250Converter

end PokerReco.IntVeto
