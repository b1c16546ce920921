/-
  PokerReco.DAQ.TRIDASObjects
  ───────────────────────────
  **THE OBJECTS OF A TRIDAS EVENT** (`DAQ/JEventSourceTRIDASDAQ.cc` over
  `TRIDAS/f_dataformat_bdx.hpp`).

  A hit of an event is a data frame with its time, in units of 4 ns, and its
  samples.  `GetObjects` makes one waveform of each hit; the waveforms begin at
  the time of the earliest hit, and the gap to a later hit is filled with the
  first sample of that hit.  The time of the event is the second of its first
  hit.

      waveforms_aligned_iff   when the waveforms share the origin
      event_time_iff          when the order of the hits does not show
-/
import Mathlib.Order.Bounds.Basic
import PokerReco.DAQ.EventData
import PokerReco.DAQ.Fa250
import PokerReco.DAQ.JEventSourceTRIDASDAQ
import PokerReco.Library.PartialFold

namespace PokerReco.DAQ

open PokerReco.Library PokerReco.TT

/-! ## §1. The time of a data frame. -/

/-- `DataFrameHeader`, the members that the source reads. -/
structure DataFrameHeader where
  PMTID : BitVec 4
  EFCMID : BitVec 5
  TowerID : BitVec 7
  T4ns : BitVec 16
  FrameCounter : BitVec 13
  Seconds : BitVec 17
  Days : BitVec 10
  Years : BitVec 8
  Charge : BitVec 22

namespace DataFrameHeader

variable (header : DataFrameHeader)

/-- `getDFHYears`, written as two decimal digits in the header. -/
def getDFHYears : Nat :=
  (header.Years.toNat &&& 15) + ((10 * (header.Years.toNat &&& 240)) >>> 4)

/-- `getDFHDays`, written as three decimal digits in the header. -/
def getDFHDays : Nat :=
  (header.Days.toNat &&& 15) + ((10 * (header.Days.toNat &&& 240)) >>> 4)
    + ((100 * (header.Days.toNat &&& 768)) >>> 8)

/-- `getDFHDayTime`: the time of the day in units of 4 ns. -/
def getDFHDayTime : Nat :=
  header.Seconds.toNat * 250000000 + header.FrameCounter.toNat * 31250 + header.T4ns.toNat

/-- `getDFHYearTime`: the time of the year in units of 4 ns. -/
def getDFHYearTime : Nat := 86400 * header.getDFHDays * 250000000 + header.getDFHDayTime

/-- `getDFHFullTime`; the seconds up to the year are an `unsigned int`. -/
def getDFHFullTime : Nat :=
  let years := header.getDFHYears
  let bissextile_days := if years % 4 = 0 then years >>> 2 else (years >>> 2) + 1
  (31536000 * years + 86400 * bissextile_days) % 2 ^ 32 * 250000000 + header.getDFHYearTime

/-- The time is a number of 64 bits. -/
theorem getDFHFullTime_lt : header.getDFHFullTime < 2 ^ 63 := by
  have hSeconds := header.Seconds.isLt
  have hFrame := header.FrameCounter.isLt
  have hT4ns := header.T4ns.isLt
  have h1 : header.Days.toNat &&& 15 ≤ 15 := Nat.and_le_right
  have h2 : header.Days.toNat &&& 240 ≤ 240 := Nat.and_le_right
  have h3 : header.Days.toNat &&& 768 ≤ 768 := Nat.and_le_right
  unfold getDFHFullTime getDFHYearTime getDFHDayTime getDFHDays
  simp only [Nat.shiftRight_eq_div_pow]
  omega

end DataFrameHeader

/-! ## §2. The hits. -/

/-- A hit of the triggered event, with the time of its first frame. -/
structure TridasHit where
  TowerID : BitVec 7
  EFCMID : BitVec 5
  PMTID : BitVec 4
  Charge : BitVec 22
  time : Nat
  time_lt : time < 2 ^ 63
  samples : List UInt16

/-- `Hit<sample::uncompressed>`, of the header of a frame and its samples. -/
def TridasHit.ofFrame (header : DataFrameHeader) (samples : List UInt16) : TridasHit where
  TowerID := header.TowerID
  EFCMID := header.EFCMID
  PMTID := header.PMTID
  Charge := header.Charge
  time := header.getDFHFullTime
  time_lt := header.getDFHFullTime_lt
  samples := samples

/-- `fa250WaveboardV1Hit`, with the charge of the board. -/
structure ChargedWaveboardHit extends Fa250WaveboardV1Hit where
  chargeFirstDBnopedsub : Int32

/-- A sample of 16 bits without a sign, as an `int`. -/
def rawSample (sample : UInt16) : Int32 := .ofNat sample.toNat

/-! ## §3. `GetObjects`. -/

/-- A turn of the loop for the smallest time of the hits. -/
def earlier (minTime : Nat) (hit : TridasHit) : Nat :=
  if hit.time < minTime then hit.time else minTime

/-- The loop for the smallest time, from that of the first hit on; `none` for an
event without hits. -/
def minTime (hits : List TridasHit) : Option Nat :=
  hits.head?.map fun first => hits.foldl earlier first.time

/-- The waveform of a hit; `none` when there is no first sample, and when the
`int` that counts the fake samples overflows. -/
def waveform (minTime : Nat) (hit : TridasHit) : Option ChargedWaveboardHit :=
  let Ndelay : Int := (hit.time : Int) - minTime
  match hit.samples.head? with
  | none => none
  | some firstSample =>
      if Ndelay ≥ 2 ^ 31 then none
      else some
        { m_channel := ⟨.ofNat hit.TowerID.toNat, .ofNat hit.EFCMID.toNat, .ofNat hit.PMTID.toNat⟩
          trigger := 0
          timestamp := .ofNat hit.time
          samplesRaw := List.replicate Ndelay.toNat (rawSample firstSample)
            ++ hit.samples.map rawSample
          chargeFirstDBnopedsub := .ofNat hit.Charge.toNat }

/-- `GetObjects` for `fa250WaveboardV1Hit`: a waveform for each hit, from the
smallest time on. -/
def waveforms (hits : List TridasHit) : Option (List ChargedWaveboardHit) := do
  let minTime ← minTime hits
  hits.mapM (waveform minTime)

/-- `TEHeaderInfo`, the members that the source reads. -/
structure TEHeaderInfo where
  nseeds : Fin 5 → UInt32
  plugin_trigtype : Fin 8 → UInt32
  plugin_nseeds : Fin 8 → UInt32

/-- `GetObjects` for `eventData`, in the memory of the new object; `none` for an
event without hits. -/
def eventData (fresh : EventData) (event : JEvent TridasHit) (head : TEHeaderInfo)
    (hits : List TridasHit) : Option EventData :=
  hits.head?.map fun first =>
    { fresh with
      eventType := .DAQ
      -- unix time of 1 Jan 2000 first second
      time := .ofNat (first.time / 250000000) + 946684800
      runN := event.run_number.toUInt32
      eventN := event.event_number
      eventTS := event.event_TS
      triggerWords := [5] ++ List.ofFn head.nseeds ++ [8] ++ List.ofFn head.plugin_nseeds
        ++ List.ofFn head.plugin_trigtype }

/-! ## §4. The earliest hit. -/

/-- After a turn the smallest time is not above the one before it or that
of the hit. -/
theorem earlier_le (minTime : Nat) (hit : TridasHit) :
    earlier minTime hit ≤ minTime ∧ earlier minTime hit ≤ hit.time := by
  unfold earlier
  split
  · omega
  · omega

/-- After the loop the smallest time is not above any time that it has seen. -/
theorem foldl_earlier_le (hits : List TridasHit) (start : Nat) :
    hits.foldl earlier start ≤ start ∧ ∀ hit ∈ hits, hits.foldl earlier start ≤ hit.time := by
  induction hits generalizing start with
  | nil => exact ⟨Nat.le_refl start, fun hit hmem => absurd hmem List.not_mem_nil⟩
  | cons hit hits ih =>
      rw [List.foldl_cons, List.forall_mem_cons]
      obtain ⟨hstart, hrest⟩ := ih (earlier start hit)
      obtain ⟨hmin, hhit⟩ := earlier_le start hit
      exact ⟨Nat.le_trans hstart hmin, Nat.le_trans hstart hhit, hrest⟩

/-- The smallest time after the loop is the start of it or the time of a hit. -/
theorem foldl_earlier_mem (hits : List TridasHit) (start : Nat) :
    hits.foldl earlier start = start ∨ ∃ hit ∈ hits, hit.time = hits.foldl earlier start := by
  induction hits generalizing start with
  | nil => exact Or.inl rfl
  | cons hit hits ih =>
      rw [List.foldl_cons]
      obtain hsame | ⟨hit', hmem, htime⟩ := ih (earlier start hit)
      · rw [hsame]
        unfold earlier
        by_cases hlt : hit.time < start
        · rw [if_pos hlt]
          exact Or.inr ⟨hit, List.mem_cons_self, rfl⟩
        · rw [if_neg hlt]
          exact Or.inl rfl
      · exact Or.inr ⟨hit', List.mem_cons_of_mem hit hmem, htime⟩

/-- The times of the hits of an event. -/
def times (hits : List TridasHit) : Set Nat := { time | ∃ hit ∈ hits, hit.time = time }

/-- **The loop finds the earliest hit**, wherever it is. -/
theorem minTime_isLeast {hits : List TridasHit} {origin : Nat} (h : minTime hits = some origin) :
    IsLeast (times hits) origin := by
  cases hits with
  | nil => cases h
  | cons first hits =>
      obtain rfl := Option.some.inj h
      have hle := (foldl_earlier_le (first :: hits) first.time).2
      refine ⟨?_, fun time ⟨hit, hmem, htime⟩ => htime ▸ hle hit hmem⟩
      obtain hsame | hmem := foldl_earlier_mem (first :: hits) first.time
      · exact ⟨first, List.mem_cons_self, hsame.symm⟩
      · exact hmem

/-- An event with hits has a smallest time. -/
theorem minTime_isSome {hits : List TridasHit} (hne : hits ≠ []) :
    ∃ origin, minTime hits = some origin := by
  cases hits with
  | nil => exact absurd rfl hne
  | cons first hits => exact ⟨_, rfl⟩

/-- The order of the hits does not show in the smallest time. -/
theorem minTime_perm {hits hits' : List TridasHit} (hperm : hits'.Perm hits) :
    minTime hits' = minTime hits := by
  by_cases hne : hits = []
  · rw [hne] at hperm ⊢
    rw [hperm.eq_nil]
  · have hne' : hits' ≠ [] := fun h => hne (h ▸ hperm).symm.eq_nil
    obtain ⟨origin, horigin⟩ := minTime_isSome hne
    obtain ⟨origin', horigin'⟩ := minTime_isSome hne'
    have htimes : times hits' = times hits := by
      ext time
      exact exists_congr fun hit => and_congr_left fun _ => hperm.mem_iff
    have hleast := minTime_isLeast horigin'
    rw [htimes] at hleast
    rw [horigin, horigin', hleast.unique (minTime_isLeast horigin)]

/-! ## §5. The waveforms. -/

/-- The waveform begins at the origin: the first sample is repeated up to the
time of the hit, and then each sample is at its own time. -/
structure BeginsAt (origin : Nat) (hit : TridasHit) (fahit : ChargedWaveboardHit) : Prop where
  rocid : fahit.m_channel.rocid.toNat = hit.TowerID.toNat
  slot : fahit.m_channel.slot.toNat = hit.EFCMID.toNat
  channel : fahit.m_channel.channel.toNat = hit.PMTID.toNat
  timestamp : fahit.timestamp.toNat = hit.time
  origin_le : origin ≤ hit.time
  samplesRaw : ∃ first, hit.samples.head? = some first
    ∧ fahit.samplesRaw
      = List.replicate (hit.time - origin) (rawSample first) ++ hit.samples.map rawSample
  aligned : ∀ k, hit.time ≤ origin + k →
    fahit.samplesRaw[k]? = (hit.samples.map rawSample)[origin + k - hit.time]?

/-- The waveform of a hit with a first sample, which is not too late, begins at
the origin. -/
theorem waveform_beginsAt {origin : Nat} {hit : TridasHit} (horigin : origin ≤ hit.time)
    {first : UInt16} (hfirst : hit.samples.head? = some first)
    (hlate : hit.time < origin + 2 ^ 31) :
    ∃ fahit, waveform origin hit = some fahit ∧ BeginsAt origin hit fahit := by
  have hdelay : ((hit.time : Int) - origin).toNat = hit.time - origin := by omega
  have hcount : ¬ (hit.time : Int) - origin ≥ 2 ^ 31 := by omega
  unfold waveform
  rw [hfirst]
  refine ⟨_, if_neg hcount, ?_⟩
  exact
    { rocid := by
        exact UInt8.toNat_ofNat_of_lt' (Nat.lt_of_lt_of_le hit.TowerID.isLt (by decide))
      slot := by
        exact UInt8.toNat_ofNat_of_lt' (Nat.lt_of_lt_of_le hit.EFCMID.isLt (by decide))
      channel := by
        exact UInt8.toNat_ofNat_of_lt' (Nat.lt_of_lt_of_le hit.PMTID.isLt (by decide))
      timestamp := by
        exact UInt64.toNat_ofNat_of_lt' (Nat.lt_of_lt_of_le hit.time_lt (by decide))
      origin_le := horigin
      samplesRaw := ⟨first, hfirst, by rw [hdelay]⟩
      aligned := by
        intro k hk
        show (List.replicate _ _ ++ _)[k]? = _
        rw [List.getElem?_append_right (by rw [List.length_replicate]; omega),
          List.length_replicate]
        congr 1
        omega }

/-- A hit has a waveform exactly when it has a sample and is not 2^31 units after
the origin. -/
theorem waveform_isSome_iff {origin : Nat} {hit : TridasHit} (horigin : origin ≤ hit.time) :
    (waveform origin hit).isSome = true ↔ hit.samples ≠ [] ∧ hit.time < origin + 2 ^ 31 := by
  constructor
  · intro h
    unfold waveform at h
    cases hsamples : hit.samples with
    | nil =>
        rw [hsamples] at h
        cases h
    | cons first samples =>
        rw [hsamples] at h
        refine ⟨List.cons_ne_nil first samples, ?_⟩
        by_contra hlate
        have hcount : (hit.time : Int) - origin ≥ 2 ^ 31 := by omega
        dsimp only [List.head?_cons] at h
        rw [if_pos hcount] at h
        cases h
  · rintro ⟨hne, hlate⟩
    obtain ⟨first, samples, hsamples⟩ := List.exists_cons_of_ne_nil hne
    have hfirst : hit.samples.head? = some first := by
      rw [hsamples]
      rfl
    obtain ⟨fahit, hfahit, -⟩ := waveform_beginsAt horigin hfirst hlate
    rw [hfahit]
    rfl

/-- The waveforms of the hits have one origin, the time of the earliest. -/
def OneOrigin (hits : List TridasHit) : Prop :=
  ∃ origin data, IsLeast (times hits) origin ∧ waveforms hits = some data
    ∧ List.Forall₂ (BeginsAt origin) hits data

/-- **The waveforms share their origin** exactly when every hit has a sample and
no hit is 2^31 units later than another. -/
theorem waveforms_aligned_iff (hits : List TridasHit) (hne : hits ≠ []) :
    OneOrigin hits ↔ (∀ hit ∈ hits, hit.samples ≠ [])
      ∧ ∀ hit ∈ hits, ∀ hit' ∈ hits, hit.time < hit'.time + 2 ^ 31 := by
  obtain ⟨origin, horigin⟩ := minTime_isSome hne
  have hleast := minTime_isLeast horigin
  have hle : ∀ hit ∈ hits, origin ≤ hit.time := fun hit hmem => hleast.2 ⟨hit, hmem, rfl⟩
  have hwaveforms : waveforms hits = hits.mapM (waveform origin) := by
    unfold waveforms
    rw [horigin]
    rfl
  constructor
  · rintro ⟨origin', data, hleast', hdata, -⟩
    obtain rfl := hleast'.unique hleast
    rw [hwaveforms] at hdata
    have hsome : ∀ hit ∈ hits, hit.samples ≠ [] ∧ hit.time < origin' + 2 ^ 31 := fun hit hmem =>
      (waveform_isSome_iff (hle hit hmem)).mp
        (mapM_isSome_iff.mp (Option.isSome_of_eq_some hdata) hit hmem)
    refine ⟨fun hit hmem => (hsome hit hmem).1, fun hit hmem hit' hmem' => ?_⟩
    have hlate := (hsome hit hmem).2
    have hfirst := hle hit' hmem'
    omega
  · rintro ⟨hsamples, hlate⟩
    -- the origin is the time of a hit, so that no hit is too late for it
    obtain ⟨earliest, hmem, htime⟩ := hleast.1
    obtain ⟨data, hdata, hall⟩ := mapM_forall₂ (R := BeginsAt origin) (l := hits)
      (g := waveform origin) fun hit hhit => by
        obtain ⟨first, samples, hcons⟩ := List.exists_cons_of_ne_nil (hsamples hit hhit)
        have hfirst : hit.samples.head? = some first := by
          rw [hcons]
          rfl
        exact waveform_beginsAt (hle hit hhit) hfirst (htime ▸ hlate hit hhit earliest hmem)
    exact ⟨origin, data, hleast, hwaveforms.trans hdata, hall⟩

/-- A frame without samples among the hits. -/
theorem empty_hit_not_aligned :
    ¬ OneOrigin [⟨1, 2, 3, 0, 1000, by decide, [500, 501]⟩, ⟨1, 2, 4, 0, 1002, by decide, []⟩] := by
  rintro ⟨origin, data, -, hdata, -⟩
  cases hdata

/-- Two hits, of which the first stored is the later one, get waveforms that share
their origin. -/
theorem two_hits_aligned :
    OneOrigin [⟨1, 2, 3, 0, 1003, by decide, [500, 501]⟩, ⟨1, 2, 4, 0, 1000, by decide, [7]⟩] :=
  (waveforms_aligned_iff _ (List.cons_ne_nil _ _)).mpr ⟨by decide, by decide⟩

/-! ## §6. The time of the event. -/

/-- The time of the event is the second of its first hit, in the order in which
the hits are stored. -/
theorem eventData_time (fresh : EventData) (event : JEvent TridasHit) (head : TEHeaderInfo)
    (first : TridasHit) (hits : List TridasHit) :
    ∃ data, eventData fresh event head (first :: hits) = some data
      ∧ data.time.toNat = first.time / 250000000 + 946684800 := by
  refine ⟨_, rfl, ?_⟩
  have hlt := first.time_lt
  show (UInt64.ofNat (first.time / 250000000) + 946684800).toNat = _
  rw [UInt64.toNat_add, UInt64.toNat_ofNat_of_lt' (Nat.lt_of_le_of_lt (Nat.div_le_self _ _)
    (Nat.lt_of_lt_of_le hlt (by decide)))]
  show (first.time / 250000000 + 946684800) % 2 ^ 64 = _
  omega

/-- In every order of the hits the time is the second of the earliest one. -/
def TimeOfEarliest (fresh : EventData) (event : JEvent TridasHit) (head : TEHeaderInfo)
    (hits : List TridasHit) : Prop :=
  ∃ origin, minTime hits = some origin ∧ ∀ hits' : List TridasHit, hits'.Perm hits →
    minTime hits' = some origin ∧ ∃ data, eventData fresh event head hits' = some data
      ∧ data.time.toNat = origin / 250000000 + 946684800

/-- **The order of the hits does not show** in the time of the event exactly when
they are within the same second. -/
theorem event_time_iff (fresh : EventData) (event : JEvent TridasHit) (head : TEHeaderInfo)
    (hits : List TridasHit) (hne : hits ≠ []) :
    TimeOfEarliest fresh event head hits
      ↔ ∀ hit ∈ hits, ∀ hit' ∈ hits, hit.time / 250000000 = hit'.time / 250000000 := by
  constructor
  · rintro ⟨origin, -, hperms⟩
    have hsecond : ∀ hit ∈ hits, hit.time / 250000000 = origin / 250000000 := by
      intro hit hmem
      -- the order in which this hit is the first
      obtain ⟨before, after, rfl⟩ := List.append_of_mem hmem
      obtain ⟨-, data, hdata, htime⟩ := hperms (hit :: (before ++ after)) List.perm_middle.symm
      obtain ⟨data', hdata', htime'⟩ := eventData_time fresh event head hit (before ++ after)
      obtain rfl := Option.some.inj (hdata.symm.trans hdata')
      omega
    intro hit hmem hit' hmem'
    rw [hsecond hit hmem, hsecond hit' hmem']
  · intro hsame
    obtain ⟨origin, horigin⟩ := minTime_isSome hne
    refine ⟨origin, horigin, fun hits' hperm => ⟨(minTime_perm hperm).trans horigin, ?_⟩⟩
    obtain ⟨earliest, hmem, rfl⟩ := (minTime_isLeast horigin).1
    cases hits' with
    | nil => exact absurd hperm.symm.eq_nil hne
    | cons first rest =>
        obtain ⟨data, hdata, htime⟩ := eventData_time fresh event head first rest
        have hfirst : first ∈ hits := hperm.mem_iff.mp List.mem_cons_self
        exact ⟨data, hdata, by rw [htime, hsame first hfirst earliest hmem]⟩

/-- Two hits on the two sides of a second, the later one stored first: the order
of the hits shows. -/
theorem second_boundary_shows :
    ¬ TimeOfEarliest ⟨0, 0, 0, 0, 0, [], .unset⟩ .fresh ⟨fun _ => 0, fun _ => 0, fun _ => 0⟩
      [⟨1, 2, 3, 0, 250000001, by decide, [7]⟩, ⟨1, 2, 4, 0, 249999999, by decide, [7]⟩] := by
  rintro ⟨origin, horigin, hperms⟩
  obtain ⟨-, data, hdata, htime⟩ := hperms _ (List.Perm.refl _)
  obtain rfl := Option.some.inj horigin
  obtain rfl := Option.some.inj hdata
  exact absurd htime (by decide)

/-- Two hits of one second, in whatever order they are stored. -/
theorem one_second_time :
    TimeOfEarliest ⟨0, 0, 0, 0, 0, [], .unset⟩ .fresh ⟨fun _ => 0, fun _ => 0, fun _ => 0⟩
      [⟨1, 2, 3, 0, 1003, by decide, [7]⟩, ⟨1, 2, 4, 0, 1000, by decide, [7]⟩] :=
  (event_time_iff _ _ _ _ (List.cons_ne_nil _ _)).mpr (by decide)

end PokerReco.DAQ
