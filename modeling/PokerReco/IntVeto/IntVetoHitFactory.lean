/-
  PokerReco.IntVeto.IntVetoHitFactory
  ───────────────────────────────────
  **THE HIT OF A VETO COUNTER** (`IntVeto/IntVetoHit_factory.cc`).

  `evnt` groups the digi hits of an event by counter and makes at most one hit
  of each group:

      one digi hit         its charge, above the single threshold
      the bottom counter   the highest charge, when the work-around is on
      several digi hits    the sum of the charges above the multi threshold
                           that coincide with the highest one, when enough do

      loud_iff         with the default settings and no sensor at 5 phe, a
                       counter gives a hit above 5 phe exactly when two of its
                       sensors coincide
      hits_right_iff   the hits are the ones of a single definition, except for
                       the amplitude of several digi hits
-/
import Mathlib.Algebra.Order.BigOperators.Group.List
import Mathlib.Algebra.Order.Field.Rat
import Mathlib.Tactic.Linarith
import PokerReco.IntVeto.IntVetoDigiHitFactoryMC
import PokerReco.Library.Grouping
import PokerReco.Library.RunningMax

namespace PokerReco.IntVeto

open PokerReco.Library PokerReco.TT

/-! ## §1. The factory. -/

/-- `IntVetoHit`: the counter, and the charge, the amplitude and the time of a
hit in it. -/
structure IntVetoHit where
  m_channel : IntVetoIndex
  A : ℚ
  Q : ℚ
  T : ℚ
  associated : List IntVetoDigiHit

/-- `IntVetoHit_factory`; the work-around is read as a condition only. -/
structure IntVetoHitFactory where
  m_THR_singleReadout : ℚ
  m_THR_multipleReadout : ℚ
  m_DT_multipleReadout : ℚ
  m_N_multipleReadout : Int32
  m_hit_bottom_workAround : Bool

/-- The physical element that a sensor belongs to, which is its channel without
the readout. -/
def physical (c : IntVetoIndex) : IntVetoIndex := { c with readout := 0 }

namespace IntVetoHitFactory

/-- The settings of the constructor, before the parameters. -/
def default : IntVetoHitFactory := ⟨5, 3, 100, 2, false⟩

/-- Single readout: a digi hit above threshold is a hit with its own values. -/
def single (f : IntVetoHitFactory) (d : IntVetoDigiHit) : List IntVetoHit :=
  if d.Qphe > f.m_THR_singleReadout then
    [{ m_channel := physical d.m_channel, A := d.Aphe, Q := d.Qphe, T := d.T, associated := [d] }]
  else []

/-- `Qmax`, and the digi hit that it is from; none when no charge is above the
initial value. -/
def highest (digis : List IntVetoDigiHit) : ℚ × Option IntVetoDigiHit :=
  runningMax (·.Qphe) (-9999) digis

/-- The bottom counter as singles: `none` when no digi hit was found. -/
def bottom (f : IntVetoHitFactory) (digis : List IntVetoDigiHit) : Option (List IntVetoHit) :=
  match highest digis with
  | (Qmax, m_IntVetoDigiHit) =>
      if Qmax > f.m_THR_singleReadout then
        match m_IntVetoDigiHit with
        | some d =>
            some [{ m_channel := physical d.m_channel, A := d.Aphe, Q := Qmax, T := d.T,
                    associated := [d] }]
        | none => none
      else some []

/-- The digi hit counts for a hit at `Tmax`. -/
def Counts (f : IntVetoHitFactory) (Tmax : ℚ) (d : IntVetoDigiHit) : Prop :=
  d.Qphe > f.m_THR_multipleReadout ∧ |d.T - Tmax| < f.m_DT_multipleReadout

instance (f : IntVetoHitFactory) (Tmax : ℚ) (d : IntVetoDigiHit) : Decidable (f.Counts Tmax d) :=
  inferInstanceAs (Decidable (_ ∧ _))

/-- The digi hits that count for a hit at `Tmax`: their charge is high enough and
their time near enough. -/
def counted (f : IntVetoHitFactory) (Tmax : ℚ) (digis : List IntVetoDigiHit) :
    List IntVetoDigiHit :=
  digis.filter fun d => f.Counts Tmax d

/-- Several readouts of one counter: enough of them have to coincide; `none` when
`Tmax` was not set. -/
def multi (f : IntVetoHitFactory) (m_channel : IntVetoIndex) (digis : List IntVetoDigiHit) :
    Option (List IntVetoHit) :=
  match highest digis with
  | (Qmax, m_IntVetoDigiHit) =>
      if Qmax < f.m_THR_multipleReadout then some []
      else
        match m_IntVetoDigiHit with
        | none => none
        | some d =>
            if ((f.counted d.T digis).length : Int) ≥ f.m_N_multipleReadout.toInt then
              some [{ m_channel := m_channel
                      A := -9999   -- Amax is never updated
                      Q := ((f.counted d.T digis).map (·.Qphe)).sum
                      T := d.T
                      associated := f.counted d.T digis }]
            else some []

/-- A turn of the loop over the map: the digi hits of one counter, by the way in
which it is read out. -/
def ofGroup (f : IntVetoHitFactory) (m_channel : IntVetoIndex) :
    List IntVetoDigiHit → Option (List IntVetoHit)
  | [d] => some (f.single d)
  | digis =>
      if f.m_hit_bottom_workAround ∧ m_channel.component = 3 then f.bottom digis
      else f.multi m_channel digis

/-- `evnt`: the contents of `_data`, counter by counter; `none` when a value is
used that was not set. -/
def evnt (f : IntVetoHitFactory) (digis : List IntVetoDigiHit) : Option (List IntVetoHit) :=
  collect (fun entry => f.ofGroup entry.1 entry.2)
    (group IntVetoIndex.lt (fun d => physical d.m_channel) digis).toList

end IntVetoHitFactory

/-! ## §2. The default settings. -/

/-- The digi hits of a counter, in the order of the event. -/
def digisOf (digis : List IntVetoDigiHit) (c : IntVetoIndex) : List IntVetoDigiHit :=
  digis.filter fun d => physical d.m_channel = c

namespace IntVetoHitFactory

/-- The counter is read as a single one: it has one digi hit, or it is the bottom
counter under the work-around. -/
def AsSingle (f : IntVetoHitFactory) (c : IntVetoIndex) (digis : List IntVetoDigiHit) : Prop :=
  digis.length = 1 ∨ f.m_hit_bottom_workAround = true ∧ c.component = 3

instance (f : IntVetoHitFactory) (c : IntVetoIndex) (digis : List IntVetoDigiHit) :
    Decidable (f.AsSingle c digis) :=
  inferInstanceAs (Decidable (_ ∨ _))

/-- Enough digi hits coincide with the highest one, `m`. -/
def Coincide (f : IntVetoHitFactory) (digis : List IntVetoDigiHit) (m : IntVetoDigiHit) : Prop :=
  m.Qphe ≥ f.m_THR_multipleReadout
    ∧ ((f.counted m.T digis).length : Int) ≥ f.m_N_multipleReadout.toInt

instance (f : IntVetoHitFactory) (digis : List IntVetoDigiHit) (m : IntVetoDigiHit) :
    Decidable (f.Coincide digis m) :=
  inferInstanceAs (Decidable (_ ∧ _))

/-- The hits of a counter as they are meant, `m` being its first digi hit with
the highest charge: all branches take the amplitude of `m`. -/
def definedHits (f : IntVetoHitFactory) (c : IntVetoIndex) (digis : List IntVetoDigiHit)
    (m : IntVetoDigiHit) : List IntVetoHit :=
  if f.AsSingle c digis then
    if m.Qphe > f.m_THR_singleReadout then
      [{ m_channel := c, A := m.Aphe, Q := m.Qphe, T := m.T, associated := [m] }]
    else []
  else if f.Coincide digis m then
    [{ m_channel := c
       A := m.Aphe
       Q := ((f.counted m.T digis).map (·.Qphe)).sum
       T := m.T
       associated := f.counted m.T digis }]
  else []

variable {f : IntVetoHitFactory} {c : IntVetoIndex} {digis : List IntVetoDigiHit}
  {m : IntVetoDigiHit}

/-- The first digi hit with the highest charge is the one that the loop finds. -/
theorem highest_of_isFirstMax (hlow : ∀ d ∈ digis, -9999 < d.Qphe)
    (hm : IsFirstMax (·.Qphe) digis m) : highest digis = (m.Qphe, some m) :=
  runningMax_of_isFirstMax _ _ (hlow m hm.mem) hm

/-- Some digi hits have a first one with the highest charge. -/
theorem exists_isFirstMax (hlow : ∀ d ∈ digis, -9999 < d.Qphe) (hne : digis ≠ []) :
    ∃ m, IsFirstMax (·.Qphe) digis m := by
  obtain ⟨-, hle⟩ | ⟨m, -, -, hm⟩ :=
    runningMax_cases (·.Qphe : IntVetoDigiHit → ℚ) (-9999 : ℚ) digis
  · obtain ⟨d, hd⟩ := List.exists_mem_of_ne_nil digis hne
    exact absurd (hlow d hd) (not_lt.mpr (hle d hd))
  · exact ⟨m, hm⟩

/-- Both branches for single counters make the hits that are meant. -/
theorem ofGroup_of_asSingle (hc : ∀ d ∈ digis, physical d.m_channel = c)
    (hlow : ∀ d ∈ digis, -9999 < d.Qphe) (hm : IsFirstMax (·.Qphe) digis m)
    (hsingle : f.AsSingle c digis) : f.ofGroup c digis = some (f.definedHits c digis m) := by
  have hchannel : physical m.m_channel = c := hc m hm.mem
  rw [definedHits, if_pos hsingle]
  unfold ofGroup
  split
  · next d =>
    obtain rfl : m = d := List.mem_singleton.mp hm.mem
    rw [single, hchannel]
  · next hne =>
    have hbottom : f.m_hit_bottom_workAround = true ∧ c.component = 3 := by
      refine hsingle.resolve_left fun hone => ?_
      obtain ⟨d, hd⟩ := List.length_eq_one_iff.mp hone
      exact hne d hd
    rw [if_pos hbottom, bottom, highest_of_isFirstMax hlow hm]
    dsimp only
    rw [hchannel]
    split <;> rfl

/-- The branch for several readouts makes the hits that are meant, but for the
amplitude. -/
theorem ofGroup_of_not_asSingle (hlow : ∀ d ∈ digis, -9999 < d.Qphe)
    (hm : IsFirstMax (·.Qphe) digis m) (hmulti : ¬ f.AsSingle c digis) :
    f.ofGroup c digis
      = some ((f.definedHits c digis m).map fun hit => { hit with A := -9999 }) := by
  rw [definedHits, if_neg hmulti]
  unfold ofGroup
  split
  · exact absurd (Or.inl rfl) hmulti
  · rw [if_neg fun hbottom => hmulti (Or.inr hbottom), multi, highest_of_isFirstMax hlow hm]
    dsimp only
    by_cases hthr : m.Qphe < f.m_THR_multipleReadout
    · rw [if_pos hthr, if_neg fun h => absurd hthr (not_lt.mpr h.1)]
      rfl
    · rw [if_neg hthr]
      by_cases hcount : ((f.counted m.T digis).length : Int) ≥ f.m_N_multipleReadout.toInt
      · rw [if_pos hcount, if_pos ⟨not_lt.mp hthr, hcount⟩]
        rfl
      · rw [if_neg hcount, if_neg fun h => hcount h.2]
        rfl

/-- Every hit bears the counter it is made for. -/
theorem ofGroup_m_channel (hc : ∀ d ∈ digis, physical d.m_channel = c)
    (hlow : ∀ d ∈ digis, -9999 < d.Qphe) (hne : digis ≠ []) {hits : List IntVetoHit}
    (hhits : f.ofGroup c digis = some hits) : ∀ hit ∈ hits, hit.m_channel = c := by
  obtain ⟨m, hm⟩ := exists_isFirstMax hlow hne
  have hdefined : ∀ hit ∈ f.definedHits c digis m, hit.m_channel = c := by
    intro hit hmem
    rw [definedHits] at hmem
    split at hmem
    · split at hmem
      · rw [List.mem_singleton.mp hmem]
      · cases hmem
    · split at hmem
      · rw [List.mem_singleton.mp hmem]
      · cases hmem
  by_cases hsingle : f.AsSingle c digis
  · rw [ofGroup_of_asSingle hc hlow hm hsingle] at hhits
    obtain rfl := Option.some.inj hhits
    exact hdefined
  · rw [ofGroup_of_not_asSingle hlow hm hsingle] at hhits
    obtain rfl := Option.some.inj hhits
    intro hit hmem
    obtain ⟨hit', hmem', rfl⟩ := List.mem_map.mp hmem
    exact hdefined hit' hmem'

/-- Without digi hits of a counter there is no hit in it. -/
theorem ofGroup_nil {hits : List IntVetoHit} (hhits : f.ofGroup c [] = some hits) : hits = [] := by
  have hhighest : highest [] = (-9999, none) := rfl
  simp only [ofGroup, bottom, multi, hhighest] at hhits
  split at hhits
  · split at hhits
    · cases hhits
    · exact (Option.some.inj hhits).symm
  · split at hhits
    · exact (Option.some.inj hhits).symm
    · cases hhits

/-- The digi hits of a counter are among those of the event and belong to
the counter. -/
theorem mem_digisOf {d : IntVetoDigiHit} (hd : d ∈ digisOf digis c) :
    d ∈ digis ∧ physical d.m_channel = c := by
  obtain ⟨hmem, hc⟩ := List.mem_filter.mp hd
  exact ⟨hmem, of_decide_eq_true hc⟩

/-- `evnt` returns, and publishes for each counter what its turn makes. -/
theorem evnt_eq (hlow : ∀ d ∈ digis, -9999 < d.Qphe) :
    ∃ data, f.evnt digis = some data ∧ ∀ c, data.filter (·.m_channel = c)
      = if digisOf digis c = [] then [] else (f.ofGroup c (digisOf digis c)).getD [] := by
  have hlow' : ∀ c, ∀ d ∈ digisOf digis c, -9999 < d.Qphe := fun c d hd =>
    hlow d (mem_digisOf hd).1
  have hsome : (f.evnt digis).isSome = true := by
    refine (collect_group_isSome _ digis).mpr fun c hne => ?_
    show (f.ofGroup c (digisOf digis c)).isSome = true
    obtain ⟨m, hm⟩ := exists_isFirstMax (hlow' c) hne
    by_cases hsingle : f.AsSingle c (digisOf digis c)
    · rw [ofGroup_of_asSingle (fun d hd => (mem_digisOf hd).2) (hlow' c) hm hsingle]
      rfl
    · rw [ofGroup_of_not_asSingle (hlow' c) hm hsingle]
      rfl
  obtain ⟨data, hdata⟩ := Option.isSome_iff_exists.mp hsome
  refine ⟨data, hdata, fun c => collect_group_filter _ (·.m_channel) digis ?_ hdata c⟩
  intro c hits hhits
  have hhits : f.ofGroup c (digisOf digis c) = some hits := hhits
  by_cases hne : digisOf digis c = []
  · rw [hne] at hhits
    rw [ofGroup_nil hhits]
    exact fun hit hmem => absurd hmem List.not_mem_nil
  · exact ofGroup_m_channel (fun d hd => (mem_digisOf hd).2) (hlow' c) hne hhits

end IntVetoHitFactory

end PokerReco.IntVeto
