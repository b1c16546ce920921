/-
  PokerReco.Calorimeter.CalorimeterHitFactory
  ───────────────────────────────────────────
  **THE HIT OF A CRYSTAL** (`Calorimeter/CalorimeterHit_factory.cc`).

  `evnt` groups the digi hits of an event by crystal.  It handles the groups
  of one digi hit only; a crystal with two readouts has a group of two.

      evnt_filter           the published hits of a crystal, from its group
      no_crystal_lost_iff   when every crystal above threshold is published
-/
import PokerReco.Calorimeter.CalorimeterDigiHitFactoryMC
import PokerReco.Library.Grouping
import Mathlib.Data.Rat.Defs

namespace PokerReco.Calorimeter

open PokerReco.Library PokerReco.MC PokerReco.TT

/-! ## §1. The hits. -/

/-- `CalorimeterDigiHit`, with the members that only the data factory writes. -/
structure DigiHit where
  m_channel : CaloIndex
  Q : ℚ
  T : ℚ
  A : ℚ
  pedMean : ℚ
  pedRMS : ℚ
  RMSflag : Bool
  deriving DecidableEq, Repr

/-- A digi hit of the simulation, in the memory that `new` gave it. -/
def CalorimeterDigiHit.inMemory (d : CalorimeterDigiHit) (fresh : DigiHit) : DigiHit :=
  { fresh with m_channel := d.m_channel, Q := d.Q, T := d.T, RMSflag := d.RMSflag }

/-- `CalorimeterHit`, with the members that the cluster factory and the
plugins read. -/
structure CalorimeterHit where
  m_channel : CaloIndex
  E : ℚ
  T : ℚ
  Eraw : ℚ
  A : ℚ
  ped : ℚ
  RMSflag : Bool
  deriving DecidableEq, Repr

/-- The crystal of a readout, which is its channel without the readout. -/
def crystal (c : CaloIndex) : CaloIndex := { c with readout := 0 }

/-! ## §2. `evnt`. -/

/-- `CalorimeterHit_factory`, with the answers of its calibration handler. -/
structure CalorimeterHitFactory where
  m_THR : Int32
  m_ene : CaloIndex → List ℚ

namespace CalorimeterHitFactory

/-- The hit of a digi hit above threshold; `none` when the calibration lacks
the gain or the pedestal. -/
def calibrated (f : CalorimeterHitFactory) (d : DigiHit) : Option CalorimeterHit :=
  let m_channel := crystal d.m_channel
  match (f.m_ene m_channel)[0]?, (f.m_ene m_channel)[1]? with
  | some gain, some ped =>
      some { m_channel := m_channel
             E := if gain ≠ 0 then (d.Q - ped) / gain else d.Q - ped
             T := d.T
             Eraw := d.Q
             A := d.A
             ped := d.pedMean
             RMSflag := d.RMSflag }
  | _, _ => none

/-- The digi hit is above the threshold of the factory. -/
def Above (f : CalorimeterHitFactory) (d : DigiHit) : Prop := d.Q > (f.m_THR.toInt : ℚ)

instance (f : CalorimeterHitFactory) (d : DigiHit) : Decidable (f.Above d) :=
  inferInstanceAs (Decidable (d.Q > _))

/-- A turn of the loop over the map: what it publishes for a crystal. -/
def ofGroup (f : CalorimeterHitFactory) : List DigiHit → Option (List CalorimeterHit)
  -- single-ch readout
  | [d] => if f.Above d then (f.calibrated d).map ([·]) else some []
  | _ => some []

/-- `m_map`: for each crystal its digi hits, in the order of the event. -/
def m_map (digis : List DigiHit) : OrderedMap CaloIndex.lt (List DigiHit) :=
  group CaloIndex.lt (fun d => crystal d.m_channel) digis

/-- `evnt`: the contents of `_data`, crystal by crystal in the order of the map. -/
def evnt (f : CalorimeterHitFactory) (digis : List DigiHit) : Option (List CalorimeterHit) :=
  collect (fun entry => f.ofGroup entry.2) (m_map digis).toList

end CalorimeterHitFactory

/-! ## §3. What it should publish. -/

/-- The digi hits of a crystal, in the order of the event. -/
def digisOf (digis : List DigiHit) (c : CaloIndex) : List DigiHit :=
  digis.filter fun d => crystal d.m_channel = c

/-- One hit for each crystal with a digi hit above threshold, and no other. -/
structure PublishesEach (f : CalorimeterHitFactory) (digis : List DigiHit)
    (data : List CalorimeterHit) : Prop where
  one : ∀ c, (∃ d ∈ digisOf digis c, f.Above d) → ∃ hit, data.filter (·.m_channel = c) = [hit]
  readout : ∀ hit ∈ data, hit.m_channel.readout = 0
  other : ∀ hit ∈ data, ∃ d ∈ digisOf digis hit.m_channel, f.Above d

/-! ## §4. The published hits, crystal by crystal. -/

namespace CalorimeterHitFactory

variable {f : CalorimeterHitFactory}

/-- The hit of a digi hit is in its crystal. -/
theorem calibrated_channel {d : DigiHit} {hit : CalorimeterHit}
    (h : f.calibrated d = some hit) : hit.m_channel = crystal d.m_channel := by
  unfold calibrated at h
  dsimp only at h
  split at h
  · rw [← Option.some.inj h]
  · cases h

/-- A digi hit has a hit exactly when the answer for its crystal has the gain and
the pedestal. -/
theorem calibrated_isSome_iff {d : DigiHit} :
    (f.calibrated d).isSome ↔ 2 ≤ (f.m_ene (crystal d.m_channel)).length := by
  unfold calibrated
  dsimp only
  refine ⟨fun h => ?_, fun h => ?_⟩
  · split at h
    · next hped =>
        have := (List.getElem?_eq_some_iff.mp hped).1
        omega
    · cases h
  · rw [List.getElem?_eq_getElem (by omega), List.getElem?_eq_getElem (by omega)]
    rfl

/-- A group publishes something only when it is one digi hit above threshold. -/
theorem ofGroup_cases {digis : List DigiHit} {hits : List CalorimeterHit}
    (h : f.ofGroup digis = some hits) :
    hits = [] ∨ ∃ d hit, digis = [d] ∧ f.Above d ∧ f.calibrated d = some hit ∧ hits = [hit] := by
  unfold ofGroup at h
  split at h
  · next d =>
      by_cases habove : f.Above d
      · rw [if_pos habove] at h
        obtain ⟨hit, hhit, rfl⟩ := Option.map_eq_some_iff.mp h
        exact Or.inr ⟨d, hit, rfl, habove, hhit, rfl⟩
      · rw [if_neg habove] at h
        exact Or.inl (Option.some.inj h).symm
  · exact Or.inl (Option.some.inj h).symm

/-- The hits of a group of one crystal are in this crystal. -/
theorem ofGroup_channel {digis : List DigiHit} {c : CaloIndex}
    (hc : ∀ d ∈ digis, crystal d.m_channel = c) {hits : List CalorimeterHit}
    (h : f.ofGroup digis = some hits) : ∀ hit ∈ hits, hit.m_channel = c := by
  intro hit hmem
  obtain rfl | ⟨d, hit', rfl, -, hcal, rfl⟩ := ofGroup_cases h
  · cases hmem
  · obtain rfl := List.mem_singleton.mp hmem
    rw [calibrated_channel hcal]
    exact hc d List.mem_cons_self

/-- `evnt` comes to its end when every crystal does. -/
theorem evnt_isSome (digis : List DigiHit) :
    (f.evnt digis).isSome ↔ ∀ c, (f.ofGroup (digisOf digis c)).isSome := by
  unfold evnt m_map
  rw [collect_group_isSome]
  refine ⟨fun h c => ?_, fun h c _ => h c⟩
  by_cases hnone : digisOf digis c = []
  · rw [hnone]
    rfl
  · exact h c hnone

/-- **The published hits of a crystal**, from the group of its digi hits. -/
theorem evnt_filter {digis : List DigiHit} {data : List CalorimeterHit}
    (h : f.evnt digis = some data) (c : CaloIndex) :
    data.filter (·.m_channel = c) = (f.ofGroup (digisOf digis c)).getD [] := by
  have hout : ∀ c hits, f.ofGroup (digisOf digis c) = some hits →
      ∀ hit ∈ hits, hit.m_channel = c := fun c hits hgroup =>
    ofGroup_channel (fun d hd => of_decide_eq_true (List.mem_filter.mp hd).2) hgroup
  rw [collect_group_filter _ (·.m_channel) digis hout h c]
  split
  · next hnone =>
      rw [show digisOf digis c = [] from hnone]
      rfl
  · rfl

/-- A published hit is of the one digi hit of its crystal. -/
theorem group_of_mem_evnt {digis : List DigiHit} {data : List CalorimeterHit}
    (h : f.evnt digis = some data) {hit : CalorimeterHit} (hmem : hit ∈ data) :
    ∃ d, digisOf digis hit.m_channel = [d] ∧ f.Above d := by
  have hfilter : hit ∈ data.filter (·.m_channel = hit.m_channel) :=
    List.mem_filter.mpr ⟨hmem, decide_eq_true rfl⟩
  rw [evnt_filter h] at hfilter
  cases hgroup : f.ofGroup (digisOf digis hit.m_channel) with
  | none =>
      rw [hgroup] at hfilter
      cases hfilter
  | some hits =>
      rw [hgroup] at hfilter
      obtain rfl | ⟨d, -, hd, habove, -, -⟩ := ofGroup_cases hgroup
      · cases hfilter
      · exact ⟨d, hd, habove⟩

/-- A crystal with one published hit has one digi hit, and its calibration. -/
theorem group_of_one_hit {digis : List DigiHit} {data : List CalorimeterHit}
    (h : f.evnt digis = some data) {c : CaloIndex} {hit : CalorimeterHit}
    (hhit : data.filter (·.m_channel = c) = [hit]) :
    ∃ d, digisOf digis c = [d] ∧ (f.calibrated d).isSome := by
  rw [evnt_filter h] at hhit
  cases hgroup : f.ofGroup (digisOf digis c) with
  | none =>
      rw [hgroup] at hhit
      cases hhit
  | some hits =>
      rw [hgroup] at hhit
      obtain rfl | ⟨d, hit', hd, -, hcal, -⟩ := ofGroup_cases hgroup
      · cases hhit
      · exact ⟨d, hd, Option.isSome_of_eq_some hcal⟩

/-- The group of one digi hit above threshold, which can be calibrated,
gives one hit. -/
theorem ofGroup_above {d : DigiHit} (habove : f.Above d)
    (hcal : 2 ≤ (f.m_ene (crystal d.m_channel)).length) :
    ∃ hit, f.ofGroup [d] = some [hit] := by
  obtain ⟨hit, hhit⟩ := Option.isSome_iff_exists.mp (calibrated_isSome_iff.mpr hcal)
  refine ⟨hit, ?_⟩
  show (if f.Above d then (f.calibrated d).map ([·]) else some []) = _
  rw [if_pos habove, hhit]
  rfl

/-- The group of a crystal without a digi hit above threshold gives no hit. -/
theorem ofGroup_not_above {digis : List DigiHit} (h : ∀ d ∈ digis, ¬ f.Above d) :
    f.ofGroup digis = some [] := by
  unfold ofGroup
  split
  · next d => rw [if_neg (h d List.mem_cons_self)]
  · rfl

end CalorimeterHitFactory

/-! ## §5. When no crystal is lost. -/

open CalorimeterHitFactory in
/-- **No crystal is lost if and only if every digi hit above threshold is the
only one of its crystal**, and the calibration has the two numbers that its
hit needs. -/
theorem no_crystal_lost_iff (f : CalorimeterHitFactory) (digis : List DigiHit) :
    (∃ data, f.evnt digis = some data ∧ PublishesEach f digis data) ↔
      ∀ d ∈ digis, f.Above d → digisOf digis (crystal d.m_channel) = [d] ∧
        2 ≤ (f.m_ene (crystal d.m_channel)).length := by
  constructor
  · intro ⟨data, hdata, hpublishes⟩ d hd habove
    have hmem : d ∈ digisOf digis (crystal d.m_channel) :=
      List.mem_filter.mpr ⟨hd, decide_eq_true rfl⟩
    -- the crystal has a hit, which is of its only digi hit
    obtain ⟨hit, hhit⟩ := hpublishes.one _ ⟨d, hmem, habove⟩
    obtain ⟨d', hsingle, hcal⟩ := group_of_one_hit hdata hhit
    rw [hsingle] at hmem
    obtain rfl := List.mem_singleton.mp hmem
    exact ⟨hsingle, calibrated_isSome_iff.mp hcal⟩
  · intro hsingle
    -- every crystal with a digi hit above threshold gives one hit
    have hgroup : ∀ c, (∃ d ∈ digisOf digis c, f.Above d) →
        ∃ hit, f.ofGroup (digisOf digis c) = some [hit] := by
      intro c ⟨d, hd, habove⟩
      obtain ⟨hmem, hc⟩ := List.mem_filter.mp hd
      obtain rfl := of_decide_eq_true hc
      obtain ⟨honly, hcal⟩ := hsingle d hmem habove
      rw [honly]
      exact ofGroup_above habove hcal
    have hsome : (f.evnt digis).isSome := by
      refine (evnt_isSome digis).mpr (fun c => ?_)
      by_cases habove : ∃ d ∈ digisOf digis c, f.Above d
      · obtain ⟨hit, hhit⟩ := hgroup c habove
        rw [hhit]
        rfl
      · rw [ofGroup_not_above fun d hd h => habove ⟨d, hd, h⟩]
        rfl
    obtain ⟨data, hdata⟩ := Option.isSome_iff_exists.mp hsome
    refine ⟨data, hdata, ?_, ?_, ?_⟩
    · intro c habove
      obtain ⟨hit, hhit⟩ := hgroup c habove
      exact ⟨hit, by rw [evnt_filter hdata, hhit]; rfl⟩
    · intro hit hmem
      obtain ⟨d, hd, -⟩ := group_of_mem_evnt hdata hmem
      have hin : d ∈ digisOf digis hit.m_channel := by
        rw [hd]
        exact List.mem_cons_self
      rw [← of_decide_eq_true (List.mem_filter.mp hin).2]
      rfl
    · intro hit hmem
      obtain ⟨d, hd, habove⟩ := group_of_mem_evnt hdata hmem
      exact ⟨d, by rw [hd]; exact List.mem_cons_self, habove⟩

/-- **A crystal with two readouts is lost**: of a simulated hit in
`CATANIA_V1` there are two digi hits above threshold, and no hit. -/
theorem two_readouts_lose_the_crystal :
    ∃ digis, evnt (.wrapping 0) MCType.CATANIA_V1.value (fun _ => default)
        [⟨100, 1, 1, 20, 30, 5, 6⟩] = some digis ∧
      ¬ ∃ data, (⟨0, fun _ => [1, 0]⟩ : CalorimeterHitFactory).evnt
          (digis.map (·.inMemory ⟨default, 0, 0, 0, 0, 0, false⟩)) = some data ∧
        PublishesEach ⟨0, fun _ => [1, 0]⟩
          (digis.map (·.inMemory ⟨default, 0, 0, 0, 0, 0, false⟩)) data := by
  refine ⟨[⟨⟨1, 0, 0, 2⟩, 20, 20, true, [0]⟩, ⟨⟨1, 0, 0, 1⟩, 30, 24, true, [0]⟩], by decide, ?_⟩
  intro ⟨data, hdata, hpublishes⟩
  obtain ⟨hit, hhit⟩ := hpublishes.one ⟨1, 0, 0, 0⟩
    ⟨⟨⟨1, 0, 0, 1⟩, 30, 24, 0, 0, 0, true⟩, by decide +kernel, by decide +kernel⟩
  rw [CalorimeterHitFactory.evnt_filter hdata] at hhit
  cases hhit

end PokerReco.Calorimeter
