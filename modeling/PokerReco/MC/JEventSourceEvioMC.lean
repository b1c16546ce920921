/-
  PokerReco.MC.JEventSourceEvioMC
  ───────────────────────────────
  **THE HITS OF THE SIMULATION** (`MC/JEventSourceEVIOMC.cc`).

  A simulated event has a raw and a digitised bank for each detector, with the
  same hits in any order; the hit number tells which raw entry belongs to a
  digitised one.  `GetObjects` searches the raw bank for each digitised entry.

      caloMCHits        `GetObjects` for `CalorimeterMCHit`
      intVetoMCHits     `GetObjects` for `IntVetoMCHit`
      matched_by_number_iff   when they match the banks by hit number
-/
import Mathlib.Algebra.Order.Ring.Unbundled.Rat
import Mathlib.Data.Rat.Defs
import PokerReco.JANA.Basic
import PokerReco.Library.Matching
import PokerReco.MC.CalorimeterMCHit
import PokerReco.MC.IntVetoMCHit

namespace PokerReco.MC

open PokerReco.JANA PokerReco.Library

/-! ## §1. The banks and the hits. -/

/-- An entry of a bank, by the numbers that the reader gives for a name. -/
structure HitOutput where
  getIntRawVar : String → ℚ
  getIntDgtVar : String → ℚ

/-- The assignment of a number to an `int`, which drops its fraction. -/
def toInt (x : ℚ) : Int := x.num.tdiv x.den

/-- `CalorimeterMCHit`, with all members, of which some are left as the
memory had them. -/
structure CalorimeterMCHitObject extends CalorimeterMCHit where
  adcb : Int
  adcf : Int
  tdcb : Int
  tdcf : Int
  totEdep : ℚ
  pid : Int

/-- `IntVetoMCHit`, with all members, of which some are left as the memory
had them. -/
structure IntVetoMCHitObject extends IntVetoMCHit where
  totEdep : ℚ

/-- `VetoMCHit::SYSTEMS`. -/
inductive VetoSystem where
  | CATANIA_INTVETO
  | CATANIA_EXTVETO
  | CATANIA_PADDLES
  | FULL_INTVETO
  | FULL_EXTVETO
  | JLAB_FLUX
  | BDXMINI_EXTVETO
  | BDXMINI_INTVETO
  deriving DecidableEq, Repr

/-- The number of a system, as the simulation writes it. -/
def VetoSystem.value : VetoSystem → Int
  | CATANIA_INTVETO => 1
  | CATANIA_EXTVETO => 2
  | CATANIA_PADDLES => 3
  | FULL_INTVETO => 4
  | FULL_EXTVETO => 5
  | JLAB_FLUX => 6
  | BDXMINI_EXTVETO => 7
  | BDXMINI_INTVETO => 8

/-- The identifiers of the inner veto among the systems. -/
def intVetoSystems : List VetoSystem :=
  [.CATANIA_INTVETO, .FULL_INTVETO, .JLAB_FLUX, .BDXMINI_INTVETO, .BDXMINI_EXTVETO]

/-! ## §2. `GetObjects`. -/

/-- A digitised and a raw entry have the same hit number. -/
def SameHit (d r : HitOutput) : Prop := r.getIntRawVar "hitn" = d.getIntDgtVar "hitn"

instance (d r : HitOutput) : Decidable (SameHit d r) := inferInstanceAs (Decidable (_ = _))

/-- The search of the raw bank for the first entry with the hit number. -/
def rawOf (bankRaw : List HitOutput) (d : HitOutput) : Option HitOutput :=
  bankRaw.find? fun r => SameHit d r

/-- The least energy of a hit that is published, 0.00001. -/
def minEdep : ℚ := 1 / 100000

/-- A turn of the loop for `CalorimeterMCHit`, in the memory of the new hit. -/
def calorimeterMCHit (bankRaw : List HitOutput) (fresh : CalorimeterMCHitObject)
    (d : HitOutput) : Option CalorimeterMCHitObject :=
  let hit :=
    match rawOf bankRaw d with
    | some r => { fresh with
        totEdep := r.getIntRawVar "totEdep"
        pid := toInt (r.getIntRawVar "pid") }
    | none => fresh
  if hit.totEdep ≤ minEdep then none
  else some { hit with
    sector := toInt (d.getIntDgtVar "sector")
    x := toInt (d.getIntDgtVar "xch")
    y := toInt (d.getIntDgtVar "ych")
    adcl := toInt (d.getIntDgtVar "adcl")
    adcr := toInt (d.getIntDgtVar "adcr")
    tdcl := toInt (d.getIntDgtVar "tdcl")
    tdcr := toInt (d.getIntDgtVar "tdcr")
    adcb := toInt (d.getIntDgtVar "adcb")
    adcf := toInt (d.getIntDgtVar "adcf")
    tdcb := toInt (d.getIntDgtVar "tdcb")
    tdcf := toInt (d.getIntDgtVar "tdcf") }

/-- `GetObjects` for `CalorimeterMCHit`: the hits that are published. -/
def caloMCHits (fresh : Nat → CalorimeterMCHitObject) (bankDgt bankRaw : List HitOutput) :
    Except JError (List CalorimeterMCHitObject) :=
  if bankDgt.length ≠ bankRaw.length then .error .VALUE_OUT_OF_RANGE
  else .ok (publishEach (fun ih d => calorimeterMCHit bankRaw (fresh ih) d) 0 bankDgt)

/-- The digitised entry is one of the inner veto. -/
def OfIntVeto (d : HitOutput) : Prop :=
  ∃ system ∈ intVetoSystems, d.getIntDgtVar "veto" = (system.value : ℚ)

instance (d : HitOutput) : Decidable (OfIntVeto d) :=
  inferInstanceAs (Decidable (∃ system ∈ intVetoSystems, _))

/-- The members of a hit of the veto that every setup writes. -/
def writeVeto (hit : IntVetoMCHitObject) (d : HitOutput) : IntVetoMCHitObject :=
  { hit with
    sector := toInt (d.getIntDgtVar "sector")
    channel := toInt (d.getIntDgtVar "channel")
    system := toInt (d.getIntDgtVar "veto")
    adc1 := toInt (d.getIntDgtVar "adc1")
    adc2 := toInt (d.getIntDgtVar "adc2")
    adc3 := toInt (d.getIntDgtVar "adc3")
    adc4 := toInt (d.getIntDgtVar "adc4")
    tdc1 := toInt (d.getIntDgtVar "tdc1")
    tdc2 := toInt (d.getIntDgtVar "tdc2")
    tdc3 := toInt (d.getIntDgtVar "tdc3")
    tdc4 := toInt (d.getIntDgtVar "tdc4") }

/-- The members of a hit of the veto that BDXmini adds, for its other sensors. -/
def writeBDXmini (hit : IntVetoMCHitObject) (d : HitOutput) : IntVetoMCHitObject :=
  { hit with
    adc5 := toInt (d.getIntDgtVar "adc5")
    adc6 := toInt (d.getIntDgtVar "adc6")
    adc7 := toInt (d.getIntDgtVar "adc7")
    adc8 := toInt (d.getIntDgtVar "adc8")
    tdc5 := toInt (d.getIntDgtVar "tdc5")
    tdc6 := toInt (d.getIntDgtVar "tdc6")
    tdc7 := toInt (d.getIntDgtVar "tdc7")
    tdc8 := toInt (d.getIntDgtVar "tdc8") }

/-- A turn of the loop for `IntVetoMCHit`; here `totEdep` starts at 0. -/
def intVetoMCHit (MC : Int) (bankRaw : List HitOutput) (fresh : IntVetoMCHitObject)
    (d : HitOutput) : Option IntVetoMCHitObject :=
  if ¬ OfIntVeto d then none
  else
    let hit := { fresh with totEdep := 0 }
    let hit :=
      match rawOf bankRaw d with
      | some r => { hit with totEdep := r.getIntRawVar "totEdep" }
      | none => hit
    if hit.totEdep ≤ minEdep then none
    else
      let hit := writeVeto hit d
      some (if MC = MCType.BDXmini_V1.value then writeBDXmini hit d else hit)

/-- `GetObjects` for `IntVetoMCHit`: the hits that are published. -/
def intVetoMCHits (MC : Int) (fresh : Nat → IntVetoMCHitObject)
    (bankDgt bankRaw : List HitOutput) : Except JError (List IntVetoMCHitObject) :=
  if bankDgt.length ≠ bankRaw.length then .error .VALUE_OUT_OF_RANGE
  else .ok (publishEach (fun ih d => intVetoMCHit MC bankRaw (fresh ih) d) 0 bankDgt)

/-! ## §3. What they should publish. -/

/-- There is a raw entry with the hit number, and energy in it. -/
def HasEnergy (bankRaw : List HitOutput) (d : HitOutput) : Prop :=
  ∃ r ∈ bankRaw, SameHit d r ∧ r.getIntRawVar "totEdep" > minEdep

instance (bankRaw : List HitOutput) (d : HitOutput) : Decidable (HasEnergy bankRaw d) :=
  inferInstanceAs (Decidable (∃ r ∈ bankRaw, _))

/-- The hit carries the numbers of the digitised entry and those of the raw
entry with its hit number. -/
structure CarriesCalo (bankRaw : List HitOutput) (d : HitOutput)
    (hit : CalorimeterMCHitObject) : Prop where
  raw : ∃ r ∈ bankRaw, SameHit d r ∧ hit.totEdep = r.getIntRawVar "totEdep"
    ∧ hit.pid = toInt (r.getIntRawVar "pid")
  crystal : hit.sector = toInt (d.getIntDgtVar "sector") ∧ hit.x = toInt (d.getIntDgtVar "xch")
    ∧ hit.y = toInt (d.getIntDgtVar "ych")
  adc : hit.adcl = toInt (d.getIntDgtVar "adcl") ∧ hit.adcr = toInt (d.getIntDgtVar "adcr")
    ∧ hit.adcb = toInt (d.getIntDgtVar "adcb") ∧ hit.adcf = toInt (d.getIntDgtVar "adcf")
  tdc : hit.tdcl = toInt (d.getIntDgtVar "tdcl") ∧ hit.tdcr = toInt (d.getIntDgtVar "tdcr")
    ∧ hit.tdcb = toInt (d.getIntDgtVar "tdcb") ∧ hit.tdcf = toInt (d.getIntDgtVar "tdcf")

/-- A hit of the veto carries the numbers of its two entries; the last sensors are
those of BDXmini. -/
structure CarriesVeto (MC : Int) (bankRaw : List HitOutput) (d : HitOutput)
    (hit : IntVetoMCHitObject) : Prop where
  raw : ∃ r ∈ bankRaw, SameHit d r ∧ hit.totEdep = r.getIntRawVar "totEdep"
  counter : hit.sector = toInt (d.getIntDgtVar "sector")
    ∧ hit.channel = toInt (d.getIntDgtVar "channel") ∧ hit.system = toInt (d.getIntDgtVar "veto")
  adc : hit.adc1 = toInt (d.getIntDgtVar "adc1") ∧ hit.adc2 = toInt (d.getIntDgtVar "adc2")
    ∧ hit.adc3 = toInt (d.getIntDgtVar "adc3") ∧ hit.adc4 = toInt (d.getIntDgtVar "adc4")
  tdc : hit.tdc1 = toInt (d.getIntDgtVar "tdc1") ∧ hit.tdc2 = toInt (d.getIntDgtVar "tdc2")
    ∧ hit.tdc3 = toInt (d.getIntDgtVar "tdc3") ∧ hit.tdc4 = toInt (d.getIntDgtVar "tdc4")
  adcBDXmini : MC = MCType.BDXmini_V1.value →
    hit.adc5 = toInt (d.getIntDgtVar "adc5") ∧ hit.adc6 = toInt (d.getIntDgtVar "adc6")
      ∧ hit.adc7 = toInt (d.getIntDgtVar "adc7") ∧ hit.adc8 = toInt (d.getIntDgtVar "adc8")
  tdcBDXmini : MC = MCType.BDXmini_V1.value →
    hit.tdc5 = toInt (d.getIntDgtVar "tdc5") ∧ hit.tdc6 = toInt (d.getIntDgtVar "tdc6")
      ∧ hit.tdc7 = toInt (d.getIntDgtVar "tdc7") ∧ hit.tdc8 = toInt (d.getIntDgtVar "tdc8")

/-- One hit for each digitised entry with energy, in order, whatever the memory
and the order of the raw bank. -/
def CaloMatched (bankDgt bankRaw : List HitOutput) : Prop :=
  ∀ fresh, ∃ data, caloMCHits fresh bankDgt bankRaw = .ok data
    ∧ List.Forall₂ (CarriesCalo bankRaw) (bankDgt.filter (HasEnergy bankRaw ·)) data
    ∧ ∀ bankRaw' : List HitOutput, bankRaw'.Perm bankRaw →
      caloMCHits fresh bankDgt bankRaw' = .ok data

/-- One hit for each digitised entry of the inner veto with energy, in order,
whatever the memory and the order of the raw bank. -/
def IntVetoMatched (MC : Int) (bankDgt bankRaw : List HitOutput) : Prop :=
  ∀ fresh, ∃ data, intVetoMCHits MC fresh bankDgt bankRaw = .ok data
    ∧ List.Forall₂ (CarriesVeto MC bankRaw)
      (bankDgt.filter fun d => OfIntVeto d ∧ HasEnergy bankRaw d) data
    ∧ ∀ bankRaw' : List HitOutput, bankRaw'.Perm bankRaw →
      intVetoMCHits MC fresh bankDgt bankRaw' = .ok data

/-! ## §4. The search. -/

section Search

variable {bankRaw : List HitOutput}

/-- The search finds the raw entry with the hit number, where no number is
given twice. -/
theorem rawOf_iff (hnodup : (bankRaw.map (·.getIntRawVar "hitn")).Nodup) {d r : HitOutput} :
    rawOf bankRaw d = some r ↔ r ∈ bankRaw ∧ SameHit d r :=
  find?_key_iff hnodup

/-- The order of the raw bank does not show in the search. -/
theorem rawOf_perm {bankRaw' : List HitOutput} (hperm : bankRaw'.Perm bankRaw)
    (hnodup : (bankRaw.map (·.getIntRawVar "hitn")).Nodup) (d : HitOutput) :
    rawOf bankRaw' d = rawOf bankRaw d :=
  find?_key_perm hperm hnodup (d.getIntDgtVar "hitn")

/-- The search finds nothing exactly when no raw entry has the hit number. -/
theorem rawOf_eq_none {d : HitOutput} :
    rawOf bankRaw d = none ↔ ∀ r ∈ bankRaw, ¬ SameHit d r := by
  unfold rawOf
  rw [List.find?_eq_none]
  exact forall₂_congr fun r _ => by rw [decide_eq_true_iff]

/-- The raw entry that is found decides whether there is energy. -/
theorem hasEnergy_iff (hnodup : (bankRaw.map (·.getIntRawVar "hitn")).Nodup) {d r : HitOutput}
    (hraw : rawOf bankRaw d = some r) :
    HasEnergy bankRaw d ↔ ¬ r.getIntRawVar "totEdep" ≤ minEdep := by
  rw [not_le]
  constructor
  · rintro ⟨r', hmem, hsame, henergy⟩
    obtain rfl := Option.some.inj (hraw.symm.trans ((rawOf_iff hnodup).mpr ⟨hmem, hsame⟩))
    exact henergy
  · intro henergy
    obtain ⟨hmem, hsame⟩ := (rawOf_iff hnodup).mp hraw
    exact ⟨r, hmem, hsame, henergy⟩

end Search

/-! ## §5. The calorimeter. -/

section Calorimeter

variable {bankDgt bankRaw : List HitOutput}

/-- A turn of the loop for the calorimeter, of an entry with a raw entry: a hit
that carries both, or none without energy. -/
theorem calorimeterMCHit_cases (fresh : CalorimeterMCHitObject) {d r : HitOutput}
    (hnodup : (bankRaw.map (·.getIntRawVar "hitn")).Nodup) (hraw : rawOf bankRaw d = some r) :
    (∃ hit, calorimeterMCHit bankRaw fresh d = some hit ∧ HasEnergy bankRaw d
        ∧ CarriesCalo bankRaw d hit)
      ∨ calorimeterMCHit bankRaw fresh d = none ∧ ¬ HasEnergy bankRaw d := by
  obtain ⟨hmem, hsame⟩ := (rawOf_iff hnodup).mp hraw
  unfold calorimeterMCHit
  rw [hasEnergy_iff hnodup hraw, hraw]
  by_cases hlow : r.getIntRawVar "totEdep" ≤ minEdep
  · exact Or.inr ⟨if_pos hlow, not_not.mpr hlow⟩
  · refine Or.inl ⟨_, if_neg hlow, hlow, ?_⟩
    exact
      { raw := ⟨r, hmem, hsame, rfl, rfl⟩
        crystal := ⟨rfl, rfl, rfl⟩
        adc := ⟨rfl, rfl, rfl, rfl⟩
        tdc := ⟨rfl, rfl, rfl, rfl⟩ }

/-- In a memory with energy, an entry without a raw entry is published. -/
theorem calorimeterMCHit_isSome_iff (hnodup : (bankRaw.map (·.getIntRawVar "hitn")).Nodup)
    {fresh : CalorimeterMCHitObject} (hfresh : ¬ fresh.totEdep ≤ minEdep) (d : HitOutput) :
    (calorimeterMCHit bankRaw fresh d).isSome = true
      ↔ rawOf bankRaw d = none ∨ HasEnergy bankRaw d := by
  cases hraw : rawOf bankRaw d with
  | none =>
      refine iff_of_true ?_ (Or.inl rfl)
      unfold calorimeterMCHit
      rw [hraw]
      simp [hfresh]
  | some r =>
      rw [or_iff_right (Option.some_ne_none r)]
      obtain ⟨hit, hhit, henergy, -⟩ | ⟨hnone, hlow⟩ :=
        calorimeterMCHit_cases fresh hnodup hraw
      · exact iff_of_true (Option.isSome_of_eq_some hhit) henergy
      · rw [hnone]
        exact iff_of_false Bool.false_ne_true hlow

/-- Two banks of the same length are gone through entry by entry. -/
theorem caloMCHits_of_length (fresh : Nat → CalorimeterMCHitObject)
    (hlength : bankDgt.length = bankRaw.length) :
    caloMCHits fresh bankDgt bankRaw
      = .ok (publishEach (fun ih d => calorimeterMCHit bankRaw (fresh ih) d) 0 bankDgt) :=
  if_neg (not_not.mpr hlength)

/-- Where every digitised entry of the calorimeter has a raw entry, the banks
are matched. -/
theorem caloMatched_of_matched (hlength : bankDgt.length = bankRaw.length)
    (hnodup : (bankRaw.map (·.getIntRawVar "hitn")).Nodup)
    (hmatched : ∀ d ∈ bankDgt, ∃ r ∈ bankRaw, SameHit d r) : CaloMatched bankDgt bankRaw := by
  intro fresh
  refine ⟨_, caloMCHits_of_length fresh hlength, ?_, fun bankRaw' hperm => ?_⟩
  · have hcases : ∀ n, ∀ d ∈ bankDgt,
        (∃ hit, calorimeterMCHit bankRaw (fresh n) d = some hit ∧ HasEnergy bankRaw d
          ∧ CarriesCalo bankRaw d hit)
        ∨ calorimeterMCHit bankRaw (fresh n) d = none ∧ ¬ HasEnergy bankRaw d := by
      intro n d hd
      obtain ⟨r, hr⟩ := hmatched d hd
      exact calorimeterMCHit_cases (fresh n) hnodup ((rawOf_iff hnodup).mpr hr)
    refine forall₂_publishEach bankDgt (fun n d hd hit hhit => ?_) (fun n d hd hnone => ?_) 0
    · obtain ⟨hit', hhit', henergy, hcarries⟩ | ⟨hnone, -⟩ := hcases n d hd
      · obtain rfl := Option.some.inj (hhit.symm.trans hhit')
        exact ⟨henergy, hcarries⟩
      · rw [hnone] at hhit
        cases hhit
    · obtain ⟨hit', hhit', -⟩ | ⟨-, hlow⟩ := hcases n d hd
      · rw [hnone] at hhit'
        cases hhit'
      · exact hlow
  · rw [caloMCHits_of_length fresh (hlength.trans hperm.length_eq.symm)]
    refine congrArg Except.ok (publishEach_congr (fun ih d => ?_) 0 bankDgt)
    unfold calorimeterMCHit
    rw [rawOf_perm hperm hnodup]

/-- An entry without a raw entry is published when the memory has energy, and so
none can be without. -/
theorem matched_of_caloMatched (hlength : bankDgt.length = bankRaw.length)
    (hnodup : (bankRaw.map (·.getIntRawVar "hitn")).Nodup) (h : CaloMatched bankDgt bankRaw) :
    ∀ d ∈ bankDgt, ∃ r ∈ bankRaw, SameHit d r := by
  intro d hd
  by_contra hnone
  -- a memory with an energy of 1
  obtain ⟨data, hdata, hmatched, -⟩ := h fun _ => ⟨⟨0, 0, 0, 0, 0, 0, 0⟩, 0, 0, 0, 0, 1, 0⟩
  rw [caloMCHits_of_length _ hlength] at hdata
  obtain rfl := Except.ok.inj hdata
  have hlengths := hmatched.length_eq
  rw [length_publishEach fun n d => calorimeterMCHit_isSome_iff hnodup (by decide +kernel) d]
    at hlengths
  obtain ⟨r, hr, hsame, -⟩ : HasEnergy bankRaw d :=
    of_length_filter (fun d henergy => Or.inr henergy) hlengths hd
      (Or.inl (rawOf_eq_none.mpr fun r hr hsame => hnone ⟨r, hr, hsame⟩))
  exact hnone ⟨r, hr, hsame⟩

end Calorimeter

/-! ## §6. The inner veto. -/

section IntVeto

variable {MC : Int} {bankDgt bankRaw : List HitOutput}

/-- A turn of the loop for the inner veto, of any entry: a hit that carries
both, or none. -/
theorem intVetoMCHit_cases (MC : Int) (hnodup : (bankRaw.map (·.getIntRawVar "hitn")).Nodup)
    (fresh : IntVetoMCHitObject) (d : HitOutput) :
    (∃ hit, intVetoMCHit MC bankRaw fresh d = some hit ∧ (OfIntVeto d ∧ HasEnergy bankRaw d)
        ∧ CarriesVeto MC bankRaw d hit)
      ∨ intVetoMCHit MC bankRaw fresh d = none ∧ ¬ (OfIntVeto d ∧ HasEnergy bankRaw d) := by
  unfold intVetoMCHit
  by_cases hveto : OfIntVeto d
  · rw [if_neg (not_not.mpr hveto)]
    cases hraw : rawOf bankRaw d with
    | none =>
        -- without a raw entry the energy stays 0, and the hit is dropped
        have hzero : (0 : ℚ) ≤ minEdep := by decide +kernel
        refine Or.inr ⟨if_pos hzero, ?_⟩
        rintro ⟨-, r, hr, hsame, -⟩
        exact rawOf_eq_none.mp hraw r hr hsame
    | some r =>
        obtain ⟨hmem, hsame⟩ := (rawOf_iff hnodup).mp hraw
        by_cases hlow : r.getIntRawVar "totEdep" ≤ minEdep
        · exact Or.inr ⟨if_pos hlow, fun h => (hasEnergy_iff hnodup hraw).mp h.2 hlow⟩
        · have henergy := (hasEnergy_iff hnodup hraw).mpr hlow
          refine Or.inl ⟨_, if_neg hlow, ⟨hveto, henergy⟩, ?_⟩
          -- the last sensors are written for BDXmini only
          by_cases hMC : MC = MCType.BDXmini_V1.value
          · rw [if_pos hMC]
            exact
              { raw := ⟨r, hmem, hsame, rfl⟩
                counter := ⟨rfl, rfl, rfl⟩
                adc := ⟨rfl, rfl, rfl, rfl⟩
                tdc := ⟨rfl, rfl, rfl, rfl⟩
                adcBDXmini := fun _ => ⟨rfl, rfl, rfl, rfl⟩
                tdcBDXmini := fun _ => ⟨rfl, rfl, rfl, rfl⟩ }
          · rw [if_neg hMC]
            exact
              { raw := ⟨r, hmem, hsame, rfl⟩
                counter := ⟨rfl, rfl, rfl⟩
                adc := ⟨rfl, rfl, rfl, rfl⟩
                tdc := ⟨rfl, rfl, rfl, rfl⟩
                adcBDXmini := fun h => absurd h hMC
                tdcBDXmini := fun h => absurd h hMC }
  · rw [if_pos hveto]
    exact Or.inr ⟨rfl, fun h => hveto h.1⟩

/-- Two banks of the veto of the same length are gone through entry by entry. -/
theorem intVetoMCHits_of_length (fresh : Nat → IntVetoMCHitObject)
    (hlength : bankDgt.length = bankRaw.length) :
    intVetoMCHits MC fresh bankDgt bankRaw
      = .ok (publishEach (fun ih d => intVetoMCHit MC bankRaw (fresh ih) d) 0 bankDgt) :=
  if_neg (not_not.mpr hlength)

/-- The banks of the inner veto are always matched, as `totEdep` starts at 0. -/
theorem intVetoMatched (MC : Int) (hlength : bankDgt.length = bankRaw.length)
    (hnodup : (bankRaw.map (·.getIntRawVar "hitn")).Nodup) :
    IntVetoMatched MC bankDgt bankRaw := by
  intro fresh
  refine ⟨_, intVetoMCHits_of_length fresh hlength, ?_, fun bankRaw' hperm => ?_⟩
  · refine forall₂_publishEach bankDgt (fun n d _ hit hhit => ?_) (fun n d _ hnone => ?_) 0
    · obtain ⟨hit', hhit', henergy, hcarries⟩ | ⟨hnone, -⟩ :=
        intVetoMCHit_cases MC hnodup (fresh n) d
      · obtain rfl := Option.some.inj (hhit.symm.trans hhit')
        exact ⟨henergy, hcarries⟩
      · rw [hnone] at hhit
        cases hhit
    · obtain ⟨hit', hhit', -⟩ | ⟨-, hlow⟩ := intVetoMCHit_cases MC hnodup (fresh n) d
      · rw [hnone] at hhit'
        cases hhit'
      · exact hlow
  · rw [intVetoMCHits_of_length fresh (hlength.trans hperm.length_eq.symm)]
    refine congrArg Except.ok (publishEach_congr (fun ih d => ?_) 0 bankDgt)
    unfold intVetoMCHit
    rw [rawOf_perm hperm hnodup]

end IntVeto

/-! ## §7. Both detectors. -/

/-- **The banks are matched by hit number** exactly when every digitised entry
of the calorimeter has a raw entry; for the inner veto they always are. -/
theorem matched_by_number_iff (MC : Int) (crsDgt crsRaw vetoDgt vetoRaw : List HitOutput)
    (hcrs : crsDgt.length = crsRaw.length) (hveto : vetoDgt.length = vetoRaw.length)
    (hcrsRaw : (crsRaw.map (·.getIntRawVar "hitn")).Nodup)
    (hvetoRaw : (vetoRaw.map (·.getIntRawVar "hitn")).Nodup) :
    CaloMatched crsDgt crsRaw ∧ IntVetoMatched MC vetoDgt vetoRaw
      ↔ ∀ d ∈ crsDgt, ∃ r ∈ crsRaw, SameHit d r := by
  constructor
  · intro h
    exact matched_of_caloMatched hcrs hcrsRaw h.1
  · intro hmatched
    exact ⟨caloMatched_of_matched hcrs hcrsRaw hmatched, intVetoMatched MC hveto hvetoRaw⟩

/-- An entry with this hit number, and with energy. -/
def numbered (hitn : ℚ) : HitOutput where
  getIntRawVar name := if name = "hitn" then hitn else 30
  getIntDgtVar name := if name = "hitn" then hitn else 1

/-- Two hits of the calorimeter, in the opposite order in the raw bank, and one of
the veto. -/
theorem two_hits_matched :
    CaloMatched [numbered 1, numbered 2] [numbered 2, numbered 1]
      ∧ IntVetoMatched MCType.BDXmini_V1.value [numbered 1] [numbered 1] := by
  refine (matched_by_number_iff MCType.BDXmini_V1.value [numbered 1, numbered 2]
    [numbered 2, numbered 1] [numbered 1] [numbered 1] rfl rfl (by decide +kernel)
    (by decide +kernel)).mpr ?_
  rw [List.forall_mem_cons, List.forall_mem_singleton]
  exact ⟨⟨numbered 1, List.mem_cons_of_mem _ List.mem_cons_self, rfl⟩,
    numbered 2, List.mem_cons_self, rfl⟩

/-- A digitised entry without a raw entry is published when the memory of the
new hit has energy. -/
theorem unmatched_entry_published : ¬ CaloMatched [numbered 1] [numbered 2] := by
  intro h
  obtain ⟨data, hdata, hmatched, -⟩ := h fun _ => ⟨⟨0, 0, 0, 0, 0, 0, 0⟩, 0, 0, 0, 0, 30, 11⟩
  have hlength := hmatched.length_eq
  obtain rfl := Except.ok.inj hdata
  exact absurd hlength (by decide +kernel)

end PokerReco.MC
