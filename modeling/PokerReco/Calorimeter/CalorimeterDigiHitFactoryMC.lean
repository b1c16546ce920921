/-
  PokerReco.Calorimeter.CalorimeterDigiHitFactoryMC
  ─────────────────────────────────────────────────
  **DIGITISED HITS FROM SIMULATED ONES**
  (`Calorimeter/CalorimeterDigiHit_factory_MC.cc`).

  The simulation may give several hits in one crystal.  `evnt` keeps one digi
  hit for each index in a map and adds to it.  The digi hit it works on is a
  pointer, `m_CalorimeterDigiHit`, that outlives a turn of the loop:

      readout 1, new index     points to the new digi hit
      readout 1, known index   is NOT redirected; the charge goes to the last
                               digi hit that was created or found
      readout 2, new index     points to the new digi hit
      readout 2, known index   is redirected to the digi hit of the index

  The time of a digi hit is four times that of the simulated hit, a product of
  two numbers of 32 bits: where it is out of range a compiled program may have
  any time there.

      Sound                  what the map and the objects look like in each run
      Filed                  what they hold while no crystal has come twice
      conserves_charge_iff   each crystal gets its own charge, time and hits if
                             and only if no two hits are in one crystal and no
                             time is out of range
-/
import Mathlib.Algebra.Ring.Int.Defs
import Mathlib.Algebra.BigOperators.Group.List.Basic
import Mathlib.Data.List.Nodup
import PokerReco.Library.SignedArithmetic
import PokerReco.MC.CalorimeterMCHit
import PokerReco.TT.Index

namespace PokerReco.Calorimeter

open PokerReco.Library PokerReco.MC PokerReco.TT

/-! ## §1. `SetIndex`. -/

/-- `SetIndex`: what it leaves in `index`.  For some setups and sectors a
field keeps what it held. -/
def SetIndex (index : CaloIndex) (mchit : CalorimeterMCHit) (MC : Int) : CaloIndex :=
  let index :=
    if MC = MCType.FULL_V1.value then
      { index with
        sector := .ofInt (mchit.sector - 1), x := .ofInt (mchit.x - 1), y := .ofInt (mchit.y - 1) }
    else if MC = MCType.CATANIA_V1.value ∧ mchit.sector = 100 then
      { index with sector := 1, x := 0, y := 0 }
    else if MC = MCType.CATANIA_V2.value then
      if mchit.sector = 1 then
        { index with sector := 0, x := .ofInt (mchit.y - 1), y := .ofInt (4 - mchit.x) }
      else if mchit.sector = 100 then { index with sector := 1, y := 0, x := 0 }
      else index
    else if MC = MCType.FULL_V2.value then
      { index with
        sector := .ofInt (mchit.sector - 1), x := .ofInt (mchit.x - 1), y := .ofInt (mchit.y - 1) }
    else if MC = MCType.JLAB_FLUX_V1.value then { index with sector := 0, x := 0, y := 0 }
    else if MC = MCType.BDXmini_V1.value then
      let index :=
        if mchit.sector = 502 ∨ mchit.sector = 402 then { index with sector := 0 }
        else if mchit.sector = 500 ∨ mchit.sector = 400 then { index with sector := 1 }
        else index
      { index with x := .ofInt mchit.x, y := .ofInt mchit.y }
    else index
  { index with readout := 1 }

/-- `SetIndex` assigns every field: what `index` held does not matter. -/
def AssignsIndex (MC : Int) (mchit : CalorimeterMCHit) : Prop :=
  ∀ held held', SetIndex held mchit MC = SetIndex held' mchit MC

/-- The index `SetIndex` assigns, under a readout. -/
def channelOf (MC : Int) (readout : Int8) (mchit : CalorimeterMCHit) : CaloIndex :=
  { SetIndex default mchit MC with readout := readout }

/-- Where every field is assigned, `SetIndex` leaves the index of the hit under
readout 1. -/
theorem SetIndex_eq_channelOf {MC : Int} {mchit : CalorimeterMCHit}
    (hassigns : AssignsIndex MC mchit) (held : CaloIndex) :
    SetIndex held mchit MC = channelOf MC 1 mchit :=
  hassigns held default

/-- The readout does not tell crystals apart. -/
theorem channelOf_eq_iff (MC : Int) (r r' : Int8) (a b : CalorimeterMCHit) :
    channelOf MC r a = channelOf MC r b ↔ channelOf MC r' a = channelOf MC r' b := by
  simp [channelOf]

/-! ## §2. `evnt`. -/

/-- `CalorimeterDigiHit`, without the members `evnt` never writes.  The
associated objects are hits of the event, known by their place in it. -/
structure CalorimeterDigiHit where
  m_channel : CaloIndex
  Q : Int
  T : Int
  RMSflag : Bool
  associated : List Nat
  deriving DecidableEq, Repr

/-- `AddAssociatedObject`: insertion into a set. -/
def CalorimeterDigiHit.AddAssociatedObject (d : CalorimeterDigiHit) (k : Nat) :
    CalorimeterDigiHit :=
  { d with associated := d.associated.insert k }

/-- The variables of the loop.  Digi hits are known by their place among the
objects created so far. -/
structure Loop where
  objects : List CalorimeterDigiHit
  m_CalorimeterDigiHit : Option Nat
  m_map : OrderedMap CaloIndex.lt Nat

/-- `tdc * 4`, a product of two `int`s in the program `A`. -/
def timeOf (A : Arithmetic) (tdc : Int) : Int := (A.mul (.ofInt tdc) 4).toInt

namespace Loop

/-- The loop before its first turn: no object, no current one and an empty map. -/
def start : Loop := ⟨[], none, ∅⟩

/-- The branch for an index that is not in the map: a new digi hit is created and
is the current one. -/
def create (A : Arithmetic) (s : Loop) (index : CaloIndex) (adc tdc : Int) (k : Nat) : Loop where
  objects := s.objects ++ [{ m_channel := index, Q := adc, T := timeOf A tdc, RMSflag := true,
                             associated := [k] }]
  m_CalorimeterDigiHit := some s.objects.length
  m_map := s.m_map.insert index s.objects.length

/-- `m_CalorimeterDigiHit->Q += adc`; `none` through a null pointer. -/
def addCharge (s : Loop) (adc : Int) : Option Loop :=
  match s.m_CalorimeterDigiHit with
  | none => none
  | some p => some { s with objects := s.objects.modify p fun d => { d with Q := d.Q + adc } }

/-- The first half of a turn: the digi hit of readout 1 is created, or the current
one gets the charge. -/
def fillReadout1 (A : Arithmetic) (s : Loop) (index : CaloIndex) (hit : CalorimeterMCHit)
    (k : Nat) : Option Loop :=
  let index := { index with readout := 1 }
  match s.m_map[index]? with
  | none => some (s.create A index hit.adcr hit.tdcr k)
  -- the digi hit of the index is found but not fetched
  | some _ => s.addCharge hit.adcr

/-- The second half of a turn, for `CATANIA_V1`. -/
def fillReadout2 (A : Arithmetic) (s : Loop) (index : CaloIndex) (hit : CalorimeterMCHit)
    (k : Nat) : Option Loop :=
  let index := { index with readout := 2 }
  match s.m_map[index]? with
  | none => some (s.create A index hit.adcl hit.tdcl k)
  | some p =>
      addCharge
        { s with
          m_CalorimeterDigiHit := some p
          objects := s.objects.modify p (·.AddAssociatedObject k) } hit.adcl

/-- A turn of the loop; `held` is what the fresh `index` of the turn holds. -/
def turn (A : Arithmetic) (MC : Int) (held : CaloIndex) (s : Loop) (hit : CalorimeterMCHit)
    (k : Nat) : Option Loop :=
  let index := SetIndex held hit MC
  match s.fillReadout1 A index hit k with
  | none => none
  | some s => if MC = MCType.CATANIA_V1.value then s.fillReadout2 A index hit k else some s

/-- The loop over the hits from place `k` on. -/
def run (A : Arithmetic) (MC : Int) (held : Nat → CaloIndex) :
    Loop → List CalorimeterMCHit → Nat → Option Loop
  | s, [], _ => some s
  | s, hit :: hits, k =>
      match s.turn A MC (held k) hit k with
      | none => none
      | some s => s.run A MC held hits (k + 1)

/-- The digi hits of the map, in its order.  Its pointers all point to objects
that were created. -/
def published (s : Loop) : List CalorimeterDigiHit :=
  s.m_map.toList.filterMap fun entry => s.objects[entry.2]?

end Loop

/-- `CalorimeterDigiHit_factory_MC::evnt`: the contents of `_data`. -/
def evnt (A : Arithmetic) (MC : Int) (held : Nat → CaloIndex) (hits : List CalorimeterMCHit) :
    Option (List CalorimeterDigiHit) :=
  (Loop.start.run A MC held hits 0).map Loop.published

/-! ## §3. What it should publish. -/

/-- A readout, with the charge and the time it sees. -/
structure Readout where
  readout : Int8
  adc : CalorimeterMCHit → Int
  tdc : CalorimeterMCHit → Int

/-- The readouts of a setup, of which `CATANIA_V1` has two. -/
def readouts (MC : Int) : List Readout :=
  ⟨1, (·.adcr), (·.tdcr)⟩
    :: if MC = MCType.CATANIA_V1.value then [⟨2, (·.adcl), (·.tdcl)⟩] else []

/-- In `CATANIA_V1` a crystal is read out on two sides. -/
theorem readouts_catania {MC : Int} (hMC : MC = MCType.CATANIA_V1.value) :
    readouts MC = [⟨1, (·.adcr), (·.tdcr)⟩, ⟨2, (·.adcl), (·.tdcl)⟩] := by
  unfold readouts
  rw [if_pos hMC]

/-- In all other setups a crystal is read out once. -/
theorem readouts_other {MC : Int} (hMC : MC ≠ MCType.CATANIA_V1.value) :
    readouts MC = [⟨1, (·.adcr), (·.tdcr)⟩] := by
  unfold readouts
  rw [if_neg hMC]

/-- Four times the time that a readout sees is an `int`, for every hit. -/
def TimesFit (MC : Int) (hits : List CalorimeterMCHit) : Prop :=
  ∀ r ∈ readouts MC, ∀ hit ∈ hits, -2 ^ 31 ≤ 4 * r.tdc hit ∧ 4 * r.tdc hit < 2 ^ 31

/-- The order of the hits does not matter for their times. -/
theorem TimesFit.perm {MC : Int} {hits hits' : List CalorimeterMCHit} (h : TimesFit MC hits)
    (hperm : hits.Perm hits') : TimesFit MC hits' :=
  fun r hr hit hmem => h r hr hit (hperm.mem_iff.mpr hmem)

/-- **The product is the time meant if and only if** it is an `int`: the
language fixes it there, and elsewhere no `int` is that large. -/
theorem timeOf_eq_iff (A : Arithmetic) (tdc : Int) :
    timeOf A tdc = 4 * tdc ↔ -2 ^ 31 ≤ 4 * tdc ∧ 4 * tdc < 2 ^ 31 := by
  constructor
  · intro h
    rw [← h]
    exact ⟨Int32.le_toInt _, Int32.toInt_lt _⟩
  · intro ⟨hlow, hhigh⟩
    have htdc : (Int32.ofInt tdc).toInt = tdc := Int32.toInt_ofInt_of_le (by omega) (by omega)
    have hfour : (4 : Int32).toInt = 4 := by decide
    rw [timeOf, A.mul_eq _ _ (by rw [htdc, hfour]; omega) (by rw [htdc, hfour]; omega), htdc,
      hfour, Int.mul_comm]

/-- The hits in one crystal, each with its place in the event. -/
def hitsOf (MC : Int) (hits : List CalorimeterMCHit) (c : CaloIndex) :
    List (CalorimeterMCHit × Nat) :=
  hits.zipIdx.filter fun hit => channelOf MC c.readout hit.1 = c

/-- What is published for the index `c`: nothing when no hit has it, else one
digi hit with the summed charge of its hits, the time of the first and the
hits themselves. -/
def PublishesSum (MC : Int) (hits : List CalorimeterMCHit) (data : List CalorimeterDigiHit)
    (r : Readout) (c : CaloIndex) : Prop :=
  match hitsOf MC hits c with
  | [] => data.filter (·.m_channel = c) = []
  | first :: more => ∃ d, data.filter (·.m_channel = c) = [d]
      ∧ d.Q = ((first :: more).map fun hit => r.adc hit.1).sum
      ∧ d.T = 4 * r.tdc first.1
      ∧ ∀ k, k ∈ d.associated ↔ k ∈ (first :: more).map Prod.snd

/-- The charges published for the index `c`. -/
def charges (data : List CalorimeterDigiHit) (c : CaloIndex) : List Int :=
  (data.filter (·.m_channel = c)).map (·.Q)

/-- **Charge is conserved crystal by crystal**, and so does not depend on the
order of the hits. -/
def ConservesCharge (A : Arithmetic) (MC : Int) (held : Nat → CaloIndex)
    (hits : List CalorimeterMCHit) : Prop :=
  ∃ data, evnt A MC held hits = some data
    ∧ (∀ r ∈ readouts MC, ∀ c, c.readout = r.readout → PublishesSum MC hits data r c)
    ∧ ∀ hits', hits.Perm hits' → ∃ data', evnt A MC held hits' = some data'
        ∧ ∀ r ∈ readouts MC, ∀ c, c.readout = r.readout → charges data' c = charges data c

/-! ## §4. Every run: what the objects and the map look like. -/

namespace Loop

variable {A : Arithmetic}

/-- The map leads to digi hits of its keys, and a digi hit of readout 1 has no
associated object but the one it was created with. -/
structure Sound (s : Loop) : Prop where
  pointers : ∀ c p, s.m_map[c]? = some p →
    ∃ d : CalorimeterDigiHit, s.objects[p]? = some d ∧ d.m_channel = c
  single : ∀ d ∈ s.objects, d.m_channel.readout = 1 → d.associated.length ≤ 1

/-- Before the first turn there is nothing that could be wrong. -/
theorem start_sound : start.Sound where
  pointers := by
    intro c p h
    simp [start] at h
  single := by
    intro d hd
    cases hd

/-- Creating an object leaves the earlier ones in place. -/
theorem objects_create {s : Loop} {p : Nat} {d : CalorimeterDigiHit} (index : CaloIndex)
    (adc tdc : Int) (k : Nat) (h : s.objects[p]? = some d) :
    (s.create A index adc tdc k).objects[p]? = some d := by
  have hp : p < s.objects.length := (List.getElem?_eq_some_iff.mp h).1
  show (s.objects ++ [_])[p]? = some d
  rw [List.getElem?_append_left hp, h]

/-- Creating an object keeps the map and its objects together. -/
theorem Sound.create {s : Loop} (hs : s.Sound) (index : CaloIndex) (adc tdc : Int) (k : Nat) :
    (s.create A index adc tdc k).Sound where
  pointers := by
    intro c p h
    -- the new entry points to the new object, the others as before
    by_cases hc : index = c
    · subst hc
      replace h : (s.m_map.insert index s.objects.length)[index]? = some p := h
      rw [Std.TreeMap.getElem?_insert_self] at h
      obtain rfl := Option.some.inj h
      exact ⟨_, List.getElem?_concat_length, rfl⟩
    · replace h : (s.m_map.insert index s.objects.length)[c]? = some p := h
      rw [OrderedMap.getElem?_insert_of_ne hc] at h
      obtain ⟨d, hd, hdc⟩ := hs.pointers c p h
      exact ⟨d, objects_create index adc tdc k hd, hdc⟩
  single := by
    intro d hd
    obtain hd | hd := List.mem_append.mp hd
    · exact hs.single d hd
    · obtain rfl := List.mem_singleton.mp hd
      intro _
      exact Nat.le_refl 1

/-- Changing one object, but not its channel, nor the associated objects of
one of readout 1. -/
theorem Sound.modify {s : Loop} (hs : s.Sound) (p : Nat)
    {f : CalorimeterDigiHit → CalorimeterDigiHit} (current : Option Nat)
    (hchannel : ∀ d, (f d).m_channel = d.m_channel)
    (hassociated : ∀ d, s.objects[p]? = some d → d.m_channel.readout = 1 →
      (f d).associated = d.associated) :
    Sound { s with m_CalorimeterDigiHit := current, objects := s.objects.modify p f } where
  pointers := by
    intro c q h
    obtain ⟨d, hd, hdc⟩ := hs.pointers c q h
    show ∃ d', (s.objects.modify p f)[q]? = some d' ∧ d'.m_channel = c
    rw [List.getElem?_modify, hd]
    by_cases hpq : p = q
    · exact ⟨f d, by simp [hpq], (hchannel d).trans hdc⟩
    · exact ⟨d, by simp [hpq], hdc⟩
  single := by
    intro d hd hr
    obtain ⟨q, hq⟩ := List.mem_iff_getElem?.mp hd
    replace hq : (s.objects.modify p f)[q]? = some d := hq
    rw [List.getElem?_modify] at hq
    obtain ⟨e, he, hed⟩ := Option.map_eq_some_iff.mp hq
    have hmem : e ∈ s.objects := List.mem_of_getElem? he
    by_cases hpq : p = q
    · subst hpq
      simp only [if_true] at hed
      subst hed
      rw [hchannel] at hr
      rw [hassociated e he hr]
      exact hs.single e hmem hr
    · simp only [hpq, if_false] at hed
      subst hed
      exact hs.single e hmem hr

/-- Adding a charge keeps the map and its objects together. -/
theorem Sound.addCharge {s s' : Loop} (hs : s.Sound) {adc : Int}
    (h : s.addCharge adc = some s') : s'.Sound := by
  unfold Loop.addCharge at h
  split at h
  next => cases h
  next p _ =>
    obtain rfl := Option.some.inj h
    exact hs.modify p _ (fun _ => rfl) (fun _ _ _ => rfl)

/-- The first half of a turn keeps the map and its objects together. -/
theorem Sound.fillReadout1 {s s' : Loop} (hs : s.Sound) {index : CaloIndex}
    {hit : CalorimeterMCHit} {k : Nat} (h : s.fillReadout1 A index hit k = some s') : s'.Sound := by
  simp only [Loop.fillReadout1] at h
  split at h
  next =>
    obtain rfl := Option.some.inj h
    exact hs.create _ _ _ _
  next => exact hs.addCharge h

/-- The second half of a turn keeps the map and its objects together. -/
theorem Sound.fillReadout2 {s s' : Loop} (hs : s.Sound) {index : CaloIndex}
    {hit : CalorimeterMCHit} {k : Nat} (h : s.fillReadout2 A index hit k = some s') : s'.Sound := by
  simp only [Loop.fillReadout2] at h
  split at h
  next =>
    obtain rfl := Option.some.inj h
    exact hs.create _ _ _ _
  next p hp =>
    refine Sound.addCharge
      (hs.modify p (some p) (f := (·.AddAssociatedObject k)) (fun _ => rfl) (fun d hd hr => ?_)) h
    -- what the map has under readout 2 is of readout 2
    obtain ⟨d', hd', hchannel⟩ := hs.pointers _ p hp
    rw [hd] at hd'
    obtain rfl := Option.some.inj hd'
    rw [hchannel] at hr
    exact absurd hr (show (2 : Int8) ≠ 1 by decide)

/-- A turn keeps the map and its objects together. -/
theorem Sound.turn {MC : Int} {held : CaloIndex} {s s' : Loop} (hs : s.Sound)
    {hit : CalorimeterMCHit} {k : Nat} (h : s.turn A MC held hit k = some s') : s'.Sound := by
  simp only [Loop.turn] at h
  split at h
  next => cases h
  next s₁ h₁ =>
    have hs₁ := hs.fillReadout1 h₁
    split at h
    next => exact hs₁.fillReadout2 h
    next =>
      obtain rfl := Option.some.inj h
      exact hs₁

/-- The loop keeps the map and its objects together: it is by induction on the
hits, one turn each. -/
theorem Sound.run {MC : Int} {held : Nat → CaloIndex} :
    ∀ {hits : List CalorimeterMCHit} {s s' : Loop} {k : Nat}, s.Sound →
      s.run A MC held hits k = some s' → s'.Sound
  | [], s, s', k, hs, h => by
      obtain rfl := Option.some.inj h
      exact hs
  | hit :: hits, s, s', k, hs, h => by
      simp only [Loop.run] at h
      split at h
      next => cases h
      next s₁ h₁ => exact Sound.run (hs.turn h₁) h

/-- What is published for one index is the object that the map leads to, if
there is one. -/
theorem Sound.published_filter {s : Loop} (hs : s.Sound) (c : CaloIndex) :
    s.published.filter (·.m_channel = c)
      = (s.m_map[c]?.bind (s.objects[·]?)).toList := by
  have hentry : ∀ entry ∈ s.m_map.toList,
      (s.objects[entry.2]?).filter (fun d => d.m_channel = c)
        = if decide (entry.1 = c) = true then s.objects[entry.2]? else none := by
    intro entry hmem
    obtain ⟨d, hd, hdc⟩ :=
      hs.pointers entry.1 entry.2 (Std.TreeMap.mem_toList_iff_getElem?_eq_some.mp hmem)
    rw [hd, Option.filter_some, hdc]
  unfold published
  rw [List.filter_filterMap, List.filterMap_congr hentry, ← List.filterMap_filter,
    filter_toList_key]
  cases s.m_map[c]? with
  | none => rfl
  | some p =>
      show [(c, p)].filterMap _ = (s.objects[p]?).toList
      cases h : s.objects[p]? with
      | none => simp [h]
      | some d => simp [h]

/-! ## §5. Hits in distinct crystals. -/

/-- The first `n` hits have their own digi hits, and there are no others. -/
structure Filed (A : Arithmetic) (MC : Int) (hits : List CalorimeterMCHit) (s : Loop)
    (n : Nat) (r : Readout) : Prop where
  own : ∀ (k : Nat) (hit : CalorimeterMCHit), k < n → hits[k]? = some hit →
    ∃ p, s.m_map[channelOf MC r.readout hit]? = some p
      ∧ s.objects[p]? = some { m_channel := channelOf MC r.readout hit, Q := r.adc hit,
                               T := timeOf A (r.tdc hit), RMSflag := true, associated := [k] }
  only : ∀ (c : CaloIndex) (p : Nat), c.readout = r.readout → s.m_map[c]? = some p →
    ∃ (k : Nat) (hit : CalorimeterMCHit), k < n ∧ hits[k]? = some hit
      ∧ channelOf MC r.readout hit = c

variable {MC : Int} {hits : List CalorimeterMCHit} {hit : CalorimeterMCHit} {n : Nat}
variable {r : Readout} {s : Loop}

/-- Before the first turn no hit has its own digi hit. -/
theorem start_filed (MC : Int) (hits : List CalorimeterMCHit) (r : Readout) :
    Filed A MC hits start 0 r where
  own := by
    intro k hit hk
    omega
  only := by
    intro c p _ h
    simp [start] at h

/-- The index of the next hit is new. -/
theorem Filed.fresh (hs : Filed A MC hits s n r)
    (hnodup : (hits.map (channelOf MC r.readout)).Nodup) (hhit : hits[n]? = some hit) :
    s.m_map[channelOf MC r.readout hit]? = none := by
  cases h : s.m_map[channelOf MC r.readout hit]? with
  | none => rfl
  | some p =>
      obtain ⟨k, hit', hk, hhit', hsame⟩ := hs.only _ p rfl h
      have hn : n < (hits.map (channelOf MC r.readout)).length := by
        rw [List.length_map]
        exact (List.getElem?_eq_some_iff.mp hhit).1
      refine absurd ?_ (List.nodup_iff_getElem?_ne_getElem?.mp hnodup k n hk hn)
      rw [List.getElem?_map, List.getElem?_map, hhit, hhit']
      exact congrArg some hsame

/-- The digi hit of the next hit is created. -/
theorem Filed.create_own (hs : Filed A MC hits s n r) (hhit : hits[n]? = some hit)
    (hnew : s.m_map[channelOf MC r.readout hit]? = none) :
    Filed A MC hits (s.create A (channelOf MC r.readout hit) (r.adc hit) (r.tdc hit) n)
      (n + 1) r where
  own := by
    intro k hit' hk hhit'
    by_cases hkn : k = n
    · subst hkn
      rw [hhit] at hhit'
      obtain rfl := Option.some.inj hhit'
      exact ⟨s.objects.length, Std.TreeMap.getElem?_insert_self, List.getElem?_concat_length⟩
    · obtain ⟨p, hp, hobject⟩ := hs.own k hit' (by omega) hhit'
      have hne : channelOf MC r.readout hit ≠ channelOf MC r.readout hit' := by
        intro he
        rw [he, hp] at hnew
        cases hnew
      exact ⟨p, (OrderedMap.getElem?_insert_of_ne hne).trans hp, objects_create _ _ _ _ hobject⟩
  only := by
    intro c p hc h
    by_cases he : channelOf MC r.readout hit = c
    · exact ⟨n, hit, Nat.lt_succ_self n, hhit, he⟩
    · replace h : (s.m_map.insert (channelOf MC r.readout hit) s.objects.length)[c]? = some p := h
      rw [OrderedMap.getElem?_insert_of_ne he] at h
      obtain ⟨k, hit', hk, hrest⟩ := hs.only c p hc h
      exact ⟨k, hit', Nat.lt_succ_of_lt hk, hrest⟩

/-- The digi hits of one readout do not touch those of another. -/
theorem Filed.create_other (hs : Filed A MC hits s n r) (index : CaloIndex)
    (hr : index.readout ≠ r.readout) (adc tdc : Int) (k : Nat) :
    Filed A MC hits (s.create A index adc tdc k) n r where
  own := by
    intro k' hit' hk hhit'
    obtain ⟨p, hp, hobject⟩ := hs.own k' hit' hk hhit'
    have hne : index ≠ channelOf MC r.readout hit' := by
      intro he
      rw [he] at hr
      exact hr rfl
    exact ⟨p, (OrderedMap.getElem?_insert_of_ne hne).trans hp, objects_create _ _ _ _ hobject⟩
  only := by
    intro c p hc h
    have hne : index ≠ c := by
      intro he
      rw [he] at hr
      exact hr hc
    replace h : (s.m_map.insert index s.objects.length)[c]? = some p := h
    rw [OrderedMap.getElem?_insert_of_ne hne] at h
    exact hs.only c p hc h

/-- The first half of a turn on a hit with a new index creates its digi hit. -/
theorem fillReadout1_new {k : Nat} (hnew : s.m_map[channelOf MC 1 hit]? = none) :
    s.fillReadout1 A (channelOf MC 1 hit) hit k
      = some (s.create A (channelOf MC 1 hit) hit.adcr hit.tdcr k) := by
  show (match s.m_map[channelOf MC 1 hit]? with | none => _ | some _ => _) = _
  rw [hnew]
  rfl

/-- The second half of a turn on a hit with a new index creates its digi hit. -/
theorem fillReadout2_new {k : Nat} (hnew : s.m_map[channelOf MC 2 hit]? = none) :
    s.fillReadout2 A (channelOf MC 1 hit) hit k
      = some (s.create A (channelOf MC 2 hit) hit.adcl hit.tdcl k) := by
  show (match s.m_map[channelOf MC 2 hit]? with | none => _ | some _ => _) = _
  rw [hnew]
  rfl

/-- A turn on a hit in a crystal of its own creates its digi hits and
touches no other. -/
theorem turn_filed (hassigns : AssignsIndex MC hit)
    (hnodup : ∀ r : Int8, (hits.map (channelOf MC r)).Nodup) (hhit : hits[n]? = some hit)
    (held : CaloIndex) (hs : ∀ r ∈ readouts MC, Filed A MC hits s n r) :
    ∃ s', s.turn A MC held hit n = some s' ∧ ∀ r ∈ readouts MC, Filed A MC hits s' (n + 1) r := by
  -- what the fresh index held does not matter
  have hindex : SetIndex held hit MC = channelOf MC 1 hit := SetIndex_eq_channelOf hassigns held
  have hs₁ := hs ⟨1, (·.adcr), (·.tdcr)⟩ List.mem_cons_self
  have hnew₁ : s.m_map[channelOf MC 1 hit]? = none := hs₁.fresh (hnodup 1) hhit
  have hfiled₁ := hs₁.create_own hhit hnew₁
  unfold turn
  rw [hindex]
  simp only [fillReadout1_new hnew₁]
  by_cases hMC : MC = MCType.CATANIA_V1.value
  · rw [if_pos hMC]
    rw [readouts_catania hMC] at hs ⊢
    -- two creations, and neither touches the digi hits of the other readout
    have hs₂ := (hs ⟨2, (·.adcl), (·.tdcl)⟩ (by simp)).create_other (channelOf MC 1 hit)
      (show (1 : Int8) ≠ 2 by decide) hit.adcr hit.tdcr n
    have hnew₂ := hs₂.fresh (hnodup 2) hhit
    refine ⟨_, fillReadout2_new hnew₂, fun r hr => ?_⟩
    obtain rfl | hr := List.mem_cons.mp hr
    · exact hfiled₁.create_other _ (show (2 : Int8) ≠ 1 by decide) _ _ _
    · obtain rfl := List.mem_singleton.mp hr
      exact hs₂.create_own hhit hnew₂
  · rw [if_neg hMC]
    rw [readouts_other hMC]
    refine ⟨_, rfl, fun r hr => ?_⟩
    obtain rfl := List.mem_singleton.mp hr
    exact hfiled₁

/-- The loop over hits in crystals of their own creates the digi hits of each: it
is by induction on the hits ahead. -/
theorem run_filed (hassigns : ∀ hit ∈ hits, AssignsIndex MC hit)
    (hnodup : ∀ r : Int8, (hits.map (channelOf MC r)).Nodup) (held : Nat → CaloIndex) :
    ∀ (rest : List CalorimeterMCHit) (n : Nat) (s : Loop), hits.drop n = rest →
      (∀ r ∈ readouts MC, Filed A MC hits s n r) →
      ∃ s', s.run A MC held rest n = some s' ∧ ∀ r ∈ readouts MC, Filed A MC hits s' hits.length r
  | [], n, s, hdrop, hs => by
      refine ⟨s, rfl, fun r hr => ?_⟩
      have hn : hits.length ≤ n := List.drop_eq_nil_iff.mp hdrop
      constructor
      case own =>
        intro k hit hk
        exact (hs r hr).own k hit (Nat.lt_of_lt_of_le hk hn)
      case only =>
        intro c p hc h
        obtain ⟨k, hit, -, hhit, hsame⟩ := (hs r hr).only c p hc h
        exact ⟨k, hit, (List.getElem?_eq_some_iff.mp hhit).1, hhit, hsame⟩
  | hit :: rest, n, s, hdrop, hs => by
      have hhit : hits[n]? = some hit := by
        rw [← List.head?_drop, hdrop]
        rfl
      have hrest : hits.drop (n + 1) = rest := by
        rw [← List.tail_drop, hdrop]
        rfl
      obtain ⟨s₁, hturn, hs₁⟩ :=
        turn_filed (hassigns hit (List.mem_of_getElem? hhit)) hnodup hhit (held n) hs
      obtain ⟨s', hrun, hs'⟩ := run_filed hassigns hnodup held rest (n + 1) s₁ hrest hs₁
      refine ⟨s', ?_, hs'⟩
      simp only [run, hturn, hrun]

end Loop

/-! ## §6. Charge by crystal. -/

section Conservation

variable {A : Arithmetic} {MC : Int} {hits : List CalorimeterMCHit} {r : Readout} {c : CaloIndex}

/-- A hit and its place are among the hits of the crystal `c`. -/
theorem mem_hitsOf {hit : CalorimeterMCHit × Nat} :
    hit ∈ hitsOf MC hits c ↔ hits[hit.2]? = some hit.1 ∧ channelOf MC c.readout hit.1 = c := by
  unfold hitsOf
  rw [List.mem_filter, List.mem_zipIdx_iff_getElem?, decide_eq_true_eq]

/-- When no two hits are in one crystal, a crystal has at most one. -/
theorem hitsOf_eq_singleton (hnodup : (hits.map (channelOf MC c.readout)).Nodup)
    {hit : CalorimeterMCHit × Nat} (hhit : hit ∈ hitsOf MC hits c) :
    hitsOf MC hits c = [hit] := by
  have hzip : (hits.zipIdx.map fun hit => channelOf MC c.readout hit.1).Nodup := by
    rw [← List.zipIdx_map_fst 0 hits, List.map_map] at hnodup
    exact hnodup
  have hmem : hit ∈ hits.zipIdx := (List.mem_filter.mp hhit).1
  have hsame : channelOf MC c.readout hit.1 = c := (mem_hitsOf.mp hhit).2
  have hone := filter_key_of_mem hzip hmem
  rw [hsame] at hone
  exact hone

/-- The digi hit that a hit in a crystal of its own is published as. -/
theorem Loop.Filed.published_own {s : Loop} (hsound : s.Sound)
    (hs : Loop.Filed A MC hits s hits.length r) {hit : CalorimeterMCHit} {k : Nat}
    (hhit : hits[k]? = some hit) :
    s.published.filter (·.m_channel = channelOf MC r.readout hit)
      = [{ m_channel := channelOf MC r.readout hit, Q := r.adc hit, T := timeOf A (r.tdc hit),
           RMSflag := true, associated := [k] }] := by
  have hlt : k < hits.length := (List.getElem?_eq_some_iff.mp hhit).1
  obtain ⟨p, hp, hobject⟩ := hs.own k hit hlt hhit
  rw [hsound.published_filter, hp, Option.bind_some, hobject]
  rfl

/-- Everything is published as it should be for the crystals of a readout, when
no crystal has two hits and the times are in range. -/
theorem Loop.Filed.publishesSum {s : Loop} (hsound : s.Sound)
    (hs : Loop.Filed A MC hits s hits.length r)
    (hnodup : (hits.map (channelOf MC r.readout)).Nodup)
    (htime : ∀ hit ∈ hits, timeOf A (r.tdc hit) = 4 * r.tdc hit) (hc : c.readout = r.readout) :
    PublishesSum MC hits s.published r c := by
  unfold PublishesSum
  split
  next hnone =>
    rw [hsound.published_filter]
    cases hp : s.m_map[c]? with
    | none => rfl
    | some p =>
        obtain ⟨k, hit, -, hhit, hsame⟩ := hs.only c p hc hp
        have hmem : (hit, k) ∈ hitsOf MC hits c := mem_hitsOf.mpr ⟨hhit, by rw [hc]; exact hsame⟩
        rw [hnone] at hmem
        cases hmem
  next first more hsome =>
    have hfirst : first ∈ hitsOf MC hits c := by
      rw [hsome]
      exact List.mem_cons_self
    have hone := hitsOf_eq_singleton (by rw [hc]; exact hnodup) hfirst
    rw [hsome] at hone
    obtain rfl : more = [] := (List.cons.inj hone).2
    obtain ⟨hhit, hsame⟩ := mem_hitsOf.mp hfirst
    rw [hc] at hsame
    have hpublished := hs.published_own hsound hhit
    rw [hsame] at hpublished
    refine ⟨_, hpublished, ?_, ?_, ?_⟩
    · simp
    · exact htime first.1 (List.mem_of_getElem? hhit)
    · simp

/-- What is published for a crystal, in terms of its charges alone. -/
theorem PublishesSum.charges_eq {data : List CalorimeterDigiHit}
    (h : PublishesSum MC hits data r c) :
    charges data c =
      if (hits.filter fun hit => channelOf MC c.readout hit = c) = [] then []
      else [((hits.filter fun hit => channelOf MC c.readout hit = c).map r.adc).sum] := by
  -- the places do not enter the charge
  have hfst : (hitsOf MC hits c).map Prod.fst
      = hits.filter fun hit => channelOf MC c.readout hit = c := by
    conv_rhs => rw [← List.zipIdx_map_fst 0 hits]
    rw [List.filter_map]
    rfl
  unfold PublishesSum at h
  unfold charges
  rw [← hfst]
  split at h
  next hnone =>
    rw [h, hnone]
    rfl
  next first more hsome =>
    obtain ⟨d, hd, hQ, -⟩ := h
    rw [hd, hsome, if_neg (by simp), List.map_map]
    exact congrArg (fun q => [q]) hQ

/-- Two event lists with the same hits give the same charges. -/
theorem PublishesSum.charges_perm {hits' : List CalorimeterMCHit}
    {data data' : List CalorimeterDigiHit} (hperm : hits.Perm hits')
    (h : PublishesSum MC hits data r c) (h' : PublishesSum MC hits' data' r c) :
    charges data' c = charges data c := by
  have hfilter := hperm.filter fun hit => decide (channelOf MC c.readout hit = c)
  rw [h.charges_eq, h'.charges_eq, (hfilter.map r.adc).sum_eq]
  by_cases hnil : (hits.filter fun hit => channelOf MC c.readout hit = c) = []
  · have hnil' := hfilter
    rw [hnil, List.nil_perm] at hnil'
    rw [if_pos hnil, if_pos hnil']
  · have hnil' : ¬ (hits'.filter fun hit => channelOf MC c.readout hit = c) = [] := by
      intro he
      rw [he, List.perm_nil] at hfilter
      exact hnil hfilter
    rw [if_neg hnil, if_neg hnil']

/-- Crystals that differ under readout 1 differ under every readout. -/
theorem nodup_channelOf (hnodup : (hits.map (channelOf MC 1)).Nodup) (r : Int8) :
    (hits.map (channelOf MC r)).Nodup := by
  rw [List.Nodup, List.pairwise_map] at hnodup ⊢
  exact hnodup.imp fun hne he => hne ((channelOf_eq_iff MC r 1 _ _).mp he)

/-- The run over hits in distinct crystals returns, and leaves each hit its own
digi hit in every readout. -/
theorem run_distinct (A : Arithmetic) (hassigns : ∀ hit ∈ hits, AssignsIndex MC hit)
    (hnodup : (hits.map (channelOf MC 1)).Nodup) (held : Nat → CaloIndex) :
    ∃ s, Loop.start.run A MC held hits 0 = some s ∧ s.Sound
      ∧ ∀ r ∈ readouts MC, Loop.Filed A MC hits s hits.length r := by
  obtain ⟨s, hrun, hs⟩ := Loop.run_filed hassigns (nodup_channelOf hnodup) held hits 0 Loop.start
    List.drop_zero (fun r _ => Loop.start_filed MC hits r)
  exact ⟨s, hrun, Loop.Sound.run Loop.start_sound hrun, hs⟩

/-- Distinct crystals and times in range: everything is published as it should
be. -/
theorem evnt_publishes (A : Arithmetic) (hassigns : ∀ hit ∈ hits, AssignsIndex MC hit)
    (hnodup : (hits.map (channelOf MC 1)).Nodup) (htimes : TimesFit MC hits)
    (held : Nat → CaloIndex) :
    ∃ data, evnt A MC held hits = some data
      ∧ ∀ r ∈ readouts MC, ∀ c, c.readout = r.readout → PublishesSum MC hits data r c := by
  obtain ⟨s, hrun, hsound, hs⟩ := run_distinct A hassigns hnodup held
  refine ⟨s.published, by rw [evnt, hrun]; rfl, fun r hr c hc => ?_⟩
  exact (hs r hr).publishesSum hsound (nodup_channelOf hnodup r.readout)
    (fun hit hmem => (timeOf_eq_iff A _).mpr (htimes r hr hit hmem)) hc

/-- A digi hit of readout 1 is associated with one hit, so it is right for a
crystal with one hit only. -/
theorem PublishesSum.same_place {s : Loop} (hsound : s.Sound)
    (h : PublishesSum MC hits s.published r c) (hc : c.readout = 1)
    {hit hit' : CalorimeterMCHit × Nat} (hhit : hit ∈ hitsOf MC hits c)
    (hhit' : hit' ∈ hitsOf MC hits c) : hit.2 = hit'.2 := by
  unfold PublishesSum at h
  split at h
  next hnone =>
    rw [hnone] at hhit
    cases hhit
  next first more hsome =>
    obtain ⟨d, hd, -, -, hassociated⟩ := h
    rw [← hsome] at hassociated
    have hmem : d ∈ s.published.filter (·.m_channel = c) := by
      rw [hd]
      exact List.mem_singleton_self d
    obtain ⟨hpub, hchannel⟩ := List.mem_filter.mp hmem
    obtain ⟨entry, -, hobject⟩ := List.mem_filterMap.mp hpub
    have hsingle : d.associated.length ≤ 1 :=
      hsound.single d (List.mem_of_getElem? hobject) (by rw [of_decide_eq_true hchannel, hc])
    have hmine : hit.2 ∈ d.associated := (hassociated _).mpr (List.mem_map_of_mem hhit)
    have hmine' : hit'.2 ∈ d.associated := (hassociated _).mpr (List.mem_map_of_mem hhit')
    cases hlist : d.associated with
    | nil =>
        rw [hlist] at hmine
        cases hmine
    | cons k ks =>
        rw [hlist, List.length_cons] at hsingle
        obtain rfl : ks = [] := List.eq_nil_of_length_eq_zero (by omega)
        rw [hlist, List.mem_singleton] at hmine hmine'
        rw [hmine, hmine']

/-- Charge that is conserved leaves no crystal with two hits: they would both be
associated with one digi hit of readout 1. -/
theorem nodup_of_publishes {held : Nat → CaloIndex} {data : List CalorimeterDigiHit}
    (hdata : evnt A MC held hits = some data)
    (hpublishes : ∀ r ∈ readouts MC, ∀ c, c.readout = r.readout → PublishesSum MC hits data r c) :
    (hits.map (channelOf MC 1)).Nodup := by
  obtain ⟨s, hrun, rfl⟩ := Option.map_eq_some_iff.mp hdata
  have hsound : s.Sound := Loop.Sound.run Loop.start_sound hrun
  refine List.nodup_iff_getElem?_ne_getElem?.mpr (fun i j hij hj hsame => ?_)
  rw [List.length_map] at hj
  rw [List.getElem?_map, List.getElem?_map, List.getElem?_eq_getElem hj,
    List.getElem?_eq_getElem (Nat.lt_trans hij hj)] at hsame
  -- two hits of one crystal would stand at the same place
  have hi : (hits[i], i) ∈ hitsOf MC hits (channelOf MC 1 hits[j]) :=
    mem_hitsOf.mpr ⟨List.getElem?_eq_getElem _, Option.some.inj hsame⟩
  have hj' : (hits[j], j) ∈ hitsOf MC hits (channelOf MC 1 hits[j]) :=
    mem_hitsOf.mpr ⟨List.getElem?_eq_getElem _, rfl⟩
  have hsum := hpublishes ⟨1, (·.adcr), (·.tdcr)⟩ List.mem_cons_self
    (channelOf MC 1 hits[j]) rfl
  have hplace : i = j := hsum.same_place hsound rfl hi hj'
  omega

/-- What is published of a hit in a crystal of its own has the time meant, so the
product that it was computed by is in range. -/
theorem timesFit_of_publishes {held : Nat → CaloIndex} {data : List CalorimeterDigiHit}
    (hassigns : ∀ hit ∈ hits, AssignsIndex MC hit) (hnodup : (hits.map (channelOf MC 1)).Nodup)
    (hdata : evnt A MC held hits = some data)
    (hpublishes : ∀ r ∈ readouts MC, ∀ c, c.readout = r.readout → PublishesSum MC hits data r c) :
    TimesFit MC hits := by
  intro r hr hit hmem
  obtain ⟨s, hrun, hsound, hs⟩ := run_distinct A hassigns hnodup held
  obtain rfl : s.published = data := by
    rw [evnt, hrun] at hdata
    exact Option.some.inj hdata
  obtain ⟨k, hhit⟩ := List.mem_iff_getElem?.mp hmem
  have hin : (hit, k) ∈ hitsOf MC hits (channelOf MC r.readout hit) := mem_hitsOf.mpr ⟨hhit, rfl⟩
  have hone := hitsOf_eq_singleton (nodup_channelOf hnodup r.readout) hin
  have hsum := hpublishes r hr (channelOf MC r.readout hit) rfl
  rw [PublishesSum, hone] at hsum
  obtain ⟨d, hd, -, hT, -⟩ := hsum
  rw [(hs r hr).published_own hsound hhit] at hd
  obtain rfl := (List.cons.inj hd).1
  exact (timeOf_eq_iff A _).mp hT

/-- **The charge is conserved crystal by crystal if and only if no two hits
have the same index** and no time is out of range.  A second hit of a crystal is
not associated with its digi hit of readout 1, and its charge goes wherever the
pointer points. -/
theorem conserves_charge_iff (A : Arithmetic) (MC : Int) (held : Nat → CaloIndex)
    (hits : List CalorimeterMCHit) (hassigns : ∀ hit ∈ hits, AssignsIndex MC hit) :
    ConservesCharge A MC held hits ↔ (hits.map (channelOf MC 1)).Nodup ∧ TimesFit MC hits := by
  constructor
  · rintro ⟨data, hdata, hpublishes, -⟩
    have hnodup := nodup_of_publishes hdata hpublishes
    exact ⟨hnodup, timesFit_of_publishes hassigns hnodup hdata hpublishes⟩
  · rintro ⟨hnodup, htimes⟩
    obtain ⟨data, hdata, hpublishes⟩ := evnt_publishes A hassigns hnodup htimes held
    refine ⟨data, hdata, hpublishes, fun hits' hperm => ?_⟩
    obtain ⟨data', hdata', hpublishes'⟩ := evnt_publishes A
      (fun hit hmem => hassigns hit (hperm.mem_iff.mpr hmem))
      ((hperm.map _).nodup_iff.mp hnodup) (htimes.perm hperm) held
    exact ⟨data', hdata', fun r hr c hc =>
      (hpublishes r hr c hc).charges_perm hperm (hpublishes' r hr c hc)⟩

/-- Two crystals of `FULL_V1`, hit once each, with times far from the limits. -/
theorem distinct_crystals_conserve :
    ConservesCharge (.wrapping 0) MCType.FULL_V1.value (fun _ => default)
      [⟨1, 1, 1, 20, 30, 5, 6⟩, ⟨1, 2, 1, 40, 50, 7, 8⟩] := by
  refine (conserves_charge_iff _ _ _ _ (fun hit _ held held' => ?_)).mpr ⟨by decide, ?_⟩
  · rfl
  · show ∀ r ∈ readouts MCType.FULL_V1.value, _
    rw [readouts_other (by decide)]
    simp

/-- **Hits of two crystals, interleaved**: the second hit of the first crystal
adds its charge to the second crystal. -/
theorem interleaved_hits_mix_charge :
    ¬ ConservesCharge (.wrapping 0) MCType.FULL_V1.value (fun _ => default)
      [⟨1, 1, 1, 0, 30, 0, 6⟩, ⟨1, 2, 1, 0, 50, 0, 8⟩, ⟨1, 1, 1, 0, 7, 0, 9⟩] := by
  rintro ⟨data, hdata, hpublishes, -⟩
  have hcharges : (evnt (.wrapping 0) MCType.FULL_V1.value (fun _ => default)
      [⟨1, 1, 1, 0, 30, 0, 6⟩, ⟨1, 2, 1, 0, 50, 0, 8⟩, ⟨1, 1, 1, 0, 7, 0, 9⟩]).map
        (charges · ⟨0, 0, 0, 1⟩) = some [30] := by
    decide
  rw [hdata] at hcharges
  have hsum := (hpublishes ⟨1, (·.adcr), (·.tdcr)⟩ List.mem_cons_self ⟨0, 0, 0, 1⟩ rfl).charges_eq
  have hlost := (Option.some.inj hcharges).symm.trans hsum
  revert hlost
  decide

end Conservation

end PokerReco.Calorimeter
