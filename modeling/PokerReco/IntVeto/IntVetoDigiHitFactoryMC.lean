/-
  PokerReco.IntVeto.IntVetoDigiHitFactoryMC
  ─────────────────────────────────────────
  **INNER VETO DIGI HITS FROM SIMULATED ONES**
  (`IntVeto/IntVetoDigiHit_factory_MC.cc`).

  The simulation gives several hits in one counter, each with the charges of
  all its sensors.  `evnt` keeps a vector of digi hits for each counter.  The
  first hit of a counter makes the vector, one digi hit for each sensor; the
  others add their charges to it by position.  Creation and addition are two
  tables, each with a branch per geometry and counter, written out apart.

      sensors                 the digi hits of a counter, in the order of
                              creation, with the charge each one takes
      sum_eq                  the addition uses the same table
      evnt_conserves_charge   so each sensor gets its own charge, summed over
                              the hits of its counter
-/
import Mathlib.Algebra.BigOperators.Group.List.Basic
import Mathlib.Data.Rat.Cast.Defs
import PokerReco.MC.CalorimeterMCHit
import PokerReco.MC.IntVetoMCHit
import PokerReco.TT.Index

namespace PokerReco.IntVeto

open PokerReco.Library PokerReco.MC PokerReco.TT

/-! ## §1. The counters. -/

/-- `getCataniaV1Component`; `getFullV1Component` and `getFullV2Component` are
written with the same cases. -/
def getCataniaV1Component (MCchannel : Int) : Int :=
  match MCchannel with
  | 1 => 0   -- top
  | 2 => 3   -- bottom
  | 3 => 4   -- upstream
  | 4 => 5   -- downstream
  | 5 => 2   -- right
  | 6 => 1   -- left
  | _ => -1

/-- `getCataniaV2Component`: left and right the other way round. -/
def getCataniaV2Component (MCchannel : Int) : Int :=
  match MCchannel with
  | 1 => 0
  | 2 => 3
  | 3 => 4
  | 4 => 5
  | 5 => 1
  | 6 => 2
  | _ => -1

/-- `getFullV1Component`, written with the same cases as that of Catania. -/
def getFullV1Component : Int → Int := getCataniaV1Component

/-- `getFullV2Component`, written with the same cases as that of Catania. -/
def getFullV2Component : Int → Int := getCataniaV1Component

/-- `getJLabFluxV1Component`, which is the channel itself. -/
def getJLabFluxV1Component (MCchannel : Int) : Int := MCchannel

/-- `getBDXminiV1Component`, in which the top and the bottom are the other
way round. -/
def getBDXminiV1Component (MCchannel : Int) : Int :=
  if MCchannel = 9 then 10        -- the top
  else if MCchannel = 10 then 9   -- the bottom
  else if MCchannel = 1 then 1
  else -1

/-- The first statements of a turn: what they leave in the member
`m_channel`. -/
def setChannel (m_isMC : Int) (m_channel : IntVetoIndex) (hit : IntVetoMCHit) : IntVetoIndex :=
  let m_channel := { m_channel with sector := .ofInt hit.sector, layer := 0 }
  let m_channel :=
    if m_isMC = MCType.CATANIA_V1.value then
      { m_channel with component := .ofInt (getCataniaV1Component hit.channel) }
    else if m_isMC = MCType.CATANIA_V2.value then
      { m_channel with component := .ofInt (getCataniaV2Component hit.channel) }
    else if m_isMC = MCType.FULL_V1.value then
      { m_channel with component := .ofInt (getFullV1Component hit.channel) }
    else if m_isMC = MCType.FULL_V2.value then
      { m_channel with component := .ofInt (getFullV2Component hit.channel) }
    else if m_isMC = MCType.JLAB_FLUX_V1.value then
      { m_channel with component := .ofInt (getJLabFluxV1Component hit.channel) }
    else if m_isMC = MCType.BDXmini_V1.value then
      let m_channel := { m_channel with component := .ofInt (getBDXminiV1Component hit.channel) }
      if hit.system = 7 then { m_channel with layer := 0 }        -- outer veto
      else if hit.system = 8 then { m_channel with layer := 1 }   -- inner veto
      else m_channel
    else m_channel
  { m_channel with readout := 0 }

/-! ## §2. `evnt`. -/

/-- `IntVetoDigiHit`.  The associated objects are hits of the event, known by
their place in it. -/
structure IntVetoDigiHit where
  m_channel : IntVetoIndex
  Qphe : ℚ
  Qraw : ℚ
  T : ℚ
  Araw : ℚ
  Aphe : ℚ
  pedMean : ℚ
  pedRMS : ℚ
  RMSflag : Bool
  associated : List Nat
  deriving DecidableEq, Repr

/-- The statements that make a digi hit out of `fresh`, the memory that
`new IntVetoDigiHit` returns. -/
def newDigiHit (fresh : IntVetoDigiHit) (m_channel : IntVetoIndex) (adc tdc : Int) (k : Nat) :
    IntVetoDigiHit :=
  { fresh with
    m_channel := m_channel
    Qphe := adc
    T := tdc / 1000   -- MC is in ps
    Araw := 0
    Aphe := adc
    RMSflag := true
    associated := [k] }

/-- The statements that add a charge to a digi hit. -/
def IntVetoDigiHit.add (d : IntVetoDigiHit) (adc : Int) (k : Nat) : IntVetoDigiHit :=
  { d with
    associated := d.associated.insert k
    Qphe := d.Qphe + adc
    Aphe := d.Aphe + adc }

/-- The branch for a counter that is not in the map: the digi hits pushed into
its vector.  `fresh i` is the memory of the `i`-th one. -/
def create (m_isMC : Int) (fresh : Nat → IntVetoDigiHit) (m_channel : IntVetoIndex)
    (hit : IntVetoMCHit) (k : Nat) : List IntVetoDigiHit :=
  let component (n : Int8) : IntVetoIndex := { m_channel with component := n }
  let readout (n : Int8) : IntVetoIndex := { m_channel with readout := n }
  if m_isMC = MCType.JLAB_FLUX_V1.value then
    [newDigiHit (fresh 0) (readout 1) hit.adc1 hit.tdc1 k]
  else if m_isMC = MCType.BDXmini_V1.value then
    -- 9 is the bottom, 10 the top, 1 the full layer
    if m_channel.component = 9 ∨ m_channel.component = 10 then
      [newDigiHit (fresh 0) m_channel hit.adc1 hit.tdc1 k]
    else if m_channel.component = 1 then
      [newDigiHit (fresh 0) (component 1) hit.adc1 hit.tdc1 k,
        newDigiHit (fresh 1) (component 2) hit.adc2 hit.tdc2 k,
        newDigiHit (fresh 2) (component 3) hit.adc3 hit.tdc3 k,
        newDigiHit (fresh 3) (component 4) hit.adc4 hit.tdc4 k,
        newDigiHit (fresh 4) (component 5) hit.adc5 hit.tdc5 k,
        newDigiHit (fresh 5) (component 6) hit.adc6 hit.tdc6 k,
        newDigiHit (fresh 6) (component 7) hit.adc7 hit.tdc7 k,
        newDigiHit (fresh 7) (component 8) hit.adc8 hit.tdc8 k]
    else []
  -- top
  else if m_channel.component = 0 then
    [newDigiHit (fresh 0) (readout 1) hit.adc1 hit.tdc1 k,
      newDigiHit (fresh 1) (readout 2) hit.adc2 hit.tdc2 k,
      newDigiHit (fresh 2) (readout 3) hit.adc3 hit.tdc3 k,
      newDigiHit (fresh 3) (readout 4) hit.adc4 hit.tdc4 k]
  -- left, right
  else if m_channel.component = 1 ∨ m_channel.component = 2 then
    [newDigiHit (fresh 0) (readout 1) hit.adc4 hit.tdc4 k,
      newDigiHit (fresh 1) (readout 2) hit.adc3 hit.tdc3 k,
      newDigiHit (fresh 2) (readout 3) hit.adc2 hit.tdc2 k,
      newDigiHit (fresh 3) (readout 4) hit.adc1 hit.tdc1 k]
  -- bottom
  else if m_channel.component = 3 then
    if m_isMC = MCType.CATANIA_V1.value then
      [newDigiHit (fresh 0) (readout 1) hit.adc1 hit.tdc1 k,
        newDigiHit (fresh 1) (readout 2) hit.adc4 hit.tdc4 k,
        newDigiHit (fresh 2) (readout 3) hit.adc3 hit.tdc3 k,
        newDigiHit (fresh 3) (readout 4) hit.adc2 hit.tdc2 k]
    else
      [newDigiHit (fresh 0) (readout 1) hit.adc1 hit.tdc1 k,
        newDigiHit (fresh 1) (readout 2) hit.adc2 hit.tdc2 k,
        newDigiHit (fresh 2) (readout 3) hit.adc3 hit.tdc3 k,
        newDigiHit (fresh 3) (readout 4) hit.adc4 hit.tdc4 k]
  -- upstream, downstream
  else if m_channel.component = 4 ∨ m_channel.component = 5 then
    [newDigiHit (fresh 0) (readout 1) hit.adc1 hit.tdc1 k]
  else []

/-- `m_map_it->second[pos]`, fetched and added to; `none` beyond the end of
the vector. -/
def addAt (second : List IntVetoDigiHit) (adc : Int) (pos : Nat) (k : Nat) :
    Option (List IntVetoDigiHit) :=
  if pos < second.length then some (second.modify pos (·.add adc k)) else none

/-- The additions one after the other, the first to the first position. -/
def addAll (k : Nat) : List IntVetoDigiHit → List (Int × Nat) → Option (List IntVetoDigiHit)
  | second, [] => some second
  | second, (adc, pos) :: rest =>
      match addAt second adc pos k with
      | none => none
      | some second => addAll k second rest

/-- The branch for a counter that is in the map: the charges added, each with
the position it is added to. -/
def sums (m_isMC : Int) (m_channel : IntVetoIndex) (hit : IntVetoMCHit) : List (Int × Nat) :=
  if m_isMC = MCType.JLAB_FLUX_V1.value then [(hit.adc1, 0)]
  else if m_isMC = MCType.BDXmini_V1.value then
    if m_channel.component = 9 ∨ m_channel.component = 10 then [(hit.adc1, 0)]
    else if m_channel.component = 1 then
      [(hit.adc1, 0), (hit.adc2, 1), (hit.adc3, 2), (hit.adc4, 3), (hit.adc5, 4), (hit.adc6, 5),
        (hit.adc7, 6), (hit.adc8, 7)]
    else []
  else if m_channel.component = 0 then
    [(hit.adc1, 0), (hit.adc2, 1), (hit.adc3, 2), (hit.adc4, 3)]
  else if m_channel.component = 1 ∨ m_channel.component = 2 then
    [(hit.adc4, 0), (hit.adc3, 1), (hit.adc2, 2), (hit.adc1, 3)]
  else if m_channel.component = 3 then
    if m_isMC = MCType.CATANIA_V1.value then
      [(hit.adc1, 0), (hit.adc4, 1), (hit.adc3, 2), (hit.adc2, 3)]
    else [(hit.adc1, 0), (hit.adc2, 1), (hit.adc3, 2), (hit.adc4, 3)]
  else if m_channel.component = 4 ∨ m_channel.component = 5 then [(hit.adc1, 0)]
  else []

/-- The members the loop works on. -/
structure Loop where
  m_channel : IntVetoIndex
  m_map : OrderedMap IntVetoIndex.lt (List IntVetoDigiHit)

namespace Loop

/-- A turn of the loop, for the hit at place `k`; `fresh i` is the memory of
the `i`-th object of the turn. -/
def turn (m_isMC : Int) (fresh : Nat → IntVetoDigiHit) (s : Loop) (hit : IntVetoMCHit) (k : Nat) :
    Option Loop :=
  let m_channel := setChannel m_isMC s.m_channel hit
  match s.m_map[m_channel]? with
  | none =>
      match create m_isMC fresh m_channel hit k with
      -- nothing is pushed, so nothing is entered in the map
      | [] => some { s with m_channel := m_channel }
      | d :: ds => some ⟨m_channel, s.m_map.insert m_channel (d :: ds)⟩
  | some second =>
      match addAll k second (sums m_isMC m_channel hit) with
      | none => none
      | some second => some ⟨m_channel, s.m_map.insert m_channel second⟩

/-- The loop over the hits from place `k` on. -/
def run (m_isMC : Int) (fresh : Nat → Nat → IntVetoDigiHit) :
    Loop → List IntVetoMCHit → Nat → Option Loop
  | s, [], _ => some s
  | s, hit :: hits, k =>
      match s.turn m_isMC (fresh k) hit k with
      | none => none
      | some s => s.run m_isMC fresh hits (k + 1)

/-- The digi hits of the map: counter by counter, each vector in its order. -/
def published (s : Loop) : List IntVetoDigiHit := s.m_map.toList.flatMap Prod.snd

end Loop

/-- `IntVetoDigiHit_factory_MC::evnt`: the contents of `_data`.  The member
`m_channel` holds what the event before has left in it. -/
def evnt (m_isMC : Int) (fresh : Nat → Nat → IntVetoDigiHit) (m_channel : IntVetoIndex)
    (hits : List IntVetoMCHit) : Option (List IntVetoDigiHit) :=
  (Loop.run m_isMC fresh ⟨m_channel, ∅⟩ hits 0).map Loop.published

/-! ## §3. What it should publish. -/

/-- The digi hits of the counter `key`: the index of each, and the charge of a
simulated hit that it takes. -/
def sensors (m_isMC : Int) (key : IntVetoIndex) : List (IntVetoIndex × Fin 8) :=
  let component (n : Int8) : IntVetoIndex := { key with component := n }
  let readout (n : Int8) : IntVetoIndex := { key with readout := n }
  if m_isMC = MCType.JLAB_FLUX_V1.value then [(readout 1, 0)]
  else if m_isMC = MCType.BDXmini_V1.value then
    if key.component = 9 ∨ key.component = 10 then [(key, 0)]
    else if key.component = 1 then
      [(component 1, 0), (component 2, 1), (component 3, 2), (component 4, 3), (component 5, 4),
        (component 6, 5), (component 7, 6), (component 8, 7)]
    else []
  else if key.component = 0 then [(readout 1, 0), (readout 2, 1), (readout 3, 2), (readout 4, 3)]
  else if key.component = 1 ∨ key.component = 2 then
    [(readout 1, 3), (readout 2, 2), (readout 3, 1), (readout 4, 0)]
  else if key.component = 3 then
    if m_isMC = MCType.CATANIA_V1.value then
      [(readout 1, 0), (readout 2, 3), (readout 3, 2), (readout 4, 1)]
    else [(readout 1, 0), (readout 2, 1), (readout 3, 2), (readout 4, 3)]
  else if key.component = 4 ∨ key.component = 5 then [(readout 1, 0)]
  else []

/-- The counter of a hit. -/
def counter (m_isMC : Int) (hit : IntVetoMCHit) : IntVetoIndex := setChannel m_isMC default hit

/-- The hits of the counter `key`, each with its place in the event. -/
def hitsOf (m_isMC : Int) (hits : List IntVetoMCHit) (key : IntVetoIndex) :
    List (IntVetoMCHit × Nat) :=
  hits.zipIdx.filter fun hit => counter m_isMC hit.1 = key

/-- The digi hit `d` of the sensor `s` is fed by the hits `hs`. -/
structure Fed (hs : List (IntVetoMCHit × Nat)) (s : IntVetoIndex × Fin 8)
    (d : IntVetoDigiHit) : Prop where
  channel : d.m_channel = s.1
  Qphe : d.Qphe = ((hs.map fun hit => hit.1.adc s.2).sum : Int)
  Aphe : d.Aphe = d.Qphe
  T : ∀ first more, hs = first :: more → d.T = (first.1.tdc s.2 : ℚ) / 1000
  associated : ∀ k, k ∈ d.associated ↔ k ∈ hs.map Prod.snd

/-- **Charge is conserved sensor by sensor**: a counter that was hit has one
digi hit for each sensor, fed by its hits, and there is no other digi hit. -/
structure ConservesCharge (m_isMC : Int) (hits : List IntVetoMCHit)
    (data : List IntVetoDigiHit) : Prop where
  own : ∀ key : IntVetoIndex, key.readout = 0 → hitsOf m_isMC hits key ≠ [] →
    ∀ s ∈ sensors m_isMC key,
      ∃ d, data.filter (·.m_channel = s.1) = [d] ∧ Fed (hitsOf m_isMC hits key) s d
  only : ∀ d ∈ data, ∃ key, hitsOf m_isMC hits key ≠ []
    ∧ ∃ s ∈ sensors m_isMC key, d.m_channel = s.1

/-! ## §4. The two tables. -/

/-- The branch for a new counter creates a digi hit for each of its sensors, with
the charge that it takes. -/
theorem create_eq (m_isMC : Int) (fresh : Nat → IntVetoDigiHit) (key : IntVetoIndex)
    (hit : IntVetoMCHit) (k : Nat) :
    create m_isMC fresh key hit k = (sensors m_isMC key).zipIdx.map
      (fun s => newDigiHit (fresh s.2) s.1.1 (hit.adc s.1.2) (hit.tdc s.1.2) k) := by
  unfold create sensors
  dsimp only
  split_ifs <;> rfl

/-- The addition takes, for each position, the charge that the digi hit at
this position was created with. -/
theorem sum_eq (m_isMC : Int) (key : IntVetoIndex) (hit : IntVetoMCHit) :
    sums m_isMC key hit = ((sensors m_isMC key).map fun s => hit.adc s.2).zipIdx := by
  unfold sums sensors
  dsimp only
  split_ifs <;> rfl

/-- The counter that a digi hit belongs to. -/
def counterOf (m_isMC : Int) (c : IntVetoIndex) : IntVetoIndex :=
  if m_isMC = MCType.BDXmini_V1.value then
    if c.component = 9 ∨ c.component = 10 then c else { c with component := 1 }
  else { c with readout := 0 }

/-- Except for `BDXmini_V1` the sensors of a counter differ by the readout. -/
theorem sensor_readout {m_isMC : Int} (hMC : m_isMC ≠ MCType.BDXmini_V1.value)
    {key : IntVetoIndex} {s : IntVetoIndex × Fin 8} (hs : s ∈ sensors m_isMC key) :
    ∃ n : Int8, s.1 = { key with readout := n } := by
  unfold sensors at hs
  dsimp only at hs
  rw [if_neg hMC] at hs
  split_ifs at hs
  all_goals
    simp only [List.mem_cons, List.not_mem_nil, or_false] at hs
  · exact ⟨1, congrArg Prod.fst hs⟩
  · rcases hs with hs | hs | hs | hs <;> exact ⟨_, congrArg Prod.fst hs⟩
  · rcases hs with hs | hs | hs | hs <;> exact ⟨_, congrArg Prod.fst hs⟩
  · rcases hs with hs | hs | hs | hs <;> exact ⟨_, congrArg Prod.fst hs⟩
  · rcases hs with hs | hs | hs | hs <;> exact ⟨_, congrArg Prod.fst hs⟩
  · exact ⟨1, congrArg Prod.fst hs⟩

/-- The sensors of a counter of BDXmini, by its component. -/
theorem sensors_BDXmini (key : IntVetoIndex) :
    sensors MCType.BDXmini_V1.value key
      = if key.component = 9 ∨ key.component = 10 then [(key, 0)]
        else if key.component = 1 then
          [({ key with component := 1 }, 0), ({ key with component := 2 }, 1),
            ({ key with component := 3 }, 2), ({ key with component := 4 }, 3),
            ({ key with component := 5 }, 4), ({ key with component := 6 }, 5),
            ({ key with component := 7 }, 6), ({ key with component := 8 }, 7)]
        else [] := rfl

/-- A sensor belongs to one counter. -/
theorem counterOf_sensor {m_isMC : Int} {key : IntVetoIndex} (hkey : key.readout = 0)
    {s : IntVetoIndex × Fin 8} (hs : s ∈ sensors m_isMC key) : counterOf m_isMC s.1 = key := by
  unfold counterOf
  by_cases hMC : m_isMC = MCType.BDXmini_V1.value
  · rw [if_pos hMC]
    rw [hMC, sensors_BDXmini] at hs
    split_ifs at hs with hcap hside
    · rw [List.mem_singleton.mp hs, if_pos hcap]
    · -- the eight components of the side layer
      have hone : { key with component := 1 } = key := by
        rw [← hside]
      have hall : ∀ c ∈ ([1, 2, 3, 4, 5, 6, 7, 8] : List Int8), ¬ (c = 9 ∨ c = 10) := by simp
      have hc : ∃ c ∈ ([1, 2, 3, 4, 5, 6, 7, 8] : List Int8),
          s.1 = { key with component := c } := by
        simp only [List.mem_cons, List.not_mem_nil, or_false] at hs
        rcases hs with hs | hs | hs | hs | hs | hs | hs | hs <;>
          exact ⟨_, by decide, congrArg Prod.fst hs⟩
      obtain ⟨c, hmem, hs1⟩ := hc
      rw [hs1, if_neg (hall c hmem)]
      exact hone
    · cases hs
  · rw [if_neg hMC]
    obtain ⟨n, hn⟩ := sensor_readout hMC hs
    rw [hn, ← hkey]

/-- No sensor of a counter is listed twice. -/
theorem sensors_nodup (m_isMC : Int) (key : IntVetoIndex) :
    ((sensors m_isMC key).map Prod.fst).Nodup := by
  unfold sensors
  dsimp only
  split_ifs <;> simp

/-! ## §5. Every turn. -/

/-- What the member `m_channel` held does not matter in any of the setups. -/
theorem setChannel_held (type : MCType) (held : IntVetoIndex) (hit : IntVetoMCHit) :
    setChannel type.value held hit = counter type.value hit := by
  unfold counter setChannel
  cases type with
  | BDXmini_V1 =>
      by_cases h7 : hit.system = 7
      · simp [MCType.value, h7]
      · by_cases h8 : hit.system = 8
        · simp [MCType.value, h8]
        · simp [MCType.value, h7, h8]
  | _ => rfl

/-- The counter of a hit has no readout. -/
theorem counter_readout (m_isMC : Int) (hit : IntVetoMCHit) : (counter m_isMC hit).readout = 0 :=
  rfl

/-- The hits of a counter, with one more hit in the event. -/
theorem hitsOf_concat (m_isMC : Int) (seen : List IntVetoMCHit) (hit : IntVetoMCHit)
    (key : IntVetoIndex) :
    hitsOf m_isMC (seen ++ [hit]) key = hitsOf m_isMC seen key
      ++ if counter m_isMC hit = key then [(hit, seen.length)] else [] := by
  unfold hitsOf
  rw [List.zipIdx_append, List.filter_append, List.zipIdx_singleton, List.filter_singleton,
    Nat.zero_add]
  by_cases h : counter m_isMC hit = key
  · simp [h]
  · simp [h]

/-- A new digi hit of a sensor is fed by the hit that it is created for. -/
theorem fed_create (fresh : IntVetoDigiHit) (s : IntVetoIndex × Fin 8) (hit : IntVetoMCHit)
    (k : Nat) : Fed [(hit, k)] s (newDigiHit fresh s.1 (hit.adc s.2) (hit.tdc s.2) k) where
  channel := rfl
  Qphe := by simp [newDigiHit]
  Aphe := rfl
  T := by
    intro first more h
    rw [← (List.cons.inj h).1]
    rfl
  associated := by
    intro j
    simp [newDigiHit]

/-- A digi hit to which one more hit is added is fed by that as well. -/
theorem Fed.add {hs : List (IntVetoMCHit × Nat)} {s : IntVetoIndex × Fin 8} {d : IntVetoDigiHit}
    (h : Fed hs s d) (hne : hs ≠ []) (hit : IntVetoMCHit) (k : Nat) :
    Fed (hs ++ [(hit, k)]) s (d.add (hit.adc s.2) k) where
  channel := h.channel
  Qphe := by
    show d.Qphe + ((hit.adc s.2 : Int) : ℚ) = _
    rw [h.Qphe, List.map_append, List.sum_append]
    simp
  Aphe := by
    show d.Aphe + ((hit.adc s.2 : Int) : ℚ) = d.Qphe + ((hit.adc s.2 : Int) : ℚ)
    rw [h.Aphe]
  T := by
    intro first more hfirst
    -- the time stays that of the first hit
    obtain ⟨first', more', hs'⟩ := List.exists_cons_of_ne_nil hne
    rw [hs', List.cons_append] at hfirst
    rw [← (List.cons.inj hfirst).1]
    exact h.T first' more' hs'
  associated := by
    intro j
    show j ∈ d.associated.insert k ↔ _
    rw [List.mem_insert_iff, h.associated j, List.map_append, List.mem_append]
    simp [or_comm]

/-- The digi hits created for a counter are each fed by the hit. -/
theorem fed_zipIdx (hit : IntVetoMCHit) (k : Nat) (fresh : Nat → IntVetoDigiHit)
    (ss : List (IntVetoIndex × Fin 8)) (n : Nat) :
    List.Forall₂ (Fed [(hit, k)]) ss ((ss.zipIdx n).map
      (fun s => newDigiHit (fresh s.2) s.1.1 (hit.adc s.1.2) (hit.tdc s.1.2) k)) := by
  induction ss generalizing n with
  | nil => exact .nil
  | cons s ss ih =>
      rw [List.zipIdx_cons, List.map_cons]
      exact .cons (fed_create (fresh n) s hit k) (ih (n + 1))

/-- A change at the place behind a front part changes the element that
comes next. -/
theorem modify_at_length {α : Type} (before : List α) (a : α) (rest : List α) (f : α → α) :
    (before ++ a :: rest).modify before.length f = before ++ f a :: rest := by
  induction before with
  | nil => rfl
  | cons b before ih =>
      rw [List.cons_append, List.length_cons, List.modify_succ_cons, ih]
      rfl

/-- The additions of a turn go through the vector from its beginning; `before`
is the part they have passed. -/
theorem addAll_fed {hs : List (IntVetoMCHit × Nat)} (hne : hs ≠ []) (hit : IntVetoMCHit) (k : Nat)
    {ss : List (IntVetoIndex × Fin 8)} {second : List IntVetoDigiHit}
    (h : List.Forall₂ (Fed hs) ss second) (before : List IntVetoDigiHit) :
    ∃ second', addAll k (before ++ second)
        ((ss.map fun s => hit.adc s.2).zipIdx before.length) = some (before ++ second')
      ∧ List.Forall₂ (Fed (hs ++ [(hit, k)])) ss second' := by
  induction h generalizing before with
  | nil => exact ⟨[], rfl, .nil⟩
  | @cons s d ss ds hd _ ih =>
      obtain ⟨ds', hadd, hds⟩ := ih (before ++ [d.add (hit.adc s.2) k])
      refine ⟨d.add (hit.adc s.2) k :: ds', ?_, .cons (hd.add hne hit k) hds⟩
      have hone : addAt (before ++ d :: ds) (hit.adc s.2) before.length k
          = some ((before ++ [d.add (hit.adc s.2) k]) ++ ds) := by
        unfold addAt
        rw [if_pos (by simp), modify_at_length, List.append_assoc]
        rfl
      rw [List.map_cons, List.zipIdx_cons]
      unfold addAll
      rw [hone]
      rw [List.length_append, List.length_singleton] at hadd
      dsimp only
      rw [hadd, List.append_assoc]
      rfl

/-- **The invariant of the loop**, after the hits `seen`: the map has an entry
for each counter that was hit and has sensors, and the digi hits of the entry
are fed by the hits of the counter. -/
structure Grouped (m_isMC : Int) (seen : List IntVetoMCHit) (s : Loop) : Prop where
  absent : ∀ key : IntVetoIndex, s.m_map[key]? = none →
    hitsOf m_isMC seen key = [] ∨ sensors m_isMC key = []
  present : ∀ (key : IntVetoIndex) (second : List IntVetoDigiHit),
    s.m_map[key]? = some second → hitsOf m_isMC seen key ≠ []
      ∧ List.Forall₂ (Fed (hitsOf m_isMC seen key)) (sensors m_isMC key) second

namespace Grouped

variable {m_isMC : Int} {seen : List IntVetoMCHit} {s : Loop} {hit : IntVetoMCHit}

/-- Before the loop the map is empty, and no hit was seen. -/
theorem start (m_isMC : Int) (m_channel : IntVetoIndex) : Grouped m_isMC [] ⟨m_channel, ∅⟩ where
  absent _ _ := Or.inl rfl
  present key second h := by simp at h

/-- The hits of another counter are the same with one more hit. -/
theorem hitsOf_of_ne {key : IntVetoIndex} (hne : counter m_isMC hit ≠ key) :
    hitsOf m_isMC (seen ++ [hit]) key = hitsOf m_isMC seen key := by
  rw [hitsOf_concat, if_neg hne, List.append_nil]

/-- The hits of the counter of a new hit have that hit as well, at their end. -/
theorem hitsOf_self :
    hitsOf m_isMC (seen ++ [hit]) (counter m_isMC hit)
      = hitsOf m_isMC seen (counter m_isMC hit) ++ [(hit, seen.length)] := by
  rw [hitsOf_concat, if_pos rfl]

/-- A hit of a counter without sensors changes nothing. -/
theorem skip (h : Grouped m_isMC seen s) (hnone : sensors m_isMC (counter m_isMC hit) = [])
    (habsent : s.m_map[counter m_isMC hit]? = none) (m_channel : IntVetoIndex) :
    Grouped m_isMC (seen ++ [hit]) { s with m_channel := m_channel } where
  absent key hkey := by
    by_cases hc : counter m_isMC hit = key
    · exact Or.inr (hc ▸ hnone)
    · rw [hitsOf_of_ne hc]
      exact h.absent key hkey
  present key second hkey := by
    have hc : counter m_isMC hit ≠ key := by
      intro hc
      rw [hc] at habsent
      rw [show s.m_map[key]? = some second from hkey] at habsent
      cases habsent
    rw [hitsOf_of_ne hc]
    exact h.present key second hkey

/-- The entry of the counter of the hit is written. -/
theorem insert (h : Grouped m_isMC seen s) {second : List IntVetoDigiHit}
    (hfed : List.Forall₂ (Fed (hitsOf m_isMC (seen ++ [hit]) (counter m_isMC hit)))
      (sensors m_isMC (counter m_isMC hit)) second) (m_channel : IntVetoIndex) :
    Grouped m_isMC (seen ++ [hit]) ⟨m_channel, s.m_map.insert (counter m_isMC hit) second⟩ where
  absent key hkey := by
    by_cases hc : counter m_isMC hit = key
    · subst hc
      rw [Std.TreeMap.getElem?_insert_self] at hkey
      cases hkey
    · rw [hitsOf_of_ne hc]
      rw [OrderedMap.getElem?_insert_of_ne hc] at hkey
      exact h.absent key hkey
  present key second' hkey := by
    by_cases hc : counter m_isMC hit = key
    · subst hc
      rw [Std.TreeMap.getElem?_insert_self] at hkey
      injection hkey with hkey
      subst hkey
      refine ⟨?_, hfed⟩
      rw [hitsOf_self]
      simp
    · rw [hitsOf_of_ne hc]
      rw [OrderedMap.getElem?_insert_of_ne hc] at hkey
      exact h.present key second' hkey

end Grouped

/-- One turn keeps the invariant, with the hit among those seen. -/
theorem turn_grouped (type : MCType) (fresh : Nat → IntVetoDigiHit) {s : Loop}
    {seen : List IntVetoMCHit} (h : Grouped type.value seen s) (hit : IntVetoMCHit) :
    ∃ s', s.turn type.value fresh hit seen.length = some s'
      ∧ Grouped type.value (seen ++ [hit]) s' := by
  unfold Loop.turn
  rw [setChannel_held]
  dsimp only
  cases hc : s.m_map[counter type.value hit]? with
  | none =>
      dsimp only
      rw [create_eq]
      by_cases hnone : sensors type.value (counter type.value hit) = []
      · rw [hnone]
        exact ⟨_, rfl, h.skip hnone hc _⟩
      · -- the first hit of its counter
        have hfirst : hitsOf type.value (seen ++ [hit]) (counter type.value hit)
            = [(hit, seen.length)] := by
          rw [Grouped.hitsOf_self]
          rcases h.absent _ hc with hnil | hnil
          · rw [hnil]
            rfl
          · exact absurd hnil hnone
        have hfed :=
          fed_zipIdx hit seen.length fresh (sensors type.value (counter type.value hit)) 0
        rw [← hfirst] at hfed
        cases hcreate : (sensors type.value (counter type.value hit)).zipIdx.map (fun s =>
            newDigiHit (fresh s.2) s.1.1 (hit.adc s.1.2) (hit.tdc s.1.2) seen.length) with
        | nil =>
            rw [List.map_eq_nil_iff, List.zipIdx_eq_nil_iff] at hcreate
            exact absurd hcreate hnone
        | cons d ds =>
            rw [hcreate] at hfed
            exact ⟨_, rfl, h.insert hfed _⟩
  | some second =>
      dsimp only
      obtain ⟨hne, hfed⟩ := h.present _ _ hc
      obtain ⟨second', hadd, hfed'⟩ := addAll_fed hne hit seen.length hfed []
      rw [sum_eq]
      have hadd : addAll seen.length second
          ((sensors type.value (counter type.value hit)).map fun s => hit.adc s.2).zipIdx
            = some second' := hadd
      rw [hadd]
      rw [← Grouped.hitsOf_self] at hfed'
      exact ⟨_, rfl, h.insert hfed' _⟩

/-- The loop keeps the invariant: it is by induction on the hits ahead, one
turn each. -/
theorem run_grouped (type : MCType) (fresh : Nat → Nat → IntVetoDigiHit)
    (hits : List IntVetoMCHit) {s : Loop} {seen : List IntVetoMCHit}
    (h : Grouped type.value seen s) :
    ∃ s', s.run type.value fresh hits seen.length = some s'
      ∧ Grouped type.value (seen ++ hits) s' := by
  induction hits generalizing s seen with
  | nil =>
      refine ⟨s, rfl, ?_⟩
      rw [List.append_nil]
      exact h
  | cons hit hits ih =>
      obtain ⟨s₁, hturn, h₁⟩ := turn_grouped type (fresh seen.length) h hit
      obtain ⟨s', hrun, hs'⟩ := ih h₁
      refine ⟨s', ?_, ?_⟩
      · unfold Loop.run
        rw [hturn]
        rw [List.length_append, List.length_singleton] at hrun
        exact hrun
      · rw [List.append_assoc] at hs'
        exact hs'

/-! ## §6. What is published. -/

/-- Elements that give nothing can be left out. -/
theorem flatMap_filter_of_nil {α β : Type} (p : α → Bool) (f : α → List β) (l : List α)
    (h : ∀ a ∈ l, p a = false → f a = []) : l.flatMap f = (l.filter p).flatMap f := by
  induction l with
  | nil => rfl
  | cons a l ih =>
      have ih := ih (fun b hb => h b (List.mem_cons_of_mem _ hb))
      cases hp : p a with
      | true => rw [List.filter_cons_of_pos hp, List.flatMap_cons, List.flatMap_cons, ih]
      | false =>
          rw [List.filter_cons_of_neg (by simp [hp]), List.flatMap_cons,
            h a List.mem_cons_self hp, List.nil_append, ih]

/-- Each digi hit of a counter is of one of its sensors. -/
theorem exists_sensor {hs : List (IntVetoMCHit × Nat)} {ss : List (IntVetoIndex × Fin 8)}
    {second : List IntVetoDigiHit} (h : List.Forall₂ (Fed hs) ss second) :
    ∀ d ∈ second, ∃ s ∈ ss, d.m_channel = s.1 := by
  induction h with
  | nil =>
      intro d hd
      cases hd
  | @cons s d ss ds hd _ ih =>
      intro d' hd'
      rcases List.mem_cons.mp hd' with rfl | hd'
      · exact ⟨s, List.mem_cons_self, hd.channel⟩
      · obtain ⟨s', hs', hc⟩ := ih d' hd'
        exact ⟨s', List.mem_cons_of_mem _ hs', hc⟩

/-- In the vector of a counter each sensor has one digi hit. -/
theorem filter_sensor {hs : List (IntVetoMCHit × Nat)} {ss : List (IntVetoIndex × Fin 8)}
    {second : List IntVetoDigiHit} (h : List.Forall₂ (Fed hs) ss second)
    (hnodup : (ss.map Prod.fst).Nodup) {s : IntVetoIndex × Fin 8} (hs' : s ∈ ss) :
    ∃ d, second.filter (·.m_channel = s.1) = [d] ∧ Fed hs s d := by
  induction h with
  | nil => cases hs'
  | @cons s₁ d ss ds hd htail ih =>
      obtain ⟨hnot, hrest⟩ := List.nodup_cons.mp hnodup
      rcases List.mem_cons.mp hs' with rfl | hmem
      · -- nothing behind it has its index
        have hnone : ds.filter (·.m_channel = s.1) = [] := by
          refine List.filter_eq_nil_iff.mpr (fun d' hd' hc => hnot ?_)
          obtain ⟨s', hs'', hc'⟩ := exists_sensor htail d' hd'
          rw [← of_decide_eq_true hc, hc']
          exact List.mem_map_of_mem hs''
        exact ⟨d, by rw [List.filter_cons_of_pos (by simp [hd.channel]), hnone], hd⟩
      · obtain ⟨d', hfilter, hfed⟩ := ih hrest hmem
        have hne : ¬ d.m_channel = s.1 := by
          intro hc
          rw [hd.channel] at hc
          exact hnot (hc ▸ List.mem_map_of_mem hmem)
        exact ⟨d', by rw [List.filter_cons_of_neg (by simp [hne]), hfilter], hfed⟩

/-- What is published under the index of a sensor comes from the vector of
its counter. -/
theorem filter_published {m_isMC : Int} {seen : List IntVetoMCHit} {s : Loop}
    (h : Grouped m_isMC seen s) (hzero : ∀ key, hitsOf m_isMC seen key ≠ [] → key.readout = 0)
    (c : IntVetoIndex) :
    s.published.filter (·.m_channel = c)
      = (s.m_map[counterOf m_isMC c]?.toList.flatMap id).filter (·.m_channel = c) := by
  unfold Loop.published
  rw [List.filter_flatMap, flatMap_filter_of_nil (fun e => e.1 = counterOf m_isMC c) _ _ ?_,
    filter_toList_key]
  · cases s.m_map[counterOf m_isMC c]? with
    | none => rfl
    | some second => simp
  · intro e he hkey
    have hentry := Std.TreeMap.mem_toList_iff_getElem?_eq_some.mp he
    obtain ⟨hne, hfed⟩ := h.present _ _ hentry
    refine List.filter_eq_nil_iff.mpr (fun d hd hc => ?_)
    obtain ⟨x, hx, hdx⟩ := exists_sensor hfed d hd
    have := counterOf_sensor (hzero e.1 hne) hx
    rw [← hdx, of_decide_eq_true hc] at this
    exact of_decide_eq_false hkey this.symm

/-- A counter that was hit has no readout. -/
theorem readout_of_hit {m_isMC : Int} {hits : List IntVetoMCHit} {key : IntVetoIndex}
    (h : hitsOf m_isMC hits key ≠ []) : key.readout = 0 := by
  obtain ⟨first, more, hcons⟩ := List.exists_cons_of_ne_nil h
  have hmem : first ∈ hitsOf m_isMC hits key := by
    rw [hcons]
    exact List.mem_cons_self
  have hkey := of_decide_eq_true (List.mem_filter.mp hmem).2
  rw [← hkey, counter_readout]

/-- **CHARGE PER SENSOR.**  For every simulated setup and every list of hits,
whatever the new objects held in memory and whatever the event before left in
the factory: `evnt` publishes for each counter that was hit one digi hit per
sensor, with the charges of the hits of that counter and of no other.  The
table it adds charges by is the table it creates digi hits by. -/
theorem evnt_conserves_charge (type : MCType) (fresh : Nat → Nat → IntVetoDigiHit)
    (m_channel : IntVetoIndex) (hits : List IntVetoMCHit) :
    (∃ data, evnt type.value fresh m_channel hits = some data
        ∧ ConservesCharge type.value hits data)
      ∧ ∀ (key : IntVetoIndex) (hit : IntVetoMCHit) (k : Nat),
        create type.value (fresh k) key hit k = (sensors type.value key).zipIdx.map
            (fun s => newDigiHit (fresh k s.2) s.1.1 (hit.adc s.1.2) (hit.tdc s.1.2) k)
          ∧ sums type.value key hit
            = ((sensors type.value key).map fun s => hit.adc s.2).zipIdx := by
  refine ⟨?_, fun key hit k => ⟨create_eq _ _ key hit k, sum_eq _ key hit⟩⟩
  obtain ⟨s, hrun, h⟩ := run_grouped type fresh hits (Grouped.start type.value m_channel)
  rw [List.nil_append] at h
  have hzero : ∀ key, hitsOf type.value hits key ≠ [] → key.readout = 0 :=
    fun key hne => readout_of_hit hne
  refine ⟨s.published, ?_, fun key hkey hne x hx => ?_, fun d hd => ?_⟩
  · unfold evnt
    rw [show (Loop.run type.value fresh ⟨m_channel, ∅⟩ hits 0) = some s from hrun]
    rfl
  · rw [filter_published h hzero, counterOf_sensor hkey hx]
    cases hc : s.m_map[key]? with
    | none =>
        rcases h.absent key hc with hnil | hnil
        · exact absurd hnil hne
        · rw [hnil] at hx
          cases hx
    | some second =>
        obtain ⟨-, hfed⟩ := h.present key second hc
        simpa using filter_sensor hfed (sensors_nodup _ key) hx
  · obtain ⟨e, he, hd⟩ := List.mem_flatMap.mp hd
    have hentry := Std.TreeMap.mem_toList_iff_getElem?_eq_some.mp he
    obtain ⟨hne, hfed⟩ := h.present _ _ hentry
    exact ⟨e.1, hne, exists_sensor hfed d hd⟩

end PokerReco.IntVeto
