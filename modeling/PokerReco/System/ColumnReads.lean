/-
  PokerReco.System.ColumnReads
  ────────────────────────────
  **THE CALIBRATION COLUMNS THAT THE FACTORIES READ**
  (`DAQ/fa250Mode1CalibPedSubHit_factory.cc`,
  `Calorimeter/CalorimeterHit_factory.cc`, `IntVeto/IntVetoSiPMHit_factory.cc`).

  A factory asks a handler for the columns of a channel and reads some of them
  by their place.  The handler answers with an empty vector when its table has
  no row for the channel, and with one column when the table has one.

      columns_inRange_iff       every read is inside its vector exactly when the
                                tables have the rows and the columns
      absent_channel_outOfRange a channel that is not in the table
-/
import PokerReco.Calorimeter.CalorimeterHitFactory
import PokerReco.IntVeto.IntVetoSiPMHitFactory
import PokerReco.Library.PartialFold
import PokerReco.System.CalibrationAnswers

namespace PokerReco.System

open PokerReco.Calorimeter PokerReco.DAQ PokerReco.IntVeto PokerReco.Library PokerReco.TT

/-! ## §1. Reads. -/

/-- A read of a column of an answer that a calibration handler gave. -/
structure ColumnRead where
  answer : List ℚ
  column : Nat

namespace ColumnRead

/-- The column that is read is one of the answer. -/
def InRange (read : ColumnRead) : Prop := read.column < read.answer.length

instance (read : ColumnRead) : Decidable read.InRange := inferInstanceAs (Decidable (_ < _))

end ColumnRead

/-- The reads of some columns of one answer. -/
def readsOf (answer : List ℚ) (columns : List Nat) : List ColumnRead :=
  columns.map (⟨answer, ·⟩)

/-- A read of the first column is in range when the answer is not empty. -/
theorem forall_readsOf_gain {answer : List ℚ} :
    (∀ read ∈ readsOf answer [0], read.InRange) ↔ 1 ≤ answer.length := by
  unfold readsOf
  rw [List.forall_mem_map, List.forall_mem_singleton]
  rfl

/-- Reads of the first two columns are in range when the answer has two. -/
theorem forall_readsOf_both {answer : List ℚ} :
    (∀ read ∈ readsOf answer [0, 1], read.InRange) ↔ 2 ≤ answer.length := by
  unfold readsOf
  rw [List.forall_mem_map, List.forall_mem_cons, List.forall_mem_singleton]
  show 0 < answer.length ∧ 1 < answer.length ↔ _
  omega

/-! ## §2. The reads of each factory. -/

/-- `fa250Mode1CalibPedSubHit_factory::evnt`, for a hit of a JLab board: the
second parameter is read when there is one. -/
def mode1Reads (f : Fa250Mode1CalibPedSubHitFactory) (hit : Fa250Mode1Hit) : List ColumnRead :=
  readsOf (f.m_pedestals hit.m_channel) [0, 1]
    ++ readsOf (f.m_parms hit.m_channel)
      (if 2 ≤ (f.m_parms hit.m_channel).length then [0, 1] else [0])

/-- `fa250Mode1CalibPedSubHit_factory::evnt`, for a hit of a waveboard: two
columns of each answer are read. -/
def waveboardReads (f : Fa250Mode1CalibPedSubHitFactory) (hit : Fa250WaveboardV1Hit) :
    List ColumnRead :=
  readsOf (f.m_pedestals hit.m_channel) [0, 1] ++ readsOf (f.m_parms hit.m_channel) [0, 1]

/-- `CalorimeterHit_factory::evnt`, for the digi hits of a crystal: one above
threshold that is alone there reads two columns. -/
def crystalReads (f : CalorimeterHitFactory) : List DigiHit → List ColumnRead
  | [d] => if f.Above d then readsOf (f.m_ene (crystal d.m_channel)) [0, 1] else []
  | _ => []

/-- `IntVetoSiPMHit_factory::evnt`, for a hit of mode 1 on a channel. -/
def sipmMode1Reads (f : IntVetoSiPMHitFactory) (index : IntVetoIndex) : List ColumnRead :=
  readsOf (f.m_sipm_gain index) [0, 1] ++ readsOf (f.m_sipm_ampl index) [0]

/-- `IntVetoSiPMHit_factory::evnt`, for a hit of mode 7 on a channel. -/
def sipmMode7Reads (f : IntVetoSiPMHitFactory) (index : IntVetoIndex) : List ColumnRead :=
  readsOf (f.m_sipm_gain index) [0, 1]

/-! ## §3. A turn comes to its end when its reads are in range. -/

/-- The reads for a hit of a JLab board are in range when both answers have
their columns. -/
theorem forall_mode1Reads {f : Fa250Mode1CalibPedSubHitFactory} {hit : Fa250Mode1Hit} :
    (∀ read ∈ mode1Reads f hit, read.InRange)
      ↔ 2 ≤ (f.m_pedestals hit.m_channel).length ∧ 1 ≤ (f.m_parms hit.m_channel).length := by
  unfold mode1Reads
  rw [List.forall_mem_append, forall_readsOf_both]
  refine and_congr_right fun _ => ?_
  by_cases htwo : 2 ≤ (f.m_parms hit.m_channel).length
  · rw [if_pos htwo, forall_readsOf_both]
    omega
  · rw [if_neg htwo, forall_readsOf_gain]

/-- The reads for a hit of a waveboard are in range when both answers have
their columns. -/
theorem forall_waveboardReads {f : Fa250Mode1CalibPedSubHitFactory} {hit : Fa250WaveboardV1Hit} :
    (∀ read ∈ waveboardReads f hit, read.InRange)
      ↔ 2 ≤ (f.m_pedestals hit.m_channel).length ∧ 2 ≤ (f.m_parms hit.m_channel).length := by
  unfold waveboardReads
  rw [List.forall_mem_append, forall_readsOf_both, forall_readsOf_both]

/-- A hit of a JLab board is made exactly when its reads are in range. -/
theorem ofMode1_isSome_iff (f : Fa250Mode1CalibPedSubHitFactory) (hit : Fa250Mode1Hit) :
    (f.ofMode1 hit).isSome ↔ ∀ read ∈ mode1Reads f hit, read.InRange := by
  rw [forall_mode1Reads]
  unfold Fa250Mode1CalibPedSubHitFactory.ofMode1
  match f.m_pedestals hit.m_channel, f.m_parms hit.m_channel with
  | [], _ => simp
  | [_], _ => simp
  | _ :: _ :: _, [] => simp
  | _ :: _ :: _, _ :: _ => simp

/-- A hit of a waveboard is made exactly when its reads are in range. -/
theorem ofWaveboardV1_isSome_iff (f : Fa250Mode1CalibPedSubHitFactory)
    (hit : Fa250WaveboardV1Hit) :
    (f.ofWaveboardV1 hit).isSome ↔ ∀ read ∈ waveboardReads f hit, read.InRange := by
  rw [forall_waveboardReads]
  unfold Fa250Mode1CalibPedSubHitFactory.ofWaveboardV1
  match f.m_pedestals hit.m_channel, f.m_parms hit.m_channel with
  | [], _ => simp
  | [_], _ => simp
  | _ :: _ :: _, [] => simp
  | _ :: _ :: _, [_] => simp
  | _ :: _ :: _, _ :: _ :: _ => simp

/-- The turn for a crystal is made exactly when its reads are in range. -/
theorem ofGroup_isSome_iff (f : CalorimeterHitFactory) (group : List DigiHit) :
    (f.ofGroup group).isSome ↔ ∀ read ∈ crystalReads f group, read.InRange := by
  unfold CalorimeterHitFactory.ofGroup crystalReads
  match group with
  | [] => simp
  | _ :: _ :: _ => simp
  | [d] =>
      by_cases habove : f.Above d
      · simp only [if_pos habove]
        rw [Option.isSome_map, CalorimeterHitFactory.calibrated_isSome_iff, forall_readsOf_both]
      · simp only [if_neg habove]
        exact iff_of_true rfl fun read hmem => absurd hmem List.not_mem_nil

/-- The reads for a hit of mode 1 are in range when both answers have
their columns. -/
theorem forall_sipmMode1Reads {f : IntVetoSiPMHitFactory} {index : IntVetoIndex} :
    (∀ read ∈ sipmMode1Reads f index, read.InRange)
      ↔ 2 ≤ (f.m_sipm_gain index).length ∧ 1 ≤ (f.m_sipm_ampl index).length := by
  unfold sipmMode1Reads
  rw [List.forall_mem_append, forall_readsOf_both, forall_readsOf_gain]

/-- The phe conversions of a hit of mode 1 that has been converted are made
exactly when the reads are in range. -/
theorem sipmMode1_isSome_iff (f : IntVetoSiPMHitFactory) (index : IntVetoIndex)
    (hit : IntVetoSiPMHit) :
    ((f.setQphe index hit).bind (f.setAphe index)).isSome
      ↔ ∀ read ∈ sipmMode1Reads f index, read.InRange := by
  rw [forall_sipmMode1Reads]
  unfold IntVetoSiPMHitFactory.setQphe IntVetoSiPMHitFactory.setAphe
  match f.m_sipm_gain index, f.m_sipm_ampl index with
  | [], _ => simp
  | [_], _ => simp
  | _ :: _ :: _, [] => simp
  | _ :: _ :: _, _ :: _ => simp

/-- The phe conversion of a hit of mode 7 is made exactly when the reads
are in range. -/
theorem sipmMode7_isSome_iff (f : IntVetoSiPMHitFactory) (index : IntVetoIndex)
    (hit : IntVetoSiPMHit) :
    (f.setQphe index hit).isSome ↔ ∀ read ∈ sipmMode7Reads f index, read.InRange := by
  unfold sipmMode7Reads
  rw [forall_readsOf_both]
  unfold IntVetoSiPMHitFactory.setQphe
  match f.m_sipm_gain index with
  | [] => simp
  | [_] => simp
  | _ :: _ :: _ => simp

/-- The loops over the hits of the boards come to their end exactly when all reads
are in range. -/
theorem calibPedSub_evnt_isSome_iff (f : Fa250Mode1CalibPedSubHitFactory)
    (hits : List Fa250Mode1Hit) (wbhitsV1 : List Fa250WaveboardV1Hit) :
    (f.evnt hits wbhitsV1).isSome
      ↔ ∀ read ∈ hits.flatMap (mode1Reads f) ++ wbhitsV1.flatMap (waveboardReads f),
        read.InRange := by
  rw [List.forall_mem_append, List.forall_mem_flatMap, List.forall_mem_flatMap]
  simp only [← ofMode1_isSome_iff, ← ofWaveboardV1_isSome_iff]
  rw [← mapM_isSome_iff, ← mapM_isSome_iff]
  unfold Fa250Mode1CalibPedSubHitFactory.evnt
  cases hits.mapM f.ofMode1 with
  | none => exact ⟨fun h => absurd h Bool.false_ne_true, fun h => h.1⟩
  | some data =>
      cases wbhitsV1.mapM f.ofWaveboardV1 with
      | none => exact ⟨fun h => absurd h Bool.false_ne_true, fun h => h.2⟩
      | some wbdata => exact ⟨fun _ => ⟨rfl, rfl⟩, fun _ => rfl⟩

/-- The loop over the crystals comes to its end exactly when all reads are
in range. -/
theorem calorimeterHit_evnt_isSome_iff (f : CalorimeterHitFactory) (digis : List DigiHit) :
    (f.evnt digis).isSome ↔ ∀ read ∈ (CalorimeterHitFactory.m_map digis).toList.flatMap
      (fun entry => crystalReads f entry.2), read.InRange := by
  unfold CalorimeterHitFactory.evnt
  rw [collect_isSome, List.forall_mem_flatMap]
  exact forall₂_congr fun entry _ => ofGroup_isSome_iff f entry.2

/-! ## §4. An event. -/

/-- The handlers of the factories, each loaded with its table. -/
structure LoadedHandlers where
  m_pedestals : LoadedHandler Csc
  m_parms : LoadedHandler Csc
  m_ene : LoadedHandler CaloIndex
  m_sipm_gain : LoadedHandler IntVetoIndex
  m_sipm_ampl : LoadedHandler IntVetoIndex

/-- What the factories are given in an event. -/
structure FactoryEvent where
  m_tt : Table
  hits : List Fa250Mode1Hit
  wbhitsV1 : List Fa250WaveboardV1Hit
  digis : List DigiHit
  mode1Hits : List Fa250Mode1CalibPedSubHit
  mode7Hits : List Fa250Mode7Hit

/-- The indices of those of the channels that the translation table gives to the
inner veto. -/
def vetoIndices (m_tt : Table) (channels : List Csc) : List IntVetoIndex :=
  (channels.filter (OnIntVeto m_tt ·)).filterMap fun csc => intVeto (getChannelInfo m_tt csc)

section

variable (handlers : LoadedHandlers) (m_THR : Int32) (converter : IntVetofa250Converter)

/-- `fa250Mode1CalibPedSubHit_factory`, with the lookups of its loaded handlers. -/
def calibPedSub : Fa250Mode1CalibPedSubHitFactory :=
  ⟨handlers.m_pedestals.getCalib, handlers.m_parms.getCalib⟩

/-- `CalorimeterHit_factory`, with the lookups of its loaded handler. -/
def calorimeterHit : CalorimeterHitFactory := ⟨m_THR, handlers.m_ene.getCalib⟩

/-- `IntVetoSiPMHit_factory`, with the lookups of its loaded handlers. -/
def sipmHit : IntVetoSiPMHitFactory :=
  ⟨converter, handlers.m_sipm_gain.getCalib, handlers.m_sipm_ampl.getCalib⟩

/-- The reads that the factories make for an event, one factory after the other. -/
def eventReads (event : FactoryEvent) : List ColumnRead :=
  event.hits.flatMap (mode1Reads (calibPedSub handlers))
    ++ event.wbhitsV1.flatMap (waveboardReads (calibPedSub handlers))
    ++ (CalorimeterHitFactory.m_map event.digis).toList.flatMap
      (fun entry => crystalReads (calorimeterHit handlers m_THR) entry.2)
    ++ (vetoIndices event.m_tt (event.mode1Hits.map (·.m_channel))).flatMap
      (sipmMode1Reads (sipmHit handlers converter))
    ++ (vetoIndices event.m_tt (event.mode7Hits.map (·.m_channel))).flatMap
      (sipmMode7Reads (sipmHit handlers converter))

/-- The tables have the rows and the columns that the event needs. -/
structure Covers (event : FactoryEvent) : Prop where
  mode1 : ∀ hit ∈ event.hits, handlers.m_pedestals.table.HasColumn hit.m_channel 1
    ∧ handlers.m_parms.table.HasColumn hit.m_channel 0
  waveboard : ∀ hit ∈ event.wbhitsV1, handlers.m_pedestals.table.HasColumn hit.m_channel 1
    ∧ handlers.m_parms.table.HasColumn hit.m_channel 1
  crystal : ∀ d ∈ event.digis, digisOf event.digis (crystal d.m_channel) = [d] →
    d.Q > (m_THR.toInt : ℚ) → handlers.m_ene.table.HasColumn (crystal d.m_channel) 1
  sipmMode1 : ∀ index ∈ vetoIndices event.m_tt (event.mode1Hits.map (·.m_channel)),
    handlers.m_sipm_gain.table.HasColumn index 1 ∧ handlers.m_sipm_ampl.table.HasColumn index 0
  sipmMode7 : ∀ index ∈ vetoIndices event.m_tt (event.mode7Hits.map (·.m_channel)),
    handlers.m_sipm_gain.table.HasColumn index 1

end

/-! ## §5. When every read is in range. -/

/-- The reads for the crystals with digi hits are those for all crystals. -/
theorem forall_mapReads {f : CalorimeterHitFactory} {digis : List DigiHit} :
    (∀ read ∈ (CalorimeterHitFactory.m_map digis).toList.flatMap
      (fun entry => crystalReads f entry.2), read.InRange)
      ↔ ∀ c, ∀ read ∈ crystalReads f (digisOf digis c), read.InRange := by
  rw [List.forall_mem_flatMap]
  constructor
  · intro h c
    by_cases hnone : digisOf digis c = []
    · rw [hnone]
      exact fun read hmem => absurd hmem List.not_mem_nil
    · exact h (c, digisOf digis c) ((mem_group_toList _ digis).mpr ⟨rfl, hnone⟩)
  · intro h entry hentry
    rw [((mem_group_toList _ digis).mp hentry).1]
    exact h entry.1

/-- The reads for all crystals are those for the digi hits that are alone in
their crystal. -/
theorem forall_crystalReads {f : CalorimeterHitFactory} {digis : List DigiHit} :
    (∀ read ∈ (CalorimeterHitFactory.m_map digis).toList.flatMap
      (fun entry => crystalReads f entry.2), read.InRange)
      ↔ ∀ d ∈ digis, digisOf digis (crystal d.m_channel) = [d] → f.Above d →
        2 ≤ (f.m_ene (crystal d.m_channel)).length := by
  rw [forall_mapReads]
  constructor
  · intro h d hd honly habove
    have hd := h (crystal d.m_channel)
    rw [honly, show crystalReads f [d] = readsOf _ [0, 1] from if_pos habove] at hd
    exact forall_readsOf_both.mp hd
  · intro h c
    unfold crystalReads
    split
    · next d honly =>
        have hmem : d ∈ digisOf digis c := honly ▸ List.mem_cons_self
        obtain ⟨hd, hc⟩ := List.mem_filter.mp hmem
        obtain rfl := of_decide_eq_true hc
        by_cases habove : f.Above d
        · rw [if_pos habove]
          exact forall_readsOf_both.mpr (h d hd honly habove)
        · rw [if_neg habove]
          exact fun read hmem => absurd hmem List.not_mem_nil
    · exact fun read hmem => absurd hmem List.not_mem_nil

/-- **Every read of a column is inside its vector** exactly when the tables
have the rows and the columns. -/
theorem columns_inRange_iff (handlers : LoadedHandlers) (m_THR : Int32)
    (converter : IntVetofa250Converter) (event : FactoryEvent) :
    (∀ read ∈ eventReads handlers m_THR converter event, read.InRange)
      ↔ Covers handlers m_THR event := by
  unfold eventReads
  rw [List.forall_mem_append, List.forall_mem_append, List.forall_mem_append,
    List.forall_mem_append, List.forall_mem_flatMap, List.forall_mem_flatMap,
    forall_crystalReads, List.forall_mem_flatMap, List.forall_mem_flatMap]
  have hmode1 : ∀ hit, (∀ read ∈ mode1Reads (calibPedSub handlers) hit, read.InRange)
      ↔ handlers.m_pedestals.table.HasColumn hit.m_channel 1
        ∧ handlers.m_parms.table.HasColumn hit.m_channel 0 := fun hit =>
    forall_mode1Reads.trans (and_congr LoadedHandler.two_le_iff LoadedHandler.one_le_iff)
  have hwaveboard : ∀ hit, (∀ read ∈ waveboardReads (calibPedSub handlers) hit, read.InRange)
      ↔ handlers.m_pedestals.table.HasColumn hit.m_channel 1
        ∧ handlers.m_parms.table.HasColumn hit.m_channel 1 := fun hit =>
    forall_waveboardReads.trans (and_congr LoadedHandler.two_le_iff LoadedHandler.two_le_iff)
  have hcrystal : ∀ c, 2 ≤ ((calorimeterHit handlers m_THR).m_ene c).length
      ↔ handlers.m_ene.table.HasColumn c 1 := fun c => LoadedHandler.two_le_iff
  have hsipm1 : ∀ index, (∀ read ∈ sipmMode1Reads (sipmHit handlers converter) index,
      read.InRange) ↔ handlers.m_sipm_gain.table.HasColumn index 1
        ∧ handlers.m_sipm_ampl.table.HasColumn index 0 := fun index =>
    forall_sipmMode1Reads.trans (and_congr LoadedHandler.two_le_iff LoadedHandler.one_le_iff)
  have hsipm7 : ∀ index, (∀ read ∈ sipmMode7Reads (sipmHit handlers converter) index,
      read.InRange) ↔ handlers.m_sipm_gain.table.HasColumn index 1 := fun index =>
    forall_readsOf_both.trans LoadedHandler.two_le_iff
  simp only [hmode1, hwaveboard, hcrystal, hsipm1, hsipm7]
  constructor
  · rintro ⟨⟨⟨⟨h1, h2⟩, h3⟩, h4⟩, h5⟩
    exact ⟨h1, h2, h3, h4, h5⟩
  · intro h
    exact ⟨⟨⟨⟨h.mode1, h.waveboard⟩, h.crystal⟩, h.sipmMode1⟩, h.sipmMode7⟩

/-- An event of a crystal on the channel 2 of a board, which the translation table
has, as it has channel 1. -/
def crystalOnChannel2 : FactoryEvent where
  m_tt := ((∅ : Table).insert ⟨0, 0, 1⟩ ⟨⟨0, 0, 1⟩, .CALORIMETER, .calorimeter ⟨0, 1, 1, 1⟩⟩).insert
    ⟨0, 0, 2⟩ ⟨⟨0, 0, 2⟩, .CALORIMETER, .calorimeter ⟨0, 1, 2, 1⟩⟩
  hits := [⟨⟨0, 0, 2⟩, 0, 0, [100]⟩]
  wbhitsV1 := []
  digis := []
  mode1Hits := []
  mode7Hits := []

/-- **A channel of the translation table that the pedestals have no row for**: the
answer for it is empty, and two columns of it are read. -/
theorem absent_channel_outOfRange :
    (∀ hit ∈ crystalOnChannel2.hits, hit.m_channel ∈ crystalOnChannel2.m_tt)
      ∧ ¬ ∀ read ∈ eventReads
        { m_pedestals := ⟨"/DAQ/pedestals", ⟨[[0, 0, 1, 100, 2]], by decide⟩, []⟩
          m_parms := ⟨"DAQ/parms", ⟨[[0, 0, 1, 1, 4]], by decide⟩, []⟩
          m_ene := ⟨"/Calorimeter/Ene", ⟨[], by decide⟩, []⟩
          m_sipm_gain := ⟨"/InnerVeto/sipm_gain", ⟨[], by decide⟩, []⟩
          m_sipm_ampl := ⟨"/InnerVeto/sipm_ampl", ⟨[], by decide⟩, []⟩ }
        0 ⟨fun _ => [], 0, 0, 0, 0, 0, 1, id⟩ crystalOnChannel2, read.InRange := by
  constructor
  · refine List.forall_mem_singleton.mpr ?_
    exact Std.TreeMap.mem_insert_self
  · intro h
    unfold eventReads at h
    rw [List.append_assoc, List.append_assoc, List.append_assoc, List.forall_mem_append,
      show crystalOnChannel2.hits = [⟨⟨0, 0, 2⟩, 0, 0, [100]⟩] from rfl, List.flatMap_singleton,
      forall_mode1Reads] at h
    obtain ⟨row, hrow, hindex, -⟩ := LoadedHandler.two_le_iff.mp h.1.1
    obtain rfl := List.mem_singleton.mp hrow
    exact absurd hindex (by decide +kernel)

end PokerReco.System
