/-
  PokerReco.System.RejectedTables
  ───────────────────────────────
  **REJECTED CALIBRATION TABLES** (`CalibrationHandler<T>::fillCalib`,
  `BDXEventProcessor::updateCalibration`).

  `fillCalib` clears the map and stores the raw table before it looks at the
  rows.  When a row is rejected the map stays empty and the raw table stays.
  `updateCalibration` does not look at what `fillCalib` returns and raises the
  flag.

      rejected_keeps_iff         when a rejected table changes no answer
      update_noneRejected_iff    one update of the registry
      rejected_tables_iff        both, the second for every sequence of calls
-/
import PokerReco.Library.Schedule
import PokerReco.System.CalibrationAnswers
import PokerReco.System.CalibrationRegistry

namespace PokerReco.System

open PokerReco.Library PokerReco.JANA PokerReco.TT

/-! ## §1. One handler. -/

section Handler

variable {T : Type} [CalibIndex T]

/-- Every index is answered as before, and the raw table is the same. -/
structure KeepsAnswers (before after : CalibrationHandler T) : Prop where
  getCalib : ∀ i, (after.getCalib i).1 = (before.getCalib i).1
  rawCalibData : after.rawCalibData = before.rawCalibData

/-- The handler has remembered all that its map holds, and its raw table is
this one. -/
structure NothingToLose (h : CalibrationHandler T) (rows : List (List ℚ)) : Prop where
  remembered : ∀ i, (∀ j ∈ h.actualCalibIndex, CalibIndex.eq j i = false) →
    (h.calib[i]?).getD [] = []
  rawCalibData : h.rawCalibData = rows

/-- A rejected table leaves an empty map, and is the raw table from then on. -/
theorem fillCalib_of_rejected (h : CalibrationHandler T) {rows : List (List ℚ)}
    (hrej : ¬ Accepted T rows) :
    h.fillCalib rows = (.VALUE_OUT_OF_RANGE, { h with rawCalibData := rows, calib := ∅ }) := by
  unfold CalibrationHandler.fillCalib
  rw [fillRows_of_not_pass fun hpass => hrej (rowsPass_none.mp hpass)]

/-- An index that has been answered is answered from the memory, whatever the map
holds now. -/
theorem getCalib_fst_congr {h h' : CalibrationHandler T} {i : T}
    (hindex : h'.actualCalibIndex = h.actualCalibIndex) (hdata : h'.actualCalib = h.actualCalib)
    (hanswered : ∃ j ∈ h.actualCalibIndex, CalibIndex.eq j i = true) :
    (h'.getCalib i).1 = (h.getCalib i).1 := by
  unfold CalibrationHandler.getCalib
  rw [hindex, hdata]
  cases hpos : h.actualCalibIndex.findIdx? (fun j => CalibIndex.eq j i) with
  | some pos => rfl
  | none =>
      obtain ⟨j, hj, heq⟩ := hanswered
      rw [List.findIdx?_eq_none_iff.mp hpos j hj] at heq
      cases heq

/-- Any other index is answered from the map, or with nothing when this
has no entry. -/
theorem getCalib_fst_of_new {h : CalibrationHandler T} {i : T}
    (hnew : ∀ j ∈ h.actualCalibIndex, CalibIndex.eq j i = false) :
    (h.getCalib i).1 = (h.calib[i]?).getD [] := by
  unfold CalibrationHandler.getCalib
  rw [List.findIdx?_eq_none_iff.mpr hnew]
  cases h.calib[i]? <;> rfl

/-- **A rejected table changes no answer** exactly when the handler has nothing
to lose. -/
theorem rejected_keeps_iff (h : CalibrationHandler T) (rows : List (List ℚ)) :
    ((h.fillCalib rows).1 ≠ .NOERROR → KeepsAnswers h (h.fillCalib rows).2)
      ↔ Accepted T rows ∨ NothingToLose h rows := by
  by_cases hacc : Accepted T rows
  · refine iff_of_true (fun herr => ?_) (Or.inl hacc)
    exact absurd ((fillCalib_fst_iff h rows).mpr hacc) herr
  · rw [fillCalib_of_rejected h hacc]
    have hafter : ∀ i, (∀ j ∈ h.actualCalibIndex, CalibIndex.eq j i = false) →
        (({ h with rawCalibData := rows, calib := ∅ } : CalibrationHandler T).getCalib i).1 = [] :=
      fun i hnew => getCalib_fst_of_new (h := { h with rawCalibData := rows, calib := ∅ }) hnew
    constructor
    · intro hkeeps
      have hkeeps := hkeeps JError.noConfusion
      refine Or.inr ⟨fun i hnew => ?_, hkeeps.rawCalibData.symm⟩
      rw [← getCalib_fst_of_new hnew, ← hkeeps.getCalib i]
      exact hafter i hnew
    · intro hlose _
      have hlose := hlose.resolve_left hacc
      refine ⟨fun i => ?_, hlose.rawCalibData.symm⟩
      by_cases hanswered : ∃ j ∈ h.actualCalibIndex, CalibIndex.eq j i = true
      · exact getCalib_fst_congr rfl rfl hanswered
      · have hnew : ∀ j ∈ h.actualCalibIndex, CalibIndex.eq j i = false := fun j hj =>
          Bool.eq_false_iff.mpr fun heq => hanswered ⟨j, hj, heq⟩
        rw [getCalib_fst_of_new hnew, hlose.remembered i hnew]
        exact hafter i hnew

end Handler

/-! ## §2. The registry. -/

/-- The table has data after so many index columns, and rows of one length. -/
def AcceptedColumns (nIDs : Nat) (rows : List (List ℚ)) : Prop :=
  ∀ row ∈ rows, nIDs < row.length ∧ ∀ row' ∈ rows, row'.length = row.length

instance (nIDs : Nat) (rows : List (List ℚ)) : Decidable (AcceptedColumns nIDs rows) :=
  inferInstanceAs (Decidable (∀ row ∈ rows, _ ∧ ∀ row' ∈ rows, _))

/-- A lookup does not change the raw table of the handler. -/
theorem getCalib_snd_rawCalibData {T : Type} [CalibIndex T] (h : CalibrationHandler T) (i : T) :
    (h.getCalib i).2.rawCalibData = h.rawCalibData := by
  unfold CalibrationHandler.getCalib
  split
  · rfl
  · split <;> rfl

/-- The raw data of a handler tells what its last `fillCalib` returned. -/
theorem last_fill_iff {T : Type} [CalibIndex T] (h : CalibrationHandler T)
    (rows : List (List ℚ)) (asked : List T) :
    AcceptedColumns (CalibIndex.nIDs T) ((h.fillCalib rows).2.afterLookups asked).rawCalibData
      ↔ (h.fillCalib rows).1 = .NOERROR := by
  have hraw : ∀ h : CalibrationHandler T,
      (h.afterLookups asked).rawCalibData = h.rawCalibData := by
    induction asked with
    | nil => exact fun _ => rfl
    | cons i asked ih => exact fun h => (ih _).trans (getCalib_snd_rawCalibData h i)
  rw [hraw, fillCalib_fst_iff]
  rfl

namespace Registry

variable {η : Type} [DecidableEq η]

/-- The calls of the event loops and of the factories: a handler is added, updated
or cleared. -/
inductive Call (η : Type) where
  | addCalibration (cal : η)
  | updateCalibration (run : Int) (cal : η)
  | clearCalibration (cal : η)

/-- One call on the registry; each of them returns. -/
def exec (table : String → Int → List (List ℚ)) (reg : Registry η) :
    Call η → Option (Registry η)
  | .addCalibration cal => some (reg.addCalibration cal)
  | .updateCalibration run cal => some (reg.updateCalibration table run cal)
  | .clearCalibration cal => some (reg.clearCalibration cal)

/-- The registry before the first call, with new handlers. -/
def start (tableOf : η → String) : Registry η where
  calibrations _ := []
  handlers k := .new (tableOf k)

/-- No handler is flagged whose last table was rejected; `nIDs` are the index
columns of the type of a handler. -/
def NoneRejected (nIDs : η → Nat) (reg : Registry η) : Prop :=
  ∀ k, (reg.handlers k).hasLoadedCurrentRun = true →
    AcceptedColumns (nIDs k) (reg.handlers k).rawCalibData

/-- The table that an update gives out: the raw table of the last loaded
handler, else that of the database. -/
def givenTable (table : String → Int → List (List ℚ)) (run : Int) (reg : Registry η)
    (name : String) : List (List ℚ) :=
  match ((reg.calibrations name).filter
    fun k => (reg.handlers k).hasLoadedCurrentRun).getLast? with
  | some src => (reg.handlers src).rawCalibData
  | none => table name run

/-- A table that is given out is accepted by all that get it. -/
def GivesAccepted (table : String → Int → List (List ℚ)) (nIDs : η → Nat) (reg : Registry η) :
    Call η → Prop
  | .updateCalibration run cal =>
      cal ∈ reg.calibrations (reg.handlers cal).table →
        ∀ k ∈ reg.calibrations (reg.handlers cal).table,
          (reg.handlers k).hasLoadedCurrentRun = false →
            AcceptedColumns (nIDs k) (givenTable table run reg (reg.handlers cal).table)
  | _ => True

/-! ## §3. One call. -/

omit [DecidableEq η] in
/-- The loop that looks for loaded handlers finds the last one. -/
theorem scan_snd_eq (hs : η → CalibrationHandlerBase) (cs : List η) (pos : Nat) (flagAll : Bool)
    (one : Option (Nat × η)) :
    (scan hs pos flagAll one cs).2.map Prod.snd
      = ((cs.filter fun k => (hs k).hasLoadedCurrentRun).getLast?).or (one.map Prod.snd) := by
  induction cs generalizing pos flagAll one with
  | nil => rfl
  | cons c cs ih =>
      unfold scan
      by_cases hc : (hs c).hasLoadedCurrentRun = false
      · rw [if_pos hc, ih, List.filter_cons_of_neg (by rw [hc]; exact Bool.false_ne_true)]
      · rw [if_neg hc, ih, List.filter_cons_of_pos (Bool.not_eq_false _ ▸ hc), List.getLast?_cons]
        cases (cs.filter fun k => (hs k).hasLoadedCurrentRun).getLast? <;> rfl

omit [DecidableEq η] in
/-- What an update gives out in the program is the table of the last loaded
handler, or that of the database. -/
theorem source_eq (table : String → Int → List (List ℚ)) (run : Int) (reg : Registry η)
    (name : String) : source table run reg name = givenTable table run reg name := by
  have hlast := scan_snd_eq reg.handlers (reg.calibrations name) 0 true none
  unfold source givenTable
  rw [Option.map_none, Option.or_none] at hlast
  rw [← hlast]
  cases (scan reg.handlers 0 true none (reg.calibrations name)).2 <;> rfl

/-- **One update** leaves no rejected table behind a flag exactly when the table
it gives out is accepted. -/
theorem update_noneRejected_iff (table : String → Int → List (List ℚ)) (nIDs : η → Nat)
    (run : Int) {reg : Registry η} (cal : η) (hnone : NoneRejected nIDs reg) :
    NoneRejected nIDs (reg.updateCalibration table run cal)
      ↔ GivesAccepted table nIDs reg (.updateCalibration run cal) := by
  by_cases hcal : cal ∈ reg.calibrations (reg.handlers cal).table
  · have hhandlers := updateCalibration_handlers table run reg hcal
    constructor
    · intro hafter _ k hk hflag
      have hloaded := hafter k
      rw [hhandlers k, if_pos ⟨hk, hflag⟩, source_eq] at hloaded
      exact hloaded rfl
    · intro hgives k hflag
      rw [hhandlers k] at hflag ⊢
      by_cases hk : k ∈ reg.calibrations (reg.handlers cal).table
          ∧ (reg.handlers k).hasLoadedCurrentRun = false
      · rw [if_pos hk, source_eq]
        exact hgives hcal k hk.1 hk.2
      · rw [if_neg hk] at hflag ⊢
        exact hnone k hflag
  · have hsame : reg.updateCalibration table run cal = reg := by
      unfold updateCalibration
      exact if_pos hcal
    rw [hsame]
    exact iff_of_true hnone fun h => absurd h hcal

/-- A clear only takes flags down, so that no rejected table gets behind one. -/
theorem clear_noneRejected {nIDs : η → Nat} {reg : Registry η} (cal : η)
    (hnone : NoneRejected nIDs reg) : NoneRejected nIDs (reg.clearCalibration cal) := by
  intro k hflag
  by_cases hcal : cal ∈ reg.calibrations (reg.handlers cal).table
  · rw [clearCalibration_handlers reg hcal] at hflag ⊢
    by_cases hk : k ∈ reg.calibrations (reg.handlers cal).table
    · rw [if_pos hk] at hflag
      cases hflag
    · rw [if_neg hk] at hflag ⊢
      exact hnone k hflag
  · have hsame : reg.clearCalibration cal = reg := by
      unfold clearCalibration
      exact if_pos hcal
    rw [hsame] at hflag ⊢
    exact hnone k hflag

/-- **One call** leaves no rejected table behind a flag exactly when the table it
gives out, if any, is accepted. -/
theorem exec_noneRejected_iff (table : String → Int → List (List ℚ)) (nIDs : η → Nat)
    {reg reg' : Registry η} {call : Call η} (hnone : NoneRejected nIDs reg)
    (h : exec table reg call = some reg') :
    NoneRejected nIDs reg' ↔ GivesAccepted table nIDs reg call := by
  cases call with
  | addCalibration cal =>
      obtain rfl := Option.some.inj h
      exact iff_of_true hnone trivial
  | updateCalibration run cal =>
      obtain rfl := Option.some.inj h
      exact update_noneRejected_iff table nIDs run cal hnone
  | clearCalibration cal =>
      obtain rfl := Option.some.inj h
      exact iff_of_true (clear_noneRejected cal hnone) trivial

end Registry

/-! ## §4. Every sequence of calls. -/

/-- **A rejected table is not taken for a loaded one** exactly when the handler
has nothing to lose, and when each update of the registry gives out a table that
is accepted. -/
theorem rejected_tables_iff {T : Type} [CalibIndex T] (h : CalibrationHandler T)
    (rows : List (List ℚ)) {η : Type} [DecidableEq η] (nIDs : η → Nat)
    (table : String → Int → List (List ℚ)) (tableOf : η → String)
    (calls : List (Registry.Call η)) :
    (((h.fillCalib rows).1 ≠ .NOERROR → KeepsAnswers h (h.fillCalib rows).2)
        ↔ Accepted T rows ∨ NothingToLose h rows)
      ∧ (StatesMeet (Registry.exec table) (Registry.NoneRejected nIDs) (Registry.start tableOf)
          calls
        ↔ StepsMeet (Registry.exec table) (Registry.GivesAccepted table nIDs)
          (Registry.start tableOf) calls) := by
  refine ⟨rejected_keeps_iff h rows, ?_⟩
  have hstart : Registry.NoneRejected nIDs (Registry.start tableOf) := by
    intro k hflag
    cases hflag
  exact statesMeet_iff_stepsMeet (J := fun _ => True) (fun _ _ _ _ _ => trivial)
    (fun _ _ _ _ hnone h => Registry.exec_noneRejected_iff table nIDs hnone h) trivial hstart

/-- A table without data columns: it takes the answer of a handler away, and a
handler that gets it from the database is flagged as loaded. -/
theorem table_without_data_taken :
    ¬ ((((CalibrationHandler.new "DAQ/parms" : DAQCalibrationHandler).fillCalib
            [[0, 0, 1, 5]]).2.fillCalib [[0, 0, 1]]).1 ≠ .NOERROR →
          KeepsAnswers ((CalibrationHandler.new "DAQ/parms" : DAQCalibrationHandler).fillCalib
            [[0, 0, 1, 5]]).2
          (((CalibrationHandler.new "DAQ/parms" : DAQCalibrationHandler).fillCalib
            [[0, 0, 1, 5]]).2.fillCalib [[0, 0, 1]]).2)
      ∧ ¬ StatesMeet (Registry.exec fun _ _ => [[0, 0, 1]])
        (Registry.NoneRejected fun _ => 3) (Registry.start fun _ : Unit => "DAQ/parms")
        [.addCalibration (), .updateCalibration 1 ()] := by
  constructor
  · intro hkeeps
    have hraw := (hkeeps (by decide +kernel)).rawCalibData
    exact absurd hraw (by decide +kernel)
  · intro hmeet
    have hlast := StatesMeet.last hmeet rfl
    exact absurd (hlast () rfl) (by decide +kernel)

end PokerReco.System
