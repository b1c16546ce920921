/-
  PokerReco.System.CalibrationAnswers
  ───────────────────────────────────
  **WHAT A LOADED HANDLER ANSWERS** (`system/CalibrationHandler.h`).

  A handler that has been filled with one accepted table answers from that
  table however many indices it has been asked before: the columns of the first
  row that gives the index, and an empty vector when no row does.

      getCalib_loaded      the answers of a loaded handler
      hasColumn_iff        when an answer has a column
      fillCalib_fst_iff    which tables are rejected
-/
import PokerReco.System.CalibrationHandler

namespace PokerReco.System

open PokerReco.Library PokerReco.TT PokerReco.JANA

variable {T : Type} [CalibIndex T]

/-! ## §1. A loaded handler. -/

/-- A table that `fillCalib` accepts: its rows are long enough and of one length. -/
structure AcceptedTable (T : Type) [CalibIndex T] where
  rows : List (List ℚ)
  accepted : Accepted T rows

namespace CalibrationHandler

/-- The handler after lookups, each of which may remember its answer. -/
def afterLookups (h : CalibrationHandler T) (indices : List T) : CalibrationHandler T :=
  indices.foldl (fun h i => (h.getCalib i).2) h

/-- A new handler that has been filled with a table and asked for indices. -/
def loaded (name : String) (table : AcceptedTable T) (asked : List T) : CalibrationHandler T :=
  ((new name).fillCalib table.rows).2.afterLookups asked

/-- The remembered answers are those of the map, so that to remember them changes
no answer. -/
structure CacheOfMap (h : CalibrationHandler T) : Prop where
  parallel : h.actualCalibIndex.length = h.actualCalib.length
  of_map : ∀ (pos : Nat) (i : T), h.actualCalibIndex[pos]? = some i →
    h.actualCalib[pos]? = h.calib[i]?

end CalibrationHandler

variable [LawfulCalibIndex T]

/-- The columns that a table has for an index: those of the first row that
gives it. -/
def AcceptedTable.columns (table : AcceptedTable T) (i : T) : Option (List ℚ) :=
  (table.rows.find? (rowGivesIndex i)).map (·.drop (CalibIndex.nIDs T))

/-- A row of the table gives the index and has the column. -/
def AcceptedTable.HasColumn (table : AcceptedTable T) (i : T) (column : Nat) : Prop :=
  ∃ row ∈ table.rows, CalibIndex.ofIDs (row.take (CalibIndex.nIDs T)) = i
    ∧ CalibIndex.nIDs T + column < row.length

/-! ## §2. Lookups. -/

namespace CalibrationHandler

/-- A lookup answers from the map, whether it remembers the index or not; an
unknown index has no columns. -/
theorem getCalib_fst {h : CalibrationHandler T} (hcache : h.CacheOfMap) (i : T) :
    (h.getCalib i).1 = (h.calib[i]?).getD [] := by
  unfold getCalib
  cases hpos : h.actualCalibIndex.findIdx? (fun j => CalibIndex.eq j i) with
  | none => cases h.calib[i]? <;> rfl
  | some pos =>
      obtain ⟨hlt, heq, -⟩ := List.findIdx?_eq_some_iff_getElem.mp hpos
      rw [LawfulCalibIndex.eq_iff] at heq
      have hfound := hcache.of_map pos i (by rw [List.getElem?_eq_getElem hlt, heq])
      show h.actualCalib.getD pos [] = _
      rw [List.getD_eq_getElem?_getD, hfound]

omit [LawfulCalibIndex T] in
/-- A lookup does not change the map. -/
theorem getCalib_snd_calib (h : CalibrationHandler T) (i : T) :
    (h.getCalib i).2.calib = h.calib := by
  unfold getCalib
  split
  · rfl
  · split <;> rfl

omit [LawfulCalibIndex T] in
/-- What a lookup remembers is an answer of the map. -/
theorem getCalib_snd_cacheOfMap {h : CalibrationHandler T} (hcache : h.CacheOfMap) (i : T) :
    (h.getCalib i).2.CacheOfMap := by
  unfold getCalib
  split
  · exact hcache
  · split
    · exact hcache
    · next data hdata =>
        refine ⟨?_, fun pos j hj => ?_⟩
        · show (h.actualCalibIndex ++ [i]).length = (h.actualCalib ++ [data]).length
          rw [List.length_append, List.length_append, hcache.parallel]
          rfl
        · show (h.actualCalib ++ [data])[pos]? = h.calib[j]?
          replace hj : (h.actualCalibIndex ++ [i])[pos]? = some j := hj
          by_cases hlt : pos < h.actualCalibIndex.length
          · rw [List.getElem?_append_left hlt] at hj
            rw [List.getElem?_append_left (hcache.parallel ▸ hlt)]
            exact hcache.of_map pos j hj
          · rw [List.getElem?_append_right (Nat.le_of_not_lt hlt)] at hj
            rw [List.getElem?_append_right (hcache.parallel ▸ Nat.le_of_not_lt hlt),
              ← hcache.parallel]
            rw [List.getElem?_singleton] at hj ⊢
            by_cases hlast : pos - h.actualCalibIndex.length = 0
            · rw [if_pos hlast] at hj ⊢
              obtain rfl := Option.some.inj hj
              exact hdata.symm
            · rw [if_neg hlast] at hj
              cases hj

omit [LawfulCalibIndex T] in
/-- Any number of lookups leaves the map as it is, and remembers answers
of it only. -/
theorem afterLookups_cacheOfMap (indices : List T) {h : CalibrationHandler T}
    (hcache : h.CacheOfMap) :
    (h.afterLookups indices).CacheOfMap ∧ (h.afterLookups indices).calib = h.calib := by
  unfold afterLookups
  induction indices generalizing h with
  | nil => exact ⟨hcache, rfl⟩
  | cons i indices ih =>
      rw [List.foldl_cons]
      obtain ⟨hrest, hcalib⟩ := ih (getCalib_snd_cacheOfMap hcache i)
      exact ⟨hrest, hcalib.trans (getCalib_snd_calib h i)⟩

/-- **The answers of a loaded handler.** -/
theorem getCalib_loaded (name : String) (table : AcceptedTable T) (asked : List T) (i : T) :
    ((loaded name table asked).getCalib i).1 = (table.columns i).getD [] := by
  have hnew : ((new name : CalibrationHandler T).fillCalib table.rows).2.CacheOfMap :=
    ⟨rfl, fun pos j hj => by simp [fillCalib, new] at hj⟩
  obtain ⟨hcache, hcalib⟩ := afterLookups_cacheOfMap asked hnew
  unfold loaded
  rw [getCalib_fst hcache, hcalib, getElem?_fillCalib_of_accepted _ table.accepted]
  rfl

end CalibrationHandler

/-- A handler of a factory, loaded with an accepted table and asked for some
indices since. -/
structure LoadedHandler (T : Type) [CalibIndex T] where
  name : String
  table : AcceptedTable T
  asked : List T

/-- `getCalib` of a loaded handler, without what it remembers. -/
def LoadedHandler.getCalib (h : LoadedHandler T) (i : T) : List ℚ :=
  ((CalibrationHandler.loaded h.name h.table h.asked).getCalib i).1

/-! ## §3. Columns. -/

/-- A loaded handler answers with the columns of its table, and with none for an
index without a row. -/
theorem LoadedHandler.getCalib_eq (h : LoadedHandler T) (i : T) :
    h.getCalib i = (h.table.columns i).getD [] :=
  CalibrationHandler.getCalib_loaded h.name h.table h.asked i

/-- **An answer has a column** when a row of the table gives the index and has
it; all rows are of one length. -/
theorem AcceptedTable.hasColumn_iff (table : AcceptedTable T) (i : T) (column : Nat) :
    column < ((table.columns i).getD []).length ↔ table.HasColumn i column := by
  unfold columns HasColumn
  cases hfind : table.rows.find? (rowGivesIndex i) with
  | none =>
      refine ⟨fun h => absurd h (Nat.not_lt_zero column), fun ⟨row, hrow, hindex, _⟩ => ?_⟩
      exact absurd (rowGivesIndex_iff.mpr hindex) (List.find?_eq_none.mp hfind row hrow)
  | some row =>
      have hrow := List.mem_of_find?_eq_some hfind
      show column < (row.drop (CalibIndex.nIDs T)).length ↔ _
      rw [List.length_drop]
      constructor
      · intro h
        exact ⟨row, hrow, rowGivesIndex_iff.mp (List.find?_some hfind), by omega⟩
      · intro ⟨row', hrow', _, hlength⟩
        rw [(table.accepted row hrow).2 row' hrow'] at hlength
        omega

namespace LoadedHandler

variable {h : LoadedHandler T} {i : T}

/-- An answer has a first column when a row of the table gives the index
and has one. -/
theorem one_le_iff : 1 ≤ (h.getCalib i).length ↔ h.table.HasColumn i 0 := by
  rw [h.getCalib_eq]
  exact h.table.hasColumn_iff i 0

/-- An answer has two columns when a row of the table gives the index and
has them. -/
theorem two_le_iff : 2 ≤ (h.getCalib i).length ↔ h.table.HasColumn i 1 := by
  rw [h.getCalib_eq]
  exact h.table.hasColumn_iff i 1

/-- An answer with a first column, taken apart. -/
theorem exists_of_one (hone : h.table.HasColumn i 0) :
    ∃ column rest, h.getCalib i = column :: rest := by
  match h.getCalib i, one_le_iff.mpr hone with
  | column :: rest, _ => exact ⟨column, rest, rfl⟩

/-- An answer with two columns, taken apart. -/
theorem exists_of_two (htwo : h.table.HasColumn i 1) :
    ∃ column column' rest, h.getCalib i = column :: column' :: rest := by
  match h.getCalib i, two_le_iff.mpr htwo with
  | column :: column' :: rest, _ => exact ⟨column, column', rest, rfl⟩

/-- An answer with columns is that of the table, and not the empty one. -/
theorem columns_eq (hone : h.table.HasColumn i 0) : h.table.columns i = some (h.getCalib i) := by
  have hlength := one_le_iff.mpr hone
  rw [h.getCalib_eq] at hlength ⊢
  cases hcolumns : h.table.columns i with
  | none =>
      rw [hcolumns] at hlength
      exact absurd hlength (by decide)
  | some columns => rfl

end LoadedHandler

/-! ## §4. Rejected tables. -/

omit [LawfulCalibIndex T] in
/-- `fillCalib` says which tables it rejects: it answers `NOERROR` exactly for
those that it accepts. -/
theorem fillCalib_fst_iff (h : CalibrationHandler T) (rows : List (List ℚ)) :
    (h.fillCalib rows).1 = .NOERROR ↔ Accepted T rows := by
  unfold CalibrationHandler.fillCalib
  by_cases hacc : Accepted T rows
  · rw [fillRows_of_pass (rowsPass_none.mpr hacc)]
    exact iff_of_true rfl hacc
  · rw [fillRows_of_not_pass (fun hpass => hacc (rowsPass_none.mp hpass))]
    exact iff_of_false JError.noConfusion hacc

end PokerReco.System
