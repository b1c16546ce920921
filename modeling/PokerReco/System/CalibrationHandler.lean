/-
  PokerReco.System.CalibrationHandler
  ───────────────────────────────────
  **ONE CALIBRATION TABLE AND ITS LOOKUP CACHE**
  (`system/CalibrationHandler.h`, `DAQ/DAQCalibrationHandler.cc`).

  A handler receives a table of numbers (`fillCalib`): the first columns of a
  row are an index, the others are the data of that index.  `getCalib` answers
  from `m_actualCalib`, the answers given so far, and turns to the map
  `m_calib` only for an index it has not answered yet.

      fillCalib      replaces the map, does not touch the earlier answers
      getCalib       earlier answer, else map entry (and remembers it)
      tableAnswer    what the table alone says about an index

  `coherent_iff_refills_agree` says when the two agree through a whole
  session: exactly when every refill repeats, for each index answered before,
  the columns it had then.
-/
import PokerReco.JANA.Basic
import PokerReco.Library.OrderedMap
import PokerReco.Library.Schedule
import PokerReco.TT.Index
import Mathlib.Data.List.Find
import Mathlib.Data.Rat.Init
import Mathlib.Data.Rat.Cast.Defs

namespace PokerReco.System

open PokerReco.Library PokerReco.TT PokerReco.JANA

/-! ## §1. Index types of a calibration table. -/

/-- What `CalibrationHandler<T>` uses of its index type `T`: the index columns of
a row, and the comparisons. -/
class CalibIndex (T : Type) where
  /-- `T::nIDs()`, the number of index columns. -/
  nIDs : Nat
  /-- The index whose fields are assigned from the leading columns of a row. -/
  ofIDs : List ℚ → T
  /-- The fields, in the order of `T::ID(n)`. -/
  ids : T → List Int
  /-- `operator==` -/
  eq : T → T → Bool
  /-- `operator<` -/
  lt : T → T → Bool

/-- The index columns of a row that carries index `i`. -/
def idColumns {T : Type} [CalibIndex T] (i : T) : List ℚ :=
  (CalibIndex.ids i).map (fun n : Int => (n : ℚ))

/-- The index type behaves: its comparisons are equality and a strict total
order, and its fields survive the trip through a row. -/
class LawfulCalibIndex (T : Type) [CalibIndex T] : Prop where
  strictTotal : StrictTotal (CalibIndex.lt : T → T → Bool)
  eq_iff : ∀ a b : T, CalibIndex.eq a b = true ↔ a = b
  ids_length : ∀ a : T, (CalibIndex.ids a).length = CalibIndex.nIDs T
  ofIDs_idColumns : ∀ a : T, CalibIndex.ofIDs (idColumns a) = a

attribute [instance] LawfulCalibIndex.strictTotal

/-- Assignment of a `double` to an `int8_t`: the fraction is dropped. -/
def toInt8 (q : ℚ) : Int8 := Int8.ofInt (Int.tdiv q.num q.den)

/-- Assignment of a `double` to a `uint8_t`: the fraction is dropped. -/
def toUInt8 (q : ℚ) : UInt8 := UInt8.ofInt (Int.tdiv q.num q.den)

instance : CalibIndex IntVetoIndex where
  nIDs := 4
  ofIDs row := ⟨toInt8 (row.getD 0 0), toInt8 (row.getD 1 0), toInt8 (row.getD 2 0),
    toInt8 (row.getD 3 0)⟩
  ids i := i.fields.map Int8.toInt
  eq := IntVetoIndex.eq
  lt := IntVetoIndex.lt

instance : CalibIndex ExtVetoIndex where
  nIDs := 4
  ofIDs row := ⟨toInt8 (row.getD 0 0), toInt8 (row.getD 1 0), toInt8 (row.getD 2 0),
    toInt8 (row.getD 3 0)⟩
  ids i := i.fields.map Int8.toInt
  eq := ExtVetoIndex.eq
  lt := ExtVetoIndex.lt

instance : CalibIndex CaloIndex where
  nIDs := 4
  ofIDs row := ⟨toInt8 (row.getD 0 0), toInt8 (row.getD 1 0), toInt8 (row.getD 2 0),
    toInt8 (row.getD 3 0)⟩
  ids i := i.fields.map Int8.toInt
  eq := CaloIndex.eq
  lt := CaloIndex.lt

instance : CalibIndex PaddlesIndex where
  nIDs := 1
  ofIDs row := ⟨toInt8 (row.getD 0 0)⟩
  ids i := i.fields.map Int8.toInt
  eq := PaddlesIndex.eq
  lt := PaddlesIndex.lt

/-- `csc_t` has no `nIDs`: `DAQCalibrationHandler` reads the three columns
itself. -/
instance : CalibIndex Csc where
  nIDs := 3
  ofIDs row := ⟨toUInt8 (row.getD 0 0), toUInt8 (row.getD 1 0), toUInt8 (row.getD 2 0)⟩
  ids i := i.fields.map (fun f => (f.toNat : Int))
  eq := Csc.eq
  lt := Csc.lt

/-- A number of 8 bits with a sign survives the trip through a `double`. -/
theorem toInt8_cast (a : Int8) : toInt8 ((a.toInt : Int) : ℚ) = a := by
  simp [toInt8]

/-- A number of 8 bits without a sign survives the trip through a `double`. -/
theorem toUInt8_cast (a : UInt8) : toUInt8 (a.toNat : ℚ) = a := by
  have hlt : a.toNat < 2 ^ 8 := a.toNat_lt
  have hmod : ((a.toNat : Int) % 256).toNat = a.toNat := by omega
  simp [toUInt8, UInt8.ofInt, hmod]

instance : LawfulCalibIndex IntVetoIndex where
  strictTotal := inferInstanceAs (StrictTotal IntVetoIndex.lt)
  eq_iff := IntVetoIndex.eq_iff
  ids_length _ := rfl
  ofIDs_idColumns i := by
    cases i; simp [idColumns, CalibIndex.ofIDs, CalibIndex.ids, IntVetoIndex.fields, toInt8_cast]

instance : LawfulCalibIndex ExtVetoIndex where
  strictTotal := inferInstanceAs (StrictTotal ExtVetoIndex.lt)
  eq_iff := ExtVetoIndex.eq_iff
  ids_length _ := rfl
  ofIDs_idColumns i := by
    cases i; simp [idColumns, CalibIndex.ofIDs, CalibIndex.ids, ExtVetoIndex.fields, toInt8_cast]

instance : LawfulCalibIndex CaloIndex where
  strictTotal := inferInstanceAs (StrictTotal CaloIndex.lt)
  eq_iff := CaloIndex.eq_iff
  ids_length _ := rfl
  ofIDs_idColumns i := by
    cases i; simp [idColumns, CalibIndex.ofIDs, CalibIndex.ids, CaloIndex.fields, toInt8_cast]

instance : LawfulCalibIndex PaddlesIndex where
  strictTotal := inferInstanceAs (StrictTotal PaddlesIndex.lt)
  eq_iff := PaddlesIndex.eq_iff
  ids_length _ := rfl
  ofIDs_idColumns i := by
    cases i; simp [idColumns, CalibIndex.ofIDs, CalibIndex.ids, PaddlesIndex.fields, toInt8_cast]

instance : LawfulCalibIndex Csc where
  strictTotal := inferInstanceAs (StrictTotal Csc.lt)
  eq_iff := Csc.eq_iff
  ids_length _ := rfl
  ofIDs_idColumns i := by
    cases i; simp [idColumns, CalibIndex.ofIDs, CalibIndex.ids, Csc.fields, toUInt8_cast]

/-! ## §2. The handler. -/

/-- `CalibrationHandlerBase`: the name of the table, whether it was loaded for the
current run, and its rows. -/
structure CalibrationHandlerBase where
  table : String
  hasLoadedCurrentRun : Bool
  rawCalibData : List (List ℚ)
  deriving Repr

/-- `CalibrationHandlerBase(table)`, with the name of the table. -/
def CalibrationHandlerBase.new (table : String) : CalibrationHandlerBase :=
  { table := table, hasLoadedCurrentRun := false, rawCalibData := [] }

/-- `CalibrationHandler<T>`: the map of the constants, and the two vectors in
which answers are kept. -/
structure CalibrationHandler (T : Type) [CalibIndex T] extends CalibrationHandlerBase where
  calib : OrderedMap (CalibIndex.lt : T → T → Bool) (List ℚ)
  actualCalib : List (List ℚ)
  actualCalibIndex : List T

namespace CalibrationHandler

variable {T : Type} [CalibIndex T]

/-- `CalibrationHandler<T>(name)`, with an empty map and nothing kept. -/
def new (name : String) : CalibrationHandler T :=
  { CalibrationHandlerBase.new name with
    calib := ∅, actualCalib := [], actualCalibIndex := [] }

/-- The loop over the rows in `fillCalib`: the map so far, the number of data
columns of the row before (`none` at the first row), the rows left. -/
def fillRows (m : OrderedMap (CalibIndex.lt : T → T → Bool) (List ℚ)) :
    Option Int → List (List ℚ) →
      JError × OrderedMap (CalibIndex.lt : T → T → Bool) (List ℚ)
  | _, [] => (.NOERROR, m)
  | prevNdata, row :: rows =>
      let nData : Int := (row.length : Int) - CalibIndex.nIDs T
      if nData ≤ 0 then
        (.VALUE_OUT_OF_RANGE, ∅)
      else if prevNdata.any (fun prev => nData ≠ prev) then
        (.VALUE_OUT_OF_RANGE, ∅)
      else
        let index : T := CalibIndex.ofIDs (row.take (CalibIndex.nIDs T))
        let data := row.drop (CalibIndex.nIDs T)
        -- an index seen before keeps its first entry
        fillRows (m.insertIfNew index data) (some nData) rows

/-- `CalibrationHandler<T>::fillCalib`: the map is filled anew from the rows; the
two vectors are not touched. -/
def fillCalib (h : CalibrationHandler T) (calib_data : List (List ℚ)) :
    JError × CalibrationHandler T :=
  let (err, calib) := fillRows ∅ none calib_data
  (err, { h with rawCalibData := calib_data, calib := calib })

/-- `CalibrationHandler<T>::getCalib`: the answer kept for the index, or else the
entry of the map, which is kept from then on. -/
def getCalib (h : CalibrationHandler T) (index : T) : List ℚ × CalibrationHandler T :=
  match h.actualCalibIndex.findIdx? (fun i => CalibIndex.eq i index) with
  | some pos => (h.actualCalib.getD pos [], h)
  | none =>
      match h.calib[index]? with
      | none => ([], h)
      | some data =>
          (data,
            { h with
              actualCalibIndex := h.actualCalibIndex ++ [index]
              actualCalib := h.actualCalib ++ [data] })

/-- `CalibrationHandler<T>::operator[]`, which is `getCalib`. -/
def index (h : CalibrationHandler T) (index : T) : List ℚ × CalibrationHandler T :=
  h.getCalib index

/-- `CalibrationHandler<T>::getCalibSingle`: 0 unless there is exactly one
column. -/
def getCalibSingle (h : CalibrationHandler T) (index : T) : ℚ × CalibrationHandler T :=
  match h.getCalib index with
  | ([x], h') => (x, h')
  | (_, h') => (0, h')

end CalibrationHandler

/-- `DAQCalibrationHandler`: the same code over `csc_t`. -/
abbrev DAQCalibrationHandler := CalibrationHandler Csc

namespace DAQCalibrationHandler

/-- `DAQCalibrationHandler::fillCalib`, with the columns of crate, slot
and channel. -/
def fillCalib (h : DAQCalibrationHandler) (calib_data : List (List ℚ)) :
    JError × DAQCalibrationHandler :=
  CalibrationHandler.fillCalib h calib_data

/-- `DAQCalibrationHandler::getCalib`, of a crate, slot and channel. -/
def getCalib (h : DAQCalibrationHandler) (index : Csc) : List ℚ × DAQCalibrationHandler :=
  CalibrationHandler.getCalib h index

/-- `DAQCalibrationHandler::operator[]`, which is `getCalib`. -/
def index (h : DAQCalibrationHandler) (index : Csc) : List ℚ × DAQCalibrationHandler :=
  getCalib h index

/-- `DAQCalibrationHandler::getCalibSingle` returns an error code where the
generic handler returns 0. -/
def getCalibSingle (h : DAQCalibrationHandler) (index : Csc) : ℚ × DAQCalibrationHandler :=
  match getCalib h index with
  | ([x], h') => (x, h')
  | (_, h') => (JError.VALUE_OUT_OF_RANGE.value, h')

end DAQCalibrationHandler

/-! ## §3. What a table says. -/

section Table

variable (T : Type) [CalibIndex T]

/-- A table whose rows start with integers that fit the index fields, as the
database delivers it. -/
structure CalibTable where
  rows : List (List ℚ)
  fits : ∀ row ∈ rows, CalibIndex.nIDs T ≤ row.length →
    ∃ i : T, row.take (CalibIndex.nIDs T) = idColumns i

/-- Every row has at least one data column and all have equally many; other tables
are rejected. -/
def Accepted (rows : List (List ℚ)) : Prop :=
  ∀ row ∈ rows, CalibIndex.nIDs T < row.length ∧ ∀ row' ∈ rows, row'.length = row.length

instance (rows : List (List ℚ)) : Decidable (Accepted T rows) :=
  inferInstanceAs (Decidable (∀ row ∈ rows, _ ∧ ∀ row' ∈ rows, _))

variable {T}

/-- The row carries index `i` in its first columns. -/
def rowHasIndex (i : T) (row : List ℚ) : Bool :=
  row.take (CalibIndex.nIDs T) = idColumns i

/-- **The answer a table gives for an index**: the data columns of the first
row with that index, nothing when there is none or the table is rejected. -/
def tableAnswer (rows : List (List ℚ)) (i : T) : List ℚ :=
  if Accepted T rows then
    match rows.find? (rowHasIndex i) with
    | some row => row.drop (CalibIndex.nIDs T)
    | none => []
  else []

end Table

section Lookup

variable {T : Type} [CalibIndex T]

/-- The rows of a table, the first one after a row with `prev` data columns,
pass the two checks of `fillCalib`. -/
def RowsPass (T : Type) [CalibIndex T] (prev : Option Int) (rows : List (List ℚ)) : Prop :=
  ∀ row ∈ rows, CalibIndex.nIDs T < row.length
    ∧ (∀ p ∈ prev, (row.length : Int) - CalibIndex.nIDs T = p)
    ∧ ∀ row' ∈ rows, row'.length = row.length

/-- The rows of a whole table pass the checks exactly when the table is accepted. -/
theorem rowsPass_none {rows : List (List ℚ)} : RowsPass T none rows ↔ Accepted T rows := by
  simp [RowsPass, Accepted]

/-- The rows pass the checks when the first one does and the others do behind it. -/
theorem rowsPass_cons {prev : Option Int} {row : List ℚ} {rows : List (List ℚ)} :
    RowsPass T prev (row :: rows)
      ↔ CalibIndex.nIDs T < row.length
        ∧ (∀ p ∈ prev, (row.length : Int) - CalibIndex.nIDs T = p)
        ∧ RowsPass T (some ((row.length : Int) - CalibIndex.nIDs T)) rows := by
  constructor
  · intro h
    obtain ⟨hlt, hprev, hsame⟩ := h row (by simp)
    refine ⟨hlt, hprev, fun row' hrow' => ?_⟩
    obtain ⟨hlt', -, hsame'⟩ := h row' (by simp [hrow'])
    refine ⟨hlt', ?_, fun r hr => hsame' r (by simp [hr])⟩
    intro p hp
    cases hp
    rw [hsame row' (by simp [hrow'])]
  · rintro ⟨hlt, hprev, hrest⟩
    -- every later row is as long as this one
    have hlen : ∀ r ∈ rows, r.length = row.length := fun r hr => by
      have := (hrest r hr).2.1 _ rfl
      omega
    intro row' hrow'
    rcases List.mem_cons.mp hrow' with rfl | hmem
    · refine ⟨hlt, hprev, fun r hr => ?_⟩
      rcases List.mem_cons.mp hr with rfl | hr
      · rfl
      · exact hlen r hr
    · refine ⟨(hrest row' hmem).1, fun p hp => by rw [hlen row' hmem, hprev p hp], fun r hr => ?_⟩
      rcases List.mem_cons.mp hr with rfl | hr
      · exact (hlen row' hmem).symm
      · rw [hlen r hr, hlen row' hmem]

/-- The map after the rows of an accepted table have been inserted. -/
def insertRows (m : OrderedMap (CalibIndex.lt : T → T → Bool) (List ℚ))
    (rows : List (List ℚ)) : OrderedMap (CalibIndex.lt : T → T → Bool) (List ℚ) :=
  rows.foldl (fun m row => m.insertIfNew (CalibIndex.ofIDs (row.take (CalibIndex.nIDs T)))
    (row.drop (CalibIndex.nIDs T))) m

/-- Where all rows pass the checks, the loop inserts every one of them. -/
theorem fillRows_of_pass {m : OrderedMap (CalibIndex.lt : T → T → Bool) (List ℚ)} :
    ∀ {prev : Option Int} {rows : List (List ℚ)}, RowsPass T prev rows →
      CalibrationHandler.fillRows m prev rows = (.NOERROR, insertRows m rows)
  | _, [], _ => rfl
  | prev, row :: rows, h => by
      obtain ⟨hlt, hprev, hrest⟩ := rowsPass_cons.mp h
      have hpos : ¬ (row.length : Int) - CalibIndex.nIDs T ≤ 0 := by omega
      -- both checks pass, so the row is inserted
      have hsame : ¬ (prev.any fun p => (row.length : Int) - CalibIndex.nIDs T ≠ p) = true := by
        cases prev with
        | none => simp
        | some p => simp [hprev p rfl]
      unfold CalibrationHandler.fillRows
      simp only [hpos, hsame, if_false]
      exact fillRows_of_pass hrest

/-- Where a row does not pass the checks, `fillCalib` returns an error and the
map is empty. -/
theorem fillRows_of_not_pass :
    ∀ {m : OrderedMap (CalibIndex.lt : T → T → Bool) (List ℚ)} {prev : Option Int}
      {rows : List (List ℚ)}, ¬ RowsPass T prev rows →
      CalibrationHandler.fillRows m prev rows = (.VALUE_OUT_OF_RANGE, ∅)
  | _, _, [], h => absurd (fun row hrow => by cases hrow) h
  | m, prev, row :: rows, h => by
      unfold CalibrationHandler.fillRows
      by_cases hpos : (row.length : Int) - CalibIndex.nIDs T ≤ 0
      · simp only [hpos, if_true]
      · by_cases hsame : (prev.any fun p => (row.length : Int) - CalibIndex.nIDs T ≠ p) = true
        · simp only [hpos, hsame, if_true, if_false]
        · simp only [hpos, hsame, if_false]
          refine fillRows_of_not_pass (fun hrest => h (rowsPass_cons.mpr ⟨by omega, ?_, hrest⟩))
          rintro p rfl
          simpa using hsame

variable [LawfulCalibIndex T]

/-- On a row that fits, the index `fillCalib` builds is the index the row
carries. -/
theorem ofIDs_eq_iff_rowHasIndex {row : List ℚ} {i : T}
    (hfit : ∃ j : T, row.take (CalibIndex.nIDs T) = idColumns j) :
    CalibIndex.ofIDs (row.take (CalibIndex.nIDs T)) = i ↔ rowHasIndex i row = true := by
  obtain ⟨j, hj⟩ := hfit
  unfold rowHasIndex
  rw [decide_eq_true_iff, hj, LawfulCalibIndex.ofIDs_idColumns]
  constructor
  · intro h
    rw [h]
  · intro h
    rw [← LawfulCalibIndex.ofIDs_idColumns j, h, LawfulCalibIndex.ofIDs_idColumns]

/-- The index that `fillCalib` builds from the row is `i`, whether or not the row
fits the index fields. -/
def rowGivesIndex (i : T) (row : List ℚ) : Bool :=
  CalibIndex.eq (CalibIndex.ofIDs (row.take (CalibIndex.nIDs T))) i

/-- The test on a row says what index is built from it. -/
theorem rowGivesIndex_iff {i : T} {row : List ℚ} :
    rowGivesIndex i row = true ↔ CalibIndex.ofIDs (row.take (CalibIndex.nIDs T)) = i :=
  LawfulCalibIndex.eq_iff _ _

/-- Inserting rows never overrides: the first row with an index wins, after
what the map held before. -/
theorem getElem?_insertRows (i : T) :
    ∀ {rows : List (List ℚ)} {m : OrderedMap (CalibIndex.lt : T → T → Bool) (List ℚ)},
      (insertRows m rows)[i]? =
        (m[i]?).or ((rows.find? (rowGivesIndex i)).map (·.drop (CalibIndex.nIDs T)))
  | [], m => by simp [insertRows]
  | row :: rows, m => by
      show (insertRows (m.insertIfNew _ _) rows)[i]? = _
      rw [getElem?_insertRows i]
      -- a row of `i` counts only when the map has nothing under `i`
      by_cases hi : CalibIndex.ofIDs (row.take (CalibIndex.nIDs T)) = i
      · rw [List.find?_cons_of_pos (rowGivesIndex_iff.mpr hi), hi]
        cases hm : m[i]? with
        | some v =>
            rw [OrderedMap.getElem?_insertIfNew_of_some hm]
            rfl
        | none =>
            rw [OrderedMap.getElem?_insertIfNew_self_of_none hm]
            rfl
      · rw [List.find?_cons_of_neg (fun h => hi (rowGivesIndex_iff.mp h)),
          OrderedMap.getElem?_insertIfNew_of_ne hi]

/-- On rows that fit, the first row that gives an index is the first one that
carries it. -/
theorem find?_rowGivesIndex (i : T) {rows : List (List ℚ)}
    (hfit : ∀ row ∈ rows, ∃ j : T, row.take (CalibIndex.nIDs T) = idColumns j) :
    rows.find? (rowGivesIndex i) = rows.find? (rowHasIndex i) := by
  refine List.find?_congr fun row hrow => Bool.eq_iff_iff.mpr ?_
  rw [← ofIDs_eq_iff_rowHasIndex (hfit row hrow)]
  exact rowGivesIndex_iff

/-- The map after an accepted table holds for an index the data columns of the
first row that gives it. -/
theorem getElem?_fillCalib_of_accepted (h : CalibrationHandler T) {rows : List (List ℚ)}
    (hacc : Accepted T rows) (i : T) :
    (h.fillCalib rows).2.calib[i]?
      = (rows.find? (rowGivesIndex i)).map (·.drop (CalibIndex.nIDs T)) := by
  unfold CalibrationHandler.fillCalib
  rw [fillRows_of_pass (rowsPass_none.mpr hacc)]
  show (insertRows ∅ rows)[i]? = _
  rw [getElem?_insertRows i]
  simp

/-- **The map after `fillCalib` is the table**, rejected tables included. -/
theorem getElem?_fillCalib (h : CalibrationHandler T) (tbl : CalibTable T) (i : T) :
    ((h.fillCalib tbl.rows).2.calib[i]?).getD [] = tableAnswer tbl.rows i := by
  unfold tableAnswer
  by_cases hacc : Accepted T tbl.rows
  · rw [getElem?_fillCalib_of_accepted h hacc, if_pos hacc, find?_rowGivesIndex i
      (fun row hrow => tbl.fits row hrow (Nat.le_of_lt (hacc row hrow).1))]
    cases tbl.rows.find? (rowHasIndex i) <;> rfl
  · unfold CalibrationHandler.fillCalib
    rw [fillRows_of_not_pass (fun hp => hacc (rowsPass_none.mp hp)), if_neg hacc]
    simp

end Lookup

/-! ## §4. A session: any sequence of fills and lookups. -/

/-- The calls a user of a handler can make. -/
inductive Call (T : Type) [CalibIndex T] where
  | fillCalib (tbl : CalibTable T)
  | getCalib (i : T)
  | index (i : T)
  | getCalibSingle (i : T)

/-- A handler together with the table given to its most recent `fillCalib`
(no rows before the first one). -/
structure Session (T : Type) [CalibIndex T] where
  handler : CalibrationHandler T
  given : List (List ℚ)

namespace Session

variable {T : Type} [CalibIndex T]

/-- A session at its start, before any table was given. -/
def start (name : String) : Session T := { handler := .new name, given := [] }

/-- A call is made, and the handler is what the call leaves. -/
def exec (s : Session T) : Call T → Option (Session T)
  | .fillCalib tbl => some { handler := (s.handler.fillCalib tbl.rows).2, given := tbl.rows }
  | .getCalib i => some { s with handler := (s.handler.getCalib i).2 }
  | .index i => some { s with handler := (s.handler.index i).2 }
  | .getCalibSingle i => some { s with handler := (s.handler.getCalibSingle i).2 }

/-- `i` has been answered before, with `data`. -/
def Answered (s : Session T) (i : T) (data : List ℚ) : Prop :=
  (i, data) ∈ s.handler.actualCalibIndex.zip s.handler.actualCalib

/-- Every lookup in the state reached returns what the most recent table says. -/
def Coherent (s : Session T) : Prop :=
  ∀ i, (s.handler.getCalib i).1 = tableAnswer s.given i

/-- A `fillCalib` call is given a table that repeats every answer given so
far; the other calls are free. -/
def RefillAgrees (s : Session T) : Call T → Prop
  | .fillCalib tbl => ∀ i data, s.Answered i data → tableAnswer tbl.rows i = data
  | _ => True

/-- The invariant of every session: the map is the table, and the two cache
vectors are parallel and without repeated indices. -/
structure Inv (s : Session T) : Prop where
  map_is_table : ∀ i : T, (s.handler.calib[i]?).getD [] = tableAnswer s.given i
  parallel : s.handler.actualCalibIndex.length = s.handler.actualCalib.length
  distinct : s.handler.actualCalibIndex.Nodup

variable [LawfulCalibIndex T]

/-- `std::find` on the index vector gives the position of the pair. -/
theorem findIdx?_of_mem_zip {i : T} {data : List ℚ} :
    ∀ {is : List T} {vs : List (List ℚ)}, is.Nodup → (i, data) ∈ is.zip vs →
      ∃ pos, is.findIdx? (fun j => CalibIndex.eq j i) = some pos ∧ vs.getD pos [] = data
  | [], _, _, h => by simp at h
  | _ :: _, [], _, h => by simp at h
  | j :: is, v :: vs, hnd, h => by
      obtain ⟨hj, hnd'⟩ := List.nodup_cons.mp hnd
      rw [List.zip_cons_cons, List.mem_cons, Prod.mk.injEq] at h
      rw [List.findIdx?_cons]
      rcases h with ⟨rfl, rfl⟩ | h
      · refine ⟨0, ?_, rfl⟩
        rw [if_pos ((LawfulCalibIndex.eq_iff i i).mpr rfl)]
      · have hne : ¬ CalibIndex.eq j i = true := fun he => by
          rw [LawfulCalibIndex.eq_iff] at he
          exact hj (he ▸ (List.of_mem_zip h).1)
        obtain ⟨pos, hpos, hv⟩ := findIdx?_of_mem_zip hnd' h
        refine ⟨pos + 1, ?_, by simpa using hv⟩
        rw [if_neg hne, hpos]
        rfl

/-- A pair of an index and its answer stands at the position that
`std::find` gives. -/
theorem mem_zip_of_findIdx? {i : T} :
    ∀ {is : List T} {vs : List (List ℚ)} {pos : Nat}, is.length = vs.length →
      is.findIdx? (fun j => CalibIndex.eq j i) = some pos →
      (i, vs.getD pos []) ∈ is.zip vs
  | [], _, _, _, h => by simp at h
  | _ :: _, [], _, hlen, _ => by simp at hlen
  | j :: is, v :: vs, pos, hlen, h => by
      rw [List.findIdx?_cons] at h
      by_cases he : CalibIndex.eq j i = true
      · rw [if_pos he, Option.some.injEq] at h
        rw [LawfulCalibIndex.eq_iff] at he
        subst he h
        simp
      · rw [if_neg he, Option.map_eq_some_iff] at h
        obtain ⟨pos', hpos', rfl⟩ := h
        have := mem_zip_of_findIdx? (by simpa using hlen) hpos'
        simp only [List.zip_cons_cons, List.mem_cons, List.getD_cons_succ]
        exact Or.inr this

/-- An index answered before is answered from the cache, and the handler
stays as it is. -/
theorem getCalib_of_answered {s : Session T} (hinv : s.Inv) {i : T} {data : List ℚ}
    (h : s.Answered i data) : s.handler.getCalib i = (data, s.handler) := by
  obtain ⟨pos, hpos, hdata⟩ := findIdx?_of_mem_zip hinv.distinct h
  unfold CalibrationHandler.getCalib
  rw [hpos]
  show (s.handler.actualCalib.getD pos [], s.handler) = _
  rw [hdata]

/-- An index not answered yet is not in the index vector. -/
theorem findIdx?_of_not_answered {s : Session T} (hinv : s.Inv) {i : T}
    (h : ∀ data, ¬ s.Answered i data) :
    s.handler.actualCalibIndex.findIdx? (fun j => CalibIndex.eq j i) = none := by
  cases hpos : s.handler.actualCalibIndex.findIdx? (fun j => CalibIndex.eq j i) with
  | none => rfl
  | some pos => exact absurd (mem_zip_of_findIdx? hinv.parallel hpos) (h _)

/-- Any other index is answered from the map. -/
theorem getCalib_fst_of_not_answered {s : Session T} (hinv : s.Inv) {i : T}
    (h : ∀ data, ¬ s.Answered i data) :
    (s.handler.getCalib i).1 = tableAnswer s.given i := by
  rw [← hinv.map_is_table i]
  unfold CalibrationHandler.getCalib
  rw [findIdx?_of_not_answered hinv h]
  cases s.handler.calib[i]? <;> rfl

/-- **Coherence is agreement of the cache with the table.** -/
theorem coherent_iff {s : Session T} (hinv : s.Inv) :
    s.Coherent ↔ ∀ i data, s.Answered i data → tableAnswer s.given i = data := by
  constructor
  · intro hco i data h
    rw [← hco i, getCalib_of_answered hinv h]
  · intro hag i
    by_cases h : ∃ data, s.Answered i data
    · obtain ⟨data, h⟩ := h
      rw [getCalib_of_answered hinv h, hag i data h]
    · exact getCalib_fst_of_not_answered hinv (fun data hd => h ⟨data, hd⟩)

/-! ## §5. One call. -/

/-- The session after a lookup, which can have kept the answer. -/
def lookup (s : Session T) (i : T) : Session T :=
  { s with handler := (s.handler.getCalib i).2 }

/-- A lookup changes nothing, or remembers a map entry for a new index. -/
theorem lookup_cases {s : Session T} (hinv : s.Inv) (i : T) :
    s.lookup i = s ∨ ∃ data, s.handler.calib[i]? = some data
      ∧ i ∉ s.handler.actualCalibIndex
      ∧ s.lookup i = { s with handler := { s.handler with
          actualCalibIndex := s.handler.actualCalibIndex ++ [i]
          actualCalib := s.handler.actualCalib ++ [data] } } := by
  by_cases h : ∃ data, s.Answered i data
  · obtain ⟨data, h⟩ := h
    refine Or.inl ?_
    unfold lookup
    rw [getCalib_of_answered hinv h]
  · have hnone := findIdx?_of_not_answered hinv (fun data hd => h ⟨data, hd⟩)
    unfold lookup CalibrationHandler.getCalib
    rw [hnone]
    cases hm : s.handler.calib[i]? with
    | none => exact Or.inl rfl
    | some data =>
        refine Or.inr ⟨data, rfl, fun hmem => ?_, rfl⟩
        have := List.findIdx?_eq_none_iff.mp hnone i hmem
        rw [(LawfulCalibIndex.eq_iff i i).mpr rfl] at this
        cases this

/-- A lookup keeps the invariant. -/
theorem lookup_inv {s : Session T} (hinv : s.Inv) (i : T) : (s.lookup i).Inv := by
  rcases lookup_cases hinv i with h | ⟨data, -, hi, h⟩
  · rw [h]
    exact hinv
  · rw [h]
    refine ⟨hinv.map_is_table, ?_, ?_⟩
    · simp [hinv.parallel]
    · simpa [List.nodup_append] using ⟨hinv.distinct, fun a ha he => hi (he ▸ ha)⟩

/-- A lookup keeps coherence: it keeps only what the table says. -/
theorem lookup_coherent {s : Session T} (hinv : s.Inv) (hco : s.Coherent) (i : T) :
    (s.lookup i).Coherent := by
  -- the one new answer is a map entry, and the map is the table
  rw [coherent_iff (lookup_inv hinv i)]
  rw [coherent_iff hinv] at hco
  rcases lookup_cases hinv i with h | ⟨data, hm, -, h⟩
  · rw [h]
    exact hco
  · rw [h]
    intro j d hj
    unfold Answered at hj
    rw [List.zip_append hinv.parallel, List.mem_append] at hj
    rcases hj with hj | hj
    · exact hco j d hj
    · obtain ⟨rfl, rfl⟩ : j = i ∧ d = data := by simpa using hj
      show tableAnswer s.given j = d
      rw [← hinv.map_is_table j, hm]
      rfl

/-- A refill keeps the invariant: the map is the new table, and the cache is
as it was. -/
theorem fill_inv {s : Session T} (hinv : s.Inv) (tbl : CalibTable T) :
    Inv { handler := (s.handler.fillCalib tbl.rows).2, given := tbl.rows } where
  map_is_table i := getElem?_fillCalib s.handler tbl i
  parallel := hinv.parallel
  distinct := hinv.distinct

omit [LawfulCalibIndex T] in
/-- `getCalibSingle` changes the handler as `getCalib` does. -/
theorem getCalibSingle_snd (h : CalibrationHandler T) (i : T) :
    (h.getCalibSingle i).2 = (h.getCalib i).2 := by
  unfold CalibrationHandler.getCalibSingle
  rcases h.getCalib i with ⟨_ | ⟨x, _ | ⟨y, l⟩⟩, h'⟩ <;> rfl

omit [LawfulCalibIndex T] in
/-- A call is a refill or a lookup, and nothing else changes the handler. -/
theorem exec_cases {s s' : Session T} {c : Call T} (h : s.exec c = some s') :
    (∃ tbl, c = .fillCalib tbl
        ∧ s' = { handler := (s.handler.fillCalib tbl.rows).2, given := tbl.rows })
      ∨ (∃ i, s' = s.lookup i ∧ (∀ s : Session T, s.RefillAgrees c)) := by
  cases c with
  | fillCalib tbl => exact Or.inl ⟨tbl, rfl, (Option.some.inj h).symm⟩
  | getCalib i => exact Or.inr ⟨i, (Option.some.inj h).symm, fun _ => trivial⟩
  | index i => exact Or.inr ⟨i, (Option.some.inj h).symm, fun _ => trivial⟩
  | getCalibSingle i =>
      refine Or.inr ⟨i, ?_, fun _ => trivial⟩
      rw [← Option.some.inj h, getCalibSingle_snd]
      rfl

/-- Every call keeps the invariant. -/
theorem exec_inv {s s' : Session T} {c : Call T} (hinv : s.Inv) (h : s.exec c = some s') :
    s'.Inv := by
  rcases exec_cases h with ⟨tbl, -, rfl⟩ | ⟨i, rfl, -⟩
  · exact fill_inv hinv tbl
  · exact lookup_inv hinv i

/-- **One call keeps coherence exactly when a refill agrees with the
cache.** -/
theorem exec_coherent_iff {s s' : Session T} {c : Call T} (hinv : s.Inv) (hco : s.Coherent)
    (h : s.exec c = some s') : s'.Coherent ↔ s.RefillAgrees c := by
  rcases exec_cases h with ⟨tbl, rfl, rfl⟩ | ⟨i, rfl, hfree⟩
  · exact coherent_iff (fill_inv hinv tbl)
  · exact ⟨fun _ => hfree s, fun _ => lookup_coherent hinv hco i⟩

/-- The invariant holds before the first call. -/
theorem start_inv (name : String) : (start name : Session T).Inv where
  map_is_table i := by
    show ((∅ : OrderedMap _ _)[i]?).getD [] = tableAnswer [] i
    unfold tableAnswer
    simp
  parallel := rfl
  distinct := List.nodup_nil

/-- Before the first call every lookup finds nothing, as there is no table. -/
theorem start_coherent (name : String) : (start name : Session T).Coherent :=
  (coherent_iff (start_inv name)).mpr (fun i data h => by
    simp [Answered, start, CalibrationHandler.new] at h)

/-! ## §6. Whole sessions. -/

/-- A session stays coherent exactly when its refills agree with the cache. -/
theorem coherent_iff_refillAgrees (name : String) (calls : List (Call T)) :
    StatesMeet exec Coherent (start name) calls
      ↔ StepsMeet exec RefillAgrees (start name) calls :=
  statesMeet_iff_stepsMeet (fun _ _ _ => exec_inv) (fun _ _ _ => exec_coherent_iff)
    (start_inv name) (start_coherent name)

end Session

/-- A call of a session of a `DAQCalibrationHandler`. -/
def DAQCalibrationHandler.exec (s : Session Csc) : Call Csc → Option (Session Csc)
  | .fillCalib tbl =>
      some { handler := (DAQCalibrationHandler.fillCalib s.handler tbl.rows).2, given := tbl.rows }
  | .getCalib i => some { s with handler := (DAQCalibrationHandler.getCalib s.handler i).2 }
  | .index i => some { s with handler := (DAQCalibrationHandler.index s.handler i).2 }
  | .getCalibSingle i =>
      some { s with handler := (DAQCalibrationHandler.getCalibSingle s.handler i).2 }

/-- Every lookup in a `DAQCalibrationHandler` returns what the most recent
table says. -/
def DAQCalibrationHandler.Coherent (s : Session Csc) : Prop :=
  ∀ i, (DAQCalibrationHandler.getCalib s.handler i).1 = tableAnswer s.given i

/-- The other error value of `getCalibSingle` does not reach the handler. -/
theorem DAQCalibrationHandler.exec_eq : DAQCalibrationHandler.exec = Session.exec := by
  funext s c
  cases c with
  | getCalibSingle i =>
      show some { s with handler := _ } = some { s with handler := _ }
      rw [Session.getCalibSingle_snd]
      unfold DAQCalibrationHandler.getCalibSingle DAQCalibrationHandler.getCalib
      rcases CalibrationHandler.getCalib s.handler i with ⟨_ | ⟨x, _ | ⟨y, l⟩⟩, h'⟩ <;> rfl
  | _ => rfl

/-- **CALIBRATION STORE COHERENCE.**  For every index type, and for
`DAQCalibrationHandler`: through a session every lookup returns what the most
recent table says, if and only if every table filled in repeats the answers
given before it. -/
theorem coherent_iff_refills_agree (T : Type) [CalibIndex T] [LawfulCalibIndex T] (name : String)
    (calls : List (Call T)) (daqCalls : List (Call Csc)) :
    (StatesMeet Session.exec Session.Coherent (Session.start name) calls
        ↔ StepsMeet Session.exec Session.RefillAgrees (Session.start name) calls)
      ∧ (StatesMeet DAQCalibrationHandler.exec DAQCalibrationHandler.Coherent
            (Session.start name) daqCalls
          ↔ StepsMeet DAQCalibrationHandler.exec Session.RefillAgrees
            (Session.start name) daqCalls) := by
  refine ⟨Session.coherent_iff_refillAgrees name calls, ?_⟩
  rw [DAQCalibrationHandler.exec_eq]
  exact Session.coherent_iff_refillAgrees name daqCalls

/-- A table with one row: the sipm (0, 0, 2, 1) and its one constant. -/
def oneSipmTable (x : ℚ) : CalibTable IntVetoIndex where
  rows := [[0, 0, 2, 1, x]]
  fits row hrow _ := ⟨⟨0, 0, 2, 1⟩, by
    rw [List.mem_singleton.mp hrow]
    rfl⟩

/-- A refill with the same table keeps a session coherent. -/
theorem refill_with_same_table_coherent :
    StatesMeet Session.exec Session.Coherent (Session.start "/InnerVeto/sipm_gain")
      [.fillCalib (oneSipmTable 7), .getCalib ⟨0, 0, 2, 1⟩, .fillCalib (oneSipmTable 7)] := by
  refine (coherent_iff_refills_agree IntVetoIndex _ _ []).1.mpr ?_
  intro s₁ h₁
  injection h₁ with h₁
  subst h₁
  refine ⟨fun i data h => (by cases h), fun s₂ h₂ => ⟨trivial, fun s₃ h₃ => ⟨?_, trivial⟩⟩⟩
  injection h₂ with h₂
  subst h₂
  intro i data h
  have h' : (i, data) ∈ [((⟨0, 0, 2, 1⟩ : IntVetoIndex), [(7 : ℚ)])] := h
  obtain ⟨rfl, rfl⟩ := Prod.mk.inj (List.mem_singleton.mp h')
  decide

/-- A table with one row: channel (1, 3, 0) and its one constant. -/
def oneChannelTable (x : ℚ) : CalibTable Csc where
  rows := [[1, 3, 0, x]]
  fits row hrow _ := ⟨⟨1, 3, 0⟩, by
    rw [List.mem_singleton.mp hrow]
    rfl⟩

/-- A run change on a channel already seen: the handler is filled with 7, asked,
filled with 8, and still answers 7. -/
theorem refill_after_lookup_is_stale :
    ¬ StatesMeet DAQCalibrationHandler.exec DAQCalibrationHandler.Coherent
        (Session.start "/DAQ/pedestals")
        [.fillCalib (oneChannelTable 7), .getCalib ⟨1, 3, 0⟩, .fillCalib (oneChannelTable 8)] := by
  intro h
  have hlast := StatesMeet.last h rfl
  have hstale := hlast ⟨1, 3, 0⟩
  revert hstale
  decide

end PokerReco.System
