/-
  PokerReco.System.CalibrationRegistry
  ────────────────────────────────────
  **THE SHARED REGISTRY OF CALIBRATION HANDLERS**
  (`BDXEventProcessor::addCalibration / updateCalibration / clearCalibration`).

  The event processor keeps, for each table name, the handlers that the
  factories of all threads registered for it.  A factory's `init` adds its
  handler, its `brun` asks for an update and its `erun` for a clear.

      updateCalibration   all flagged            nothing to do
                          some flagged           copy the last flagged one
                          none flagged           read the database
      clearCalibration    every flag of the table goes down

  Each operation gets one equation that says what it does to every handler;
  the modules on threads and on runs use these and never open the loops.
-/
import PokerReco.System.CalibrationHandler

namespace PokerReco.System

open PokerReco.Library

/-! ## §1. The base of a handler, as the registry sees it. -/

namespace CalibrationHandlerBase

/-- `setLoadedCurrentRun`: the flag of the handler is set, and nothing
else changes. -/
def setLoadedCurrentRun (h : CalibrationHandlerBase) (loaded : Bool) : CalibrationHandlerBase :=
  { h with hasLoadedCurrentRun := loaded }

/-- What `fillCalib` does to the base part of a handler: the raw table is
stored, also when its rows are rejected. -/
def fillCalib (h : CalibrationHandlerBase) (calib_data : List (List ℚ)) :
    CalibrationHandlerBase :=
  { h with rawCalibData := calib_data }

end CalibrationHandlerBase

/-! ## §2. The registry and its operations. -/

/-- `m_calibrations`, with the handlers its pointers point to.  A name that is
not in the map has no handlers. -/
structure Registry (η : Type) where
  calibrations : String → List η
  handlers : η → CalibrationHandlerBase

namespace Registry

variable {η : Type} [DecidableEq η]

/-- `addCalibration`: the handler is filed under the name of its table, behind the
others of it. -/
def addCalibration (reg : Registry η) (cal : η) : Registry η :=
  let name := (reg.handlers cal).table
  { reg with
    calibrations := Function.update reg.calibrations name (reg.calibrations name ++ [cal]) }

/-- The loop that looks for loaded handlers: `flagAll`, and the position of
the last loaded one with the handler found there (`calibratedOne`). -/
def scan (hs : η → CalibrationHandlerBase) :
    Nat → Bool → Option (Nat × η) → List η → Bool × Option (Nat × η)
  | _, flagAll, calibratedOne, [] => (flagAll, calibratedOne)
  | pos, flagAll, calibratedOne, c :: cs =>
      if (hs c).hasLoadedCurrentRun = false then scan hs (pos + 1) false calibratedOne cs
      else scan hs (pos + 1) flagAll (some (pos, c)) cs

/-- One handler is filled with a raw table and its flag is raised. -/
def load (calib_data : List (List ℚ)) (h : CalibrationHandlerBase) : CalibrationHandlerBase :=
  (h.fillCalib calib_data).setLoadedCurrentRun true

/-- The loop that copies from `calibrations[calibratedOne]`. -/
def copyFrom (calibratedOne : Nat) (src : η) :
    Nat → List η → (η → CalibrationHandlerBase) → η → CalibrationHandlerBase
  | _, [], hs => hs
  | ical, c :: cs, hs =>
      if ical = calibratedOne then copyFrom calibratedOne src (ical + 1) cs hs
      else if (hs c).hasLoadedCurrentRun = true then copyFrom calibratedOne src (ical + 1) cs hs
      else
        copyFrom calibratedOne src (ical + 1) cs
          (Function.update hs c (load (hs src).rawCalibData (hs c)))

/-- `f` is applied to the handlers of a list, one after another. -/
def forEach (f : CalibrationHandlerBase → CalibrationHandlerBase) (cs : List η)
    (hs : η → CalibrationHandlerBase) : η → CalibrationHandlerBase :=
  cs.foldl (fun hs c => Function.update hs c (f (hs c))) hs

/-- `updateCalibration`, called by a loop whose current run is `run`; `table`
is the calibration database that `GetCalib` reads. -/
def updateCalibration (table : String → Int → List (List ℚ)) (run : Int) (reg : Registry η)
    (cal : η) : Registry η :=
  let name := (reg.handlers cal).table
  let calibrations := reg.calibrations name
  if cal ∉ calibrations then reg
  else
    match scan reg.handlers 0 true none calibrations with
    | (true, _) => reg
    | (false, some (calibratedOne, src)) =>
        { reg with handlers := copyFrom calibratedOne src 0 calibrations reg.handlers }
    | (false, none) =>
        { reg with handlers := forEach (load (table name run)) calibrations reg.handlers }

/-- `clearCalibration`: the flags of all handlers of the table are taken down. -/
def clearCalibration (reg : Registry η) (cal : η) : Registry η :=
  let calibrations := reg.calibrations (reg.handlers cal).table
  if cal ∉ calibrations then reg
  else
    { reg with
      handlers := forEach (·.setLoadedCurrentRun false) calibrations reg.handlers }

/-! ## §3. What the loops compute. -/

/-- An operation that does nothing the second time is done to the handlers of the
list and to no other. -/
theorem forEach_apply {f : CalibrationHandlerBase → CalibrationHandlerBase}
    (hf : ∀ b, f (f b) = f b) (k : η) :
    ∀ (cs : List η) (hs : η → CalibrationHandlerBase),
      forEach f cs hs k = if k ∈ cs then f (hs k) else hs k
  | [], hs => by simp [forEach]
  | c :: cs, hs => by
      show forEach f cs (Function.update hs c (f (hs c))) k = _
      -- a handler listed twice gets `f` twice, which is once
      rw [forEach_apply hf k cs]
      by_cases hk : k = c
      · subst hk
        simp [hf]
      · simp [hk]

omit [DecidableEq η] in
/-- `flagAll` says after the loop whether every handler is loaded. -/
theorem scan_fst (hs : η → CalibrationHandlerBase) :
    ∀ (cs : List η) (pos : Nat) (flagAll : Bool) (one : Option (Nat × η)),
      (scan hs pos flagAll one cs).1 = (flagAll && cs.all (fun c => (hs c).hasLoadedCurrentRun))
  | [], _, flagAll, _ => by simp [scan]
  | c :: cs, pos, flagAll, one => by
      unfold scan
      cases hc : (hs c).hasLoadedCurrentRun with
      | false => simp [hc, scan_fst hs cs]
      | true => simp [hc, scan_fst hs cs]

omit [DecidableEq η] in
/-- `calibratedOne` is a loaded handler and the position it stands at. -/
theorem scan_snd_some {hs : η → CalibrationHandlerBase} {k : Nat} {src : η} :
    ∀ {cs : List η} {pos : Nat} {flagAll : Bool} {one : Option (Nat × η)},
      (scan hs pos flagAll one cs).2 = some (k, src) →
      one = some (k, src)
        ∨ (∃ j, cs[j]? = some src ∧ k = pos + j) ∧ (hs src).hasLoadedCurrentRun = true
  | [], _, _, _, h => Or.inl h
  | c :: cs, pos, flagAll, one, h => by
      unfold scan at h
      by_cases hc : (hs c).hasLoadedCurrentRun = false
      · rw [if_pos hc] at h
        rcases scan_snd_some h with h | ⟨⟨j, hj, rfl⟩, hl⟩
        · exact Or.inl h
        · exact Or.inr ⟨⟨j + 1, hj, by omega⟩, hl⟩
      · rw [if_neg hc] at h
        -- loaded: it is the last one so far, unless a later one is found
        rcases scan_snd_some h with h | ⟨⟨j, hj, rfl⟩, hl⟩
        · obtain ⟨rfl, rfl⟩ := Prod.mk.inj (Option.some.inj h)
          exact Or.inr ⟨⟨0, rfl, rfl⟩, by simpa using hc⟩
        · exact Or.inr ⟨⟨j + 1, hj, by omega⟩, hl⟩

omit [DecidableEq η] in
/-- No `calibratedOne`: no handler is loaded. -/
theorem scan_snd_none {hs : η → CalibrationHandlerBase} :
    ∀ {cs : List η} {pos : Nat} {flagAll : Bool} {one : Option (Nat × η)},
      (scan hs pos flagAll one cs).2 = none →
      one = none ∧ ∀ c ∈ cs, (hs c).hasLoadedCurrentRun = false
  | [], _, _, _, h => ⟨h, fun c hc => by cases hc⟩
  | c :: cs, pos, flagAll, one, h => by
      unfold scan at h
      by_cases hc : (hs c).hasLoadedCurrentRun = false
      · rw [if_pos hc] at h
        obtain ⟨hone, hcs⟩ := scan_snd_none h
        refine ⟨hone, fun d hd => ?_⟩
        rcases List.mem_cons.mp hd with rfl | hd
        · exact hc
        · exact hcs d hd
      · rw [if_neg hc] at h
        cases (scan_snd_none h).1

/-- The copy loop fills the handlers that are not loaded, all from the same
raw table.  The position it skips holds a loaded handler. -/
theorem copyFrom_apply {one : Nat} {src : η} (k : η) :
    ∀ {cs : List η} {ical : Nat} {hs : η → CalibrationHandlerBase},
      (hs src).hasLoadedCurrentRun = true →
      (∀ j c, cs[j]? = some c → ical + j = one → (hs c).hasLoadedCurrentRun = true) →
      copyFrom one src ical cs hs k =
        if k ∈ cs ∧ (hs k).hasLoadedCurrentRun = false then load (hs src).rawCalibData (hs k)
        else hs k
  | [], _, _, _, _ => by simp [copyFrom]
  | c :: cs, ical, hs, hsrc, hone => by
      unfold copyFrom
      by_cases hc : (hs c).hasLoadedCurrentRun = true
      · -- skipped, for one reason or the other
        have hloaded : ∀ j d, cs[j]? = some d → ical + 1 + j = one →
            (hs d).hasLoadedCurrentRun = true := by
          intro j d hj hd
          exact hone (j + 1) d hj (by omega)
        have hrest := copyFrom_apply k hsrc hloaded
        have hmem : (k ∈ c :: cs ∧ (hs k).hasLoadedCurrentRun = false)
            ↔ (k ∈ cs ∧ (hs k).hasLoadedCurrentRun = false) := by
          constructor
          · rintro ⟨hk, hl⟩
            rcases List.mem_cons.mp hk with rfl | hk
            · rw [hc] at hl
              cases hl
            · exact ⟨hk, hl⟩
          · rintro ⟨hk, hl⟩
            exact ⟨List.mem_cons_of_mem _ hk, hl⟩
        simp only [hc, if_true, ite_self, hrest, hmem]
      · have hical : ical ≠ one := fun he => hc (hone 0 c rfl (by omega))
        have hne : src ≠ c := fun he => hc (he ▸ hsrc)
        rw [if_neg hical, if_neg hc]
        rw [copyFrom_apply k (by rwa [Function.update_of_ne hne])]
        · rw [Function.update_of_ne hne]
          by_cases hk : k = c
          · subst hk
            have hkf : (hs k).hasLoadedCurrentRun = false := by simpa using hc
            simp [hkf, load, CalibrationHandlerBase.setLoadedCurrentRun]
          · simp [hk]
        · intro j d hj hd
          by_cases hdc : d = c
          · subst hdc
            simp [load, CalibrationHandlerBase.setLoadedCurrentRun]
          · rw [Function.update_of_ne hdc]
            exact hone (j + 1) d hj (by omega)

/-! ## §4. One equation for each operation. -/

/-- The table an update by a loop in run `run` hands to the handlers that are
not loaded: the raw table of the last loaded one, else the database. -/
def source (table : String → Int → List (List ℚ)) (run : Int) (reg : Registry η)
    (name : String) : List (List ℚ) :=
  match (scan reg.handlers 0 true none (reg.calibrations name)).2 with
  | some (_, src) => (reg.handlers src).rawCalibData
  | none => table name run

omit [DecidableEq η] in
/-- The source is the raw table of a loaded handler, or the database when no
handler is loaded. -/
theorem source_cases (table : String → Int → List (List ℚ)) (run : Int) (reg : Registry η)
    (name : String) :
    (∃ src ∈ reg.calibrations name, (reg.handlers src).hasLoadedCurrentRun = true
        ∧ source table run reg name = (reg.handlers src).rawCalibData)
      ∨ (∀ c ∈ reg.calibrations name, (reg.handlers c).hasLoadedCurrentRun = false)
        ∧ source table run reg name = table name run := by
  unfold source
  cases h : (scan reg.handlers 0 true none (reg.calibrations name)).2 with
  | none => exact Or.inr ⟨(scan_snd_none h).2, rfl⟩
  | some p =>
      obtain ⟨k, src⟩ := p
      rcases scan_snd_some h with h | ⟨⟨j, hj, -⟩, hl⟩
      · cases h
      · exact Or.inl ⟨src, List.mem_of_getElem? hj, hl, rfl⟩

/-- To fill a handler twice with one raw table is to fill it once. -/
theorem load_idem (rows : List (List ℚ)) (b : CalibrationHandlerBase) :
    load rows (load rows b) = load rows b := rfl

/-- An update leaves the handlers that are registered. -/
@[simp] theorem updateCalibration_calibrations (table : String → Int → List (List ℚ))
    (run : Int) (reg : Registry η) (cal : η) :
    (updateCalibration table run reg cal).calibrations = reg.calibrations := by
  unfold updateCalibration
  dsimp only
  split
  · rfl
  · split <;> rfl

/-- **An update gives the source to every handler of the table that is not
loaded, and nothing to the others.** -/
theorem updateCalibration_handlers (table : String → Int → List (List ℚ)) (run : Int)
    (reg : Registry η) {cal : η} (hcal : cal ∈ reg.calibrations (reg.handlers cal).table)
    (k : η) :
    (updateCalibration table run reg cal).handlers k =
      if k ∈ reg.calibrations (reg.handlers cal).table
          ∧ (reg.handlers k).hasLoadedCurrentRun = false
      then load (source table run reg (reg.handlers cal).table) (reg.handlers k)
      else reg.handlers k := by
  have hall := scan_fst reg.handlers (reg.calibrations (reg.handlers cal).table) 0 true none
  unfold updateCalibration source
  simp only [hcal, not_true_eq_false, if_false]
  split
  next one hscan =>
    -- all loaded: no handler is in the `then` case
    rw [hscan] at hall
    have hloaded : ∀ c ∈ reg.calibrations (reg.handlers cal).table,
        (reg.handlers c).hasLoadedCurrentRun = true := by
      simpa using hall.symm
    rw [if_neg]
    rintro ⟨hk, hf⟩
    rw [hloaded k hk] at hf
    cases hf
  next pos src hscan =>
    rw [hscan]
    have hsnd : (scan reg.handlers 0 true none
        (reg.calibrations (reg.handlers cal).table)).2 = some (pos, src) := by rw [hscan]
    rcases scan_snd_some hsnd with h | ⟨⟨j, hj, rfl⟩, hl⟩
    · cases h
    · refine copyFrom_apply k hl (fun i c hi he => ?_)
      obtain rfl : i = j := by omega
      rw [hj] at hi
      obtain rfl := Option.some.inj hi
      exact hl
  next hscan =>
    rw [hscan]
    have hsnd : (scan reg.handlers 0 true none
        (reg.calibrations (reg.handlers cal).table)).2 = none := by rw [hscan]
    have hnone := (scan_snd_none hsnd).2
    show forEach (load _) _ reg.handlers k = _
    rw [forEach_apply (load_idem _)]
    by_cases hk : k ∈ reg.calibrations (reg.handlers cal).table
    · simp [hk, hnone k hk]
    · simp [hk]

/-- A clear leaves the handlers that are registered. -/
@[simp] theorem clearCalibration_calibrations (reg : Registry η) (cal : η) :
    (clearCalibration reg cal).calibrations = reg.calibrations := by
  unfold clearCalibration
  dsimp only
  split <;> rfl

/-- A clear takes down the flag of every handler of the table, and leaves
the others. -/
theorem clearCalibration_handlers (reg : Registry η) {cal : η}
    (hcal : cal ∈ reg.calibrations (reg.handlers cal).table) (k : η) :
    (clearCalibration reg cal).handlers k =
      if k ∈ reg.calibrations (reg.handlers cal).table
      then (reg.handlers k).setLoadedCurrentRun false
      else reg.handlers k := by
  unfold clearCalibration
  simp only [hcal, not_true_eq_false, if_false]
  have hidem : ∀ b : CalibrationHandlerBase,
      (b.setLoadedCurrentRun false).setLoadedCurrentRun false = b.setLoadedCurrentRun false :=
    fun _ => rfl
  exact forEach_apply hidem k _ _

omit [DecidableEq η] in
/-- A registration leaves what the handlers hold. -/
@[simp] theorem addCalibration_handlers (reg : Registry η) (cal : η) :
    (addCalibration reg cal).handlers = reg.handlers := rfl

omit [DecidableEq η] in
/-- A registration files the handler under the name of its table and no other. -/
theorem mem_addCalibration (reg : Registry η) (cal k : η) (name : String) :
    k ∈ (addCalibration reg cal).calibrations name
      ↔ k ∈ reg.calibrations name ∨ (k = cal ∧ name = (reg.handlers cal).table) := by
  unfold addCalibration
  by_cases hn : name = (reg.handlers cal).table
  · subst hn
    simp
  · simp [hn]

/-! ## §5. Tables with one handler, and lists of operations. -/

/-- Every handler is filed under its own table. -/
def ByTable (reg : Registry η) : Prop :=
  ∀ k name, k ∈ reg.calibrations name → (reg.handlers k).table = name

/-- No other handler is registered with the table of `h`. -/
def Private (reg : Registry η) (h : η) : Prop :=
  ∀ k, (reg.handlers k).table = (reg.handlers h).table → k = h

/-- What an update does to the one handler of a table. -/
def refresh (table : String → Int → List (List ℚ)) (run : Int) (b : CalibrationHandlerBase) :
    CalibrationHandlerBase :=
  if b.hasLoadedCurrentRun = false then load (table b.table run) b else b

/-- An update of a handler with a table of its own is its refresh, and
nothing else. -/
theorem updateCalibration_private (table : String → Int → List (List ℚ)) (run : Int)
    {reg : Registry η} (hby : reg.ByTable) {h : η}
    (hreg : h ∈ reg.calibrations (reg.handlers h).table) (hpriv : reg.Private h) (k : η) :
    (updateCalibration table run reg h).handlers k =
      if k = h then refresh table run (reg.handlers k) else reg.handlers k := by
  rw [updateCalibration_handlers table run reg hreg]
  -- the only handler of its table: there is no other to copy from
  by_cases hk : k = h
  · subst hk
    unfold refresh
    by_cases hl : (reg.handlers k).hasLoadedCurrentRun = false
    · have hsrc : source table run reg (reg.handlers k).table
          = table (reg.handlers k).table run := by
        rcases source_cases table run reg (reg.handlers k).table with ⟨c, hc, hlc, -⟩ | ⟨-, h⟩
        · rw [hpriv c (hby c _ hc), hl] at hlc
          cases hlc
        · exact h
      simp [hreg, hl, hsrc]
    · simp [hl]
  · have hnot : k ∉ reg.calibrations (reg.handlers h).table :=
      fun hc => hk (hpriv k (hby k _ hc))
    simp only [hnot, hk, false_and, if_false]

/-- A clear of a handler with a table of its own takes down its flag, and
nothing else. -/
theorem clearCalibration_private {reg : Registry η} (hby : reg.ByTable) {h : η}
    (hreg : h ∈ reg.calibrations (reg.handlers h).table) (hpriv : reg.Private h) (k : η) :
    (clearCalibration reg h).handlers k =
      if k = h then (reg.handlers k).setLoadedCurrentRun false else reg.handlers k := by
  rw [clearCalibration_handlers reg hreg]
  by_cases hk : k = h
  · subst hk
    simp only [hreg, if_true]
  · have hnot : k ∉ reg.calibrations (reg.handlers h).table :=
      fun hc => hk (hpriv k (hby k _ hc))
    simp only [hnot, hk, if_false]

omit [DecidableEq η] in
/-- Registrations leave what the handlers hold. -/
@[simp] theorem foldl_addCalibration_handlers (hs : List η) (reg : Registry η) :
    (hs.foldl addCalibration reg).handlers = reg.handlers := by
  induction hs generalizing reg with
  | nil => rfl
  | cons h hs ih =>
      rw [List.foldl_cons, ih, addCalibration_handlers]

omit [DecidableEq η] in
/-- Registrations file each handler of a list under the name of its table. -/
theorem mem_foldl_addCalibration (hs : List η) (reg : Registry η) (k : η) (name : String) :
    k ∈ (hs.foldl addCalibration reg).calibrations name
      ↔ k ∈ reg.calibrations name ∨ (k ∈ hs ∧ name = (reg.handlers k).table) := by
  induction hs generalizing reg with
  | nil => simp
  | cons h hs ih =>
      rw [List.foldl_cons, ih, mem_addCalibration, addCalibration_handlers, List.mem_cons]
      constructor
      · rintro ((hk | ⟨rfl, hn⟩) | ⟨hk, hn⟩)
        · exact Or.inl hk
        · exact Or.inr ⟨Or.inl rfl, hn⟩
        · exact Or.inr ⟨Or.inr hk, hn⟩
      · rintro (hk | ⟨rfl | hk, hn⟩)
        · exact Or.inl (Or.inl hk)
        · exact Or.inl (Or.inr ⟨rfl, hn⟩)
        · exact Or.inr ⟨hk, hn⟩

/-- A list of updates keeps what is registered and the table names. -/
theorem foldl_updateCalibration_frame (table : String → Int → List (List ℚ)) (run : Int)
    (hs : List η) :
    ∀ {reg : Registry η}, (∀ h ∈ hs, h ∈ reg.calibrations (reg.handlers h).table) →
      (hs.foldl (updateCalibration table run) reg).calibrations = reg.calibrations
        ∧ ∀ k, ((hs.foldl (updateCalibration table run) reg).handlers k).table
            = (reg.handlers k).table := by
  induction hs with
  | nil =>
      intro reg _
      exact ⟨rfl, fun _ => rfl⟩
  | cons h hs ih =>
      intro reg hreg
      have htab : ∀ k, ((updateCalibration table run reg h).handlers k).table
          = (reg.handlers k).table := by
        intro k
        rw [updateCalibration_handlers table run reg (hreg h (by simp))]
        split <;> rfl
      obtain ⟨ihc, iht⟩ := ih (fun c hc => by
        rw [updateCalibration_calibrations, htab]
        exact hreg c (by simp [hc]))
      refine ⟨?_, fun k => ?_⟩
      · rw [List.foldl_cons, ihc, updateCalibration_calibrations]
      · rw [List.foldl_cons, iht, htab]

/-- A list of operations, each of which applies `f` to one handler with a table
of its own, applies `f` to the handlers of the list. -/
theorem foldl_private {op : Registry η → η → Registry η}
    {f : CalibrationHandlerBase → CalibrationHandlerBase}
    (hidem : ∀ b, f (f b) = f b) (htable : ∀ b, (f b).table = b.table)
    (hcal : ∀ reg h, (op reg h).calibrations = reg.calibrations)
    (hop : ∀ {reg : Registry η}, reg.ByTable → ∀ {h},
      h ∈ reg.calibrations (reg.handlers h).table → reg.Private h → ∀ k,
      (op reg h).handlers k = if k = h then f (reg.handlers k) else reg.handlers k)
    (k : η) (hs : List η) :
    ∀ {reg : Registry η}, reg.ByTable →
      (∀ h ∈ hs, h ∈ reg.calibrations (reg.handlers h).table ∧ reg.Private h) →
      (hs.foldl op reg).calibrations = reg.calibrations
        ∧ (hs.foldl op reg).handlers k =
          if k ∈ hs then f (reg.handlers k) else reg.handlers k := by
  induction hs with
  | nil =>
      intro reg _ _
      simp
  | cons h hs ih =>
      intro reg hby hhs
      obtain ⟨hreg, hpriv⟩ := hhs h (by simp)
      -- the first operation, then the induction from the registry it leaves
      have hone := hop hby hreg hpriv
      -- the operation keeps the table names, so the rest is still private
      have htab : ∀ c, ((op reg h).handlers c).table = (reg.handlers c).table := by
        intro c
        rw [hone c]
        split
        · exact htable _
        · rfl
      have hby' : (op reg h).ByTable := by
        intro c name hc
        rw [hcal] at hc
        rw [htab]
        exact hby c name hc
      have hhs' : ∀ c ∈ hs, c ∈ (op reg h).calibrations ((op reg h).handlers c).table
          ∧ (op reg h).Private c := by
        intro c hc
        obtain ⟨hcreg, hcpriv⟩ := hhs c (by simp [hc])
        refine ⟨by rw [hcal, htab]; exact hcreg, fun d hd => ?_⟩
        rw [htab, htab] at hd
        exact hcpriv d hd
      obtain ⟨ihc, ihh⟩ := ih hby' hhs'
      refine ⟨by rw [List.foldl_cons, ihc, hcal], ?_⟩
      rw [List.foldl_cons, ihh, hone k]
      by_cases hk : k = h
      · subst hk
        simp [hidem]
      · simp [hk]

/-- The `brun` of a factory whose handlers have tables of their own. -/
theorem foldl_updateCalibration_private (table : String → Int → List (List ℚ)) (run : Int)
    (k : η) (hs : List η) {reg : Registry η} (hby : reg.ByTable)
    (hhs : ∀ h ∈ hs, h ∈ reg.calibrations (reg.handlers h).table ∧ reg.Private h) :
    (hs.foldl (updateCalibration table run) reg).calibrations = reg.calibrations
      ∧ (hs.foldl (updateCalibration table run) reg).handlers k =
        if k ∈ hs then refresh table run (reg.handlers k) else reg.handlers k := by
  refine foldl_private ?_ ?_ (updateCalibration_calibrations table run)
    (updateCalibration_private table run) k hs hby hhs
  · intro b
    unfold refresh
    by_cases hb : b.hasLoadedCurrentRun = false
    · simp [hb, load, CalibrationHandlerBase.setLoadedCurrentRun]
    · simp [hb]
  · intro b
    unfold refresh
    split <;> rfl

/-- The `erun` of a factory that clears handlers with tables of their own. -/
theorem foldl_clearCalibration_private (k : η) (hs : List η) {reg : Registry η}
    (hby : reg.ByTable)
    (hhs : ∀ h ∈ hs, h ∈ reg.calibrations (reg.handlers h).table ∧ reg.Private h) :
    (hs.foldl clearCalibration reg).calibrations = reg.calibrations
      ∧ (hs.foldl clearCalibration reg).handlers k =
        if k ∈ hs then (reg.handlers k).setLoadedCurrentRun false else reg.handlers k := by
  refine foldl_private (f := (·.setLoadedCurrentRun false)) ?_ ?_ clearCalibration_calibrations
    clearCalibration_private k hs hby hhs
  · intro b
    rfl
  · intro b
    rfl

end Registry

end PokerReco.System
