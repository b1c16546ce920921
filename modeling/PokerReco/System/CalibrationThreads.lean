/-
  PokerReco.System.CalibrationThreads
  ───────────────────────────────────
  **THE REGISTRY UNDER MANY THREADS.**

  Every thread has its own factories and each factory owns its handlers, so a
  handler `h : η` stands here for one handler of one factory of one thread.
  Its owner takes it through

      init, brun r, erun, brun r', erun, ...

  and owners may stand in different runs at the same moment.  The three
  registry operations are made under the ROOT lock, so each is one step.

  `inRun_tables_iff` says when every handler that is in a run holds the table
  of that run: exactly when no `brun r` comes while another owner of the same
  table is still in a run for which the table differs.
-/
import PokerReco.System.CalibrationRegistry

namespace PokerReco.System

open PokerReco.Library

/-! ## §1. The system. -/

/-- Where the owner of a handler stands: before its `init`, between two runs,
or in a run. -/
inductive Phase where
  /-- `init` has not been called. -/
  | unborn
  /-- Registered, between runs. -/
  | idle
  /-- Between `brun run` and `erun`. -/
  | inRun (run : Int)
  deriving DecidableEq, Repr

/-- The event loops together: the registry that they share, and where the owner of
each handler stands. -/
structure Loops (η : Type) where
  registry : Registry η
  phase : η → Phase

/-- One step of the owner of a handler. -/
inductive Action (η : Type) where
  | init (h : η)
  | brun (h : η) (run : Int)
  | erun (h : η)

namespace Loops

variable {η : Type} [DecidableEq η] (table : String → Int → List (List ℚ))

/-- Nothing is registered; `tableOf` gives the table each handler is
constructed with. -/
def start (tableOf : η → String) : Loops η where
  registry := { calibrations := fun _ => [], handlers := fun h => .new (tableOf h) }
  phase _ := .unborn

/-- `init`: the handler is added to the registry. -/
def afterInit (s : Loops η) (h : η) : Loops η where
  registry := s.registry.addCalibration h
  phase := Function.update s.phase h .idle

/-- `brun run`: the handler asks for an update. -/
def afterBrun (s : Loops η) (h : η) (run : Int) : Loops η where
  registry := s.registry.updateCalibration table run h
  phase := Function.update s.phase h (.inRun run)

/-- `erun`: the handler asks for a clear. -/
def afterErun (s : Loops η) (h : η) : Loops η where
  registry := s.registry.clearCalibration h
  phase := Function.update s.phase h .idle

/-- A step in its turn; `none` when the owner does not stand where the
step begins. -/
def exec (s : Loops η) : Action η → Option (Loops η)
  | .init h => if s.phase h = .unborn then some (s.afterInit h) else none
  | .brun h run => if s.phase h = .idle then some (s.afterBrun table h run) else none
  | .erun h =>
      match s.phase h with
      | .inRun _ => some (s.afterErun h)
      | _ => none

/-- The name of the table a handler is for. -/
def tableOf (s : Loops η) (h : η) : String := (s.registry.handlers h).table

/-- The flag `m_hasLoadedCurrentRun`. -/
def loaded (s : Loops η) (h : η) : Bool := (s.registry.handlers h).hasLoadedCurrentRun

/-- The table last given to `fillCalib`. -/
def raw (s : Loops η) (h : η) : List (List ℚ) := (s.registry.handlers h).rawCalibData

/-- Every handler whose owner is in a run holds the table of that run. -/
def RunTables (s : Loops η) : Prop :=
  ∀ h run, s.phase h = .inRun run → s.raw h = table (s.tableOf h) run

/-- A `brun run` comes when every owner of the same table that is still in a
run is in one with the same table; the other steps are free. -/
def AgreesWithOpenRuns (s : Loops η) : Action η → Prop
  | .brun h run =>
      ∀ k open_, s.phase k = .inRun open_ → s.tableOf k = s.tableOf h →
        table (s.tableOf h) open_ = table (s.tableOf h) run
  | _ => True

/-- The invariant of every schedule: what is registered and what is loaded, and that
all loaded handlers of a table hold the table of one run that some owner is in. -/
structure Inv (s : Loops η) : Prop where
  /-- The registry lists the handlers whose `init` was called, by table. -/
  member : ∀ h name, h ∈ s.registry.calibrations name
    ↔ s.phase h ≠ .unborn ∧ s.tableOf h = name
  /-- A handler that is not registered has its flag down. -/
  fresh : ∀ h, s.phase h = .unborn → s.loaded h = false
  /-- The loaded handlers of a table all hold the table of one run, and some
  owner is still in that run. -/
  loaded_from : ∀ name,
    (∀ k, s.tableOf k = name → s.loaded k = false)
      ∨ ∃ h₀ run₀, s.tableOf h₀ = name ∧ s.phase h₀ = .inRun run₀
          ∧ ∀ k, s.tableOf k = name → s.loaded k = true → s.raw k = table name run₀

variable {table}

/-! ## §2. What each step does to a handler. -/

omit [DecidableEq η] in
/-- Before the first step nothing is registered and nothing is loaded. -/
theorem start_inv (tableOf : η → String) : Inv table (start tableOf) where
  member h name := by simp [start]
  fresh h _ := rfl
  loaded_from name := Or.inl (fun _ _ => rfl)

/-- The rows an update by `h` for `run` gives to the handlers not loaded. -/
def handedOut (table : String → Int → List (List ℚ)) (s : Loops η) (h : η) (run : Int) :
    List (List ℚ) :=
  Registry.source table run s.registry (s.tableOf h)

omit [DecidableEq η] in
/-- A handler whose owner has been through `init` is found under its table. -/
theorem registered {s : Loops η} (hinv : Inv table s) {h : η} (hne : s.phase h ≠ .unborn) :
    h ∈ s.registry.calibrations (s.tableOf h) :=
  (hinv.member h _).mpr ⟨hne, rfl⟩

/-- The handlers a `brun` of `h` fills: those of its table that are registered and
not loaded. -/
def Filled (s : Loops η) (h k : η) : Prop :=
  s.phase k ≠ .unborn ∧ s.tableOf k = s.tableOf h ∧ s.loaded k = false

/-- A handler that a `brun` fills gets the rows that are handed out. -/
theorem afterBrun_handlers_of_filled {s : Loops η} (hinv : Inv table s) {h k : η} {run : Int}
    (hne : s.phase h ≠ .unborn) (hk : s.Filled h k) :
    (s.afterBrun table h run).registry.handlers k
      = Registry.load (handedOut table s h run) (s.registry.handlers k) := by
  unfold afterBrun
  rw [Registry.updateCalibration_handlers table run s.registry (registered hinv hne), if_pos]
  · rfl
  · exact ⟨(hinv.member k _).mpr ⟨hk.1, hk.2.1⟩, hk.2.2⟩

/-- Any other handler is left alone by the `brun`. -/
theorem afterBrun_handlers_of_not_filled {s : Loops η} (hinv : Inv table s) {h k : η} {run : Int}
    (hne : s.phase h ≠ .unborn) (hk : ¬ s.Filled h k) :
    (s.afterBrun table h run).registry.handlers k = s.registry.handlers k := by
  unfold afterBrun
  rw [Registry.updateCalibration_handlers table run s.registry (registered hinv hne), if_neg]
  rintro ⟨hmem, hl⟩
  have := (hinv.member k _).mp hmem
  exact hk ⟨this.1, this.2, hl⟩

/-- No `brun` changes which table a handler is for. -/
theorem afterBrun_tableOf {s : Loops η} (hinv : Inv table s) {h : η} {run : Int}
    (hne : s.phase h ≠ .unborn) (k : η) :
    (s.afterBrun table h run).tableOf k = s.tableOf k := by
  unfold tableOf
  by_cases hk : s.Filled h k
  · rw [afterBrun_handlers_of_filled hinv hne hk]
    rfl
  · rw [afterBrun_handlers_of_not_filled hinv hne hk]

/-- A clear takes down the flag of every registered handler of the table,
whoever owns it. -/
theorem afterErun_handlers {s : Loops η} (hinv : Inv table s) {h : η}
    (hne : s.phase h ≠ .unborn) (k : η) :
    (s.afterErun h).registry.handlers k =
      if s.phase k ≠ .unborn ∧ s.tableOf k = s.tableOf h
      then (s.registry.handlers k).setLoadedCurrentRun false
      else s.registry.handlers k := by
  unfold afterErun
  rw [Registry.clearCalibration_handlers s.registry (registered hinv hne)]
  exact if_congr (hinv.member k _) rfl rfl

/-- No clear changes which table a handler is for. -/
theorem afterErun_tableOf {s : Loops η} (hinv : Inv table s) {h : η}
    (hne : s.phase h ≠ .unborn) (k : η) : (s.afterErun h).tableOf k = s.tableOf k := by
  unfold tableOf
  rw [afterErun_handlers hinv hne]
  split <;> rfl

/-- The rows of a handler stay when its flag is taken down. -/
theorem afterErun_raw {s : Loops η} (hinv : Inv table s) {h : η}
    (hne : s.phase h ≠ .unborn) (k : η) : (s.afterErun h).raw k = s.raw k := by
  unfold raw
  rw [afterErun_handlers hinv hne]
  split <;> rfl

omit [DecidableEq η] in
/-- The rows handed out: those of a loaded handler of the table, or, when
none is loaded, those of the database. -/
theorem handedOut_cases {s : Loops η} (hinv : Inv table s) (h : η) (run : Int) :
    (∃ src, s.tableOf src = s.tableOf h ∧ s.loaded src = true
        ∧ handedOut table s h run = s.raw src)
      ∨ (∀ k, s.tableOf k = s.tableOf h → s.loaded k = false)
        ∧ handedOut table s h run = table (s.tableOf h) run := by
  rcases Registry.source_cases table run s.registry (s.tableOf h) with
    ⟨src, hmem, hl, hsrc⟩ | ⟨hnone, hsrc⟩
  · exact Or.inl ⟨src, ((hinv.member src _).mp hmem).2, hl, hsrc⟩
  · refine Or.inr ⟨fun k hk => ?_, hsrc⟩
    by_cases hu : s.phase k = .unborn
    · exact hinv.fresh k hu
    · exact hnone k ((hinv.member k _).mpr ⟨hu, hk⟩)

/-! ## §3. The steps keep the invariant. -/

/-- The `init` of an owner keeps the invariant: the new handler is registered and
not loaded. -/
theorem afterInit_inv {s : Loops η} (hinv : Inv table s) {h : η} (hun : s.phase h = .unborn) :
    Inv table (s.afterInit h) where
  member k name := by
    show k ∈ (s.registry.addCalibration h).calibrations name ↔ _
    rw [Registry.mem_addCalibration, hinv.member k name]
    by_cases hk : k = h
    · subst hk
      have hdown : (s.afterInit k).phase k ≠ .unborn := by simp [afterInit]
      simp only [hun, ne_eq, not_true_eq_false, false_and, true_and, false_or]
      exact ⟨fun hn => ⟨hdown, hn.symm⟩, fun hn => hn.2.symm⟩
    · have hsame : (s.afterInit h).phase k = s.phase k := by simp [afterInit, hk]
      rw [hsame]
      simp only [hk, false_and, or_false]
      exact Iff.rfl
  fresh k hk := by
    by_cases he : k = h
    · subst he
      simp [afterInit] at hk
    · have hk' : s.phase k = .unborn := by simpa [afterInit, he] using hk
      exact hinv.fresh k hk'
  loaded_from name := by
    rcases hinv.loaded_from name with hnone | ⟨h₀, run₀, ht, hp, hall⟩
    · exact Or.inl hnone
    · refine Or.inr ⟨h₀, run₀, ht, ?_, hall⟩
      -- the owner that loads is in a run, so it is not the one registering
      have hne : h₀ ≠ h := by
        intro he
        subst he
        rw [hun] at hp
        cases hp
      simpa [afterInit, hne] using hp

/-- What is loaded after a `brun` was filled by it, or was loaded before and is
as it was. -/
theorem afterBrun_loaded {s : Loops η} (hinv : Inv table s) {h k : η} {run : Int}
    (hne : s.phase h ≠ .unborn) (hl : (s.afterBrun table h run).loaded k = true) :
    (s.Filled h k ∧ (s.afterBrun table h run).raw k = handedOut table s h run)
      ∨ (s.loaded k = true ∧ (s.afterBrun table h run).raw k = s.raw k) := by
  by_cases hk : s.Filled h k
  · refine Or.inl ⟨hk, ?_⟩
    unfold raw
    rw [afterBrun_handlers_of_filled hinv hne hk]
    rfl
  · have hsame : (s.afterBrun table h run).registry.handlers k = s.registry.handlers k :=
      afterBrun_handlers_of_not_filled hinv hne hk
    unfold loaded raw at *
    rw [hsame] at hl ⊢
    exact Or.inr ⟨hl, rfl⟩

/-- A `brun` keeps the invariant: the handlers that it fills join those of the run
whose table is handed out. -/
theorem afterBrun_inv {s : Loops η} (hinv : Inv table s) {h : η} {run : Int}
    (hidle : s.phase h = .idle) : Inv table (s.afterBrun table h run) := by
  have hne : s.phase h ≠ .unborn := by rw [hidle]; simp
  have hphase : ∀ k, (s.afterBrun table h run).phase k = .unborn ↔ s.phase k = .unborn := by
    intro k
    by_cases hk : k = h
    · subst hk
      simp [afterBrun, hidle]
    · simp [afterBrun, hk]
  refine ⟨fun k name => ?_, fun k hk => ?_, fun name => ?_⟩
  · show k ∈ (s.registry.updateCalibration table run h).calibrations name ↔ _
    rw [Registry.updateCalibration_calibrations, afterBrun_tableOf hinv hne, hinv.member k name,
      ne_eq, ne_eq, hphase]
  · have hk' := (hphase k).mp hk
    have hnf : ¬ s.Filled h k := fun hf => hf.1 hk'
    show ((s.afterBrun table h run).registry.handlers k).hasLoadedCurrentRun = false
    rw [afterBrun_handlers_of_not_filled hinv hne hnf]
    exact hinv.fresh k hk'
  · by_cases hname : s.tableOf h = name
    · subst hname
      right
      rcases handedOut_cases hinv h run with ⟨src, ht, hl, hout⟩ | ⟨hnone, hout⟩
      · -- copied: the run of the loaded handler stays the common one
        rcases hinv.loaded_from (s.tableOf h) with hno | ⟨h₀, run₀, ht₀, hp₀, hall⟩
        · rw [hno src ht] at hl
          cases hl
        · have hh₀ : h₀ ≠ h := by
            intro he
            subst he
            rw [hidle] at hp₀
            cases hp₀
          refine ⟨h₀, run₀, ?_, ?_, fun k hk hlk => ?_⟩
          · rw [afterBrun_tableOf hinv hne, ht₀]
          · simpa [afterBrun, hh₀] using hp₀
          · rw [afterBrun_tableOf hinv hne] at hk
            rcases afterBrun_loaded hinv hne hlk with ⟨-, hr⟩ | ⟨hlk', hr⟩
            · rw [hr, hout, hall src ht hl]
            · rw [hr, hall k hk hlk']
      · -- read from the database: this run becomes the common one
        refine ⟨h, run, afterBrun_tableOf hinv hne h, by simp [afterBrun], fun k hk hlk => ?_⟩
        rw [afterBrun_tableOf hinv hne] at hk
        rcases afterBrun_loaded hinv hne hlk with ⟨-, hr⟩ | ⟨hlk', hr⟩
        · rw [hr, hout]
        · rw [hnone k hk] at hlk'
          cases hlk'
    · -- another table: none of its handlers is touched
      have hsame : ∀ k, s.tableOf k = name →
          (s.afterBrun table h run).registry.handlers k = s.registry.handlers k := by
        intro k hk
        exact afterBrun_handlers_of_not_filled hinv hne
          (fun hf => hname (hf.2.1.symm.trans hk))
      rcases hinv.loaded_from name with hno | ⟨h₀, run₀, ht₀, hp₀, hall⟩
      · refine Or.inl (fun k hk => ?_)
        rw [afterBrun_tableOf hinv hne] at hk
        show ((s.afterBrun table h run).registry.handlers k).hasLoadedCurrentRun = false
        rw [hsame k hk]
        exact hno k hk
      · have hh₀ : h₀ ≠ h := fun he => hname (he ▸ ht₀)
        refine Or.inr ⟨h₀, run₀, ?_, ?_, fun k hk hlk => ?_⟩
        · rw [afterBrun_tableOf hinv hne, ht₀]
        · simpa [afterBrun, hh₀] using hp₀
        · rw [afterBrun_tableOf hinv hne] at hk
          unfold loaded at hlk
          unfold raw
          rw [hsame k hk] at hlk ⊢
          exact hall k hk hlk

/-- A clear keeps the invariant, as it takes down the flags of a whole table. -/
theorem afterErun_inv {s : Loops η} (hinv : Inv table s) {h : η} {run : Int}
    (hrun : s.phase h = .inRun run) : Inv table (s.afterErun h) := by
  have hne : s.phase h ≠ .unborn := by rw [hrun]; simp
  have hphase : ∀ k, (s.afterErun h).phase k = .unborn ↔ s.phase k = .unborn := by
    intro k
    by_cases hk : k = h
    · subst hk
      simp [afterErun, hrun]
    · simp [afterErun, hk]
  -- a flag that is still up was up before, and its table is another one
  have hflag : ∀ k, (s.afterErun h).loaded k = true →
      s.loaded k = true ∧ s.tableOf k ≠ s.tableOf h := by
    intro k hl
    unfold loaded at hl
    rw [afterErun_handlers hinv hne] at hl
    split at hl
    next => cases hl
    next hc =>
      refine ⟨hl, fun ht => hc ⟨fun hu => ?_, ht⟩⟩
      have hdown := hinv.fresh k hu
      unfold loaded at hdown
      rw [hdown] at hl
      cases hl
  refine ⟨fun k name => ?_, fun k hk => ?_, fun name => ?_⟩
  · show k ∈ (s.registry.clearCalibration h).calibrations name ↔ _
    rw [Registry.clearCalibration_calibrations, afterErun_tableOf hinv hne, hinv.member k name,
      ne_eq, ne_eq, hphase]
  · cases hl : (s.afterErun h).loaded k with
    | false => rfl
    | true =>
        have hup := (hflag k hl).1
        rw [hinv.fresh k ((hphase k).mp hk)] at hup
        cases hup
  · rcases hinv.loaded_from name with hno | ⟨h₀, run₀, ht₀, hp₀, hall⟩
    · refine Or.inl (fun k hk => ?_)
      rw [afterErun_tableOf hinv hne] at hk
      cases hl : (s.afterErun h).loaded k with
      | false => rfl
      | true =>
          have hup := (hflag k hl).1
          rw [hno k hk] at hup
          cases hup
    · by_cases hname : s.tableOf h = name
      · refine Or.inl (fun k hk => ?_)
        rw [afterErun_tableOf hinv hne] at hk
        cases hl : (s.afterErun h).loaded k with
        | false => rfl
        | true => exact absurd (hk.trans hname.symm) (hflag k hl).2
      · have hh₀ : h₀ ≠ h := fun he => hname (he ▸ ht₀)
        refine Or.inr ⟨h₀, run₀, ?_, ?_, fun k hk hlk => ?_⟩
        · rw [afterErun_tableOf hinv hne, ht₀]
        · simpa [afterErun, hh₀] using hp₀
        · rw [afterErun_tableOf hinv hne] at hk
          rw [afterErun_raw hinv hne]
          exact hall k hk (hflag k hlk).1

/-- What a step can be: one of the three, at its place in the life of an owner. -/
theorem exec_cases {s s' : Loops η} {a : Action η} (h : s.exec table a = some s') :
    (∃ k, a = .init k ∧ s.phase k = .unborn ∧ s' = s.afterInit k)
      ∨ (∃ k run, a = .brun k run ∧ s.phase k = .idle ∧ s' = s.afterBrun table k run)
      ∨ (∃ k run, a = .erun k ∧ s.phase k = .inRun run ∧ s' = s.afterErun k) := by
  cases a with
  | init k =>
      simp only [exec] at h
      split at h
      next hp => exact Or.inl ⟨k, rfl, hp, (Option.some.inj h).symm⟩
      next => cases h
  | brun k run =>
      simp only [exec] at h
      split at h
      next hp => exact Or.inr (Or.inl ⟨k, run, rfl, hp, (Option.some.inj h).symm⟩)
      next => cases h
  | erun k =>
      simp only [exec] at h
      split at h
      next run hp => exact Or.inr (Or.inr ⟨k, run, rfl, hp, (Option.some.inj h).symm⟩)
      next => cases h

/-- **One step** keeps the invariant, whichever owner it is of. -/
theorem exec_inv {s s' : Loops η} {a : Action η} (hinv : Inv table s)
    (h : s.exec table a = some s') : Inv table s' := by
  rcases exec_cases h with ⟨k, -, hp, rfl⟩ | ⟨k, run, -, hp, rfl⟩ | ⟨k, run, -, hp, rfl⟩
  · exact afterInit_inv hinv hp
  · exact afterBrun_inv hinv hp
  · exact afterErun_inv hinv hp

/-! ## §4. When a step keeps the tables of the runs. -/

/-- An `init` changes no table of an owner in a run. -/
theorem afterInit_runTables {s : Loops η} {h : η} (hun : s.phase h = .unborn)
    (htab : s.RunTables table) : (s.afterInit h).RunTables table := by
  intro k run hk
  have hne : k ≠ h := by
    intro he
    subst he
    simp [afterInit] at hk
  have hk' : s.phase k = .inRun run := by simpa [afterInit, hne] using hk
  exact htab k run hk'

/-- A clear changes no rows, so that the owners in a run hold what they held. -/
theorem afterErun_runTables {s : Loops η} (hinv : Inv table s) {h : η}
    (hne : s.phase h ≠ .unborn) (htab : s.RunTables table) :
    (s.afterErun h).RunTables table := by
  intro k run hk
  have hkh : k ≠ h := by
    intro he
    subst he
    simp [afterErun] at hk
  have hk' : s.phase k = .inRun run := by simpa [afterErun, hkh] using hk
  rw [afterErun_raw hinv hne, afterErun_tableOf hinv hne]
  exact htab k run hk'

/-- After a `brun` every registered handler of the table is loaded. -/
theorem loaded_afterBrun {s : Loops η} (hinv : Inv table s) {h k : η} {run : Int}
    (hne : s.phase h ≠ .unborn) (hk : s.phase k ≠ .unborn) (ht : s.tableOf k = s.tableOf h) :
    (s.afterBrun table h run).loaded k = true := by
  unfold loaded
  by_cases hf : s.Filled h k
  · rw [afterBrun_handlers_of_filled hinv hne hf]
    rfl
  · rw [afterBrun_handlers_of_not_filled hinv hne hf]
    cases hl : (s.registry.handlers k).hasLoadedCurrentRun with
    | true => rfl
    | false => exact absurd ⟨hk, ht, hl⟩ hf

/-- After a `brun` the handlers of the table hold the table of one common run,
in which some owner is. -/
theorem afterBrun_common {s : Loops η} (hinv : Inv table s) {h : η} (run : Int)
    (hidle : s.phase h = .idle) :
    ∃ h₀ run₀, s.tableOf h₀ = s.tableOf h
      ∧ (s.afterBrun table h run).phase h₀ = .inRun run₀
      ∧ ∀ k, s.phase k ≠ .unborn → s.tableOf k = s.tableOf h →
          (s.afterBrun table h run).raw k = table (s.tableOf h) run₀ := by
  have hne : s.phase h ≠ .unborn := by rw [hidle]; simp
  have hinv' : Inv table (s.afterBrun table h run) := afterBrun_inv hinv hidle
  rcases hinv'.loaded_from (s.tableOf h) with hno | ⟨h₀, run₀, ht₀, hp₀, hall⟩
  · -- the handler itself is loaded now
    have hlh : (s.afterBrun table h run).loaded h = true := loaded_afterBrun hinv hne hne rfl
    rw [hno h (afterBrun_tableOf hinv hne h)] at hlh
    cases hlh
  · rw [afterBrun_tableOf hinv hne] at ht₀
    refine ⟨h₀, run₀, ht₀, hp₀, fun k hk ht => hall k ?_ ?_⟩
    · rw [afterBrun_tableOf hinv hne, ht]
    · exact loaded_afterBrun hinv hne hk ht

/-- **A `brun` keeps the tables of the runs exactly when it agrees with the
open runs.**  After it all handlers of the table hold the table of one common
run, which the invariant provides; so the owners that are in a run must all
be in runs with the same table. -/
theorem afterBrun_runTables_iff {s : Loops η} (hinv : Inv table s) {h : η} {run : Int}
    (hidle : s.phase h = .idle) (htab : s.RunTables table) :
    (s.afterBrun table h run).RunTables table
      ↔ s.AgreesWithOpenRuns table (.brun h run) := by
  have hne : s.phase h ≠ .unborn := by rw [hidle]; simp
  have hrun : (s.afterBrun table h run).phase h = .inRun run := by simp [afterBrun]
  -- phases of the other owners
  have hothers : ∀ k, k ≠ h → (s.afterBrun table h run).phase k = s.phase k := by
    intro k hk
    simp [afterBrun, hk]
  obtain ⟨h₀, run₀, ht₀, hp₀, hall⟩ := afterBrun_common hinv run hidle
  constructor
  · intro hnew k open_ hk ht
    have hkh : k ≠ h := by
      intro he
      subst he
      rw [hidle] at hk
      cases hk
    have hkne : s.phase k ≠ .unborn := by rw [hk]; simp
    have hk' : (s.afterBrun table h run).phase k = .inRun open_ := by rw [hothers k hkh, hk]
    have hrk := hnew k open_ hk'
    have hrh := hnew h run hrun
    rw [afterBrun_tableOf hinv hne] at hrk hrh
    rw [ht] at hrk
    rw [← hrk, ← hrh, hall k hkne ht, hall h hne rfl]
  · intro hagree k runk hk
    rw [afterBrun_tableOf hinv hne]
    by_cases ht : s.tableOf k = s.tableOf h
    · -- an owner in a run now is `h` itself or was in that run before
      have hsame : ∀ k' run', s.tableOf k' = s.tableOf h →
          (s.afterBrun table h run).phase k' = .inRun run' →
          table (s.tableOf h) run' = table (s.tableOf h) run := by
        intro k' run' ht' hk'
        by_cases he : k' = h
        · subst he
          rw [hrun] at hk'
          injection hk' with hk'
          rw [hk']
        · rw [hothers k' he] at hk'
          exact hagree k' run' hk' ht'
      have hkne : s.phase k ≠ .unborn := by
        by_cases he : k = h
        · rw [he]
          exact hne
        · rw [← hothers k he, hk]
          simp
      rw [ht, hall k hkne ht, hsame h₀ run₀ ht₀ hp₀, hsame k runk ht hk]
    · have hkh : k ≠ h := fun he => ht (by rw [he])
      have hnf : ¬ s.Filled h k := fun hf => ht hf.2.1
      rw [hothers k hkh] at hk
      unfold raw
      rw [afterBrun_handlers_of_not_filled hinv hne hnf]
      exact htab k runk hk

/-- **One step** keeps the tables of the runs exactly when it agrees with the
open runs. -/
theorem exec_runTables_iff {s s' : Loops η} {a : Action η} (hinv : Inv table s)
    (htab : s.RunTables table) (h : s.exec table a = some s') :
    s'.RunTables table ↔ s.AgreesWithOpenRuns table a := by
  rcases exec_cases h with ⟨k, rfl, hp, rfl⟩ | ⟨k, run, rfl, hp, rfl⟩ | ⟨k, run, rfl, hp, rfl⟩
  · exact ⟨fun _ => trivial, fun _ => afterInit_runTables hp htab⟩
  · exact afterBrun_runTables_iff hinv hp htab
  · have hne : s.phase k ≠ .unborn := by rw [hp]; simp
    exact ⟨fun _ => trivial, fun _ => afterErun_runTables hinv hne htab⟩

/-! ## §5. Every schedule. -/

/-- **THE REGISTRY, THREAD BY THREAD.**  For every set of handlers, every
database and every interleaving of the owners' `init`, `brun` and `erun`:
each handler whose owner is in a run holds the table of that run at every
moment, if and only if each `brun` agrees with the runs still open on its
table. -/
theorem inRun_tables_iff (table : String → Int → List (List ℚ)) (tableOf : η → String)
    (schedule : List (Action η)) :
    StatesMeet (exec table) (RunTables table) (start tableOf) schedule
      ↔ StepsMeet (exec table) (AgreesWithOpenRuns table) (start tableOf) schedule := by
  have hstart : (start tableOf).RunTables table := by
    intro h run hp
    cases hp
  exact statesMeet_iff_stepsMeet (fun _ _ _ => exec_inv) (fun _ _ _ => exec_runTables_iff)
    (start_inv tableOf) hstart

/-- A database whose only table tells the runs apart. -/
def runTable (_ : String) (run : Int) : List (List ℚ) := [[0, 0, 0, 0, run]]

/-- Two threads at a run boundary: while thread 0 is still in run 1, thread 1
ends run 1 (which takes down both flags) and begins run 2, and the handler of
thread 0 is filled with run 2. -/
theorem boundary_overwrites_other_thread :
    ¬ StatesMeet (exec runTable) (RunTables runTable)
        (start (fun _ : Fin 2 => "/Calorimeter/Ene"))
        [.init 0, .init 1, .brun 0 1, .brun 1 1, .erun 1, .brun 1 2] := by
  intro h
  have hlast := StatesMeet.last h rfl
  have hwrong := hlast 0 1 rfl
  revert hwrong
  decide

end Loops

end PokerReco.System
