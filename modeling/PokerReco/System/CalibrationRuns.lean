/-
  PokerReco.System.CalibrationRuns
  ────────────────────────────────
  **ONE THREAD, MANY RUNS: DO THE TABLES FOLLOW?**
  (`JFactory<T>::Get` and the factories that own calibration handlers).

  JANA calls a factory lazily.  `Get` runs `init` once, then, when the run
  number has changed, `erun` and `brun`, then `evnt`; until the event is over
  it only hands out what is there.  Five factories own handlers.  Each lists
  here the handlers it maps in `init`, updates in `brun` and clears in
  `erun`, in the order of its source.

      fa250Mode1CalibPedSubHit   erun leaves m_parms out
      IntVetoSiPMHit             erun leaves m_sipm_ampl out
      IntVetofa250Converter      PERSISTANT: after its first event `Get`
                                 never reaches `erun` or `brun` again

  A handler that no `erun` clears keeps the table of its first run.
  `tables_follow_iff` makes that exact.
-/
import PokerReco.System.CalibrationRegistry

namespace PokerReco.System

open PokerReco.Library

/-! ## §1. The factories and their handlers. -/

/-- The factories that own calibration handlers, by the class whose objects they
make. -/
inductive Factory where
  | fa250Mode1CalibPedSubHit
  | IntVetoSiPMHit
  | IntVetofa250Converter
  | CalorimeterHit
  | CalorimeterRawDataHit
  deriving DecidableEq, Repr

/-- The calibration handlers of these factories, under the names that the members
have in the source. -/
inductive Handler where
  | m_pedestals
  | m_parms
  | m_sipm_gain
  | m_sipm_ampl
  | m_thrCalib
  | m_ene
  | m_wb_gain
  deriving DecidableEq, Repr

/-- The table name a handler is constructed with.  Two handlers share one, and one
name lacks the slash. -/
def Handler.table : Handler → String
  | .m_pedestals => "/DAQ/pedestals"
  | .m_parms => "DAQ/parms"
  | .m_sipm_gain => "/InnerVeto/sipm_gain"
  | .m_sipm_ampl => "/InnerVeto/sipm_ampl"
  | .m_thrCalib => "/InnerVeto/sipm_ampl"
  | .m_ene => "/Calorimeter/Ene"
  | .m_wb_gain => "/Calorimeter/wb_gain"

/-- The factory whose member a handler is. -/
def Handler.owner : Handler → Factory
  | .m_pedestals => .fa250Mode1CalibPedSubHit
  | .m_parms => .fa250Mode1CalibPedSubHit
  | .m_sipm_gain => .IntVetoSiPMHit
  | .m_sipm_ampl => .IntVetoSiPMHit
  | .m_thrCalib => .IntVetofa250Converter
  | .m_ene => .CalorimeterHit
  | .m_wb_gain => .CalorimeterRawDataHit

namespace Factory

/-- The handlers `init` makes and maps. -/
def init : Factory → List Handler
  | fa250Mode1CalibPedSubHit => [.m_pedestals, .m_parms]
  | IntVetoSiPMHit => [.m_sipm_gain, .m_sipm_ampl]
  | IntVetofa250Converter => [.m_thrCalib]
  | CalorimeterHit => [.m_ene]
  | CalorimeterRawDataHit => [.m_wb_gain]

/-- The handlers `brun` updates. -/
def brun : Factory → List Handler
  | fa250Mode1CalibPedSubHit => [.m_pedestals, .m_parms]
  | IntVetoSiPMHit => [.m_sipm_gain, .m_sipm_ampl]
  | IntVetofa250Converter => [.m_thrCalib]
  | CalorimeterHit => [.m_ene]
  | CalorimeterRawDataHit => [.m_wb_gain]

/-- The handlers `erun` clears. -/
def erun : Factory → List Handler
  | fa250Mode1CalibPedSubHit => [.m_pedestals]
  | IntVetoSiPMHit => [.m_sipm_gain]
  | IntVetofa250Converter => [.m_thrCalib]
  | CalorimeterHit => [.m_ene]
  | CalorimeterRawDataHit => [.m_wb_gain]

/-- `brun` calls `SetFactoryFlag(PERSISTANT)`. -/
def setsPersistant : Factory → Bool
  | IntVetofa250Converter => true
  | _ => false

end Factory

/-! ## §2. `JFactory<T>::Get`. -/

/-- The members of `JFactory` and `JEventProcessor` that `Get` reads. -/
structure JFactory where
  init_called : Bool
  brun_called : Bool
  evnt_called : Bool
  erun_called : Bool
  persistant : Bool
  brun_runnumber : Int
  deriving DecidableEq, Repr

/-- One event loop: the registry, its factories, the run number of its
current event. -/
structure Loop where
  registry : Registry Handler
  factory : Factory → JFactory
  run_number : Int

namespace Loop

variable (table : String → Int → List (List ℚ))

/-- A step for a factory may go on with its members. -/
def modify (s : Loop) (f : Factory) (g : JFactory → JFactory) : Loop :=
  { s with factory := Function.update s.factory f (g (s.factory f)) }

/-- `init()`, and `init_called = 1`. -/
def callInit (s : Loop) (f : Factory) : Loop :=
  { s with registry := f.init.foldl Registry.addCalibration s.registry }.modify f
    ({ · with init_called := true })

/-- `erun()`, and `erun_called = 1`. -/
def callErun (s : Loop) (f : Factory) : Loop :=
  { s with registry := f.erun.foldl Registry.clearCalibration s.registry }.modify f
    ({ · with erun_called := true })

/-- `brun(eventLoop, run_number)` and the members set after it.  `nested` is
what `brun` asks of the event loop before it updates its handlers. -/
def callBrun (nested : Loop → Loop) (s : Loop) (f : Factory) : Loop :=
  let s := nested s
  { s with
    registry := f.brun.foldl (Registry.updateCalibration table s.run_number) s.registry }.modify f
    (fun r => { r with
      persistant := r.persistant || f.setsPersistant
      brun_called := true
      erun_called := false
      brun_runnumber := s.run_number })

/-- The part of `Get` before `brun`: `init` the first time, `erun` when the
run has changed.  `boundary f` is the answer of `CheckEventBoundary` for the
event `f` was last brought to a run in. -/
def settle (boundary : Factory → Bool) (f : Factory) (s : Loop) : Loop :=
  let s := if (s.factory f).init_called then s else s.callInit f
  let s :=
    if s.run_number ≠ (s.factory f).brun_runnumber then
      let s :=
        if (s.factory f).brun_called && !(s.factory f).erun_called then s.callErun f else s
      s.modify f ({ · with brun_called := false })
    else s
  if (s.factory f).brun_called && boundary f then s.modify f ({ · with brun_called := false })
  else s

/-- `Get`. -/
def getWith (nested : Loop → Loop) (boundary : Factory → Bool) (f : Factory) (s : Loop) : Loop :=
  if (s.factory f).evnt_called then s
  else
    let s := s.settle boundary f
    let s := if (s.factory f).brun_called then s else s.callBrun table nested f
    s.modify f ({ · with evnt_called := true })

/-- The `brun` of `IntVetoSiPMHit_factory` first gets the converter; the
others get nothing that owns a handler. -/
def nested (boundary : Factory → Bool) : Factory → Loop → Loop
  | .IntVetoSiPMHit, s => getWith table id boundary .IntVetofa250Converter s
  | _, s => s

/-- `Get` of a factory, with what its `brun` asks of the others. -/
def get (boundary : Factory → Bool) (f : Factory) (s : Loop) : Loop :=
  getWith table (nested table boundary f) boundary f s

/-- `JEventLoop::ClearFactories`: `Reset` does nothing to a persistant
factory. -/
def clearFactories (s : Loop) : Loop :=
  { s with
    factory := fun f =>
      if (s.factory f).persistant then s.factory f
      else { s.factory f with evnt_called := false } }

/-- What drives the loop: a new event of some run, or somebody asking for the
objects of a factory. -/
inductive Request where
  | newEvent (run_number : Int)
  | get (f : Factory) (boundary : Factory → Bool)

/-- One request of the event loop.  Every request is served, so that the result is
never `none`. -/
def exec (s : Loop) : Request → Option Loop
  | .newEvent run_number => some { s.clearFactories with run_number := run_number }
  | .get f boundary => some (s.get table boundary f)

/-- Before the first event: nothing is called, and `brun_runnumber` is -1. -/
def start : Loop where
  registry := { calibrations := fun _ => [], handlers := fun h => .new h.table }
  factory _ := ⟨false, false, false, false, false, -1⟩
  run_number := 0

variable {table}

/-! ## §3. What `Get` does, in one step. -/

/-- A change of the members of a factory does not touch the registry. -/
@[simp] theorem modify_registry (s : Loop) (f : Factory) (g : JFactory → JFactory) :
    (s.modify f g).registry = s.registry := rfl

/-- A change of the members of a factory does not touch the run number of the
event. -/
@[simp] theorem modify_run_number (s : Loop) (f : Factory) (g : JFactory → JFactory) :
    (s.modify f g).run_number = s.run_number := rfl

/-- The factory that is changed has the new members. -/
@[simp] theorem modify_factory_self (s : Loop) (f : Factory) (g : JFactory → JFactory) :
    (s.modify f g).factory f = g (s.factory f) := by
  simp [modify]

/-- Every other factory has the members that it had. -/
theorem modify_factory_of_ne (s : Loop) {f f' : Factory} (g : JFactory → JFactory)
    (h : f' ≠ f) : (s.modify f g).factory f' = s.factory f' := by
  simp [modify, h]

/-- `Get` goes through `brun`: nothing has been handed out for this event, and the
run is a new one for the factory or `CheckEventBoundary` says so. -/
def Reaches (boundary : Factory → Bool) (f : Factory) (s : Loop) : Prop :=
  (s.factory f).evnt_called = false
    ∧ ((s.factory f).brun_called = true →
        s.run_number ≠ (s.factory f).brun_runnumber ∨ boundary f = true)

/-- The registry when `brun` is called: with the handlers of `init` the first
time, and later with those of `erun` cleared. -/
def prepared (f : Factory) (s : Loop) : Registry Handler :=
  if (s.factory f).init_called = false then f.init.foldl Registry.addCalibration s.registry
  else if s.run_number ≠ (s.factory f).brun_runnumber then
    f.erun.foldl Registry.clearCalibration s.registry
  else s.registry

/-- Between requests a factory is either untouched or in a run, with `erun`
still to come. -/
def Resting (f : Factory) (s : Loop) : Prop :=
  (s.factory f).init_called = (s.factory f).brun_called
    ∧ ((s.factory f).brun_called = true → (s.factory f).erun_called = false)

/-- What is known of the loop when `brun` is called. -/
structure Settled (f : Factory) (s t : Loop) : Prop where
  registry : t.registry = prepared f s
  run_number : t.run_number = s.run_number
  others : ∀ g, g ≠ f → t.factory g = s.factory g
  init_called : (t.factory f).init_called = true
  brun_called : (t.factory f).brun_called = false
  persistant : (t.factory f).persistant = (s.factory f).persistant

/-- When `Get` goes through `brun`, what comes before it leaves the loop settled. -/
theorem settle_of_reaches {boundary : Factory → Bool} {f : Factory} {s : Loop}
    (hrest : Resting f s) (hreach : Reaches boundary f s) :
    Settled f s (s.settle boundary f) := by
  obtain ⟨hinit, herun⟩ := hrest
  obtain ⟨hevnt, hreach⟩ := hreach
  cases hb : (s.factory f).brun_called with
  | false =>
      -- the first time: `init`, no `erun`
      rw [hb] at hinit
      by_cases hr : s.run_number = (s.factory f).brun_runnumber
      · constructor <;> simp +contextual [settle, callInit, prepared, hinit, hb, hr,
          modify_factory_of_ne]
      · constructor <;> simp +contextual [settle, callInit, prepared, hinit, hb, hr,
          modify_factory_of_ne]
  | true =>
      rw [hb] at hinit
      have he := herun hb
      by_cases hr : s.run_number = (s.factory f).brun_runnumber
      · -- the same run: only an event boundary leads here
        have hbd : boundary f = true := (hreach hb).resolve_left (fun h => h hr)
        constructor <;> simp +contextual [settle, prepared, hinit, hb, hr, hbd,
          modify_factory_of_ne]
      · constructor <;> simp +contextual [settle, callErun, prepared, hinit, hb, hr, he,
          modify_factory_of_ne]

/-- What a `brun` and the rest of `Get` leave behind; `t` is the loop in which
`brun` was called. -/
structure Brought (table : String → Int → List (List ℚ)) (nested : Loop → Loop) (f : Factory)
    (t t' : Loop) : Prop where
  registry : t'.registry
    = f.brun.foldl (Registry.updateCalibration table t.run_number) (nested t).registry
  run_number : t'.run_number = t.run_number
  others : ∀ g, g ≠ f → t'.factory g = (nested t).factory g
  itself : t'.factory f = ⟨true, true, true, false,
    (t.factory f).persistant || f.setsPersistant, t.run_number⟩

variable (table) in
theorem getWith_of_reaches (nested : Loop → Loop) {boundary : Factory → Bool} {f : Factory}
    {s : Loop} (hrest : Resting f s) (hreach : Reaches boundary f s)
    (hrun : ∀ t, (nested t).run_number = t.run_number)
    (hself : ∀ t, (nested t).factory f = t.factory f) :
    ∃ t, Settled f s t ∧ Brought table nested f t (getWith table nested boundary f s) := by
  have hset := settle_of_reaches hrest hreach
  refine ⟨_, hset, ?_⟩
  have hget : getWith table nested boundary f s
      = ((s.settle boundary f).callBrun table nested f).modify f
          ({ · with evnt_called := true }) := by
    simp [getWith, hreach.1, hset.brun_called]
  rw [hget]
  constructor
  · simp [callBrun, hrun]
  · simp [callBrun, hrun]
  · intro g hg
    simp [callBrun, modify_factory_of_ne, hg]
  · simp [callBrun, hself, hrun, hset.init_called]

/-- Otherwise `Get` changes nothing but `evnt_called`. -/
theorem getWith_of_not_reaches {nested : Loop → Loop} {boundary : Factory → Bool} {f : Factory}
    {s : Loop} (hrest : Resting f s) (hreach : ¬ Reaches boundary f s) :
    getWith table nested boundary f s = s.modify f ({ · with evnt_called := true }) := by
  obtain ⟨hinit, -⟩ := hrest
  cases he : (s.factory f).evnt_called with
  | true =>
      have hfix : { s.factory f with evnt_called := true } = s.factory f := by rw [← he]
      have hsame : s.modify f ({ · with evnt_called := true }) = s := by
        simp only [modify, hfix, Function.update_eq_self]
      rw [hsame]
      simp [getWith, he]
  | false =>
      have hmiss : (s.factory f).brun_called = true
          ∧ s.run_number = (s.factory f).brun_runnumber ∧ boundary f = false := by
        by_contra hc
        refine hreach ⟨he, fun hb => ?_⟩
        by_contra hno
        rw [not_or, not_not] at hno
        exact hc ⟨hb, hno.1, by simpa using hno.2⟩
      obtain ⟨hb, hr, hbd⟩ := hmiss
      rw [hb] at hinit
      simp [getWith, settle, he, hinit, hb, hr, hbd]

/-! ## §4. The handlers after a `Get`. -/

/-- The registry lists the handlers of the factories that were initialised,
each under its table. -/
structure Filed (s : Loop) : Prop where
  table_eq : ∀ h, (s.registry.handlers h).table = h.table
  member : ∀ h name, h ∈ s.registry.calibrations name
    ↔ (s.factory h.owner).init_called = true ∧ h.table = name

/-- A registry that is filed has every handler under its own table. -/
theorem Filed.byTable {s : Loop} (hf : s.Filed) : s.registry.ByTable := by
  intro k name hk
  rw [hf.table_eq]
  exact ((hf.member k name).mp hk).2

/-- A handler of a factory that was initialised is found under its table. -/
theorem Filed.registered {s : Loop} (hf : s.Filed) {h : Handler}
    (hi : (s.factory h.owner).init_called = true) :
    h ∈ s.registry.calibrations (s.registry.handlers h).table :=
  (hf.member h _).mpr ⟨hi, (hf.table_eq h).symm⟩

/-- A handler that is the only one of its table is alone in its list. -/
theorem Filed.priv {s : Loop} (hf : s.Filed) {h : Handler}
    (halone : ∀ k : Handler, k.table = h.table → k = h) : s.registry.Private h := by
  intro k hk
  rw [hf.table_eq, hf.table_eq] at hk
  exact halone k hk

/-- `init` maps the handlers that the factory owns. -/
theorem mem_init (f : Factory) (h : Handler) : h ∈ f.init ↔ h.owner = f := by
  cases f <;> cases h <;> decide

/-- `brun` updates the handlers that the factory owns. -/
theorem mem_brun (f : Factory) (h : Handler) : h ∈ f.brun ↔ h.owner = f := by
  cases f <;> cases h <;> decide

/-- `erun` clears none but own handlers; it may leave some out. -/
theorem owner_of_mem_erun {f : Factory} {h : Handler} (hh : h ∈ f.erun) : h.owner = f := by
  cases f <;> cases h <;> revert hh <;> decide

/-- The converter owns one handler only. -/
theorem owner_ne_converter {h : Handler} (ht : h ≠ .m_thrCalib) :
    h.owner ≠ .IntVetofa250Converter := by
  intro ho
  cases h <;> first | exact ht rfl | cases ho

/-- `IntVetoSiPMHit_factory` owns two handlers only. -/
theorem owner_ne_sipm {h : Handler} (hg : h ≠ .m_sipm_gain) (ha : h ≠ .m_sipm_ampl) :
    h.owner ≠ .IntVetoSiPMHit := by
  intro ho
  cases h <;> first | exact hg rfl | exact ha rfl | cases ho

/-- `/InnerVeto/sipm_ampl` is the one table with two handlers. -/
theorem alone {h : Handler} (h1 : h ≠ .m_sipm_ampl) (h2 : h ≠ .m_thrCalib) (k : Handler)
    (hk : k.table = h.table) : k = h := by
  cases h <;> cases k <;>
    first | rfl | exact absurd rfl h1 | exact absurd rfl h2 | exact absurd hk (by decide)

/-- A handler that the `erun` of any factory but the converter clears is the only
one of its table. -/
theorem alone_of_mem_erun {f : Factory} (hf : f ≠ .IntVetofa250Converter) {h : Handler}
    (hh : h ∈ f.erun) (k : Handler) (hk : k.table = h.table) : k = h := by
  refine alone ?_ ?_ k hk
  · intro he
    subst he
    cases f <;> revert hh <;> decide
  · intro he
    subst he
    exact hf (owner_of_mem_erun hh).symm

/-- `brun` finds the registry filed, and the flags of the cleared handlers
down. -/
theorem Settled.filed {f : Factory} {s t : Loop} (hset : Settled f s t) (hf : s.Filed)
    (hown : f ≠ .IntVetofa250Converter ∨ (s.factory f).init_called = false) :
    t.Filed ∧ ∀ k, t.registry.handlers k =
      if (s.factory f).init_called = true ∧ s.run_number ≠ (s.factory f).brun_runnumber
          ∧ k ∈ f.erun
      then (s.registry.handlers k).setLoadedCurrentRun false
      else s.registry.handlers k := by
  -- `Get` initialises no factory but its own
  have hinit : ∀ h : Handler, (t.factory h.owner).init_called = true
      ↔ (s.factory h.owner).init_called = true ∨ h.owner = f := by
    intro h
    by_cases ho : h.owner = f
    · rw [ho]
      simp [hset.init_called]
    · rw [hset.others _ ho]
      simp [ho]
  cases hi : (s.factory f).init_called with
  | false =>
      have hreg : t.registry = f.init.foldl Registry.addCalibration s.registry := by
        rw [hset.registry, prepared, if_pos hi]
      refine ⟨⟨fun h => ?_, fun h name => ?_⟩, fun k => ?_⟩
      · rw [hreg, Registry.foldl_addCalibration_handlers]
        exact hf.table_eq h
      · rw [hreg, Registry.mem_foldl_addCalibration, hf.member, mem_init, hf.table_eq, hinit]
        constructor
        · rintro (⟨h1, h2⟩ | ⟨h1, h2⟩)
          · exact ⟨Or.inl h1, h2⟩
          · exact ⟨Or.inr h1, h2.symm⟩
        · rintro ⟨h1 | h1, h2⟩
          · exact Or.inl ⟨h1, h2⟩
          · exact Or.inr ⟨h1, h2.symm⟩
      · rw [hreg, Registry.foldl_addCalibration_handlers]
        simp
  | true =>
      -- `init` was before: the registry is as it was, or `erun` went over it
      have hne : f ≠ .IntVetofa250Converter := by
        rcases hown with h | h
        · exact h
        · rw [hi] at h
          cases h
      have hsame : ∀ h : Handler, (t.factory h.owner).init_called = true
          ↔ (s.factory h.owner).init_called = true := by
        intro h
        rw [hinit h]
        constructor
        · rintro (h1 | h1)
          · exact h1
          · rw [h1, hi]
        · exact Or.inl
      by_cases hr : s.run_number = (s.factory f).brun_runnumber
      · have hreg : t.registry = s.registry := by
          rw [hset.registry]
          simp [prepared, hi, hr]
        refine ⟨⟨fun h => ?_, fun h name => ?_⟩, fun k => ?_⟩
        · rw [hreg]
          exact hf.table_eq h
        · rw [hreg, hf.member, hsame]
        · rw [hreg]
          simp [hr]
      · have hreg : t.registry = f.erun.foldl Registry.clearCalibration s.registry := by
          rw [hset.registry]
          simp [prepared, hi, hr]
        have hclear := fun k => Registry.foldl_clearCalibration_private k f.erun hf.byTable
          (fun h hh => ⟨hf.registered (by rw [owner_of_mem_erun hh, hi]),
            hf.priv (alone_of_mem_erun hne hh)⟩)
        refine ⟨⟨fun h => ?_, fun h name => ?_⟩, fun k => ?_⟩
        · rw [hreg, (hclear h).2]
          split <;> exact hf.table_eq h
        · rw [hreg, (hclear h).1, hf.member, hsame]
        · rw [hreg, (hclear k).2]
          simp [hr]

/-! ## §5. The invariant between requests. -/

/-- The table last given to `fillCalib`. -/
def raw (s : Loop) (h : Handler) : List (List ℚ) := (s.registry.handlers h).rawCalibData

/-- Every handler of every factory that was brought to a run holds the table
of that run. -/
def Follows (table : String → Int → List (List ℚ)) (s : Loop) : Prop :=
  ∀ h : Handler, (s.factory h.owner).brun_called = true →
    s.raw h = table h.table (s.factory h.owner).brun_runnumber

/-- The invariant of the event loop between requests: what is filed, handed out
and loaded agrees with the members of the factories. -/
structure Inv (s : Loop) : Prop where
  filed : s.Filed
  resting : ∀ f, Resting f s
  /-- What was handed out was brought to a run before. -/
  evnt : ∀ f, (s.factory f).evnt_called = true → (s.factory f).brun_called = true
  /-- Once brought, the converter is never called again. -/
  converter : (s.factory .IntVetofa250Converter).brun_called = true →
    (s.factory .IntVetofa250Converter).persistant = true
      ∧ (s.factory .IntVetofa250Converter).evnt_called = true
  loaded : ∀ h : Handler,
    (s.registry.handlers h).hasLoadedCurrentRun = (s.factory h.owner).brun_called
  /-- The two handlers of `/InnerVeto/sipm_ampl` hold the same table. -/
  ampl : (s.factory .IntVetoSiPMHit).brun_called = true →
    (s.factory .IntVetofa250Converter).brun_called = true ∧ s.raw .m_sipm_ampl = s.raw .m_thrCalib

/-- Had the other factory been brought, it would have got the converter. -/
theorem Inv.sipm_not_brought {s : Loop} (hinv : s.Inv)
    (hb : (s.factory .IntVetofa250Converter).brun_called = false) :
    (s.factory .IntVetoSiPMHit).brun_called = false := by
  by_contra hc
  have hbrought := (hinv.ampl (by simpa using hc)).1
  rw [hb] at hbrought
  cases hbrought

/-- Before the first event nothing is filed, and no factory has been called. -/
theorem start_inv : start.Inv where
  filed := ⟨fun h => rfl, fun h name => by simp [start]⟩
  resting f := ⟨rfl, fun h => rfl⟩
  evnt f h := by cases h
  converter h := by cases h
  loaded h := rfl
  ampl h := by cases h

/-- Before the first event no factory has a run that its tables could differ from. -/
theorem start_follows : start.Follows table := by
  intro h hb
  cases hb

/-- The loops differ in what was handed out only: no handler has changed and no
factory was brought anywhere. -/
structure SameRuns (s s' : Loop) : Prop where
  registry : s'.registry = s.registry
  factory : ∀ f, ∃ evnt_called, s'.factory f = { s.factory f with evnt_called := evnt_called }

/-- What is handed out, and kept by the persistant converter, is all that such a
step may change. -/
theorem SameRuns.inv {s s' : Loop} (hsame : SameRuns s s') (hinv : s.Inv)
    (hevnt : ∀ f, (s'.factory f).evnt_called = true → (s.factory f).brun_called = true)
    (hkept : (s.factory .IntVetofa250Converter).persistant = true →
      (s.factory .IntVetofa250Converter).evnt_called = true →
      (s'.factory .IntVetofa250Converter).evnt_called = true) : s'.Inv := by
  -- only the flags of `evnt` can differ
  have hinit : ∀ f, (s'.factory f).init_called = (s.factory f).init_called := by
    intro f
    obtain ⟨e, h⟩ := hsame.factory f
    rw [h]
  have hbrun : ∀ f, (s'.factory f).brun_called = (s.factory f).brun_called := by
    intro f
    obtain ⟨e, h⟩ := hsame.factory f
    rw [h]
  have herun : ∀ f, (s'.factory f).erun_called = (s.factory f).erun_called := by
    intro f
    obtain ⟨e, h⟩ := hsame.factory f
    rw [h]
  constructor
  case filed =>
    constructor
    · intro h
      rw [hsame.registry]
      exact hinv.filed.table_eq h
    · intro h name
      rw [hsame.registry, hinit]
      exact hinv.filed.member h name
  case resting =>
    intro f
    unfold Resting
    rw [hinit, hbrun, herun]
    exact hinv.resting f
  case evnt =>
    intro f he
    rw [hbrun]
    exact hevnt f he
  case converter =>
    intro hb
    rw [hbrun] at hb
    obtain ⟨hp, he⟩ := hinv.converter hb
    refine ⟨?_, hkept hp he⟩
    obtain ⟨e, h⟩ := hsame.factory .IntVetofa250Converter
    rw [h]
    exact hp
  case loaded =>
    intro h
    rw [hsame.registry, hbrun]
    exact hinv.loaded h
  case ampl =>
    intro hb
    unfold raw
    rw [hbrun] at hb ⊢
    rw [hsame.registry]
    exact hinv.ampl hb

/-- When no handler changes and no factory is brought anywhere, the tables follow
as before. -/
theorem SameRuns.follows {s s' : Loop} (hsame : SameRuns s s') (hfol : s.Follows table) :
    s'.Follows table := by
  intro h hb
  obtain ⟨e, hfac⟩ := hsame.factory h.owner
  rw [hfac] at hb ⊢
  unfold raw
  rw [hsame.registry]
  exact hfol h hb

/-- A new event brings no factory anywhere by itself, whatever its run is. -/
theorem newEvent_sameRuns (s : Loop) (run_number : Int) :
    SameRuns s { s.clearFactories with run_number := run_number } where
  registry := rfl
  factory f := by
    show ∃ e, (if (s.factory f).persistant then s.factory f
      else { s.factory f with evnt_called := false }) = _
    split
    · exact ⟨(s.factory f).evnt_called, rfl⟩
    · exact ⟨false, rfl⟩

/-- A new event resets what was handed out, the persistant factories apart. -/
theorem newEvent_inv {s : Loop} (hinv : s.Inv) (run_number : Int) :
    ({ s.clearFactories with run_number := run_number } : Loop).Inv := by
  refine (newEvent_sameRuns s run_number).inv hinv ?_ ?_
  · intro f he
    change (if (s.factory f).persistant then s.factory f
      else { s.factory f with evnt_called := false }).evnt_called = true at he
    split at he
    · exact hinv.evnt f he
    · cases he
  · intro hp he
    show (if (s.factory .IntVetofa250Converter).persistant then s.factory .IntVetofa250Converter
      else _).evnt_called = true
    rw [if_pos hp]
    exact he

/-- What `Get` did to the loop when it brought factories to the current run:
each factory is as before or just brought. -/
structure Moved (s s' : Loop) : Prop where
  filed : s'.Filed
  factory : ∀ g, s'.factory g = s.factory g
    ∨ ∃ p, s'.factory g = ⟨true, true, true, false, p, s.run_number⟩
        ∧ (g = .IntVetofa250Converter → p = true)
  loaded : ∀ h : Handler,
    (s'.registry.handlers h).hasLoadedCurrentRun = (s'.factory h.owner).brun_called
  ampl : (s'.factory .IntVetoSiPMHit).brun_called = true →
    (s'.factory .IntVetofa250Converter).brun_called = true
      ∧ s'.raw .m_sipm_ampl = s'.raw .m_thrCalib

/-- A step that brings factories to the current run keeps the invariant. -/
theorem Moved.inv {s s' : Loop} (hmov : Moved s s') (hinv : s.Inv) : s'.Inv where
  filed := hmov.filed
  resting f := by
    unfold Resting
    rcases hmov.factory f with h | ⟨p, h, -⟩
    · rw [h]
      exact hinv.resting f
    · rw [h]
      exact ⟨rfl, fun _ => rfl⟩
  evnt f he := by
    rcases hmov.factory f with h | ⟨p, h, -⟩
    · rw [h] at he ⊢
      exact hinv.evnt f he
    · rw [h]
  converter hb := by
    rcases hmov.factory .IntVetofa250Converter with h | ⟨p, h, hp⟩
    · rw [h] at hb ⊢
      exact hinv.converter hb
    · rw [h]
      exact ⟨hp rfl, rfl⟩
  loaded := hmov.loaded
  ampl := hmov.ampl

/-- To hand out the objects that are there changes no handler. -/
theorem handOut_sameRuns (s : Loop) (f : Factory) :
    SameRuns s (s.modify f ({ · with evnt_called := true })) where
  registry := rfl
  factory g := by
    by_cases hg : g = f
    · subst hg
      exact ⟨true, modify_factory_self s g _⟩
    · exact ⟨(s.factory g).evnt_called, modify_factory_of_ne s _ hg⟩

/-- A `Get` that only hands out keeps the invariant, as its factory was brought to
a run before. -/
theorem handOut_inv {s : Loop} (hinv : s.Inv) {f : Factory}
    (hb : (s.factory f).brun_called = true) :
    (s.modify f ({ · with evnt_called := true })).Inv := by
  refine (handOut_sameRuns s f).inv hinv ?_ ?_
  · intro g he
    by_cases hg : g = f
    · rw [hg]
      exact hb
    · rw [modify_factory_of_ne s _ hg] at he
      exact hinv.evnt g he
  · intro _ he
    by_cases hg : Factory.IntVetofa250Converter = f
    · rw [← hg, modify_factory_self]
    · rw [modify_factory_of_ne s _ hg]
      exact he

/-- After a `brun` the registry is still filed. -/
theorem Brought.filed {nested : Loop → Loop} {f : Factory} {t t' : Loop}
    (hb : Brought table nested f t t') (hf : (nested t).Filed)
    (hinit : ((nested t).factory f).init_called = true) : t'.Filed := by
  -- updates change tables and flags only
  have hframe := Registry.foldl_updateCalibration_frame table t.run_number f.brun
    (fun h hh => hf.registered (by rw [(mem_brun f h).mp hh, hinit]))
  have hsame : ∀ g, (t'.factory g).init_called = ((nested t).factory g).init_called := by
    intro g
    by_cases hg : g = f
    · subst hg
      rw [hb.itself, hinit]
    · rw [hb.others g hg]
  constructor
  · intro h
    rw [hb.registry, hframe.2, hf.table_eq]
  · intro h name
    rw [hb.registry, hframe.1, hf.member, hsame]

/-! ## §6. Bringing a factory to a run. -/

/-- The handler is read from the database when its factory is brought to the
run. -/
def Reread (f : Factory) (s : Loop) (h : Handler) : Prop :=
  (s.factory f).brun_called = false
    ∨ s.run_number ≠ (s.factory f).brun_runnumber ∧ h ∈ f.erun

/-- The update of a handler whose flag is down, at the first time or by
`erun`. -/
theorem Settled.refresh_reread {f : Factory} {s t : Loop} (hset : Settled f s t) (hinv : s.Inv)
    (hconv : f ≠ .IntVetofa250Converter) {k : Handler} (hk : k.owner = f) (hre : Reread f s k)
    (run : Int) :
    Registry.refresh table run (t.registry.handlers k)
      = Registry.load (table k.table run) (s.registry.handlers k) := by
  rw [(hset.filed hinv.filed (Or.inl hconv)).2 k]
  have hinit := (hinv.resting f).1
  cases hb : (s.factory f).brun_called with
  | false =>
      have hl : (s.registry.handlers k).hasLoadedCurrentRun = false := by
        rw [hinv.loaded, hk, hb]
      rw [hb] at hinit
      simp [hinit, Registry.refresh, hl, hinv.filed.table_eq]
  | true =>
      rw [hb] at hinit
      obtain ⟨hr, hmem⟩ := hre.resolve_left (by rw [hb]; simp)
      rw [if_pos ⟨hinit, hr, hmem⟩]
      simp [Registry.refresh, CalibrationHandlerBase.setLoadedCurrentRun, Registry.load,
        CalibrationHandlerBase.fillCalib, hinv.filed.table_eq]

/-- The update of a handler whose flag is still up. -/
theorem Settled.refresh_kept {f : Factory} {s t : Loop} (hset : Settled f s t) (hinv : s.Inv)
    (hconv : f ≠ .IntVetofa250Converter) {k : Handler} (hk : k.owner = f)
    (hnre : ¬ Reread f s k) (run : Int) :
    Registry.refresh table run (t.registry.handlers k) = s.registry.handlers k := by
  have hb : (s.factory f).brun_called = true := by
    by_contra hb
    exact hnre (Or.inl (by simpa using hb))
  have hl : (s.registry.handlers k).hasLoadedCurrentRun = true := by
    rw [hinv.loaded, hk, hb]
  rw [(hset.filed hinv.filed (Or.inl hconv)).2 k, if_neg]
  · simp [Registry.refresh, hl]
  · rintro ⟨-, hr, hmem⟩
    exact hnre (Or.inr ⟨hr, hmem⟩)

variable (table) in
/-- Bringing a factory that shares no table: its own handlers are read anew or
kept, and all else is as before. -/
theorem get_plain {boundary : Factory → Bool} {f : Factory} {s : Loop}
    (hsipm : f ≠ .IntVetoSiPMHit) (hconv : f ≠ .IntVetofa250Converter) (hinv : s.Inv)
    (hreach : Reaches boundary f s) :
    ∃ s', s.get table boundary f = s' ∧ s'.Filed
      ∧ (∀ g, g ≠ f → s'.factory g = s.factory g)
      ∧ (∃ p, s'.factory f = ⟨true, true, true, false, p, s.run_number⟩)
      ∧ (∀ k : Handler, k.owner = f → Reread f s k →
          s'.registry.handlers k
            = Registry.load (table k.table s.run_number) (s.registry.handlers k))
      ∧ (∀ k : Handler, ¬ (k.owner = f ∧ Reread f s k) →
          s'.registry.handlers k = s.registry.handlers k) := by
  have hnest : nested table boundary f = fun s => s := by
    cases f with
    | IntVetoSiPMHit => exact absurd rfl hsipm
    | _ => rfl
  obtain ⟨t, hset, hbr⟩ := getWith_of_reaches table (fun s => s)
    (hinv.resting f) hreach (fun _ => rfl) (fun _ => rfl)
  obtain ⟨htf, hth⟩ := hset.filed hinv.filed (Or.inl hconv)
  have hrun : t.run_number = s.run_number := hset.run_number
  -- `brun` updates the handlers of this factory, each of which has a table of its own
  have hupd := fun k => Registry.foldl_updateCalibration_private table t.run_number k f.brun
    htf.byTable (fun h hh => by
      have ho : h.owner = f := (mem_brun f h).mp hh
      have hne1 : h ≠ .m_sipm_ampl := fun he => hsipm (by rw [← ho, he]; rfl)
      have hne2 : h ≠ .m_thrCalib := fun he => hconv (by rw [← ho, he]; rfl)
      exact ⟨htf.registered (by rw [ho, hset.init_called]), htf.priv (alone hne1 hne2)⟩)
  refine ⟨_, rfl, ?_, ?_, ?_, ?_, ?_⟩
  · unfold get
    rw [hnest]
    exact hbr.filed htf hset.init_called
  · intro g hg
    unfold get
    rw [hnest, hbr.others g hg, hset.others g hg]
  · unfold get
    rw [hnest, hbr.itself, hrun]
    exact ⟨_, rfl⟩
  · intro k hk hre
    unfold get
    rw [hnest, hbr.registry, (hupd k).2, if_pos ((mem_brun f k).mpr hk), hrun]
    exact hset.refresh_reread hinv hconv hk hre _
  · intro k hk
    unfold get
    rw [hnest, hbr.registry, (hupd k).2, hrun]
    by_cases ho : k.owner = f
    · rw [if_pos ((mem_brun f k).mpr ho)]
      exact hset.refresh_kept hinv hconv ho (fun h => hk ⟨ho, h⟩) _
    · rw [if_neg (fun h => ho ((mem_brun f k).mp h)), hth k, if_neg]
      rintro ⟨-, -, hmem⟩
      exact ho (owner_of_mem_erun hmem)

/-- A step for the factory `f`: the run number and the other factories are as
they were. -/
def For (f : Factory) (s s' : Loop) : Prop :=
  s'.run_number = s.run_number ∧ ∀ g, g ≠ f → s'.factory g = s.factory g

namespace For

variable {f : Factory} {s s' t : Loop}

/-- To do nothing is a step for any factory. -/
theorem refl (f : Factory) (s : Loop) : For f s s := ⟨rfl, fun _ _ => rfl⟩

theorem modify (h : For f s s') (g : JFactory → JFactory) : For f s (s'.modify f g) :=
  ⟨h.1, fun _ hg => (modify_factory_of_ne s' g hg).trans (h.2 _ hg)⟩

/-- A step for a factory may go on with the registry. -/
theorem registry (h : For f s s') (r : Registry Handler) : For f s { s' with registry := r } := h

/-- A step for a factory may be one of two. -/
theorem ite {c : Prop} [Decidable c] (h : For f s s') (h' : For f s t) :
    For f s (if c then s' else t) := by
  split
  · exact h
  · exact h'

end For

/-- What `Get` does before `brun` concerns its own factory only. -/
theorem settle_for (boundary : Factory → Bool) (f : Factory) (s : Loop) :
    For f s (s.settle boundary f) := by
  unfold settle
  extract_lets s₁ s₂ s₃
  have h₁ : For f s s₁ := .ite (.refl f s) (((For.refl f s).registry _).modify _)
  have h₂ : For f s s₂ := .ite ((h₁.registry _).modify _) h₁
  have h₃ : For f s s₃ := .ite (h₂.modify _) h₁
  exact .ite (h₃.modify _) h₃

/-- A `Get` whose `brun` asks for nothing concerns its own factory only. -/
theorem getWith_for (boundary : Factory → Bool) (f : Factory) (t : Loop) :
    For f t (getWith table id boundary f t) := by
  unfold getWith
  extract_lets s₁ s₂
  have h₁ : For f t s₁ := settle_for boundary f t
  have h₂ : For f t s₂ := .ite h₁ ((h₁.registry _).modify _)
  exact .ite (.refl f t) (h₂.modify _)

variable (table) in
/-- The first `Get` of the converter, alone or inside the `brun` of
`IntVetoSiPMHit_factory`: every registered handler of its table is filled. -/
theorem getWith_converter_first (boundary : Factory → Bool) {t : Loop} (hf : t.Filed)
    (hrest : Resting .IntVetofa250Converter t)
    (hb : (t.factory .IntVetofa250Converter).brun_called = false)
    (he : (t.factory .IntVetofa250Converter).evnt_called = false)
    (hl : ∀ k : Handler, k.table = Handler.m_thrCalib.table →
      (t.registry.handlers k).hasLoadedCurrentRun = false) :
    ∃ t', getWith table id boundary .IntVetofa250Converter t = t' ∧ t'.Filed
      ∧ t'.factory .IntVetofa250Converter = ⟨true, true, true, false, true, t.run_number⟩
      ∧ ∀ k : Handler, t'.registry.handlers k =
          if k.table = Handler.m_thrCalib.table
              ∧ (k = .m_thrCalib ∨ (t.factory k.owner).init_called = true)
          then Registry.load (table k.table t.run_number) (t.registry.handlers k)
          else t.registry.handlers k := by
  -- a first `Get` goes through `init` and `brun`, not through `erun`
  have hreach : Reaches boundary .IntVetofa250Converter t :=
    ⟨he, fun h => by rw [hb] at h; cases h⟩
  obtain ⟨u, hset, hbr⟩ := getWith_of_reaches table id hrest hreach
    (fun _ => rfl) (fun _ => rfl)
  have hi : (t.factory .IntVetofa250Converter).init_called = false := by rw [hrest.1, hb]
  obtain ⟨huf, huh⟩ := hset.filed hf (Or.inr hi)
  have hsame : ∀ k, u.registry.handlers k = t.registry.handlers k := by
    intro k
    rw [huh k, if_neg]
    rintro ⟨h, -⟩
    rw [hi] at h
    cases h
  have hthr : Handler.m_thrCalib
      ∈ u.registry.calibrations (u.registry.handlers .m_thrCalib).table :=
    huf.registered hset.init_called
  have htab : (u.registry.handlers .m_thrCalib).table = Handler.m_thrCalib.table :=
    huf.table_eq _
  -- nothing of this table is loaded, so the update reads the database
  have hsrc : Registry.source table u.run_number u.registry Handler.m_thrCalib.table
      = table Handler.m_thrCalib.table t.run_number := by
    rcases Registry.source_cases table u.run_number u.registry Handler.m_thrCalib.table with
      ⟨c, hc, hlc, -⟩ | ⟨-, h⟩
    · rw [hsame c, hl c ((huf.member c _).mp hc).2] at hlc
      cases hlc
    · rw [h, hset.run_number]
  refine ⟨_, rfl, hbr.filed huf hset.init_called, ?_, fun k => ?_⟩
  · rw [hbr.itself, hset.run_number]
    simp [Factory.setsPersistant]
  · rw [hbr.registry]
    show (Registry.updateCalibration table u.run_number u.registry .m_thrCalib).handlers k = _
    rw [Registry.updateCalibration_handlers table u.run_number u.registry hthr, htab, hsrc,
      hsame k]
    have hmem : k ∈ u.registry.calibrations Handler.m_thrCalib.table
        ↔ k.table = Handler.m_thrCalib.table
          ∧ (k = .m_thrCalib ∨ (t.factory k.owner).init_called = true) := by
      rw [huf.member, and_comm]
      refine and_congr_right (fun hk => ?_)
      by_cases ho : k.owner = .IntVetofa250Converter
      · have hkt : k = .m_thrCalib := by
          cases k <;> first | rfl | cases ho
        rw [hkt]
        simp [Handler.owner, hset.init_called]
      · rw [hset.others _ ho]
        constructor
        · exact Or.inr
        · rintro (rfl | h)
          · exact absurd rfl ho
          · exact h
    by_cases hk : k.table = Handler.m_thrCalib.table
    · simp [hmem, hl k hk, hk]
    · simp [hmem, hk]

/-- What a `Get` of `IntVetoSiPMHit` leaves behind when it goes through
`brun`. -/
structure SipmBrought (table : String → Int → List (List ℚ)) (s s' : Loop) : Prop where
  filed : s'.Filed
  itself : ∃ p, s'.factory .IntVetoSiPMHit = ⟨true, true, true, false, p, s.run_number⟩
  others : ∀ g, g ≠ .IntVetoSiPMHit → g ≠ .IntVetofa250Converter → s'.factory g = s.factory g
  untouched : ∀ k : Handler, k ≠ .m_sipm_gain → k ≠ .m_sipm_ampl → k ≠ .m_thrCalib →
    s'.registry.handlers k = s.registry.handlers k
  gain_reread : Reread .IntVetoSiPMHit s .m_sipm_gain →
    s'.registry.handlers .m_sipm_gain
      = Registry.load (table Handler.m_sipm_gain.table s.run_number)
          (s.registry.handlers .m_sipm_gain)
  gain_kept : ¬ Reread .IntVetoSiPMHit s .m_sipm_gain →
    s'.registry.handlers .m_sipm_gain = s.registry.handlers .m_sipm_gain
  /-- The converter was there: its table is copied, whatever run it is of. -/
  copied : (s.factory .IntVetofa250Converter).brun_called = true →
    s'.factory .IntVetofa250Converter = s.factory .IntVetofa250Converter
      ∧ s'.registry.handlers .m_thrCalib = s.registry.handlers .m_thrCalib
      ∧ (s'.registry.handlers .m_sipm_ampl).hasLoadedCurrentRun = true
      ∧ s'.raw .m_sipm_ampl = s.raw .m_thrCalib
  /-- The converter was not there: both read the database. -/
  read : (s.factory .IntVetofa250Converter).brun_called = false →
    s'.factory .IntVetofa250Converter = ⟨true, true, true, false, true, s.run_number⟩
      ∧ ∀ k : Handler, k = .m_sipm_ampl ∨ k = .m_thrCalib →
          s'.registry.handlers k
            = Registry.load (table k.table s.run_number) (s.registry.handlers k)

variable (table) in
/-- The two updates in the `brun` of `IntVetoSiPMHit_factory`. -/
theorem sipm_updates {u : Loop} (hf : u.Filed) (run : Int)
    (hi : (u.factory .IntVetoSiPMHit).init_called = true) :
    ∃ rows, (∀ k : Handler,
        (Factory.IntVetoSiPMHit.brun.foldl (Registry.updateCalibration table run)
            u.registry).handlers k =
          if k = .m_sipm_gain then Registry.refresh table run (u.registry.handlers k)
          else if k.table = Handler.m_sipm_ampl.table
              ∧ (u.factory k.owner).init_called = true
              ∧ (u.registry.handlers k).hasLoadedCurrentRun = false
            then Registry.load rows (u.registry.handlers k)
          else u.registry.handlers k)
      ∧ ((∃ c : Handler, c.table = Handler.m_sipm_ampl.table
            ∧ (u.registry.handlers c).hasLoadedCurrentRun = true ∧ rows = u.raw c)
          ∨ ∀ c : Handler, c.table = Handler.m_sipm_ampl.table →
            (u.factory c.owner).init_called = true →
            (u.registry.handlers c).hasLoadedCurrentRun = false) := by
  have hgain := Registry.updateCalibration_private table run hf.byTable
    (hf.registered (h := .m_sipm_gain) hi)
    (hf.priv (alone (h := .m_sipm_gain) (by simp) (by simp)))
  -- the registry between the two updates
  let reg := Registry.updateCalibration table run u.registry .m_sipm_gain
  have hampl : reg.handlers .m_sipm_ampl = u.registry.handlers .m_sipm_ampl := by
    rw [hgain]
    rfl
  have htab : (reg.handlers .m_sipm_ampl).table = Handler.m_sipm_ampl.table := by
    rw [hampl, hf.table_eq]
  have hcal : reg.calibrations = u.registry.calibrations :=
    Registry.updateCalibration_calibrations table run u.registry .m_sipm_gain
  have hreg : Handler.m_sipm_ampl ∈ reg.calibrations (reg.handlers .m_sipm_ampl).table := by
    rw [hcal, hampl]
    exact hf.registered hi
  have hother : ∀ k : Handler, k.table = Handler.m_sipm_ampl.table →
      reg.handlers k = u.registry.handlers k := by
    intro k hk
    rw [hgain k, if_neg]
    intro he
    subst he
    exact absurd hk (by decide)
  refine ⟨Registry.source table run reg Handler.m_sipm_ampl.table, fun k => ?_, ?_⟩
  · show (Registry.updateCalibration table run reg .m_sipm_ampl).handlers k = _
    rw [Registry.updateCalibration_handlers table run reg hreg, htab, hcal]
    by_cases hkt : k.table = Handler.m_sipm_ampl.table
    · have hkg : k ≠ .m_sipm_gain := by
        intro he
        subst he
        exact absurd hkt (by decide)
      rw [if_neg hkg, hother k hkt]
      simp [hf.member, hkt]
    · simp [hf.member, hkt]
      exact hgain k
  · rcases Registry.source_cases table run reg Handler.m_sipm_ampl.table with
      ⟨c, hc, hlc, hsrc⟩ | ⟨hnone, -⟩
    · rw [hcal, hf.member] at hc
      rw [hother c hc.2] at hlc hsrc
      exact Or.inl ⟨c, hc.2, hlc, hsrc⟩
    · refine Or.inr (fun c hc hci => ?_)
      rw [← hother c hc]
      exact hnone c (by rw [hcal, hf.member]; exact ⟨hci, hc⟩)

/-- `erun` of `IntVetoSiPMHit_factory` clears the gains only. -/
theorem Settled.kept {s t : Loop} (hset : Settled .IntVetoSiPMHit s t) (hf : s.Filed)
    {k : Handler} (hk : k ≠ .m_sipm_gain) : t.registry.handlers k = s.registry.handlers k := by
  rw [(hset.filed hf (Or.inl (by simp))).2 k, if_neg]
  rintro ⟨-, -, hmem⟩
  exact hk (by simpa [Factory.erun] using hmem)

variable (table) in
/-- The converter inside the `brun` of `IntVetoSiPMHit_factory`: it is there
already, or it is brought to the run now. -/
theorem nested_converter (boundary : Factory → Bool) {s t : Loop} (hinv : s.Inv)
    (hset : Settled .IntVetoSiPMHit s t) :
    ∃ u, getWith table id boundary .IntVetofa250Converter t = u ∧ u.Filed
      ∧ ((s.factory .IntVetofa250Converter).brun_called = true → u = t)
      ∧ ((s.factory .IntVetofa250Converter).brun_called = false →
          u.factory .IntVetofa250Converter = ⟨true, true, true, false, true, s.run_number⟩
          ∧ ∀ k : Handler, u.registry.handlers k =
              if k = .m_sipm_ampl ∨ k = .m_thrCalib
              then Registry.load (table k.table s.run_number) (t.registry.handlers k)
              else t.registry.handlers k) := by
  have htf := (hset.filed hinv.filed (Or.inl (by simp))).1
  have hconv : t.factory .IntVetofa250Converter = s.factory .IntVetofa250Converter :=
    hset.others _ (by simp)
  cases hb : (s.factory .IntVetofa250Converter).brun_called with
  | true =>
      -- a converter that has run is persistent, and so is not called again
      have he : (t.factory .IntVetofa250Converter).evnt_called = true := by
        rw [hconv]
        exact (hinv.converter hb).2
      refine ⟨t, by simp [getWith, he], htf, fun _ => rfl, fun h => ?_⟩
      cases h
  | false =>
      -- else it is called for the first time, and both its tables are read
      have hrest : Resting .IntVetofa250Converter t := by
        unfold Resting
        rw [hconv]
        exact hinv.resting _
      have hb' : (t.factory .IntVetofa250Converter).brun_called = false := by rw [hconv, hb]
      have he' : (t.factory .IntVetofa250Converter).evnt_called = false := by
        rw [hconv]
        by_contra he
        have := hinv.evnt _ (by simpa using he)
        rw [hb] at this
        cases this
      have hsipm := hinv.sipm_not_brought hb
      -- no handler of the shared table is loaded
      have hl : ∀ k : Handler, k.table = Handler.m_thrCalib.table →
          (t.registry.handlers k).hasLoadedCurrentRun = false := by
        intro k hk
        have hkg : k ≠ .m_sipm_gain := by
          intro h
          subst h
          exact absurd hk (by decide)
        rw [hset.kept hinv.filed hkg, hinv.loaded]
        cases k <;> first | exact hsipm | exact hb | exact absurd hk (by decide)
      obtain ⟨u, hget, hf', hfac, hh⟩ :=
        getWith_converter_first table boundary htf hrest hb' he' hl
      refine ⟨u, hget, hf', fun h => (by cases h), fun _ => ⟨?_, fun k => ?_⟩⟩
      · rw [hfac, hset.run_number]
      · rw [hh k, hset.run_number]
        refine if_congr ?_ rfl rfl
        have hi := hset.init_called
        cases k <;> simp [Handler.table, Handler.owner, hi]

/-- With the converter there and the amplitudes not loaded, the source of the
update is a loaded handler of the table: the converter's. -/
theorem sipm_rows {s t : Loop} {rows : List (List ℚ)} (hinv : s.Inv)
    (hset : Settled .IntVetoSiPMHit s t)
    (hb : (s.factory .IntVetofa250Converter).brun_called = true)
    (hl : (s.registry.handlers .m_sipm_ampl).hasLoadedCurrentRun = false)
    (hrows : (∃ c : Handler, c.table = Handler.m_sipm_ampl.table
        ∧ (t.registry.handlers c).hasLoadedCurrentRun = true ∧ rows = t.raw c)
      ∨ ∀ c : Handler, c.table = Handler.m_sipm_ampl.table →
        (t.factory c.owner).init_called = true →
        (t.registry.handlers c).hasLoadedCurrentRun = false) :
    rows = (s.registry.handlers .m_thrCalib).rawCalibData := by
  have hthr : (s.registry.handlers .m_thrCalib).hasLoadedCurrentRun = true := by
    rw [hinv.loaded]
    exact hb
  have hkthr : t.registry.handlers .m_thrCalib = s.registry.handlers .m_thrCalib :=
    hset.kept hinv.filed (by simp)
  have hkampl : t.registry.handlers .m_sipm_ampl = s.registry.handlers .m_sipm_ampl :=
    hset.kept hinv.filed (by simp)
  rcases hrows with ⟨c, hc, hlc, hr⟩ | hnone
  · have hcthr : c = .m_thrCalib := by
      cases c <;> first
        | rfl
        | exact absurd hc (by decide)
        | (rw [hkampl, hl] at hlc; cases hlc)
    rw [hr, hcthr, ← hkthr]
    rfl
  · have hic : (t.factory .IntVetofa250Converter).init_called = true := by
      rw [hset.others _ (by simp), (hinv.resting _).1, hb]
    have := hnone .m_thrCalib rfl hic
    rw [hkthr, hthr] at this
    cases this

variable (table) in
/-- Bringing `IntVetoSiPMHit_factory`, with the converter inside its `brun` or
there before. -/
theorem get_sipm {boundary : Factory → Bool} {s : Loop} (hinv : s.Inv)
    (hreach : Reaches boundary .IntVetoSiPMHit s) :
    SipmBrought table s (s.get table boundary .IntVetoSiPMHit) := by
  have hne : Factory.IntVetofa250Converter ≠ .IntVetoSiPMHit := by simp
  obtain ⟨t, hset, hbr⟩ := getWith_of_reaches table
    (getWith table id boundary .IntVetofa250Converter) (hinv.resting _) hreach
    (fun t => (getWith_for boundary _ t).1) (fun t => (getWith_for boundary _ t).2 _ hne.symm)
  obtain ⟨u, hu, huf, hthere, hnow⟩ := nested_converter table boundary hinv hset
  have hothers : ∀ g, g ≠ .IntVetofa250Converter → u.factory g = t.factory g := by
    intro g hg
    rw [← hu, (getWith_for boundary _ t).2 g hg]
  have hinit : (u.factory .IntVetoSiPMHit).init_called = true := by
    rw [hothers _ hne.symm, hset.init_called]
  obtain ⟨rows, hupd, hrows⟩ := sipm_updates table huf t.run_number hinit
  have hreg : ∀ k, (s.get table boundary .IntVetoSiPMHit).registry.handlers k
      = (Factory.IntVetoSiPMHit.brun.foldl (Registry.updateCalibration table t.run_number)
          u.registry).handlers k := by
    intro k
    rw [← hu]
    exact congrArg (·.handlers k) hbr.registry
  have hgain : u.registry.handlers .m_sipm_gain = t.registry.handlers .m_sipm_gain := by
    cases hb : (s.factory .IntVetofa250Converter).brun_called with
    | true => rw [hthere hb]
    | false =>
        rw [(hnow hb).2]
        rfl
  constructor
  case filed =>
    refine hbr.filed (by rw [hu]; exact huf) ?_
    rw [hu]
    exact hinit
  case itself =>
    exact ⟨_, by rw [← hset.run_number]; exact hbr.itself⟩
  case others =>
    intro g h1 h2
    have := hbr.others g h1
    rw [hu, hothers g h2, hset.others g h1] at this
    exact this
  case untouched =>
    intro k h1 h2 h3
    have hkt : k.table ≠ Handler.m_sipm_ampl.table := by
      intro h
      cases k <;> first | exact h1 rfl | exact h2 rfl | exact h3 rfl | exact absurd h (by decide)
    rw [hreg, hupd, if_neg h1, if_neg (fun h => hkt h.1), ← hset.kept hinv.filed h1]
    cases hb : (s.factory .IntVetofa250Converter).brun_called with
    | true => rw [hthere hb]
    | false => rw [(hnow hb).2, if_neg (by simp [h2, h3])]
  case gain_reread =>
    intro hre
    rw [hreg, hupd, if_pos rfl, hgain, hset.run_number]
    exact hset.refresh_reread hinv hne.symm rfl hre _
  case gain_kept =>
    intro hnre
    rw [hreg, hupd, if_pos rfl, hgain]
    exact hset.refresh_kept hinv hne.symm rfl hnre _
  case copied =>
    intro hb
    obtain rfl := hthere hb
    have hthr : (s.registry.handlers .m_thrCalib).hasLoadedCurrentRun = true := by
      rw [hinv.loaded]
      exact hb
    have hkthr : u.registry.handlers .m_thrCalib = s.registry.handlers .m_thrCalib :=
      hset.kept hinv.filed (by simp)
    have hkampl : u.registry.handlers .m_sipm_ampl = s.registry.handlers .m_sipm_ampl :=
      hset.kept hinv.filed (by simp)
    refine ⟨?_, ?_, ?_⟩
    · have := hbr.others _ hne
      rw [hu, hset.others _ hne] at this
      exact this
    · rw [hreg, hupd, hkthr]
      simp [hthr]
    · unfold raw
      rw [hreg, hupd, hkampl]
      cases hl : (s.registry.handlers .m_sipm_ampl).hasLoadedCurrentRun with
      | true =>
          -- loaded before: the invariant says with which table
          have hbS : (s.factory .IntVetoSiPMHit).brun_called = true := by
            rw [← hl, hinv.loaded]
            rfl
          have hsame := (hinv.ampl hbS).2
          unfold raw at hsame
          simp [hl, hsame]
      | false =>
          have hrows' := sipm_rows hinv hset hb hl hrows
          have hi : (u.factory Handler.m_sipm_ampl.owner).init_called = true := hinit
          simp [hl, hi, hrows', Registry.load, CalibrationHandlerBase.setLoadedCurrentRun,
            CalibrationHandlerBase.fillCalib]
  case read =>
    intro hb
    obtain ⟨hfac, hh⟩ := hnow hb
    refine ⟨?_, fun k hk => ?_⟩
    · have := hbr.others _ hne
      rw [hu, hfac] at this
      exact this
    · have hkg : k ≠ .m_sipm_gain := by
        rcases hk with rfl | rfl <;> simp
      rw [hreg, hupd, if_neg hkg, hh k, if_pos hk, hset.kept hinv.filed hkg]
      simp [Registry.load, CalibrationHandlerBase.setLoadedCurrentRun]

variable (table) in
/-- Bringing the converter, between requests, is its first `Get`. -/
theorem get_converter {boundary : Factory → Bool} {s : Loop} (hinv : s.Inv)
    (hreach : Reaches boundary .IntVetofa250Converter s) :
    ∃ s', s.get table boundary .IntVetofa250Converter = s' ∧ s'.Filed
      ∧ (s.factory .IntVetofa250Converter).brun_called = false
      ∧ (s.factory .IntVetoSiPMHit).brun_called = false
      ∧ s'.factory .IntVetofa250Converter = ⟨true, true, true, false, true, s.run_number⟩
      ∧ (∀ g, g ≠ .IntVetofa250Converter → s'.factory g = s.factory g)
      ∧ ∀ k : Handler, s'.registry.handlers k =
          if k = .m_thrCalib then Registry.load (table k.table s.run_number) (s.registry.handlers k)
          else s.registry.handlers k := by
  have hb : (s.factory .IntVetofa250Converter).brun_called = false := by
    by_contra h
    have := (hinv.converter (by simpa using h)).2
    rw [hreach.1] at this
    cases this
  have hsipm := hinv.sipm_not_brought hb
  have hl : ∀ k : Handler, k.table = Handler.m_thrCalib.table →
      (s.registry.handlers k).hasLoadedCurrentRun = false := by
    intro k hk
    rw [hinv.loaded]
    cases k <;> first | exact hsipm | exact hb | exact absurd hk (by decide)
  obtain ⟨u, hget, hf', hfac, hh⟩ :=
    getWith_converter_first table boundary hinv.filed (hinv.resting _) hb hreach.1 hl
  refine ⟨u, hget, hf', hb, hsipm, hfac, fun g hg => ?_, fun k => ?_⟩
  · rw [← hget]
    exact (getWith_for boundary _ s).2 g hg
  · rw [hh k]
    refine if_congr ?_ rfl rfl
    have hi : (s.factory .IntVetoSiPMHit).init_called = false := by
      rw [(hinv.resting _).1, hsipm]
    cases k <;> simp [Handler.table, Handler.owner, hi]

/-! ## §7. One request. -/

/-- When a request brings a factory to a run, the table of each handler that its
`erun` leaves out is the same for that run as for the one to which the factory,
or another one that has loaded this table, was brought last. -/
def FrozenAgree (table : String → Int → List (List ℚ)) (s : Loop) : Request → Prop
  | .newEvent _ => True
  | .get f boundary =>
      Reaches boundary f s → ∀ k : Handler, k.owner = f → k ∉ f.erun →
        ∀ c : Handler, c.table = k.table → (s.factory c.owner).brun_called = true →
          table k.table (s.factory c.owner).brun_runnumber = table k.table s.run_number

/-- The same as `FrozenAgree`, said of what the handlers hold: this is what a step
can be proved to need. -/
def HeldAgree (table : String → Int → List (List ℚ)) (s : Loop) : Request → Prop
  | .newEvent _ => True
  | .get f boundary =>
      Reaches boundary f s → ∀ k : Handler, k.owner = f → k ∉ f.erun →
        ∀ c : Handler, c.table = k.table → (s.factory c.owner).brun_called = true →
          s.raw c = table k.table s.run_number

/-- A `Get` that does not go through `brun` hands out what is there. -/
theorem get_not_reaches {boundary : Factory → Bool} {f : Factory} {s : Loop} (hinv : s.Inv)
    (hreach : ¬ Reaches boundary f s) :
    s.get table boundary f = s.modify f ({ · with evnt_called := true }) :=
  getWith_of_not_reaches (hinv.resting f) hreach

/-- A factory whose `Get` does not go through `brun` has been brought to a run
before. -/
theorem brun_called_of_not_reaches {boundary : Factory → Bool} {f : Factory} {s : Loop}
    (hinv : s.Inv) (hreach : ¬ Reaches boundary f s) : (s.factory f).brun_called = true := by
  by_contra hb
  have hb' : (s.factory f).brun_called = false := by simpa using hb
  refine hreach ⟨?_, fun h => absurd h hb⟩
  by_contra he
  exact hb (hinv.evnt f (by simpa using he))

/-- Bringing a factory that shares no table moves this factory only. -/
theorem moved_plain {boundary : Factory → Bool} {f : Factory} {s : Loop}
    (hsipm : f ≠ .IntVetoSiPMHit) (hconv : f ≠ .IntVetofa250Converter) (hinv : s.Inv)
    (hreach : Reaches boundary f s) : Moved s (s.get table boundary f) := by
  obtain ⟨s', hget, hf', hothers, ⟨p, hfac⟩, hread, hkept⟩ :=
    get_plain table hsipm hconv hinv hreach
  rw [hget]
  refine ⟨hf', fun g => ?_, fun h => ?_, fun hb => ?_⟩
  · by_cases hg : g = f
    · subst hg
      exact Or.inr ⟨p, hfac, fun he => absurd he hconv⟩
    · exact Or.inl (hothers g hg)
  · by_cases ho : h.owner = f
    · rw [ho, hfac]
      by_cases hre : Reread f s h
      · rw [hread h ho hre]
        rfl
      · rw [hkept h (fun hc => hre hc.2), hinv.loaded, ho]
        by_contra hb
        exact hre (Or.inl (by simpa using hb))
    · rw [hkept h (fun hc => ho hc.1), hinv.loaded, hothers _ ho]
  · rw [hothers _ hsipm.symm] at hb
    rw [hothers _ hconv.symm]
    unfold raw
    rw [hkept .m_sipm_ampl (fun hc => hsipm hc.1.symm),
      hkept .m_thrCalib (fun hc => hconv hc.1.symm)]
    exact hinv.ampl hb

/-- Bringing the converter moves the converter, and fills the shared table. -/
theorem moved_converter {boundary : Factory → Bool} {s : Loop} (hinv : s.Inv)
    (hreach : Reaches boundary .IntVetofa250Converter s) :
    Moved s (s.get table boundary .IntVetofa250Converter) := by
  obtain ⟨s', hget, hf', hb, hbs, hfac, hothers, hh⟩ := get_converter table hinv hreach
  rw [hget]
  refine ⟨hf', fun g => ?_, fun h => ?_, fun hbs' => ?_⟩
  · by_cases hg : g = .IntVetofa250Converter
    · subst hg
      exact Or.inr ⟨true, hfac, fun _ => rfl⟩
    · exact Or.inl (hothers g hg)
  · by_cases hk : h = .m_thrCalib
    · subst hk
      rw [hh, if_pos rfl]
      show true = _
      rw [show Handler.m_thrCalib.owner = .IntVetofa250Converter from rfl, hfac]
    · have ho : h.owner ≠ .IntVetofa250Converter := owner_ne_converter hk
      rw [hh, if_neg hk, hinv.loaded, hothers _ ho]
  · rw [hothers _ (by simp), hbs] at hbs'
    cases hbs'

/-- Bringing `IntVetoSiPMHit_factory` moves it, and the converter with it the
first time. -/
theorem moved_sipm {boundary : Factory → Bool} {s : Loop} (hinv : s.Inv)
    (hreach : Reaches boundary .IntVetoSiPMHit s) :
    Moved s (s.get table boundary .IntVetoSiPMHit) := by
  have hbr := get_sipm table hinv hreach
  obtain ⟨p, hself⟩ := hbr.itself
  refine ⟨hbr.filed, fun g => ?_, fun h => ?_, fun _ => ?_⟩
  · -- the two factories that are asked have run, and the others were left alone
    by_cases h1 : g = .IntVetoSiPMHit
    · subst h1
      exact Or.inr ⟨p, hself, fun he => (by cases he)⟩
    · by_cases h2 : g = .IntVetofa250Converter
      · subst h2
        cases hb : (s.factory .IntVetofa250Converter).brun_called with
        | true => exact Or.inl (hbr.copied hb).1
        | false => exact Or.inr ⟨true, (hbr.read hb).1, fun _ => rfl⟩
      · exact Or.inl (hbr.others g h1 h2)
  · -- the gain is read by the factory itself; the other two tables, which are one, may come
    -- from the converter
    by_cases hg : h = .m_sipm_gain
    · subst hg
      rw [show Handler.m_sipm_gain.owner = .IntVetoSiPMHit from rfl, hself]
      by_cases hre : Reread .IntVetoSiPMHit s .m_sipm_gain
      · rw [hbr.gain_reread hre]
        rfl
      · rw [hbr.gain_kept hre, hinv.loaded]
        -- a handler that is not read again was loaded already
        show (s.factory .IntVetoSiPMHit).brun_called = true
        by_contra hb
        exact hre (Or.inl (by simpa using hb))
    · by_cases ha : h = .m_sipm_ampl
      · subst ha
        rw [show Handler.m_sipm_ampl.owner = .IntVetoSiPMHit from rfl, hself]
        cases hb : (s.factory .IntVetofa250Converter).brun_called with
        | true => exact (hbr.copied hb).2.2.1
        | false =>
            rw [(hbr.read hb).2 _ (Or.inl rfl)]
            rfl
      · by_cases ht : h = .m_thrCalib
        · subst ht
          rw [show Handler.m_thrCalib.owner = .IntVetofa250Converter from rfl]
          cases hb : (s.factory .IntVetofa250Converter).brun_called with
          | true =>
              rw [(hbr.copied hb).1, (hbr.copied hb).2.1, hinv.loaded]
              rfl
          | false =>
              rw [(hbr.read hb).1, (hbr.read hb).2 _ (Or.inr rfl)]
              rfl
        · have h1 : h.owner ≠ .IntVetoSiPMHit := owner_ne_sipm hg ha
          have h2 : h.owner ≠ .IntVetofa250Converter := owner_ne_converter ht
          rw [hbr.untouched h hg ha ht, hinv.loaded, hbr.others _ h1 h2]
  · -- the two handlers of the one table hold the same rows
    cases hb : (s.factory .IntVetofa250Converter).brun_called with
    | true =>
        obtain ⟨hfac, hthr, -, hampl⟩ := hbr.copied hb
        refine ⟨by rw [hfac, hb], ?_⟩
        rw [hampl]
        unfold raw
        rw [hthr]
    | false =>
        obtain ⟨hfac, hh⟩ := hbr.read hb
        refine ⟨by rw [hfac], ?_⟩
        unfold raw
        rw [hh _ (Or.inl rfl), hh _ (Or.inr rfl)]
        rfl

/-- Any `Get` keeps the invariant, whichever way it goes. -/
theorem get_inv {boundary : Factory → Bool} (f : Factory) {s : Loop} (hinv : s.Inv) :
    (s.get table boundary f).Inv := by
  by_cases hreach : Reaches boundary f s
  · refine Moved.inv ?_ hinv
    by_cases hsipm : f = .IntVetoSiPMHit
    · subst hsipm
      exact moved_sipm hinv hreach
    · by_cases hconv : f = .IntVetofa250Converter
      · subst hconv
        exact moved_converter hinv hreach
      · exact moved_plain hsipm hconv hinv hreach
  · rw [get_not_reaches hinv hreach]
    exact handOut_inv hinv (brun_called_of_not_reaches hinv hreach)

/-- **One request** keeps the invariant. -/
theorem exec_inv {s s' : Loop} {a : Request} (hinv : s.Inv) (h : s.exec table a = some s') :
    s'.Inv := by
  cases a with
  | newEvent run_number =>
      obtain rfl := Option.some.inj h
      exact newEvent_inv hinv run_number
  | get f boundary =>
      obtain rfl := Option.some.inj h
      exact get_inv f hinv

/-- Bringing a factory that shares no table: the tables follow exactly if those
that its `erun` leaves out are held for the new run as well. -/
theorem follows_plain_iff {boundary : Factory → Bool} {f : Factory} {s : Loop}
    (hsipm : f ≠ .IntVetoSiPMHit) (hconv : f ≠ .IntVetofa250Converter) (hinv : s.Inv)
    (hfol : s.Follows table) (hreach : Reaches boundary f s) :
    (s.get table boundary f).Follows table ↔ HeldAgree table s (.get f boundary) := by
  obtain ⟨s', hget, -, hothers, ⟨p, hfac⟩, hread, hkept⟩ :=
    get_plain table hsipm hconv hinv hreach
  rw [hget]
  constructor
  · intro hnew _ k hk hmem c hc hb
    have hka : k ≠ .m_sipm_ampl := fun he => hsipm (by rw [← hk, he]; rfl)
    have hkt : k ≠ .m_thrCalib := fun he => hconv (by rw [← hk, he]; rfl)
    obtain rfl := alone hka hkt c hc
    rw [hk] at hb
    have hnre : ¬ Reread f s c := by
      rintro (h | ⟨-, h⟩)
      · rw [hb] at h
        cases h
      · exact hmem h
    have := hnew c (by rw [hk, hfac])
    unfold raw at this
    rw [hkept c (fun h => hnre h.2), hk, hfac] at this
    exact this
  · intro hag h hb
    unfold raw
    by_cases ho : h.owner = f
    · rw [ho, hfac]
      by_cases hre : Reread f s h
      · rw [hread h ho hre]
        rfl
      · rw [hkept h (fun hc => hre hc.2)]
        have hbs : (s.factory f).brun_called = true := by
          by_contra hno
          exact hre (Or.inl (by simpa using hno))
        by_cases hr : s.run_number = (s.factory f).brun_runnumber
        · -- the same run again
          have := hfol h (by rw [ho, hbs])
          rw [ho] at this
          rw [hr]
          exact this
        · have hmem : h ∉ f.erun := fun hm => hre (Or.inr ⟨hr, hm⟩)
          exact hag hreach h ho hmem h rfl (by rw [ho, hbs])
    · rw [hothers _ ho] at hb ⊢
      rw [hkept h (fun hc => ho hc.1)]
      exact hfol h hb

/-- Bringing the converter, which happens once, fills its table for the run it is
brought to. -/
theorem follows_converter {boundary : Factory → Bool} {s : Loop} (hinv : s.Inv)
    (hfol : s.Follows table) (hreach : Reaches boundary .IntVetofa250Converter s) :
    (s.get table boundary .IntVetofa250Converter).Follows table := by
  obtain ⟨s', hget, -, -, -, hfac, hothers, hh⟩ := get_converter table hinv hreach
  rw [hget]
  intro h hb
  unfold raw
  by_cases hk : h = .m_thrCalib
  · subst hk
    rw [hh, if_pos rfl, show Handler.m_thrCalib.owner = .IntVetofa250Converter from rfl, hfac]
    rfl
  · have ho : h.owner ≠ .IntVetofa250Converter := owner_ne_converter hk
    rw [hothers _ ho] at hb ⊢
    rw [hh, if_neg hk]
    exact hfol h hb

/-- Bringing `IntVetoSiPMHit_factory`: the tables follow exactly if the
amplitudes, which its `erun` leaves out, are held for the new run. -/
theorem follows_sipm_iff {boundary : Factory → Bool} {s : Loop} (hinv : s.Inv)
    (hfol : s.Follows table) (hreach : Reaches boundary .IntVetoSiPMHit s) :
    (s.get table boundary .IntVetoSiPMHit).Follows table
      ↔ HeldAgree table s (.get .IntVetoSiPMHit boundary) := by
  have hbr := get_sipm table hinv hreach
  obtain ⟨p, hself⟩ := hbr.itself
  constructor
  · intro hnew _ k hk hmem c hc hb
    -- the handler left out is `m_sipm_ampl`
    have hka : k = .m_sipm_ampl := by
      cases k <;>
        first | rfl | exact absurd hk (by decide) | exact absurd (by decide) hmem
    subst hka
    have hbc : (s.factory .IntVetofa250Converter).brun_called = true := by
      cases c <;> first | exact (hinv.ampl hb).1 | exact hb | exact absurd hc (by decide)
    have hrc : s.raw c = s.raw .m_thrCalib := by
      cases c <;> first | exact (hinv.ampl hb).2 | rfl | exact absurd hc (by decide)
    have := hnew .m_sipm_ampl
      (by rw [show Handler.m_sipm_ampl.owner = .IntVetoSiPMHit from rfl, hself])
    rw [(hbr.copied hbc).2.2.2, show Handler.m_sipm_ampl.owner = .IntVetoSiPMHit from rfl,
      hself] at this
    rw [hrc]
    exact this
  · intro hag h hb
    -- the gains, the amplitudes, the converter's handler, and all the others
    by_cases hg : h = .m_sipm_gain
    · subst hg
      unfold raw
      rw [show Handler.m_sipm_gain.owner = .IntVetoSiPMHit from rfl, hself]
      by_cases hre : Reread .IntVetoSiPMHit s .m_sipm_gain
      · rw [hbr.gain_reread hre]
        rfl
      · rw [hbr.gain_kept hre]
        have hbs : (s.factory .IntVetoSiPMHit).brun_called = true := by
          by_contra hno
          exact hre (Or.inl (by simpa using hno))
        have hr : s.run_number = (s.factory .IntVetoSiPMHit).brun_runnumber := by
          by_contra hr
          exact hre (Or.inr ⟨hr, by decide⟩)
        have := hfol .m_sipm_gain hbs
        rw [show Handler.m_sipm_gain.owner = .IntVetoSiPMHit from rfl, ← hr] at this
        exact this
    · by_cases ha : h = .m_sipm_ampl
      · subst ha
        rw [show Handler.m_sipm_ampl.owner = .IntVetoSiPMHit from rfl, hself]
        cases hbc : (s.factory .IntVetofa250Converter).brun_called with
        | true =>
            rw [(hbr.copied hbc).2.2.2]
            exact hag hreach .m_sipm_ampl rfl (by decide) .m_thrCalib rfl hbc
        | false =>
            unfold raw
            rw [(hbr.read hbc).2 _ (Or.inl rfl)]
            rfl
      · by_cases ht : h = .m_thrCalib
        · subst ht
          rw [show Handler.m_thrCalib.owner = .IntVetofa250Converter from rfl] at hb ⊢
          unfold raw
          cases hbc : (s.factory .IntVetofa250Converter).brun_called with
          | true =>
              rw [(hbr.copied hbc).1, (hbr.copied hbc).2.1]
              exact hfol .m_thrCalib hbc
          | false =>
              rw [(hbr.read hbc).1, (hbr.read hbc).2 _ (Or.inr rfl)]
              rfl
        · have h1 : h.owner ≠ .IntVetoSiPMHit := owner_ne_sipm hg ha
          have h2 : h.owner ≠ .IntVetofa250Converter := owner_ne_converter ht
          rw [hbr.others _ h1 h2] at hb ⊢
          unfold raw
          rw [hbr.untouched h hg ha ht]
          exact hfol h hb

/-- What the handlers hold is the table of the run that their factory is in, so
that the condition can be read from the runs and the database. -/
theorem frozenAgree_iff {s : Loop} (hfol : s.Follows table) (a : Request) :
    HeldAgree table s a ↔ FrozenAgree table s a := by
  cases a with
  | newEvent run_number => exact Iff.rfl
  | get f boundary =>
      refine imp_congr_right fun _ => forall_congr' fun k => imp_congr_right fun _ =>
        imp_congr_right fun _ => forall_congr' fun c => ?_
      refine forall_congr' fun htable => forall_congr' fun hb => ?_
      rw [hfol c hb, htable]

/-- **One request** keeps the tables following the runs, exactly if the frozen
tables agree. -/
theorem exec_follows_iff {s s' : Loop} {a : Request} (hinv : s.Inv) (hfol : s.Follows table)
    (h : s.exec table a = some s') : s'.Follows table ↔ FrozenAgree table s a := by
  rw [← frozenAgree_iff hfol]
  cases a with
  | newEvent run_number =>
      obtain rfl := Option.some.inj h
      exact ⟨fun _ => trivial, fun _ => (newEvent_sameRuns s run_number).follows hfol⟩
  | get f boundary =>
      obtain rfl := Option.some.inj h
      by_cases hreach : Reaches boundary f s
      · by_cases hsipm : f = .IntVetoSiPMHit
        · subst hsipm
          exact follows_sipm_iff hinv hfol hreach
        · by_cases hconv : f = .IntVetofa250Converter
          · subst hconv
            refine ⟨fun _ _ k hk hmem => ?_, fun _ => follows_converter hinv hfol hreach⟩
            cases k <;> first | exact absurd hk (by decide) | exact absurd (by decide) hmem
          · exact follows_plain_iff hsipm hconv hinv hfol hreach
      · -- nothing is brought anywhere, and the condition asks nothing
        refine ⟨fun _ hr => absurd hr hreach, fun _ => ?_⟩
        rw [get_not_reaches hinv hreach]
        exact (handOut_sameRuns s f).follows hfol

/-! ## §8. Every sequence of runs. -/

/-- **EVERY CALIBRATION TABLE FOLLOWS THE RUN**, for every sequence of events
and requests, if and only if the database has the same table as before, for those
that no `erun` clears, whenever their factory is brought to a run. -/
theorem tables_follow_iff (table : String → Int → List (List ℚ)) (requests : List Request) :
    StatesMeet (exec table) (Follows table) start requests
      ↔ StepsMeet (exec table) (FrozenAgree table) start requests :=
  statesMeet_iff_stepsMeet (fun _ _ _ => exec_inv) (fun _ _ _ => exec_follows_iff)
    start_inv start_follows

/-- A database in which every table tells the runs apart. -/
def perRunTable (_ : String) (run : Int) : List (List ℚ) := [[1, 3, 0, run]]

/-- Run 1, then run 2: `m_parms` keeps the table of run 1. -/
theorem parms_frozen_at_first_run :
    ¬ StatesMeet (exec perRunTable) (Follows perRunTable) start
        [.newEvent 1, .get .fa250Mode1CalibPedSubHit (fun _ => false),
          .newEvent 2, .get .fa250Mode1CalibPedSubHit (fun _ => false)] := by
  intro h
  have hlast := StatesMeet.last h rfl
  have hwrong := hlast .m_parms rfl
  revert hwrong
  decide

end Loop

end PokerReco.System
