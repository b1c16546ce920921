/-
  PokerReco.TT.SharedTable
  ────────────────────────
  **ONE TABLE FOR ALL THREADS** (`TranslationTable::ReadTranslationTable`).

  Every thread constructs its own `TranslationTable`, whose constructor calls
  `ReadTranslationTable`.  The table, the mutex and the flag
  `tt_initialized` are shared.

      lock; test the flag; read; parse; unlock; set the flag; return

  The flag is set after the mutex was released.  `built_at_most_once` says
  what that costs: the table is built once, and never written after a
  successful return, in every schedule in which no thread tests the flag
  between another thread's unlock and its setting of the flag.
-/
import Mathlib.Data.Fintype.Basic
import PokerReco.Library.Schedule
import PokerReco.TT.TranslationTable

namespace PokerReco.TT

open PokerReco.Library

/-! ## §1. The threads. -/

/-- Where a thread stands in `ReadTranslationTable`, from the lock of the mutex to
the flag that it sets after the unlock. -/
inductive Pc where
  /-- Not in the function, or waiting for the mutex. -/
  | outside
  /-- Holds the mutex, has not tested the flag. -/
  | locked
  /-- The flag was up: about to unlock and return. -/
  | leaving
  /-- The flag was down: about to read the document. -/
  | reading
  /-- No document: about to unlock and return. -/
  | failing
  /-- In `XML_Parse`, with these elements to come. -/
  | parsing (elements : List Element)
  /-- The parse is over: about to unlock. -/
  | parsed
  /-- Unlocked: about to set the flag. -/
  | unlocked
  deriving DecidableEq, Repr

/-- What the threads share; `parses` counts the calls of `XML_Parse`, and
`returned` records a successful return of any thread. -/
structure Shared (θ : Type) where
  mutex : Option θ
  tt_initialized : Bool
  table : Table
  statics : Statics
  pc : θ → Pc
  parses : Nat
  returned : Bool

/-- One step of a thread, with what it reads from the outside where it reads
something. -/
inductive Move (θ : Type) where
  | lock (t : θ)
  | test (t : θ)
  | leave (t : θ)
  | read (t : θ) (src : XmlSources)
  | fail (t : θ)
  | element (t : θ)
  | unlock (t : θ)
  | setFlag (t : θ)

namespace Shared

variable {θ : Type} [DecidableEq θ]

/-- One thread is moved to `p`, and the others stay where they are. -/
def goto (s : Shared θ) (t : θ) (p : Pc) : Shared θ :=
  { s with pc := Function.update s.pc t p }

/-- The start: nobody is in `ReadTranslationTable`, the flag is down and the
table is empty. -/
def start : Shared θ where
  mutex := none
  tt_initialized := false
  table := ∅
  statics := ⟨0, 0⟩
  pc _ := .outside
  parses := 0
  returned := false

/-- A step of a schedule, which is possible only at the position it belongs to;
`expat` gives the start-element events of a document. -/
def exec (expat : String → List Element) (s : Shared θ) : Move θ → Option (Shared θ)
  | .lock t =>
      if s.pc t = .outside ∧ s.mutex = none then
        some { s.goto t .locked with mutex := some t }
      else none
  | .test t =>
      if s.pc t = .locked then
        some (s.goto t (if s.tt_initialized then .leaving else .reading))
      else none
  | .leave t =>
      if s.pc t = .leaving then
        some { s.goto t .outside with mutex := none, returned := true }
      else none
  | .read t src =>
      if s.pc t = .reading then
        match src.tt_xml with
        | none => some (s.goto t .failing)
        | some text => some { s.goto t (.parsing (expat text)) with parses := s.parses + 1 }
      else none
  | .fail t =>
      if s.pc t = .failing then some { s.goto t .outside with mutex := none } else none
  | .element t =>
      match s.pc t with
      | .parsing [] => some (s.goto t .parsed)
      | .parsing (e :: es) =>
          let (statics, table) := StartElement s.statics s.table e
          some { s.goto t (.parsing es) with statics := statics, table := table }
      | _ => none
  | .unlock t =>
      if s.pc t = .parsed then some { s.goto t .unlocked with mutex := none } else none
  | .setFlag t =>
      if s.pc t = .unlocked then
        some { s.goto t .outside with tt_initialized := true, returned := true }
      else none

/-- `XML_Parse` was called at most once, by all threads together. -/
def AtMostOneParse (s : Shared θ) : Prop := s.parses ≤ 1

/-- A step of the parse, which writes the shared table, is not taken after a
successful return. -/
def NoLateWrite (s : Shared θ) : Move θ → Prop
  | .element _ => s.returned = false
  | _ => True

/-- A thread that finds the flag down finds no thread between its unlock and
its setting of the flag. -/
def TestSeesBuilder (s : Shared θ) : Move θ → Prop
  | .test _ => s.tt_initialized = false → ∀ u, s.pc u ≠ .unlocked
  | _ => True

instance : DecidablePred (AtMostOneParse (θ := θ)) := fun s =>
  inferInstanceAs (Decidable (s.parses ≤ 1))

instance (s : Shared θ) (a : Move θ) : Decidable (s.NoLateWrite a) :=
  match a with
  | .element _ => inferInstanceAs (Decidable (s.returned = false))
  | .lock _ | .test _ | .leave _ | .read _ _ | .fail _ | .unlock _ | .setFlag _ => .isTrue trivial

instance [Fintype θ] (s : Shared θ) (a : Move θ) : Decidable (s.TestSeesBuilder a) :=
  match a with
  | .test _ => inferInstanceAs (Decidable (s.tt_initialized = false → ∀ u, s.pc u ≠ .unlocked))
  | .element _ | .lock _ | .leave _ | .read _ _ | .fail _ | .unlock _ | .setFlag _ =>
      .isTrue trivial

/-! ## §2. The invariant. -/

/-- The positions at which a thread holds the mutex, from the lock to the unlock. -/
def Holds : Pc → Prop
  | .outside => False
  | .unlocked => False
  | _ => True

/-- The positions of a thread from the parse to the setting of the flag, which is
behind the unlock. -/
def Building : Pc → Prop
  | .parsing _ => True
  | .parsed => True
  | .unlocked => True
  | _ => False

/-- The invariant of every schedule in which the tests see the builder. -/
structure Inv (s : Shared θ) : Prop where
  mutex : ∀ t, Holds (s.pc t) ↔ s.mutex = some t
  once : s.parses ≤ 1
  /-- Nobody reads the document a second time. -/
  reader : ∀ t, s.pc t = .reading → s.parses = 0
  /-- There is one builder, and only after the first parse began. -/
  builder : ∀ t, Building (s.pc t) → s.parses = 1
  unique : ∀ t u, Building (s.pc t) → Building (s.pc u) → t = u
  /-- Between the parse and the flag the builder is there. -/
  flag_down : s.parses = 1 → s.tt_initialized = false → ∃ t, Building (s.pc t)
  flag_up : s.tt_initialized = true → s.parses = 1 ∧ ∀ t, ¬ Building (s.pc t)
  leaver : ∀ t, s.pc t = .leaving → s.tt_initialized = true
  success : s.returned = true → s.tt_initialized = true

omit [DecidableEq θ] in
/-- At the start nobody holds the mutex and nobody builds. -/
theorem start_inv : (start : Shared θ).Inv := by
  constructor
  case mutex =>
    intro t
    simp [start, Holds]
  case once =>
    exact Nat.zero_le 1
  case reader =>
    intro t h
    cases h
  case builder =>
    intro t h
    cases h
  case unique =>
    intro t u h
    cases h
  case flag_down =>
    intro h
    cases h
  case flag_up =>
    intro h
    cases h
  case leaver =>
    intro t h
    cases h
  case success =>
    intro h
    cases h

/-- The thread that is moved is at `p`. -/
theorem goto_pc_self (s : Shared θ) (t : θ) (p : Pc) : (s.goto t p).pc t = p := by
  simp [goto]

/-- The other threads stay where they are. -/
theorem goto_pc_of_ne (s : Shared θ) {t u : θ} (p : Pc) (h : u ≠ t) :
    (s.goto t p).pc u = s.pc u := by
  simp [goto, h]

/-! ## §3. The steps keep the invariant. -/

section Moves

variable {s s' : Shared θ} {t : θ} {q : Pc}

/-- After a move of `t` to `q`, a thread at a position is `t`, or was there
before. -/
theorem pc_cases (hpc : s'.pc = Function.update s.pc t q) {u : θ} {p : Pc} (hu : s'.pc u = p) :
    (u = t ∧ q = p) ∨ (u ≠ t ∧ s.pc u = p) := by
  rw [hpc] at hu
  by_cases he : u = t
  · subst he
    rw [Function.update_self] at hu
    exact .inl ⟨rfl, hu⟩
  · rw [Function.update_of_ne he] at hu
    exact .inr ⟨he, hu⟩

/-- After a step of a thread that keeps the mutex, the thread that holds it
is the same. -/
theorem mutex_kept (hinv : s.Inv) (hpc : s'.pc = Function.update s.pc t q)
    (ht : Holds (s.pc t)) (hq : Holds q) (hmutex : s'.mutex = s.mutex) (u : θ) :
    Holds (s'.pc u) ↔ s'.mutex = some u := by
  rw [hpc, hmutex]
  by_cases hu : u = t
  · subst hu
    rw [Function.update_self]
    exact iff_of_true hq ((hinv.mutex u).mp ht)
  · rw [Function.update_of_ne hu]
    exact hinv.mutex u

/-- After a step in which a thread releases the mutex, nobody holds it. -/
theorem mutex_released (hinv : s.Inv) (hpc : s'.pc = Function.update s.pc t q)
    (ht : Holds (s.pc t)) (hq : ¬ Holds q) (hmutex : s'.mutex = none) (u : θ) :
    Holds (s'.pc u) ↔ s'.mutex = some u := by
  rw [hpc, hmutex]
  by_cases hu : u = t
  · subst hu
    rw [Function.update_self]
    exact iff_of_false hq (by simp)
  · rw [Function.update_of_ne hu, hinv.mutex u, (hinv.mutex t).mp ht]
    exact iff_of_false (fun h => hu (Option.some.inj h).symm) (by simp)

/-- A step of a thread that is not the builder, before and after, keeps the
invariant as long as it does not touch what the builder writes. -/
theorem Inv.bystander (hinv : s.Inv) (hpc : s'.pc = Function.update s.pc t q)
    (hmutex : ∀ u, Holds (s'.pc u) ↔ s'.mutex = some u)
    (ht : ¬ Building (s.pc t)) (hq : ¬ Building q)
    (hreading : q = .reading → s.parses = 0)
    (hleaving : q = .leaving → s.tt_initialized = true)
    (hparses : s'.parses = s.parses) (hflag : s'.tt_initialized = s.tt_initialized)
    (hreturned : s'.returned = true → s.tt_initialized = true) : s'.Inv := by
  -- the builders are the same threads before and after the step
  have hsame : ∀ u, Building (s'.pc u) ↔ Building (s.pc u) := by
    intro u
    rw [hpc]
    by_cases hu : u = t
    · subst hu
      rw [Function.update_self]
      exact iff_of_false hq ht
    · rw [Function.update_of_ne hu]
  constructor
  case mutex => exact hmutex
  case once =>
    rw [hparses]
    exact hinv.once
  case reader =>
    intro u hu
    rw [hparses]
    obtain ⟨-, hq⟩ | ⟨-, hu⟩ := pc_cases hpc hu
    · exact hreading hq
    · exact hinv.reader u hu
  case builder =>
    intro u hu
    rw [hparses]
    exact hinv.builder u ((hsame u).mp hu)
  case unique =>
    intro u v hu hv
    exact hinv.unique u v ((hsame u).mp hu) ((hsame v).mp hv)
  case flag_down =>
    intro hp hf
    rw [hparses] at hp
    rw [hflag] at hf
    obtain ⟨u, hu⟩ := hinv.flag_down hp hf
    exact ⟨u, (hsame u).mpr hu⟩
  case flag_up =>
    intro hf
    rw [hflag] at hf
    rw [hparses]
    obtain ⟨hp, hnone⟩ := hinv.flag_up hf
    exact ⟨hp, fun u hu => hnone u ((hsame u).mp hu)⟩
  case leaver =>
    intro u hu
    rw [hflag]
    obtain ⟨-, hq⟩ | ⟨-, hu⟩ := pc_cases hpc hu
    · exact hleaving hq
    · exact hinv.leaver u hu
  case success =>
    intro hr
    rw [hflag]
    exact hreturned hr

/-- A step of the builder, which stays the builder, keeps the invariant. -/
theorem Inv.build (hinv : s.Inv) (hpc : s'.pc = Function.update s.pc t q)
    (hmutex : ∀ u, Holds (s'.pc u) ↔ s'.mutex = some u)
    (ht : Building (s.pc t)) (hq : Building q)
    (hparses : s'.parses = s.parses) (hflag : s'.tt_initialized = s.tt_initialized)
    (hreturned : s'.returned = s.returned) : s'.Inv := by
  have hsame : ∀ u, Building (s'.pc u) ↔ Building (s.pc u) := by
    intro u
    rw [hpc]
    by_cases hu : u = t
    · subst hu
      rw [Function.update_self]
      exact iff_of_true hq ht
    · rw [Function.update_of_ne hu]
  -- `reading` and `leaving` are not positions of the builder
  have hother : ∀ u p, ¬ Building p → s'.pc u = p → s.pc u = p := by
    intro u p hp hu
    obtain ⟨-, rfl⟩ | ⟨-, hu⟩ := pc_cases hpc hu
    · exact absurd hq hp
    · exact hu
  constructor
  case mutex => exact hmutex
  case once =>
    rw [hparses]
    exact hinv.once
  case reader =>
    intro u hu
    rw [hparses]
    exact hinv.reader u (hother u _ (by simp [Building]) hu)
  case builder =>
    intro u hu
    rw [hparses]
    exact hinv.builder u ((hsame u).mp hu)
  case unique =>
    intro u v hu hv
    exact hinv.unique u v ((hsame u).mp hu) ((hsame v).mp hv)
  case flag_down =>
    intro _ _
    exact ⟨t, (hsame t).mpr ht⟩
  case flag_up =>
    intro hf
    rw [hflag] at hf
    exact absurd ht ((hinv.flag_up hf).2 t)
  case leaver =>
    intro u hu
    rw [hflag]
    exact hinv.leaver u (hother u _ (by simp [Building]) hu)
  case success =>
    intro hr
    rw [hflag]
    rw [hreturned] at hr
    exact hinv.success hr

/-- The parse begins: the thread that was reading the sources becomes the builder,
and there was none. -/
theorem Inv.begin (hinv : s.Inv) (hpc : s'.pc = Function.update s.pc t q)
    (hmutex : ∀ u, Holds (s'.pc u) ↔ s'.mutex = some u)
    (ht : s.pc t = .reading) (hq : Building q)
    (hparses : s'.parses = s.parses + 1) (hflag : s'.tt_initialized = s.tt_initialized)
    (hreturned : s'.returned = s.returned) : s'.Inv := by
  -- the reader found the flag down before any parse, so it is the first
  have hzero : s.parses = 0 := hinv.reader t ht
  have hnone : ∀ u, ¬ Building (s.pc u) := by
    intro u hu
    have := hinv.builder u hu
    omega
  have honly : ∀ u, Building (s'.pc u) → u = t := by
    intro u hu
    by_contra he
    rw [hpc, Function.update_of_ne he] at hu
    exact hnone u hu
  have hdown : s.tt_initialized = false := by
    by_contra hf
    have := (hinv.flag_up (by simpa using hf)).1
    omega
  have hholds : s.mutex = some t := (hinv.mutex t).mp (by rw [ht]; trivial)
  constructor
  case mutex => exact hmutex
  case once => omega
  case reader =>
    -- another reader would hold the mutex too
    intro u hu
    obtain ⟨-, rfl⟩ | ⟨he, hu⟩ := pc_cases hpc hu
    · cases hq
    · have hmine := (hinv.mutex u).mp (by rw [hu]; trivial)
      rw [hholds] at hmine
      exact absurd (Option.some.inj hmine).symm he
  case builder =>
    intro u _
    omega
  case unique =>
    intro u v hu hv
    rw [honly u hu, honly v hv]
  case flag_down =>
    intro _ _
    refine ⟨t, ?_⟩
    rw [hpc, Function.update_self]
    exact hq
  case flag_up =>
    intro hf
    rw [hflag, hdown] at hf
    cases hf
  case leaver =>
    intro u hu
    rw [hflag]
    obtain ⟨-, rfl⟩ | ⟨-, hu⟩ := pc_cases hpc hu
    · cases hq
    · exact hinv.leaver u hu
  case success =>
    intro hr
    rw [hreturned] at hr
    rw [hflag]
    exact hinv.success hr

/-- The builder sets the flag and is gone, and from then on nobody begins
to build. -/
theorem Inv.finish (hinv : s.Inv) (hpc : s'.pc = Function.update s.pc t .outside)
    (hmutex : ∀ u, Holds (s'.pc u) ↔ s'.mutex = some u)
    (ht : Building (s.pc t)) (hparses : s'.parses = s.parses)
    (hflag : s'.tt_initialized = true) : s'.Inv := by
  -- the builder was the only one, and it leaves
  have hone : s.parses = 1 := hinv.builder t ht
  have hnone : ∀ u, ¬ Building (s'.pc u) := by
    intro u hu
    rw [hpc] at hu
    by_cases he : u = t
    · subst he
      rw [Function.update_self] at hu
      exact hu
    · rw [Function.update_of_ne he] at hu
      exact he (hinv.unique u t hu ht)
  constructor
  case mutex => exact hmutex
  case once =>
    rw [hparses]
    exact hinv.once
  case reader =>
    intro u hu
    obtain ⟨-, hout⟩ | ⟨-, hu⟩ := pc_cases hpc hu
    · cases hout
    · rw [hparses]
      exact hinv.reader u hu
  case builder =>
    intro u hu
    exact absurd hu (hnone u)
  case unique =>
    intro u v hu
    exact absurd hu (hnone u)
  case flag_down =>
    intro _ hf
    rw [hflag] at hf
    cases hf
  case flag_up =>
    intro _
    rw [hparses]
    exact ⟨hone, hnone⟩
  case leaver =>
    intro u _
    exact hflag
  case success =>
    intro _
    exact hflag

end Moves

omit [DecidableEq θ] in
/-- The flag is down and nobody is about to set it: then there was no parse yet. -/
theorem Inv.parses_eq_zero {s : Shared θ} {t : θ} (hinv : s.Inv)
    (hsees : s.TestSeesBuilder (.test t)) (hholds : Holds (s.pc t)) (hnb : ¬ Building (s.pc t))
    (hf : s.tt_initialized = false) : s.parses = 0 := by
  by_contra hne
  have hone : s.parses = 1 := by
    have := hinv.once
    omega
  obtain ⟨u, hu⟩ := hinv.flag_down hone hf
  -- the builder is not past its unlock, so it holds the mutex, as `t` does
  have hout := hsees hf u
  have hu' : Holds (s.pc u) := by
    cases hpu : s.pc u <;> simp [hpu, Building, Holds] at hu hout ⊢
  have hut : u = t := by
    have h1 := (hinv.mutex u).mp hu'
    have h2 := (hinv.mutex t).mp hholds
    rw [h1] at h2
    exact Option.some.inj h2
  rw [hut] at hu
  exact hnb hu

/-- **A step whose test sees the builder keeps the invariant.** -/
theorem exec_inv {expat : String → List Element} {s s' : Shared θ} {a : Move θ} (hinv : s.Inv)
    (hsees : s.TestSeesBuilder a) (h : s.exec expat a = some s') : s'.Inv := by
  cases a with
  | lock t =>
      simp only [exec] at h
      split at h
      next hg =>
        obtain ⟨hp, hm⟩ := hg
        obtain rfl := Option.some.inj h
        -- the mutex was free: it is now this thread's
        refine hinv.bystander rfl (fun u => ?_) (by simp [hp, Building]) (by simp [Building])
          (by simp) (by simp) rfl rfl hinv.success
        by_cases hu : u = t
        · subst hu
          rw [goto_pc_self]
          simp [Holds]
        · rw [goto_pc_of_ne s _ hu, hinv.mutex u, hm]
          simp [Ne.symm hu]
      next => cases h
  | test t =>
      simp only [exec] at h
      split at h
      next hp =>
        obtain rfl := Option.some.inj h
        have hholds : Holds (s.pc t) := by simp [hp, Holds]
        have hnb : ¬ Building (s.pc t) := by simp [hp, Building]
        cases hf : s.tt_initialized with
        | true =>
            exact hinv.bystander rfl (mutex_kept hinv rfl hholds (by simp [Holds]) rfl) hnb
              (by simp [Building]) (by simp) (fun _ => hf) rfl rfl hinv.success
        | false =>
            have hzero := hinv.parses_eq_zero hsees hholds hnb hf
            exact hinv.bystander rfl (mutex_kept hinv rfl hholds (by simp [Holds]) rfl) hnb
              (by simp [Building]) (fun _ => hzero) (by simp) rfl rfl hinv.success
      next => cases h
  | leave t =>
      simp only [exec] at h
      split at h
      next hp =>
        obtain rfl := Option.some.inj h
        exact hinv.bystander rfl
          (mutex_released hinv rfl (by simp [hp, Holds]) (by simp [Holds]) rfl)
          (by simp [hp, Building]) (by simp [Building]) (by simp) (by simp) rfl rfl
          (fun _ => hinv.leaver t hp)
      next => cases h
  | read t src =>
      simp only [exec] at h
      split at h
      next hp =>
        have hholds : Holds (s.pc t) := by simp [hp, Holds]
        split at h
        next =>
          obtain rfl := Option.some.inj h
          exact hinv.bystander rfl (mutex_kept hinv rfl hholds (by simp [Holds]) rfl)
            (by simp [hp, Building]) (by simp [Building]) (by simp) (by simp) rfl rfl
            hinv.success
        next text _ =>
          obtain rfl := Option.some.inj h
          exact hinv.begin rfl (mutex_kept hinv rfl hholds (by simp [Holds]) rfl) hp
            (by simp [Building]) rfl rfl rfl
      next => cases h
  | fail t =>
      simp only [exec] at h
      split at h
      next hp =>
        obtain rfl := Option.some.inj h
        exact hinv.bystander rfl
          (mutex_released hinv rfl (by simp [hp, Holds]) (by simp [Holds]) rfl)
          (by simp [hp, Building]) (by simp [Building]) (by simp) (by simp) rfl rfl hinv.success
      next => cases h
  | element t =>
      simp only [exec] at h
      split at h
      next hp =>
        obtain rfl := Option.some.inj h
        exact hinv.build rfl
          (mutex_kept hinv rfl (by simp [hp, Holds]) (by simp [Holds]) rfl)
          (by simp [hp, Building]) (by simp [Building]) rfl rfl rfl
      next e es hp =>
        obtain rfl := Option.some.inj h
        exact hinv.build rfl
          (mutex_kept hinv rfl (by simp [hp, Holds]) (by simp [Holds]) rfl)
          (by simp [hp, Building]) (by simp [Building]) rfl rfl rfl
      next => cases h
  | unlock t =>
      simp only [exec] at h
      split at h
      next hp =>
        obtain rfl := Option.some.inj h
        exact hinv.build rfl
          (mutex_released hinv rfl (by simp [hp, Holds]) (by simp [Holds]) rfl)
          (by simp [hp, Building]) (by simp [Building]) rfl rfl rfl
      next => cases h
  | setFlag t =>
      simp only [exec] at h
      split at h
      next hp =>
        obtain rfl := Option.some.inj h
        -- past its unlock the builder holds no mutex, before or after
        refine hinv.finish rfl (fun u => ?_) (by simp [hp, Building]) rfl rfl
        by_cases hu : u = t
        · subst hu
          show Holds ((s.goto u .outside).pc u) ↔ s.mutex = some u
          rw [goto_pc_self, ← hinv.mutex u, hp]
          simp [Holds]
        · show Holds ((s.goto t .outside).pc u) ↔ s.mutex = some u
          rw [goto_pc_of_ne s _ hu]
          exact hinv.mutex u
      next => cases h

/-- While the invariant holds, the parse is over when a thread has returned
with success. -/
theorem Inv.no_late_write {expat : String → List Element} {s s' : Shared θ} {a : Move θ}
    (hinv : s.Inv) (h : s.exec expat a = some s') : s.NoLateWrite a := by
  cases a with
  | element t =>
      show s.returned = false
      -- a success would have raised the flag, and then nobody builds
      have hbuilding : Building (s.pc t) := by
        simp only [exec] at h
        split at h
        next hp => simp [hp, Building]
        next hp => simp [hp, Building]
        next => cases h
      by_contra hr
      have hup := hinv.success (by simpa using hr)
      exact (hinv.flag_up hup).2 t hbuilding
  | lock t | test t | leave t | read t src | fail t | unlock t | setFlag t => trivial

/-! ## §4. Every schedule. -/

/-- **The table is built at most once, and never written after a successful
return**, in every schedule of any number of threads in which each thread
that finds the flag down does so while no thread is between its unlock and
its setting of the flag. -/
theorem built_at_most_once (expat : String → List Element) (schedule : List (Move θ))
    (hsees : StepsMeet (exec expat) TestSeesBuilder start schedule) :
    StatesMeet (exec expat) AtMostOneParse start schedule
      ∧ StepsMeet (exec expat) NoLateWrite start schedule := by
  have hinv : StatesMeet (exec expat) Inv start schedule :=
    statesMeet_of_stepsMeet (fun _ _ _ hinv hG h => exec_inv hinv hG h) start_inv hsees
  constructor
  · exact hinv.imp (fun _ hs => hs.once)
  · exact hinv.steps (fun _ _ _ hs h => hs.no_late_write h)

/-- The events of a document with one channel, whatever the text is. -/
def oneChannel (_ : String) : List Element :=
  [⟨"crate", [("number", "1")]⟩, ⟨"slot", [("number", "3")]⟩,
    ⟨"channel", [("number", "0"), ("detector", "paddles"), ("id", "2")]⟩]

/-- The sources of a run with a local file only, without the calibration
database. -/
def localOnly : XmlSources := { NO_CCDB := true, jcalib := none, localFile := some "<tt/>" }

/-- The steps of one thread from the test to the unlock, the flag being down: it
reads the local file and parses it. -/
def buildMoves (t : Bool) : List (Move Bool) :=
  [.lock t, .test t, .read t localOnly, .element t, .element t, .element t, .element t,
    .unlock t]

/-- One thread builds the table and sets the flag before the other locks the
mutex, and the other finds it up. -/
theorem flag_before_second_lock :
    StatesMeet (exec oneChannel) AtMostOneParse start
        (buildMoves false ++ [.setFlag false, .lock true, .test true, .leave true])
      ∧ StepsMeet (exec oneChannel) NoLateWrite start
        (buildMoves false ++ [.setFlag false, .lock true, .test true, .leave true]) := by
  exact built_at_most_once oneChannel _ (by decide)

/-- **The second thread tests the flag before the first one sets it**: it
parses the document again, and writes the table after the first thread has
returned. -/
theorem test_before_flag_parses_twice :
    ¬ StatesMeet (exec oneChannel) AtMostOneParse start
        (buildMoves false ++ [.lock true, .test true, .setFlag false, .read true localOnly])
      ∧ ¬ StepsMeet (exec oneChannel) NoLateWrite start
        (buildMoves false ++ [.lock true, .test true, .setFlag false, .read true localOnly]
          ++ [.element true]) := by
  constructor
  · decide
  · decide

end Shared

end PokerReco.TT
