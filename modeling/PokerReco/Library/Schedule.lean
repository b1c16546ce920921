/-
  PokerReco.Library.Schedule
  ──────────────────────────
  **RUNS OF A STATE MACHINE UNDER AN ARBITRARY SCHEDULE.**

  A machine is an executable step `exec : σ → α → Option σ`: in state `s` the
  action `a` either cannot be taken (`none`) or leads to one next state.  A
  schedule is a list of actions.  An interleaving of threads is a schedule
  whose actions name the thread that moves, so a fact about every schedule is
  a fact about every interleaving.

      execAll      the state a schedule leads to
      StatesMeet   every state visited, the first and the last included
      StepsMeet    every step taken, seen from the state before it

  The rules are packaged here once.  `statesMeet_of_stepsMeet` is invariance
  relative to a guard on the steps; `statesMeet_iff_stepsMeet` is its sharp
  form, for a guard that says exactly when one step keeps the property;
  `statesMeet_of_last` goes backwards from the end of a schedule.
-/
import Mathlib.Data.List.Basic

namespace PokerReco.Library

variable {σ α : Type*}

/-! ## §1. Schedules and what they visit. -/

/-- The state a schedule leads to; `none` when one of its actions is not
enabled where it is reached. -/
def execAll (exec : σ → α → Option σ) : σ → List α → Option σ
  | s, [] => some s
  | s, a :: as => (exec s a).bind (execAll exec · as)

/-- `P` holds in every state the schedule visits. -/
def StatesMeet (exec : σ → α → Option σ) (P : σ → Prop) : σ → List α → Prop
  | s, [] => P s
  | s, a :: as => P s ∧ ∀ s', exec s a = some s' → StatesMeet exec P s' as

/-- `G` holds of every step the schedule takes: of the action and of the
state in which it is taken. -/
def StepsMeet (exec : σ → α → Option σ) (G : σ → α → Prop) : σ → List α → Prop
  | _, [] => True
  | s, a :: as => ∀ s', exec s a = some s' → G s a ∧ StepsMeet exec G s' as

/-- The empty schedule leads nowhere else. -/
@[simp] theorem execAll_nil (exec : σ → α → Option σ) (s : σ) :
    execAll exec s [] = some s := rfl

/-- A schedule leads to a state when its first action does to some state, and the
others from there. -/
theorem execAll_cons_eq_some {exec : σ → α → Option σ} {s t : σ} {a : α} {as : List α} :
    execAll exec s (a :: as) = some t
      ↔ ∃ s', exec s a = some s' ∧ execAll exec s' as = some t := by
  simp only [execAll, Option.bind_eq_some_iff]

/-- The first state is among the states visited. -/
theorem StatesMeet.first {exec : σ → α → Option σ} {P : σ → Prop} {s : σ} {as : List α}
    (h : StatesMeet exec P s as) : P s := by
  cases as with
  | nil => exact h
  | cons a as => exact h.1

/-- The state the schedule leads to is among the states visited. -/
theorem StatesMeet.last {exec : σ → α → Option σ} {P : σ → Prop} :
    ∀ {as : List α} {s t : σ},
      StatesMeet exec P s as → execAll exec s as = some t → P t
  | [], s, t, h, ht => by
      injection ht with ht
      subst ht
      exact h
  | a :: as, s, t, h, ht => by
      obtain ⟨s', hs, ht'⟩ := execAll_cons_eq_some.mp ht
      exact StatesMeet.last (h.2 s' hs) ht'

/-- A weaker property holds in every state visited, too. -/
theorem StatesMeet.imp {exec : σ → α → Option σ} {P Q : σ → Prop} (hPQ : ∀ s, P s → Q s) :
    ∀ {as : List α} {s : σ}, StatesMeet exec P s as → StatesMeet exec Q s as
  | [], s, h => hPQ s h
  | _ :: _, s, h => ⟨hPQ s h.1, fun s' hs => (h.2 s' hs).imp hPQ⟩

/-- A weaker guard is met by every step, too. -/
theorem StepsMeet.imp {exec : σ → α → Option σ} {G H : σ → α → Prop}
    (hGH : ∀ s a, G s a → H s a) :
    ∀ {as : List α} {s : σ}, StepsMeet exec G s as → StepsMeet exec H s as
  | [], _, _ => trivial
  | a :: _, s, h => fun s' hs => ⟨hGH s a (h s' hs).1, (h s' hs).2.imp hGH⟩

/-- Whether a property that can be decided holds along a concrete schedule can
be decided. -/
instance StatesMeet.decidable {exec : σ → α → Option σ} {P : σ → Prop} [DecidablePred P] :
    ∀ (as : List α) (s : σ), Decidable (StatesMeet exec P s as)
  | [], s => inferInstanceAs (Decidable (P s))
  | a :: as, s =>
      match h : exec s a with
      | none => decidable_of_iff (P s) ⟨fun hs => ⟨hs, fun s' hs' => by simp [h] at hs'⟩, (·.1)⟩
      | some t =>
          have : Decidable (StatesMeet exec P t as) := StatesMeet.decidable as t
          decidable_of_iff (P s ∧ StatesMeet exec P t as)
            ⟨fun hs => ⟨hs.1, fun s' hs' => by
                rw [h] at hs'
                injection hs' with hs'
                exact hs' ▸ hs.2⟩,
              fun hs => ⟨hs.1, hs.2 t h⟩⟩

/-- Whether the steps of a concrete schedule meet a guard that can be decided can
be decided, too. -/
instance StepsMeet.decidable {exec : σ → α → Option σ} {G : σ → α → Prop}
    [∀ s a, Decidable (G s a)] : ∀ (as : List α) (s : σ), Decidable (StepsMeet exec G s as)
  | [], _ => inferInstanceAs (Decidable True)
  | a :: as, s =>
      match h : exec s a with
      | none => isTrue (fun s' hs' => by simp [h] at hs')
      | some t =>
          have : Decidable (StepsMeet exec G t as) := StepsMeet.decidable as t
          decidable_of_iff (G s a ∧ StepsMeet exec G t as)
            ⟨fun hs s' hs' => by
                rw [h] at hs'
                injection hs' with hs'
                exact hs' ▸ hs,
              fun hs => hs t h⟩

/-! ## §2. The rules. -/

/-- **Guarded invariance**: a property that holds at the start and that every
guarded step keeps holds in every state of a schedule whose steps all meet
the guard. -/
theorem statesMeet_of_stepsMeet {exec : σ → α → Option σ} {P : σ → Prop} {G : σ → α → Prop}
    (keep : ∀ s a s', P s → G s a → exec s a = some s' → P s') :
    ∀ {as : List α} {s : σ}, P s → StepsMeet exec G s as → StatesMeet exec P s as
  | [], _, hP, _ => hP
  | _ :: _, s, hP, hG =>
      ⟨hP, fun s' hs =>
        statesMeet_of_stepsMeet keep (keep s _ s' hP (hG s' hs).1 hs) (hG s' hs).2⟩

/-- **Invariance**: without a guard, what holds at the start and is kept by every
step holds in every state of any schedule. -/
theorem statesMeet_of_step {exec : σ → α → Option σ} {P : σ → Prop}
    (keep : ∀ s a s', P s → exec s a = some s' → P s') :
    ∀ {as : List α} {s : σ}, P s → StatesMeet exec P s as
  | [], _, hP => hP
  | _ :: _, s, hP =>
      ⟨hP, fun s' hs => statesMeet_of_step keep (keep s _ s' hP hs)⟩

/-- What every visited state says of the steps it allows, every step taken
meets. -/
theorem StatesMeet.steps {exec : σ → α → Option σ} {P : σ → Prop} {G : σ → α → Prop}
    (allow : ∀ s a s', P s → exec s a = some s' → G s a) :
    ∀ {as : List α} {s : σ}, StatesMeet exec P s as → StepsMeet exec G s as
  | [], _, _ => trivial
  | a :: _, s, h => fun s' hs => ⟨allow s a s' h.1 hs, StatesMeet.steps allow (h.2 s' hs)⟩

/-- **The sharp rule**: let `J` be an invariant of the machine and let `G` say
exactly when a step keeps `P`.  Then a schedule keeps `P` throughout if and
only if every step it takes meets `G`. -/
theorem statesMeet_iff_stepsMeet {exec : σ → α → Option σ} {J P : σ → Prop}
    {G : σ → α → Prop}
    (inv : ∀ s a s', J s → exec s a = some s' → J s')
    (sharp : ∀ s a s', J s → P s → exec s a = some s' → (P s' ↔ G s a)) :
    ∀ {as : List α} {s : σ}, J s → P s →
      (StatesMeet exec P s as ↔ StepsMeet exec G s as)
  | [], _, _, hP => ⟨fun _ => trivial, fun _ => hP⟩
  | a :: as, s, hJ, hP => by
      constructor
      · rintro ⟨-, hrest⟩ s' hs
        -- the next state has the property, so the guard held of this step
        have hP' : P s' := (hrest s' hs).first
        exact ⟨(sharp s a s' hJ hP hs).mp hP',
          (statesMeet_iff_stepsMeet inv sharp (inv s a s' hJ hs) hP').mp (hrest s' hs)⟩
      · intro hsteps
        refine ⟨hP, fun s' hs => ?_⟩
        obtain ⟨hG, hrest⟩ := hsteps s' hs
        have hP' : P s' := (sharp s a s' hJ hP hs).mpr hG
        exact (statesMeet_iff_stepsMeet inv sharp (inv s a s' hJ hs) hP').mpr hrest

/-- **The backward rule**: a property that a step cannot restore once it is
lost holds throughout a schedule at whose end it holds. -/
theorem statesMeet_of_last {exec : σ → α → Option σ} {J P : σ → Prop}
    (inv : ∀ s a s', J s → exec s a = some s' → J s')
    (back : ∀ s a s', J s → exec s a = some s' → P s' → P s) :
    ∀ {as : List α} {s t : σ}, J s → execAll exec s as = some t → P t → StatesMeet exec P s as
  | [], s, t, _, ht, hP => by
      injection ht with ht
      subst ht
      exact hP
  | a :: as, s, t, hJ, ht, hP => by
      obtain ⟨s₁, hs, ht₁⟩ := execAll_cons_eq_some.mp ht
      -- the rest of the schedule first, then one step back
      have hrest := statesMeet_of_last inv back (inv s a s₁ hJ hs) ht₁ hP
      refine ⟨back s a s₁ hJ hs hrest.first, fun s₂ hs₂ => ?_⟩
      rw [hs] at hs₂
      injection hs₂ with hs₂
      subst hs₂
      exact hrest

end PokerReco.Library
