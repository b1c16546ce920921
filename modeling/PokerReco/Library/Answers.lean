/-
  PokerReco.Library.Answers
  ─────────────────────────
  **A MACHINE THAT ANSWERS AS ANOTHER ONE.**

  A step of a machine gives an answer, or fails; a step of what it stands for
  gives the same answer, and never fails.  If each step does, any number of
  them do.

      answers, meanings   the answers of the two
      FitsAll             what is asked of the steps
      answers_eq          the answers are the same
-/
import Mathlib.Data.List.Basic

namespace PokerReco.Library

variable {σ τ α β ε : Type*}

/-- The answers of a machine. -/
def answers (exec : σ → α → Except ε (β × σ)) : List α → σ → Except ε (List β × σ)
  | [], s => .ok ([], s)
  | a :: as, s =>
      (exec s a).bind fun done => (answers exec as done.2).map fun rest =>
        (done.1 :: rest.1, rest.2)

/-- The answers of what it stands for. -/
def meanings (means : τ → α → β × τ) : List α → τ → List β × τ
  | [], t => ([], t)
  | a :: as, t =>
      ((means t a).1 :: (meanings means as (means t a).2).1, (meanings means as (means t a).2).2)

/-- Each step fits in where it is taken. -/
def FitsAll (means : τ → α → β × τ) (fits : τ → α → Prop) : List α → τ → Prop
  | [], _ => True
  | a :: as, t => fits t a ∧ FitsAll means fits as (means t a).2

instance FitsAll.decidable {means : τ → α → β × τ} {fits : τ → α → Prop}
    [∀ t a, Decidable (fits t a)] : ∀ (as : List α) (t : τ), Decidable (FitsAll means fits as t)
  | [], _ => isTrue trivial
  | a :: as, t =>
      have : Decidable (FitsAll means fits as (means t a).2) := FitsAll.decidable as _
      inferInstanceAs (Decidable (fits t a ∧ FitsAll means fits as (means t a).2))

/-- **The answers are the same**, and no step fails. -/
theorem answers_eq {exec : σ → α → Except ε (β × σ)} {means : τ → α → β × τ}
    {fits : τ → α → Prop} {R : σ → τ → Prop}
    (step : ∀ s t a, R s t → fits t a →
      ∃ s', exec s a = .ok ((means t a).1, s') ∧ R s' (means t a).2) (as : List α) :
    ∀ s t, R s t → FitsAll means fits as t →
      ∃ s', answers exec as s = .ok ((meanings means as t).1, s')
        ∧ R s' (meanings means as t).2 := by
  induction as with
  | nil =>
      intro s t h _
      exact ⟨s, rfl, h⟩
  | cons a as ih =>
      intro s t h hfits
      obtain ⟨s₁, hexec, h₁⟩ := step s t a h hfits.1
      obtain ⟨s₂, hanswers, h₂⟩ := ih s₁ _ h₁ hfits.2
      refine ⟨s₂, ?_, h₂⟩
      unfold answers
      rw [hexec]
      exact congrArg (Except.map _) hanswers

end PokerReco.Library
