/-
  PokerReco.Library.Iteration
  ───────────────────────────
  **LOOPS WITHOUT A BOUND.**

  A loop `while (1) { … }` is its body: a turn makes a new state, or breaks
  off with a result.  The loop returns when some number of turns is enough.

      returns_iff_of_turn    a turn changes neither whether nor what it returns
      invariant_of_returns   what every turn keeps holds of the result
      not_returns_of_stays   a set of states that no turn leaves
-/
import Mathlib.Tactic.TypeStar

namespace PokerReco.Library

variable {σ ρ : Type*} (turn : σ → σ ⊕ ρ)

/-- The result of at most `n` turns; `none` when they are not enough. -/
def turns : Nat → σ → Option ρ
  | 0, _ => none
  | n + 1, s =>
      match turn s with
      | .inl s => turns n s
      | .inr r => some r

/-- The loop returns, with the result `r`. -/
def Returns (s : σ) (r : ρ) : Prop := ∃ n, turns turn n s = some r

variable {turn}

theorem returns_iff_of_turn {s s' : σ} (h : turn s = .inl s') (r : ρ) :
    Returns turn s r ↔ Returns turn s' r := by
  refine ⟨fun ⟨n, hn⟩ => ?_, fun ⟨n, hn⟩ => ⟨n + 1, ?_⟩⟩
  · cases n with
    | zero => cases hn
    | succ n =>
        unfold turns at hn
        rw [h] at hn
        exact ⟨n, hn⟩
  · unfold turns
    rw [h]
    exact hn

theorem returns_iff_of_break {s : σ} {r : ρ} (h : turn s = .inr r) (r' : ρ) :
    Returns turn s r' ↔ r = r' := by
  refine ⟨fun ⟨n, hn⟩ => ?_, fun hr => ⟨1, ?_⟩⟩
  · cases n with
    | zero => cases hn
    | succ n =>
        unfold turns at hn
        rw [h] at hn
        exact Option.some.inj hn
  · unfold turns
    rw [h, hr]

/-- **What every turn keeps** holds where the loop breaks off. -/
theorem invariant_of_returns {I : σ → Prop} {Q : ρ → Prop}
    (turn_keeps : ∀ s s', I s → turn s = .inl s' → I s')
    (break_gives : ∀ s r, I s → turn s = .inr r → Q r) {s : σ} (hs : I s) {r : ρ}
    (h : Returns turn s r) : Q r := by
  obtain ⟨n, hn⟩ := h
  induction n generalizing s with
  | zero => cases hn
  | succ n ih =>
      unfold turns at hn
      cases hturn : turn s with
      | inl s' =>
          rw [hturn] at hn
          exact ih (turn_keeps s s' hs hturn) hn
      | inr r' =>
          rw [hturn] at hn
          obtain rfl := Option.some.inj hn
          exact break_gives s r' hs hturn

/-- **A loop that never returns**: every state of `I` takes a turn into `I`. -/
theorem not_returns_of_stays {I : σ → Prop} (stays : ∀ s, I s → ∃ s', turn s = .inl s' ∧ I s')
    {s : σ} (hs : I s) (r : ρ) : ¬ Returns turn s r := by
  intro ⟨n, hn⟩
  induction n generalizing s with
  | zero => cases hn
  | succ n ih =>
      obtain ⟨s', hturn, hs'⟩ := stays s hs
      unfold turns at hn
      rw [hturn] at hn
      exact ih hs' hn

end PokerReco.Library
