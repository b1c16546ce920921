/-
  PokerReco.Library.PartialFold
  ─────────────────────────────
  **LOOPS WHOSE STEPS CAN FAIL.**

  A loop over a list is `foldlM` in `Option`; it fails when one of its steps
  does.  A loop that collects what its steps publish is `mapM`.

      ite_isSome_iff      a step on some elements only
      foldlM_isSome_iff   steps that fail on some elements only
      foldlM_eq_none      an element on which every step fails
      foldlM_map          what a loop does to a part of its state
      foldlM_part         the same for a loop that does not fail
      foldlM_part_congr   two loops that differ in what is not read
      foldlM_flatMap      a loop in a loop
      mapM_isSome_iff     a loop that collects comes to its end
      flatten_mapM_replace   one element replaced in a loop that collects
-/
import Mathlib.Data.List.Basic
import Mathlib.Data.List.Forall2

namespace PokerReco.Library

variable {σ σ' α β : Type*}

/-! ## §1. Loops with a state. -/

/-- A step that is done on some elements only fails at most on these. -/
theorem ite_isSome_iff {c : Prop} [Decidable c] {run : Option σ} {s : σ} :
    (if c then run else some s).isSome = true ↔ (c → run.isSome = true) := by
  split
  · next h => exact ⟨fun hrun _ => hrun, fun hrun => hrun h⟩
  · next h => exact ⟨fun _ hc => absurd hc h, fun _ => rfl⟩

/-- **A loop fails on an element** where its step does, whatever the state. -/
theorem foldlM_isSome_iff {step : σ → α → Option σ} {ok : α → Prop}
    (hstep : ∀ s a, (step s a).isSome = true ↔ ok a) (l : List α) (s : σ) :
    (l.foldlM step s).isSome = true ↔ ∀ a ∈ l, ok a := by
  induction l generalizing s with
  | nil => exact ⟨fun _ a ha => absurd ha List.not_mem_nil, fun _ => rfl⟩
  | cons a l ih =>
      rw [List.forall_mem_cons, ← hstep s a]
      show ((step s a).bind fun s => l.foldlM step s).isSome = true ↔ _
      cases step s a with
      | none => exact ⟨fun h => absurd h Bool.false_ne_true, fun h => h.1⟩
      | some s' => exact (ih s').trans ⟨fun h => ⟨rfl, h⟩, fun h => h.2⟩

/-- One element on which the step fails in every state is enough for the
loop to fail. -/
theorem foldlM_eq_none {step : σ → α → Option σ} {l : List α} {a : α} (ha : a ∈ l)
    (hstep : ∀ s, step s a = none) (s : σ) : l.foldlM step s = none := by
  induction l generalizing s with
  | nil => exact absurd ha List.not_mem_nil
  | cons b l ih =>
      rw [List.foldlM_cons]
      obtain rfl | hrest := List.mem_cons.mp ha
      · rw [hstep s]
        rfl
      · cases step s b with
        | none => rfl
        | some s' => exact ih hrest s'

/-- **A loop on a part of the state**: when each step shows on it. -/
theorem foldlM_map {step : σ → α → Option σ} {step' : σ' → α → Option σ'} {part : σ → σ'}
    {l : List α} (hstep : ∀ s, ∀ a ∈ l, (step s a).map part = step' (part s) a) (s : σ) :
    (l.foldlM step s).map part = l.foldlM step' (part s) := by
  induction l generalizing s with
  | nil => rfl
  | cons a l ih =>
      have hrest := fun s => ih (fun s b hb => hstep s b (List.mem_cons_of_mem a hb)) s
      rw [List.foldlM_cons, List.foldlM_cons, ← hstep s a List.mem_cons_self]
      cases step s a with
      | none => rfl
      | some s' => exact hrest s'

/-- A part of the state on which no step fails goes through the loop as if nothing
could fail. -/
theorem foldlM_part {step : σ → α → Option σ} (run : σ' → α → σ') {part : σ → σ'}
    (hstep : ∀ s a s', step s a = some s' → part s' = run (part s) a) {l : List α} {s s' : σ}
    (h : l.foldlM step s = some s') : part s' = l.foldl run (part s) := by
  induction l generalizing s with
  | nil =>
      obtain rfl : s = s' := Option.some.inj h
      rfl
  | cons a l ih =>
      rw [List.foldlM_cons] at h
      obtain ⟨s₁, hfirst, hrest⟩ := Option.bind_eq_some_iff.mp h
      rw [List.foldl_cons, ← hstep s a s₁ hfirst]
      exact ih hrest

/-- **Two loops from states with a common part**, when each step makes this part
from itself. -/
theorem foldlM_part_congr {step : σ → α → Option σ} {part : σ → σ'}
    (hstep : ∀ s₁ s₂ a, part s₁ = part s₂ → (step s₁ a).map part = (step s₂ a).map part)
    (l : List α) {s₁ s₂ : σ} (h : part s₁ = part s₂) :
    (l.foldlM step s₁).map part = (l.foldlM step s₂).map part := by
  induction l generalizing s₁ s₂ with
  | nil => exact congrArg some h
  | cons a l ih =>
      have hfirst := hstep s₁ s₂ a h
      rw [List.foldlM_cons, List.foldlM_cons]
      cases h₁ : step s₁ a with
      | none =>
          rw [h₁] at hfirst
          rw [Option.map_eq_none_iff.mp hfirst.symm]
      | some t₁ =>
          rw [h₁] at hfirst
          obtain ⟨t₂, h₂, hpart⟩ := Option.map_eq_some_iff.mp hfirst.symm
          rw [h₂]
          exact ih hpart.symm

/-- A loop over the elements that each element of a list stands for. -/
theorem foldlM_flatMap {step : σ → β → Option σ} (f : α → List β) (l : List α) (s : σ) :
    (l.flatMap f).foldlM step s = l.foldlM (fun s a => (f a).foldlM step s) s := by
  induction l generalizing s with
  | nil => rfl
  | cons a l ih =>
      rw [List.flatMap_cons, List.foldlM_append, List.foldlM_cons]
      congr 1
      funext s
      exact ih s

/-! ## §2. Loops that collect. -/

section Collect

variable {α β γ : Type}

/-- What is seen of the results of a loop is what is seen of each. -/
theorem mapM_map (g : α → Option β) (r : β → γ) (l : List α) :
    (l.mapM g).map (List.map r) = l.mapM fun a => (g a).map r := by
  induction l with
  | nil => rfl
  | cons a l ih =>
      rw [List.mapM_cons, List.mapM_cons, ← ih]
      cases g a with
      | none => rfl
      | some b =>
          cases l.mapM g with
          | none => rfl
          | some bs => rfl

/-- The loop comes to its end when every turn does. -/
theorem mapM_isSome_iff {g : α → Option β} {l : List α} :
    (l.mapM g).isSome = true ↔ ∀ a ∈ l, (g a).isSome = true := by
  induction l with
  | nil => exact ⟨fun _ _ h => absurd h List.not_mem_nil, fun _ => rfl⟩
  | cons a l ih =>
      rw [List.mapM_cons, List.forall_mem_cons, ← ih]
      cases g a with
      | none => exact ⟨fun h => absurd h Bool.false_ne_true, fun h => h.1⟩
      | some b =>
          cases l.mapM g with
          | none => exact ⟨fun h => absurd h Bool.false_ne_true, fun h => h.2⟩
          | some bs => exact ⟨fun _ => ⟨rfl, rfl⟩, fun _ => rfl⟩

/-- When every turn publishes something with a property, the loop does, in
order. -/
theorem mapM_forall₂ {g : α → Option β} {R : α → β → Prop} {l : List α}
    (h : ∀ a ∈ l, ∃ b, g a = some b ∧ R a b) :
    ∃ data, l.mapM g = some data ∧ List.Forall₂ R l data := by
  induction l with
  | nil => exact ⟨[], rfl, List.Forall₂.nil⟩
  | cons a l ih =>
      obtain ⟨⟨b, hb, hR⟩, hrest⟩ := List.forall_mem_cons.mp h
      obtain ⟨data, hdata, hall⟩ := ih hrest
      refine ⟨b :: data, ?_, List.Forall₂.cons hR hall⟩
      rw [List.mapM_cons, hb, hdata]
      rfl

/-- What a loop publishes does not depend on one of its elements, whatever the
others are, exactly when the turn of that element does not. -/
theorem flatten_mapM_replace {g : α → Option (List β)} {r : β → γ} {a a' : α} :
    (∀ before after, (((before ++ a' :: after).mapM g).map List.flatten).map (List.map r)
        = (((before ++ a :: after).mapM g).map List.flatten).map (List.map r))
      ↔ (g a').map (List.map r) = (g a).map (List.map r) := by
  have hpublished : ∀ l : List α, ((l.mapM g).map List.flatten).map (List.map r)
      = (l.mapM fun a => (g a).map (List.map r)).map List.flatten := by
    intro l
    rw [← mapM_map, Option.map_map, Option.map_map]
    congr 1
    funext data
    exact List.map_flatten
  have hsingle : ∀ a : α, ([a].mapM fun a => (g a).map (List.map r)).map List.flatten
      = (g a).map (List.map r) := by
    intro a
    rw [List.mapM_cons, List.mapM_nil]
    cases (g a).map (List.map r) with
    | none => rfl
    | some data => exact congrArg some List.flatten_singleton
  simp only [hpublished]
  constructor
  · intro h
    rw [← hsingle a', ← hsingle a]
    exact h [] []
  · intro h before after
    rw [List.mapM_append, List.mapM_append, List.mapM_cons, List.mapM_cons, h]

end Collect

end PokerReco.Library
