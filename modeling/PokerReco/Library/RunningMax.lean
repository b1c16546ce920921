/-
  PokerReco.Library.RunningMax
  ────────────────────────────
  **THE FIRST ELEMENT WITH THE HIGHEST VALUE.**

  `if (val(a) > max) { max = val(a); at = a; }` for every element of a list
  ends with the first of the elements with the highest value, unless none is
  above the number that `max` starts from.

      runningMax_of_isFirstMax   the loop ends at that element
      IsFirstPeak                the same for a set of places
-/
import Mathlib.Data.List.Induction
import Mathlib.Order.Lattice

namespace PokerReco.Library

variable {α ρ : Type*} [LinearOrder ρ] (val : α → ρ) (start : ρ)

/-- The loop: the maximum so far above a start, and the element it is from. -/
def runningMax (l : List α) : ρ × Option α :=
  l.foldl (fun m a => if val a > m.1 then (val a, some a) else m) (start, none)

/-- The first of the elements of the list with the highest value: those before it
are lower, those behind it not higher. -/
def IsFirstMax (l : List α) (a : α) : Prop :=
  ∃ before after, l = before ++ a :: after ∧ (∀ b ∈ before, val b < val a) ∧
    ∀ b ∈ after, val b ≤ val a

/-- The first maximum is an element of the list. -/
theorem IsFirstMax.mem {l : List α} {a : α} (h : IsFirstMax val l a) : a ∈ l := by
  obtain ⟨before, after, rfl, -, -⟩ := h
  exact List.mem_append_right _ List.mem_cons_self

/-- No element of the list has a higher value. -/
theorem IsFirstMax.le {l : List α} {a : α} (h : IsFirstMax val l a) : ∀ b ∈ l, val b ≤ val a := by
  obtain ⟨before, after, rfl, hbefore, hafter⟩ := h
  intro b hb
  obtain hb | hb := List.mem_append.mp hb
  · exact le_of_lt (hbefore b hb)
  · obtain rfl | hb := List.mem_cons.mp hb
    · exact le_refl _
    · exact hafter b hb

/-- One element more takes the place if its value is higher than all before. -/
theorem runningMax_append (l : List α) (a : α) :
    runningMax val start (l ++ [a])
      = if val a > (runningMax val start l).1 then (val a, some a)
        else runningMax val start l :=
  List.foldl_append

/-- The maximum is below every bound that the elements and the start are below. -/
theorem runningMax_lt {l : List α} {v : ρ} (hstart : start < v) (hl : ∀ a ∈ l, val a < v) :
    (runningMax val start l).1 < v := by
  induction l using List.reverseRecOn with
  | nil => exact hstart
  | append_singleton l a ih =>
      rw [runningMax_append]
      split
      · exact hl a (List.mem_append_right _ (List.mem_singleton_self a))
      · exact ih fun b hb => hl b (List.mem_append_left _ hb)

/-- Elements that are not above the maximum change nothing, so that the loop could
stop there. -/
theorem runningMax_append_of_le (l : List α) {after : List α}
    (h : ∀ b ∈ after, val b ≤ (runningMax val start l).1) :
    runningMax val start (l ++ after) = runningMax val start l := by
  induction after using List.reverseRecOn with
  | nil => rw [List.append_nil]
  | append_singleton after a ih =>
      have hafter := ih fun b hb => h b (List.mem_append_left _ hb)
      have ha := h a (List.mem_append_right _ (List.mem_singleton_self a))
      rw [← List.append_assoc, runningMax_append, hafter, if_neg (not_lt.mpr ha)]

/-- The maximum is that of its element, which is the first with that value;
without one it is the start, and no element is above it. -/
theorem runningMax_cases (l : List α) :
    (runningMax val start l = (start, none) ∧ ∀ a ∈ l, val a ≤ start) ∨
      ∃ a, runningMax val start l = (val a, some a) ∧ start < val a ∧ IsFirstMax val l a := by
  induction l using List.reverseRecOn with
  | nil => exact Or.inl ⟨rfl, fun a h => absurd h List.not_mem_nil⟩
  | append_singleton l a ih =>
      rw [runningMax_append]
      obtain ⟨hl, hle⟩ | ⟨b, hl, hstart, hb⟩ := ih
      · rw [hl]
        by_cases ha : val a > start
        · rw [if_pos ha]
          exact Or.inr ⟨a, rfl, ha, l, [], rfl, fun b hb => lt_of_le_of_lt (hle b hb) ha,
            fun b h => absurd h List.not_mem_nil⟩
        · rw [if_neg ha]
          refine Or.inl ⟨rfl, fun b hb => ?_⟩
          obtain hb | hb := List.mem_append.mp hb
          · exact hle b hb
          · rw [List.mem_singleton.mp hb]
            exact not_lt.mp ha
      · rw [hl]
        by_cases ha : val a > val b
        · rw [if_pos ha]
          exact Or.inr ⟨a, rfl, lt_trans hstart ha, l, [], rfl,
            fun c hc => lt_of_le_of_lt (hb.le val c hc) ha, fun c h => absurd h List.not_mem_nil⟩
        · rw [if_neg ha]
          obtain ⟨before, after, rfl, hbefore, hafter⟩ := hb
          refine Or.inr ⟨b, rfl, hstart, before, after ++ [a], by simp, hbefore, fun c hc => ?_⟩
          obtain hc | hc := List.mem_append.mp hc
          · exact hafter c hc
          · rw [List.mem_singleton.mp hc]
            exact not_lt.mp ha

/-- **The loop ends at the first element with the highest value.** -/
theorem runningMax_of_isFirstMax {l : List α} {a : α} (ha : start < val a)
    (h : IsFirstMax val l a) : runningMax val start l = (val a, some a) := by
  obtain ⟨before, after, rfl, hbefore, hafter⟩ := h
  have hat : runningMax val start (before ++ [a]) = (val a, some a) := by
    rw [runningMax_append, if_pos (runningMax_lt val start ha hbefore)]
  rw [List.append_cons, runningMax_append_of_le, hat]
  rw [hat]
  exact hafter

/-! ## The first place with the highest value. -/

section FirstPeak

variable {ι : Type*} [LinearOrder ι] {height : ι → ρ} {D D' : ι → Prop} {k k' : ι}

/-- The first place of a set with the highest value in it: the same notion for
places instead of lists. -/
structure IsFirstPeak (height : ι → ρ) (D : ι → Prop) (k : ι) : Prop where
  mem : D k
  le : ∀ m, D m → height m ≤ height k
  lt : ∀ m, D m → m < k → height m < height k

/-- A set has one first peak at most. -/
theorem IsFirstPeak.unique (h : IsFirstPeak height D k) (h' : IsFirstPeak height D k') :
    k = k' := by
  refine le_antisymm (le_of_not_gt fun hlt => ?_) (le_of_not_gt fun hlt => ?_)
  · exact absurd (h'.le k h.mem) (not_le.mpr (h.lt k' h'.mem hlt))
  · exact absurd (h.le k' h'.mem) (not_le.mpr (h'.lt k h.mem hlt))

/-- The first peak of a set is that of a smaller set that it is in. -/
theorem IsFirstPeak.mono (h : IsFirstPeak height D k) (hsub : ∀ m, D' m → D m) (hk : D' k) :
    IsFirstPeak height D' k :=
  ⟨hk, fun m hm => h.le m (hsub m hm), fun m hm => h.lt m (hsub m hm)⟩

end FirstPeak

end PokerReco.Library
