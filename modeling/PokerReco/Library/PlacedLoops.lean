/-
  PokerReco.Library.PlacedLoops
  ─────────────────────────────
  **LOOPS OVER VALUES AND THEIR PLACES.**

  Two loops over a list that also look at the place of each value: the sum of
  the values at some places, and the maximum with the place it is first
  reached at.  When all values move by the same amount, the sum moves by that
  amount for each place, and the maximum by that amount.

      sumAt_map_add    the sum of moved values
      peakAt_map_add   the maximum of moved values
      countAt_lt, countAt_between   the number of places of two kinds
-/
import Mathlib.Algebra.Order.Group.Defs
import Mathlib.Data.List.Induction

namespace PokerReco.Library

/-! ## §1. The sum at some places. -/

section Sum

variable {M : Type*} [AddCommMonoid M] (P : Nat → Prop) [DecidablePred P]

/-- The sum of the values at the places with the property, as a loop over all
places adds them. -/
def sumAt (values : List M) : M :=
  values.zipIdx.foldl (fun s value => if P value.2 then s + value.1 else s) 0

/-- The number of places before `n` with the property. -/
def countAt (n : Nat) : Nat := (List.range n).countP fun k => P k

/-- One value more counts if its place has the property. -/
theorem sumAt_append (values : List M) (value : M) :
    sumAt P (values ++ [value])
      = if P values.length then sumAt P values + value else sumAt P values := by
  rw [sumAt, List.zipIdx_append, List.foldl_append]
  simp only [List.zipIdx_singleton, List.foldl_cons, List.foldl_nil, Nat.zero_add]
  rfl

/-- One place more counts if it has the property. -/
theorem countAt_succ (n : Nat) :
    countAt P (n + 1) = if P n then countAt P n + 1 else countAt P n := by
  rw [countAt, countAt, List.range_succ, List.countP_append, List.countP_singleton]
  by_cases h : P n
  · rw [if_pos h, if_pos (decide_eq_true h)]
  · rw [if_neg h, if_neg (by simpa using h), Nat.add_zero]

/-- **The sum moves** once for each of its places when all values are
moved by `d`. -/
theorem sumAt_map_add (values : List M) (d : M) :
    sumAt P (values.map (· + d)) = sumAt P values + countAt P values.length • d := by
  induction values using List.reverseRecOn with
  | nil =>
      show (0 : M) = 0 + 0 • d
      rw [zero_nsmul, add_zero]
  | append_singleton values value ih =>
      rw [List.map_append, List.map_singleton, sumAt_append, sumAt_append, List.length_map,
        List.length_append, List.length_singleton, countAt_succ, ih]
      split
      · rw [succ_nsmul, add_add_add_comm]
      · rfl

/-- The places before a bound are counted up to the bound, or up to the end. -/
theorem countAt_lt (bound n : Nat) : countAt (· < bound) n = min n bound := by
  induction n with
  | zero => exact (Nat.zero_min bound).symm
  | succ n ih =>
      rw [countAt_succ, ih]
      split <;> omega

/-- The places of a window are counted from its first place up to its last, or up
to the end. -/
theorem countAt_between (first last n : Nat) :
    countAt (fun k => first ≤ k ∧ k ≤ last) n = min n (last + 1) - first := by
  induction n with
  | zero =>
      rw [Nat.zero_min, Nat.zero_sub]
      rfl
  | succ n ih =>
      rw [countAt_succ, ih]
      split <;> omega

/-- Only what the property says of places counts. -/
theorem countAt_congr {P Q : Nat → Prop} [DecidablePred P] [DecidablePred Q]
    (h : ∀ k, P k ↔ Q k) (n : Nat) : countAt P n = countAt Q n := by
  simp only [countAt, h]

end Sum

/-! ## §2. The maximum and its place. -/

section Peak

variable {M : Type*} [LinearOrder M]

/-- The maximum of some values above a start, and the place where it is
first reached. -/
def peakAt (start : M) (values : List M) : M × Nat :=
  values.zipIdx.foldl (fun s value => if value.1 > s.1 then value else s) (start, 0)

/-- One value more is the maximum if it is greater than all before; an equal one
comes too late. -/
theorem peakAt_append (start : M) (values : List M) (value : M) :
    peakAt start (values ++ [value])
      = if value > (peakAt start values).1 then (value, values.length)
        else peakAt start values := by
  rw [peakAt, List.zipIdx_append, List.foldl_append]
  simp only [List.zipIdx_singleton, List.foldl_cons, List.foldl_nil, Nat.zero_add]
  rfl

/-- **The maximum moves, and its place stays**, when there is a value and all
of them are above the start. -/
theorem peakAt_map_add [AddCommGroup M] [IsOrderedAddMonoid M] {start d : M} {values : List M}
    (hne : values ≠ []) (habove : ∀ value ∈ values, start < value)
    (hmoved : ∀ value ∈ values, start < value + d) :
    peakAt start (values.map (· + d))
      = ((peakAt start values).1 + d, (peakAt start values).2) := by
  induction values using List.reverseRecOn with
  | nil => exact absurd rfl hne
  | append_singleton values value ih =>
      have hvalue : value ∈ values ++ [value] := List.mem_append_right _ List.mem_cons_self
      rw [List.map_append, List.map_singleton, peakAt_append, peakAt_append, List.length_map]
      by_cases hnil : values = []
      -- the first value is the maximum, moved or not
      · have hstart : peakAt start ([] : List M) = (start, 0) := rfl
        rw [hnil, List.map_nil, hstart, if_pos (habove value hvalue), if_pos (hmoved value hvalue)]
      · have hrest := ih hnil (fun v hv => habove v (List.mem_append_left _ hv))
          fun v hv => hmoved v (List.mem_append_left _ hv)
        rw [hrest]
        by_cases hhigher : value > (peakAt start values).1
        · rw [if_pos hhigher, if_pos (add_lt_add_left hhigher d)]
        · rw [if_neg hhigher, if_neg fun h => hhigher (lt_of_add_lt_add_right h)]

end Peak

end PokerReco.Library
