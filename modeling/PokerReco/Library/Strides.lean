/-
  PokerReco.Library.Strides
  ─────────────────────────
  **EVERY `n`-TH ELEMENT OF A LIST.**

  `stride n i l` has the elements of `l` at `i`, `i + n`, `i + 2 n`, …  The `n`
  strides of a list are the list, dealt out.

      strides_perm     nothing is lost, nothing is twice
-/
import Mathlib.Data.List.Perm.Basic

namespace PokerReco.Library

variable {A : Type}

/-- The elements at `i`, `i + n`, `i + 2 n`, …: what one of `n` takers gets when a
list is dealt in turn. -/
def stride (n : Nat) : Nat → List A → List A
  | _, [] => []
  | 0, a :: l => a :: stride n (n - 1) l
  | i + 1, _ :: l => stride n i l

/-- A stride has elements of the list in their order. -/
theorem stride_sublist (n i : Nat) (l : List A) : (stride n i l).Sublist l := by
  induction l generalizing i with
  | nil =>
      unfold stride
      exact List.Sublist.refl []
  | cons a l ih =>
      cases i with
      | zero => exact (ih (n - 1)).cons_cons a
      | succ i => exact (ih i).cons a

/-- A stride that begins behind the end has nothing. -/
theorem stride_of_length_le {n i : Nat} {l : List A} (h : l.length ≤ i) : stride n i l = [] := by
  induction l generalizing i with
  | nil =>
      unfold stride
      rfl
  | cons a l ih =>
      cases i with
      | zero => simp at h
      | succ i => exact ih (Nat.le_of_succ_le_succ h)

/-- A stride from `i` on is one from the beginning of the rest. -/
theorem stride_drop (n i : Nat) (l : List A) : stride n i l = stride n 0 (l.drop i) := by
  induction l generalizing i with
  | nil =>
      rw [List.drop_nil]
      unfold stride
      rfl
  | cons a l ih =>
      cases i with
      | zero => rfl
      | succ i => exact ih i

/-- The elements of a stride by their number, which is how a loop with steps of
`n` finds them. -/
theorem getElem?_stride {n : Nat} (hn : 0 < n) (i j : Nat) (l : List A) :
    (stride n i l)[j]? = l[i + j * n]? := by
  induction l generalizing i j with
  | nil =>
      unfold stride
      rfl
  | cons a l ih =>
      cases i with
      | succ i =>
          rw [Nat.succ_add, List.getElem?_cons_succ]
          exact ih i j
      | zero =>
          show (a :: stride n (n - 1) l)[j]? = _
          cases j with
          | zero => rw [Nat.zero_mul, List.getElem?_cons_zero, List.getElem?_cons_zero]
          | succ j =>
              have hplace : 0 + (j + 1) * n = n - 1 + j * n + 1 := by
                rw [Nat.succ_mul]
                omega
              rw [List.getElem?_cons_succ, ih, hplace, List.getElem?_cons_succ]

/-- The elements of a list, looked up one by one until there are none. -/
theorem filterMap_getElem? (l : List A) (m : Nat) :
    (List.range m).filterMap (fun j => l[j]?) = l.take m := by
  induction l generalizing m with
  | nil => simp
  | cons a l ih =>
      cases m with
      | zero => rfl
      | succ m =>
          rw [List.range_succ_eq_map, List.filterMap_cons, List.filterMap_map]
          show a :: (List.range m).filterMap (fun j => (a :: l)[j + 1]?) = _
          simp only [List.getElem?_cons_succ]
          rw [ih, List.take_succ_cons]

/-- A loop with steps of `n` and `m` turns finds the first `m` elements of the
stride. -/
theorem stride_take {n : Nat} (hn : 0 < n) (i m : Nat) (l : List A) :
    (List.range m).filterMap (fun j => l[i + j * n]?) = (stride n i l).take m := by
  rw [← filterMap_getElem?]
  refine List.filterMap_congr ?_
  intro j _
  exact (getElem?_stride hn i j l).symm

/-- The number of elements of a stride, by a division that rounds up. -/
theorem length_stride {n : Nat} (hn : 0 < n) (i : Nat) (l : List A) :
    (stride n i l).length = (l.length + (n - 1) - i) / n := by
  induction l generalizing i with
  | nil =>
      unfold stride
      rw [List.length_nil, Nat.zero_add]
      exact (Nat.div_eq_of_lt (by omega)).symm
  | cons a l ih =>
      cases i with
      | zero =>
          show (stride n (n - 1) l).length + 1 = _
          rw [ih, List.length_cons, Nat.sub_zero, ← Nat.add_div_right _ hn]
          congr 1
          omega
      | succ i =>
          show (stride n i l).length = _
          rw [ih, List.length_cons]
          congr 1
          omega

/-- The first indices, and those behind them. -/
theorem range_split {m n : Nat} (h : m ≤ n) :
    List.range n = List.range m ++ List.range' m (n - m) := by
  have happend := List.range'_append_1 (s := 0) (m := m) (n := n - m)
  rw [Nat.zero_add, Nat.add_sub_cancel' h] at happend
  rw [List.range_eq_range', List.range_eq_range', happend]

/-- The `n` strides are the list: no element is dealt twice, and none is left. -/
theorem strides_perm {n : Nat} (hn : 0 < n) (l : List A) :
    ((List.range n).flatMap fun i => stride n i l).Perm l := by
  induction l with
  | nil =>
      have hnil : ∀ i ∈ List.range n, stride n i ([] : List A) = [] := by
        intro i _
        unfold stride
        rfl
      rw [List.flatMap_congr hnil]
      simp
  | cons a l ih =>
      obtain ⟨m, rfl⟩ := Nat.exists_eq_succ_of_ne_zero (Nat.ne_of_gt hn)
      -- the strides of the tail, of which the last one comes first
      have hfirst : (List.range (m + 1)).flatMap (fun i => stride (m + 1) i (a :: l))
          = a :: (stride (m + 1) m l ++ (List.range m).flatMap fun i => stride (m + 1) i l) := by
        rw [List.range_succ_eq_map, List.flatMap_cons, List.flatMap_map]
        rfl
      have hlast : (List.range (m + 1)).flatMap (fun i => stride (m + 1) i l)
          = (List.range m).flatMap (fun i => stride (m + 1) i l) ++ stride (m + 1) m l := by
        rw [List.range_succ, List.flatMap_append, List.flatMap_singleton]
      rw [Nat.succ_eq_add_one, hlast] at ih
      rw [Nat.succ_eq_add_one, hfirst]
      exact (List.perm_append_comm.trans ih).cons a

end PokerReco.Library
