/-
  PokerReco.Library.IndexLoop
  ───────────────────────────
  **LOOPS OVER INDICES, AND THE BITS OF A WORD.**

  A loop `for (i = 0; i < n; i++)` whose turn `i` changes entry `i` of a table
  and no other leaves in each entry what its own turn makes of it.  Tables are
  read through a function, so the rules serve any state the table is part of.

      foldl_entry       the loop, entry by entry
      foldl_untouched   what no turn changes
      foldl_collect     the indices of the turns that add one
      foldlM_eq_some    a loop whose turns can fail, when none does
      testBit_foldl_or  the bits of words or-ed together
-/
import Mathlib.Data.List.FinRange
import Mathlib.Data.Nat.Bitwise

namespace PokerReco.Library

variable {ι σ β : Type*}

/-! ## §1. Loops. -/

/-- **Entry by entry**: each turn changes its own entry, by `val`. -/
theorem foldl_entry [DecidableEq ι] (get : σ → ι → β) (step : σ → ι → σ) (val : ι → β → β)
    (own : ∀ s i, get (step s i) i = val i (get s i))
    (other : ∀ s i j, j ≠ i → get (step s i) j = get s j) (l : List ι) (hnodup : l.Nodup)
    (s : σ) (j : ι) :
    get (l.foldl step s) j = if j ∈ l then val j (get s j) else get s j := by
  induction l generalizing s with
  | nil => rfl
  | cons i l ih =>
      obtain ⟨hi, hl⟩ := List.nodup_cons.mp hnodup
      rw [List.foldl_cons, ih hl]
      by_cases hj : j = i
      · subst hj
        rw [if_neg hi, if_pos List.mem_cons_self, own]
      · rw [other s i j hj]
        simp only [List.mem_cons, hj, false_or]

/-- A loop over all indices of a table of `n` entries, each of which changes its
own entry. -/
theorem foldl_finRange {n : Nat} (get : σ → Fin n → β) (step : σ → Fin n → σ) (val : Fin n → β → β)
    (own : ∀ s i, get (step s i) i = val i (get s i))
    (other : ∀ s i j, j ≠ i → get (step s i) j = get s j) (s : σ) (j : Fin n) :
    get ((List.finRange n).foldl step s) j = val j (get s j) := by
  rw [foldl_entry get step val own other _ (List.nodup_finRange n), if_pos (List.mem_finRange j)]

/-- What no turn of a loop changes is the same at its end. -/
theorem foldl_untouched (get : σ → β) (step : σ → ι → σ) (keep : ∀ s i, get (step s i) = get s)
    (l : List ι) (s : σ) : get (l.foldl step s) = get s := by
  induction l generalizing s with
  | nil => rfl
  | cons i l ih => rw [List.foldl_cons, ih, keep]

/-- A loop whose turns can fail, on a stretch on which none does. -/
theorem foldlM_eq_some (step : σ → ι → Option σ) (step' : σ → ι → σ) (l : List ι) (P : σ → Prop)
    (keep : ∀ s, P s → ∀ i ∈ l, step s i = some (step' s i) ∧ P (step' s i)) {s : σ} (hs : P s) :
    l.foldlM step s = some (l.foldl step' s) := by
  induction l generalizing s with
  | nil => rfl
  | cons i l ih =>
      obtain ⟨hstep, hP⟩ := keep s hs i List.mem_cons_self
      rw [List.foldlM_cons, hstep]
      exact ih (fun s hs j hj => keep s hs j (List.mem_cons_of_mem _ hj)) hP

/-- A count over a table grows by what each turn adds. -/
theorem foldl_count (get : σ → Nat) (step : σ → ι → σ) (p : ι → Bool)
    (grow : ∀ s i, get (step s i) = get s + if p i then 1 else 0) (l : List ι) (s : σ) :
    get (l.foldl step s) = get s + l.countP p := by
  induction l generalizing s with
  | nil => rfl
  | cons i l ih =>
      rw [List.foldl_cons, ih, grow, List.countP_cons]
      omega

/-- A list over a table gets the indices whose turns add one. -/
theorem foldl_collect (get : σ → List ι) (step : σ → ι → σ) (p : ι → Bool)
    (grow : ∀ s i, get (step s i) = get s ++ if p i then [i] else []) (l : List ι) (s : σ) :
    get (l.foldl step s) = get s ++ l.filter p := by
  induction l generalizing s with
  | nil => exact (List.append_nil _).symm
  | cons i l ih =>
      rw [List.foldl_cons, ih, grow, List.filter_cons, List.append_assoc]
      by_cases hi : p i = true
      · rw [if_pos hi, if_pos hi, List.singleton_append]
      · rw [if_neg hi, if_neg hi, List.nil_append]

/-! ## §2. Bits. -/

/-- The test `(w >> k) & 1` on a 32-bit word. -/
theorem shiftRight_and_one (w : UInt32) (k : Fin 32) :
    (w >>> UInt32.ofNat k) &&& 1 ≠ 0 ↔ w.toNat.testBit k = true := by
  have hk : (UInt32.ofNat k).toNat % 32 = k := by
    rw [UInt32.toNat_ofNat']
    omega
  rw [Ne, ← UInt32.toNat_inj, UInt32.toNat_and, UInt32.toNat_shiftRight, hk, Nat.testBit,
    Nat.and_comm]
  simp

/-- The test word `1 << k` has the bit `k` and no other. -/
theorem testBit_one_shiftLeft (k : Fin 64) (j : Nat) :
    ((1 : UInt64) <<< UInt64.ofNat k).toNat.testBit j = decide (k.val = j) := by
  have hk : (UInt64.ofNat k).toNat % 64 = k := by
    rw [UInt64.toNat_ofNat']
    omega
  rw [UInt64.toNat_shiftLeft, hk, Nat.testBit_mod_two_pow]
  show (decide (j < 64) && (1 <<< k.val).testBit j) = _
  rw [Nat.one_shiftLeft, Nat.testBit_two_pow]
  by_cases hj : k.val = j
  · have hlt : j < 64 := hj ▸ k.isLt
    simp [hj, hlt]
  · simp [hj]

/-- The test `(w & (1 << k)) != 0` on a 64-bit word. -/
theorem and_shiftLeft (w : UInt64) (k : Fin 64) :
    w &&& (1 <<< UInt64.ofNat k) ≠ 0 ↔ w.toNat.testBit k = true := by
  rw [Ne, ← UInt64.toNat_inj, UInt64.toNat_and]
  show ¬ w.toNat &&& _ = 0 ↔ _
  refine ⟨fun h => ?_, fun h hz => ?_⟩
  · -- the only bit the test word can leave is its own
    by_contra hbit
    refine h (Nat.eq_of_testBit_eq (fun j => ?_))
    rw [Nat.testBit_and, testBit_one_shiftLeft, Nat.zero_testBit]
    by_cases hj : k.val = j
    · subst hj
      rw [Bool.not_eq_true] at hbit
      rw [hbit, Bool.false_and]
    · simp [hj]
  · have := congrArg (fun n => n.testBit k) hz
    simp only [Nat.testBit_and, testBit_one_shiftLeft, Nat.zero_testBit, h, decide_true] at this
    cases this

/-- The bits of words or-ed together are those that some of them has. -/
theorem testBit_foldl_or {α : Type*} (f : α → UInt64) (l : List α) (w : UInt64) (j : Nat) :
    (l.foldl (fun ret a => ret ||| f a) w).toNat.testBit j
      = (w.toNat.testBit j || l.any fun a => (f a).toNat.testBit j) := by
  induction l generalizing w with
  | nil => simp
  | cons a l ih =>
      rw [List.foldl_cons, ih, UInt64.toNat_or, Nat.testBit_or, List.any_cons, Bool.or_assoc]

/-- The word put together bit by bit from a table of flags. -/
theorem testBit_word_of_flags (flags : Fin 64 → Bool) (j : Fin 64) :
    ((List.finRange 64).foldl
      (fun ret i => if flags i = true then ret ||| (1 <<< UInt64.ofNat i) else ret)
      (0 : UInt64)).toNat.testBit j = flags j := by
  refine (foldl_finRange (fun (ret : UInt64) (j : Fin 64) => ret.toNat.testBit j) _
    (fun i bit => bit || flags i) ?_ ?_ 0 j).trans ?_
  · intro w i
    by_cases hi : flags i = true
    · rw [if_pos hi, UInt64.toNat_or, Nat.testBit_or, testBit_one_shiftLeft, hi]
      simp
    · simp [hi]
  · intro w i j hj
    have hne : ¬ i.val = j.val := fun h => hj (Fin.ext h).symm
    by_cases hi : flags i = true
    · rw [if_pos hi, UInt64.toNat_or, Nat.testBit_or, testBit_one_shiftLeft]
      simp [hne]
    · simp [hi]
  · simp

/-- Two 64-bit words with the same 64 bits are the same. -/
theorem eq_of_testBit {v w : UInt64} (h : ∀ j : Fin 64, v.toNat.testBit j = w.toNat.testBit j) :
    v = w := by
  rw [← UInt64.toNat_inj]
  refine Nat.eq_of_testBit_eq (fun j => ?_)
  by_cases hj : j < 64
  · exact h ⟨j, hj⟩
  · have hbound : ∀ u : UInt64, u.toNat.testBit j = false := fun u =>
      Nat.testBit_lt_two_pow (Nat.lt_of_lt_of_le u.toNat_lt
        (Nat.pow_le_pow_right (by decide) (by omega)))
    rw [hbound, hbound]

end PokerReco.Library
