/-
  PokerReco.IntVeto.Crossings
  ───────────────────────────
  **THE PULSES OF A WAVEFORM** (`IntVeto/IntVetofa250Converter.cc`).

  `convertMode1Hit` looks at each sample and the one before it.  A pulse starts
  when the sample is above the threshold and the one before is below, and ends
  the other way round.  A sample at the threshold is neither: next to it no
  pulse starts or ends.

      crossings_right_iff   the crossings are the runs above the threshold if
                            and only if no sample at the threshold stands next
                            to one above it
-/
import Mathlib.Tactic.Linarith
import PokerReco.IntVeto.IntVetofa250Converter
import PokerReco.Library.Runs

namespace PokerReco.IntVeto

open PokerReco.Library

/-! ## §1. The runs above the threshold. -/

/-- The times are the runs of samples above the threshold, in order: this is what
a list of crossings is to be. -/
def AreRuns (thr : ℚ) (m_waveform : List ℚ) (times : List (Int × Int)) : Prop :=
  (∀ time, time ∈ times ↔ ∃ i j : Nat, time = (↑i, ↑j) ∧ IsRun (thr < ·) m_waveform i j)
    ∧ times.Pairwise fun time time' => time.2 < time'.1

/-- None of two neighbours is at the threshold and the other above it: between
them the two tests of an edge say the same. -/
def Apart (thr x y : ℚ) : Prop := ¬ (x = thr ∧ thr < y) ∧ ¬ (thr < x ∧ y = thr)

instance (thr x y : ℚ) : Decidable (Apart thr x y) := inferInstanceAs (Decidable (_ ∧ _))

namespace IntVetofa250Converter

/-- `m_thisCrossingTime.first` for a run that has started or not. -/
def firstOf (start : Option Nat) : Int := start.elim (-1) (↑)

/-- A run as a pair of `int`s. -/
def asTimes (q : Nat × Nat) : Int × Int := (↑q.1, ↑q.2)

/-- **Apart from the threshold, the scan is the pass for the runs.** -/
theorem crossings_eq_runsFrom {thr prev : ℚ} {rest : List ℚ} {ii : Nat} {start : Option Nat}
    (happart : (prev :: rest).IsChain (Apart thr)) (hprev : start.isSome = true ↔ thr < prev) :
    crossings thr ii prev (firstOf start) rest
      = (runsFrom (thr < ·) ii start rest).map asTimes := by
  induction rest generalizing prev ii start with
  | nil =>
      rw [crossings, runsFrom, endsAt]
      cases start with
      | none => exact if_neg fun h => Bool.false_ne_true (hprev.mpr h)
      | some s => exact if_pos (hprev.mp rfl)
  | cons sample rest ih =>
      obtain ⟨⟨hstarts, hends⟩, hrest⟩ := List.isChain_cons_cons.mp happart
      rw [crossings, runsFrom]
      by_cases habove : thr < sample
      · rw [if_pos habove]
        cases start with
        | none =>
            -- the sample before is not above, and not at, the threshold
            have hbelow : prev < thr := by
              refine lt_of_le_of_ne (not_lt.mp fun h => Bool.false_ne_true (hprev.mpr h)) ?_
              exact fun heq => hstarts ⟨heq, habove⟩
            rw [if_pos ⟨habove, hbelow⟩]
            have hnext : (some ii).isSome = true ↔ thr < sample := iff_of_true rfl habove
            exact ih hrest hnext
        | some s =>
            have hprev : thr < prev := hprev.mp rfl
            rw [if_neg fun h => lt_asymm h.2 hprev, if_neg fun h => lt_asymm h.1 habove]
            have hnext : (some s).isSome = true ↔ thr < sample := iff_of_true rfl habove
            exact ih hrest hnext
      · rw [if_neg habove, if_neg fun h => habove h.1]
        have hnone : (none : Option Nat).isSome = true ↔ thr < sample :=
          iff_of_false Bool.false_ne_true habove
        cases start with
        | none =>
            rw [if_neg fun h => h.2.2 rfl]
            exact ih hrest hnone
        | some s =>
            have hprev : thr < prev := hprev.mp rfl
            have hbelow : sample < thr :=
              lt_of_le_of_ne (not_lt.mp habove) fun heq => hends ⟨hprev, heq⟩
            have hfirst : firstOf (some s) ≠ -1 := by
              show (s : Int) ≠ -1
              omega
            rw [if_pos ⟨hbelow, hprev, hfirst⟩]
            exact congrArg (asTimes (s, ii) :: ·) (ih hrest hnone)

/-! ## §2. What a crossing is next to. -/

/-- A crossing that is pushed from place `ii` on: the samples around its ends.
`first` is the member of `m_thisCrossingTime` at that place. -/
structure Pushed (thr : ℚ) (m_waveform : List ℚ) (ii : Nat) (first : Int) (time : Int × Int) :
    Prop where
  /-- It ends behind a sample above the threshold, before one below it. -/
  second : ∃ j : Nat, time.2 = j ∧ ii ≤ j ∧ j ≤ m_waveform.length
    ∧ (∃ x, m_waveform[j - 1]? = some x ∧ thr < x) ∧ ∀ x, m_waveform[j]? = some x → x < thr
  /-- It starts where the loop has found it, or behind a sample below. -/
  first : time.1 = first ∨ time.1 = -1 ∨ ∃ i : Nat, time.1 = i ∧ ii ≤ i ∧ (i : Int) < time.2
    ∧ ∃ x, m_waveform[i - 1]? = some x ∧ x < thr

/-- What is pushed from the next place on, as seen from a place before. -/
theorem Pushed.earlier {thr : ℚ} {m_waveform : List ℚ} {ii : Nat} {first first' : Int}
    {time : Int × Int} (h : Pushed thr m_waveform (ii + 1) first' time)
    (hcase : time.1 = first' → time.1 = first ∨ time.1 = -1 ∨ ∃ i : Nat, time.1 = i ∧ ii ≤ i
      ∧ (i : Int) < time.2 ∧ ∃ x, m_waveform[i - 1]? = some x ∧ x < thr) :
    Pushed thr m_waveform ii first time := by
  obtain ⟨⟨j, hj, hle, hbound, hbefore, hafter⟩, hfirst⟩ := h
  refine ⟨⟨j, hj, Nat.le_of_succ_le hle, hbound, hbefore, hafter⟩, ?_⟩
  obtain heq | hminus | ⟨i, hi, hii, hlt, hx⟩ := hfirst
  · exact hcase heq
  · exact Or.inr (Or.inl hminus)
  · exact Or.inr (Or.inr ⟨i, hi, Nat.le_of_succ_le hii, hlt, hx⟩)

/-- What the scan pushes from some place on has the samples of an edge
around its ends. -/
theorem pushed_of_mem {thr prev : ℚ} {m_waveform rest : List ℚ} {ii : Nat} {first : Int}
    {time : Int × Int} (hpos : 0 < ii) (hprev : m_waveform[ii - 1]? = some prev)
    (hrest : m_waveform.drop ii = rest) (hmem : time ∈ crossings thr ii prev first rest) :
    Pushed thr m_waveform ii first time := by
  induction rest generalizing ii prev first with
  | nil =>
      rw [crossings] at hmem
      have hlength : m_waveform.length = ii := by
        have := List.drop_eq_nil_iff.mp hrest
        have := (List.getElem?_eq_some_iff.mp hprev).1
        omega
      split at hmem
      · next habove =>
        obtain rfl := List.mem_singleton.mp hmem
        refine ⟨⟨ii, rfl, Nat.le_refl _, by omega, ⟨prev, hprev, habove⟩, fun x hx => ?_⟩,
          Or.inl rfl⟩
        rw [List.getElem?_eq_none (by omega)] at hx
        cases hx
      · cases hmem
  | cons sample rest ih =>
      have hsample : m_waveform[ii]? = some sample := by
        rw [← List.head?_drop, hrest]
        rfl
      have hdrop : m_waveform.drop (ii + 1) = rest := by
        rw [← List.drop_drop, hrest]
        rfl
      -- the rest of the loop pushes from the next place on
      have hnext : ∀ first', time ∈ crossings thr ((ii : Int) + 1) sample first' rest →
          Pushed thr m_waveform (ii + 1) first' time := fun first' hmem =>
        ih (Nat.succ_pos ii) hsample hdrop hmem
      rw [crossings] at hmem
      split at hmem
      · next hstarts =>
        have hpushed := hnext _ hmem
        refine hpushed.earlier fun heq => Or.inr (Or.inr ⟨ii, heq, Nat.le_refl _, ?_, prev, hprev,
          hstarts.2⟩)
        obtain ⟨j, hj, hle, -⟩ := hpushed.second
        omega
      · split at hmem
        · next hends =>
          obtain rfl | hmem := List.mem_cons.mp hmem
          · refine ⟨⟨ii, rfl, Nat.le_refl _, ?_, ⟨prev, hprev, hends.2.1⟩, fun x hx => ?_⟩,
              Or.inl rfl⟩
            · exact Nat.le_of_lt (List.getElem?_eq_some_iff.mp hsample).1
            · rw [hsample] at hx
              exact Option.some.inj hx ▸ hends.1
          · exact (hnext _ hmem).earlier fun heq => Or.inr (Or.inl heq)
        · exact (hnext _ hmem).earlier fun heq => Or.inl heq

/-- A crossing of the whole waveform has the samples of an edge around its ends. -/
theorem pushed_of_mem_crossingTimes {thr : ℚ} {m_waveform : List ℚ} {times : List (Int × Int)}
    (htimes : crossingTimes thr m_waveform = some times) {time : Int × Int}
    (hmem : time ∈ times) : Pushed thr m_waveform 1 0 time := by
  cases m_waveform with
  | nil => cases htimes
  | cons sample rest =>
      obtain rfl := Option.some.inj htimes
      have hpushed : Pushed thr (sample :: rest) 1 (if sample > thr then 0 else -1) time :=
        pushed_of_mem Nat.one_pos rfl rfl hmem
      refine ⟨hpushed.second, ?_⟩
      obtain heq | hfirst := hpushed.first
      · split at heq
        · exact Or.inl heq
        · exact Or.inr (Or.inl heq)
      · exact Or.inr hfirst

/-- A crossing does not start behind a sample at the threshold. -/
theorem Pushed.lt_of_start {thr sample : ℚ} {m_waveform : List ℚ} {k : Nat} {second : Int}
    (h : Pushed thr m_waveform 1 0 (((k + 1 : Nat) : Int), second))
    (hsample : m_waveform[k]? = some sample) : sample < thr := by
  obtain heq | heq | ⟨i, hi, -, -, x, hx, hbelow⟩ := h.first
  · exact absurd heq (by simp only; omega)
  · exact absurd heq (by simp only; omega)
  · obtain rfl : i = k + 1 := (Int.ofNat_inj.mp hi).symm
    rw [Nat.add_sub_cancel, hsample] at hx
    exact Option.some.inj hx ▸ hbelow

/-- A crossing does not end before a sample at the threshold either. -/
theorem Pushed.lt_of_end {thr sample : ℚ} {m_waveform : List ℚ} {k : Nat} {first : Int}
    (h : Pushed thr m_waveform 1 0 (first, ((k : Nat) : Int)))
    (hsample : m_waveform[k]? = some sample) : sample < thr := by
  obtain ⟨j, hj, -, -, -, hbelow⟩ := h.second
  obtain rfl : j = k := (Int.ofNat_inj.mp hj).symm
  exact hbelow _ hsample

/-! ## §3. The law. -/

/-- With the runs as crossings, no sample at the threshold has a neighbour
above it. -/
theorem isChain_of_areRuns {thr : ℚ} {m_waveform : List ℚ} {times : List (Int × Int)}
    (htimes : crossingTimes thr m_waveform = some times) (hruns : AreRuns thr m_waveform times) :
    m_waveform.IsChain (Apart thr) := by
  have hlisted : ∀ {i j}, IsRun (thr < ·) m_waveform i j →
      Pushed thr m_waveform 1 0 ((i : Int), (j : Int)) := fun hrun =>
    pushed_of_mem_crossingTimes htimes ((hruns.1 _).mpr ⟨_, _, rfl, hrun⟩)
  refine List.isChain_iff_getElem.mpr fun k hk => ⟨fun h => ?_, fun h => ?_⟩
  · have hat := List.getElem?_eq_getElem (Nat.lt_of_succ_lt hk)
    obtain ⟨j, hrun⟩ := IsRun.exists_starting hat (not_lt.mpr (le_of_eq h.1))
      (List.getElem?_eq_getElem hk) h.2
    exact absurd h.1 (ne_of_lt ((hlisted hrun).lt_of_start hat))
  · have hat := List.getElem?_eq_getElem hk
    obtain ⟨i, hrun⟩ := IsRun.exists_ending (List.getElem?_eq_getElem (Nat.lt_of_succ_lt hk)) h.1
      hat (not_lt.mpr (le_of_eq h.2))
    exact absurd h.2 (ne_of_lt ((hlisted hrun).lt_of_end hat))

/-- Without a sample at the threshold beside one above it the loop finds
the runs. -/
theorem crossingTimes_eq_runs {thr sample : ℚ} {rest : List ℚ}
    (happart : (sample :: rest).IsChain (Apart thr)) :
    crossingTimes thr (sample :: rest)
      = some ((runs (thr < ·) (sample :: rest)).map asTimes) := by
  rw [crossingTimes, runs, runsFrom]
  split
  · next habove =>
    have hstart : (some 0).isSome = true ↔ thr < sample := iff_of_true rfl habove
    exact congrArg some (crossings_eq_runsFrom happart hstart)
  · next habove =>
    have hstart : (none : Option Nat).isSome = true ↔ thr < sample :=
      iff_of_false Bool.false_ne_true habove
    exact congrArg some (crossings_eq_runsFrom happart hstart)

/-- The runs as pairs of `int`s are the runs, in order. -/
theorem areRuns_map_asTimes (thr : ℚ) (m_waveform : List ℚ) :
    AreRuns thr m_waveform ((runs (thr < ·) m_waveform).map asTimes) := by
  refine ⟨fun time => ?_, ?_⟩
  · rw [List.mem_map]
    constructor
    · rintro ⟨⟨i, j⟩, hmem, rfl⟩
      exact ⟨i, j, rfl, (mem_runs_iff _ (i, j)).mp hmem⟩
    · rintro ⟨i, j, rfl, hrun⟩
      exact ⟨(i, j), (mem_runs_iff _ (i, j)).mpr hrun, rfl⟩
  · refine List.pairwise_map.mpr ((runs_pairwise _).imp fun h => ?_)
    exact Int.ofNat_lt.mpr h

/-- **The crossings are the runs above the threshold if and only if no sample
at the threshold stands next to one above it.** -/
theorem crossings_right_iff (thr sample : ℚ) (rest : List ℚ) :
    (∃ times, crossingTimes thr (sample :: rest) = some times
        ∧ AreRuns thr (sample :: rest) times)
      ↔ (sample :: rest).IsChain (Apart thr) := by
  constructor
  · rintro ⟨times, htimes, hruns⟩
    exact isChain_of_areRuns htimes hruns
  · intro happart
    exact ⟨_, crossingTimes_eq_runs happart, areRuns_map_asTimes thr _⟩

/-- **A pulse that reaches the threshold before it rises**: its rise is not seen,
and at its end the loop gives it a start at -1. -/
theorem sample_at_the_threshold :
    ¬ ∀ (thr : ℚ) (m_waveform : List ℚ), m_waveform ≠ [] →
      ∃ times, crossingTimes thr m_waveform = some times ∧ AreRuns thr m_waveform times := by
  intro h
  obtain ⟨times, htimes, hruns, -⟩ := h 5 [0, 5, 8] (List.cons_ne_nil _ _)
  have hcrossing : crossingTimes (5 : ℚ) [0, 5, 8] = some [(-1, 3)] := by decide +kernel
  obtain rfl : [(-1, 3)] = times := Option.some.inj (hcrossing.symm.trans htimes)
  obtain ⟨i, j, heq, -⟩ := (hruns (-1, 3)).mp (List.mem_singleton.mpr rfl)
  have hstart : (-1 : Int) = i := (Prod.mk.inj heq).1
  omega

end IntVetofa250Converter

end PokerReco.IntVeto
