/-
  PokerReco.Library.Runs
  ──────────────────────
  **THE RUNS OF A LIST.**

  A run is a stretch of elements that all have a property, with no more of
  them before it or after it.  One pass over the list finds the runs: it keeps
  the place where the run that it is in has started.

      IsRun.exists_of_mem   every element with the property is in a run
      IsRun.exists_starting, IsRun.exists_ending   a change of the property is
                            an end of a run
      mem_runs_iff          the pass finds the runs, all of them
      runs_pairwise         in order
-/
import Mathlib.Data.Nat.Find
import Mathlib.Data.List.Basic

namespace PokerReco.Library

variable {α : Type*} {p : α → Prop} {l : List α} {i j : Nat}

/-! ## §1. Runs. -/

/-- The elements from `i` on and before `j` are a run: they have the property, and
it cannot be made longer at either end. -/
structure IsRun (p : α → Prop) (l : List α) (i j : Nat) : Prop where
  lt : i < j
  inside : ∀ k, i ≤ k → k < j → ∃ a, l[k]? = some a ∧ p a
  before : ∀ k a, k + 1 = i → l[k]? = some a → ¬ p a
  after : ∀ a, l[j]? = some a → ¬ p a

/-- A run ends at the end of the list at the latest. -/
theorem IsRun.le_length (h : IsRun p l i j) : j ≤ l.length := by
  obtain ⟨a, ha, -⟩ := h.inside (j - 1) (Nat.le_sub_one_of_lt h.lt) (Nat.sub_one_lt_of_lt h.lt)
  have := (List.getElem?_eq_some_iff.mp ha).1
  omega

/-- A run is known by its end. -/
theorem IsRun.start_unique {i' : Nat} (h : IsRun p l i j) (h' : IsRun p l i' j) : i = i' := by
  have hle : ∀ {i i' : Nat}, IsRun p l i j → IsRun p l i' j → i ≤ i' := by
    intro i i' h h'
    by_contra hlt
    -- the element before the later start is inside the other run
    obtain ⟨a, ha, hp⟩ := h'.inside (i - 1) (by omega) (by have := h.lt; omega)
    exact h.before (i - 1) a (by omega) ha hp
  exact Nat.le_antisymm (hle h h') (hle h' h)

/-- **Every element with the property is in a run.** -/
theorem IsRun.exists_of_mem {k : Nat} {a : α} (ha : l[k]? = some a) (hp : p a) :
    ∃ i j, IsRun p l i j ∧ i ≤ k ∧ k < j := by
  classical
  have hback : ∃ i, ∀ m, i ≤ m → m ≤ k → ∃ b, l[m]? = some b ∧ p b :=
    ⟨k, fun m hkm hmk => ⟨a, by rw [Nat.le_antisymm hmk hkm]; exact ha, hp⟩⟩
  have hahead : ∃ j, k < j ∧ ∀ b, l[j]? = some b → ¬ p b := by
    refine ⟨l.length, (List.getElem?_eq_some_iff.mp ha).1, fun b hb => ?_⟩
    rw [List.getElem?_eq_none (Nat.le_refl _)] at hb
    cases hb
  refine ⟨Nat.find hback, Nat.find hahead, ⟨?_, ?_, ?_, ?_⟩, ?_, (Nat.find_spec hahead).1⟩
  · exact lt_of_le_of_lt (Nat.find_min' hback fun m hkm hmk =>
      ⟨a, by rw [Nat.le_antisymm hmk hkm]; exact ha, hp⟩) (Nat.find_spec hahead).1
  · intro m hstart hend
    by_cases hmk : m ≤ k
    · exact Nat.find_spec hback m hstart hmk
    -- behind `k` the first element without the property ends the run
    · have hno := Nat.find_min hahead hend
      simp only [not_and, not_forall, not_not] at hno
      obtain ⟨b, hb, hpb⟩ := hno (by omega)
      exact ⟨b, hb, hpb⟩
  · intro m b hm hb hpb
    refine Nat.find_min hback (show m < Nat.find hback by omega) fun m' hm' hmk => ?_
    obtain rfl | hlt := Nat.eq_or_lt_of_le hm'
    · exact ⟨b, hb, hpb⟩
    · exact Nat.find_spec hback m' (by omega) hmk
  · exact (Nat.find_spec hahead).2
  · exact Nat.find_min' hback fun m hkm hmk =>
      ⟨a, by rw [Nat.le_antisymm hmk hkm]; exact ha, hp⟩

/-- An element with the property behind one without it starts a run. -/
theorem IsRun.exists_starting {k : Nat} {a b : α} (hbefore : l[k]? = some a) (ha : ¬ p a)
    (hat : l[k + 1]? = some b) (hb : p b) : ∃ j, IsRun p l (k + 1) j := by
  obtain ⟨i, j, hrun, hik, hkj⟩ := IsRun.exists_of_mem hat hb
  obtain rfl : i = k + 1 := by
    refine Nat.le_antisymm hik (Nat.succ_le_of_lt (Nat.lt_of_not_le fun hle => ?_))
    obtain ⟨x, hx, hp⟩ := hrun.inside k hle (Nat.lt_of_succ_lt hkj)
    exact ha (Option.some.inj (hx.symm.trans hbefore) ▸ hp)
  exact ⟨j, hrun⟩

/-- An element without the property behind one with it ends a run. -/
theorem IsRun.exists_ending {k : Nat} {a b : α} (hat : l[k]? = some a) (ha : p a)
    (hafter : l[k + 1]? = some b) (hb : ¬ p b) : ∃ i, IsRun p l i (k + 1) := by
  obtain ⟨i, j, hrun, hik, hkj⟩ := IsRun.exists_of_mem hat ha
  obtain rfl : j = k + 1 := by
    refine Nat.le_antisymm (Nat.le_of_not_lt fun hlt => ?_) hkj
    obtain ⟨x, hx, hp⟩ := hrun.inside (k + 1) (Nat.le_succ_of_le hik) hlt
    exact hb (Option.some.inj (hx.symm.trans hafter) ▸ hp)
  exact ⟨i, hrun⟩

/-! ### Runs at the end of a list. -/

/-- A run at the end of a list stays one when an element without the
property follows. -/
theorem IsRun.append_of_neg {a : α} (ha : ¬ p a) (rest : List α) :
    IsRun p (l ++ a :: rest) i l.length ↔ IsRun p l i l.length := by
  have hleft : ∀ k, k < l.length → (l ++ a :: rest)[k]? = l[k]? := fun k hk =>
    List.getElem?_append_left hk
  constructor
  · intro h
    refine ⟨h.lt, fun k hik hk => ?_, fun k b hk hb => ?_, fun b hb => ?_⟩
    · rw [← hleft k hk]
      exact h.inside k hik hk
    · refine h.before k b hk ?_
      rw [hleft k (by have := h.lt; omega)]
      exact hb
    · rw [List.getElem?_eq_none (Nat.le_refl _)] at hb
      cases hb
  · intro h
    refine ⟨h.lt, fun k hik hk => ?_, fun k b hk hb => ?_, fun b hb => ?_⟩
    · rw [hleft k hk]
      exact h.inside k hik hk
    · rw [hleft k (by have := h.lt; omega)] at hb
      exact h.before k b hk hb
    · rw [List.getElem?_append_right (Nat.le_refl _), Nat.sub_self, List.getElem?_cons_zero] at hb
      rw [← Option.some.inj hb]
      exact ha

/-- One more element with the property goes on with the run at the end. -/
theorem IsRun.snoc {a : α} (ha : p a) (h : IsRun p l i l.length) :
    IsRun p (l ++ [a]) i (l.length + 1) := by
  refine ⟨Nat.lt_succ_of_lt h.lt, fun k hik hk => ?_, fun k b hk hb => ?_, fun b hb => ?_⟩
  · obtain hlt | rfl := Nat.lt_succ_iff_lt_or_eq.mp hk
    · rw [List.getElem?_append_left hlt]
      exact h.inside k hik hlt
    · exact ⟨a, List.getElem?_concat_length, ha⟩
  · rw [List.getElem?_append_left (by have := h.lt; omega)] at hb
    exact h.before k b hk hb
  · rw [List.getElem?_eq_none (by rw [List.length_append, List.length_singleton])] at hb
    cases hb

/-- One more element with the property starts a run when there is none at
the end. -/
theorem IsRun.singleton {a : α} (ha : p a) (hnone : ∀ i, ¬ IsRun p l i l.length) :
    IsRun p (l ++ [a]) l.length (l.length + 1) := by
  refine ⟨Nat.lt_succ_self _, fun k hik hk => ?_, fun k b hk hb hpb => ?_, fun b hb => ?_⟩
  · obtain rfl : k = l.length := by omega
    exact ⟨a, List.getElem?_concat_length, ha⟩
  · rw [List.getElem?_append_left (by omega)] at hb
    obtain ⟨i, j, hrun, -, hkj⟩ := IsRun.exists_of_mem hb hpb
    obtain rfl : j = l.length := by
      have := hrun.le_length
      omega
    exact hnone i hrun
  · rw [List.getElem?_eq_none (by rw [List.length_append, List.length_singleton])] at hb
    cases hb

/-- Behind an element without the property there is no run at the end. -/
theorem IsRun.not_snoc {a : α} (ha : ¬ p a) (i : Nat) : ¬ IsRun p (l ++ [a]) i (l.length + 1) := by
  intro hrun
  obtain ⟨b, hb, hp⟩ := hrun.inside l.length (Nat.le_of_lt_succ hrun.lt) (Nat.lt_succ_self _)
  rw [List.getElem?_concat_length] at hb
  exact ha (Option.some.inj hb ▸ hp)

/-- With the run at the end of the list known, so is the one with an element
more. -/
theorem IsRun.start_snoc {a : α} (ha : p a) {start : Option Nat}
    (hstart : ∀ s, start = some s ↔ IsRun p l s l.length) (s : Nat) :
    some (start.getD l.length) = some s ↔ IsRun p (l ++ [a]) s (l.length + 1) := by
  have hrun : IsRun p (l ++ [a]) (start.getD l.length) (l.length + 1) := by
    cases hs : start with
    | some s => exact ((hstart s).mp hs).snoc ha
    | none =>
        refine IsRun.singleton ha fun i hi => ?_
        rw [← hstart, hs] at hi
        cases hi
  exact ⟨fun h => Option.some.inj h ▸ hrun, fun h => by rw [hrun.start_unique h]⟩

/-! ## §2. The pass. -/

variable [DecidablePred p]

/-- The run that ends at `i`, when there is one. -/
def endsAt (i : Nat) (start : Option Nat) : List (Nat × Nat) := start.toList.map fun s => (s, i)

/-- What ends at `i` is the run that has started, if one has. -/
theorem mem_endsAt {start : Option Nat} {q : Nat × Nat} :
    q ∈ endsAt i start ↔ start = some q.1 ∧ q.2 = i := by
  obtain ⟨s, e⟩ := q
  simp only [endsAt, List.mem_map, Option.mem_toList, Prod.mk.injEq]
  constructor
  · rintro ⟨s, hs, rfl, rfl⟩
    exact ⟨hs, rfl⟩
  · rintro ⟨hs, rfl⟩
    exact ⟨s, hs, rfl, rfl⟩

/-- The pass from place `i` on, in a run that has started at `start`. -/
def runsFrom (p : α → Prop) [DecidablePred p] : Nat → Option Nat → List α → List (Nat × Nat)
  | i, start, [] => endsAt i start
  | i, start, a :: l =>
      if p a then runsFrom p (i + 1) (some (start.getD i)) l
      else endsAt i start ++ runsFrom p (i + 1) none l

/-- The runs of a list: the place of the first element of each, and the one
behind its last. -/
def runs (p : α → Prop) [DecidablePred p] (l : List α) : List (Nat × Nat) := runsFrom p 0 none l

/-- The pass behind a part of the list finds the runs that end behind it, if
`start` belongs to the run at its end. -/
theorem mem_runsFrom_iff {done rest : List α} {start : Option Nat}
    (hstart : ∀ s, start = some s ↔ IsRun p done s done.length) (q : Nat × Nat) :
    q ∈ runsFrom p done.length start rest
      ↔ IsRun p (done ++ rest) q.1 q.2 ∧ done.length ≤ q.2 := by
  induction rest generalizing done start with
  | nil =>
      rw [runsFrom, mem_endsAt, hstart, List.append_nil]
      constructor
      · rintro ⟨hrun, hend⟩
        exact ⟨hend ▸ hrun, Nat.le_of_eq hend.symm⟩
      · rintro ⟨hrun, hle⟩
        have hend : q.2 = done.length := Nat.le_antisymm hrun.le_length hle
        exact ⟨hend ▸ hrun, hend⟩
  | cons a rest ih =>
      have hlength : (done ++ [a]).length = done.length + 1 := by
        rw [List.length_append, List.length_singleton]
      have happend : done ++ a :: rest = (done ++ [a]) ++ rest := List.append_cons done a rest
      have hat : (done ++ a :: rest)[done.length]? = some a := by
        rw [List.getElem?_append_right (Nat.le_refl _), Nat.sub_self, List.getElem?_cons_zero]
      rw [runsFrom]
      split
      · next ha =>
        -- the place is in a run, which began before it or begins here
        have hnext : ∀ s, some (start.getD done.length) = some s
            ↔ IsRun p (done ++ [a]) s (done ++ [a]).length := by
          rw [hlength]
          exact IsRun.start_snoc ha hstart
        rw [← hlength, ih hnext, ← happend, hlength]
        refine and_congr_right fun hrun => ⟨Nat.le_of_succ_le, fun hle => ?_⟩
        refine Nat.lt_of_le_of_ne hle fun heq => ?_
        exact hrun.after a (heq ▸ hat) ha
      · next ha =>
        have hnext : ∀ s, (none : Option Nat) = some s
            ↔ IsRun p (done ++ [a]) s (done ++ [a]).length := by
          rw [hlength]
          exact fun s => iff_of_false (Option.some_ne_none s).symm (IsRun.not_snoc ha s)
        -- the place ends the run before it, if there is one
        rw [List.mem_append, mem_endsAt, ← hlength, ih hnext, ← happend, hlength, hstart,
          ← IsRun.append_of_neg ha rest]
        constructor
        · rintro (⟨hrun, hend⟩ | ⟨hrun, hle⟩)
          · exact ⟨hend ▸ hrun, Nat.le_of_eq hend.symm⟩
          · exact ⟨hrun, Nat.le_of_succ_le hle⟩
        · rintro ⟨hrun, hle⟩
          obtain heq | hlt := Nat.eq_or_lt_of_le hle
          · exact Or.inl ⟨heq ▸ hrun, heq.symm⟩
          · exact Or.inr ⟨hrun, hlt⟩

/-- **The pass finds the runs, all of them**, and nothing else. -/
theorem mem_runs_iff (l : List α) (q : Nat × Nat) : q ∈ runs p l ↔ IsRun p l q.1 q.2 := by
  have hnone : ∀ s, (none : Option Nat) = some s ↔ IsRun p ([] : List α) s ([] : List α).length :=
    fun s => ⟨fun h => absurd h (Option.some_ne_none s).symm,
      fun h => absurd h.lt (Nat.not_lt_zero s)⟩
  have hpass : q ∈ runsFrom p ([] : List α).length none l ↔ _ := mem_runsFrom_iff hnone q
  exact hpass.trans (and_iff_left (Nat.zero_le _))

/-- What the pass finds from a place on starts there, or where the run that it is
in has started. -/
theorem le_of_mem_runsFrom {start : Option Nat} (hstart : ∀ s, start = some s → s < i)
    {q : Nat × Nat} (hq : q ∈ runsFrom p i start l) : start.getD i ≤ q.1 := by
  induction l generalizing i start with
  | nil =>
      obtain ⟨hs, -⟩ := mem_endsAt.mp hq
      rw [hs]
      exact Nat.le_refl _
  | cons a l ih =>
      have hle : start.getD i ≤ i := by
        cases start with
        | none => exact Nat.le_refl _
        | some s => exact Nat.le_of_lt (hstart s rfl)
      have hnext : ∀ s, some (start.getD i) = some s → s < i + 1 := fun s hs =>
        Option.some.inj hs ▸ Nat.lt_succ_of_le hle
      rw [runsFrom] at hq
      split at hq
      · have hle := ih hnext hq
        exact hle
      · obtain hq | hq := List.mem_append.mp hq
        · obtain ⟨hs, -⟩ := mem_endsAt.mp hq
          rw [hs]
          exact Nat.le_refl _
        · have := ih (fun s hs => by cases hs) hq
          exact Nat.le_trans hle (Nat.le_of_succ_le this)

/-- What the pass finds comes in order, by induction over the elements
that follow. -/
theorem runsFrom_pairwise (l : List α) {start : Option Nat} (hstart : ∀ s, start = some s → s < i) :
    (runsFrom p i start l).Pairwise fun q q' => q.2 < q'.1 := by
  have hends : ∀ i, (endsAt i start).Pairwise fun q q' => q.2 < q'.1 := by
    intro i
    cases start with
    | none => exact List.Pairwise.nil
    | some s => exact List.pairwise_singleton _ _
  induction l generalizing i start with
  | nil => exact hends i
  | cons a l ih =>
      rw [runsFrom]
      split
      · refine ih (fun s hs => ?_) fun i => List.pairwise_singleton _ _
        obtain rfl := Option.some.inj hs
        cases start with
        | none => exact Nat.lt_succ_self i
        | some s => exact Nat.lt_succ_of_lt (hstart s rfl)
      · have hnone : ∀ s, (none : Option Nat) = some s → s < i + 1 := fun s hs => by cases hs
        refine List.pairwise_append.mpr
          ⟨hends i, ih hnone fun i => List.Pairwise.nil, fun q hq q' hq' => ?_⟩
        have hlt := le_of_mem_runsFrom hnone hq'
        obtain ⟨-, rfl⟩ := mem_endsAt.mp hq
        exact hlt

/-- **The runs come in order**, each behind the one before, with an element
between them. -/
theorem runs_pairwise (l : List α) : (runs p l).Pairwise fun q q' => q.2 < q'.1 :=
  runsFrom_pairwise l fun s hs => by cases hs

end PokerReco.Library
