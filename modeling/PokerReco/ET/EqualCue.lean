/-
  PokerReco.ET.EqualCue
  ─────────────────────
  **THE EQUAL-CUE ALGORITHM** (`et_conductor` and `shellSort` of
  `et_system.c`).

  The lowest input lists are filled to the level of the next one until the
  events are used up.

      shellSort_perm, shellSort_ordered   the counts come out in order
      Filled, Turn                        one turn of the loop, at its level
      equalShares_spec                    the loop that fills the lowest lists
      equal_cue_levels                    no list that got an event is more than
                                          one event longer than another
-/
import Mathlib.Algebra.Ring.Nat
import Mathlib.Data.List.GetD
import Mathlib.Data.List.Induction
import Mathlib.Data.List.TakeWhile
import PokerReco.ET.Conductor

namespace PokerReco.ET

/-! ## §1. The sort. -/

/-- The entries are in the order of their counts, as sorting is to leave them. -/
def Ordered (a : List (Nat × Nat)) : Prop := a.Pairwise fun x y => x.1 ≤ y.1

/-- A place taken out and put back further down: what the list has does not change
but for the element `v` in place of the one at `j`. -/
theorem sink_perm (inc : Nat) (v : Nat × Nat) (turns : Nat) :
    ∀ (j : Nat) (a : List (Nat × Nat)), j < a.length → (sink inc v turns j a).Perm (a.set j v) := by
  induction turns with
  | zero =>
      intro j a _
      exact List.Perm.refl _
  | succ turns ih =>
      intro j a hj
      unfold sink
      by_cases hinc : inc ≤ j
      · rw [if_pos hinc]
        have hlt : j - inc < a.length := by omega
        rw [List.getElem?_eq_getElem hlt]
        dsimp only
        by_cases hless : v.1 < a[j - inc].1
        · rw [if_pos hless]
          refine (ih (j - inc) _ (by rw [List.length_set]; exact hlt)).trans ?_
          by_cases hzero : inc = 0
          · subst hzero
            show ((a.set j _).set j v).Perm (a.set j v)
            rw [List.set_set]
          · -- the two elements change places
            have hm : j < (a.set j v).length := by rw [List.length_set]; exact hj
            have hm' : j - inc < (a.set j v).length := by rw [List.length_set]; exact hlt
            have hswap := List.set_set_perm hm hm'
            rw [List.getElem_set_self, List.getElem_set_ne (by omega), List.set_set] at hswap
            exact hswap
        · rw [if_neg hless]
      · rw [if_neg hinc]

/-- A pass with steps of `inc` only exchanges elements. -/
theorem sinkAll_perm (inc : Nat) (a : List (Nat × Nat)) : (sinkAll inc a).Perm a := by
  unfold sinkAll
  -- the passes keep the length, and so each index is inside
  have hfold : ∀ (is : List Nat) (b : List (Nat × Nat)), (∀ i ∈ is, i < b.length) →
      (is.foldl (fun b i => sink inc (b.getD i (0, 0)) i i b) b).Perm b := by
    intro is
    induction is with
    | nil =>
        intro b _
        exact List.Perm.refl b
    | cons i is ih =>
        intro b hb
        have hi := hb i List.mem_cons_self
        have hstep := sink_perm inc (b.getD i (0, 0)) i i b hi
        rw [List.getD_eq_getElem _ _ hi, List.set_getElem_self hi] at hstep
        rw [List.foldl_cons, List.getD_eq_getElem _ _ hi]
        refine (ih _ ?_).trans hstep
        intro k hk
        rw [hstep.length_eq]
        exact hb k (List.mem_cons_of_mem _ hk)
  apply hfold
  intro i hi
  have hrange := (List.mem_range'_1.mp hi).2
  have hle := (List.mem_range'_1.mp hi).1
  omega

/-- So do all passes, whatever their steps are. -/
theorem foldl_sinkAll_perm (incs : List Nat) (a : List (Nat × Nat)) :
    (incs.foldl (fun a inc => sinkAll inc a) a).Perm a := by
  induction incs generalizing a with
  | nil => exact List.Perm.refl a
  | cons inc incs ih => exact (ih _).trans (sinkAll_perm inc a)

/-- The sorted list has the elements of the list, each as often. -/
theorem shellSort_perm (a : List (Nat × Nat)) : (shellSort a).Perm a := foldl_sinkAll_perm _ a

/-- With steps of one, `v` comes to its place among those before it. -/
theorem sink_one (v : Nat × Nat) (front : List (Nat × Nat)) :
    ∀ (turns : Nat) (x : Nat × Nat) (back : List (Nat × Nat)), front.length ≤ turns →
      ∃ front', sink 1 v turns front.length (front ++ x :: back) = front' ++ back
        ∧ front'.Perm (front ++ [v]) ∧ (Ordered front → Ordered front') := by
  induction front using List.reverseRecOn with
  | nil =>
      intro turns x back _
      refine ⟨[v], ?_, List.Perm.refl _, fun _ => List.pairwise_singleton _ v⟩
      cases turns with
      | zero => rfl
      | succ turns =>
          unfold sink
          rw [if_neg (by simp)]
          rfl
  | append_singleton front w ih =>
      intro turns x back hturns
      rw [List.length_append, List.length_singleton] at hturns ⊢
      -- the place behind `front` and `w` is the one that `v` has come down to
      have hput : ∀ u : Nat × Nat, (front ++ [w] ++ x :: back).set (front.length + 1) u
          = front ++ [w, u] ++ back := by
        intro u
        rw [List.append_assoc, List.set_append_right _ _ (by omega)]
        simp
      cases turns with
      | zero => omega
      | succ turns =>
          have hw : (front ++ [w] ++ x :: back)[front.length + 1 - 1]? = some w := by
            rw [Nat.add_sub_cancel, List.append_assoc, List.getElem?_append_right (Nat.le_refl _)]
            simp
          unfold sink
          rw [if_pos (by omega), hw]
          dsimp only
          -- `v` goes on past `w`, or stays behind it
          by_cases hless : v.1 < w.1
          · -- `w` moves up, and `v` sinks into `front`
            rw [if_pos hless, hput w, Nat.add_sub_cancel]
            have hsplit : front ++ [w, w] ++ back = front ++ w :: (w :: back) := by simp
            obtain ⟨front', hsink, hperm, hordered⟩ := ih turns w (w :: back) (by omega)
            refine ⟨front' ++ [w], ?_, ?_, ?_⟩
            · rw [hsplit, hsink, List.append_assoc]
              rfl
            · refine (hperm.append_right [w]).trans ?_
              rw [List.append_assoc, List.append_assoc]
              exact (List.Perm.swap _ _ _).append_left front
            · intro h
              have hfront := (List.pairwise_append.mp h).1
              have hbound := (List.pairwise_append.mp h).2.2
              refine List.pairwise_append.mpr ⟨hordered hfront, List.pairwise_singleton _ w, ?_⟩
              intro y hy z hz
              rw [List.mem_singleton.mp hz]
              -- what is in front of `w` now came from `front`, or is `v`
              cases List.mem_append.mp (hperm.mem_iff.mp hy) with
              | inl hmem => exact hbound y hmem w (List.mem_singleton_self w)
              | inr hmem =>
                  rw [List.mem_singleton.mp hmem]
                  exact Nat.le_of_lt hless
          · -- `v` has found its place: all before it are at most `w`
            rw [if_neg hless, hput v]
            refine ⟨front ++ [w, v], rfl, ?_, ?_⟩
            · rw [List.append_assoc]
              exact List.Perm.refl _
            · intro h
              have hbound := (List.pairwise_append.mp h).2.2
              have hwv := Nat.le_of_not_lt hless
              refine List.pairwise_append.mpr ⟨(List.pairwise_append.mp h).1, ?_, ?_⟩
              · exact List.pairwise_pair.mpr hwv
              · intro y hy z hz
                have hyw := hbound y hy w (List.mem_singleton_self w)
                cases List.mem_cons.mp hz with
                | inl heq =>
                    rw [heq]
                    exact hyw
                | inr hmem =>
                    rw [List.mem_singleton.mp hmem]
                    exact Nat.le_trans hyw hwv

/-- The last pass, with steps of one, orders the counts: it is insertion sort,
whatever the passes before it have done. -/
theorem sinkAll_one (a : List (Nat × Nat)) : Ordered (sinkAll 1 a) := by
  have hfold : ∀ (m i : Nat) (front back : List (Nat × Nat)), front.length = i →
      back.length = m → Ordered front →
      Ordered ((List.range' i m).foldl (fun b i => sink 1 (b.getD i (0, 0)) i i b)
        (front ++ back)) := by
    intro m
    induction m with
    | zero =>
        intro i front back _ hback hordered
        rw [List.length_eq_zero_iff.mp hback, List.append_nil]
        exact hordered
    | succ m ih =>
        intro i front back hfront hback hordered
        obtain ⟨x, back, rfl⟩ := List.exists_cons_of_length_eq_add_one hback
        subst hfront
        have hx : (front ++ x :: back).getD front.length (0, 0) = x := by simp
        obtain ⟨front', hsink, hperm, hkept⟩ := sink_one x front front.length x back (Nat.le_refl _)
        rw [List.range'_succ, List.foldl_cons, hx, hsink]
        refine ih (front.length + 1) front' back ?_ (by simpa using hback) (hkept hordered)
        rw [hperm.length_eq, List.length_append, List.length_singleton]
  unfold sinkAll
  cases a with
  | nil => exact List.Pairwise.nil
  | cons x a => exact hfold _ 1 [x] a rfl (by simp) (List.pairwise_singleton _ x)

/-- The list is sorted, as the last of the steps is one. -/
theorem shellSort_ordered (a : List (Nat × Nat)) : Ordered (shellSort a) := by
  unfold shellSort increments
  rw [List.foldl_append]
  exact sinkAll_one _

/-! ## §2. Adding to the numbers of events. -/

/-- One place gets more events, and the sum grows by as many. -/
theorem sum_modify (numEvents : List Nat) {p : Nat} (hp : p < numEvents.length) (more : Nat) :
    (numEvents.modify p (· + more)).sum = numEvents.sum + more := by
  induction numEvents generalizing p with
  | nil => simp at hp
  | cons n numEvents ih =>
      cases p with
      | zero =>
          rw [List.modify_zero_cons, List.sum_cons, List.sum_cons]
          omega
      | succ p =>
          rw [List.modify_succ_cons, List.sum_cons, List.sum_cons,
            ih (Nat.lt_of_succ_lt_succ hp)]
          omega

/-- The place that gets more events has as many more. -/
theorem getD_modify_self (numEvents : List Nat) {p : Nat} (hp : p < numEvents.length)
    (more : Nat) : (numEvents.modify p (· + more)).getD p 0 = numEvents.getD p 0 + more := by
  rw [List.getD_eq_getElem?_getD, List.getElem?_modify, List.getD_eq_getElem?_getD,
    List.getElem?_eq_getElem hp]
  simp

/-- Another place has what it had. -/
theorem getD_modify_of_ne (numEvents : List Nat) {p q : Nat} (hne : q ≠ p) (more : Nat) :
    (numEvents.modify q (· + more)).getD p 0 = numEvents.getD p 0 := by
  rw [List.getD_eq_getElem?_getD, List.getElem?_modify, List.getD_eq_getElem?_getD]
  simp [hne]

/-- Giving out events does not change the number of stations. -/
theorem length_addEvents (numEvents : List Nat) (more : List ((Nat × Nat) × Nat)) :
    (addEvents numEvents more).length = numEvents.length := by
  induction more generalizing numEvents with
  | nil => rfl
  | cons entry more ih =>
      show (addEvents (numEvents.modify entry.1.2 (· + entry.2)) more).length = _
      rw [ih, List.length_modify]

/-- The sum grows by all that is given out, if each place is one of a station. -/
theorem sum_addEvents (numEvents : List Nat) (more : List ((Nat × Nat) × Nat))
    (hplaces : ∀ entry ∈ more, entry.1.2 < numEvents.length) :
    (addEvents numEvents more).sum = numEvents.sum + (more.map Prod.snd).sum := by
  induction more generalizing numEvents with
  | nil => simp [addEvents]
  | cons entry more ih =>
      show (addEvents (numEvents.modify entry.1.2 (· + entry.2)) more).sum = _
      have hrest : ∀ other ∈ more,
          other.1.2 < (numEvents.modify entry.1.2 (· + entry.2)).length := by
        intro other hother
        rw [List.length_modify]
        exact hplaces other (List.mem_cons_of_mem _ hother)
      rw [ih _ hrest, sum_modify _ (hplaces entry List.mem_cons_self), List.map_cons,
        List.sum_cons, Nat.add_assoc]

/-- A place that is not among those that get events keeps its number. -/
theorem getD_addEvents_of_notMem (numEvents : List Nat) (more : List ((Nat × Nat) × Nat)) {p : Nat}
    (hp : ∀ entry ∈ more, entry.1.2 ≠ p) :
    (addEvents numEvents more).getD p 0 = numEvents.getD p 0 := by
  induction more generalizing numEvents with
  | nil => rfl
  | cons entry more ih =>
      show (addEvents (numEvents.modify entry.1.2 (· + entry.2)) more).getD p 0 = _
      rw [ih _ fun other hother => hp other (List.mem_cons_of_mem _ hother)]
      exact getD_modify_of_ne numEvents (hp entry List.mem_cons_self) entry.2

/-- A place gets what stands beside it, if no place stands there twice. -/
theorem getD_addEvents (numEvents : List Nat) (more : List ((Nat × Nat) × Nat))
    (hplaces : ∀ entry ∈ more, entry.1.2 < numEvents.length)
    (hnodup : (more.map fun entry => entry.1.2).Nodup) {entry : (Nat × Nat) × Nat}
    (hentry : entry ∈ more) :
    (addEvents numEvents more).getD entry.1.2 0 = numEvents.getD entry.1.2 0 + entry.2 := by
  induction more generalizing numEvents with
  | nil => cases hentry
  | cons first more ih =>
      rw [List.map_cons, List.nodup_cons] at hnodup
      have hothers : ∀ other ∈ more, other.1.2 ≠ first.1.2 := by
        intro other hother heq
        exact hnodup.1 (List.mem_map.mpr ⟨other, hother, heq⟩)
      show (addEvents (numEvents.modify first.1.2 (· + first.2)) more).getD _ 0 = _
      cases List.mem_cons.mp hentry with
      | inl heq =>
          subst heq
          rw [getD_addEvents_of_notMem _ _ hothers]
          exact getD_modify_self numEvents (hplaces entry List.mem_cons_self) entry.2
      | inr hmem =>
          rw [ih _ ?_ hnodup.2 hmem]
          · rw [getD_modify_of_ne numEvents (hothers entry hmem).symm]
          · intro other hother
            rw [List.length_modify]
            exact hplaces other (List.mem_cons_of_mem _ hother)

/-- Events shared out among some cues, one more for the first `extra`: their sum,
by induction with the number of the first cue free. -/
theorem sum_spread (cues : List (Nat × Nat)) (eventsPerStation extra : Nat) :
    ∀ s : Nat, ((cues.zipIdx s).map fun entry =>
        if entry.2 < extra then eventsPerStation + 1 else eventsPerStation).sum
      = eventsPerStation * cues.length + min (extra - s) cues.length := by
  induction cues with
  | nil =>
      intro s
      simp
  | cons cue cues ih =>
      intro s
      rw [List.zipIdx_cons, List.map_cons, List.sum_cons, ih, List.length_cons, Nat.mul_succ]
      split
      · omega
      · omega

/-! ## §3. The levels. -/

/-- The lists are filled up to `level`: those that were shorter have got what they
lacked, and the others nothing. -/
def Filled (cues : List (Nat × Nat)) (level : Nat) (numEvents : List Nat) : Prop :=
  ∀ cue ∈ cues, numEvents.getD cue.2 0 = level - cue.1

/-- No list that got an event is more than one event longer than another: this is
what equal cues are for. -/
def Levelled (cues : List (Nat × Nat)) (numEvents : List Nat) : Prop :=
  ∀ cue ∈ cues, ∀ other ∈ cues, 0 < numEvents.getD cue.2 0 →
    cue.1 + numEvents.getD cue.2 0 ≤ other.1 + numEvents.getD other.2 0 + 1

/-- Lists that are filled up to one level are levelled. -/
theorem Filled.levelled {cues : List (Nat × Nat)} {level : Nat} {numEvents : List Nat}
    (h : Filled cues level numEvents) : Levelled cues numEvents := by
  intro cue hcue other hother hpos
  rw [h cue hcue] at hpos ⊢
  rw [h other hother]
  omega

/-- The cues in order fall apart into those at the level and those above it, which
have got nothing yet. -/
theorem lowest_split {cues : List (Nat × Nat)} {level : Nat} {numEvents : List Nat}
    (hordered : Ordered cues) (hfilled : Filled cues level numEvents) :
    ∃ above, cues = (cues.takeWhile fun cue => level = cue.1 + numEvents.getD cue.2 0) ++ above
      ∧ (∀ cue ∈ cues.takeWhile fun cue => level = cue.1 + numEvents.getD cue.2 0, cue.1 ≤ level)
      ∧ ∀ cue ∈ above, level < cue.1 := by
  refine ⟨_, List.takeWhile_append_dropWhile.symm, ?_, ?_⟩
  · intro cue hcue
    have hlevel := List.mem_takeWhile_imp hcue
    rw [decide_eq_true_eq] at hlevel
    omega
  · intro cue hcue
    have hdrop := List.dropWhile_sublist (fun cue : Nat × Nat =>
      decide (level = cue.1 + numEvents.getD cue.2 0)) (l := cues)
    have hrest : Ordered (cues.dropWhile fun cue => level = cue.1 + numEvents.getD cue.2 0) :=
      hordered.sublist hdrop
    cases habove : cues.dropWhile fun cue => level = cue.1 + numEvents.getD cue.2 0 with
    | nil =>
        rw [habove] at hcue
        cases hcue
    | cons first rest =>
        -- the first one is not at the level, and the others are not lower
        have hfirst : level < first.1 := by
          have hnot := List.head_dropWhile_not (fun cue : Nat × Nat =>
            decide (level = cue.1 + numEvents.getD cue.2 0)) (l := cues)
            (by rw [habove]; exact List.cons_ne_nil _ _)
          have hmem : first ∈ cues := hdrop.subset (by rw [habove]; exact List.mem_cons_self)
          simp only [habove, List.head_cons, decide_eq_false_iff_not] at hnot
          rw [hfilled first hmem] at hnot
          omega
        rw [habove] at hcue hrest
        cases List.mem_cons.mp hcue with
        | inl heq =>
            rw [heq]
            exact hfirst
        | inr hmem => exact Nat.lt_of_lt_of_le hfirst ((List.pairwise_cons.mp hrest).1 cue hmem)

/-- The counts in order, and each place once: what sorting leaves for the loop. -/
structure Cues (cues : List (Nat × Nat)) (n : Nat) : Prop where
  ordered : Ordered cues
  places : (cues.map Prod.snd).Nodup
  inside : ∀ cue ∈ cues, cue.2 < n

/-- What a turn gives to a cue among the others is seen at its place, as the
others have different places. -/
theorem Cues.addEvents_mem {cues front : List (Nat × Nat)} {numEvents : List Nat}
    (h : Cues cues numEvents.length) (hfront : front.Sublist cues) {more : List ((Nat × Nat) × Nat)}
    (hmore : more.map Prod.fst = front) {entry : (Nat × Nat) × Nat} (hentry : entry ∈ more) :
    (addEvents numEvents more).getD entry.1.2 0 = numEvents.getD entry.1.2 0 + entry.2 := by
  refine getD_addEvents numEvents more ?_ ?_ hentry
  · intro other hother
    have hmem : other.1 ∈ front := by
      rw [← hmore]
      exact List.mem_map_of_mem hother
    exact h.inside _ (hfront.subset hmem)
  · have hplaces : (more.map fun entry => entry.1.2) = front.map Prod.snd := by
      rw [← hmore, List.map_map]
      rfl
    rw [hplaces]
    exact (hfront.map Prod.snd).nodup h.places

/-- A cue that is not among those that get events keeps its number. -/
theorem Cues.addEvents_notMem {cues front above : List (Nat × Nat)} {n : Nat} (h : Cues cues n)
    (hsplit : cues = front ++ above) {numEvents : List Nat} {more : List ((Nat × Nat) × Nat)}
    (hmore : more.map Prod.fst = front) {cue : Nat × Nat} (hcue : cue ∈ above) :
    (addEvents numEvents more).getD cue.2 0 = numEvents.getD cue.2 0 := by
  have hplaces := h.places
  rw [hsplit, List.map_append] at hplaces
  refine getD_addEvents_of_notMem numEvents more ?_
  intro entry hentry heq
  have hmem : entry.1 ∈ front := by
    rw [← hmore]
    exact List.mem_map_of_mem hentry
  refine (List.nodup_append.mp hplaces).2.2 _ (List.mem_map_of_mem hmem) _
    (List.mem_map_of_mem hcue) heq

/-- What a turn gives out is added to the sum of all. -/
theorem Cues.sum_addEvents {cues front : List (Nat × Nat)} {numEvents : List Nat}
    (h : Cues cues numEvents.length) (hfront : front.Sublist cues) {more : List ((Nat × Nat) × Nat)}
    (hmore : more.map Prod.fst = front) :
    (addEvents numEvents more).sum = numEvents.sum + (more.map Prod.snd).sum := by
  refine PokerReco.ET.sum_addEvents numEvents more ?_
  intro other hother
  have hmem : other.1 ∈ front := by
    rw [← hmore]
    exact List.mem_map_of_mem hother
  exact h.inside _ (hfront.subset hmem)

/-- The cues of a turn: those at the level, which get events, and those above it,
the lowest of which bounds how many. -/
structure Turn (cues same above : List (Nat × Nat)) (level nextHigherCue : Nat)
    (numEvents : List Nat) : Prop where
  valid : Cues cues numEvents.length
  filled : Filled cues level numEvents
  split : cues = same ++ above
  lowest : ∀ cue ∈ same, cue.1 ≤ level
  higher : ∀ cue ∈ above, nextHigherCue ≤ cue.1 ∧ level < nextHigherCue

namespace Turn

variable {cues same above : List (Nat × Nat)} {level nextHigherCue : Nat} {numEvents : List Nat}

/-- The cues of the turn at the level are some of the cues, in order. -/
theorem sublist (h : Turn cues same above level nextHigherCue numEvents) : same.Sublist cues := by
  rw [h.split]
  exact List.sublist_append_left same above

/-- A cue at the level is one of the cues. -/
theorem mem_same (h : Turn cues same above level nextHigherCue numEvents) {cue : Nat × Nat}
    (hcue : cue ∈ same) : cue ∈ cues := h.sublist.subset hcue

/-- A cue above the level is one of the cues. -/
theorem mem_above (h : Turn cues same above level nextHigherCue numEvents) {cue : Nat × Nat}
    (hcue : cue ∈ above) : cue ∈ cues := by
  rw [h.split]
  exact List.mem_append_right same hcue

/-- Each cue is at the level or above it, so that the two parts are all. -/
theorem mem_or (h : Turn cues same above level nextHigherCue numEvents) {cue : Nat × Nat}
    (hcue : cue ∈ cues) : cue ∈ same ∨ cue ∈ above := by
  rw [h.split] at hcue
  exact List.mem_append.mp hcue

/-- What the turn adds to a cue at the level comes on top of what the level had
given to it before. -/
theorem added (h : Turn cues same above level nextHigherCue numEvents)
    {more : List ((Nat × Nat) × Nat)} (hmore : more.map Prod.fst = same)
    {entry : (Nat × Nat) × Nat} (hentry : entry ∈ more) :
    entry.1 ∈ same
      ∧ (addEvents numEvents more).getD entry.1.2 0 = level - entry.1.1 + entry.2 := by
  have hmem : entry.1 ∈ same := by
    rw [← hmore]
    exact List.mem_map_of_mem hentry
  refine ⟨hmem, ?_⟩
  rw [h.valid.addEvents_mem h.sublist hmore hentry, h.filled entry.1 (h.mem_same hmem)]

/-- A cue above the level has no events before the turn, and none after it. -/
theorem kept (h : Turn cues same above level nextHigherCue numEvents)
    {more : List ((Nat × Nat) × Nat)} (hmore : more.map Prod.fst = same) {cue : Nat × Nat}
    (hcue : cue ∈ above) : (addEvents numEvents more).getD cue.2 0 = 0 := by
  have hhigher := h.higher cue hcue
  rw [h.valid.addEvents_notMem h.split hmore hcue, h.filled cue (h.mem_above hcue)]
  omega

/-- The events that are left, spread over the lowest cues. -/
theorem spread (h : Turn cues same above level nextHigherCue numEvents) {events_toput : Nat}
    (hpos : 0 < same.length)
    (hfew : same.length = cues.length ∨ events_toput < (nextHigherCue - level) * same.length) :
    let more := same.zipIdx.map fun entry => (entry.1,
      if entry.2 < events_toput % same.length then events_toput / same.length + 1
      else events_toput / same.length)
    (addEvents numEvents more).sum = numEvents.sum + events_toput
      ∧ Levelled cues (addEvents numEvents more) := by
  intro more
  have hdiv : events_toput / same.length * same.length + events_toput % same.length
      = events_toput := by
    rw [Nat.mul_comm]
    exact Nat.div_add_mod _ _
  have hlt := Nat.mod_lt events_toput hpos
  have hfst : more.map Prod.fst = same := by
    show (same.zipIdx.map _).map Prod.fst = same
    rw [List.map_map]
    exact List.zipIdx_map_fst 0 same
  have hsnd : (more.map Prod.snd).sum = events_toput := by
    have hspread := sum_spread same (events_toput / same.length) (events_toput % same.length) 0
    show ((same.zipIdx.map _).map Prod.snd).sum = events_toput
    rw [List.map_map]
    refine hspread.trans ?_
    omega
  -- the lists at the level have nearly the same in the end
  have hgiven : ∀ cue ∈ same,
      level + events_toput / same.length ≤ cue.1 + (addEvents numEvents more).getD cue.2 0
        ∧ cue.1 + (addEvents numEvents more).getD cue.2 0
          ≤ level + events_toput / same.length + 1 := by
    intro cue hcue
    rw [← hfst] at hcue
    obtain ⟨entry, hentry, rfl⟩ := List.mem_map.mp hcue
    obtain ⟨hmem, hadded⟩ := h.added hfst hentry
    have hlevel := h.lowest entry.1 hmem
    rw [hadded]
    obtain ⟨place, -, rfl⟩ := List.mem_map.mp hentry
    dsimp only at hlevel ⊢
    split
    · omega
    · omega
  -- and there are too few events to come to the next cue
  have habove : ∀ cue ∈ above, level + events_toput / same.length + 1 ≤ cue.1 := by
    intro cue hcue
    have hhigher := h.higher cue hcue
    have hless : events_toput / same.length < nextHigherCue - level := by
      refine Nat.lt_of_mul_lt_mul_right (a := same.length) ?_
      cases hfew with
      | inl hcount =>
          have hlength := congrArg List.length h.split
          have hpos' := List.length_pos_of_mem hcue
          rw [List.length_append] at hlength
          omega
      | inr hfew => omega
    omega
  refine ⟨by rw [h.valid.sum_addEvents h.sublist hfst, hsnd], ?_⟩
  intro cue hcue other hother hgot
  cases h.mem_or hcue with
  | inr hmem =>
      rw [h.kept hfst hmem] at hgot
      exact absurd hgot (Nat.lt_irrefl 0)
  | inl hmem =>
      have hle := (hgiven cue hmem).2
      cases h.mem_or hother with
      | inl hmem' =>
          have hge := (hgiven other hmem').1
          omega
      | inr hmem' =>
          have hge := habove other hmem'
          omega

/-- The lowest cues are filled to the level of the next one. -/
theorem fill (h : Turn cues same above level nextHigherCue numEvents)
    (hlevel : level ≤ nextHigherCue) :
    let more := same.map fun cue => (cue, nextHigherCue - level)
    (addEvents numEvents more).sum
        = numEvents.sum + (nextHigherCue - level) * same.length
      ∧ Filled cues nextHigherCue (addEvents numEvents more) := by
  intro more
  have hfst : more.map Prod.fst = same := by
    show (same.map _).map Prod.fst = same
    rw [List.map_map]
    exact List.map_id same
  have hsnd : (more.map Prod.snd).sum = (nextHigherCue - level) * same.length := by
    have hconst : (Prod.snd ∘ fun cue : Nat × Nat => (cue, nextHigherCue - level))
        = fun _ => nextHigherCue - level := rfl
    show ((same.map _).map Prod.snd).sum = _
    rw [List.map_map, hconst, List.map_const', List.sum_replicate_nat, Nat.mul_comm]
  refine ⟨by rw [h.valid.sum_addEvents h.sublist hfst, hsnd], ?_⟩
  intro cue hcue
  cases h.mem_or hcue with
  | inl hmem =>
      rw [← hfst] at hmem
      obtain ⟨entry, hentry, rfl⟩ := List.mem_map.mp hmem
      obtain ⟨hmem', hadded⟩ := h.added hfst hentry
      have hlow := h.lowest entry.1 hmem'
      rw [hadded]
      obtain ⟨cue, -, rfl⟩ := List.mem_map.mp hentry
      dsimp only at hlow ⊢
      omega
  | inr hmem =>
      have hhigher := h.higher cue hmem
      rw [h.kept hfst hmem]
      omega

end Turn

/-- When the lists are filled up to a level, the program's scan for the lowest
cues finds the cues of a turn. -/
theorem turn_of_filled {cues : List (Nat × Nat)} {level : Nat} {numEvents : List Nat}
    (hcues : Cues cues numEvents.length) (hfilled : Filled cues level numEvents) :
    let same := cues.takeWhile fun cue => level = cue.1 + numEvents.getD cue.2 0
    ∃ above, Turn cues same above level ((cues[same.length]?.map Prod.fst).getD 0) numEvents := by
  intro same
  obtain ⟨above, hsplit, hlowest, habove⟩ := lowest_split hcues.ordered hfilled
  have hnext : cues[same.length]? = above.head? := by
    rw [hsplit, List.getElem?_append_right (Nat.le_refl _), Nat.sub_self, List.head?_eq_getElem?]
  refine ⟨above, hcues, hfilled, hsplit, hlowest, ?_⟩
  intro cue hcue
  rw [hnext]
  cases above with
  | nil => cases hcue
  | cons first rest =>
      have hordered := hcues.ordered
      rw [hsplit] at hordered
      have hrest := (List.pairwise_cons.mp (List.pairwise_append.mp hordered).2.1).1
      refine ⟨?_, habove first List.mem_cons_self⟩
      cases List.mem_cons.mp hcue with
      | inl heq =>
          rw [heq]
          exact Nat.le_refl _
      | inr hmem => exact hrest cue hmem

/-- **The loop** gives all events, and levels the lists. -/
theorem dole_spec {cues : List (Nat × Nat)} {events_left : Nat} (turns : Nat) :
    ∀ (level eventsDoledOut : Nat) (numEvents : List Nat), Cues cues numEvents.length →
      Filled cues level numEvents → (∃ cue ∈ cues, cue.1 ≤ level) →
      numEvents.sum = eventsDoledOut → eventsDoledOut ≤ events_left →
      events_left - eventsDoledOut < turns →
      (dole cues events_left turns level eventsDoledOut numEvents).length = numEvents.length
        ∧ (dole cues events_left turns level eventsDoledOut numEvents).sum = events_left
        ∧ Levelled cues (dole cues events_left turns level eventsDoledOut numEvents) := by
  induction turns with
  | zero =>
      intro level eventsDoledOut numEvents _ _ _ _ _ hturns
      exact absurd hturns (Nat.not_lt_zero _)
  | succ turns ih =>
      intro level eventsDoledOut numEvents hcues hfilled hlow hsum hle hturns
      unfold dole
      by_cases hdoled : eventsDoledOut < events_left
      · rw [if_pos hdoled]
        obtain ⟨above, hturn⟩ := turn_of_filled hcues hfilled
        dsimp only at hturn ⊢
        generalize (cues.takeWhile fun cue => level = cue.1 + numEvents.getD cue.2 0) = same
          at hturn ⊢
        generalize (cues[same.length]?.map Prod.fst).getD 0 = nextHigherCue at hturn ⊢
        -- one cue is at the level
        have hpos : 0 < same.length := by
          obtain ⟨cue, hcue, hlevel⟩ := hlow
          cases hturn.mem_or hcue with
          | inl hmem => exact List.length_pos_of_mem hmem
          | inr hmem =>
              have hhigher := hturn.higher cue hmem
              omega
        by_cases hall : same.length = cues.length
            ∨ events_left - eventsDoledOut < (nextHigherCue - level) * same.length
        · rw [if_pos hall]
          obtain ⟨htotal, hlevelled⟩ := hturn.spread hpos hall
          refine ⟨length_addEvents _ _, ?_, hlevelled⟩
          rw [htotal, hsum]
          omega
        · rw [if_neg hall]
          obtain ⟨hcount, henough⟩ := not_or.mp hall
          have hsome : above ≠ [] := by
            intro hnil
            have hsplit := hturn.split
            rw [hnil, List.append_nil] at hsplit
            exact hcount (congrArg List.length hsplit).symm
          obtain ⟨first, hfirst⟩ := List.exists_mem_of_ne_nil above hsome
          have hhigher := hturn.higher first hfirst
          obtain ⟨htotal, hfilled'⟩ := hturn.fill (by omega)
          have hstep : 1 ≤ (nextHigherCue - level) * same.length := Nat.mul_pos (by omega) hpos
          have hlength := length_addEvents numEvents
            (same.map fun cue => (cue, nextHigherCue - level))
          rw [← hlength]
          refine ih nextHigherCue _ _ ?_ hfilled' ?_ ?_ (by omega) (by omega)
          · rw [hlength]
            exact hcues
          · obtain ⟨cue, hcue, hlevel⟩ := hlow
            exact ⟨cue, hcue, by omega⟩
          · rw [htotal, hsum]
      · rw [if_neg hdoled]
        exact ⟨rfl, by omega, hfilled.levelled⟩

/-! ## §4. The numbers of events. -/

/-- The sorted counts of the stations, each with its place: in order, and each
place once. -/
theorem shellSort_cues (inListCount : List Nat) :
    Cues (shellSort inListCount.zipIdx) inListCount.length where
  ordered := shellSort_ordered _
  places := by
    have hperm := (shellSort_perm inListCount.zipIdx).map Prod.snd
    rw [List.zipIdx_map_snd] at hperm
    exact hperm.nodup_iff.mpr List.nodup_range'
  inside := by
    intro cue hcue
    have hmem := (shellSort_perm inListCount.zipIdx).mem_iff.mp hcue
    have hlt := List.snd_lt_add_of_mem_zipIdx hmem
    omega

/-- What the function gives: as many numbers as there are stations, all events,
and levelled lists. -/
theorem equalShares_spec {inListCount : List Nat} (hne : inListCount ≠ []) (events_left : Nat) :
    (equalShares inListCount events_left).length = inListCount.length
      ∧ (equalShares inListCount events_left).sum = events_left
      ∧ Levelled (shellSort inListCount.zipIdx) (equalShares inListCount events_left) := by
  have hcues := shellSort_cues inListCount
  have hlength : (List.replicate inListCount.length 0).length = inListCount.length :=
    List.length_replicate
  have hsome : shellSort inListCount.zipIdx ≠ [] := by
    intro hnil
    have hperm := (shellSort_perm inListCount.zipIdx).length_eq
    rw [hnil, List.length_zipIdx, List.length_nil] at hperm
    exact hne (List.length_eq_zero_iff.mp hperm.symm)
  obtain ⟨first, cues, hfirst⟩ := List.exists_cons_of_ne_nil hsome
  -- nothing has been given, and no count is below the first one
  have hfilled : Filled (shellSort inListCount.zipIdx)
      ((shellSort inListCount.zipIdx).headD (0, 0)).1 (List.replicate inListCount.length 0) := by
    intro cue hcue
    have hordered := hcues.ordered
    have hzero : (List.replicate inListCount.length 0).getD cue.2 0 = 0 := by
      rw [List.getD_eq_getElem?_getD, List.getElem?_replicate]
      split
      · rfl
      · rfl
    rw [hfirst] at hcue hordered ⊢
    rw [hzero]
    show 0 = first.1 - cue.1
    cases List.mem_cons.mp hcue with
    | inl heq => rw [heq, Nat.sub_self]
    | inr hmem =>
        have hle := (List.pairwise_cons.mp hordered).1 cue hmem
        omega
  have hlow : ∃ cue ∈ shellSort inListCount.zipIdx,
      cue.1 ≤ ((shellSort inListCount.zipIdx).headD (0, 0)).1 := by
    rw [hfirst]
    exact ⟨first, List.mem_cons_self, Nat.le_refl _⟩
  have hturns : events_left - 0 < events_left + 1 := by omega
  have hspec := dole_spec (events_left + 1) _ 0 _ (by rw [hlength]; exact hcues) hfilled hlow
    (by rw [List.sum_replicate_nat, Nat.mul_zero]) (Nat.zero_le events_left) hturns
  rw [hlength] at hspec
  exact hspec

/-- **Equal cues**: all events are given to the stations, and no input list that
got one is more than one event longer than another. -/
theorem equal_cue_levels (inListCount : List Nat) (events_left : Nat) (hne : inListCount ≠ []) :
    ∃ numEvents, equalShares inListCount events_left = numEvents
      ∧ numEvents.length = inListCount.length ∧ numEvents.sum = events_left
      ∧ ∀ i j, i < inListCount.length → j < inListCount.length → 0 < numEvents.getD i 0 →
          inListCount.getD i 0 + numEvents.getD i 0
            ≤ inListCount.getD j 0 + numEvents.getD j 0 + 1 := by
  obtain ⟨hlength, hsum, hlevelled⟩ := equalShares_spec hne events_left
  refine ⟨_, rfl, hlength, hsum, ?_⟩
  have hmem : ∀ i, i < inListCount.length →
      (inListCount.getD i 0, i) ∈ shellSort inListCount.zipIdx := by
    intro i hi
    rw [(shellSort_perm inListCount.zipIdx).mem_iff, List.getD_eq_getElem _ _ hi]
    exact List.mk_mem_zipIdx_iff_getElem?.mpr (List.getElem?_eq_getElem hi)
  intro i j hi hj hpos
  exact hlevelled _ (hmem i hi) _ (hmem j hj) hpos

/-- Three stations with 5, 0 and 2 events, to which four are given. -/
theorem equal_cue_levels_three :
    [5, 0, 2] ≠ [] ∧ ∃ numEvents, equalShares [5, 0, 2] 4 = numEvents
      ∧ numEvents.length = [5, 0, 2].length ∧ numEvents.sum = 4
      ∧ ∀ i j, i < [5, 0, 2].length → j < [5, 0, 2].length → 0 < numEvents.getD i 0 →
          [5, 0, 2].getD i 0 + numEvents.getD i 0
            ≤ [5, 0, 2].getD j 0 + numEvents.getD j 0 + 1 :=
  ⟨by decide, equal_cue_levels [5, 0, 2] 4 (by decide)⟩

end PokerReco.ET
