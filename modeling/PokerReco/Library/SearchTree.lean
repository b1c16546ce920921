/-
  PokerReco.Library.SearchTree
  ────────────────────────────
  **LOOKUP IN A SEARCH TREE WHOSE COMPARISON MAY FAIL.**

  `std::map::find` goes down a binary tree to the first key that is not less
  than the one looked up, and compares the two once more.  All it knows of the
  keys is their comparison, here `lt : κ → κ → Option Bool`, with `none` where
  it returns nothing.  The shape of the tree is left open, so that nothing
  depends on how a map keeps its tree balanced.

  The comparison is a strict total order between different keys, and what it
  does on a key and itself is a parameter: that is where a lookup can fail.

      mapFind_of_mem         a key of the tree is found when it can be compared
                             with itself
      mapFind_of_notMem      another key is not found, and the lookup returns
      mapFind_eq_find?_iff   the lookup agrees with a search through a list
-/
import Mathlib.Data.Tree.Basic
import PokerReco.Library.OrderedMap

namespace PokerReco.Library

variable {κ : Type*}

/-! ## §1. The tree and the lookup. -/

/-- The key is in the tree, at whatever place; the order plays no part in this. -/
def InTree (k : κ) : BinaryTree κ → Prop
  | .nil => False
  | .node x l r => k = x ∨ InTree k l ∨ InTree k r

/-- The keys on the left of a node compare as less than its key, and those on
the right the other way. -/
def Ordered (lt : κ → κ → Option Bool) : BinaryTree κ → Prop
  | .nil => True
  | .node x l r =>
      Ordered lt l ∧ Ordered lt r ∧ (∀ y, InTree y l → lt y x = some true)
        ∧ ∀ y, InTree y r → lt x y = some true

/-- `lower_bound`: down to the first key that is not less than `k`; `y` is the
last such key on the way. -/
def lowerBound (lt : κ → κ → Option Bool) (k : κ) :
    BinaryTree κ → Option κ → Option (Option κ)
  | .nil, y => some y
  | .node x l r, y =>
      (lt x k).bind fun less =>
        if less then lowerBound lt k r y else lowerBound lt k l (some x)

/-- `find`: the key found, none for the end of the map. -/
def mapFind (lt : κ → κ → Option Bool) (k : κ) (t : BinaryTree κ) : Option (Option κ) :=
  (lowerBound lt k t none).bind fun
    | none => some none
    | some j => (lt k j).map fun less => if less then none else some j

/-! ## §2. A comparison that is an order between different keys. -/

/-- On different keys the comparison is that of `less`; on equal keys it may be
anything, and may have no value. -/
def AgreesOffDiagonal (lt : κ → κ → Option Bool) (less : κ → κ → Bool) : Prop :=
  ∀ a b, a ≠ b → lt a b = some (less a b)

section Lookup

variable {lt : κ → κ → Option Bool} {less : κ → κ → Bool} [StrictTotal less] {k : κ}

/-- One of two different keys is less. -/
theorem StrictTotal.less_of_ne {a b : κ} (hne : a ≠ b) (h : less a b = false) :
    less b a = true := by
  cases hba : less b a with
  | true => rfl
  | false => exact absurd (StrictTotal.eq_of_not_lt h hba) hne

/-- A key that is less than another one is not that one. -/
theorem StrictTotal.ne_of_less {a b : κ} (h : less a b = true) : a ≠ b := by
  intro hab
  have hirr : less b b = false := StrictTotal.irrefl b
  rw [hab, hirr] at h
  cases h

/-- What compares as less than another key does not compare as greater. -/
theorem AgreesOffDiagonal.asymm (hlt : AgreesOffDiagonal lt less) {a b : κ} (hne : a ≠ b)
    (h : lt a b = some true) : lt b a = some false := by
  rw [hlt a b hne] at h
  rw [hlt b a (Ne.symm hne), StrictTotal.asymm (Option.some.inj h)]

/-- A key that compares as less than another one is not that one. -/
theorem ne_of_lt_true (hkk : lt k k ≠ some true) {a : κ} (h : lt k a = some true) : k ≠ a := by
  intro hka
  rw [← hka] at h
  exact hkk h

/-! ## §3. The way down. -/

/-- Below keys that are all less the way goes right only, and the last key on it
is the one from above. -/
theorem lowerBound_of_less {t : BinaryTree κ} (h : ∀ x, InTree x t → lt x k = some true)
    (y : Option κ) : lowerBound lt k t y = some y := by
  induction t with
  | nil => rfl
  | node x l r _ ihr =>
      unfold lowerBound
      rw [h x (Or.inl rfl), Option.bind_some, if_pos rfl]
      exact ihr fun z hz => h z (Or.inr (Or.inr hz))

/-- **The way down to a key of the tree** ends there, unless the key cannot be
compared with itself. -/
theorem lowerBound_of_mem (hlt : AgreesOffDiagonal lt less) (hkk : lt k k ≠ some true)
    {t : BinaryTree κ} (hord : Ordered lt t) (hk : InTree k t) (y : Option κ) :
    lowerBound lt k t y = (lt k k).map fun _ => some k := by
  induction t generalizing y with
  | nil => exact absurd hk not_false
  | node x l r ihl ihr =>
      obtain ⟨hl, hr, hless, hgreater⟩ := hord
      unfold lowerBound
      obtain rfl | hk | hk := hk
      -- the node of the key: what is on its left is less
      · cases hself : lt k k with
        | none => rfl
        | some b =>
            cases b with
            | true => exact absurd hself hkk
            | false => exact lowerBound_of_less hless (some k)
      -- the key is on the left
      · have hkx : lt k x = some true := hless k hk
        rw [hlt.asymm (ne_of_lt_true hkk hkx) hkx, Option.bind_some, if_neg Bool.false_ne_true]
        exact ihl hl hk (some x)
      -- the key is on the right
      · rw [hgreater k hk, Option.bind_some, if_pos rfl]
        exact ihr hr hk y

/-- **The way down to a key that is not there** returns a greater key, if any. -/
theorem lowerBound_of_notMem (hlt : AgreesOffDiagonal lt less) {t : BinaryTree κ}
    (hk : ¬ InTree k t) {y : Option κ} (hy : ∀ j ∈ y, less k j = true) :
    ∃ y', lowerBound lt k t y = some y' ∧ ∀ j ∈ y', less k j = true := by
  induction t generalizing y with
  | nil => exact ⟨y, rfl, hy⟩
  | node x l r ihl ihr =>
      have hne : x ≠ k := fun h => hk (Or.inl h.symm)
      unfold lowerBound
      rw [hlt x k hne, Option.bind_some]
      cases hxk : less x k with
      | true =>
          rw [if_pos rfl]
          exact ihr (fun h => hk (Or.inr (Or.inr h))) hy
      | false =>
          rw [if_neg Bool.false_ne_true]
          refine ihl (fun h => hk (Or.inr (Or.inl h))) (fun j hj => ?_)
          obtain rfl := Option.some.inj hj
          exact StrictTotal.less_of_ne hne hxk

/-! ## §4. The lookup. -/

/-- A key of the tree is found, unless it cannot be compared with itself. -/
theorem mapFind_of_mem (hlt : AgreesOffDiagonal lt less) (hkk : lt k k ≠ some true)
    {t : BinaryTree κ} (hord : Ordered lt t) (hk : InTree k t) :
    mapFind lt k t = (lt k k).map fun _ => some k := by
  unfold mapFind
  rw [lowerBound_of_mem hlt hkk hord hk none]
  cases hself : lt k k with
  | none => rfl
  | some b =>
      cases b with
      | true => exact absurd hself hkk
      | false =>
          show (lt k k).map _ = _
          rw [hself]
          rfl

/-- A key that is not there is not found; it is never compared with itself. -/
theorem mapFind_of_notMem (hlt : AgreesOffDiagonal lt less) {t : BinaryTree κ}
    (hk : ¬ InTree k t) : mapFind lt k t = some none := by
  obtain ⟨y, hrun, hy⟩ := lowerBound_of_notMem hlt hk (y := none) (fun j hj => by cases hj)
  unfold mapFind
  rw [hrun]
  cases y with
  | none => rfl
  | some j =>
      have hkj : less k j = true := hy j rfl
      show (lt k j).map _ = _
      rw [hlt k j (StrictTotal.ne_of_less hkj), hkj]
      rfl

/-! ## §5. The lookup and a search through a list. -/

/-- A search for a key through a list that has it, by a test that only the
key passes. -/
theorem find?_of_mem {p : κ → Bool} (hp : ∀ a, p a = true ↔ a = k) {keys : List κ}
    (hk : k ∈ keys) : keys.find? p = some k := by
  induction keys with
  | nil => exact absurd hk List.not_mem_nil
  | cons x keys ih =>
      by_cases hxk : x = k
      · rw [List.find?_cons_of_pos ((hp x).mpr hxk), hxk]
      · rw [List.find?_cons_of_neg (fun h => hxk ((hp x).mp h))]
        exact ih ((List.mem_cons.mp hk).resolve_left fun h => hxk h.symm)

/-- A search through a list without the key finds nothing. -/
theorem find?_of_notMem {p : κ → Bool} (hp : ∀ a, p a = true ↔ a = k) {keys : List κ}
    (hk : k ∉ keys) : keys.find? p = none := by
  refine List.find?_eq_none.mpr (fun x hx hxk => hk ?_)
  rw [← (hp x).mp hxk]
  exact hx

/-- **The lookup agrees with the search** through a list of the keys exactly
when the key looked up is not there or can be compared with itself. -/
theorem mapFind_eq_find?_iff (hlt : AgreesOffDiagonal lt less) (hkk : lt k k ≠ some true)
    {p : κ → Bool} (hp : ∀ a, p a = true ↔ a = k) {t : BinaryTree κ} (hord : Ordered lt t)
    {keys : List κ} (hkeys : InTree k t ↔ k ∈ keys) :
    mapFind lt k t = some (keys.find? p) ↔ (k ∈ keys → (lt k k).isSome = true) := by
  by_cases hk : k ∈ keys
  · rw [mapFind_of_mem hlt hkk hord (hkeys.mpr hk), find?_of_mem hp hk]
    cases lt k k with
    | none => exact iff_of_false (fun h => by cases h) (fun h => by cases h hk)
    | some b => exact iff_of_true rfl (fun _ => rfl)
  · rw [mapFind_of_notMem hlt (fun h => hk (hkeys.mp h)), find?_of_notMem hp hk]
    exact iff_of_true rfl (fun h => absurd h hk)

end Lookup

end PokerReco.Library
