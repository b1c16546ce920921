/-
  PokerReco.TT.IndexOrder
  ───────────────────────
  **THE INDEX TYPES AS KEYS** (`TT/TranslationTable.h`).

  Six classes are keys of `std::map`.  Five of the `operator<` end with
  `return false`; that of `CERENKOV_Index_t` ends after its last test, so that
  it returns nothing on two equal indices.  A map makes this comparison
  whenever it is asked for a key that it has.

      index_order_laws   the laws of each type on each pair of keys, and the
                         lookup in a map of them
-/
import PokerReco.Library.SearchTree
import PokerReco.TT.Index

namespace PokerReco.TT

open PokerReco.Library

/-! ## §1. The six types. -/

/-- The classes of the translation table that are keys of a map. -/
inductive IndexType where
  | csc_t
  | EXT_VETO_Index_t
  | INT_VETO_Index_t
  | CALO_Index_t
  | PADDLES_Index_t
  | CERENKOV_Index_t
  deriving DecidableEq, Repr

namespace IndexType

/-- The objects of the class, with the fields of the source. -/
def Key : IndexType → Type
  | csc_t => Csc
  | EXT_VETO_Index_t => ExtVetoIndex
  | INT_VETO_Index_t => IntVetoIndex
  | CALO_Index_t => CaloIndex
  | PADDLES_Index_t => PaddlesIndex
  | CERENKOV_Index_t => CerenkovIndex

/-- `operator==` of the class. -/
def eq : (T : IndexType) → T.Key → T.Key → Bool
  | csc_t => Csc.eq
  | EXT_VETO_Index_t => ExtVetoIndex.eq
  | INT_VETO_Index_t => IntVetoIndex.eq
  | CALO_Index_t => CaloIndex.eq
  | PADDLES_Index_t => PaddlesIndex.eq
  | CERENKOV_Index_t => CerenkovIndex.eq

/-- `operator<` of the class. -/
def lt : (T : IndexType) → T.Key → T.Key → Option Bool
  | csc_t => fun a b => some (Csc.lt a b)
  | EXT_VETO_Index_t => fun a b => some (ExtVetoIndex.lt a b)
  | INT_VETO_Index_t => fun a b => some (IntVetoIndex.lt a b)
  | CALO_Index_t => fun a b => some (CaloIndex.lt a b)
  | PADDLES_Index_t => fun a b => some (PaddlesIndex.lt a b)
  | CERENKOV_Index_t => CerenkovIndex.lt

/-- `std::find` on a vector of keys, by `operator==`. -/
def vectorFind (T : IndexType) (k : T.Key) (keys : List T.Key) : Option T.Key :=
  keys.find? (T.eq · k)

end IndexType

/-! ## §2. The order behind each `operator<`. -/

namespace CerenkovIndex

/-- For the Cerenkov counters, too, the tested equality is equality of the
fields. -/
@[simp] theorem eq_iff (a b : CerenkovIndex) : a.eq b = true ↔ a = b := by
  cases a; cases b; simp [CerenkovIndex.eq, CerenkovIndex.isSameActive]

/-- The fields of a Cerenkov counter, in the order of the comparison. -/
def fields (a : CerenkovIndex) : List Int8 := [a.index, a.readout]

/-- The order of the fields, as the other classes have it: what `operator<` of the
Cerenkov counters is meant to be. -/
def less (a b : CerenkovIndex) : Bool := lexLess greater a.fields b.fields

instance : StrictTotal CerenkovIndex.less :=
  .lex (n := 2) CerenkovIndex.fields (fun _ => rfl)
    (fun a b h => by cases a; cases b; simpa [CerenkovIndex.fields] using h)

/-- `operator<` is this order where it returns: on two different counters. -/
theorem lt_of_ne {a b : CerenkovIndex} (hne : a ≠ b) : a.lt b = some (a.less b) := by
  unfold CerenkovIndex.lt CerenkovIndex.less CerenkovIndex.fields
  simp only [lexLess, greater, gt_iff_lt, decide_eq_true_eq]
  by_cases h1 : b.index < a.index
  · rw [if_pos h1, if_pos h1]
  · rw [if_neg h1, if_neg h1]
    by_cases h2 : a.index < b.index
    · rw [if_pos h2, if_pos h2]
    · rw [if_neg h2, if_neg h2]
      by_cases h3 : b.readout < a.readout
      · rw [if_pos h3, if_pos h3]
      · rw [if_neg h3, if_neg h3]
        by_cases h4 : a.readout < b.readout
        · rw [if_pos h4, if_pos h4]
        -- no field decides, so that the indices are equal
        · refine absurd ?_ hne
          have hindex : a.index = b.index := Int8.toInt_inj.mp (by
            rw [Int8.lt_iff_toInt_lt] at h1 h2
            omega)
          have hreadout : a.readout = b.readout := Int8.toInt_inj.mp (by
            rw [Int8.lt_iff_toInt_lt] at h3 h4
            omega)
          cases a
          cases b
          rw [CerenkovIndex.mk.injEq]
          exact ⟨hindex, hreadout⟩

/-- On a counter and itself `operator<` comes to its end without a `return`. -/
theorem lt_self (a : CerenkovIndex) : a.lt a = none := by
  have hirr : ∀ x : Int8, ¬ x < x := fun x h => by
    rw [Int8.lt_iff_toInt_lt] at h
    omega
  unfold CerenkovIndex.lt
  rw [if_neg (hirr _), if_neg (hirr _), if_neg (hirr _), if_neg (hirr _)]

end CerenkovIndex

namespace IndexType

/-- The strict total order of the fields. -/
def less : (T : IndexType) → T.Key → T.Key → Bool
  | csc_t => Csc.lt
  | EXT_VETO_Index_t => ExtVetoIndex.lt
  | INT_VETO_Index_t => IntVetoIndex.lt
  | CALO_Index_t => CaloIndex.lt
  | PADDLES_Index_t => PaddlesIndex.lt
  | CERENKOV_Index_t => CerenkovIndex.less

instance (T : IndexType) : StrictTotal T.less :=
  match T with
  | csc_t => inferInstanceAs (StrictTotal Csc.lt)
  | EXT_VETO_Index_t => inferInstanceAs (StrictTotal ExtVetoIndex.lt)
  | INT_VETO_Index_t => inferInstanceAs (StrictTotal IntVetoIndex.lt)
  | CALO_Index_t => inferInstanceAs (StrictTotal CaloIndex.lt)
  | PADDLES_Index_t => inferInstanceAs (StrictTotal PaddlesIndex.lt)
  | CERENKOV_Index_t => inferInstanceAs (StrictTotal CerenkovIndex.less)

/-- In each class the tested equality is equality. -/
theorem eq_iff (T : IndexType) (a b : T.Key) : T.eq a b = true ↔ a = b := by
  cases T with
  | csc_t => exact Csc.eq_iff a b
  | EXT_VETO_Index_t => exact ExtVetoIndex.eq_iff a b
  | INT_VETO_Index_t => exact IntVetoIndex.eq_iff a b
  | CALO_Index_t => exact CaloIndex.eq_iff a b
  | PADDLES_Index_t => exact PaddlesIndex.eq_iff a b
  | CERENKOV_Index_t => exact CerenkovIndex.eq_iff a b

/-- On different keys each `operator<` is the order of the fields. -/
theorem agreesOffDiagonal (T : IndexType) : AgreesOffDiagonal T.lt T.less := by
  intro a b hne
  cases T with
  | CERENKOV_Index_t => exact CerenkovIndex.lt_of_ne hne
  | _ => rfl

/-- On equal keys all but one return `false`. -/
theorem lt_self (T : IndexType) (a : T.Key) :
    T.lt a a = if T = .CERENKOV_Index_t then none else some false := by
  have hirr : T.less a a = false := StrictTotal.irrefl a
  cases T with
  | CERENKOV_Index_t => exact CerenkovIndex.lt_self a
  | _ => exact congrArg some hirr

/-- No key compares as less than itself, in any class. -/
theorem lt_self_ne_true (T : IndexType) (a : T.Key) : T.lt a a ≠ some true := by
  rw [lt_self]
  split
  · exact fun h => by cases h
  · exact fun h => by cases h

/-- A key can be compared with itself in all classes but that of the
Cerenkov counters. -/
theorem lt_self_isSome_iff (T : IndexType) (a : T.Key) :
    (T.lt a a).isSome = true ↔ T ≠ .CERENKOV_Index_t := by
  rw [lt_self]
  split
  · next h => exact iff_of_false Bool.false_ne_true fun hne => hne h
  · next h => exact iff_of_true rfl h

/-- Where `operator<` says less, the order does. -/
theorem less_of_lt (T : IndexType) {a b : T.Key} (h : T.lt a b = some true) :
    T.less a b = true := by
  have hne : a ≠ b := ne_of_lt_true (T.lt_self_ne_true a) h
  rw [T.agreesOffDiagonal a b hne] at h
  exact Option.some.inj h

/-- Where the order says less, `operator<` does, as the keys are then different. -/
theorem lt_of_less (T : IndexType) {a b : T.Key} (h : T.less a b = true) :
    T.lt a b = some true := by
  rw [T.agreesOffDiagonal a b (StrictTotal.ne_of_less h), h]

/-- What compares as less is transitive, in all classes. -/
theorem lt_trans (T : IndexType) {a b c : T.Key} (hab : T.lt a b = some true)
    (hbc : T.lt b c = some true) : T.lt a c = some true :=
  T.lt_of_less (StrictTotal.trans (T.less_of_lt hab) (T.less_of_lt hbc))

/-! ## §3. The laws. -/

/-- The laws of the two operators on a pair of keys; on a key and itself
`irrefl` says that it is not less than itself. -/
structure PairLaws (T : IndexType) (a b : T.Key) : Prop where
  returns : (T.lt a b).isSome = true ∧ (T.lt b a).isSome = true
  irrefl : a = b → T.lt a b = some false
  asymm : T.lt a b = some true → T.lt b a = some false
  trichotomy : (T.lt a b = some true ∧ T.lt b a ≠ some true ∧ T.eq a b = false)
    ∨ (T.lt a b ≠ some true ∧ T.lt b a = some true ∧ T.eq a b = false)
    ∨ (T.lt a b ≠ some true ∧ T.lt b a ≠ some true ∧ T.eq a b = true)
  identified : (T.lt a b = some false ∧ T.lt b a = some false) ↔ T.eq a b = true

/-- Different keys are not equal by `operator==`. -/
theorem eq_eq_false (T : IndexType) {a b : T.Key} (hne : a ≠ b) : T.eq a b = false := by
  rw [← Bool.not_eq_true, eq_iff]
  exact hne

/-- Different keys have all laws. -/
theorem pairLaws_of_ne (T : IndexType) {a b : T.Key} (hne : a ≠ b) : T.PairLaws a b := by
  have hab : T.lt a b = some (T.less a b) := T.agreesOffDiagonal a b hne
  have hba : T.lt b a = some (T.less b a) := T.agreesOffDiagonal b a hne.symm
  have heq : T.eq a b = false := T.eq_eq_false hne
  cases hless : T.less a b with
  | true =>
      have hgreater : T.less b a = false := StrictTotal.asymm hless
      rw [hless] at hab
      rw [hgreater] at hba
      exact
        { returns := by rw [hab, hba]; exact ⟨rfl, rfl⟩
          irrefl := fun h => absurd h hne
          asymm := fun _ => hba
          trichotomy := Or.inl ⟨hab, by rw [hba]; decide, heq⟩
          identified := by
            rw [hab, heq]
            exact iff_of_false (fun h => by cases h.1) Bool.false_ne_true }
  | false =>
      have hgreater : T.less b a = true := StrictTotal.less_of_ne hne hless
      rw [hless] at hab
      rw [hgreater] at hba
      exact
        { returns := by rw [hab, hba]; exact ⟨rfl, rfl⟩
          irrefl := fun h => absurd h hne
          asymm := fun h => by rw [hab] at h; cases h
          trichotomy := Or.inr (Or.inl ⟨by rw [hab]; decide, hba, heq⟩)
          identified := by
            rw [hba, heq]
            exact iff_of_false (fun h => by cases h.2) Bool.false_ne_true }

/-- A key with itself has all laws as well, where the comparison returns. -/
theorem pairLaws_self (T : IndexType) (hT : T ≠ .CERENKOV_Index_t) (a : T.Key) :
    T.PairLaws a a := by
  have haa : T.lt a a = some false := by rw [lt_self, if_neg hT]
  have heq : T.eq a a = true := (T.eq_iff a a).mpr rfl
  exact
    { returns := by rw [haa]; exact ⟨rfl, rfl⟩
      irrefl := fun _ => haa
      asymm := fun _ => haa
      trichotomy := Or.inr (Or.inr ⟨by rw [haa]; decide, by rw [haa]; decide, heq⟩)
      identified := iff_of_true ⟨haa, haa⟩ heq }

/-- A pair of keys has all laws exactly when it is not a Cerenkov index
with itself. -/
theorem pairLaws_iff (T : IndexType) (a b : T.Key) :
    T.PairLaws a b ↔ (T = .CERENKOV_Index_t → a ≠ b) := by
  constructor
  · intro h hT hab
    rw [hab] at h
    exact (T.lt_self_isSome_iff b).mp h.returns.1 hT
  · intro h
    by_cases hab : a = b
    · rw [← hab]
      exact T.pairLaws_self (fun hT => h hT hab) a
    · exact T.pairLaws_of_ne hab

/-- The lookup in a map agrees with the search through the vector of its keys
exactly when it does not find a Cerenkov index. -/
theorem mapFind_agrees_iff (T : IndexType) (keys : List T.Key) (t : BinaryTree T.Key)
    (hord : Ordered T.lt t) (k : T.Key) (hkeys : InTree k t ↔ k ∈ keys) :
    mapFind T.lt k t = some (T.vectorFind k keys) ↔ (T = .CERENKOV_Index_t → k ∉ keys) := by
  unfold vectorFind
  rw [mapFind_eq_find?_iff T.agreesOffDiagonal (T.lt_self_ne_true k) (fun a => T.eq_iff a k) hord
    hkeys, lt_self_isSome_iff]
  exact ⟨fun h hT hk => h hk hT, fun h hk hT => h hT hk⟩

/-- **The index types as keys.**  Two keys of a class have all laws exactly when
they are not equal Cerenkov indices, and whatever the shape of the tree, a
lookup returns what the search through a vector does exactly when it does not
find a Cerenkov index.  What is less is transitive in all of them. -/
theorem index_order_laws (T : IndexType) :
    (∀ a b : T.Key, T.PairLaws a b ↔ (T = .CERENKOV_Index_t → a ≠ b)) ∧
    (∀ a b c : T.Key, T.lt a b = some true → T.lt b c = some true → T.lt a c = some true) ∧
    (∀ (keys : List T.Key) (t : BinaryTree T.Key), Ordered T.lt t →
      (∀ k, InTree k t ↔ k ∈ keys) → ∀ k,
        (mapFind T.lt k t = some (T.vectorFind k keys) ↔ (T = .CERENKOV_Index_t → k ∉ keys))) :=
  ⟨T.pairLaws_iff, fun _ _ _ => T.lt_trans,
    fun keys t hord hkeys k => T.mapFind_agrees_iff keys t hord k (hkeys k)⟩

/-- A map with one Cerenkov index, asked for another one. -/
theorem other_cerenkov_index_not_found :
    mapFind (lt .CERENKOV_Index_t) (⟨2, 0⟩ : CerenkovIndex)
        (.node (⟨1, 0⟩ : CerenkovIndex) .nil .nil)
      = some (vectorFind .CERENKOV_Index_t (⟨2, 0⟩ : CerenkovIndex)
          [(⟨1, 0⟩ : CerenkovIndex)]) := by
  refine ((index_order_laws .CERENKOV_Index_t).2.2 _ _ ?_ ?_ _).mpr fun _ => ?_
  · exact ⟨trivial, trivial, fun y hy => absurd hy not_false, fun y hy => absurd hy not_false⟩
  · intro k
    show k = _ ∨ False ∨ False ↔ _
    rw [or_false, or_false]
    exact List.mem_singleton.symm
  · show (⟨2, 0⟩ : CerenkovIndex) ∉ [⟨1, 0⟩]
    decide

/-- A Cerenkov index compared with itself. -/
theorem equal_cerenkov_indices :
    ¬ PairLaws .CERENKOV_Index_t (⟨1, 0⟩ : CerenkovIndex) (⟨1, 0⟩ : CerenkovIndex) := by
  intro h
  cases h.returns.1

end IndexType

end PokerReco.TT
