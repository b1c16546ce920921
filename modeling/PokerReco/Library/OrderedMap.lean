/-
  PokerReco.Library.OrderedMap
  ────────────────────────────
  **MAPS KEYED BY A BOOLEAN "LESS THAN".**

  A C++ `std::map` sees its keys only through `operator<`: two keys are the
  same entry when neither is less than the other, and iteration goes in the
  order of `operator<`.  Here that is the tree map of the standard library
  under the comparison `cmpOfLt lt`.

  `StrictTotal lt` says that `lt` is a strict total order.  It is what the map
  lemmas need.  `StrictTotal.of_key` obtains it for a test that compares keys
  of a linear order, and `StrictTotal.lex` for a record compared field by
  field (`lexLess`).
-/
import Mathlib.Data.List.Basic
import Mathlib.Order.Lattice

namespace PokerReco.Library

variable {κ ν : Type*}

/-! ## §1. Strict total orders given by a boolean test. -/

/-- `lt` is a strict total order: irreflexive, transitive, and two keys that
are not ordered either way are equal. -/
class StrictTotal (lt : κ → κ → Bool) : Prop where
  irrefl : ∀ a, lt a a = false
  trans : ∀ {a b c}, lt a b = true → lt b c = true → lt a c = true
  eq_of_not_lt : ∀ {a b}, lt a b = false → lt b a = false → a = b

/-- A strict order holds in one direction only. -/
theorem StrictTotal.asymm {lt : κ → κ → Bool} [StrictTotal lt] {a b : κ}
    (h : lt a b = true) : lt b a = false := by
  cases hb : lt b a with
  | false => rfl
  | true =>
      have haa : lt a a = true := StrictTotal.trans h hb
      have hirr : lt a a = false := StrictTotal.irrefl a
      rw [hirr] at haa
      cases haa

/-- A test that compares injective keys in a linear order is a strict total
order. -/
theorem StrictTotal.of_key {ι : Type*} [LinearOrder ι] {lt : κ → κ → Bool} (key : κ → ι)
    (hinj : ∀ a b, key a = key b → a = b)
    (hlt : ∀ a b, lt a b = true ↔ key a < key b) : StrictTotal lt where
  irrefl a := by
    cases h : lt a a with
    | false => rfl
    | true => exact absurd ((hlt a a).mp h) (lt_irrefl _)
  trans {a b c} hab hbc :=
    (hlt a c).mpr (lt_trans ((hlt a b).mp hab) ((hlt b c).mp hbc))
  eq_of_not_lt {a b} hab hba := by
    have h1 : ¬ key a < key b := fun h => by rw [(hlt a b).mpr h] at hab; cases hab
    have h2 : ¬ key b < key a := fun h => by rw [(hlt b a).mpr h] at hba; cases hba
    exact hinj a b (le_antisymm (not_lt.mp h2) (not_lt.mp h1))

/-! ## §2. Comparison field by field. -/

/-- Compare two records by their lists of fields: the first field that differs
decides. -/
def lexLess (lt : κ → κ → Bool) : List κ → List κ → Bool
  | a :: as, b :: bs => if lt a b then true else if lt b a then false else lexLess lt as bs
  | _, _ => false

section Lexicographic

variable {lt : κ → κ → Bool} [StrictTotal lt]

/-- No list of fields is less than itself, as no field decides. -/
theorem lexLess_irrefl : ∀ as : List κ, lexLess lt as as = false
  | [] => rfl
  | a :: as => by
      have hirr : lt a a = false := StrictTotal.irrefl a
      simp [lexLess, hirr, lexLess_irrefl as]

/-- The comparison by the first field that differs is transitive. -/
theorem lexLess_trans :
    ∀ {as bs cs : List κ}, lexLess lt as bs = true → lexLess lt bs cs = true →
      lexLess lt as cs = true
  | a :: as, b :: bs, c :: cs, h1, h2 => by
      cases hab : lt a b with
      -- the first fields decide as soon as one of the two tests is made on them
      | true =>
          cases hbc : lt b c with
          | true =>
              have hac : lt a c = true := StrictTotal.trans hab hbc
              simp [lexLess, hac]
          | false =>
              cases hcb : lt c b with
              | true => simp [lexLess, hbc, hcb] at h2
              | false =>
                  have hbc' : b = c := StrictTotal.eq_of_not_lt hbc hcb
                  subst hbc'
                  simp [lexLess, hab]
      | false =>
          cases hba : lt b a with
          | true => simp [lexLess, hab, hba] at h1
          | false =>
              -- equal first fields on the left: the right pair decides, or the tails
              have hab' : a = b := StrictTotal.eq_of_not_lt hab hba
              subst hab'
              have h1' : lexLess lt as bs = true := by simpa [lexLess, hab] using h1
              cases hac : lt a c with
              | true => simp [lexLess, hac]
              | false =>
                  cases hca : lt c a with
                  | true => simp [lexLess, hac, hca] at h2
                  | false =>
                      have h2' : lexLess lt bs cs = true := by
                        simpa [lexLess, hac, hca] using h2
                      simpa [lexLess, hac, hca] using lexLess_trans h1' h2'

/-- Two lists of fields of one length, neither of which is less, are equal: no
field has decided. -/
theorem eq_of_not_lexLess :
    ∀ {as bs : List κ}, as.length = bs.length →
      lexLess lt as bs = false → lexLess lt bs as = false → as = bs
  | [], [], _, _, _ => rfl
  | a :: as, b :: bs, hlen, h1, h2 => by
      cases hab : lt a b with
      | true => simp [lexLess, hab] at h1
      | false =>
          cases hba : lt b a with
          | true => simp [lexLess, hba] at h2
          | false =>
              have hab' : a = b := StrictTotal.eq_of_not_lt hab hba
              subst hab'
              have h1' : lexLess lt as bs = false := by simpa [lexLess, hab] using h1
              have h2' : lexLess lt bs as = false := by simpa [lexLess, hab] using h2
              rw [eq_of_not_lexLess (by simpa using hlen) h1' h2']

/-- **Field-by-field comparison is a strict total order** when the record is
determined by its fields. -/
theorem StrictTotal.lex {ρ : Type*} {n : Nat} (fields : ρ → List κ)
    (hlen : ∀ r, (fields r).length = n) (hinj : ∀ r s, fields r = fields s → r = s) :
    StrictTotal (fun r s => lexLess lt (fields r) (fields s)) where
  irrefl r := lexLess_irrefl (fields r)
  trans := lexLess_trans
  eq_of_not_lt {r s} h1 h2 :=
    hinj r s (eq_of_not_lexLess (by rw [hlen, hlen]) h1 h2)

end Lexicographic

/-! ## §3. The comparison and its laws. -/

/-- The three-way comparison a map derives from `lt`. -/
def cmpOfLt (lt : κ → κ → Bool) (a b : κ) : Ordering :=
  if lt a b then .lt else if lt b a then .gt else .eq

/-- The tree map under `cmpOfLt lt`: a `std::map` whose keys are ordered by
`operator<`. -/
abbrev OrderedMap (lt : κ → κ → Bool) (ν : Type*) := Std.TreeMap κ ν (cmpOfLt lt)

section Laws

variable {lt : κ → κ → Bool} [StrictTotal lt]

/-- The three-way comparison calls equal what is equal. -/
theorem cmpOfLt_eq_eq {a b : κ} : cmpOfLt lt a b = .eq ↔ a = b := by
  unfold cmpOfLt
  constructor
  · intro h
    cases hab : lt a b <;> cases hba : lt b a <;> simp [hab, hba] at h
    exact StrictTotal.eq_of_not_lt hab hba
  · intro h
    subst h
    have hirr : lt a a = false := StrictTotal.irrefl a
    simp [hirr]

/-- The comparison the other way round has the opposite answer. -/
theorem cmpOfLt_swap (a b : κ) : cmpOfLt lt a b = (cmpOfLt lt b a).swap := by
  unfold cmpOfLt
  cases hab : lt a b <;> cases hba : lt b a <;> simp
  rw [StrictTotal.asymm hab] at hba
  cases hba

/-- To be at most as large is not to be greater, in terms of `lt`. -/
theorem cmpOfLt_isLE {a b : κ} : (cmpOfLt lt a b).isLE = true ↔ lt b a = false := by
  unfold cmpOfLt
  cases hab : lt a b <;> cases hba : lt b a <;> simp
  rw [StrictTotal.asymm hab] at hba
  cases hba

/-- Not being greater is transitive. -/
theorem StrictTotal.ge_trans {a b c : κ} (hba : lt b a = false) (hcb : lt c b = false) :
    lt c a = false := by
  cases hca : lt c a with
  | false => rfl
  | true =>
      cases hab : lt a b with
      | true =>
          rw [StrictTotal.trans hca hab] at hcb
          cases hcb
      | false =>
          have : a = b := StrictTotal.eq_of_not_lt hab hba
          rw [← this, hca] at hcb
          cases hcb

instance : Std.TransCmp (cmpOfLt lt) where
  eq_swap := cmpOfLt_swap _ _
  isLE_trans hab hbc :=
    cmpOfLt_isLE.mpr (StrictTotal.ge_trans (cmpOfLt_isLE.mp hab) (cmpOfLt_isLE.mp hbc))

instance : Std.LawfulEqCmp (cmpOfLt lt) where
  compare_self := cmpOfLt_eq_eq.mpr rfl
  eq_of_compare := cmpOfLt_eq_eq.mp

/-! ## §4. Lookup after insertion. -/

namespace OrderedMap

variable {m : OrderedMap lt ν} {k a : κ} {v : ν}

/-- An insertion under another key is not seen. -/
theorem getElem?_insert_of_ne (h : k ≠ a) : (m.insert k v)[a]? = m[a]? := by
  rw [Std.TreeMap.getElem?_insert, if_neg (fun he => h (cmpOfLt_eq_eq.mp he))]

/-- `std::map::insert` keeps the entry that is already there. -/
theorem getElem?_insertIfNew_of_some {w : ν} (h : m[a]? = some w) :
    (m.insertIfNew k v)[a]? = some w := by
  rw [Std.TreeMap.getElem?_insertIfNew]
  split
  next hk =>
    have hka : k = a := cmpOfLt_eq_eq.mp hk.1
    subst hka
    exact absurd (Std.TreeMap.mem_iff_isSome_getElem?.mpr (by simp [h])) hk.2
  next => exact h

/-- `std::map::insert` makes the entry when there was none under the key. -/
theorem getElem?_insertIfNew_self_of_none (h : m[k]? = none) :
    (m.insertIfNew k v)[k]? = some v := by
  rw [Std.TreeMap.getElem?_insertIfNew, if_pos]
  refine ⟨cmpOfLt_eq_eq.mpr rfl, fun hmem => ?_⟩
  have hsome := Std.TreeMap.mem_iff_isSome_getElem?.mp hmem
  rw [h] at hsome
  cases hsome

/-- Under another key nothing changes, whether the entry was new or not. -/
theorem getElem?_insertIfNew_of_ne (h : k ≠ a) : (m.insertIfNew k v)[a]? = m[a]? := by
  rw [Std.TreeMap.getElem?_insertIfNew, if_neg (fun he => h (cmpOfLt_eq_eq.mp he.1))]

/-! ## §5. A set of objects. -/

/-- The objects of a list go into the map one by one, each under its key: as in
a `std::set` of pointers, an object that is there is not inserted again. -/
def insertAll (key : ν → κ) (m : OrderedMap lt ν) (l : List ν) : OrderedMap lt ν :=
  l.foldl (fun m v => m.insertIfNew (key v) v) m

/-- Under a key stands what stood there before, or the first object of the list
with that key. -/
theorem getElem?_insertAll [DecidableEq κ] (key : ν → κ) (l : List ν) (m : OrderedMap lt ν)
    (a : κ) : (insertAll key m l)[a]? = m[a]?.or (l.find? fun v => key v = a) := by
  induction l generalizing m with
  | nil => exact (Option.or_none).symm
  | cons v l ih =>
      refine (ih (m.insertIfNew (key v) v)).trans ?_
      by_cases hkey : key v = a
      · subst hkey
        rw [List.find?_cons_of_pos (by simp)]
        cases hold : m[key v]? with
        | none =>
            rw [getElem?_insertIfNew_self_of_none hold]
            rfl
        | some w =>
            rw [getElem?_insertIfNew_of_some hold]
            rfl
      · rw [getElem?_insertIfNew_of_ne hkey, List.find?_cons_of_neg (by simpa using hkey)]

/-- The map of a list has the objects of the list under their keys, when a key
belongs to one object only. -/
theorem mem_toList_insertAll {key : ν → κ} {l : List ν}
    (hinj : ∀ v ∈ l, ∀ w ∈ l, key v = key w → v = w) {entry : κ × ν} :
    entry ∈ (insertAll key (∅ : OrderedMap lt ν) l).toList
      ↔ entry.2 ∈ l ∧ key entry.2 = entry.1 := by
  classical
  rw [Std.TreeMap.mem_toList_iff_getElem?_eq_some, getElem?_insertAll, Std.TreeMap.getElem?_emptyc,
    Option.none_or]
  constructor
  · intro hfind
    exact ⟨List.mem_of_find?_eq_some hfind, by simpa using List.find?_some hfind⟩
  · intro ⟨hmem, hkey⟩
    cases hfind : l.find? fun v => key v = entry.1 with
    | none => exact absurd (decide_eq_true hkey) (List.find?_eq_none.mp hfind entry.2 hmem)
    | some v =>
        have hv : key v = entry.1 := by simpa using List.find?_some hfind
        rw [hinj v (List.mem_of_find?_eq_some hfind) entry.2 hmem (hv.trans hkey.symm)]

/-- **The objects stand in the order of their keys**, not in that of the list
that they were inserted from. -/
theorem pairwise_insertAll {key : ν → κ} {l : List ν}
    (hinj : ∀ v ∈ l, ∀ w ∈ l, key v = key w → v = w) :
    ((insertAll key (∅ : OrderedMap lt ν) l).toList.map Prod.snd).Pairwise
      fun v w => lt (key v) (key w) = true := by
  refine List.pairwise_map.mpr ?_
  refine Std.TreeMap.ordered_keys_toList.imp_of_mem fun {entry entry'} hmem hmem' hless => ?_
  rw [((mem_toList_insertAll hinj).mp hmem).2, ((mem_toList_insertAll hinj).mp hmem').2]
  by_contra hnot
  rw [cmpOfLt, if_neg hnot] at hless
  split at hless
  · cases hless
  · cases hless

end OrderedMap

end Laws

/-! ## §6. Lists with distinct keys. -/

section DistinctKeys

variable [DecidableEq κ] {key : ν → κ} {l : List ν}

/-- At most one element has a given key, when no key occurs twice. -/
theorem filter_key_of_mem (hnodup : (l.map key).Nodup) {a : ν} (ha : a ∈ l) :
    l.filter (fun b => key b = key a) = [a] := by
  induction l with
  | nil => cases ha
  | cons b l ih =>
      obtain ⟨hb, hl⟩ := List.nodup_cons.mp hnodup
      obtain rfl | ha := List.mem_cons.mp ha
      -- the element itself: nothing behind it has its key
      · have hnone : l.filter (fun b => key b = key a) = [] := by
          refine List.filter_eq_nil_iff.mpr (fun b hbl hkey => hb ?_)
          exact List.mem_map.mpr ⟨b, hbl, of_decide_eq_true hkey⟩
        rw [List.filter_cons_of_pos (by simp), hnone]
      · have hne : ¬ key b = key a := fun hkey => hb (List.mem_map.mpr ⟨a, ha, hkey.symm⟩)
        rw [List.filter_cons_of_neg (by simp [hne]), ih hl ha]

end DistinctKeys

/-- The entries of a map under one key: one or none, as a lookup says. -/
theorem filter_toList_key [DecidableEq κ] {lt : κ → κ → Bool} [StrictTotal lt]
    (m : OrderedMap lt ν) (k : κ) :
    m.toList.filter (fun entry => entry.1 = k) = m[k]?.toList.map (k, ·) := by
  -- a tree map lists each key once
  have hnodup : (m.toList.map Prod.fst).Nodup := by
    rw [Std.TreeMap.map_fst_toList_eq_keys]
    exact Std.TreeMap.nodup_keys
  cases h : m[k]? with
  | none =>
      refine List.filter_eq_nil_iff.mpr (fun entry hmem hkey => ?_)
      have hk : entry.1 = k := of_decide_eq_true hkey
      have hentry : m[entry.1]? = some entry.2 :=
        Std.TreeMap.mem_toList_iff_getElem?_eq_some.mp hmem
      rw [hk, h] at hentry
      cases hentry
  | some v =>
      have hmem : (k, v) ∈ m.toList := Std.TreeMap.mem_toList_iff_getElem?_eq_some.mpr h
      exact filter_key_of_mem hnodup hmem

end PokerReco.Library
