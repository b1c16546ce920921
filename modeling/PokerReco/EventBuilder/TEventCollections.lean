/-
  PokerReco.EventBuilder.TEventCollections
  ────────────────────────────────────────
  **THE COLLECTIONS OF AN EVENT** (`EventBuilder/TEvent.cc`).

  A `TEvent` has a list of collections.  Each search goes through it for the
  first one with the name asked for whose class inherits from the class asked
  for, so that a collection of a derived class can answer for its base class.
  `addCollection` makes the same search before it appends.

  That is enough for a search under the class and name of a collection to end
  at this collection: one that was there before it does not answer for it, and
  one that came later stands behind it.

      collections_findable   over every sequence of calls on a new event
      addCollection_eq       the events of BDX-mini are filled in this way
-/
import Mathlib.Data.List.TakeWhile
import PokerReco.EventBuilder.TEventFactoryBDXmini
import PokerReco.Library.FirstMatch

namespace PokerReco.EventBuilder

open PokerReco.Library

/-! ## §1. The collections. -/

/-- A `char*` ends at the first null, and what stands behind it does not count for
a comparison. -/
def c_str (s : List Char) : List Char := s.takeWhile (· ≠ '\x00')

/-- `strcmp` returns 0: the two strings agree up to their first null. -/
def strcmpEq (s t : List Char) : Bool := c_str s == c_str t

/-- What ROOT says of the arrays `P` and of the classes `C`: the class and the
name of an array, and which class inherits from which. -/
structure Root (P C : Type) where
  GetClass : P → C
  GetName : P → List Char
  InheritsFrom : C → C → Bool

namespace Root

variable {P C : Type} (r : Root P C)

/-- The test of every loop over `m_collections`: the class inherits from the one
asked for, and the name is the same. -/
def found (theClass : C) (name : List Char) (it : P) : Bool :=
  strcmpEq (r.GetName it) name && r.InheritsFrom (r.GetClass it) theClass

/-- `getCollection`: the first array that passes the test. -/
def getCollection (m_collections : List P) (theClass : C) (name : List Char) : Option P :=
  m_collections.find? (r.found theClass name)

/-- `hasCollection`, by class and name. -/
def hasCollection (m_collections : List P) (theClass : C) (name : List Char) : Bool :=
  m_collections.any (r.found theClass name)

/-- `hasCollection` for an array; the name goes through a `char*`. -/
def hasCollectionOf (m_collections : List P) (coll : P) : Bool :=
  r.hasCollection m_collections (r.GetClass coll) (c_str (r.GetName coll))

/-- `addCollection`: to the end, unless there is one already; none is `NULL`, and
is not added. -/
def addCollection (m_collections : List P) (coll : Option P) (checkAlreadyExists : Bool) :
    List P :=
  match coll with
  | none => m_collections
  | some coll =>
      if checkAlreadyExists ∧ r.hasCollectionOf m_collections coll then m_collections
      else m_collections ++ [coll]

/-- `deleteCollection`: the first array that passes the test is taken out. -/
def deleteCollection (m_collections : List P) (theClass : C) (name : List Char) : List P :=
  m_collections.eraseP (r.found theClass name)

/-- A call that changes the collections, `addCollection` with its default. -/
inductive Call (P C : Type) where
  | addCollection (coll : Option P)
  | deleteCollection (theClass : C) (name : List Char)

/-- A call on the collections of an event. -/
def run (m_collections : List P) : Call P C → List P
  | .addCollection coll => r.addCollection m_collections coll true
  | .deleteCollection theClass name => r.deleteCollection m_collections theClass name

/-- The collection is found, and removed, by its class and its name. -/
structure Findable (m_collections : List P) (coll : P) : Prop where
  get : r.getCollection m_collections (r.GetClass coll) (r.GetName coll) = some coll
  has : r.hasCollection m_collections (r.GetClass coll) (r.GetName coll) = true
  delete : ∃ before after, m_collections = before ++ coll :: after
    ∧ coll ∉ before ∧ coll ∉ after
    ∧ r.deleteCollection m_collections (r.GetClass coll) (r.GetName coll) = before ++ after

/-! ## §2. The order of the collections. -/

/-- The class and the name that a collection is asked for by. -/
def key (coll : P) : C × List Char := (r.GetClass coll, c_str (r.GetName coll))

/-- The test, for a class and a name together. -/
def answers (k : C × List Char) (it : P) : Bool := r.found k.1 k.2 it

/-- What has been cut at its first null has none. -/
theorem c_str_c_str (s : List Char) : c_str (c_str s) = c_str s :=
  List.takeWhile_idem

/-- What stands behind the null does not show. -/
theorem found_c_str (theClass : C) (name : List Char) :
    r.found theClass (c_str name) = r.found theClass name := by
  funext it
  unfold found strcmpEq
  rw [c_str_c_str]

/-- The test for the class and the name of a collection is the one that
`getCollection` makes for it. -/
theorem answers_key (coll : P) :
    r.answers (r.key coll) = r.found (r.GetClass coll) (r.GetName coll) :=
  r.found_c_str _ _

/-- `addCollection` is the insertion that searches first. -/
theorem addCollection_eq_insertNew (m_collections : List P) (coll : P) :
    r.addCollection m_collections (some coll) true
      = insertNew r.key r.answers m_collections coll := by
  unfold addCollection insertNew
  simp only [true_and]
  rfl

/-- **No collection answers for a later one**, whatever is added or deleted. -/
theorem run_unshadowed {m_collections : List P} (h : Unshadowed r.key r.answers m_collections)
    (call : Call P C) : Unshadowed r.key r.answers (r.run m_collections call) := by
  cases call with
  | addCollection coll =>
      cases coll with
      | none => exact h
      | some coll =>
          show Unshadowed _ _ (r.addCollection m_collections (some coll) true)
          rw [addCollection_eq_insertNew]
          exact h.insertNew coll
  | deleteCollection theClass name => exact h.eraseP (r.found theClass name)

/-- After any calls on a new event no collection answers for a later one, by
induction over the calls. -/
theorem runs_unshadowed (calls : List (Call P C)) :
    Unshadowed r.key r.answers (calls.foldl r.run []) :=
  List.foldlRecOn calls r.run Unshadowed.nil fun _ h call _ => r.run_unshadowed h call

/-! ## §3. Every collection is found. -/

/-- A class inherits from itself, so that a collection answers for itself. -/
theorem answers_self (hrefl : ∀ c, r.InheritsFrom c c = true) (coll : P) :
    r.answers (r.key coll) coll = true := by
  rw [answers_key]
  unfold found strcmpEq
  rw [hrefl, beq_self_eq_true, Bool.and_true]

/-- Where no collection answers for a later one each is found, and removed, by its
class and its name. -/
theorem findable_of_unshadowed (hrefl : ∀ c, r.InheritsFrom c c = true)
    {m_collections : List P} (h : Unshadowed r.key r.answers m_collections) {coll : P}
    (hmem : coll ∈ m_collections) : r.Findable m_collections coll := by
  have hself := r.answers_self hrefl
  have hnodup : m_collections.Nodup := List.Nodup.of_map r.key (h.keys_nodup hself)
  refine ⟨?_, ?_, ?_⟩
  · show m_collections.find? _ = _
    rw [← answers_key]
    exact h.find? hself hmem
  · refine List.any_eq_true.mpr ⟨coll, hmem, ?_⟩
    rw [← answers_key]
    exact hself coll
  · obtain ⟨before, after, hsplit, hbefore⟩ := h.split hmem
    rw [hsplit] at hnodup
    have hnotMem := (List.nodup_middle.mp hnodup).notMem
    refine ⟨before, after, hsplit, fun hb => hnotMem (List.mem_append_left _ hb),
      fun ha => hnotMem (List.mem_append_right _ ha), ?_⟩
    show m_collections.eraseP _ = _
    rw [← answers_key, hsplit]
    exact Unshadowed.eraseP_split hself hbefore

/-- **Every collection is found and removed by its class and name**, after any
calls on a new event; no two of them share both. -/
theorem collections_findable (hrefl : ∀ c, r.InheritsFrom c c = true)
    (calls : List (Call P C)) :
    (∀ coll ∈ calls.foldl r.run [], r.Findable (calls.foldl r.run []) coll)
      ∧ ((calls.foldl r.run []).map fun coll => (r.GetClass coll, c_str (r.GetName coll))).Nodup :=
  ⟨fun _ hmem => r.findable_of_unshadowed hrefl (r.runs_unshadowed calls) hmem,
    (r.runs_unshadowed calls).keys_nodup (r.answers_self hrefl)⟩

/-- Two arrays of one name, the second of a class that inherits from that of
the first: both are added. -/
theorem derived_after_base :
    ∃ r : Root Bool Bool,
      [Call.addCollection (some false), .addCollection (some true)].foldl r.run [] = [false, true]
        ∧ r.InheritsFrom true false = true
        ∧ (∀ coll ∈ [Call.addCollection (some false), .addCollection (some true)].foldl r.run [],
            r.Findable
              ([Call.addCollection (some false), .addCollection (some true)].foldl r.run [])
              coll) := by
  refine ⟨⟨id, fun _ => ['h'], fun c d => c || !d⟩, rfl, rfl, ?_⟩
  exact (collections_findable ⟨id, fun _ => ['h'], fun c d => c || !d⟩ (by decide)
    [.addCollection (some false), .addCollection (some true)]).1

end Root

/-! ## §4. The events of BDX-mini. -/

/-- The collections of BDX-mini are of classes of which none inherits from
another, and have the name that goes with the class. -/
structure Root.OneOfAClass {C : Type} (r : Root Collection C) : Prop where
  inherits : ∀ it coll, r.InheritsFrom (r.GetClass it) (r.GetClass coll) = coll.sameClass it
  names : ∀ it coll : Collection, coll.sameClass it = true → r.GetName it = r.GetName coll

/-- **The factory fills its events** with `addCollection`. -/
theorem addCollection_eq {C : Type} {r : Root Collection C} (hr : r.OneOfAClass) (e : TEvent)
    (coll : Collection) :
    (e.addCollection coll).m_collections = r.addCollection e.m_collections (some coll) true := by
  have hfound : ∀ it,
      r.found (r.GetClass coll) (c_str (r.GetName coll)) it = coll.sameClass it := by
    intro it
    rw [Root.found_c_str]
    unfold Root.found
    rw [hr.inherits]
    cases hsame : coll.sameClass it with
    | false => exact Bool.and_false _
    | true =>
        unfold strcmpEq
        rw [hr.names it coll hsame, beq_self_eq_true, Bool.true_and]
  have hhas : r.hasCollectionOf e.m_collections coll = e.hasCollection coll := by
    unfold Root.hasCollectionOf Root.hasCollection TEvent.hasCollection
    rw [funext hfound]
  unfold TEvent.addCollection Root.addCollection
  simp only [true_and, hhas]
  split
  · rfl
  · rfl

end PokerReco.EventBuilder
