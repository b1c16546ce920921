/-
  PokerReco.Library.PointerList
  ─────────────────────────────
  **LISTS OF CELLS THAT POINT TO THE NEXT ONE.**

  `next a` is what the cell `a` points to.  A list of cells is in memory when
  each one points to the one behind it; what the last one points to is free.

      Linked, follow      the list, and the loop that reads it
      link, linkBefore    the loops that make one
      Linked.congr        writes elsewhere leave it
-/
import Mathlib.Data.List.Chain
import Mathlib.Logic.Function.Basic

namespace PokerReco.Library

variable {P : Type} {next next' : P → Option P} {l l' : List P}

/-! ## §1. Reading. -/

/-- Each cell points to the one behind it.  Where the last one points is left
open. -/
def Linked (next : P → Option P) (l : List P) : Prop := l.IsChain fun a b => next a = some b

/-- Two lists behind each other are linked when each of them is, and the last cell
of the first points to the second. -/
theorem linked_append : Linked next (l ++ l') ↔
    Linked next l ∧ Linked next l' ∧ ∀ a ∈ l.getLast?, ∀ b ∈ l'.head?, next a = some b :=
  List.isChain_append

/-- A cell before a list is linked to it when it points to its first cell. -/
theorem linked_cons {a : P} :
    Linked next (a :: l) ↔ (∀ b ∈ l.head?, next a = some b) ∧ Linked next l :=
  List.isChain_cons

/-- Only the pointers before the last cell count for a list to be linked. -/
theorem Linked.congr (h : Linked next l) (hsame : ∀ a ∈ l.dropLast, next' a = next a) :
    Linked next' l := by
  induction l with
  | nil => exact List.IsChain.nil
  | cons a l ih =>
      rw [linked_cons] at h ⊢
      cases l with
      | nil => exact ⟨fun b hb => absurd hb (by simp), List.IsChain.nil⟩
      | cons b l =>
          rw [List.dropLast_cons_cons] at hsame
          refine ⟨?_, ih h.2 fun c hc => hsame c (List.mem_cons_of_mem a hc)⟩
          intro c hc
          rw [hsame a List.mem_cons_self]
          exact h.1 c hc

/-- In a list in which no cell comes twice, what stands before the last cell is
another one. -/
theorem ne_getLast {a last : P} (hnodup : l.Nodup) (hlast : l.getLast? = some last)
    (ha : a ∈ l.dropLast) : a ≠ last := by
  intro heq
  rw [← List.dropLast_append_getLast? last hlast] at hnodup
  exact (List.nodup_append.mp hnodup).2.2 a ha last List.mem_cons_self heq

/-- **Another list behind the last cell**, which is made to point to it. -/
theorem Linked.append (h : Linked next l) (hnodup : l.Nodup) {last : P}
    (hlast : l.getLast? = some last) (hsame : ∀ a ∈ l, a ≠ last → next' a = next a)
    (hpoint : next' last = l'.head?) (h' : Linked next' l') : Linked next' (l ++ l') := by
  refine linked_append.mpr ⟨?_, h', ?_⟩
  · refine h.congr ?_
    intro a ha
    exact hsame a (List.dropLast_subset l ha) (ne_getLast hnodup hlast ha)
  · intro a ha b hb
    obtain rfl := Option.some.inj (hlast.symm.trans ha)
    rw [hpoint]
    exact hb

/-- The loop that reads `n` cells, one pointer after the other; `none` through a
null pointer. -/
def follow (next : P → Option P) : Nat → Option P → Option (List P)
  | 0, _ => some []
  | _ + 1, none => none
  | n + 1, some a => (follow next n (next a)).map (a :: ·)

/-- In a list that is linked the loop finds its cells, as many as there are turns. -/
theorem follow_of_linked (h : Linked next l) {p : Option P} (hp : l ≠ [] → p = l.head?) {n : Nat}
    (hn : n ≤ l.length) : follow next n p = some (l.take n) := by
  induction l generalizing p n with
  | nil =>
      rw [List.length_nil, Nat.le_zero] at hn
      rw [hn]
      rfl
  | cons a l ih =>
      cases n with
      | zero => rfl
      | succ n =>
          rw [hp (List.cons_ne_nil a l), List.head?_cons, List.take_succ_cons]
          rw [linked_cons] at h
          have hnext : l ≠ [] → next a = l.head? := by
            intro hne
            cases l with
            | nil => exact absurd rfl hne
            | cons b l => exact h.1 b rfl
          show (follow next n (next a)).map (a :: ·) = _
          rw [ih h.2 hnext (Nat.le_of_succ_le_succ hn)]
          rfl

/-- The last of the first cells points to the first of the others. -/
theorem next_getLast (h : Linked next (l ++ l')) {a : P} (ha : a ∈ l.getLast?) (hne : l' ≠ []) :
    next a = l'.head? := by
  cases l' with
  | nil => exact absurd rfl hne
  | cons b l' => exact (linked_append.mp h).2.2 a ha b rfl

/-! ## §2. Writing. -/

variable [DecidableEq P]

/-- `a` points to `p` from now on. -/
def point (next : P → Option P) (a : P) (p : Option P) : P → Option P := Function.update next a p

/-- The cell that is changed points to where it was made to. -/
@[simp] theorem point_self (next : P → Option P) (a : P) (p : Option P) : point next a p a = p := by
  unfold point
  exact Function.update_self a p next

/-- Any other cell points to where it did. -/
@[simp] theorem point_of_ne (next : P → Option P) {a b : P} (h : b ≠ a) (p : Option P) :
    point next a p b = next b := by
  unfold point
  exact Function.update_of_ne h p next

/-- The cell `last`, if there is one, points to `p` from now on. -/
def pointBehind (next : P → Option P) (last p : Option P) : P → Option P :=
  match last with
  | some last => point next last p
  | none => next

/-- A cell that is not the last one keeps its pointer. -/
theorem pointBehind_of_ne (next : P → Option P) {last : Option P} {a : P} (h : last ≠ some a)
    (p : Option P) : pointBehind next last p a = next a := by
  cases last with
  | none => rfl
  | some last => exact point_of_ne next (fun heq => h (congrArg some heq.symm)) p

/-- The loop that makes a list of some cells: each is made to point to the one
behind it. -/
def link : (P → Option P) → List P → P → Option P
  | next, a :: b :: l => link (point next a (some b)) (b :: l)
  | next, _ => next

/-- The loop leaves the pointers of all other cells alone, and that of the last
one. -/
theorem link_of_notMem {b : P} :
    ∀ next : P → Option P, b ∉ l.dropLast → link next l b = next b := by
  induction l with
  | nil =>
      intro next _
      rfl
  | cons a l ih =>
      intro next hb
      cases l with
      | nil => rfl
      | cons c l =>
          rw [List.dropLast_cons_cons, List.mem_cons, not_or] at hb
          show link (point next a (some c)) (c :: l) b = next b
          rw [ih _ hb.2, point_of_ne next hb.1]

/-- The cells are linked afterwards, when none of them comes twice. -/
theorem linked_link : ∀ next : P → Option P, l.Nodup → Linked (link next l) l := by
  induction l with
  | nil =>
      intro next _
      exact List.IsChain.nil
  | cons a l ih =>
      intro next hnodup
      rw [List.nodup_cons] at hnodup
      cases l with
      | nil => exact List.IsChain.singleton a
      | cons b l =>
          show Linked (link (point next a (some b)) (b :: l)) (a :: b :: l)
          rw [linked_cons]
          refine ⟨?_, ih _ hnodup.2⟩
          intro c hc
          have hfirst : a ∉ (b :: l).dropLast := fun hmem =>
            hnodup.1 (List.dropLast_subset _ hmem)
          rw [link_of_notMem _ hfirst, point_self]
          exact hc

/-- The loop that makes a list whose last cell points to `p`, as soon as it has
two cells. -/
def linkBefore (p : Option P) : (P → Option P) → List P → P → Option P
  | next, a :: b :: l => linkBefore p (point (point next a (some b)) b p) (b :: l)
  | next, _ => next

/-- This loop, too, leaves the pointers of all other cells alone. -/
theorem linkBefore_of_notMem {p : Option P} {b : P} :
    ∀ next : P → Option P, b ∉ l → linkBefore p next l b = next b := by
  induction l with
  | nil =>
      intro next _
      rfl
  | cons a l ih =>
      intro next hb
      rw [List.mem_cons, not_or] at hb
      cases l with
      | nil => rfl
      | cons c l =>
          have hc : b ≠ c := fun heq => hb.2 (heq ▸ List.mem_cons_self)
          show linkBefore p (point (point next a (some c)) c p) (c :: l) b = next b
          rw [ih _ hb.2, point_of_ne _ hc, point_of_ne _ hb.1]

/-- The cells are linked afterwards, as with the loop without `p`. -/
theorem linked_linkBefore {p : Option P} :
    ∀ next : P → Option P, l.Nodup → Linked (linkBefore p next l) l := by
  induction l with
  | nil =>
      intro next _
      exact List.IsChain.nil
  | cons a l ih =>
      intro next hnodup
      rw [List.nodup_cons] at hnodup
      cases l with
      | nil => exact List.IsChain.singleton a
      | cons b l =>
          show Linked (linkBefore p (point (point next a (some b)) b p) (b :: l)) (a :: b :: l)
          rw [linked_cons]
          refine ⟨?_, ih _ hnodup.2⟩
          intro c hc
          have hne : a ≠ b := fun heq => hnodup.1 (heq ▸ List.mem_cons_self)
          rw [linkBefore_of_notMem _ hnodup.1, point_of_ne _ hne, point_self]
          exact hc

/-- The last cell points to `p`, if the first one did before the loop: the pointer
is handed on. -/
theorem linkBefore_getLast {p : Option P} :
    ∀ next : P → Option P, l.Nodup → (∀ a ∈ l.head?, next a = p) →
      ∀ a ∈ l.getLast?, linkBefore p next l a = p := by
  induction l with
  | nil =>
      intro next _ _ a ha
      cases ha
  | cons b l ih =>
      intro next hnodup hfirst a ha
      rw [List.nodup_cons] at hnodup
      cases l with
      | nil =>
          obtain rfl := Option.some.inj ha
          exact hfirst b rfl
      | cons c l =>
          refine ih _ hnodup.2 ?_ a ha
          intro d hd
          obtain rfl := Option.some.inj hd
          exact point_self _ _ _

/-! ## §3. Cells between others. -/

/-- The cell `a` goes behind `last`, or before the first cell when there is no
`last`. -/
def splice (next : P → Option P) (first last : Option P) (a : P) : P → Option P :=
  match last with
  | some last => point (point next a (next last)) last (some a)
  | none => point next a first

/-- Cells other than these two keep their pointers. -/
theorem splice_of_ne (next : P → Option P) (first : Option P) {last : Option P} {a b : P}
    (ha : b ≠ a) (hlast : last ≠ some b) : splice next first last a b = next b := by
  cases last with
  | none => exact point_of_ne next ha first
  | some last =>
      have hne : b ≠ last := fun heq => hlast (congrArg some heq.symm)
      show point (point next a (next last)) last (some a) b = next b
      rw [point_of_ne _ hne, point_of_ne _ ha]

/-- The new cell points to where `last` did, or to the first cell. -/
theorem splice_self (next : P → Option P) (first : Option P) {last : Option P} {a : P}
    (hlast : last ≠ some a) : splice next first last a a = last.elim first next := by
  cases last with
  | none => exact point_self next a first
  | some last =>
      have hne : a ≠ last := fun heq => hlast (congrArg some heq.symm)
      show point (point next a (next last)) last (some a) a = next last
      rw [point_of_ne _ hne, point_self]

/-- Cells that are neither new nor the one before them are left alone. -/
theorem linkBefore_splice_of_notMem {first last p : Option P} {a b : P} {new : List P}
    (hb : b ∉ a :: new) (hlast : last ≠ some b) :
    linkBefore p (splice next first last a) (a :: new) b = next b := by
  rw [linkBefore_of_notMem _ hb]
  exact splice_of_ne next first (fun heq => hb (heq ▸ List.mem_cons_self)) hlast

/-- **New cells between others**: the first one goes behind the cells of the
front, and the loop adds the rest. -/
theorem linked_splice {front back new : List P} {first : Option P} {a : P}
    (h : Linked next (front ++ back)) (hfirst : front ++ back ≠ [] → first = (front ++ back).head?)
    (hnodup : (front ++ ((a :: new) ++ back)).Nodup) :
    Linked (linkBefore (front.getLast?.elim first next)
      (splice next first front.getLast? a) (a :: new)) (front ++ ((a :: new) ++ back)) := by
  obtain ⟨hfront, hbehind, hdisjoint⟩ := List.nodup_append.mp hnodup
  obtain ⟨hnew, -, hdisjoint'⟩ := List.nodup_append.mp hbehind
  have hlastNe : ∀ b, b ∈ (a :: new) ++ back → front.getLast? ≠ some b := by
    intro b hb heq
    exact hdisjoint b (List.mem_of_getLast? heq) b hb rfl
  generalize hnext' : linkBefore _ _ (a :: new) = next'
  have hkeep : ∀ b, b ∉ a :: new → front.getLast? ≠ some b → next' b = next b := by
    intro b hb hne
    rw [← hnext']
    exact linkBefore_splice_of_notMem hb hne
  have hlinkedNew : Linked next' (a :: new) := hnext' ▸ linked_linkBefore _ hnew
  -- the last new cell points to where the front did
  have hlastNew : ∀ c ∈ (a :: new).getLast?, next' c = front.getLast?.elim first next := by
    rw [← hnext']
    refine linkBefore_getLast _ hnew ?_
    intro b hb
    obtain rfl := Option.some.inj hb
    exact splice_self next first (hlastNe a List.mem_cons_self)
  have hback : Linked next' ((a :: new) ++ back) := by
    refine linked_append.mpr ⟨hlinkedNew, (linked_append.mp h).2.1.congr ?_, ?_⟩
    · intro b hb
      have hmem := List.dropLast_subset back hb
      exact hkeep b (fun hb' => hdisjoint' b hb' b hmem rfl)
        (hlastNe b (List.mem_append_right _ hmem))
    · intro c hc b hb
      rw [hlastNew c hc]
      have hne : back ≠ [] := by
        intro hnil
        rw [hnil] at hb
        cases hb
      cases hlast : front.getLast? with
      | none =>
          obtain rfl := List.getLast?_eq_none_iff.mp hlast
          exact (hfirst hne).trans hb
      | some last => exact (next_getLast h hlast hne).trans hb
  cases hlast : front.getLast? with
  | none =>
      obtain rfl := List.getLast?_eq_none_iff.mp hlast
      exact hback
  | some last =>
      have hmem := List.mem_of_getLast? hlast
      refine (linked_append.mp h).1.append hfront hlast ?_ ?_ hback
      · intro b hb hne
        refine hkeep b (fun hb' => hdisjoint b hb b (List.mem_append_left _ hb') rfl) ?_
        intro heq
        exact hne (Option.some.inj (heq.symm.trans hlast))
      · have hnot : last ∉ a :: new := fun hb =>
          hdisjoint last hmem last (List.mem_append_left _ hb) rfl
        rw [← hnext', linkBefore_of_notMem _ hnot, hlast]
        exact point_self _ _ _

end PokerReco.Library
