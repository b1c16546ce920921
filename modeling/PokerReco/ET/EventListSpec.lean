/-
  PokerReco.ET.EventListSpec
  ──────────────────────────
  **WHAT THE LISTS HOLD** (`et_readwrite.c`).

  Each operation on a list in shared memory is one on a list of events, as
  long as the events that are written are in no list yet.

      Holds                          a list of events is in memory
      et_llist_write_holds           high priority events go behind those before
      et_station_nwrite_holds        so they do, behind those it knows of
      et_restore_holds               restored events go before the others
      scanForGroup_holds             the events of a group leave the list
      one_event                      the functions for one event agree
      group_read                     what an attachment gets of a group
-/
import PokerReco.ET.EventList
import Mathlib.Data.List.Perm.Subperm

namespace PokerReco.ET

open PokerReco.Library

variable {P : Type}

/-! ## §1. A list in memory. -/

/-- The list of events that is in memory: its pointers lead from the first event
to the last one, and its count is right. -/
structure Holds (next : P → Option P) (pl : EtList P) (l : List P) : Prop where
  cnt : pl.cnt = l.length
  linked : Linked next l
  first : l ≠ [] → pl.firstevent = l.head?
  last : l ≠ [] → pl.lastevent = l.getLast?

/-- Nothing but the pointers of some events was written: `cells` are those
events. -/
structure OnlyNext (cells : List P) (m m' : Events P) : Prop where
  next : ∀ a, a ∉ cells → m'.next a = m.next a
  priority : m'.priority = m.priority
  owner : m'.owner = m.owner
  group : m'.group = m.group
  age : m'.age = m.age

/-- Only the pointers of the events in the list count. -/
theorem Holds.congr {next next' : P → Option P} {pl : EtList P} {l : List P} (h : Holds next pl l)
    (hsame : ∀ a ∈ l, next' a = next a) : Holds next' pl l where
  cnt := h.cnt
  linked := h.linked.congr fun a ha => hsame a (List.dropLast_subset l ha)
  first := h.first
  last := h.last

/-- A list whose count is 0 is empty, whatever its pointers are. -/
theorem holds_nil (next : P → Option P) {pl : EtList P} (h : pl.cnt = 0) : Holds next pl [] where
  cnt := h
  linked := List.IsChain.nil
  first := fun hne => absurd rfl hne
  last := fun hne => absurd rfl hne

/-- The count is 0 exactly when the list is empty. -/
theorem Holds.cnt_eq_zero {next : P → Option P} {pl : EtList P} {l : List P}
    (h : Holds next pl l) : pl.cnt = 0 ↔ l = [] := by
  rw [h.cnt, List.length_eq_zero_iff]

/-- The pointers and the ends of the list after events were put in, before these
are counted. -/
structure Placed (m m' : Events P) (pl pl' : EtList P) (l l' : List P) : Prop where
  linked : Linked m'.next l'
  first : pl'.firstevent = l'.head?
  last : pl'.lastevent = l'.getLast?
  cnt : pl'.cnt = pl.cnt
  lasthigh : pl'.lasthigh = pl.lasthigh
  same : OnlyNext l' m m'
  perm : l'.Perm l

/-- A list whose events are placed is in memory when it is counted, too. -/
theorem Placed.holds {m m' : Events P} {pl pl' : EtList P} {l l' : List P}
    (h : Placed m m' pl pl' l l') {next : P → Option P} (hnext : next = m'.next) {pl'' : EtList P}
    (hcnt : pl''.cnt = l.length) (hfirst : pl''.firstevent = pl'.firstevent)
    (hlast : pl''.lastevent = pl'.lastevent) : Holds next pl'' l' where
  cnt := hcnt.trans h.perm.length_eq.symm
  linked := hnext ▸ h.linked
  first := fun _ => hfirst.trans h.first
  last := fun _ => hlast.trans h.last

/-- The order in which the events are named does not matter. -/
theorem OnlyNext.of_perm {cells cells' : List P} {m m' : Events P} (h : OnlyNext cells m m')
    (hperm : cells.Perm cells') : OnlyNext cells' m m' :=
  { h with next := fun a ha => h.next a (mt hperm.mem_iff.mp ha) }

/-- What two steps have written is among the events of the second, if it names
those of the first. -/
theorem OnlyNext.trans {cells cells' : List P} {m m' m'' : Events P} (h : OnlyNext cells m m')
    (h' : OnlyNext cells' m' m'') (hsubset : ∀ a ∈ cells, a ∈ cells') : OnlyNext cells' m m'' where
  next := fun a ha => (h'.next a ha).trans (h.next a (mt (hsubset a) ha))
  priority := h'.priority.trans h.priority
  owner := h'.owner.trans h.owner
  group := h'.group.trans h.group
  age := h'.age.trans h.age

variable {m : Events P} {pl : EtList P} {l pe : List P}

/-! ### Priorities. -/

/-- A list is its first high priority events and the others. -/
theorem highs_append_lows (priority : P → Priority) (l : List P) :
    highs priority l ++ lows priority l = l := List.takeWhile_append_dropWhile

/-- A high priority event at the front is one of the first. -/
theorem highs_cons_high {priority : P → Priority} {p : P} (h : priority p = .high) (l : List P) :
    highs priority (p :: l) = p :: highs priority l :=
  List.takeWhile_cons_of_pos (decide_eq_true h)

/-- Behind any other event at the front no event is one of the first. -/
theorem highs_cons_low {priority : P → Priority} {p : P} (h : priority p ≠ .high) (l : List P) :
    highs priority (p :: l) = [] :=
  List.takeWhile_cons_of_neg (by rw [decide_eq_true_iff]; exact h)

/-- A high priority event at the front is none of the others. -/
theorem lows_cons_high {priority : P → Priority} {p : P} (h : priority p = .high) (l : List P) :
    lows priority (p :: l) = lows priority l :=
  List.dropWhile_cons_of_pos (decide_eq_true h)

/-- Any other event at the front is the first of the others. -/
theorem lows_cons_low {priority : P → Priority} {p : P} (h : priority p ≠ .high) (l : List P) :
    lows priority (p :: l) = p :: l :=
  List.dropWhile_cons_of_neg (by rw [decide_eq_true_iff]; exact h)

/-- High priority events behind the first ones of their priority, and the
others behind all. -/
def mergeHigh (priority : P → Priority) (l pe : List P) : List P :=
  highs priority l ++ highs priority pe ++ lows priority l ++ lows priority pe

/-- Merging two lists so keeps all events of both. -/
theorem mergeHigh_perm (priority : P → Priority) (l pe : List P) :
    (mergeHigh priority l pe).Perm (l ++ pe) := by
  unfold mergeHigh
  conv_rhs => rw [← highs_append_lows priority l, ← highs_append_lows priority pe]
  rw [List.append_assoc, List.append_assoc, List.append_assoc]
  refine List.Perm.append_left _ ?_
  rw [← List.append_assoc, ← List.append_assoc]
  exact List.perm_append_comm.append_right _

/-- Events that begin with one of low priority go behind all that are there. -/
theorem mergeHigh_low {priority : P → Priority} (l : List P) {pe0 : P} {rest : List P}
    (hlow : priority pe0 ≠ .high) : mergeHigh priority l (pe0 :: rest) = l ++ pe0 :: rest := by
  unfold mergeHigh
  rw [highs_cons_low hlow, lows_cons_low hlow, List.append_nil, highs_append_lows]

/-- Into an empty list the events go in their order. -/
theorem mergeHigh_nil (priority : P → Priority) (pe : List P) : mergeHigh priority [] pe = pe := by
  show highs priority pe ++ [] ++ lows priority pe = pe
  rw [List.append_nil, highs_append_lows]

/-- The loop that looks for the last high priority event ends there, with the one
behind it and their number. -/
theorem findLastHigh_ok {l : List P} :
    ∀ (pe_lasthigh pevent : Option P) (high_cnt : Nat), Linked m.next l →
      (l ≠ [] → pevent = l.head?) →
      findLastHigh m l.length pe_lasthigh pevent high_cnt
        = .ok ((highs m.priority l).getLast?.or pe_lasthigh,
          (highs m.priority l).getLast?.elim pevent m.next,
          high_cnt + (highs m.priority l).length) := by
  induction l with
  | nil =>
      intro pe_lasthigh pevent high_cnt _ _
      rfl
  | cons p l ih =>
      intro pe_lasthigh pevent high_cnt hlinked hfirst
      rw [hfirst (List.cons_ne_nil p l), List.head?_cons, List.length_cons]
      unfold findLastHigh
      rw [linked_cons] at hlinked
      by_cases hhigh : m.priority p = .high
      · have hnext : l ≠ [] → m.next p = l.head? := by
          intro hne
          cases l with
          | nil => exact absurd rfl hne
          | cons q l => exact hlinked.1 q rfl
        rw [if_pos hhigh, ih (some p) (m.next p) (high_cnt + 1) hlinked.2 hnext,
          highs_cons_high hhigh, List.getLast?_cons, List.length_cons]
        cases (highs m.priority l).getLast? with
        | none => simp [Nat.add_assoc, Nat.add_comm]
        | some a => simp [Nat.add_assoc, Nat.add_comm]
      · rw [if_neg hhigh, highs_cons_low hhigh]
        rfl

/-- Behind the last high priority event comes the first of the others. -/
theorem elim_getLast_highs (h : Linked m.next l) (hne : lows m.priority l ≠ []) :
    (highs m.priority l).getLast?.elim l.head? m.next = (lows m.priority l).head? := by
  have hsplit : Linked m.next (highs m.priority l ++ lows m.priority l) := by
    rw [highs_append_lows]
    exact h
  cases hlast : (highs m.priority l).getLast? with
  | none =>
      have hnone := highs_append_lows m.priority l
      rw [List.getLast?_eq_none_iff.mp hlast, List.nil_append] at hnone
      rw [hnone]
      rfl
  | some a => exact next_getLast hsplit hlast hne

/-! ## §2. Reading. -/

/-- **`et_llist_read`** reads everything, and leaves an empty list behind. -/
theorem et_llist_read_holds (h : Holds m.next pl l) (hne : l ≠ []) :
    ∃ pl', et_llist_read m pl = .ok (l, pl') ∧ Holds m.next pl' [] ∧ pl'.lasthigh = 0 := by
  have hread := follow_of_linked h.linked h.first (Nat.le_of_eq h.cnt)
  rw [h.cnt, List.take_length] at hread
  unfold et_llist_read
  rw [if_neg (mt h.cnt_eq_zero.mp hne), h.cnt, hread]
  exact ⟨_, rfl, holds_nil _ rfl, rfl⟩

variable [DecidableEq P]

/-- **`et_station_nread`** reads the first events, which the attachment owns then,
and leaves the others. -/
theorem et_station_nread_holds (h : Holds m.next pl l) (att : Nat) {num : Nat} (hnum : 1 ≤ num)
    (hne : l ≠ []) :
    ∃ pl', et_station_nread m pl att num
        = .ok (l.take num, m.own (l.take num) (some att), pl')
      ∧ Holds m.next pl' (l.drop num) ∧ pl'.lasthigh = pl.lasthigh := by
  have hpos := List.length_pos_of_ne_nil hne
  have hread := follow_of_linked h.linked h.first (Nat.min_le_right num l.length)
  have htake : l.take (min num l.length) = l.take num := by
    rw [← List.take_take, List.take_length]
  have hsplit : Linked m.next (l.take num ++ l.drop num) := by
    rw [List.take_append_drop]
    exact h.linked
  rw [htake] at hread
  unfold et_station_nread
  rw [if_neg (by omega), if_neg (by rw [h.cnt]; omega)]
  dsimp only
  rw [h.cnt, hread]
  refine ⟨_, rfl, ⟨?_, (linked_append.mp hsplit).2.1, ?_, ?_⟩, rfl⟩
  · show l.length - min num l.length = (l.drop num).length
    rw [List.length_drop]
    omega
  · intro hrest
    -- the last event that was read points to the first one that is left
    have htaken : l.take num ≠ [] := List.ne_nil_of_length_pos (by rw [List.length_take]; omega)
    obtain ⟨a, ha⟩ := Option.ne_none_iff_exists'.mp
      (mt List.getLast?_eq_none_iff.mp htaken)
    show (l.take num).getLast?.bind m.next = _
    rw [ha]
    exact next_getLast hsplit ha hrest
  · intro hrest
    show pl.lastevent = _
    rw [h.last hne, List.getLast?_drop, if_neg]
    rw [ne_eq, List.drop_eq_nil_iff] at hrest
    exact hrest

/-! ## §3. Writing behind. -/

/-- Events put behind the others: the last one is made to point to them. -/
theorem putBehind_placed (h : Holds m.next pl l) (hpe : pe ≠ []) (hnodup : (l ++ pe).Nodup) :
    ∃ m' pl', putBehind m pl pe = .ok (m', pl') ∧ Placed m m' pl pl' (l ++ pe) (l ++ pe) := by
  obtain ⟨hl, hpe', hdisjoint⟩ := List.nodup_append.mp hnodup
  unfold putBehind
  by_cases hempty : pl.cnt = 0
  · obtain rfl := h.cnt_eq_zero.mp hempty
    rw [if_pos hempty, List.nil_append]
    refine ⟨_, _, rfl, linked_link _ hpe', rfl, rfl, rfl, rfl, ⟨?_, rfl, rfl, rfl, rfl⟩, .refl _⟩
    intro a ha
    exact link_of_notMem _ fun hmem => ha (List.dropLast_subset pe hmem)
  · have hne := mt h.cnt_eq_zero.mpr hempty
    obtain ⟨last, hlast⟩ := Option.ne_none_iff_exists'.mp (mt List.getLast?_eq_none_iff.mp hne)
    have hmem : last ∈ l := List.mem_of_getLast? hlast
    rw [if_neg hempty, h.last hne, hlast]
    have hold : ∀ a, a ∉ pe → link (point m.next last pe.head?) pe a
        = point m.next last pe.head? a := by
      intro a ha
      exact link_of_notMem _ fun hmem' => ha (List.dropLast_subset pe hmem')
    refine ⟨_, _, rfl, ?_, ?_, ?_, rfl, rfl, ⟨?_, rfl, rfl, rfl, rfl⟩, .refl _⟩
    · refine h.linked.append hl hlast ?_ ?_ (linked_link _ hpe')
      · intro a ha hne
        exact (hold a fun hmem' => hdisjoint a ha a hmem' rfl).trans (point_of_ne _ hne _)
      · exact (hold last fun hmem' => hdisjoint last hmem last hmem' rfl).trans (point_self _ _ _)
    · show pl.firstevent = _
      rw [h.first hne, List.head?_append_of_ne_nil _ hne]
    · show pe.getLast? = _
      rw [List.getLast?_append_of_ne_nil _ hpe]
    · intro a ha
      rw [List.mem_append, not_or] at ha
      have hnotLast : a ≠ last := fun heq => ha.1 (heq ▸ hmem)
      exact (hold a ha.2).trans (point_of_ne _ hnotLast _)

/-- **`et_llist_write_gc`** writes behind the others, whatever the
priorities are. -/
theorem et_llist_write_gc_holds (h : Holds m.next pl l) (hpe : pe ≠ []) (hnodup : (l ++ pe).Nodup)
    {nevents : Nat} (hroom : l.length + pe.length ≤ nevents) :
    ∃ m' pl', et_llist_write_gc nevents m pl pe = .ok (m', pl')
      ∧ Holds m'.next pl' (l ++ pe) ∧ OnlyNext (l ++ pe) m m' := by
  obtain ⟨m', pl', hput, hplaced⟩ := putBehind_placed h hpe hnodup
  have hcnt : pl.cnt + pe.length = (l ++ pe).length := by rw [h.cnt, List.length_append]
  unfold et_llist_write_gc
  rw [if_neg (by rw [h.cnt]; omega), hput]
  exact ⟨_, _, rfl, hplaced.holds rfl hcnt rfl rfl, hplaced.same⟩

/-- **`et_station_ndump`** writes behind the others too, and the system owns the
events then. -/
theorem et_station_ndump_holds (h : Holds m.next pl l) (hnodup : (l ++ pe).Nodup)
    {nevents : Nat} (hroom : l.length + pe.length ≤ nevents) :
    ∃ m' pl', et_station_ndump nevents m pl pe = .ok (m'.own pe none, pl')
      ∧ Holds m'.next pl' (l ++ pe) ∧ OnlyNext (l ++ pe) m m' := by
  unfold et_station_ndump
  by_cases hpe : pe = []
  · rw [if_pos hpe, hpe, List.append_nil]
    refine ⟨m, pl, ?_, h, fun _ _ => rfl, rfl, rfl, rfl, rfl⟩
    simp [Events.own]
  · obtain ⟨m', pl', hput, hplaced⟩ := putBehind_placed h hpe hnodup
    have hcnt : pl.cnt + pe.length = (l ++ pe).length := by rw [h.cnt, List.length_append]
    rw [if_neg hpe, if_neg (by rw [h.cnt]; omega), hput]
    exact ⟨m', _, rfl, hplaced.holds rfl hcnt rfl rfl, hplaced.same⟩

/-! ## §4. High priority events. -/

/-- Events behind the last one, with their pointers set before the list is
led to them. -/
theorem linked_behind {next : P → Option P} {front back : List P} (h : Linked next front)
    (hnodup : (front ++ back).Nodup) {last : P} (hlast : front.getLast? = some last) :
    Linked (point (link next back) last back.head?) (front ++ back)
      ∧ ∀ a, a ∉ front ++ back → point (link next back) last back.head? a = next a := by
  obtain ⟨hfront, hback, hdisjoint⟩ := List.nodup_append.mp hnodup
  have hmem := List.mem_of_getLast? hlast
  have hkeep : ∀ a, a ∉ back → link next back a = next a := by
    intro a ha
    exact link_of_notMem _ fun hmem' => ha (List.dropLast_subset back hmem')
  refine ⟨h.append hfront hlast ?_ (point_self _ _ _) ?_, ?_⟩
  · intro a ha hne
    rw [point_of_ne _ hne]
    exact hkeep a fun ha' => hdisjoint a ha a ha' rfl
  · refine (linked_link next hback).congr ?_
    intro a ha
    have hne : a ≠ last := fun heq =>
      hdisjoint last hmem a (List.dropLast_subset back ha) heq.symm
    exact point_of_ne _ hne _
  · intro a ha
    rw [List.mem_append, not_or] at ha
    have hne : a ≠ last := fun heq => ha.1 (heq ▸ hmem)
    rw [point_of_ne _ hne]
    exact hkeep a ha.2

/-- High priority events go between the high and the low ones of the list, and low
ones behind them to its end. -/
theorem putHighFirst_placed (h : Holds m.next pl l) (hne : l ≠ []) {pe0 : P} {rest : List P}
    (hhigh : m.priority pe0 = .high) (hnodup : (l ++ pe0 :: rest).Nodup) :
    ∃ m' pl', putHighFirst m pl pe0 rest = .ok (m', pl')
      ∧ Placed m m' pl pl' (l ++ pe0 :: rest) (mergeHigh m.priority l (pe0 :: rest)) := by
  have hfind := findLastHigh_ok none pl.firstevent 0 h.linked h.first
  have hmerge := mergeHigh_perm m.priority l (pe0 :: rest)
  have hnodup' := hmerge.nodup_iff.mpr hnodup
  have hsplit := highs_append_lows m.priority l
  unfold mergeHigh at hnodup' hmerge ⊢
  rw [highs_cons_high hhigh, lows_cons_high hhigh] at hnodup' hmerge ⊢
  rw [List.append_assoc (highs m.priority l)] at hnodup' hmerge ⊢
  have hlinked := h.linked
  have hfirst := h.first
  have hlast := h.last hne
  rw [← hsplit] at hlinked hfirst
  have hspliced := linked_splice hlinked hfirst (List.nodup_append.mp hnodup').1
  unfold putHighFirst
  rw [h.cnt, hfind]
  unfold Except.bind
  dsimp only
  rw [Option.or_none]
  -- where the list starts and ends now
  have hstart : (if (highs m.priority l).getLast? = none then some pe0 else pl.firstevent)
      = (highs m.priority l ++ (pe0 :: highs m.priority rest ++ lows m.priority l)).head? := by
    cases hH : highs m.priority l with
    | nil => rfl
    | cons a H =>
        rw [if_neg (by simp), h.first hne]
        conv_lhs => rw [← hsplit, hH]
        rfl
  have hend : (if 0 + (highs m.priority l).length = l.length
        then (pe0 :: highs m.priority rest).getLast? else pl.lastevent)
      = (highs m.priority l ++ (pe0 :: highs m.priority rest ++ lows m.priority l)).getLast? := by
    have hlength := congrArg List.length hsplit
    rw [List.length_append] at hlength
    by_cases hlows : lows m.priority l = []
    · rw [if_pos (by rw [hlows, List.length_nil] at hlength; omega), hlows, List.append_nil,
        List.getLast?_append_of_ne_nil _ (List.cons_ne_nil _ _)]
    · have hpos := List.length_pos_of_ne_nil hlows
      rw [if_neg (by omega), hlast, ← List.append_assoc,
        List.getLast?_append_of_ne_nil _ hlows]
      conv_lhs => rw [← hsplit, List.getLast?_append_of_ne_nil _ hlows]
  have hkeep : ∀ a,
      a ∉ highs m.priority l ++ (pe0 :: highs m.priority rest ++ lows m.priority l) →
      linkBefore ((highs m.priority l).getLast?.elim pl.firstevent m.next)
        (splice m.next pl.firstevent (highs m.priority l).getLast? pe0)
        (pe0 :: highs m.priority rest) a = m.next a := by
    intro a ha
    rw [List.mem_append, List.mem_append, not_or, not_or] at ha
    exact linkBefore_splice_of_notMem ha.2.1 fun heq => ha.1 (List.mem_of_getLast? heq)
  by_cases hrest : lows m.priority rest = []
  · rw [if_pos hrest, hrest, List.append_nil]
    rw [hrest, List.append_nil] at hmerge
    exact ⟨_, _, rfl, hspliced, hstart, hend, h.cnt.symm, rfl, ⟨hkeep, rfl, rfl, rfl, rfl⟩,
      hmerge⟩
  · have hK : highs m.priority l ++ (pe0 :: highs m.priority rest ++ lows m.priority l) ≠ [] := by
      simp
    obtain ⟨last, hlastK⟩ := Option.ne_none_iff_exists'.mp (mt List.getLast?_eq_none_iff.mp hK)
    have hbehind := linked_behind hspliced hnodup' hlastK
    rw [if_neg hrest, hend, hlastK]
    refine ⟨_, _, rfl, hbehind.1, ?_, ?_, h.cnt.symm, rfl, ⟨?_, rfl, rfl, rfl, rfl⟩, hmerge⟩
    · exact hstart.trans (List.head?_append_of_ne_nil _ hK).symm
    · exact (List.getLast?_append_of_ne_nil _ hrest).symm
    · intro a ha
      refine (hbehind.2 a ha).trans (hkeep a ?_)
      exact fun ha' => ha (List.mem_append_left _ ha')

/-- **`et_llist_write`** puts high priority events behind those that are there. -/
theorem et_llist_write_holds (h : Holds m.next pl l) (hpe : pe ≠ []) (hnodup : (l ++ pe).Nodup)
    {nevents : Nat} (hroom : l.length + pe.length ≤ nevents) :
    ∃ m' pl', et_llist_write nevents m pl pe = .ok (m', pl', pe.length)
      ∧ Holds m'.next pl' (mergeHigh m.priority l pe) ∧ OnlyNext (l ++ pe) m m' := by
  cases pe with
  | nil => exact absurd rfl hpe
  | cons pe0 rest =>
      have hplaced : ∃ m' pl', (if m.priority pe0 = .low ∨ pl.cnt = 0 then
            putBehind m pl (pe0 :: rest) else putHighFirst m pl pe0 rest) = .ok (m', pl')
          ∧ Placed m m' pl pl' (l ++ pe0 :: rest) (mergeHigh m.priority l (pe0 :: rest)) := by
        -- all events go to the end, unless the first one has to pass events of low priority
        by_cases hbehind : m.priority pe0 = .low ∨ pl.cnt = 0
        · have hmerge : mergeHigh m.priority l (pe0 :: rest) = l ++ pe0 :: rest := by
            cases hbehind with
            | inl hlow => exact mergeHigh_low l (by rw [hlow]; decide)
            | inr hempty =>
                rw [h.cnt_eq_zero.mp hempty]
                exact mergeHigh_nil m.priority _
          rw [if_pos hbehind, hmerge]
          exact putBehind_placed h hpe hnodup
        · rw [if_neg hbehind]
          rw [not_or, h.cnt_eq_zero] at hbehind
          have hhigh : m.priority pe0 = .high := by
            cases hval : m.priority pe0 with
            | low => exact absurd hval hbehind.1
            | high => rfl
          exact putHighFirst_placed h hbehind.2 hhigh hnodup
      obtain ⟨m', pl', hput, hplaced⟩ := hplaced
      have hcnt : pl.cnt + (rest.length + 1) = (l ++ pe0 :: rest).length := by
        rw [h.cnt, List.length_append, List.length_cons]
      rw [List.length_cons] at hroom
      -- there is room for all of them
      have hall : (pe0 :: rest).take (nevents - pl.cnt) = pe0 :: rest :=
        List.take_of_length_le (by rw [h.cnt, List.length_cons]; omega)
      unfold et_llist_write
      rw [hall]
      dsimp only
      rw [hput]
      exact ⟨_, _, rfl, hplaced.holds rfl hcnt rfl rfl,
        hplaced.same.of_perm (mergeHigh_perm m.priority l _)⟩

/-! ## §5. Restored events. -/

/-- Low priority events put between the high and the low ones of the list, each of
which may be none. -/
theorem insertLows_placed {front back new : List P} {plasthigh pfirstlow : Option P}
    (hlinked : Linked m.next (front ++ back)) (hnew : Linked m.next new) (hne : new ≠ [])
    (hold : front ++ back ≠ []) (hnodup : (front ++ (new ++ back)).Nodup)
    (hfirst : pl.firstevent = (front ++ back).head?)
    (hlast : pl.lastevent = (front ++ back).getLast?)
    (hhigh : plasthigh = front.getLast?) (hlow : pfirstlow = back.head?) :
    ∃ m' pl', insertLows m pl plasthigh pfirstlow new = .ok (m', pl')
      ∧ Placed m m' pl pl' (front ++ (new ++ back)) (front ++ (new ++ back)) := by
  obtain ⟨hfront, hbehind, hdisjoint⟩ := List.nodup_append.mp hnodup
  obtain ⟨hnew', -, hdisjoint'⟩ := List.nodup_append.mp hbehind
  obtain ⟨last, hlastNew⟩ := Option.ne_none_iff_exists'.mp (mt List.getLast?_eq_none_iff.mp hne)
  have hlastMem := List.mem_of_getLast? hlastNew
  unfold insertLows
  cases back with
  | nil =>
      rw [List.append_nil] at hlinked hold hfirst hlast hnodup ⊢
      obtain ⟨plast, hplast⟩ := Option.ne_none_iff_exists'.mp (mt List.getLast?_eq_none_iff.mp hold)
      have hmem := List.mem_of_getLast? hplast
      rw [hlow, hlast, hplast]
      refine ⟨_, _, rfl, ?_, ?_, ?_, rfl, rfl, ⟨?_, rfl, rfl, rfl, rfl⟩, .refl _⟩
      · refine hlinked.append hfront hplast ?_ (point_self _ _ _) (hnew.congr ?_)
        · intro a _ hne'
          exact point_of_ne _ hne' _
        · intro a ha
          have hin := List.dropLast_subset new ha
          exact point_of_ne _ (fun heq => hdisjoint plast hmem a
            (List.mem_append_left _ hin) heq.symm) _
      · exact hfirst.trans (List.head?_append_of_ne_nil _ hold).symm
      · exact (List.getLast?_append_of_ne_nil _ hne).symm
      · intro a ha
        rw [List.mem_append, not_or] at ha
        exact point_of_ne _ (fun heq : a = plast => ha.1 (heq ▸ hmem)) _
  | cons b back =>
      rw [hlow, hhigh, hlastNew]
      dsimp only [List.head?_cons]
      generalize hnext : pointBehind m.next front.getLast? new.head? = next
      -- only the last one of the front was written
      have hsame : ∀ a, front.getLast? ≠ some a → next a = m.next a := by
        intro a ha
        rw [← hnext]
        exact pointBehind_of_ne m.next ha _
      have hpoint : ∀ h, front.getLast? = some h → next h = new.head? := by
        intro h hf
        rw [← hnext, hf]
        exact point_self _ _ _
      have hnotFront : ∀ a ∈ new ++ b :: back, front.getLast? ≠ some a := by
        intro a ha hf
        exact hdisjoint a (List.mem_of_getLast? hf) a ha rfl
      have htail : Linked (point next last (some b)) (new ++ b :: back) := by
        refine hnew.append hnew' hlastNew ?_ (point_self _ _ _) ?_
        · intro a ha hne'
          exact (point_of_ne _ hne' _).trans (hsame a (hnotFront a (List.mem_append_left _ ha)))
        · refine (linked_append.mp hlinked).2.1.congr ?_
          intro a ha
          have hin := List.dropLast_subset _ ha
          exact (point_of_ne _ (fun heq => hdisjoint' last hlastMem a hin heq.symm) _).trans
            (hsame a (hnotFront a (List.mem_append_right _ hin)))
      refine ⟨_, _, rfl, ?_, ?_, ?_, rfl, rfl, ⟨?_, rfl, rfl, rfl, rfl⟩, .refl _⟩
      · cases hf : front.getLast? with
        | none =>
            rw [List.getLast?_eq_none_iff.mp hf]
            exact htail
        | some h =>
            have hneLast : h ≠ last := fun heq => hdisjoint h (List.mem_of_getLast? hf) last
              (List.mem_append_left _ hlastMem) heq
            refine (linked_append.mp hlinked).1.append hfront hf ?_ ?_ htail
            · intro a ha hne'
              have hneLast' : a ≠ last := fun heq => hdisjoint a ha last
                (List.mem_append_left _ hlastMem) heq
              exact (point_of_ne _ hneLast' _).trans
                (hsame a fun heq => hne' (Option.some.inj (heq.symm.trans hf)))
            · rw [List.head?_append_of_ne_nil _ hne]
              exact (point_of_ne _ hneLast _).trans (hpoint h hf)
      · show (if front.getLast? = none then new.head? else pl.firstevent) = _
        cases front with
        | nil => exact (List.head?_append_of_ne_nil _ hne).symm
        | cons a front =>
            rw [if_neg (by simp), hfirst]
            rfl
      · show pl.lastevent = _
        rw [hlast, List.getLast?_append_of_ne_nil _ (List.cons_ne_nil b back),
          ← List.append_assoc, List.getLast?_append_of_ne_nil _ (List.cons_ne_nil b back)]
      · intro a ha
        rw [List.mem_append, List.mem_append, not_or, not_or] at ha
        have hneLast : a ≠ last := fun heq => ha.2.1 (heq ▸ hlastMem)
        exact (point_of_ne next hneLast _).trans
          (hsame a fun hf => ha.1 (List.mem_of_getLast? hf))

/-- Low priority events alone are restored before those of the list. -/
theorem insertLows_restored (h : Holds m.next pl l) (hne : l ≠ []) {pe0 : P} {rest : List P}
    (hlow : m.priority pe0 ≠ .high) (hnodup : (l ++ pe0 :: rest).Nodup) :
    ∃ m' pl', insertLows { m with next := link m.next (pe0 :: rest) } pl
        (highs m.priority l).getLast? (lows m.priority l).head? (pe0 :: rest) = .ok (m', pl')
      ∧ Placed m m' pl pl' (l ++ pe0 :: rest) (mergeHigh m.priority (pe0 :: rest) l) := by
  have hmerge := (mergeHigh_perm m.priority (pe0 :: rest) l).trans List.perm_append_comm
  have hnodup' := hmerge.nodup_iff.mpr hnodup
  have hsplit := highs_append_lows m.priority l
  obtain ⟨-, hpe, hdisjoint⟩ := List.nodup_append.mp hnodup
  unfold mergeHigh at hnodup' hmerge ⊢
  rw [highs_cons_low hlow, lows_cons_low hlow, List.nil_append, List.append_assoc]
    at hnodup' hmerge ⊢
  have hkeep : ∀ a, a ∉ pe0 :: rest → link m.next (pe0 :: rest) a = m.next a := by
    intro a ha
    exact link_of_notMem _ fun hmem => ha (List.dropLast_subset _ hmem)
  have hlinked : Linked (link m.next (pe0 :: rest)) (highs m.priority l ++ lows m.priority l) := by
    rw [hsplit]
    exact h.linked.congr fun a ha => hkeep a fun ha' =>
      hdisjoint a (List.dropLast_subset l ha) a ha' rfl
  obtain ⟨m', pl', hinsert, hplaced⟩ := insertLows_placed
    (m := { m with next := link m.next (pe0 :: rest) }) hlinked (linked_link _ hpe)
    (List.cons_ne_nil pe0 rest) (by rw [hsplit]; exact hne) hnodup'
    (by rw [hsplit]; exact h.first hne) (by rw [hsplit]; exact h.last hne) rfl rfl
  refine ⟨m', pl', hinsert, { hplaced with same := ?_, perm := hmerge }⟩
  refine { hplaced.same with next := ?_ }
  intro a ha
  refine (hplaced.same.next a ha).trans (hkeep a ?_)
  exact fun ha' => ha (List.mem_append_right _ (List.mem_append_left _ ha'))

/-- High priority events are restored at the front of the list, and low ones
behind them before its low ones. -/
theorem insertHighs_restored (h : Holds m.next pl l) (hne : l ≠ []) {pe0 : P} {rest : List P}
    (hhigh : m.priority pe0 = .high) (hnodup : (l ++ pe0 :: rest).Nodup) :
    ∃ m' pl', insertHighs m pl (highs m.priority l).getLast? (lows m.priority l).head? pe0 rest
        = .ok (m', pl')
      ∧ Placed m m' pl pl' (l ++ pe0 :: rest) (mergeHigh m.priority (pe0 :: rest) l) := by
  have hmerge := (mergeHigh_perm m.priority (pe0 :: rest) l).trans List.perm_append_comm
  have hnodup' := hmerge.nodup_iff.mpr hnodup
  have hsplit := highs_append_lows m.priority l
  unfold mergeHigh at hnodup' hmerge ⊢
  rw [highs_cons_high hhigh, lows_cons_high hhigh, List.append_assoc _ (lows m.priority rest)]
    at hnodup' hmerge ⊢
  obtain ⟨-, hbehind, hapart⟩ := List.nodup_append.mp hnodup'
  obtain ⟨hrestNodup, -, hapart'⟩ := List.nodup_append.mp hbehind
  have hall : pe0 :: highs m.priority rest ++ highs m.priority l ++ lows m.priority l
      = pe0 :: highs m.priority rest ++ l := by
    rw [List.append_assoc, hsplit]
  -- the high priority events alone
  have hnodupNew : ([] ++ (pe0 :: highs m.priority rest ++ l)).Nodup := by
    have hsublist : (pe0 :: highs m.priority rest ++ highs m.priority l
          ++ lows m.priority l).Sublist (pe0 :: highs m.priority rest ++ highs m.priority l
          ++ (lows m.priority rest ++ lows m.priority l)) :=
      (List.sublist_append_right _ _).append_left _
    rw [List.nil_append, ← hall]
    exact hnodup'.sublist hsublist
  have hold : Linked m.next ([] ++ l) := h.linked
  have hfirst : [] ++ l ≠ [] → pl.firstevent = ([] ++ l).head? := h.first
  have hspliced := linked_splice hold hfirst hnodupNew
  have hkeep : ∀ a, a ∉ pe0 :: highs m.priority rest →
      linkBefore pl.firstevent (point m.next pe0 pl.firstevent)
        (pe0 :: highs m.priority rest) a = m.next a := by
    intro a ha
    have hnone : none ≠ some a := nofun
    exact linkBefore_splice_of_notMem ha hnone
  unfold insertHighs
  by_cases hrest : lows m.priority rest = []
  · dsimp only
    rw [if_pos hrest]
    rw [hrest, List.nil_append, hall] at hmerge ⊢
    refine ⟨_, _, rfl, hspliced, rfl, ?_, rfl, rfl, ⟨?_, rfl, rfl, rfl, rfl⟩, hmerge⟩
    · exact (h.last hne).trans (List.getLast?_append_of_ne_nil _ hne).symm
    · intro a ha
      exact hkeep a fun ha' => ha (List.mem_append_left _ ha')
  · have hkeepLink : ∀ next : P → Option P, ∀ a, a ∉ lows m.priority rest →
        link next (lows m.priority rest) a = next a := by
      intro next a ha
      exact link_of_notMem _ fun hmem => ha (List.dropLast_subset _ hmem)
    have hlinked : Linked (link (linkBefore pl.firstevent (point m.next pe0 pl.firstevent)
          (pe0 :: highs m.priority rest)) (lows m.priority rest))
        (pe0 :: highs m.priority rest ++ highs m.priority l ++ lows m.priority l) := by
      rw [hall]
      refine Linked.congr hspliced ?_
      intro a ha
      refine hkeepLink _ a ?_
      intro hmem
      have hin := List.dropLast_subset _ ha
      rw [← hall] at hin
      cases List.mem_append.mp hin with
      | inl hfront => exact hapart a hfront a (List.mem_append_left _ hmem) rfl
      | inr hback => exact hapart' a hmem a hback rfl
    have hplasthigh : (if (highs m.priority l).getLast? = none
          then (pe0 :: highs m.priority rest).getLast? else (highs m.priority l).getLast?)
        = (pe0 :: highs m.priority rest ++ highs m.priority l).getLast? := by
      by_cases hnone : highs m.priority l = []
      · rw [hnone, List.append_nil]
        rfl
      · rw [if_neg (mt List.getLast?_eq_none_iff.mp hnone),
          List.getLast?_append_of_ne_nil _ hnone]
    dsimp only
    rw [if_neg hrest, hplasthigh]
    have hlast : ({ pl with firstevent := some pe0 } : EtList P).lastevent
        = (pe0 :: highs m.priority rest ++ highs m.priority l ++ lows m.priority l).getLast? := by
      rw [hall, List.getLast?_append_of_ne_nil _ hne]
      exact h.last hne
    obtain ⟨m', pl', hinsert, hplaced⟩ := insertLows_placed
      (m := { m with next := link (linkBefore pl.firstevent (point m.next pe0 pl.firstevent)
        (pe0 :: highs m.priority rest)) (lows m.priority rest) })
      hlinked (linked_link _ hrestNodup) hrest (by simp) hnodup' rfl hlast rfl rfl
    refine ⟨m', pl', hinsert, { hplaced with same := ?_, perm := hmerge }⟩
    refine { hplaced.same with next := ?_ }
    intro a ha
    have hnew : a ∉ pe0 :: highs m.priority rest := fun ha' =>
      ha (List.mem_append_left _ (List.mem_append_left _ ha'))
    have hlow' : a ∉ lows m.priority rest := fun ha' =>
      ha (List.mem_append_right _ (List.mem_append_left _ ha'))
    exact (hplaced.same.next a ha).trans ((hkeepLink _ a hlow').trans (hkeep a hnew))

/-- Restored events go before those of their priority, whichever they are. -/
theorem insertFirst_placed (h : Holds m.next pl l) (hne : l ≠ []) {pe0 : P} {rest : List P}
    (hnodup : (l ++ pe0 :: rest).Nodup) :
    ∃ m' pl', insertFirst m pl pe0 rest = .ok (m', pl')
      ∧ Placed m m' pl pl' (l ++ pe0 :: rest) (mergeHigh m.priority (pe0 :: rest) l) := by
  have hfind := findLastHigh_ok none pl.firstevent 0 h.linked h.first
  have hlength := congrArg List.length (highs_append_lows m.priority l)
  rw [List.length_append] at hlength
  have hpfirstlow : (if 0 + (highs m.priority l).length = pl.cnt then none
      else (highs m.priority l).getLast?.elim pl.firstevent m.next)
      = (lows m.priority l).head? := by
    rw [h.cnt]
    by_cases hlows : lows m.priority l = []
    · rw [if_pos (by rw [hlows, List.length_nil] at hlength; omega), hlows]
      rfl
    · have hpos := List.length_pos_of_ne_nil hlows
      rw [if_neg (by omega), h.first hne]
      exact elim_getLast_highs h.linked hlows
  rw [← h.cnt] at hfind
  unfold insertFirst
  rw [hfind]
  unfold Except.bind
  dsimp only
  rw [Option.or_none, hpfirstlow]
  cases hval : m.priority pe0 with
  | low =>
      rw [if_pos rfl]
      exact insertLows_restored h hne (by rw [hval]; decide) hnodup
  | high =>
      rw [if_neg (by decide)]
      exact insertHighs_restored h hne hval hnodup

/-- **`et_restore`** puts the events before those of their priority. -/
theorem et_restore_holds (h : Holds m.next pl l) (hpe : pe ≠ []) (hnodup : (l ++ pe).Nodup)
    {nevents : Nat} (hroom : l.length + pe.length ≤ nevents) :
    ∃ m' pl', et_restore nevents m pl pe = .ok (m', pl', pe.length)
      ∧ Holds m'.next pl' (mergeHigh m.priority pe l) ∧ OnlyNext (l ++ pe) (m.own pe none) m'
      ∧ pl'.lasthigh = pl.lasthigh := by
  cases pe with
  | nil => exact absurd rfl hpe
  | cons pe0 rest =>
      have hmerge := (mergeHigh_perm m.priority (pe0 :: rest) l).trans List.perm_append_comm
      have howned : Holds (m.own (pe0 :: rest) none).next pl l := h
      have hplaced : ∃ m' pl', (if pl.cnt = 0 then
            putBehind (m.own (pe0 :: rest) none) pl (pe0 :: rest)
            else insertFirst (m.own (pe0 :: rest) none) pl pe0 rest) = .ok (m', pl')
          ∧ Placed (m.own (pe0 :: rest) none) m' pl pl' (l ++ pe0 :: rest)
            (mergeHigh m.priority (pe0 :: rest) l) := by
        -- into an empty list the events go as they are
        by_cases hempty : pl.cnt = 0
        · have hnil := h.cnt_eq_zero.mp hempty
          have hmergeNil : mergeHigh m.priority (pe0 :: rest) [] = [] ++ pe0 :: rest := by
            show highs m.priority _ ++ [] ++ lows m.priority _ ++ [] = _
            rw [List.append_nil, List.append_nil, highs_append_lows, List.nil_append]
          rw [if_pos hempty, hnil, hmergeNil]
          rw [hnil] at howned hnodup
          exact putBehind_placed howned hpe hnodup
        · rw [if_neg hempty]
          exact insertFirst_placed howned (mt h.cnt_eq_zero.mpr hempty) hnodup
      obtain ⟨m', pl', hput, hplaced⟩ := hplaced
      have hcnt : pl.cnt + (rest.length + 1) = (l ++ pe0 :: rest).length := by
        rw [h.cnt, List.length_append, List.length_cons]
      rw [List.length_cons] at hroom
      -- there is room for all of them
      have hall : (pe0 :: rest).take (nevents - pl.cnt) = pe0 :: rest :=
        List.take_of_length_le (by rw [h.cnt, List.length_cons]; omega)
      unfold et_restore
      rw [if_neg (by rw [h.cnt]; omega), hall]
      dsimp only
      rw [hput]
      exact ⟨_, _, rfl, hplaced.holds rfl hcnt rfl rfl, hplaced.same.of_perm hmerge,
        hplaced.lasthigh⟩

/-! ## §6. Writing to an output list. -/

/-- High priority events behind the first `k`, and the others behind all. -/
def mergeAt (priority : P → Priority) (k : Nat) (l pe : List P) : List P :=
  l.take k ++ pe.filter (priority · = .high) ++ (l.drop k ++ pe.filter (priority · ≠ .high))

/-- What the variables of `et_station_nwrite` are in its loop: `front` are the
high priority events that it knows of. -/
structure Writes (w : Writing P) (front back : List P) : Prop where
  holds : Holds w.m.next w.pl (front ++ back)
  ne : front ++ back ≠ []
  lasthigh : w.pl.lasthigh = front.length
  pe_lasthigh : w.pe_lasthigh = front.getLast?
  pe_last : w.pe_last = (front ++ back).getLast?

variable {w : Writing P} {front back : List P}

/-- A turn of the loop with a low priority event puts it at the end. -/
theorem put_low (h : Writes w front back) {p : P} (hlow : w.m.priority p = .low)
    (hnodup : (front ++ (back ++ [p])).Nodup) :
    ∃ w', w.put p = .ok w' ∧ Writes w' front (back ++ [p])
      ∧ OnlyNext (front ++ (back ++ [p])) (w.m.own [p] none) w'.m := by
  rw [← List.append_assoc] at hnodup ⊢
  obtain ⟨last, hlast⟩ := Option.ne_none_iff_exists'.mp (mt List.getLast?_eq_none_iff.mp h.ne)
  have hmem := List.mem_of_getLast? hlast
  obtain ⟨hlinked, hkeep⟩ := linked_behind h.holds.linked hnodup hlast
  unfold Writing.put
  dsimp only
  rw [if_pos hlow, h.pe_last, hlast]
  refine ⟨_, rfl, ⟨⟨?_, ?_, ?_, ?_⟩, ?_, h.lasthigh, h.pe_lasthigh, ?_⟩,
    ⟨hkeep, rfl, rfl, rfl, rfl⟩⟩
  · show w.pl.cnt + 1 = _
    have hlength := @List.length_append P (front ++ back) [p]
    rw [h.holds.cnt, ← List.append_assoc, hlength]
    rfl
  · rw [← List.append_assoc]
    exact hlinked
  · intro _
    rw [← List.append_assoc, List.head?_append_of_ne_nil _ h.ne]
    exact h.holds.first h.ne
  · intro _
    rw [← List.append_assoc, List.getLast?_append_of_ne_nil _ (List.cons_ne_nil p [])]
    rfl
  · simp
  · rw [← List.append_assoc, List.getLast?_append_of_ne_nil _ (List.cons_ne_nil p [])]
    rfl

/-- A turn of the loop with a high priority event puts it behind those that the
loop knows of. -/
theorem put_high (h : Writes w front back) {p : P} (hhigh : w.m.priority p ≠ .low)
    (hnodup : (front ++ ([p] ++ back)).Nodup) :
    ∃ w', w.put p = .ok w' ∧ Writes w' (front ++ [p]) back
      ∧ OnlyNext (front ++ ([p] ++ back)) (w.m.own [p] none) w'.m := by
  have hspliced := linked_splice h.holds.linked h.holds.first hnodup
  have hkeep : ∀ a, a ∉ front ++ ([p] ++ back) →
      splice w.m.next w.pl.firstevent front.getLast? p a = w.m.next a := by
    intro a ha
    rw [List.mem_append, List.mem_append, not_or, not_or] at ha
    exact splice_of_ne _ _ (fun heq => ha.2.1 (heq ▸ List.mem_cons_self)) fun hf =>
      ha.1 (List.mem_of_getLast? hf)
  have hcnt : w.pl.cnt + 1 = (front ++ [p] ++ back).length := by
    rw [h.holds.cnt, List.length_append, List.length_append, List.length_append]
    show _ = front.length + 1 + _
    omega
  have hlasthigh : w.pl.lasthigh + 1 = (front ++ [p]).length := by
    rw [h.lasthigh, List.length_append]
    rfl
  rw [← List.append_assoc] at hspliced
  unfold Writing.put
  dsimp only
  rw [if_neg hhigh, h.pe_lasthigh, h.pe_last]
  cases hf : front.getLast? with
  | none =>
      -- no high priority event is known
      obtain rfl := List.getLast?_eq_none_iff.mp hf
      have hne : back ≠ [] := h.ne
      refine ⟨_, rfl, ⟨⟨hcnt, hspliced, fun _ => rfl, ?_⟩, by simp, hlasthigh, rfl, ?_⟩,
        ⟨hkeep, rfl, rfl, rfl, rfl⟩⟩
      · intro _
        exact (h.holds.last hne).trans (List.getLast?_append_of_ne_nil _ hne).symm
      · show ([] ++ back).getLast? = ([p] ++ back).getLast?
        exact (List.getLast?_append_of_ne_nil _ hne).symm
  | some last =>
      have hmem := List.mem_of_getLast? hf
      dsimp only
      rw [hf] at hspliced hkeep
      by_cases hback : back = []
      · -- all events are of high priority
        subst hback
        rw [List.append_nil, hf, if_pos rfl]
        rw [List.append_nil] at hnodup
        have hfront := h.holds.linked
        rw [List.append_nil] at hfront
        obtain ⟨hlinked, hkeep'⟩ := linked_behind hfront hnodup hf
        refine ⟨_, rfl, ⟨⟨hcnt, ?_, ?_, ?_⟩, by simp, hlasthigh, ?_, ?_⟩,
          ⟨?_, rfl, rfl, rfl, rfl⟩⟩
        · rw [List.append_nil]
          exact hlinked
        · intro _
          have hfirst := h.holds.first h.ne
          rw [List.append_nil] at hfirst ⊢
          rw [List.head?_append_of_ne_nil _ (List.ne_nil_of_mem hmem)]
          exact hfirst
        · intro _
          rw [List.append_nil, List.getLast?_append_of_ne_nil _ (List.cons_ne_nil p [])]
          rfl
        · rw [List.getLast?_append_of_ne_nil _ (List.cons_ne_nil p [])]
          rfl
        · rw [List.append_nil, List.getLast?_append_of_ne_nil _ (List.cons_ne_nil p [])]
          rfl
        · rw [List.append_nil]
          exact hkeep'
      · have hdiffer : some last ≠ (front ++ back).getLast? := by
          rw [List.getLast?_append_of_ne_nil _ hback]
          intro heq
          have hin := List.mem_of_getLast? heq.symm
          exact (List.nodup_append.mp hnodup).2.2 last hmem last (List.mem_append_right _ hin) rfl
        rw [if_neg hdiffer]
        refine ⟨_, rfl, ⟨⟨hcnt, hspliced, ?_, ?_⟩, by simp, hlasthigh, ?_, ?_⟩,
          ⟨hkeep, rfl, rfl, rfl, rfl⟩⟩
        · intro _
          have hfirst := h.holds.first h.ne
          rw [List.head?_append_of_ne_nil _ (List.ne_nil_of_mem hmem)] at hfirst
          rw [List.append_assoc, List.head?_append_of_ne_nil _ (List.ne_nil_of_mem hmem)]
          exact hfirst
        · intro _
          rw [List.getLast?_append_of_ne_nil _ hback]
          have hlast := h.holds.last h.ne
          rw [List.getLast?_append_of_ne_nil _ hback] at hlast
          exact hlast.trans (List.getLast?_append_of_ne_nil _ hback).symm
        · rw [List.getLast?_append_of_ne_nil _ (List.cons_ne_nil p [])]
          rfl
        · rw [List.getLast?_append_of_ne_nil _ hback, List.getLast?_append_of_ne_nil _ hback]

/-- Events taken over in two parts are taken over together. -/
theorem own_append (m : Events P) (pe pe' : List P) (owner : Option Nat) :
    (m.own pe owner).own pe' owner = m.own (pe ++ pe') owner := by
  unfold Events.own
  congr 1
  funext p
  simp only [List.mem_append]
  by_cases hp : p ∈ pe' <;> by_cases hp' : p ∈ pe <;> simp [hp, hp']

/-- What is taken over first does not matter to the pointers that are
written then. -/
theorem OnlyNext.own {cells : List P} {m m' : Events P} (h : OnlyNext cells m m') (pe : List P)
    (owner : Option Nat) : OnlyNext cells (m.own pe owner) (m'.own pe owner) where
  next := h.next
  priority := h.priority
  owner := by
    unfold Events.own
    rw [h.owner]
  group := h.group
  age := h.age

/-- The loop of `et_station_nwrite`, by induction over the events: each goes
behind those of its priority. -/
theorem foldlM_put (pe : List P) :
    ∀ (w : Writing P) (front back : List P), Writes w front back →
      (front ++ back ++ pe).Nodup →
      ∃ w', pe.foldlM Writing.put w = .ok w'
        ∧ Writes w' (front ++ pe.filter (w.m.priority · = .high))
          (back ++ pe.filter (w.m.priority · ≠ .high))
        ∧ OnlyNext (front ++ back ++ pe) (w.m.own pe none) w'.m := by
  induction pe with
  | nil =>
      intro w front back h _
      rw [List.filter_nil, List.filter_nil, List.append_nil, List.append_nil, List.append_nil]
      refine ⟨w, rfl, h, fun _ _ => rfl, rfl, ?_, rfl, rfl⟩
      unfold Events.own
      simp
  | cons p pe ih =>
      intro w front back h hnodup
      -- one event goes behind the high or behind the low ones, and the filters of the rest say
      -- the same with it in front
      have hput : ∃ w' front' back', w.put p = .ok w' ∧ Writes w' front' back'
          ∧ (front' ++ back').Perm (front ++ back ++ [p])
          ∧ front' ++ pe.filter (w.m.priority · = .high)
            = front ++ (p :: pe).filter (w.m.priority · = .high)
          ∧ back' ++ pe.filter (w.m.priority · ≠ .high)
            = back ++ (p :: pe).filter (w.m.priority · ≠ .high)
          ∧ OnlyNext (front' ++ back') (w.m.own [p] none) w'.m := by
        have hone : (front ++ back ++ [p]).Nodup :=
          hnodup.sublist ((List.singleton_sublist.mpr List.mem_cons_self).append_left _)
        -- with low priority it goes to the end
        by_cases hlow : w.m.priority p = .low
        · rw [List.append_assoc] at hone
          obtain ⟨w', hw', hwrites, hsame⟩ := put_low h hlow hone
          refine ⟨w', front, back ++ [p], hw', hwrites, ?_, ?_, ?_, hsame⟩
          · rw [List.append_assoc]
          · rw [List.filter_cons_of_neg (by simp [hlow])]
          · rw [List.filter_cons_of_pos (by simp [hlow]), List.append_assoc]
            rfl
        · have hhigh : w.m.priority p = .high := by
            cases hval : w.m.priority p with
            | low => exact absurd hval hlow
            | high => rfl
          -- with high priority it goes between `front` and `back`
          have hperm : (front ++ ([p] ++ back)).Perm (front ++ back ++ [p]) := by
            rw [List.append_assoc]
            exact List.perm_append_comm.append_left _
          obtain ⟨w', hw', hwrites, hsame⟩ := put_high h hlow (hperm.nodup_iff.mpr hone)
          rw [← List.append_assoc] at hsame hperm
          refine ⟨w', front ++ [p], back, hw', hwrites, hperm, ?_, ?_, hsame⟩
          · rw [List.filter_cons_of_pos (by simp [hhigh]), List.append_assoc]
            rfl
          · rw [List.filter_cons_of_neg (by simp [hhigh])]
      obtain ⟨w', front', back', hw', hwrites, hperm, hfront, hback, hsame⟩ := hput
      -- the events written and to be written are the same ones as before
      have hcells : (front' ++ back' ++ pe).Perm (front ++ back ++ p :: pe) := by
        have hmore := hperm.append_right pe
        rw [List.append_assoc _ [p]] at hmore
        exact hmore
      obtain ⟨w'', hw'', hwrites', hsame'⟩ := ih w' front' back' hwrites
        (hcells.nodup_iff.mpr hnodup)
      have hpriority : w'.m.priority = w.m.priority := hsame.priority
      rw [hpriority, hfront, hback] at hwrites'
      refine ⟨w'', ?_, hwrites', ?_⟩
      · show (w.put p).bind (fun w => pe.foldlM Writing.put w) = _
        rw [hw']
        exact hw''
      · have hall := (hsame.own pe none).trans hsame' fun a ha => List.mem_append_left _ ha
        rw [own_append] at hall
        exact hall.of_perm hcells

/-- Before the loop the variables are set from the list; in an empty one the first
event is put already. -/
theorem startWriting_ok (h : Holds m.next pl l) (hlasthigh : pl.lasthigh ≤ l.length) (pe0 : P)
    (rest : List P) :
    ∃ w taken rest' front back, startWriting m pl pe0 rest = .ok (w, rest')
      ∧ Writes w front back ∧ w.m = m.own taken none ∧ pe0 :: rest = taken ++ rest'
      ∧ (front ++ back).Perm (l ++ taken)
      ∧ front ++ rest'.filter (m.priority · = .high)
        = l.take pl.lasthigh ++ (pe0 :: rest).filter (m.priority · = .high)
      ∧ back ++ rest'.filter (m.priority · ≠ .high)
        = l.drop pl.lasthigh ++ (pe0 :: rest).filter (m.priority · ≠ .high)
      ∧ front.length + (rest'.filter (m.priority · = .high)).length
        = pl.lasthigh + ((pe0 :: rest).filter (m.priority · = .high)).length := by
  have hnone : m.own [] none = m := by
    unfold Events.own
    simp
  unfold startWriting
  -- the first event makes the list when there is none, and none is taken otherwise
  by_cases hempty : pl.cnt = 0
  · obtain rfl := h.cnt_eq_zero.mp hempty
    have hzero : pl.lasthigh = 0 := Nat.le_zero.mp hlasthigh
    rw [if_pos hempty, hzero]
    -- it is the last of the high ones, or the first of the low ones
    by_cases hhigh : m.priority pe0 = .high
    · rw [if_pos hhigh]
      refine ⟨_, [pe0], rest, [pe0], [], rfl, ⟨⟨rfl, List.IsChain.singleton pe0, fun _ => rfl,
        fun _ => rfl⟩, by simp, rfl, rfl, rfl⟩, rfl, rfl, .refl _, ?_, ?_, ?_⟩
      · rw [List.filter_cons_of_pos (by simp [hhigh])]
        rfl
      · rw [List.filter_cons_of_neg (by simp [hhigh])]
        rfl
      · rw [List.filter_cons_of_pos (by simp [hhigh])]
        show 0 + 1 + _ = 0 + (_ + 1)
        omega
    · rw [if_neg hhigh]
      refine ⟨_, [pe0], rest, [], [pe0], rfl, ⟨⟨rfl, List.IsChain.singleton pe0, fun _ => rfl,
        fun _ => rfl⟩, by simp, rfl, rfl, rfl⟩, rfl, rfl, .refl _, ?_, ?_, ?_⟩
      · rw [List.filter_cons_of_neg (by simp [hhigh])]
        rfl
      · rw [List.filter_cons_of_pos (by simp [hhigh])]
        rfl
      · rw [List.filter_cons_of_neg (by simp [hhigh])]
        rfl
  · -- the loop begins behind the `lasthigh` events at the front
    have hne := mt h.cnt_eq_zero.mpr hempty
    rw [if_neg hempty, follow_of_linked h.linked h.first hlasthigh]
    refine ⟨_, [], pe0 :: rest, l.take pl.lasthigh, l.drop pl.lasthigh, rfl, ⟨?_, ?_, ?_, rfl, ?_⟩,
      hnone.symm, rfl, ?_, rfl, rfl, ?_⟩
    · rw [List.take_append_drop]
      exact h
    · rw [List.take_append_drop]
      exact hne
    · rw [List.length_take]
      exact (Nat.min_eq_left hlasthigh).symm
    · rw [List.take_append_drop]
      exact h.last hne
    · rw [List.take_append_drop, List.append_nil]
    · rw [List.length_take, Nat.min_eq_left hlasthigh]

/-- **`et_station_nwrite`** puts high priority events behind those it knows of. -/
theorem et_station_nwrite_holds (h : Holds m.next pl l) (hlasthigh : pl.lasthigh ≤ l.length)
    (hnodup : (l ++ pe).Nodup) {nevents : Nat} (hroom : l.length + pe.length ≤ nevents) :
    ∃ m' pl', et_station_nwrite nevents m pl pe = .ok (m', pl')
      ∧ Holds m'.next pl' (mergeAt m.priority pl.lasthigh l pe)
      ∧ pl'.lasthigh = pl.lasthigh + (pe.filter (m.priority · = .high)).length
      ∧ OnlyNext (l ++ pe) (m.own pe none) m' := by
  cases pe with
  | nil =>
      have hsame : mergeAt m.priority pl.lasthigh l [] = l := by
        unfold mergeAt
        rw [List.filter_nil, List.filter_nil, List.append_nil, List.append_nil,
          List.take_append_drop]
      rw [hsame]
      refine ⟨m, pl, rfl, h, rfl, fun _ _ => rfl, rfl, ?_, rfl, rfl⟩
      unfold Events.own
      simp
  | cons pe0 rest =>
      -- the writing starts, and its loop is one `put` for each event that is left
      obtain ⟨w, taken, rest', front, back, hstart, hwrites, hw, hpe, hperm, hfront, hback,
        hcount⟩ :=
        startWriting_ok h hlasthigh pe0 rest
      have hcells : (front ++ back ++ rest').Perm (l ++ pe0 :: rest) := by
        rw [hpe, ← List.append_assoc]
        exact hperm.append_right rest'
      obtain ⟨w', hfold, hwrites', hsame⟩ := foldlM_put rest' w front back hwrites
        (hcells.nodup_iff.mpr hnodup)
      have hpriority : w.m.priority = m.priority := by
        rw [hw]
        rfl
      rw [hw, own_append, ← hpe] at hsame
      rw [hpriority] at hwrites'
      -- `lasthigh` counts what is in front of the low ones
      have hlength := hwrites'.lasthigh
      rw [List.length_append, hcount] at hlength
      rw [List.length_cons] at hroom
      rw [et_station_nwrite, if_neg (by rw [h.cnt]; omega), hstart]
      refine ⟨w'.m, w'.pl, ?_, ?_, hlength, hsame.of_perm hcells⟩
      · show Except.map _ (rest'.foldlM Writing.put w) = _
        rw [hfold]
        rfl
      · have hholds := hwrites'.holds
        rw [hfront, hback] at hholds
        exact hholds

/-! ## §7. One event. -/

/-- **`et_station_write`** is `et_station_nwrite` of one event. -/
theorem et_station_write_eq (h : Holds m.next pl l) (hlasthigh : pl.lasthigh ≤ l.length)
    (nevents : Nat) (p : P) :
    et_station_write nevents m pl p = et_station_nwrite nevents m pl [p] := by
  rw [et_station_nwrite]
  unfold et_station_write
  by_cases hfull : nevents ≤ pl.cnt
  · have hroom : nevents - pl.cnt < ([] : List P).length + 1 := by
      rw [List.length_nil]
      omega
    rw [if_pos hfull, if_pos hroom]
  · have hroom : ¬ nevents - pl.cnt < ([] : List P).length + 1 := by
      rw [List.length_nil]
      omega
    rw [if_neg hfull, if_neg hroom]
    unfold startWriting
    -- both make the list from the one event
    by_cases hempty : pl.cnt = 0
    · rw [if_pos hempty, if_pos hempty, hempty]
      by_cases hhigh : m.priority p = .high
      · rw [if_pos hhigh, if_pos hhigh]
        rfl
      · rw [if_neg hhigh, if_neg hhigh]
        rfl
    · rw [if_neg hempty, if_neg hempty, follow_of_linked h.linked h.first hlasthigh]
      -- both have walked to the last high one, and put the event behind it or at the end
      show _ = Except.map _ ((Writing.put _ p).bind fun w => .ok w)
      unfold Writing.put
      dsimp only
      by_cases hlow : m.priority p = .low
      · rw [if_pos hlow, if_pos hlow]
        cases pl.lastevent with
        | none => rfl
        | some last => rfl
      · rw [if_neg hlow, if_neg hlow]
        cases (l.take pl.lasthigh).getLast? with
        | none => rfl
        | some last =>
            dsimp only
            -- behind the last high one stands a low one, or nothing
            by_cases hall : pl.lastevent = some last
            · rw [if_pos hall, if_pos hall.symm]
              rfl
            · rw [if_neg hall, if_neg (Ne.symm hall)]
              rfl

/-- **`et_station_read`** is `et_station_nread` of one event. -/
theorem et_station_read_eq (m : Events P) (pl : EtList P) (att : Nat) :
    (et_station_read m pl att).map (fun read => ([read.1], read.2))
      = et_station_nread m pl att 1 := by
  unfold et_station_read et_station_nread
  rw [if_neg (Nat.lt_irrefl 1)]
  by_cases hempty : pl.cnt < 1
  · rw [if_pos hempty, if_pos hempty]
    rfl
  · rw [if_neg hempty, if_neg hempty]
    dsimp only
    rw [Nat.min_eq_left (by omega)]
    cases pl.firstevent with
    | none => rfl
    | some p => rfl

/-- **`et_station_dump`** is `et_station_ndump` of one event, but for the count
of events that came in, which only the former keeps. -/
theorem et_station_dump_eq (nevents : Nat) (m : Events P) (pl : EtList P) (p : P) :
    et_station_dump nevents m pl p
      = (et_station_ndump nevents m pl [p]).map fun dumped =>
          (dumped.1, { dumped.2 with events_in := pl.events_in + 1 }) := by
  unfold et_station_dump et_station_ndump
  rw [if_neg (List.cons_ne_nil p []), List.length_singleton]
  by_cases hfull : nevents ≤ pl.cnt
  · rw [if_pos hfull, if_pos (by omega)]
    rfl
  · rw [if_neg hfull, if_neg (by omega)]
    cases putBehind m pl [p] with
    | error failure => rfl
    | ok put => rfl

/-- Three events, of which 0 and 2 are of group 5. -/
def threeEvents : Events (Fin 3) where
  next p := if p = 0 then some 1 else if p = 1 then some 2 else none
  priority _ := .low
  owner _ := none
  group p := if p = 1 then 4 else 5
  age _ := .new

/-- The three events are a list, in the order of their numbers. -/
theorem threeEvents_holds : Holds threeEvents.next ⟨3, 0, 3, 0, some 0, some 2⟩ [0, 1, 2] where
  cnt := rfl
  linked := by
    unfold Linked
    decide
  first := fun _ => rfl
  last := fun _ => rfl

/-- **One event instead of several**: the functions for one event do to a list
what those for several do with one, but for the count of dumped events. -/
theorem one_event (h : Holds m.next pl l) (hlasthigh : pl.lasthigh ≤ l.length) (nevents att : Nat)
    (p : P) :
    et_station_write nevents m pl p = et_station_nwrite nevents m pl [p]
      ∧ (et_station_read m pl att).map (fun read => ([read.1], read.2))
        = et_station_nread m pl att 1
      ∧ et_station_dump nevents m pl p
        = (et_station_ndump nevents m pl [p]).map fun dumped =>
            (dumped.1, { dumped.2 with events_in := pl.events_in + 1 }) :=
  ⟨et_station_write_eq h hlasthigh nevents p, et_station_read_eq m pl att,
    et_station_dump_eq nevents m pl p⟩

/-- In a list of three events, of which one is written, read or dumped. -/
theorem one_event_three :
    et_station_write 4 threeEvents ⟨3, 0, 3, 0, some 0, some 2⟩ 1
        = et_station_nwrite 4 threeEvents ⟨3, 0, 3, 0, some 0, some 2⟩ [1]
      ∧ (et_station_read threeEvents ⟨3, 0, 3, 0, some 0, some 2⟩ 7).map
          (fun read => ([read.1], read.2))
        = et_station_nread threeEvents ⟨3, 0, 3, 0, some 0, some 2⟩ 7 1
      ∧ et_station_dump 4 threeEvents ⟨3, 0, 3, 0, some 0, some 2⟩ 1
        = (et_station_ndump 4 threeEvents ⟨3, 0, 3, 0, some 0, some 2⟩ [1]).map fun dumped =>
            (dumped.1, { dumped.2 with events_in := 3 + 1 }) :=
  one_event threeEvents_holds (by decide) 4 7 1

/-! ## §8. Events of a group. -/

omit [DecidableEq P] in
/-- The first `num` events of a group, and the others. -/
def takeGroup (groupOf : P → Int) (group : Int) : Nat → List P → List P × List P
  | _, [] => ([], [])
  | num, p :: l =>
      if groupOf p ≠ group then
        ((takeGroup groupOf group num l).1, p :: (takeGroup groupOf group num l).2)
      else if num - 1 = 0 then ([p], l)
      else
        (p :: (takeGroup groupOf group (num - 1) l).1, (takeGroup groupOf group (num - 1) l).2)

omit [DecidableEq P] in
/-- The events taken and those left are the list. -/
theorem takeGroup_perm (groupOf : P → Int) (group : Int) (num : Nat) (l : List P) :
    ((takeGroup groupOf group num l).1 ++ (takeGroup groupOf group num l).2).Perm l := by
  induction l generalizing num with
  | nil => exact List.Perm.refl []
  | cons p l ih =>
      unfold takeGroup
      split
      · exact List.perm_middle.trans ((ih num).cons p)
      · split
        · exact List.Perm.refl _
        · exact (ih (num - 1)).cons p

omit [DecidableEq P] in
/-- What is left of the list keeps its order. -/
theorem takeGroup_sublist (groupOf : P → Int) (group : Int) (num : Nat) (l : List P) :
    (takeGroup groupOf group num l).2.Sublist l := by
  induction l generalizing num with
  | nil => exact List.Sublist.refl []
  | cons p l ih =>
      unfold takeGroup
      split
      · exact (ih num).cons_cons p
      · split
        · exact List.sublist_cons_self p l
        · exact (ih (num - 1)).cons p

omit [DecidableEq P] in
/-- Taken are the first ones of the group, as many as are wanted. -/
theorem takeGroup_taken (groupOf : P → Int) (group : Int) {num : Nat} (hnum : 1 ≤ num)
    (l : List P) :
    (takeGroup groupOf group num l).1 = (l.filter (groupOf · = group)).take num := by
  induction l generalizing num with
  | nil => simp [takeGroup]
  | cons p l ih =>
      obtain ⟨n, rfl⟩ := Nat.exists_eq_succ_of_ne_zero (Nat.ne_of_gt hnum)
      unfold takeGroup
      by_cases hgroup : groupOf p ≠ group
      · rw [if_pos hgroup, List.filter_cons_of_neg (by simpa using hgroup)]
        exact ih hnum
      · rw [if_neg hgroup, List.filter_cons_of_pos (by simpa using hgroup), List.take_succ_cons]
        cases n with
        | zero => rfl
        | succ n =>
            show p :: (takeGroup groupOf group (n + 1) l).1 = _
            rw [ih (Nat.succ_pos n)]

/-- An event is taken out of a list, of which `front` stands before it: the one
before is led to the one behind. -/
theorem takeOut {front back : List P} {p : P} (hlinked : Linked m.next (front ++ p :: back))
    (hnodup : (front ++ p :: back).Nodup)
    (hfirst : pl.firstevent = (front ++ p :: back).head?)
    (hlast : pl.lastevent = (front ++ p :: back).getLast?)
    (hnext : back ≠ [] → m.next p = back.head?) {pl₁ pl₂ : EtList P}
    (hpl₁ : pl₁ = if front.getLast? = none then { pl with firstevent := m.next p } else pl)
    (hpl₂ : pl₂ = if pl₁.lastevent = some p then { pl₁ with lastevent := front.getLast? }
      else pl₁) :
    Linked (pointBehind m.next front.getLast? (m.next p)) (front ++ back)
      ∧ (front ++ back ≠ [] → pl₂.firstevent = (front ++ back).head?)
      ∧ (front ++ back ≠ [] → pl₂.lastevent = (front ++ back).getLast?)
      ∧ (∀ a, a ∉ front ++ p :: back → pointBehind m.next front.getLast? (m.next p) a = m.next a)
      ∧ pointBehind m.next front.getLast? (m.next p) p = m.next p
      ∧ pl₂.lasthigh = pl.lasthigh := by
  obtain ⟨hfront, hbehind, hdisjoint⟩ := List.nodup_append.mp hnodup
  obtain ⟨hlinkedFront, hlinkedBack, -⟩ := linked_append.mp hlinked
  have hkeep : ∀ a, a ∉ front → pointBehind m.next front.getLast? (m.next p) a = m.next a := by
    intro a ha
    exact pointBehind_of_ne m.next (fun hf => ha (List.mem_of_getLast? hf)) _
  -- `p` alone points to `back`, and no event of `back` is changed
  have hlinkedBack' : Linked (pointBehind m.next front.getLast? (m.next p)) back := by
    refine (linked_cons.mp hlinkedBack).2.congr ?_
    intro a ha
    have hin := List.mem_cons_of_mem p (List.dropLast_subset back ha)
    exact hkeep a fun ha' => hdisjoint a ha' a hin rfl
  have hlast₁ : pl₁.lastevent = pl.lastevent := by
    rw [hpl₁]
    split
    · rfl
    · rfl
  have hfirst₂ : pl₂.firstevent = pl₁.firstevent := by
    rw [hpl₂]
    split
    · rfl
    · rfl
  refine ⟨?_, ?_, ?_, ?_, ?_, ?_⟩
  · -- the list without `p`: `back` by itself, or linked behind the last of `front`
    cases hf : front.getLast? with
    | none =>
        rw [hf] at hlinkedBack'
        rw [List.getLast?_eq_none_iff.mp hf]
        exact hlinkedBack'
    | some last =>
        rw [hf] at hlinkedBack'
        by_cases hne : back = []
        · rw [hne, List.append_nil]
          refine hlinkedFront.congr ?_
          intro a ha
          exact point_of_ne _ (ne_getLast hfront hf ha) _
        · refine hlinkedFront.append hfront hf ?_ ?_ hlinkedBack'
          · intro a _ hne'
            exact point_of_ne _ hne' _
          · exact (point_self _ _ _).trans (hnext hne)
  · -- the first event is another one only when `p` was the first
    intro hne
    rw [hfirst₂, hpl₁]
    cases front with
    | nil => exact hnext hne
    | cons a front =>
        rw [if_neg (by simp), hfirst]
        rfl
  · intro hne
    rw [hpl₂, hlast₁, hlast]
    -- and the last one only when `p` was the last
    by_cases hback : back = []
    · rw [hback, List.append_nil, if_pos (by rw [List.getLast?_append_of_ne_nil _ (by simp)]; rfl)]
    · have hsplit : (front ++ p :: back).getLast? = back.getLast? := by
        rw [List.getLast?_append_of_ne_nil _ (List.cons_ne_nil p back)]
        exact List.getLast?_append_of_ne_nil [p] hback
      have hother : ¬ (front ++ p :: back).getLast? = some p := by
        rw [hsplit]
        intro heq
        exact (List.nodup_cons.mp hbehind).1 (List.mem_of_getLast? heq)
      rw [if_neg hother, hlast₁, hlast, hsplit, List.getLast?_append_of_ne_nil _ hback]
  · intro a ha
    exact hkeep a fun ha' => ha (List.mem_append_left _ ha')
  · exact hkeep p fun hp => hdisjoint p hp p List.mem_cons_self rfl
  · rw [hpl₂, hpl₁]
    split
    · split
      · rfl
      · rfl
    · split
      · rfl
      · rfl

/-- The loop that takes events out of a list, of which it has passed `front`: by
induction over the rest, with the events passed still linked. -/
theorem scanGroup_ok (group : Int) (back : List P) :
    ∀ (num : Nat) (front : List P) (pev : Option P) (m : Events P) (pl : EtList P),
      Linked m.next (front ++ back) → (front ++ back).Nodup →
      (back ≠ [] → pev = back.head?) →
      (front ++ back ≠ [] → pl.firstevent = (front ++ back).head?) →
      (front ++ back ≠ [] → pl.lastevent = (front ++ back).getLast?) →
      ∃ m' pl', scanGroup group back.length num front.getLast? pev m pl
          = .ok ((takeGroup m.group group num back).1, m', pl')
        ∧ Linked m'.next (front ++ (takeGroup m.group group num back).2)
        ∧ (front ++ (takeGroup m.group group num back).2 ≠ [] →
          pl'.firstevent = (front ++ (takeGroup m.group group num back).2).head?)
        ∧ (front ++ (takeGroup m.group group num back).2 ≠ [] →
          pl'.lastevent = (front ++ (takeGroup m.group group num back).2).getLast?)
        ∧ OnlyNext (front ++ back) m m' ∧ pl'.lasthigh = pl.lasthigh := by
  induction back with
  | nil =>
      intro num front pev m pl hlinked _ _ hfirst hlast
      exact ⟨m, pl, rfl, hlinked, hfirst, hlast, ⟨fun _ _ => rfl, rfl, rfl, rfl, rfl⟩, rfl⟩
  | cons p back ih =>
      intro num front pev m pl hlinked hnodup hpev hfirst hlast
      have hnext : back ≠ [] → m.next p = back.head? := by
        intro hne
        have htail := (linked_append.mp hlinked).2.1
        exact next_getLast (l := [p]) htail rfl hne
      rw [hpev (List.cons_ne_nil p back), List.head?_cons, List.length_cons]
      unfold scanGroup takeGroup
      by_cases hgroup : m.group p ≠ group
      · -- the event stays
        rw [if_pos hgroup, if_pos hgroup]
        have hmove : front ++ [p] ++ back = front ++ p :: back := List.append_assoc _ _ _
        have hmove' : ∀ rest : List P, front ++ [p] ++ rest = front ++ p :: rest := fun rest =>
          List.append_assoc _ _ _
        have hstep := ih num (front ++ [p]) (m.next p) m pl
        rw [hmove, List.getLast?_append_of_ne_nil _ (List.cons_ne_nil p [])] at hstep
        simp only [hmove'] at hstep
        exact hstep hlinked hnodup hnext hfirst hlast
      · -- the event is taken
        have hne : front ++ p :: back ≠ [] := by simp
        rw [if_neg hgroup, if_neg hgroup]
        dsimp only
        generalize hpl₁ : (if front.getLast? = none then _ else pl) = pl₁
        generalize hpl₂ : (if pl₁.lastevent = some p then _ else pl₁) = pl₂
        obtain ⟨hlinked', hfirst', hlast', hkeep, hp, hlasthigh⟩ := takeOut hlinked hnodup
          (hfirst hne) (hlast hne) hnext hpl₁.symm hpl₂.symm
        by_cases hnum : num - 1 = 0
        · rw [if_pos hnum, if_pos hnum]
          exact ⟨_, pl₂, rfl, hlinked', hfirst', hlast', ⟨hkeep, rfl, rfl, rfl, rfl⟩, hlasthigh⟩
        · have hnodup' : (front ++ back).Nodup :=
            hnodup.sublist ((List.sublist_cons_self p back).append_left front)
          obtain ⟨m', pl', hscan, hlinked'', hfirst'', hlast'', hsame, hlasthigh'⟩ :=
            ih (num - 1) front (m.next p)
              { m with next := pointBehind m.next front.getLast? (m.next p) } pl₂
              hlinked' hnodup' hnext hfirst' hlast'
          rw [if_neg hnum, if_neg hnum, hp, hscan]
          refine ⟨m', pl', rfl, hlinked'', hfirst'', hlast'', ?_, hlasthigh'.trans hlasthigh⟩
          have hcut : OnlyNext (front ++ p :: back) m
              { m with next := pointBehind m.next front.getLast? (m.next p) } :=
            ⟨hkeep, rfl, rfl, rfl, rfl⟩
          refine hcut.trans ?_ fun a ha => ha
          refine { hsame with next := fun a ha => hsame.next a ?_ }
          intro ha'
          cases List.mem_append.mp ha' with
          | inl hfront => exact ha (List.mem_append_left _ hfront)
          | inr hback => exact ha (List.mem_append_right _ (List.mem_cons_of_mem p hback))

/-- **A scan** takes the first events of a group out of a list. -/
theorem scanForGroup_holds (h : Holds m.next pl l) (hnodup : l.Nodup) (hne : l ≠ [])
    (att : Nat) {num : Nat} (hnum : 1 ≤ num) (group : Int) :
    ∃ m' pl', scanForGroup m pl att num group
        = .ok ((takeGroup m.group group (min num l.length) l).1,
          m'.own (takeGroup m.group group (min num l.length) l).1 (some att), pl')
      ∧ Holds m'.next pl' (takeGroup m.group group (min num l.length) l).2
      ∧ OnlyNext l m m' ∧ pl'.lasthigh = pl.lasthigh := by
  have hpos := List.length_pos_of_ne_nil hne
  obtain ⟨m', pl', hscan, hlinked, hfirst, hlast, hsame, hlasthigh⟩ :=
    scanGroup_ok group l (min num l.length) [] pl.firstevent m pl h.linked hnodup h.first h.first
      h.last
  have hlength := (takeGroup_perm m.group group (min num l.length) l).length_eq
  rw [List.length_append] at hlength
  rw [← h.cnt] at hscan
  unfold scanForGroup
  rw [if_neg (by omega), if_neg (by rw [h.cnt]; omega)]
  rw [List.getLast?_nil, h.cnt] at hscan
  rw [h.cnt, hscan]
  refine ⟨m', _, rfl, ⟨?_, hlinked, hfirst, hlast⟩, hsame, hlasthigh⟩
  show l.length - (takeGroup m.group group (min num l.length) l).1.length = _
  omega

omit [DecidableEq P] in
/-- To cut a number at the length of a list does not matter for a list that
is shorter. -/
theorem take_min_length (num : Nat) {l l' : List P} (h : l'.length ≤ l.length) :
    l'.take (min num l.length) = l'.take num := by
  by_cases hnum : num ≤ l.length
  · rw [Nat.min_eq_left hnum]
  · rw [List.take_of_length_le (by omega), List.take_of_length_le (by omega)]

/-- What is left of a list is known by what was taken. -/
theorem takeGroup_left {l : List P} (hnodup : l.Nodup) (groupOf : P → Int) (group : Int)
    (num : Nat) :
    (takeGroup groupOf group num l).2 = l.filter (· ∉ (takeGroup groupOf group num l).1) := by
  have hperm := takeGroup_perm groupOf group num l
  have happart := List.nodup_append.mp (hperm.nodup_iff.mpr hnodup)
  have hsub := takeGroup_sublist groupOf group num l
  generalize takeGroup groupOf group num l = split at hperm happart hsub ⊢
  have hleft : split.2.filter (· ∉ split.1) = split.2 := by
    refine List.filter_eq_self.mpr ?_
    intro p hp
    exact decide_eq_true fun htaken => happart.2.2 p htaken p hp rfl
  -- both are in the order of the list, and have the same events
  have hsubset : split.2.Sublist (l.filter (· ∉ split.1)) := by
    rw [← hleft]
    exact hsub.filter _
  refine hsubset.eq_of_length_le ?_
  refine (List.subperm_of_subset (hnodup.filter _) ?_).length_le
  intro p hp
  obtain ⟨hmem, hnot⟩ := List.mem_filter.mp hp
  cases List.mem_append.mp (hperm.mem_iff.mpr hmem) with
  | inl htaken => exact absurd htaken (of_decide_eq_true hnot)
  | inr hin => exact hin

/-- **A scan for a group** gives an attachment the first events of the group, in
their order, and the list has the others, in theirs. -/
theorem scanForGroup_read (h : Holds m.next pl l) (hnodup : l.Nodup) (hne : l ≠ []) (att : Nat)
    {num : Nat} (hnum : 1 ≤ num) (group : Int) :
    ∃ m' pl', scanForGroup m pl att num group
        = .ok ((l.filter (m.group · = group)).take num, m', pl')
      ∧ Holds m'.next pl' (l.filter (· ∉ (l.filter (m.group · = group)).take num))
      ∧ (∀ p, m'.owner p = if p ∈ (l.filter (m.group · = group)).take num then some att
          else m.owner p)
      ∧ (∀ p, p ∉ l → m'.next p = m.next p) ∧ m'.priority = m.priority := by
  have hpos := List.length_pos_of_ne_nil hne
  obtain ⟨m', pl', hread, hholds, hsame, -⟩ :=
    scanForGroup_holds h hnodup hne att hnum group
  have hmin : 1 ≤ min num l.length := by omega
  have htaken : (takeGroup m.group group (min num l.length) l).1
      = (l.filter (m.group · = group)).take num := by
    rw [takeGroup_taken m.group group hmin, take_min_length num (List.length_filter_le _ l)]
  rw [takeGroup_left hnodup] at hholds
  rw [htaken] at hread hholds
  refine ⟨_, pl', hread, hholds, ?_, hsame.next, hsame.priority⟩
  intro p
  show (if p ∈ (l.filter (m.group · = group)).take num then some att else m'.owner p) = _
  rw [hsame.owner]

/-- A list without events of the group is gone through to its end. -/
theorem scanGroup_nothing {group : Int} :
    ∀ (l : List P) (num : Nat) (prev pev : Option P), Linked m.next l →
      (l ≠ [] → pev = l.head?) → (∀ p ∈ l, m.group p ≠ group) →
      scanGroup group l.length num prev pev m pl = .ok ([], m, pl) := by
  intro l
  induction l with
  | nil =>
      intro num prev pev _ _ _
      rfl
  | cons p l ih =>
      intro num prev pev hlinked hpev hno
      obtain ⟨hp, hno⟩ := List.forall_mem_cons.mp hno
      rw [hpev (List.cons_ne_nil p l), List.head?_cons, List.length_cons]
      unfold scanGroup
      rw [if_pos hp]
      have htail : Linked m.next l := (linked_cons.mp hlinked).2
      have hnext : l ≠ [] → m.next p = l.head? := fun hne => next_getLast (l := [p]) hlinked rfl hne
      exact ih num (some p) (m.next p) htail hnext hno

/-- A scan that finds nothing leaves all as it was. -/
theorem scanForGroup_nothing (h : Holds m.next pl l) (hne : l ≠ []) (att : Nat) {num : Nat}
    (hnum : 1 ≤ num) {group : Int} (hno : ∀ p ∈ l, m.group p ≠ group) :
    scanForGroup m pl att num group = .ok ([], m, pl) := by
  have hpos := List.length_pos_of_ne_nil hne
  unfold scanForGroup
  rw [if_neg (by omega), if_neg (by rw [h.cnt]; omega), h.cnt,
    scanGroup_nothing l _ none pl.firstevent h.linked h.first hno]
  show Except.ok ([], m.own [] (some att), { pl with cnt := l.length - 0 }) = _
  rw [own_nil, Nat.sub_zero, ← h.cnt]

/-! ### Scan after scan. -/

/-- What an attachment sees in a look is a list of events, none of them twice. -/
structure Look.Shows (look : Look P) (l : List P) : Prop where
  holds : Holds look.m.next look.pl l
  nodup : l.Nodup

omit [DecidableEq P] in
/-- What is left of `num` after a look at a list without events of the group: an
empty list is not scanned. -/
def cutTo (num : Nat) (l : List P) : Nat := if l.length < 1 then num else min num l.length

omit [DecidableEq P] in
/-- A look never cuts the number to 0: some event is always wanted. -/
theorem cutTo_pos {num : Nat} (hnum : 1 ≤ num) (l : List P) : 1 ≤ cutTo num l := by
  unfold cutTo
  split
  · exact hnum
  · omega

omit [DecidableEq P] in
/-- Nor do any number of looks. -/
theorem foldl_cutTo_pos {num : Nat} (hnum : 1 ≤ num) (ls : List (List P)) :
    1 ≤ ls.foldl cutTo num := by
  induction ls generalizing num with
  | nil => exact hnum
  | cons l ls ih => exact ih (cutTo_pos hnum l)

/-- A look at a list without events of the group only cuts `num` to the length of
that list, for good. -/
theorem nread_group_nothing {mode : Mode} (hmode : mode ≠ .async) {look : Look P}
    (hlook : look.Shows l) (att : Nat) {num : Nat} (hnum : 1 ≤ num) {group : Int}
    (hno : ∀ p ∈ l, look.m.group p ≠ group) (looks : List (Look P)) :
    et_station_nread_group mode att group num (look :: looks)
      = et_station_nread_group mode att group (cutTo num l) looks := by
  conv_lhs => unfold et_station_nread_group
  unfold cutTo
  rw [if_neg (by omega), hlook.holds.cnt]
  by_cases hempty : l.length < 1
  · rw [if_pos ⟨hempty, hmode⟩, if_pos hempty]
  · have hne : l ≠ [] := by
      rintro rfl
      exact hempty Nat.one_pos
    rw [if_neg (fun h => hempty h.1), if_neg hempty,
      scanForGroup_nothing hlook.holds hne att hnum hno, Except.bind,
      if_pos ⟨rfl, hmode⟩]

/-- Looks at lists without events of the group, one after the other, cut `num` one
after the other. -/
theorem nread_group_waits {mode : Mode} (hmode : mode ≠ .async) (att : Nat) {group : Int}
    (before : List (Look P × List P))
    (hbefore : ∀ look ∈ before, look.1.Shows look.2 ∧ ∀ p ∈ look.2, look.1.m.group p ≠ group)
    {num : Nat} (hnum : 1 ≤ num) (looks : List (Look P)) :
    et_station_nread_group mode att group num (before.map Prod.fst ++ looks)
      = et_station_nread_group mode att group ((before.map Prod.snd).foldl cutTo num) looks := by
  induction before generalizing num with
  | nil => rfl
  | cons first before ih =>
      obtain ⟨⟨hshows, hno⟩, hbefore⟩ := List.forall_mem_cons.mp hbefore
      rw [List.map_cons, List.cons_append,
        nread_group_nothing hmode hshows att hnum hno,
        ih hbefore (cutTo_pos hnum first.2)]
      rfl

/-- **Events of a group**: after any looks at lists without events of the group
an attachment gets the first ones, as many as these looks have left of `num`, in
their order, and the list has the others, in theirs.  Without waiting there is
one look, and `num` is left as it is. -/
theorem group_read {mode : Mode} {before : List (Look P × List P)} {group : Int}
    (hbefore : ∀ look ∈ before, look.1.Shows look.2 ∧ ∀ p ∈ look.2, look.1.m.group p ≠ group)
    {look : Look P} (hlook : look.Shows l)
    (hmode : if mode = .async then before = [] ∧ l ≠ [] else ∃ p ∈ l, look.m.group p = group)
    (after : List (Look P)) (att : Nat) {num : Nat} (hnum : 1 ≤ num) :
    let left := (before.map Prod.snd).foldl cutTo num
    ∃ m' pl', et_station_nread_group mode att group num (before.map Prod.fst ++ look :: after)
        = .ok (some ((l.filter (look.m.group · = group)).take left, m', pl'))
      ∧ Holds m'.next pl' (l.filter (· ∉ (l.filter (look.m.group · = group)).take left))
      ∧ (∀ p, m'.owner p = if p ∈ (l.filter (look.m.group · = group)).take left then some att
          else look.m.owner p)
      ∧ (∀ p, p ∉ l → m'.next p = look.m.next p) ∧ m'.priority = look.m.priority := by
  intro left
  have hleft : 1 ≤ left := foldl_cutTo_pos hnum _
  have hne : l ≠ [] := by
    split at hmode
    · exact hmode.2
    · obtain ⟨p, hp, -⟩ := hmode
      exact List.ne_nil_of_mem hp
  -- the looks before it only cut `num`
  have hstart : et_station_nread_group mode att group num (before.map Prod.fst ++ look :: after)
      = et_station_nread_group mode att group left (look :: after) := by
    by_cases hasync : mode = .async
    · rw [if_pos hasync] at hmode
      obtain ⟨rfl, -⟩ := hmode
      rfl
    · exact nread_group_waits hasync att before hbefore hnum (look :: after)
  obtain ⟨m', pl', hread, hspec⟩ := scanForGroup_read hlook.holds hlook.nodup hne att hleft group
  refine ⟨m', pl', ?_, hspec⟩
  have hcnt : ¬ (look.pl.cnt < 1 ∧ mode ≠ .async) := by
    intro h
    have hpos := List.length_pos_of_ne_nil hne
    have hlength := hlook.holds.cnt
    omega
  -- the scan found something, unless it is the only one
  have hfound : ¬ ((l.filter (look.m.group · = group)).take left = [] ∧ mode ≠ .async) := by
    rintro ⟨hnone, hasync⟩
    rw [if_neg hasync] at hmode
    obtain ⟨p, hp, hgroup⟩ := hmode
    obtain hzero | hempty := List.take_eq_nil_iff.mp hnone
    · omega
    · exact absurd (List.mem_filter.mpr ⟨hp, decide_eq_true hgroup⟩)
        (by rw [hempty]; exact List.not_mem_nil)
  rw [hstart]
  unfold et_station_nread_group
  rw [if_neg (by omega), if_neg hcnt, hread]
  exact if_neg hfound

/-- Two events are asked for, and the first look is at a list of one, of another
group: of the two events of the group that come one is handed out. -/
theorem group_read_three :
    ∃ m' pl', et_station_nread_group .sleep 7 5 2
          [⟨threeEvents, ⟨1, 0, 1, 0, some 1, some 1⟩⟩, ⟨threeEvents, ⟨3, 0, 3, 0, some 0, some 2⟩⟩]
        = .ok (some ([0], m', pl'))
      ∧ Holds m'.next pl' [1, 2]
      ∧ m'.owner 0 = some 7 ∧ m'.owner 1 = none ∧ m'.owner 2 = none := by
  have hbefore : ∀ look ∈ [((⟨threeEvents, ⟨1, 0, 1, 0, some 1, some 1⟩⟩ : Look (Fin 3)), [1])],
      look.1.Shows look.2 ∧ ∀ p ∈ look.2, look.1.m.group p ≠ 5 := by
    refine List.forall_mem_singleton.mpr ⟨⟨⟨rfl, ?_, fun _ => rfl, fun _ => rfl⟩, by decide⟩, ?_⟩
    · exact List.isChain_singleton 1
    · decide
  have hlook : Look.Shows ⟨threeEvents, ⟨3, 0, 3, 0, some 0, some 2⟩⟩ [0, 1, 2] :=
    ⟨threeEvents_holds, by decide⟩
  have hmode : if Mode.sleep = .async
      then [((⟨threeEvents, ⟨1, 0, 1, 0, some 1, some 1⟩⟩ : Look (Fin 3)), [(1 : Fin 3)])] = []
        ∧ [(0 : Fin 3), 1, 2] ≠ []
      else ∃ p ∈ [(0 : Fin 3), 1, 2], threeEvents.group p = 5 := ⟨0, by decide, by decide⟩
  obtain ⟨m', pl', hread, hholds, howner, -⟩ :=
    group_read hbefore hlook hmode [] 7 (show 1 ≤ 2 by decide)
  exact ⟨m', pl', hread, hholds, howner 0, howner 1, howner 2⟩

end PokerReco.ET
