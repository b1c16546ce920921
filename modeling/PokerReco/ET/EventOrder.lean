/-
  PokerReco.ET.EventOrder
  ───────────────────────
  **THE ORDER OF EVENTS IN A LIST** (`et_readwrite.c`).

  The list of a station is two queues: events of high priority wait in the
  first one, and within a priority the order is the one they were written in.
  What a detach restores goes to the front.

      InOp, OutOp            what happens to a list
      Waiting                the two queues
      input_list_queues      an input list behaves as they do
      output_list_queues     and so does an output list
-/
import PokerReco.ET.EtSystemInvariant
import PokerReco.Library.TwoQueues
import PokerReco.Library.Answers

namespace PokerReco.ET

open PokerReco.Library

variable {P : Type} {m : Events P} {pl : EtList P} {priority : P → Priority}

/-! ## §1. Two queues in a list. -/

/-- In a list in order the high priority events at its front are all that it has. -/
theorem HighFirst.highs_eq {pe : List P} (h : HighFirst priority pe) :
    highs priority pe = pe.filter (priority · = .high)
      ∧ lows priority pe = pe.filter (priority · ≠ .high) := by
  have hhighs : ∀ p ∈ highs priority pe, priority p = .high := fun p hp => mem_highs hp
  have hlows : ∀ p ∈ lows priority pe, priority p ≠ .high := fun p hp => h.mem_lows hp
  have hsplit := highs_append_lows priority pe
  constructor
  · conv_rhs => rw [← hsplit, List.filter_append]
    have hall : (highs priority pe).filter (priority · = .high) = highs priority pe :=
      List.filter_eq_self.mpr fun p hp => decide_eq_true (hhighs p hp)
    have hnone : (lows priority pe).filter (priority · = .high) = [] :=
      List.filter_eq_nil_iff.mpr fun p hp hhigh => hlows p hp (of_decide_eq_true hhigh)
    rw [hall, hnone, List.append_nil]
  · conv_rhs => rw [← hsplit, List.filter_append]
    have hall : (lows priority pe).filter (priority · ≠ .high) = lows priority pe :=
      List.filter_eq_self.mpr fun p hp => decide_eq_true (hlows p hp)
    have hnone : (highs priority pe).filter (priority · ≠ .high) = [] :=
      List.filter_eq_nil_iff.mpr fun p hp hlow => of_decide_eq_true hlow (hhighs p hp)
    rw [hall, hnone, List.nil_append]

/-- What waits in a list: two queues, and the priorities of the events. -/
structure Waiting (P : Type) where
  priority : P → Priority
  queues : TwoQueues P

namespace Waiting

/-- An event is urgent when its priority is high. -/
def urgent (w : Waiting P) (p : P) : Bool := w.priority p = .high

/-- Events that are written join the end of their queue. -/
def put (w : Waiting P) (pe : List P) : Waiting P :=
  { w with queues := w.queues.put w.urgent pe }

/-- Events that are restored join the front of their queue. -/
def putBack (w : Waiting P) (pe : List P) : Waiting P :=
  { w with queues := w.queues.putBack w.urgent pe }

/-- Some events leave, the urgent ones first. -/
def take (w : Waiting P) (num : Nat) : List P × Waiting P :=
  ((w.queues.take num).1, { w with queues := (w.queues.take num).2 })

end Waiting

variable {w : Waiting P}

/-- The list in memory is the two queues: it is linked and counted as they say,
with the same priorities, and each event is in its queue. -/
structure Waits (m : Events P) (pl : EtList P) (w : Waiting P) : Prop where
  holds : Holds m.next pl w.queues.all
  priority : m.priority = w.priority
  sorted : w.queues.Sorted w.urgent

/-- In such a list the events at the front are the urgent ones, and the others
stand behind them. -/
theorem Waits.highs (h : Waits m pl w) :
    highs w.priority w.queues.all = w.queues.first
      ∧ lows w.priority w.queues.all = w.queues.second := by
  have hfirst : ∀ p ∈ w.queues.first, w.priority p = .high := fun p hp =>
    of_decide_eq_true (h.sorted.first p hp)
  have hsecond : ∀ p ∈ w.queues.second, w.priority p ≠ .high := fun p hp =>
    of_decide_eq_false (h.sorted.second p hp)
  have hhighs := (highFirst_append hfirst hsecond).2
  refine ⟨hhighs, ?_⟩
  have hsplit := highs_append_lows w.priority w.queues.all
  unfold TwoQueues.all at hsplit ⊢
  rw [hhighs] at hsplit
  exact List.append_cancel_left hsplit

/-- The events that are not urgent, said in two ways. -/
theorem filter_urgent (w : Waiting P) (pe : List P) :
    pe.filter (!w.urgent ·) = pe.filter (w.priority · ≠ .high) := by
  refine List.filter_congr ?_
  intro p _
  unfold Waiting.urgent
  rw [decide_not]

/-- `et_llist_write` lets new events join the end of their queues. -/
theorem Waits.mergeHigh_put (h : Waits m pl w) {pe : List P} (hpe : HighFirst w.priority pe) :
    mergeHigh w.priority w.queues.all pe = (w.put pe).queues.all := by
  unfold mergeHigh
  rw [h.highs.1, h.highs.2, hpe.highs_eq.1, hpe.highs_eq.2, ← filter_urgent]
  exact List.append_assoc _ _ _

/-- `et_restore` lets events join the front of their queues. -/
theorem Waits.mergeHigh_putBack (h : Waits m pl w) {pe : List P}
    (hpe : HighFirst w.priority pe) :
    mergeHigh w.priority pe w.queues.all = (w.putBack pe).queues.all := by
  unfold mergeHigh
  rw [h.highs.1, h.highs.2, hpe.highs_eq.1, hpe.highs_eq.2, ← filter_urgent]
  exact List.append_assoc _ _ _

/-- `et_station_nwrite` lets new events join the end of their queues, with the
count of the urgent ones. -/
theorem mergeAt_put (w : Waiting P) (pe : List P) :
    mergeAt w.priority w.queues.first.length w.queues.all pe = (w.put pe).queues.all := by
  unfold mergeAt TwoQueues.all
  rw [List.take_left, List.drop_left, ← filter_urgent]
  rfl

/-! ## §2. An input list. -/

variable [DecidableEq P]

/-- What happens to an input list: `et_llist_write`, `et_restore` and
`et_station_nread`; and the priority of an event elsewhere is set. -/
inductive InOp (P : Type) where
  | write (pe : List P)
  | restore (pe : List P)
  | read (att num : Nat)
  | setpriority (p : P) (pri : Priority)

/-- The events that an operation answers, and the list afterwards; an operation
that fails has its error. -/
def InOp.exec (nevents : Nat) (memory : Events P × EtList P) :
    InOp P → Except Failure (List P × Events P × EtList P)
  | .write pe =>
      (et_llist_write nevents memory.1 memory.2 pe).map fun written => ([], written.1, written.2.1)
  | .restore pe =>
      (et_restore nevents memory.1 memory.2 pe).map fun written => ([], written.1, written.2.1)
  | .read att num =>
      match et_station_nread memory.1 memory.2 att num with
      | .error .ET_ERROR_EMPTY => .ok ([], memory)
      | answer => answer
  | .setpriority p pri =>
      .ok ([], { memory.1 with priority := Function.update memory.1.priority p pri }, memory.2)

/-- What the operation means for the two queues. -/
def InOp.means (w : Waiting P) : InOp P → List P × Waiting P
  | .write pe => ([], w.put pe)
  | .restore pe => ([], w.putBack pe)
  | .read _ num => w.take num
  | .setpriority p pri => ([], { w with priority := Function.update w.priority p pri })

/-- Events that are written come from elsewhere, high priority first, and there
is room for them; the priority of events in the list is not set. -/
def InOp.Fits (nevents : Nat) (w : Waiting P) : InOp P → Prop
  | .write pe => pe ≠ [] ∧ HighFirst w.priority pe ∧ (w.queues.all ++ pe).Nodup
      ∧ w.queues.all.length + pe.length ≤ nevents
  | .restore pe => pe ≠ [] ∧ HighFirst w.priority pe ∧ (w.queues.all ++ pe).Nodup
      ∧ w.queues.all.length + pe.length ≤ nevents
  | .read _ _ => True
  | .setpriority p _ => p ∉ w.queues.all

/-- Whether a list is in order can be decided. -/
instance HighFirst.decidable (priority : P → Priority) (l : List P) :
    Decidable (HighFirst priority l) :=
  inferInstanceAs (Decidable (l.Pairwise fun p q => priority q = .high → priority p = .high))

instance (nevents : Nat) (w : Waiting P) (op : InOp P) : Decidable (op.Fits nevents w) :=
  match op with
  | .write pe => inferInstanceAs (Decidable (pe ≠ [] ∧ HighFirst w.priority pe
      ∧ (w.queues.all ++ pe).Nodup ∧ w.queues.all.length + pe.length ≤ nevents))
  | .restore pe => inferInstanceAs (Decidable (pe ≠ [] ∧ HighFirst w.priority pe
      ∧ (w.queues.all ++ pe).Nodup ∧ w.queues.all.length + pe.length ≤ nevents))
  | .read _ _ => isTrue trivial
  | .setpriority p _ => inferInstanceAs (Decidable (p ∉ w.queues.all))

/-- To set the priority of an event elsewhere does not change the queues. -/
theorem Waits.setpriority (h : Waits m pl w) {p : P} (hp : p ∉ w.queues.all) (pri : Priority) :
    Waits { m with priority := Function.update m.priority p pri } pl
      { w with priority := Function.update w.priority p pri } where
  holds := h.holds
  priority := by
    show Function.update m.priority p pri = Function.update w.priority p pri
    rw [h.priority]
  sorted := by
    refine h.sorted.congr ?_
    intro p' hp'
    have hne : p' ≠ p := fun heq => hp (heq ▸ hp')
    have hsame : Function.update w.priority p pri p' = w.priority p' :=
      Function.update_of_ne hne pri w.priority
    exact congrArg (fun now => decide (now = Priority.high)) hsame

/-- **One operation** on the list in memory is what it means for the two queues. -/
theorem InOp.exec_means (h : Waits m pl w) {nevents : Nat} {op : InOp P}
    (hfits : op.Fits nevents w) :
    ∃ m' pl', op.exec nevents (m, pl) = .ok ((op.means w).1, m', pl')
      ∧ Waits m' pl' (op.means w).2 := by
  cases op with
  | write pe =>
      obtain ⟨hne, hfirst, hnodup, hroom⟩ := hfits
      obtain ⟨m', pl', hwrite, hholds, hsame⟩ := et_llist_write_holds h.holds hne hnodup hroom
      -- they come in order, so the merge is what the queues do
      rw [h.priority, h.mergeHigh_put hfirst] at hholds
      exact ⟨m', pl', congrArg (Except.map _) hwrite, hholds, hsame.priority.trans h.priority,
        h.sorted.put pe⟩
  | restore pe =>
      obtain ⟨hne, hfirst, hnodup, hroom⟩ := hfits
      obtain ⟨m', pl', hwrite, hholds, hsame, -⟩ := et_restore_holds h.holds hne hnodup hroom
      rw [h.priority, h.mergeHigh_putBack hfirst] at hholds
      exact ⟨m', pl', congrArg (Except.map _) hwrite, hholds, hsame.priority.trans h.priority,
        h.sorted.putBack pe⟩
  | read att num =>
      have hsorted := h.sorted.take num
      by_cases hnum : num < 1
      · -- none is asked for
        have hzero : num = 0 := by omega
        subst hzero
        refine ⟨m, pl, rfl, ?_, h.priority, hsorted⟩
        show Holds m.next pl (w.queues.take 0).2.all
        rw [TwoQueues.all_take]
        exact h.holds
      · by_cases hnone : w.queues.all = []
        · -- there are none, and `ET_ERROR_EMPTY` leaves the list as it is
          have hcnt : pl.cnt < 1 := by
            rw [h.holds.cnt_eq_zero.mpr hnone]
            exact Nat.one_pos
          refine ⟨m, pl, ?_, ?_, h.priority, hsorted⟩
          · have hempty : (w.queues.take num).1 = [] := by
              unfold TwoQueues.take
              rw [hnone, List.take_nil]
            unfold InOp.exec et_station_nread
            dsimp only
            rw [if_neg hnum, if_pos hcnt]
            show _ = Except.ok ((w.queues.take num).1, m, pl)
            rw [hempty]
          · show Holds m.next pl (w.queues.take num).2.all
            rw [TwoQueues.all_take, hnone, List.drop_nil, ← hnone]
            exact h.holds
        · have hpos : 1 ≤ num := by omega
          obtain ⟨pl', hread, hholds, -⟩ := et_station_nread_holds h.holds att hpos hnone
          refine ⟨m.own (w.queues.all.take num) (some att), pl', ?_, ?_, h.priority, hsorted⟩
          · unfold InOp.exec
            dsimp only
            rw [hread]
            rfl
          · show Holds m.next pl' (w.queues.take num).2.all
            rw [TwoQueues.all_take]
            exact hholds
  | setpriority p pri => exact ⟨_, pl, rfl, h.setpriority hfits pri⟩

/-- **An input list is two queues**, whatever is done to it in which order. -/
theorem input_list_queues (h : Waits m pl w) {nevents : Nat} {ops : List (InOp P)}
    (hfits : FitsAll InOp.means (InOp.Fits nevents) ops w) :
    ∃ m' pl', answers (InOp.exec nevents) ops (m, pl)
        = .ok ((meanings InOp.means ops w).1, m', pl')
      ∧ Waits m' pl' (meanings InOp.means ops w).2 := by
  obtain ⟨memory, hanswers, h'⟩ := answers_eq
    (R := fun (memory : Events P × EtList P) w => Waits memory.1 memory.2 w)
    (fun memory w op h hfits => by
      obtain ⟨m', pl', hexec, h'⟩ := InOp.exec_means h hfits
      exact ⟨(m', pl'), hexec, h'⟩) ops (m, pl) w h hfits
  exact ⟨memory.1, memory.2, hanswers, h'⟩

omit [DecidableEq P] in
/-- An empty list is two empty queues. -/
theorem waits_empty (m : Events P) : Waits m EtSystem.noEvents ⟨m.priority, .empty⟩ where
  holds := holds_nil m.next rfl
  priority := rfl
  sorted := TwoQueues.sorted_empty _

/-- Four events, of which 1 and 3 are urgent. -/
def fourEvents : Events (Fin 4) where
  next _ := none
  priority p := if p = 1 ∨ p = 3 then .high else .low
  owner _ := none
  group _ := 1
  age _ := .new

/-- Two writes, a read and a restore on a list of four events, as the two
queues have it. -/
theorem input_list_queues_four :
    ∃ m' pl', answers (InOp.exec 4) [.write [1, 0], .write [3, 2], .read 7 1, .restore [1]]
        (fourEvents, EtSystem.noEvents)
        = .ok ((meanings InOp.means [.write [1, 0], .write [3, 2], .read 7 1, .restore [1]]
            ⟨fourEvents.priority, .empty⟩).1, m', pl')
      ∧ Waits m' pl' (meanings InOp.means [.write [1, 0], .write [3, 2], .read 7 1, .restore [1]]
          ⟨fourEvents.priority, .empty⟩).2 :=
  input_list_queues (waits_empty fourEvents) (by decide)

/-- Event 3 overtakes event 0, and not event 1. -/
example : (meanings InOp.means [.write [1, 0], .write [3, 2], .read 7 3]
    ⟨fourEvents.priority, .empty⟩).1 = [[], [], [1, 3, 0]] := by decide

/-! ## §3. An output list. -/

/-- What happens to an output list: `et_station_nwrite`, and `et_llist_read`
when there are events; and the priority of an event elsewhere is set. -/
inductive OutOp (P : Type) where
  | write (pe : List P)
  | read
  | setpriority (p : P) (pri : Priority)

/-- The events that an operation answers, and the list afterwards; an operation
that fails has its error. -/
def OutOp.exec (nevents : Nat) (memory : Events P × EtList P) :
    OutOp P → Except Failure (List P × Events P × EtList P)
  | .write pe =>
      (et_station_nwrite nevents memory.1 memory.2 pe).map fun written => ([], written)
  | .read =>
      if memory.2.cnt < 1 then .ok ([], memory)
      else (et_llist_read memory.1 memory.2).map fun read => (read.1, memory.1, read.2)
  | .setpriority p pri =>
      .ok ([], { memory.1 with priority := Function.update memory.1.priority p pri }, memory.2)

/-- What the operation means for the two queues. -/
def OutOp.means (w : Waiting P) : OutOp P → List P × Waiting P
  | .write pe => ([], w.put pe)
  | .read => w.take w.queues.all.length
  | .setpriority p pri => ([], { w with priority := Function.update w.priority p pri })

/-- Events that are written come from elsewhere, in any order, and there is room
for them; the priority of events in the list is not set. -/
def OutOp.Fits (nevents : Nat) (w : Waiting P) : OutOp P → Prop
  | .write pe => (w.queues.all ++ pe).Nodup ∧ w.queues.all.length + pe.length ≤ nevents
  | .read => True
  | .setpriority p _ => p ∉ w.queues.all

instance (nevents : Nat) (w : Waiting P) (op : OutOp P) : Decidable (op.Fits nevents w) :=
  match op with
  | .write pe => inferInstanceAs (Decidable ((w.queues.all ++ pe).Nodup
      ∧ w.queues.all.length + pe.length ≤ nevents))
  | .read => isTrue trivial
  | .setpriority p _ => inferInstanceAs (Decidable (p ∉ w.queues.all))

/-- The list knows how many urgent events it has. -/
structure WaitsOut (m : Events P) (pl : EtList P) (w : Waiting P) : Prop extends Waits m pl w where
  lasthigh : pl.lasthigh = w.queues.first.length

/-- **One operation** on an output list is what it means for the two queues. -/
theorem OutOp.exec_means (h : WaitsOut m pl w) {nevents : Nat} {op : OutOp P}
    (hfits : op.Fits nevents w) :
    ∃ m' pl', op.exec nevents (m, pl) = .ok ((op.means w).1, m', pl')
      ∧ WaitsOut m' pl' (op.means w).2 := by
  cases op with
  | write pe =>
      obtain ⟨hnodup, hroom⟩ := hfits
      have hshort : pl.lasthigh ≤ w.queues.all.length := by
        rw [h.lasthigh]
        exact (List.sublist_append_left _ _).length_le
      obtain ⟨m', pl', hwrite, hholds, hlasthigh, hsame⟩ :=
        et_station_nwrite_holds h.holds hshort hnodup hroom
      -- they need no order: `lasthigh` says where the urgent ones go
      rw [h.priority, h.lasthigh, mergeAt_put] at hholds
      refine ⟨m', pl', congrArg (Except.map _) hwrite, ⟨hholds, ?_, h.sorted.put pe⟩, ?_⟩
      · exact hsame.priority.trans h.priority
      · rw [hlasthigh, h.lasthigh, h.priority]
        exact List.length_append.symm
  | read =>
      have hsorted := h.sorted.take w.queues.all.length
      have hall : (w.queues.take w.queues.all.length).2.all = [] := by
        rw [TwoQueues.all_take, List.drop_length]
      have hanswer : (w.queues.take w.queues.all.length).1 = w.queues.all := List.take_length
      have hfirst : (w.queues.take w.queues.all.length).2.first = [] :=
        (List.append_eq_nil_iff.mp hall).1
      by_cases hnone : w.queues.all = []
      · -- there are none
        have hcnt : pl.cnt < 1 := by
          rw [h.holds.cnt_eq_zero.mpr hnone]
          exact Nat.one_pos
        refine ⟨m, pl, ?_, ⟨?_, h.priority, hsorted⟩, ?_⟩
        · unfold OutOp.exec
          rw [if_pos hcnt]
          show _ = Except.ok ((w.queues.take w.queues.all.length).1, m, pl)
          rw [hanswer, hnone]
        · show Holds m.next pl (w.queues.take w.queues.all.length).2.all
          rw [hall, ← hnone]
          exact h.holds
        · show pl.lasthigh = (w.queues.take w.queues.all.length).2.first.length
          rw [hfirst, h.lasthigh, (List.append_eq_nil_iff.mp hnone).1]
      · have hcnt : ¬ pl.cnt < 1 := by
          have hpos := List.length_pos_of_ne_nil hnone
          rw [h.holds.cnt]
          omega
        obtain ⟨pl', hread, hholds, hlasthigh⟩ := et_llist_read_holds h.holds hnone
        refine ⟨m, pl', ?_, ⟨?_, h.priority, hsorted⟩, ?_⟩
        · unfold OutOp.exec
          rw [if_neg hcnt, hread]
          show _ = Except.ok ((w.queues.take w.queues.all.length).1, m, pl')
          rw [hanswer]
          rfl
        · show Holds m.next pl' (w.queues.take w.queues.all.length).2.all
          rw [hall]
          exact hholds
        · show pl'.lasthigh = (w.queues.take w.queues.all.length).2.first.length
          rw [hfirst, hlasthigh]
          rfl
  | setpriority p pri =>
      exact ⟨_, pl, rfl, h.toWaits.setpriority hfits pri, h.lasthigh⟩

/-- **An output list is two queues**: a conductor takes what was written since
it was there last, the urgent events first, and otherwise in that order. -/
theorem output_list_queues (h : WaitsOut m pl w) {nevents : Nat} {ops : List (OutOp P)}
    (hfits : FitsAll OutOp.means (OutOp.Fits nevents) ops w) :
    ∃ m' pl', answers (OutOp.exec nevents) ops (m, pl)
        = .ok ((meanings OutOp.means ops w).1, m', pl')
      ∧ WaitsOut m' pl' (meanings OutOp.means ops w).2 := by
  obtain ⟨memory, hanswers, h'⟩ := answers_eq
    (R := fun (memory : Events P × EtList P) w => WaitsOut memory.1 memory.2 w)
    (fun memory w op h hfits => by
      obtain ⟨m', pl', hexec, h'⟩ := OutOp.exec_means h hfits
      exact ⟨(m', pl'), hexec, h'⟩) ops (m, pl) w h hfits
  exact ⟨memory.1, memory.2, hanswers, h'⟩

/-- Writes and a read on an output list of four events, as the two queues
have it. -/
theorem output_list_queues_four :
    ∃ m' pl', answers (OutOp.exec 4) [.write [0, 1], .write [2, 3], .read, .write [2]]
        (fourEvents, EtSystem.noEvents)
        = .ok ((meanings OutOp.means [.write [0, 1], .write [2, 3], .read, .write [2]]
            ⟨fourEvents.priority, .empty⟩).1, m', pl')
      ∧ WaitsOut m' pl' (meanings OutOp.means [.write [0, 1], .write [2, 3], .read, .write [2]]
          ⟨fourEvents.priority, .empty⟩).2 :=
  output_list_queues ⟨waits_empty fourEvents, rfl⟩ (by decide)

end PokerReco.ET
