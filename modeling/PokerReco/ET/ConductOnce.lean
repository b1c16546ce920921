/-
  PokerReco.ET.ConductOnce
  ────────────────────────
  **EACH EVENT IS WRITTEN ONCE** (`et_conductor` of `et_system.c`).

  On its way down the chain a conductor has some events that were written and
  the others, with `event_put` not set.  Each place of the chain keeps the two
  together; only the round robin does not: it deals the `i`-th station of a
  group from index `i` on, and not from the `i`-th event that is left.

      offer_outcome        a station takes some of the events that are left
      dealEqual_sent       equal cues take them all
      dealRobin_sent       round robin too, if none of the first were put
      conduct_once_iff     a batch is written once if and only if that holds
                           where the batch meets a round robin
-/
import Mathlib.Data.List.Nodup
import PokerReco.ET.EqualCue

namespace PokerReco.ET

open PokerReco.Library

variable {E : Type}

/-! ## §1. Events that are left. -/

/-- The events with `event_put` not set: those that no station has taken yet, in
order. -/
def unputOf (entries : List (E × Bool)) : List E :=
  (entries.filter fun entry => !entry.2).map Prod.fst

/-- An event that is not put yet is among them. -/
theorem unputOf_left (e : E) (entries : List (E × Bool)) :
    unputOf ((e, false) :: entries) = e :: unputOf entries := rfl

/-- They are events of the batch, in its order. -/
theorem unputOf_sublist (entries : List (E × Bool)) :
    (unputOf entries).Sublist (entries.map Prod.fst) := List.filter_sublist.map Prod.fst

/-- Those of two stretches of a batch are those of each. -/
theorem unputOf_append (front back : List (E × Bool)) :
    unputOf (front ++ back) = unputOf front ++ unputOf back := by
  unfold unputOf
  rw [List.filter_append, List.map_append]

/-- There are no more of them than events. -/
theorem length_unputOf_le (entries : List (E × Bool)) :
    (unputOf entries).length ≤ entries.length := by
  have hle := (unputOf_sublist entries).length_le
  rw [List.length_map] at hle
  exact hle

/-- Of some entries, `taken` have been put: the others are left in order, and none
was put before. -/
structure Takes (taken : List E) (entries entries' : List (E × Bool)) : Prop where
  events : entries'.map Prod.fst = entries.map Prod.fst
  perm : (taken ++ unputOf entries').Perm (unputOf entries)
  sublist : taken.Sublist (entries.map Prod.fst)

/-- To take nothing leaves the entries as they are. -/
theorem Takes.none (entries : List (E × Bool)) : Takes [] entries entries where
  events := rfl
  perm := List.Perm.refl _
  sublist := List.nil_sublist _

/-- An entry that stays as it is, whether it had been put before or not. -/
theorem Takes.keep {taken : List E} {entries entries' : List (E × Bool)}
    (h : Takes taken entries entries') (entry : E × Bool) :
    Takes taken (entry :: entries) (entry :: entries') where
  events := congrArg (entry.1 :: ·) h.events
  perm := by
    obtain ⟨e, event_put⟩ := entry
    cases event_put with
    | true => exact h.perm
    | false => exact List.perm_middle.trans (h.perm.cons e)
  sublist := h.sublist.cons entry.1

/-- An entry that is taken: it was left before, and is put now. -/
theorem Takes.take {taken : List E} {entries entries' : List (E × Bool)}
    (h : Takes taken entries entries') (e : E) :
    Takes (e :: taken) ((e, false) :: entries) ((e, true) :: entries') where
  events := congrArg (e :: ·) h.events
  perm := h.perm.cons e
  sublist := h.sublist.cons_cons e

/-- A station with a prescale takes some of the events that are left. -/
theorem takePrescaled_takes (prescale : Nat) (func : E → Bool) (events_try : UInt64)
    (entries : List (E × Bool)) :
    Takes (takePrescaled prescale func events_try entries).1 entries
      (takePrescaled prescale func events_try entries).2.1 := by
  induction entries generalizing events_try with
  | nil => exact Takes.none []
  | cons entry entries ih =>
      obtain ⟨e, event_put⟩ := entry
      unfold takePrescaled
      cases event_put with
      | true => exact (ih events_try).keep (e, true)
      | false =>
          rw [if_neg Bool.false_ne_true]
          by_cases hfunc : func e = true
          · rw [if_pos hfunc]
            dsimp only
            split
            · exact (ih _).take e
            · exact (ih _).keep (e, false)
          · rw [if_neg hfunc]
            exact (ih _).keep (e, false)

/-- So does a station that takes up to `j` events by its choice. -/
theorem takeUpTo_takes (func : E → Bool) (j : Nat) (entries : List (E × Bool)) :
    Takes (takeUpTo func j entries).1 entries (takeUpTo func j entries).2 := by
  induction entries generalizing j with
  | nil =>
      unfold takeUpTo
      exact Takes.none []
  | cons entry entries ih =>
      obtain ⟨e, event_put⟩ := entry
      cases j with
      | zero =>
          unfold takeUpTo
          exact Takes.none _
      | succ j =>
          unfold takeUpTo
          by_cases hskip : (event_put || !func e) = true
          · rw [if_pos hskip]
            exact (ih (j + 1)).keep (e, event_put)
          · rw [if_neg hskip]
            have hleft : event_put = false := by
              rw [Bool.not_eq_true, Bool.or_eq_false_iff] at hskip
              exact hskip.1
            rw [hleft]
            exact (ih j).take e

/-- Without a choice, the next ones are taken, as many as are wanted or left. -/
theorem length_takeUpTo (j : Nat) (entries : List (E × Bool)) :
    (takeUpTo (fun _ => true) j entries).1.length = min j (unputOf entries).length := by
  induction entries generalizing j with
  | nil =>
      unfold takeUpTo
      simp [unputOf]
  | cons entry entries ih =>
      obtain ⟨e, event_put⟩ := entry
      cases j with
      | zero =>
          unfold takeUpTo
          rw [Nat.zero_min]
          rfl
      | succ j =>
          unfold takeUpTo
          cases event_put with
          | true => exact ih (j + 1)
          | false =>
              show (takeUpTo (fun _ => true) j entries).1.length + 1 = _
              rw [ih, unputOf_left, List.length_cons]
              omega

/-! ## §2. A batch on its way. -/

/-- Some events were written, each once, and the others are left; what one list
got is in the order of the batch. -/
structure Going (all : List E) (d : Conducting E) : Prop where
  events : d.events = all
  perm : (d.written ++ d.unput).Perm all
  left : d.events_left = d.unput.length
  parts : ∀ w ∈ d.writes, w.2.Sublist all

/-- All events were written, each once, and none is left; what one list got is in
the order of the batch. -/
structure Sent (all : List E) (d : Conducting E) : Prop where
  left : d.events_left = 0
  perm : d.written.Perm all
  parts : ∀ w ∈ d.writes, w.2.Sublist all

/-- The first time through the loop nothing was written, which the flag is to say. -/
def Fresh (d : Conducting E) : Prop :=
  d.firstimethruloop = true → d.unput = d.events ∧ d.writes = []

/-- What a station leaves of a batch: events are left, or all were written. -/
def Outcome (all : List E) (d : Conducting E) : Prop := Sent all d ∨ Going all d

variable {all : List E} {d : Conducting E}

/-- A batch of which nothing is left was sent. -/
theorem Going.sent (h : Going all d) (hleft : d.events_left = 0) : Sent all d where
  left := hleft
  perm := by
    have hnone : d.unput = [] := List.length_eq_zero_iff.mp (h.left.symm.trans hleft)
    have hperm := h.perm
    rw [hnone, List.append_nil] at hperm
    exact hperm
  parts := h.parts

/-- To go on to the next station does not change what was written. -/
theorem Outcome.onward (h : Outcome all d) : Outcome all { d with firstimethruloop := false } := by
  cases h with
  | inl h => exact Or.inl ⟨h.left, h.perm, h.parts⟩
  | inr h => exact Or.inr ⟨h.events, h.perm, h.left, h.parts⟩

/-- Behind the first station the flag is down, and promises nothing. -/
theorem fresh_onward (d : Conducting E) : Fresh { d with firstimethruloop := false } := by
  intro h
  cases h

/-- When a conductor starts, no event of the batch has been put. -/
theorem start_unput (events : List E) :
    (Conducting.start events).events = events ∧ (Conducting.start events).unput = events := by
  show (events.map fun e => (e, false)).map Prod.fst = events
    ∧ unputOf (events.map fun e => (e, false)) = events
  induction events with
  | nil => exact ⟨rfl, rfl⟩
  | cons e events ih => exact ⟨congrArg (e :: ·) ih.1, congrArg (e :: ·) ih.2⟩

/-- When a conductor starts, all events are left. -/
theorem start_going (events : List E) : Going events (.start events) where
  events := (start_unput events).1
  perm := by
    rw [(start_unput events).2]
    exact List.Perm.refl events
  left := by
    rw [(start_unput events).2]
    rfl
  parts := by
    intro w hw
    cases hw

/-- When a conductor starts, nothing was written. -/
theorem start_fresh (events : List E) : Fresh (.start events) := by
  intro _
  rw [(start_unput events).1, (start_unput events).2]
  exact ⟨rfl, rfl⟩

/-! ### Writing. -/

/-- What is written to a list joins what was written before. -/
theorem written_write (d : Conducting E) (num : Nat) (putevents : List E) :
    (d.write num putevents).written = d.written ++ putevents := by
  unfold Conducting.write
  split
  · next hnone => rw [hnone, List.append_nil]
  · simp [Conducting.written]

/-- The events that are written are not left any more. -/
theorem events_left_write (d : Conducting E) (num : Nat) (putevents : List E) :
    (d.write num putevents).events_left = d.events_left - putevents.length := by
  unfold Conducting.write
  split
  · next hnone => rw [hnone, List.length_nil, Nat.sub_zero]
  · rfl

/-- To write does not change the entries of the batch or the flag. -/
theorem allevents_write (d : Conducting E) (num : Nat) (putevents : List E) :
    (d.write num putevents).allevents = d.allevents
      ∧ (d.write num putevents).firstimethruloop = d.firstimethruloop := by
  unfold Conducting.write
  split
  · exact ⟨rfl, rfl⟩
  · exact ⟨rfl, rfl⟩

/-- What is written to one list are events of the batch in order, if those of this
time are. -/
theorem parts_write {num : Nat} {putevents : List E} (hd : ∀ w ∈ d.writes, w.2.Sublist all)
    (hput : putevents.Sublist all) : ∀ w ∈ (d.write num putevents).writes, w.2.Sublist all := by
  intro w hw
  unfold Conducting.write at hw
  split at hw
  · exact hd w hw
  · cases List.mem_append.mp hw with
    | inl hmem => exact hd w hmem
    | inr hmem =>
        rw [List.mem_singleton.mp hmem]
        exact hput

/-- Events that are taken are written, and the batch is still one of which some
were written and the others are left. -/
theorem Going.write (h : Going all d) {taken : List E} {entries : List (E × Bool)}
    (htakes : Takes taken d.allevents entries) (num : Nat) :
    Going all ({ d with allevents := entries }.write num taken) where
  events := by
    show ((Conducting.write _ num taken).allevents.map Prod.fst) = all
    rw [(allevents_write _ num taken).1]
    exact htakes.events.trans h.events
  perm := by
    have hunput : (Conducting.write { d with allevents := entries } num taken).unput
        = unputOf entries := congrArg unputOf (allevents_write _ num taken).1
    rw [written_write, hunput, List.append_assoc]
    exact (htakes.perm.append_left d.written).trans h.perm
  left := by
    have hlength := htakes.perm.length_eq
    have hleft : d.events_left = (unputOf d.allevents).length := h.left
    have hunput : (Conducting.write { d with allevents := entries } num taken).unput
        = unputOf entries := congrArg unputOf (allevents_write _ num taken).1
    rw [events_left_write, hunput]
    rw [List.length_append] at hlength
    show d.events_left - taken.length = _
    omega
  parts := by
    refine parts_write h.parts ?_
    rw [← h.events]
    exact htakes.sublist

/-- **A station** takes some of the events that are left, and writes them to its
list. -/
theorem offer_outcome (ps : EtStation E) (h : Going all d) (hfresh : Fresh d) :
    Outcome all (ps.offer d).2 := by
  unfold EtStation.offer
  cases ps.block_mode with
  | blocking =>
      dsimp only
      split
      · next hall =>
          -- everything goes into the station
          obtain ⟨hunput, hwrites⟩ := hfresh hall.2.1
          left
          refine ⟨rfl, ?_, ?_⟩
          · show ((d.writes ++ [(ps.num, d.events)]).flatMap Prod.snd).Perm all
            rw [hwrites, h.events]
            simp
          · intro w hw
            rw [hwrites] at hw
            rw [List.mem_singleton.mp hw, ← h.events]
      · exact Or.inr (h.write (takePrescaled_takes _ _ _ _) ps.num)
  | nonblocking =>
      dsimp only
      split
      · exact Or.inr (h.write (takeUpTo_takes _ _ _) ps.num)
      · exact Or.inr h

/-- So do the stations of a group one after the other, by induction over the
group. -/
theorem offerGroup_outcome (group : List (EtStation E)) :
    ∀ d : Conducting E, Going all d → Fresh d → Outcome all (offerGroup group d).2 := by
  induction group with
  | nil =>
      intro d h _
      exact Or.inr h
  | cons ps group ih =>
      intro d h hfresh
      unfold offerGroup
      by_cases hactive : ps.active = true
      · rw [if_pos hactive]
        have hoffered := offer_outcome ps h hfresh
        dsimp only
        split
        · next hleft =>
            cases hoffered with
            | inl hsent =>
                have hzero := hsent.left
                omega
            | inr hgoing =>
                exact ih _ ⟨hgoing.events, hgoing.perm, hgoing.left, hgoing.parts⟩
                  (fresh_onward _)
        · exact hoffered
      · rw [if_neg hactive]
        exact ih d h hfresh

/-! ## §3. Equal cues. -/

/-- The first time through the loop equal cues hand out the batch itself, piece by
piece. -/
theorem handEqual_first (shares : List (Nat × Nat)) :
    ∀ (eventsAlreadyPut : Nat) (d : Conducting E), d.firstimethruloop = true → d.events = all →
      (∀ w ∈ d.writes, w.2.Sublist all) →
      (handEqual eventsAlreadyPut d shares).written
          = d.written ++ (all.drop eventsAlreadyPut).take (shares.map Prod.snd).sum
        ∧ (handEqual eventsAlreadyPut d shares).events_left
          = d.events_left - ((all.drop eventsAlreadyPut).take (shares.map Prod.snd).sum).length
        ∧ ∀ w ∈ (handEqual eventsAlreadyPut d shares).writes, w.2.Sublist all := by
  induction shares with
  | nil =>
      intro eventsAlreadyPut d _ _ hparts
      rw [List.map_nil, List.sum_nil, List.take_zero, List.append_nil]
      exact ⟨rfl, rfl, hparts⟩
  | cons share shares ih =>
      intro eventsAlreadyPut d hfirst hevents hparts
      obtain ⟨num, events_toput⟩ := share
      unfold handEqual
      rw [List.map_cons, List.sum_cons]
      -- a station that gets nothing is passed over
      by_cases hnone : events_toput < 1
      · rw [if_pos hnone]
        have hrest := ih eventsAlreadyPut d hfirst hevents hparts
        rw [show events_toput = 0 by omega, Nat.zero_add]
        exact hrest
      · rw [if_neg hnone, if_pos hfirst]
        have hwrite := allevents_write d num ((d.events.drop eventsAlreadyPut).take events_toput)
        -- what a station gets is a slice of the events, behind those put already
        have hslice : ((d.events.drop eventsAlreadyPut).take events_toput).Sublist all := by
          rw [hevents]
          exact (List.take_sublist _ _).trans (List.drop_sublist _ _)
        obtain ⟨hwritten, hleft, hrest⟩ := ih (eventsAlreadyPut + events_toput) _
          (hwrite.2.trans hfirst)
          ((congrArg (List.map Prod.fst) hwrite.1).trans hevents)
          (parts_write hparts hslice)
        refine ⟨?_, ?_, hrest⟩
        · rw [hwritten, written_write, hevents, List.append_assoc, List.take_add, List.drop_drop]
        · rw [hleft, events_left_write, hevents, List.take_add, List.length_append, List.drop_drop,
            Nat.sub_sub]

/-- Later they take the events that are left, a share for each station. -/
theorem handEqual_going (shares : List (Nat × Nat)) :
    ∀ (eventsAlreadyPut : Nat) (d : Conducting E), d.firstimethruloop = false → Going all d →
      (shares.map Prod.snd).sum ≤ d.events_left →
      Going all (handEqual eventsAlreadyPut d shares)
        ∧ (handEqual eventsAlreadyPut d shares).events_left
          = d.events_left - (shares.map Prod.snd).sum := by
  induction shares with
  | nil =>
      intro eventsAlreadyPut d _ h _
      exact ⟨h, rfl⟩
  | cons share shares ih =>
      intro eventsAlreadyPut d hfirst h hsum
      obtain ⟨num, events_toput⟩ := share
      rw [List.map_cons, List.sum_cons] at hsum ⊢
      unfold handEqual
      -- a station that gets nothing is passed over
      by_cases hnone : events_toput < 1
      · rw [if_pos hnone]
        dsimp only at hsum ⊢
        rw [show events_toput = 0 by omega, Nat.zero_add] at hsum ⊢
        exact ih eventsAlreadyPut d hfirst h hsum
      · rw [if_neg hnone, if_neg (by rw [hfirst]; exact Bool.false_ne_true)]
        dsimp only at hsum ⊢
        have hwrite := allevents_write { d with
          allevents := (takeUpTo (fun _ => true) events_toput d.allevents).2 } num
          (takeUpTo (fun _ => true) events_toput d.allevents).1
        have hcount := length_takeUpTo events_toput d.allevents
        -- there are as many events left as the station is to get
        have hall : d.events_left = (unputOf d.allevents).length := h.left
        have hleft := events_left_write { d with
          allevents := (takeUpTo (fun _ => true) events_toput d.allevents).2 } num
          (takeUpTo (fun _ => true) events_toput d.allevents).1
        dsimp only at hleft
        obtain ⟨hgoing, hrest⟩ := ih (eventsAlreadyPut + events_toput) _ (hwrite.2.trans hfirst)
          (h.write (takeUpTo_takes (fun _ => true) events_toput d.allevents) num)
          (by rw [hleft]; omega)
        refine ⟨hgoing, ?_⟩
        rw [hrest, hleft]
        omega

/-- **Equal cues** take everything, if one station of the group is active. -/
theorem dealEqual_sent (group : List (EtStation E)) (hactive : group.any EtStation.active = true)
    (h : Going all d) (hfresh : Fresh d) : Sent all (dealEqual group d) := by
  have hne : (group.filter EtStation.active).map EtStation.cnt ≠ [] := by
    obtain ⟨ps, hps, hps'⟩ := List.any_eq_true.mp hactive
    exact List.ne_nil_of_length_pos (by
      rw [List.length_map]
      exact List.length_pos_of_mem (List.mem_filter.mpr ⟨hps, hps'⟩))
  obtain ⟨hlength, hsum, -⟩ := equalShares_spec hne d.events_left
  rw [List.length_map] at hlength
  unfold dealEqual
  dsimp only
  generalize equalShares _ d.events_left = numEvents at hlength hsum ⊢
  have hshares : ((((group.filter EtStation.active).map EtStation.num).zip numEvents).map
      Prod.snd).sum = d.events_left := by
    rw [List.map_snd_zip (by rw [List.length_map]; omega), hsum]
  cases hfirst : d.firstimethruloop with
  | true =>
      obtain ⟨hunput, hwrites⟩ := hfresh hfirst
      have hall : d.events_left = all.length := by
        rw [h.left, hunput, h.events]
      obtain ⟨hwritten, hleft, hparts⟩ := handEqual_first _ 0 d hfirst h.events h.parts
      rw [hshares, List.drop_zero, hall, List.take_length] at hwritten hleft
      refine ⟨by rw [hleft, Nat.sub_self], ?_, hparts⟩
      rw [hwritten]
      unfold Conducting.written
      rw [hwrites]
      exact List.Perm.refl all
  | false =>
      obtain ⟨hgoing, hleft⟩ := handEqual_going _ 0 d hfirst h (Nat.le_of_eq hshares)
      exact hgoing.sent (by rw [hleft, hshares, Nat.sub_self])

/-! ## §4. Round robin. -/

/-- The `i`-th station gets every `n`-th event from the `i`-th on: so many. -/
theorem robinShare_eq {n i : Nat} (hn : 0 < n) (hi : i < n) (events_left : Nat) :
    robinShare events_left n i = (events_left + (n - 1) - i) / n := by
  have hdiv := Nat.div_add_mod events_left n
  have hmod := Nat.mod_lt events_left hn
  unfold robinShare
  dsimp only
  generalize events_left / n = q at hdiv ⊢
  generalize events_left % n = r at hdiv hmod ⊢
  have hsucc : n * (q + 1) = n * q + n := Nat.mul_succ n q
  split
  · next hextra =>
      have hsum : events_left + (n - 1) - i = n * (q + 1) + (r - 1 - i) := by omega
      have hrest : (r - 1 - i) / n = 0 := Nat.div_eq_of_lt (by omega)
      rw [hsum, Nat.mul_add_div hn, hrest, Nat.add_zero]
  · next hextra =>
      have hsum : events_left + (n - 1) - i = n * q + (r + (n - 1) - i) := by omega
      have hrest : (r + (n - 1) - i) / n = 0 := Nat.div_eq_of_lt (by omega)
      rw [hsum, Nat.mul_add_div hn, hrest, Nat.add_zero]

/-- A station gets an event when as many are left as it has stations before it,
and one more. -/
theorem robinShare_pos {n i : Nat} (hn : 0 < n) (hi : i < n) (events_left : Nat) :
    0 < robinShare events_left n i ↔ i < events_left := by
  rw [robinShare_eq hn hi, Nat.div_pos_iff]
  omega

/-- The loop over the entries with a count of those to be skipped picks the
elements of a stride of the events that are left. -/
theorem pickEvery_eq (n : Nat) (entries : List (E × Bool)) :
    ∀ (skip : Nat) (numOfEvents : Int), 1 ≤ numOfEvents →
      pickEvery n skip numOfEvents entries
        = (stride n skip (unputOf entries)).take numOfEvents.toNat := by
  induction entries with
  | nil =>
      intro skip numOfEvents _
      unfold pickEvery unputOf stride
      rw [List.filter_nil, List.map_nil, List.take_nil]
  | cons entry entries ih =>
      intro skip numOfEvents hpos
      obtain ⟨e, event_put⟩ := entry
      unfold pickEvery
      cases event_put with
      | true => exact ih skip numOfEvents hpos
      | false =>
          rw [if_neg Bool.false_ne_true, unputOf_left]
          cases skip with
          | succ skip =>
              rw [if_pos (Nat.succ_pos skip)]
              exact ih skip numOfEvents hpos
          | zero =>
              rw [if_neg (Nat.lt_irrefl 0)]
              have hhead : stride n 0 (e :: unputOf entries)
                  = e :: stride n (n - 1) (unputOf entries) := rfl
              rw [hhead]
              by_cases hlast : numOfEvents - 1 = 0
              · rw [if_pos hlast, show numOfEvents.toNat = 0 + 1 by omega, List.take_succ_cons,
                  List.take_zero]
              · rw [if_neg hlast, ih (n - 1) (numOfEvents - 1) (by omega),
                  show numOfEvents.toNat = (numOfEvents - 1).toNat + 1 by omega,
                  List.take_succ_cons]

/-- With nothing put, what is left from an index on are the events from it on. -/
theorem unputOf_drop_of_fresh (entries : List (E × Bool))
    (h : unputOf entries = entries.map Prod.fst) (i : Nat) :
    unputOf (entries.drop i) = (entries.map Prod.fst).drop i := by
  have hcount : ∀ entry ∈ entries, (!entry.2) = true := by
    have hlength := congrArg List.length h
    unfold unputOf at hlength
    rw [List.length_map, List.length_map] at hlength
    exact List.length_filter_eq_length_iff.mp hlength
  unfold unputOf
  rw [List.filter_eq_self.mpr fun entry hentry => hcount entry (List.mem_of_mem_drop hentry),
    List.map_drop]

/-- What a turn of the dealing loop picks: a stride of the events that are left
behind its first index. -/
theorem robinPicks_eq (hfresh : Fresh d) {n i : Nat} (hn : 0 < n)
    (hpos : 0 < robinShare d.events_left n i) :
    robinPicks d n i
      = (stride n 0 (unputOf (d.allevents.drop i))).take (robinShare d.events_left n i) := by
  unfold robinPicks
  dsimp only
  split
  · next hfirst =>
      obtain ⟨hunput, -⟩ := hfresh hfirst
      rw [stride_take hn, stride_drop, unputOf_drop_of_fresh d.allevents hunput]
      rfl
  · rw [pickEvery_eq n _ 0 _ (by omega), Int.toNat_natCast]

/-- Enough events are left behind an index: at most as many as the index were
before it. -/
theorem length_unputOf_drop (entries : List (E × Bool)) (i : Nat) :
    (unputOf entries).length - i ≤ (unputOf (entries.drop i)).length := by
  have hsplit := unputOf_append (entries.take i) (entries.drop i)
  have hfront := length_unputOf_le (entries.take i)
  have hlength := congrArg List.length hsplit
  rw [List.take_append_drop, List.length_append] at hlength
  rw [List.length_take] at hfront
  omega

/-- A turn picks as many events as its station is to get. -/
theorem length_robinPicks (h : Going all d) (hfresh : Fresh d) {n i : Nat} (hn : 0 < n) (hi : i < n)
    (hpos : 0 < robinShare d.events_left n i) :
    (robinPicks d n i).length = robinShare d.events_left n i := by
  have hleft : d.events_left = (unputOf d.allevents).length := h.left
  have hdrop := length_unputOf_drop d.allevents i
  rw [robinPicks_eq hfresh hn hpos, List.length_take, length_stride hn, Nat.sub_zero]
  refine Nat.min_eq_left ?_
  rw [robinShare_eq hn hi]
  exact Nat.div_le_div_right (by omega)

/-! ### Handing out. -/

/-- Shares handed out one after the other: the second ones begin behind the first. -/
theorem handOut_append (shares shares' : List (Nat × Nat)) :
    ∀ (d : Conducting E) (putevents : List E),
      handOut d putevents (shares ++ shares')
        = handOut (handOut d putevents shares) (putevents.drop (shares.map Prod.snd).sum)
            shares' := by
  induction shares with
  | nil =>
      intro d putevents
      rfl
  | cons share shares ih =>
      intro d putevents
      obtain ⟨num, events_toput⟩ := share
      show handOut _ (putevents.drop events_toput) (shares ++ shares')
        = handOut (handOut _ _ shares) _ _
      rw [ih, List.drop_drop, List.map_cons, List.sum_cons]

/-- Stations without a share get nothing. -/
theorem handOut_none (d : Conducting E) (putevents : List E) (shares : List (Nat × Nat))
    (hnone : ∀ share ∈ shares, share.2 = 0) : handOut d putevents shares = d := by
  induction shares generalizing putevents with
  | nil => rfl
  | cons share shares ih =>
      obtain ⟨num, events_toput⟩ := share
      have hzero : events_toput = 0 := hnone _ List.mem_cons_self
      subst hzero
      exact ih _ fun other hother => hnone other (List.mem_cons_of_mem _ hother)

/-- Pieces that lie one behind the other are written one by one. -/
theorem handOut_pieces (pieces : List (Nat × List E)) :
    ∀ (d : Conducting E) (rest : List E),
      handOut d (pieces.flatMap Prod.snd ++ rest)
          (pieces.map fun piece => (piece.1, piece.2.length))
        = pieces.foldl (fun d piece => d.write piece.1 piece.2) d := by
  induction pieces with
  | nil =>
      intro d rest
      rfl
  | cons piece pieces ih =>
      intro d rest
      rw [List.flatMap_cons, List.append_assoc, List.map_cons, List.foldl_cons]
      unfold handOut
      rw [List.take_left, List.drop_left]
      exact ih _ rest

/-- The pieces written one by one: what was written, how many are left, and that
each is in order. -/
theorem foldl_write (pieces : List (Nat × List E)) :
    ∀ d : Conducting E, (∀ w ∈ d.writes, w.2.Sublist all) →
      (∀ piece ∈ pieces, piece.2.Sublist all) →
      (pieces.foldl (fun d piece => d.write piece.1 piece.2) d).written
          = d.written ++ pieces.flatMap Prod.snd
        ∧ (pieces.foldl (fun d piece => d.write piece.1 piece.2) d).events_left
          = d.events_left - (pieces.flatMap Prod.snd).length
        ∧ ∀ w ∈ (pieces.foldl (fun d piece => d.write piece.1 piece.2) d).writes,
            w.2.Sublist all := by
  induction pieces with
  | nil =>
      intro d hparts _
      rw [List.flatMap_nil, List.append_nil]
      exact ⟨rfl, rfl, hparts⟩
  | cons piece pieces ih =>
      intro d hparts hpieces
      rw [List.foldl_cons, List.flatMap_cons]
      obtain ⟨hwritten, hleft, hrest⟩ := ih (d.write piece.1 piece.2)
        (parts_write hparts (hpieces piece List.mem_cons_self))
        fun other hother => hpieces other (List.mem_cons_of_mem _ hother)
      refine ⟨?_, ?_, hrest⟩
      · rw [hwritten, written_write, List.append_assoc]
      · rw [hleft, events_left_write, List.length_append, Nat.sub_sub]

/-- The stations that get events from the round robin, each with its events. -/
def robinPieces (group : List (EtStation E)) (d : Conducting E) : List (Nat × List E) :=
  let order := robinOrder group
  (order.zipIdx.take (min order.length d.events_left)).map fun entry =>
    ((group[entry.1]?.map EtStation.num).getD 0, robinPicks d order.length entry.2)

/-- The round robin has as many stations as there are active ones. -/
theorem length_robinOrder (group : List (EtStation E)) :
    (robinOrder group).length = (activePlaces group (List.range group.length)).length := by
  unfold robinOrder
  dsimp only
  rw [List.length_take, List.length_append]
  omega

/-- With an active station the round robin has one. -/
theorem robinOrder_pos {group : List (EtStation E)} (hactive : group.any EtStation.active = true) :
    0 < (robinOrder group).length := by
  rw [length_robinOrder]
  obtain ⟨ps, hps, hps'⟩ := List.any_eq_true.mp hactive
  obtain ⟨i, hi, heq⟩ := List.mem_iff_getElem.mp hps
  refine List.length_pos_of_mem (a := i) (List.mem_filter.mpr ⟨List.mem_range.mpr hi, ?_⟩)
  rw [List.getElem?_eq_getElem hi, heq]
  exact hps'

/-- The numbers that stand beside the first elements of a list. -/
theorem snd_of_mem_take_zipIdx {A : Type} {l : List A} {m : Nat} {entry : A × Nat}
    (h : entry ∈ l.zipIdx.take m) : entry.2 < m ∧ entry.2 < l.length := by
  obtain ⟨j, hj, heq⟩ := List.mem_iff_getElem.mp h
  rw [List.getElem_take, List.getElem_zipIdx] at heq
  rw [List.length_take, List.length_zipIdx] at hj
  have hsnd := congrArg Prod.snd heq
  dsimp only at hsnd
  omega

/-- What the pieces have, one behind the other, are the picks of the turns. -/
theorem flatMap_robinPieces (group : List (EtStation E)) (d : Conducting E) :
    (robinPieces group d).flatMap Prod.snd
      = (List.range (min (robinOrder group).length d.events_left)).flatMap
          (robinPicks d (robinOrder group).length) := by
  unfold robinPieces
  dsimp only
  have hsnd : ((robinOrder group).zipIdx.take (min (robinOrder group).length d.events_left)).map
      Prod.snd = List.range (min (robinOrder group).length d.events_left) := by
    rw [List.map_take, List.zipIdx_map_snd, ← List.range_eq_range', List.take_range,
      Nat.min_eq_left (Nat.min_le_left _ _)]
  rw [← hsnd, List.flatMap_map, List.flatMap_map]

/-- **The round robin** writes its pieces one by one. -/
theorem dealRobin_eq (group : List (EtStation E)) (hactive : group.any EtStation.active = true)
    (h : Going all d) (hfresh : Fresh d) :
    (dealRobin group d).2
      = (robinPieces group d).foldl (fun d piece => d.write piece.1 piece.2) d := by
  have hn := robinOrder_pos hactive
  unfold dealRobin
  dsimp only
  generalize hm : min (robinOrder group).length d.events_left = m
  -- the stations that get events come first, and their picks too
  have hshares : ((robinOrder group).zipIdx.map fun entry =>
        ((group[entry.1]?.map EtStation.num).getD 0,
          robinShare d.events_left (robinOrder group).length entry.2))
      = (robinPieces group d).map (fun piece => (piece.1, piece.2.length))
        ++ ((robinOrder group).zipIdx.drop m).map fun entry =>
          ((group[entry.1]?.map EtStation.num).getD 0,
            robinShare d.events_left (robinOrder group).length entry.2) := by
    have hsplit := (List.take_append_drop m (robinOrder group).zipIdx).symm
    conv_lhs => rw [hsplit, List.map_append]
    unfold robinPieces
    dsimp only
    rw [hm, List.map_map]
    congr 1
    refine List.map_congr_left ?_
    intro entry hentry
    have hplace := snd_of_mem_take_zipIdx hentry
    have hlt : entry.2 < d.events_left := by omega
    show (_, robinShare _ _ entry.2) = (_, (robinPicks d _ entry.2).length)
    rw [length_robinPicks h hfresh hn hplace.2 ((robinShare_pos hn hplace.2 _).mpr hlt)]
  have hpicks : (List.range (robinOrder group).length).flatMap
        (robinPicks d (robinOrder group).length)
      = (robinPieces group d).flatMap Prod.snd
        ++ (List.range' m ((robinOrder group).length - m)).flatMap
          (robinPicks d (robinOrder group).length) := by
    rw [flatMap_robinPieces, hm, ← List.flatMap_append, ← range_split (by omega)]
  rw [hshares, hpicks, handOut_append, handOut_pieces]
  refine handOut_none _ _ _ ?_
  intro share hshare
  obtain ⟨entry, hentry, rfl⟩ := List.mem_map.mp hshare
  obtain ⟨j, hj, heq⟩ := List.mem_iff_getElem.mp hentry
  rw [List.getElem_drop, List.getElem_zipIdx] at heq
  rw [List.length_drop, List.length_zipIdx] at hj
  have hsnd : 0 + (m + j) = entry.2 := congrArg Prod.snd heq
  have hplace : entry.2 < (robinOrder group).length := by omega
  dsimp only
  refine Nat.eq_zero_of_not_pos ?_
  rw [robinShare_pos hn hplace]
  omega

/-! ### Gaps. -/

/-- No event was put before the last index from which a station is dealt: each
turn then begins with an event that is left. -/
def Conducting.Gapless (d : Conducting E) (numActiveStations : Nat) : Prop :=
  ∀ i, i + 1 < min numActiveStations d.events_left → (d.allevents[i]?.map Prod.snd) = some false

/-- The events that are left, from an index on before which none were put, are all
but the first ones. -/
theorem unputOf_drop (entries : List (E × Bool)) :
    ∀ i : Nat, (∀ j, j < i → (entries[j]?.map Prod.snd) = some false) →
      unputOf (entries.drop i) = (unputOf entries).drop i := by
  induction entries with
  | nil =>
      intro i _
      unfold unputOf
      simp
  | cons entry entries ih =>
      intro i hgap
      cases i with
      | zero => rfl
      | succ i =>
          obtain ⟨e, event_put⟩ := entry
          have hfirst : some event_put = some false := hgap 0 (Nat.succ_pos i)
          rw [Option.some.inj hfirst, unputOf_left, List.drop_succ_cons, List.drop_succ_cons]
          refine ih i ?_
          intro j hj
          have hnext := hgap (j + 1) (Nat.succ_lt_succ hj)
          rw [List.getElem?_cons_succ] at hnext
          exact hnext

/-- The strides that have elements are the list, when there are fewer elements
than strides as well. -/
theorem strides_take_perm {n : Nat} (hn : 0 < n) (l : List E) :
    ((List.range (min n l.length)).flatMap fun i => stride n i l).Perm l := by
  have hnone : (List.range' (min n l.length) (n - min n l.length)).flatMap
      (fun i => stride n i l) = [] := by
    rw [List.flatMap_eq_nil_iff]
    intro i hi
    rw [List.mem_range'_1] at hi
    exact stride_of_length_le (by omega)
  have hperm := strides_perm hn l
  rw [range_split (Nat.min_le_left n l.length), List.flatMap_append, hnone, List.append_nil]
    at hperm
  exact hperm

/-- As many events are picked as are left, with or without a gap. -/
theorem length_flatMap_picks (h : Going all d) (hfresh : Fresh d) {n : Nat} (hn : 0 < n) :
    ((List.range (min n d.events_left)).flatMap (robinPicks d n)).length = d.events_left := by
  have hleft : d.events_left = d.unput.length := h.left
  have hsame : (List.range (min n d.events_left)).map (fun i => (robinPicks d n i).length)
      = (List.range (min n d.events_left)).map fun i => (stride n i d.unput).length := by
    refine List.map_congr_left ?_
    intro i hi
    rw [List.mem_range] at hi
    rw [length_robinPicks h hfresh hn (by omega) ((robinShare_pos hn (by omega) _).mpr (by omega)),
      robinShare_eq hn (by omega), length_stride hn, hleft]
  rw [List.length_flatMap, hsame, ← List.length_flatMap, hleft]
  exact (strides_take_perm hn d.unput).length_eq

/-- Without a gap, the picks are what is left, each once. -/
theorem flatMap_picks_perm (h : Going all d) (hfresh : Fresh d) {n : Nat} (hn : 0 < n)
    (hgap : d.Gapless n) :
    ((List.range (min n d.events_left)).flatMap (robinPicks d n)).Perm d.unput := by
  have hleft : d.events_left = d.unput.length := h.left
  have hpicks : ∀ i ∈ List.range (min n d.events_left),
      robinPicks d n i = stride n i d.unput := by
    intro i hi
    rw [List.mem_range] at hi
    have hdrop : unputOf (d.allevents.drop i) = d.unput.drop i := by
      refine unputOf_drop d.allevents i ?_
      intro j hj
      exact hgap j (by omega)
    rw [robinPicks_eq hfresh hn ((robinShare_pos hn (by omega) _).mpr (by omega)), hdrop,
      ← stride_drop]
    refine List.take_of_length_le ?_
    rw [length_stride hn, robinShare_eq hn (by omega), hleft]
  rw [List.flatMap_congr hpicks, hleft]
  exact strides_take_perm hn d.unput

/-- With a gap, two stations get the same event. -/
theorem flatMap_picks_twice (h : Going all d) (hfresh : Fresh d) {n : Nat} (hn : 0 < n)
    (hgap : ¬ d.Gapless n) :
    ¬ ((List.range (min n d.events_left)).flatMap (robinPicks d n)).Nodup := by
  unfold Conducting.Gapless at hgap
  push Not at hgap
  obtain ⟨i, hi, hput⟩ := hgap
  have hleft : d.events_left = (unputOf d.allevents).length := h.left
  have hle := length_unputOf_le d.allevents
  have hlt : i < d.allevents.length := by omega
  -- the entry at `i` was put: behind it is what is left from it on
  have hentry : (d.allevents.get ⟨i, hlt⟩).2 = true := by
    rw [List.getElem?_eq_getElem hlt] at hput
    cases hval : (d.allevents.get ⟨i, hlt⟩).2 with
    | true => rfl
    | false => exact absurd (congrArg some hval) hput
  have hdrop : unputOf (d.allevents.drop i) = unputOf (d.allevents.drop (i + 1)) := by
    rw [List.drop_eq_getElem_cons hlt]
    have hpair : d.allevents[i] = ((d.allevents.get ⟨i, hlt⟩).1, true) := Prod.ext rfl hentry
    rw [hpair]
    rfl
  have hbehind := length_unputOf_drop d.allevents i
  -- both stations start with its first event
  have hpick : ∀ k, k < min n d.events_left →
      unputOf (d.allevents.drop k) = unputOf (d.allevents.drop i) →
      ∀ e rest, unputOf (d.allevents.drop i) = e :: rest → e ∈ robinPicks d n k := by
    intro k hk hsame e rest hhead
    have hpos := (robinShare_pos hn (i := k) (by omega) d.events_left).mpr (by omega)
    rw [robinPicks_eq hfresh hn hpos, hsame, hhead]
    obtain ⟨share, hshare⟩ := Nat.exists_eq_succ_of_ne_zero (Nat.ne_of_gt hpos)
    rw [hshare]
    show e ∈ (e :: stride n (n - 1) rest).take (share + 1)
    rw [List.take_succ_cons]
    exact List.mem_cons_self
  cases hhead : unputOf (d.allevents.drop i) with
  | nil =>
      rw [hhead, List.length_nil] at hbehind
      omega
  | cons e rest =>
      intro hnodup
      have hdisjoint := (List.nodup_flatMap.mp hnodup).2
      rw [List.pairwise_iff_getElem] at hdisjoint
      have happart := hdisjoint i (i + 1) (by rw [List.length_range]; omega)
        (by rw [List.length_range]; omega) (Nat.lt_succ_self i)
      simp only [List.getElem_range] at happart
      exact happart (hpick i (by omega) rfl e rest hhead)
        (hpick (i + 1) (by omega) hdrop.symm e rest hhead)

/-! ### What the round robin has written. -/

/-- The events of a piece are in the order of the batch. -/
theorem robinPieces_sublist (group : List (EtStation E)) (h : Going all d) (hfresh : Fresh d)
    (hactive : group.any EtStation.active = true) :
    ∀ piece ∈ robinPieces group d, piece.2.Sublist all := by
  intro piece hpiece
  obtain ⟨entry, hentry, rfl⟩ := List.mem_map.mp hpiece
  have hplace := snd_of_mem_take_zipIdx hentry
  have hn := robinOrder_pos hactive
  rw [← h.events]
  show (robinPicks d _ entry.2).Sublist (d.allevents.map Prod.fst)
  rw [robinPicks_eq hfresh hn ((robinShare_pos hn hplace.2 _).mpr (by omega))]
  exact (List.take_sublist _ _).trans ((stride_sublist _ _ _).trans
    ((unputOf_sublist _).trans ((List.drop_sublist _ _).map Prod.fst)))

/-- What the round robin has written are its picks, behind what was written
before. -/
theorem dealRobin_written (group : List (EtStation E))
    (hactive : group.any EtStation.active = true) (h : Going all d) (hfresh : Fresh d) :
    (dealRobin group d).2.written
        = d.written ++ (List.range (min (robinOrder group).length d.events_left)).flatMap
            (robinPicks d (robinOrder group).length)
      ∧ (dealRobin group d).2.events_left = 0
      ∧ ∀ w ∈ (dealRobin group d).2.writes, w.2.Sublist all := by
  have hwrites := foldl_write (robinPieces group d) d h.parts
    (robinPieces_sublist group h hfresh hactive)
  rw [← dealRobin_eq group hactive h hfresh, flatMap_robinPieces,
    length_flatMap_picks h hfresh (robinOrder_pos hactive), Nat.sub_self] at hwrites
  exact hwrites

/-- **Round robin** takes everything, if no event was put before the indices
from which it deals. -/
theorem dealRobin_sent (group : List (EtStation E)) (hactive : group.any EtStation.active = true)
    (h : Going all d) (hfresh : Fresh d) (hgap : d.Gapless (robinOrder group).length) :
    Sent all (dealRobin group d).2 := by
  obtain ⟨hwritten, hleft, hparts⟩ := dealRobin_written group hactive h hfresh
  refine ⟨hleft, ?_, hparts⟩
  rw [hwritten]
  exact ((flatMap_picks_perm h hfresh (robinOrder_pos hactive) hgap).append_left _).trans h.perm

/-- With an event put before these indices the round robin writes another event
twice. -/
theorem dealRobin_twice (group : List (EtStation E)) (hactive : group.any EtStation.active = true)
    (h : Going all d) (hfresh : Fresh d) (hgap : ¬ d.Gapless (robinOrder group).length) :
    ¬ (dealRobin group d).2.written.Nodup := by
  rw [(dealRobin_written group hactive h hfresh).1]
  intro hnodup
  exact flatMap_picks_twice h hfresh (robinOrder_pos hactive) hgap
    (List.nodup_append.mp hnodup).2.1

/-! ## §5. The chain. -/

/-- The batch comes to a place of the chain without a gap, if it is a group
that deals round robin. -/
def Slot.Gapless (slot : Slot E) (d : Conducting E) : Prop :=
  match slot with
  | .serial _ => True
  | .parallel ps others =>
      (ps :: others).any EtStation.active = true → ps.select_mode = .rrobin →
        d.Gapless (robinOrder (ps :: others)).length

/-- The batch comes without a gap to each place of the chain that deals round
robin. -/
def GaplessRun : List (Slot E) → Conducting E → Prop
  | [], _ => True
  | slot :: slots, d =>
      d.events_left = 0 ∨
        (slot.Gapless d ∧ GaplessRun slots { (slot.visit d).2 with firstimethruloop := false })

/-- **What a place of the chain does** to a batch that has no gap. -/
theorem visit_outcome (slot : Slot E) (h : Going all d) (hfresh : Fresh d)
    (hgap : slot.Gapless d) : Outcome all (slot.visit d).2 := by
  unfold Slot.visit
  cases slot with
  | serial ps =>
      dsimp only
      split
      · exact offer_outcome ps h hfresh
      · exact Or.inr h
  | parallel ps others =>
      dsimp only
      split
      · next hactive =>
          cases hmode : ps.select_mode with
          | rrobin => exact Or.inl (dealRobin_sent _ hactive h hfresh (hgap hactive hmode))
          | equalcue => exact Or.inl (dealEqual_sent _ hactive h hfresh)
          | all => exact offerGroup_outcome _ d h hfresh
          | matching => exact offerGroup_outcome _ d h hfresh
          | user => exact offerGroup_outcome _ d h hfresh
      · exact Or.inr h

/-- What a place of the chain does to a batch that has a gap there: nothing is
left, and an event was written twice. -/
theorem visit_twice (slot : Slot E) (h : Going all d) (hfresh : Fresh d)
    (hgap : ¬ slot.Gapless d) :
    (slot.visit d).2.events_left = 0 ∧ ¬ (slot.visit d).2.written.Nodup
      ∧ ∀ w ∈ (slot.visit d).2.writes, w.2.Sublist all := by
  cases slot with
  | serial ps => exact absurd trivial hgap
  | parallel ps others =>
      unfold Slot.Gapless at hgap
      push Not at hgap
      obtain ⟨hactive, hmode, hgap⟩ := hgap
      have hwritten := dealRobin_written (ps :: others) hactive h hfresh
      unfold Slot.visit
      dsimp only
      rw [if_pos hactive, hmode]
      exact ⟨hwritten.2.1, dealRobin_twice _ hactive h hfresh hgap, hwritten.2.2⟩

/-- At the end of the chain the events that are left go to GrandCentral, and all
were written. -/
theorem toGrandCentral_sent (h : Going all d) (hfresh : Fresh d) : Sent all d.toGrandCentral := by
  unfold Conducting.toGrandCentral
  split
  · next hleft => exact h.sent hleft
  · next hleft =>
    have hput : (if d.firstimethruloop = true then d.events else d.unput) = d.unput := by
      split
      · next hfirst => exact (hfresh hfirst).1.symm
      · rfl
    have hsome : ¬ d.unput = [] := by
      intro hnil
      have hzero := h.left
      rw [hnil, List.length_nil] at hzero
      omega
    dsimp only
    rw [hput, if_neg hsome]
    refine ⟨rfl, ?_, ?_⟩
    · show ((d.writes ++ [(grandcentral, d.unput)]).flatMap Prod.snd).Perm all
      rw [List.flatMap_append, List.flatMap_singleton]
      exact h.perm
    · intro w hw
      cases List.mem_append.mp hw with
      | inl hmem => exact h.parts w hmem
      | inr hmem =>
          rw [List.mem_singleton.mp hmem, ← h.events]
          exact unputOf_sublist d.allevents

/-- With nothing left, the chain does nothing more, whatever stations follow. -/
theorem conduct_none (slots : List (Slot E)) (hleft : d.events_left = 0) :
    (conduct slots d).2 = d := by
  cases slots with
  | nil =>
      show d.toGrandCentral = d
      unfold Conducting.toGrandCentral
      rw [if_pos hleft]
  | cons slot slots =>
      unfold conduct
      rw [if_pos hleft]

/-- A batch on its way down the chain, by induction over the places: it is written
once if it has no gap, and else an event is written twice. -/
theorem conduct_going (slots : List (Slot E)) :
    ∀ d : Conducting E, Going all d → Fresh d →
      (conduct slots d).2.events_left = 0
        ∧ (∀ w ∈ (conduct slots d).2.writes, w.2.Sublist all)
        ∧ (GaplessRun slots d → (conduct slots d).2.written.Perm all)
        ∧ (¬ GaplessRun slots d → ¬ (conduct slots d).2.written.Nodup) := by
  induction slots with
  | nil =>
      intro d h hfresh
      have hsent := toGrandCentral_sent h hfresh
      exact ⟨hsent.left, hsent.parts, fun _ => hsent.perm, fun hgap => absurd trivial hgap⟩
  | cons slot slots ih =>
      intro d h hfresh
      by_cases hleft : d.events_left = 0
      · rw [conduct_none (slot :: slots) hleft]
        have hsent := h.sent hleft
        exact ⟨hleft, h.parts, fun _ => hsent.perm, fun hgap => absurd (Or.inl hleft) hgap⟩
      · have hrun : GaplessRun (slot :: slots) d ↔ slot.Gapless d
            ∧ GaplessRun slots { (slot.visit d).2 with firstimethruloop := false } :=
          or_iff_right hleft
        have hnext : (conduct (slot :: slots) d).2
            = (conduct slots { (slot.visit d).2 with firstimethruloop := false }).2 := by
          conv_lhs => unfold conduct
          rw [if_neg hleft]
        rw [hrun, hnext]
        by_cases hgap : slot.Gapless d
        · cases (visit_outcome slot h hfresh hgap).onward with
          | inl hsent =>
              rw [conduct_none slots hsent.left]
              refine ⟨hsent.left, hsent.parts, fun _ => hsent.perm, ?_⟩
              intro hstop
              -- nothing is left, so the rest has no gap
              have hrest : GaplessRun slots
                  { (slot.visit d).2 with firstimethruloop := false } := by
                cases slots with
                | nil => exact trivial
                | cons _ _ => exact Or.inl hsent.left
              exact absurd ⟨hgap, hrest⟩ hstop
          | inr hgoing =>
              obtain ⟨hzero, hparts, hperm, htwice⟩ := ih _ hgoing (fresh_onward _)
              refine ⟨hzero, hparts, fun hboth => hperm hboth.2, ?_⟩
              intro hstop
              exact htwice fun hrest => hstop ⟨hgap, hrest⟩
        · obtain ⟨hzero, htwice, hparts⟩ := visit_twice slot h hfresh hgap
          rw [conduct_none slots (d := { (slot.visit d).2 with firstimethruloop := false }) hzero]
          exact ⟨hzero, hparts, fun hboth => absurd hboth.1 hgap, fun _ => htwice⟩

/-- **A batch is written once** if and only if it comes to each round robin
without a gap.  In any case the conductor has nothing left, and what it writes
to a list keeps the order of the batch. -/
theorem conduct_once_iff (slots : List (Slot E)) (events : List E) (hnodup : events.Nodup) :
    (conduct slots (.start events)).2.events_left = 0
      ∧ (∀ w ∈ (conduct slots (.start events)).2.writes, w.2.Sublist events)
      ∧ ((conduct slots (.start events)).2.written.Perm events
          ↔ GaplessRun slots (.start events)) := by
  obtain ⟨hleft, hparts, hperm, htwice⟩ :=
    conduct_going slots (.start events) (start_going events) (start_fresh events)
  refine ⟨hleft, hparts, ?_, hperm⟩
  intro hwritten
  by_contra hgap
  exact htwice hgap (hwritten.nodup_iff.mpr hnodup)

/-- A station that takes every second event. -/
def everySecond : EtStation Nat :=
  ⟨1, true, .blocking, .all, 2, 10, fun _ => true, false, 0, 0⟩

/-- A station of a round robin group. -/
def dealt (num : Nat) : EtStation Nat :=
  ⟨num, true, .blocking, .rrobin, 1, 10, fun _ => true, false, 0, 0⟩

/-- A round robin group as the first place of the chain, to which no batch comes
with a gap: all events are written once. -/
theorem conduct_once_iff_dealt :
    [10, 11, 12].Nodup
      ∧ (conduct [.parallel (dealt 2) [dealt 3]] (.start [10, 11, 12])).2.events_left = 0
      ∧ (∀ w ∈ (conduct [.parallel (dealt 2) [dealt 3]] (.start [10, 11, 12])).2.writes,
          w.2.Sublist [10, 11, 12])
      ∧ (conduct [.parallel (dealt 2) [dealt 3]] (.start [10, 11, 12])).2.written.Perm
          [10, 11, 12] := by
  obtain ⟨hleft, hparts, hperm⟩ :=
    conduct_once_iff [.parallel (dealt 2) [dealt 3]] [10, 11, 12] (by decide)
  have hgap : (Conducting.start [10, 11, 12]).Gapless (robinOrder [dealt 2, dealt 3]).length := by
    intro i hi
    have hactive : (robinOrder [dealt 2, dealt 3]).length = 2 := by decide
    obtain rfl : i = 0 := by omega
    rfl
  exact ⟨by decide, hleft, hparts, hperm.mpr (Or.inr ⟨fun _ _ => hgap, trivial⟩)⟩

/-- Behind a station that takes every second event, the group gets event 11
twice, and 13 never. -/
example : (conduct [.serial everySecond, .parallel (dealt 2) [dealt 3]]
    (.start [10, 11, 12, 13])).2.writes = [(1, [10, 12]), (2, [11]), (3, [11])] := by decide

end PokerReco.ET
