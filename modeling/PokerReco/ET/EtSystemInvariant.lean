/-
  PokerReco.ET.EtSystemInvariant
  ──────────────────────────────
  **WHERE THE EVENTS OF AN ET SYSTEM ARE.**

  Each event is in one place: in the input or output list of a station, with
  an attachment, or with a conductor.  High priority events come first in
  every list but the input list of GrandCentral.

      HighFirst         the order in a list
      Carries           the events of a conductor at work
      Accounts          the invariant of the system
      Accounts.move     events go from one place to another
-/
import PokerReco.ET.EtSystem
import PokerReco.ET.EventListSpec
import PokerReco.Library.Placement

namespace PokerReco.ET

open PokerReco.Library

variable {P : Type}

/-! ## §1. The order in a list. -/

/-- No high priority event stands behind another one: the order that the lists of
a station keep. -/
def HighFirst (priority : P → Priority) (l : List P) : Prop :=
  l.Pairwise fun p q => priority q = .high → priority p = .high

/-- Events taken out of such a list leave it in order. -/
theorem HighFirst.sublist {priority : P → Priority} {l l' : List P} (h : HighFirst priority l)
    (hsub : l'.Sublist l) : HighFirst priority l' := List.Pairwise.sublist hsub h

/-- Only the priorities of the events in the list count. -/
theorem HighFirst.congr {priority priority' : P → Priority} {l : List P}
    (h : HighFirst priority l) (hsame : ∀ p ∈ l, priority' p = priority p) :
    HighFirst priority' l := by
  refine List.Pairwise.imp_of_mem ?_ h
  intro p q hp hq hpq hhigh
  rw [hsame p hp]
  rw [hsame q hq] at hhigh
  exact hpq hhigh

/-- The high priority events at the front of a list depend on the priorities of
its events only. -/
theorem highs_congr {priority priority' : P → Priority} {l : List P}
    (hsame : ∀ p ∈ l, priority' p = priority p) : highs priority' l = highs priority l := by
  induction l with
  | nil => rfl
  | cons p l ih =>
      have hp := hsame p List.mem_cons_self
      have hl := ih fun q hq => hsame q (List.mem_cons_of_mem p hq)
      by_cases hhigh : priority p = .high
      · rw [highs_cons_high hhigh, highs_cons_high (hp.trans hhigh), hl]
      · rw [highs_cons_low hhigh, highs_cons_low (by rw [hp]; exact hhigh)]

/-- What stands at the front of a list in order has high priority. -/
theorem mem_highs {priority : P → Priority} {l : List P} {p : P} (h : p ∈ highs priority l) :
    priority p = .high := by
  have hmem := List.mem_takeWhile_imp (p := fun q => decide (priority q = .high)) h
  exact of_decide_eq_true hmem

/-- Behind the first high priority events there are no others. -/
theorem HighFirst.mem_lows {priority : P → Priority} {l : List P} (h : HighFirst priority l)
    {p : P} (hp : p ∈ lows priority l) : priority p ≠ .high := by
  induction l with
  | nil => cases hp
  | cons q l ih =>
      obtain ⟨hq, hl⟩ := List.pairwise_cons.mp h
      by_cases hhigh : priority q = .high
      · rw [lows_cons_high hhigh] at hp
        exact ih hl hp
      · rw [lows_cons_low hhigh] at hp
        cases List.mem_cons.mp hp with
        | inl heq =>
            rw [heq]
            exact hhigh
        | inr hmem => exact fun hp' => hhigh (hq p hmem hp')

/-- High priority events with others behind them are in order, and they are
its front. -/
theorem highFirst_append {priority : P → Priority} {l l' : List P}
    (h : ∀ p ∈ l, priority p = .high) (h' : ∀ p ∈ l', priority p ≠ .high) :
    HighFirst priority (l ++ l') ∧ highs priority (l ++ l') = l := by
  induction l with
  | nil =>
      constructor
      · exact List.pairwise_iff_forall_sublist.mpr fun {p q} hsub hhigh =>
          absurd hhigh (h' q (hsub.subset (List.mem_cons_of_mem p List.mem_cons_self)))
      · cases l' with
        | nil => rfl
        | cons p l' => exact highs_cons_low (h' p List.mem_cons_self) l'
  | cons q l ih =>
      obtain ⟨hfirst, hhighs⟩ := ih fun p hp => h p (List.mem_cons_of_mem q hp)
      have hq := h q List.mem_cons_self
      constructor
      · exact List.pairwise_cons.mpr ⟨fun p _ _ => hq, hfirst⟩
      · rw [List.cons_append, highs_cons_high hq, hhighs]

/-- **`et_llist_write` and `et_restore`** keep the order: new high priority events
go behind those that are there, and the others to the end. -/
theorem mergeHigh_highFirst {priority : P → Priority} {l pe : List P} (h : HighFirst priority l)
    (hpe : HighFirst priority pe) :
    HighFirst priority (mergeHigh priority l pe)
      ∧ highs priority (mergeHigh priority l pe) = highs priority l ++ highs priority pe := by
  unfold mergeHigh
  rw [List.append_assoc (_ ++ _)]
  refine highFirst_append ?_ ?_
  · intro p hp
    cases List.mem_append.mp hp with
    | inl hl => exact mem_highs hl
    | inr hr => exact mem_highs hr
  · intro p hp
    cases List.mem_append.mp hp with
    | inl hl => exact h.mem_lows hl
    | inr hr => exact hpe.mem_lows hr

/-- A list that is merged with another one has the events of both. -/
theorem mergeAt_perm (priority : P → Priority) (k : Nat) (l pe : List P) :
    (mergeAt priority k l pe).Perm (l ++ pe) := by
  have hpe := List.filter_append_perm (fun p => decide (priority p = .high)) pe
  simp only [← decide_not] at hpe
  unfold mergeAt
  have hmiddle : (l.take k ++ pe.filter (priority · = .high)
        ++ (l.drop k ++ pe.filter (priority · ≠ .high))).Perm
      (l.take k ++ (l.drop k ++ (pe.filter (priority · = .high)
        ++ pe.filter (priority · ≠ .high)))) := by
    rw [List.append_assoc]
    refine List.Perm.append_left _ ?_
    rw [← List.append_assoc, ← List.append_assoc]
    exact List.perm_append_comm.append_right _
  refine hmiddle.trans ?_
  rw [← List.append_assoc, List.take_append_drop]
  exact hpe.append_left l

/-- **`et_station_nwrite`** keeps the order, and its count of high priority events
stays within them. -/
theorem mergeAt_highFirst {priority : P → Priority} {k : Nat} {l : List P}
    (h : HighFirst priority l) (hk : k ≤ (highs priority l).length) (pe : List P) :
    HighFirst priority (mergeAt priority k l pe)
      ∧ k + (pe.filter (priority · = .high)).length
        ≤ (highs priority (mergeAt priority k l pe)).length := by
  have hsplit := highs_append_lows priority l
  -- `k` is not beyond the events of high priority
  have htake : l.take k = (highs priority l).take k := by
    conv_lhs => rw [← hsplit]
    exact List.take_append_of_le_length hk
  have hdrop : l.drop k = (highs priority l).drop k ++ lows priority l := by
    conv_lhs => rw [← hsplit]
    exact List.drop_append_of_le_length hk
  -- all that is put in front of the low ones is of high priority
  have hmerge : mergeAt priority k l pe
      = ((highs priority l).take k ++ pe.filter (priority · = .high)
          ++ (highs priority l).drop k)
        ++ (lows priority l ++ pe.filter (priority · ≠ .high)) := by
    unfold mergeAt
    rw [htake, hdrop]
    simp only [List.append_assoc]
  have hfront : ∀ p ∈ (highs priority l).take k ++ pe.filter (priority · = .high)
      ++ (highs priority l).drop k, priority p = .high := by
    intro p hp
    rw [List.mem_append, List.mem_append] at hp
    obtain (hp | hp) | hp := hp
    · exact mem_highs (List.mem_of_mem_take hp)
    · exact of_decide_eq_true (List.mem_filter.mp hp).2
    · exact mem_highs (List.mem_of_mem_drop hp)
  have hback : ∀ p ∈ lows priority l ++ pe.filter (priority · ≠ .high), priority p ≠ .high := by
    intro p hp
    cases List.mem_append.mp hp with
    | inl hl => exact h.mem_lows hl
    | inr hr => exact of_decide_eq_true (List.mem_filter.mp hr).2
  have hparts := highFirst_append hfront hback
  rw [hmerge]
  refine ⟨hparts.1, ?_⟩
  rw [hparts.2, List.length_append, List.length_append, List.length_take]
  omega

/-! ## §2. A conductor at work. -/

/-- A conductor has written more, and each time some events; the batch is
the same. -/
structure Onward (d d' : Conducting P) : Prop where
  writes : ∃ new, d'.writes = d.writes ++ new ∧ ∀ w ∈ new, w.2 ≠ []
  length : d'.allevents.length = d.allevents.length

/-- A conductor that has written nothing more is where it was. -/
theorem Onward.refl (d : Conducting P) : Onward d d where
  writes := ⟨[], (List.append_nil _).symm, fun _ hw => absurd hw List.not_mem_nil⟩
  length := rfl

/-- What it writes at two places is what it writes on the way over both. -/
theorem Onward.trans {d d' d'' : Conducting P} (h : Onward d d') (h' : Onward d' d'') :
    Onward d d'' := by
  obtain ⟨new, hnew, hsome⟩ := h.writes
  obtain ⟨new', hnew', hsome'⟩ := h'.writes
  refine ⟨⟨new ++ new', ?_, ?_⟩, h'.length.trans h.length⟩
  · rw [hnew', hnew, List.append_assoc]
  · intro w hw
    cases List.mem_append.mp hw with
    | inl hw => exact hsome w hw
    | inr hw => exact hsome' w hw

/-- A write to a station adds to what was written, unless it is empty. -/
theorem write_onward (d : Conducting P) (num : Nat) (putevents : List P) :
    Onward d (d.write num putevents) := by
  unfold Conducting.write
  split
  · exact Onward.refl d
  · next hsome =>
      refine ⟨⟨[(num, putevents)], rfl, ?_⟩, rfl⟩
      intro w hw
      rw [List.mem_singleton.mp hw]
      exact hsome

/-- Some entries were marked, and something was written for them. -/
theorem mark_onward {d : Conducting P} {taken : List P} {entries : List (P × Bool)}
    (h : Takes taken d.allevents entries) (num : Nat) (putevents : List P) :
    Onward d ({ d with allevents := entries }.write num putevents) := by
  have hlength := congrArg List.length h.events
  rw [List.length_map, List.length_map] at hlength
  have hmark : Onward d { d with allevents := entries } :=
    ⟨(Onward.refl d).writes, hlength⟩
  exact hmark.trans (write_onward _ num putevents)

/-- A station to which a batch is offered lets the conductor write on. -/
theorem offer_onward (ps : EtStation P) {d : Conducting P} (hne : d.allevents ≠ []) :
    Onward d (ps.offer d).2 := by
  unfold EtStation.offer
  cases ps.block_mode with
  | blocking =>
      dsimp only
      split
      · refine ⟨⟨[(ps.num, d.events)], rfl, ?_⟩, rfl⟩
        intro w hw
        rw [List.mem_singleton.mp hw]
        exact mt List.map_eq_nil_iff.mp hne
      · exact mark_onward (takePrescaled_takes _ _ _ _) _ _
  | nonblocking =>
      dsimp only
      split
      · exact mark_onward (takeUpTo_takes _ _ _) _ _
      · exact Onward.refl d

/-- So does a group, station by station. -/
theorem offerGroup_onward (group : List (EtStation P)) :
    ∀ d : Conducting P, d.allevents ≠ [] → Onward d (offerGroup group d).2 := by
  induction group with
  | nil =>
      intro d _
      exact Onward.refl d
  | cons ps group ih =>
      intro d hne
      unfold offerGroup
      by_cases hactive : ps.active = true
      · rw [if_pos hactive]
        -- `offer` marks events and drops none, so the next station has some to look at
        have hoffer := offer_onward ps hne
        have hne' : (ps.offer d).2.allevents ≠ [] := by
          have hpos := List.length_pos_of_ne_nil hne
          exact List.ne_nil_of_length_pos (by rw [hoffer.length]; exact hpos)
        dsimp only
        split
        · have hrest := ih { (ps.offer d).2 with firstimethruloop := false } hne'
          exact hoffer.trans ⟨hrest.writes, hrest.length⟩
        · exact hoffer
      · rw [if_neg hactive]
        exact ih d hne

/-- Pieces that are handed out are written one behind the other. -/
theorem handOut_onward (shares : List (Nat × Nat)) :
    ∀ (d : Conducting P) (putevents : List P), Onward d (handOut d putevents shares) := by
  induction shares with
  | nil =>
      intro d putevents
      exact Onward.refl d
  | cons share shares ih =>
      intro d putevents
      exact (write_onward d share.1 (putevents.take share.2)).trans (ih _ _)

/-- Shares of equal cues are written one behind the other. -/
theorem handEqual_onward (shares : List (Nat × Nat)) :
    ∀ (eventsAlreadyPut : Nat) (d : Conducting P),
      Onward d (handEqual eventsAlreadyPut d shares) := by
  induction shares with
  | nil =>
      intro eventsAlreadyPut d
      exact Onward.refl d
  | cons share shares ih =>
      intro eventsAlreadyPut d
      obtain ⟨num, events_toput⟩ := share
      unfold handEqual
      split
      · exact ih eventsAlreadyPut d
      · split
        · exact (write_onward d num _).trans (ih _ _)
        · exact (mark_onward (takeUpTo_takes _ _ _) num _).trans (ih _ _)

/-- Any place of the chain lets the conductor write on. -/
theorem visit_onward (slot : Slot P) {d : Conducting P} (hne : d.allevents ≠ []) :
    Onward d (slot.visit d).2 := by
  unfold Slot.visit
  cases slot with
  | serial ps =>
      dsimp only
      split
      · exact offer_onward ps hne
      · exact Onward.refl d
  | parallel ps others =>
      dsimp only
      split
      · cases ps.select_mode with
        | rrobin => exact handOut_onward _ d _
        | equalcue => exact handEqual_onward _ 0 d
        | all => exact offerGroup_onward _ d hne
        | matching => exact offerGroup_onward _ d hne
        | user => exact offerGroup_onward _ d hne
      · exact Onward.refl d

/-- At the end of the chain it writes on, to GrandCentral. -/
theorem toGrandCentral_onward (d : Conducting P) : Onward d d.toGrandCentral := by
  unfold Conducting.toGrandCentral
  split
  · exact Onward.refl d
  · generalize (if d.firstimethruloop = true then d.events else d.unput) = putevents
    dsimp only
    split
    · exact Onward.refl d
    · next hsome =>
        refine ⟨⟨[(grandcentral, putevents)], rfl, ?_⟩, rfl⟩
        intro w hw
        rw [List.mem_singleton.mp hw]
        exact hsome

/-- The events that are left of a batch, and none when the count says that
none is. -/
def Conducting.rest (d : Conducting P) : List P := if d.events_left = 0 then [] else d.unput

/-- What was written and what is left are the batch, at any place of the chain. -/
theorem Outcome.perm {all : List P} {d : Conducting P} (h : Outcome all d) :
    (d.written ++ d.rest).Perm all := by
  unfold Conducting.rest
  cases h with
  | inl hsent =>
      rw [if_pos hsent.left, List.append_nil]
      exact hsent.perm
  | inr hgoing =>
      split
      · next hleft =>
          rw [List.append_nil]
          exact (hgoing.sent hleft).perm
      · exact hgoing.perm

/-- What is written to one list is in the order of the batch. -/
theorem Outcome.parts {all : List P} {d : Conducting P} (h : Outcome all d) :
    ∀ w ∈ d.writes, w.2.Sublist all := by
  cases h with
  | inl hsent => exact hsent.parts
  | inr hgoing => exact hgoing.parts

/-- **The events of a conductor at work**: what it has decided to write, and
what is left of the batch `all`.  Events of the batch that it has written may
have another priority by now: `priority` is the one they had. -/
structure Carries (all : List P) (priority : P → Priority) (c : AtWork P) (hand : List P) :
    Prop where
  ne : all ≠ []
  order : HighFirst priority all
  outcome : Outcome all c.d
  fresh : c.d.events_left ≠ 0 → Fresh c.d
  parts : ∀ w ∈ c.pending, w.2 ≠ [] ∧ w.2.Sublist all
  perm : (c.pending.flatMap Prod.snd ++ c.d.rest).Perm hand

/-- What the conductor decides at the next place: it goes on with what is left,
and carries what it has decided to write. -/
theorem Carries.decide {all : List P} {priority : P → Priority} {d d' : Conducting P}
    {place place' : Nat} {hand : List P} (h : Carries all priority ⟨d, place, []⟩ hand)
    (honward : Onward d d') (houtcome : Outcome all d')
    (hfresh : d'.events_left ≠ 0 → Fresh d') :
    Carries all priority ⟨d', place', d'.writes.drop d.writes.length⟩ hand where
  ne := h.ne
  order := h.order
  outcome := houtcome
  fresh := hfresh
  parts := by
    obtain ⟨new, hnew, hsome⟩ := honward.writes
    intro w hw
    dsimp only at hw
    rw [hnew, List.drop_left] at hw
    refine ⟨hsome w hw, houtcome.parts w ?_⟩
    rw [hnew]
    exact List.mem_append_right _ hw
  perm := by
    obtain ⟨new, hnew, -⟩ := honward.writes
    have hbefore := h.outcome.perm
    have hafter := houtcome.perm
    have hwritten : d'.written = d.written ++ new.flatMap Prod.snd := by
      unfold Conducting.written
      rw [hnew, List.flatMap_append]
    rw [hwritten, List.append_assoc] at hafter
    -- what was left is what is written now, and what is left now
    have hrest := (List.perm_append_left_iff d.written).mp (hafter.trans hbefore.symm)
    dsimp only
    rw [hnew, List.drop_left]
    exact hrest.trans h.perm

/-! ## §3. The places. -/

/-- Where an event can be: in one of the two lists of a station, with an
attachment, or with a conductor. -/
inductive Place where
  | list_in (k : Nat)
  | list_out (k : Nat)
  | attachment (att : Nat)
  | conductor (k : Nat)
  deriving DecidableEq, Repr

/-- The owner of the events in a place, as their member says: an attachment, or
the system. -/
def Place.owner : Place → Option Nat
  | attachment att => some att
  | _ => none

/-- The input list of a station: it is linked and counted, and in order but for
GrandCentral. -/
structure InOk (s : EtSystem P) (k : Nat) (l : List P) : Prop where
  holds : Holds s.m.next (s.list_in k) l
  order : k ≠ grandcentral → HighFirst s.m.priority l

/-- The output list of a station: it is linked, counted and in order, and knows
its last high priority event. -/
structure OutOk (s : EtSystem P) (k : Nat) (l : List P) : Prop where
  holds : Holds s.m.next (s.list_out k) l
  order : HighFirst s.m.priority l
  lasthigh : (s.list_out k).lasthigh ≤ (highs s.m.priority l).length

/-- The events of a conductor are those that it carries, and none when it
does not work. -/
def Working (now : P → Priority) (l : List P) : Option (AtWork P) → Prop
  | none => l = []
  | some c => ∃ all priority, Carries all priority c l ∧ ∀ p ∈ l, priority p = now p

/-- What the system has in a place fits the events that are in it. -/
def PlaceOk (s : EtSystem P) (l : List P) : Place → Prop
  | .list_in k => InOk s k l
  | .list_out k => OutOk s k l
  | .attachment _ => True
  | .conductor k => Working s.m.priority l (s.conductor k)

/-- The list or the conductor of a place is the same in both states. -/
def SameAt (s s' : EtSystem P) : Place → Prop
  | .list_in k => s'.list_in k = s.list_in k
  | .list_out k => s'.list_out k = s.list_out k
  | .attachment _ => True
  | .conductor k => s'.conductor k = s.conductor k

/-- A place is not concerned by a step that leaves its list and the members of its
events alone. -/
theorem PlaceOk.congr {s s' : EtSystem P} {l : List P} {q : Place} (h : PlaceOk s l q)
    (hsame : SameAt s s' q) (hnext : ∀ p ∈ l, s'.m.next p = s.m.next p)
    (hpriority : ∀ p ∈ l, s'.m.priority p = s.m.priority p) : PlaceOk s' l q := by
  cases q with
  | list_in k =>
      have hlist : s'.list_in k = s.list_in k := hsame
      have hk : InOk s k l := h
      refine InOk.mk ?_ fun hne => (hk.order hne).congr hpriority
      rw [hlist]
      exact hk.holds.congr hnext
  | list_out k =>
      have hlist : s'.list_out k = s.list_out k := hsame
      have hk : OutOk s k l := h
      refine OutOk.mk ?_ (hk.order.congr hpriority) ?_
      · rw [hlist]
        exact hk.holds.congr hnext
      · rw [hlist, highs_congr hpriority]
        exact hk.lasthigh
  | attachment att => exact trivial
  | conductor k =>
      have hsame' : s'.conductor k = s.conductor k := hsame
      have hk : Working s.m.priority l (s.conductor k) := h
      show Working s'.m.priority l (s'.conductor k)
      rw [hsame']
      cases hwork : s.conductor k with
      | none =>
          rw [hwork] at hk
          exact hk
      | some c =>
          rw [hwork] at hk
          obtain ⟨all, priority, hcarries, hnow⟩ := hk
          exact ⟨all, priority, hcarries, fun p hp => (hnow p hp).trans (hpriority p hp).symm⟩

/-- **The invariant**: `content` are the events in each place, each event is in
one, and each place fits its events. -/
structure Accounts (s : EtSystem P) (content : Place → List P) (place : P → Place) : Prop where
  placed : Placement content place
  complete : ∀ p, p ∈ s.events
  nodup : s.events.Nodup
  nevents : s.nevents = s.events.length
  pos : 0 < s.nevents
  owner : ∀ p, s.m.owner p = (place p).owner
  ok : ∀ q, PlaceOk s (content q) q

variable {s s' : EtSystem P} {content : Place → List P} {place : P → Place}

/-- There is room in a list for events from elsewhere, as it can hold all that
there are. -/
theorem Accounts.room (h : Accounts s content place) {x y : Place} (hxy : x ≠ y) {taken : List P}
    (hnodup : taken.Nodup) (hx : ∀ p ∈ taken, p ∈ content x) :
    (content y).length + taken.length ≤ s.nevents := by
  rw [h.nevents]
  exact h.placed.room hxy hnodup hx h.complete

/-- What an attachment has is what it owns by the members of the events. -/
theorem Accounts.mem_attachment (h : Accounts s content place) {att : Nat} {p : P} :
    p ∈ content (.attachment att) ↔ s.m.owner p = some att := by
  rw [h.placed.mem, h.owner p]
  cases place p with
  | attachment a =>
      show Place.attachment a = .attachment att ↔ some a = some att
      rw [Place.attachment.injEq, Option.some.injEq]
  | list_in k => exact iff_of_false nofun nofun
  | list_out k => exact iff_of_false nofun nofun
  | conductor k => exact iff_of_false nofun nofun

variable [DecidableEq P]

/-- **Events go from one place to another.**  If both places fit what they have
afterwards, and the others are left alone, the invariant holds again. -/
theorem Accounts.move (h : Accounts s content place) {x y : Place} (hxy : x ≠ y)
    {taken left l' : List P} (hx : (taken ++ left).Perm (content x))
    (hy : l'.Perm (content y ++ taken))
    (hevents : s'.events = s.events ∧ s'.nevents = s.nevents)
    (hokx : PlaceOk s' left x) (hoky : PlaceOk s' l' y)
    (hothers : ∀ q, q ≠ x → q ≠ y → SameAt s s' q)
    (hm : ∀ p, p ∉ content x → p ∉ content y →
      s'.m.next p = s.m.next p ∧ s'.m.priority p = s.m.priority p)
    (howner : ∀ p, s'.m.owner p = if p ∈ taken then y.owner else s.m.owner p) :
    Accounts s' (Placement.moved content x y left l')
      (fun p => if p ∈ taken then y else place p) where
  placed := h.placed.move hxy hx hy
  complete := by
    rw [hevents.1]
    exact h.complete
  nodup := by
    rw [hevents.1]
    exact h.nodup
  nevents := by
    rw [hevents.1, hevents.2]
    exact h.nevents
  pos := by
    rw [hevents.2]
    exact h.pos
  owner := by
    intro p
    rw [howner p]
    split
    · rfl
    · exact h.owner p
  ok := by
    intro q
    -- the two places are right by assumption, and no event of another place was touched
    by_cases hqy : q = y
    · rw [hqy, Placement.moved_to]
      exact hoky
    · by_cases hqx : q = x
      · rw [hqx, Placement.moved_from content hxy]
        exact hokx
      · rw [Placement.moved_of_ne content hqx hqy]
        have hapart : ∀ p ∈ content q, p ∉ content x ∧ p ∉ content y := fun p hp =>
          ⟨h.placed.disjoint hqx hp, h.placed.disjoint hqy hp⟩
        refine (h.ok q).congr (hothers q hqx hqy) ?_ ?_
        · intro p hp
          exact (hm p (hapart p hp).1 (hapart p hp).2).1
        · intro p hp
          exact (hm p (hapart p hp).1 (hapart p hp).2).2

end PokerReco.ET
