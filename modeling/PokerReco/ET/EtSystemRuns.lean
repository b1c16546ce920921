/-
  PokerReco.ET.EtSystemRuns
  ─────────────────────────
  **NO EVENT IS LOST OR DOUBLED** in an ET system, whatever its attachments
  and conductors do, and in any order.

      Act.Proper       what the users of the system promise
      start_sound      the system at its start
      one_place        each event is in one place
      always_serves    no conductor stops with an error
      always_ordered   high priority events come first
      last_detach      which events an idle station keeps
-/
import PokerReco.ET.EtSystemSteps
import PokerReco.Library.Schedule

namespace PokerReco.ET

open PokerReco.Library

variable {P : Type} {s s' : EtSystem P} {content : Place → List P} {place : P → Place}

/-! ## §1. Runs. -/

/-- What the users of the system promise: no event is given twice at once, an
attachment sets the priority of its own events only, and no station between
makes a gap for a round robin. -/
def Act.Proper (s : EtSystem P) : Act P → Prop
  | .put _ pe => pe.Nodup
  | .dump _ pe => pe.Nodup
  | .setpriority p _ => s.m.owner p ≠ none
  | .visit k cnt func => VisitsGapless s k cnt func
  | _ => True

instance (d : Conducting P) (n : Nat) : Decidable (d.Gapless n) :=
  decidable_of_iff (∀ i < n, i + 1 < min n d.events_left →
      (d.allevents[i]?.map Prod.snd) = some false)
    ⟨fun h i hi => h i (by omega) hi, fun h i _ hi => h i hi⟩

instance (slot : Slot P) (d : Conducting P) : Decidable (slot.Gapless d) :=
  match slot with
  | .serial _ => isTrue trivial
  | .parallel ps others =>
      inferInstanceAs (Decidable ((ps :: others).any EtStation.active = true →
        ps.select_mode = .rrobin → d.Gapless (robinOrder (ps :: others)).length))

/-- A conductor deals without gaps, said so that it can be decided: only the place
at which it stands counts. -/
theorem visitsGapless_iff (s : EtSystem P) (k : Nat) (cnt : Nat → Nat) (func : Nat → P → Bool) :
    VisitsGapless s k cnt func ↔
      ∀ c ∈ s.conductor k, c.pending = [] → ∀ slot ∈ s.slots[c.place]?,
        (EtSystem.seen cnt func slot).Gapless c.d := by
  constructor
  · intro h c hc hpending slot hslot
    obtain ⟨d, at_, pending⟩ := c
    dsimp only at hpending
    subst hpending
    exact h d at_ slot hc hslot
  · intro h d at_ slot hc hslot
    exact h ⟨d, at_, []⟩ hc rfl slot hslot

instance (s : EtSystem P) (k : Nat) (cnt : Nat → Nat) (func : Nat → P → Bool) :
    Decidable (VisitsGapless s k cnt func) :=
  decidable_of_iff _ (visitsGapless_iff s k cnt func).symm

variable [DecidableEq P]

instance (s : EtSystem P) (act : Act P) : Decidable (act.Proper s) :=
  match act with
  | .put _ pe => inferInstanceAs (Decidable pe.Nodup)
  | .dump _ pe => inferInstanceAs (Decidable pe.Nodup)
  | .setpriority p _ => inferInstanceAs (Decidable (s.m.owner p ≠ none))
  | .visit k cnt func => inferInstanceAs (Decidable (VisitsGapless s k cnt func))
  | .new _ _ _ => isTrue trivial
  | .get _ _ => isTrue trivial
  | .attach _ _ => isTrue trivial
  | .detach _ => isTrue trivial
  | .takeBatch _ => isTrue trivial
  | .deliver _ => isTrue trivial

/-- **A step** is done and keeps the system sound, or is refused by a check of the
program. -/
theorem step_sound (h : Sound s) (act : Act P) (hproper : act.Proper s) :
    Accepts (s.step act) ∨ Refuses (s.step act) := by
  cases act with
  | new att num group => exact new_sound h att num group
  | get att num => exact get_sound h att num
  | put att pe =>
      show Accepts (s.et_events_put att pe) ∨ Refuses (s.et_events_put att pe)
      cases hstat : s.stat att with
      | none =>
          right
          left
          unfold EtSystem.et_events_put
          rw [hstat]
      | some k =>
          by_cases howned : pe.all (fun p => s.m.owner p = some att) = true
          · exact Or.inl (put_sound h hstat hproper howned)
          · right
            left
            unfold EtSystem.et_events_put
            rw [hstat]
            exact if_neg howned
  | dump att pe =>
      by_cases howned : pe.all (fun p => s.m.owner p = some att) = true
      · exact Or.inl (dump_sound h hproper howned)
      · exact Or.inr (Or.inl (if_neg howned))
  | setpriority p pri =>
      left
      obtain ⟨content, place, haccounts⟩ := h.accounts
      -- the lists keep their order, since the event is in none
      refine ⟨_, rfl, sound_of_owner h ⟨content, place, ?_⟩ rfl rfl fun _ _ => Or.inl⟩
      refine haccounts.kept ⟨rfl, rfl⟩ rfl rfl rfl rfl ?_
      intro p' hp'
      have hne : p' ≠ p := by
        intro heq
        exact hproper (heq ▸ hp')
      have hsame : Function.update s.m.priority p pri p' = s.m.priority p' :=
        Function.update_of_ne hne pri s.m.priority
      exact ⟨rfl, hsame⟩
  | attach att k => exact attach_sound h att k
  | detach att =>
      show Accepts (s.et_station_detach att) ∨ Refuses (s.et_station_detach att)
      cases hstat : s.stat att with
      | none =>
          right
          left
          unfold EtSystem.et_station_detach
          rw [hstat]
      | some k =>
          obtain ⟨s', hdetach, hsound, -⟩ := detach_sound h hstat
          exact Or.inl ⟨s', hdetach, hsound⟩
  | takeBatch k => exact Or.inl (takeBatch_sound h k)
  | visit k cnt func => exact Or.inl ⟨_, rfl, visit_sound h k cnt func hproper⟩
  | deliver k => exact Or.inl (deliver_sound h k)

/-- What is done keeps the system sound, and what is refused changes nothing. -/
theorem next_sound (h : Sound s) {act : Act P} (hproper : act.Proper s) : Sound (s.next act) := by
  unfold EtSystem.next
  cases step_sound h act hproper with
  | inl haccepts =>
      obtain ⟨s', hstep, hsound⟩ := haccepts
      rw [hstep]
      exact hsound
  | inr hrefuses =>
      cases hrefuses with
      | inl herror =>
          rw [herror]
          exact h
      | inr herror =>
          rw [herror]
          exact h

/-- **Any run** keeps the system sound, by induction over its steps. -/
theorem run_sound (h : Sound s) {acts : List (Act P)}
    (hproper : StepsMeet EtSystem.exec (fun s act => act.Proper s) s acts) :
    StatesMeet EtSystem.exec Sound s acts := by
  refine statesMeet_of_stepsMeet ?_ h hproper
  intro s act s' hs hact hnext
  rw [← Option.some.inj hnext]
  exact next_sound hs hact

/-! ### The start. -/

/-- The events that are put into the input list of GrandCentral one by one, as
long as there is room for all. -/
theorem fill_holds (nevents_max : Nat) (rest : List P) :
    ∀ (done : List P) (filled : Events P × EtList P), Holds filled.1.next filled.2 done →
      (done ++ rest).Nodup → (done ++ rest).length ≤ nevents_max →
      ∃ filled' : Events P × EtList P,
        rest.foldl (fun filled p =>
          match et_llist_write_gc nevents_max filled.1 filled.2 [p] with
          | .ok filled => filled
          | .error _ => filled) filled = filled'
        ∧ Holds filled'.1.next filled'.2 (done ++ rest) ∧ filled'.1.owner = filled.1.owner := by
  induction rest with
  | nil =>
      intro done filled h _ _
      rw [List.append_nil]
      exact ⟨filled, rfl, h, rfl⟩
  | cons p rest ih =>
      intro done filled h hnodup hroom
      have happend : done ++ p :: rest = (done ++ [p]) ++ rest := by simp
      rw [happend] at hnodup hroom ⊢
      have hnodup' : (done ++ [p]).Nodup := (List.nodup_append.mp hnodup).1
      have hroom' : done.length + [p].length ≤ nevents_max := by
        rw [List.length_append, List.length_append] at hroom
        omega
      obtain ⟨m', pl', hwrite, hholds, hsame⟩ :=
        et_llist_write_gc_holds h (List.cons_ne_nil p []) hnodup' hroom'
      obtain ⟨filled', hfold, hholds', howner⟩ := ih (done ++ [p]) (m', pl') hholds hnodup hroom
      refine ⟨filled', ?_, hholds', howner.trans hsame.owner⟩
      rw [List.foldl_cons, hwrite]
      exact hfold

/-- **The start** of a system: all events are in the input list of GrandCentral,
and nobody has one. -/
theorem start_sound {events : List P} (hnodup : events.Nodup) (hne : events ≠ [])
    (hall : ∀ p, p ∈ events) (group : P → Int) (slots : List (Slot P))
    (restore_mode : Nat → RestoreMode) :
    Sound (EtSystem.start events group slots restore_mode) := by
  obtain ⟨filled, hfill, hholds, howner⟩ := fill_holds events.length events []
    (⟨fun _ => none, fun _ => .low, fun _ => none, group, fun _ => .new⟩, EtSystem.noEvents)
    (holds_nil _ rfl) hnodup (Nat.le_refl _)
  have hfilled : EtSystem.fill events
      ⟨fun _ => none, fun _ => .low, fun _ => none, group, fun _ => .new⟩ = filled := hfill
  have hnone : ∀ p, (EtSystem.start events group slots restore_mode).m.owner p = none := by
    intro p
    unfold EtSystem.start
    rw [hfilled]
    exact congrFun howner p
  -- all events are in the one list, and every other place is empty
  refine ⟨⟨fun q => if q = .list_in grandcentral then events else [],
    fun _ => .list_in grandcentral, ?_⟩, nofun, ?_⟩
  · constructor
    · constructor
      · intro q
        split
        · exact hnodup
        · exact List.nodup_nil
      · intro q p
        split
        · next hq => exact iff_of_true (hall p) hq.symm
        · next hq => exact iff_of_false List.not_mem_nil (Ne.symm hq)
    · exact hall
    · exact hnodup
    · rfl
    · exact List.length_pos_of_ne_nil hne
    · exact hnone
    · intro q
      cases q with
      | list_in k =>
          refine InOk.mk ?_ ?_
          · -- the input list of GrandCentral is the one that was filled
            by_cases hk : k = grandcentral
            · subst hk
              rw [if_pos rfl]
              unfold EtSystem.start
              rw [hfilled]
              exact hholds
            · have hq : Place.list_in k ≠ .list_in grandcentral :=
                fun heq => hk (Place.list_in.inj heq)
              rw [if_neg hq]
              refine holds_nil _ ?_
              show (if k = grandcentral then _ else EtSystem.noEvents).cnt = 0
              rw [if_neg hk]
              rfl
          · intro hk
            have hq : Place.list_in k ≠ .list_in grandcentral :=
              fun heq => hk (Place.list_in.inj heq)
            rw [if_neg hq]
            exact List.Pairwise.nil
      | list_out k => exact ⟨holds_nil _ rfl, List.Pairwise.nil, Nat.le_refl 0⟩
      | attachment att => exact trivial
      | conductor k => exact rfl
  · intro p att hp
    rw [hnone p] at hp
    cases hp

/-! ### A small system. -/

/-- One station beside GrandCentral, to which it restores events. -/
def smallStart : EtSystem (Fin 2) :=
  .start [0, 1] (fun _ => 1)
    [.serial ⟨1, false, .blocking, .all, 1, 10, fun _ => true, false, 0, 0⟩] fun _ => .restoreIn

/-- An attachment of GrandCentral puts event 0 in, and one of station 1 gets it,
after another one has come and gone with it. -/
def smallRun : List (Act (Fin 2)) :=
  [.attach 0 0, .attach 1 1, .new 0 1 none, .setpriority 0 .high, .put 0 [0], .takeBatch 0,
    .visit 0 (fun _ => 0) (fun _ _ => true), .attach 2 1, .deliver 0, .get 2 1, .detach 2, .get 1 1]

/-- In the small run no event is given twice and nobody meddles with the events of
others. -/
theorem smallRun_proper :
    StepsMeet EtSystem.exec (fun s act => act.Proper s) smallStart smallRun := by decide

/-! ## §2. One place. -/

/-- The events that are found in a place: in a list, from its first event on as
far as its count goes, or by the members of the events. -/
def EtSystem.found (s : EtSystem P) : Place → Option (List P)
  | .list_in k => follow s.m.next (s.list_in k).cnt (s.list_in k).firstevent
  | .list_out k => follow s.m.next (s.list_out k).cnt (s.list_out k).firstevent
  | .attachment att => some (s.events.filter fun p => s.m.owner p = some att)
  | .conductor k =>
      some ((s.conductor k).elim [] fun c => c.pending.flatMap Prod.snd ++ c.d.rest)

omit [DecidableEq P] in
/-- What is found in a linked list by following its pointers is what the list
holds. -/
theorem Holds.follow {next : P → Option P} {pl : EtList P} {l : List P} (h : Holds next pl l) :
    follow next pl.cnt pl.firstevent = some l := by
  have hcnt : pl.cnt ≤ l.length := Nat.le_of_eq h.cnt
  rw [follow_of_linked h.linked h.first hcnt, h.cnt, List.take_length]

omit [DecidableEq P] in
/-- What a conductor has is what it has laid out for the stations, and what it has
not dealt yet. -/
theorem Working.perm {now : P → Priority} {l : List P} {conductor : Option (AtWork P)}
    (h : Working now l conductor) :
    (conductor.elim [] fun c => c.pending.flatMap Prod.snd ++ c.d.rest).Perm l := by
  cases conductor with
  | none =>
      have hnil : l = [] := h
      rw [hnil]
      exact List.Perm.refl []
  | some c =>
      obtain ⟨all, priority, hcarries, -⟩ := h
      exact hcarries.perm

omit [DecidableEq P] in
/-- What is found in a place are the events that the invariant has there, in some
order. -/
theorem Accounts.found (h : Accounts s content place) (q : Place) :
    ∃ l, s.found q = some l ∧ l.Perm (content q) := by
  cases q with
  | list_in k => exact ⟨_, (h.inOk k).holds.follow, List.Perm.refl _⟩
  | list_out k => exact ⟨_, (h.outOk k).holds.follow, List.Perm.refl _⟩
  | attachment att =>
      refine ⟨_, rfl, ?_⟩
      refine (List.perm_ext_iff_of_nodup (h.nodup.filter _) (h.placed.nodup _)).mpr ?_
      intro p
      rw [List.mem_filter, decide_eq_true_iff, h.mem_attachment]
      exact and_iff_right (h.complete p)
  | conductor k => exact ⟨_, rfl, (h.working k).perm⟩

/-- Each event is in one place, and once: found by following the lists and by
asking who has it. -/
structure OnePlace (s : EtSystem P) : Prop where
  nodup : ∀ q, ∃ l, s.found q = some l ∧ l.Nodup
  existsUnique : ∀ p, ∃! q, ∃ l, s.found q = some l ∧ p ∈ l

omit [DecidableEq P] in
/-- In a sound system each event is in one place, as the places of the invariant
have it once. -/
theorem Sound.onePlace (h : Sound s) : OnePlace s := by
  obtain ⟨content, place, haccounts⟩ := h.accounts
  constructor
  · intro q
    obtain ⟨l, hfound, hperm⟩ := haccounts.found q
    exact ⟨l, hfound, hperm.nodup_iff.mpr (haccounts.placed.nodup q)⟩
  · intro p
    have hiff : ∀ q, (∃ l, s.found q = some l ∧ p ∈ l) ↔ p ∈ content q := by
      intro q
      obtain ⟨l, hfound, hperm⟩ := haccounts.found q
      constructor
      · rintro ⟨l', hfound', hp⟩
        rw [hfound] at hfound'
        rw [← Option.some.inj hfound'] at hp
        exact hperm.mem_iff.mp hp
      · exact fun hp => ⟨l, hfound, hperm.mem_iff.mpr hp⟩
    simp only [hiff]
    exact haccounts.placed.existsUnique p

/-- **No event is lost or doubled**: in every state of every run each event is
in one list, with one attachment or with one conductor. -/
theorem one_place {events : List P} (hnodup : events.Nodup) (hne : events ≠ [])
    (hall : ∀ p, p ∈ events) (group : P → Int) (slots : List (Slot P))
    (restore_mode : Nat → RestoreMode) {acts : List (Act P)}
    (hproper : StepsMeet EtSystem.exec (fun s act => act.Proper s)
      (.start events group slots restore_mode) acts) :
    StatesMeet EtSystem.exec OnePlace (.start events group slots restore_mode) acts :=
  (run_sound (start_sound hnodup hne hall group slots restore_mode) hproper).imp
    fun _ => Sound.onePlace

/-- In the small run no event is lost or doubled. -/
theorem one_place_small : StatesMeet EtSystem.exec OnePlace smallStart smallRun :=
  one_place (by decide) (by decide) (by decide) _ _ _ smallRun_proper

/-! ## §3. What never fails. -/

/-- Conductors go on, attachments get rid of their events, and no pointer is
used that is not there. -/
structure Serves (s : EtSystem P) : Prop where
  takeBatch : ∀ k, ∃ s', s.takeBatch k = .ok s'
  deliver : ∀ k, ∃ s', s.deliver k = .ok s'
  put : ∀ att pe, pe ≠ [] → pe.Nodup → (∀ p ∈ pe, s.m.owner p = some att) →
    ∃ s', s.et_events_put att pe = .ok s'
  dump : ∀ att pe, pe.Nodup → (∀ p ∈ pe, s.m.owner p = some att) →
    ∃ s', s.et_events_dump att pe = .ok s'
  detach : ∀ att, s.attached att = true →
    ∃ s', s.et_station_detach att = .ok s' ∧ ∀ p, s'.m.owner p ≠ some att
  defined : ∀ act : Act P, act.Proper s → s.step act ≠ .error .undefined

/-- In a sound system no operation finds a list full or an event that it did not
expect. -/
theorem Sound.serves (h : Sound s) : Serves s where
  takeBatch := by
    intro k
    obtain ⟨s', hs', -⟩ := takeBatch_sound h k
    exact ⟨s', hs'⟩
  deliver := by
    intro k
    obtain ⟨s', hs', -⟩ := deliver_sound h k
    exact ⟨s', hs'⟩
  put := by
    intro att pe hne hnodup howned
    -- an event of the attachment tells that it is attached
    obtain ⟨p, hp⟩ := List.exists_mem_of_ne_nil pe hne
    obtain ⟨k, hk⟩ := h.stat att (h.owner p att (howned p hp))
    have hall : pe.all (fun p => s.m.owner p = some att) = true :=
      List.all_eq_true.mpr fun p hp => decide_eq_true (howned p hp)
    obtain ⟨s', hs', -⟩ := put_sound h hk hnodup hall
    exact ⟨s', hs'⟩
  dump := by
    intro att pe hnodup howned
    have hall : pe.all (fun p => s.m.owner p = some att) = true :=
      List.all_eq_true.mpr fun p hp => decide_eq_true (howned p hp)
    obtain ⟨s', hs', -⟩ := dump_sound h hnodup hall
    exact ⟨s', hs'⟩
  detach := by
    intro att hattached
    obtain ⟨k, hk⟩ := h.stat att hattached
    obtain ⟨s', hs', hsound, hgone, -⟩ := detach_sound h hk
    refine ⟨s', hs', ?_⟩
    intro p howner
    rw [hsound.owner p att howner] at hgone
    cases hgone
  defined := by
    intro act hproper herror
    cases step_sound h act hproper with
    | inl haccepts =>
        obtain ⟨s', hs', -⟩ := haccepts
        rw [herror] at hs'
        cases hs'
    | inr hrefuses =>
        rw [Refuses, herror] at hrefuses
        cases hrefuses with
        | inl h => cases h
        | inr h => cases h

/-- **The system never gets stuck**: the errors that stop a conductor never
come, in any run. -/
theorem always_serves {events : List P} (hnodup : events.Nodup) (hne : events ≠ [])
    (hall : ∀ p, p ∈ events) (group : P → Int) (slots : List (Slot P))
    (restore_mode : Nat → RestoreMode) {acts : List (Act P)}
    (hproper : StepsMeet EtSystem.exec (fun s act => act.Proper s)
      (.start events group slots restore_mode) acts) :
    StatesMeet EtSystem.exec Serves (.start events group slots restore_mode) acts :=
  (run_sound (start_sound hnodup hne hall group slots restore_mode) hproper).imp
    fun _ => Sound.serves

/-- In the small run the system never gets stuck. -/
theorem always_serves_small : StatesMeet EtSystem.exec Serves smallStart smallRun :=
  always_serves (by decide) (by decide) (by decide) _ _ _ smallRun_proper

/-! ## §4. The order of the lists. -/

/-- High priority events come first in all lists but the input list of
GrandCentral, which takes events as they come. -/
structure InOrder (s : EtSystem P) : Prop where
  list_in : ∀ k l, k ≠ grandcentral → s.found (.list_in k) = some l → HighFirst s.m.priority l
  list_out : ∀ k l, s.found (.list_out k) = some l → HighFirst s.m.priority l

omit [DecidableEq P] in
/-- In a sound system the lists are in order, as those of the invariant are. -/
theorem Sound.inOrder (h : Sound s) : InOrder s := by
  obtain ⟨content, place, haccounts⟩ := h.accounts
  constructor
  · intro k l hk hfound
    have hlist := haccounts.inOk k
    have hsame := hlist.holds.follow.symm.trans hfound
    rw [← Option.some.inj hsame]
    exact hlist.order hk
  · intro k l hfound
    have hlist := haccounts.outOk k
    have hsame := hlist.holds.follow.symm.trans hfound
    rw [← Option.some.inj hsame]
    exact hlist.order

/-- **High priority events come first** in every run, whichever lists events
are written to and restored to. -/
theorem always_ordered {events : List P} (hnodup : events.Nodup) (hne : events ≠ [])
    (hall : ∀ p, p ∈ events) (group : P → Int) (slots : List (Slot P))
    (restore_mode : Nat → RestoreMode) {acts : List (Act P)}
    (hproper : StepsMeet EtSystem.exec (fun s act => act.Proper s)
      (.start events group slots restore_mode) acts) :
    StatesMeet EtSystem.exec InOrder (.start events group slots restore_mode) acts :=
  (run_sound (start_sound hnodup hne hall group slots restore_mode) hproper).imp
    fun _ => Sound.inOrder

/-- In the small run high priority events come first. -/
theorem always_ordered_small : StatesMeet EtSystem.exec InOrder smallStart smallRun :=
  always_ordered (by decide) (by decide) (by decide) _ _ _ smallRun_proper

/-! ## §5. The last detach. -/

/-- A result that was computed further: it was there before. -/
theorem map_ok {A B : Type} {f : A → B} {x : Except Failure A} {b : B} (h : x.map f = .ok b) :
    ∃ a, x = .ok a ∧ f a = b := by
  cases x with
  | ok a => exact ⟨a, rfl, Except.ok.inj h⟩
  | error failure => cases h

/-- Two steps that were done: the first was done, and the second from where it
ended. -/
theorem bind_ok {A B : Type} {f : A → Except Failure B} {x : Except Failure A} {b : B}
    (h : x.bind f = .ok b) : ∃ a, x = .ok a ∧ f a = .ok b := by
  cases x with
  | ok a => exact ⟨a, rfl, h⟩
  | error failure => cases h

/-- Only `ET_STATION_RESTORE_IN` writes to the input list of the station; the
other modes leave it as it is. -/
theorem restoreUsed_list_in {k : Nat} {pe : List P} (hk : k ≠ grandcentral)
    (hmode : s.restore_mode k ≠ .restoreIn) (h : s.restoreUsed k pe = .ok s') :
    s'.list_in k = s.list_in k := by
  unfold EtSystem.restoreUsed at h
  split at h
  · obtain ⟨written, -, rfl⟩ := map_ok h
    exact Function.update_of_ne hk _ _
  · split at h
    · obtain ⟨written, -, rfl⟩ := map_ok h
      rfl
    · obtain ⟨written, -, rfl⟩ := map_ok h
      rfl

/-- With `ET_STATION_RESTORE_IN` the events go to the input list of the station
and stay there. -/
theorem Accounts.restoreUsed_in (h : Accounts s content place) {att k : Nat} {pe : List P}
    (hnodup : pe.Nodup) (hpe : ∀ p ∈ pe, p ∈ content (.attachment att)) (hne : pe ≠ [])
    (hfirst : HighFirst s.m.priority pe) (hk : k ≠ grandcentral)
    (hmode : s.restore_mode k = .restoreIn) (hmore : s.nattachments k ≠ 0)
    (hrestored : s.restoreUsed k pe = .ok s') : (s'.list_in k).cnt ≠ 0 := by
  obtain ⟨m', pl', content', hwrite, -, hholds⟩ := h.restoreIn hnodup hpe k hne hfirst
  have hgc : ¬ (s.restore_mode k = .restoreGC ∨ k = grandcentral) := by
    rw [hmode]
    intro hor
    cases hor with
    | inl heq => cases heq
    | inr heq => exact hk heq
  have hout : ¬ (s.restore_mode k = .restoreOut
      ∨ s.restore_mode k = .restoreIn ∧ s.nattachments k = 0) := by
    rw [hmode]
    intro hor
    cases hor with
    | inl heq => cases heq
    | inr hboth => exact hmore hboth.2
  unfold EtSystem.restoreUsed at hrestored
  -- the attachment is not counted out yet, so the branch for an idle station is not taken
  rw [if_neg hgc, if_neg hout, if_pos hmode, hwrite] at hrestored
  dsimp only at hrestored
  rw [if_neg (Nat.lt_irrefl _)] at hrestored
  rw [← Except.ok.inj hrestored]
  show (Function.update s.list_in k pl' k).cnt ≠ 0
  rw [Function.update_self, hholds.cnt, (mergeHigh_perm _ _ _).length_eq, List.length_append]
  have hpos := List.length_pos_of_ne_nil hne
  omega

/-- The attachment has nothing to restore to the input list of the station. -/
def RestoresNone (s : EtSystem P) (att k : Nat) : Prop :=
  s.restore_mode k = .restoreIn → ∀ p, s.m.owner p = some att → s.m.age p = .new

/-- An input list that was empty is empty after a detach, exactly if nothing was
to be restored there. -/
theorem Accounts.restoreEvents_cnt (h : Accounts s content place) {att k : Nat}
    (hk : k ≠ grandcentral) (hempty : (s.list_in k).cnt = 0) (hmore : s.nattachments k ≠ 0)
    (hrestored : s.et_restore_events att k = .ok s') :
    (s'.list_in k).cnt = 0 ↔ RestoresNone s att k := by
  obtain ⟨s₁, content₁, hdumped, hgave₁, hlists, hmode, hnatt⟩ := h.restoreNew att
  obtain ⟨place₁, haccounts₁⟩ := hgave₁.accounts
  have hnew : (∀ p, s.m.owner p = some att → s.m.age p = .new) ↔ s.ordered att = [] := by
    rw [List.eq_nil_iff_forall_not_mem]
    constructor
    · intro hall p hp
      obtain ⟨hmem, hused⟩ := (mem_ordered h).mp hp
      rw [hall p (h.mem_attachment.mp hmem)] at hused
      cases hused
    · intro hnone p howner
      cases hage : s.m.age p with
      | new => rfl
      | used => exact absurd ((mem_ordered h).mpr ⟨h.mem_attachment.mpr howner, hage⟩) (hnone p)
  unfold EtSystem.et_restore_events at hrestored
  dsimp only at hrestored
  rw [hdumped] at hrestored
  by_cases hnone : s.ordered att = []
  · -- new events only, and they go to GrandCentral
    have hsame : s₁ = s' := Except.ok.inj ((if_pos hnone).symm.trans hrestored)
    rw [← hsame, hlists k hk]
    exact iff_of_true hempty fun _ => hnew.mpr hnone
  · have hused : s₁.restoreUsed k (s.ordered att) = .ok s' :=
      (if_neg hnone).symm.trans hrestored
    by_cases hin : s.restore_mode k = .restoreIn
    · obtain ⟨hpe, hfirst⟩ := hgave₁.ordered h
      refine iff_of_false (haccounts₁.restoreUsed_in (nodup_ordered h att) hpe hnone hfirst hk
        (by rw [hmode]; exact hin) (by rw [hnatt]; exact hmore) hused) ?_
      intro hidle
      exact hnone (hnew.mp (hidle hin))
    · have hkept := restoreUsed_list_in hk (by rw [hmode]; exact hin) hused
      rw [hkept, hlists k hk]
      exact iff_of_true hempty fun heq => absurd heq hin

/-- After the last detach from a station its input list is empty, if and only
if the attachment had no events to restore there. -/
def LeavesEmpty (s : EtSystem P) : Prop :=
  ∀ att k s', s.stat att = some k → k ≠ grandcentral → s.nattachments k = 1 →
    s.et_station_detach att = .ok s' → ((s'.list_in k).cnt = 0 ↔ RestoresNone s att k)

/-- In a sound system the last detach leaves the input list empty, exactly if it
has nothing to restore there. -/
theorem Sound.leavesEmpty (h : Sound s) : LeavesEmpty s := by
  intro att k s' hstat hk hlast hdetach
  obtain ⟨content, place, haccounts⟩ := h.accounts
  obtain ⟨s₁, content₁, hflushed, hgave, hcnt, hmode, hnatt⟩ :=
    (haccounts.active k false).flush att hk
  obtain ⟨place₁, haccounts₁⟩ := hgave.accounts
  obtain ⟨s₂, content₂, hrestored, -⟩ := haccounts₁.restoreEvents att k
  have hmore : s₁.nattachments k ≠ 0 := by
    rw [hnatt]
    show s.nattachments k ≠ 0
    omega
  have hidle := haccounts₁.restoreEvents_cnt hk hcnt hmore hrestored
  -- the flush leaves the attachment what it had
  have howner : ∀ p, s₁.m.owner p = some att ↔ s.m.owner p = some att := by
    intro p
    rw [← haccounts₁.mem_attachment, ← haccounts.mem_attachment, hgave.rest, List.mem_filter]
    exact and_iff_left (by simp)
  have hsame : RestoresNone s₁ att k ↔ RestoresNone s att k := by
    unfold RestoresNone
    rw [hmode, hgave.age]
    simp only [howner]
    exact Iff.rfl
  unfold EtSystem.et_station_detach at hdetach
  rw [hstat] at hdetach
  dsimp only at hdetach
  rw [if_pos ⟨hlast, hk⟩, hflushed] at hdetach
  have hmap : (s₁.et_restore_events att k).map _ = Except.ok s' := hdetach
  rw [hrestored] at hmap
  rw [← Except.ok.inj hmap, ← hsame]
  exact hidle

/-- **An idle station may keep events**: exactly those that its last attachment
had put into the system before, with `ET_STATION_RESTORE_IN`. -/
theorem last_detach {events : List P} (hnodup : events.Nodup) (hne : events ≠ [])
    (hall : ∀ p, p ∈ events) (group : P → Int) (slots : List (Slot P))
    (restore_mode : Nat → RestoreMode) {acts : List (Act P)}
    (hproper : StepsMeet EtSystem.exec (fun s act => act.Proper s)
      (.start events group slots restore_mode) acts) :
    StatesMeet EtSystem.exec LeavesEmpty (.start events group slots restore_mode) acts :=
  (run_sound (start_sound hnodup hne hall group slots restore_mode) hproper).imp
    fun _ => Sound.leavesEmpty

/-- In the small run an idle station keeps only what its last attachment had put
in. -/
theorem last_detach_small : StatesMeet EtSystem.exec LeavesEmpty smallStart smallRun :=
  last_detach (by decide) (by decide) (by decide) _ _ _ smallRun_proper

/-- The last attachment goes, and its event stays. -/
example : ((smallRun ++ [Act.detach 1]).foldl EtSystem.next smallStart).found (.list_in 1)
    = some [0] := by decide

end PokerReco.ET
