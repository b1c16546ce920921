/-
  PokerReco.ET.EtSystemProgress
  ─────────────────────────────
  **A BATCH IS DEALT WITH**: a conductor at work comes to its end after a number
  of its own steps, whatever happens in between.

      EtSystem.workLeft    the steps that it has before it, at most
      next_workLeft        a step of its own takes one off, others none
      batch_done           so a batch takes it few steps
-/
import PokerReco.ET.EtSystemRuns

namespace PokerReco.ET

open PokerReco.Library

variable {P : Type} {s s' : EtSystem P} {k : Nat}

/-! ## §1. The work of a conductor. -/

/-- The station whose conductor acts in this step, if it is a step of a
conductor. -/
def Act.station : Act P → Option Nat
  | .takeBatch k => some k
  | .visit k _ _ => some k
  | .deliver k => some k
  | _ => none

/-- The conductor of a station decides or writes something in this step. -/
def Act.worksFor (s : EtSystem P) (k : Nat) : Act P → Bool
  | .visit j _ _ => j = k && (s.conductor k).any (·.pending.isEmpty)
  | .deliver j => j = k && (s.conductor k).any (!·.pending.isEmpty)
  | _ => false

/-- A step for each event that it has, one for each place of the chain before
it, and two for the end. -/
def AtWork.left (c : AtWork P) (places : Nat) : Nat :=
  (c.pending.flatMap Prod.snd ++ c.d.rest).length
    + if c.d.events_left = 0 then 1 else places - c.place + 2

/-- The steps that the conductor of a station has before it, at most. -/
def EtSystem.workLeft (s : EtSystem P) (k : Nat) : Nat :=
  (s.conductor k).elim 0 (·.left s.slots.length)

/-- A conductor at work has a step before it, the one that ends its batch. -/
theorem AtWork.left_pos (c : AtWork P) (places : Nat) : 1 ≤ c.left places := by
  unfold AtWork.left
  split
  · omega
  · omega

/-- A place of the chain takes a step off what the conductor has before it,
whatever it decides to write there. -/
theorem Carries.left_visit {all : List P} {priority : P → Priority} {d : Conducting P}
    {pos places : Nat} {hand : List P} (h : Carries all priority ⟨d, pos, []⟩ hand)
    (hleft : d.events_left ≠ 0) (hpos : pos < places) {slot : Slot P} (hgap : slot.Gapless d) :
    (AtWork.mk { (slot.visit d).2 with firstimethruloop := false } (pos + 1)
        ((slot.visit d).2.writes.drop d.writes.length)).left places + 1
      ≤ (AtWork.mk d pos []).left places := by
  have hbefore := h.perm.length_eq
  have hafter := (h.visit hleft hgap).perm.length_eq
  unfold AtWork.left
  rw [hbefore, hafter, if_neg hleft]
  dsimp only
  split
  · omega
  · omega

/-- The end of the chain takes a step off as well, although the events for
GrandCentral are still to be written. -/
theorem Carries.left_toGrandCentral {all : List P} {priority : P → Priority} {d : Conducting P}
    {pos places : Nat} {hand : List P} (h : Carries all priority ⟨d, pos, []⟩ hand)
    (hleft : d.events_left ≠ 0) :
    (AtWork.mk d.toGrandCentral pos (d.toGrandCentral.writes.drop d.writes.length)).left places + 1
      ≤ (AtWork.mk d pos []).left places := by
  have hbefore := h.perm.length_eq
  have hafter := (h.toGrandCentral hleft).perm.length_eq
  have hnone := (toGrandCentral_sent (h.going hleft) (h.fresh hleft)).left
  unfold AtWork.left
  rw [hbefore, hafter, if_neg hleft, if_pos hnone]
  omega

/-- A list that the conductor writes to takes a step off, as it writes one event
there at least. -/
theorem left_deliver (d : Conducting P) (pos num places : Nat) {pe : List P} (hne : pe ≠ [])
    (pending : List (Nat × List P)) :
    (AtWork.mk d pos pending).left places + 1
      ≤ (AtWork.mk d pos ((num, pe) :: pending)).left places := by
  have hpos := List.length_pos_of_ne_nil hne
  have hhand : (((num, pe) :: pending).flatMap Prod.snd ++ d.rest).length
      = pe.length + (pending.flatMap Prod.snd ++ d.rest).length := by
    rw [List.flatMap_cons, List.append_assoc]
    exact List.length_append
  unfold AtWork.left
  dsimp only
  rw [hhand]
  omega

/-! ## §2. A step. -/

variable [DecidableEq P]

/-- Attachments exchange events with the system. -/
def Act.exchanges : Act P → Bool
  | .new _ _ _ => true
  | .get _ _ => true
  | .put _ _ => true
  | .dump _ _ => true
  | .setpriority _ _ => true
  | _ => false

/-- Events and lists may have changed, and nothing else. -/
structure EventsOnly (s s' : EtSystem P) : Prop where
  slots : s'.slots = s.slots
  conductor : s'.conductor = s.conductor
  attached : s'.attached = s.attached
  stat : s'.stat = s.stat
  nattachments : s'.nattachments = s.nattachments

/-- **An exchange** of an attachment with the system changes events and
lists only. -/
theorem next_exchange {act : Act P} (hact : act.exchanges = true) :
    EventsOnly s (s.next act) := by
  unfold EtSystem.next
  cases hstep : s.step act with
  | error failure => exact ⟨rfl, rfl, rfl, rfl, rfl⟩
  | ok s' =>
      dsimp only
      cases act with
      | new att num group =>
          obtain ⟨result, hnew, rfl⟩ := map_ok hstep
          unfold EtSystem.et_events_new at hnew
          split at hnew
          · obtain ⟨read, -, rfl⟩ := map_ok hnew
            exact ⟨rfl, rfl, rfl, rfl, rfl⟩
          · cases hnew
      | get att num =>
          obtain ⟨result, hget, rfl⟩ := map_ok hstep
          unfold EtSystem.et_events_get at hget
          split at hget
          · split at hget
            · cases hget
            · split at hget
              · cases hget
              · obtain ⟨read, -, rfl⟩ := map_ok hget
                exact ⟨rfl, rfl, rfl, rfl, rfl⟩
          · cases hget
      | put att pe =>
          have hput : s.et_events_put att pe = .ok s' := hstep
          unfold EtSystem.et_events_put at hput
          split at hput
          · cases hput
          · split at hput
            · obtain ⟨written, -, rfl⟩ := map_ok hput
              exact ⟨rfl, rfl, rfl, rfl, rfl⟩
            · cases hput
      | dump att pe =>
          have hdump : s.et_events_dump att pe = .ok s' := hstep
          unfold EtSystem.et_events_dump at hdump
          split at hdump
          · obtain ⟨written, -, rfl⟩ := map_ok hdump
            exact ⟨rfl, rfl, rfl, rfl, rfl⟩
          · cases hdump
      | setpriority p pri =>
          rw [← Except.ok.inj hstep]
          exact ⟨rfl, rfl, rfl, rfl, rfl⟩
      -- these change more than the events and their lists
      | attach att j => cases hact
      | detach att => cases hact
      | takeBatch j => cases hact
      | visit j cnt func => cases hact
      | deliver j => cases hact

/-- Attachments leave the conductors alone, and the length of the chain. -/
theorem next_quiet (h : Sound s) {act : Act P} (hact : act.station = none) :
    (s.next act).conductor = s.conductor ∧ (s.next act).slots.length = s.slots.length := by
  by_cases hexchange : act.exchanges = true
  · have hsame := next_exchange (s := s) hexchange
    exact ⟨hsame.conductor, congrArg List.length hsame.slots⟩
  unfold EtSystem.next
  cases hstep : s.step act with
  | error failure => exact ⟨rfl, rfl⟩
  | ok s' =>
      dsimp only
      cases act with
      | new att num group => exact absurd rfl hexchange
      | get att num => exact absurd rfl hexchange
      | put att pe => exact absurd rfl hexchange
      | dump att pe => exact absurd rfl hexchange
      | setpriority p pri => exact absurd rfl hexchange
      | attach att j =>
          have hattach : s.et_station_attach att j = .ok s' := hstep
          unfold EtSystem.et_station_attach at hattach
          split at hattach
          · cases hattach
          · rw [← Except.ok.inj hattach]
            -- the status of a station changes, and no place of the chain
            exact ⟨rfl, List.length_map _⟩
      | detach att =>
          have hdetach : s.et_station_detach att = .ok s' := hstep
          cases hstat : s.stat att with
          | none =>
              unfold EtSystem.et_station_detach at hdetach
              rw [hstat] at hdetach
              cases hdetach
          | some j =>
              obtain ⟨s'', hsame, -, -, hconductor, hslots⟩ := detach_sound h hstat
              rw [Except.ok.inj (hdetach.symm.trans hsame)]
              exact ⟨hconductor, hslots⟩
      | takeBatch j => cases hact
      | visit j cnt func => cases hact
      | deliver j => cases hact

/-- A conductor leaves the other conductors alone, and the length of the chain. -/
theorem next_others {act : Act P} {j : Nat} (hact : act.station = some j) :
    (k ≠ j → (s.next act).conductor k = s.conductor k)
      ∧ (s.next act).slots.length = s.slots.length := by
  have hkeep : ∀ c, k ≠ j → Function.update s.conductor j c k = s.conductor k :=
    fun c hk => Function.update_of_ne hk c s.conductor
  unfold EtSystem.next
  cases hstep : s.step act with
  | error failure => exact ⟨fun _ => rfl, rfl⟩
  | ok s' =>
      dsimp only
      cases act with
      | takeBatch i =>
          rw [Option.some.inj hact] at hstep
          have htake : s.takeBatch j = .ok s' := hstep
          unfold EtSystem.takeBatch at htake
          split at htake
          · rw [← Except.ok.inj htake]
            exact ⟨fun _ => rfl, rfl⟩
          · split at htake
            · rw [← Except.ok.inj htake]
              exact ⟨fun _ => rfl, rfl⟩
            · obtain ⟨read, -, rfl⟩ := map_ok htake
              exact ⟨hkeep _, rfl⟩
      | visit i cnt func =>
          rw [Option.some.inj hact] at hstep
          have hvisit : s.visit j cnt func = s' := Except.ok.inj hstep
          rw [← hvisit]
          unfold EtSystem.visit
          split
          · split
            · exact ⟨hkeep _, rfl⟩
            · split
              · exact ⟨hkeep _, List.length_set⟩
              · exact ⟨hkeep _, rfl⟩
          · exact ⟨fun _ => rfl, rfl⟩
      | deliver i =>
          rw [Option.some.inj hact] at hstep
          have hdeliver : s.deliver j = .ok s' := hstep
          unfold EtSystem.deliver at hdeliver
          split at hdeliver
          · split at hdeliver
            · obtain ⟨written, -, rfl⟩ := map_ok hdeliver
              exact ⟨hkeep _, rfl⟩
            · obtain ⟨written, -, hwritten⟩ := bind_ok hdeliver
              split at hwritten
              · cases hwritten
              · rw [← Except.ok.inj hwritten]
                exact ⟨hkeep _, rfl⟩
          · rw [← Except.ok.inj hdeliver]
            exact ⟨fun _ => rfl, rfl⟩
      -- these are not steps of a conductor
      | new att num group => cases hact
      | get att num => cases hact
      | put att pe => cases hact
      | dump att pe => cases hact
      | setpriority p pri => cases hact
      | attach att i => cases hact
      | detach att => cases hact

/-- What the conductor of a station has decided to write is written list by list,
and nothing else of it changes. -/
theorem next_deliver (h : Sound s) {d : Conducting P} {pos num : Nat} {pe : List P}
    {pending : List (Nat × List P)}
    (hconductor : s.conductor k = some ⟨d, pos, (num, pe) :: pending⟩) :
    (s.next (.deliver k)).conductor k = some ⟨d, pos, pending⟩ := by
  obtain ⟨s', hdeliver, -⟩ := deliver_sound h k
  have hnext : s.next (.deliver k) = s' := by
    unfold EtSystem.next
    have hstep : s.step (.deliver k) = .ok s' := hdeliver
    rw [hstep]
  rw [hnext]
  unfold EtSystem.deliver at hdeliver
  rw [hconductor] at hdeliver
  dsimp only at hdeliver
  split at hdeliver
  · obtain ⟨written, -, rfl⟩ := map_ok hdeliver
    exact Function.update_self k _ _
  · obtain ⟨written, -, hwritten⟩ := bind_ok hdeliver
    split at hwritten
    · cases hwritten
    · rw [← Except.ok.inj hwritten]
      exact Function.update_self k _ _

omit [DecidableEq P] in
/-- What a conductor has before it depends on its batch and on the length of the
chain only. -/
theorem workLeft_congr {t : EtSystem P} (hconductor : t.conductor k = s.conductor k)
    (hslots : t.slots.length = s.slots.length) : t.workLeft k = s.workLeft k := by
  unfold EtSystem.workLeft
  rw [hconductor, hslots]

omit [DecidableEq P] in
/-- What a conductor at work has before it. -/
theorem workLeft_some {c : AtWork P} (hc : s.conductor k = some c) :
    s.workLeft k = c.left s.slots.length := by
  unfold EtSystem.workLeft
  rw [hc]
  rfl

/-- A visit of the conductor at work takes a step off, if it does not end
the batch. -/
theorem next_visit (h : Sound s) {c : AtWork P} (hc : s.conductor k = some c)
    {cnt : Nat → Nat} {func : Nat → P → Bool} (hgap : VisitsGapless s k cnt func)
    (hbusy' : (s.next (.visit k cnt func)).conductor k ≠ none) :
    (s.next (.visit k cnt func)).workLeft k + (if c.pending.isEmpty then 1 else 0)
      ≤ s.workLeft k := by
  obtain ⟨content, place, haccounts⟩ := h.accounts
  have hwork := haccounts.working k
  rw [hc] at hwork
  obtain ⟨all, priority, hcarries, -⟩ := hwork
  have hslots : (s.next (.visit k cnt func)).slots.length = s.slots.length :=
    (next_others (k := k) rfl).2
  have hnext : s.next (.visit k cnt func) = s.visit k cnt func := rfl
  obtain ⟨d, pos, pending⟩ := c
  cases pending with
  | cons w pending =>
      -- it has to write first
      have hstays : s.visit k cnt func = s := by
        unfold EtSystem.visit
        rw [hc]
      rw [hnext, hstays]
      exact Nat.le_refl _
  | nil =>
      show _ + 1 ≤ _
      by_cases hleft : d.events_left = 0
      · -- it is at its end
        refine absurd ?_ hbusy'
        rw [hnext]
        unfold EtSystem.visit
        rw [hc]
        dsimp only
        rw [if_pos hleft]
        exact Function.update_self k none s.conductor
      · rw [workLeft_some hc]
        cases hslot : s.slots[pos]? with
        | some slot =>
            -- one place less, and what the place took is still to be written
            have hafter : (s.next (.visit k cnt func)).conductor k
                = some ⟨{ ((EtSystem.seen cnt func slot).visit d).2 with
                    firstimethruloop := false }, pos + 1,
                  ((EtSystem.seen cnt func slot).visit d).2.writes.drop d.writes.length⟩ := by
              rw [hnext]
              unfold EtSystem.visit
              rw [hc]
              dsimp only
              rw [if_neg hleft, hslot]
              exact Function.update_self k _ s.conductor
            have hpos : pos < s.slots.length := (List.getElem?_eq_some_iff.mp hslot).1
            rw [workLeft_some hafter, hslots]
            exact hcarries.left_visit hleft hpos (hgap d pos slot hc hslot)
        | none =>
            -- past the last place only the writing to GrandCentral is left
            have hafter : (s.next (.visit k cnt func)).conductor k = some ⟨d.toGrandCentral, pos,
                d.toGrandCentral.writes.drop d.writes.length⟩ := by
              rw [hnext]
              unfold EtSystem.visit
              rw [hc]
              dsimp only
              rw [if_neg hleft, hslot]
              exact Function.update_self k _ s.conductor
            rw [workLeft_some hafter, hslots]
            exact hcarries.left_toGrandCentral hleft

/-- **Each step of its own takes one off** what a conductor has before it, and
no other step adds any. -/
theorem next_workLeft (h : Sound s) {act : Act P} (hproper : act.Proper s)
    (hbusy : s.conductor k ≠ none) (hbusy' : (s.next act).conductor k ≠ none) :
    (s.next act).workLeft k + (if act.worksFor s k then 1 else 0) ≤ s.workLeft k := by
  obtain ⟨c, hc⟩ := Option.ne_none_iff_exists'.mp hbusy
  have hquiet : act.station = none → act.worksFor s k = false →
      (s.next act).workLeft k + (if act.worksFor s k then 1 else 0) ≤ s.workLeft k := by
    intro hstation hworks
    obtain ⟨hconductor, hslots⟩ := next_quiet h hstation
    rw [hworks, workLeft_congr (congrFun hconductor k) hslots]
    exact Nat.le_refl _
  have hother : ∀ j, act.station = some j → k ≠ j → act.worksFor s k = false →
      (s.next act).workLeft k + (if act.worksFor s k then 1 else 0) ≤ s.workLeft k := by
    intro j hstation hj hworks
    obtain ⟨hconductor, hslots⟩ := next_others hstation
    rw [hworks, workLeft_congr (hconductor hj) hslots]
    exact Nat.le_refl _
  cases act with
  | takeBatch j =>
      by_cases hj : k = j
      · subst hj
        -- at work, it takes no other batch
        have hstep : s.step (.takeBatch k) = .ok s := by
          show s.takeBatch k = .ok s
          unfold EtSystem.takeBatch
          rw [hc]
        have hstays : s.next (.takeBatch k) = s := by
          unfold EtSystem.next
          rw [hstep]
        rw [hstays]
        exact Nat.le_refl _
      · exact hother j rfl hj rfl
  | visit j cnt func =>
      by_cases hj : k = j
      · subst hj
        have hvisit := next_visit h hc hproper hbusy'
        have hworks : (Act.visit k cnt func).worksFor s k = c.pending.isEmpty := by
          unfold Act.worksFor
          rw [hc]
          simp
        rw [hworks]
        exact hvisit
      · refine hother j rfl hj ?_
        unfold Act.worksFor
        simp [Ne.symm hj]
  | deliver j =>
      by_cases hj : k = j
      · subst hj
        have hworks : (Act.deliver k : Act P).worksFor s k = !c.pending.isEmpty := by
          unfold Act.worksFor
          rw [hc]
          simp
        have hslots : (s.next (.deliver k)).slots.length = s.slots.length :=
          (next_others (k := k) rfl).2
        rw [hworks]
        obtain ⟨d, pos, pending⟩ := c
        cases pending with
        | nil =>
            -- there is nothing to write
            have hstep : s.step (.deliver k) = .ok s := by
              show s.deliver k = .ok s
              unfold EtSystem.deliver
              rw [hc]
            have hstays : s.next (.deliver k) = s := by
              unfold EtSystem.next
              rw [hstep]
            rw [hstays]
            exact Nat.le_refl _
        | cons w pending =>
            obtain ⟨num, pe⟩ := w
            obtain ⟨content, place, haccounts⟩ := h.accounts
            have hwork := haccounts.working k
            rw [hc] at hwork
            obtain ⟨all, priority, hcarries, -⟩ := hwork
            have hne := (hcarries.parts (num, pe) List.mem_cons_self).1
            rw [workLeft_some hc, workLeft_some (next_deliver h hc), hslots]
            exact left_deliver d pos num _ hne pending
      · refine hother j rfl hj ?_
        unfold Act.worksFor
        simp [Ne.symm hj]
  | new att num group => exact hquiet rfl rfl
  | get att num => exact hquiet rfl rfl
  | put att pe => exact hquiet rfl rfl
  | dump att pe => exact hquiet rfl rfl
  | setpriority p pri => exact hquiet rfl rfl
  | attach att j => exact hquiet rfl rfl
  | detach att => exact hquiet rfl rfl

/-! ## §3. A batch. -/

/-- The steps that the conductor of a station takes in a run. -/
def EtSystem.stepsOf (k : Nat) : EtSystem P → List (Act P) → Nat
  | _, [] => 0
  | s, act :: acts => (if act.worksFor s k then 1 else 0) + stepsOf k (s.next act) acts

/-- While a conductor stays at work it takes fewer steps than it had before it, by
induction over the run. -/
theorem stepsOf_lt (acts : List (Act P)) :
    ∀ s : EtSystem P, Sound s → StepsMeet EtSystem.exec (fun s act => act.Proper s) s acts →
      StatesMeet EtSystem.exec (fun s => s.conductor k ≠ none) s acts →
      s.stepsOf k acts < s.workLeft k := by
  induction acts with
  | nil =>
      intro s _ _ hbusy
      -- still at work, it has a step left
      obtain ⟨c, hc⟩ := Option.ne_none_iff_exists'.mp hbusy
      rw [workLeft_some hc]
      exact c.left_pos _
  | cons act acts ih =>
      intro s h hproper hbusy
      obtain ⟨hact, hrest⟩ := hproper (s.next act) rfl
      have hafter := hbusy.2 (s.next act) rfl
      have hstep := next_workLeft h hact hbusy.1 hafter.first
      have hmore := ih (s.next act) (next_sound h hact) hrest hafter
      show (if act.worksFor s k then 1 else 0) + (s.next act).stepsOf k acts < s.workLeft k
      omega

omit [DecidableEq P] in
/-- What a conductor has before it is bounded by the events of the system and the
places of the chain. -/
theorem Sound.workLeft_le (h : Sound s) (k : Nat) :
    s.workLeft k ≤ s.nevents + s.slots.length + 2 := by
  obtain ⟨content, place, haccounts⟩ := h.accounts
  have hwork := haccounts.working k
  cases hc : s.conductor k with
  | none =>
      unfold EtSystem.workLeft
      rw [hc]
      exact Nat.zero_le _
  | some c =>
      rw [hc] at hwork
      obtain ⟨all, priority, hcarries, -⟩ := hwork
      have hhand : (content (.conductor k)).length ≤ s.nevents := by
        rw [haccounts.nevents]
        exact (List.subperm_of_subset (haccounts.placed.nodup _)
          fun p _ => haccounts.complete p).length_le
      rw [workLeft_some hc]
      unfold AtWork.left
      rw [hcarries.perm.length_eq]
      split
      · omega
      · omega

/-- **A batch is dealt with**: from any state of any run on, while a conductor
is at work on a batch, it takes at most a step for each event, one for each
place of the chain, and one for the end. -/
theorem batch_done {events : List P} (hnodup : events.Nodup) (hne : events ≠ [])
    (hall : ∀ p, p ∈ events) (group : P → Int) (slots : List (Slot P))
    (restore_mode : Nat → RestoreMode) {acts acts' : List (Act P)}
    (hproper : StepsMeet EtSystem.exec (fun s act => act.Proper s)
      (.start events group slots restore_mode) acts)
    (hreached : execAll EtSystem.exec (.start events group slots restore_mode) acts = some s)
    (hproper' : StepsMeet EtSystem.exec (fun s act => act.Proper s) s acts')
    (hbusy : StatesMeet EtSystem.exec (fun s => s.conductor k ≠ none) s acts') :
    s.stepsOf k acts' ≤ s.nevents + s.slots.length + 1 := by
  have hsound : Sound s :=
    (run_sound (start_sound hnodup hne hall group slots restore_mode) hproper).last hreached
  have hlt := stepsOf_lt acts' s hsound hproper' hbusy
  have hle := hsound.workLeft_le k
  omega

/-- The small system when the conductor of GrandCentral has taken a batch. -/
def smallAtWork : EtSystem (Fin 2) := (smallRun.take 6).foldl EtSystem.next smallStart

/-- What happens until it has written it. -/
def smallWork : List (Act (Fin 2)) :=
  [.visit 0 (fun _ => 0) (fun _ _ => true), .attach 2 1, .deliver 0]

/-- Up to the batch the small run is one in which nobody meddles with the events
of others. -/
theorem smallAtWork_proper :
    StepsMeet EtSystem.exec (fun s act => act.Proper s) smallStart (smallRun.take 6) := by decide

/-- The small run comes to the state in which the conductor has its batch. -/
theorem smallAtWork_reached :
    execAll EtSystem.exec smallStart (smallRun.take 6) = some smallAtWork := rfl

/-- What happens from there on is proper, too. -/
theorem smallWork_proper :
    StepsMeet EtSystem.exec (fun s act => act.Proper s) smallAtWork smallWork := by decide

/-- The conductor is at work on its batch in all of these states. -/
theorem smallWork_busy :
    StatesMeet EtSystem.exec (fun s => s.conductor 0 ≠ none) smallAtWork smallWork := by decide

/-- In the small run the conductor of GrandCentral needs no more steps than that. -/
theorem batch_done_small :
    smallAtWork.stepsOf 0 smallWork ≤ smallAtWork.nevents + smallAtWork.slots.length + 1 :=
  batch_done (by decide) (by decide) (by decide) _ _ _ smallAtWork_proper smallAtWork_reached
    smallWork_proper smallWork_busy

end PokerReco.ET
