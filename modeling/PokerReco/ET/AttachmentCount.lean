/-
  PokerReco.ET.AttachmentCount
  ────────────────────────────
  **HOW MANY ATTACHMENTS A STATION HAS** (`et_station.c`).

  A station counts its attachments, and the last one that goes makes it idle.
  A detach finds the station of an attachment in `stat`, which it leaves as it
  was: a second detach of the same attachment counts it out again.

      Counted               the numbers are right
      Act.Registered        no attachment is detached twice
      counts_iff            they are right as long as none is
      active_if_attached    and stations are idle when nobody is attached
-/
import PokerReco.ET.EtSystemProgress
import Mathlib.Data.Finset.Card

namespace PokerReco.ET

open PokerReco.Library

variable {P : Type} [DecidableEq P] {s s' : EtSystem P}

/-! ## §1. What a step leaves alone. -/

/-- The stations of a place of the chain by number, and which of them are active. -/
def Slot.statuses (slot : Slot P) : List (Nat × Bool) :=
  slot.stations.map fun ps => (ps.num, ps.active)

/-- The stations of the chain by number, in order, and which of them are active. -/
def EtSystem.statuses (s : EtSystem P) : List (Nat × Bool) := s.slots.flatMap Slot.statuses

/-- The attachments, their stations, the numbers of attachments and `status` of
the stations are the same: nobody has come or gone. -/
structure SameRegister (s s' : EtSystem P) : Prop where
  attached : s'.attached = s.attached
  stat : s'.stat = s.stat
  nattachments : s'.nattachments = s.nattachments
  statuses : s'.statuses = s.statuses

omit [DecidableEq P] in
/-- Nothing has changed between a state and itself. -/
theorem SameRegister.refl (s : EtSystem P) : SameRegister s s := ⟨rfl, rfl, rfl, rfl⟩

omit [DecidableEq P] in
/-- Two steps in which nobody comes or goes are one such step. -/
theorem SameRegister.trans {s'' : EtSystem P} (h : SameRegister s s') (h' : SameRegister s' s'') :
    SameRegister s s'' where
  attached := h'.attached.trans h.attached
  stat := h'.stat.trans h.stat
  nattachments := h'.nattachments.trans h.nattachments
  statuses := h'.statuses.trans h.statuses

/-- Events that are flushed go from one list to another; the register of the
attachments is not touched. -/
theorem flush_register {att k : Nat} (h : s.et_flush_events att k = .ok s') :
    SameRegister s s' := by
  unfold EtSystem.et_flush_events at h
  split at h
  · rw [← Except.ok.inj h]
    exact SameRegister.refl s
  · split at h
    · rw [← Except.ok.inj h]
      exact SameRegister.refl s
    · cases h
    · dsimp only at h
      split at h
      · obtain ⟨written, -, rfl⟩ := map_ok h
        exact ⟨rfl, rfl, rfl, rfl⟩
      · obtain ⟨written, -, rfl⟩ := map_ok h
        exact ⟨rfl, rfl, rfl, rfl⟩

/-- Nor is it touched when the events in use are put back into an input list. -/
theorem restoreUsed_register {k : Nat} {pe : List P} (h : s.restoreUsed k pe = .ok s') :
    SameRegister s s' := by
  unfold EtSystem.restoreUsed at h
  split at h
  · obtain ⟨written, -, rfl⟩ := map_ok h
    exact ⟨rfl, rfl, rfl, rfl⟩
  · split at h
    · obtain ⟨written, -, rfl⟩ := map_ok h
      exact ⟨rfl, rfl, rfl, rfl⟩
    · split at h
      · split at h
        · cases h
        · dsimp only at h
          split at h
          · obtain ⟨written, -, rfl⟩ := map_ok h
            exact ⟨rfl, rfl, rfl, rfl⟩
          · rw [← Except.ok.inj h]
            exact ⟨rfl, rfl, rfl, rfl⟩
      · obtain ⟨written, -, rfl⟩ := map_ok h
        exact ⟨rfl, rfl, rfl, rfl⟩

/-- Whatever the restore mode is, giving back the events of an attachment does not
touch the register. -/
theorem restoreEvents_register {att k : Nat} (h : s.et_restore_events att k = .ok s') :
    SameRegister s s' := by
  unfold EtSystem.et_restore_events at h
  obtain ⟨s₁, hdumped, hrestored⟩ := bind_ok h
  have hfirst : SameRegister s s₁ := by
    split at hdumped
    · rw [← Except.ok.inj hdumped]
      exact SameRegister.refl s
    · obtain ⟨written, -, rfl⟩ := map_ok hdumped
      exact ⟨rfl, rfl, rfl, rfl⟩
  refine hfirst.trans ?_
  split at hrestored
  · rw [← Except.ok.inj hrestored]
    exact SameRegister.refl s₁
  · exact restoreUsed_register hrestored

/-! ### Status. -/

omit [DecidableEq P] in
/-- A change of the stations of a place that a function `g` describes on numbers
and status. -/
theorem statuses_mapStations {f : EtStation P → EtStation P} (slot : Slot P)
    (g : Nat × Bool → Nat × Bool)
    (hf : ∀ ps, ((f ps).num, (f ps).active) = g (ps.num, ps.active)) :
    (slot.mapStations f).statuses = slot.statuses.map g := by
  cases slot with
  | serial ps => exact congrArg (fun status => [status]) (hf ps)
  | parallel ps others =>
      show (f ps :: others.map f).map _ = ((ps :: others).map _).map g
      rw [List.map_cons, List.map_cons, List.map_cons, List.map_map, List.map_map, hf ps]
      exact congrArg _ (List.map_congr_left fun ps _ => hf ps)

omit [DecidableEq P] in
/-- A status that is set: it is that of the station with this number, and no
other. -/
theorem setActive_statuses (s : EtSystem P) (k : Nat) (active : Bool) :
    (s.setActive k active).statuses
      = s.statuses.map fun status => if status.1 = k then (status.1, active) else status := by
  show (s.slots.map _).flatMap Slot.statuses = (s.slots.flatMap Slot.statuses).map _
  rw [List.flatMap_map, List.map_flatMap]
  congr 1
  funext slot
  refine statuses_mapStations slot _ ?_
  intro ps
  by_cases hk : ps.num = k
  · rw [if_pos hk, if_pos hk]
  · rw [if_neg hk, if_neg hk]

omit [DecidableEq P] in
/-- A conductor that offers events to a station changes its lists and counters
only. -/
theorem offer_status (ps : EtStation P) (d : Conducting P) :
    (ps.offer d).1.num = ps.num ∧ (ps.offer d).1.active = ps.active := by
  unfold EtStation.offer
  cases ps.block_mode with
  | blocking =>
      dsimp only
      split
      · exact ⟨rfl, rfl⟩
      · exact ⟨rfl, rfl⟩
  | nonblocking =>
      dsimp only
      split
      · exact ⟨rfl, rfl⟩
      · exact ⟨rfl, rfl⟩

omit [DecidableEq P] in
/-- A group of parallel stations to which events are offered keeps numbers and
status. -/
theorem offerGroup_statuses (group : List (EtStation P)) :
    ∀ d : Conducting P, (offerGroup group d).1.map (fun ps => (ps.num, ps.active))
      = group.map fun ps => (ps.num, ps.active) := by
  induction group with
  | nil =>
      intro d
      rfl
  | cons ps group ih =>
      intro d
      unfold offerGroup
      dsimp only
      split
      · split
        · rw [List.map_cons, List.map_cons, ih, (offer_status ps d).1, (offer_status ps d).2]
        · rw [List.map_cons, List.map_cons, (offer_status ps d).1, (offer_status ps d).2]
      · rw [List.map_cons, List.map_cons, ih]

omit [DecidableEq P] in
/-- A group to which events are dealt in turn keeps numbers and status. -/
theorem dealRobin_statuses (group : List (EtStation P)) (d : Conducting P) :
    (dealRobin group d).1.map (fun ps => (ps.num, ps.active))
      = group.map fun ps => (ps.num, ps.active) := by
  unfold dealRobin
  dsimp only
  apply List.ext_getElem
  · simp
  · intro i hi hi'
    simp

omit [DecidableEq P] in
/-- A group put back into its place of the chain has the status of its stations as
before. -/
theorem parallel_statuses {group dealt : List (EtStation P)} (ps : EtStation P) (hne : group ≠ [])
    (hsame : dealt.map (fun ps => (ps.num, ps.active)) = group.map fun ps => (ps.num, ps.active)) :
    (Slot.parallel (dealt.headD ps) dealt.tail).statuses
      = group.map fun ps => (ps.num, ps.active) := by
  cases dealt with
  | nil => exact absurd (List.map_eq_nil_iff.mp hsame.symm) hne
  | cons first others => exact hsame

omit [DecidableEq P] in
/-- A conductor that comes by leaves `status` of all the stations of a place as it
is. -/
theorem visit_statuses (slot : Slot P) (d : Conducting P) :
    (slot.visit d).1.statuses = slot.statuses := by
  cases slot with
  | serial ps =>
      unfold Slot.visit
      dsimp only
      split
      · show [((ps.offer d).1.num, (ps.offer d).1.active)] = [(ps.num, ps.active)]
        rw [(offer_status ps d).1, (offer_status ps d).2]
      · rfl
  | parallel ps others =>
      unfold Slot.visit
      dsimp only
      split
      · split
        · exact parallel_statuses ps (List.cons_ne_nil _ _) (dealRobin_statuses (ps :: others) d)
        · rfl
        · exact parallel_statuses ps (List.cons_ne_nil _ _) (offerGroup_statuses (ps :: others) d)
      · rfl

/-- A list in which one element is replaced by another with the same image. -/
theorem flatMap_set {α β : Type} {f : α → List β} {l : List α} {i : Nat} {a b : α}
    (ha : l[i]? = some a) (hf : f b = f a) : (l.set i b).flatMap f = l.flatMap f := by
  obtain ⟨hi, rfl⟩ := List.getElem?_eq_some_iff.mp ha
  have hi' : i < (l.map f).length := by rwa [List.length_map]
  have hset : (l.map f).set i (f l[i]) = l.map f := by
    rw [← List.getElem_map f (h := hi'), List.set_getElem_self]
  rw [List.flatMap_def, List.flatMap_def, List.map_set, hf, hset]

omit [DecidableEq P] in
/-- The step of a conductor does not touch the register of the attachments. -/
theorem visit_register (k : Nat) (cnt : Nat → Nat) (func : Nat → P → Bool) :
    SameRegister s (s.visit k cnt func) := by
  unfold EtSystem.visit
  split
  · split
    · exact ⟨rfl, rfl, rfl, rfl⟩
    · split
      · next slot hslot =>
          -- only one place of the chain is written, and it has the same stations
          refine ⟨rfl, rfl, rfl, flatMap_set hslot ?_⟩
          rw [visit_statuses]
          exact (statuses_mapStations (f := fun ps =>
            { ps with cnt := cnt ps.num, func := func ps.num }) slot id fun _ => rfl).trans
              (List.map_id _)
      · exact ⟨rfl, rfl, rfl, rfl⟩
  · exact SameRegister.refl s

/-! ### The steps. -/

/-- **A detach** is what changes the register: the attachment goes, its station
counts one less, and is set idle when that was the last. -/
theorem detach_register {att : Nat} (h : s.et_station_detach att = .ok s') :
    ∃ k, s.stat att = some k ∧ s'.stat = s.stat
      ∧ s'.attached = Function.update s.attached att false
      ∧ s'.nattachments = Function.update s.nattachments k (s.nattachments k - 1)
      ∧ s'.statuses = if s.nattachments k = 1 ∧ k ≠ grandcentral
          then (s.setActive k false).statuses else s.statuses := by
  unfold EtSystem.et_station_detach at h
  cases hstat : s.stat att with
  | none =>
      rw [hstat] at h
      cases h
  | some k =>
      rw [hstat] at h
      obtain ⟨s₂, hrestored, rfl⟩ := map_ok h
      obtain ⟨s₁, hflushed, hrestored⟩ := bind_ok hrestored
      have hrestore := restoreEvents_register hrestored
      -- neither the flush nor the restoring registers anything, but the last detach sets the
      -- station idle
      have hdone : s₂.attached = s.attached ∧ s₂.stat = s.stat
          ∧ s₂.nattachments = s.nattachments
          ∧ s₂.statuses = if s.nattachments k = 1 ∧ k ≠ grandcentral
              then (s.setActive k false).statuses else s.statuses := by
        split at hflushed
        · next hlast =>
            have hsame := (flush_register hflushed).trans hrestore
            rw [if_pos hlast]
            exact ⟨hsame.attached, hsame.stat, hsame.nattachments, hsame.statuses⟩
        · next hlast =>
            rw [← Except.ok.inj hflushed] at hrestore
            rw [if_neg hlast]
            exact ⟨hrestore.attached, hrestore.stat, hrestore.nattachments, hrestore.statuses⟩
      obtain ⟨hattached, hstat', hcount, hstatuses⟩ := hdone
      refine ⟨k, rfl, hstat', ?_, ?_, hstatuses⟩
      · show Function.update s₂.attached att false = _
        rw [hattached]
      · show Function.update s₂.nattachments k (s₂.nattachments k - 1) = _
        rw [hcount]

/-- In this step an attachment comes or goes; in all others the register stays as
it is. -/
def Act.registers : Act P → Bool
  | .attach _ _ => true
  | .detach _ => true
  | _ => false

/-- A step that is not an attach or a detach leaves the register as it is. -/
theorem next_register {act : Act P} (hact : act.registers = false) :
    SameRegister s (s.next act) := by
  -- an exchange of events leaves all but the events
  by_cases hexchange : act.exchanges = true
  · have hsame := next_exchange (s := s) hexchange
    exact ⟨hsame.attached, hsame.stat, hsame.nattachments,
      congrArg (List.flatMap Slot.statuses) hsame.slots⟩
  unfold EtSystem.next
  cases hstep : s.step act with
  | error failure => exact SameRegister.refl s
  | ok s' =>
      dsimp only
      cases act with
      | new att num group => exact absurd rfl hexchange
      | get att num => exact absurd rfl hexchange
      | put att pe => exact absurd rfl hexchange
      | dump att pe => exact absurd rfl hexchange
      | setpriority p pri => exact absurd rfl hexchange
      | takeBatch k =>
          have htake : s.takeBatch k = .ok s' := hstep
          unfold EtSystem.takeBatch at htake
          split at htake
          · rw [← Except.ok.inj htake]
            exact SameRegister.refl s
          · split at htake
            · rw [← Except.ok.inj htake]
              exact SameRegister.refl s
            · obtain ⟨read, -, rfl⟩ := map_ok htake
              exact ⟨rfl, rfl, rfl, rfl⟩
      | visit k cnt func =>
          rw [← Except.ok.inj hstep]
          exact visit_register k cnt func
      | deliver k =>
          have hdeliver : s.deliver k = .ok s' := hstep
          unfold EtSystem.deliver at hdeliver
          split at hdeliver
          · split at hdeliver
            · obtain ⟨written, -, rfl⟩ := map_ok hdeliver
              exact ⟨rfl, rfl, rfl, rfl⟩
            · obtain ⟨written, -, hwritten⟩ := bind_ok hdeliver
              split at hwritten
              · cases hwritten
              · rw [← Except.ok.inj hwritten]
                exact ⟨rfl, rfl, rfl, rfl⟩
          · rw [← Except.ok.inj hdeliver]
            exact SameRegister.refl s
      | attach att k => cases hact
      | detach att => cases hact

/-! ## §2. The numbers. -/

/-- Each station knows the number of the attachments in use that it has:
`nattachments` is a count of them. -/
def Counted (s : EtSystem P) : Prop :=
  ∃ inUse : Finset Nat, (∀ att, att ∈ inUse ↔ s.attached att = true)
    ∧ ∀ k, s.nattachments k = ((inUse.filter fun att => s.stat att = some k).card : Int)

/-- A detach that is done is one of an attachment in use.  The program does not
check it, and counts down twice for a second detach. -/
def Act.Registered (s : EtSystem P) : Act P → Prop
  | .detach att => ∀ s', s.et_station_detach att = .ok s' → s.attached att = true
  | _ => True

/-- Whether a step detaches somebody who is gone can be decided in the state
before it. -/
instance Act.decidableRegistered (s : EtSystem P) : ∀ act : Act P, Decidable (act.Registered s)
  | .detach att =>
      match hdetach : s.et_station_detach att with
      | .error _ => isTrue fun _ hdone => nomatch hdetach.symm.trans hdone
      | .ok s' => decidable_of_iff (s.attached att = true)
          ⟨fun hthere _ _ => hthere, fun hregistered => hregistered s' hdetach⟩
  | .new _ _ _ => isTrue trivial
  | .get _ _ => isTrue trivial
  | .put _ _ => isTrue trivial
  | .dump _ _ => isTrue trivial
  | .setpriority _ _ => isTrue trivial
  | .attach _ _ => isTrue trivial
  | .takeBatch _ => isTrue trivial
  | .visit _ _ _ => isTrue trivial
  | .deliver _ => isTrue trivial

omit [DecidableEq P] in
/-- A step that leaves the register as it is keeps the numbers right. -/
theorem Counted.congr (h : Counted s) (hsame : SameRegister s s') : Counted s' := by
  obtain ⟨inUse, hinUse, hcount⟩ := h
  refine ⟨inUse, ?_, ?_⟩
  · rw [hsame.attached]
    exact hinUse
  · rw [hsame.stat, hsame.nattachments]
    exact hcount

omit [DecidableEq P] in
/-- A new attachment is one more, for its station and for no other. -/
theorem Counted.attach (h : Counted s) {att k : Nat}
    (hattach : s.et_station_attach att k = .ok s') : Counted s' := by
  unfold EtSystem.et_station_attach at hattach
  split at hattach
  · cases hattach
  · next hfree =>
      obtain ⟨inUse, hinUse, hcount⟩ := h
      have hnew : att ∉ inUse := fun hin => hfree ((hinUse att).mp hin)
      rw [← Except.ok.inj hattach]
      refine ⟨insert att inUse, ?_, ?_⟩
      · intro a
        show a ∈ insert att inUse ↔ Function.update s.attached att true a = true
        rw [Finset.mem_insert]
        by_cases heq : a = att
        · rw [heq, Function.update_self]
          exact iff_of_true (Or.inl rfl) rfl
        · rw [Function.update_of_ne heq, or_iff_right heq]
          exact hinUse a
      · intro k'
        -- an id that was free: its old `stat` has counted nowhere
        have hothers : (inUse.filter fun a => Function.update s.stat att (some k) a = some k')
            = inUse.filter fun a => s.stat a = some k' := by
          refine Finset.filter_congr ?_
          intro a ha
          have hne : a ≠ att := fun heq => hnew (heq ▸ ha)
          rw [Function.update_of_ne hne]
        show Function.update s.nattachments k (s.nattachments k + 1) k'
          = (((insert att inUse).filter fun a =>
              Function.update s.stat att (some k) a = some k').card : Int)
        rw [Finset.filter_insert, Function.update_self, hothers]
        by_cases hk : k = k'
        · have hnot : att ∉ inUse.filter fun a => s.stat a = some k' := fun hin =>
            hnew (Finset.mem_filter.mp hin).1
          subst hk
          rw [if_pos rfl, Function.update_self, Finset.card_insert_of_notMem hnot, hcount k]
          rfl
        · have hne : some k ≠ some k' := fun heq => hk (Option.some.inj heq)
          rw [if_neg hne, Function.update_of_ne (Ne.symm hk)]
          exact hcount k'

/-- **One that goes** is one less; the numbers are right afterwards exactly if it
was there. -/
theorem Counted.detach (h : Counted s) {att : Nat} (hdetach : s.et_station_detach att = .ok s') :
    Counted s' ↔ s.attached att = true := by
  obtain ⟨inUse, hinUse, hcount⟩ := h
  obtain ⟨k, hstat, hstat', hattached', hcount', -⟩ := detach_register hdetach
  constructor
  · rintro ⟨inUse', hinUse', hnow⟩
    by_contra hgone
    -- nobody has gone, and the station has one less
    have hsame : inUse' = inUse := by
      ext a
      rw [hinUse', hinUse, hattached']
      by_cases heq : a = att
      · rw [heq, Function.update_self]
        exact iff_of_false nofun hgone
      · rw [Function.update_of_ne heq]
    have hk := hnow k
    rw [hcount', Function.update_self, hstat', hsame, ← hcount k] at hk
    omega
  · intro hthere
    have hin : att ∈ inUse := (hinUse att).mpr hthere
    refine ⟨inUse.erase att, ?_, ?_⟩
    · intro a
      rw [Finset.mem_erase, hattached']
      by_cases heq : a = att
      · rw [heq, Function.update_self]
        exact iff_of_false (fun hboth => hboth.1 rfl) nofun
      · rw [Function.update_of_ne heq, and_iff_right heq]
        exact hinUse a
    · intro k'
      -- `stat` is as before, so only its own station has one less
      rw [hcount', hstat', Finset.filter_erase]
      by_cases hk : k' = k
      · have hmem : att ∈ inUse.filter fun a => s.stat a = some k :=
          Finset.mem_filter.mpr ⟨hin, hstat⟩
        have hpos := Finset.card_pos.mpr ⟨att, hmem⟩
        have hk' := hcount k
        rw [hk, Function.update_self, Finset.card_erase_of_mem hmem]
        omega
      · have hnot : att ∉ inUse.filter fun a => s.stat a = some k' := by
          intro hmem
          have hat := (Finset.mem_filter.mp hmem).2
          rw [hstat] at hat
          exact hk (Option.some.inj hat).symm
        rw [Function.update_of_ne hk, Finset.erase_eq_of_notMem hnot]
        exact hcount k'

/-- **One step** keeps the numbers right, exactly if it detaches nobody who is
gone. -/
theorem Counted.next_iff (h : Counted s) {act : Act P} :
    Counted (s.next act) ↔ act.Registered s := by
  cases act with
  | attach att k =>
      refine iff_of_true ?_ trivial
      unfold EtSystem.next
      cases hstep : s.step (.attach att k) with
      | error failure => exact h
      | ok s' => exact h.attach hstep
  | detach att =>
      unfold EtSystem.next
      cases hstep : s.step (.detach att) with
      | error failure =>
          -- refused, with nothing changed
          refine iff_of_true h ?_
          intro s' hdetach
          cases hstep.symm.trans hdetach
      | ok s' =>
          rw [h.detach hstep]
          exact ⟨fun hthere _ _ => hthere, fun hregistered => hregistered s' hstep⟩
  | new att num group => exact iff_of_true (h.congr (next_register rfl)) trivial
  | get att num => exact iff_of_true (h.congr (next_register rfl)) trivial
  | put att pe => exact iff_of_true (h.congr (next_register rfl)) trivial
  | dump att pe => exact iff_of_true (h.congr (next_register rfl)) trivial
  | setpriority p pri => exact iff_of_true (h.congr (next_register rfl)) trivial
  | takeBatch k => exact iff_of_true (h.congr (next_register rfl)) trivial
  | visit k cnt func => exact iff_of_true (h.congr (next_register rfl)) trivial
  | deliver k => exact iff_of_true (h.congr (next_register rfl)) trivial

/-- In the beginning nobody is attached, and all numbers are 0. -/
theorem start_counted (events : List P) (group : P → Int) (slots : List (Slot P))
    (restore_mode : Nat → RestoreMode) : Counted (.start events group slots restore_mode) := by
  refine ⟨∅, ?_, ?_⟩
  · intro att
    exact iff_of_false (Finset.notMem_empty att) nofun
  · intro k
    rfl

/-- **Each attachment counts once**: in every state of a run each station knows
the number of its attachments, exactly if none is detached that is gone. -/
theorem counts_iff (events : List P) (group : P → Int) (slots : List (Slot P))
    (restore_mode : Nat → RestoreMode) (acts : List (Act P)) :
    StatesMeet EtSystem.exec Counted (.start events group slots restore_mode) acts
      ↔ StepsMeet EtSystem.exec (fun s act => act.Registered s)
          (.start events group slots restore_mode) acts := by
  refine statesMeet_iff_stepsMeet (J := fun _ => True) (fun _ _ _ _ _ => trivial) ?_ trivial
    (start_counted events group slots restore_mode)
  intro s act s' _ hcounted hnext
  rw [← Option.some.inj hnext]
  exact hcounted.next_iff

/-- The second detach takes away what is not there. -/
example : ([.attach 0 1, .detach 0, .detach 0].foldl EtSystem.next smallStart).nattachments 1
    = -1 := by decide

/-! ## §3. Active stations. -/

omit [DecidableEq P] in
/-- Where the numbers are right none is negative. -/
theorem Counted.nonneg (h : Counted s) (k : Nat) : 0 ≤ s.nattachments k := by
  obtain ⟨inUse, -, hcount⟩ := h
  rw [hcount k]
  exact Int.natCast_nonneg _

omit [DecidableEq P] in
/-- Where the numbers are right a station that knows of attachments has one. -/
theorem Counted.exists_iff (h : Counted s) (k : Nat) :
    s.nattachments k ≠ 0 ↔ ∃ att, s.attached att = true ∧ s.stat att = some k := by
  obtain ⟨inUse, hinUse, hcount⟩ := h
  rw [hcount k, Int.natCast_ne_zero, ← Nat.pos_iff_ne_zero, Finset.card_pos]
  constructor
  · rintro ⟨att, hatt⟩
    obtain ⟨hin, hstat⟩ := Finset.mem_filter.mp hatt
    exact ⟨att, (hinUse att).mp hin, hstat⟩
  · rintro ⟨att, hthere, hstat⟩
    exact ⟨att, Finset.mem_filter.mpr ⟨(hinUse att).mpr hthere, hstat⟩⟩

/-- The stations of the chain are active as long as they know of attachments,
whether the number is right or not. -/
def Activity (s : EtSystem P) : Prop :=
  ∀ status ∈ s.statuses, status.1 ≠ grandcentral →
    (status.2 = true ↔ s.nattachments status.1 ≠ 0)

omit [DecidableEq P] in
/-- A step that leaves the register as it is leaves the stations active or idle. -/
theorem Activity.congr (h : Activity s) (hsame : SameRegister s s') : Activity s' := by
  unfold Activity
  rw [hsame.statuses, hsame.nattachments]
  exact h

omit [DecidableEq P] in
/-- A station is set active or idle, as its new number asks for, and the others
keep theirs. -/
theorem Activity.set (h : Activity s) {k : Nat} {active : Bool} {n : Int}
    (hn : k ≠ grandcentral → (active = true ↔ n ≠ 0))
    (hstatuses : s'.statuses = (s.setActive k active).statuses)
    (hcount : s'.nattachments = Function.update s.nattachments k n) : Activity s' := by
  intro status hstatus hne
  rw [hstatuses, setActive_statuses] at hstatus
  obtain ⟨old, hold, rfl⟩ := List.mem_map.mp hstatus
  rw [hcount]
  by_cases hk : old.1 = k
  · rw [if_pos hk] at hne ⊢
    show active = true ↔ Function.update s.nattachments k n old.1 ≠ 0
    rw [hk, Function.update_self]
    exact hn (hk ▸ hne)
  · rw [if_neg hk] at hne ⊢
    rw [Function.update_of_ne hk]
    exact h old hold hne

omit [DecidableEq P] in
/-- An attachment sets its station active, and its number is then not 0, as it was
not negative. -/
theorem Activity.attach (h : Activity s) (hcounted : Counted s) {att k : Nat}
    (hattach : s.et_station_attach att k = .ok s') : Activity s' := by
  unfold EtSystem.et_station_attach at hattach
  split at hattach
  · cases hattach
  · rw [← Except.ok.inj hattach]
    have hpos := hcounted.nonneg k
    refine h.set ?_ rfl rfl
    intro _
    exact iff_of_true rfl (by omega)

/-- The detach of somebody who is there sets the station idle with the last
attachment, and only then. -/
theorem Activity.detach (h : Activity s) (hcounted : Counted s) {att : Nat}
    (hthere : s.attached att = true) (hdetach : s.et_station_detach att = .ok s') :
    Activity s' := by
  obtain ⟨k, hstat, -, -, hcount, hstatuses⟩ := detach_register hdetach
  have hsome : s.nattachments k ≠ 0 := (hcounted.exists_iff k).mpr ⟨att, hthere, hstat⟩
  by_cases hlast : s.nattachments k = 1 ∧ k ≠ grandcentral
  · -- the number falls to 0, and the station is idle
    rw [if_pos hlast] at hstatuses
    refine h.set ?_ hstatuses hcount
    intro _
    exact iff_of_false nofun (by omega)
  · -- somebody is left, or it is GrandCentral
    rw [if_neg hlast] at hstatuses
    intro status hstatus hne
    rw [hstatuses] at hstatus
    rw [hcount]
    by_cases hk : status.1 = k
    · have hmore : s.nattachments k ≠ 1 := fun hone => hlast ⟨hone, hk ▸ hne⟩
      have hactive : status.2 = true := (h status hstatus hne).mpr (hk ▸ hsome)
      rw [hk, Function.update_self]
      exact iff_of_true hactive (by omega)
    · rw [Function.update_of_ne hk]
      exact h status hstatus hne

/-- **One step** that detaches nobody who is gone keeps the stations active
exactly as long as they know of attachments. -/
theorem next_activity (h : Activity s) (hcounted : Counted s) {act : Act P}
    (hact : act.Registered s) : Activity (s.next act) := by
  by_cases hregisters : act.registers = false
  · exact h.congr (next_register hregisters)
  · unfold EtSystem.next
    cases hstep : s.step act with
    | error failure => exact h
    | ok s' =>
        cases act with
        | attach att k => exact h.attach hcounted hstep
        | detach att => exact h.detach hcounted (hact s' hstep) hstep
        | new att num group => exact absurd rfl hregisters
        | get att num => exact absurd rfl hregisters
        | put att pe => exact absurd rfl hregisters
        | dump att pe => exact absurd rfl hregisters
        | setpriority p pri => exact absurd rfl hregisters
        | takeBatch k => exact absurd rfl hregisters
        | visit k cnt func => exact absurd rfl hregisters
        | deliver k => exact absurd rfl hregisters

/-- Stations of the chain are active exactly if somebody is attached to them: no
event waits for a reader who is gone. -/
def ActiveIfAttached (s : EtSystem P) : Prop :=
  ∀ slot ∈ s.slots, ∀ ps ∈ slot.stations, ps.num ≠ grandcentral →
    (ps.active = true ↔ ∃ att, s.attached att = true ∧ s.stat att = some ps.num)

omit [DecidableEq P] in
/-- Where the numbers are right, to know of attachments is to have one. -/
theorem Activity.active_iff_attached (h : Activity s) (hcounted : Counted s) :
    ActiveIfAttached s := by
  intro slot hslot ps hps hne
  rw [← hcounted.exists_iff ps.num]
  exact h (ps.num, ps.active)
    (List.mem_flatMap.mpr ⟨slot, hslot, List.mem_map.mpr ⟨ps, hps, rfl⟩⟩) hne

/-- A chain of idle stations, to none of which anybody is attached. -/
theorem start_activity (events : List P) (group : P → Int) {slots : List (Slot P)}
    (hidle : ∀ slot ∈ slots, ∀ ps ∈ slot.stations, ps.active = false)
    (restore_mode : Nat → RestoreMode) : Activity (.start events group slots restore_mode) := by
  intro status hstatus _
  obtain ⟨slot, hslot, hstatus⟩ := List.mem_flatMap.mp hstatus
  obtain ⟨ps, hps, rfl⟩ := List.mem_map.mp hstatus
  refine iff_of_false ?_ (fun hne => hne rfl)
  rw [hidle slot hslot ps hps]
  nofun

/-- **Stations are active while somebody is attached**, in every state of a run
from idle stations that detaches nobody who is gone. -/
theorem active_if_attached (events : List P) (group : P → Int) {slots : List (Slot P)}
    (hidle : ∀ slot ∈ slots, ∀ ps ∈ slot.stations, ps.active = false)
    (restore_mode : Nat → RestoreMode) {acts : List (Act P)}
    (hregistered : StepsMeet EtSystem.exec (fun s act => act.Registered s)
      (.start events group slots restore_mode) acts) :
    StatesMeet EtSystem.exec ActiveIfAttached (.start events group slots restore_mode) acts := by
  have hboth : StatesMeet EtSystem.exec (fun s => Counted s ∧ Activity s)
      (.start events group slots restore_mode) acts := by
    refine statesMeet_of_stepsMeet ?_ ⟨start_counted events group slots restore_mode,
      start_activity events group hidle restore_mode⟩ hregistered
    intro s act s' hs hact hnext
    rw [← Option.some.inj hnext]
    exact ⟨hs.1.next_iff.mpr hact, next_activity hs.2 hs.1 hact⟩
  exact hboth.imp fun _ hs => hs.2.active_iff_attached hs.1

/-- In the small run nobody is detached who is gone. -/
theorem smallRun_registered :
    StepsMeet EtSystem.exec (fun s act => act.Registered s) smallStart smallRun := by decide

/-- The stations of the small run are active while somebody is attached. -/
theorem active_if_attached_small :
    StatesMeet EtSystem.exec ActiveIfAttached smallStart smallRun :=
  active_if_attached _ _ (by decide) _ smallRun_registered

/-- After a second detach the next attachment leaves its station active. -/
example : ([.attach 0 1, .detach 0, .detach 0, .attach 0 1, .detach 0].foldl EtSystem.next
    smallStart).statuses = [(1, true)] := by decide

end PokerReco.ET
