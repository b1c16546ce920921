/-
  PokerReco.ET.EtSystemSteps
  ──────────────────────────
  **WHAT A STEP OF AN ET SYSTEM DOES** to the places of its events.

      Accounts.get                      attachments get events
      Accounts.nwrite, .ndump, …        they give some back
      new_sound, put_sound, …           the functions for attachments
      detach_sound                      no event leaves with an attachment
      takeBatch_sound, deliver_sound    a conductor never fails
-/
import PokerReco.ET.EtSystemInvariant

namespace PokerReco.ET

open PokerReco.Library

variable {P : Type} {s s' : EtSystem P} {content : Place → List P} {place : P → Place}

/-! ## §1. Moves. -/

/-- A step that changes members of the events of attachments only leaves all
events where they are. -/
theorem Accounts.kept (h : Accounts s content place)
    (hevents : s'.events = s.events ∧ s'.nevents = s.nevents) (hin : s'.list_in = s.list_in)
    (hout : s'.list_out = s.list_out) (hconductor : s'.conductor = s.conductor)
    (howner : s'.m.owner = s.m.owner)
    (hm : ∀ p, s.m.owner p = none →
      s'.m.next p = s.m.next p ∧ s'.m.priority p = s.m.priority p) :
    Accounts s' content place where
  placed := h.placed
  complete := by
    rw [hevents.1]
    exact h.complete
  nodup := by
    rw [hevents.1]
    exact h.nodup
  nevents := by
    rw [hevents.1, hevents.2]
    exact h.nevents
  pos := by
    rw [hevents.2]
    exact h.pos
  owner := by
    rw [howner]
    exact h.owner
  ok := by
    intro q
    have hsame : SameAt s s' q := by
      cases q with
      | list_in k => exact congrFun hin k
      | list_out k => exact congrFun hout k
      | attachment att => exact trivial
      | conductor k => exact congrFun hconductor k
    -- an event that is in a list or with a conductor has no owner
    have hnone : ∀ p ∈ content q, (∀ att, q ≠ .attachment att) → s.m.owner p = none := by
      intro p hp hq
      rw [h.owner p, (h.placed.mem q p).mp hp]
      cases q with
      | attachment att => exact absurd rfl (hq att)
      | list_in k => rfl
      | list_out k => rfl
      | conductor k => rfl
    cases q with
    | attachment att => exact trivial
    | list_in k =>
        exact (h.ok _).congr hsame (fun p hp => (hm p (hnone p hp nofun)).1)
          fun p hp => (hm p (hnone p hp nofun)).2
    | list_out k =>
        exact (h.ok _).congr hsame (fun p hp => (hm p (hnone p hp nofun)).1)
          fun p hp => (hm p (hnone p hp nofun)).2
    | conductor k =>
        exact (h.ok _).congr hsame (fun p hp => (hm p (hnone p hp nofun)).1)
          fun p hp => (hm p (hnone p hp nofun)).2

/-- The input list of a station fits the events that the invariant has in it. -/
theorem Accounts.inOk (h : Accounts s content place) (k : Nat) :
    InOk s k (content (.list_in k)) := h.ok (.list_in k)

/-- The output list of a station fits the events that the invariant has in it. -/
theorem Accounts.outOk (h : Accounts s content place) (k : Nat) :
    OutOk s k (content (.list_out k)) := h.ok (.list_out k)

variable [DecidableEq P]

/-- Events go from an input list to an attachment, and the list holds those
that are left. -/
theorem Accounts.readIn (h : Accounts s content place) (k att : Nat) {taken left : List P}
    {m' : Events P} {pl' : EtList P} (hperm : (taken ++ left).Perm (content (.list_in k)))
    (hleft : left.Sublist (content (.list_in k))) (hholds : Holds m'.next pl' left)
    (hsame : OnlyNext (content (.list_in k)) s.m m') :
    Accounts (s.writeIn k (m'.own taken (some att), pl'))
      (Placement.moved content (.list_in k) (.attachment att) left
        (content (.attachment att) ++ taken))
      (fun p => if p ∈ taken then .attachment att else place p) := by
  have hapart : Place.list_in k ≠ .attachment att := nofun
  refine h.move hapart hperm (List.Perm.refl _) ⟨rfl, rfl⟩ ?_ trivial ?_ ?_ ?_
  · refine InOk.mk ?_ ?_
    · show Holds m'.next (Function.update s.list_in k pl' k) left
      rw [Function.update_self]
      exact hholds
    · intro hk
      exact (((h.inOk k).order hk).sublist hleft).congr fun p _ => congrFun hsame.priority p
  · intro q hq _
    cases q with
    | list_in j =>
        have hne : j ≠ k := fun heq => hq (congrArg Place.list_in heq)
        exact Function.update_of_ne hne pl' s.list_in
    | list_out j => exact rfl
    | attachment att => exact trivial
    | conductor j => exact rfl
  · intro p hp _
    exact ⟨hsame.next p hp, congrFun hsame.priority p⟩
  · intro p
    show (if p ∈ taken then some att else m'.owner p) = _
    rw [hsame.owner]
    rfl

/-- Events go to an input list from where they were, in whatever order the list
takes them. -/
theorem Accounts.toIn (h : Accounts s content place) {x : Place} (k : Nat) (hx : x ≠ .list_in k)
    {pe left l' : List P} {m' : Events P} {pl' : EtList P} {conductor : Nat → Option (AtWork P)}
    (hperm : (pe ++ left).Perm (content x)) (hl' : l'.Perm (content (.list_in k) ++ pe))
    (hholds : Holds m'.next pl' l')
    (hsame : OnlyNext (content (.list_in k) ++ pe) (s.m.own pe none) m')
    (horder : k ≠ grandcentral → HighFirst s.m.priority l')
    (hconductor : ∀ j, .conductor j ≠ x → conductor j = s.conductor j)
    (hokx : PlaceOk { s.writeIn k (m', pl') with conductor := conductor } left x) :
    Accounts { s.writeIn k (m', pl') with conductor := conductor }
      (Placement.moved content x (.list_in k) left l')
      (fun p => if p ∈ pe then .list_in k else place p) := by
  refine h.move hx hperm hl' ⟨rfl, rfl⟩ hokx ?_ ?_ ?_ ?_
  · refine InOk.mk ?_ ?_
    · show Holds m'.next (Function.update s.list_in k pl' k) l'
      rw [Function.update_self]
      exact hholds
    · intro hk
      exact (horder hk).congr fun p _ => congrFun hsame.priority p
  · intro q hq hqk
    cases q with
    | list_in j =>
        have hne : j ≠ k := fun heq => hqk (congrArg Place.list_in heq)
        exact Function.update_of_ne hne pl' s.list_in
    | list_out j => exact rfl
    | attachment att => exact trivial
    | conductor j => exact hconductor j hq
  · intro p hp hpk
    have hpe : p ∉ content (.list_in k) ++ pe := by
      rw [List.mem_append, not_or]
      exact ⟨hpk, fun hmem => hp (hperm.mem_iff.mp (List.mem_append_left left hmem))⟩
    exact ⟨hsame.next p hpe, congrFun hsame.priority p⟩
  · intro p
    show m'.owner p = _
    rw [hsame.owner]
    rfl

/-- Events of an attachment go to an output list, in the order that the
list keeps. -/
theorem Accounts.toOut (h : Accounts s content place) {att : Nat} (k : Nat)
    {pe left l' : List P} {m' : Events P} {pl' : EtList P}
    (hperm : (pe ++ left).Perm (content (.attachment att)))
    (hl' : l'.Perm (content (.list_out k) ++ pe))
    (hholds : Holds m'.next pl' l')
    (hsame : OnlyNext (content (.list_out k) ++ pe) (s.m.own pe none) m')
    (horder : HighFirst s.m.priority l')
    (hlasthigh : pl'.lasthigh ≤ (highs s.m.priority l').length) :
    Accounts (s.writeOut k (m', pl'))
      (Placement.moved content (.attachment att) (.list_out k) left l')
      (fun p => if p ∈ pe then .list_out k else place p) := by
  have hpriority : m'.priority = s.m.priority := hsame.priority
  have hapart : Place.attachment att ≠ .list_out k := nofun
  refine h.move hapart hperm hl' ⟨rfl, rfl⟩ trivial ?_ ?_ ?_ ?_
  · refine OutOk.mk ?_ ?_ ?_
    · show Holds m'.next (Function.update s.list_out k pl' k) l'
      rw [Function.update_self]
      exact hholds
    · exact horder.congr fun p _ => congrFun hpriority p
    · show (Function.update s.list_out k pl' k).lasthigh ≤ (highs m'.priority l').length
      rw [Function.update_self, hpriority]
      exact hlasthigh
  · -- the other places are as they were
    intro q _ hqk
    cases q with
    | list_out j =>
        have hne : j ≠ k := fun heq => hqk (congrArg Place.list_out heq)
        exact Function.update_of_ne hne pl' s.list_out
    | list_in j => exact rfl
    | attachment att => exact trivial
    | conductor j => exact rfl
  · -- and so are the events that are neither written nor in the list
    intro p hp hpk
    have hpe : p ∉ content (.list_out k) ++ pe := by
      rw [List.mem_append, not_or]
      exact ⟨hpk, fun hmem => hp (hperm.mem_iff.mp (List.mem_append_left left hmem))⟩
    exact ⟨hsame.next p hpe, congrFun hpriority p⟩
  · intro p
    show m'.owner p = _
    rw [hsame.owner]
    rfl

/-! ## §2. Sound systems. -/

/-- All events are accounted for, and the attachments that have some are in use
and have a station. -/
structure Sound (s : EtSystem P) : Prop where
  accounts : ∃ content place, Accounts s content place
  stat : ∀ att, s.attached att = true → ∃ k, s.stat att = some k
  owner : ∀ p att, s.m.owner p = some att → s.attached att = true

/-- The step was done, and the system is sound after it. -/
def Accepts (result : Except Failure (EtSystem P)) : Prop := ∃ s', result = .ok s' ∧ Sound s'

/-- The step was not done, by a check of the program: no pointer was used that is
not there. -/
def Refuses (result : Except Failure (EtSystem P)) : Prop :=
  result = .error .ET_ERROR ∨ result = .error .ET_ERROR_EMPTY

/-! ### Attachments get events. -/

omit [DecidableEq P] in
/-- A step keeps the system sound if its events are accounted for and new owners
are attachments in use. -/
theorem sound_of_owner (h : Sound s) (haccounts : ∃ content place, Accounts s' content place)
    (hattached : s'.attached = s.attached) (hstat : s'.stat = s.stat)
    (howner : ∀ p att, s'.m.owner p = some att →
      s.m.owner p = some att ∨ s.attached att = true) : Sound s' where
  accounts := haccounts
  stat := by
    rw [hattached, hstat]
    exact h.stat
  owner := by
    intro p att hp
    rw [hattached]
    cases howner p att hp with
    | inl hbefore => exact h.owner p att hbefore
    | inr hin => exact hin

/-- What an attachment read from a list: the events are its own now, and the list
holds the others. -/
structure Reads (m : Events P) (l : List P) (att : Nat) (read : List P × Events P × EtList P)
    (left : List P) (m' : Events P) : Prop where
  perm : (read.1 ++ left).Perm l
  sublist : left.Sublist l
  holds : Holds m'.next read.2.2 left
  same : OnlyNext l m m'
  own : read.2.1 = m'.own read.1 (some att)

omit [DecidableEq P] in
/-- Nothing has changed between the members of the events and themselves. -/
theorem OnlyNext.refl (l : List P) (m : Events P) : OnlyNext l m m where
  next := fun _ _ => rfl
  priority := rfl
  owner := rfl
  group := rfl
  age := rfl

/-- To read nothing leaves the list as it is. -/
theorem reads_none {m : Events P} {pl : EtList P} {l : List P} (h : Holds m.next pl l)
    (att : Nat) : Reads m l att ([], m, pl) l m where
  perm := List.Perm.refl l
  sublist := List.Sublist.refl l
  holds := h
  same := OnlyNext.refl l m
  own := (own_nil m _).symm

/-- `et_station_nread` finds the list empty, or reads its first events. -/
theorem nread_reads {m : Events P} {pl : EtList P} {l : List P} (h : Holds m.next pl l)
    (att num : Nat) :
    et_station_nread m pl att num = .error .ET_ERROR_EMPTY
      ∨ ∃ read left m', et_station_nread m pl att num = .ok read ∧ Reads m l att read left m' := by
  by_cases hnum : num < 1
  · right
    refine ⟨_, l, m, ?_, reads_none h att⟩
    unfold et_station_nread
    rw [if_pos hnum]
  · by_cases hne : l = []
    · left
      have hcnt : pl.cnt < 1 := by
        rw [h.cnt_eq_zero.mpr hne]
        exact Nat.one_pos
      unfold et_station_nread
      rw [if_neg hnum, if_pos hcnt]
    · right
      have hpos : 1 ≤ num := by omega
      obtain ⟨pl', hread, hholds, -⟩ := et_station_nread_holds h att hpos hne
      refine ⟨_, l.drop num, m, hread, ?_⟩
      constructor
      · dsimp only
        rw [List.take_append_drop]
      · exact List.drop_sublist num l
      · exact hholds
      · exact OnlyNext.refl l m
      · rfl

/-- A scan for a group finds the list empty, or reads events of the group. -/
theorem nread_group_reads {m : Events P} {pl : EtList P} {l : List P} (h : Holds m.next pl l)
    (hnodup : l.Nodup) (att num : Nat) (group : Int) :
    scanForGroup m pl att num group = .error .ET_ERROR_EMPTY
      ∨ ∃ read left m', scanForGroup m pl att num group = .ok read
          ∧ Reads m l att read left m' := by
  by_cases hnum : num < 1
  · right
    refine ⟨_, l, m, ?_, reads_none h att⟩
    unfold scanForGroup
    rw [if_pos hnum]
  · by_cases hne : l = []
    · left
      have hcnt : pl.cnt < 1 := by
        rw [h.cnt_eq_zero.mpr hne]
        exact Nat.one_pos
      unfold scanForGroup
      rw [if_neg hnum, if_pos hcnt]
    · right
      have hpos : 1 ≤ num := by omega
      obtain ⟨m', pl', hread, hholds, hsame, -⟩ :=
        scanForGroup_holds h hnodup hne att hpos group
      refine ⟨_, (takeGroup m.group group (min num l.length) l).2, m', hread, ?_⟩
      constructor
      · exact takeGroup_perm m.group group (min num l.length) l
      · exact takeGroup_sublist m.group group (min num l.length) l
      · exact hholds
      · exact hsame
      · rfl

/-- **Attachments get events** from an input list. -/
theorem Accounts.get (h : Accounts s content place) {k att : Nat}
    {read : List P × Events P × EtList P} {left : List P} {m' : Events P}
    (hreads : Reads s.m (content (.list_in k)) att read left m') :
    Accounts (s.writeIn k read.2)
      (Placement.moved content (.list_in k) (.attachment att) left
        (content (.attachment att) ++ read.1))
      (fun p => if p ∈ read.1 then .attachment att else place p) := by
  have hwritten := h.readIn k att hreads.perm hreads.sublist hreads.holds hreads.same
  rw [← hreads.own] at hwritten
  exact hwritten

/-- The owners after a read: the attachment has what it read, and nothing else
has changed. -/
theorem Reads.owner {m : Events P} {l : List P} {att : Nat} {read : List P × Events P × EtList P}
    {left : List P} {m' : Events P} (h : Reads m l att read left m') (p : P) :
    read.2.1.owner p = if p ∈ read.1 then some att else m.owner p := by
  rw [h.own]
  show (if p ∈ read.1 then some att else m'.owner p) = _
  rw [h.same.owner]

/-- Who owns events after a read did so before, or has read them and is in use. -/
theorem Reads.owned {m : Events P} {l : List P} {att : Nat} {read : List P × Events P × EtList P}
    {left : List P} {m' : Events P} (h : Reads m l att read left m')
    (hattached : s.attached att = true) {p : P} {a : Nat} (howner : read.2.1.owner p = some a) :
    m.owner p = some a ∨ s.attached a = true := by
  rw [h.owner] at howner
  split at howner
  · right
    rw [← Option.some.inj howner]
    exact hattached
  · exact Or.inl howner

/-- `et_init_event_` for events of an attachment: they stay where they are. -/
theorem Accounts.init (h : Accounts s content place) {pe : List P}
    (hpe : ∀ p ∈ pe, s.m.owner p ≠ none) : Accounts (s.initEvents pe) content place := by
  refine h.kept ⟨rfl, rfl⟩ rfl rfl rfl rfl ?_
  intro p hp
  have hnot : p ∉ pe := fun hmem => hpe p hmem hp
  exact ⟨if_neg hnot, if_neg hnot⟩

/-- **`et_event_new`** is done or refused, from any sound system. -/
theorem new_sound (h : Sound s) (att num : Nat) (group : Option Int) :
    Accepts ((s.et_events_new att num group).map Prod.snd)
      ∨ Refuses ((s.et_events_new att num group).map Prod.snd) := by
  unfold EtSystem.et_events_new
  by_cases hattached : s.attached att = true
  · rw [if_pos hattached]
    obtain ⟨content, place, haccounts⟩ := h.accounts
    have hlist := haccounts.inOk grandcentral
    -- events are read, of the group or any, or there are none
    have hread : s.readNew att num group = .error .ET_ERROR_EMPTY
        ∨ ∃ read left m', s.readNew att num group = .ok read
          ∧ Reads s.m (content (.list_in grandcentral)) att read left m' := by
      cases group with
      | none => exact nread_reads hlist.holds att num
      | some group =>
          exact nread_group_reads hlist.holds (haccounts.placed.nodup _) att num group
    cases hread with
    | inl hempty =>
        right
        right
        rw [hempty]
        rfl
    | inr hread =>
        left
        obtain ⟨read, left, m', hread, hreads⟩ := hread
        refine ⟨(s.writeIn grandcentral read.2).initEvents read.1, ?_, ?_⟩
        · rw [hread]
          rfl
        · have hget := haccounts.get hreads
          refine sound_of_owner h ⟨_, _, hget.init ?_⟩ rfl rfl ?_
          · intro p hp
            show read.2.1.owner p ≠ none
            rw [hreads.owner, if_pos hp]
            exact nofun
          · exact fun p a howner => hreads.owned hattached howner
  · rw [if_neg hattached]
    exact Or.inr (Or.inl rfl)

/-- **`et_event_get`** is done or refused, from any sound system. -/
theorem get_sound (h : Sound s) (att num : Nat) :
    Accepts ((s.et_events_get att num).map Prod.snd)
      ∨ Refuses ((s.et_events_get att num).map Prod.snd) := by
  unfold EtSystem.et_events_get
  by_cases hattached : s.attached att = true
  · rw [if_pos hattached]
    obtain ⟨k, hk⟩ := h.stat att hattached
    rw [hk]
    dsimp only
    by_cases hgc : k = grandcentral
    · rw [if_pos hgc]
      exact Or.inr (Or.inl rfl)
    · rw [if_neg hgc]
      obtain ⟨content, place, haccounts⟩ := h.accounts
      cases nread_reads (haccounts.inOk k).holds att num with
      | inl hempty =>
          right
          right
          rw [hempty]
          rfl
      | inr hread =>
          left
          obtain ⟨read, left, m', hread, hreads⟩ := hread
          refine ⟨s.writeIn k read.2, ?_, ?_⟩
          · rw [hread]
            rfl
          · refine sound_of_owner h ⟨_, _, haccounts.get hreads⟩ rfl rfl ?_
            exact fun p a howner => hreads.owned hattached howner
  · rw [if_neg hattached]
    exact Or.inr (Or.inl rfl)

/-! ### Attachments give events back. -/

/-- Only lists, and the owners and pointers of events, have changed: attachments
and stations are as before. -/
structure ListsOnly (s s' : EtSystem P) : Prop where
  attached : s'.attached = s.attached
  stat : s'.stat = s.stat
  slots : s'.slots = s.slots
  conductor : s'.conductor = s.conductor
  priority : s'.m.priority = s.m.priority
  age : s'.m.age = s.m.age

omit [DecidableEq P] in
/-- Two steps that change lists only are one such step. -/
theorem ListsOnly.trans {s'' : EtSystem P} (h : ListsOnly s s') (h' : ListsOnly s' s'') :
    ListsOnly s s'' where
  attached := h'.attached.trans h.attached
  stat := h'.stat.trans h.stat
  slots := h'.slots.trans h.slots
  conductor := h'.conductor.trans h.conductor
  priority := h'.priority.trans h.priority
  age := h'.age.trans h.age

/-- An attachment gave some of its events: they are elsewhere now, and it still
has the others. -/
structure Gave (s s' : EtSystem P) (content content' : Place → List P) (att : Nat)
    (pe : List P) : Prop extends ListsOnly s s' where
  accounts : ∃ place, Accounts s' content' place
  rest : content' (.attachment att) = (content (.attachment att)).filter (· ∉ pe)
  others : ∀ a, a ≠ att → content' (.attachment a) = content (.attachment a)

/-- Who owns an event after an attachment gave some owned it before. -/
theorem Gave.owner {content' : Place → List P} {att : Nat} {pe : List P}
    (h : Gave s s' content content' att pe) (haccounts : Accounts s content place) {p : P}
    {a : Nat} (howner : s'.m.owner p = some a) : s.m.owner p = some a := by
  obtain ⟨place', haccounts'⟩ := h.accounts
  have hmem := haccounts'.mem_attachment.mpr howner
  refine haccounts.mem_attachment.mp ?_
  by_cases ha : a = att
  · rw [ha, h.rest] at hmem
    rw [ha]
    exact (List.mem_filter.mp hmem).1
  · rw [h.others a ha] at hmem
    exact hmem

/-- An attachment that gives events keeps the system sound. -/
theorem Gave.sound {content' : Place → List P} {att : Nat} {pe : List P}
    (h : Gave s s' content content' att pe) (hsound : Sound s)
    (haccounts : Accounts s content place) : Sound s' := by
  refine sound_of_owner hsound ?_ h.attached h.stat fun p a howner =>
    Or.inl (h.owner haccounts howner)
  obtain ⟨place', haccounts'⟩ := h.accounts
  exact ⟨content', place', haccounts'⟩

/-- Events moved from an attachment to a list were given by it. -/
theorem gave_of_moved {att : Nat} {y : Place} {pe l' : List P} {place' : P → Place}
    (h : Accounts s' (Placement.moved content (.attachment att) y
      ((content (.attachment att)).filter (· ∉ pe)) l') place')
    (hy : ∀ a, Place.attachment a ≠ y) (hlists : ListsOnly s s') :
    Gave s s' content (Placement.moved content (.attachment att) y
      ((content (.attachment att)).filter (· ∉ pe)) l') att pe where
  toListsOnly := hlists
  accounts := ⟨place', h⟩
  rest := Placement.moved_from content (hy att) _ _
  others := by
    intro a ha
    have hne : Place.attachment a ≠ .attachment att := fun heq => ha (Place.attachment.inj heq)
    exact Placement.moved_of_ne content hne (hy a) _ _

section

variable (h : Accounts s content place) {att : Nat} {pe : List P} (hnodup : pe.Nodup)
  (hpe : ∀ p ∈ pe, p ∈ content (.attachment att))

include h hnodup hpe

/-- **`et_station_nwrite`** to the output list of a station takes the events that
an attachment gives. -/
theorem Accounts.nwrite (k : Nat) :
    ∃ written content', et_station_nwrite s.nevents s.m (s.list_out k) pe = .ok written
      ∧ Gave s (s.writeOut k written) content content' att pe := by
  have hapart : Place.attachment att ≠ .list_out k := nofun
  have hlist := h.outOk k
  have hshort := hlist.lasthigh.trans (List.takeWhile_sublist _).length_le
  obtain ⟨m', pl', hwrite, hholds, hlasthigh, hsame⟩ := et_station_nwrite_holds hlist.holds hshort
    (h.placed.nodup_append hapart hnodup hpe) (h.room hapart hnodup hpe)
  have horder := mergeAt_highFirst hlist.order hlist.lasthigh pe
  have hgone := filter_notMem_perm (h.placed.nodup _) hnodup hpe
  rw [← hlasthigh] at horder
  exact ⟨(m', pl'), _, hwrite, gave_of_moved (h.toOut k hgone (mergeAt_perm _ _ _ _) hholds hsame
    horder.1 horder.2) (fun _ => nofun) ⟨rfl, rfl, rfl, rfl, hsame.priority, hsame.age⟩⟩

/-- **`et_restore`** to the output list of a station takes the events that an
attachment gives back. -/
theorem Accounts.restoreOut (k : Nat) (hne : pe ≠ []) (hfirst : HighFirst s.m.priority pe) :
    ∃ m' pl' content', et_restore s.nevents s.m (s.list_out k) pe = .ok (m', pl', pe.length)
      ∧ Gave s (s.writeOut k (m', pl')) content content' att pe := by
  have hapart : Place.attachment att ≠ .list_out k := nofun
  have hlist := h.outOk k
  obtain ⟨m', pl', hwrite, hholds, hsame, hlasthigh⟩ := et_restore_holds hlist.holds hne
    (h.placed.nodup_append hapart hnodup hpe) (h.room hapart hnodup hpe)
  have horder := mergeHigh_highFirst hfirst hlist.order
  have hgone := filter_notMem_perm (h.placed.nodup _) hnodup hpe
  have hperm := (mergeHigh_perm s.m.priority pe (content (.list_out k))).trans
    List.perm_append_comm
  have hknown : pl'.lasthigh
      ≤ (highs s.m.priority (mergeHigh s.m.priority pe (content (.list_out k)))).length := by
    have hbefore := hlist.lasthigh
    rw [hlasthigh, horder.2, List.length_append]
    omega
  exact ⟨m', pl', _, hwrite, gave_of_moved (h.toOut k hgone hperm hholds hsame horder.1 hknown)
    (fun _ => nofun) ⟨rfl, rfl, rfl, rfl, hsame.priority, hsame.age⟩⟩

/-- **`et_restore`** to the input list of a station takes the events that an
attachment gives back. -/
theorem Accounts.restoreIn (k : Nat) (hne : pe ≠ []) (hfirst : HighFirst s.m.priority pe) :
    ∃ m' pl' content', et_restore s.nevents s.m (s.list_in k) pe = .ok (m', pl', pe.length)
      ∧ Gave s (s.writeIn k (m', pl')) content content' att pe
      ∧ Holds m'.next pl' (mergeHigh s.m.priority pe (content (.list_in k))) := by
  have hapart : Place.attachment att ≠ .list_in k := nofun
  have hlist := h.inOk k
  obtain ⟨m', pl', hwrite, hholds, hsame, -⟩ := et_restore_holds hlist.holds hne
    (h.placed.nodup_append hapart hnodup hpe) (h.room hapart hnodup hpe)
  have hgone := filter_notMem_perm (h.placed.nodup _) hnodup hpe
  have hperm := (mergeHigh_perm s.m.priority pe (content (.list_in k))).trans
    List.perm_append_comm
  have hmoved := h.toIn k hapart hgone hperm hholds hsame
    (fun hk => (mergeHigh_highFirst hfirst (hlist.order hk)).1) (fun _ _ => rfl) trivial
  exact ⟨m', pl', _, hwrite, gave_of_moved hmoved (fun _ => nofun)
    ⟨rfl, rfl, rfl, rfl, hsame.priority, hsame.age⟩, hholds⟩

/-- **`et_station_ndump`** to GrandCentral takes the events that an attachment has
no use for. -/
theorem Accounts.ndump :
    ∃ written content',
      et_station_ndump s.nevents s.m (s.list_in grandcentral) pe = .ok written
      ∧ Gave s (s.writeIn grandcentral written) content content' att pe := by
  have hapart : Place.attachment att ≠ .list_in grandcentral := nofun
  have hlist := h.inOk grandcentral
  obtain ⟨m', pl', hwrite, hholds, hsame⟩ := et_station_ndump_holds hlist.holds
    (h.placed.nodup_append hapart hnodup hpe) (h.room hapart hnodup hpe)
  have hgone := filter_notMem_perm (h.placed.nodup _) hnodup hpe
  have hholds' : Holds (m'.own pe none).next pl' (content (.list_in grandcentral) ++ pe) := hholds
  have hmoved := h.toIn grandcentral hapart hgone (List.Perm.refl _) hholds' (hsame.own pe none)
    (fun hk => absurd rfl hk) (fun _ _ => rfl) trivial
  exact ⟨_, _, hwrite, gave_of_moved hmoved (fun _ => nofun)
    ⟨rfl, rfl, rfl, rfl, hsame.priority, hsame.age⟩⟩

end

omit [DecidableEq P] in
/-- The check of the owners says that the events are with the attachment. -/
theorem owned_mem (h : Accounts s content place) {att : Nat} {pe : List P}
    (howned : pe.all (fun p => s.m.owner p = some att) = true) :
    ∀ p ∈ pe, p ∈ content (.attachment att) := by
  intro p hp
  exact h.mem_attachment.mpr (of_decide_eq_true (List.all_eq_true.mp howned p hp))

/-- `pe->age = ET_EVENT_USED` leaves the events where they are. -/
theorem Accounts.use (h : Accounts s content place) (pe : List P) :
    Accounts (s.useEvents pe) content place :=
  h.kept ⟨rfl, rfl⟩ rfl rfl rfl rfl fun _ _ => ⟨rfl, rfl⟩

/-- **`et_events_put`** takes the events of an attachment, and there is always
room for them. -/
theorem put_sound (h : Sound s) {att k : Nat} (hstat : s.stat att = some k) {pe : List P}
    (hnodup : pe.Nodup) (howned : pe.all (fun p => s.m.owner p = some att) = true) :
    Accepts (s.et_events_put att pe) := by
  obtain ⟨content, place, haccounts⟩ := h.accounts
  obtain ⟨written, content', hwrite, hgave⟩ :=
    (haccounts.use pe).nwrite hnodup (owned_mem haccounts howned) k
  refine ⟨s.writeOut k written, ?_, ?_⟩
  · unfold EtSystem.et_events_put
    rw [hstat]
    dsimp only
    rw [if_pos howned]
    have hwrite' : et_station_nwrite s.nevents (s.useEvents pe).m (s.list_out k) pe
        = .ok written := hwrite
    rw [hwrite']
    rfl
  · have hused : Sound (s.useEvents pe) :=
      sound_of_owner h ⟨content, place, haccounts.use pe⟩ rfl rfl fun _ _ => Or.inl
    exact hgave.sound hused (haccounts.use pe)

/-- **`et_events_dump`** takes the events of an attachment, and GrandCentral has
always room for them. -/
theorem dump_sound (h : Sound s) {att : Nat} {pe : List P} (hnodup : pe.Nodup)
    (howned : pe.all (fun p => s.m.owner p = some att) = true) :
    Accepts (s.et_events_dump att pe) := by
  obtain ⟨content, place, haccounts⟩ := h.accounts
  obtain ⟨written, content', hwrite, hgave⟩ :=
    haccounts.ndump hnodup (owned_mem haccounts howned)
  refine ⟨s.writeIn grandcentral written, ?_, hgave.sound h haccounts⟩
  unfold EtSystem.et_events_dump
  rw [if_pos howned, hwrite]
  rfl

/-! ### Attachments come and go. -/

omit [DecidableEq P] in
/-- To set a station active or idle moves no event. -/
theorem Accounts.active (h : Accounts s content place) (k : Nat) (active : Bool) :
    Accounts (s.setActive k active) content place :=
  h.kept ⟨rfl, rfl⟩ rfl rfl rfl rfl fun _ _ => ⟨rfl, rfl⟩

omit [DecidableEq P] in
/-- **`et_station_attach`** is done or refused, from any sound system. -/
theorem attach_sound (h : Sound s) (att k : Nat) :
    Accepts (s.et_station_attach att k) ∨ Refuses (s.et_station_attach att k) := by
  unfold EtSystem.et_station_attach
  split
  · exact Or.inr (Or.inl rfl)
  · left
    obtain ⟨content, place, haccounts⟩ := h.accounts
    refine ⟨_, rfl, ?_, ?_, ?_⟩
    · exact ⟨content, place, haccounts.kept ⟨rfl, rfl⟩ rfl rfl rfl rfl fun _ _ => ⟨rfl, rfl⟩⟩
    · intro a ha
      by_cases heq : a = att
      · refine ⟨k, ?_⟩
        show Function.update s.stat att (some k) a = some k
        rw [heq, Function.update_self]
      · have ha' : Function.update s.attached att true a = true := ha
        rw [Function.update_of_ne heq] at ha'
        obtain ⟨k', hk'⟩ := h.stat a ha'
        refine ⟨k', ?_⟩
        show Function.update s.stat att (some k) a = some k'
        rw [Function.update_of_ne heq]
        exact hk'
    · intro p a howner
      show Function.update s.attached att true a = true
      by_cases heq : a = att
      · rw [heq, Function.update_self]
      · rw [Function.update_of_ne heq]
        exact h.owner p a howner

/-- To give nothing leaves the system as it is. -/
theorem Gave.none (h : Accounts s content place) (att : Nat) : Gave s s content content att [] where
  toListsOnly := ⟨rfl, rfl, rfl, rfl, rfl, rfl⟩
  accounts := ⟨place, h⟩
  rest := by simp
  others := fun _ _ => rfl

/-- Events given one after the other were given together. -/
theorem Gave.trans {s'' : EtSystem P} {content' content'' : Place → List P} {att : Nat}
    {pe pe' : List P} (h : Gave s s' content content' att pe)
    (h' : Gave s' s'' content' content'' att pe') :
    Gave s s'' content content'' att (pe ++ pe') where
  toListsOnly := h.toListsOnly.trans h'.toListsOnly
  accounts := h'.accounts
  rest := by
    rw [h'.rest, h.rest, List.filter_filter]
    refine List.filter_congr ?_
    intro p _
    simp only [List.mem_append, not_or, Bool.decide_and]
    exact Bool.and_comm _ _
  others := fun a ha => (h'.others a ha).trans (h.others a ha)

/-- What an attachment has read, it gives at once. -/
theorem Gave.flushed {s₁ : EtSystem P} (h : Accounts s content place) {att k : Nat}
    {pl' : EtList P}
    (hread : s₁ = s.writeIn k (s.m.own (content (.list_in k)) (some att), pl'))
    {content' : Place → List P}
    (hgave : Gave s₁ s' (Placement.moved content (.list_in k) (.attachment att) []
      (content (.attachment att) ++ content (.list_in k))) content' att (content (.list_in k))) :
    Gave s s' content content' att [] where
  toListsOnly := by
    have hbefore : ListsOnly s s₁ := by
      rw [hread]
      exact ⟨rfl, rfl, rfl, rfl, rfl, rfl⟩
    exact hbefore.trans hgave.toListsOnly
  accounts := hgave.accounts
  rest := by
    have hapart : Place.attachment att ≠ .list_in k := nofun
    rw [hgave.rest, Placement.moved_to, List.filter_append]
    have hnone : (content (.list_in k)).filter (· ∉ content (.list_in k)) = [] := by simp
    rw [hnone, List.append_nil]
    refine List.filter_congr ?_
    intro p hp
    have hnot : p ∉ content (.list_in k) := h.placed.disjoint hapart hp
    simp [hnot]
  others := by
    intro a ha
    have hne : Place.attachment a ≠ .attachment att := fun heq => ha (Place.attachment.inj heq)
    have hapart : Place.attachment a ≠ .list_in k := nofun
    rw [hgave.others a ha]
    exact Placement.moved_of_ne content hapart hne _ _

/-- **`et_flush_events`** empties the input list of a station. -/
theorem Accounts.flush (h : Accounts s content place) (att : Nat) {k : Nat}
    (hk : k ≠ grandcentral) :
    ∃ s' content', s.et_flush_events att k = .ok s' ∧ Gave s s' content content' att []
      ∧ (s'.list_in k).cnt = 0 ∧ s'.restore_mode = s.restore_mode
      ∧ s'.nattachments = s.nattachments := by
  have hlist := h.inOk k
  by_cases hne : content (.list_in k) = []
  · -- there are none
    have hcnt : (s.list_in k).cnt = 0 := hlist.holds.cnt_eq_zero.mpr hne
    refine ⟨s, content, ?_, Gave.none h att, hcnt, rfl, rfl⟩
    have hpos : ¬ s.nevents < 1 := Nat.not_lt.mpr h.pos
    unfold EtSystem.et_flush_events et_station_nread
    rw [if_neg hk, if_neg hpos, hcnt, if_pos Nat.one_pos]
  · obtain ⟨pl', hread, hholds, -⟩ := et_station_nread_holds hlist.holds att h.pos hne
    have hapart : Place.list_in k ≠ .attachment att := nofun
    have hshort : (content (.list_in k)).length ≤ s.nevents := by
      have hroom := h.room hapart (h.placed.nodup _) fun p hp => hp
      omega
    -- it asks for `nevents`, so it gets all of them
    rw [List.take_of_length_le hshort] at hread
    rw [List.drop_of_length_le hshort] at hholds
    have hreads : Reads s.m (content (.list_in k)) att
        (content (.list_in k), s.m.own (content (.list_in k)) (some att), pl') [] s.m := by
      refine ⟨?_, List.nil_sublist _, hholds, OnlyNext.refl _ _, rfl⟩
      rw [List.append_nil]
    have hget := h.get hreads
    have hcnt : ((s.writeIn k (s.m.own (content (.list_in k)) (some att), pl')).list_in k).cnt
        = 0 := by
      show (Function.update s.list_in k pl' k).cnt = 0
      rw [Function.update_self]
      exact hholds.cnt_eq_zero.mpr rfl
    have hpe : ∀ p ∈ content (.list_in k), p ∈ Placement.moved content (.list_in k)
        (.attachment att) [] (content (.attachment att) ++ content (.list_in k))
        (.attachment att) := by
      intro p hp
      rw [Placement.moved_to]
      exact List.mem_append_right _ hp
    unfold EtSystem.et_flush_events
    rw [if_neg hk, hread]
    dsimp only
    by_cases hredist : (s.writeIn k (s.m.own (content (.list_in k)) (some att), pl')).restore_mode k
        = .restoreRedist
    · rw [if_pos hredist]
      have hfirst : HighFirst s.m.priority (content (.list_in k)) := hlist.order hk
      obtain ⟨m'', pl'', content', hwrite, hgave⟩ := hget.restoreOut (h.placed.nodup _) hpe
        (prevStation s.slots k) hne hfirst
      refine ⟨_, content', congrArg (Except.map _) hwrite, Gave.flushed h rfl hgave, hcnt, rfl, rfl⟩
    · rw [if_neg hredist]
      obtain ⟨written, content', hwrite, hgave⟩ := hget.nwrite (h.placed.nodup _) hpe k
      exact ⟨_, content', congrArg (Except.map _) hwrite, Gave.flushed h rfl hgave, hcnt, rfl, rfl⟩

/-! ### What a detach restores. -/

omit [DecidableEq P] in
/-- The new events of an attachment are those that it has and has not used. -/
theorem mem_newEvents (h : Accounts s content place) {att : Nat} {p : P} :
    p ∈ s.newEvents att ↔ p ∈ content (.attachment att) ∧ s.m.age p = .new := by
  unfold EtSystem.newEvents
  rw [List.mem_filter, decide_eq_true_iff, h.mem_attachment]
  exact and_iff_right (h.complete p)

omit [DecidableEq P] in
/-- The events that are put in order are those that the attachment has and
has used. -/
theorem mem_ordered (h : Accounts s content place) {att : Nat} {p : P} :
    p ∈ s.ordered att ↔ p ∈ content (.attachment att) ∧ s.m.age p = .used := by
  have hused : p ∈ s.events.filter (fun p => s.m.owner p = some att ∧ s.m.age p = .used)
      ↔ p ∈ content (.attachment att) ∧ s.m.age p = .used := by
    rw [List.mem_filter, decide_eq_true_iff, h.mem_attachment]
    exact and_iff_right (h.complete p)
  unfold EtSystem.ordered
  dsimp only
  generalize s.events.filter (fun p => s.m.owner p = some att ∧ s.m.age p = .used) = pevent
    at hused ⊢
  rw [← hused, List.mem_append, List.mem_filter, List.mem_filter, ← and_or_left]
  refine and_iff_left ?_
  rw [decide_eq_true_iff, decide_eq_true_iff]
  exact em _

omit [DecidableEq P] in
/-- No event is put in order twice. -/
theorem nodup_ordered (h : Accounts s content place) (att : Nat) : (s.ordered att).Nodup := by
  have hnodup := h.nodup.filter fun p => decide (s.m.owner p = some att ∧ s.m.age p = .used)
  unfold EtSystem.ordered
  rw [List.nodup_append]
  refine ⟨hnodup.filter _, hnodup.filter _, ?_⟩
  intro p hp p' hp' heq
  subst heq
  exact of_decide_eq_true (List.mem_filter.mp hp').2 (of_decide_eq_true (List.mem_filter.mp hp).2)

omit [DecidableEq P] in
/-- High priority events come first when the events of an attachment are
put in order. -/
theorem ordered_highFirst (s : EtSystem P) (att : Nat) :
    HighFirst s.m.priority (s.ordered att) := by
  refine (highFirst_append ?_ ?_).1
  · intro p hp
    exact of_decide_eq_true (List.mem_filter.mp hp).2
  · intro p hp
    exact of_decide_eq_true (List.mem_filter.mp hp).2

/-- The events that are not new find a list, whichever the restore mode says. -/
theorem Accounts.restoreUsed (h : Accounts s content place) {att : Nat} (k : Nat) {pe : List P}
    (hnodup : pe.Nodup) (hpe : ∀ p ∈ pe, p ∈ content (.attachment att)) (hne : pe ≠ [])
    (hfirst : HighFirst s.m.priority pe) :
    ∃ s' content', s.restoreUsed k pe = .ok s' ∧ Gave s s' content content' att pe := by
  unfold EtSystem.restoreUsed
  split
  · -- to GrandCentral
    obtain ⟨written, content', hwrite, hgave⟩ := h.ndump hnodup hpe
    exact ⟨_, content', congrArg (Except.map _) hwrite, hgave⟩
  · split
    · -- to the output list
      obtain ⟨written, content', hwrite, hgave⟩ := h.nwrite hnodup hpe k
      exact ⟨_, content', congrArg (Except.map _) hwrite, hgave⟩
    · split
      · -- back to the input list, which has room for all: none is left for the output list
        obtain ⟨m', pl', content', hwrite, hgave, -⟩ := h.restoreIn hnodup hpe k hne hfirst
        refine ⟨_, content', ?_, hgave⟩
        rw [hwrite]
        dsimp only
        rw [if_neg (Nat.lt_irrefl _)]
      · -- to the output list of the place before
        obtain ⟨m', pl', content', hwrite, hgave⟩ :=
          h.restoreOut hnodup hpe (prevStation s.slots k) hne hfirst
        exact ⟨_, content', congrArg (Except.map _) hwrite, hgave⟩

/-- The new events of an attachment go to GrandCentral. -/
theorem Accounts.restoreNew (h : Accounts s content place) (att : Nat) :
    ∃ s' content',
      (if s.newEvents att = [] then Except.ok s
        else (et_station_ndump s.nevents s.m (s.list_in grandcentral) (s.newEvents att)).map
          (s.writeIn grandcentral)) = .ok s'
        ∧ Gave s s' content content' att (s.newEvents att)
        ∧ (∀ j, j ≠ grandcentral → s'.list_in j = s.list_in j)
        ∧ s'.restore_mode = s.restore_mode ∧ s'.nattachments = s.nattachments := by
  by_cases hnone : s.newEvents att = []
  · refine ⟨s, content, if_pos hnone, ?_, fun _ _ => rfl, rfl, rfl⟩
    rw [hnone]
    exact Gave.none h att
  · obtain ⟨written, content', hwrite, hgave⟩ := h.ndump (h.nodup.filter _)
      fun p hp => ((mem_newEvents h).mp hp).1
    refine ⟨s.writeIn grandcentral written, content', ?_, hgave, ?_, rfl, rfl⟩
    · rw [if_neg hnone]
      exact congrArg (Except.map _) hwrite
    · exact fun j hj => Function.update_of_ne hj _ _

/-- When the new events are gone the others are still there, high priority first. -/
theorem Gave.ordered {content' : Place → List P} {att : Nat}
    (hgave : Gave s s' content content' att (s.newEvents att)) (h : Accounts s content place) :
    (∀ p ∈ s.ordered att, p ∈ content' (.attachment att))
      ∧ HighFirst s'.m.priority (s.ordered att) := by
  constructor
  · intro p hp
    obtain ⟨hmem, hused⟩ := (mem_ordered h).mp hp
    rw [hgave.rest, List.mem_filter]
    refine ⟨hmem, decide_eq_true ?_⟩
    intro hnew
    rw [((mem_newEvents h).mp hnew).2] at hused
    cases hused
  · rw [hgave.priority]
    exact ordered_highFirst s att

/-- **`et_restore_events`**: the attachment has no events any more. -/
theorem Accounts.restoreEvents (h : Accounts s content place) (att k : Nat) :
    ∃ s' content', s.et_restore_events att k = .ok s'
      ∧ Gave s s' content content' att (s.newEvents att ++ s.ordered att)
      ∧ content' (.attachment att) = [] := by
  have hall : ∀ {s' : EtSystem P} {content' : Place → List P},
      Gave s s' content content' att (s.newEvents att ++ s.ordered att) →
        content' (.attachment att) = [] := by
    intro s' content' hgave
    rw [hgave.rest, List.filter_eq_nil_iff]
    intro p hp hnot
    have hboth := of_decide_eq_true hnot
    rw [List.mem_append, not_or] at hboth
    -- either kind is given away, and there is no third
    cases hage : s.m.age p with
    | new => exact hboth.1 ((mem_newEvents h).mpr ⟨hp, hage⟩)
    | used => exact hboth.2 ((mem_ordered h).mpr ⟨hp, hage⟩)
  obtain ⟨s₁, content₁, hdumped, hgave₁, -⟩ := h.restoreNew att
  unfold EtSystem.et_restore_events
  dsimp only
  rw [hdumped]
  by_cases hnone : s.ordered att = []
  · have hgave : Gave s s₁ content content₁ att (s.newEvents att ++ s.ordered att) := by
      rw [hnone, List.append_nil]
      exact hgave₁
    exact ⟨s₁, content₁, if_pos hnone, hgave, hall hgave⟩
  · obtain ⟨place₁, haccounts₁⟩ := hgave₁.accounts
    obtain ⟨hpe, hfirst⟩ := hgave₁.ordered h
    obtain ⟨s₂, content₂, hrestored, hgave₂⟩ :=
      haccounts₁.restoreUsed k (nodup_ordered h att) hpe hnone hfirst
    have hgave := hgave₁.trans hgave₂
    refine ⟨s₂, content₂, ?_, hgave, hall hgave⟩
    show (if s.ordered att = [] then Except.ok s₁ else s₁.restoreUsed k (s.ordered att)) = _
    rw [if_neg hnone]
    exact hrestored

/-- **`et_station_detach`**: the events of the attachment stay in the system. -/
theorem detach_sound (h : Sound s) {att k : Nat} (hstat : s.stat att = some k) :
    ∃ s', s.et_station_detach att = .ok s' ∧ Sound s' ∧ s'.attached att = false
      ∧ s'.conductor = s.conductor ∧ s'.slots.length = s.slots.length := by
  obtain ⟨content, place, haccounts⟩ := h.accounts
  have hflush : ∃ s₁ content₁,
      (if s.nattachments k = 1 ∧ k ≠ grandcentral then (s.setActive k false).et_flush_events att k
        else Except.ok s) = .ok s₁
        ∧ ∃ active, Gave { s with slots := active } s₁ content content₁ att []
          ∧ active.length = s.slots.length := by
    split
    · -- the last attachment leaves an empty input list
      next hlast =>
        obtain ⟨s₁, content₁, hflushed, hgave, -⟩ :=
          (haccounts.active k false).flush att hlast.2
        exact ⟨s₁, content₁, hflushed, _, hgave, List.length_map _⟩
    · exact ⟨s, content, rfl, s.slots, Gave.none haccounts att, rfl⟩
  obtain ⟨s₁, content₁, hflushed, active, hgave₁, hactive⟩ := hflush
  obtain ⟨place₁, haccounts₁⟩ := hgave₁.accounts
  obtain ⟨s₂, content₂, hrestored, hgave₂, hnone⟩ := haccounts₁.restoreEvents att k
  obtain ⟨place₂, haccounts₂⟩ := hgave₂.accounts
  have hgave := hgave₁.trans hgave₂
  -- who owns an event now did so before, and is somebody else
  have howner : ∀ p a, s₂.m.owner p = some a → a ≠ att ∧ s.m.owner p = some a := by
    intro p a hp
    have hsame : Accounts { s with slots := active } content place :=
      haccounts.kept ⟨rfl, rfl⟩ rfl rfl rfl rfl fun _ _ => ⟨rfl, rfl⟩
    refine ⟨?_, hgave.owner hsame hp⟩
    intro heq
    have hmem := haccounts₂.mem_attachment.mpr hp
    rw [heq, hnone] at hmem
    cases hmem
  refine ⟨{ s₂ with
    attached := Function.update s₂.attached att false
    nattachments := Function.update s₂.nattachments k (s₂.nattachments k - 1) },
    ?_, ⟨?_, ?_, ?_⟩, ?_, hgave.conductor, (congrArg List.length hgave.slots).trans hactive⟩
  · unfold EtSystem.et_station_detach
    rw [hstat]
    dsimp only
    rw [hflushed]
    exact congrArg (Except.map _) hrestored
  · exact ⟨content₂, place₂,
      haccounts₂.kept ⟨rfl, rfl⟩ rfl rfl rfl rfl fun _ _ => ⟨rfl, rfl⟩⟩
  · intro a ha
    have ha' : Function.update s₂.attached att false a = true := ha
    show ∃ k', s₂.stat a = some k'
    rw [hgave.stat]
    by_cases heq : a = att
    · rw [heq, Function.update_self] at ha'
      cases ha'
    · rw [Function.update_of_ne heq, hgave.attached] at ha'
      exact h.stat a ha'
  · intro p a hp
    obtain ⟨hne, hbefore⟩ := howner p a hp
    show Function.update s₂.attached att false a = true
    rw [Function.update_of_ne hne, hgave.attached]
    exact h.owner p a hbefore
  · exact Function.update_self att false s₂.attached

/-! ## §3. Conductors. -/

/-- Events that have their owner already do not change when they are given it. -/
theorem own_of_owned {m : Events P} {pe : List P} {owner : Option Nat}
    (h : ∀ p ∈ pe, m.owner p = owner) : m.own pe owner = m := by
  have howner : (fun p => if p ∈ pe then owner else m.owner p) = m.owner := by
    funext p
    split
    · next hp => exact (h p hp).symm
    · rfl
  unfold Events.own
  rw [howner]

omit [DecidableEq P] in
/-- No attachment owns the events of a list or of a conductor. -/
theorem Accounts.free (h : Accounts s content place) {q : Place} (hq : q.owner = none) {p : P}
    (hp : p ∈ content q) : s.m.owner p = none := by
  rw [h.owner p, (h.placed.mem q p).mp hp, hq]

omit [DecidableEq P] in
/-- When only what a conductor does has changed, and the stations, all events are
where they were. -/
theorem Accounts.conducted (h : Accounts s content place) {k : Nat}
    {conductor : Nat → Option (AtWork P)} {slots : List (Slot P)}
    (hwork : Working s.m.priority (content (.conductor k)) (conductor k))
    (hothers : ∀ j, j ≠ k → conductor j = s.conductor j) :
    Accounts { s with conductor := conductor, slots := slots } content place where
  placed := h.placed
  complete := h.complete
  nodup := h.nodup
  nevents := h.nevents
  pos := h.pos
  owner := h.owner
  ok := by
    intro q
    cases q with
    | list_in j =>
        exact (h.ok (.list_in j)).congr rfl (fun _ _ => rfl) fun _ _ => rfl
    | list_out j =>
        exact (h.ok (.list_out j)).congr rfl (fun _ _ => rfl) fun _ _ => rfl
    | attachment att => exact trivial
    | conductor j =>
        by_cases heq : j = k
        · rw [heq]
          exact hwork
        · exact (h.ok (.conductor j)).congr (hothers j heq) (fun _ _ => rfl) fun _ _ => rfl

omit [DecidableEq P] in
/-- A conductor carries the events that the invariant has with it. -/
theorem Accounts.working (h : Accounts s content place) (k : Nat) :
    Working s.m.priority (content (.conductor k)) (s.conductor k) := h.ok (.conductor k)

omit [DecidableEq P] in
/-- When a conductor starts with a batch all of it is left. -/
theorem start_rest {l : List P} (hne : l ≠ []) : (Conducting.start l).rest = l := by
  have hleft : (Conducting.start l).events_left ≠ 0 :=
    Nat.ne_of_gt (List.length_pos_of_ne_nil hne)
  unfold Conducting.rest
  rw [if_neg hleft]
  exact (start_unput l).2

/-- **The conductor takes a batch**: the whole output list of its station, which
is empty then. -/
theorem takeBatch_sound (h : Sound s) (k : Nat) : Accepts (s.takeBatch k) := by
  obtain ⟨content, place, haccounts⟩ := h.accounts
  have hlist := haccounts.outOk k
  have hwork := haccounts.working k
  unfold EtSystem.takeBatch
  cases hconductor : s.conductor k with
  | some c => exact ⟨s, rfl, h⟩
  | none =>
      dsimp only
      by_cases hcnt : (s.list_out k).cnt < 1
      · rw [if_pos hcnt]
        exact ⟨s, rfl, h⟩
      · rw [if_neg hcnt]
        -- there is an event, and so the whole list is read
        have hne : content (.list_out k) ≠ [] := by
          intro hnil
          have hzero := hlist.holds.cnt_eq_zero.mpr hnil
          omega
        obtain ⟨pl', hread, hholds, hlasthigh⟩ := et_llist_read_holds hlist.holds hne
        refine ⟨_, congrArg (Except.map _) hread, ?_⟩
        -- the conductor had nothing, and now has the events of the list
        have hempty : content (.conductor k) = [] := by
          rw [hconductor] at hwork
          exact hwork
        have hapart : Place.list_out k ≠ .conductor k := nofun
        have hx : (content (.list_out k) ++ []).Perm (content (.list_out k)) := by
          rw [List.append_nil]
        have hy : (content (.list_out k)).Perm
            (content (.conductor k) ++ content (.list_out k)) := by
          rw [hempty, List.nil_append]
        refine sound_of_owner h ⟨_, _, haccounts.move hapart hx hy ⟨rfl, rfl⟩ ?_ ?_ ?_ ?_ ?_⟩
          rfl rfl fun _ _ => Or.inl
        · refine OutOk.mk ?_ List.Pairwise.nil ?_
          · show Holds s.m.next (Function.update s.list_out k pl' k) []
            rw [Function.update_self]
            exact hholds
          · show (Function.update s.list_out k pl' k).lasthigh ≤ 0
            rw [Function.update_self, hlasthigh]
        · show Working s.m.priority (content (.list_out k)) (Function.update s.conductor k _ k)
          rw [Function.update_self]
          refine ⟨content (.list_out k), s.m.priority, ?_, fun _ _ => rfl⟩
          -- a fresh conductor carries its events with nothing decided
          constructor
          · exact hne
          · exact hlist.order
          · exact Or.inr (start_going _)
          · exact fun _ => start_fresh _
          · exact fun _ hw => absurd hw List.not_mem_nil
          · show (Conducting.start (content (.list_out k))).rest.Perm _
            rw [start_rest hne]
        · intro q hqx hqy
          cases q with
          | list_in j => exact rfl
          | list_out j =>
              have hne : j ≠ k := fun heq => hqx (congrArg Place.list_out heq)
              exact Function.update_of_ne hne pl' s.list_out
          | attachment att => exact trivial
          | conductor j =>
              have hne : j ≠ k := fun heq => hqy (congrArg Place.conductor heq)
              exact Function.update_of_ne hne _ s.conductor
        · exact fun _ _ _ => ⟨rfl, rfl⟩
        · intro p
          split
          · next hp => exact haccounts.free rfl hp
          · rfl

/-- The batch comes to the next place of the chain without a gap. -/
def VisitsGapless (s : EtSystem P) (k : Nat) (cnt : Nat → Nat) (func : Nat → P → Bool) : Prop :=
  ∀ d place slot, s.conductor k = some ⟨d, place, []⟩ → s.slots[place]? = some slot →
    (EtSystem.seen cnt func slot).Gapless d

omit [DecidableEq P] in
/-- A conductor that carries events with some left is on its way down the chain. -/
theorem Carries.going {all : List P} {priority : P → Priority} {d : Conducting P} {pos : Nat}
    {pending : List (Nat × List P)} {hand : List P}
    (h : Carries all priority ⟨d, pos, pending⟩ hand) (hleft : d.events_left ≠ 0) :
    Going all d := by
  cases h.outcome with
  | inl hsent => exact absurd hsent.left hleft
  | inr hgoing => exact hgoing

omit [DecidableEq P] in
/-- At a place of the chain to which the batch comes without a gap the conductor
still carries what it had. -/
theorem Carries.visit {all : List P} {priority : P → Priority} {d : Conducting P} {pos : Nat}
    {hand : List P} (h : Carries all priority ⟨d, pos, []⟩ hand) (hleft : d.events_left ≠ 0)
    {slot : Slot P} (hgap : slot.Gapless d) :
    Carries all priority ⟨{ (slot.visit d).2 with firstimethruloop := false }, pos + 1,
      (slot.visit d).2.writes.drop d.writes.length⟩ hand := by
  have hgoing := h.going hleft
  have hne : d.allevents ≠ [] := by
    intro hnil
    have hevents := hgoing.events
    rw [Conducting.events, hnil] at hevents
    exact h.ne hevents.symm
  have honward := visit_onward slot hne
  have houtcome := visit_outcome slot hgoing (h.fresh hleft) hgap
  exact h.decide ⟨honward.writes, honward.length⟩ houtcome.onward fun _ => fresh_onward _

omit [DecidableEq P] in
/-- At the end of the chain it still carries what it had, and nothing is left. -/
theorem Carries.toGrandCentral {all : List P} {priority : P → Priority} {d : Conducting P}
    {pos : Nat} {hand : List P} (h : Carries all priority ⟨d, pos, []⟩ hand)
    (hleft : d.events_left ≠ 0) :
    Carries all priority
      ⟨d.toGrandCentral, pos, d.toGrandCentral.writes.drop d.writes.length⟩ hand := by
  have hsent := toGrandCentral_sent (h.going hleft) (h.fresh hleft)
  exact h.decide (toGrandCentral_onward d) (Or.inl hsent) fun hmore => absurd hsent.left hmore

omit [DecidableEq P] in
/-- **The conductor decides** what to write; no event is moved by that. -/
theorem visit_sound (h : Sound s) (k : Nat) (cnt : Nat → Nat) (func : Nat → P → Bool)
    (hgap : VisitsGapless s k cnt func) : Sound (s.visit k cnt func) := by
  obtain ⟨content, place, haccounts⟩ := h.accounts
  have hwork := haccounts.working k
  unfold EtSystem.visit
  cases hconductor : s.conductor k with
  | none => exact h
  | some c =>
      obtain ⟨d, pos, pending⟩ := c
      cases pending with
      | cons w pending => exact h
      | nil =>
          rw [hconductor] at hwork
          obtain ⟨all, priority, hcarries, hnow⟩ := hwork
          -- nothing but the conductor's work and the chain changes
          have hgo : ∀ (conductor : Option (AtWork P)) (slots : List (Slot P)),
              Working s.m.priority (content (.conductor k)) conductor →
                Sound { s.setConductor k conductor with slots := slots } := by
            intro conductor slots hnext
            refine sound_of_owner h ⟨content, place, haccounts.conducted (k := k) ?_ ?_⟩ rfl rfl
              fun _ _ => Or.inl
            · show Working _ _ (Function.update s.conductor k conductor k)
              rw [Function.update_self]
              exact hnext
            · intro j hj
              exact Function.update_of_ne hj _ _
          dsimp only
          -- with nothing left it waits again, and has no events any more
          by_cases hleft : d.events_left = 0
          · rw [if_pos hleft]
            refine hgo none s.slots ?_
            have hperm := hcarries.perm
            unfold Conducting.rest at hperm
            dsimp only at hperm
            rw [if_pos hleft] at hperm
            exact hperm.symm.eq_nil
          · rw [if_neg hleft]
            cases hslot : s.slots[pos]? with
            | some slot =>
                exact hgo _ _ ⟨all, priority,
                  hcarries.visit hleft (hgap d pos slot hconductor hslot), hnow⟩
            | none => exact hgo _ s.slots ⟨all, priority, hcarries.toGrandCentral hleft, hnow⟩

/-- **The conductor writes** what it has decided to, and there is always
room for it. -/
theorem deliver_sound (h : Sound s) (k : Nat) : Accepts (s.deliver k) := by
  obtain ⟨content, place, haccounts⟩ := h.accounts
  have hwork := haccounts.working k
  unfold EtSystem.deliver
  cases hconductor : s.conductor k with
  | none => exact ⟨s, rfl, h⟩
  | some c =>
      obtain ⟨d, pos, pending⟩ := c
      cases pending with
      | nil => exact ⟨s, rfl, h⟩
      | cons w pending =>
          obtain ⟨num, pe⟩ := w
          rw [hconductor] at hwork
          obtain ⟨all, priority, hcarries, hnow⟩ := hwork
          obtain ⟨hne, hsublist⟩ := hcarries.parts (num, pe) List.mem_cons_self
          have hperm : (pe ++ (pending.flatMap Prod.snd ++ d.rest)).Perm
              (content (.conductor k)) := by
            rw [← List.append_assoc]
            exact hcarries.perm
          have hpe : ∀ p ∈ pe, p ∈ content (.conductor k) := fun p hp =>
            hperm.mem_iff.mp (List.mem_append_left _ hp)
          have hnodup : pe.Nodup :=
            (List.nodup_append.mp (hperm.nodup_iff.mpr (haccounts.placed.nodup _))).1
          have hfirst : HighFirst s.m.priority pe :=
            (hcarries.order.sublist hsublist).congr fun p hp => (hnow p (hpe p hp)).symm
          have hfree : s.m.own pe none = s.m :=
            own_of_owned fun p hp => haccounts.free rfl (hpe p hp)
          have hapart : Place.conductor k ≠ .list_in num := nofun
          have hlist := haccounts.inOk num
          have hroom := haccounts.room hapart hnodup hpe
          have happend := haccounts.placed.nodup_append hapart hnodup hpe
          -- what was written is in the list, and the conductor has the rest
          have hgo : ∀ {m' : Events P} {pl' : EtList P} {l' : List P}, Holds m'.next pl' l' →
              l'.Perm (content (.list_in num) ++ pe) →
              OnlyNext (content (.list_in num) ++ pe) s.m m' →
              (num ≠ grandcentral → HighFirst s.m.priority l') →
              Sound ((s.writeIn num (m', pl')).setConductor k (some ⟨d, pos, pending⟩)) := by
            intro m' pl' l' hholds hl' hsame horder
            rw [← hfree] at hsame
            refine sound_of_owner h ⟨_, _, haccounts.toIn num hapart hperm hl' hholds hsame horder
              ?_ ?_⟩ rfl rfl ?_
            · intro j hj
              have hne : j ≠ k := fun heq => hj (congrArg Place.conductor heq)
              exact Function.update_of_ne hne _ _
            · show Working m'.priority _ (Function.update s.conductor k _ k)
              rw [Function.update_self, hsame.priority]
              refine ⟨all, priority, ?_, ?_⟩
              · exact { hcarries with
                  parts := fun w hw => hcarries.parts w (List.mem_cons_of_mem _ hw)
                  perm := List.Perm.refl _ }
              · intro p hp
                exact hnow p (hperm.mem_iff.mp (List.mem_append_right pe hp))
            · intro p a howner
              have howner' : m'.owner p = some a := howner
              rw [hsame.owner, hfree] at howner'
              exact Or.inl howner'
          dsimp only
          by_cases hgc : num = grandcentral
          · rw [if_pos hgc]
            subst hgc
            obtain ⟨m', pl', hwrite, hholds, hsame⟩ :=
              et_llist_write_gc_holds hlist.holds hne happend hroom
            exact ⟨_, congrArg (Except.map _) hwrite,
              hgo hholds (List.Perm.refl _) hsame fun hk => absurd rfl hk⟩
          · rw [if_neg hgc]
            obtain ⟨m', pl', hwrite, hholds, hsame⟩ :=
              et_llist_write_holds hlist.holds hne happend hroom
            refine ⟨(s.writeIn num (m', pl')).setConductor k (some ⟨d, pos, pending⟩), ?_,
              hgo hholds (mergeHigh_perm _ _ _) hsame
                fun hk => (mergeHigh_highFirst (hlist.order hk) hfirst).1⟩
            rw [hwrite]
            show (if pe.length < pe.length then _ else _) = _
            rw [if_neg (Nat.lt_irrefl _)]

end PokerReco.ET
