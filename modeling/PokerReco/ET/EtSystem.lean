/-
  PokerReco.ET.EtSystem
  ─────────────────────
  **AN ET SYSTEM** (`et_event.c`, `et_station.c`, `et_readwrite.c` and
  `et_system.c`).

  Attachments get events from the input list of their station (new ones from
  the one of GrandCentral) and put them into its output list, from which the
  conductor of the station takes them further down the chain.  A step of the
  system holds one lock: a conductor takes a step for what it decides at a
  place of the chain, and one for each list that it writes to.  The numbers of
  events and the answers of the select functions that it sees on its way are
  free.

      et_events_new, et_events_get, et_events_put, et_events_dump
      et_station_attach, et_station_detach
      takeBatch, visit, deliver       `et_conductor`
      step, exec                      any order of these
-/
import PokerReco.ET.ConductOnce
import PokerReco.ET.EventList

namespace PokerReco.ET

open PokerReco.Library

/-! ## §1. The system. -/

/-- `restore_mode` of a station: where the events of an attachment go when
it detaches. -/
inductive RestoreMode where
  | restoreOut
  | restoreIn
  | restoreGC
  | restoreRedist
  deriving DecidableEq, Repr

/-- A conductor at work: its events, the place of the chain it comes to next,
and what it has decided to write. -/
structure AtWork (P : Type) where
  d : Conducting P
  place : Nat
  pending : List (Nat × List P)

/-- The system.  The stations have numbers, as have the attachments: `attached`
says which of them are in use (`status`), and `stat` is the station of one,
which a detach does not take back. -/
structure EtSystem (P : Type) where
  nevents : Nat
  events : List P
  m : Events P
  slots : List (Slot P)
  list_in : Nat → EtList P
  list_out : Nat → EtList P
  restore_mode : Nat → RestoreMode
  nattachments : Nat → Int
  attached : Nat → Bool
  stat : Nat → Option Nat
  conductor : Nat → Option (AtWork P)

/-- The stations at a place of the chain: one, or all those of a group of
parallel stations. -/
def Slot.stations {P : Type} : Slot P → List (EtStation P)
  | .serial ps => [ps]
  | .parallel ps others => ps :: others

/-- What is done to each of the stations at a place of the chain. -/
def Slot.mapStations {P : Type} (f : EtStation P → EtStation P) : Slot P → Slot P
  | .serial ps => .serial (f ps)
  | .parallel ps others => .parallel (f ps) (others.map f)

/-- The place of a station in the chain, which the stations of a group have
in common. -/
def placeOf {P : Type} (slots : List (Slot P)) (num : Nat) : Nat :=
  slots.findIdx fun slot => slot.stations.any fun ps => ps.num = num

/-- Where the conductor of a station starts to look for stations: behind the place
of its own. -/
def nextPlace {P : Type} (slots : List (Slot P)) (num : Nat) : Nat :=
  if num = grandcentral then 0 else placeOf slots num + 1

/-- The station before a station in the chain, or before the first one of
its group. -/
def prevStation {P : Type} (slots : List (Slot P)) (num : Nat) : Nat :=
  match placeOf slots num with
  | 0 => grandcentral
  | place + 1 =>
      match slots[place]? with
      | some (.serial ps) => ps.num
      | some (.parallel ps _) => ps.num
      | none => grandcentral

variable {P : Type} [DecidableEq P]

namespace EtSystem

/-- An input list and the events are what an operation on the list has written. -/
def writeIn (s : EtSystem P) (k : Nat) (written : Events P × EtList P) : EtSystem P :=
  { s with m := written.1, list_in := Function.update s.list_in k written.2 }

/-- An output list and the events are what an operation on the list has written. -/
def writeOut (s : EtSystem P) (k : Nat) (written : Events P × EtList P) : EtSystem P :=
  { s with m := written.1, list_out := Function.update s.list_out k written.2 }

/-! ## §2. Events for attachments. -/

/-- `et_init_event_` for some events: each becomes as it was before it was put
into the system. -/
def initEvents (s : EtSystem P) (pe : List P) : EtSystem P :=
  { s with m := { s.m with
    next := fun p => if p ∈ pe then none else s.m.next p
    priority := fun p => if p ∈ pe then .low else s.m.priority p
    age := fun p => if p ∈ pe then .new else s.m.age p } }

/-- The events that `et_events_new` or `et_events_new_group` reads.  A call that
waits for events of a group does this at each scan, with the `num` that is left
of it, and nothing happens until a scan finds some. -/
def readNew (s : EtSystem P) (att num : Nat) :
    Option Int → Except Failure (List P × Events P × EtList P)
  | none => et_station_nread s.m (s.list_in grandcentral) att num
  | some group => scanForGroup s.m (s.list_in grandcentral) att num group

/-- `et_events_new`, and `et_events_new_group` for a group: the events are read
from GrandCentral and become the attachment's. -/
def et_events_new (s : EtSystem P) (att num : Nat) (group : Option Int) :
    Except Failure (List P × EtSystem P) :=
  if s.attached att then
    (s.readNew att num group).map fun read =>
      (read.1, (s.writeIn grandcentral read.2).initEvents read.1)
  else .error .ET_ERROR

/-- `et_events_get`: the events are read from the input list of the station and
become the attachment's. -/
def et_events_get (s : EtSystem P) (att num : Nat) : Except Failure (List P × EtSystem P) :=
  if s.attached att then
    match s.stat att with
    | none => .error .ET_ERROR
    | some k =>
        if k = grandcentral then .error .ET_ERROR
        else
          (et_station_nread s.m (s.list_in k) att num).map fun read => (read.1, s.writeIn k read.2)
  else .error .ET_ERROR

/-- `pe->age = ET_EVENT_USED` for some events, which is what
`et_restore_events` goes by. -/
def useEvents (s : EtSystem P) (pe : List P) : EtSystem P :=
  { s with m := { s.m with age := fun p => if p ∈ pe then .used else s.m.age p } }

/-- `et_events_put`: the events of an attachment are written to the output list of
its station. -/
def et_events_put (s : EtSystem P) (att : Nat) (pe : List P) : Except Failure (EtSystem P) :=
  match s.stat att with
  | none => .error .ET_ERROR
  | some k =>
      if pe.all fun p => s.m.owner p = some att then
        (et_station_nwrite s.nevents (s.useEvents pe).m (s.list_out k) pe).map (s.writeOut k)
      else .error .ET_ERROR

/-- `et_events_dump`: the events of an attachment are written back to the input
list of GrandCentral. -/
def et_events_dump (s : EtSystem P) (att : Nat) (pe : List P) : Except Failure (EtSystem P) :=
  if pe.all fun p => s.m.owner p = some att then
    (et_station_ndump s.nevents s.m (s.list_in grandcentral) pe).map (s.writeIn grandcentral)
  else .error .ET_ERROR

/-- `et_event_setpriority`: the event has another priority from now on. -/
def et_event_setpriority (s : EtSystem P) (p : P) (pri : Priority) : EtSystem P :=
  { s with m := { s.m with priority := Function.update s.m.priority p pri } }

/-! ## §3. Attachments. -/

/-- `status` of a station is set to active or idle. -/
def setActive (s : EtSystem P) (k : Nat) (active : Bool) : EtSystem P :=
  { s with slots := s.slots.map (Slot.mapStations fun ps =>
    if ps.num = k then { ps with active := active } else ps) }

/-- `et_station_attach`, as a new attachment: the station is active, and one
attachment more is counted. -/
def et_station_attach (s : EtSystem P) (att k : Nat) : Except Failure (EtSystem P) :=
  if s.attached att then .error .ET_ERROR
  else
    .ok { s.setActive k true with
      attached := Function.update s.attached att true
      stat := Function.update s.stat att (some k)
      nattachments := Function.update s.nattachments k (s.nattachments k + 1) }

/-- `et_flush_events`: what is left in the input list of a station is read and
put into its output list, or with `ET_STATION_RESTORE_REDIST` into that of the
station before. -/
def et_flush_events (s : EtSystem P) (att k : Nat) : Except Failure (EtSystem P) :=
  if k = grandcentral then .ok s
  else
    match et_station_nread s.m (s.list_in k) att s.nevents with
    | .error .ET_ERROR_EMPTY => .ok s
    | .error failure => .error failure
    | .ok (pe, written) =>
        let s := s.writeIn k written
        if s.restore_mode k = .restoreRedist then
          let prev := prevStation s.slots k
          (et_restore s.nevents s.m (s.list_out prev) pe).map fun written =>
            s.writeOut prev (written.1, written.2.1)
        else (et_station_nwrite s.nevents s.m (s.list_out k) pe).map (s.writeOut k)

/-- The events of an attachment that were put into the system before, the ones
of high priority first. -/
def ordered (s : EtSystem P) (att : Nat) : List P :=
  let pevent := s.events.filter fun p => s.m.owner p = some att ∧ s.m.age p = .used
  pevent.filter (s.m.priority · = .high) ++ pevent.filter (s.m.priority · ≠ .high)

/-- The new events of an attachment, which it has not put into the system before. -/
def newEvents (s : EtSystem P) (att : Nat) : List P :=
  s.events.filter fun p => s.m.owner p = some att ∧ s.m.age p = .new

/-- Where `et_restore_events` puts the events that are not new, which the mode of
the station says. -/
def restoreUsed (s : EtSystem P) (k : Nat) (pe : List P) : Except Failure (EtSystem P) :=
  if s.restore_mode k = .restoreGC ∨ k = grandcentral then
    (et_station_ndump s.nevents s.m (s.list_in grandcentral) pe).map (s.writeIn grandcentral)
  else if s.restore_mode k = .restoreOut
      ∨ s.restore_mode k = .restoreIn ∧ s.nattachments k = 0 then
    (et_station_nwrite s.nevents s.m (s.list_out k) pe).map (s.writeOut k)
  else if s.restore_mode k = .restoreIn then
    match et_restore s.nevents s.m (s.list_in k) pe with
    | .error failure => .error failure
    | .ok (m, pl, num_written) =>
        let s := s.writeIn k (m, pl)
        if num_written < pe.length then
          (et_station_nwrite s.nevents s.m (s.list_out k) (pe.drop num_written)).map (s.writeOut k)
        else .ok s
  else
    let prev := prevStation s.slots k
    (et_restore s.nevents s.m (s.list_out prev) pe).map fun written =>
      s.writeOut prev (written.1, written.2.1)

/-- `et_restore_events`: the new events go back to GrandCentral and the others
where the mode says.  The writes make `ET_SYS` the owner. -/
def et_restore_events (s : EtSystem P) (att k : Nat) : Except Failure (EtSystem P) :=
  let pe := s.ordered att
  let new := s.newEvents att
  let dumped : Except Failure (EtSystem P) :=
    if new = [] then .ok s
    else
      (et_station_ndump s.nevents s.m (s.list_in grandcentral) new).map (s.writeIn grandcentral)
  dumped.bind fun s => if pe = [] then .ok s else s.restoreUsed k pe

/-- `et_station_detach`: the last attachment of a station leaves it idle and
flushes its input list; then the events of the attachment are restored, and it is
counted out. -/
def et_station_detach (s : EtSystem P) (att : Nat) : Except Failure (EtSystem P) :=
  match s.stat att with
  | none => .error .ET_ERROR
  | some k =>
      let flushed : Except Failure (EtSystem P) :=
        if s.nattachments k = 1 ∧ k ≠ grandcentral then (s.setActive k false).et_flush_events att k
        else .ok s
      (flushed.bind fun s => s.et_restore_events att k).map fun s =>
        { s with
          attached := Function.update s.attached att false
          nattachments := Function.update s.nattachments k (s.nattachments k - 1) }

/-! ## §4. Conductors. -/

/-- What the conductor of a station is doing: it waits, or it is at work on
some events. -/
def setConductor (s : EtSystem P) (k : Nat) (conductor : Option (AtWork P)) : EtSystem P :=
  { s with conductor := Function.update s.conductor k conductor }

/-- The conductor takes all events of the output list and begins its work at the
place behind its station. -/
def takeBatch (s : EtSystem P) (k : Nat) : Except Failure (EtSystem P) :=
  match s.conductor k with
  | some _ => .ok s
  | none =>
      if (s.list_out k).cnt < 1 then .ok s
      else
        (et_llist_read s.m (s.list_out k)).map fun read =>
          (s.writeOut k (s.m, read.2)).setConductor k
            (some ⟨.start read.1, nextPlace s.slots k, []⟩)

/-- The place of the chain as the conductor sees it, with the counts of the input
lists at that moment. -/
def seen (cnt : Nat → Nat) (func : Nat → P → Bool) : Slot P → Slot P :=
  Slot.mapStations fun ps => { ps with cnt := cnt ps.num, func := func ps.num }

/-- The conductor decides what to write at the next place of the chain, or to
GrandCentral at its end; when nothing is left, it waits for events again. -/
def visit (s : EtSystem P) (k : Nat) (cnt : Nat → Nat) (func : Nat → P → Bool) : EtSystem P :=
  match s.conductor k with
  | some ⟨d, place, []⟩ =>
      if d.events_left = 0 then s.setConductor k none
      else
        match s.slots[place]? with
        | some slot =>
            let visited := (seen cnt func slot).visit d
            { s.setConductor k (some ⟨{ visited.2 with firstimethruloop := false }, place + 1,
                visited.2.writes.drop d.writes.length⟩) with
              slots := s.slots.set place visited.1 }
        | none =>
            let d' := d.toGrandCentral
            s.setConductor k (some ⟨d', place, d'.writes.drop d.writes.length⟩)
  | _ => s

/-- The conductor writes the events that it has decided on to the input list of
one station. -/
def deliver (s : EtSystem P) (k : Nat) : Except Failure (EtSystem P) :=
  match s.conductor k with
  | some ⟨d, place, (num, pe) :: pending⟩ =>
      if num = grandcentral then
        (et_llist_write_gc s.nevents s.m (s.list_in grandcentral) pe).map fun written =>
          (s.writeIn grandcentral written).setConductor k (some ⟨d, place, pending⟩)
      else
        (et_llist_write s.nevents s.m (s.list_in num) pe).bind fun written =>
          -- this one should never happen
          if written.2.2 < pe.length then .error .ET_ERROR
          else
            .ok ((s.writeIn num (written.1, written.2.1)).setConductor k
              (some ⟨d, place, pending⟩))
  | _ => .ok s

/-! ## §5. Runs. -/

end EtSystem

/-- What can happen to the system: a call of an attachment, or a step of one of
the conductors. -/
inductive Act (P : Type) where
  | new (att num : Nat) (group : Option Int)
  | get (att num : Nat)
  | put (att : Nat) (pe : List P)
  | dump (att : Nat) (pe : List P)
  | setpriority (p : P) (pri : Priority)
  | attach (att k : Nat)
  | detach (att : Nat)
  | takeBatch (k : Nat)
  | visit (k : Nat) (cnt : Nat → Nat) (func : Nat → P → Bool)
  | deliver (k : Nat)

namespace EtSystem

/-- What happens, with the failure that it ends in where the code returns
an error. -/
def step (s : EtSystem P) : Act P → Except Failure (EtSystem P)
  | .new att num group => (s.et_events_new att num group).map Prod.snd
  | .get att num => (s.et_events_get att num).map Prod.snd
  | .put att pe => s.et_events_put att pe
  | .dump att pe => s.et_events_dump att pe
  | .setpriority p pri => .ok (s.et_event_setpriority p pri)
  | .attach att k => s.et_station_attach att k
  | .detach att => s.et_station_detach att
  | .takeBatch k => s.takeBatch k
  | .visit k cnt func => .ok (s.visit k cnt func)
  | .deliver k => s.deliver k

/-- The system after something has happened; what fails leaves it as it was. -/
def next (s : EtSystem P) (act : Act P) : EtSystem P :=
  match s.step act with
  | .ok s' => s'
  | .error _ => s

/-- A step of a run, in which everything can happen at any time. -/
def exec (s : EtSystem P) (act : Act P) : Option (EtSystem P) := some (s.next act)

/-- An empty list, with nothing counted. -/
def noEvents : EtList P := ⟨0, 0, 0, 0, none, none⟩

/-- A list with all events in it, as `et_grandcentral_station_create` makes it. -/
def fill (events : List P) (m : Events P) : Events P × EtList P :=
  events.foldl (fun filled p =>
    match et_llist_write_gc events.length filled.1 filled.2 [p] with
    | .ok filled => filled
    | .error _ => filled) (m, noEvents)

/-- The system at the start: all events are in the input list of GrandCentral, and
nobody is attached. -/
def start (events : List P) (group : P → Int) (slots : List (Slot P))
    (restore_mode : Nat → RestoreMode) : EtSystem P :=
  let filled := fill events ⟨fun _ => none, fun _ => .low, fun _ => none, group, fun _ => .new⟩
  { nevents := events.length
    events := events
    m := filled.1
    slots := slots
    list_in := fun k => if k = grandcentral then filled.2 else noEvents
    list_out := fun _ => noEvents
    restore_mode := restore_mode
    nattachments := fun _ => 0
    attached := fun _ => false
    stat := fun _ => none
    conductor := fun _ => none }

end EtSystem

end PokerReco.ET
