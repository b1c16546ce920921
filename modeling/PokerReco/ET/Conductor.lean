/-
  PokerReco.ET.Conductor
  ──────────────────────
  **THE CONDUCTOR OF A STATION** (`et_conductor` of `et_system.c`).

  A conductor takes all events from the output list of its station and goes
  down the chain of stations until each event has been written to an input
  list.  What is left at the end goes to GrandCentral.

      EtStation.offer, offerGroup   the modes `all`, `matching` and `user`
      dealRobin                     round robin
      dealEqual                     equal cues
      conduct                       a batch, from the first place to the last
-/
import Mathlib.Data.List.Perm.Subperm
import PokerReco.Library.Strides

namespace PokerReco.ET

open PokerReco.Library

variable {E : Type}

/-! ## §1. Stations. -/

/-- `block_mode`: does a station take all events, or only as many as its cue
has room for? -/
inductive BlockMode where
  | blocking
  | nonblocking
  deriving DecidableEq, Repr

/-- `select_mode`: how a station chooses its events, or how those of its group
share them. -/
inductive SelectMode where
  | all
  | matching
  | user
  | rrobin
  | equalcue
  deriving DecidableEq, Repr

/-- `et_station`, as a conductor sees it on its way: `active` is its status,
`events_try` and `cnt` are those of `list_in`, and `func` chooses events for
the modes `matching` and `user`. -/
structure EtStation (E : Type) where
  num : Nat
  active : Bool
  block_mode : BlockMode
  select_mode : SelectMode
  prescale : Nat
  cue : Nat
  func : E → Bool
  waslast : Bool
  events_try : UInt64
  cnt : Nat

/-- A place in the main chain: a station, or a group of parallel stations, of
which the first one is in the chain. -/
inductive Slot (E : Type) where
  | serial (ps : EtStation E)
  | parallel (ps : EtStation E) (others : List (EtStation E))

/-- The events of a conductor, with `event_put`, and what it has written to
which input list. -/
structure Conducting (E : Type) where
  allevents : List (E × Bool)
  events_left : Nat
  firstimethruloop : Bool
  writes : List (Nat × List E)

namespace Conducting

/-- All events that were read from the output list, in their order. -/
def events (d : Conducting E) : List E := d.allevents.map Prod.fst

/-- The events with `event_put` not set, which no station of the chain has
taken so far. -/
def unput (d : Conducting E) : List E := (d.allevents.filter fun entry => !entry.2).map Prod.fst

/-- The events that were written so far, to whichever list. -/
def written (d : Conducting E) : List E := d.writes.flatMap Prod.snd

/-- The conductor at its start, with the events that it has read and
nothing written. -/
def start (events : List E) : Conducting E :=
  ⟨events.map fun e => (e, false), events.length, true, []⟩

/-- `et_llist_write` of events to the input list of a station; none are not
written. -/
def write (d : Conducting E) (num : Nat) (putevents : List E) : Conducting E :=
  if putevents = [] then d
  else
    { d with
      events_left := d.events_left - putevents.length
      writes := d.writes ++ [(num, putevents)] }

end Conducting

/-! ## §2. One station. -/

/-- The loop for a blocking station: the events to put, `event_put` behind it,
and `events_try`. -/
def takePrescaled (prescale : Nat) (func : E → Bool) :
    UInt64 → List (E × Bool) → List E × List (E × Bool) × UInt64
  | events_try, [] => ([], [], events_try)
  | events_try, (e, event_put) :: rest =>
      if event_put then
        let taken := takePrescaled prescale func events_try rest
        (taken.1, (e, event_put) :: taken.2.1, taken.2.2)
      else if func e then
        let taken := takePrescaled prescale func (events_try + 1) rest
        if events_try.toNat % prescale = 0 then (e :: taken.1, (e, true) :: taken.2.1, taken.2.2)
        else (taken.1, (e, event_put) :: taken.2.1, taken.2.2)
      else
        let taken := takePrescaled prescale func events_try rest
        (taken.1, (e, event_put) :: taken.2.1, taken.2.2)

/-- The loop for a nonblocking station, which has room for `j` more. -/
def takeUpTo (func : E → Bool) : Nat → List (E × Bool) → List E × List (E × Bool)
  | _, [] => ([], [])
  | 0, rest => ([], rest)
  | j + 1, (e, event_put) :: rest =>
      if event_put || !func e then
        let taken := takeUpTo func (j + 1) rest
        (taken.1, (e, event_put) :: taken.2)
      else
        let taken := takeUpTo func j rest
        (e :: taken.1, (e, true) :: taken.2)

/-- Which events the station takes: all, or those that `func` chooses. -/
def EtStation.chooses (ps : EtStation E) (e : E) : Bool := ps.select_mode = .all || ps.func e

/-- The events that go into a station, by its modes: all at once, every so many,
or as many as it has room for. -/
def EtStation.offer (ps : EtStation E) (d : Conducting E) : EtStation E × Conducting E :=
  match ps.block_mode with
  | .blocking =>
      if ps.select_mode = .all ∧ d.firstimethruloop ∧ ps.prescale = 1 then
        -- `writeall`
        ({ ps with events_try := ps.events_try + .ofNat d.events.length },
          { d with events_left := 0, writes := d.writes ++ [(ps.num, d.events)] })
      else
        let taken := takePrescaled ps.prescale ps.chooses ps.events_try d.allevents
        ({ ps with events_try := taken.2.2 },
          { d with allevents := taken.2.1 }.write ps.num taken.1)
  | .nonblocking =>
      if ps.cnt < ps.cue then
        let taken := takeUpTo ps.chooses (ps.cue - ps.cnt) d.allevents
        (ps, { d with allevents := taken.2 }.write ps.num taken.1)
      else (ps, d)

/-- The active stations of a group, one after the other, as long as events
are left. -/
def offerGroup : List (EtStation E) → Conducting E → List (EtStation E) × Conducting E
  | [], d => ([], d)
  | ps :: group, d =>
      if ps.active then
        let offered := ps.offer d
        if 0 < offered.2.events_left then
          let rest := offerGroup group { offered.2 with firstimethruloop := false }
          (offered.1 :: rest.1, rest.2)
        else (offered.1 :: group, offered.2)
      else
        let rest := offerGroup group d
        (ps :: rest.1, rest.2)

/-! ## §3. Round robin. -/

/-- `startStation`: the active station after the one that was last, as its
place in the group. -/
def lookForStart : Bool → Nat → Option Nat → List (EtStation E) → Option Nat
  | _, _, startStation, [] => startStation
  | startLooking, i, startStation, ps :: group =>
      let startStation := if ps.active && startLooking then some i else startStation
      lookForStart ((startLooking && !ps.active) || ps.waslast) (i + 1) startStation group

/-- Those of the places in a group at which the station is active. -/
def activePlaces (group : List (EtStation E)) (places : List Nat) : List Nat :=
  places.filter fun i => (group[i]?.map EtStation.active).getD false

/-- The active stations in the order in which they get events: from
`startStation` to the end, and again from the first active one on. -/
def robinOrder (group : List (EtStation E)) : List Nat :=
  let places := activePlaces group (List.range group.length)
  let firstActive := places.headD 0
  let startStation := (lookForStart false 0 none group).getD firstActive
  (activePlaces group ((List.range group.length).drop startStation) ++ places).take places.length

/-- `numEvents[i]`: the events are shared evenly, and the first stations get one
more when they do not divide. -/
def robinShare (events_left numActiveStations i : Nat) : Nat :=
  let num := events_left / numActiveStations
  let extra := events_left % numActiveStations
  if i < extra then num + 1 else num

/-- `lastEventIndex`: the turn that gets the last event, from which the next round
robin goes on. -/
def lastEventIndex (events_left numActiveStations : Nat) : Nat :=
  let extra := events_left % numActiveStations
  if extra = 0 then numActiveStations - 1 else extra - 1

/-- The loop that skips the events put before, then `skip` events, and takes one:
the step is the number of active stations. -/
def pickEvery (numActiveStations : Nat) : Nat → Int → List (E × Bool) → List E
  | _, _, [] => []
  | skip, numOfEvents, (e, event_put) :: rest =>
      if event_put then pickEvery numActiveStations skip numOfEvents rest
      else if 0 < skip then pickEvery numActiveStations (skip - 1) numOfEvents rest
      else if numOfEvents - 1 = 0 then [e]
      else e :: pickEvery numActiveStations (numActiveStations - 1) (numOfEvents - 1) rest

/-- What the `i`-th turn of the dealing loop adds to `putevents`. -/
def robinPicks (d : Conducting E) (numActiveStations i : Nat) : List E :=
  let numOfEvents := robinShare d.events_left numActiveStations i
  if d.firstimethruloop then
    (List.range numOfEvents).filterMap fun j => d.events[i + j * numActiveStations]?
  else pickEvery numActiveStations 0 numOfEvents (d.allevents.drop i)

/-- The stations take their numbers of events from `putevents`, each from where
the one before has stopped. -/
def handOut (d : Conducting E) (putevents : List E) : List (Nat × Nat) → Conducting E
  | [] => d
  | (num, events_toput) :: shares =>
      handOut (d.write num (putevents.take events_toput)) (putevents.drop events_toput) shares

/-- The round robin over the active stations of a group: what each gets is
gathered in `putevents` first. -/
def dealRobin (group : List (EtStation E)) (d : Conducting E) :
    List (EtStation E) × Conducting E :=
  let order := robinOrder group
  let numActiveStations := order.length
  let putevents := (List.range numActiveStations).flatMap (robinPicks d numActiveStations)
  let shares := order.zipIdx.map fun (place, i) =>
    ((group[place]?.map EtStation.num).getD 0, robinShare d.events_left numActiveStations i)
  let waslast := order[lastEventIndex d.events_left numActiveStations]?
  (group.mapIdx fun i ps => { ps with waslast := some i == waslast },
    handOut d putevents shares)

/-! ## §4. Equal cues. -/

/-- `v` goes down in steps of `inc` past what is greater, which moves up in
its place. -/
def sink (inc : Nat) (v : Nat × Nat) : Nat → Nat → List (Nat × Nat) → List (Nat × Nat)
  | 0, j, a => a.set j v
  | turns + 1, j, a =>
      if inc ≤ j then
        match a[j - inc]? with
        | some w => if v.1 < w.1 then sink inc v turns (j - inc) (a.set j w) else a.set j v
        | none => a.set j v
      else a.set j v

/-- A pass of `shellSort`: each element goes down in steps of `inc`, the first of
them before the others. -/
def sinkAll (inc : Nat) (a : List (Nat × Nat)) : List (Nat × Nat) :=
  (List.range' inc (a.length - inc)).foldl (fun a i => sink inc (a.getD i (0, 0)) i i a) a

/-- The steps 1, 4, 13, … of `shellSort`, the greatest first. -/
def increments (n : Nat) : Nat → Nat → List Nat
  | 0, _ => []
  | turns + 1, inc => (if 3 * inc + 1 ≤ n then increments n turns (3 * inc + 1) else []) ++ [inc]

/-- `shellSort` of the counts, and of their places with them. -/
def shellSort (a : List (Nat × Nat)) : List (Nat × Nat) :=
  (increments a.length (a.length + 1) 1).foldl (fun a inc => sinkAll inc a) a

/-- Some more events are added to `numEvents`, for the first of the cues and
their places. -/
def addEvents (numEvents : List Nat) : List ((Nat × Nat) × Nat) → List Nat
  | [] => numEvents
  | (cue, more) :: cues => addEvents (numEvents.modify cue.2 (· + more)) cues

/-- The loop that fills the lowest cues; `cues` are the counts in order, with
the place of each. -/
def dole (cues : List (Nat × Nat)) (events_left : Nat) :
    Nat → Nat → Nat → List Nat → List Nat
  | 0, _, _, numEvents => numEvents
  | turns + 1, min, eventsDoledOut, numEvents =>
      if eventsDoledOut < events_left then
        let same := cues.takeWhile fun cue => min = cue.1 + numEvents.getD cue.2 0
        let stationsWithSameCue := same.length
        let nextHigherCue := (cues[stationsWithSameCue]?.map Prod.fst).getD 0
        if stationsWithSameCue = cues.length
            ∨ events_left - eventsDoledOut < (nextHigherCue - min) * stationsWithSameCue then
          let events_toput := events_left - eventsDoledOut
          let eventsPerStation := events_toput / stationsWithSameCue
          let extra := events_toput % stationsWithSameCue
          addEvents numEvents (same.zipIdx.map fun (cue, i) =>
            (cue, if i < extra then eventsPerStation + 1 else eventsPerStation))
        else
          let eventsPerStation := nextHigherCue - min
          dole cues events_left turns nextHigherCue
            (eventsDoledOut + eventsPerStation * stationsWithSameCue)
            (addEvents numEvents (same.map fun cue => (cue, eventsPerStation)))
      else numEvents

/-- `numEvents`, for the counts of the active stations: the lowest cues are
filled first. -/
def equalShares (inListCount : List Nat) (events_left : Nat) : List Nat :=
  let cues := shellSort inListCount.zipIdx
  dole cues events_left (events_left + 1) (cues.headD (0, 0)).1 0
    (List.replicate inListCount.length 0)

/-- The loop that writes to the stations of a group the number of events that each
was given. -/
def handEqual : Nat → Conducting E → List (Nat × Nat) → Conducting E
  | _, d, [] => d
  | eventsAlreadyPut, d, (num, events_toput) :: shares =>
      if events_toput < 1 then handEqual eventsAlreadyPut d shares
      else if d.firstimethruloop then
        handEqual (eventsAlreadyPut + events_toput)
          (d.write num ((d.events.drop eventsAlreadyPut).take events_toput)) shares
      else
        let taken := takeUpTo (fun _ => true) events_toput d.allevents
        handEqual (eventsAlreadyPut + events_toput)
          ({ d with allevents := taken.2 }.write num taken.1) shares

/-- The equal-cue algorithm: the active stations of a group share the events so
that their cues become even. -/
def dealEqual (group : List (EtStation E)) (d : Conducting E) : Conducting E :=
  let active := group.filter EtStation.active
  let numEvents := equalShares (active.map EtStation.cnt) d.events_left
  handEqual 0 d ((active.map EtStation.num).zip numEvents)

/-! ## §5. The chain. -/

/-- What happens at a place of the chain, which depends on the modes of the first
station there. -/
def Slot.visit (slot : Slot E) (d : Conducting E) : Slot E × Conducting E :=
  match slot with
  | .serial ps =>
      if ps.active then
        let offered := ps.offer d
        (.serial offered.1, offered.2)
      else (.serial ps, d)
  | .parallel ps others =>
      let group := ps :: others
      if group.any EtStation.active then
        match ps.select_mode with
        | .rrobin =>
            let dealt := dealRobin group d
            (.parallel (dealt.1.headD ps) dealt.1.tail, dealt.2)
        | .equalcue => (.parallel ps others, dealEqual group d)
        | _ =>
            let offered := offerGroup group d
            (.parallel (offered.1.headD ps) offered.1.tail, offered.2)
      else (.parallel ps others, d)

/-- The number of GrandCentral, the first station of every system. -/
def grandcentral : Nat := 0

/-- `et_llist_write_gc` of what is left at the end of the chain. -/
def Conducting.toGrandCentral (d : Conducting E) : Conducting E :=
  if d.events_left = 0 then d
  else
    let putevents := if d.firstimethruloop then d.events else d.unput
    if putevents = [] then d
    else { d with events_left := 0, writes := d.writes ++ [(grandcentral, putevents)] }

/-- The loop over the chain, which ends early when no event is left. -/
def conduct : List (Slot E) → Conducting E → List (Slot E) × Conducting E
  | [], d => ([], d.toGrandCentral)
  | slot :: slots, d =>
      if d.events_left = 0 then (slot :: slots, d)
      else
        let visited := slot.visit d
        let rest := conduct slots { visited.2 with firstimethruloop := false }
        (visited.1 :: rest.1, rest.2)

end PokerReco.ET
