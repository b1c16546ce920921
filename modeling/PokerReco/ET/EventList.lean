/-
  PokerReco.ET.EventList
  ──────────────────────
  **THE LISTS OF EVENTS IN SHARED MEMORY** (`et_readwrite.c`).

  An input or output list is a chain of events, of which `cnt` count: what the
  last one points to, and `firstevent` and `lastevent` of an empty list, are
  left over from before.  A conductor reads output lists and writes input
  lists; attachments do it the other way round.

      et_llist_read, et_llist_write, et_llist_write_gc     conductors
      et_station_nread, et_station_nwrite, …               attachments
      et_restore                                           a detach
-/
import PokerReco.Library.PointerList

namespace PokerReco.ET

open PokerReco.Library

/-! ## §1. Events and lists. -/

/-- `ET_LOW` and `ET_HIGH`. -/
inductive Priority where
  | low
  | high
  deriving DecidableEq, Repr

/-- `ET_EVENT_NEW` and `ET_EVENT_USED`. -/
inductive Age where
  | new
  | used
  deriving DecidableEq, Repr

/-- The fields of the events (`et_event`).  The owner is an attachment, or
`none` for `ET_SYS`. -/
structure Events (P : Type) where
  next : P → Option P
  priority : P → Priority
  owner : P → Option Nat
  group : P → Int
  age : P → Age

/-- `et_list`. -/
structure EtList (P : Type) where
  cnt : Nat
  lasthigh : Nat
  events_in : UInt64
  events_out : UInt64
  firstevent : Option P
  lastevent : Option P

/-- `ET_ERROR`, or the use of a pointer that is not there. -/
inductive Failure where
  | ET_ERROR
  | ET_ERROR_EMPTY
  | undefined
  deriving DecidableEq, Repr

/-- The high priority events at the front. -/
def highs {P : Type} (priority : P → Priority) (l : List P) : List P :=
  l.takeWhile (priority · = .high)

/-- The events from the first one of low priority on. -/
def lows {P : Type} (priority : P → Priority) (l : List P) : List P :=
  l.dropWhile (priority · = .high)

variable {P : Type} [DecidableEq P]

/-- `pe->owner = owner` for some events; the other fields and the other
events stay. -/
def Events.own (m : Events P) (pe : List P) (owner : Option Nat) : Events P :=
  { m with owner := fun p => if p ∈ pe then owner else m.owner p }

/-- Without events no owner is changed. -/
theorem own_nil (m : Events P) (owner : Option Nat) : m.own [] owner = m := by
  unfold Events.own
  simp only [List.not_mem_nil, if_false]

/-! ## §2. Conductors. -/

/-- `et_llist_read`: all events are taken from the list, from the first on, and
the list is left empty. -/
def et_llist_read (m : Events P) (pl : EtList P) : Except Failure (List P × EtList P) :=
  if pl.cnt = 0 then .error .ET_ERROR
  else
    match follow m.next pl.cnt pl.firstevent with
    | none => .error .undefined
    | some pe =>
        .ok (pe, { pl with
          firstevent := none
          cnt := 0
          lasthigh := 0
          events_out := pl.events_out + .ofNat pl.cnt })

/-- Events go behind those that are in the list, whatever their priority. -/
def putBehind (m : Events P) (pl : EtList P) (pe : List P) : Except Failure (Events P × EtList P) :=
  if pl.cnt = 0 then
    .ok ({ m with next := link m.next pe },
      { pl with firstevent := pe.head?, lastevent := pe.getLast? })
  else
    match pl.lastevent with
    | none => .error .undefined
    | some last =>
        .ok ({ m with next := link (point m.next last pe.head?) pe },
          { pl with lastevent := pe.getLast? })

/-- `et_llist_write_gc`: the events go behind the others of GrandCentral, and are
counted in `events_in`. -/
def et_llist_write_gc (nevents_max : Nat) (m : Events P) (pl : EtList P) (pe : List P) :
    Except Failure (Events P × EtList P) :=
  if nevents_max - pl.cnt < pe.length then .error .ET_ERROR
  else
    (putBehind m pl pe).map fun written =>
      (written.1, { written.2 with
        events_in := pl.events_in + .ofNat pe.length
        cnt := pl.cnt + pe.length })

/-- The last of the high priority events at the front, what it points to, and
their number. -/
def findLastHigh (m : Events P) :
    Nat → Option P → Option P → Nat → Except Failure (Option P × Option P × Nat)
  | 0, pe_lasthigh, pevent, high_cnt => .ok (pe_lasthigh, pevent, high_cnt)
  | _ + 1, _, none, _ => .error .undefined
  | turns + 1, pe_lasthigh, some pevent, high_cnt =>
      if m.priority pevent = .high then
        findLastHigh m turns (some pevent) (m.next pevent) (high_cnt + 1)
      else .ok (pe_lasthigh, some pevent, high_cnt)

/-- High priority events go behind those of high priority that are there, and the
others to the end. -/
def putHighFirst (m : Events P) (pl : EtList P) (pe0 : P) (rest : List P) :
    Except Failure (Events P × EtList P) :=
  (findLastHigh m pl.cnt none pl.firstevent 0).bind fun (pe_lasthigh, pevent, high_cnt) =>
    let next := splice m.next pl.firstevent pe_lasthigh pe0
    let firstevent := if pe_lasthigh = none then some pe0 else pl.firstevent
    let pe_high := pe0 :: highs m.priority rest
    let pe_low := lows m.priority rest
    let next := linkBefore pevent next pe_high
    let lastevent := if high_cnt = pl.cnt then pe_high.getLast? else pl.lastevent
    if pe_low = [] then
      .ok ({ m with next := next }, { pl with firstevent := firstevent, lastevent := lastevent })
    else
      match lastevent with
      | none => .error .undefined
      | some last =>
          .ok ({ m with next := point (link next pe_low) last pe_low.head? },
            { pl with firstevent := firstevent, lastevent := pe_low.getLast? })

/-- `et_llist_write`, with the number of events written. -/
def et_llist_write (nevents_max : Nat) (m : Events P) (pl : EtList P) (pe : List P) :
    Except Failure (Events P × EtList P × Nat) :=
  match pe.take (nevents_max - pl.cnt) with
  | [] => .error .undefined
  | pe0 :: rest =>
      let num := rest.length + 1
      (if m.priority pe0 = .low ∨ pl.cnt = 0 then putBehind m pl (pe0 :: rest)
        else putHighFirst m pl pe0 rest).map fun written =>
        (written.1, { written.2 with
          events_in := pl.events_in + .ofNat num
          cnt := pl.cnt + num }, num)

/-! ## §3. Attachments. -/

/-- `et_station_nread`, when it does not wait (any more): the first `num` events
of the list, or all when there are fewer. -/
def et_station_nread (m : Events P) (pl : EtList P) (att : Nat) (num : Nat) :
    Except Failure (List P × Events P × EtList P) :=
  if num < 1 then .ok ([], m, pl)
  else if pl.cnt < 1 then .error .ET_ERROR_EMPTY
  else
    let num := min num pl.cnt
    match follow m.next num pl.firstevent with
    | none => .error .undefined
    | some pe =>
        .ok (pe, m.own pe (some att), { pl with
          firstevent := pe.getLast?.bind m.next
          cnt := pl.cnt - num })

/-- The loop that takes the events of a group out of a list: `prev` and `pev`
go down the list until `num` events were taken. -/
def scanGroup (group : Int) :
    Nat → Nat → Option P → Option P → Events P → EtList P →
      Except Failure (List P × Events P × EtList P)
  | 0, _, _, _, m, pl => .ok ([], m, pl)
  | _ + 1, _, _, none, _, _ => .error .undefined
  | turns + 1, num, prev, some pev, m, pl =>
      if m.group pev ≠ group then scanGroup group turns num (some pev) (m.next pev) m pl
      else
        let m' := { m with next := pointBehind m.next prev (m.next pev) }
        let pl := if prev = none then { pl with firstevent := m.next pev } else pl
        let pl := if pl.lastevent = some pev then { pl with lastevent := prev } else pl
        if num - 1 = 0 then .ok ([pev], m', pl)
        else
          (scanGroup group turns (num - 1) prev (m'.next pev) m' pl).map fun read =>
            (pev :: read.1, read.2)

/-- A scan of `et_station_nread_group` for events of the group, when it does not
wait (any more). -/
def scanForGroup (m : Events P) (pl : EtList P) (att : Nat) (num : Nat) (group : Int) :
    Except Failure (List P × Events P × EtList P) :=
  if num < 1 then .ok ([], m, pl)
  else if pl.cnt < 1 then .error .ET_ERROR_EMPTY
  else
    (scanGroup group pl.cnt (min num pl.cnt) none pl.firstevent m pl).map fun read =>
      (read.1, read.2.1.own read.1 (some att), { read.2.2 with cnt := pl.cnt - read.1.length })

/-- How a call waits for events: `ET_SLEEP`, `ET_TIMED` and `ET_ASYNC`. -/
inductive Mode where
  | sleep
  | timed
  | async
  deriving DecidableEq, Repr

/-- The events and an input list, at a time when an attachment has the lock of
the list: when it comes, and each time that it is woken up. -/
structure Look (P : Type) where
  m : Events P
  pl : EtList P

/-- `et_station_nread_group`, with what it sees at each look; `none` if it still
waits after the last one. -/
def et_station_nread_group (mode : Mode) (att : Nat) (group : Int) :
    Nat → List (Look P) → Except Failure (Option (List P × Events P × EtList P))
  | _, [] => .ok none
  | num, look :: looks =>
      if num < 1 then .ok (some ([], look.m, look.pl))
      else if look.pl.cnt < 1 ∧ mode ≠ .async then et_station_nread_group mode att group num looks
      else
        (scanForGroup look.m look.pl att num group).bind fun read =>
          -- the next scan begins with the `num` that this one was cut to
          if read.1 = [] ∧ mode ≠ .async then
            et_station_nread_group mode att group (min num look.pl.cnt) looks
          else .ok (some read)

/-- The variables of `et_station_nwrite`, while the events are put into the list
one after the other. -/
structure Writing (P : Type) where
  m : Events P
  pl : EtList P
  pe_lasthigh : Option P
  pe_last : Option P

/-- A turn of its loop: an event of high priority goes behind the last one of
them, another to the end. -/
def Writing.put (w : Writing P) (p : P) : Except Failure (Writing P) :=
  let m := w.m.own [p] none
  let pl := { w.pl with cnt := w.pl.cnt + 1 }
  if w.m.priority p = .low then
    match w.pe_last with
    | none => .error .undefined
    | some last =>
        .ok { w with
          m := { m with next := point m.next last (some p) }
          pl := { pl with lastevent := some p }
          pe_last := some p }
  else
    let pl := { pl with lasthigh := pl.lasthigh + 1 }
    match w.pe_lasthigh with
    | none =>
        .ok { w with
          m := { m with next := point m.next p pl.firstevent }
          pl := { pl with firstevent := some p }
          pe_lasthigh := some p }
    | some last =>
        if w.pe_lasthigh = w.pe_last then
          .ok {
            m := { m with next := point m.next last (some p) }
            pl := { pl with lastevent := some p }
            pe_lasthigh := some p
            pe_last := some p }
        else
          .ok { w with
            m := { m with next := point (point m.next p (m.next last)) last (some p) }
            pl := pl
            pe_lasthigh := some p }

/-- Its variables before the loop, and the events that are left for it. -/
def startWriting (m : Events P) (pl : EtList P) (pe0 : P) (rest : List P) :
    Except Failure (Writing P × List P) :=
  if pl.cnt = 0 then
    let pl := { pl with firstevent := some pe0, lastevent := some pe0, cnt := 1 }
    if m.priority pe0 = .high then
      .ok (⟨m.own [pe0] none, { pl with lasthigh := 1 }, some pe0, some pe0⟩, rest)
    else .ok (⟨m.own [pe0] none, pl, none, some pe0⟩, rest)
  else
    match follow m.next pl.lasthigh pl.firstevent with
    | none => .error .undefined
    | some highs => .ok (⟨m, pl, highs.getLast?, pl.lastevent⟩, pe0 :: rest)

/-- `et_station_nwrite`: `ET_SYS` becomes the owner of the events, and those of
high priority go behind the others of high priority. -/
def et_station_nwrite (nevents : Nat) (m : Events P) (pl : EtList P) :
    List P → Except Failure (Events P × EtList P)
  | [] => .ok (m, pl)
  | pe0 :: rest =>
      if nevents - pl.cnt < rest.length + 1 then .error .ET_ERROR
      else
        ((startWriting m pl pe0 rest).bind fun (w, rest) => rest.foldlM Writing.put w).map fun w =>
          (w.m, w.pl)

/-- `et_station_ndump`: the events go back to the end of the list of
GrandCentral. -/
def et_station_ndump (nevents : Nat) (m : Events P) (pl : EtList P) (pe : List P) :
    Except Failure (Events P × EtList P) :=
  if pe = [] then .ok (m, pl)
  else if nevents - pl.cnt < pe.length then .error .ET_ERROR
  else
    (putBehind m pl pe).map fun written =>
      (written.1.own pe none, { written.2 with cnt := pl.cnt + pe.length })

/-! ## §4. One event. -/

/-- `et_station_write`, which puts one event into the output list. -/
def et_station_write (nevents : Nat) (m : Events P) (pl : EtList P) (pe : P) :
    Except Failure (Events P × EtList P) :=
  if nevents ≤ pl.cnt then .error .ET_ERROR
  else
    let m' := m.own [pe] none
    let pl' := { pl with cnt := pl.cnt + 1 }
    if pl.cnt = 0 then
      let pl' := { pl' with firstevent := some pe, lastevent := some pe }
      if m.priority pe = .high then .ok (m', { pl' with lasthigh := 1 }) else .ok (m', pl')
    else if m.priority pe = .low then
      match pl.lastevent with
      | none => .error .undefined
      | some last =>
          .ok ({ m' with next := point m.next last (some pe) }, { pl' with lastevent := some pe })
    else
      let pl' := { pl' with lasthigh := pl.lasthigh + 1 }
      match follow m.next pl.lasthigh pl.firstevent with
      | none => .error .undefined
      | some highs =>
          match highs.getLast? with
          | none =>
              .ok ({ m' with next := point m.next pe pl.firstevent },
                { pl' with firstevent := some pe })
          | some last =>
              if pl.lastevent = some last then
                .ok ({ m' with next := point m.next last (some pe) },
                  { pl' with lastevent := some pe })
              else
                .ok ({ m' with next := point (point m.next pe (m.next last)) last (some pe) }, pl')

/-- `et_station_read`, which takes the first event, when it does not wait
(any more). -/
def et_station_read (m : Events P) (pl : EtList P) (att : Nat) :
    Except Failure (P × Events P × EtList P) :=
  if pl.cnt < 1 then .error .ET_ERROR_EMPTY
  else
    match pl.firstevent with
    | none => .error .undefined
    | some pe =>
        .ok (pe, m.own [pe] (some att), { pl with firstevent := m.next pe, cnt := pl.cnt - 1 })

/-- `et_station_dump`, which puts one event back to the end of the list of
GrandCentral. -/
def et_station_dump (nevents : Nat) (m : Events P) (pl : EtList P) (pe : P) :
    Except Failure (Events P × EtList P) :=
  if nevents ≤ pl.cnt then .error .ET_ERROR
  else
    (putBehind m pl [pe]).map fun written =>
      (written.1.own [pe] none, { written.2 with
        cnt := pl.cnt + 1
        events_in := pl.events_in + 1 })

/-! ## §5. Restoring. -/

/-- Low priority events go before those of low priority that are there. -/
def insertLows (m : Events P) (pl : EtList P) (plasthigh pfirstlow : Option P) (lows : List P) :
    Except Failure (Events P × EtList P) :=
  match pfirstlow with
  | none =>
      match pl.lastevent with
      | none => .error .undefined
      | some plast =>
          .ok ({ m with next := point m.next plast lows.head? },
            { pl with lastevent := lows.getLast? })
  | some first =>
      let next := pointBehind m.next plasthigh lows.head?
      let firstevent := if plasthigh = none then lows.head? else pl.firstevent
      match lows.getLast? with
      | none => .error .undefined
      | some last =>
          .ok ({ m with next := point next last (some first) },
            { pl with firstevent := firstevent })

/-- High priority events go before all others, and the low ones among them before
those that are there. -/
def insertHighs (m : Events P) (pl : EtList P) (plasthigh pfirstlow : Option P) (pe0 : P)
    (rest : List P) : Except Failure (Events P × EtList P) :=
  let pe_high := pe0 :: highs m.priority rest
  let pe_low := lows m.priority rest
  let next := linkBefore pl.firstevent (point m.next pe0 pl.firstevent) pe_high
  let pl := { pl with firstevent := some pe0 }
  if pe_low = [] then .ok ({ m with next := next }, pl)
  else
    insertLows { m with next := link next pe_low } pl
      (if plasthigh = none then pe_high.getLast? else plasthigh) pfirstlow pe_low

/-- The events go before those of their priority that are in the list. -/
def insertFirst (m : Events P) (pl : EtList P) (pe0 : P) (rest : List P) :
    Except Failure (Events P × EtList P) :=
  (findLastHigh m pl.cnt none pl.firstevent 0).bind fun (plasthigh, pevent, high_cnt) =>
    let pfirstlow := if high_cnt = pl.cnt then none else pevent
    if m.priority pe0 = .low then
      insertLows { m with next := link m.next (pe0 :: rest) } pl plasthigh pfirstlow (pe0 :: rest)
    else insertHighs m pl plasthigh pfirstlow pe0 rest

/-- `et_restore`, with the number of events written, which is smaller when the
list has no room for all. -/
def et_restore (nevents_max : Nat) (m : Events P) (pl : EtList P) (pe : List P) :
    Except Failure (Events P × EtList P × Nat) :=
  if nevents_max ≤ pl.cnt then .error .ET_ERROR
  else
    match pe.take (nevents_max - pl.cnt) with
    | [] => .error .undefined
    | pe0 :: rest =>
        let num := rest.length + 1
        let m := m.own (pe0 :: rest) none
        (if pl.cnt = 0 then putBehind m pl (pe0 :: rest)
          else insertFirst m pl pe0 rest).map fun written =>
          (written.1, { written.2 with cnt := pl.cnt + num }, num)

end PokerReco.ET
