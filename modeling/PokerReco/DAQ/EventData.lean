/-
  PokerReco.DAQ.EventData
  ───────────────────────
  **WHAT THE EVENT SOURCES SAY ABOUT AN EVENT** (`DAQ/eventData.h`).

  One `eventData` accompanies every event.  `eventType` tells the events of
  the data acquisition from those of the slow control, which travel in the
  same stream.
-/
import Mathlib.Data.List.Basic

namespace PokerReco.DAQ

/-- `eventSource`.  The member `eventType` is an `int`: 0 until it is set. -/
inductive EventSource where
  | unset
  | DAQ
  | EPICS
  | CONF
  deriving DecidableEq, Repr

/-- `eventData`. -/
structure EventData where
  eventN : UInt64
  eventTS : UInt64
  spillN : UInt64
  runN : UInt32
  time : UInt64
  triggerWords : List UInt32
  eventType : EventSource
  deriving DecidableEq, Repr

end PokerReco.DAQ
