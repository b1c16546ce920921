/-
  PokerReco.JANA.Basic
  ────────────────────
  **WHAT THE FRAMEWORK FIXES FOR EVERY MODULE** (`JANA/jerror.h`).

  `jerror_t` is the return type of the event sources, of the factories and of
  the processors.  Its numerical value matters in one place only: a function
  of type `double` that returns one of the codes
  (`DAQCalibrationHandler::getCalibSingle`).
-/
import Mathlib.Data.List.Basic

namespace PokerReco.JANA

/-- `enum jerror_t`. -/
inductive JError where
  | NOERROR
  | UNKNOWN_ERROR
  | MAX_EVENT_PROCESSORS_EXCEEDED
  | ERROR_OPENING_EVENT_SOURCE
  | ERROR_CLOSING_EVENT_SOURCE
  | NO_MORE_EVENTS_IN_SOURCE
  | NO_MORE_EVENT_SOURCES
  | EVENT_NOT_IN_MEMORY
  | EVENT_SOURCE_NOT_OPEN
  | OBJECT_NOT_AVAILABLE
  | DEVENT_OBJECT_DOES_NOT_EXIST
  | MEMORY_ALLOCATION_ERROR
  | RESOURCE_UNAVAILABLE
  | VALUE_OUT_OF_RANGE
  | INFINITE_RECURSION
  | UNRECOVERABLE_ERROR
  | FILTER_EVENT_OUT
  deriving DecidableEq, Repr

/-- The number behind a code: `NOERROR` is 0, the others count up from
`UNKNOWN_ERROR = -1000`. -/
def JError.value : JError → Int
  | .NOERROR => 0
  | e => -1000 + (e.ctorIdx - 1 : Int)

end PokerReco.JANA
