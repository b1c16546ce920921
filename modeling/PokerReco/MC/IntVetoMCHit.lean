/-
  PokerReco.MC.IntVetoMCHit
  ─────────────────────────
  **SIMULATED HITS OF THE INNER VETO** (`MC/IntVetoMCHit.h`).

  A hit names its counter by the numbering of the simulation and carries the
  charge and the time of up to eight sensors of the counter.
-/
import Mathlib.Data.List.Basic

namespace PokerReco.MC

/-- `IntVetoMCHit`, without the members no factory reads. -/
structure IntVetoMCHit where
  sector : Int
  channel : Int
  system : Int
  adc1 : Int
  adc2 : Int
  adc3 : Int
  adc4 : Int
  adc5 : Int
  adc6 : Int
  adc7 : Int
  adc8 : Int
  tdc1 : Int
  tdc2 : Int
  tdc3 : Int
  tdc4 : Int
  tdc5 : Int
  tdc6 : Int
  tdc7 : Int
  tdc8 : Int
  deriving DecidableEq, Repr, Inhabited

/-- The eight charges, `adc1` at place 0. -/
def IntVetoMCHit.adc (hit : IntVetoMCHit) : Fin 8 → Int
  | 0 => hit.adc1
  | 1 => hit.adc2
  | 2 => hit.adc3
  | 3 => hit.adc4
  | 4 => hit.adc5
  | 5 => hit.adc6
  | 6 => hit.adc7
  | 7 => hit.adc8

/-- The eight times, `tdc1` at place 0. -/
def IntVetoMCHit.tdc (hit : IntVetoMCHit) : Fin 8 → Int
  | 0 => hit.tdc1
  | 1 => hit.tdc2
  | 2 => hit.tdc3
  | 3 => hit.tdc4
  | 4 => hit.tdc5
  | 5 => hit.tdc6
  | 6 => hit.tdc7
  | 7 => hit.tdc8

end PokerReco.MC
