/-
  PokerReco.MC.CalorimeterMCHit
  ─────────────────────────────
  **SIMULATED CALORIMETER HITS** (`MC/CalorimeterMCHit.h`, `MC/MCType.h`).

  A hit names its crystal by the numbering of the simulation, which differs
  between the simulated setups (`MCType`).
-/
import Mathlib.Data.List.Basic

namespace PokerReco.MC

/-- `MCType::TYPE`. -/
inductive MCType where
  | CATANIA_V1
  | CATANIA_V2
  | FULL_V1
  | FULL_V2
  | JLAB_FLUX_V1
  | BDXmini_V1
  deriving DecidableEq, Repr

/-- The number the parameter `MC` is compared with. -/
def MCType.value : MCType → Int
  | CATANIA_V1 => 1
  | CATANIA_V2 => 2
  | FULL_V1 => 10
  | FULL_V2 => 20
  | JLAB_FLUX_V1 => 100
  | BDXmini_V1 => 200

/-- `CalorimeterMCHit`: the crystal, and the charge and time seen at its left
and right end. -/
structure CalorimeterMCHit where
  sector : Int
  x : Int
  y : Int
  adcl : Int
  adcr : Int
  tdcl : Int
  tdcr : Int
  deriving DecidableEq, Repr

end PokerReco.MC
