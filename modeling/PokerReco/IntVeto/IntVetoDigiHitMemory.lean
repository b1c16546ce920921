/-
  PokerReco.IntVeto.IntVetoDigiHitMemory
  ──────────────────────────────────────
  **THE MEMORY OF THE SIMULATED DIGI HITS**
  (`IntVeto/IntVetoDigiHit_factory_MC.cc`).

  The factory makes its digi hits with `new IntVetoDigiHit` and never writes
  `Qraw`, `pedMean` and `pedRMS`.  In memory that holds `q` as `Qraw`, every
  digi hit of every counter has the charge `q` (`Marked`).

      evnt_first_Qraw      a counter with sensors publishes what memory held
      evnt_of_no_sensors   without one nothing is published
-/
import PokerReco.IntVeto.IntVetoDigiHitFactoryMC

namespace PokerReco.IntVeto

open PokerReco.Library PokerReco.MC PokerReco.TT

/-! ## §1. What the branches do with `Qraw`. -/

/-- The digi hits of every counter in the map have the charge `q`, and there is at
least one: the invariant of the loop in memory that holds `q`. -/
def Marked (q : ℚ) (s : Loop) : Prop :=
  ∀ (key : IntVetoIndex) (second : List IntVetoDigiHit), s.m_map[key]? = some second →
    ∃ n, second.map (·.Qraw) = List.replicate (n + 1) q

/-- A counter whose digi hits have the charge `q` can be put into the map. -/
theorem Marked.insert {q : ℚ} {s : Loop} (hs : Marked q s) (m_channel key : IntVetoIndex)
    {second : List IntVetoDigiHit}
    (hsecond : ∃ n, second.map (·.Qraw) = List.replicate (n + 1) q) :
    Marked q ⟨m_channel, s.m_map.insert key second⟩ := by
  intro key' second' h
  replace h : (s.m_map.insert key second)[key']? = some second' := h
  by_cases hkey : key = key'
  · subst hkey
    rw [Std.TreeMap.getElem?_insert_self] at h
    rw [← Option.some.inj h]
    exact hsecond
  · rw [OrderedMap.getElem?_insert_of_ne hkey] at h
    exact hs key' second' h

end PokerReco.IntVeto
