/-
  PokerReco.BDXmini.ChannelFlags
  ──────────────────────────────
  **THE CHANNEL FLAGS OF THE TRIGGER BANK**
  (`BDXmini/triggerDataBDXmini.cc`).

  Six methods set, unset and read the flags of the two arrays `channels` and
  `channelsTRG`.  Each of them first refuses an index out of range, and each
  lets `nChansMAX` through, which is one behind the array: the methods for the
  triggers, a few lines above, compare with `>=`.

      flags_behave_iff   over every sequence of calls, the flags are a set
                         exactly when this index is not used
-/
import PokerReco.BDXmini.TriggerDataBDXmini
import PokerReco.Library.LastWrite
import PokerReco.Library.Schedule

namespace PokerReco.BDXmini

open PokerReco.Library

/-! ## §1. The methods. -/

/-- The check and the assignment that four methods share.  The check lets one
index too many through, `nChansMAX`, and there the write is outside the array. -/
def putFlag (value : Bool) (flags : Fin nChansMAX → Bool) (ich : Int) :
    Option (Fin nChansMAX → Bool) :=
  if ich < 0 ∨ ich > nChansMAX then some flags
  else if h : ich.toNat < nChansMAX then some (Function.update flags ⟨ich.toNat, h⟩ value)
  else none

/-- The check and the result of the two methods that read a flag.  It is the same
check, with the same index too many. -/
def readFlag (flags : Fin nChansMAX → Bool) (ich : Int) : Option Bool :=
  if ich < 0 ∨ ich > nChansMAX then some false
  else if h : ich.toNat < nChansMAX then some (flags ⟨ich.toNat, h⟩)
  else none

namespace TriggerDataBDXmini

/-- `hasChannel`: whether the channel had a signal in the event. -/
def hasChannel (t : TriggerDataBDXmini) (ich : Int) : Option Bool := readFlag t.channels ich

/-- `hasChannelTRG`: whether the channel had a signal in the trigger of the event. -/
def hasChannelTRG (t : TriggerDataBDXmini) (ich : Int) : Option Bool := readFlag t.channelsTRG ich

/-- `unsetChannel`: clears the flag of one channel. -/
def unsetChannel (t : TriggerDataBDXmini) (ich : Int) : Option TriggerDataBDXmini :=
  (putFlag false t.channels ich).map fun flags => { t with channels := flags }

/-- `unsetChannelTRG`: clears the flag of one channel of the trigger. -/
def unsetChannelTRG (t : TriggerDataBDXmini) (ich : Int) : Option TriggerDataBDXmini :=
  (putFlag false t.channelsTRG ich).map fun flags => { t with channelsTRG := flags }

end TriggerDataBDXmini

/-- A call of a method that writes a flag: which method it is, and with which
index. -/
inductive FlagCall where
  | setChannel (ich : Int)
  | unsetChannel (ich : Int)
  | setChannelTRG (ich : Int)
  | unsetChannelTRG (ich : Int)
  deriving DecidableEq, Repr

/-- The two arrays of flags, one for the event and one for its trigger. -/
inductive FlagArray where
  | channels
  | channelsTRG
  deriving DecidableEq, Repr

/-- The array with this name in an object, so that one lemma speaks of both
arrays. -/
def TriggerDataBDXmini.flags (t : TriggerDataBDXmini) : FlagArray → Fin nChansMAX → Bool
  | .channels => t.channels
  | .channelsTRG => t.channelsTRG

/-- The object with one of its arrays replaced, and all else as it was. -/
def TriggerDataBDXmini.withFlags (t : TriggerDataBDXmini) (flags : Fin nChansMAX → Bool) :
    FlagArray → TriggerDataBDXmini
  | .channels => { t with channels := flags }
  | .channelsTRG => { t with channelsTRG := flags }

namespace FlagCall

/-- The index that the call is made with; it need not be one of a channel. -/
def ich : FlagCall → Int
  | .setChannel ich => ich
  | .unsetChannel ich => ich
  | .setChannelTRG ich => ich
  | .unsetChannelTRG ich => ich

/-- The array that the call writes to. -/
def array : FlagCall → FlagArray
  | .setChannel _ => .channels
  | .unsetChannel _ => .channels
  | .setChannelTRG _ => .channelsTRG
  | .unsetChannelTRG _ => .channelsTRG

/-- What the call writes: the methods that set a flag write `true`, those that
unset one `false`. -/
def value : FlagCall → Bool
  | .setChannel _ => true
  | .unsetChannel _ => false
  | .setChannelTRG _ => true
  | .unsetChannelTRG _ => false

/-- Where the call writes: an array and an index.  Two calls meet where their
places are the same. -/
def place (call : FlagCall) : FlagArray × Int := (call.array, call.ich)

/-- The call itself, by the method that the source has for it; `none` for a write
outside the array. -/
def run (t : TriggerDataBDXmini) : FlagCall → Option TriggerDataBDXmini
  | .setChannel ich => t.setChannel ich
  | .unsetChannel ich => t.unsetChannel ich
  | .setChannelTRG ich => t.setChannelTRG ich
  | .unsetChannelTRG ich => t.unsetChannelTRG ich

end FlagCall

/-! ## §2. Flags that are a set. -/

/-- What the last call on a channel wrote, or what was there before all the calls. -/
def lastFlag (t : TriggerDataBDXmini) (calls : List FlagCall) (array : FlagArray)
    (k : Fin nChansMAX) : Bool :=
  ((lastWrite FlagCall.place calls (array, (k : Int))).map FlagCall.value).getD (t.flags array k)

/-- The object `t'` after the calls on `t`, asked for the index `i`, is a set of
channels: each flag is what was written to it last, and nothing else has changed. -/
structure FlagsAre (t : TriggerDataBDXmini) (calls : List FlagCall) (i : Int)
    (t' : TriggerDataBDXmini) : Prop where
  others : t'.rawWords = t.rawWords ∧ t'.nTriggers = t.nTriggers ∧ t'.trgTimes = t.trgTimes
  has : ∀ k : Fin nChansMAX, i = k → t'.hasChannel i = some (lastFlag t calls .channels k)
  hasTRG : ∀ k : Fin nChansMAX, i = k →
    t'.hasChannelTRG i = some (lastFlag t calls .channelsTRG k)
  outside : i < 0 ∨ nChansMAX ≤ i → t'.hasChannel i = some false ∧ t'.hasChannelTRG i = some false
  mask : ∀ k : Fin nChansMAX, t'.hasChannel k = some (t'.getLongWordChannels.toNat.testBit k)
  maskTRG : ∀ k : Fin nChansMAX,
    t'.hasChannelTRG k = some (t'.getLongWordChannelsTRG.toNat.testBit k)

/-- **The flags behave as a set**: a call out of range changes nothing, and the
object after the calls has what the last call on each channel wrote. -/
structure BehavesAsSet (t : TriggerDataBDXmini) (calls : List FlagCall) (i : Int) : Prop where
  ignored : ∀ call ∈ calls, call.ich < 0 ∨ nChansMAX ≤ call.ich → ∀ s, call.run s = some s
  flags : ∃ t', execAll FlagCall.run t calls = some t' ∧ FlagsAre t calls i t'

/-! ## §3. One call. -/

/-- An index that the check refuses changes no flag. -/
theorem putFlag_outside {ich : Int} (h : ich < 0 ∨ nChansMAX < ich) (value : Bool)
    (flags : Fin nChansMAX → Bool) : putFlag value flags ich = some flags := by
  unfold putFlag
  exact if_pos h

/-- The index of a channel changes the flag of this channel and no other. -/
theorem putFlag_inside (k : Fin nChansMAX) (value : Bool) (flags : Fin nChansMAX → Bool) :
    putFlag value flags k = some (Function.update flags k value) := by
  have hk := k.isLt
  unfold putFlag
  rw [if_neg (by omega), dif_pos (show (k : Int).toNat < nChansMAX from hk)]
  rfl

/-- The index that the check lets through although the array has no place for it:
the write is outside. -/
theorem putFlag_bound (value : Bool) (flags : Fin nChansMAX → Bool) :
    putFlag value flags nChansMAX = none := rfl

/-- To an index that the check refuses the answer is no. -/
theorem readFlag_outside {ich : Int} (h : ich < 0 ∨ nChansMAX < ich)
    (flags : Fin nChansMAX → Bool) : readFlag flags ich = some false := by
  unfold readFlag
  exact if_pos h

/-- To the index of a channel the answer is its flag. -/
theorem readFlag_inside (k : Fin nChansMAX) (flags : Fin nChansMAX → Bool) :
    readFlag flags k = some (flags k) := by
  have hk := k.isLt
  unfold readFlag
  rw [if_neg (by omega), dif_pos (show (k : Int).toNat < nChansMAX from hk)]
  rfl

/-- The index that the check of the writes lets through is read outside of the
array as well. -/
theorem readFlag_bound (flags : Fin nChansMAX → Bool) : readFlag flags nChansMAX = none := rfl

/-- Every index is that of a channel, or refused, or the one right behind the
array: the three cases of the methods. -/
theorem index_cases (ich : Int) :
    (∃ k : Fin nChansMAX, ich = k) ∨ (ich < 0 ∨ nChansMAX < ich) ∨ ich = nChansMAX := by
  by_cases hin : 0 ≤ ich ∧ ich < nChansMAX
  · refine Or.inl ⟨⟨ich.toNat, by omega⟩, ?_⟩
    show ich = (ich.toNat : Int)
    omega
  · by_cases hbound : ich = nChansMAX
    · exact Or.inr (Or.inr hbound)
    · exact Or.inr (Or.inl (by omega))

namespace FlagCall

/-- **The four methods are one**: on their array, with their value. -/
theorem run_eq (call : FlagCall) (t : TriggerDataBDXmini) :
    call.run t
      = (putFlag call.value (t.flags call.array) call.ich).map fun flags =>
          t.withFlags flags call.array := by
  cases call with
  | setChannel ich => rfl
  | unsetChannel ich => rfl
  | setChannelTRG ich => rfl
  | unsetChannelTRG ich => rfl

/-- To put back the array that an object has changes nothing. -/
theorem withFlags_self (t : TriggerDataBDXmini) (array : FlagArray) :
    t.withFlags (t.flags array) array = t := by
  cases array with
  | channels => rfl
  | channelsTRG => rfl

/-- A call that is refused leaves the object as it is. -/
theorem run_outside {call : FlagCall} (h : call.ich < 0 ∨ nChansMAX < call.ich)
    (t : TriggerDataBDXmini) : call.run t = some t := by
  rw [run_eq, putFlag_outside h, Option.map_some, withFlags_self]

/-- A call with the index right behind the array has no defined result. -/
theorem run_bound {call : FlagCall} (h : call.ich = nChansMAX) (t : TriggerDataBDXmini) :
    call.run t = none := by
  rw [run_eq, h, putFlag_bound]
  rfl

/-- What a call does to an object: it writes the flag at its place, if there is
one, and leaves all other flags and members alone. -/
structure Writes (call : FlagCall) (t t' : TriggerDataBDXmini) : Prop where
  others : t'.rawWords = t.rawWords ∧ t'.nTriggers = t.nTriggers ∧ t'.trgTimes = t.trgTimes
  flags : ∀ array k, t'.flags array k
    = if call.place = (array, ((k : Fin nChansMAX) : Int)) then call.value else t.flags array k

/-- A refused call writes no flag, as its index is none of a channel. -/
theorem writes_outside {call : FlagCall} (h : call.ich < 0 ∨ nChansMAX < call.ich)
    (t : TriggerDataBDXmini) : call.Writes t t := by
  refine ⟨⟨rfl, rfl, rfl⟩, fun array k => ?_⟩
  have hk := k.isLt
  rw [if_neg]
  intro hplace
  have hich : call.ich = (k : Int) := congrArg Prod.snd hplace
  omega

/-- The arrays of an object of which one has been replaced: the new one, and the
other as it was. -/
theorem withFlags_flags (t : TriggerDataBDXmini) (flags : Fin nChansMAX → Bool)
    (array array' : FlagArray) :
    (t.withFlags flags array).flags array' = if array = array' then flags else t.flags array' := by
  cases array <;> cases array' <;> rfl

/-- The words, the counters and the times of the triggers do not change with the
flags. -/
theorem withFlags_others (t : TriggerDataBDXmini) (flags : Fin nChansMAX → Bool)
    (array : FlagArray) :
    (t.withFlags flags array).rawWords = t.rawWords
      ∧ (t.withFlags flags array).nTriggers = t.nTriggers
      ∧ (t.withFlags flags array).trgTimes = t.trgTimes := by
  cases array with
  | channels => exact ⟨rfl, rfl, rfl⟩
  | channelsTRG => exact ⟨rfl, rfl, rfl⟩

/-- An accepted call writes the flag of its channel in its array. -/
theorem writes_inside {call : FlagCall} {k : Fin nChansMAX} (hich : call.ich = k)
    (t : TriggerDataBDXmini) :
    call.Writes t (t.withFlags (Function.update (t.flags call.array) k call.value) call.array) := by
  refine ⟨withFlags_others t _ _, fun array j => ?_⟩
  rw [withFlags_flags]
  by_cases harray : call.array = array
  · rw [if_pos harray]
    by_cases hj : j = k
    -- the flag that is written
    · rw [hj, Function.update_self, if_pos]
      show (call.array, call.ich) = _
      rw [harray, hich]
    · rw [Function.update_of_ne hj, if_neg, harray]
      intro hplace
      have hsame : call.ich = (j : Int) := congrArg Prod.snd hplace
      exact hj (Fin.ext (by omega))
  -- the other array
  · rw [if_neg harray, if_neg]
    intro hplace
    exact harray (congrArg Prod.fst hplace)

/-- **One call** with any index but the one right behind the array returns, and
writes its flag only. -/
theorem run_writes {call : FlagCall} (h : call.ich ≠ nChansMAX) (t : TriggerDataBDXmini) :
    ∃ t', call.run t = some t' ∧ call.Writes t t' := by
  obtain ⟨k, hk⟩ | hout | hbound := index_cases call.ich
  · refine ⟨_, ?_, writes_inside hk t⟩
    rw [run_eq, hk, putFlag_inside]
    rfl
  · exact ⟨t, run_outside hout t, writes_outside hout t⟩
  · exact absurd hbound h

end FlagCall

/-! ## §4. The calls one after the other. -/

/-- **The calls** leave on each channel what the last of them wrote there, and the
other members as they were. -/
theorem execAll_flags {calls : List FlagCall} (h : ∀ call ∈ calls, call.ich ≠ nChansMAX)
    (t : TriggerDataBDXmini) :
    ∃ t', execAll FlagCall.run t calls = some t'
      ∧ (t'.rawWords = t.rawWords ∧ t'.nTriggers = t.nTriggers ∧ t'.trgTimes = t.trgTimes)
      ∧ ∀ array k, t'.flags array k = lastFlag t calls array k := by
  induction calls generalizing t with
  | nil => exact ⟨t, rfl, ⟨rfl, rfl, rfl⟩, fun array k => rfl⟩
  | cons call calls ih =>
      rw [List.forall_mem_cons] at h
      obtain ⟨s, hs, hwrites⟩ := FlagCall.run_writes h.1 t
      obtain ⟨t', hrun, hothers, hflags⟩ := ih h.2 s
      refine ⟨t', execAll_cons_eq_some.mpr ⟨s, hs, hrun⟩, ?_, fun array k => ?_⟩
      · rw [hothers.1, hothers.2.1, hothers.2.2]
        exact hwrites.others
      · rw [hflags]
        unfold lastFlag
        rw [lastWrite_cons_getD, hwrites.flags]

/-- A bit of the long word is the flag of its channel, as the loop over the
channels has put it there. -/
theorem testBit_longWord (flags : Fin nChansMAX → Bool) (k : Fin nChansMAX) :
    (TriggerDataBDXmini.longWord flags).toNat.testBit k = flags k :=
  testBit_word_of_flags flags k

/-- An object whose flags are those last written answers as the claimed set does,
to every question but the one behind the array. -/
theorem flagsAre {t t' : TriggerDataBDXmini} {calls : List FlagCall} {i : Int}
    (hi : i ≠ nChansMAX)
    (hothers : t'.rawWords = t.rawWords ∧ t'.nTriggers = t.nTriggers ∧ t'.trgTimes = t.trgTimes)
    (hflags : ∀ array k, t'.flags array k = lastFlag t calls array k) :
    FlagsAre t calls i t' := by
  have hread : ∀ array (k : Fin nChansMAX), i = k →
      readFlag (t'.flags array) i = some (lastFlag t calls array k) := by
    intro array k hk
    rw [hk, readFlag_inside, hflags]
  have houtside : i < 0 ∨ nChansMAX ≤ i → ∀ array, readFlag (t'.flags array) i = some false := by
    intro hout array
    exact readFlag_outside (by omega) _
  have hmask : ∀ array (k : Fin nChansMAX), readFlag (t'.flags array) k
      = some ((TriggerDataBDXmini.longWord (t'.flags array)).toNat.testBit k) := by
    intro array k
    rw [readFlag_inside, testBit_longWord]
  exact
    { others := hothers
      has := hread .channels
      hasTRG := hread .channelsTRG
      outside := fun hout => ⟨houtside hout .channels, houtside hout .channelsTRG⟩
      mask := hmask .channels
      maskTRG := hmask .channelsTRG }

/-- **The flags behave as a set** exactly when neither a call nor the question
uses the index behind the array. -/
theorem flags_behave_iff (t : TriggerDataBDXmini) (calls : List FlagCall) (i : Int) :
    BehavesAsSet t calls i ↔ (∀ call ∈ calls, call.ich ≠ nChansMAX) ∧ i ≠ nChansMAX := by
  constructor
  · rintro ⟨hignored, t', -, hare⟩
    refine ⟨fun call hmem hbound => ?_, fun hbound => ?_⟩
    · have hsame := hignored call hmem (Or.inr (by omega)) t
      rw [FlagCall.run_bound hbound] at hsame
      cases hsame
    · have hfalse : readFlag t'.channels i = some false := (hare.outside (Or.inr (by omega))).1
      rw [hbound, readFlag_bound] at hfalse
      cases hfalse
  · rintro ⟨hcalls, hi⟩
    obtain ⟨t', hrun, hothers, hflags⟩ := execAll_flags hcalls t
    refine ⟨fun call hmem hout s => ?_, t', hrun, flagsAre hi hothers hflags⟩
    have hne := hcalls call hmem
    exact FlagCall.run_outside (by omega) s

/-- One call with the index right behind the array is enough: `setChannel(64)`
passes the check. -/
theorem set_behind_the_array : ¬ BehavesAsSet .new [.setChannel 64] 0 := by
  rintro ⟨-, t', hrun, -⟩
  cases hrun

end PokerReco.BDXmini
