/-
  PokerReco.BDXmini.TriggerDataBDXmini
  ────────────────────────────────────
  **THE TRIGGER BANK OF BDX-MINI**
  (`BDXmini/triggerDataBDXmini.cc`, `triggerDataBDXmini_factory.cc`).

  The words of an event are pairs, each with a trigger word and a time, up to
  a pair of magic words, and then blocks of four words, each with a 64-bit
  mask of channels and a signed 64-bit time.  `evnt` spreads the bits of both
  into tables; the accessors of the object put the masks together again.

      encode                the words of a list of pairs and a list of blocks
      evnt_decodes_encode   `evnt` and the accessors undo it, and read no word
                            beyond the end whatever the words are
-/
import Mathlib.Algebra.BigOperators.Group.List.Basic
import PokerReco.DAQ.EventData
import PokerReco.JANA.Basic
import PokerReco.Library.IndexLoop

namespace PokerReco.BDXmini

open PokerReco.DAQ PokerReco.JANA PokerReco.Library

/-! ## §1. The object. -/

/-- `nTriggersMAX`: the number of trigger bits. -/
abbrev nTriggersMAX : Nat := 32

/-- `nChansMAX`: the number of channels that have a flag. -/
abbrev nChansMAX : Nat := 64

/-- `triggerDataBDXmini`: the raw words of an event, its triggers with their
times, and the flags of the channels. -/
@[ext]
structure TriggerDataBDXmini where
  rawWords : List UInt32
  nTriggers : Nat
  trgTimes : Fin nTriggersMAX → List Int32
  channels : Fin nChansMAX → Bool
  channelsTRG : Fin nChansMAX → Bool

namespace TriggerDataBDXmini

/-- The constructor: no trigger, no time and no flag. -/
def new : TriggerDataBDXmini where
  rawWords := []
  nTriggers := 0
  trgTimes _ := []
  channels _ := false
  channelsTRG _ := false

/-- `getNTriggers`: how many triggers there were, over all bits. -/
def getNTriggers (t : TriggerDataBDXmini) : Nat := t.nTriggers

/-- `setNTriggers`: the factory hands over its own count. -/
def setNTriggers (t : TriggerDataBDXmini) (n : Nat) : TriggerDataBDXmini :=
  { t with nTriggers := n }

/-- `getNtriggers_single`: how many triggers of one bit there were; 0 for a bit
out of range. -/
def getNtriggers_single (t : TriggerDataBDXmini) (itrg : Int) : Nat :=
  if h : itrg < 0 ∨ itrg ≥ nTriggersMAX then 0
  else (t.trgTimes ⟨itrg.toNat, by omega⟩).length

/-- `addTriggerTime_single`: one time more for one bit; nothing for a bit out of
range. -/
def addTriggerTime_single (t : TriggerDataBDXmini) (itrg : Int) (data : Int32) :
    TriggerDataBDXmini :=
  if h : itrg < 0 ∨ itrg ≥ nTriggersMAX then t
  else
    let itrg : Fin nTriggersMAX := ⟨itrg.toNat, by omega⟩
    { t with trgTimes := Function.update t.trgTimes itrg (t.trgTimes itrg ++ [data]) }

/-- The check of the methods that take a channel lets `nChansMAX` through:
`none` for the write behind the array. -/
def setFlag (flags : Fin nChansMAX → Bool) (ich : Int) : Option (Fin nChansMAX → Bool) :=
  if ich < 0 ∨ ich > nChansMAX then some flags
  else if h : ich.toNat < nChansMAX then some (Function.update flags ⟨ich.toNat, h⟩ true)
  else none

/-- `setChannel`: sets the flag of one channel. -/
def setChannel (t : TriggerDataBDXmini) (ich : Int) : Option TriggerDataBDXmini :=
  (setFlag t.channels ich).map fun flags => { t with channels := flags }

/-- `setChannelTRG`: sets the flag of one channel of the trigger. -/
def setChannelTRG (t : TriggerDataBDXmini) (ich : Int) : Option TriggerDataBDXmini :=
  (setFlag t.channelsTRG ich).map fun flags => { t with channelsTRG := flags }

/-- The word whose bits are the flags: channel `k` is bit `k`. -/
def longWord (flags : Fin nChansMAX → Bool) : UInt64 :=
  (List.finRange nChansMAX).foldl
    (fun ret ii => if flags ii = true then ret ||| (1 <<< UInt64.ofNat ii) else ret) 0

/-- `getLongWordChannels`: the flags of the event as one word. -/
def getLongWordChannels (t : TriggerDataBDXmini) : UInt64 := longWord t.channels

/-- `getLongWordChannelsTRG`: the flags of the trigger as one word. -/
def getLongWordChannelsTRG (t : TriggerDataBDXmini) : UInt64 := longWord t.channelsTRG

end TriggerDataBDXmini

/-! ## §2. The factory. -/

/-- `MAGIC_TRG_WORD`: two of them in a row end the first part of the event. -/
def MAGIC_TRG_WORD : UInt32 := 0xabcdabcd

/-- `triggerDataBDXmini_factory`; `m_isMC` is read as a condition only. -/
structure Factory where
  m_isMC : Bool
  m_chanTimeMin : Int32
  m_chanTimeMax : Int32

/-- `init`, with the defaults of its two parameters. -/
def Factory.init (m_isMC : Bool) : Factory := ⟨m_isMC, -4 * 4, 4 * 4⟩

/-- The variables of the first loop: a count over all bits, and for each bit a
count and its times. -/
structure Triggers where
  nTriggers : Nat
  nTriggerSingles : Fin nTriggersMAX → Nat
  trgTimes : Fin nTriggersMAX → List Int32

namespace Triggers

/-- The tables before the first pair. -/
def zero : Triggers := ⟨0, fun _ => 0, fun _ => []⟩

/-- A turn of the loop over the bits of `word1`: a bit that is set takes the time
in `word2`. -/
def turn (word1 word2 : UInt32) (s : Triggers) (kk : Fin nTriggersMAX) : Triggers :=
  if (word1 >>> UInt32.ofNat kk) &&& 1 ≠ 0 then
    { nTriggers := s.nTriggers + 1
      nTriggerSingles := Function.update s.nTriggerSingles kk (s.nTriggerSingles kk + 1)
      trgTimes := Function.update s.trgTimes kk (s.trgTimes kk ++ [word2.toInt32]) }
  else s

/-- What the loop over the bits makes of one pair of words. -/
def pair (s : Triggers) (word1 word2 : UInt32) : Triggers :=
  (List.finRange nTriggersMAX).foldl (turn word1 word2) s

end Triggers

/-- The loop over the pairs, `n` of them ahead: where `ii` stops, and the
tables.  `none` when a word is read that is not there. -/
def pairLoop (words : List UInt32) : Nat → Nat → Triggers → Option (Nat × Triggers)
  | 0, ii, s => some (ii, s)
  | n + 1, ii, s =>
      match words[ii * 2]?, words[ii * 2 + 1]? with
      | some word1, some word2 =>
          if word1 = MAGIC_TRG_WORD ∧ word2 = MAGIC_TRG_WORD then some (ii, s)
          else pairLoop words n (ii + 1) (s.pair word1 word2)
      | _, _ => none

/-- The variables of the second loop: the channels that were hit at all, and those
hit in the trigger window. -/
structure Channels where
  channels : Fin nChansMAX → Bool
  channelsTRG : Fin nChansMAX → Bool

namespace Channels

/-- The tables before the first block. -/
def zero : Channels := ⟨fun _ => false, fun _ => false⟩

/-- A turn of the loop over the bits of `chanMask`; the trigger window decides
whether the second flag is set too. -/
def turn (f : Factory) (chanMask : UInt64) (chanTime : Int64) (c : Channels)
    (kk : Fin nChansMAX) : Channels :=
  if chanMask &&& (1 <<< UInt64.ofNat kk) ≠ 0 then
    { channels := Function.update c.channels kk true
      channelsTRG :=
        if chanTime.toInt ≥ f.m_chanTimeMin.toInt ∧ chanTime.toInt ≤ f.m_chanTimeMax.toInt then
          Function.update c.channelsTRG kk true
        else c.channelsTRG }
  else c

/-- What the loop over the channels makes of the four words of a block. -/
def block (f : Factory) (c : Channels) (word1 word2 word3 word4 : UInt32) : Channels :=
  let chanTime := ((word4.toUInt64 <<< 32) + word3.toUInt64).toInt64
  let chanMask := (word2.toUInt64 <<< 32) + word1.toUInt64
  (List.finRange nChansMAX).foldl (turn f chanMask chanTime) c

end Channels

/-- The loop over the blocks behind the word `base`, `n` of them ahead. -/
def blockLoop (f : Factory) (words : List UInt32) (base : Nat) :
    Nat → Nat → Channels → Option Channels
  | 0, _, c => some c
  | n + 1, jj, c =>
      match words[base + jj * 4]?, words[base + jj * 4 + 1]?, words[base + jj * 4 + 2]?,
          words[base + jj * 4 + 3]? with
      | some word1, some word2, some word3, some word4 =>
          blockLoop f words base n (jj + 1) (c.block f word1 word2 word3 word4)
      | _, _, _, _ => none

/-- A turn of the loop that hands over the times. -/
def fillTimes (s : Triggers) (t : TriggerDataBDXmini) (ii : Fin nTriggersMAX) :
    Option TriggerDataBDXmini :=
  (List.range (s.nTriggerSingles ii)).foldlM
    (fun t kk => (s.trgTimes ii)[kk]?.map (TriggerDataBDXmini.addTriggerTime_single t ii ·)) t

/-- A turn of the loop that hands over the flags. -/
def fillFlags (c : Channels) (t : TriggerDataBDXmini) (ii : Fin nChansMAX) :
    Option TriggerDataBDXmini :=
  (if c.channels ii then t.setChannel ii else some t).bind fun t =>
    if c.channelsTRG ii then t.setChannelTRG ii else some t

/-- The statements that fill the object from the tables. -/
def publish (words : List UInt32) (s : Triggers) (c : Channels) : Option TriggerDataBDXmini :=
  let t := { TriggerDataBDXmini.new with rawWords := words }.setNTriggers s.nTriggers
  ((List.finRange nTriggersMAX).foldlM (fillTimes s) t).bind fun t =>
    (List.finRange nChansMAX).foldlM (fillFlags c) t

/-- `evnt` for an event that is not an EPICS event. -/
def Factory.decode (f : Factory) (words : List UInt32) : Option TriggerDataBDXmini :=
  match pairLoop words (words.length / 2) 0 .zero with
  | none => none
  | some (ii, s) =>
      let ii := ii + 1
      -- negative when the loop came to its end; the division rounds it to 0
      let nwords := Int.tdiv ((words.length : Int) - ii * 2) 4
      match blockLoop f words (ii * 2) nwords.toNat 0 .zero with
      | none => none
      | some c => publish words s c

/-- `evnt`: the value it returns and the contents of `_data`. -/
def Factory.evnt (f : Factory) (tData : Option EventData) :
    Option (JError × List TriggerDataBDXmini) :=
  if f.m_isMC then some (.NOERROR, [])
  else
    match tData with
    | none => some (.OBJECT_NOT_AVAILABLE, [])
    | some tData =>
        if tData.eventType = .EPICS then some (.NOERROR, [])
        else (f.decode tData.triggerWords).map fun t => (.NOERROR, [t])

/-! ## §3. The words of an event. -/

/-- A block of the second part: two words of a mask of channels and two words of a
time. -/
structure Block where
  maskLow : UInt32
  maskHigh : UInt32
  timeLow : UInt32
  timeHigh : UInt32
  deriving DecidableEq, Repr

namespace Block

/-- The channels of the block, as the number whose bits they are. -/
def mask (b : Block) : UInt64 := .ofNat (b.maskHigh.toNat * 2 ^ 32 + b.maskLow.toNat)

/-- The time of the block, as a signed 64-bit number. -/
def time (b : Block) : Int :=
  let n : Int := b.timeHigh.toNat * 2 ^ 32 + b.timeLow.toNat
  if n < 2 ^ 63 then n else n - 2 ^ 64

/-- The four words of a block, in the order in which they are written: the low
word of each number comes first. -/
def words (b : Block) : List UInt32 := [b.maskLow, b.maskHigh, b.timeLow, b.timeHigh]

end Block

/-- The two words of a pair: the triggers and their time. -/
def pairWords (p : UInt32 × UInt32) : List UInt32 := [p.1, p.2]

/-- The words: the pairs, the magic pair, the blocks, and what is left over. -/
def encode (pairs : List (UInt32 × UInt32)) (blocks : List Block) (rest : List UInt32) :
    List UInt32 :=
  pairs.flatMap pairWords ++ [MAGIC_TRG_WORD, MAGIC_TRG_WORD]
    ++ (blocks.flatMap Block.words ++ rest)

/-- The trigger bit `k` of a pair is set: one of its triggers is the `k`-th. -/
def hasTrigger (k : Fin nTriggersMAX) (p : UInt32 × UInt32) : Bool := p.1.toNat.testBit k

/-- The time of the block is in the trigger window, whose bounds are parameters of
the factory. -/
def Factory.inWindow (f : Factory) (b : Block) : Bool :=
  decide (f.m_chanTimeMin.toInt ≤ b.time ∧ b.time ≤ f.m_chanTimeMax.toInt)

/-- The masks of blocks, or-ed together: the channels that were hit at all. -/
def orMasks (blocks : List Block) : UInt64 := blocks.foldl (fun ret b => ret ||| b.mask) 0

/-- There is no pair of magic words, at no even place: the first part of the event
has no end. -/
def NoMagic (words : List UInt32) : Prop :=
  ∀ i, words[i * 2]? = some MAGIC_TRG_WORD → words[i * 2 + 1]? ≠ some MAGIC_TRG_WORD

/-- The two words of a mask or of a time, put together. -/
theorem toNat_word64 (hi lo : UInt32) :
    ((hi.toUInt64 <<< 32) + lo.toUInt64).toNat = hi.toNat * 2 ^ 32 + lo.toNat := by
  have h1 := hi.toNat_lt
  have h2 := lo.toNat_lt
  have h32 : (32 : UInt64).toNat % 64 = 32 := rfl
  rw [UInt64.toNat_add, UInt64.toNat_shiftLeft, UInt32.toNat_toUInt64, UInt32.toNat_toUInt64, h32,
    Nat.shiftLeft_eq]
  omega

/-- The mask that the program puts together from two words is that of the block. -/
theorem mask_eq (b : Block) :
    (b.maskHigh.toUInt64 <<< 32) + b.maskLow.toUInt64 = b.mask := by
  have h1 := b.maskHigh.toNat_lt
  have h2 := b.maskLow.toNat_lt
  have hlt : b.maskHigh.toNat * 2 ^ 32 + b.maskLow.toNat < 2 ^ 64 := by omega
  refine UInt64.toNat_inj.mp ?_
  exact (toNat_word64 _ _).trans (UInt64.toNat_ofNat_of_lt' hlt).symm

/-- A word of 64 bits read as a signed number: from half of the range on it is
negative. -/
theorem toInt_word64 (w : UInt64) :
    w.toInt64.toInt
      = if 2 * w.toNat < 2 ^ 64 then (w.toNat : Int) else (w.toNat : Int) - 2 ^ 64 := by
  exact BitVec.toInt_eq_toNat_cond w.toBitVec

/-- The time that the program puts together from two words, and reads as signed,
is that of the block. -/
theorem time_eq (b : Block) :
    ((b.timeHigh.toUInt64 <<< 32) + b.timeLow.toUInt64).toInt64.toInt = b.time := by
  have h1 := b.timeHigh.toNat_lt
  have h2 := b.timeLow.toNat_lt
  rw [toInt_word64, toNat_word64]
  unfold Block.time
  generalize b.timeHigh.toNat = hi at *
  generalize b.timeLow.toNat = lo at *
  dsimp only
  split <;> split <;> omega

/-! ## §4. The loops. -/

/-- What one pair leaves in the tables: its time goes to the list of each trigger
it has. -/
theorem pair_trgTimes (s : Triggers) (p : UInt32 × UInt32) (k : Fin nTriggersMAX) :
    (s.pair p.1 p.2).trgTimes k
      = s.trgTimes k ++ if hasTrigger k p then [p.2.toInt32] else [] := by
  refine (foldl_finRange Triggers.trgTimes _
    (fun k times => times ++ if hasTrigger k p then [p.2.toInt32] else []) ?_ ?_ s k)
  · intro s k
    unfold Triggers.turn hasTrigger
    by_cases hk : p.1.toNat.testBit k = true
    · rw [if_pos ((shiftRight_and_one p.1 k).mpr hk), if_pos hk]
      exact Function.update_self ..
    · rw [if_neg (mt (shiftRight_and_one p.1 k).mp hk), if_neg hk, List.append_nil]
  · intro s k j hj
    unfold Triggers.turn
    split
    · exact Function.update_of_ne hj ..
    · rfl

/-- One pair counts one for each trigger it has. -/
theorem pair_singles (s : Triggers) (p : UInt32 × UInt32) (k : Fin nTriggersMAX) :
    (s.pair p.1 p.2).nTriggerSingles k
      = s.nTriggerSingles k + if hasTrigger k p then 1 else 0 := by
  refine (foldl_finRange Triggers.nTriggerSingles _
    (fun k n => n + if hasTrigger k p then 1 else 0) ?_ ?_ s k)
  · intro s k
    unfold Triggers.turn hasTrigger
    by_cases hk : p.1.toNat.testBit k = true
    · rw [if_pos ((shiftRight_and_one p.1 k).mpr hk), if_pos hk]
      exact Function.update_self ..
    · rw [if_neg (mt (shiftRight_and_one p.1 k).mp hk), if_neg hk, Nat.add_zero]
  · intro s k j hj
    unfold Triggers.turn
    split
    · exact Function.update_of_ne hj ..
    · rfl

/-- In the count over all bits a pair counts as many as it has triggers. -/
theorem pair_nTriggers (s : Triggers) (p : UInt32 × UInt32) :
    (s.pair p.1 p.2).nTriggers
      = s.nTriggers + (List.finRange nTriggersMAX).countP (hasTrigger · p) := by
  refine foldl_count Triggers.nTriggers _ _ (fun s k => ?_) _ s
  unfold Triggers.turn hasTrigger
  by_cases hk : p.1.toNat.testBit k = true
  · rw [if_pos ((shiftRight_and_one p.1 k).mpr hk), if_pos hk]
  · rw [if_neg (mt (shiftRight_and_one p.1 k).mp hk), if_neg hk]
    rfl

/-- The tables after the pairs, by the same turns in the same order. -/
def afterPairs (s : Triggers) (pairs : List (UInt32 × UInt32)) : Triggers :=
  pairs.foldl (fun s p => s.pair p.1 p.2) s

/-- After the pairs the list of a trigger has the times of the pairs with this
trigger, in their order. -/
theorem afterPairs_trgTimes (pairs : List (UInt32 × UInt32)) (s : Triggers)
    (k : Fin nTriggersMAX) :
    (afterPairs s pairs).trgTimes k
      = s.trgTimes k ++ (pairs.filter (hasTrigger k)).map fun p => p.2.toInt32 := by
  induction pairs generalizing s with
  | nil => exact (List.append_nil _).symm
  | cons p pairs ih =>
      show (afterPairs (s.pair p.1 p.2) pairs).trgTimes k = _
      rw [ih, pair_trgTimes]
      by_cases hk : hasTrigger k p = true
      · rw [if_pos hk, List.filter_cons_of_pos hk, List.append_assoc]
        rfl
      · rw [if_neg hk, List.filter_cons_of_neg hk, List.append_nil]

/-- After the pairs the count over all bits is the number of triggers of all of
them. -/
theorem afterPairs_nTriggers (pairs : List (UInt32 × UInt32)) (s : Triggers) :
    (afterPairs s pairs).nTriggers = s.nTriggers
      + (pairs.map fun p => (List.finRange nTriggersMAX).countP (hasTrigger · p)).sum := by
  induction pairs generalizing s with
  | nil => rfl
  | cons p pairs ih =>
      show (afterPairs (s.pair p.1 p.2) pairs).nTriggers = _
      rw [ih, pair_nTriggers, List.map_cons, List.sum_cons, Nat.add_assoc]

/-- Each counter of a trigger is the length of its list of times: the invariant
that lets the times be handed over by count. -/
def Triggers.Counted (s : Triggers) : Prop := ∀ k, s.nTriggerSingles k = (s.trgTimes k).length

/-- One pair keeps counters and lists together, as it adds to both or to none. -/
theorem Triggers.Counted.pair {s : Triggers} (h : s.Counted) (word1 word2 : UInt32) :
    (s.pair word1 word2).Counted := by
  intro k
  rw [pair_singles s (word1, word2) k, pair_trgTimes s (word1, word2) k, h k, List.length_append]
  split <;> rfl

/-- After any number of pairs each counter is still the length of its list. -/
theorem Triggers.Counted.afterPairs {s : Triggers} (h : s.Counted)
    (pairs : List (UInt32 × UInt32)) : (BDXmini.afterPairs s pairs).Counted := by
  induction pairs generalizing s with
  | nil => exact h
  | cons p pairs ih => exact ih (h.pair p.1 p.2)

/-- A word behind `before`, which is how the loops find the words of a later pair
or block. -/
theorem getElem?_behind (before tail : List UInt32) (n i : Nat) (hn : before.length = n) :
    (before ++ tail)[n + i]? = tail[i]? := by
  rw [List.getElem?_append_right (by omega), hn, Nat.add_sub_cancel_left]

/-- The pairs are two words each. -/
theorem length_pairs (pairs : List (UInt32 × UInt32)) :
    (pairs.flatMap pairWords).length = 2 * pairs.length := by
  induction pairs with
  | nil => rfl
  | cons p pairs ih =>
      rw [List.flatMap_cons, List.length_append, ih, List.length_cons]
      show 2 + _ = _
      omega

/-- The blocks are four words each. -/
theorem length_blocks (blocks : List Block) :
    (blocks.flatMap Block.words).length = 4 * blocks.length := by
  induction blocks with
  | nil => rfl
  | cons b blocks ih =>
      rw [List.flatMap_cons, List.length_append, ih, List.length_cons]
      show 4 + _ = _
      omega

/-- A pair that has been read is before the others. -/
theorem append_pair (before tail : List UInt32) (p : UInt32 × UInt32)
    (pairs : List (UInt32 × UInt32)) :
    before ++ ((p :: pairs).flatMap pairWords ++ tail)
      = (before ++ pairWords p) ++ (pairs.flatMap pairWords ++ tail) := by
  rw [List.flatMap_cons, List.append_assoc, List.append_assoc]

/-- A block that has been read is before the others. -/
theorem append_block (before rest : List UInt32) (b : Block) (blocks : List Block) :
    before ++ ((b :: blocks).flatMap Block.words ++ rest)
      = (before ++ b.words) ++ (blocks.flatMap Block.words ++ rest) := by
  rw [List.flatMap_cons, List.append_assoc, List.append_assoc]

/-- The first loop takes in all the pairs and stops at the first magic pair. -/
theorem pairLoop_pairs (tail : List UInt32) (pairs : List (UInt32 × UInt32))
    (hpairs : ∀ p ∈ pairs, p ≠ (MAGIC_TRG_WORD, MAGIC_TRG_WORD)) (before : List UInt32) (n ii : Nat)
    (hbefore : before.length = ii * 2) (hn : pairs.length < n) (s : Triggers) :
    pairLoop (before ++ (pairs.flatMap pairWords ++ MAGIC_TRG_WORD :: MAGIC_TRG_WORD :: tail))
        n ii s
      = some (ii + pairs.length, afterPairs s pairs) := by
  induction pairs generalizing before n ii s with
  | nil =>
      obtain ⟨n, rfl⟩ : ∃ m, n = m + 1 := ⟨n - 1, by simp at hn; omega⟩
      unfold pairLoop
      have h1 := getElem?_behind before (MAGIC_TRG_WORD :: MAGIC_TRG_WORD :: tail) _ 0 hbefore
      have h2 := getElem?_behind before (MAGIC_TRG_WORD :: MAGIC_TRG_WORD :: tail) _ 1 hbefore
      rw [List.flatMap_nil, List.nil_append, show ii * 2 = ii * 2 + 0 from rfl, h1, h2]
      rfl
  | cons p pairs ih =>
      rw [List.length_cons] at hn
      obtain ⟨n, rfl⟩ : ∃ m, n = m + 1 := ⟨n - 1, by omega⟩
      have hp : ¬ (p.1 = MAGIC_TRG_WORD ∧ p.2 = MAGIC_TRG_WORD) := fun h =>
        hpairs p List.mem_cons_self (Prod.ext h.1 h.2)
      have hrest := ih (fun q hq => hpairs q (List.mem_cons_of_mem _ hq))
        (before ++ pairWords p) n (ii + 1) (by simp [hbefore, pairWords]; omega) (by omega)
        (s.pair p.1 p.2)
      have h1 := getElem?_behind before ((p :: pairs).flatMap pairWords
        ++ MAGIC_TRG_WORD :: MAGIC_TRG_WORD :: tail) _ 0 hbefore
      have h2 := getElem?_behind before ((p :: pairs).flatMap pairWords
        ++ MAGIC_TRG_WORD :: MAGIC_TRG_WORD :: tail) _ 1 hbefore
      unfold pairLoop
      rw [show ii * 2 = ii * 2 + 0 from rfl, h1, h2]
      show (if p.1 = MAGIC_TRG_WORD ∧ p.2 = MAGIC_TRG_WORD then _ else _) = _
      rw [if_neg hp, append_pair, hrest, List.length_cons]
      show some (ii + 1 + pairs.length, _) = some (ii + (pairs.length + 1), _)
      rw [show ii + 1 + pairs.length = ii + (pairs.length + 1) by omega]
      rfl

/-- A turn sets the flag of its channel when the mask has its bit. -/
theorem turn_channels (f : Factory) (chanMask : UInt64) (chanTime : Int64) (c : Channels)
    (k : Fin nChansMAX) :
    (Channels.turn f chanMask chanTime c k).channels k
      = (c.channels k || chanMask.toNat.testBit k) := by
  unfold Channels.turn
  by_cases hk : chanMask.toNat.testBit k = true
  · rw [if_pos ((and_shiftLeft _ k).mpr hk), hk, Bool.or_true]
    exact Function.update_self ..
  · rw [if_neg (mt (and_shiftLeft _ k).mp hk), Bool.eq_false_iff.mpr hk, Bool.or_false]

/-- A turn leaves the flags of other channels alone. -/
theorem turn_channels_of_ne (f : Factory) (chanMask : UInt64) (chanTime : Int64) (c : Channels)
    (k j : Fin nChansMAX) (hj : j ≠ k) :
    (Channels.turn f chanMask chanTime c k).channels j = c.channels j := by
  unfold Channels.turn
  split
  · exact Function.update_of_ne hj ..
  · rfl

/-- A turn sets the flag of its channel in the trigger when the mask has its bit
and the time is in the window. -/
theorem turn_channelsTRG (f : Factory) (chanMask : UInt64) (chanTime : Int64) (c : Channels)
    (k : Fin nChansMAX) :
    (Channels.turn f chanMask chanTime c k).channelsTRG k
      = (c.channelsTRG k || (decide (f.m_chanTimeMin.toInt ≤ chanTime.toInt
          ∧ chanTime.toInt ≤ f.m_chanTimeMax.toInt) && chanMask.toNat.testBit k)) := by
  unfold Channels.turn
  by_cases hk : chanMask.toNat.testBit k = true
  · rw [if_pos ((and_shiftLeft _ k).mpr hk), hk, Bool.and_true]
    dsimp only
    by_cases hw : chanTime.toInt ≥ f.m_chanTimeMin.toInt ∧ chanTime.toInt ≤ f.m_chanTimeMax.toInt
    · rw [if_pos hw, Function.update_self, decide_eq_true hw, Bool.or_true]
    · rw [if_neg hw, decide_eq_false hw, Bool.or_false]
  · rw [if_neg (mt (and_shiftLeft _ k).mp hk), Bool.eq_false_iff.mpr hk, Bool.and_false,
      Bool.or_false]

/-- A turn leaves the flags of other channels in the trigger alone. -/
theorem turn_channelsTRG_of_ne (f : Factory) (chanMask : UInt64) (chanTime : Int64) (c : Channels)
    (k j : Fin nChansMAX) (hj : j ≠ k) :
    (Channels.turn f chanMask chanTime c k).channelsTRG j = c.channelsTRG j := by
  unfold Channels.turn
  split
  · dsimp only
    split
    · exact Function.update_of_ne hj ..
    · rfl
  · rfl

/-- What one block leaves in the tables: the flags of the channels in its mask. -/
theorem block_channels (f : Factory) (c : Channels) (b : Block) (k : Fin nChansMAX) :
    (c.block f b.maskLow b.maskHigh b.timeLow b.timeHigh).channels k
      = (c.channels k || b.mask.toNat.testBit k) := by
  rw [← mask_eq]
  exact foldl_finRange Channels.channels _ (fun k flag => flag || _)
    (turn_channels f _ _) (turn_channels_of_ne f _ _) c k

/-- One block sets the flags of its channels in the trigger if its time is in the
window. -/
theorem block_channelsTRG (f : Factory) (c : Channels) (b : Block) (k : Fin nChansMAX) :
    (c.block f b.maskLow b.maskHigh b.timeLow b.timeHigh).channelsTRG k
      = (c.channelsTRG k || (f.inWindow b && b.mask.toNat.testBit k)) := by
  unfold Factory.inWindow
  rw [← mask_eq, ← time_eq]
  exact foldl_finRange Channels.channelsTRG _ (fun k flag => flag || _)
    (turn_channelsTRG f _ _) (turn_channelsTRG_of_ne f _ _) c k

/-- The tables after the blocks, by the same turns in the same order. -/
def afterBlocks (f : Factory) (c : Channels) (blocks : List Block) : Channels :=
  blocks.foldl (fun c b => c.block f b.maskLow b.maskHigh b.timeLow b.timeHigh) c

/-- After the blocks a channel has its flag if some block has it in its mask. -/
theorem afterBlocks_channels (f : Factory) (blocks : List Block) (c : Channels)
    (k : Fin nChansMAX) :
    (afterBlocks f c blocks).channels k
      = (c.channels k || blocks.any fun b => b.mask.toNat.testBit k) := by
  induction blocks generalizing c with
  | nil => exact (Bool.or_false _).symm
  | cons b blocks ih =>
      show (afterBlocks f (c.block f b.maskLow b.maskHigh b.timeLow b.timeHigh) blocks).channels k
        = _
      rw [ih, block_channels, List.any_cons, Bool.or_assoc]

/-- After the blocks a channel has its flag in the trigger if some block in the
window has it in its mask. -/
theorem afterBlocks_channelsTRG (f : Factory) (blocks : List Block) (c : Channels)
    (k : Fin nChansMAX) :
    (afterBlocks f c blocks).channelsTRG k
      = (c.channelsTRG k || blocks.any fun b => f.inWindow b && b.mask.toNat.testBit k) := by
  induction blocks generalizing c with
  | nil => exact (Bool.or_false _).symm
  | cons b blocks ih =>
      show (afterBlocks f (c.block f b.maskLow b.maskHigh b.timeLow b.timeHigh)
        blocks).channelsTRG k
        = _
      rw [ih, block_channelsTRG, List.any_cons, Bool.or_assoc]

/-- The second loop goes through all the blocks and reads none of the words behind
them. -/
theorem blockLoop_blocks (f : Factory) (rest : List UInt32) (base : Nat) (blocks : List Block)
    (before : List UInt32) (jj : Nat) (hbefore : before.length = base + jj * 4) (c : Channels) :
    blockLoop f (before ++ (blocks.flatMap Block.words ++ rest)) base blocks.length jj c
      = some (afterBlocks f c blocks) := by
  induction blocks generalizing before jj c with
  | nil => rfl
  | cons b blocks ih =>
      have hrest := ih (before ++ b.words) (jj + 1)
        (by simp [hbefore, Block.words]; omega)
        (c.block f b.maskLow b.maskHigh b.timeLow b.timeHigh)
      have hget := fun i => getElem?_behind before
        ((b :: blocks).flatMap Block.words ++ rest) _ i hbefore
      rw [List.length_cons]
      unfold blockLoop
      rw [show base + jj * 4 = base + jj * 4 + 0 from rfl, hget 0, hget 1, hget 2, hget 3]
      show blockLoop f _ base blocks.length (jj + 1)
        (c.block f b.maskLow b.maskHigh b.timeLow b.timeHigh) = _
      rw [append_block, hrest]
      rfl

/-! ## §5. The statements that fill the object. -/

/-- The object with more times of one trigger, behind those that it has. -/
def TriggerDataBDXmini.addTimes (t : TriggerDataBDXmini) (ii : Fin nTriggersMAX)
    (times : List Int32) : TriggerDataBDXmini :=
  { t with trgTimes := Function.update t.trgTimes ii (t.trgTimes ii ++ times) }

/-- The method that adds one time adds a list of one. -/
theorem addTriggerTime_single_eq (t : TriggerDataBDXmini) (ii : Fin nTriggersMAX) (data : Int32) :
    t.addTriggerTime_single ii data = t.addTimes ii [data] := by
  unfold TriggerDataBDXmini.addTriggerTime_single TriggerDataBDXmini.addTimes
  rw [dif_neg (by have := ii.isLt; omega)]
  rfl

/-- To add times twice is to add them all at once, in that order. -/
theorem addTimes_append (t : TriggerDataBDXmini) (ii : Fin nTriggersMAX) (l l' : List Int32) :
    (t.addTimes ii l).addTimes ii l' = t.addTimes ii (l ++ l') := by
  unfold TriggerDataBDXmini.addTimes
  simp only [Function.update_self, Function.update_idem, List.append_assoc]

/-- The inner loop over the times of a trigger: `n` turns of it hand over the
first `n` times. -/
theorem times_loop (times : List Int32) (ii : Fin nTriggersMAX) (t : TriggerDataBDXmini) (n : Nat)
    (hn : n ≤ times.length) :
    (List.range n).foldlM (fun t kk =>
        times[kk]?.map (TriggerDataBDXmini.addTriggerTime_single t ii ·)) t
      = some (t.addTimes ii (times.take n)) := by
  induction n with
  | zero =>
      unfold TriggerDataBDXmini.addTimes
      rw [List.take_zero, List.append_nil, Function.update_eq_self]
      rfl
  | succ n ih =>
      have hget : times[n]? = some times[n] := List.getElem?_eq_getElem (by omega)
      rw [List.range_succ, List.foldlM_append, ih (by omega), Option.bind_eq_bind, Option.bind_some,
        List.foldlM_cons, hget]
      show some ((t.addTimes ii (times.take n)).addTriggerTime_single ii times[n]) = _
      rw [addTriggerTime_single_eq, addTimes_append, List.take_append_getElem (by omega)]

/-- When the counter is the length of the list, a turn hands over all the times of
its trigger. -/
theorem fillTimes_eq {s : Triggers} (hs : s.Counted) (t : TriggerDataBDXmini)
    (ii : Fin nTriggersMAX) : fillTimes s t ii = some (t.addTimes ii (s.trgTimes ii)) := by
  unfold fillTimes
  rw [hs ii, times_loop _ _ _ _ (Nat.le_refl _), List.take_length]

/-- The object with the flags of one channel, as the two tables have them. -/
def TriggerDataBDXmini.addFlags (c : Channels) (t : TriggerDataBDXmini) (ii : Fin nChansMAX) :
    TriggerDataBDXmini :=
  { t with
    channels := if c.channels ii then Function.update t.channels ii true else t.channels
    channelsTRG :=
      if c.channelsTRG ii then Function.update t.channelsTRG ii true else t.channelsTRG }

/-- The index of a channel passes the check, and its flag is set. -/
theorem setFlag_eq (flags : Fin nChansMAX → Bool) (ii : Fin nChansMAX) :
    TriggerDataBDXmini.setFlag flags ii = some (Function.update flags ii true) := by
  unfold TriggerDataBDXmini.setFlag
  rw [if_neg (by have := ii.isLt; omega), dif_pos (by exact ii.isLt)]
  rfl

/-- A turn hands over the flags of its channel; the index is always in range here. -/
theorem fillFlags_eq (c : Channels) (t : TriggerDataBDXmini) (ii : Fin nChansMAX) :
    fillFlags c t ii = some (t.addFlags c ii) := by
  unfold fillFlags TriggerDataBDXmini.setChannel TriggerDataBDXmini.setChannelTRG
    TriggerDataBDXmini.addFlags
  by_cases h : c.channels ii = true <;> by_cases hTRG : c.channelsTRG ii = true <;>
    simp [h, hTRG, setFlag_eq]

/-- A flag that is set under a condition: at its own channel. -/
theorem update_flag (flags : Fin nChansMAX → Bool) (b : Bool) (ii : Fin nChansMAX) :
    (if b then Function.update flags ii true else flags) ii = (flags ii || b) := by
  cases b with
  | true => simp
  | false => simp

/-- A flag that is set under a condition: at any other channel nothing changes. -/
theorem update_flag_of_ne (flags : Fin nChansMAX → Bool) (b : Bool) {ii jj : Fin nChansMAX}
    (hj : jj ≠ ii) : (if b then Function.update flags ii true else flags) jj = flags jj := by
  cases b with
  | true => simp [hj]
  | false => simp

/-- The loop over all triggers hands over all times to an object that has none. -/
theorem fillTimes_loop {s : Triggers} (hs : s.Counted) (t : TriggerDataBDXmini)
    (ht : ∀ ii, t.trgTimes ii = []) :
    (List.finRange nTriggersMAX).foldlM (fillTimes s) t
      = some { t with trgTimes := s.trgTimes } := by
  rw [foldlM_eq_some (fillTimes s) (fun t ii => t.addTimes ii (s.trgTimes ii)) _ (fun _ => True)
    (fun t _ ii _ => ⟨fillTimes_eq hs t ii, trivial⟩) trivial]
  have htimes := foldl_finRange TriggerDataBDXmini.trgTimes
    (fun t ii => t.addTimes ii (s.trgTimes ii)) (fun ii times => times ++ s.trgTimes ii)
    (fun _ _ => Function.update_self ..) (fun _ _ _ hj => Function.update_of_ne hj ..) t
  have hrest := foldl_untouched (fun t => (t.rawWords, t.nTriggers, t.channels, t.channelsTRG))
    (fun (t : TriggerDataBDXmini) ii => t.addTimes ii (s.trgTimes ii)) (fun _ _ => rfl)
    (List.finRange nTriggersMAX) t
  simp only [Prod.mk.injEq] at hrest
  obtain ⟨h1, h2, h3, h4⟩ := hrest
  have htimes : (List.foldl (fun t ii => TriggerDataBDXmini.addTimes t ii (s.trgTimes ii)) t
      (List.finRange nTriggersMAX)).trgTimes = s.trgTimes := by
    funext ii
    rw [htimes ii, ht ii, List.nil_append]
  refine congrArg some (TriggerDataBDXmini.ext h1 h2 htimes h3 h4)

/-- The loop over all channels hands over all flags to an object that has none. -/
theorem fillFlags_loop (c : Channels) (t : TriggerDataBDXmini) (h : ∀ ii, t.channels ii = false)
    (hTRG : ∀ ii, t.channelsTRG ii = false) :
    (List.finRange nChansMAX).foldlM (fillFlags c) t
      = some { t with channels := c.channels, channelsTRG := c.channelsTRG } := by
  rw [foldlM_eq_some (fillFlags c) (TriggerDataBDXmini.addFlags c) _ (fun _ => True)
    (fun t _ ii _ => ⟨fillFlags_eq c t ii, trivial⟩) trivial]
  have hchannels := foldl_finRange TriggerDataBDXmini.channels (TriggerDataBDXmini.addFlags c)
    (fun ii flag => flag || c.channels ii) (fun _ _ => update_flag ..)
    (fun _ _ _ hj => update_flag_of_ne _ _ hj) t
  have hchannelsTRG := foldl_finRange TriggerDataBDXmini.channelsTRG
    (TriggerDataBDXmini.addFlags c) (fun ii flag => flag || c.channelsTRG ii)
    (fun _ _ => update_flag ..) (fun _ _ _ hj => update_flag_of_ne _ _ hj) t
  have hrest := foldl_untouched (fun t => (t.rawWords, t.nTriggers, t.trgTimes))
    (TriggerDataBDXmini.addFlags c) (fun _ _ => rfl) (List.finRange nChansMAX) t
  simp only [Prod.mk.injEq] at hrest
  obtain ⟨h1, h2, h3⟩ := hrest
  refine congrArg some (TriggerDataBDXmini.ext h1 h2 h3 (funext fun ii => ?_) (funext fun ii => ?_))
  · rw [hchannels ii, h ii, Bool.false_or]
  · rw [hchannelsTRG ii, hTRG ii, Bool.false_or]

/-- **The object is the tables**: the published triggers, times and flags are
those that the two loops have found. -/
theorem publish_eq (words : List UInt32) {s : Triggers} (hs : s.Counted) (c : Channels) :
    publish words s c = some ⟨words, s.nTriggers, s.trgTimes, c.channels, c.channelsTRG⟩ := by
  unfold publish
  dsimp only
  rw [fillTimes_loop hs _ (fun _ => rfl), Option.bind_some, fillFlags_loop c _ (fun _ => rfl)
    (fun _ => rfl)]
  rfl

/-! ## §6. Only words that are there are read. -/

/-- The first loop on any words: it reads none that is not there, and stops at a
magic pair or at the end. -/
theorem pairLoop_total (words : List UInt32) (n ii : Nat) (hn : 2 * (ii + n) ≤ words.length)
    {s : Triggers} (hs : s.Counted) :
    ∃ m s', pairLoop words n ii s = some (m, s') ∧ s'.Counted ∧ m ≤ ii + n ∧
      (m < ii + n → words[m * 2]? = some MAGIC_TRG_WORD ∧
        words[m * 2 + 1]? = some MAGIC_TRG_WORD) := by
  induction n generalizing ii s with
  | zero => exact ⟨ii, s, rfl, hs, Nat.le_refl _, fun h => absurd h (Nat.lt_irrefl _)⟩
  | succ n ih =>
      have h1 : words[ii * 2]? = some words[ii * 2] := List.getElem?_eq_getElem (by omega)
      have h2 : words[ii * 2 + 1]? = some words[ii * 2 + 1] :=
        List.getElem?_eq_getElem (by omega)
      unfold pairLoop
      rw [h1, h2]
      dsimp only
      by_cases hmagic : words[ii * 2] = MAGIC_TRG_WORD ∧ words[ii * 2 + 1] = MAGIC_TRG_WORD
      · rw [if_pos hmagic]
        refine ⟨ii, s, rfl, hs, by omega, fun _ => ⟨?_, ?_⟩⟩
        · rw [h1, hmagic.1]
        · rw [h2, hmagic.2]
      · rw [if_neg hmagic]
        obtain ⟨m, s', hrun, hs', hm, hstop⟩ := ih (ii + 1) (by omega)
          (hs.pair words[ii * 2] words[ii * 2 + 1])
        exact ⟨m, s', hrun, hs', by omega, fun h => hstop (by omega)⟩

/-- The second loop on any words reads none that is not there, as the number of
its blocks is taken from the number of words. -/
theorem blockLoop_total (f : Factory) (words : List UInt32) (base n jj : Nat)
    (hn : base + (jj + n) * 4 ≤ words.length ∨ n = 0) (c : Channels) :
    ∃ c', blockLoop f words base n jj c = some c' := by
  induction n generalizing jj c with
  | zero => exact ⟨c, rfl⟩
  | succ n ih =>
      have hget : ∀ i < 4, words[base + jj * 4 + i]?.isSome := by
        intro i hi
        rw [List.getElem?_eq_getElem (by omega)]
        rfl
      obtain ⟨word1, h1⟩ := Option.isSome_iff_exists.mp (hget 0 (by decide))
      obtain ⟨word2, h2⟩ := Option.isSome_iff_exists.mp (hget 1 (by decide))
      obtain ⟨word3, h3⟩ := Option.isSome_iff_exists.mp (hget 2 (by decide))
      obtain ⟨word4, h4⟩ := Option.isSome_iff_exists.mp (hget 3 (by decide))
      unfold blockLoop
      rw [show base + jj * 4 = base + jj * 4 + 0 from rfl, h1, h2, h3, h4]
      exact ih (jj + 1) (by omega) _

/-- The number of blocks, also when it is taken from a negative difference. -/
theorem nwords_eq (n i : Nat) :
    (Int.tdiv ((n : Int) - (i : Nat) * 2) 4).toNat = (n - i * 2) / 4 := by
  by_cases h : i * 2 ≤ n
  · rw [Int.tdiv_eq_ediv_of_nonneg (by omega)]
    omega
  · have hneg : Int.tdiv ((n : Int) - (i : Nat) * 2) 4 ≤ 0 := by
      rw [show (n : Int) - (i : Nat) * 2 = -((i * 2 - n : Nat) : Int) by omega, Int.neg_tdiv,
        Int.natCast_tdiv_eq_ediv]
      omega
    omega

/-- The object that `decode` makes of any words. -/
theorem decode_total (f : Factory) (words : List UInt32) :
    ∃ t, f.decode words = some t ∧
      (NoMagic words → (∀ ch, t.channels ch = false) ∧ ∀ ch, t.channelsTRG ch = false) := by
  obtain ⟨m, s, hpairs, hs, hm, hstop⟩ := pairLoop_total words (words.length / 2) 0 (by omega)
    (s := .zero) (fun _ => rfl)
  rw [Nat.zero_add] at hm hstop
  obtain ⟨c, hblocks⟩ := blockLoop_total f words ((m + 1) * 2) ((words.length - (m + 1) * 2) / 4) 0
    (by omega) .zero
  unfold Factory.decode
  rw [hpairs]
  dsimp only
  rw [nwords_eq, hblocks]
  refine ⟨_, publish_eq words hs c, fun hnomagic => ?_⟩
  -- the first loop came to its end, so that there is no block
  have hend : ¬ m < words.length / 2 := fun h => hnomagic m (hstop h).1 (hstop h).2
  have hzero : (words.length - (m + 1) * 2) / 4 = 0 := by omega
  rw [hzero] at hblocks
  obtain rfl : Channels.zero = c := Option.some.inj hblocks
  exact ⟨fun _ => rfl, fun _ => rfl⟩

/-! ## §7. Decoding undoes encoding. -/

/-- The object with the tables of the pairs and of the blocks: what decoding is to
make of an encoded event. -/
def decoded (f : Factory) (words : List UInt32) (pairs : List (UInt32 × UInt32))
    (blocks : List Block) : TriggerDataBDXmini where
  rawWords := words
  nTriggers := (afterPairs .zero pairs).nTriggers
  trgTimes := (afterPairs .zero pairs).trgTimes
  channels := (afterBlocks f .zero blocks).channels
  channelsTRG := (afterBlocks f .zero blocks).channelsTRG

/-- The number of words of an encoded event; the magic pair counts as one more
pair. -/
theorem length_encode (pairs : List (UInt32 × UInt32)) (blocks : List Block)
    (rest : List UInt32) : (encode pairs blocks rest).length
      = (pairs.length + 1) * 2 + (4 * blocks.length + rest.length) := by
  unfold encode
  rw [List.length_append, List.length_append, List.length_append, length_pairs, length_blocks]
  show 2 * pairs.length + 2 + _ = _
  omega

/-- On an encoded event the first loop finds the pairs and stops at the magic pair
behind them. -/
theorem pairLoop_encode (pairs : List (UInt32 × UInt32))
    (hpairs : ∀ p ∈ pairs, p ≠ (MAGIC_TRG_WORD, MAGIC_TRG_WORD)) (blocks : List Block)
    (rest : List UInt32) :
    pairLoop (encode pairs blocks rest) ((encode pairs blocks rest).length / 2) 0 .zero
      = some (pairs.length, afterPairs .zero pairs) := by
  have hlength := length_encode pairs blocks rest
  have hrun := pairLoop_pairs (blocks.flatMap Block.words ++ rest) pairs hpairs []
    ((encode pairs blocks rest).length / 2) 0 rfl (by omega) .zero
  have hwords : encode pairs blocks rest = [] ++ (pairs.flatMap pairWords
      ++ MAGIC_TRG_WORD :: MAGIC_TRG_WORD :: (blocks.flatMap Block.words ++ rest)) := by
    unfold encode
    simp
  rw [← hwords, Nat.zero_add] at hrun
  exact hrun

/-- On an encoded event the second loop starts behind the magic pair and finds the
blocks. -/
theorem blockLoop_encode (f : Factory) (pairs : List (UInt32 × UInt32)) (blocks : List Block)
    (rest : List UInt32) :
    blockLoop f (encode pairs blocks rest) ((pairs.length + 1) * 2) blocks.length 0 .zero
      = some (afterBlocks f .zero blocks) := by
  refine blockLoop_blocks f rest ((pairs.length + 1) * 2) blocks _ 0 ?_ .zero
  rw [List.length_append, length_pairs]
  show 2 * pairs.length + 2 = _
  omega

/-- An encoded event is decoded to the tables of its pairs and blocks, if no pair
looks like the magic one and less than a block is left over. -/
theorem decode_encode (f : Factory) (pairs : List (UInt32 × UInt32))
    (hpairs : ∀ p ∈ pairs, p ≠ (MAGIC_TRG_WORD, MAGIC_TRG_WORD)) (blocks : List Block)
    (rest : List UInt32) (hrest : rest.length ≤ 3) :
    f.decode (encode pairs blocks rest)
      = some (decoded f (encode pairs blocks rest) pairs blocks) := by
  have hcount : ((encode pairs blocks rest).length - (pairs.length + 1) * 2) / 4
      = blocks.length := by
    rw [length_encode]
    omega
  unfold Factory.decode
  rw [pairLoop_encode pairs hpairs]
  dsimp only
  rw [nwords_eq, hcount, blockLoop_encode]
  exact publish_eq _ (Triggers.Counted.afterPairs (fun _ => rfl) pairs) _

/-- The bits set in all pairs, counted by pair and counted by bit. -/
theorem sum_countP_eq (pairs : List (UInt32 × UInt32)) (l : List (Fin nTriggersMAX)) :
    (pairs.map fun p => l.countP (hasTrigger · p)).sum
      = (l.map fun k => (pairs.filter (hasTrigger k)).length).sum := by
  simp only [← List.countP_eq_length_filter]
  induction l with
  | nil =>
      rw [List.map_nil, List.sum_nil]
      exact List.sum_eq_zero (by simp)
  | cons k l ih =>
      rw [List.map_cons, List.sum_cons, ← ih]
      clear ih
      induction pairs with
      | nil => rfl
      | cons p pairs ihp =>
          rw [List.map_cons, List.sum_cons, ihp, List.map_cons, List.sum_cons, List.countP_cons,
            List.countP_cons]
          omega

/-- The word of the flags is the masks or-ed together, when each flag says whether
some mask has its bit. -/
theorem longWord_eq (flags : Fin nChansMAX → Bool) (blocks : List Block)
    (h : ∀ k, flags k = blocks.any fun b => b.mask.toNat.testBit k) :
    TriggerDataBDXmini.longWord flags = orMasks blocks := by
  refine eq_of_testBit (fun k => ?_)
  unfold TriggerDataBDXmini.longWord orMasks
  rw [testBit_word_of_flags, h k, testBit_foldl_or]
  show _ = (Nat.testBit 0 k || _)
  rw [Nat.zero_testBit, Bool.false_or]

/-- What the object of an encoded event says of its triggers, of their times and
of the channels. -/
structure Decodes (f : Factory) (pairs : List (UInt32 × UInt32)) (blocks : List Block)
    (t : TriggerDataBDXmini) : Prop where
  times : ∀ k, t.trgTimes k = (pairs.filter (hasTrigger k)).map fun p => p.2.toInt32
  bits : t.getNTriggers
    = (pairs.map fun p => (List.finRange nTriggersMAX).countP (hasTrigger · p)).sum
  singles : t.getNTriggers
    = ((List.finRange nTriggersMAX).map fun k => t.getNtriggers_single k.val).sum
  channels : t.getLongWordChannels = orMasks blocks
  channelsTRG : t.getLongWordChannelsTRG = orMasks (blocks.filter f.inWindow)

/-- The count of one trigger is the length of its list of times. -/
theorem getNtriggers_single_eq (t : TriggerDataBDXmini) (k : Fin nTriggersMAX) :
    t.getNtriggers_single k.val = (t.trgTimes k).length := by
  unfold TriggerDataBDXmini.getNtriggers_single
  rw [dif_neg (by have := k.isLt; omega)]
  rfl

/-- The object with the tables of the pairs and of the blocks says what they are. -/
theorem decoded_decodes (f : Factory) (words : List UInt32) (pairs : List (UInt32 × UInt32))
    (blocks : List Block) : Decodes f pairs blocks (decoded f words pairs blocks) := by
  have htimes : ∀ k, (decoded f words pairs blocks).trgTimes k
      = (pairs.filter (hasTrigger k)).map fun p => p.2.toInt32 := fun k =>
    (afterPairs_trgTimes pairs .zero k).trans (List.nil_append _)
  have hbits : (decoded f words pairs blocks).getNTriggers
      = (pairs.map fun p => (List.finRange nTriggersMAX).countP (hasTrigger · p)).sum :=
    (afterPairs_nTriggers pairs .zero).trans (Nat.zero_add _)
  refine ⟨htimes, hbits, ?_, ?_, ?_⟩
  · rw [hbits, sum_countP_eq]
    refine congrArg List.sum (List.map_congr_left fun k _ => ?_)
    rw [getNtriggers_single_eq, htimes, List.length_map]
  · refine longWord_eq _ blocks (fun k => ?_)
    exact (afterBlocks_channels f blocks .zero k).trans (Bool.false_or _)
  · refine longWord_eq _ _ (fun k => ?_)
    rw [List.any_filter]
    exact (afterBlocks_channelsTRG f blocks .zero k).trans (Bool.false_or _)

/-- **Decoding undoes encoding.**  For every event of pairs and blocks the
published object says what they are; for every event whatever no word is read
that is not there, and without a magic pair no channel is set. -/
theorem evnt_decodes_encode (f : Factory) :
    (∀ (tData : EventData) (pairs : List (UInt32 × UInt32)) (blocks : List Block)
        (rest : List UInt32), f.m_isMC = false → tData.eventType ≠ .EPICS →
        (∀ p ∈ pairs, p ≠ (MAGIC_TRG_WORD, MAGIC_TRG_WORD)) → rest.length ≤ 3 →
        tData.triggerWords = encode pairs blocks rest →
        ∃ t, f.evnt (some tData) = some (.NOERROR, [t]) ∧ Decodes f pairs blocks t) ∧
    (∀ tData, f.evnt tData ≠ none) ∧
    (∀ tData error data, NoMagic tData.triggerWords → f.evnt (some tData) = some (error, data) →
        ∀ t ∈ data, (∀ ch, t.channels ch = false) ∧ ∀ ch, t.channelsTRG ch = false) := by
  refine ⟨?_, ?_, ?_⟩
  · intro tData pairs blocks rest hMC hEPICS hpairs hrest hwords
    refine ⟨_, ?_, decoded_decodes f tData.triggerWords pairs blocks⟩
    unfold Factory.evnt
    rw [if_neg (by rw [hMC]; decide)]
    dsimp only
    rw [if_neg hEPICS, hwords, decode_encode f pairs hpairs blocks rest hrest]
    rfl
  · intro tData
    unfold Factory.evnt
    split
    · exact Option.some_ne_none _
    · split
      · exact Option.some_ne_none _
      · split
        · exact Option.some_ne_none _
        · next tData _ =>
            -- the three early returns aside, the decoder comes to its end on any words
            obtain ⟨t, ht, -⟩ := decode_total f tData.triggerWords
            rw [ht]
            exact Option.some_ne_none _
  · intro tData error data hnomagic hrun t ht
    obtain ⟨t', ht', hchannels⟩ := decode_total f tData.triggerWords
    unfold Factory.evnt at hrun
    dsimp only at hrun
    rw [ht'] at hrun
    split at hrun
    · cases hrun
      cases ht
    · split at hrun
      · cases hrun
        cases ht
      · cases hrun
        -- without the magic pair no block is looked at
        obtain rfl := List.mem_singleton.mp ht
        exact hchannels hnomagic

/-- A pair with two triggers, a block in the window and one out of it, and a
word left over. -/
theorem two_blocks_decoded :
    ∃ t, (Factory.init false).evnt
        (some ⟨1, 0, 0, 7, 0, encode [(0x5, 0xffffffff)]
          [⟨0x1, 0x2, 3, 0⟩, ⟨0x4, 0, 0xffffff00, 0xffffffff⟩] [9], .DAQ⟩)
        = some (.NOERROR, [t])
      ∧ t.trgTimes 2 = [-1] ∧ t.getNTriggers = 2 ∧ t.getLongWordChannels = 0x200000005
      ∧ t.getLongWordChannelsTRG = 0x200000001 := by
  obtain ⟨t, hevnt, ht⟩ := (evnt_decodes_encode (Factory.init false)).1
    ⟨1, 0, 0, 7, 0, encode [(0x5, 0xffffffff)]
      [⟨0x1, 0x2, 3, 0⟩, ⟨0x4, 0, 0xffffff00, 0xffffffff⟩] [9], .DAQ⟩
    [(0x5, 0xffffffff)] [⟨0x1, 0x2, 3, 0⟩, ⟨0x4, 0, 0xffffff00, 0xffffffff⟩] [9] rfl
    (by decide) (List.forall_mem_singleton.mpr (by decide)) (by decide) rfl
  refine ⟨t, hevnt, ?_, ?_, ?_, ?_⟩
  · rw [ht.times]
    decide +kernel
  · rw [ht.bits]
    decide +kernel
  · rw [ht.channels]
    decide +kernel
  · rw [ht.channelsTRG]
    decide +kernel

end PokerReco.BDXmini
