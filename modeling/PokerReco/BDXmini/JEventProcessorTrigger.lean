/-
  PokerReco.BDXmini.JEventProcessorTrigger
  ────────────────────────────────────────
  **THE MONITORING OF THE TRIGGER**
  (`plugins/monitoring/Trigger/JEventProcessor_Trigger.cc`).

  The plugin has a decoder of its own for the bank of `TriggerDataBDXmini`,
  behind a prefix that it skips.  It puts the halves of a mask and of a time
  together with 32-bit numbers, and it tests a bit with
  `chanMask & (1 << kk) != 0`, where `!=` binds stronger than `&`.

      pairLoop_eq            the loop over the pairs is that of the decoder
      block_all, block_trg   what a block adds to the histograms
      monitoring_agrees_iff  when that is what the decoder finds
-/
import PokerReco.BDXmini.TriggerDataBDXmini
import PokerReco.Library.SignedArithmetic

namespace PokerReco.BDXmini

open PokerReco.DAQ PokerReco.JANA PokerReco.Library

/-! ## §1. The plugin. -/

/-- The number of channels of a block, one for each bit of its mask. -/
abbrev nChansMax : Nat := 64

/-- The word that stands twice behind the prefix of an event. -/
def MAGIC_TRG_WORD2 : UInt32 := 0xfafafbfb

/-- `JEventProcessor_Trigger`, with the window for the time of a channel. -/
structure JEventProcessorTrigger where
  chanTimeMin : Int32
  chanTimeMax : Int32

/-- What a call of `evnt` adds to the histograms; to those of the channels, turn
by turn of the loop over the blocks. -/
structure Histograms where
  hTriggerBits : List (Nat × Nat)
  hTriggerMultiplicity : List Nat
  hTriggerTimes : List Int32
  hTriggerTimes2D : List (Int32 × Nat)
  hChannels_ALL : List (List (Fin nChansMax))
  hChannels_TRG : List (List (Fin nChansMax))

/-- Nothing is added to any of the histograms. -/
def Histograms.zero : Histograms := ⟨[], [], [], [], [], []⟩

/-- What a turn of the loop over the blocks adds to the histograms of the
channels. -/
structure Entries where
  all : List (Fin nChansMax)
  trg : List (Fin nChansMax)

namespace JEventProcessorTrigger

/-- `init`: the window goes four units of 4 ns to either side. -/
def init : JEventProcessorTrigger := ⟨-4 * 4, 4 * 4⟩

/-- The loop over the prefix, `n` pairs ahead: where `aa` stops. -/
def skipLoop (words : List UInt32) : Nat → Nat → Option Nat
  | 0, aa => some aa
  | n + 1, aa =>
      match words[aa * 2]?, words[aa * 2 + 1]? with
      | some word1, some word2 =>
          if word1.toInt32 = MAGIC_TRG_WORD2.toInt32 ∧ word2.toInt32 = MAGIC_TRG_WORD2.toInt32 then
            some aa
          else skipLoop words n (aa + 1)
      | _, _ => none

/-- A turn of the loop over the bits of `word1`, which is signed here. -/
def triggerTurn (word1 word2 : Int32) (s : Triggers) (kk : Fin nTriggersMAX) : Triggers :=
  if (word1 >>> Int32.ofNat kk) &&& 1 ≠ 0 then
    { nTriggers := s.nTriggers + 1
      nTriggerSingles := Function.update s.nTriggerSingles kk (s.nTriggerSingles kk + 1)
      trgTimes := Function.update s.trgTimes kk (s.trgTimes kk ++ [word2]) }
  else s

/-- The loop over the pairs behind the word `base`, `n` of them ahead. -/
def pairLoop (words : List UInt32) (base : Nat) : Nat → Nat → Triggers → Option (Nat × Triggers)
  | 0, ii, s => some (ii, s)
  | n + 1, ii, s =>
      match words[base + ii * 2]?, words[base + ii * 2 + 1]? with
      | some word1, some word2 =>
          if word1.toInt32 = MAGIC_TRG_WORD.toInt32 ∧ word2.toInt32 = MAGIC_TRG_WORD.toInt32 then
            some (ii, s)
          else
            pairLoop words base n (ii + 1)
              ((List.finRange nTriggersMAX).foldl (triggerTurn word1.toInt32 word2.toInt32) s)
      | _, _ => none

/-- Two words as one: a shift and a sum of `int`, made longer afterwards. -/
def word64 (A : Arithmetic) (hi lo : Int32) : Int64 := (A.add (A.shl hi 32) lo).toInt64

/-- A turn of the loop over the bits of `chanMask`, which tests the mask and the
bit as numbers. -/
def channelTurn (A : Arithmetic) (p : JEventProcessorTrigger) (chanMask : UInt64)
    (chanTime : Int64) (e : Entries) (kk : Fin nChansMax) : Entries :=
  -- `!=` comes before `&`, so that its truth value is what the mask is tested with
  if chanMask &&& (A.shl 1 kk != 0).toUInt64 ≠ 0 then
    { all := e.all ++ [kk]
      trg :=
        if chanTime.toInt ≥ p.chanTimeMin.toInt ∧ chanTime.toInt ≤ p.chanTimeMax.toInt then
          e.trg ++ [kk]
        else e.trg }
  else e

/-- The body of the loop over the blocks: four words make a mask and a time, and
all channels are tested. -/
def block (A : Arithmetic) (p : JEventProcessorTrigger) (word1 word2 word3 word4 : UInt32) :
    Entries :=
  let chanTime := word64 A word4.toInt32 word3.toInt32
  let chanMask := (word64 A word2.toInt32 word1.toInt32).toUInt64
  (List.finRange nChansMax).foldl (channelTurn A p chanMask chanTime) ⟨[], []⟩

/-- The loop over the blocks behind the word `base`, `n` of them ahead. -/
def blockLoop (A : Arithmetic) (p : JEventProcessorTrigger) (words : List UInt32) (base : Nat) :
    Nat → Nat → Option (List Entries)
  | 0, _ => some []
  | n + 1, jj =>
      match words[base + jj * 4]?, words[base + jj * 4 + 1]?, words[base + jj * 4 + 2]?,
          words[base + jj * 4 + 3]? with
      | some word1, some word2, some word3, some word4 =>
          (blockLoop A p words base n (jj + 1)).map (block A p word1 word2 word3 word4 :: ·)
      | _, _, _, _ => none

/-- The statements that fill the histograms, once the triggers and the
blocks are read. -/
def fill (s : Triggers) (entries : List Entries) : Histograms where
  hTriggerBits := (List.finRange nTriggersMAX).filterMap fun jj =>
    if s.nTriggerSingles jj > 0 then some (jj.val, s.nTriggerSingles jj) else none
  hTriggerMultiplicity := [s.nTriggers]
  hTriggerTimes := (List.finRange nTriggersMAX).flatMap s.trgTimes
  hTriggerTimes2D := (List.finRange nTriggersMAX).flatMap fun jj =>
    (s.trgTimes jj).map fun time => (time, jj.val)
  hChannels_ALL := entries.map Entries.all
  hChannels_TRG := entries.map Entries.trg

/-- `evnt` for an event that is not an EPICS event, on its trigger words. -/
def monitor (A : Arithmetic) (p : JEventProcessorTrigger) (words : List UInt32) :
    Option Histograms :=
  match skipLoop words (words.length / 2) 0 with
  | none => none
  | some aa =>
      let aa := aa + 1
      -- negative when there was no magic pair: no turn of the loop then
      let nwords := Int.tdiv ((words.length : Int) - aa * 2) 2
      match pairLoop words (aa * 2) nwords.toNat 0 .zero with
      | none => none
      | some (ii, s) =>
          let ii := ii + 1
          let nwords := Int.tdiv ((words.length : Int) - ii * 2 - aa * 2) 4
          (blockLoop A p words (aa * 2 + ii * 2) nwords.toNat 0).map (fill s)

/-- `evnt`: the value it returns and what it adds to the histograms. -/
def evnt (A : Arithmetic) (p : JEventProcessorTrigger) (tData : Option EventData) :
    Option (JError × Histograms) :=
  match tData with
  | none => some (.OBJECT_NOT_AVAILABLE, .zero)
  | some tData =>
      if tData.eventType = .EPICS then some (.NOERROR, .zero)
      else (p.monitor A tData.triggerWords).map fun h => (.NOERROR, h)

/-! ## §2. What it should add. -/

/-- The decoder with the same window as the plugin. -/
def decoder (p : JEventProcessorTrigger) : Factory := ⟨false, p.chanTimeMin, p.chanTimeMax⟩

/-- The channels of a block, one for each bit that is set in its mask. -/
def channelsOf (b : Block) : List (Fin nChansMax) :=
  (List.finRange nChansMax).filter fun k => b.mask.toNat.testBit k

/-- The words of an event: a prefix up to a pair of magic words, and the bank. -/
def monitored (before : List (UInt32 × UInt32)) (bank : List UInt32) : List UInt32 :=
  before.flatMap pairWords ++ [MAGIC_TRG_WORD2, MAGIC_TRG_WORD2] ++ bank

/-- The histograms of the channels show the blocks, and what the decoder finds. -/
structure Shows (p : JEventProcessorTrigger) (blocks : List Block) (h : Histograms)
    (t : TriggerDataBDXmini) : Prop where
  all : h.hChannels_ALL = blocks.map channelsOf
  trg : h.hChannels_TRG = blocks.map fun b => if p.decoder.inWindow b then channelsOf b else []
  channels : ∀ k, k ∈ h.hChannels_ALL.flatten ↔ t.channels k = true
  channelsTRG : ∀ k, k ∈ h.hChannels_TRG.flatten ↔ t.channelsTRG k = true

/-- The plugin agrees with the decoder that is given the bank alone. -/
def AgreesWithDecoder (A : Arithmetic) (p : JEventProcessorTrigger) (tData : EventData)
    (bank : List UInt32) (blocks : List Block) : Prop :=
  ∃ h t, p.evnt A (some tData) = some (.NOERROR, h)
    ∧ p.decoder.evnt (some { tData with triggerWords := bank }) = some (.NOERROR, [t])
    ∧ p.Shows blocks h t

/-! ## §3. What a block adds. -/

/-- The last bit of the mask that the plugin computes from the two words
of a block. -/
def lastBit (A : Arithmetic) (b : Block) : Bool :=
  (A.add (A.shl b.maskHigh.toInt32 32) b.maskLow.toInt32).toBitVec.getLsbD 0

/-- The time that the plugin computes is in the window. -/
def seenInWindow (p : JEventProcessorTrigger) (A : Arithmetic) (b : Block) : Bool :=
  decide ((word64 A b.timeHigh.toInt32 b.timeLow.toInt32).toInt ≥ p.chanTimeMin.toInt
    ∧ (word64 A b.timeHigh.toInt32 b.timeLow.toInt32).toInt ≤ p.chanTimeMax.toInt)

/-- The channels that the plugin takes for those of a block: one test for all. -/
def seen (A : Arithmetic) (b : Block) : List (Fin nChansMax) :=
  (List.finRange nChansMax).filter fun k => A.shl 1 k != 0 && lastBit A b

/-- The test of a channel says whether the last bit of the mask is set and the
shifted 1 is not zero. -/
theorem and_test_iff (A : Arithmetic) (b : Block) (k : Fin nChansMax) :
    (word64 A b.maskHigh.toInt32 b.maskLow.toInt32).toUInt64 &&& (A.shl 1 k != 0).toUInt64 ≠ 0
      ↔ (A.shl 1 k != 0 && lastBit A b) = true := by
  rw [and_toUInt64, Bool.and_eq_true]
  unfold word64 lastBit
  rw [testBit_zero_toUInt64]

/-- A block adds to the histogram of all channels the ones that are seen. -/
theorem block_all (A : Arithmetic) (p : JEventProcessorTrigger) (b : Block) :
    (block A p b.maskLow b.maskHigh b.timeLow b.timeHigh).all = seen A b := by
  refine (foldl_collect Entries.all _ (fun k => A.shl 1 k != 0 && lastBit A b) (fun e k => ?_) _
    ⟨[], []⟩).trans (List.nil_append _)
  unfold channelTurn
  by_cases hk : (A.shl 1 k != 0 && lastBit A b) = true
  · rw [if_pos ((and_test_iff A b k).mpr hk), if_pos hk]
  · rw [if_neg (mt (and_test_iff A b k).mp hk), if_neg hk, List.append_nil]

/-- A block adds to the histogram of the channels in the window the ones that are
seen, when its time is in the window. -/
theorem block_trg (A : Arithmetic) (p : JEventProcessorTrigger) (b : Block) :
    (block A p b.maskLow b.maskHigh b.timeLow b.timeHigh).trg
      = if p.seenInWindow A b then seen A b else [] := by
  refine (foldl_collect Entries.trg _
    (fun k => p.seenInWindow A b && (A.shl 1 k != 0 && lastBit A b)) (fun e k => ?_) _
    ⟨[], []⟩).trans ?_
  · unfold channelTurn
    by_cases hk : (A.shl 1 k != 0 && lastBit A b) = true
    · rw [if_pos ((and_test_iff A b k).mpr hk), hk, Bool.and_true]
      unfold seenInWindow
      by_cases htime : (word64 A b.timeHigh.toInt32 b.timeLow.toInt32).toInt ≥ p.chanTimeMin.toInt
          ∧ (word64 A b.timeHigh.toInt32 b.timeLow.toInt32).toInt ≤ p.chanTimeMax.toInt
      · rw [if_pos (decide_eq_true htime)]
        exact if_pos htime
      · rw [if_neg (mt of_decide_eq_true htime), List.append_nil]
        exact if_neg htime
    · rw [if_neg (mt (and_test_iff A b k).mp hk), Bool.eq_false_iff.mpr hk, Bool.and_false,
        if_neg Bool.false_ne_true, List.append_nil]
  · show [] ++ _ = _
    rw [List.nil_append]
    by_cases htime : p.seenInWindow A b = true
    · rw [if_pos htime, htime]
      rfl
    · rw [if_neg htime, Bool.eq_false_iff.mpr htime]
      exact List.filter_eq_nil_iff.mpr fun k _ => Bool.false_ne_true

/-! ## §4. The loops. -/

/-- Two words are equal as signed numbers exactly when they are equal. -/
theorem toInt32_eq_iff {v w : UInt32} : v.toInt32 = w.toInt32 ↔ v = w :=
  ⟨fun h => congrArg Int32.toUInt32 h, fun h => congrArg UInt32.toInt32 h⟩

/-- The prefix ends with its magic pair. -/
theorem skipLoop_pairs (bank : List UInt32) (pairs : List (UInt32 × UInt32))
    (hpairs : ∀ p ∈ pairs, p ≠ (MAGIC_TRG_WORD2, MAGIC_TRG_WORD2)) (before : List UInt32)
    (n aa : Nat) (hbefore : before.length = aa * 2) (hn : pairs.length < n) :
    skipLoop (before ++ (pairs.flatMap pairWords
        ++ MAGIC_TRG_WORD2 :: MAGIC_TRG_WORD2 :: bank)) n aa = some (aa + pairs.length) := by
  induction pairs generalizing before n aa with
  | nil =>
      obtain ⟨n, rfl⟩ : ∃ m, n = m + 1 := ⟨n - 1, by simp at hn; omega⟩
      have hget := fun i => getElem?_behind before
        (MAGIC_TRG_WORD2 :: MAGIC_TRG_WORD2 :: bank) _ i hbefore
      unfold skipLoop
      rw [List.flatMap_nil, List.nil_append, show aa * 2 = aa * 2 + 0 from rfl, hget 0, hget 1]
      rfl
  | cons p pairs ih =>
      rw [List.length_cons] at hn
      obtain ⟨n, rfl⟩ : ∃ m, n = m + 1 := ⟨n - 1, by omega⟩
      have hp : ¬ (p.1.toInt32 = MAGIC_TRG_WORD2.toInt32 ∧ p.2.toInt32 = MAGIC_TRG_WORD2.toInt32) :=
        fun h => hpairs p List.mem_cons_self
          (Prod.ext (toInt32_eq_iff.mp h.1) (toInt32_eq_iff.mp h.2))
      have hrest := ih (fun q hq => hpairs q (List.mem_cons_of_mem _ hq))
        (before ++ pairWords p) n (aa + 1) (by simp [hbefore, pairWords]; omega) (by omega)
      have hget := fun i => getElem?_behind before ((p :: pairs).flatMap pairWords
        ++ MAGIC_TRG_WORD2 :: MAGIC_TRG_WORD2 :: bank) _ i hbefore
      unfold skipLoop
      rw [show aa * 2 = aa * 2 + 0 from rfl, hget 0, hget 1]
      show (if p.1.toInt32 = MAGIC_TRG_WORD2.toInt32 ∧ p.2.toInt32 = MAGIC_TRG_WORD2.toInt32
        then _ else _) = _
      rw [if_neg hp, append_pair, hrest, List.length_cons, Nat.add_right_comm, Nat.add_assoc]

/-- A turn of the loop over the bits is that of the decoder, as a signed word has
the same bits. -/
theorem triggerTurn_eq (word1 word2 : UInt32) :
    triggerTurn word1.toInt32 word2.toInt32 = Triggers.turn word1 word2 := by
  funext s kk
  unfold triggerTurn Triggers.turn
  refine if_congr ?_ rfl rfl
  exact (sshiftRight_and_one word1.toInt32 kk).trans (shiftRight_and_one word1 kk).symm

/-- **The first loop is that of the decoder.** -/
theorem pairLoop_eq (before bank : List UInt32) (base : Nat) (hbase : before.length = base)
    (n ii : Nat) (s : Triggers) :
    pairLoop (before ++ bank) base n ii s = BDXmini.pairLoop bank n ii s := by
  -- turn by turn: both read the same words, the comparisons are of the same words
  -- with and without a sign, and the turns over the bits are equal
  induction n generalizing ii s with
  | zero => rfl
  | succ n ih =>
      unfold pairLoop BDXmini.pairLoop
      rw [Nat.add_assoc, getElem?_behind before bank base _ hbase,
        getElem?_behind before bank base _ hbase]
      cases bank[ii * 2]? with
      | none => rfl
      | some word1 =>
          cases bank[ii * 2 + 1]? with
          | none => rfl
          | some word2 =>
              refine if_congr (and_congr toInt32_eq_iff toInt32_eq_iff) rfl ?_
              rw [triggerTurn_eq]
              exact ih (ii + 1) _

/-- The second loop goes through the blocks behind its base, as many as it
is told. -/
theorem blockLoop_blocks (A : Arithmetic) (p : JEventProcessorTrigger) (rest : List UInt32)
    (base : Nat) (blocks : List Block) (before : List UInt32) (jj : Nat)
    (hbefore : before.length = base + jj * 4) :
    blockLoop A p (before ++ (blocks.flatMap Block.words ++ rest)) base blocks.length jj
      = some (blocks.map fun b => block A p b.maskLow b.maskHigh b.timeLow b.timeHigh) := by
  induction blocks generalizing before jj with
  | nil => rfl
  | cons b blocks ih =>
      have hrest := ih (before ++ b.words) (jj + 1) (by simp [hbefore, Block.words]; omega)
      have hget := fun i => getElem?_behind before
        ((b :: blocks).flatMap Block.words ++ rest) _ i hbefore
      rw [List.length_cons]
      unfold blockLoop
      rw [show base + jj * 4 = base + jj * 4 + 0 from rfl, hget 0, hget 1, hget 2, hget 3]
      show (blockLoop A p _ base blocks.length (jj + 1)).map
        (block A p b.maskLow b.maskHigh b.timeLow b.timeHigh :: ·) = _
      rw [append_block, hrest]
      rfl

/-! ## §5. The whole event. -/

section Event

variable {before pairs : List (UInt32 × UInt32)}
  (hbefore : ∀ q ∈ before, q ≠ (MAGIC_TRG_WORD2, MAGIC_TRG_WORD2))
  (hpairs : ∀ q ∈ pairs, q ≠ (MAGIC_TRG_WORD, MAGIC_TRG_WORD))

/-- The prefix of an event has two words for each pair, with those of the
magic pair. -/
theorem length_skipped (before : List (UInt32 × UInt32)) :
    (before.flatMap pairWords ++ [MAGIC_TRG_WORD2, MAGIC_TRG_WORD2]).length
      = (before.length + 1) * 2 := by
  rw [List.length_append, length_pairs]
  show 2 * before.length + 2 = _
  omega

/-- The words of an event are those of the prefix and of the bank. -/
theorem length_monitored (before : List (UInt32 × UInt32)) (bank : List UInt32) :
    (monitored before bank).length = (before.length + 1) * 2 + bank.length := by
  unfold monitored
  rw [List.length_append, length_skipped]

include hbefore in
/-- The loop over the prefix stops at the magic pair. -/
theorem skipLoop_monitored (bank : List UInt32) :
    skipLoop (monitored before bank) ((monitored before bank).length / 2) 0
      = some before.length := by
  have hlength := length_monitored before bank
  have hwords : monitored before bank
      = [] ++ (before.flatMap pairWords ++ MAGIC_TRG_WORD2 :: MAGIC_TRG_WORD2 :: bank) := by
    unfold monitored
    simp
  have hrun := skipLoop_pairs bank before hbefore [] ((monitored before bank).length / 2) 0 rfl
    (by omega)
  rw [← hwords, Nat.zero_add] at hrun
  exact hrun

include hpairs in
/-- Behind the prefix the first loop finds what the decoder finds in the bank. -/
theorem pairLoop_monitored (blocks : List Block) (rest : List UInt32) :
    pairLoop (monitored before (encode pairs blocks rest)) ((before.length + 1) * 2)
        ((encode pairs blocks rest).length / 2) 0 .zero
      = some (pairs.length, afterPairs .zero pairs) :=
  (pairLoop_eq _ _ _ (length_skipped before) _ 0 .zero).trans
    (pairLoop_encode pairs hpairs blocks rest)

/-- Behind the prefix the second loop finds the blocks of the bank. -/
theorem blockLoop_monitored (A : Arithmetic) (p : JEventProcessorTrigger)
    (before pairs : List (UInt32 × UInt32)) (blocks : List Block) (rest : List UInt32) :
    blockLoop A p (monitored before (encode pairs blocks rest))
        ((before.length + 1) * 2 + (pairs.length + 1) * 2) blocks.length 0
      = some (blocks.map fun b => block A p b.maskLow b.maskHigh b.timeLow b.timeHigh) := by
  have hwords : monitored before (encode pairs blocks rest)
      = (before.flatMap pairWords ++ [MAGIC_TRG_WORD2, MAGIC_TRG_WORD2]
          ++ (pairs.flatMap pairWords ++ [MAGIC_TRG_WORD, MAGIC_TRG_WORD]))
        ++ (blocks.flatMap Block.words ++ rest) := by
    unfold monitored encode
    simp
  rw [hwords]
  refine blockLoop_blocks A p rest _ blocks _ 0 ?_
  rw [List.length_append, length_skipped, List.length_append, length_pairs]
  show (before.length + 1) * 2 + (2 * pairs.length + 2) = _
  omega

include hbefore hpairs in
/-- What the plugin makes of an event: the triggers of its pairs, and the channels
seen in its blocks. -/
theorem monitor_monitored (A : Arithmetic) (p : JEventProcessorTrigger) (blocks : List Block)
    {rest : List UInt32} (hrest : rest.length ≤ 3) :
    p.monitor A (monitored before (encode pairs blocks rest))
      = some (fill (afterPairs .zero pairs)
          (blocks.map fun b => block A p b.maskLow b.maskHigh b.timeLow b.timeHigh)) := by
  have hlength := length_monitored before (encode pairs blocks rest)
  have hbank := length_encode pairs blocks rest
  have hn : (Int.tdiv (((monitored before (encode pairs blocks rest)).length : Int)
      - (before.length + 1 : Nat) * 2) 2).toNat = (encode pairs blocks rest).length / 2 := by
    rw [Int.tdiv_eq_ediv_of_nonneg (by omega)]
    omega
  have hm : (Int.tdiv (((monitored before (encode pairs blocks rest)).length : Int)
      - (pairs.length + 1 : Nat) * 2 - (before.length + 1 : Nat) * 2) 4).toNat = blocks.length := by
    rw [Int.tdiv_eq_ediv_of_nonneg (by omega)]
    omega
  unfold monitor
  rw [skipLoop_monitored hbefore]
  dsimp only
  rw [hn, pairLoop_monitored hpairs]
  dsimp only
  rw [hm, blockLoop_monitored]
  rfl

end Event

/-! ## §6. When the histograms show the blocks. -/

/-- The one test for all channels is right for a block. -/
structure ShownRight (A : Arithmetic) (p : JEventProcessorTrigger) (b : Block) : Prop where
  even : lastBit A b = false → b.mask = 0
  odd : lastBit A b = true → ∀ k : Fin nChansMax, b.mask.toNat.testBit k = true ↔ A.shl 1 k ≠ 0
  time : lastBit A b = true → p.seenInWindow A b = p.decoder.inWindow b

/-- A channel is seen when the last bit of the mask is set and the shifted 1
is not zero. -/
theorem mem_seen {A : Arithmetic} {b : Block} {k : Fin nChansMax} :
    k ∈ seen A b ↔ A.shl 1 k ≠ 0 ∧ lastBit A b = true := by
  unfold seen
  rw [List.mem_filter, Bool.and_eq_true, bne_iff_ne]
  exact and_iff_right (List.mem_finRange k)

/-- A channel is one of a block when its bit in the mask is set. -/
theorem mem_channelsOf {b : Block} {k : Fin nChansMax} :
    k ∈ channelsOf b ↔ b.mask.toNat.testBit k = true := by
  unfold channelsOf
  rw [List.mem_filter]
  exact and_iff_right (List.mem_finRange k)

/-- A block whose mask is computed as an odd number has its first channel shown. -/
theorem zero_mem_seen {A : Arithmetic} {b : Block} (h : lastBit A b = true) : 0 ∈ seen A b :=
  mem_seen.mpr ⟨A.one_shl_ne_zero (by decide), h⟩

/-- A block whose mask is computed as an even number has no channel shown. -/
theorem seen_of_even {A : Arithmetic} {b : Block} (h : lastBit A b = false) : seen A b = [] := by
  refine List.eq_nil_iff_forall_not_mem.mpr fun k hk => ?_
  exact absurd (mem_seen.mp hk).2 (Bool.eq_false_iff.mp h)

/-- A block has no channels exactly when its mask is zero. -/
theorem channelsOf_eq_nil_iff {b : Block} : channelsOf b = [] ↔ b.mask = 0 := by
  constructor
  · intro h
    refine eq_of_testBit fun k => ?_
    have hk : k ∉ channelsOf b := by
      rw [h]
      exact List.not_mem_nil
    rw [Bool.eq_false_iff.mpr (mt mem_channelsOf.mpr hk)]
    exact (Nat.zero_testBit k).symm
  · intro h
    refine List.eq_nil_iff_forall_not_mem.mpr fun k hk => ?_
    rw [mem_channelsOf, h] at hk
    exact absurd hk (by rw [show (0 : UInt64).toNat = 0 from rfl, Nat.zero_testBit]; decide)

/-- The channels seen are those of the block when they have the same members, as
both lists are in order. -/
theorem seen_eq_iff {A : Arithmetic} {b : Block} :
    seen A b = channelsOf b ↔ ∀ k, k ∈ seen A b ↔ k ∈ channelsOf b := by
  constructor
  · intro h k
    rw [h]
  · intro h
    refine List.filter_congr fun k _ => Bool.eq_iff_iff.mpr ?_
    have hk := h k
    rw [mem_seen, mem_channelsOf] at hk
    rw [Bool.and_eq_true, bne_iff_ne]
    exact hk

/-- **What the test for all channels is right for**, in both histograms of
the channels. -/
theorem shownRight_iff (A : Arithmetic) (p : JEventProcessorTrigger) (b : Block) :
    (seen A b = channelsOf b ∧ (if p.seenInWindow A b then seen A b else [])
        = if p.decoder.inWindow b then channelsOf b else [])
      ↔ ShownRight A p b := by
  constructor
  · rintro ⟨hall, htrg⟩
    refine ⟨fun heven => ?_, fun hodd k => ?_, fun hodd => ?_⟩
    · exact channelsOf_eq_nil_iff.mp (hall.symm.trans (seen_of_even heven))
    · rw [← mem_channelsOf, ← hall, mem_seen]
      exact and_iff_left hodd
    · -- the list that both have or have not is not empty
      rw [← hall] at htrg
      have hne : seen A b ≠ [] := List.ne_nil_of_mem (zero_mem_seen hodd)
      cases hseen : p.seenInWindow A b <;> cases hin : p.decoder.inWindow b
      · rfl
      · rw [hseen, hin] at htrg
        exact absurd htrg.symm hne
      · rw [hseen, hin] at htrg
        exact absurd htrg hne
      · rfl
  · intro h
    cases hbit : lastBit A b with
    | false =>
        have hall : seen A b = channelsOf b := by
          rw [seen_of_even hbit, channelsOf_eq_nil_iff.mpr (h.even hbit)]
        refine ⟨hall, ?_⟩
        rw [← hall, seen_of_even hbit, ite_self, ite_self]
    | true =>
        have hall : seen A b = channelsOf b := by
          refine seen_eq_iff.mpr fun k => ?_
          rw [mem_seen, mem_channelsOf, h.odd hbit k]
          exact and_iff_left hbit
        exact ⟨hall, by rw [hall, h.time hbit]⟩

/-- A channel is in one of some blocks when its bit is set in one of the masks. -/
theorem mem_flatten_channels (blocks : List Block) (k : Fin nChansMax) :
    k ∈ (blocks.map channelsOf).flatten ↔ (blocks.any fun b => b.mask.toNat.testBit k) = true := by
  rw [List.any_eq_true, List.mem_flatten]
  constructor
  · rintro ⟨l, hl, hk⟩
    obtain ⟨b, hb, rfl⟩ := List.mem_map.mp hl
    exact ⟨b, hb, mem_channelsOf.mp hk⟩
  · rintro ⟨b, hb, hk⟩
    exact ⟨channelsOf b, List.mem_map_of_mem hb, mem_channelsOf.mpr hk⟩

/-- A channel is in the window when its bit is set in a block whose time is. -/
theorem mem_flatten_channelsTRG (f : Factory) (blocks : List Block) (k : Fin nChansMax) :
    k ∈ (blocks.map fun b => if f.inWindow b then channelsOf b else []).flatten
      ↔ (blocks.any fun b => f.inWindow b && b.mask.toNat.testBit k) = true := by
  rw [List.any_eq_true, List.mem_flatten]
  constructor
  · rintro ⟨l, hl, hk⟩
    obtain ⟨b, hb, rfl⟩ := List.mem_map.mp hl
    by_cases hin : f.inWindow b = true
    · rw [if_pos hin] at hk
      exact ⟨b, hb, Bool.and_eq_true_iff.mpr ⟨hin, mem_channelsOf.mp hk⟩⟩
    · rw [if_neg hin] at hk
      exact absurd hk List.not_mem_nil
  · rintro ⟨b, hb, hk⟩
    obtain ⟨hin, hk⟩ := Bool.and_eq_true_iff.mp hk
    refine ⟨_, List.mem_map_of_mem hb, ?_⟩
    rw [if_pos hin]
    exact mem_channelsOf.mpr hk

/-- What the decoder makes of the bank, when it is given the bank alone. -/
theorem decoder_evnt (p : JEventProcessorTrigger) {tData : EventData}
    (hEPICS : tData.eventType ≠ .EPICS) {pairs : List (UInt32 × UInt32)}
    (hpairs : ∀ q ∈ pairs, q ≠ (MAGIC_TRG_WORD, MAGIC_TRG_WORD)) (blocks : List Block)
    {rest : List UInt32} (hrest : rest.length ≤ 3) :
    p.decoder.evnt (some { tData with triggerWords := encode pairs blocks rest })
      = some (.NOERROR, [decoded p.decoder (encode pairs blocks rest) pairs blocks]) := by
  unfold Factory.evnt
  rw [if_neg (show ¬ p.decoder.m_isMC = true from Bool.false_ne_true)]
  show (if tData.eventType = .EPICS then _ else _) = _
  rw [if_neg hEPICS, decode_encode p.decoder pairs hpairs blocks rest hrest]
  rfl

/-- What the plugin makes of an event with a prefix and a bank. -/
theorem evnt_monitored (A : Arithmetic) (p : JEventProcessorTrigger) {tData : EventData}
    (hEPICS : tData.eventType ≠ .EPICS) {before pairs : List (UInt32 × UInt32)}
    (hbefore : ∀ q ∈ before, q ≠ (MAGIC_TRG_WORD2, MAGIC_TRG_WORD2))
    (hpairs : ∀ q ∈ pairs, q ≠ (MAGIC_TRG_WORD, MAGIC_TRG_WORD)) {blocks : List Block}
    {rest : List UInt32} (hrest : rest.length ≤ 3)
    (hwords : tData.triggerWords = monitored before (encode pairs blocks rest)) :
    p.evnt A (some tData) = some (.NOERROR, fill (afterPairs .zero pairs)
      (blocks.map fun b => block A p b.maskLow b.maskHigh b.timeLow b.timeHigh)) := by
  unfold evnt
  dsimp only
  rw [if_neg hEPICS, hwords, monitor_monitored hbefore hpairs A p blocks hrest]
  rfl

/-- The histogram of all channels shows the channels seen, block by block. -/
theorem fill_all (A : Arithmetic) (p : JEventProcessorTrigger) (s : Triggers)
    (blocks : List Block) :
    (fill s (blocks.map fun b =>
      block A p b.maskLow b.maskHigh b.timeLow b.timeHigh)).hChannels_ALL
        = blocks.map (seen A) :=
  (List.map_map ..).trans (List.map_congr_left fun b _ => block_all A p b)

/-- The histogram of the channels in the window shows the channels seen of the
blocks in it. -/
theorem fill_trg (A : Arithmetic) (p : JEventProcessorTrigger) (s : Triggers)
    (blocks : List Block) :
    (fill s (blocks.map fun b =>
      block A p b.maskLow b.maskHigh b.timeLow b.timeHigh)).hChannels_TRG
        = blocks.map fun b => if p.seenInWindow A b then seen A b else [] :=
  (List.map_map ..).trans (List.map_congr_left fun b _ => block_trg A p b)

/-- Histograms that show the blocks show what the decoder finds. -/
theorem shows_decoded {p : JEventProcessorTrigger} {blocks : List Block} {h : Histograms}
    (hall : h.hChannels_ALL = blocks.map channelsOf)
    (htrg : h.hChannels_TRG
      = blocks.map fun b => if p.decoder.inWindow b then channelsOf b else [])
    (words : List UInt32) (pairs : List (UInt32 × UInt32)) :
    p.Shows blocks h (decoded p.decoder words pairs blocks) := by
  refine ⟨hall, htrg, fun k => ?_, fun k => ?_⟩
  · rw [hall, mem_flatten_channels]
    show _ ↔ (afterBlocks p.decoder .zero blocks).channels k = true
    rw [afterBlocks_channels]
    rfl
  · rw [htrg, mem_flatten_channelsTRG]
    show _ ↔ (afterBlocks p.decoder .zero blocks).channelsTRG k = true
    rw [afterBlocks_channelsTRG]
    rfl

/-- The plugin agrees with the decoder when the test is right for every block. -/
theorem agrees_iff_shownRight (A : Arithmetic) (p : JEventProcessorTrigger) {tData : EventData}
    (hEPICS : tData.eventType ≠ .EPICS) {before pairs : List (UInt32 × UInt32)}
    (hbefore : ∀ q ∈ before, q ≠ (MAGIC_TRG_WORD2, MAGIC_TRG_WORD2))
    (hpairs : ∀ q ∈ pairs, q ≠ (MAGIC_TRG_WORD, MAGIC_TRG_WORD)) {blocks : List Block}
    {rest : List UInt32} (hrest : rest.length ≤ 3)
    (hwords : tData.triggerWords = monitored before (encode pairs blocks rest)) :
    AgreesWithDecoder A p tData (encode pairs blocks rest) blocks
      ↔ ∀ b ∈ blocks, ShownRight A p b := by
  have hevnt := evnt_monitored A p hEPICS hbefore hpairs hrest hwords
  constructor
  · rintro ⟨h, t, hrun, -, hshows⟩ b hb
    rw [hevnt] at hrun
    obtain rfl : _ = h := congrArg Prod.snd (Option.some.inj hrun)
    have hall := hshows.all
    have htrg := hshows.trg
    rw [fill_all] at hall
    rw [fill_trg] at htrg
    exact (shownRight_iff A p b).mp
      ⟨List.map_inj_left.mp hall b hb, List.map_inj_left.mp htrg b hb⟩
  · intro h
    have hright := fun b hb => (shownRight_iff A p b).mpr (h b hb)
    refine ⟨_, _, hevnt, decoder_evnt p hEPICS hpairs blocks hrest, shows_decoded ?_ ?_ _ pairs⟩
    · rw [fill_all]
      exact List.map_congr_left fun b hb => (hright b hb).1
    · rw [fill_trg]
      exact List.map_congr_left fun b hb => (hright b hb).2

/-! ## §7. The last bit is left open. -/

/-- Whatever the words, there is a program that finds an odd sum, and one that
finds an even one. -/
theorem lastBit_wrapping (b : Block) :
    lastBit (.wrapping 1) b = !lastBit (.wrapping 0) b :=
  getLsbD_zero_one_add b.maskLow.toInt32

/-- No block is shown right by all programs: its mask is odd for one of them and
even for another. -/
theorem not_shownRight_both (p : JEventProcessorTrigger) (b : Block)
    (h : ∀ A, ShownRight A p b) : False := by
  -- an odd sum asks for channel 0, an even one for no channel at all
  have hne : ∀ A A' : Arithmetic, lastBit A b = true → lastBit A' b = false → False := by
    intro A A' hodd heven
    have hbit := ((h A).odd hodd 0).mpr (A.one_shl_ne_zero (by decide))
    rw [(h A').even heven] at hbit
    exact absurd hbit (by decide)
  cases hbit : lastBit (.wrapping 0) b with
  | false =>
      refine hne (.wrapping 1) (.wrapping 0) ?_ hbit
      rw [lastBit_wrapping, hbit]
      rfl
  | true =>
      refine hne (.wrapping 0) (.wrapping 1) hbit ?_
      rw [lastBit_wrapping, hbit]
      rfl

/-- **The plugin agrees with the decoder** for a compiled program when its one
test is right for every block, and for every compiled program when there is no
block. -/
theorem monitoring_agrees_iff (p : JEventProcessorTrigger) (tData : EventData)
    (hEPICS : tData.eventType ≠ .EPICS) (before pairs : List (UInt32 × UInt32))
    (hbefore : ∀ q ∈ before, q ≠ (MAGIC_TRG_WORD2, MAGIC_TRG_WORD2))
    (hpairs : ∀ q ∈ pairs, q ≠ (MAGIC_TRG_WORD, MAGIC_TRG_WORD)) (blocks : List Block)
    (rest : List UInt32) (hrest : rest.length ≤ 3)
    (hwords : tData.triggerWords = monitored before (encode pairs blocks rest)) :
    (∀ A, AgreesWithDecoder A p tData (encode pairs blocks rest) blocks
        ↔ ∀ b ∈ blocks, ShownRight A p b)
      ∧ ((∀ A, AgreesWithDecoder A p tData (encode pairs blocks rest) blocks) ↔ blocks = []) := by
  have hagrees : ∀ A, AgreesWithDecoder A p tData (encode pairs blocks rest) blocks
      ↔ ∀ b ∈ blocks, ShownRight A p b := fun A =>
    agrees_iff_shownRight A p hEPICS hbefore hpairs hrest hwords
  refine ⟨hagrees, fun h => ?_, fun h A => ?_⟩
  · refine List.eq_nil_iff_forall_not_mem.mpr fun b hb => ?_
    exact not_shownRight_both p b fun A => (hagrees A).mp (h A) b hb
  · rw [hagrees, h]
    exact List.forall_mem_nil _

/-- A block without channels is shown by a program that loses the high word, and
not by every program. -/
theorem empty_block_monitored :
    AgreesWithDecoder (.wrapping 0) .init
        ⟨1, 0, 0, 7, 0, monitored [(1, 2)] (encode [(0x5, 3)] [⟨0, 0, 0, 0⟩] []), .DAQ⟩
        (encode [(0x5, 3)] [⟨0, 0, 0, 0⟩] []) [⟨0, 0, 0, 0⟩]
      ∧ ¬ ∀ A, AgreesWithDecoder A .init
        ⟨1, 0, 0, 7, 0, monitored [(1, 2)] (encode [(0x5, 3)] [⟨0, 0, 0, 0⟩] []), .DAQ⟩
        (encode [(0x5, 3)] [⟨0, 0, 0, 0⟩] []) [⟨0, 0, 0, 0⟩] := by
  obtain ⟨hone, hevery⟩ := monitoring_agrees_iff .init
    ⟨1, 0, 0, 7, 0, monitored [(1, 2)] (encode [(0x5, 3)] [⟨0, 0, 0, 0⟩] []), .DAQ⟩ (by decide)
    [(1, 2)] [(0x5, 3)] (List.forall_mem_singleton.mpr (by decide))
    (List.forall_mem_singleton.mpr (by decide)) [⟨0, 0, 0, 0⟩] [] (by decide) rfl
  refine ⟨(hone _).mpr (List.forall_mem_singleton.mpr ?_), fun h => ?_⟩
  · have heven : lastBit (.wrapping 0) ⟨0, 0, 0, 0⟩ = false := by decide
    exact ⟨fun _ => rfl, fun h => absurd h (by rw [heven]; decide),
      fun h => absurd h (by rw [heven]; decide)⟩
  · exact List.cons_ne_nil _ _ (hevery.mp h)

/-- Channel 1 alone is set: no program shows it without channel 0. -/
theorem channel_one_not_shown :
    ¬ ∃ A, AgreesWithDecoder A .init
      ⟨1, 0, 0, 7, 0, monitored [] (encode [] [⟨2, 0, 0, 0⟩] []), .DAQ⟩
      (encode [] [⟨2, 0, 0, 0⟩] []) [⟨2, 0, 0, 0⟩] := by
  rintro ⟨A, h⟩
  have hnone : ∀ w : UInt32, ∀ q ∈ ([] : List (UInt32 × UInt32)), q ≠ (w, w) := fun _ _ hq =>
    absurd hq List.not_mem_nil
  have hrest : ([] : List UInt32).length ≤ 3 := Nat.zero_le 3
  have h := (agrees_iff_shownRight A .init (by decide) (hnone _) (hnone _) hrest rfl).mp h _
    (List.mem_singleton.mpr rfl)
  cases hbit : lastBit A ⟨2, 0, 0, 0⟩ with
  | false => exact absurd (h.even hbit) (by decide)
  | true =>
      have hzero := (h.odd hbit 0).mpr (A.one_shl_ne_zero (by decide))
      exact absurd hzero (by decide)

end JEventProcessorTrigger

end PokerReco.BDXmini
