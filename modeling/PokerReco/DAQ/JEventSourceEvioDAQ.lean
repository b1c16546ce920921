/-
  PokerReco.DAQ.JEventSourceEvioDAQ
  ─────────────────────────────────
  **FADC HITS FROM AN EVIO EVENT** (`DAQ/JEventSourceEVIODAQ.cc`,
  `GetObjects`).

  An event is a tree of banks.  `GetObjects` goes through the list of all its
  nodes, and for each node with the tag of a VME crate through its children,
  and decodes the children that hold the data asked for:

      fa250Mode1Hit   child_mode1_tag, `decode`, the result of `getData`
      fa250Mode7Hit   child_mode7_tag, `decode`, the result of `getDataPulse`

  The order of `getNodeList` is the library's, so the list is a parameter.
-/
import PokerReco.EvioReader.EvioCompositeDecoder
import PokerReco.JANA.Basic
import PokerReco.TT.Index

namespace PokerReco.DAQ

open PokerReco.EvioReader PokerReco.JANA PokerReco.Library PokerReco.TT

/-! ## §1. The event tree. -/

/-- `evioDOMNode`: a container with its children, or a leaf of words or of
strings. -/
inductive Node where
  | container (tag : Int) (children : List Node)
  /-- A leaf of 32-bit words. -/
  | words (tag : Int) (data : List UInt32)
  /-- A leaf of strings. -/
  | strings (tag : Int) (data : List String)

namespace Node

/-- `node->tag`, by which the walks go. -/
def tag : Node → Int
  | container tag _ => tag
  | words tag _ => tag
  | strings tag _ => tag

/-- `getChildList`: `NULL` for a leaf. -/
def getChildList : Node → Option (List Node)
  | container _ children => some children
  | words _ _ => none
  | strings _ _ => none

/-- The words of the node, seen as a leaf of words. -/
def data : Node → Option (List UInt32)
  | words _ data => some data
  | container _ _ => none
  | strings _ _ => none

end Node

/-- The tags `GetObjects` looks for, in the members of the source. -/
structure JEventSourceEvioDAQ where
  vme_mother_tag : Int
  child_mode1_tag : Int
  child_mode7_tag : Int
  deriving DecidableEq, Repr

/-- The tags the constructor sets, before the parameters. -/
def JEventSourceEvioDAQ.default : JEventSourceEvioDAQ where
  vme_mother_tag := 0x50
  child_mode1_tag := 0xe101
  child_mode7_tag := 0xe102

/-! ## §2. The hits. -/

/-- `fa250Mode1Hit`, the members the source sets. -/
structure Fa250Mode1Hit where
  m_channel : Csc
  trigger : Int32
  timestamp : UInt64
  samplesRaw : List Int32
  deriving DecidableEq, Repr

/-- `fa250Mode7Hit`, the members the source sets. -/
structure Fa250Mode7Hit where
  m_channel : Csc
  trigger : Int32
  timestamp : UInt64
  pulses : List Pulse
  deriving DecidableEq, Repr

/-- The hit that `GetObjects` makes of the data of one channel that the decoder
has found. -/
def mode1Hit (decdata : CompositeADC UInt64 Int16) : Fa250Mode1Hit where
  m_channel := { rocid := 0, slot := decdata.slot, channel := decdata.channel }
  trigger := decdata.trigger
  timestamp := decdata.time
  samplesRaw := decdata.entries.map Int16.toInt32

/-- The hit that `GetObjects` makes of the pulses of one channel that the decoder
has found. -/
def mode7Hit (decdata : CompositeADC Int32 Pulse) : Fa250Mode7Hit where
  m_channel := { rocid := 0, slot := decdata.slot, channel := decdata.channel }
  trigger := decdata.trigger
  timestamp := .ofInt decdata.time.toInt
  pulses := decdata.entries

/-! ## §3. `GetObjects`. -/

/-- The variables of `GetObjects`; `calls` counts the calls of the decoder. -/
structure Walk (H : Type) where
  decoder : EvioCompositeDecoder
  calls : Nat
  data : List H

namespace Walk

variable {H : Type}

/-- The walk at its beginning, with a new decoder and no hits. -/
def start : Walk H := ⟨.new, 0, []⟩

/-- The loop over the children of a node; `none` through the cast of a node
that is no leaf of words. -/
def overBranches (child_tag : Int) (onBank : Walk H → List UInt32 → Walk H) :
    Walk H → List Node → Option (Walk H)
  | w, [] => some w
  | w, branch :: rest =>
      if branch.tag = child_tag then
        match branch.data with
        | none => none
        | some pData => overBranches child_tag onBank (onBank w pData) rest
      else overBranches child_tag onBank w rest

/-- The loop over the nodes; `none` through a `NULL` child list. -/
def overNodes (vme_mother_tag child_tag : Int) (onBank : Walk H → List UInt32 → Walk H) :
    Walk H → List Node → Option (Walk H)
  | w, [] => some w
  | w, node :: rest =>
      if node.tag = vme_mother_tag then
        match node.getChildList with
        | none => none
        | some leafList =>
            match overBranches child_tag onBank w leafList with
            | none => none
            | some w => overNodes vme_mother_tag child_tag onBank w rest
      else overNodes vme_mother_tag child_tag onBank w rest

/-- A mode-1 bank is decoded and its hits are added; `after n` is what follows the
bank of the `n`th call. -/
def onMode1Bank (after : Nat → Memory) (w : Walk Fa250Mode1Hit) (pData : List UInt32) :
    Walk Fa250Mode1Hit :=
  let decoder := w.decoder.decode pData (after w.calls)
  let w := { w with decoder := decoder, calls := w.calls + 1 }
  if decoder.getData.length > 0 then { w with data := w.data ++ decoder.getData.map mode1Hit }
  else w

/-- A mode-7 bank is decoded by the function for samples, while the hits are taken
from the buffer for pulses. -/
def onMode7Bank (after : Nat → Memory) (w : Walk Fa250Mode7Hit) (pData : List UInt32) :
    Walk Fa250Mode7Hit :=
  -- the decoder and the guard of mode 1, the results of mode 7
  let decoder := w.decoder.decode pData (after w.calls)
  let w := { w with decoder := decoder, calls := w.calls + 1 }
  if decoder.getData.length > 0 then { w with data := w.data ++ decoder.getDataPulse.map mode7Hit }
  else w

end Walk

namespace JEventSourceEvioDAQ

/-- `GetObjects` for `fa250Mode1Hit`, on the list of all nodes. -/
def GetObjectsMode1 (s : JEventSourceEvioDAQ) (after : Nat → Memory) (fullList : List Node) :
    Option (JError × List Fa250Mode1Hit) :=
  (Walk.overNodes s.vme_mother_tag s.child_mode1_tag (Walk.onMode1Bank after) .start fullList).map
    fun w => (.NOERROR, w.data)

/-- `GetObjects` for `fa250Mode7Hit`, on the list of all nodes. -/
def GetObjectsMode7 (s : JEventSourceEvioDAQ) (after : Nat → Memory) (fullList : List Node) :
    Option (JError × List Fa250Mode7Hit) :=
  (Walk.overNodes s.vme_mother_tag s.child_mode7_tag (Walk.onMode7Bank after) .start fullList).map
    fun w => (.NOERROR, w.data)

end JEventSourceEvioDAQ

/-! ## §4. The walk. -/

/-- The banks with a tag: the children with it of the nodes with the tag of a
crate, node after node. -/
def banksUnder (vme_mother_tag child_tag : Int) (fullList : List Node) : List Node :=
  fullList.flatMap fun node =>
    if node.tag = vme_mother_tag then
      (node.getChildList.getD []).filter fun branch => branch.tag = child_tag
    else []

/-- No leaf has the tag of a crate, and so each crate has a list of children. -/
def CratesHaveChildren (vme_mother_tag : Int) (fullList : List Node) : Prop :=
  ∀ node ∈ fullList, node.tag = vme_mother_tag → node.getChildList ≠ none

namespace Walk

variable {H : Type} {vme_mother_tag child_tag : Int} {onBank : Walk H → List UInt32 → Walk H}

/-- The loop over the children works on those with the tag, in order, when all of
them are leaves of words. -/
theorem overBranches_eq {branches : List Node} {vecs : List (List UInt32)} {w : Walk H}
    (h : (branches.filter fun branch => branch.tag = child_tag) = vecs.map (.words child_tag)) :
    overBranches child_tag onBank w branches = some (vecs.foldl onBank w) := by
  induction branches generalizing w vecs with
  | nil =>
      obtain rfl : vecs = [] := List.map_eq_nil_iff.mp h.symm
      rfl
  | cons branch rest ih =>
      by_cases htag : branch.tag = child_tag
      · rw [List.filter_cons_of_pos (by simpa using htag)] at h
        obtain ⟨vec, vecs, rfl, rfl, hrest⟩ := List.map_eq_cons_iff.mp h.symm
        show (if child_tag = child_tag then overBranches child_tag onBank (onBank w vec) rest
          else _) = _
        rw [if_pos rfl]
        exact ih hrest.symm
      · rw [List.filter_cons_of_neg (by simpa using htag)] at h
        simp only [overBranches, htag, if_false]
        exact ih h

/-- When every crate has children, the walk works on its banks in order. -/
theorem overNodes_eq {nodes : List Node} {vecs : List (List UInt32)} {w : Walk H}
    (hcrates : CratesHaveChildren vme_mother_tag nodes)
    (h : banksUnder vme_mother_tag child_tag nodes = vecs.map (.words child_tag)) :
    overNodes vme_mother_tag child_tag onBank w nodes = some (vecs.foldl onBank w) := by
  induction nodes generalizing w vecs with
  | nil =>
      obtain rfl : vecs = [] := List.map_eq_nil_iff.mp h.symm
      rfl
  | cons node rest ih =>
      have hrest : CratesHaveChildren vme_mother_tag rest := fun node hmem =>
        hcrates node (List.mem_cons_of_mem _ hmem)
      rw [banksUnder, List.flatMap_cons] at h
      by_cases htag : node.tag = vme_mother_tag
      · obtain ⟨leafList, hchildren⟩ :=
          Option.ne_none_iff_exists'.mp (hcrates node List.mem_cons_self htag)
        rw [if_pos htag, hchildren, Option.getD_some] at h
        -- the banks of this crate, then those of the crates behind it
        obtain ⟨first, later, rfl, hfirst, hlater⟩ := List.map_eq_append_iff.mp h.symm
        have hbranches : overBranches child_tag onBank w leafList
            = some (first.foldl onBank w) := overBranches_eq hfirst.symm
        simp only [overNodes, htag, if_true, hchildren, hbranches, List.foldl_append]
        exact ih hrest hlater.symm
      · rw [if_neg htag, List.nil_append] at h
        simp only [overNodes, htag, if_false]
        exact ih hrest h

/-- A leaf with the tag of a crate is fatal: its list of children is `NULL`. -/
theorem overNodes_none {nodes : List Node} {w : Walk H} {node : Node} (hmem : node ∈ nodes)
    (htag : node.tag = vme_mother_tag) (hleaf : node.getChildList = none) :
    overNodes vme_mother_tag child_tag onBank w nodes = none := by
  induction nodes generalizing w with
  | nil => cases hmem
  | cons first rest ih =>
      obtain rfl | hrest := List.mem_cons.mp hmem
      · simp only [overNodes, htag, if_true, hleaf]
      -- a node before the leaf ends the walk itself, or hands it on
      · simp only [overNodes]
        split
        · split
          · rfl
          · split
            · rfl
            · exact ih hrest
        · exact ih hrest

/-! ## §5. Mode 1. -/

/-- An encoded bank adds its hits, and none when it has no block. -/
theorem onMode1Bank_data (after : Nat → Memory) (w : Walk Fa250Mode1Hit)
    (blocks : List Mode1Block) :
    (onMode1Bank after w (mode1Layout.encodeBank blocks)).data
      = w.data ++ (mode1Layout.decodedBlocks blocks).map mode1Hit := by
  simp only [onMode1Bank, decode_encodeBank]
  split
  · rfl
  -- the guard skips a bank without hits, which would add none
  · have hnil : mode1Layout.decodedBlocks blocks = [] := List.eq_nil_of_length_eq_zero (by omega)
    rw [hnil, List.map_nil, List.append_nil]

/-- Encoded banks add their hits one after the other. -/
theorem foldl_onMode1Bank (after : Nat → Memory) (banks : List (List Mode1Block))
    (w : Walk Fa250Mode1Hit) :
    ((banks.map mode1Layout.encodeBank).foldl (onMode1Bank after) w).data
      = w.data ++ banks.flatMap fun blocks => (mode1Layout.decodedBlocks blocks).map mode1Hit := by
  induction banks generalizing w with
  | nil =>
      show w.data = w.data ++ []
      rw [List.append_nil]
  | cons blocks banks ih =>
      rw [List.map_cons, List.foldl_cons, ih, onMode1Bank_data, List.flatMap_cons,
        List.append_assoc]

end Walk

/-- The hit of one channel of a block, with the slot and the trigger of
the block. -/
def Mode1Block.hit (b : Mode1Block) (c : Channel Int16) : Fa250Mode1Hit where
  m_channel := { rocid := 0, slot := b.slot, channel := c.channel }
  trigger := b.trigger
  timestamp := .ofNat b.time.toNat
  samplesRaw := c.entries.map Int16.toInt32

/-- The hits of some banks: one for each channel, in order. -/
def mode1Hits (banks : List (List Mode1Block)) : List Fa250Mode1Hit :=
  banks.flatMap fun blocks => blocks.flatMap fun b => b.channels.map (Mode1Block.hit b)

/-- What the decoder finds in encoded blocks gives the hit of each of
their channels. -/
theorem map_mode1Hit_decodedBlocks (blocks : List Mode1Block) :
    (mode1Layout.decodedBlocks blocks).map mode1Hit
      = blocks.flatMap fun b => b.channels.map (Mode1Block.hit b) := by
  have hchannel : ∀ (b : Mode1Block) (c : Channel Int16),
      mode1Hit (mode1Layout.decodedChannel b c) = Mode1Block.hit b c := by
    intro b c
    simp only [mode1Hit, Mode1Block.hit, Layout.decodedChannel, mode1Layout, List.map_id']
  rw [Layout.decodedBlocks, List.map_flatMap]
  simp only [List.map_map, Function.comp_def, hchannel]

/-- The event's mode-1 banks hold the encodings of these block lists. -/
def HoldsMode1 (s : JEventSourceEvioDAQ) (fullList : List Node)
    (banks : List (List Mode1Block)) : Prop :=
  banksUnder s.vme_mother_tag s.child_mode1_tag fullList
    = banks.map fun blocks => .words s.child_mode1_tag (mode1Layout.encodeBank blocks)

/-- **Mode-1 hits are exactly what was encoded**, one for each channel, bank
after bank and in order, whatever follows the banks in memory, if and only if
no leaf of the event has the tag of a crate. -/
theorem mode1_hits_iff (s : JEventSourceEvioDAQ) (after : Nat → Memory) (fullList : List Node)
    (banks : List (List Mode1Block)) (hbanks : HoldsMode1 s fullList banks) :
    s.GetObjectsMode1 after fullList = some (.NOERROR, mode1Hits banks)
      ↔ CratesHaveChildren s.vme_mother_tag fullList := by
  constructor
  · intro hresult node hmem htag hleaf
    rw [JEventSourceEvioDAQ.GetObjectsMode1, Walk.overNodes_none hmem htag hleaf] at hresult
    cases hresult
  · intro hcrates
    -- the walk is a fold over the banks, and each adds its own hits
    have hvecs : banksUnder s.vme_mother_tag s.child_mode1_tag fullList
        = (banks.map mode1Layout.encodeBank).map (.words s.child_mode1_tag) := by
      rw [List.map_map]
      exact hbanks
    rw [JEventSourceEvioDAQ.GetObjectsMode1, Walk.overNodes_eq hcrates hvecs, Option.map_some,
      Walk.foldl_onMode1Bank]
    simp only [map_mode1Hit_decodedBlocks]
    rfl

/-- One crate with one bank: a block with one channel of three samples. -/
def oneBlock : Mode1Block where
  slot := 3
  trigger := 7
  time := 0x0123456789ab
  channels := [{ channel := 5, entries := [100, -2, 101], count := by decide }]
  slot_pos := by decide
  slot_le := by decide
  channels_pos := by decide
  channels_le := by decide

/-- The bank that holds this block, with the tag of a mode-1 bank. -/
def oneBlockBank : Node := .words 0xe101 (mode1Layout.encodeBank [oneBlock])

/-- The nodes of an event with this bank in its one crate. -/
def oneBlockEvent : List Node :=
  [.container 0x81 [.container 0x50 [oneBlockBank]], .container 0x50 [oneBlockBank], oneBlockBank]

/-- The hit of the one channel is read back, with all its samples. -/
theorem one_block_hits :
    JEventSourceEvioDAQ.default.GetObjectsMode1 (fun _ _ => 0xff) oneBlockEvent
      = some (.NOERROR, mode1Hits [[oneBlock]]) := by
  have hbanks : HoldsMode1 JEventSourceEvioDAQ.default oneBlockEvent [[oneBlock]] := rfl
  refine (mode1_hits_iff _ _ oneBlockEvent [[oneBlock]] hbanks).mpr (fun node hmem htag => ?_)
  simp only [oneBlockEvent, List.mem_cons, List.not_mem_nil, or_false] at hmem
  obtain rfl | rfl | rfl := hmem
  · exact Option.some_ne_none _
  · exact Option.some_ne_none _
  · exact absurd htag (show (0xe101 : Int) ≠ 0x50 by decide)

/-- **A leaf with the tag of a crate**: its `NULL` child list is iterated. -/
theorem crate_leaf_dereferenced :
    ¬ ∀ (fullList : List Node) (banks : List (List Mode1Block)),
      HoldsMode1 JEventSourceEvioDAQ.default fullList banks →
      JEventSourceEvioDAQ.default.GetObjectsMode1 (fun _ _ => 0) fullList
        = some (.NOERROR, mode1Hits banks) := by
  intro h
  have hleaf := h [.container 0x81 [.words 0x50 []], .words 0x50 []] [] rfl
  cases hleaf

/-! ## §6. Mode 7. -/

namespace Walk

/-- No bank puts anything into the buffer that is read out. -/
theorem foldl_onMode7Bank (after : Nat → Memory) (vecs : List (List UInt32))
    (w : Walk Fa250Mode7Hit) (hbuffer : w.decoder.adcSamplesPulse = []) :
    (vecs.foldl (onMode7Bank after) w).data = w.data := by
  induction vecs generalizing w with
  | nil => rfl
  | cons vec vecs ih =>
      -- `decode` writes the other buffer
      have hnext : (onMode7Bank after w vec).decoder.adcSamplesPulse = [] := by
        simp only [onMode7Bank]
        split
        · exact hbuffer
        · exact hbuffer
      have hdata : (onMode7Bank after w vec).data = w.data := by
        simp only [onMode7Bank]
        split
        · show w.data ++ w.decoder.adcSamplesPulse.map mode7Hit = w.data
          rw [hbuffer, List.map_nil, List.append_nil]
        · rfl
      rw [List.foldl_cons, ih _ hnext, hdata]

end Walk

/-- The event's mode-7 banks hold the encodings of these block lists. -/
def HoldsMode7 (s : JEventSourceEvioDAQ) (fullList : List Node)
    (banks : List (List Mode7Block)) : Prop :=
  banksUnder s.vme_mother_tag s.child_mode7_tag fullList
    = banks.map fun blocks => .words s.child_mode7_tag (mode7Layout.encodeBank blocks)

/-- The slot and channel, the trigger and the pulses of the channels of some
banks, in order. -/
def mode7Contents (banks : List (List Mode7Block)) : List (Csc × Int32 × List Pulse) :=
  banks.flatMap fun blocks => blocks.flatMap fun b => b.channels.map fun c =>
    ({ rocid := 0, slot := b.slot, channel := c.channel }, b.trigger,
      c.entries.map mode7Layout.value)

/-- `GetObjects` makes one hit for each channel, with its contents. -/
def Mode7Reaches (s : JEventSourceEvioDAQ) (after : Nat → Memory) (fullList : List Node)
    (banks : List (List Mode7Block)) : Prop :=
  ∃ hits, s.GetObjectsMode7 after fullList = some (.NOERROR, hits)
    ∧ hits.map (fun hit => (hit.m_channel, hit.trigger, hit.pulses)) = mode7Contents banks

/-- Every mode-7 event comes out without hits. -/
theorem GetObjectsMode7_eq {s : JEventSourceEvioDAQ} {after : Nat → Memory}
    {fullList : List Node} {banks : List (List Mode7Block)} (hbanks : HoldsMode7 s fullList banks)
    (hcrates : CratesHaveChildren s.vme_mother_tag fullList) :
    s.GetObjectsMode7 after fullList = some (.NOERROR, []) := by
  have hvecs : banksUnder s.vme_mother_tag s.child_mode7_tag fullList
      = (banks.map mode7Layout.encodeBank).map (.words s.child_mode7_tag) := by
    rw [List.map_map]
    exact hbanks
  rw [JEventSourceEvioDAQ.GetObjectsMode7, Walk.overNodes_eq hcrates hvecs, Option.map_some,
    Walk.foldl_onMode7Bank after _ _ rfl]
  rfl

/-- Banks have no contents when they have no block: a block has a channel. -/
theorem mode7Contents_eq_nil_iff (banks : List (List Mode7Block)) :
    mode7Contents banks = [] ↔ ∀ blocks ∈ banks, blocks = [] := by
  have hblock : ∀ b : Mode7Block, b.channels ≠ [] := by
    intro b
    exact List.ne_nil_of_length_pos b.channels_pos
  simp only [mode7Contents, List.flatMap_eq_nil_iff, List.map_eq_nil_iff, hblock]
  constructor
  · intro h blocks hblocks
    exact List.eq_nil_iff_forall_not_mem.mpr (h blocks hblocks)
  · intro h blocks hblocks b hb
    rw [h blocks hblocks] at hb
    cases hb

/-- **The pulses of the mode-7 banks reach the hits if and only if there are
none**: no bank has a block (and no leaf has the tag of a crate). -/
theorem mode7_reaches_iff (s : JEventSourceEvioDAQ) (after : Nat → Memory) (fullList : List Node)
    (banks : List (List Mode7Block)) (hbanks : HoldsMode7 s fullList banks) :
    Mode7Reaches s after fullList banks
      ↔ CratesHaveChildren s.vme_mother_tag fullList ∧ ∀ blocks ∈ banks, blocks = [] := by
  constructor
  · rintro ⟨hits, hresult, hcontents⟩
    have hcrates : CratesHaveChildren s.vme_mother_tag fullList := by
      intro node hmem htag hleaf
      rw [JEventSourceEvioDAQ.GetObjectsMode7, Walk.overNodes_none hmem htag hleaf] at hresult
      cases hresult
    refine ⟨hcrates, (mode7Contents_eq_nil_iff banks).mp ?_⟩
    rw [GetObjectsMode7_eq hbanks hcrates] at hresult
    obtain rfl : [] = hits := (Prod.mk.inj (Option.some.inj hresult)).2
    exact hcontents.symm
  · rintro ⟨hcrates, hempty⟩
    refine ⟨[], GetObjectsMode7_eq hbanks hcrates, ?_⟩
    exact ((mode7Contents_eq_nil_iff banks).mpr hempty).symm

/-- The nodes of an event with one mode-7 bank in its one crate. -/
def mode7Event (blocks : List Mode7Block) : List Node :=
  let bank := .words 0xe102 (mode7Layout.encodeBank blocks)
  [.container 0x81 [.container 0x50 [bank]], .container 0x50 [bank], bank]

/-- The crate of that event has children. -/
theorem mode7Event_crates (blocks : List Mode7Block) :
    CratesHaveChildren JEventSourceEvioDAQ.default.vme_mother_tag (mode7Event blocks) := by
  intro node hmem htag
  simp only [mode7Event, List.mem_cons, List.not_mem_nil, or_false] at hmem
  obtain rfl | rfl | rfl := hmem
  · exact Option.some_ne_none _
  · exact Option.some_ne_none _
  · exact absurd htag (show (0xe102 : Int) ≠ 0x50 by decide)

/-- A mode-7 block with one channel of one pulse. -/
def onePulse : Mode7Block where
  slot := 3
  trigger := 7
  time := 0x01234567
  channels := [{ channel := 5, entries := [⟨40, 1200, 101, 180⟩], count := by decide }]
  slot_pos := by decide
  slot_le := by decide
  channels_pos := by decide
  channels_le := by decide

/-- A mode-7 bank without blocks has nothing to lose, and one with a block loses
it, whatever the memory of a hit is. -/
theorem empty_bank_reaches :
    Mode7Reaches JEventSourceEvioDAQ.default (fun _ _ => 0xff) (mode7Event []) [[]]
      ∧ ¬ Mode7Reaches JEventSourceEvioDAQ.default (fun _ _ => 0xff) (mode7Event [onePulse])
        [[onePulse]] := by
  have hempty : HoldsMode7 JEventSourceEvioDAQ.default (mode7Event []) [[]] := rfl
  have hone : HoldsMode7 JEventSourceEvioDAQ.default (mode7Event [onePulse]) [[onePulse]] := rfl
  constructor
  · refine (mode7_reaches_iff _ _ (mode7Event []) [[]] hempty).mpr ⟨mode7Event_crates [], ?_⟩
    intro blocks hblocks
    exact List.mem_singleton.mp hblocks
  · intro hreaches
    have hnone := ((mode7_reaches_iff _ _ (mode7Event [onePulse]) _ hone).mp hreaches).2
    exact absurd (hnone [onePulse] List.mem_cons_self) (List.cons_ne_nil onePulse [])

/-- **One pulse in one bank**: no hit comes out. -/
theorem one_pulse_lost :
    ¬ ∀ (fullList : List Node) (banks : List (List Mode7Block)),
      HoldsMode7 JEventSourceEvioDAQ.default fullList banks →
      Mode7Reaches JEventSourceEvioDAQ.default (fun _ _ => 0) fullList banks := by
  intro h
  have hbanks : HoldsMode7 JEventSourceEvioDAQ.default (mode7Event [onePulse]) [[onePulse]] := rfl
  obtain ⟨hits, hresult, hcontents⟩ := h _ [[onePulse]] hbanks
  rw [GetObjectsMode7_eq hbanks (mode7Event_crates [onePulse])] at hresult
  obtain rfl : [] = hits := (Prod.mk.inj (Option.some.inj hresult)).2
  cases hcontents

end PokerReco.DAQ
