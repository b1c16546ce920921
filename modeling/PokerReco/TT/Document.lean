/-
  PokerReco.TT.Document
  ─────────────────────
  **WHAT THE TABLE SAYS IS WHAT THE DOCUMENT SAYS**
  (`TT/TranslationTable.cc`, `StartElement` and `getChannelInfo`).

  A document is a tree: crates, slots in crates, channels in slots.  The
  parser reports it as a sequence of starts and ends of elements.
  `StartElement` sees one start at a time and keeps the crate and the slot in
  variables that the ends do not reset.

      Document.channels       each channel element with its address, in order
      Represents              a table against such a list
      getChannelInfo_parse    the lookup finds the last element of the address
-/
import Mathlib.Data.List.Induction
import PokerReco.TT.TranslationTable

namespace PokerReco.TT

open PokerReco.Library

/-! ## §1. Attributes. -/

/-- The value of the last attribute that has one of the names, since the loop goes
on after it has found one. -/
def attribute? (names : List String) (atts : List (String × String)) : Option String :=
  ((atts.filter fun att => att.1 ∈ names).getLast?).map (·.2)

/-- The value of an attribute as a number, and 0 when the attribute is missing. -/
def intAttribute (names : List String) (atts : List (String × String)) : Int :=
  ((attribute? names atts).map atoi).getD 0

/-- The `number` of a crate or a slot: there is one such attribute at least, and
all of them have this value. -/
def Numbered (atts : List (String × String)) (number : UInt8) : Prop :=
  (∃ att ∈ atts, sameName att.1 "number" = true) ∧
    ∀ att ∈ atts, sameName att.1 "number" = true → atoi att.2 = number.toNat

/-- The index attributes of a channel. -/
def indexNames : List String :=
  ["sector", "layer", "component", "readout", "row", "iy", "col", "column", "ix", "index", "id"]

/-! ## §2. Documents. -/

/-- A channel element; its `number` is one of 8 bits, and the index attributes fit
the 8 bits with a sign of the index classes. -/
structure ChannelElem extends Element where
  isChannel : sameName xmlname "channel" = true
  number : UInt8
  numbered : (attribute? ["number"] atts).map atoi = some (number.toNat : Int)
  fits : ∀ att ∈ atts, att.1 ∈ indexNames → -128 ≤ atoi att.2 ∧ atoi att.2 ≤ 127

namespace ChannelElem

/-- The detector system that the element names. -/
def system (ch : ChannelElem) : Detector :=
  DetectorStr2DetID (lower ((attribute? ["detector"] ch.atts).getD ""))

/-- An index of the element. -/
def value (ch : ChannelElem) (names : List String) : Int := intAttribute names ch.atts

end ChannelElem

/-- A slot element with its number and the channel elements in it. -/
structure SlotElem extends Element where
  isSlot : sameName xmlname "slot" = true
  number : UInt8
  numbered : Numbered atts number
  channels : List ChannelElem

/-- A crate element with its number and the slot elements in it. -/
structure CrateElem extends Element where
  isCrate : sameName xmlname "crate" = true
  number : UInt8
  numbered : Numbered atts number
  slots : List SlotElem

/-- The root element and the crate elements in it, in the order of the text. -/
structure Document extends Element where
  isRoot : sameName xmlname "bdx_translation_table" = true
  crates : List CrateElem

/-- The channels of a slot of the crate `crate`, with their addresses. -/
def SlotElem.addressed (crate : UInt8) (s : SlotElem) : List (Csc × ChannelElem) :=
  s.channels.map fun ch => (⟨crate, s.number, ch.number⟩, ch)

/-- The channels of a crate, with their addresses, slot by slot. -/
def CrateElem.addressed (c : CrateElem) : List (Csc × ChannelElem) :=
  c.slots.flatMap (SlotElem.addressed c.number)

/-- The channels of the document, in document order. -/
def Document.channels (doc : Document) : List (Csc × ChannelElem) :=
  doc.crates.flatMap CrateElem.addressed

/-- The last channel element with an address, if there is one. -/
def lastAt (csc : Csc) (l : List (Csc × ChannelElem)) : Option ChannelElem :=
  ((l.filter fun p => p.1 = csc).getLast?).map (·.2)

/-! ## §3. What the parser reports. -/

/-- A call of one of the two element handlers. -/
inductive Event where
  | start (e : Element)
  | stop (xmlname : String)

/-- `EndElement`, which has nothing to do. -/
def EndElement (p : Statics × Table) (_xmlname : String) : Statics × Table := p

/-- What the parser does at an event: it calls the handler that was set for it. -/
def handle (p : Statics × Table) : Event → Statics × Table
  | .start e => StartElement p.1 p.2 e
  | .stop xmlname => EndElement p xmlname

/-- `XML_Parse`, on the events of the text in their order. -/
def parse (p : Statics × Table) (events : List Event) : Statics × Table := events.foldl handle p

/-- The events of an element around those of its content. -/
def around (e : Element) (content : List Event) : List Event :=
  .start e :: content ++ [.stop e.xmlname]

/-- The events of a channel element, which has no content. -/
def ChannelElem.events (ch : ChannelElem) : List Event := around ch.toElement []

/-- The events of a slot element: its own around those of its channels. -/
def SlotElem.events (s : SlotElem) : List Event :=
  around s.toElement (s.channels.flatMap ChannelElem.events)

/-- The events of a crate element: its own around those of its slots. -/
def CrateElem.events (c : CrateElem) : List Event :=
  around c.toElement (c.slots.flatMap SlotElem.events)

/-- The events of a document: those of the root element around those of
its crates. -/
def Document.events (doc : Document) : List Event :=
  around doc.toElement (doc.crates.flatMap CrateElem.events)

/-! ## §4. What a lookup is to answer. -/

/-- `getChannelInfo` with the three numbers of an address. -/
def getChannelInfoAt (table : Table) (crate slot channel : Int32) : ChannelInfo :=
  getChannelInfo table (Csc.setCrateSlotChannel crate.toUInt32 slot.toUInt32 channel.toUInt32)

/-- The index object has the indices of the element, in the members of its
detector system. -/
def ChannelElem.Indexes (ch : ChannelElem) : DetectorIndex → Prop
  | .ext_veto i =>
      ch.system = .EXT_VETO ∧ i.sector.toInt = ch.value ["sector"]
        ∧ i.layer.toInt = ch.value ["layer"] ∧ i.component.toInt = ch.value ["component"]
        ∧ i.readout.toInt = ch.value ["readout"]
  | .int_veto i =>
      ch.system = .INT_VETO ∧ i.sector.toInt = ch.value ["sector"]
        ∧ i.layer.toInt = ch.value ["layer"] ∧ i.component.toInt = ch.value ["component"]
        ∧ i.readout.toInt = ch.value ["readout"]
  | .calorimeter i =>
      ch.system = .CALORIMETER ∧ i.sector.toInt = ch.value ["sector"]
        ∧ i.x.toInt = ch.value ["col", "column", "ix"] ∧ i.y.toInt = ch.value ["row", "iy"]
        ∧ i.readout.toInt = ch.value ["readout"]
  | .cerenkov i =>
      ch.system = .CERENKOV ∧ i.index.toInt = ch.value ["index"]
        ∧ i.readout.toInt = ch.value ["readout"]
  | .paddles i => ch.system = .PADDLES ∧ i.id.toInt = ch.value ["id"]
  | .unset => False

/-- The answer to a lookup whose element is `ch`, or to one without an element. -/
def Answers : Option ChannelElem → ChannelInfo → Prop
  | none, ci => ci.det_sys = .UNKNOWN_DETECTOR
  | some ch, ci => ci.det_sys = ch.system ∧ (ch.system ≠ .UNKNOWN_DETECTOR → ch.Indexes ci.index)

/-! ## §5. The attributes of one element. -/

/-- One more attribute of the name takes the place of those before it. -/
theorem attribute?_append (names : List String) (atts : List (String × String))
    (att : String × String) :
    attribute? names (atts ++ [att])
      = if att.1 ∈ names then some att.2 else attribute? names atts := by
  unfold attribute?
  rw [List.filter_append]
  by_cases h : att.1 ∈ names
  · simp [h]
  · simp [h]

/-- One more attribute of the name takes the place of those before it, also
as a number. -/
theorem intAttribute_append (names : List String) (atts : List (String × String))
    (att : String × String) :
    intAttribute names (atts ++ [att])
      = if att.1 ∈ names then atoi att.2 else intAttribute names atts := by
  unfold intAttribute
  rw [attribute?_append]
  split <;> rfl

/-- The variables that hold a number, with the attributes that set them. -/
def numberFields : List (List String × (ChannelAtts → Int)) :=
  [(["number"], (·.channel)), (["sector"], (·.sector)), (["readout"], (·.readout)),
    (["row", "iy"], (·.row)), (["col", "column", "ix"], (·.column)), (["layer"], (·.layer)),
    (["index"], (·.index)), (["component"], (·.component)), (["id"], (·.id))]

/-- One attribute sets the variable that it names and no other. -/
theorem read_eq (v : ChannelAtts) (att : String × String) :
    v.read att =
      { channel := if att.1 ∈ ["number"] then atoi att.2 else v.channel
        detector := if att.1 ∈ ["detector"] then att.2 else v.detector
        row := if att.1 ∈ ["row", "iy"] then atoi att.2 else v.row
        column := if att.1 ∈ ["col", "column", "ix"] then atoi att.2 else v.column
        sector := if att.1 ∈ ["sector"] then atoi att.2 else v.sector
        layer := if att.1 ∈ ["layer"] then atoi att.2 else v.layer
        component := if att.1 ∈ ["component"] then atoi att.2 else v.component
        readout := if att.1 ∈ ["readout"] then atoi att.2 else v.readout
        index := if att.1 ∈ ["index"] then atoi att.2 else v.index
        id := if att.1 ∈ ["id"] then atoi att.2 else v.id } := by
  obtain ⟨tag, sval⟩ := att
  unfold ChannelAtts.read
  dsimp only
  -- the branches of the source, one after the other: each name sets one variable
  by_cases hnumber : tag = "number"
  · simp [hnumber]
  rw [if_neg hnumber]
  by_cases hdetector : tag = "detector"
  · simp [hdetector]
  rw [if_neg hdetector]
  by_cases hsector : tag = "sector"
  · simp [hsector]
  rw [if_neg hsector]
  by_cases hreadout : tag = "readout"
  · simp [hreadout]
  rw [if_neg hreadout]
  by_cases hrow : tag = "row" ∨ tag = "iy"
  · obtain h | h := hrow <;> simp [h]
  rw [if_neg hrow]
  by_cases hcolumn : tag = "col" ∨ tag = "column" ∨ tag = "ix"
  · obtain h | h | h := hcolumn <;> simp [h]
  rw [if_neg hcolumn]
  by_cases hlayer : tag = "layer"
  · simp [hlayer]
  rw [if_neg hlayer]
  by_cases hindex : tag = "index"
  · simp [hindex]
  rw [if_neg hindex]
  by_cases hcomponent : tag = "component"
  · simp [hcomponent]
  rw [if_neg hcomponent]
  by_cases hid : tag = "id"
  · simp [hid]
  simp [hnumber, hdetector, hsector, hreadout, hrow, hcolumn, hlayer, hindex, hcomponent, hid]

/-- Reading one attribute sets a variable that holds a number exactly when the
attribute has one of its names. -/
theorem read_number {f : List String × (ChannelAtts → Int)} (hf : f ∈ numberFields)
    (v : ChannelAtts) (att : String × String) :
    f.2 (v.read att) = if att.1 ∈ f.1 then atoi att.2 else f.2 v := by
  rw [read_eq]
  simp only [numberFields, List.mem_cons, List.not_mem_nil, or_false] at hf
  rcases hf with rfl | rfl | rfl | rfl | rfl | rfl | rfl | rfl | rfl <;> rfl

/-- After the loop over the attributes a variable that holds a number has what the
element says. -/
theorem atts_number {f : List String × (ChannelAtts → Int)} (hf : f ∈ numberFields)
    (atts : List (String × String)) :
    f.2 (atts.foldl ChannelAtts.read .zero) = intAttribute f.1 atts := by
  induction atts using List.reverseRecOn with
  | nil =>
      simp only [numberFields, List.mem_cons, List.not_mem_nil, or_false] at hf
      rcases hf with rfl | rfl | rfl | rfl | rfl | rfl | rfl | rfl | rfl <;> rfl
  | append_singleton atts att ih =>
      rw [List.foldl_append, intAttribute_append, ← ih]
      exact read_number hf _ att

/-- After the loop over the attributes the name of the detector is the last one
that the element gives. -/
theorem atts_detector (atts : List (String × String)) :
    (atts.foldl ChannelAtts.read .zero).detector = (attribute? ["detector"] atts).getD "" := by
  induction atts using List.reverseRecOn with
  | nil => rfl
  | append_singleton atts att ih =>
      rw [List.foldl_append, attribute?_append]
      show ((atts.foldl ChannelAtts.read .zero).read att).detector = _
      rw [read_eq]
      dsimp only
      rw [ih]
      split <;> rfl

/-- An index attribute of an element fits the 8 bits of the index classes. -/
theorem ChannelElem.value_fits (ch : ChannelElem) {names : List String}
    (hnames : ∀ name ∈ names, name ∈ indexNames) :
    (Int8.ofInt (ch.value names)).toInt = ch.value names := by
  have hrange : -128 ≤ ch.value names ∧ ch.value names ≤ 127 := by
    unfold ChannelElem.value intAttribute attribute?
    cases hlast : (ch.atts.filter fun att => att.1 ∈ names).getLast? with
    | none => decide
    | some att =>
        obtain ⟨hmem, hname⟩ := List.mem_filter.mp (List.mem_of_getLast? hlast)
        exact ch.fits att hmem (hnames _ (of_decide_eq_true hname))
  exact Int8.toInt_ofInt_of_le (by omega) (by omega)

/-! ## §6. One element. -/

/-- A name is the same as one of two different names only. -/
theorem not_sameName {x a b : String} (h : sameName x a = true) (hab : sameName a b = false) :
    ¬ sameName x b = true := by
  unfold sameName at *
  rw [beq_iff_eq] at h
  rw [h, hab]
  exact Bool.false_ne_true

/-- Whichever attribute of the name is taken, its value is the number. -/
theorem Numbered.of_find? {atts : List (String × String)} {number : UInt8}
    (h : Numbered atts number) {l : List (String × String)} (hl : ∀ att, att ∈ l ↔ att ∈ atts) :
    ∃ att, l.find? (fun att => sameName att.1 "number") = some att
      ∧ atoi att.2 = number.toNat := by
  obtain ⟨⟨att, hmem, hname⟩, hall⟩ := h
  cases hfind : l.find? (fun att => sameName att.1 "number") with
  | none => exact absurd hname (List.find?_eq_none.mp hfind att ((hl att).mpr hmem))
  | some att =>
      have hmem := (hl att).mp (List.mem_of_find?_eq_some hfind)
      have hname : sameName att.1 "number" = true :=
        List.find?_some (p := fun att : String × String => sameName att.1 "number") hfind
      exact ⟨att, rfl, hall att hmem hname⟩

/-- The start of the root element changes nothing. -/
theorem StartElement_root (doc : Document) (st : Statics) (table : Table) :
    StartElement st table doc.toElement = (st, table) := by
  unfold StartElement
  rw [if_pos doc.isRoot]

/-- The start of a crate element sets the crate. -/
theorem StartElement_crate (c : CrateElem) (st : Statics) (table : Table) :
    StartElement st table c.toElement = ({ st with crate := c.number.toNat }, table) := by
  obtain ⟨att, hfind, hnumber⟩ := c.numbered.of_find? (l := c.atts) (fun _ => Iff.rfl)
  unfold StartElement
  rw [if_neg (not_sameName c.isCrate (by decide)), if_pos c.isCrate, hfind, ← hnumber]

/-- The start of a slot element sets the slot and leaves the crate. -/
theorem StartElement_slot (s : SlotElem) (st : Statics) (table : Table) :
    StartElement st table s.toElement = ({ st with slot := s.number.toNat }, table) := by
  obtain ⟨att, hfind, hnumber⟩ := s.numbered.of_find? (l := s.atts.reverse)
    (fun _ => List.mem_reverse)
  unfold StartElement
  rw [if_neg (not_sameName s.isSlot (by decide)), if_neg (not_sameName s.isSlot (by decide)),
    if_pos s.isSlot, hfind, ← hnumber]

/-- The start of a channel element writes its entry at the crate and the slot
that were set. -/
theorem StartElement_channel (ch : ChannelElem) (st : Statics) (table : Table) :
    StartElement st table ch.toElement
      = (st, writeChannel st (ch.atts.foldl ChannelAtts.read .zero) table) := by
  unfold StartElement
  rw [if_neg (not_sameName ch.isChannel (by decide)),
    if_neg (not_sameName ch.isChannel (by decide)), if_neg (not_sameName ch.isChannel (by decide)),
    if_pos ch.isChannel]

/-- The address that a channel element writes is the one of its crate, its slot
and its own number. -/
theorem address_eq (ch : ChannelElem) (crate slot : UInt8) :
    Csc.setCrateSlotChannel (.ofInt (crate.toNat : Int)) (.ofInt (slot.toNat : Int))
        (.ofInt (ch.atts.foldl ChannelAtts.read .zero).channel)
      = ⟨crate, slot, ch.number⟩ := by
  have hchannel : (ch.atts.foldl ChannelAtts.read .zero).channel = (ch.number.toNat : Int) := by
    refine (atts_number (f := (["number"], (·.channel))) (by simp [numberFields]) ch.atts).trans ?_
    unfold intAttribute
    rw [ch.numbered, Option.getD_some]
  have hbyte : ∀ n : UInt8, (UInt32.ofInt (n.toNat : Int)).toUInt8 = n := by
    intro n
    have hn := n.toNat_lt
    unfold UInt32.ofInt
    rw [← UInt8.toNat_inj, UInt32.toNat_toUInt8, UInt32.toNat_ofNat']
    omega
  rw [hchannel]
  unfold Csc.setCrateSlotChannel
  rw [hbyte, hbyte, hbyte]

/-- The index object that a channel element writes has the indices of the
element. -/
theorem detectorIndex_indexes (ch : ChannelElem) (before : DetectorIndex)
    (h : ch.system ≠ .UNKNOWN_DETECTOR) :
    ch.Indexes
      ((ch.atts.foldl ChannelAtts.read .zero).detectorIndex before ch.system) := by
  have hfield : ∀ {f : List String × (ChannelAtts → Int)}, f ∈ numberFields →
      (∀ name ∈ f.1, name ∈ indexNames) →
      (Int8.ofInt (f.2 (ch.atts.foldl ChannelAtts.read .zero))).toInt = ch.value f.1 := by
    intro f hf hnames
    rw [atts_number hf]
    exact ch.value_fits hnames
  have hsector := hfield (f := (["sector"], (·.sector))) (by simp [numberFields]) (by decide)
  have hlayer := hfield (f := (["layer"], (·.layer))) (by simp [numberFields]) (by decide)
  have hcomponent := hfield (f := (["component"], (·.component))) (by simp [numberFields])
    (by decide)
  have hreadout := hfield (f := (["readout"], (·.readout))) (by simp [numberFields]) (by decide)
  have hrow := hfield (f := (["row", "iy"], (·.row))) (by simp [numberFields]) (by decide)
  have hcolumn := hfield (f := (["col", "column", "ix"], (·.column))) (by simp [numberFields])
    (by decide)
  have hindex := hfield (f := (["index"], (·.index))) (by simp [numberFields]) (by decide)
  have hid := hfield (f := (["id"], (·.id))) (by simp [numberFields]) (by decide)
  cases hsystem : ch.system with
  | UNKNOWN_DETECTOR => exact absurd hsystem h
  | EXT_VETO => exact ⟨hsystem, hsector, hlayer, hcomponent, hreadout⟩
  | INT_VETO => exact ⟨hsystem, hsector, hlayer, hcomponent, hreadout⟩
  | CALORIMETER => exact ⟨hsystem, hsector, hcolumn, hrow, hreadout⟩
  | PADDLES => exact ⟨hsystem, hid⟩
  | CERENKOV => exact ⟨hsystem, hindex, hreadout⟩

/-! ## §7. The table against the elements seen. -/

/-- Every lookup in the table answers with the last element of its address
in the list. -/
def Represents (table : Table) (l : List (Csc × ChannelElem)) : Prop :=
  ∀ csc, Answers (lastAt csc l) (getChannelInfo table csc)

/-- The empty table stands for no elements. -/
theorem empty_represents : Represents ∅ [] := by
  intro csc
  unfold getChannelInfo
  rw [Std.TreeMap.getElem?_emptyc]
  rfl

/-- One more element is the last one at its own address and leaves the others. -/
theorem lastAt_append (csc key : Csc) (ch : ChannelElem) (l : List (Csc × ChannelElem)) :
    lastAt csc (l ++ [(key, ch)]) = if key = csc then some ch else lastAt csc l := by
  unfold lastAt
  rw [List.filter_append]
  by_cases h : key = csc
  · simp [h]
  · simp [h]

/-- **One channel element**: its address answers with it, the others answer as
before. -/
theorem Represents.channel {table : Table} {l : List (Csc × ChannelElem)}
    (h : Represents table l) (ch : ChannelElem) (crate slot : UInt8) :
    Represents (writeChannel ⟨crate.toNat, slot.toNat⟩ (ch.atts.foldl ChannelAtts.read .zero) table)
      (l ++ [(⟨crate, slot, ch.number⟩, ch)]) := by
  intro csc
  rw [lastAt_append]
  unfold writeChannel
  dsimp only
  rw [address_eq, atts_detector]
  unfold getChannelInfo
  by_cases hcsc : (⟨crate, slot, ch.number⟩ : Csc) = csc
  · subst hcsc
    rw [if_pos rfl, Std.TreeMap.getElem?_insert_self]
    exact ⟨rfl, detectorIndex_indexes ch _⟩
  · rw [if_neg hcsc, OrderedMap.getElem?_insert_of_ne hcsc]
    exact h csc

/-- Where the parser is: in the crate, with the elements `l` seen. -/
structure In (crate : UInt8) (l : List (Csc × ChannelElem)) (p : Statics × Table) : Prop where
  crate_eq : p.1.crate = crate.toNat
  represents : Represents p.2 l

/-- Events are parsed one part after the other. -/
theorem parse_append (p : Statics × Table) (events events' : List Event) :
    parse p (events ++ events') = parse (parse p events) events' :=
  List.foldl_append

/-- An element is parsed by its start and then its content, since its end
changes nothing. -/
theorem parse_around (p : Statics × Table) (e : Element) (content : List Event) :
    parse p (around e content) = parse (StartElement p.1 p.2 e) content := by
  unfold around
  rw [parse_append]
  rfl

/-- The channels of a slot are entered one after the other; the crate and the
slot stay set. -/
theorem parse_channels (crate slot : UInt8) (channels : List ChannelElem)
    (l : List (Csc × ChannelElem)) (table : Table) (h : Represents table l) :
    ∃ table', parse (⟨crate.toNat, slot.toNat⟩, table) (channels.flatMap ChannelElem.events)
        = (⟨crate.toNat, slot.toNat⟩, table')
      ∧ Represents table' (l ++ channels.map fun ch => (⟨crate, slot, ch.number⟩, ch)) := by
  induction channels generalizing l table with
  | nil => exact ⟨table, rfl, (List.append_nil l).symm ▸ h⟩
  | cons ch channels ih =>
      obtain ⟨table', hrun, htable'⟩ := ih _ _ (h.channel ch crate slot)
      refine ⟨table', ?_, ?_⟩
      · rw [List.flatMap_cons, parse_append]
        show parse (parse _ (around ch.toElement [])) _ = _
        rw [parse_around, StartElement_channel]
        exact hrun
      · rw [List.append_assoc] at htable'
        exact htable'

/-- The slots of a crate are entered one after the other; the crate stays set. -/
theorem parse_slots (crate : UInt8) (slots : List SlotElem) (l : List (Csc × ChannelElem))
    (p : Statics × Table) (h : In crate l p) :
    In crate (l ++ slots.flatMap (SlotElem.addressed crate))
      (parse p (slots.flatMap SlotElem.events)) := by
  induction slots generalizing l p with
  | nil => exact (List.append_nil l).symm ▸ h
  | cons s slots ih =>
      obtain ⟨⟨crate', slot'⟩, table⟩ := p
      obtain ⟨hcrate, htable⟩ := h
      obtain rfl : crate' = crate.toNat := hcrate
      obtain ⟨table', hrun, htable'⟩ := parse_channels crate s.number s.channels l table htable
      rw [List.flatMap_cons, List.flatMap_cons, parse_append, ← List.append_assoc]
      show In crate _ (parse (parse _ (around s.toElement _)) _)
      rw [parse_around, StartElement_slot]
      show In crate _ (parse (parse (⟨crate.toNat, s.number.toNat⟩, table) _) _)
      rw [hrun]
      exact ih _ _ ⟨rfl, htable'⟩

/-- The crates of the document are entered one after the other, whatever was
set before. -/
theorem parse_crates (crates : List CrateElem) (l : List (Csc × ChannelElem))
    (p : Statics × Table) (h : Represents p.2 l) :
    Represents (parse p (crates.flatMap CrateElem.events)).2
      (l ++ crates.flatMap CrateElem.addressed) := by
  induction crates generalizing l p with
  | nil => exact (List.append_nil l).symm ▸ h
  | cons c crates ih =>
      rw [List.flatMap_cons, List.flatMap_cons, parse_append, ← List.append_assoc]
      refine ih _ _ ?_
      show Represents (parse p (around c.toElement _)).2 _
      rw [parse_around, StartElement_crate]
      exact (parse_slots c.number c.slots l ({ p.1 with crate := c.number.toNat }, p.2)
        ⟨rfl, h⟩).represents

/-- **The lookup equals the document.**  Parsed into an empty table, whatever
the variables of an earlier parse hold, a document makes `getChannelInfo`
answer with the last of its channel elements at the address. -/
theorem getChannelInfo_parse (doc : Document) (st : Statics) (csc : Csc) :
    Answers (lastAt csc doc.channels) (getChannelInfo (parse (st, ∅) doc.events).2 csc) ∧
      Answers (lastAt csc doc.channels)
        (getChannelInfoAt (parse (st, ∅) doc.events).2 csc.rocid.toUInt32.toInt32
          csc.slot.toUInt32.toInt32 csc.channel.toUInt32.toInt32) := by
  have hrep : Represents (parse (st, ∅) doc.events).2 doc.channels := by
    unfold Document.events
    rw [parse_around, StartElement_root]
    exact parse_crates doc.crates [] (st, ∅) empty_represents
  refine ⟨hrep csc, ?_⟩
  unfold getChannelInfoAt Csc.setCrateSlotChannel
  simp only [UInt32.toUInt32_toInt32, UInt8.toUInt8_toUInt32]
  exact hrep csc

/-- A document with a slot in which channel 5 is given twice. -/
def overwritten : Document where
  xmlname := "bdx_translation_table"
  atts := []
  isRoot := by decide
  crates := [{
    xmlname := "crate", atts := [("number", "3")], isCrate := by decide, number := 3
    numbered := by unfold Numbered; decide
    slots := [{
      xmlname := "slot", atts := [("type", "FA250"), ("number", "4")], isSlot := by decide
      number := 4, numbered := by unfold Numbered; decide
      channels := [
        { xmlname := "channel", atts := [("number", "5"), ("detector", "int_veto"), ("layer", "1")]
          isChannel := by decide, number := 5, numbered := by decide, fits := by decide },
        { xmlname := "channel", atts := [("ix", "-2"), ("detector", "Calorimeter"), ("number", "5")]
          isChannel := by decide, number := 5, numbered := by decide, fits := by decide }] }] }]

/-- The channel that is given twice is found as the second of the two, and a
channel that is not in the document as unknown. -/
theorem overwritten_answers :
    (getChannelInfo (parse (⟨7, 7⟩, ∅) overwritten.events).2 ⟨3, 4, 5⟩).det_sys = .CALORIMETER ∧
      (getChannelInfo (parse (⟨7, 7⟩, ∅) overwritten.events).2 ⟨3, 4, 6⟩).det_sys
        = .UNKNOWN_DETECTOR :=
  ⟨(getChannelInfo_parse overwritten ⟨7, 7⟩ ⟨3, 4, 5⟩).1.1.trans (by decide),
    (getChannelInfo_parse overwritten ⟨7, 7⟩ ⟨3, 4, 6⟩).1⟩

end PokerReco.TT
