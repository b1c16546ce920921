/-
  PokerReco.TT.TranslationTable
  ─────────────────────────────
  **THE TRANSLATION TABLE AND THE PARSE THAT BUILDS IT**
  (`TT/TranslationTable.cc`).

  The table maps a DAQ address (crate, slot, channel) to a detector channel.
  It is built from an XML document: the parser reports the start of each
  element to `StartElement`, which remembers the crate and the slot it is in
  and writes one entry for each channel element.

  `crate` and `slot` are `static` in the source, so they outlive a parse; they
  are a state of their own here.
-/
import PokerReco.TT.Index

namespace PokerReco.TT

open PokerReco.Library

/-! ## §1. The table. -/

/-- `Detector_t`: the detector systems that a channel can belong to. -/
inductive Detector where
  | UNKNOWN_DETECTOR
  | EXT_VETO
  | INT_VETO
  | CALORIMETER
  | PADDLES
  | CERENKOV
  deriving DecidableEq, Repr

/-- The union of index pointers in `ChannelInfo`. -/
inductive DetectorIndex where
  /-- No member was written. -/
  | unset
  | ext_veto (i : ExtVetoIndex)
  | int_veto (i : IntVetoIndex)
  | calorimeter (i : CaloIndex)
  | paddles (i : PaddlesIndex)
  | cerenkov (i : CerenkovIndex)
  deriving DecidableEq, Repr

/-- `ChannelInfo`: the address of a channel, its detector system and its
index there. -/
structure ChannelInfo where
  CSC : Csc
  det_sys : Detector
  index : DetectorIndex
  deriving DecidableEq, Repr

/-- The shared map `Get_TT()`. -/
abbrev Table := OrderedMap Csc.lt ChannelInfo

/-- `getChannelInfo`: the entry of the address, or one of an unknown detector when
there is none. -/
def getChannelInfo (table : Table) (csc : Csc) : ChannelInfo :=
  match table[csc]? with
  | none => { CSC := csc, det_sys := .UNKNOWN_DETECTOR, index := .unset }
  | some chaninfo => chaninfo

/-! ## §2. Words of the document. -/

/-- `std::transform(.., tolower)`, letter by letter. -/
def lower (s : String) : List Char := s.toList.map Char.toLower

/-- `strcasecmp(a, b) == 0`: the names differ in the case of letters only. -/
def sameName (a b : String) : Bool := lower a == lower b

/-- The digits at the front of a string, as a number. -/
def leadingNumber (acc : Nat) : List Char → Nat
  | [] => acc
  | c :: cs =>
      if c.isDigit then leadingNumber (10 * acc + (c.toNat - '0'.toNat)) cs else acc

/-- `atoi`: white space, a sign, digits; 0 when there are none. -/
def atoi (s : String) : Int :=
  match s.toList.dropWhile Char.isWhitespace with
  | '-' :: cs => -(leadingNumber 0 cs : Int)
  | '+' :: cs => leadingNumber 0 cs
  | cs => leadingNumber 0 cs

/-- `DetectorStr2DetID`, on a name in lower case; other names are those of an
unknown detector. -/
def DetectorStr2DetID (type : List Char) : Detector :=
  if type = "ext_veto".toList then .EXT_VETO
  else if type = "int_veto".toList then .INT_VETO
  else if type = "calo".toList ∨ type = "calorimeter".toList then .CALORIMETER
  else if type = "paddles".toList then .PADDLES
  else if type = "cerenkov".toList then .CERENKOV
  else .UNKNOWN_DETECTOR

/-! ## §3. `StartElement`. -/

/-- The start of an element: its name and its attributes in order. -/
structure Element where
  xmlname : String
  atts : List (String × String)
  deriving DecidableEq, Repr

/-- The `static` variables of `StartElement`, which keep the crate and the slot
between two calls. -/
structure Statics where
  crate : Int
  slot : Int
  deriving DecidableEq, Repr

/-- The variables a channel element fills from its attributes. -/
structure ChannelAtts where
  channel : Int
  detector : String
  row : Int
  column : Int
  sector : Int
  layer : Int
  component : Int
  readout : Int
  index : Int
  id : Int
  deriving DecidableEq, Repr

/-- The variables as they are set before the loop over the attributes. -/
def ChannelAtts.zero : ChannelAtts := ⟨0, "", 0, 0, 0, 0, 0, 0, 0, 0⟩

/-- One turn of the loop over the attributes of a channel element. -/
def ChannelAtts.read (v : ChannelAtts) (att : String × String) : ChannelAtts :=
  let tag := att.1
  let ival := atoi att.2
  if tag = "number" then { v with channel := ival }
  else if tag = "detector" then { v with detector := att.2 }
  else if tag = "sector" then { v with sector := ival }
  else if tag = "readout" then { v with readout := ival }
  else if tag = "row" ∨ tag = "iy" then { v with row := ival }
  else if tag = "col" ∨ tag = "column" ∨ tag = "ix" then { v with column := ival }
  else if tag = "layer" then { v with layer := ival }
  else if tag = "index" then { v with index := ival }
  else if tag = "component" then { v with component := ival }
  else if tag = "id" then { v with id := ival }
  else v

/-- The index object of a channel element; an unknown detector leaves the
union as it was. -/
def ChannelAtts.detectorIndex (v : ChannelAtts) (before : DetectorIndex) :
    Detector → DetectorIndex
  | .EXT_VETO =>
      .ext_veto ⟨.ofInt v.sector, .ofInt v.layer, .ofInt v.component, .ofInt v.readout⟩
  | .INT_VETO =>
      .int_veto ⟨.ofInt v.sector, .ofInt v.layer, .ofInt v.component, .ofInt v.readout⟩
  | .CALORIMETER =>
      -- x is a column and y is a row
      .calorimeter ⟨.ofInt v.sector, .ofInt v.column, .ofInt v.row, .ofInt v.readout⟩
  | .CERENKOV => .cerenkov ⟨.ofInt v.index, .ofInt v.readout⟩
  | .PADDLES => .paddles ⟨.ofInt v.id⟩
  | .UNKNOWN_DETECTOR => before

/-- The entry a channel element writes, over the entry that was there. -/
def writeChannel (st : Statics) (v : ChannelAtts) (table : Table) : Table :=
  let csc := Csc.setCrateSlotChannel (.ofInt st.crate) (.ofInt st.slot) (.ofInt v.channel)
  let det_sys := DetectorStr2DetID (lower v.detector)
  -- `operator[]` makes an entry with no index object when there is none
  let before :=
    match table[csc]? with
    | some ci => ci.index
    | none => .unset
  table.insert csc { CSC := csc, det_sys := det_sys, index := v.detectorIndex before det_sys }

/-- `StartElement`: what it does goes by the name of the element, in either case
of letters. -/
def StartElement (st : Statics) (table : Table) (e : Element) : Statics × Table :=
  if sameName e.xmlname "bdx_translation_table" then (st, table)
  else if sameName e.xmlname "crate" then
    -- the first `number` decides
    match e.atts.find? (fun att => sameName att.1 "number") with
    | some att => ({ st with crate := atoi att.2 }, table)
    | none => (st, table)
  else if sameName e.xmlname "slot" then
    -- the last `number` decides
    match e.atts.reverse.find? (fun att => sameName att.1 "number") with
    | some att => ({ st with slot := atoi att.2 }, table)
    | none => (st, table)
  else if sameName e.xmlname "channel" then
    (st, writeChannel st (e.atts.foldl ChannelAtts.read .zero) table)
  else (st, table)

/-! ## §4. Where the document comes from. -/

/-- What `ReadTranslationTable` can read the document from. -/
structure XmlSources where
  NO_CCDB : Bool
  /-- The values of the map that `GetCalib` fills; `none` without a
  `JCalibration`. -/
  jcalib : Option (List String)
  /-- The text read from `XML_FILENAME`; `none` when it cannot be opened. -/
  localFile : Option String

/-- `tt_xml`; `none` when no table is available. -/
def XmlSources.tt_xml (src : XmlSources) : Option String :=
  -- a table of the database must have exactly one entry
  let fromDB :=
    match src.jcalib with
    | some [text] => if src.NO_CCDB then "" else text
    | _ => ""
  -- the local file is the fallback
  if fromDB = "" then src.localFile else some fromDB

end PokerReco.TT
