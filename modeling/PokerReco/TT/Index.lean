/-
  PokerReco.TT.Index
  ──────────────────
  **THE INDEX TYPES OF THE TRANSLATION TABLE** (`TT/TranslationTable.h`).

  `csc_t` addresses a DAQ channel by crate, slot and channel.  Each detector
  has an index class of its own with signed 8-bit fields.  The classes are
  keys of `std::map`, so each declares `operator==` and `operator<`; all the
  `operator<` of the detector classes compare field by field with `>` (the
  maps are iterated in descending order), `csc_t` compares with `<`.

  `CERENKOV_Index_t::operator<` has no return statement after its last
  comparison: on equal indices control reaches the end of the function, which
  is `none` here.
-/
import PokerReco.Library.OrderedMap

namespace PokerReco.TT

open PokerReco.Library

/-! ## §1. The classes. -/

/-- `TranslationTable::csc_t`: the crate, slot and channel from which a hit was
read, each an unsigned byte. -/
structure Csc where
  rocid : UInt8
  slot : UInt8
  channel : UInt8
  deriving DecidableEq, Repr, Inhabited

/-- `TranslationTable::EXT_VETO_Index_t`: a counter of the outer veto, by signed
bytes. -/
structure ExtVetoIndex where
  sector : Int8
  layer : Int8
  component : Int8
  readout : Int8
  deriving DecidableEq, Repr, Inhabited

/-- `TranslationTable::CERENKOV_Index_t`: a Cerenkov counter by its number, and
one of its readouts. -/
structure CerenkovIndex where
  index : Int8
  readout : Int8
  deriving DecidableEq, Repr, Inhabited

/-- `TranslationTable::INT_VETO_Index_t`: a counter of the inner veto, and one of
the sensors that read it out. -/
structure IntVetoIndex where
  sector : Int8
  layer : Int8
  component : Int8
  readout : Int8
  deriving DecidableEq, Repr, Inhabited

/-- `TranslationTable::CALO_Index_t`: a crystal by its place `x`, `y` in a sector,
and one of its readouts. -/
structure CaloIndex where
  sector : Int8
  x : Int8
  y : Int8
  readout : Int8
  deriving DecidableEq, Repr, Inhabited

/-- `TranslationTable::PADDLES_Index_t`: a paddle, which has one number only. -/
structure PaddlesIndex where
  id : Int8
  deriving DecidableEq, Repr, Inhabited

/-! ## §2. `operator==` and `operator<`. -/

/-- The test that `operator<` of the detector classes makes on one field: it is
`>`, so that these classes are ordered the other way round. -/
def greater (a b : Int8) : Bool := decide (a > b)

/-- The test that `operator<` of `csc_t` makes on one field, in the usual
direction. -/
def less (a b : UInt8) : Bool := decide (a < b)

namespace Csc

/-- `csc_t::operator==`, all three fields. -/
def eq (a b : Csc) : Bool := a.rocid == b.rocid && a.slot == b.slot && a.channel == b.channel

/-- The fields of a crate, slot and channel, in the order in which `operator<`
compares them. -/
def fields (a : Csc) : List UInt8 := [a.rocid, a.slot, a.channel]

/-- `csc_t::operator<`: the first field that differs decides. -/
def lt (a b : Csc) : Bool := lexLess less a.fields b.fields

/-- `setCrateSlotChannel`: its three arguments are words of 32 bits, and each is
narrowed to 8 bits. -/
def setCrateSlotChannel (cr sl ch : UInt32) : Csc := ⟨cr.toUInt8, sl.toUInt8, ch.toUInt8⟩

end Csc

namespace ExtVetoIndex

/-- `isSameActive`: two indices of one counter, whichever readout they are of. -/
def isSameActive (a b : ExtVetoIndex) : Bool :=
  a.sector == b.sector && a.layer == b.layer && a.component == b.component

/-- `operator==`: the same counter and the same readout. -/
def eq (a b : ExtVetoIndex) : Bool := isSameActive a b && a.readout == b.readout

/-- The fields of a counter of the outer veto, in the order of the comparison. -/
def fields (a : ExtVetoIndex) : List Int8 := [a.sector, a.layer, a.component, a.readout]

/-- `operator<` of the outer veto, by `>` on the first field that differs. -/
def lt (a b : ExtVetoIndex) : Bool := lexLess greater a.fields b.fields

end ExtVetoIndex

namespace CerenkovIndex

/-- `isSameActive` of a Cerenkov counter, which has one number besides its
readout. -/
def isSameActive (a b : CerenkovIndex) : Bool := a.index == b.index

/-- `operator==`: the same counter and the same readout. -/
def eq (a b : CerenkovIndex) : Bool := isSameActive a b && a.readout == b.readout

/-- `operator<` of the Cerenkov counters.  The function has no `return` for two
equal indices, and the value of such a call is undefined. -/
def lt (a b : CerenkovIndex) : Option Bool :=
  if a.index > b.index then some true
  else if a.index < b.index then some false
  else if a.readout > b.readout then some true
  else if a.readout < b.readout then some false
  else none

end CerenkovIndex

namespace IntVetoIndex

/-- `isSameActive` of the inner veto: several sensors may look at one counter, and
it does not tell them apart. -/
def isSameActive (a b : IntVetoIndex) : Bool :=
  a.sector == b.sector && a.layer == b.layer && a.component == b.component

/-- `operator==`: the same counter and the same sensor. -/
def eq (a b : IntVetoIndex) : Bool := isSameActive a b && a.readout == b.readout

/-- The fields of a counter of the inner veto, in the order of the comparison. -/
def fields (a : IntVetoIndex) : List Int8 := [a.sector, a.layer, a.component, a.readout]

/-- `operator<` of the inner veto, by `>` on the first field that differs. -/
def lt (a b : IntVetoIndex) : Bool := lexLess greater a.fields b.fields

end IntVetoIndex

namespace CaloIndex

/-- `isSameActive` of a crystal: its readouts are one to it. -/
def isSameActive (a b : CaloIndex) : Bool :=
  a.sector == b.sector && a.x == b.x && a.y == b.y

/-- `operator==`: the same crystal and the same readout. -/
def eq (a b : CaloIndex) : Bool := isSameActive a b && a.readout == b.readout

/-- The fields of a crystal, in the order of the comparison. -/
def fields (a : CaloIndex) : List Int8 := [a.sector, a.x, a.y, a.readout]

/-- `operator<` of the crystals, by `>` on the first field that differs. -/
def lt (a b : CaloIndex) : Bool := lexLess greater a.fields b.fields

end CaloIndex

namespace PaddlesIndex

/-- `isSameActive` of a paddle.  It has no readout, so that this is its
`operator==` as well. -/
def isSameActive (a b : PaddlesIndex) : Bool := a.id == b.id

/-- `operator==` of the paddles. -/
def eq (a b : PaddlesIndex) : Bool := a.id == b.id

/-- The only field of a paddle, as a list for the comparison that all classes
share. -/
def fields (a : PaddlesIndex) : List Int8 := [a.id]

/-- `operator<` of the paddles, by `>`. -/
def lt (a b : PaddlesIndex) : Bool := lexLess greater a.fields b.fields

end PaddlesIndex

/-! ## §3. The orders are strict and total. -/

instance : StrictTotal greater :=
  -- descending: the key is the negated value
  .of_key (fun a => -a.toInt) (fun a b h => Int8.toInt_inj.mp (by omega))
    (fun a b => by simp [greater, Int8.lt_iff_toInt_lt])

instance : StrictTotal less :=
  .of_key (fun a => a.toNat) (fun a b h => UInt8.toNat_inj.mp h)
    (fun a b => by simp [less, UInt8.lt_iff_toNat_lt])

instance : StrictTotal Csc.lt :=
  .lex (n := 3) Csc.fields (fun _ => rfl)
    (fun a b h => by cases a; cases b; simpa [Csc.fields] using h)

instance : StrictTotal ExtVetoIndex.lt :=
  .lex (n := 4) ExtVetoIndex.fields (fun _ => rfl)
    (fun a b h => by cases a; cases b; simpa [ExtVetoIndex.fields] using h)

instance : StrictTotal IntVetoIndex.lt :=
  .lex (n := 4) IntVetoIndex.fields (fun _ => rfl)
    (fun a b h => by cases a; cases b; simpa [IntVetoIndex.fields] using h)

instance : StrictTotal CaloIndex.lt :=
  .lex (n := 4) CaloIndex.fields (fun _ => rfl)
    (fun a b h => by cases a; cases b; simpa [CaloIndex.fields] using h)

instance : StrictTotal PaddlesIndex.lt :=
  .lex (n := 1) PaddlesIndex.fields (fun _ => rfl)
    (fun a b h => by cases a; cases b; simpa [PaddlesIndex.fields] using h)

/-- The equality that the program tests is equality, so that a crate, slot and
channel can be a key. -/
@[simp] theorem Csc.eq_iff (a b : Csc) : a.eq b = true ↔ a = b := by
  cases a; cases b; simp [Csc.eq, and_assoc]

/-- For the outer veto, too, the tested equality is equality of all the fields. -/
@[simp] theorem ExtVetoIndex.eq_iff (a b : ExtVetoIndex) : a.eq b = true ↔ a = b := by
  cases a; cases b; simp [ExtVetoIndex.eq, ExtVetoIndex.isSameActive, and_assoc]

/-- For the inner veto the tested equality is equality of all the fields: it tells
the sensors of one counter apart. -/
@[simp] theorem IntVetoIndex.eq_iff (a b : IntVetoIndex) : a.eq b = true ↔ a = b := by
  cases a; cases b; simp [IntVetoIndex.eq, IntVetoIndex.isSameActive, and_assoc]

/-- For the crystals the tested equality is equality of all the fields: it tells
the readouts of one crystal apart. -/
@[simp] theorem CaloIndex.eq_iff (a b : CaloIndex) : a.eq b = true ↔ a = b := by
  cases a; cases b; simp [CaloIndex.eq, CaloIndex.isSameActive, and_assoc]

/-- For the paddles the tested equality is that of the one number. -/
@[simp] theorem PaddlesIndex.eq_iff (a b : PaddlesIndex) : a.eq b = true ↔ a = b := by
  cases a; cases b; simp [PaddlesIndex.eq]

end PokerReco.TT
