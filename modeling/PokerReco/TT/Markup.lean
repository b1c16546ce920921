/-
  PokerReco.TT.Markup
  ───────────────────
  **WHERE WHITE SPACE OF A DOCUMENT MATTERS.**

  `XML_Parse` hands out elements and attributes.  White space between them is
  as good in one amount and kind as in another.  There are two exceptions: each
  character of a quoted value counts, where a carriage return and the line feed
  behind it are one line end, and an XML declaration has to be the very first
  thing of a document.

  A `Scan` reads a document up to some character and knows the place of the
  next one.  Comments, instructions and character sections have places of their
  own, since a quotation mark in them begins no value.

      document      the scanner of the characters of a document
      markup        what a parser can see of a document
-/
import PokerReco.Library.Scanner

namespace PokerReco.TT

open PokerReco.Library

/-! ## §1. The places of a document. -/

/-- White space, as a document has it. -/
def isSpace (c : Char) : Bool := c == ' ' || c == '\t' || c == '\r' || c == '\n'

/-- The line feed, which ends a line by itself or behind a carriage return. -/
def isBreak (c : Char) : Bool := c == '\n'

/-- A value is put between two of these. -/
inductive Quotation where
  | single
  | double
  deriving DecidableEq, Repr

/-- The character of a quotation mark. -/
def Quotation.mark : Quotation → Char
  | .single => '\x27'
  | .double => '\x22'

/-- Where a character of a document stands.  A tag is anything that begins with
`<`, a declaration as well. -/
inductive Place where
  | content
  | tag
  | value (q : Quotation)
  | comment
  | instruction
  | cdata
  deriving DecidableEq, Repr

/-- The place that is reached, and the characters that were read there since the
last white space, the last one first. -/
structure Scan where
  place : Place
  recent : List Char
  deriving DecidableEq, Repr

namespace Scan

/-- A document begins outside of any tag, with nothing read. -/
def start : Scan := ⟨.content, []⟩

/-- White space in a value is a part of it; elsewhere it ends what was read. -/
def blank (s : Scan) : Scan :=
  match s.place with
  | .value _ => s
  | place => ⟨place, []⟩

/-- A place that is left at its last characters, or else is still there. -/
def endAt (place : Place) (ending recent : List Char) : Scan :=
  if ending.reverse.isPrefixOf recent then ⟨.content, []⟩ else ⟨place, recent⟩

/-- A character in a tag.  What a `<` begins is known by the characters that
follow it directly. -/
def inTag (recent : List Char) (c : Char) : Scan :=
  if c = Quotation.single.mark then ⟨.value .single, []⟩
  else if c = Quotation.double.mark then ⟨.value .double, []⟩
  else if c = '>' then ⟨.content, []⟩
  else if c = '<' then ⟨.tag, ['<']⟩
  else if (c :: recent).reverse = "<!--".toList then ⟨.comment, []⟩
  else if (c :: recent).reverse = "<?".toList then ⟨.instruction, []⟩
  else if (c :: recent).reverse = "<![CDATA[".toList then ⟨.cdata, []⟩
  else ⟨.tag, c :: recent⟩

/-- A character of the document moves the scan on, by the place it stands at. -/
def step (s : Scan) (c : Char) : Scan :=
  if isSpace c then s.blank
  else
    match s.place with
    | .content => if c = '<' then ⟨.tag, ['<']⟩ else ⟨.content, []⟩
    | .tag => inTag s.recent c
    | .value q => if c = q.mark then ⟨.tag, []⟩ else s
    | .comment => endAt .comment "-->".toList (c :: s.recent)
    | .instruction => endAt .instruction "?>".toList (c :: s.recent)
    | .cdata => endAt .cdata "]]>".toList (c :: s.recent)

/-- The next character is part of a value, or the end of it. -/
def inValue (s : Scan) : Bool :=
  match s.place with
  | .value _ => true
  | _ => false

/-- A second white space does nothing to the scan. -/
theorem blank_blank (s : Scan) : s.blank.blank = s.blank := by
  obtain ⟨place, recent⟩ := s
  cases place <;> rfl

/-- White space does not end a value. -/
theorem inValue_blank (s : Scan) : s.blank.inValue = s.inValue := by
  obtain ⟨place, recent⟩ := s
  cases place <;> rfl

end Scan

/-! ## §2. What a parser sees. -/

/-- A line break is the line feed and no other character. -/
theorem isBreak_iff {c : Char} : isBreak c = true ↔ c = '\n' := beq_iff_eq

/-- A line break is white space. -/
theorem isSpace_of_isBreak {c : Char} (h : isBreak c = true) : isSpace c = true := by
  rw [isBreak_iff.mp h]
  rfl

/-- The scanner of a document: white space separates, values are kept, and a
line feed behind a carriage return is one line end with it. -/
def document : Scanner Scan Char where
  isSep := isSpace
  gone := isBreak
  joined c d := c == '\r' && isBreak d
  step := Scan.step
  inside := Scan.inValue
  blank := Scan.blank
  sep_of_gone := isSpace_of_isBreak
  gone_of_joined h := (Bool.and_eq_true_iff.mp h).2
  step_sep _ _ hc := if_pos hc
  blank_blank := Scan.blank_blank
  inside_blank := Scan.inValue_blank

/-- The text begins with white space. -/
def startsBlank (text : List Char) : Bool := text.head?.any isSpace

/-- The first word of a document with an XML declaration, `<?xml`. -/
def declaration : List (Bool × Char) := "<?xml".toList.map fun c => (false, c)

/-- White space stands before the XML declaration. -/
def lateDeclaration (text : List Char) : Bool :=
  startsBlank text && (document.pieces .start text).head? == some declaration

/-- What a parser can see of a document. -/
def markup (text : List Char) : Bool × List (List (Bool × Char)) :=
  (lateDeclaration text, document.pieces .start text)

-- blanks and line breaks between two attributes are one separator, those in a value are not
example : markup "<a b=\"x  y\" \n c='z'/>\n".toList = markup "\t<a b=\"x  y\" c='z'/>".toList := by
  decide

example : markup "<a b=\"x  y\"/>".toList ≠ markup "<a b=\"x y\"/>".toList := by decide

-- the apostrophe of a comment begins no value
example : markup "<!-- it's -->  <a/>".toList = markup "<!-- it's --> <a/>".toList := by decide

end PokerReco.TT
