/-
  PokerReco.TT.TableFile
  ──────────────────────
  **THE TRANSLATION TABLE FROM A FILE** (`TT/TranslationTable.cc`,
  `ReadTranslationTable`).

  The file is read line by line with `istream::getline` into a buffer of 4096
  characters, and the lines are put together without what was between them.  A
  line that does not fit sets `failbit`, and the loop ends there.  A character
  is a `char` of C, one byte of the file, so that the buffer counts bytes.

      readLines            the string that is handed to `XML_Parse`
      keepsDocument_iff    when it is the document of the file
-/
import Mathlib.Data.List.TakeWhile
import PokerReco.TT.Markup

namespace PokerReco.TT

open PokerReco.Library

/-! ## §1. `istream::getline`. -/

/-- An input stream: the characters that are left, and the two bits of its state
that `getline` sets. -/
structure IStream where
  rest : List Char
  eofbit : Bool
  failbit : Bool

/-- `good()`: neither bit is set. -/
def IStream.good (s : IStream) : Bool := !s.eofbit && !s.failbit

/-- The characters of a line, with space for so many: the end of the file is
looked for first, then the delimiter, then the end of the buffer. -/
def extract : (space : Nat) → List Char → List Char × IStream
  | _, [] => ([], ⟨[], true, false⟩)
  | space, c :: cs =>
      if c = '\n' then ([], ⟨cs, false, false⟩)
      else
        match space with
        -- the character stays in the stream
        | 0 => ([], ⟨c :: cs, false, true⟩)
        | space + 1 => (c :: (extract space cs).1, (extract space cs).2)

/-- `getline(line, n)`: the characters in `line`, and the stream. -/
def IStream.getline (s : IStream) (n : Nat) : List Char × IStream :=
  if s.good then
    match s.rest with
    -- nothing is extracted at the end of the file
    | [] => ([], ⟨[], true, true⟩)
    | c :: cs => extract (n - 1) (c :: cs)
  else ([], { s with failbit := true })

/-- At the end of the file nothing is taken, and `eofbit` is set. -/
theorem extract_nil (space : Nat) : extract space [] = ([], ⟨[], true, false⟩) := by
  cases space <;> rfl

/-- A line break ends the line, and is taken out of the stream. -/
theorem extract_newline (space : Nat) (cs : List Char) :
    extract space ('\n' :: cs) = ([], ⟨cs, false, false⟩) := by
  cases space <;> rfl

/-- With no space left a character stays in the stream, and `failbit` is set. -/
theorem extract_full {c : Char} (hc : c ≠ '\n') (cs : List Char) :
    extract 0 (c :: cs) = ([], ⟨c :: cs, false, true⟩) := if_neg hc

/-- With space a character of the line is taken. -/
theorem extract_take {c : Char} (hc : c ≠ '\n') (space : Nat) (cs : List Char) :
    extract (space + 1) (c :: cs) = (c :: (extract space cs).1, (extract space cs).2) := if_neg hc

/-- What is left to read, and whether the loop goes on: it falls with each turn. -/
def IStream.work (s : IStream) : Nat := if s.good then s.rest.length + 1 else 0

/-- A stream that is not good has no more work for the loop. -/
theorem work_not_good {s : IStream} (h : s.good = false) : s.work = 0 := by
  unfold IStream.work
  rw [h]
  rfl

/-- Whatever the space, nothing is put back into the stream. -/
theorem extract_work_le (space : Nat) (cs : List Char) :
    (extract space cs).2.work ≤ cs.length + 1 := by
  induction cs generalizing space with
  | nil =>
      rw [extract_nil, work_not_good rfl]
      exact Nat.zero_le _
  | cons c cs ih =>
      by_cases hc : c = '\n'
      · rw [hc, extract_newline]
        exact Nat.le_succ _
      · cases space with
        | zero =>
            rw [extract_full hc, work_not_good rfl]
            exact Nat.zero_le _
        | succ space =>
            rw [extract_take hc]
            exact Nat.le_succ_of_le (ih space)

/-- With space for a character a line takes something away, or ends the loop. -/
theorem extract_work_lt (space : Nat) (cs : List Char) :
    (extract (space + 1) cs).2.work < cs.length + 1 := by
  cases cs with
  | nil => exact Nat.zero_lt_one
  | cons c cs =>
      by_cases hc : c = '\n'
      · rw [hc, extract_newline]
        exact Nat.lt_succ_self _
      · rw [extract_take hc]
        exact Nat.lt_succ_of_le (extract_work_le space cs)

/-- Each line takes something away or ends the loop, so that the loop ends. -/
theorem getline_work {s : IStream} (h : s.good = true) : (s.getline 4096).2.work < s.work := by
  unfold IStream.getline IStream.work
  rw [if_pos h, if_pos h]
  cases hrest : s.rest with
  | nil => exact Nat.zero_lt_one
  | cons c cs => exact extract_work_lt 4094 (c :: cs)

/-! ## §2. The loop. -/

/-- `ss << line`: the characters up to the first null, as the buffer is a C string
to the stream. -/
def cString (line : List Char) : List Char := line.takeWhile fun c => c ≠ '\x00'

/-- The loop over the lines: what it writes to the string stream.  Between two
lines it writes nothing. -/
def readLines (s : IStream) : List Char :=
  -- nothing is written between two lines, and `failbit` ends the loop
  if s.good = true then cString (s.getline 4096).1 ++ readLines (s.getline 4096).2
  else []
termination_by s.work
decreasing_by exact getline_work ‹_›

/-- `tt_xml`, from a local file: the string that is handed to the parser. -/
def ttXml (file : List Char) : List Char := readLines ⟨file, false, false⟩

/-! ## §3. One line. -/

/-- Characters that fit are taken one by one. -/
theorem extract_append {space : Nat} {line : List Char} (hline : '\n' ∉ line)
    (hfits : line.length ≤ space) (tail : List Char) :
    extract space (line ++ tail) = (line ++ (extract (space - line.length) tail).1,
      (extract (space - line.length) tail).2) := by
  induction line generalizing space with
  | nil => rfl
  | cons c line ih =>
      obtain ⟨hc, hline⟩ := List.ne_and_not_mem_of_not_mem_cons hline
      rw [List.length_cons] at hfits
      obtain ⟨space, rfl⟩ : ∃ n, space = n + 1 := ⟨space - 1, by omega⟩
      rw [List.cons_append, extract_take (Ne.symm hc), ih hline (by omega), List.length_cons,
        Nat.add_sub_add_right, List.cons_append]

/-- A line that fits is taken, with its line break, which is not stored. -/
theorem extract_line {space : Nat} {line : List Char} (hline : '\n' ∉ line)
    (hfits : line.length ≤ space) (after : List Char) :
    extract space (line ++ '\n' :: after) = (line, ⟨after, false, false⟩) := by
  rw [extract_append hline hfits, extract_newline, List.append_nil]

/-- A last line that fits is taken, and the end of the file is noticed. -/
theorem extract_last {space : Nat} {line : List Char} (hline : '\n' ∉ line)
    (hfits : line.length ≤ space) : extract space line = (line, ⟨[], true, false⟩) := by
  have hrun := extract_append hline hfits []
  rw [extract_nil, List.append_nil] at hrun
  exact hrun

/-- Of a line that does not fit the beginning is taken, and the stream has
failed. -/
theorem extract_long {line : List Char} (hline : '\n' ∉ line) {c : Char} (hc : c ≠ '\n')
    (after : List Char) :
    extract line.length (line ++ c :: after) = (line, ⟨c :: after, false, true⟩) := by
  rw [extract_append hline (Nat.le_refl _), Nat.sub_self, extract_full hc, List.append_nil]

/-- How a text begins: with a line that fits and is the last, with one that fits
and has a line break, or with one that does not fit. -/
theorem firstLine_cases (space : Nat) (file : List Char) :
    ('\n' ∉ file ∧ file.length ≤ space)
      ∨ (∃ line after, file = line ++ '\n' :: after ∧ '\n' ∉ line ∧ line.length ≤ space)
      ∨ ∃ line c after, file = line ++ c :: after ∧ '\n' ∉ line ∧ line.length = space
        ∧ c ≠ '\n' := by
  induction file generalizing space with
  | nil => exact Or.inl ⟨List.not_mem_nil, Nat.zero_le space⟩
  | cons c file ih =>
      by_cases hc : c = '\n'
      · exact Or.inr (Or.inl ⟨[], file, by rw [hc]; rfl, List.not_mem_nil, Nat.zero_le space⟩)
      · cases space with
        | zero => exact Or.inr (Or.inr ⟨[], c, file, rfl, List.not_mem_nil, rfl, hc⟩)
        | succ space =>
            have hmem : ∀ line : List Char, '\n' ∉ line → '\n' ∉ c :: line := fun line hline h =>
              (List.mem_cons.mp h).elim (fun h => hc h.symm) hline
            obtain ⟨hline, hfits⟩ | ⟨line, after, rfl, hline, hfits⟩ |
              ⟨line, d, after, rfl, hline, hlong, hd⟩ := ih space
            · exact Or.inl ⟨hmem file hline, Nat.succ_le_succ hfits⟩
            · exact Or.inr (Or.inl ⟨c :: line, after, rfl, hmem line hline,
                Nat.succ_le_succ hfits⟩)
            · exact Or.inr (Or.inr ⟨c :: line, d, after, rfl, hmem line hline,
                congrArg (· + 1) hlong, hd⟩)

/-! ## §4. The whole file. -/

/-- A turn of the loop on a good stream: the line is written up to its
first null. -/
theorem readLines_of_good {s : IStream} (h : s.good = true) :
    readLines s = cString (s.getline 4096).1 ++ readLines (s.getline 4096).2 := by
  rw [readLines, if_pos h]

/-- On a stream that is not good the loop has ended. -/
theorem readLines_of_not_good {s : IStream} (h : s.good = false) : readLines s = [] := by
  rw [readLines, if_neg (Bool.eq_false_iff.mp h)]

/-- On a file that is not at its end `getline` is the extraction, with one
character of the buffer kept for the null. -/
theorem getline_start {file : List Char} (hne : file ≠ []) :
    IStream.getline ⟨file, false, false⟩ 4096 = extract 4095 file := by
  cases file with
  | nil => exact absurd rfl hne
  | cons c cs => rfl

/-- The first line of a file, and what the loop makes of the others. -/
theorem ttXml_of_ne_nil {file : List Char} (hne : file ≠ []) :
    ttXml file = cString (extract 4095 file).1 ++ readLines (extract 4095 file).2 := by
  unfold ttXml
  rw [readLines_of_good rfl, getline_start hne]

/-- A file that begins with a line that fits: the line, and then the string
of the rest. -/
theorem ttXml_line {line : List Char} (hline : '\n' ∉ line) (hfits : line.length ≤ 4095)
    (after : List Char) : ttXml (line ++ '\n' :: after) = cString line ++ ttXml after := by
  rw [ttXml_of_ne_nil (by simp), extract_line hline hfits]
  rfl

/-- A file that is one line without a line break, and fits. -/
theorem ttXml_last {line : List Char} (hline : '\n' ∉ line) (hfits : line.length ≤ 4095) :
    ttXml line = cString line := by
  cases line with
  | nil =>
      unfold ttXml
      rw [readLines_of_good rfl]
      exact readLines_of_not_good rfl
  | cons c line =>
      rw [ttXml_of_ne_nil (List.cons_ne_nil c line), extract_last hline hfits,
        readLines_of_not_good rfl, List.append_nil]

/-- A line that does not fit is the last one that is read, and the string ends in
the middle of it. -/
theorem ttXml_long {line : List Char} (hline : '\n' ∉ line) (hlong : line.length = 4095) {c : Char}
    (hc : c ≠ '\n') (after : List Char) : ttXml (line ++ c :: after) = cString line := by
  rw [ttXml_of_ne_nil (by simp), ← hlong, extract_long hline hc, readLines_of_not_good rfl,
    List.append_nil]

/-! ## §5. What the string should be. -/

/-- The characters of a text without its line breaks. -/
def withoutBreaks (text : List Char) : List Char := text.filter fun c => !isBreak c

/-- The string is the document of the file: it has its characters in order and
white space where the file has a line break, and a parser gets the same from
both, if it sees no more of a text than its `markup`. -/
structure KeepsDocument (file xml : List Char) : Prop where
  characters : withoutBreaks xml = withoutBreaks file
  apart : ∀ before c gap d after, file = before ++ c :: (gap ++ d :: after) →
    ¬ isSpace c = true → ¬ isSpace d = true → (∀ x ∈ gap, isSpace x = true) → '\n' ∈ gap →
    ∃ before' gap' after', xml = before' ++ c :: (gap' ++ d :: after')
      ∧ withoutBreaks before' = withoutBreaks before ∧ gap' ≠ [] ∧ ∀ x ∈ gap', isSpace x = true
  parsed : ∀ {ω : Type} (parse : List Char → ω),
    (∀ text text', markup text = markup text' → parse text = parse text') →
    parse xml = parse file

/-- Every line fits into the buffer with its null, so that the loop comes to the
end of the file. -/
def LinesFit (file : List Char) : Prop := ∀ line ∈ file.splitOn '\n', line.length ≤ 4095

/-- A value has a line break in it that does not directly follow a carriage
return, so that it is a character of the value by itself. -/
def BreakInValue (file : List Char) : Prop := (true, '\n') ∈ document.marks .start none file

instance (file : List Char) : Decidable (BreakInValue file) := inferInstanceAs (Decidable (_ ∈ _))

-- a blank is left where the line break was, but the value had two characters there
example : BreakInValue "<a b=\"x \ny\"/>".toList := by decide

example : ¬ BreakInValue "<a b=\"x\r\ny\" \n c=\"z\"/>".toList := by decide

/-- Nothing but line breaks stands before the XML declaration. -/
def BreaksBeforeDeclaration (file : List Char) : Prop :=
  lateDeclaration file = true ∧ startsBlank (withoutBreaks file) = false

/-! ## §6. When the string has all characters. -/

/-- A text without a line break is left as it is. -/
theorem withoutBreaks_of_not_mem {text : List Char} (h : '\n' ∉ text) :
    withoutBreaks text = text := by
  refine List.filter_eq_self.mpr fun c hc => ?_
  have hne : ¬ isBreak c = true := fun hbreak => h (isBreak_iff.mp hbreak ▸ hc)
  simpa using hne

/-- Line breaks are taken out of two texts one by one. -/
theorem withoutBreaks_append (text text' : List Char) :
    withoutBreaks (text ++ text') = withoutBreaks text ++ withoutBreaks text' :=
  List.filter_append ..

/-- A character that is no line break stays. -/
theorem withoutBreaks_cons {c : Char} (hc : c ≠ '\n') (text : List Char) :
    withoutBreaks (c :: text) = c :: withoutBreaks text := by
  have hne : ¬ isBreak c = true := fun hbreak => hc (isBreak_iff.mp hbreak)
  exact List.filter_cons_of_pos (by simpa using hne)

/-- A line break is taken out. -/
theorem withoutBreaks_newline (text : List Char) :
    withoutBreaks ('\n' :: text) = withoutBreaks text := rfl

/-- None is left afterwards. -/
theorem newline_not_mem_withoutBreaks (text : List Char) : '\n' ∉ withoutBreaks text := by
  intro h
  exact absurd (List.mem_filter.mp h).2 (by decide)

/-- What is written of a line are characters of it, in order. -/
theorem cString_sublist (line : List Char) : (cString line).Sublist line :=
  List.takeWhile_sublist _

/-- A line is written in full when it has no null character. -/
theorem cString_eq_iff {line : List Char} : cString line = line ↔ '\x00' ∉ line := by
  unfold cString
  rw [List.takeWhile_eq_self_iff]
  constructor
  · intro h hmem
    exact absurd (h _ hmem) (by decide)
  · intro h c hc
    exact decide_eq_true fun heq => h (heq ▸ hc)

/-- Parts of two texts are the whole when together they are. -/
theorem append_eq_iff {part part' whole whole' : List Char} (h : part.Sublist whole)
    (h' : part'.Sublist whole') :
    part ++ part' = whole ++ whole' ↔ part = whole ∧ part' = whole' := by
  constructor
  · intro heq
    have hlength := congrArg List.length heq
    rw [List.length_append, List.length_append] at hlength
    have hle := h.length_le
    have hle' := h'.length_le
    exact ⟨h.eq_of_length (by omega), h'.eq_of_length (by omega)⟩
  · rintro ⟨rfl, rfl⟩
    rfl

/-- The lines of a text fit when the first one does and those behind its
line break do. -/
theorem linesFit_line {line : List Char} (hline : '\n' ∉ line) (after : List Char) :
    LinesFit (line ++ '\n' :: after) ↔ line.length ≤ 4095 ∧ LinesFit after := by
  unfold LinesFit
  rw [List.splitOn_append_cons_self_of_not_mem hline, List.forall_mem_cons]

/-- A text that is one line fits when it is short enough. -/
theorem linesFit_last {line : List Char} (hline : '\n' ∉ line) :
    LinesFit line ↔ line.length ≤ 4095 := by
  unfold LinesFit
  rw [List.splitOn_eq_singleton hline, List.forall_mem_singleton]

/-- A text that begins with too many characters, without a line break,
does not fit. -/
theorem not_linesFit_long {line : List Char} (hline : '\n' ∉ line) (hlong : 4095 ≤ line.length)
    {c : Char} (hc : c ≠ '\n') (after : List Char) : ¬ LinesFit (line ++ c :: after) := by
  intro h
  have hbreak : ∀ rest : List Char, '\n' ∉ rest → '\n' ∉ line ++ c :: rest := by
    intro rest hrest
    rw [List.mem_append, List.mem_cons]
    exact not_or.mpr ⟨hline, not_or.mpr ⟨hc.symm, hrest⟩⟩
  by_cases hafter : '\n' ∈ after
  · obtain ⟨rest, after', rfl, hrest⟩ := List.eq_append_cons_of_mem hafter
    rw [← List.cons_append, ← List.append_assoc, linesFit_line (hbreak rest hrest),
      List.length_append, List.length_cons] at h
    omega
  · rw [linesFit_last (hbreak after hafter), List.length_append, List.length_cons] at h
    omega

/-- The string has characters of the file in order, and no line break, whatever
the file is. -/
theorem ttXml_sublist (file : List Char) : (ttXml file).Sublist (withoutBreaks file) := by
  induction hn : file.length using Nat.strong_induction_on generalizing file with
  | _ n ih =>
      obtain ⟨hline, hfits⟩ | ⟨line, after, rfl, hline, hfits⟩ |
        ⟨line, c, after, rfl, hline, hlong, hc⟩ := firstLine_cases 4095 file
      · rw [ttXml_last hline hfits, withoutBreaks_of_not_mem hline]
        exact cString_sublist file
      · rw [List.length_append, List.length_cons] at hn
        rw [ttXml_line hline hfits, withoutBreaks_append, withoutBreaks_of_not_mem hline]
        exact (cString_sublist line).append (ih after.length (by omega) after rfl)
      · rw [ttXml_long hline hlong hc, withoutBreaks_append, withoutBreaks_of_not_mem hline]
        exact (cString_sublist line).trans (List.sublist_append_left _ _)

/-- A text has no null when its first line has none and the rest has none. -/
theorem null_not_mem_line (line after : List Char) :
    '\x00' ∉ line ++ '\n' :: after ↔ '\x00' ∉ line ∧ '\x00' ∉ after := by
  have hne : ('\x00' : Char) ≠ '\n' := by decide
  rw [List.mem_append, List.mem_cons, not_or, not_or]
  exact ⟨fun h => ⟨h.1, h.2.2⟩, fun h => ⟨h.1, hne, h.2⟩⟩

/-- **All characters are there** when the lines fit and have no null. -/
theorem ttXml_eq_iff (file : List Char) :
    ttXml file = withoutBreaks file ↔ LinesFit file ∧ '\x00' ∉ file := by
  induction hn : file.length using Nat.strong_induction_on generalizing file with
  | _ n ih =>
      -- by the first line; what follows it is shorter
      obtain ⟨hline, hfits⟩ | ⟨line, after, rfl, hline, hfits⟩ |
        ⟨line, c, after, rfl, hline, hlong, hc⟩ := firstLine_cases 4095 file
      · rw [ttXml_last hline hfits, withoutBreaks_of_not_mem hline, cString_eq_iff,
          linesFit_last hline]
        exact ⟨fun h => ⟨hfits, h⟩, fun h => h.2⟩
      · rw [List.length_append, List.length_cons] at hn
        rw [ttXml_line hline hfits, withoutBreaks_append, withoutBreaks_of_not_mem hline,
          withoutBreaks_newline, append_eq_iff (cString_sublist line) (ttXml_sublist after),
          cString_eq_iff, ih after.length (by omega) after rfl, linesFit_line hline,
          null_not_mem_line]
        constructor
        · rintro ⟨hnull, hfit, hnull'⟩
          exact ⟨⟨hfits, hfit⟩, hnull, hnull'⟩
        · rintro ⟨⟨-, hfit⟩, hnull, hnull'⟩
          exact ⟨hnull, hfit, hnull'⟩
      · -- the character after the buffer is not there
        refine iff_of_false (fun h => ?_) fun h => not_linesFit_long hline hlong.ge hc after h.1
        have hlength := congrArg List.length h
        rw [ttXml_long hline hlong hc, withoutBreaks_append, withoutBreaks_of_not_mem hline,
          withoutBreaks_cons hc, List.length_append, List.length_cons] at hlength
        have hle := (cString_sublist line).length_le
        omega

/-! ## §7. When the words stay apart. -/

/-- Nothing is left of a text exactly when it has line breaks only. -/
theorem withoutBreaks_eq_nil {gap : List Char} :
    withoutBreaks gap = [] ↔ ∀ x ∈ gap, isBreak x = true := by
  unfold withoutBreaks
  rw [List.filter_eq_nil_iff]
  exact forall₂_congr fun x _ => by rw [Bool.not_eq_true', Bool.not_eq_false]

/-- Nothing is left of line breaks. -/
theorem withoutBreaks_breaks {gap : List Char} (h : ∀ x ∈ gap, isBreak x = true) :
    withoutBreaks gap = [] := withoutBreaks_eq_nil.mpr h

/-- A gap that is line breaks only, and not empty, has one. -/
theorem newline_mem_of_breaks {gap : List Char} (hne : gap ≠ [])
    (hgap : ∀ x ∈ gap, isBreak x = true) : '\n' ∈ gap := by
  cases gap with
  | nil => exact absurd rfl hne
  | cons x gap =>
      have hx : x = '\n' := isBreak_iff.mp (hgap x (List.mem_cons_self ..))
      rw [hx]
      exact List.mem_cons_self ..

/-- A character that is no white space is no line break. -/
theorem ne_newline {c : Char} (hc : ¬ isSpace c = true) : c ≠ '\n' := by
  rintro rfl
  exact hc rfl

/-- What is left of a gap between two words: the words are as they were, and the
gap has lost its line breaks. -/
theorem withoutBreaks_gap {file before gap after : List Char} {c d : Char}
    (hc : ¬ isSpace c = true) (hd : ¬ isSpace d = true)
    (hfile : file = before ++ c :: (gap ++ d :: after)) :
    withoutBreaks file
      = withoutBreaks before ++ c :: (withoutBreaks gap ++ d :: withoutBreaks after) := by
  rw [hfile, withoutBreaks_append, withoutBreaks_cons (ne_newline hc), withoutBreaks_append,
    withoutBreaks_cons (ne_newline hd)]

/-- The beginning of a text without line breaks has none. -/
theorem before_not_mem {file before rest : List Char} (h : withoutBreaks file = before ++ rest) :
    '\n' ∉ before := by
  intro hmem
  refine newline_not_mem_withoutBreaks file ?_
  rw [h]
  exact List.mem_append_left rest hmem

/-- A string without white space between two words of the file is not the
document: the two words have become one. -/
theorem KeepsDocument.not_onlySeparated {file : List Char}
    (h : KeepsDocument file (withoutBreaks file)) : ¬ OnlySeparatedBy isSpace isBreak file := by
  rintro ⟨before, c, gap, d, after, hfile, hc, hd, hne, hgap⟩
  obtain ⟨before', gap', after', hxml, hbefore, hne', hgap'⟩ :=
    h.apart before c gap d after hfile hc hd (fun x hx => isSpace_of_isBreak (hgap x hx))
      (newline_mem_of_breaks hne hgap)
  -- the string has nothing between `c` and `d`
  have hjoined := (withoutBreaks_gap hc hd hfile).symm.trans hxml
  rw [withoutBreaks_breaks hgap, List.nil_append,
    ← withoutBreaks_of_not_mem (before_not_mem hxml), hbefore] at hjoined
  have hrest := (List.cons.inj (List.append_cancel_left hjoined)).2
  cases gap' with
  | nil => exact hne' rfl
  | cons e gap' =>
      have hde : d = e := (List.cons.inj hrest).1
      exact hd (hde ▸ hgap' e (List.mem_cons_self ..))

/-! ## §8. When the markup stays the same. -/

/-- A text that begins with a blank when its line breaks are gone began with white
space before. -/
theorem startsBlank_of_withoutBreaks {file : List Char}
    (h : startsBlank (withoutBreaks file) = true) : startsBlank file = true := by
  cases file with
  | nil => exact h
  | cons c file =>
      by_cases hc : isBreak c = true
      · exact isSpace_of_isBreak hc
      · rw [withoutBreaks_cons fun heq => hc (isBreak_iff.mpr heq)] at h
        exact h

/-- The declaration is as late as before, or line breaks alone made it late. -/
theorem lateDeclaration_withoutBreaks_iff {file : List Char}
    (hpieces : document.pieces .start (withoutBreaks file) = document.pieces .start file) :
    lateDeclaration (withoutBreaks file) = lateDeclaration file
      ↔ ¬ BreaksBeforeDeclaration file := by
  unfold BreaksBeforeDeclaration
  cases hblank : startsBlank (withoutBreaks file) with
  | true =>
      refine iff_of_true ?_ fun h => Bool.noConfusion h.2
      rw [lateDeclaration, lateDeclaration, hpieces, hblank, startsBlank_of_withoutBreaks hblank]
  | false =>
      have hlate : lateDeclaration (withoutBreaks file) = false := by
        rw [lateDeclaration, hblank, Bool.false_and]
      rw [hlate, eq_comm, ← Bool.not_eq_true]
      exact not_congr (and_iff_left rfl).symm

/-- **A parser sees the same** in the file without its line breaks, when the
words stay apart, exactly when no line break is part of a value and none is all
that stands before the declaration. -/
theorem markup_withoutBreaks_iff {file : List Char}
    (hapart : ¬ OnlySeparatedBy isSpace isBreak file) :
    markup (withoutBreaks file) = markup file
      ↔ ¬ BreakInValue file ∧ ¬ BreaksBeforeDeclaration file := by
  have hpieces : document.pieces .start (withoutBreaks file) = document.pieces .start file
      ↔ ¬ BreakInValue file := by
    refine (Scanner.pieces_without_iff (S := document) hapart rfl).trans ?_
    constructor
    · intro h hmem
      exact h _ hmem rfl rfl
    · rintro h ⟨inside, c⟩ hmem rfl hgone
      obtain rfl := isBreak_iff.mp hgone
      exact h hmem
  unfold markup
  rw [Prod.mk.injEq, and_comm, hpieces]
  refine and_congr_right fun hvalue => ?_
  exact lateDeclaration_withoutBreaks_iff (hpieces.mpr hvalue)

/-- Where the words stay apart and the markup is the same the characters are the
document. -/
theorem keepsDocument_withoutBreaks {file : List Char}
    (hapart : ¬ OnlySeparatedBy isSpace isBreak file)
    (hmarkup : markup (withoutBreaks file) = markup file) :
    KeepsDocument file (withoutBreaks file) := by
  refine ⟨withoutBreaks_of_not_mem (newline_not_mem_withoutBreaks file), ?_, ?_⟩
  · intro before c gap d after hfile hc hd hgap hbreak
    refine ⟨withoutBreaks before, withoutBreaks gap, withoutBreaks after,
      withoutBreaks_gap hc hd hfile, ?_, ?_, ?_⟩
    · exact withoutBreaks_of_not_mem (newline_not_mem_withoutBreaks before)
    · intro hempty
      refine hapart ⟨before, c, gap, d, after, hfile, hc, hd, List.ne_nil_of_mem hbreak, ?_⟩
      exact withoutBreaks_eq_nil.mp hempty
    · intro x hx
      exact hgap x (List.mem_of_mem_filter hx)
  · intro ω parse hparse
    exact hparse _ _ hmarkup

/-- **The string is the document** when it has all characters, no line break is
all that is between two words or before the declaration, and none is part of a
value. -/
theorem keepsDocument_iff (file : List Char) :
    KeepsDocument file (ttXml file)
      ↔ LinesFit file ∧ '\x00' ∉ file ∧ ¬ OnlySeparatedBy isSpace isBreak file
        ∧ ¬ BreakInValue file ∧ ¬ BreaksBeforeDeclaration file := by
  constructor
  · intro h
    have hall : ttXml file = withoutBreaks file := by
      have hcharacters := h.characters
      rwa [withoutBreaks_of_not_mem fun hmem =>
        newline_not_mem_withoutBreaks file ((ttXml_sublist file).subset hmem)] at hcharacters
    obtain ⟨hfit, hnull⟩ := (ttXml_eq_iff file).mp hall
    rw [hall] at h
    have hapart := h.not_onlySeparated
    -- `markup` itself is such a parser
    have hmarkup := h.parsed markup fun _ _ hsame => hsame
    exact ⟨hfit, hnull, hapart, (markup_withoutBreaks_iff hapart).mp hmarkup⟩
  · rintro ⟨hfit, hnull, hapart, hmarkup⟩
    rw [(ttXml_eq_iff file).mpr ⟨hfit, hnull⟩]
    exact keepsDocument_withoutBreaks hapart ((markup_withoutBreaks_iff hapart).mpr hmarkup)

/-- A line break is all that stands between two attributes. -/
theorem line_break_between_attributes :
    ¬ KeepsDocument "<slot number=\"3\"\ntype=\"fa250\">".toList
        (ttXml "<slot number=\"3\"\ntype=\"fa250\">".toList) := by
  intro h
  have hxml : ttXml "<slot number=\"3\"\ntype=\"fa250\">".toList
      = "<slot number=\"3\"type=\"fa250\">".toList := by
    have hfirst : '\n' ∉ "<slot number=\"3\"".toList := by decide
    have hline := ttXml_line hfirst (by decide) "type=\"fa250\">".toList
    have hlast : ttXml "type=\"fa250\">".toList = "type=\"fa250\">".toList :=
      ttXml_last (by decide) (by decide)
    rw [hlast] at hline
    exact hline
  -- a parser that returns the words tells the two apart
  have hwords := h.parsed (fun text => (markup text).2.length) fun _ _ hsame => by rw [hsame]
  rw [hxml] at hwords
  exact absurd hwords (by decide)

end PokerReco.TT
