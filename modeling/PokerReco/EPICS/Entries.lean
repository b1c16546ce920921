/-
  PokerReco.EPICS.Entries
  ───────────────────────
  **WHAT `decode` KEEPS OF A LIST OF ENTRIES** (`EPICS/epicsData.cc`).

  An EPICS text is written as lines `value name`.  The loop of `decode` tests
  for the end of the text between the extraction of a line and its two
  assignments, so a line that ends with the text is read and not stored.

      decodeLoop_lines          all the lines with a newline are stored
      decode_keeps_entries_iff  no entry is lost with a newline behind the last
                                line, or when that entry changes nothing
-/
import PokerReco.EPICS.Decode
import PokerReco.Library.LastWrite

namespace PokerReco.EPICS

open PokerReco.Library

variable {Val : Type}

/-! ## §1. What is asked of an `epicsData`. -/

namespace EpicsData

/-- `hasData`: is there a value under the name? -/
def hasData (d : EpicsData Val) (key : String) : Bool := d.values[key]?.isSome

/-- `getDataValue`: the value under the name, or -999 when there is none. -/
def getDataValue [Neg Val] [OfNat Val 999] (d : EpicsData Val) (key : String) : Val :=
  d.values[key]?.getD (-999)

/-- `getDataTime`: the time under the name, or -999 when there is none. -/
def getDataTime (d : EpicsData Val) (key : String) : Int32 := d.times[key]?.getD (-999)

end EpicsData

/-! ## §2. Entries, and how they are written. -/

/-- A value with its name.  The value is written so that a number is read back
from it when a blank follows. -/
structure Entry (num_get : List Char → NumGet Val) where
  number : List Char
  val : Val
  name : String
  number_starts : Starts number
  reads : ∀ rest, num_get (number ++ ' ' :: rest) = ⟨number.length, val, true⟩
  name_word : ∀ c ∈ name.toList, isspace c = false

namespace Entry

variable {num_get : List Char → NumGet Val}

/-- The line of an entry, without its newline. -/
def line (e : Entry num_get) : List Char := e.number ++ ' ' :: e.name.toList

/-- The lines of some entries, each with its newline. -/
def lines (entries : List (Entry num_get)) : List Char :=
  entries.flatMap fun e => e.line ++ ['\n']

/-- The text of some entries, with or without the newline behind the last line. -/
def text (entries : List (Entry num_get)) (newline : Bool) : List Char :=
  if newline then lines entries else (lines entries).dropLast

/-- The assignments that `decode` makes for all entries, in order. -/
def storeAll (deltaTime : Int32) (d : EpicsData Val) (entries : List (Entry num_get)) :
    EpicsData Val :=
  entries.foldl (fun d e => d.store e.name e.val deltaTime) d

/-- The last entry with a name, if there is one. -/
def lastNamed (entries : List (Entry num_get)) (name : String) : Option (Entry num_get) :=
  lastWrite (·.name) entries name

/-- Without the last newline the text ends with the last line. -/
theorem text_concat (entries : List (Entry num_get)) (e : Entry num_get) :
    text (entries ++ [e]) false = lines entries ++ e.line := by
  have hlines : lines (entries ++ [e]) = (lines entries ++ e.line) ++ ['\n'] := by
    unfold lines
    rw [List.flatMap_append, List.flatMap_singleton, List.append_assoc]
  show (lines (entries ++ [e])).dropLast = _
  rw [hlines, List.dropLast_concat]

/-- For the name of an entry there is a last one. -/
theorem lastNamed_isSome {entries : List (Entry num_get)} {e : Entry num_get} (he : e ∈ entries) :
    (lastNamed entries e.name).isSome = true :=
  lastWrite_isSome_iff.mpr ⟨e, he, rfl⟩

/-- For a name without an entry there is no last one. -/
theorem lastNamed_eq_none {entries : List (Entry num_get)} {name : String}
    (h : ∀ e ∈ entries, e.name ≠ name) : lastNamed entries name = none := by
  refine Option.not_isSome_iff_eq_none.mp fun hsome => ?_
  obtain ⟨e, he, hname⟩ := lastWrite_isSome_iff.mp hsome
  exact h e he hname

/-- The assignments leave under a name the value of its last entry, or what
was there. -/
theorem storeAll_values (deltaTime : Int32) (d : EpicsData Val) (entries : List (Entry num_get))
    (name : String) :
    (storeAll deltaTime d entries).values[name]?
      = ((lastNamed entries name).map (·.val)).or d.values[name]? := by
  have hvalues : (storeAll deltaTime d entries).values
      = entries.foldl (fun m e => m.insert e.name e.val) d.values := by
    unfold storeAll
    induction entries generalizing d with
    | nil => rfl
    | cons e entries ih => exact ih (d.store e.name e.val deltaTime)
  rw [hvalues]
  exact getElem?_foldl_insert (·.val) entries d.values name

/-- The assignments leave under a name the time of the event, or what was there:
every entry gets the same time. -/
theorem storeAll_times (deltaTime : Int32) (d : EpicsData Val) (entries : List (Entry num_get))
    (name : String) :
    (storeAll deltaTime d entries).times[name]?
      = ((lastNamed entries name).map fun _ => d.time + deltaTime).or d.times[name]? := by
  have htimes : (storeAll deltaTime d entries).times
      = entries.foldl (fun m e => m.insert e.name (d.time + deltaTime)) d.times := by
    unfold storeAll
    generalize ht : d.time = t
    induction entries generalizing d with
    | nil => rfl
    | cons e entries ih =>
        rw [List.foldl_cons, List.foldl_cons, ih (d.store e.name e.val deltaTime) ht, ← ht]
        rfl
  rw [htimes]
  exact getElem?_foldl_insert (fun _ => d.time + deltaTime) entries d.times name

/-- Names without an entry keep their value and their time. -/
theorem storeAll_others (deltaTime : Int32) {entries : List (Entry num_get)}
    (before : EpicsData Val) {name : String} (h : ∀ e ∈ entries, e.name ≠ name) :
    (storeAll deltaTime before entries).values[name]? = before.values[name]?
      ∧ (storeAll deltaTime before entries).times[name]? = before.times[name]? := by
  rw [storeAll_values, storeAll_times, lastNamed_eq_none h]
  exact ⟨rfl, rfl⟩

end Entry

/-! ## §3. The loop on lines. -/

section Lines

variable {num_get : List Char → NumGet Val}

/-- No text at all is blank. -/
theorem blank_nil : Blank [] := fun _ h => absurd h List.not_mem_nil

/-- A blank is blank. -/
theorem blank_space : Blank [' '] := fun c h => by rw [List.mem_singleton.mp h]; rfl

/-- A newline is blank. -/
theorem blank_newline : Blank ['\n'] := fun c h => by rw [List.mem_singleton.mp h]; rfl

/-- What starts with something still does with more text behind it. -/
theorem Starts.append {text : List Char} (h : Starts text) (rest : List Char) :
    Starts (text ++ rest) := by
  obtain ⟨c, cs, rfl, hc⟩ := h
  exact ⟨c, cs ++ rest, rfl, hc⟩

/-- A line with its newline is a record. -/
theorem Entry.isRecord (e : Entry num_get) (hname : e.name ≠ "") {ws : List Char} (hws : Blank ws)
    (rest : List Char) :
    IsRecord num_get (ws ++ (e.line ++ '\n' :: rest)) e.val e.name.toList ('\n' :: rest) where
  text_eq := by
    refine ⟨ws, e.number, [' '], hws, blank_space, ?_, e.number_starts.append _, ?_⟩
    · simp [Entry.line]
    · exact e.reads _
  desc_starts := fun h => hname (String.toList_eq_nil_iff.mp h)
  desc_word := e.name_word
  rest_space := ⟨'\n', rest, rfl, rfl⟩

/-- A line that ends with the text is not stored: its description is read up to
the end, where the loop is left. -/
theorem Entry.reading_last (e : Entry num_get) {ws : List Char} (hws : Blank ws) :
    reading num_get (ws ++ e.line) = .last := by
  have hbody : (ws ++ e.line).dropWhile isspace = e.line :=
    dropWhile_of_split hws rfl (e.number_starts.append _)
  obtain ⟨c, cs, hcons, -⟩ := e.number_starts.append (' ' :: e.name.toList)
  have hnum : num_get e.line = ⟨e.number.length, e.val, true⟩ := e.reads _
  have hbehind : e.line.drop e.number.length = ' ' :: e.name.toList := List.drop_left
  have hline : e.line = c :: cs := hcons
  unfold reading
  rw [hbody, hline]
  dsimp only
  rw [← hline, hnum]
  dsimp only
  rw [hbehind, if_neg (List.cons_ne_nil _ _), if_neg (by decide),
    List.dropWhile_cons_of_pos (by rfl)]
  have hword := e.name_word
  cases hname : e.name.toList with
  | nil => rfl
  | cons w word =>
      rw [hname] at hword
      rw [List.dropWhile_cons_of_neg (by rw [hword w List.mem_cons_self]; exact Bool.false_ne_true)]
      dsimp only
      have hall : ∀ c ∈ word, (!isspace c) = true := fun c hc => by
        rw [hword c (List.mem_cons_of_mem _ hc)]
        rfl
      rw [if_pos (List.dropWhile_eq_nil_iff.mpr hall)]

/-- White space at the end of a text is the last that is read. -/
theorem reading_blank {ws : List Char} (hws : Blank ws) : reading num_get ws = .last := by
  unfold reading
  rw [List.dropWhile_eq_nil_iff.mpr hws]

/-- **The lines with a newline are stored**, when behind them the text ends
before a description does. -/
theorem decodeLoop_lines (deltaTime : Int32) (entries : List (Entry num_get)) (tail : List Char)
    (hnames : ∀ e ∈ entries, e.name ≠ "")
    (htail : ∀ ws, Blank ws → reading num_get (ws ++ tail) = .last)
    {ws : List Char} (hws : Blank ws) (desc : String) (d : EpicsData Val) :
    decodeLoop num_get deltaTime d desc (ws ++ (Entry.lines entries ++ tail))
      = (Entry.storeAll deltaTime d entries, true) := by
  induction entries generalizing ws desc d with
  | nil =>
      show decodeLoop num_get deltaTime d desc (ws ++ tail) = (d, true)
      rw [decodeLoop_eq, htail ws hws]
  | cons e entries ih =>
      have hlines : Entry.lines (e :: entries) ++ tail
          = e.line ++ '\n' :: (Entry.lines entries ++ tail) := by
        simp [Entry.lines]
      rw [hlines, decodeLoop_eq,
        reading_of_isRecord (e.isRecord (hnames e List.mem_cons_self) hws _)]
      dsimp only
      rw [String.ofList_toList]
      -- the newline is the white space in front of the next line
      exact ih (fun e he => hnames e (List.mem_cons_of_mem _ he)) blank_newline e.name _

/-- A text that ends with a newline has all its entries stored. -/
theorem decodeLoop_text_newline (deltaTime : Int32) {entries : List (Entry num_get)}
    (hnames : ∀ e ∈ entries, e.name ≠ "") (desc : String) (d : EpicsData Val) :
    decodeLoop num_get deltaTime d desc (Entry.text entries true)
      = (Entry.storeAll deltaTime d entries, true) := by
  have h := decodeLoop_lines deltaTime entries [] hnames
    (fun ws hws => by rw [List.append_nil]; exact reading_blank hws) blank_nil desc d
  rw [List.append_nil, List.nil_append] at h
  exact h

/-- A text that ends with the last line has all entries stored but the last. -/
theorem decodeLoop_text_no_newline (deltaTime : Int32) {entries : List (Entry num_get)}
    (e : Entry num_get) (hnames : ∀ e ∈ entries, e.name ≠ "") (desc : String)
    (d : EpicsData Val) :
    decodeLoop num_get deltaTime d desc (Entry.text (entries ++ [e]) false)
      = (Entry.storeAll deltaTime d entries, true) := by
  rw [Entry.text_concat]
  exact decodeLoop_lines deltaTime entries e.line hnames (fun ws hws => e.reading_last hws)
    blank_nil desc d

/-- No description is empty, so nothing is ever stored under the empty name. -/
theorem decodeLoop_empty_name (deltaTime : Int32) (text : List Char) {desc : String}
    {d after : EpicsData Val}
    (h : decodeLoop num_get deltaTime d desc text = (after, true)) :
    after.values[""]? = d.values[""]? := by
  induction hn : text.length using Nat.strong_induction_on generalizing text desc d with
  | _ n ih =>
      subst hn
      rw [decodeLoop_eq] at h
      cases hreading : reading num_get text with
      | last =>
          rw [hreading] at h
          rw [(Prod.mk.inj h).1]
      | odd val =>
          rw [hreading] at h
          cases (Prod.mk.inj h).2
      | record val desc rest =>
          rw [hreading] at h
          have hrecord := isRecord_of_reading hreading
          rw [ih _ hrecord.length_lt rest h rfl]
          have hne : String.ofList desc ≠ "" := fun heq => hrecord.desc_starts (by
            rw [← String.toList_ofList (l := desc), heq]
            rfl)
          show (d.values.insert (String.ofList desc) val)[""]? = d.values[""]?
          rw [Std.TreeMap.getElem?_insert,
            if_neg (fun heq => hne (Std.LawfulEqCmp.compare_eq_iff_eq.mp heq))]

end Lines

/-! ## §4. No entry is lost. -/

section Keeps

variable {num_get : List Char → NumGet Val} [Neg Val] [OfNat Val 999]

/-- **No entry is lost**: every name has the value of its last entry, and the
names without an entry have what they had. -/
structure Kept (entries : List (Entry num_get)) (before after : EpicsData Val) : Prop where
  value : ∀ name e, Entry.lastNamed entries name = some e → after.getDataValue name = e.val
  has : ∀ e ∈ entries, after.hasData e.name = true
  others : ∀ name, (∀ e ∈ entries, e.name ≠ name) →
    after.values[name]? = before.values[name]? ∧ after.times[name]? = before.times[name]?

/-- `decode` returns on the text of the entries, and none is lost. -/
def DecodeKeeps (deltaTime : Int32) (val : Val) (entries : List (Entry num_get)) (newline : Bool)
    (before : EpicsData Val) : Prop :=
  ∃ after, DecodeReturns num_get deltaTime val before
    (String.ofList (Entry.text entries newline)) after ∧ Kept entries before after

/-- The value of the last entry stands under its name before that entry: an
earlier entry says so, or the maps did. -/
def LastKnown (entries : List (Entry num_get)) (before : EpicsData Val) : Prop :=
  ∀ front last, entries = front ++ [last] →
    ((Entry.lastNamed front last.name).map (·.val)).or before.values[last.name]? = some last.val

/-- The assignments for all entries lose none of them. -/
theorem kept_storeAll (deltaTime : Int32) (entries : List (Entry num_get))
    (before : EpicsData Val) : Kept entries before (Entry.storeAll deltaTime before entries) where
  value name e he := by
    unfold EpicsData.getDataValue
    rw [Entry.storeAll_values, he]
    rfl
  has e he := by
    obtain ⟨last, hlast⟩ := Option.isSome_iff_exists.mp (Entry.lastNamed_isSome he)
    unfold EpicsData.hasData
    rw [Entry.storeAll_values, hlast]
    rfl
  others name h := Entry.storeAll_others deltaTime before h

/-- Without the last entry nothing is lost only if its value is known. -/
theorem kept_without_last_iff (deltaTime : Int32) (front : List (Entry num_get))
    (last : Entry num_get) (before : EpicsData Val) :
    Kept (front ++ [last]) before (Entry.storeAll deltaTime before front)
      ↔ ((Entry.lastNamed front last.name).map (·.val)).or before.values[last.name]?
        = some last.val := by
  rw [← Entry.storeAll_values deltaTime]
  have hlast : Entry.lastNamed (front ++ [last]) last.name = some last := by
    unfold Entry.lastNamed
    rw [lastWrite_concat, if_pos rfl]
  constructor
  · intro h
    -- the last entry is missing, but its value has to be there
    have hvalue := h.value last.name last hlast
    have hhas := h.has last (List.mem_append_right _ List.mem_cons_self)
    obtain ⟨v, hv⟩ := Option.isSome_iff_exists.mp hhas
    unfold EpicsData.getDataValue at hvalue
    rw [hv, Option.getD_some] at hvalue
    rw [hv, hvalue]
  · intro hknown
    refine ⟨fun name e he => ?_, fun e he => ?_, fun name h => ?_⟩
    · -- under the name of the last entry its value is known, under others nothing is missing
      by_cases hname : last.name = name
      · subst hname
        obtain rfl : last = e := Option.some.inj (hlast.symm.trans he)
        unfold EpicsData.getDataValue
        rw [hknown]
        rfl
      · unfold Entry.lastNamed at he
        rw [lastWrite_concat, if_neg hname] at he
        exact (kept_storeAll deltaTime front before).value name e he
    · rcases List.mem_append.mp he with he | he
      · exact (kept_storeAll deltaTime front before).has e he
      · rw [List.mem_singleton.mp he]
        unfold EpicsData.hasData
        rw [hknown]
        rfl
    · exact Entry.storeAll_others deltaTime before fun e he => h e (List.mem_append_left _ he)

/-- No entry is lost by `decode` exactly when its loop returns and loses none. -/
theorem decodeKeeps_iff {deltaTime : Int32} {val : Val} {entries : List (Entry num_get)}
    {newline : Bool} {before : EpicsData Val} :
    DecodeKeeps deltaTime val entries newline before
      ↔ ∃ after, decodeLoop num_get deltaTime before "" (Entry.text entries newline) = (after, true)
        ∧ Kept entries before after := by
  unfold DecodeKeeps
  simp only [decode_returns_eq, EpicsData.decode, String.toList_ofList]

/-- Where `decode` loses no entry, no name is empty. -/
theorem DecodeKeeps.names {deltaTime : Int32} {val : Val} {entries : List (Entry num_get)}
    {newline : Bool} {before : EpicsData Val} (h : DecodeKeeps deltaTime val entries newline before)
    (hbefore : (∃ e ∈ entries, e.name = "") → before.hasData "" = false) :
    ∀ e ∈ entries, e.name ≠ "" := by
  intro e he hname
  obtain ⟨after, hloop, hkept⟩ := decodeKeeps_iff.mp h
  have hhas := hkept.has e he
  rw [hname] at hhas
  unfold EpicsData.hasData at hhas
  rw [decodeLoop_empty_name deltaTime _ hloop] at hhas
  exact Bool.false_ne_true ((hbefore ⟨e, he, hname⟩).symm.trans hhas)

/-- **`decode` loses no entry** exactly when no name is empty, and a newline
stands behind the last line or the last entry says what is known already. -/
theorem decode_keeps_entries_iff (deltaTime : Int32) (val : Val) (entries : List (Entry num_get))
    (newline : Bool) (before : EpicsData Val)
    (hbefore : (∃ e ∈ entries, e.name = "") → before.hasData "" = false) :
    DecodeKeeps deltaTime val entries newline before
      ↔ (∀ e ∈ entries, e.name ≠ "") ∧ (newline = true ∨ LastKnown entries before) := by
  constructor
  · intro h
    have hnames := h.names hbefore
    refine ⟨hnames, ?_⟩
    cases newline with
    | true => exact .inl rfl
    | false =>
        refine .inr fun front last hentries => ?_
        subst hentries
        obtain ⟨after, hloop, hkept⟩ := decodeKeeps_iff.mp h
        rw [decodeLoop_text_no_newline deltaTime last
          fun e he => hnames e (List.mem_append_left _ he)] at hloop
        rw [← (Prod.mk.inj hloop).1] at hkept
        exact (kept_without_last_iff deltaTime front last before).mp hkept
  · intro ⟨hnames, hend⟩
    rw [decodeKeeps_iff]
    have hnewline : decodeLoop num_get deltaTime before "" (Entry.text entries true)
        = (Entry.storeAll deltaTime before entries, true) :=
      decodeLoop_text_newline deltaTime hnames "" before
    cases newline with
    | true => exact ⟨_, hnewline, kept_storeAll deltaTime entries before⟩
    | false =>
        rcases List.eq_nil_or_concat' entries with rfl | ⟨front, last, rfl⟩
        · exact ⟨_, hnewline, kept_storeAll deltaTime [] before⟩
        · have hknown := (hend.resolve_left Bool.false_ne_true) front last rfl
          exact ⟨_, decodeLoop_text_no_newline deltaTime last
            (fun e he => hnames e (List.mem_append_left _ he)) "" before,
            (kept_without_last_iff deltaTime front last before).mpr hknown⟩

end Keeps

/-- A name without blanks, letter by letter. -/
theorem word_of_all {name : String} (h : (name.toList.all fun c => !isspace c) = true) :
    ∀ c ∈ name.toList, isspace c = false :=
  fun c hc => (Bool.not_eq_true' _).mp (List.all_eq_true.mp h c hc)

/-- An entry with the value 5 and this name. -/
def entryOf (name : String) (h : ∀ c ∈ name.toList, isspace c = false) : Entry readDouble where
  number := ['5']
  val := 5
  name := name
  number_starts := ⟨'5', [], rfl, rfl⟩
  reads rest := by
    have hsmall : -doubleOverflow < 5 ∧ 5 < doubleOverflow := by decide +kernel
    simp [readDouble, FloatScan.scan, FloatScan.zero, FloatScan.value, hsmall]
  name_word := h

/-- Two lines, the second one with its newline: no entry is lost. -/
theorem two_lines_kept :
    DecodeKeeps 0 0 [entryOf "HALLA:current" (word_of_all rfl),
      entryOf "HALLB:current" (word_of_all rfl)] true .zero :=
  (decode_keeps_entries_iff 0 0 _ true .zero (fun _ => rfl)).mpr
    ⟨List.forall_mem_cons.mpr ⟨by decide, List.forall_mem_singleton.mpr (by decide)⟩, .inl rfl⟩

/-- The text `5 HALLB:current`, and no newline: nothing is stored. -/
theorem unterminated_line_lost :
    ¬ DecodeKeeps 0 0 [entryOf "HALLB:current" (word_of_all rfl)] false .zero := by
  intro h
  obtain ⟨after, hloop, hkept⟩ := decodeKeeps_iff.mp h
  have hempty : decodeLoop readDouble 0 .zero ""
      (Entry.text [entryOf "HALLB:current" (word_of_all rfl)] false) = (.zero, true) :=
    decodeLoop_lines 0 [] _ (fun _ he => absurd he List.not_mem_nil)
      (fun _ hws => (entryOf "HALLB:current" (word_of_all rfl)).reading_last hws) blank_nil ""
      .zero
  rw [hempty] at hloop
  have hhas := hkept.has _ List.mem_cons_self
  rw [← (Prod.mk.inj hloop).1] at hhas
  cases hhas

end PokerReco.EPICS
