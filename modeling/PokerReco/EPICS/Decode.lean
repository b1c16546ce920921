/-
  PokerReco.EPICS.Decode
  ──────────────────────
  **WHEN THE DECODING LOOP IS LEFT** (`EPICS/epicsData.cc`, `decode`).

  The loop reads `value description` from a stream until the stream is at its
  end.  A value that is not a number makes the stream fail before its end;
  from then on nothing is extracted, and the end is never reached.

      decode_returns_iff   the loop returns unless it meets such a value
      decode_returns_eq    and then with what `EpicsData.decode` says
-/
import Mathlib.Data.List.TakeWhile
import Mathlib.Data.Rat.Defs
import PokerReco.EPICS.EpicsData
import PokerReco.Library.Iteration

namespace PokerReco.EPICS

open PokerReco.Library

variable {Val : Type}

/-! ## §1. The stream. -/

/-- `std::istringstream`: the text ahead and the state bits. -/
structure IStringStream where
  rest : List Char
  eofbit : Bool
  failbit : Bool
  deriving DecidableEq, Repr

namespace IStringStream

/-- `stream.str(text)` on a new stream, which is good even when the text
is empty. -/
def str (text : List Char) : IStringStream := ⟨text, false, false⟩

/-- `stream.good()`: neither the end of the text nor a failure was met. -/
def good (stream : IStringStream) : Bool := !stream.eofbit && !stream.failbit

/-- The sentry of a formatted extraction: it skips white space, and is `false`
when there is nothing to extract from. -/
def sentry (stream : IStringStream) : IStringStream × Bool :=
  if stream.good then
    match stream.rest.dropWhile isspace with
    | [] => (⟨[], true, true⟩, false)
    | rest => ({ stream with rest := rest }, true)
  else ({ stream with failbit := true }, false)

/-- `stream >> val` for a number: a failed conversion stores a value as well and
sets `failbit`. -/
def extractNumber (num_get : List Char → NumGet Val) (stream : IStringStream) (val : Val) :
    IStringStream × Val :=
  match stream.sentry with
  | (stream, false) => (stream, val)
  | (stream, true) =>
      let n := num_get stream.rest
      let rest := stream.rest.drop n.taken
      (⟨rest, rest.isEmpty, !n.ok⟩, n.val)

/-- `stream >> desc` for a word: the characters up to the next white space, or
nothing where the sentry is `false`. -/
def extractWord (stream : IStringStream) (desc : String) : IStringStream × String :=
  match stream.sentry with
  | (stream, false) => (stream, desc)
  | (stream, true) =>
      let rest := stream.rest.dropWhile (!isspace ·)
      (⟨rest, rest.isEmpty, false⟩, String.ofList (stream.rest.takeWhile (!isspace ·)))

end IStringStream

/-! ## §2. The loop. -/

/-- The variables of the loop of `decode`: the stream, the value and the
description read last, and the data filled so far. -/
structure Decoding (Val : Type) where
  stream : IStringStream
  val : Val
  desc : String
  data : EpicsData Val

/-- The body of `while (1)`: a value and a description are read, and the loop is
left where the stream is at its end. -/
def decodeTurn (num_get : List Char → NumGet Val) (deltaTime : Int32) (s : Decoding Val) :
    Decoding Val ⊕ EpicsData Val :=
  let (stream, val) := s.stream.extractNumber num_get s.val
  let (stream, desc) := stream.extractWord s.desc
  if stream.eofbit then .inr s.data
  else .inl ⟨stream, val, desc, s.data.store desc val deltaTime⟩

/-- The variables before the loop; `val` is not set. -/
def decodeStart (val : Val) (data : EpicsData Val) (rawData : String) : Decoding Val :=
  ⟨.str rawData.toList, val, "", data⟩

/-- `decode` returns and leaves `after`; `val` is what the variable holds before
it is set. -/
def DecodeReturns (num_get : List Char → NumGet Val) (deltaTime : Int32) (val : Val)
    (data : EpicsData Val) (rawData : String) (after : EpicsData Val) : Prop :=
  Returns (decodeTurn num_get deltaTime) (decodeStart val data rawData) after

/-! ## §3. What a text can be. -/

/-- White space only, or no text at all. -/
def Blank (text : List Char) : Prop := ∀ c ∈ text, isspace c = true

/-- There is something, and it is not white space. -/
def Starts (text : List Char) : Prop := ∃ c cs, text = c :: cs ∧ isspace c = false

/-- The text is a number, a description and white space, and goes on with
`rest`, which that white space belongs to. -/
structure IsRecord (num_get : List Char → NumGet Val) (text : List Char) (val : Val)
    (desc rest : List Char) : Prop where
  text_eq : ∃ ws number ws', Blank ws ∧ Blank ws' ∧ text = ws ++ (number ++ (ws' ++ (desc ++ rest)))
    ∧ Starts (number ++ (ws' ++ (desc ++ rest)))
    ∧ num_get (number ++ (ws' ++ (desc ++ rest))) = ⟨number.length, val, true⟩
  desc_starts : desc ≠ []
  desc_word : ∀ c ∈ desc, isspace c = false
  rest_space : ∃ c cs, rest = c :: cs ∧ isspace c = true

/-- Records, one behind the other, up to `tail`. -/
inductive Records (num_get : List Char → NumGet Val) : List Char → List Char → Prop where
  | none (text : List Char) : Records num_get text text
  | cons {text : List Char} {val : Val} {desc rest tail : List Char} :
      IsRecord num_get text val desc rest → Records num_get rest tail → Records num_get text tail

/-- The text starts with a value that is not a number (in range), and goes on
behind it. -/
def OddValue (num_get : List Char → NumGet Val) (text : List Char) : Prop :=
  ∃ ws body, Blank ws ∧ text = ws ++ body ∧ Starts body ∧ (num_get body).ok = false
    ∧ (num_get body).taken < body.length

/-- Behind some records stands a value that is not a number. -/
def MeetsOddValue (num_get : List Char → NumGet Val) (text : List Char) : Prop :=
  ∃ tail, Records num_get text tail ∧ OddValue num_get tail

/-! ## §4. What one turn reads. -/

/-- What a turn finds at the front of a text: nothing more to read, a value that
is no number, or a record. -/
inductive Reading (Val : Type) where
  /-- The text ends before the description does. -/
  | last
  | odd (val : Val)
  | record (val : Val) (desc rest : List Char)

/-- What is at the front of a text, by the way in which a turn of the loop
reads it. -/
def reading (num_get : List Char → NumGet Val) (text : List Char) : Reading Val :=
  match text.dropWhile isspace with
  | [] => .last
  | c :: cs =>
      let n := num_get (c :: cs)
      let rest := (c :: cs).drop n.taken
      if rest = [] then .last
      else if n.ok = false then .odd n.val
      else
        match rest.dropWhile isspace with
        | [] => .last
        | w :: word =>
            if word.dropWhile (!isspace ·) = [] then .last
            else .record n.val (w :: word.takeWhile (!isspace ·)) (word.dropWhile (!isspace ·))

/-- The first character behind the white space is not white space. -/
theorem head_dropWhile {text : List Char} {c : Char} {cs : List Char}
    (h : text.dropWhile isspace = c :: cs) : isspace c = false := by
  have hne : text.dropWhile isspace ≠ [] := by rw [h]; exact List.cons_ne_nil c cs
  have hhead := List.head_dropWhile_not (p := isspace) hne
  simp only [h, List.head_cons] at hhead
  exact hhead

/-- Of a text of white space nothing is left, and the sentry is `false`. -/
theorem sentry_of_blank {text : List Char} (h : text.dropWhile isspace = []) :
    (IStringStream.str text).sentry = (⟨[], true, true⟩, false) := by
  unfold IStringStream.sentry IStringStream.str IStringStream.good
  dsimp only
  rw [h]
  rfl

/-- Where something stands behind the white space, the sentry is `true` and leaves
the stream before it. -/
theorem sentry_of_starts {text : List Char} {c : Char} {cs : List Char}
    (h : text.dropWhile isspace = c :: cs) :
    (IStringStream.str text).sentry = (.str (c :: cs), true) := by
  unfold IStringStream.sentry IStringStream.str IStringStream.good
  dsimp only
  rw [h]
  rfl

/-- From a stream that is not good nothing is extracted, and `failbit` is set. -/
theorem sentry_of_not_good {stream : IStringStream} (h : stream.good = false) :
    stream.sentry = ({ stream with failbit := true }, false) := by
  unfold IStringStream.sentry
  rw [if_neg (by rw [h]; exact Bool.false_ne_true)]

/-- No number is extracted from white space, and the variable keeps its value. -/
theorem extractNumber_of_blank (num_get : List Char → NumGet Val) {text : List Char}
    (h : text.dropWhile isspace = []) (val : Val) :
    (IStringStream.str text).extractNumber num_get val = (⟨[], true, true⟩, val) := by
  unfold IStringStream.extractNumber
  rw [sentry_of_blank h]

/-- A number is extracted from what stands behind the white space, as
`num_get` reads it. -/
theorem extractNumber_of_starts (num_get : List Char → NumGet Val) {text : List Char} {c : Char}
    {cs : List Char} (h : text.dropWhile isspace = c :: cs) (val : Val) {rest : List Char}
    (hrest : (c :: cs).drop (num_get (c :: cs)).taken = rest) :
    (IStringStream.str text).extractNumber num_get val
      = (⟨rest, rest.isEmpty, !(num_get (c :: cs)).ok⟩, (num_get (c :: cs)).val) := by
  unfold IStringStream.extractNumber
  rw [sentry_of_starts h, ← hrest]
  rfl

/-- No word is extracted from a stream that is not good, and the variable keeps
its value. -/
theorem extractWord_of_not_good {stream : IStringStream} (h : stream.good = false)
    (desc : String) : stream.extractWord desc = ({ stream with failbit := true }, desc) := by
  unfold IStringStream.extractWord
  rw [sentry_of_not_good h]

/-- No word is extracted from white space, and the variable keeps its value. -/
theorem extractWord_of_blank {text : List Char} (h : text.dropWhile isspace = [])
    (desc : String) : (IStringStream.str text).extractWord desc = (⟨[], true, true⟩, desc) := by
  unfold IStringStream.extractWord
  rw [sentry_of_blank h]

/-- A word is extracted from what stands behind the white space, up to the next
white space. -/
theorem extractWord_of_starts {text : List Char} {w : Char} {word : List Char}
    (h : text.dropWhile isspace = w :: word) (desc : String) {stop : List Char}
    (hstop : word.dropWhile (!isspace ·) = stop) :
    (IStringStream.str text).extractWord desc
      = (⟨stop, stop.isEmpty, false⟩, String.ofList (w :: word.takeWhile (!isspace ·))) := by
  have hw : (!isspace w) = true := by rw [head_dropWhile h]; rfl
  unfold IStringStream.extractWord
  rw [sentry_of_starts h]
  dsimp only [IStringStream.str]
  rw [List.dropWhile_cons_of_pos (p := fun c => !isspace c) hw,
    List.takeWhile_cons_of_pos (p := fun c => !isspace c) hw, hstop]

/-- A turn of the loop, by what its two extractions give. -/
theorem decodeTurn_eq {num_get : List Char → NumGet Val} (deltaTime : Int32)
    {stream stream₁ stream₂ : IStringStream} {val val₁ : Val} {desc desc₁ : String}
    {data : EpicsData Val} (hval : stream.extractNumber num_get val = (stream₁, val₁))
    (hdesc : stream₁.extractWord desc = (stream₂, desc₁)) :
    decodeTurn num_get deltaTime ⟨stream, val, desc, data⟩ =
      if stream₂.eofbit then .inr data
      else .inl ⟨stream₂, val₁, desc₁, data.store desc₁ val₁ deltaTime⟩ := by
  unfold decodeTurn
  rw [hval]
  dsimp only
  rw [hdesc]

/-- A turn on a good stream, by what stands at the front of its text. -/
theorem decodeTurn_good (num_get : List Char → NumGet Val) (deltaTime : Int32)
    (text : List Char) (val : Val) (desc : String) (data : EpicsData Val) :
    decodeTurn num_get deltaTime ⟨.str text, val, desc, data⟩ =
      match reading num_get text with
      | .last => .inr data
      | .odd val =>
          .inl ⟨⟨(text.dropWhile isspace).drop (num_get (text.dropWhile isspace)).taken, false,
            true⟩, val, desc, data.store desc val deltaTime⟩
      | .record val desc rest =>
          .inl ⟨.str rest, val, String.ofList desc,
            data.store (String.ofList desc) val deltaTime⟩ := by
  unfold reading
  cases hbody : text.dropWhile isspace with
  | nil =>
      -- nothing but white space is left, and `eof()` is true
      exact decodeTurn_eq deltaTime (extractNumber_of_blank num_get hbody val)
        (extractWord_of_not_good rfl desc)
  | cons c cs =>
      have hval := fun (rest : List Char)
          (hrest : (c :: cs).drop (num_get (c :: cs)).taken = rest) =>
        extractNumber_of_starts num_get hbody val hrest
      dsimp only
      -- the value ends with the text, and the loop is left before it is stored
      by_cases hrest : (c :: cs).drop (num_get (c :: cs)).taken = []
      · rw [if_pos hrest]
        exact decodeTurn_eq deltaTime (hval [] hrest) (extractWord_of_not_good rfl desc)
      · have hval := hval _ rfl
        rw [List.isEmpty_eq_false_iff.mpr hrest] at hval
        rw [if_neg hrest]
        -- the extraction fails without reaching the end: `failbit` alone is set
        cases hok : (num_get (c :: cs)).ok with
        | false =>
            rw [hok] at hval
            exact decodeTurn_eq deltaTime hval (extractWord_of_not_good rfl desc)
        | true =>
            rw [hok] at hval
            rw [if_neg (by decide)]
            cases hword : ((c :: cs).drop (num_get (c :: cs)).taken).dropWhile isspace with
            | nil => exact decodeTurn_eq deltaTime hval (extractWord_of_blank hword desc)
            | cons w word =>
                dsimp only
                -- the description ends with the text, and is not stored either
                by_cases hstop : word.dropWhile (!isspace ·) = []
                · rw [if_pos hstop]
                  exact decodeTurn_eq deltaTime hval (extractWord_of_starts hword desc hstop)
                · have hdesc := extractWord_of_starts hword desc rfl
                  rw [List.isEmpty_eq_false_iff.mpr hstop] at hdesc
                  rw [if_neg hstop]
                  exact decodeTurn_eq deltaTime hval hdesc

/-- The loop of `EpicsData.decode`, by what stands at the front of its text: a
record is entered and the loop goes on behind it. -/
theorem decodeLoop_eq (num_get : List Char → NumGet Val) (deltaTime : Int32)
    (data : EpicsData Val) (desc : String) (text : List Char) :
    decodeLoop num_get deltaTime data desc text =
      match reading num_get text with
      | .last => (data, true)
      | .odd val => (data.store desc val deltaTime, false)
      | .record val desc rest =>
          decodeLoop num_get deltaTime (data.store (String.ofList desc) val deltaTime)
            (String.ofList desc) rest := by
  rw [decodeLoop]
  unfold reading
  split
  · next hbody =>
      rw [hbody]
  · next c cs hbody =>
      rw [hbody]
      dsimp only
      split
      · rfl
      · split
        · rfl
        · split
          · next hword => rw [hword]
          · next w word hword =>
              rw [hword]
              dsimp only
              split <;> rfl

/-! ## §5. The readings are the records of the text. -/

/-- The white space in front of a text is white space only. -/
theorem blank_takeWhile (text : List Char) : Blank (text.takeWhile isspace) :=
  fun _ hc => List.mem_takeWhile_imp hc

/-- White space in front of something is skipped, all of it and nothing else. -/
theorem dropWhile_of_split {text ws body : List Char} (hws : Blank ws) (htext : text = ws ++ body)
    (hbody : Starts body) : text.dropWhile isspace = body := by
  obtain ⟨c, cs, rfl, hc⟩ := hbody
  rw [htext, List.dropWhile_append_of_pos hws]
  exact List.dropWhile_cons_of_neg (by rw [hc]; exact Bool.false_ne_true)

/-- What is left when white space is skipped starts with something. -/
theorem starts_of_dropWhile {text : List Char} {c : Char} {cs : List Char}
    (h : text.dropWhile isspace = c :: cs) : Starts (c :: cs) := ⟨c, cs, rfl, head_dropWhile h⟩

/-- A text is the white space in front of it and what is left behind that. -/
theorem split_of_dropWhile {text : List Char} {body : List Char}
    (h : text.dropWhile isspace = body) : text = text.takeWhile isspace ++ body := by
  rw [← h, List.takeWhile_append_dropWhile]

/-- The parts that a turn reads of a text make a record. -/
theorem isRecord_of_parts {num_get : List Char → NumGet Val}
    {text body behind word rest : List Char}
    {w : Char} (hstarts : Starts body) (hbody : text.dropWhile isspace = body)
    (hbehind : body.drop (num_get body).taken = behind) (hok : (num_get body).ok = true)
    (hword : behind.dropWhile isspace = w :: word) (hrest : word.dropWhile (!isspace ·) = rest)
    (hne : rest ≠ []) :
    IsRecord num_get text (num_get body).val (w :: word.takeWhile (!isspace ·)) rest := by
  have hsplit : (w :: word.takeWhile (!isspace ·)) ++ rest = w :: word := by
    rw [← hrest, List.cons_append, List.takeWhile_append_dropWhile]
  have hbody_eq : body.take (num_get body).taken
      ++ (behind.takeWhile isspace ++ ((w :: word.takeWhile (!isspace ·)) ++ rest)) = body := by
    rw [hsplit, ← split_of_dropWhile hword, ← hbehind, List.take_append_drop]
  -- the number leaves something of the text
  have htaken : (body.take (num_get body).taken).length = (num_get body).taken := by
    have hlen := congrArg List.length hbehind
    have hpos : 0 < behind.length := List.length_pos_iff.mpr (fun hnil => by
      rw [hnil] at hword
      cases hword)
    rw [List.length_drop] at hlen
    rw [List.length_take]
    omega
  refine ⟨⟨text.takeWhile isspace, body.take (num_get body).taken, behind.takeWhile isspace,
    blank_takeWhile _, blank_takeWhile _, ?_, ?_, ?_⟩, List.cons_ne_nil _ _, ?_, ?_⟩
  · rw [hbody_eq]
    exact split_of_dropWhile hbody
  · rw [hbody_eq]
    exact hstarts
  · rw [hbody_eq, htaken, ← hok]
  · -- no character of the description is white space
    intro c hc
    obtain rfl | hc := List.mem_cons.mp hc
    · exact head_dropWhile hword
    · have hspace := List.mem_takeWhile_imp (p := fun c => !isspace c) hc
      rwa [Bool.not_eq_true'] at hspace
  · obtain ⟨c, cs, rfl⟩ := List.exists_cons_of_ne_nil hne
    have hhead := List.head_dropWhile_not (p := fun c => !isspace c) (l := word) (by
      rw [hrest]
      exact List.cons_ne_nil c cs)
    simp only [hrest, List.head_cons, Bool.not_eq_false'] at hhead
    exact ⟨c, cs, rfl, hhead⟩

/-- What a turn reads as a record is one. -/
theorem isRecord_of_reading {num_get : List Char → NumGet Val} {text : List Char} {val : Val}
    {desc rest : List Char} (h : reading num_get text = .record val desc rest) :
    IsRecord num_get text val desc rest := by
  unfold reading at h
  split at h
  · cases h
  · next c cs hbody =>
      dsimp only at h
      split at h
      · cases h
      · split at h
        · cases h
        · next hok =>
            split at h
            · cases h
            · next w word hword =>
                split at h
                · cases h
                · next hstop =>
                    injection h with hval hdesc hrest
                    subst hval hdesc
                    exact isRecord_of_parts (starts_of_dropWhile hbody) hbody rfl
                      (Bool.not_eq_false _ |>.mp hok) hword hrest (hrest ▸ hstop)

/-- A record is read as what it is, with its number, its description and the text
behind it. -/
theorem reading_of_isRecord {num_get : List Char → NumGet Val} {text : List Char} {val : Val}
    {desc rest : List Char} (h : IsRecord num_get text val desc rest) :
    reading num_get text = .record val desc rest := by
  obtain ⟨⟨ws, number, ws', hws, hws', htext, hstarts, hnum⟩, hdesc, hword, hrest⟩ := h
  have hbody := dropWhile_of_split hws htext hstarts
  obtain ⟨w, word, rfl⟩ := List.exists_cons_of_ne_nil hdesc
  obtain ⟨c', cs', rfl, hc'⟩ := hrest
  have hw : isspace w = false := hword w List.mem_cons_self
  have hword' : ∀ c ∈ word, (!isspace c) = true := fun c hc => by
    rw [hword c (List.mem_cons_of_mem _ hc)]
    rfl
  have hbehind : (number ++ (ws' ++ (w :: word ++ c' :: cs'))).drop number.length
      = ws' ++ (w :: word ++ c' :: cs') := List.drop_left
  have hdrop : (ws' ++ (w :: word ++ c' :: cs')).dropWhile isspace = w :: (word ++ c' :: cs') :=
    dropWhile_of_split hws' rfl ⟨w, word ++ c' :: cs', rfl, hw⟩
  have hstop : (word ++ c' :: cs').dropWhile (!isspace ·) = c' :: cs' := by
    rw [List.dropWhile_append_of_pos hword',
      List.dropWhile_cons_of_neg (by rw [hc']; exact Bool.false_ne_true)]
  have htake : (word ++ c' :: cs').takeWhile (!isspace ·) = word := by
    rw [List.takeWhile_append_of_pos hword',
      List.takeWhile_cons_of_neg (by rw [hc']; exact Bool.false_ne_true), List.append_nil]
  obtain ⟨c, cs, hcons, -⟩ := hstarts
  unfold reading
  rw [hbody, hcons]
  dsimp only
  rw [← hcons, hnum]
  dsimp only
  rw [hbehind, if_neg (by simp), if_neg (by decide), hdrop]
  dsimp only
  rw [hstop, htake, if_neg (List.cons_ne_nil _ _)]

/-- A turn reads an odd value exactly where the text starts with one. -/
theorem reading_odd_iff {num_get : List Char → NumGet Val} {text : List Char} :
    (∃ val, reading num_get text = .odd val) ↔ OddValue num_get text := by
  refine ⟨fun ⟨val, h⟩ => ?_, fun ⟨ws, body, hws, htext, hstarts, hok, htaken⟩ => ?_⟩
  · unfold reading at h
    split at h
    · cases h
    · next c cs hbody =>
        dsimp only at h
        split at h
        · cases h
        · next hbehind =>
            split at h
            · next hok =>
                have hpos := List.length_pos_iff.mpr hbehind
                rw [List.length_drop] at hpos
                exact ⟨text.takeWhile isspace, c :: cs, blank_takeWhile _,
                  split_of_dropWhile hbody, starts_of_dropWhile hbody, hok, by omega⟩
            · split at h
              · cases h
              · split at h <;> cases h
  · obtain ⟨c, cs, rfl, hc⟩ := hstarts
    have hbody := dropWhile_of_split hws htext ⟨c, cs, rfl, hc⟩
    have hbehind : (c :: cs).drop (num_get (c :: cs)).taken ≠ [] := by
      refine List.length_pos_iff.mp ?_
      rw [List.length_drop]
      omega
    refine ⟨(num_get (c :: cs)).val, ?_⟩
    unfold reading
    rw [hbody]
    dsimp only
    rw [if_neg hbehind, if_pos hok]

/-- A record is not empty: the text behind it is shorter than the text that
it starts. -/
theorem IsRecord.length_lt {num_get : List Char → NumGet Val} {text : List Char} {val : Val}
    {desc rest : List Char} (h : IsRecord num_get text val desc rest) :
    rest.length < text.length := by
  obtain ⟨ws, number, ws', -, -, htext, -, -⟩ := h.text_eq
  have hdesc := List.length_pos_iff.mpr h.desc_starts
  rw [htext]
  simp only [List.length_append]
  omega

/-- Whether a text meets a value that is not a number, by what is at its front. -/
theorem meetsOddValue_iff (num_get : List Char → NumGet Val) (text : List Char) :
    MeetsOddValue num_get text ↔
      match reading num_get text with
      | .last => False
      | .odd _ => True
      | .record _ _ rest => MeetsOddValue num_get rest := by
  cases hreading : reading num_get text with
  | last =>
      refine ⟨fun ⟨tail, hrecords, hodd⟩ => ?_, False.elim⟩
      induction hrecords with
      | none text =>
          obtain ⟨val, h⟩ := reading_odd_iff.mpr hodd
          rw [hreading] at h
          cases h
      | cons hrecord _ _ =>
          rw [reading_of_isRecord hrecord] at hreading
          cases hreading
  | odd val =>
      exact ⟨fun _ => trivial, fun _ =>
        ⟨text, .none text, reading_odd_iff.mp ⟨val, hreading⟩⟩⟩
  | record val desc rest =>
      refine ⟨fun ⟨tail, hrecords, hodd⟩ => ?_, fun ⟨tail, hrecords, hodd⟩ =>
        ⟨tail, .cons (isRecord_of_reading hreading) hrecords, hodd⟩⟩
      cases hrecords with
      | none =>
          obtain ⟨val, h⟩ := reading_odd_iff.mpr hodd
          rw [hreading] at h
          cases h
      | cons hrecord hrecords =>
          rw [reading_of_isRecord hrecord] at hreading
          injection hreading with _ _ hrest
          subst hrest
          exact ⟨tail, hrecords, hodd⟩

/-! ## §6. When the loop returns. -/

/-- The stream failed, but not at its end, so that `eof()` stays `false`
from here on. -/
def Decoding.Failed (s : Decoding Val) : Prop :=
  s.stream.failbit = true ∧ s.stream.eofbit = false

/-- **A failed stream stays failed**, and the loop goes on. -/
theorem Decoding.Failed.turn {s : Decoding Val} (h : s.Failed)
    (num_get : List Char → NumGet Val) (deltaTime : Int32) :
    ∃ s', decodeTurn num_get deltaTime s = .inl s' ∧ s'.Failed := by
  obtain ⟨⟨rest, eofbit, failbit⟩, val, desc, data⟩ := s
  obtain ⟨rfl, rfl⟩ : failbit = true ∧ eofbit = false := h
  refine ⟨⟨⟨rest, false, true⟩, val, desc, data.store desc val deltaTime⟩, ?_, rfl, rfl⟩
  have hval : (⟨rest, false, true⟩ : IStringStream).extractNumber num_get val
      = (⟨rest, false, true⟩, val) := by
    unfold IStringStream.extractNumber
    rw [sentry_of_not_good rfl]
  exact decodeTurn_eq deltaTime hval (extractWord_of_not_good rfl desc)

/-- The loop returns what `decodeLoop` gives with the flag `true`, and does
not return when the flag is `false`. -/
theorem returns_iff_decodeLoop (num_get : List Char → NumGet Val) (deltaTime : Int32)
    (text : List Char) (val : Val) (desc : String) (data after : EpicsData Val) :
    Returns (decodeTurn num_get deltaTime) ⟨.str text, val, desc, data⟩ after
      ↔ decodeLoop num_get deltaTime data desc text = (after, true) := by
  -- every record makes the text shorter
  induction hn : text.length using Nat.strong_induction_on generalizing text val desc data with
  | _ n ih =>
      subst hn
      have hturn := decodeTurn_good num_get deltaTime text val desc data
      rw [decodeLoop_eq]
      cases hreading : reading num_get text with
      | last =>
          rw [hreading] at hturn
          rw [returns_iff_of_break hturn]
          exact ⟨fun h => h ▸ rfl, fun h => (Prod.mk.inj h).1⟩
      | odd val =>
          rw [hreading] at hturn
          rw [returns_iff_of_turn hturn]
          refine ⟨fun h => absurd h ?_, fun h => by cases (Prod.mk.inj h).2⟩
          exact not_returns_of_stays (I := Decoding.Failed)
            (fun s hs => hs.turn num_get deltaTime) ⟨rfl, rfl⟩ after
      | record val desc rest =>
          rw [hreading] at hturn
          rw [returns_iff_of_turn hturn]
          exact ih _ (isRecord_of_reading hreading).length_lt rest val (String.ofList desc) _ rfl

/-- The flag of `decodeLoop` is `false` exactly for a text that meets an
odd value. -/
theorem decodeLoop_flag (num_get : List Char → NumGet Val) (deltaTime : Int32)
    (text : List Char) (desc : String) (data : EpicsData Val) :
    (decodeLoop num_get deltaTime data desc text).2 = true ↔ ¬ MeetsOddValue num_get text := by
  induction hn : text.length using Nat.strong_induction_on generalizing text desc data with
  | _ n ih =>
      subst hn
      rw [decodeLoop_eq, meetsOddValue_iff]
      cases hreading : reading num_get text with
      | last => exact ⟨fun _ => not_false, fun _ => rfl⟩
      | odd val => exact ⟨fun h => absurd h Bool.false_ne_true, fun h => absurd trivial h⟩
      | record val desc rest =>
          exact ih _ (isRecord_of_reading hreading).length_lt rest (String.ofList desc) _ rfl

/-- What `decode` leaves, when it returns: what `decodeLoop` gives. -/
theorem decode_returns_eq (num_get : List Char → NumGet Val) (deltaTime : Int32) (val : Val)
    (data : EpicsData Val) (rawData : String) (after : EpicsData Val) :
    DecodeReturns num_get deltaTime val data rawData after
      ↔ data.decode num_get rawData deltaTime = (after, true) :=
  returns_iff_decodeLoop num_get deltaTime rawData.toList val "" data after

/-- **`decode` returns exactly on the texts that meet no odd value**: nowhere
behind complete `value description` records stands a value that is not a
number and does not end the text. -/
theorem decode_returns_iff (num_get : List Char → NumGet Val) (deltaTime : Int32) (val : Val)
    (data : EpicsData Val) (rawData : String) :
    (∃ after, DecodeReturns num_get deltaTime val data rawData after)
      ↔ ¬ MeetsOddValue num_get rawData.toList := by
  rw [← decodeLoop_flag num_get deltaTime rawData.toList "" data]
  refine ⟨fun ⟨after, h⟩ => ?_, fun h => ⟨(data.decode num_get rawData deltaTime).1, ?_⟩⟩
  · rw [(returns_iff_decodeLoop num_get deltaTime rawData.toList val "" data after).mp h]
  · exact (decode_returns_eq num_get deltaTime val data rawData _).mpr (Prod.ext rfl h)

/-- All the texts of an event are read unless one of them meets an odd value. -/
theorem decodeAll_flag (num_get : List Char → NumGet Val) (m_deltaTime : Int32)
    (m_rawdata : List String) (data : EpicsData Val) :
    (data.decodeAll num_get m_deltaTime m_rawdata).2 = true
      ↔ ∀ rawData ∈ m_rawdata, ¬ MeetsOddValue num_get rawData.toList := by
  induction m_rawdata generalizing data with
  | nil => exact ⟨fun _ _ h => absurd h List.not_mem_nil, fun _ => rfl⟩
  | cons rawData m_rawdata ih =>
      have hflag : (data.decode num_get rawData m_deltaTime).2 = true ↔ _ :=
        decodeLoop_flag num_get m_deltaTime rawData.toList "" data
      rw [List.forall_mem_cons, ← hflag]
      unfold EpicsData.decodeAll
      cases hrun : data.decode num_get rawData m_deltaTime with
      | mk data' flag =>
          cases flag with
          | true => exact (ih data').trans ⟨fun h => ⟨rfl, h⟩, fun h => h.2⟩
          | false =>
              exact ⟨fun h => absurd h Bool.false_ne_true,
                fun h => absurd h.1 Bool.false_ne_true⟩

/-- `evnt` hangs on an event with such a text and on no other. -/
theorem evnt_hung_iff (num_get : List Char → NumGet Val) (m_deltaTime : Int32)
    (m_data : EpicsData Val) (m_rawdata : List String) (tData : DAQ.EventData) :
    (evnt num_get m_deltaTime m_data m_rawdata (some tData)).2 = .hung
      ↔ ∃ rawData ∈ m_rawdata, MeetsOddValue num_get rawData.toList := by
  have hflag := decodeAll_flag num_get m_deltaTime m_rawdata { m_data with
    runNumber := .ofInt tData.runN.toNat
    time := .ofInt (tData.time.toNat + m_deltaTime.toInt) }
  unfold evnt EpicsData.update
  dsimp only
  by_cases hlength : m_rawdata.length > 0
  · rw [if_pos hlength]
    split
    · next data hrun =>
        rw [hrun] at hflag
        refine ⟨fun h => absurd h (by simp), fun ⟨rawData, hmem, hodd⟩ => ?_⟩
        exact absurd hodd (hflag.mp rfl rawData hmem)
    · next data hrun =>
        rw [hrun] at hflag
        refine ⟨fun _ => ?_, fun _ => rfl⟩
        by_contra hnone
        exact Bool.false_ne_true (hflag.mpr fun rawData hmem hodd => hnone ⟨rawData, hmem, hodd⟩)
  · obtain rfl : m_rawdata = [] := List.length_eq_zero_iff.mp (by omega)
    exact ⟨fun h => absurd h (by simp), fun ⟨_, h, _⟩ => absurd h List.not_mem_nil⟩

/-! ## §7. A text that is never left. -/

/-- The scan of a `double` by the standard library: the digits and signs so far,
and which characters may follow. -/
structure FloatScan where
  taken : Nat
  negative : Bool
  mantissa : Nat
  decimals : Nat
  exponent : Nat
  exponentNegative : Bool
  /-- A sign can follow: at the front, and behind the `e`. -/
  signFollows : Bool
  found_mantissa : Bool
  found_dec : Bool
  found_sci : Bool
  found_exponent : Bool

/-- The scan before the first character. -/
def FloatScan.zero : FloatScan := ⟨0, false, 0, 0, 0, false, true, false, false, false, false⟩

/-- The characters that can go on with a number are taken, whether or not a
number comes of them. -/
def FloatScan.scan (s : FloatScan) : List Char → FloatScan
  | [] => s
  | c :: cs =>
      let t := { s with taken := s.taken + 1, signFollows := false }
      if (c = '+' ∨ c = '-') ∧ s.signFollows then
        if s.found_sci then scan { t with exponentNegative := c = '-' } cs
        else scan { t with negative := c = '-' } cs
      else if c.isDigit then
        let d := c.toNat - '0'.toNat
        if s.found_sci then
          scan { t with exponent := 10 * s.exponent + d, found_exponent := true } cs
        else
          scan { t with
            mantissa := 10 * s.mantissa + d
            decimals := if s.found_dec then s.decimals + 1 else s.decimals
            found_mantissa := true } cs
      else if c = '.' ∧ s.found_dec = false ∧ s.found_sci = false then
        scan { t with found_dec := true } cs
      else if (c = 'e' ∨ c = 'E') ∧ s.found_sci = false ∧ s.found_mantissa then
        scan { t with found_sci := true, signFollows := true } cs
      else s

/-- The greatest `double`, which is stored in place of a number that is
too large. -/
def doubleMax : ℚ := (2 ^ 53 - 1) * 2 ^ 971

/-- The least number that is rounded to an infinity: it is half way between
`doubleMax` and the next power of 2. -/
def doubleOverflow : ℚ := 2 ^ 1024 - 2 ^ 970

/-- The number that a scan has read, from its digits, its sign and its exponent. -/
def FloatScan.value (s : FloatScan) : ℚ :=
  let e : Int := (if s.exponentNegative then -(s.exponent : Int) else s.exponent) - s.decimals
  (if s.negative then -1 else 1) * s.mantissa * (10 : ℚ) ^ e

/-- The extraction of a `double`, without its rounding.  A number out of range
is not a number for the stream, and the greatest `double` is stored. -/
def readDouble (text : List Char) : NumGet ℚ :=
  let s := FloatScan.zero.scan text
  if s.found_mantissa && (!s.found_sci || s.found_exponent) then
    if -doubleOverflow < s.value ∧ s.value < doubleOverflow then ⟨s.taken, s.value, true⟩
    else ⟨s.taken, if s.negative then -doubleMax else doubleMax, false⟩
  else ⟨s.taken, 0, false⟩

/-- One word where a number is expected, and `decode` does not return from
the text. -/
theorem word_for_a_number :
    ¬ ∃ after, DecodeReturns readDouble 0 0 (.zero : EpicsData ℚ) "off HALLB:current\n" after := by
  intro ⟨after, h⟩
  have hrun : decodeLoop readDouble 0 .zero "" "off HALLB:current\n".toList = (after, true) :=
    (decode_returns_eq readDouble 0 0 _ _ after).mp h
  have hodd : MeetsOddValue readDouble "off HALLB:current\n".toList :=
    ⟨_, .none _, [], "off HALLB:current\n".toList, fun _ h => absurd h List.not_mem_nil, rfl,
      ⟨'o', _, rfl, rfl⟩, by decide, by decide⟩
  exact (decodeLoop_flag readDouble 0 _ "" .zero).mp (congrArg Prod.snd hrun) hodd

end PokerReco.EPICS
