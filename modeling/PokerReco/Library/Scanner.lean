/-
  PokerReco.Library.Scanner
  ─────────────────────────
  **TEXTS WITH PROTECTED STRETCHES.**

  In many formats white space separates words, and its amount and kind do not
  matter, except inside stretches such as a quoted string, where each character
  counts.  A `Scanner` reads such a text: its state says whether the next
  character is inside a stretch, and a separator does the same to it as any
  other and as several of them.

  `pieces` is what is left of a text when the separators outside are only the
  ends of words.  Taking some of the separators out of a text keeps the pieces
  when no two words are joined and none of them is inside a stretch.

      marks_filter          the text with separators taken out
      pieces_filter_iff     when that has the same pieces
-/
import PokerReco.Library.Words

namespace PokerReco.Library

variable {σ α : Type*}

/-! ## §1. The scanner. -/

/-- A reader of a text.  `gone` are the separators that may be taken out.  A
character that is `joined` to the one before it says nothing inside a stretch,
as the second character of a line end of two. -/
structure Scanner (σ α : Type*) where
  isSep : α → Bool
  gone : α → Bool
  joined : α → α → Bool
  step : σ → α → σ
  inside : σ → Bool
  blank : σ → σ
  sep_of_gone : ∀ {c}, gone c = true → isSep c = true
  gone_of_joined : ∀ {c d}, joined c d = true → gone d = true
  step_sep : ∀ s {c}, isSep c = true → step s c = blank s
  blank_blank : ∀ s, blank (blank s) = blank s
  inside_blank : ∀ s, inside (blank s) = inside s

namespace Scanner

variable (S : Scanner σ α)

/-- Each character with whether it is inside a stretch, but for those that are
joined to the character before them there. -/
def marks : σ → Option α → List α → List (Bool × α)
  | _, _, [] => []
  | s, last, c :: text =>
      if S.inside s && last.any (S.joined · c) then marks (S.step s c) (some c) text
      else (S.inside s, c) :: marks (S.step s c) (some c) text

/-- A separator outside of all stretches, which ends a word of the text. -/
def sepOutside (m : Bool × α) : Bool := !m.1 && S.isSep m.2

/-- A separator outside that may be taken out. -/
def goneOutside (m : Bool × α) : Bool := !m.1 && S.gone m.2

/-- The words of a text, where what is inside a stretch is part of a word. -/
def pieces (s : σ) (text : List α) : List (List (Bool × α)) :=
  words S.sepOutside (S.marks s none text)

/-- The text without the separators that may be taken out. -/
def without (text : List α) : List α := text.filter fun c => !S.gone c

/-! ## §2. One character. -/

variable {S}

/-- Outside a stretch each character has its mark, whatever stands before it. -/
theorem marks_outside {s : σ} (hs : S.inside s = false) (last : Option α) (c : α)
    (text : List α) :
    S.marks s last (c :: text) = (false, c) :: S.marks (S.step s c) (some c) text := by
  rw [marks, hs]
  rfl

/-- A character that stays is never joined to the one before it. -/
theorem marks_kept (s : σ) (last : Option α) {c : α} (hc : ¬ S.gone c = true) (text : List α) :
    S.marks s last (c :: text) = (S.inside s, c) :: S.marks (S.step s c) (some c) text := by
  rw [marks, if_neg]
  intro h
  cases last with
  | none => exact absurd (Bool.and_eq_true_iff.mp h).2 Bool.false_ne_true
  | some d => exact hc (S.gone_of_joined (Bool.and_eq_true_iff.mp h).2)

/-- A character that may go has no mark, or one that goes with it. -/
theorem filter_marks_gone (s : σ) (last : Option α) {c : α} (hc : S.gone c = true)
    (text : List α) :
    (S.marks s last (c :: text)).filter (fun m => !S.gone m.2)
      = (S.marks (S.blank s) (some c) text).filter fun m => !S.gone m.2 := by
  rw [marks, S.step_sep s (S.sep_of_gone hc)]
  split
  · rfl
  · exact List.filter_cons_of_neg (by simp [hc])

/-! ## §3. A text without some of its separators. -/

/-- The state before a separator that stays is as good as the one behind it. -/
theorem marks_blank (s : σ) (last : Option α) {text : List α}
    (hnext : ¬ LeadsTo S.isSep S.gone text)
    (hword : ∀ d after, text = d :: after → S.isSep d = true) :
    S.marks s last (S.without text) = S.marks (S.blank s) last (S.without text) := by
  cases hkept : S.without text with
  | nil => rfl
  | cons d kept =>
      obtain ⟨gap, after, htext, hgap, hd⟩ := List.filter_eq_cons_iff.mp hkept
      have hgone : ¬ S.gone d = true := by simpa using hd.1
      have hsep : S.isSep d = true := by
        by_contra hsep
        obtain _ | ⟨x, gap⟩ := gap
        · exact hsep (hword d after htext)
        · exact hnext ⟨x :: gap, d, after, htext, List.cons_ne_nil x gap,
            fun y hy => by simpa using hgap y hy, hsep⟩
      rw [marks_kept s last hgone, marks_kept (S.blank s) last hgone, S.inside_blank,
        S.step_sep s hsep, S.step_sep (S.blank s) hsep, S.blank_blank]

/-- **The marks of what is left.**  The state of the scanner is that in the whole
text, but between a word and a separator that is taken out. -/
theorem marks_without {text : List α} (hapart : ¬ OnlySeparatedBy S.isSep S.gone text) (s : σ)
    (last last' : Option α) (hstart : S.blank s = s ∨ ¬ LeadsTo S.isSep S.gone text) :
    S.marks s last' (S.without text) = (S.marks s last text).filter fun m => !S.gone m.2 := by
  induction text generalizing s last last' with
  | nil => rfl
  | cons c text ih =>
      have hrest : ¬ OnlySeparatedBy S.isSep S.gone text := fun h => hapart (h.cons c)
      by_cases hc : S.gone c = true
      · have hwithout : S.without (c :: text) = S.without text :=
          List.filter_cons_of_neg (by simp [hc])
        rw [hwithout, filter_marks_gone s last hc,
          ← ih hrest (S.blank s) (some c) last' (Or.inl (S.blank_blank s))]
        obtain hstable | hlead := hstart
        · rw [hstable]
        · -- no word follows, so that the next character that stays is a separator
          rw [leadsTo_cons] at hlead
          refine marks_blank s last' (fun h => hlead ⟨hc, Or.inr h⟩) fun d after htext => ?_
          by_contra hd
          exact hlead ⟨hc, Or.inl ⟨d, after, htext, hd⟩⟩
      · have hwithout : S.without (c :: text) = c :: S.without text :=
          List.filter_cons_of_pos (by simp [hc])
        rw [hwithout, marks_kept s last' hc, marks_kept s last hc,
          List.filter_cons_of_pos (by simp [hc]), ih hrest (S.step s c) (some c) (some c) ?_]
        by_cases hsep : S.isSep c = true
        · left
          rw [S.step_sep s hsep, S.blank_blank]
        · right
          intro hlead
          exact hapart (onlySeparatedBy_cons.mpr (Or.inl ⟨hsep, hlead⟩))

/-! ## §4. Words that stay apart. -/

/-- What is inside a stretch is not a separator: the marks there do not lead
to a word. -/
theorem not_leadsTo_inside {s : σ} (hs : S.inside s = true) (last : Option α) (text : List α) :
    ¬ LeadsTo S.sepOutside S.goneOutside (S.marks s last text) := by
  induction text generalizing s last with
  | nil =>
      rintro ⟨gap, d, after, h, -⟩
      exact absurd h.symm (List.append_ne_nil_of_right_ne_nil gap (List.cons_ne_nil d after))
  | cons c text ih =>
      rw [marks, hs, Bool.true_and]
      split
      next hjoined =>
        -- a character with no mark leaves the stretch as it is
        refine ih ?_ (some c)
        cases last with
        | none => cases hjoined
        | some d => rw [S.step_sep s (S.sep_of_gone (S.gone_of_joined hjoined)), S.inside_blank, hs]
      next =>
        rw [leadsTo_cons]
        rintro ⟨hgone, -⟩
        cases hgone

/-- Outside the marks of separators are those of the text, so that a text leads to
a word when its marks do. -/
theorem leadsTo_of_marks {s : σ} (hs : S.inside s = false) (last : Option α) {text : List α}
    (h : LeadsTo S.sepOutside S.goneOutside (S.marks s last text)) :
    LeadsTo S.isSep S.gone text := by
  induction text generalizing s last with
  | nil =>
      obtain ⟨gap, d, after, h, -⟩ := h
      exact absurd h.symm (List.append_ne_nil_of_right_ne_nil gap (List.cons_ne_nil d after))
  | cons c text ih =>
      rw [marks_outside hs, leadsTo_cons] at h
      obtain ⟨hc, h⟩ := h
      have hgone : S.gone c = true := hc
      have hblank : S.inside (S.step s c) = false := by
        rw [S.step_sep s (S.sep_of_gone hgone), S.inside_blank, hs]
      rw [leadsTo_cons]
      refine ⟨hgone, ?_⟩
      obtain ⟨d, after, hmarks, hd⟩ | hlead := h
      · obtain _ | ⟨e, text⟩ := text
        · cases hmarks
        · rw [marks_outside hblank] at hmarks
          obtain ⟨rfl, -⟩ := List.cons.inj hmarks
          exact Or.inl ⟨e, text, rfl, hd⟩
      · exact Or.inr (ih hblank (some c) hlead)

/-- Words that are joined in the marks are joined in the text. -/
theorem onlySeparatedBy_of_marks {s : σ} {last : Option α} {text : List α}
    (h : OnlySeparatedBy S.sepOutside S.goneOutside (S.marks s last text)) :
    OnlySeparatedBy S.isSep S.gone text := by
  induction text generalizing s last with
  | nil =>
      obtain ⟨before, c, gap, d, after, h, -⟩ := h
      exact absurd h.symm (List.append_ne_nil_of_right_ne_nil before (List.cons_ne_nil c _))
  | cons c text ih =>
      rw [marks] at h
      split at h
      · exact (ih h).cons c
      · rw [onlySeparatedBy_cons] at h
        obtain ⟨hc, hlead⟩ | h := h
        · refine onlySeparatedBy_cons.mpr (Or.inl ⟨fun hsep => ?_, ?_⟩)
          · -- a separator inside a stretch does not end it
            cases hs : S.inside s with
            | true =>
                refine not_leadsTo_inside ?_ (some c) text hlead
                rw [S.step_sep s hsep, S.inside_blank, hs]
            | false =>
                refine hc ?_
                rw [sepOutside, hs, hsep]
                rfl
          · cases hs : S.inside (S.step s c) with
            | true => exact absurd hlead (not_leadsTo_inside hs (some c) text)
            | false => exact leadsTo_of_marks hs (some c) hlead
        · exact (ih h).cons c

/-- What may be taken out separates words. -/
theorem sepOutside_of_goneOutside (m : Bool × α) (hm : S.goneOutside m = true) :
    S.sepOutside m = true := by
  obtain ⟨hout, hgone⟩ := Bool.and_eq_true_iff.mp hm
  exact Bool.and_eq_true_iff.mpr ⟨hout, S.sep_of_gone hgone⟩

/-! ## §5. The pieces. -/

/-- A mark inside a stretch is in one of the pieces. -/
theorem mem_flatten_words_of_inside {marks : List (Bool × α)} {m : Bool × α} (hm : m ∈ marks)
    (hinside : m.1 = true) : m ∈ (words S.sepOutside marks).flatten := by
  rw [flatten_words]
  refine List.mem_filter.mpr ⟨hm, ?_⟩
  rw [sepOutside, hinside]
  rfl

/-- **Separators can be left out** of a text whose words stay apart, exactly when
none of them is inside a stretch. -/
theorem pieces_without_iff {text : List α} (hapart : ¬ OnlySeparatedBy S.isSep S.gone text)
    {s : σ} (hstart : S.blank s = s) :
    S.pieces s (S.without text) = S.pieces s text
      ↔ ∀ m ∈ S.marks s none text, m.1 = true → ¬ S.gone m.2 = true := by
  unfold pieces
  rw [marks_without hapart s none none (Or.inl hstart)]
  constructor
  · intro hpieces m hm hinside hgone
    have hmem := mem_flatten_words_of_inside (S := S) hm hinside
    rw [← hpieces, flatten_words] at hmem
    have hkept := (List.mem_filter.mp (List.mem_of_mem_filter hmem)).2
    rw [hgone] at hkept
    cases hkept
  · intro hinside
    have hkeep : (S.marks s none text).filter (fun m => !S.gone m.2)
        = (S.marks s none text).filter fun m => !S.goneOutside m := by
      refine List.filter_congr fun m hm => ?_
      cases hm1 : m.1 with
      | false => rw [goneOutside, hm1]; rfl
      | true =>
          rw [goneOutside, hm1, Bool.eq_false_iff.mpr (hinside m hm hm1)]
          rfl
    rw [hkeep]
    exact words_filter sepOutside_of_goneOutside fun h => hapart (onlySeparatedBy_of_marks h)

end Scanner

end PokerReco.Library
