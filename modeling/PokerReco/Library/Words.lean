/-
  PokerReco.Library.Words
  ───────────────────────
  **WORDS OF A TEXT.**

  A text is cut into words by separators.  Some of the separators can be left
  out without a change of the words, unless two words are then joined.

      words          the words of a text
      words_filter   separators left out
-/
import Mathlib.Data.List.Basic

namespace PokerReco.Library

variable {α : Type*} (isSep : α → Bool)

/-- The words of a text: its longest stretches without a separator. -/
def words : List α → List (List α)
  | [] => []
  | [c] => if isSep c then [] else [[c]]
  | c :: d :: s =>
      if isSep c then words (d :: s)
      else if isSep d then [c] :: words (d :: s)
      else (words (d :: s)).modifyHead (c :: ·)

variable {isSep}

/-- A separator at the beginning is in no word. -/
theorem words_cons_sep {c : α} (hc : isSep c = true) (s : List α) :
    words isSep (c :: s) = words isSep s := by
  cases s with
  | nil => exact if_pos hc
  | cons d s => exact if_pos hc

/-- A text of one character that separates nothing is one word. -/
theorem words_singleton {c : α} (hc : ¬ isSep c = true) : words isSep [c] = [[c]] := if_neg hc

/-- A word ends before a separator. -/
theorem words_cons_end {c d : α} (hc : ¬ isSep c = true) (hd : isSep d = true) (s : List α) :
    words isSep (c :: d :: s) = [c] :: words isSep (d :: s) := by
  rw [words, if_neg hc, if_pos hd]

/-- A character before a word is its first one. -/
theorem words_cons_cons {c d : α} (hc : ¬ isSep c = true) (hd : ¬ isSep d = true) (s : List α) :
    words isSep (c :: d :: s) = (words isSep (d :: s)).modifyHead (c :: ·) := by
  rw [words, if_neg hc, if_neg hd]

/-- Two words are separated by nothing but separators of one kind, so that they
become one when these are left out. -/
def OnlySeparatedBy (isSep gone : α → Bool) (s : List α) : Prop :=
  ∃ before c gap d after, s = before ++ c :: (gap ++ d :: after) ∧ ¬ isSep c = true
    ∧ ¬ isSep d = true ∧ gap ≠ [] ∧ ∀ x ∈ gap, gone x = true

/-- The two words may be anywhere in the text. -/
theorem OnlySeparatedBy.cons {gone : α → Bool} {s : List α} (c : α)
    (h : OnlySeparatedBy isSep gone s) : OnlySeparatedBy isSep gone (c :: s) := by
  obtain ⟨before, c', gap, d, after, rfl, h⟩ := h
  exact ⟨c :: before, c', gap, d, after, rfl, h⟩

/-- The text begins with separators of one kind, and a word follows directly: a
word before it would be joined to that one. -/
def LeadsTo (isSep gone : α → Bool) (s : List α) : Prop :=
  ∃ gap d after, s = gap ++ d :: after ∧ gap ≠ [] ∧ (∀ x ∈ gap, gone x = true)
    ∧ ¬ isSep d = true

/-- The first separator is of this kind, and the word is behind it or behind
more of them. -/
theorem leadsTo_cons {gone : α → Bool} {c : α} {s : List α} :
    LeadsTo isSep gone (c :: s)
      ↔ gone c = true
        ∧ ((∃ d after, s = d :: after ∧ ¬ isSep d = true) ∨ LeadsTo isSep gone s) := by
  constructor
  · rintro ⟨gap, d, after, hs, hne, hgap, hd⟩
    obtain _ | ⟨x, gap⟩ := gap
    · exact absurd rfl hne
    · obtain ⟨rfl, rfl⟩ := List.cons.inj hs
      obtain ⟨hx, hgap⟩ := List.forall_mem_cons.mp hgap
      refine ⟨hx, ?_⟩
      obtain _ | ⟨y, gap⟩ := gap
      · exact Or.inl ⟨d, after, rfl, hd⟩
      · exact Or.inr ⟨y :: gap, d, after, rfl, List.cons_ne_nil y gap, hgap, hd⟩
  · rintro ⟨hc, ⟨d, after, rfl, hd⟩ | ⟨gap, d, after, rfl, -, hgap, hd⟩⟩
    · exact ⟨[c], d, after, rfl, List.cons_ne_nil c [], List.forall_mem_singleton.mpr hc, hd⟩
    · exact ⟨c :: gap, d, after, rfl, List.cons_ne_nil c gap,
        List.forall_mem_cons.mpr ⟨hc, hgap⟩, hd⟩

/-- The two words are at the beginning of the text, or behind its first
character. -/
theorem onlySeparatedBy_cons {gone : α → Bool} {c : α} {s : List α} :
    OnlySeparatedBy isSep gone (c :: s)
      ↔ (¬ isSep c = true ∧ LeadsTo isSep gone s) ∨ OnlySeparatedBy isSep gone s := by
  constructor
  · rintro ⟨before, c', gap, d, after, hs, hc, hd, hne, hgap⟩
    obtain _ | ⟨x, before⟩ := before
    · obtain ⟨rfl, rfl⟩ := List.cons.inj hs
      exact Or.inl ⟨hc, gap, d, after, rfl, hne, hgap, hd⟩
    · obtain ⟨rfl, rfl⟩ := List.cons.inj hs
      exact Or.inr ⟨before, c', gap, d, after, rfl, hc, hd, hne, hgap⟩
  · rintro (⟨hc, gap, d, after, rfl, hne, hgap, hd⟩ | h)
    · exact ⟨[], c, gap, d, after, rfl, hc, hd, hne, hgap⟩
    · exact h.cons c

/-- A text that does not begin with a separator has a word. -/
theorem words_ne_nil {c : α} (hc : ¬ isSep c = true) (s : List α) : words isSep (c :: s) ≠ [] := by
  induction s generalizing c with
  | nil =>
      rw [words_singleton hc]
      exact List.cons_ne_nil _ _
  | cons d s ih =>
      by_cases hd : isSep d = true
      · rw [words_cons_end hc hd]
        exact List.cons_ne_nil _ _
      · rw [words_cons_cons hc hd]
        intro h
        cases hwords : words isSep (d :: s) with
        | nil => exact ih hd hwords
        | cons w ws =>
            rw [hwords] at h
            cases h

/-- The characters of the words are those that separate nothing. -/
theorem flatten_words (s : List α) :
    (words isSep s).flatten = s.filter fun c => !isSep c := by
  induction s with
  | nil => rfl
  | cons c s ih =>
      by_cases hc : isSep c = true
      · rw [words_cons_sep hc, ih, List.filter_cons_of_neg (by simp [hc])]
      · rw [List.filter_cons_of_pos (by simp [hc]), ← ih]
        obtain _ | ⟨d, s⟩ := s
        · rw [words_singleton hc]
          rfl
        · by_cases hd : isSep d = true
          · rw [words_cons_end hc hd, List.flatten_cons]
            rfl
          · rw [words_cons_cons hc hd]
            cases hwords : words isSep (d :: s) with
            | nil => exact absurd hwords (words_ne_nil hd s)
            | cons w ws => rfl

/-- **Separators can be left out** where the words stay apart. -/
theorem words_filter {gone : α → Bool} (hgone : ∀ c, gone c = true → isSep c = true) {s : List α}
    (h : ¬ OnlySeparatedBy isSep gone s) :
    words isSep (s.filter fun c => !gone c) = words isSep s := by
  induction s with
  | nil => rfl
  | cons c s ih =>
      have ih := ih fun hs => h (hs.cons c)
      by_cases hsep : isSep c = true
      · rw [words_cons_sep hsep]
        by_cases hc : gone c = true
        · rw [List.filter_cons_of_neg (by simp [hc]), ih]
        · rw [List.filter_cons_of_pos (by simp [hc]), words_cons_sep hsep, ih]
      · have hc : ¬ gone c = true := fun hc => hsep (hgone c hc)
        rw [List.filter_cons_of_pos (by simp [hc])]
        cases s with
        | nil => rfl
        | cons d s =>
            by_cases hd : isSep d = true
            · rw [words_cons_end hsep hd, ← ih]
              -- the next character that is kept is a separator too
              cases hkept : (d :: s).filter fun c => !gone c with
              | nil => exact words_singleton hsep
              | cons e kept =>
                  have he : isSep e = true := by
                    by_contra he
                    obtain ⟨gap, after, happ, hgap, -⟩ := List.filter_eq_cons_iff.mp hkept
                    refine h ⟨[], c, gap, e, after, by rw [happ]; rfl, hsep, he, ?_, ?_⟩
                    · rintro rfl
                      obtain ⟨rfl, -⟩ := List.cons.inj happ
                      exact he hd
                    · intro x hx
                      simpa using hgap x hx
                  exact words_cons_end hsep he kept
            · have hd' : ¬ gone d = true := fun hd' => hd (hgone d hd')
              rw [words_cons_cons hsep hd, ← ih, List.filter_cons_of_pos (by simp [hd'])]
              exact words_cons_cons hsep hd _

end PokerReco.Library
