import Mathlib
import ViewBinding.Text.Search

/-!
# Words and names

The words of a text are what is left of it when it is cut at every separator, without the empty
parts. A name is a word of name characters; small letters are as small as they get.
-/

namespace ViewBinding.Text

theorem isName_iff (text : List Char) :
    isName text = true ↔ text ≠ [] ∧ ∀ c ∈ text, isNameChar c = true := by
  cases text <;> simp [isName]

theorem lowercase_lowercase (text : String) : lowercase (lowercase text) = lowercase text := by
  simp [lowercase, Function.comp_def]

variable {isSeparator : Char → Bool}

private theorem wordsBy_separator {c : Char} (hc : isSeparator c = true) (text : List Char) :
    wordsBy isSeparator (c :: text) = wordsBy isSeparator text := by
  rw [wordsBy.eq_def]
  exact if_pos hc

private theorem wordsBy_of_stop {c : Char} {text : List Char} (hc : isSeparator c = false)
    (htext : ∀ d ∈ text.head?, isSeparator d = true) :
    wordsBy isSeparator (c :: text) = [c] :: wordsBy isSeparator text := by
  rw [wordsBy.eq_def]
  refine (if_neg (by simp [hc])).trans ?_
  cases text with
  | nil => rfl
  | cons d text =>
    cases wordsBy isSeparator (d :: text) with
    | nil => rfl
    | cons word words => exact if_pos (htext d rfl)

private theorem wordsBy_cons_cons {c d : Char} {text : List Char} (hc : isSeparator c = false)
    (hd : isSeparator d = false) :
    wordsBy isSeparator (c :: d :: text) =
      (wordsBy isSeparator (d :: text)).modifyHead (List.cons c) := by
  have hne : wordsBy isSeparator (d :: text) ≠ [] := by
    rw [wordsBy.eq_def]
    simp only [hd, Bool.false_eq_true, if_false]
    split
    · split <;> exact List.cons_ne_nil _ _
    · exact List.cons_ne_nil _ _
  obtain ⟨word, words, hwords⟩ := List.exists_cons_of_ne_nil hne
  rw [wordsBy.eq_def]
  refine (if_neg (by simp [hc])).trans ?_
  rw [hwords]
  exact if_neg (by simp [hd])

theorem wordsBy_eq_filter (text : List Char) :
    wordsBy isSeparator text = (text.splitOnP isSeparator).filter (!·.isEmpty) := by
  induction text with
  | nil => rfl
  | cons c text ih =>
    rw [List.splitOnP_cons_eq_if_modifyHead]
    by_cases hc : isSeparator c = true
    · rw [wordsBy_separator hc, ih, if_pos hc]
      rfl
    · rw [if_neg hc]
      cases text with
      | nil => rw [wordsBy_of_stop (by simpa using hc) (by simp)]; rfl
      | cons d text =>
        rw [List.splitOnP_cons_eq_if_modifyHead] at ih ⊢
        by_cases hd : isSeparator d = true
        · rw [wordsBy_of_stop (by simpa using hc) (by simpa using hd), ih, if_pos hd]
          rfl
        · rw [wordsBy_cons_cons (by simpa using hc) (by simpa using hd), ih, if_neg hd]
          obtain ⟨part, parts, hparts⟩ :=
            List.exists_cons_of_ne_nil (List.splitOnP_ne_nil isSeparator text)
          rw [hparts]
          rfl

end ViewBinding.Text
