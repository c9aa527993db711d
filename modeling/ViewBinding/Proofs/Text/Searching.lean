import Mathlib
import ViewBinding.Text.Search

/-!
# Occurrences of a pattern

A text is cut at the leftmost place where a pattern stands (`splitAtFirst_eq_some_iff`), and nowhere
only when the pattern does not occur. There is one such place, so the cut is unique.
-/

namespace ViewBinding.Text

variable {pattern text before after : List Char}

theorem utf8Len_eq (text : List Char) : String.utf8Len text = utf8Length text := by
  induction text with
  | nil => rfl
  | cons c text ih => rw [String.utf8Len_cons, ih, utf8Length_cons, Nat.add_comm]

theorem utf8Length_toList (text : String) : utf8Length text.toList = text.utf8ByteSize := by
  rw [← utf8Len_eq, ← String.utf8ByteSize_ofList, String.ofList_toList]

/-- Every character has a byte at least. -/
theorem length_le_utf8Length (text : List Char) : text.length ≤ utf8Length text := by
  induction text with
  | nil => exact Nat.le_refl 0
  | cons c text ih =>
    have hpos := c.utf8Size_pos
    rw [List.length_cons, utf8Length_cons]
    omega

/-- A byte is at the boundary of a character just when the text can be cut there. -/
theorem isValid_iff {text : String} {pos : Nat} :
    String.Pos.Raw.IsValid text ⟨pos⟩ ↔
      ∃ before after, text.toList = before ++ after ∧ pos = utf8Length before := by
  rw [String.Pos.Raw.isValid_iff_exists_append]
  constructor
  · rintro ⟨front, back, rfl, hpos⟩
    refine ⟨front.toList, back.toList, String.toList_append, ?_⟩
    rw [utf8Length_toList]
    exact congrArg String.Pos.Raw.byteIdx hpos
  · rintro ⟨before, after, htext, rfl⟩
    refine ⟨String.ofList before, String.ofList after, String.toList_inj.mp (by simpa using htext), ?_⟩
    rw [← String.toList_ofList (l := before), utf8Length_toList, String.toList_ofList]
    rfl

theorem dropStart?_eq_none_iff : dropStart? pattern text = none ↔ ¬ pattern <+: text := by
  rw [Option.eq_none_iff_forall_ne_some, List.IsPrefix, not_exists]
  exact forall_congr' fun rest => not_congr (dropStart?_eq_some.trans eq_comm)

/-- A cut is at the leftmost occurrence: the pattern begins at no earlier place. -/
theorem splitAtFirst_eq_some_iff :
    splitAtFirst pattern text = some (before, after) ↔
      text = before ++ (pattern ++ after) ∧ ∀ i < before.length, ¬ pattern <+: text.drop i := by
  induction text generalizing before after with
  | nil =>
    rw [splitAtFirst, eq_comm (a := []), List.append_eq_nil_iff, List.append_eq_nil_iff]
    split
    · rename_i hpattern
      rw [List.isEmpty_iff] at hpattern
      simp +contextual [hpattern, eq_comm]
    · rename_i hpattern
      rw [List.isEmpty_iff] at hpattern
      simp [hpattern]
  | cons c text ih =>
    rw [splitAtFirst]
    cases hstart : dropStart? pattern (c :: text) with
    | some rest =>
      have htext := dropStart?_eq_some.mp hstart
      constructor
      · rintro ⟨⟩
        exact ⟨htext, fun i hi => absurd hi (Nat.not_lt_zero i)⟩
      · rintro ⟨hcut, hleftmost⟩
        cases before with
        | nil => rw [List.append_cancel_left (htext.symm.trans hcut)]
        | cons b before => exact absurd ⟨rest, htext.symm⟩ (hleftmost 0 (Nat.succ_pos _))
    | none =>
      rw [dropStart?_eq_none_iff] at hstart
      constructor
      · intro h
        obtain ⟨⟨a, b⟩, hab, heq⟩ := Option.map_eq_some_iff.mp h
        obtain ⟨rfl, rfl⟩ := Prod.mk.inj heq
        obtain ⟨rfl, hleftmost⟩ := ih.mp hab
        refine ⟨rfl, fun i hi => ?_⟩
        cases i with
        | zero => exact hstart
        | succ i => exact hleftmost i (Nat.lt_of_succ_lt_succ hi)
      · rintro ⟨hcut, hleftmost⟩
        cases before with
        | nil => exact absurd ⟨after, hcut.symm⟩ hstart
        | cons b before =>
          obtain ⟨rfl, hrest⟩ := List.cons.inj hcut
          exact Option.map_eq_some_iff.mpr ⟨(before, after), ih.mpr ⟨hrest, fun i hi =>
            hleftmost (i + 1) (Nat.succ_lt_succ hi)⟩, rfl⟩

theorem splitAtFirst_eq_none_iff : splitAtFirst pattern text = none ↔ ¬ pattern <:+: text := by
  induction text with
  | nil => simp [splitAtFirst, List.infix_nil]
  | cons c text ih =>
    rw [splitAtFirst, List.infix_cons_iff, not_or, ← dropStart?_eq_none_iff, ← ih]
    cases dropStart? pattern (c :: text) <;> simp

/-- A pattern is found where it stands, unless it begins in what stands before it. -/
theorem splitAtFirst_append
    (h : ∀ a b, before = a ++ b → b ≠ [] → ¬ pattern <+: b ++ (pattern ++ after)) :
    splitAtFirst pattern (before ++ (pattern ++ after)) = some (before, after) := by
  refine splitAtFirst_eq_some_iff.mpr ⟨rfl, fun i hi => ?_⟩
  rw [List.drop_append_of_le_length (Nat.le_of_lt hi)]
  exact h (before.take i) (before.drop i) (List.take_append_drop i before).symm
    (by simpa using hi)

theorem splitAtFirst_singleton {c : Char} (h : c ∉ before) (after : List Char) :
    splitAtFirst [c] (before ++ c :: after) = some (before, after) := by
  refine splitAtFirst_append ?_
  rintro a b rfl hb hbegins
  obtain ⟨d, b, rfl⟩ := List.exists_cons_of_ne_nil hb
  rw [List.cons_append, List.cons_prefix_cons] at hbegins
  exact h (by simp [hbegins.1])

/-- What stands before the leftmost occurrence of a pattern does not contain it. -/
theorem not_infix_of_splitAtFirst (h : splitAtFirst pattern text = some (before, after))
    (hpattern : pattern ≠ []) : ¬ pattern <:+: before := by
  obtain ⟨rfl, hleftmost⟩ := splitAtFirst_eq_some_iff.mp h
  rintro ⟨a, b, rfl⟩
  have hlength := List.length_pos_of_ne_nil hpattern
  apply hleftmost a.length (by simp only [List.length_append]; omega)
  simp

variable {first : Char} {others replacement : List Char}

theorem replaceAll_append (rest : List Char) :
    replaceAll first others replacement (first :: (others ++ rest)) =
      replacement ++ replaceAll first others replacement rest := by
  have hdrop : dropStart? (first :: others) (first :: (others ++ rest)) = some rest :=
    dropStart?_eq_some.mpr rfl
  rw [replaceAll]
  split
  · rename_i after hafter
    rw [Option.some.inj (hdrop.symm.trans hafter)]
  · rename_i hnone
    rw [hdrop] at hnone
    cases hnone

theorem replaceAll_cons {c : Char} (h : ¬ first :: others <+: c :: text) :
    replaceAll first others replacement (c :: text) =
      c :: replaceAll first others replacement text := by
  rw [replaceAll]
  split
  · rename_i rest hrest
    rw [dropStart?_eq_none_iff.mpr h] at hrest
    cases hrest
  · rfl

end ViewBinding.Text
