import Mathlib
import ViewBinding.Proofs.Text.Searching

/-!
# Slices of bytes

A text looked at by the offsets of its bytes. A slice has no result when one of its ends lies outside
of the text or inside a character, or the end before the start. Where a text is cut between characters,
the slices are its parts (`slice?_eq`), and searching behind a cut finds what is found in the rest
(`find?_eq`).
-/

namespace ViewBinding.Text

/-- The part of a text between two bytes, when both are at boundaries of characters and in order. -/
def slice? (text : String) (start stop : Nat) : Option (List Char) :=
  if String.Pos.Raw.IsValid text ⟨start⟩ ∧ String.Pos.Raw.IsValid text ⟨stop⟩ ∧ start ≤ stop then
    some (String.Pos.Raw.extract text ⟨start⟩ ⟨stop⟩).toList
  else none

/-- What stands behind a byte. -/
def behind? (text : String) (pos : Nat) : Option (List Char) := slice? text pos text.utf8ByteSize

/-- The byte at which a pattern is found behind another byte. -/
def find? (text : String) (pattern : List Char) (pos : Nat) : Option (Option Nat) := do
  let rest ← behind? text pos
  return (splitAtFirst pattern rest).map fun (before, _) => pos + utf8Length before

variable {text : String} {before middle after : List Char}

theorem slice?_eq (h : text.toList = before ++ (middle ++ after)) :
    slice? text (utf8Length before) (utf8Length before + utf8Length middle) = some middle := by
  have hstart : String.Pos.Raw.IsValid text ⟨utf8Length before⟩ :=
    isValid_iff.mpr ⟨before, middle ++ after, h, rfl⟩
  have hstop : String.Pos.Raw.IsValid text ⟨utf8Length before + utf8Length middle⟩ :=
    isValid_iff.mpr ⟨before ++ middle, after, by rw [h, List.append_assoc],
      (utf8Length_append before middle).symm⟩
  have htext : text = String.ofList (before ++ middle ++ after) := by
    rw [← String.toList_inj, h, String.toList_ofList, List.append_assoc]
  rw [slice?, if_pos ⟨hstart, hstop, Nat.le_add_right _ _⟩, htext, ← utf8Len_eq, ← utf8Len_eq,
    String.extract_of_valid, String.toList_ofList]

theorem behind?_eq (h : text.toList = before ++ after) :
    behind? text (utf8Length before) = some after := by
  have hsize : text.utf8ByteSize = utf8Length before + utf8Length after := by
    rw [← utf8Length_toList, h, utf8Length_append]
  rw [behind?, hsize]
  exact slice?_eq (by rw [h, List.append_nil])

theorem find?_eq (h : text.toList = before ++ after) (pattern : List Char) :
    find? text pattern (utf8Length before) =
      some ((splitAtFirst pattern after).map fun (between, _) =>
        utf8Length before + utf8Length between) := by
  rw [find?, behind?_eq h]
  rfl

end ViewBinding.Text
