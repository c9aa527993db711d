/-!
# Searching and measuring text

Text is searched as a list of characters and measured in UTF-8 bytes. `splitAtFirst` cuts a text at
the leftmost occurrence of a pattern; nothing is lost by the cut (`splitAtFirst_eq_some`).
`replaceAll` puts another text in the place of every occurrence.
-/

namespace ViewBinding.Text

/-- The number of bytes of a text in UTF-8. -/
def utf8Length : List Char → Nat
  | [] => 0
  | c :: text => c.utf8Size + utf8Length text

/-- What follows a pattern at the start of a text, when the text starts with it. -/
def dropStart? : List Char → List Char → Option (List Char)
  | [], text => some text
  | _ :: _, [] => none
  | p :: pattern, c :: text => if p = c then dropStart? pattern text else none

/-- Cuts a text at the leftmost occurrence of a pattern, into what stands before and after it. -/
def splitAtFirst (pattern : List Char) : List Char → Option (List Char × List Char)
  | [] => if pattern.isEmpty then some ([], []) else none
  | c :: text =>
    match dropStart? pattern (c :: text) with
    | some rest => some ([], rest)
    | none => (splitAtFirst pattern text).map fun (before, after) => (c :: before, after)

/-- The runs of characters that are not separators, empty runs left out. -/
def wordsBy (isSeparator : Char → Bool) : List Char → List (List Char)
  | [] => []
  | c :: text =>
    if isSeparator c then wordsBy isSeparator text
    else match text, wordsBy isSeparator text with
      | d :: _, word :: words => if isSeparator d then [c] :: word :: words else (c :: word) :: words
      | _, words => [c] :: words

/-- A character of a name: an ASCII letter or digit, a hyphen or an underscore. -/
def isNameChar (c : Char) : Bool :=
  c.isAlphanum || c == '-' || c == '_'

/-- A name: one or more name characters. -/
def isName (text : List Char) : Bool :=
  !text.isEmpty && text.all isNameChar

/-- Turns the ASCII capitals of a text into small letters. -/
def lowercase (text : String) : String :=
  String.ofList (text.toList.map Char.toLower)

@[simp] theorem utf8Length_nil : utf8Length [] = 0 := rfl

@[simp] theorem utf8Length_cons (c : Char) (text : List Char) :
    utf8Length (c :: text) = c.utf8Size + utf8Length text := rfl

@[simp] theorem utf8Length_append (a b : List Char) :
    utf8Length (a ++ b) = utf8Length a + utf8Length b := by
  induction a with
  | nil => simp
  | cons c rest ih => simp [ih, Nat.add_assoc]

theorem dropStart?_eq_some {pattern text rest : List Char} :
    dropStart? pattern text = some rest ↔ text = pattern ++ rest := by
  induction pattern generalizing text with
  | nil => simp [dropStart?]
  | cons p pattern ih =>
    cases text with
    | nil => simp [dropStart?]
    | cons c text =>
      by_cases h : p = c
      · simp [dropStart?, h, ih]
      · simp [dropStart?, h, Ne.symm h]

theorem dropStart?_length {pattern text rest : List Char} (h : dropStart? pattern text = some rest) :
    rest.length + pattern.length = text.length := by
  rw [dropStart?_eq_some.1 h, List.length_append, Nat.add_comm]

/-- Replaces every occurrence of a pattern, from left to right. The pattern is a character and those
behind it, so it is not empty; what is put in its place is not searched. -/
def replaceAll (first : Char) (others replacement : List Char) : List Char → List Char
  | [] => []
  | c :: text =>
    match _h : dropStart? (first :: others) (c :: text) with
    | some rest => replacement ++ replaceAll first others replacement rest
    | none => c :: replaceAll first others replacement text
termination_by text => text.length
decreasing_by
  · have hlength := dropStart?_length _h
    simp only [List.length_cons] at hlength ⊢
    omega
  · exact Nat.lt_succ_self _

theorem splitAtFirst_eq_some {pattern text before after : List Char}
    (h : splitAtFirst pattern text = some (before, after)) : text = before ++ pattern ++ after := by
  induction text generalizing before after with
  | nil =>
    cases pattern with
    | nil => simp_all [splitAtFirst]
    | cons p pattern => simp [splitAtFirst] at h
  | cons c text ih =>
    unfold splitAtFirst at h
    split at h
    · rename_i rest hrest
      have hs : [] = before ∧ rest = after := by simpa using h
      obtain ⟨rfl, rfl⟩ := hs
      simpa using dropStart?_eq_some.1 hrest
    · obtain ⟨⟨a, b⟩, hab, heq⟩ := Option.map_eq_some_iff.1 h
      have hs : c :: a = before ∧ b = after := by simpa using heq
      obtain ⟨rfl, rfl⟩ := hs
      simp [ih hab]

end ViewBinding.Text
