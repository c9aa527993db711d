import Mathlib
import ViewBinding.Markup.Write
import ViewBinding.Proofs.Markup.Entities
import ViewBinding.Proofs.Text.Words

/-!
# Reading back what is written

Each piece of markup that is written for a node is read as one token, whatever follows it: escaped
text up to the next `<`, a comment, an opening tag with its attributes, a closing tag.
-/

namespace ViewBinding

namespace Markup

open Text

/-! ## Steps of the cursor -/

namespace Cursor

variable {p : Char → Bool} {word rest : List Char}

/-- Text that a test does not go on into. -/
def Stops (p : Char → Bool) (rest : List Char) : Prop := ∀ c ∈ rest.head?, p c = false

theorem takeWhile_of_stops (h : Stops p rest) : rest.takeWhile p = [] := by
  cases rest with
  | nil => rfl
  | cons c rest => exact List.takeWhile_cons_of_neg (by simp [h c rfl])

theorem dropWhile_of_stops (h : Stops p rest) : rest.dropWhile p = rest := by
  cases rest with
  | nil => rfl
  | cons c rest => exact List.dropWhile_cons_of_neg (by simp [h c rfl])

theorem stops_dropWhile (p : Char → Bool) (text : List Char) : Stops p (text.dropWhile p) := by
  intro c hc
  have hhead := List.head?_dropWhile_not p text
  rw [Option.mem_def.mp hc] at hhead
  exact hhead

theorem takeWhile_append (hword : ∀ c ∈ word, p c = true) (hrest : Stops p rest) :
    (word ++ rest).takeWhile p = word := by
  rw [List.takeWhile_append_of_pos hword, takeWhile_of_stops hrest, List.append_nil]

theorem skipWhile_append (hword : ∀ c ∈ word, p c = true) (hrest : Stops p rest) (offset : Nat) :
    skipWhile p ⟨offset, word ++ rest⟩ = ⟨offset + utf8Length word, rest⟩ := by
  simp only [skipWhile, takeWhile_append hword hrest]
  rw [List.dropWhile_append_of_pos hword, dropWhile_of_stops hrest]

private theorem skipBlanks_of_stops (hrest : Stops isBlank rest) (offset : Nat) :
    skipBlanks ⟨offset, rest⟩ = ⟨offset, rest⟩ :=
  @skipWhile_append isBlank [] rest (by simp) hrest offset

theorem word?_append (hne : word ≠ []) (hword : ∀ c ∈ word, p c = true) (hrest : Stops p rest)
    (offset : Nat) :
    word? p ⟨offset, word ++ rest⟩ = some (word, ⟨offset + utf8Length word, rest⟩) := by
  simp [word?, takeWhile_append hword hrest, hne, skipWhile_append hword hrest]

theorem eat?_append (literal : List Char) (offset : Nat) :
    eat? literal ⟨offset, literal ++ rest⟩ = some ⟨offset + utf8Length literal, rest⟩ := by
  have hdrop : dropStart? literal (literal ++ rest) = some rest := dropStart?_eq_some.mpr rfl
  simp [eat?, hdrop]

theorem eat?_eq_none {literal : List Char} (h : ¬ literal <+: rest) (offset : Nat) :
    eat? literal ⟨offset, rest⟩ = none := by
  cases hd : dropStart? literal rest with
  | none => simp [eat?, hd]
  | some after => exact absurd ⟨after, (dropStart?_eq_some.mp hd).symm⟩ h

end Cursor

open Cursor

/-! ## Characters of names -/

/-- An attribute name that can be written: it is not empty and no character ends it. -/
def IsAttributeName (name : String) : Prop :=
  name.toList ≠ [] ∧ ∀ c ∈ name.toList, isAttributeNameChar c = true

private theorem isNameChar_toLower {c : Char} (h : isNameChar c = true) :
    isNameChar c.toLower = true := by
  by_cases hupper : c.isUpper = true
  · have halpha : c.toLower.isAlpha = true := by
      rw [Char.isAlpha_toLower_eq_isAlpha]
      simp [Char.isAlpha, hupper]
    simp [isNameChar, Char.isAlphanum, halpha]
  · rw [Char.toLower_eq_of_not_isUpper hupper, h]

private theorem isAttributeNameChar_of_isAlpha {c : Char} (h : c.isAlpha = true) :
    isAttributeNameChar c = true := by
  have hrange : 65 ≤ c.toNat ∧ c.toNat ≤ 122 := by
    simp only [Char.isAlpha, Char.isUpper, Char.isLower, Bool.or_eq_true, Bool.and_eq_true,
      decide_eq_true_eq, ge_iff_le, UInt32.le_iff_toNat_le] at h
    have hupper : 'A'.val.toNat = 65 ∧ 'Z'.val.toNat = 90 := by decide
    have hlower : 'a'.val.toNat = 97 ∧ 'z'.val.toNat = 122 := by decide
    have hc : c.toNat = c.val.toNat := rfl
    omega
  have hblank : isBlank c = false := by
    simp only [isBlank, blankRanges, List.any_cons, List.any_nil, Bool.or_false, Bool.or_eq_false_iff,
      Bool.and_eq_false_iff, decide_eq_false_iff_not]
    omega
  have hmark : ['=', '>', '/', '"', '\'', '<'].contains c = false := by
    rw [List.contains_eq_mem, decide_eq_false_iff_not]
    intro hmem
    simp only [List.mem_cons, List.not_mem_nil, or_false] at hmem
    rcases hmem with rfl | rfl | rfl | rfl | rfl | rfl <;>
      simp [Char.isAlpha, Char.isUpper, Char.isLower] at h
  rw [isAttributeNameChar, hblank, hmark]
  rfl

private theorem isAttributeNameChar_toLower {c : Char} (h : isAttributeNameChar c = true) :
    isAttributeNameChar c.toLower = true := by
  by_cases hupper : c.isUpper = true
  · apply isAttributeNameChar_of_isAlpha
    rw [Char.isAlpha_toLower_eq_isAlpha]
    simp [Char.isAlpha, hupper]
  · rw [Char.toLower_eq_of_not_isUpper hupper, h]

theorem isNameChar_of_isBlank {c : Char} (h : isBlank c = true) : isNameChar c = false := by
  by_contra hname
  have hrange : 45 ≤ c.toNat ∧ c.toNat ≤ 122 := by
    simp only [isNameChar, Char.isAlphanum, Char.isAlpha, Char.isUpper, Char.isLower, Char.isDigit,
      Bool.not_eq_false, Bool.or_eq_true, Bool.and_eq_true, decide_eq_true_eq, beq_iff_eq, ge_iff_le,
      UInt32.le_iff_toNat_le] at hname
    have hupper : 'A'.val.toNat = 65 ∧ 'Z'.val.toNat = 90 := by decide
    have hlower : 'a'.val.toNat = 97 ∧ 'z'.val.toNat = 122 := by decide
    have hdigit : '0'.val.toNat = 48 ∧ '9'.val.toNat = 57 := by decide
    have hc : c.toNat = c.val.toNat := rfl
    rcases hname with (h | rfl) | rfl
    · omega
    · decide
    · decide
  simp only [isBlank, blankRanges, List.any_cons, List.any_nil, Bool.or_false, Bool.or_eq_true,
    Bool.and_eq_true, decide_eq_true_eq] at h
  omega

theorem isAttributeNameChar_of_isBlank {c : Char} (h : isBlank c = true) :
    isAttributeNameChar c = false := by
  rw [isAttributeNameChar, h]
  rfl

theorem isName_lowercase {text : List Char} (h : isName text = true) :
    isName (lowercase (String.ofList text)).toList = true := by
  obtain ⟨hne, hchars⟩ := (isName_iff text).mp h
  rw [isName_iff]
  simp only [lowercase, String.toList_ofList, ne_eq, List.map_eq_nil_iff, List.mem_map]
  refine ⟨hne, ?_⟩
  rintro _ ⟨c, hc, rfl⟩
  exact isNameChar_toLower (hchars c hc)

theorem IsAttributeName.lowercase {name : String} (h : IsAttributeName name) :
    IsAttributeName (Text.lowercase name) := by
  obtain ⟨hne, hchars⟩ := h
  simp only [IsAttributeName, Text.lowercase, String.toList_ofList, ne_eq, List.map_eq_nil_iff,
    List.mem_map]
  refine ⟨hne, ?_⟩
  rintro _ ⟨c, hc, rfl⟩
  exact isAttributeNameChar_toLower (hchars c hc)

/-! ## Tokens -/

private theorem tagName?_append {tag : String} (htag : isName tag.toList = true)
    (hlower : lowercase tag = tag) {rest : List Char} (hrest : Stops isNameChar rest)
    (offset : Nat) :
    tagName? ⟨offset, tag.toList ++ rest⟩ = some (tag, ⟨offset + utf8Length tag.toList, rest⟩) := by
  obtain ⟨hne, hchars⟩ := (isName_iff _).mp htag
  simp [tagName?, word?_append hne hchars hrest, hlower]

theorem splitAtFirst_commentEnd {data : List Char} (h : ¬ ['-', '-', '>'] <:+: data)
    (rest : List Char) :
    splitAtFirst ['-', '-', '>'] (data ++ (['-', '-', '>'] ++ rest)) = some (data, rest) := by
  apply splitAtFirst_append
  -- What begins in the data and ends behind it has a hyphen where the `>` would be.
  intro a b hab hb hbegins
  rcases b with _ | ⟨x, _ | ⟨y, _ | ⟨z, b⟩⟩⟩
  · exact hb rfl
  · simp at hbegins
  · simp at hbegins
  · apply h
    obtain ⟨rfl, rfl, rfl, -⟩ : '-' = x ∧ '-' = y ∧ '>' = z ∧ True := by simpa using hbegins
    exact ⟨a, b, by simp [hab]⟩

/-- A comment is read up to its end. -/
theorem scan_commentMarkup {data : String} (hdata : ¬ ['-', '-', '>'] <:+: data.toList)
    (rest : List Char) (offset : Nat) :
    ∃ next, scan ⟨offset, commentMarkup data ++ rest⟩ = .token (.comment data) ⟨next, rest⟩ := by
  have hshape : commentMarkup data ++ rest =
      ['<', '!', '-', '-'] ++ (data.toList ++ (['-', '-', '>'] ++ rest)) := by
    simp [commentMarkup]
  rw [hshape, scan, eat?_append]
  simp only [scanComment, upTo?, splitAtFirst_commentEnd hdata rest, Option.map_some,
    String.ofList_toList]
  exact ⟨_, rfl⟩

theorem stops_of_head {p : Char → Bool} {c : Char} (hc : p c = false) (rest : List Char) :
    Stops p (c :: rest) := by
  simpa [Stops] using hc

theorem scan_closingMarkup {tag : String} (htag : isName tag.toList = true)
    (hlower : lowercase tag = tag) (rest : List Char) (offset : Nat) :
    ∃ name next,
      scan ⟨offset, closingMarkup tag ++ rest⟩ = .token (.closing tag name) ⟨next, rest⟩ := by
  have hshape : closingMarkup tag ++ rest = ['<', '/'] ++ (tag.toList ++ (['>'] ++ rest)) := by
    simp [closingMarkup]
  have hcomment : ¬ ['<', '!', '-', '-'] <+: ['<', '/'] ++ (tag.toList ++ (['>'] ++ rest)) := by
    simp
  have hname : Stops isNameChar (['>'] ++ rest) := stops_of_head rfl rest
  have hblank : Stops isBlank (['>'] ++ rest) := stops_of_head rfl rest
  rw [hshape, scan, eat?_eq_none hcomment, eat?_append]
  simp only [scanClosing, tagName?_append htag hlower hname, skipBlanks_of_stops hblank,
    eat?_append]
  exact ⟨_, _, rfl⟩

theorem scan_escapeText {data : String} (hdata : data ≠ "") {rest : List Char}
    (hrest : ∀ c ∈ rest.head?, c = '<') (offset : Nat) :
    ∃ next, scan ⟨offset, escapeText data.toList ++ rest⟩ = .token (.text data) ⟨next, rest⟩ := by
  have hplain : ∀ c ∈ escapeText data.toList, (c != '<') = true := by
    intro c hc
    rw [bne_iff_ne]
    rintro rfl
    exact less_not_mem_escapeText _ hc
  have hstops : Stops (· != '<') rest := fun c hc => by simp [hrest c hc]
  have hne : escapeText data.toList ≠ [] := fun h => hdata (by
    simpa using escapeText_eq_nil h)
  obtain ⟨c, text, htext⟩ := List.exists_cons_of_ne_nil hne
  have hopen : ∀ mark, ¬ '<' :: mark <+: escapeText data.toList ++ rest := by
    intro mark hbegins
    rw [htext, List.cons_append, List.cons_prefix_cons] at hbegins
    exact less_not_mem_escapeText data.toList (by rw [htext, hbegins.1]; simp)
  rw [scan, eat?_eq_none (hopen _), eat?_eq_none (hopen _), eat?_eq_none (hopen _)]
  simp only [scanText, takeWhile_append hplain hstops, skipWhile_append hplain hstops,
    decodeEntities_escapeText, String.ofList_toList]
  exact ⟨_, rfl⟩

/-! ## Attributes -/

private theorem attributeValue?_escapeAttribute (value rest : List Char) (offset : Nat) :
    ∃ next, attributeValue? ⟨offset, '"' :: (escapeAttribute value ++ '"' :: rest)⟩ =
      some (escapeAttribute value, ⟨next, rest⟩) := by
  have hsplit := splitAtFirst_singleton (quote_not_mem_escapeAttribute value) rest
  simp only [attributeValue?, upTo?, hsplit, Option.map_some]
  exact ⟨_, rfl⟩

private theorem readAttribute_attributeMarkup {a : Attribute} (ha : IsAttributeName a.name)
    (rest : List Char) (offset : Nat) :
    ∃ next, readAttribute
      ⟨offset, a.name.toList ++ (['='] ++ '"' :: (escapeAttribute a.value.toList ++ '"' :: rest))⟩ =
        .ok (a, ⟨next, rest⟩) := by
  have hname : Stops isAttributeNameChar
      (['='] ++ '"' :: (escapeAttribute a.value.toList ++ '"' :: rest)) := stops_of_head rfl _
  have hequals : Stops isBlank (['='] ++ '"' :: (escapeAttribute a.value.toList ++ '"' :: rest)) :=
    stops_of_head rfl _
  have hquote : Stops isBlank ('"' :: (escapeAttribute a.value.toList ++ '"' :: rest)) :=
    stops_of_head rfl _
  obtain ⟨next, hvalue⟩ := attributeValue?_escapeAttribute a.value.toList rest
    (offset + utf8Length a.name.toList + utf8Length ['='])
  refine ⟨next, ?_⟩
  rw [readAttribute, word?_append ha.1 ha.2 hname]
  simp only [skipBlanks_of_stops hequals, eat?_append, skipBlanks_of_stops hquote, hvalue,
    decodeEntities_escapeAttribute, String.ofList_toList]

private theorem stops_of_isAttributeName {name : String} (h : IsAttributeName name)
    (rest : List Char) : Stops isBlank (name.toList ++ rest) := by
  obtain ⟨hne, hchars⟩ := h
  obtain ⟨c, text, htext⟩ := List.exists_cons_of_ne_nil hne
  rw [htext]
  apply stops_of_head
  have hc := hchars c (by simp [htext])
  simp only [isAttributeNameChar, Bool.and_eq_true, Bool.not_eq_true'] at hc
  exact hc.1

private theorem not_prefix_of_isAttributeName {name : String} (h : IsAttributeName name)
    {c : Char} (hc : isAttributeNameChar c = false) (mark rest : List Char) :
    ¬ c :: mark <+: name.toList ++ rest := by
  obtain ⟨hne, hchars⟩ := h
  obtain ⟨d, text, htext⟩ := List.exists_cons_of_ne_nil hne
  intro hbegins
  rw [htext, List.cons_append, List.cons_prefix_cons] at hbegins
  rw [hbegins.1, hchars d (by simp [htext])] at hc
  cases hc

private theorem attributeList_attributeMarkup {attributes : List Attribute}
    (h : ∀ a ∈ attributes, IsAttributeName a.name) (rest : List Char) (offset : Nat) :
    ∃ next, attributeList ⟨offset, attributes.flatMap attributeMarkup ++ (['>'] ++ rest)⟩ =
      (attributes, .ok (false, ⟨next, rest⟩)) := by
  induction attributes generalizing offset with
  | nil =>
    have hblank : Stops isBlank (['>'] ++ rest) := stops_of_head rfl rest
    have hself : ¬ ['/', '>'] <+: ['>'] ++ rest := by simp
    rw [List.flatMap_nil, List.nil_append, attributeList, skipBlanks_of_stops hblank,
      eat?_eq_none hself, eat?_append]
    exact ⟨_, rfl⟩
  | cons a attributes ih =>
    obtain ⟨ha, hattributes⟩ := List.forall_mem_cons.mp h
    have hshape : (a :: attributes).flatMap attributeMarkup ++ (['>'] ++ rest) =
        [' '] ++ (a.name.toList ++ (['='] ++ '"' :: (escapeAttribute a.value.toList ++ '"' ::
          (attributes.flatMap attributeMarkup ++ (['>'] ++ rest))))) := by
      simp [attributeMarkup]
    have hblank : ∀ c ∈ [' '], isBlank c = true := by simp [isBlank, blankRanges]
    have hskip := skipWhile_append hblank (stops_of_isAttributeName ha (['='] ++ '"' ::
      (escapeAttribute a.value.toList ++ '"' ::
        (attributes.flatMap attributeMarkup ++ (['>'] ++ rest))))) offset
    obtain ⟨next, hread⟩ := readAttribute_attributeMarkup ha
      (attributes.flatMap attributeMarkup ++ (['>'] ++ rest)) (offset + utf8Length [' '])
    obtain ⟨last, hrest⟩ := ih hattributes next
    refine ⟨last, ?_⟩
    rw [hshape, attributeList, skipBlanks, hskip,
      eat?_eq_none (not_prefix_of_isAttributeName ha rfl _ _),
      eat?_eq_none (not_prefix_of_isAttributeName ha rfl _ _)]
    simp only
    split
    · rename_i e he
      rw [hread] at he
      cases he
    · rename_i b after hb
      obtain ⟨rfl, rfl⟩ := Prod.mk.inj (Except.ok.inj (hread.symm.trans hb))
      simp only [hrest]

private theorem not_prefix_of_isName {name : String} (h : isName name.toList = true) {c : Char}
    (hc : isNameChar c = false) (mark rest : List Char) : ¬ c :: mark <+: name.toList ++ rest := by
  obtain ⟨hne, hchars⟩ := (isName_iff _).mp h
  obtain ⟨d, text, htext⟩ := List.exists_cons_of_ne_nil hne
  intro hbegins
  rw [htext, List.cons_append, List.cons_prefix_cons] at hbegins
  rw [hbegins.1, hchars d (by simp [htext])] at hc
  cases hc

private theorem stops_flatMap_attributeMarkup (attributes : List Attribute) (rest : List Char) :
    Stops isNameChar (attributes.flatMap attributeMarkup ++ (['>'] ++ rest)) := by
  cases attributes with
  | nil => exact stops_of_head rfl _
  | cons a attributes =>
    simp only [List.flatMap_cons, attributeMarkup, List.cons_append]
    exact stops_of_head rfl _

theorem scan_openingMarkup {tag : String} (htag : isName tag.toList = true)
    (hlower : lowercase tag = tag) {attributes : List Attribute}
    (hattributes : ∀ a ∈ attributes, IsAttributeName a.name) (rest : List Char) (offset : Nat) :
    ∃ next, scan ⟨offset, openingMarkup tag attributes ++ rest⟩ =
      .token (.opening tag attributes false) ⟨next, rest⟩ := by
  have hshape : openingMarkup tag attributes ++ rest =
      ['<'] ++ (tag.toList ++ (attributes.flatMap attributeMarkup ++ (['>'] ++ rest))) := by
    simp [openingMarkup]
  have hcomment : ¬ ['<', '!', '-', '-'] <+:
      ['<'] ++ (tag.toList ++ (attributes.flatMap attributeMarkup ++ (['>'] ++ rest))) := by
    rw [List.singleton_append, List.cons_prefix_cons, not_and]
    exact fun _ => not_prefix_of_isName htag rfl _ _
  have hclosing : ¬ ['<', '/'] <+:
      ['<'] ++ (tag.toList ++ (attributes.flatMap attributeMarkup ++ (['>'] ++ rest))) := by
    rw [List.singleton_append, List.cons_prefix_cons, not_and]
    exact fun _ => not_prefix_of_isName htag rfl _ _
  obtain ⟨next, hlist⟩ := attributeList_attributeMarkup hattributes rest
    (offset + utf8Length ['<'] + utf8Length tag.toList)
  refine ⟨next, ?_⟩
  rw [hshape, scan, eat?_eq_none hcomment, eat?_eq_none hclosing, eat?_append]
  simp only [scanOpening, tagName?_append htag hlower (stops_flatMap_attributeMarkup attributes rest),
    hlist]

end Markup
end ViewBinding
