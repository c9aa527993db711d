import Mathlib
import ViewBinding.Proofs.Markup.Extension

/-!
# Moving ahead

Reading takes characters from the front of what is left and counts their bytes (`Cursor.Takes`), and
does nothing else. So every position that it gets to is the boundary of a character of the markup
(`Cursor.Within.isValid`), and where less is left the offset has grown (`Cursor.Ahead.offset_lt`).
-/

namespace ViewBinding.Markup

open Text

namespace Cursor

variable {c next last : Cursor}

/-- From one position to another these characters are taken. -/
structure Takes (c : Cursor) (taken : List Char) (next : Cursor) : Prop where
  rest_eq : c.rest = taken ++ next.rest
  offset_eq : next.offset = c.offset + utf8Length taken

theorem Takes.trans {a b : List Char} (h : c.Takes a next) (hnext : next.Takes b last) :
    c.Takes (a ++ b) last where
  rest_eq := by rw [h.rest_eq, hnext.rest_eq, List.append_assoc]
  offset_eq := by rw [hnext.offset_eq, h.offset_eq, utf8Length_append, Nat.add_assoc]

theorem takes_skipWhile (p : Char → Bool) (c : Cursor) :
    c.Takes (c.rest.takeWhile p) (c.skipWhile p) :=
  ⟨List.takeWhile_append_dropWhile.symm, rfl⟩

theorem takes_of_eat? {literal : List Char} (h : c.eat? literal = some next) :
    c.Takes literal next := by
  obtain ⟨rest, hrest, rfl⟩ := Option.map_eq_some_iff.mp h
  exact ⟨dropStart?_eq_some.mp hrest, rfl⟩

theorem takes_of_upTo? {literal text : List Char} (h : c.upTo? literal = some (text, next)) :
    c.Takes (text ++ literal) next := by
  obtain ⟨⟨before, after⟩, hsplit, heq⟩ := Option.map_eq_some_iff.mp h
  obtain ⟨rfl, rfl⟩ := Prod.mk.inj heq
  exact ⟨splitAtFirst_eq_some hsplit, by rw [utf8Length_append, Nat.add_assoc]⟩

theorem takes_of_word? {p : Char → Bool} {word : List Char} (h : c.word? p = some (word, next)) :
    c.Takes word next := by
  obtain ⟨rfl, -, rfl⟩ := word?_eq_some_iff.mp h
  exact takes_skipWhile p c

/-- A position is ahead of another one when reading on gets to it. -/
def Ahead (c next : Cursor) : Prop := ∃ taken, c.Takes taken next

theorem Takes.ahead {taken : List Char} (h : c.Takes taken next) : c.Ahead next := ⟨taken, h⟩

theorem Ahead.refl (c : Cursor) : c.Ahead c := ⟨[], rfl, rfl⟩

theorem Ahead.trans (h : c.Ahead next) (hnext : next.Ahead last) : c.Ahead last := by
  obtain ⟨a, ha⟩ := h
  obtain ⟨b, hb⟩ := hnext
  exact ⟨a ++ b, ha.trans hb⟩

/-- Every character has bytes, so the offset grows when a character is taken. -/
theorem Ahead.offset_lt (h : c.Ahead next) (hless : next.rest.length < c.rest.length) :
    c.offset < next.offset := by
  obtain ⟨taken, hrest, hoffset⟩ := h
  cases taken with
  | nil =>
    rw [hrest] at hless
    exact absurd hless (Nat.lt_irrefl _)
  | cons d taken =>
    have hpos := d.utf8Size_pos
    rw [hoffset, utf8Length_cons]
    omega

theorem ahead_skipBlanks (c : Cursor) : c.Ahead c.skipBlanks := (takes_skipWhile isBlank c).ahead

theorem ahead_of_skipBlanks_eat? {literal : List Char} (h : c.skipBlanks.eat? literal = some next) :
    c.Ahead next :=
  (ahead_skipBlanks c).trans (takes_of_eat? h).ahead

theorem length_lt_of_skipBlanks_eat? {literal : List Char} (hliteral : literal ≠ [])
    (h : c.skipBlanks.eat? literal = some next) : next.rest.length < c.rest.length := by
  have hlength := eat?_length h
  have hpos := List.length_pos_iff.mpr hliteral
  have hblanks := skipBlanks_length c
  omega

/-! ## Positions of a markup -/

/-- A position that reading a markup from its start can get to. -/
def Within (markup : String) (c : Cursor) : Prop := (start markup.toList).Ahead c

variable {markup : String}

theorem within_start (markup : String) : (start markup.toList).Within markup := Ahead.refl _

theorem Within.ahead (h : c.Within markup) (hnext : c.Ahead next) : next.Within markup :=
  Ahead.trans h hnext

theorem within_iff : c.Within markup ↔
    ∃ before, markup.toList = before ++ c.rest ∧ c.offset = utf8Length before := by
  constructor
  · rintro ⟨before, hrest, hoffset⟩
    exact ⟨before, hrest, by simpa [start] using hoffset⟩
  · rintro ⟨before, hrest, hoffset⟩
    exact ⟨before, hrest, by simpa [start] using hoffset⟩

theorem Within.isValid (h : c.Within markup) : String.Pos.Raw.IsValid markup ⟨c.offset⟩ := by
  obtain ⟨before, hrest, hoffset⟩ := within_iff.mp h
  exact isValid_iff.mpr ⟨before, c.rest, hrest, hoffset⟩

theorem exists_within {pos : Nat} (h : String.Pos.Raw.IsValid markup ⟨pos⟩) :
    ∃ c : Cursor, c.Within markup ∧ c.offset = pos := by
  obtain ⟨before, after, htext, rfl⟩ := isValid_iff.mp h
  exact ⟨⟨utf8Length before, after⟩, within_iff.mpr ⟨before, htext, rfl⟩, rfl⟩

/-- What is left of a markup are the bytes behind the offset. -/
theorem Within.offset_add (h : c.Within markup) :
    c.offset + utf8Length c.rest = markup.utf8ByteSize := by
  obtain ⟨before, hrest, hoffset⟩ := within_iff.mp h
  rw [hoffset, ← utf8Length_append, ← hrest, utf8Length_toList]

theorem Within.offset_le (h : c.Within markup) : c.offset ≤ markup.utf8ByteSize :=
  h.offset_add ▸ Nat.le_add_right _ _

theorem Within.length_le (h : c.Within markup) : c.rest.length ≤ markup.utf8ByteSize := by
  rw [← h.offset_add]
  exact Nat.le_add_left_of_le (length_le_utf8Length c.rest)

theorem Within.size_le_offset_iff (h : c.Within markup) :
    markup.utf8ByteSize ≤ c.offset ↔ c.rest = [] := by
  rw [← h.offset_add]
  cases c.rest with
  | nil => simp
  | cons d rest =>
    have hpos := d.utf8Size_pos
    simp only [utf8Length_cons, reduceCtorEq, iff_false]
    omega

end Cursor

/-! ## Readers -/

open Cursor

variable {c next : Cursor}

theorem ahead_tagName? {tag : String} (h : tagName? c = some (tag, next)) : c.Ahead next := by
  obtain ⟨⟨name, after⟩, hword, heq⟩ := Option.map_eq_some_iff.mp h
  obtain ⟨-, rfl⟩ := Prod.mk.inj heq
  exact (takes_of_word? hword).ahead

private theorem ahead_attributeValue? {value : List Char}
    (h : attributeValue? c = some (value, next)) : c.Ahead next := by
  unfold attributeValue? at h
  split at h
  · cases h
  · rename_i quote rest hrest
    split at h
    · have hquote : c.Takes [quote] ⟨c.offset + quote.utf8Size, rest⟩ := ⟨hrest, rfl⟩
      exact (hquote.trans (takes_of_upTo? h)).ahead
    · obtain ⟨-, rfl⟩ := Prod.mk.inj (Option.some.inj h)
      exact (takes_skipWhile _ c).ahead

theorem ahead_readAttribute {a : Attribute} (h : readAttribute c = .ok (a, next)) :
    c.Ahead next := by
  unfold readAttribute at h
  split at h
  · cases h
  rename_i name named hword
  have hnamed : c.Ahead named.skipBlanks := (takes_of_word? hword).ahead.trans (ahead_skipBlanks named)
  split at h
  · obtain ⟨-, rfl⟩ := Prod.mk.inj (Except.ok.inj h)
    exact hnamed
  · rename_i equals hequals
    split at h
    · cases h
    · rename_i value after hvalue
      obtain ⟨-, rfl⟩ := Prod.mk.inj (Except.ok.inj h)
      exact hnamed.trans ((takes_of_eat? hequals).ahead.trans
        ((ahead_skipBlanks equals).trans (ahead_attributeValue? hvalue)))

private theorem ahead_attributeList {attributes : List Attribute} {selfClosing : Bool}
    (h : attributeList c = (attributes, .ok (selfClosing, next))) : c.Ahead next := by
  fun_induction attributeList c generalizing attributes with
  | case1 c after hend | case2 c _ after hend =>
    obtain ⟨-, rfl⟩ := Prod.mk.inj (Except.ok.inj (Prod.mk.inj h).2)
    exact ahead_of_skipBlanks_eat? hend
  | case3 => cases (Prod.mk.inj h).2
  | case4 c _ _ a after hattribute rest result hrec ih =>
    obtain ⟨-, rfl⟩ := Prod.mk.inj h
    exact (ahead_skipBlanks c).trans ((ahead_readAttribute hattribute).trans (ih hrec))

private theorem ahead_scanComment {t : Token} (h : scanComment c = .token t next) :
    c.Ahead next := by
  unfold scanComment at h
  split at h
  · rename_i data after hdata
    obtain ⟨-, rfl⟩ := Scan.token.inj h
    exact (takes_of_upTo? hdata).ahead
  · cases h

private theorem ahead_scanClosing {t : Token} (h : scanClosing c = .token t next) :
    c.Ahead next := by
  unfold scanClosing at h
  split at h
  · cases h
  · rename_i tag named hname
    split at h
    · cases h
    · rename_i after hend
      obtain ⟨-, rfl⟩ := Scan.token.inj h
      exact (ahead_tagName? hname).trans (ahead_of_skipBlanks_eat? hend)

private theorem ahead_scanOpening {t : Token} (h : scanOpening c = .token t next) :
    c.Ahead next := by
  unfold scanOpening at h
  split at h
  · cases h
  · rename_i tag named hname
    split at h
    · rename_i attributes selfClosing after hattributes
      obtain ⟨-, rfl⟩ := Scan.token.inj h
      exact (ahead_tagName? hname).trans (ahead_attributeList hattributes)
    · cases h

theorem ahead_scan {t : Token} (h : scan c = .token t next) : c.Ahead next := by
  unfold scan at h
  split at h
  · rename_i after heat
    exact (takes_of_eat? heat).ahead.trans (ahead_scanComment h)
  split at h
  · rename_i after heat
    exact (takes_of_eat? heat).ahead.trans (ahead_scanClosing h)
  split at h
  · rename_i after heat
    exact (takes_of_eat? heat).ahead.trans (ahead_scanOpening h)
  · obtain ⟨-, rfl⟩ := Scan.token.inj h
    exact (takes_skipWhile _ c).ahead

theorem Reads.ahead {ts : List Token} {last : Cursor} (h : Reads c ts last) : c.Ahead last := by
  induction h with
  | refl c => exact Ahead.refl c
  | step _ hscan _ ih => exact (ahead_scan hscan).trans ih

end ViewBinding.Markup
