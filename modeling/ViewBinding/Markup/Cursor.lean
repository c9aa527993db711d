import ViewBinding.Text.Blank
import ViewBinding.Text.Search

/-!
# Reading position

What is left of a text, with the byte offset at which it begins. Every step drops a part of the text
and moves the offset by the bytes of that part.
-/

namespace ViewBinding.Markup

/-- The rest of a text and its offset. -/
structure Cursor where
  offset : Nat
  rest : List Char
deriving DecidableEq, Repr

namespace Cursor

def start (text : List Char) : Cursor := ⟨0, text⟩

/-- The position behind the characters that satisfy a test. -/
def skipWhile (p : Char → Bool) (c : Cursor) : Cursor :=
  ⟨c.offset + Text.utf8Length (c.rest.takeWhile p), c.rest.dropWhile p⟩

def skipBlanks (c : Cursor) : Cursor := c.skipWhile Text.isBlank

/-- The position behind a literal, when the rest begins with it. -/
def eat? (literal : List Char) (c : Cursor) : Option Cursor :=
  (Text.dropStart? literal c.rest).map fun rest => ⟨c.offset + Text.utf8Length literal, rest⟩

/-- The text up to a literal, and the position behind the literal. -/
def upTo? (literal : List Char) (c : Cursor) : Option (List Char × Cursor) :=
  (Text.splitAtFirst literal c.rest).map fun (before, after) =>
    (before, ⟨c.offset + Text.utf8Length before + Text.utf8Length literal, after⟩)

/-- The characters that satisfy a test, when there is one, and the position behind them. -/
def word? (p : Char → Bool) (c : Cursor) : Option (List Char × Cursor) :=
  let word := c.rest.takeWhile p
  if word.isEmpty then none else some (word, c.skipWhile p)

theorem length_dropWhile_le (p : Char → Bool) (text : List Char) :
    (text.dropWhile p).length ≤ text.length :=
  (List.dropWhile_sublist p).length_le

theorem skipWhile_length (p : Char → Bool) (c : Cursor) :
    (c.skipWhile p).rest.length ≤ c.rest.length :=
  length_dropWhile_le p c.rest

theorem skipBlanks_length (c : Cursor) : c.skipBlanks.rest.length ≤ c.rest.length :=
  skipWhile_length Text.isBlank c

theorem eat?_length {literal : List Char} {c next : Cursor} (h : c.eat? literal = some next) :
    next.rest.length + literal.length = c.rest.length := by
  obtain ⟨rest, hrest, rfl⟩ := Option.map_eq_some_iff.1 h
  exact Text.dropStart?_length hrest

theorem upTo?_length {literal text : List Char} {c next : Cursor}
    (h : c.upTo? literal = some (text, next)) : next.rest.length ≤ c.rest.length := by
  obtain ⟨⟨before, after⟩, hsplit, heq⟩ := Option.map_eq_some_iff.1 h
  simp only [Prod.mk.injEq] at heq
  obtain ⟨_, rfl⟩ := heq
  rw [Text.splitAtFirst_eq_some hsplit]
  simp only [List.length_append]
  omega

theorem word?_length {p : Char → Bool} {c next : Cursor} {word : List Char}
    (h : c.word? p = some (word, next)) : next.rest.length < c.rest.length := by
  simp only [word?] at h
  split at h
  · simp at h
  · rename_i hword
    simp only [Option.some.injEq, Prod.mk.injEq] at h
    obtain ⟨_, rfl⟩ := h
    have hsplit := congrArg List.length (List.takeWhile_append_dropWhile (p := p) (l := c.rest))
    have hpos : 0 < (c.rest.takeWhile p).length := by
      rw [List.length_pos_iff]
      simpa using hword
    simp only [List.length_append] at hsplit
    change (c.rest.dropWhile p).length < c.rest.length
    omega

end Cursor
end ViewBinding.Markup
