import ViewBinding.Text.Search

/-!
# Entities

The five basic entities. Reading replaces one after the other in the whole text, that of the ampersand
as the last; writing escapes what a reader would take for markup.
-/

namespace ViewBinding.Markup

/-- A way of writing a character by its name. -/
structure Entity where
  /-- What stands behind the ampersand, with the semicolon. -/
  name : List Char
  char : Char
deriving DecidableEq, Repr

/-- The entities in the order in which they are replaced. -/
def entities : List Entity :=
  [⟨"lt;".toList, '<'⟩, ⟨"gt;".toList, '>'⟩, ⟨"quot;".toList, '"'⟩, ⟨"#39;".toList, '\''⟩,
    ⟨"amp;".toList, '&'⟩]

/-- Replaces an entity by its character wherever it stands. -/
def Entity.replace (entity : Entity) (text : List Char) : List Char :=
  Text.replaceAll '&' entity.name [entity.char] text

/-- Replaces the entities of a text by their characters. -/
def decodeEntities (text : List Char) : List Char :=
  if text.contains '&' then entities.foldl (fun text entity => entity.replace text) text else text

/-- A character of a text, escaped. -/
def escapeTextChar : Char → List Char
  | '&' => "&amp;".toList
  | '<' => "&lt;".toList
  | '>' => "&gt;".toList
  | c => [c]

/-- A character of an attribute value in double quotes, escaped. -/
def escapeAttributeChar : Char → List Char
  | '&' => "&amp;".toList
  | '"' => "&quot;".toList
  | c => [c]

def escapeText (text : List Char) : List Char := text.flatMap escapeTextChar

def escapeAttribute (text : List Char) : List Char := text.flatMap escapeAttributeChar

end ViewBinding.Markup
