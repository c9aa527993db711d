import ViewBinding.Text.Blank
import ViewBinding.Text.Search

/-!
# Interpolation templates

A text with one marked span, such as the name in a greeting. The span begins at the leftmost opening
delimiter and ends at the first closing delimiter after it; the key is what stands between them,
trimmed. A text whose first span has a blank key is no template, whatever follows it.
-/

namespace ViewBinding

/-- The marks around the key of a template. -/
structure Delimiters where
  opening : String
  closing : String
deriving DecidableEq, Repr

def Delimiters.standard : Delimiters := ⟨"\x7b\x7b", "\x7d\x7d"⟩

/-- A text cut around its marked span. -/
structure Template where
  leading : String
  /-- The span with its delimiters. -/
  span : String
  /-- The trimmed text between the delimiters. -/
  key : String
  trailing : String
deriving DecidableEq, Repr

namespace Template

/-- Reads a text as a template with given delimiters. -/
def parse? (marks : Delimiters) (text : String) : Option Template := do
  let opening := marks.opening.toList
  let closing := marks.closing.toList
  guard (!opening.isEmpty && !closing.isEmpty)
  let (before, rest) ← Text.splitAtFirst opening text.toList
  let (inner, after) ← Text.splitAtFirst closing rest
  let key := Text.trimChars inner
  guard (!key.isEmpty)
  return {
    leading := String.ofList before
    span := String.ofList (opening ++ inner ++ closing)
    key := String.ofList key
    trailing := String.ofList after }

/-- The text that the template was read from. -/
def source (t : Template) : String := t.leading ++ t.span ++ t.trailing

def spanStart (t : Template) : Nat := Text.utf8Length t.leading.toList

def spanEnd (t : Template) : Nat := t.spanStart + Text.utf8Length t.span.toList

/-- Puts a text in the place of the span; the text itself is not read again. -/
def render (t : Template) (value : String) : String := t.leading ++ value ++ t.trailing

end Template
end ViewBinding
