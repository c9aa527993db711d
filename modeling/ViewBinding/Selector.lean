import ViewBinding.Text.Blank
import ViewBinding.Text.Quoted
import ViewBinding.Text.Search

/-!
# Selectors

Compound selectors: an optional tag name followed by ids and classes, at most one id. There are no
combinators, so a selector looks at one element alone.
-/

namespace ViewBinding

/-- What an element must have to match. -/
structure Selector where
  /-- The tag name in small letters. -/
  tag : Option String := none
  id : Option String := none
  classes : List String := []
deriving DecidableEq, Repr

namespace Selector

/-- A mark that begins a piece of a selector. -/
def isMark (c : Char) : Bool := c == '#' || c == '.'

/-- Cuts a selector before each mark: the text before the first one, then each mark with the text
that follows it. -/
def pieces : List Char → List Char × List (Char × List Char)
  | [] => ([], [])
  | c :: rest =>
    let (run, marked) := pieces rest
    if isMark c then ([], (c, run) :: marked) else (c :: run, marked)

/-- Adds a marked name to a selector, unless it is no name or a second id. -/
def addPiece? (selector : Selector) : Char × List Char → Option Selector
  | (mark, name) =>
    if !Text.isName name then none
    else if mark = '#' then
      if selector.id.isNone then some { selector with id := some (String.ofList name) } else none
    else some { selector with classes := selector.classes ++ [String.ofList name] }

def parse? (text : String) : Option Selector :=
  let input := Text.trimChars text.toList
  if input.isEmpty then none
  else
    let (tag, marked) := pieces input
    if tag.isEmpty then marked.foldlM addPiece? {}
    else if Text.isName tag then
      marked.foldlM addPiece? { tag := some (Text.lowercase (String.ofList tag)) }
    else none

/-- ASCII blanks, which separate the words of a class attribute. -/
def isClassSeparator (c : Char) : Bool :=
  c == ' ' || c == '\t' || c == '\n' || c == '\x0c' || c == '\r'

def classWords (classes : Option String) : List String :=
  match classes with
  | some text => (Text.wordsBy isClassSeparator text.toList).map String.ofList
  | none => []

/-- Whether an element with a tag, an id and a class attribute is selected. -/
def accepts (selector : Selector) (tag : String) (id classAttribute : Option String) : Bool :=
  (selector.tag.all fun wanted => Text.lowercase wanted == Text.lowercase tag)
    && (selector.id.isNone || selector.id == id)
    && selector.classes.all (classWords classAttribute).contains

/-- An optional name as it is described. -/
def describeOption : Option String → String
  | some name => "Some(" ++ Text.quoted name ++ ")"
  | none => "None"

def describe (selector : Selector) : String :=
  "Selector \x7b tag: " ++ describeOption selector.tag ++ ", id: " ++ describeOption selector.id
    ++ ", classes: [" ++ ", ".intercalate (selector.classes.map Text.quoted) ++ "] \x7d"

end Selector
end ViewBinding
