/-!
# Errors in markup

Offsets count bytes of UTF-8 from the start of the markup.
-/

namespace ViewBinding

inductive MarkupError where
  /-- The markup ends inside a tag or a comment. -/
  | unexpectedEnd (offset : Nat)
  /-- Something that is no tag stands behind `<`. -/
  | invalidTag (offset : Nat)
  /-- A closing tag that does not belong to the innermost open element, if there is one. -/
  | mismatchedClose (expected : Option String) (found : String) (offset : Nat)
  | unclosed (tag : String)
deriving DecidableEq, Repr

def MarkupError.message : MarkupError → String
  | unexpectedEnd offset => "unexpected end of input at " ++ toString offset
  | invalidTag offset => "invalid tag at " ++ toString offset
  | mismatchedClose (some expected) found offset =>
    "expected </" ++ expected ++ ">, found </" ++ found ++ "> at " ++ toString offset
  | mismatchedClose none found offset =>
    "unexpected </" ++ found ++ "> at " ++ toString offset
  | unclosed tag => "unclosed <" ++ tag ++ ">"

end ViewBinding
