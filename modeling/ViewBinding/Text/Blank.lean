/-!
# Blank characters

The Unicode property White_Space as a table of ranges, and trimming by it. Keys, selectors and
directive values are all trimmed by this one rule.
-/

namespace ViewBinding.Text

/-- The code points with the property White_Space, as inclusive ranges in increasing order. -/
def blankRanges : List (Nat × Nat) :=
  [(0x9, 0xd), (0x20, 0x20), (0x85, 0x85), (0xa0, 0xa0), (0x1680, 0x1680), (0x2000, 0x200a),
    (0x2028, 0x2029), (0x202f, 0x202f), (0x205f, 0x205f), (0x3000, 0x3000)]

/-- Whether a character has the property White_Space. -/
def isBlank (c : Char) : Bool :=
  blankRanges.any fun (low, high) => low ≤ c.toNat && c.toNat ≤ high

def trimStart (text : List Char) : List Char :=
  text.dropWhile isBlank

def trimEnd (text : List Char) : List Char :=
  (text.reverse.dropWhile isBlank).reverse

def trimChars (text : List Char) : List Char :=
  trimEnd (trimStart text)

def trim (text : String) : String :=
  String.ofList (trimChars text.toList)

/-- The table holds 25 code points. -/
example : (blankRanges.map fun (low, high) => high + 1 - low).sum = 25 := rfl

end ViewBinding.Text
