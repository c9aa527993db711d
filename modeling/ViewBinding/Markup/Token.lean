import ViewBinding.Document.Node
import ViewBinding.Markup.Cursor
import ViewBinding.Markup.Entity
import ViewBinding.Markup.Error

/-!
# Tokens

Markup is a sequence of comments, tags and runs of text. `tokens` reads all of it, up to the first
place where there is no token; whether the tags are balanced is not asked here.
-/

namespace ViewBinding.Markup

/-- A unit of markup. Entities are decoded and tags are in small letters. -/
inductive Token where
  | comment (data : String)
  /-- A closing tag, with the offset of its name. -/
  | closing (tag : String) (offset : Nat)
  | opening (tag : String) (attributes : List Attribute) (selfClosing : Bool)
  | text (data : String)
deriving DecidableEq, Repr

/-- Where reading failed. A tag that fails among its attributes has already named an element. -/
structure Fault where
  error : MarkupError
  element : Option (String × List Attribute) := none
deriving DecidableEq, Repr

def isAttributeNameChar (c : Char) : Bool :=
  !Text.isBlank c && !(['=', '>', '/', '"', '\'', '<'].contains c)

/-- The characters of an attribute value without quotes. -/
def isBareValueChar (c : Char) : Bool := !Text.isBlank c && c != '>'

/-- Reads a name of a tag, into small letters. -/
def tagName? (c : Cursor) : Option (String × Cursor) :=
  (c.word? Text.isNameChar).map fun (name, next) => (Text.lowercase (String.ofList name), next)

/-- Reads an attribute value: up to the second of two equal quotes, or bare and then perhaps
empty. There is none at the end of the markup. -/
def attributeValue? (c : Cursor) : Option (List Char × Cursor) :=
  match c.rest with
  | [] => none
  | quote :: rest =>
    if quote = '"' ∨ quote = '\'' then
      Cursor.upTo? [quote] ⟨c.offset + quote.utf8Size, rest⟩
    else some (c.rest.takeWhile isBareValueChar, c.skipWhile isBareValueChar)

/-- Reads one attribute: a name, and a value when an equals sign follows. -/
def readAttribute (c : Cursor) : Except MarkupError (Attribute × Cursor) :=
  match c.word? isAttributeNameChar with
  | none => .error (if c.rest.isEmpty then .unexpectedEnd c.offset else .invalidTag c.offset)
  | some (name, named) =>
    match named.skipBlanks.eat? ['='] with
    | none => .ok (⟨String.ofList name, ""⟩, named.skipBlanks)
    | some equals =>
      match attributeValue? equals.skipBlanks with
      | none => .error (.unexpectedEnd c.offset)
      | some (value, next) =>
        .ok (⟨String.ofList name, String.ofList (decodeEntities value)⟩, next)

theorem attributeValue?_length {c next : Cursor} {value : List Char}
    (h : attributeValue? c = some (value, next)) : next.rest.length ≤ c.rest.length := by
  unfold attributeValue? at h
  split at h
  · simp at h
  · rename_i quote rest hrest
    split at h
    · have hlength := Cursor.upTo?_length h
      simp only [hrest, List.length_cons] at hlength ⊢
      omega
    · simp only [Option.some.injEq, Prod.mk.injEq] at h
      obtain ⟨_, rfl⟩ := h
      exact Cursor.skipWhile_length _ c

theorem readAttribute_length {c next : Cursor} {a : Attribute} (h : readAttribute c = .ok (a, next)) :
    next.rest.length < c.rest.length := by
  unfold readAttribute at h
  split at h
  · simp at h
  · rename_i name named hword
    have hname := Cursor.word?_length hword
    have hblank := Cursor.skipBlanks_length named
    split at h
    · simp only [Except.ok.injEq, Prod.mk.injEq] at h
      obtain ⟨_, rfl⟩ := h
      omega
    · rename_i equals hequals
      have heq := Cursor.eat?_length hequals
      have hblanks := Cursor.skipBlanks_length equals
      split at h
      · simp at h
      · rename_i value after hvalue
        simp only [Except.ok.injEq, Prod.mk.injEq] at h
        obtain ⟨_, rfl⟩ := h
        have hval := attributeValue?_length hvalue
        omega

/-- Reads attributes up to the end of a tag: those that could be read, and then whether the tag
closes itself and the position behind it. -/
def attributeList (c : Cursor) : List Attribute × Except MarkupError (Bool × Cursor) :=
  match c.skipBlanks.eat? ['/', '>'] with
  | some next => ([], .ok (true, next))
  | none =>
    match c.skipBlanks.eat? ['>'] with
    | some next => ([], .ok (false, next))
    | none =>
      match _h : readAttribute c.skipBlanks with
      | .error e => ([], .error e)
      | .ok (a, next) =>
        let (rest, result) := attributeList next
        (a :: rest, result)
termination_by c.rest.length
decreasing_by
  have hattribute := readAttribute_length _h
  have hblanks := Cursor.skipBlanks_length c
  omega

/-- What stands at a position: a token with the position behind it, or a fault. -/
inductive Scan where
  | token (token : Token) (next : Cursor)
  | fault (fault : Fault)
deriving DecidableEq, Repr

def scanComment (c : Cursor) : Scan :=
  match c.upTo? ['-', '-', '>'] with
  | some (data, next) => .token (.comment (String.ofList data)) next
  | none => .fault { error := .unexpectedEnd c.offset }

def scanClosing (c : Cursor) : Scan :=
  match tagName? c with
  | none => .fault { error := .invalidTag c.offset }
  | some (tag, named) =>
    match named.skipBlanks.eat? ['>'] with
    | none => .fault { error := .invalidTag c.offset }
    | some next => .token (.closing tag c.offset) next

/-- Reads an opening tag behind its `<`. -/
def scanOpening (c : Cursor) : Scan :=
  match tagName? c with
  | none => .fault { error := .invalidTag c.offset }
  | some (tag, named) =>
    match attributeList named with
    | (attributes, .ok (selfClosing, next)) => .token (.opening tag attributes selfClosing) next
    | (attributes, .error error) => .fault { error, element := some (tag, attributes) }

def scanText (c : Cursor) : Scan :=
  .token (.text (String.ofList (decodeEntities (c.rest.takeWhile (· != '<')))))
    (c.skipWhile (· != '<'))

def scan (c : Cursor) : Scan :=
  match c.eat? ['<', '!', '-', '-'] with
  | some next => scanComment next
  | none =>
    match c.eat? ['<', '/'] with
    | some next => scanClosing next
    | none =>
      match c.eat? ['<'] with
      | some next => scanOpening next
      | none => scanText c

theorem tagName?_length {c next : Cursor} {tag : String} (h : tagName? c = some (tag, next)) :
    next.rest.length < c.rest.length := by
  obtain ⟨⟨name, after⟩, hword, heq⟩ := Option.map_eq_some_iff.1 h
  simp only [Prod.mk.injEq] at heq
  obtain ⟨_, rfl⟩ := heq
  exact Cursor.word?_length hword

theorem attributeList_length {c next : Cursor} {attributes : List Attribute} {selfClosing : Bool}
    (h : attributeList c = (attributes, .ok (selfClosing, next))) :
    next.rest.length < c.rest.length := by
  fun_induction attributeList c generalizing attributes with
  | case1 c after heat =>
    simp only [Prod.mk.injEq, Except.ok.injEq] at h
    obtain ⟨_, _, rfl⟩ := h
    have hlength := Cursor.eat?_length heat
    have hblanks := Cursor.skipBlanks_length c
    simp only [List.length_cons, List.length_nil] at hlength
    omega
  | case2 c _ after heat =>
    simp only [Prod.mk.injEq, Except.ok.injEq] at h
    obtain ⟨_, _, rfl⟩ := h
    have hlength := Cursor.eat?_length heat
    have hblanks := Cursor.skipBlanks_length c
    simp only [List.length_cons, List.length_nil] at hlength
    omega
  | case3 => simp at h
  | case4 c _ _ a after hattribute rest result hrec ih =>
    simp only [Prod.mk.injEq] at h
    obtain ⟨_, rfl⟩ := h
    have hrest := ih hrec
    have hstep := readAttribute_length hattribute
    have hblanks := Cursor.skipBlanks_length c
    omega

theorem scan_length {c next : Cursor} {t : Token} (h : scan c = .token t next)
    (hne : c.rest ≠ []) : next.rest.length < c.rest.length := by
  unfold scan at h
  split at h
  · rename_i after heat
    have hlength := Cursor.eat?_length heat
    simp only [List.length_cons, List.length_nil] at hlength
    unfold scanComment at h
    split at h
    · rename_i data rest hdata
      simp only [Scan.token.injEq] at h
      obtain ⟨_, rfl⟩ := h
      have hrest := Cursor.upTo?_length hdata
      omega
    · simp at h
  · split at h
    · rename_i after heat
      have hlength := Cursor.eat?_length heat
      simp only [List.length_cons, List.length_nil] at hlength
      unfold scanClosing at h
      split at h
      · simp at h
      · rename_i tag named hname
        have hnamed := tagName?_length hname
        have hblanks := Cursor.skipBlanks_length named
        split at h
        · simp at h
        · rename_i rest hrest
          simp only [Scan.token.injEq] at h
          obtain ⟨_, rfl⟩ := h
          have hclose := Cursor.eat?_length hrest
          simp only [List.length_cons, List.length_nil] at hclose
          omega
    · split at h
      · rename_i after heat
        have hlength := Cursor.eat?_length heat
        simp only [List.length_cons, List.length_nil] at hlength
        unfold scanOpening at h
        split at h
        · simp at h
        · rename_i tag named hname
          have hnamed := tagName?_length hname
          split at h
          · rename_i attributes selfClosing rest hattributes
            simp only [Scan.token.injEq] at h
            obtain ⟨_, rfl⟩ := h
            have hrest := attributeList_length hattributes
            omega
          · simp at h
      · rename_i heat
        unfold scanText at h
        simp only [Scan.token.injEq] at h
        obtain ⟨_, rfl⟩ := h
        match hrest : c.rest with
        | [] => exact absurd hrest hne
        | d :: rest =>
          have hd : d ≠ '<' := by
            rintro rfl
            simp [Cursor.eat?, Text.dropStart?, hrest] at heat
          have hle := Cursor.length_dropWhile_le (· != '<') rest
          simp only [Cursor.skipWhile, hrest, List.length_cons]
          rw [List.dropWhile_cons_of_pos (by simpa using hd)]
          omega

/-- All tokens from a position on, and the fault at which reading stopped, if it did. -/
def tokens (c : Cursor) : List Token × Option Fault :=
  if _hempty : c.rest = [] then ([], none)
  else
    match _hscan : scan c with
    | .fault fault => ([], some fault)
    | .token token next =>
      let (rest, fault) := tokens next
      (token :: rest, fault)
termination_by c.rest.length
decreasing_by exact scan_length _hscan _hempty

end ViewBinding.Markup
