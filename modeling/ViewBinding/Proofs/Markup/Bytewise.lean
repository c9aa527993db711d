import Mathlib
import ViewBinding.Proofs.Markup.Joining
import ViewBinding.Proofs.Text.Slices

/-!
# Reading by bytes

The reader as an index into the bytes of the markup. It looks at the markup through slices alone,
which have no result when they are out of place, and its loops have so many turns and no more. It is
shown to be the reader of positions, step by step: where that one stands within the markup, every slice
has a result and the index is its offset.
-/

namespace ViewBinding.Markup

namespace Bytewise

open Text

variable (markup : String)

/-- The byte behind a literal, when it stands at a byte. -/
def eat? (literal : List Char) (pos : Nat) : Option (Option Nat) := do
  let rest ← behind? markup pos
  return if literal.isPrefixOf rest then some (pos + utf8Length literal) else none

/-- The byte behind blanks, counted from the end of the markup. -/
def skipBlanks? (pos : Nat) : Option Nat := do
  let rest ← behind? markup pos
  return markup.utf8ByteSize - utf8Length (rest.dropWhile isBlank)

def takeWhile? (p : Char → Bool) (pos : Nat) : Option (List Char × Nat) := do
  let rest ← behind? markup pos
  let stop := pos + utf8Length (rest.takeWhile p)
  return (← slice? markup pos stop, stop)

def word? (p : Char → Bool) (pos : Nat) : Option (Option (List Char × Nat)) := do
  let (word, next) ← takeWhile? markup p pos
  return if word.isEmpty then none else some (word, next)

def tagName? (pos : Nat) : Option (Option (String × Nat)) := do
  let name ← word? markup isNameChar pos
  return name.map fun (name, next) => (lowercase (String.ofList name), next)

def attributeValue? (pos : Nat) : Option (Option (List Char × Nat)) := do
  match ← behind? markup pos with
  | [] => return none
  | quote :: _ =>
    if quote = '"' ∨ quote = '\'' then
      match ← find? markup [quote] (pos + 1) with
      | none => return none
      | some stop => return some (← slice? markup (pos + 1) stop, stop + 1)
    else return some (← takeWhile? markup isBareValueChar pos)

def readAttribute? (pos : Nat) : Option (Except MarkupError (Attribute × Nat)) := do
  match ← word? markup isAttributeNameChar pos with
  | none =>
    return .error (if markup.utf8ByteSize ≤ pos then .unexpectedEnd pos else .invalidTag pos)
  | some (name, named) =>
    let behind ← skipBlanks? markup named
    match ← eat? markup ['='] behind with
    | none => return .ok (⟨String.ofList name, ""⟩, behind)
    | some equals =>
      match ← attributeValue? markup (← skipBlanks? markup equals) with
      | none => return .error (.unexpectedEnd pos)
      | some (value, next) =>
        return .ok (⟨String.ofList name, String.ofList (decodeEntities value)⟩, next)

/-- A turn of the loop over the attributes: at the end of the tag, whether the tag closes itself, and
before it an attribute. -/
def attributeTurn? (pos : Nat) : Option (Except MarkupError ((Bool ⊕ Attribute) × Nat)) := do
  let pos ← skipBlanks? markup pos
  match ← eat? markup ['/', '>'] pos with
  | some next => return .ok (.inl true, next)
  | none =>
    match ← eat? markup ['>'] pos with
    | some next => return .ok (.inl false, next)
    | none =>
      let read ← readAttribute? markup pos
      return read.map fun (a, next) => (.inr a, next)

/-- The loop over the attributes, with at most so many turns. -/
def attributeList? : Nat → Nat → Option (List Attribute × Except MarkupError (Bool × Nat))
  | 0, _ => none
  | turns + 1, pos => do
    match ← attributeTurn? markup pos with
    | .error e => return ([], .error e)
    | .ok (.inl selfClosing, next) => return ([], .ok (selfClosing, next))
    | .ok (.inr a, next) =>
      let (rest, result) ← attributeList? turns next
      return (a :: rest, result)

def scanComment? (pos : Nat) : Option (Except Fault (Token × Nat)) := do
  match ← find? markup ['-', '-', '>'] pos with
  | none => return .error { error := .unexpectedEnd pos }
  | some stop => return .ok (.comment (String.ofList (← slice? markup pos stop)), stop + 3)

def scanClosing? (pos : Nat) : Option (Except Fault (Token × Nat)) := do
  match ← tagName? markup pos with
  | none => return .error { error := .invalidTag pos }
  | some (tag, named) =>
    match ← eat? markup ['>'] (← skipBlanks? markup named) with
    | none => return .error { error := .invalidTag pos }
    | some next => return .ok (.closing tag pos, next)

def scanOpening? (pos : Nat) : Option (Except Fault (Token × Nat)) := do
  match ← tagName? markup pos with
  | none => return .error { error := .invalidTag pos }
  | some (tag, named) =>
    match ← attributeList? markup markup.utf8ByteSize named with
    | (attributes, .ok (selfClosing, next)) =>
      return .ok (.opening tag attributes selfClosing, next)
    | (attributes, .error error) => return .error { error, element := some (tag, attributes) }

def scanText? (pos : Nat) : Option (Except Fault (Token × Nat)) := do
  let stop := (← find? markup ['<'] pos).getD markup.utf8ByteSize
  return .ok (.text (String.ofList (decodeEntities (← slice? markup pos stop))), stop)

/-- A turn of the main loop, without the placing of the token. -/
def scan? (pos : Nat) : Option (Except Fault (Token × Nat)) := do
  match ← eat? markup ['<', '!', '-', '-'] pos with
  | some inside => scanComment? markup inside
  | none =>
    match ← eat? markup ['<', '/'] pos with
    | some inside => scanClosing? markup inside
    | none =>
      if (← behind? markup pos).head? = some '<' then scanOpening? markup (pos + 1)
      else scanText? markup pos

/-- The main loop from a byte, with at most so many turns. -/
def parseFrom? (parent : NodeId) (turns : Nat) (doc : Document) (opened : Opened) (pos : Nat) :
    Option (Document × Except MarkupError Unit) :=
  if markup.utf8ByteSize ≤ pos then some (finish doc none opened)
  else
    match turns with
    | 0 => none
    | turns + 1 => do
      match ← scan? markup pos with
      | .error fault => return finish doc (some fault) opened
      | .ok (token, next) =>
        match build parent [token] doc opened with
        | (built, .error e) => return (built, .error e)
        | (built, .ok left) => parseFrom? parent turns built left next

def parseInto? (doc : Document) (parent : NodeId) : Option (Document × Except MarkupError Unit) :=
  parseFrom? markup parent markup.utf8ByteSize doc [] 0

variable {markup} {c next : Cursor}

open Cursor

/-! ## Slices and searches -/

private theorem slice?_takes {taken : List Char} (h : c.Within markup)
    (htaken : c.Takes taken next) : slice? markup c.offset next.offset = some taken := by
  obtain ⟨before, htext, hoffset⟩ := within_iff.mp h
  rw [htaken.offset_eq, hoffset]
  exact slice?_eq (by rw [htext, htaken.rest_eq])

private theorem behind?_offset (h : c.Within markup) : behind? markup c.offset = some c.rest := by
  obtain ⟨before, htext, hoffset⟩ := within_iff.mp h
  rw [hoffset]
  exact behind?_eq htext

private theorem eat?_eq (h : c.Within markup) (literal : List Char) :
    eat? markup literal c.offset = some ((c.eat? literal).map offset) := by
  rw [eat?, behind?_offset h]
  cases heat : c.eat? literal with
  | none => simp [eat?_eq_none_iff.mp heat]
  | some next =>
    have htakes := takes_of_eat? heat
    simp [htakes.rest_eq, htakes.offset_eq]

private theorem find?_upTo? (h : c.Within markup) (literal : List Char) :
    find? markup literal c.offset =
      some ((c.upTo? literal).map fun (before, _) => c.offset + utf8Length before) := by
  obtain ⟨before, htext, hoffset⟩ := within_iff.mp h
  rw [hoffset, find?_eq htext, upTo?, Option.map_map, hoffset]
  rfl

private theorem slice?_upTo? {literal text : List Char} (h : c.Within markup)
    (hupTo : c.upTo? literal = some (text, next)) :
    slice? markup c.offset (c.offset + utf8Length text) = some text := by
  have htakes := takes_of_upTo? hupTo
  have hbefore : c.Takes text ⟨c.offset + utf8Length text, literal ++ next.rest⟩ :=
    ⟨by rw [htakes.rest_eq, List.append_assoc], rfl⟩
  exact slice?_takes h hbefore

private theorem skipBlanks?_eq (h : c.Within markup) :
    skipBlanks? markup c.offset = some c.skipBlanks.offset := by
  have hsize := (h.ahead (ahead_skipBlanks c)).offset_add
  rw [skipBlanks?, behind?_offset h, ← hsize]
  exact congrArg some (Nat.add_sub_cancel _ _)

private theorem takeWhile?_eq (h : c.Within markup) (p : Char → Bool) :
    takeWhile? markup p c.offset = some (c.rest.takeWhile p, (c.skipWhile p).offset) := by
  have hslice := slice?_takes h (takes_skipWhile p c)
  rw [(takes_skipWhile p c).offset_eq] at hslice ⊢
  simp [takeWhile?, behind?_offset h, hslice]

private theorem word?_eq (h : c.Within markup) (p : Char → Bool) :
    word? markup p c.offset = some ((c.word? p).map (Prod.map id offset)) := by
  simp only [word?, takeWhile?_eq h, Cursor.word?]
  split <;> simp_all

/-! ## Tags -/

private theorem tagName?_eq (h : c.Within markup) :
    tagName? markup c.offset = some ((Markup.tagName? c).map (Prod.map id offset)) := by
  rw [tagName?, word?_eq h, Markup.tagName?]
  cases c.word? isNameChar <;> rfl

private theorem attributeValue?_eq (h : c.Within markup) :
    attributeValue? markup c.offset = some ((Markup.attributeValue? c).map (Prod.map id offset)) := by
  unfold attributeValue? Markup.attributeValue?
  rw [behind?_offset h]
  cases hrest : c.rest with
  | nil => rfl
  | cons quote rest =>
    simp only [Option.bind_eq_bind, Option.bind_some]
    split
    · rename_i hquote
      have hsize : quote.utf8Size = 1 := by rcases hquote with rfl | rfl <;> rfl
      have htakes : c.Takes [quote] ⟨c.offset + quote.utf8Size, rest⟩ := ⟨hrest, rfl⟩
      have hinside := h.ahead htakes.ahead
      rw [hsize] at hinside ⊢
      have hfind := find?_upTo? hinside [quote]
      simp only at hfind
      rw [hfind]
      cases hupTo : upTo? [quote] ⟨c.offset + 1, rest⟩ with
      | none => rfl
      | some read =>
        obtain ⟨value, next⟩ := read
        have hslice := slice?_upTo? hinside hupTo
        have hnext : next.offset = c.offset + 1 + utf8Length value + 1 := by
          rw [(takes_of_upTo? hupTo).offset_eq, utf8Length_append, utf8Length_cons, hsize,
            utf8Length_nil, Nat.add_assoc (c.offset + 1)]
        simp only at hslice
        simp [hslice, hnext]
    · rw [takeWhile?_eq h, hrest]
      rfl

private theorem readAttribute?_eq (h : c.Within markup) :
    readAttribute? markup c.offset = some ((readAttribute c).map (Prod.map id offset)) := by
  unfold readAttribute? readAttribute
  rw [word?_eq h]
  cases hword : c.word? isAttributeNameChar with
  | none =>
    simp only [Option.map_none, Option.bind_eq_bind, Option.bind_some, h.size_le_offset_iff,
      List.isEmpty_iff]
    rfl
  | some read =>
    obtain ⟨name, named⟩ := read
    have hnamed := h.ahead (takes_of_word? hword).ahead
    have hbehind := hnamed.ahead (ahead_skipBlanks named)
    simp only [Option.map_some, Prod.map_apply, id_eq, Option.bind_eq_bind, Option.bind_some,
      skipBlanks?_eq hnamed, eat?_eq hbehind]
    cases hequals : named.skipBlanks.eat? ['='] with
    | none => rfl
    | some equals =>
      have hequal := hbehind.ahead (takes_of_eat? hequals).ahead
      simp only [Option.map_some, skipBlanks?_eq hequal, Option.bind_some,
        attributeValue?_eq (hequal.ahead (ahead_skipBlanks equals))]
      cases Markup.attributeValue? equals.skipBlanks with
      | none => rfl
      | some read => rfl

private theorem attributeTurn?_eq (h : c.Within markup) :
    attributeTurn? markup c.offset = some
      (match c.skipBlanks.eat? ['/', '>'], c.skipBlanks.eat? ['>'] with
      | some next, _ => .ok (.inl true, next.offset)
      | none, some next => .ok (.inl false, next.offset)
      | none, none => (readAttribute c.skipBlanks).map (Prod.map .inr offset)) := by
  have hblanks := h.ahead (ahead_skipBlanks c)
  simp only [attributeTurn?, skipBlanks?_eq h, eat?_eq hblanks, readAttribute?_eq hblanks,
    Option.bind_eq_bind, Option.bind_some]
  cases c.skipBlanks.eat? ['/', '>'] with
  | some next => rfl
  | none =>
    cases c.skipBlanks.eat? ['>'] with
    | some next => rfl
    | none => rcases readAttribute c.skipBlanks with e | ⟨a, next⟩ <;> rfl

/-- The loop over the attributes ends within as many turns as there are characters, and one. -/
theorem attributeList?_eq {turns : Nat} (h : c.Within markup) (hturns : c.rest.length < turns) :
    attributeList? markup turns c.offset =
      some (Prod.map id (Except.map (Prod.map id offset)) (attributeList c)) := by
  obtain ⟨turns, rfl⟩ := Nat.exists_eq_add_one_of_ne_zero (Nat.ne_zero_of_lt hturns)
  fun_induction attributeList c generalizing turns with
  | case1 c next hself =>
    simp [attributeList?, attributeTurn?_eq h, hself, Except.map]
  | case2 c hself next hend =>
    simp [attributeList?, attributeTurn?_eq h, hself, hend, Except.map]
  | case3 c hself hend e hread =>
    simp [attributeList?, attributeTurn?_eq h, hself, hend, hread, Except.map]
  | case4 c hself hend a next hread rest result hrec ih =>
    have hless : next.rest.length < turns := by
      have hlength := readAttribute_length hread
      have hblanks := skipBlanks_length c
      omega
    obtain ⟨turns, rfl⟩ := Nat.exists_eq_add_one_of_ne_zero (Nat.ne_zero_of_lt hless)
    have hrest := ih (h.ahead ((ahead_skipBlanks c).trans (ahead_readAttribute hread))) turns hless
    rw [attributeList?, attributeTurn?_eq h, hself, hend, hread]
    simp [Except.map, hrest, hrec]

/-! ## Tokens -/

/-- What the reader by bytes says for what stands at a position. -/
def result : Scan → Except Fault (Token × Nat)
  | .token t next => .ok (t, next.offset)
  | .fault fault => .error fault

private theorem scanComment?_eq (h : c.Within markup) :
    scanComment? markup c.offset = some (result (scanComment c)) := by
  rw [scanComment?, find?_upTo? h, scanComment]
  cases hupTo : c.upTo? ['-', '-', '>'] with
  | none => rfl
  | some read =>
    obtain ⟨data, next⟩ := read
    have hnext : next.offset = c.offset + utf8Length data + 3 := by
      rw [(takes_of_upTo? hupTo).offset_eq, utf8Length_append, Nat.add_assoc]
      rfl
    simp [slice?_upTo? h hupTo, result, hnext]

private theorem scanClosing?_eq (h : c.Within markup) :
    scanClosing? markup c.offset = some (result (scanClosing c)) := by
  rw [scanClosing?, tagName?_eq h, scanClosing]
  cases hname : Markup.tagName? c with
  | none => rfl
  | some read =>
    obtain ⟨tag, named⟩ := read
    have hnamed := h.ahead (ahead_tagName? hname)
    simp only [Option.map_some, Prod.map_apply, id_eq, Option.bind_eq_bind, Option.bind_some,
      skipBlanks?_eq hnamed, eat?_eq (hnamed.ahead (ahead_skipBlanks named))]
    cases named.skipBlanks.eat? ['>'] <;> rfl

private theorem scanOpening?_eq (h : c.Within markup) :
    scanOpening? markup c.offset = some (result (scanOpening c)) := by
  rw [scanOpening?, tagName?_eq h, scanOpening]
  cases hname : Markup.tagName? c with
  | none => rfl
  | some read =>
    obtain ⟨tag, named⟩ := read
    have hnamed := h.ahead (ahead_tagName? hname)
    have hturns : named.rest.length < markup.utf8ByteSize :=
      Nat.lt_of_lt_of_le (tagName?_length hname) h.length_le
    simp only [Option.map_some, Prod.map_apply, id_eq, Option.bind_eq_bind, Option.bind_some,
      attributeList?_eq hnamed hturns]
    rcases attributeList named with ⟨attributes, e | ⟨selfClosing, next⟩⟩ <;> rfl

private theorem find?_skipWhile (h : c.Within markup) :
    ∃ stop, find? markup ['<'] c.offset = some stop ∧
      stop.getD markup.utf8ByteSize = (c.skipWhile (· != '<')).offset := by
  refine ⟨_, find?_upTo? h ['<'], ?_⟩
  cases hupTo : c.upTo? ['<'] with
  | none =>
    have hnone : '<' ∉ c.rest := by
      rw [upTo?, Option.map_eq_none_iff, splitAtFirst_eq_none_iff] at hupTo
      exact fun hmem => hupTo ((List.singleton_infix_iff _ _).mpr hmem)
    have hall : c.rest.takeWhile (· != '<') = c.rest :=
      List.takeWhile_eq_self_iff.mpr fun d hd => by
        simpa using fun heq : d = '<' => hnone (heq ▸ hd)
    rw [(takes_skipWhile _ c).offset_eq, hall, h.offset_add]
    rfl
  | some read =>
    obtain ⟨⟨before, after⟩, hsplit, rfl⟩ := Option.map_eq_some_iff.mp hupTo
    have hnone := not_infix_of_splitAtFirst hsplit (List.cons_ne_nil _ _)
    have htake : c.rest.takeWhile (· != '<') = before := by
      rw [splitAtFirst_eq_some hsplit, List.append_assoc]
      refine takeWhile_append (fun d hd => ?_) (stops_of_head rfl after)
      simpa using fun heq : d = '<' => hnone ((List.singleton_infix_iff _ _).mpr (heq ▸ hd))
    rw [(takes_skipWhile _ c).offset_eq, htake]
    rfl

private theorem scanText?_eq (h : c.Within markup) :
    scanText? markup c.offset = some (result (scanText c)) := by
  obtain ⟨stop, hfind, hstop⟩ := find?_skipWhile h
  simp [scanText?, hfind, hstop, slice?_takes h (takes_skipWhile (· != '<') c), result, scanText]

private theorem scan?_eq (h : c.Within markup) : scan? markup c.offset = some
    (result (scan c)) := by
  rw [scan?, eat?_eq h, eat?_eq h, behind?_offset h]
  cases hcomment : c.eat? ['<', '!', '-', '-'] with
  | some inside =>
    rw [scan_eq_comment hcomment]
    exact scanComment?_eq (h.ahead (takes_of_eat? hcomment).ahead)
  | none =>
    cases hclosing : c.eat? ['<', '/'] with
    | some inside =>
      rw [scan_eq_closing hclosing]
      exact scanClosing?_eq (h.ahead (takes_of_eat? hclosing).ahead)
    | none =>
      simp only [Option.map_none, Option.bind_eq_bind, Option.bind_some]
      cases hopening : c.eat? ['<'] with
      | some inside =>
        have htakes := takes_of_eat? hopening
        have hinside : inside.offset = c.offset + 1 := htakes.offset_eq
        have hhead : c.rest.head? = some '<' := by
          rw [htakes.rest_eq]
          rfl
        rw [scan_eq_opening hopening hcomment hclosing, if_pos hhead, ← hinside]
        exact scanOpening?_eq (h.ahead htakes.ahead)
      | none =>
        have hhead : ¬ c.rest.head? = some '<' := by
          intro hhead
          rw [eat?_eq_none_iff] at hopening
          obtain ⟨rest, hrest⟩ := List.head?_eq_some_iff.mp hhead
          exact hopening ⟨rest, hrest.symm⟩
        rw [scan_eq_text hopening, if_neg hhead]
        exact scanText?_eq h

/-! ## The main loop -/

private theorem parseFrom?_eq (parent : NodeId) {turns : Nat} (h : c.Within markup)
    (hturns : c.rest.length ≤ turns) (doc : Document) (opened : Opened) :
    parseFrom? markup parent turns doc opened c.offset = some
      (match build parent (tokens c).1 doc opened with
      | (built, .error e) => (built, .error e)
      | (built, .ok left) => finish built (tokens c).2 left) := by
  fun_induction tokens c generalizing turns doc opened with
  | case1 c hempty =>
    rw [parseFrom?.eq_def, if_pos (h.size_le_offset_iff.mpr hempty)]
    rfl
  | case2 c hne fault hscan =>
    have hmore : ¬ markup.utf8ByteSize ≤ c.offset := fun hle => hne (h.size_le_offset_iff.mp hle)
    obtain ⟨turns, rfl⟩ := Nat.exists_eq_add_one_of_ne_zero fun hzero =>
      hne (List.length_eq_zero_iff.mp (Nat.le_zero.mp (hzero ▸ hturns)))
    rw [parseFrom?.eq_def, if_neg hmore]
    simp [scan?_eq h, hscan, result, build]
  | case3 c hne token next hscan rest fault hrec ih =>
    have hmore : ¬ markup.utf8ByteSize ≤ c.offset := fun hle => hne (h.size_le_offset_iff.mp hle)
    have hless := scan_length hscan hne
    obtain ⟨turns, rfl⟩ := Nat.exists_eq_add_one_of_ne_zero (Nat.ne_zero_of_lt
      (Nat.lt_of_lt_of_le hless hturns))
    rw [hrec] at ih
    rw [parseFrom?.eq_def, if_neg hmore, build_cons]
    simp only [scan?_eq h, hscan, result, Option.bind_eq_bind, Option.bind_some]
    rcases build parent [token] doc opened with ⟨built, e | left⟩
    · rfl
    · exact ih (h.ahead (ahead_scan hscan)) (Nat.le_of_lt_succ (Nat.lt_of_lt_of_le hless hturns))
        built left

/-- Every slice of a whole run is in place, and there are turns enough. -/
theorem parseInto?_eq (markup : String) (doc : Document) (parent : NodeId) :
    parseInto? markup doc parent = some (doc.parseInto parent markup) :=
  parseFrom?_eq parent (within_start markup) (within_start markup).length_le doc []

/-! ## Progress -/

/-- A turn at a byte looks at nothing that is out of place, and where it reads something, that ends
further on, within the markup and between two characters. -/
def Advances {α ε : Type} (markup : String) (pos : Nat) (turn : Option (Except ε (α × Nat))) : Prop :=
  ∃ read, turn = some read ∧ ∀ part next, read = .ok (part, next) →
    pos < next ∧ next ≤ markup.utf8ByteSize ∧ String.Pos.Raw.IsValid markup ⟨next⟩

private theorem advances_of_ahead {α ε : Type} {turn : Option (Except ε (α × Nat))}
    {read : Except ε (α × Nat)} (h : c.Within markup) (hturn : turn = some read)
    (hread : ∀ part pos, read = .ok (part, pos) → ∃ next : Cursor, next.offset = pos ∧
      c.Ahead next ∧ next.rest.length < c.rest.length) :
    Advances markup c.offset turn := by
  refine ⟨read, hturn, fun part pos hpart => ?_⟩
  obtain ⟨next, rfl, hahead, hless⟩ := hread part pos hpart
  exact ⟨hahead.offset_lt hless, (h.ahead hahead).offset_le, (h.ahead hahead).isValid⟩

theorem scan?_advances (h : c.Within markup) (hmore : c.offset < markup.utf8ByteSize) :
    Advances markup c.offset (scan? markup c.offset) := by
  refine advances_of_ahead h (scan?_eq h) fun token pos hread => ?_
  have hne : c.rest ≠ [] := fun hnil => Nat.not_le_of_lt hmore (h.size_le_offset_iff.mpr hnil)
  cases hscan : scan c with
  | fault fault =>
    rw [hscan] at hread
    cases hread
  | token t next =>
    rw [hscan] at hread
    cases hread
    exact ⟨next, rfl, ahead_scan hscan, scan_length hscan hne⟩

theorem attributeTurn?_advances (h : c.Within markup) :
    Advances markup c.offset (attributeTurn? markup c.offset) := by
  refine advances_of_ahead h (attributeTurn?_eq h) fun part pos hread => ?_
  split at hread
  · rename_i next hself
    cases hread
    exact ⟨next, rfl, ahead_of_skipBlanks_eat? hself, length_lt_of_skipBlanks_eat? (by simp) hself⟩
  · rename_i next _ hend
    cases hread
    exact ⟨next, rfl, ahead_of_skipBlanks_eat? hend, length_lt_of_skipBlanks_eat? (by simp) hend⟩
  · cases hattribute : readAttribute c.skipBlanks with
    | error e =>
      rw [hattribute] at hread
      cases hread
    | ok read =>
      obtain ⟨a, next⟩ := read
      rw [hattribute] at hread
      cases hread
      exact ⟨next, rfl, (ahead_skipBlanks c).trans (ahead_readAttribute hattribute),
        Nat.lt_of_lt_of_le (readAttribute_length hattribute) (skipBlanks_length c)⟩

end Bytewise

end ViewBinding.Markup
