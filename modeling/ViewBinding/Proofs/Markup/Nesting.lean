import Mathlib
import ViewBinding.Proofs.Markup.Lexemes
import ViewBinding.Proofs.Markup.RoundTrip

/-!
# Which markup is accepted

Tags that open and close elements are the brackets of a markup. What can be read at all is accepted
just when its brackets are nested, and then the document is the one of its only nesting; otherwise
the error names the first closing tag that does not fit, or the innermost tag left open
(`Document.parse_balanced`).
-/

namespace ViewBinding
namespace Markup

/-- A tag that opens an element with content, or that closes one. -/
inductive Bracket where
  | opens (tag : String)
  | closes (tag : String) (offset : Nat)
deriving DecidableEq

/-- Tags without content are no brackets. -/
def Token.bracket? : Token → Option Bracket
  | .opening tag _ selfClosing => if selfClosing || isVoid tag then none else some (.opens tag)
  | .closing tag offset => some (.closes tag offset)
  | .comment _ | .text _ => none

def brackets (ts : List Token) : List Bracket := ts.filterMap Token.bracket?

/-- Every element is closed by a tag of its name, after all that it contains. -/
inductive Nested : List Bracket → Prop
  | nil : Nested []
  | pair {tag offset inside rest} : Nested inside → Nested rest →
      Nested (.opens tag :: (inside ++ .closes tag offset :: rest))

/-- Some elements are left open, the innermost first; apart from them the brackets are nested. -/
inductive Leaves : List Bracket → List String → Prop
  | nested {word} : Nested word → Leaves word []
  | opened {before tag tags word} : Leaves before tags → Nested word →
      Leaves (before ++ .opens tag :: word) (tag :: tags)

/-- What is wrong with brackets that are not nested: the first closing tag that is not that of the
innermost open element, or else the innermost element that is open at the end. -/
inductive NestingError (word : List Bracket) : MarkupError → Prop
  | mismatched {before tag offset rest tags} : word = before ++ .closes tag offset :: rest →
      Leaves before tags → tags.head? ≠ some tag →
        NestingError word (.mismatchedClose tags.head? tag offset)
  | unclosed {tag tags} : Leaves word (tag :: tags) → NestingError word (.unclosed tag)

/-- What the node of a token is. -/
def Token.content? : Token → Option Content
  | .comment data => some (.comment data)
  | .text data => some (.text data)
  | .opening tag attributes _ => some (settledElement tag (settledAttributes attributes))
  | .closing _ _ => none

/-- Follows brackets with the tags of the open elements. -/
def nest : List String → List Bracket → Except MarkupError (List String)
  | tags, [] => .ok tags
  | tags, .opens tag :: rest => nest (tag :: tags) rest
  | [], .closes tag offset :: _ => .error (.mismatchedClose none tag offset)
  | expected :: outer, .closes tag offset :: rest =>
    if expected = tag then nest outer rest
    else .error (.mismatchedClose (some expected) tag offset)

/-! ## Following brackets -/

theorem Nested.append {a b : List Bracket} (ha : Nested a) (hb : Nested b) : Nested (a ++ b) := by
  induction ha with
  | nil => exact hb
  | @pair tag offset inside rest hinside _ _ ih =>
    have hpair : Nested (.opens tag :: (inside ++ .closes tag offset :: (rest ++ b))) :=
      .pair hinside ih
    simpa using hpair

theorem Leaves.append {word more : List Bracket} {tags : List String} (h : Leaves word tags)
    (hmore : Nested more) : Leaves (word ++ more) tags := by
  cases h with
  | nested hword => exact .nested (hword.append hmore)
  | opened hbefore hword =>
    rw [List.append_assoc, List.cons_append]
    exact .opened hbefore (hword.append hmore)

private theorem Leaves.close {word : List Bracket} {tag : String} {tags : List String}
    (h : Leaves word (tag :: tags)) (offset : Nat) :
    Leaves (word ++ [.closes tag offset]) tags := by
  cases h with
  | opened hbefore hword =>
    rw [List.append_assoc, List.cons_append]
    exact hbefore.append (.pair hword .nil)

private theorem Nested.nest {word : List Bracket} (h : Nested word) (tags : List String)
    (rest : List Bracket) : nest tags (word ++ rest) = nest tags rest := by
  induction h generalizing tags rest with
  | nil => rfl
  | pair _ _ ihinside ih =>
    rw [List.cons_append, List.append_assoc, List.cons_append, Markup.nest, ihinside, Markup.nest,
      if_pos rfl, ih]

theorem Leaves.nest {word : List Bracket} {tags : List String} (h : Leaves word tags)
    (rest : List Bracket) : nest [] (word ++ rest) = nest tags rest := by
  induction h generalizing rest with
  | nested hword => exact hword.nest [] rest
  | opened _ hword ih => rw [List.append_assoc, List.cons_append, ih, Markup.nest, hword.nest]

private theorem nest_of_leaves {before : List Bracket} {tags : List String}
    (h : Leaves before tags) (rest : List Bracket) :
    (∃ left, nest tags rest = .ok left ∧ Leaves (before ++ rest) left) ∨
      ∃ us tag offset vs left, nest tags rest = .error (.mismatchedClose left.head? tag offset) ∧
        before ++ rest = us ++ .closes tag offset :: vs ∧ Leaves us left ∧
          left.head? ≠ some tag := by
  induction rest generalizing before tags with
  | nil => exact Or.inl ⟨tags, rfl, by rwa [List.append_nil]⟩
  | cons bracket rest ih =>
    cases bracket with
    | opens tag =>
      have hopened : Leaves (before ++ [.opens tag]) (tag :: tags) := .opened h .nil
      have hrest := ih hopened
      rwa [List.append_assoc, List.singleton_append] at hrest
    | closes tag offset =>
      cases tags with
      | nil => exact Or.inr ⟨before, tag, offset, rest, [], rfl, rfl, h, by simp⟩
      | cons expected outer =>
        rw [nest]
        split
        · rename_i htag
          subst htag
          have hclosed := ih (h.close offset)
          rwa [List.append_assoc, List.singleton_append] at hclosed
        · rename_i htag
          have hhead : (expected :: outer).head? ≠ some tag := by simpa using htag
          exact Or.inr ⟨before, tag, offset, rest, expected :: outer, rfl, rfl, h, hhead⟩

theorem nest_eq_ok_iff {word : List Bracket} {tags : List String} :
    nest [] word = .ok tags ↔ Leaves word tags := by
  constructor
  · intro h
    rcases nest_of_leaves (.nested .nil) word with ⟨left, hleft, hleaves⟩ |
      ⟨_, _, _, _, _, herror, -⟩
    · rw [h] at hleft
      rw [Except.ok.inj hleft]
      exact hleaves
    · rw [h] at herror
      cases herror
  · intro h
    have hnest := h.nest []
    rwa [List.append_nil] at hnest

theorem leaves_nil_iff {word : List Bracket} : Leaves word [] ↔ Nested word := by
  refine ⟨fun h => ?_, .nested⟩
  cases h with
  | nested hword => exact hword

/-- Only a closing tag stops the following of brackets. -/
theorem nest_eq_error_iff {word : List Bracket} {e : MarkupError} :
    nest [] word = .error e ↔ ∃ before tag offset rest tags,
      word = before ++ .closes tag offset :: rest ∧ Leaves before tags ∧ tags.head? ≠ some tag ∧
        e = .mismatchedClose tags.head? tag offset := by
  constructor
  · intro h
    rcases nest_of_leaves (.nested .nil) word with ⟨_, hok, -⟩ | ⟨us, tag, offset, vs, tags, herror,
      hword, hleaves, hhead⟩
    · rw [h] at hok
      cases hok
    · rw [h] at herror
      exact ⟨us, tag, offset, vs, tags, hword, hleaves, hhead, Except.error.inj herror⟩
  · rintro ⟨before, tag, offset, rest, tags, rfl, hleaves, hhead, rfl⟩
    rw [hleaves.nest]
    cases tags with
    | nil => rfl
    | cons expected outer => exact if_neg (by simpa using hhead)

theorem nested_iff {word : List Bracket} : Nested word ↔ nest [] word = .ok [] := by
  rw [nest_eq_ok_iff, leaves_nil_iff]

theorem nestingError_iff {word : List Bracket} {e : MarkupError} :
    NestingError word e ↔ nest [] word = .error e ∨
      ∃ tag tags, nest [] word = .ok (tag :: tags) ∧ e = .unclosed tag := by
  rw [nest_eq_error_iff]
  constructor
  · rintro (⟨hword, hleaves, hhead⟩ | hleaves)
    · exact Or.inl ⟨_, _, _, _, _, hword, hleaves, hhead, rfl⟩
    · exact Or.inr ⟨_, _, nest_eq_ok_iff.mpr hleaves, rfl⟩
  · rintro (⟨before, tag, offset, rest, tags, hword, hleaves, hhead, rfl⟩ | ⟨tag, tags, hnest, rfl⟩)
    · exact .mismatched hword hleaves hhead
    · exact .unclosed (nest_eq_ok_iff.mp hnest)

/-! ## Building follows brackets -/

/-- The elements that building leaves open are those that their tags tell. -/
theorem build_nest (parent : NodeId) (ts : List Token) (doc : Document) (opened : Opened) :
    (build parent ts doc opened).2.map (List.map Prod.snd) =
      nest (opened.map Prod.snd) (brackets ts) := by
  induction ts generalizing doc opened with
  | nil => rfl
  | cons token ts ih =>
    cases token with
    | comment data | text data => exact ih _ opened
    | opening tag attributes selfClosing =>
      have hbrackets : brackets (.opening tag attributes selfClosing :: ts) =
          (if selfClosing || isVoid tag then [] else [.opens tag]) ++ brackets ts := by
        rw [brackets, List.filterMap_cons, Token.bracket?]
        split <;> simp_all [brackets]
      rw [hbrackets]
      simp only [build]
      rw [ih]
      split <;> rfl
    | closing tag offset =>
      have hbrackets : brackets (.closing tag offset :: ts) =
          .closes tag offset :: brackets ts := rfl
      rw [hbrackets]
      cases opened with
      | nil => rfl
      | cons innermost outer =>
        obtain ⟨id, expected⟩ := innermost
        simp only [build, close, List.map_cons, nest]
        by_cases htag : expected = tag
        · simp only [if_pos htag]
          exact ih doc outer
        · simp only [if_neg htag]
          rfl

/-! ## The nodes in order -/

end Markup

namespace Document

/-- What the nodes are, in the order of creation. -/
def contents (doc : Document) : List Content := doc.nodes.toList.map Node.content

theorem getElem?_contents (doc : Document) (id : NodeId) : doc.contents[id]? = doc.content? id := by
  simp [contents, content?, node?]

theorem contents_put (doc : Document) (parent : NodeId) (content : Content) :
    (doc.put parent content).contents = doc.contents ++ [content] := by
  have hlength : doc.contents.length = doc.size := by simp [contents, size]
  apply List.ext_getElem?
  intro id
  rw [getElem?_contents, content?_put, List.getElem?_append, hlength, getElem?_contents]
  rcases Nat.lt_trichotomy id doc.size with hlt | rfl | hgt
  · rw [if_neg (Nat.ne_of_lt hlt), if_pos hlt]
  · simp
  · rw [if_neg (Nat.ne_of_gt hgt), if_neg (Nat.lt_asymm hgt), ← getElem?_contents,
      List.getElem?_eq_none (by omega), List.getElem?_eq_none (by simp; omega)]

end Document

namespace Markup

private theorem Spells.contents_plant {forest : Forest} {ts : List Token} (h : Spells forest ts)
    (doc : Document) (parent : NodeId) :
    (doc.plant parent forest).contents = doc.contents ++ ts.filterMap Token.content? := by
  induction h generalizing doc parent with
  | nil => exact (List.append_nil _).symm
  | text _ ih | comment _ ih =>
    rw [Document.plant, ih, Document.contents_put, List.append_assoc]
    rfl
  | alone _ _ ih =>
    rw [Document.plant, Document.plant, ih, Document.contents_put, List.append_assoc]
    rfl
  | paired _ _ _ ihinside ih =>
    rw [Document.plant, ih, ihinside, Document.contents_put]
    simp [Token.content?, List.filterMap_cons]

end Markup

namespace Document

open Markup

private theorem build_of_spells {markup : String} {ts : List Token} {fault : Option Fault}
    {forest : Forest} (hread : tokens (.start markup.toList) = (ts, fault))
    (hspells : Spells forest ts) :
    build root ts empty [] = (empty.plant root forest, .ok []) := by
  have hproper := tokens_proper (.start markup.toList)
  rw [hread] at hproper
  have hbuild : build root (ts ++ []) empty [] = build root [] (empty.plant root forest) [] :=
    hspells.build hproper .empty rfl []
  rwa [List.append_nil, build] at hbuild

private theorem plant_empty_injective {a b : Forest} (h : empty.plant root a = empty.plant root b) :
    a = b := by
  have ha := depicts_plant_empty a
  rw [h] at ha
  exact ha.unique (depicts_plant_empty b)

section Outcomes

variable {markup : String} {ts : List Token}

theorem parse_of_nest_error {fault : Option Fault} {e : MarkupError}
    (hread : tokens (.start markup.toList) = (ts, fault)) (h : nest [] (brackets ts) = .error e) :
    Document.parse markup = .error e := by
  have hnest := (build_nest root ts empty []).trans h
  rcases hbuilt : build root ts empty [] with ⟨built, e' | opened⟩
  · rw [hbuilt] at hnest
    rw [← Except.error.inj hnest]
    simp [Document.parse, Document.parseInto, hread, hbuilt]
  · rw [hbuilt] at hnest
    cases hnest

private theorem exists_build_of_nest {tags : List String} (h : nest [] (brackets ts) = .ok tags) :
    ∃ built opened, build root ts empty [] = (built, .ok opened) ∧ opened.map Prod.snd = tags := by
  have hnest := (build_nest root ts empty []).trans h
  rcases hbuilt : build root ts empty [] with ⟨built, e | opened⟩
  · rw [hbuilt] at hnest
    cases hnest
  · rw [hbuilt] at hnest
    exact ⟨built, opened, rfl, Except.ok.inj hnest⟩

theorem parse_of_fault {fault : Fault} {tags : List String}
    (hread : tokens (.start markup.toList) = (ts, some fault))
    (h : nest [] (brackets ts) = .ok tags) : Document.parse markup = .error fault.error := by
  obtain ⟨built, opened, hbuilt, -⟩ := exists_build_of_nest h
  simp [Document.parse, Document.parseInto, hread, hbuilt, finish]

theorem parse_of_unclosed {tag : String} {tags : List String}
    (hread : tokens (.start markup.toList) = (ts, none))
    (h : nest [] (brackets ts) = .ok (tag :: tags)) :
    Document.parse markup = .error (.unclosed tag) := by
  obtain ⟨built, opened, hbuilt, hopened⟩ := exists_build_of_nest h
  obtain ⟨⟨id, first⟩, outer, rfl⟩ := List.exists_cons_of_ne_nil
    (show opened ≠ [] by rintro rfl; cases hopened)
  obtain ⟨rfl, -⟩ := List.cons.inj hopened
  simp [Document.parse, Document.parseInto, hread, hbuilt, finish]

theorem exists_parse_of_nested (hread : tokens (.start markup.toList) = (ts, none))
    (h : nest [] (brackets ts) = .ok []) :
    ∃ forest, Spells forest ts ∧ Document.parse markup = .ok (empty.plant root forest) := by
  obtain ⟨built, opened, hbuilt, hopened⟩ := exists_build_of_nest h
  obtain rfl := List.map_eq_nil_iff.mp hopened
  obtain ⟨forest, hspells⟩ := exists_spells_of_build hbuilt
  refine ⟨forest, hspells, ?_⟩
  simp [Document.parse, Document.parseInto, hread, build_of_spells hread hspells, finish]

end Outcomes

/-- Markup is accepted just when all of it is a sequence of tokens and its brackets are nested. The
document is then the one of the only forest that the tokens spell, with one node for each token but
closing tags, in order. When brackets are not nested, the error says what is wrong with them; when
they are, or leave elements open, and reading stopped at a fault, the error is that of the fault. -/
theorem parse_balanced (markup : String) :
    let ts := (tokens (.start markup.toList)).1
    let fault := (tokens (.start markup.toList)).2
    (∀ read, ts = read ∧ fault = none ↔ Tokenized 0 markup.toList read) ∧
      ((∃ doc, Document.parse markup = .ok doc) ↔ fault = none ∧ Nested (brackets ts)) ∧
      (∀ doc, Document.parse markup = .ok doc → ∃ forest,
        (∀ other, Spells other ts ↔ other = forest) ∧ doc = empty.plant root forest ∧
          doc.Depicts (doc.children root) forest ∧
            doc.contents = .document :: ts.filterMap Token.content?) ∧
      (fault = none → ∀ e, Document.parse markup = .error e ↔ NestingError (brackets ts) e) ∧
      (∀ stopped, fault = some stopped → ∀ e, Document.parse markup = .error e ↔
        (∃ tags, Leaves (brackets ts) tags) ∧ e = stopped.error ∨
          (¬ ∃ tags, Leaves (brackets ts) tags) ∧ NestingError (brackets ts) e) := by
  intro ts fault
  have hread : tokens (.start markup.toList) = (ts, fault) := rfl
  refine ⟨fun read => ?_, ?_⟩
  · rw [← Prod.mk.injEq, ← hread]
    exact tokens_eq_iff
  simp only [nested_iff, ← nest_eq_ok_iff, nestingError_iff]
  clear_value ts fault
  cases hnest : nest [] (brackets ts) with
  | error e => simp [parse_of_nest_error hread hnest, eq_comm]
  | ok tags =>
    cases fault with
    | some stopped => simp [parse_of_fault hread hnest, eq_comm]
    | none =>
      cases tags with
      | cons tag tags => simp [parse_of_unclosed hread hnest, eq_comm]
      | nil =>
        obtain ⟨forest, hspells, hparsed⟩ := exists_parse_of_nested hread hnest
        have honly : ∀ other, Spells other ts ↔ other = forest := by
          refine fun other => ⟨fun hother => ?_, fun hother => hother ▸ hspells⟩
          have hboth := (build_of_spells hread hother).symm.trans (build_of_spells hread hspells)
          exact plant_empty_injective (Prod.mk.inj hboth).1
        refine ⟨by simp [hparsed], fun doc hdoc => ⟨forest, honly, ?_⟩, by simp [hparsed], by simp⟩
        obtain rfl := Except.ok.inj (hparsed.symm.trans hdoc)
        exact ⟨rfl, depicts_plant_empty forest, hspells.contents_plant empty root⟩

/-- A comment, a paragraph with a bare value, and in it an entity and a tag without content. -/
def notedMarkup : String := "<!-- a - b --><p class=x>1 &lt; 2<br></p>"

/-- What stands there. -/
def notedTokens : List Token :=
  [.comment " a - b ", .opening "p" [⟨"class", "x"⟩] false, .text "1 < 2", .opening "br" [] false,
    .closing "p" 39]

theorem notedMarkup_balanced :
    Tokenized 0 notedMarkup.toList notedTokens ∧ Nested (brackets notedTokens) ∧
      ∃ doc, Document.parse notedMarkup = .ok doc ∧
        doc.contents = .document :: notedTokens.filterMap Token.content? := by
  have hread : tokens (.start notedMarkup.toList) = (notedTokens, none) := by decide +kernel
  have hbalanced := parse_balanced notedMarkup
  rw [hread] at hbalanced
  obtain ⟨htokenized, haccepted, htree, -⟩ := hbalanced
  have hnested : Nested (brackets notedTokens) := nested_iff.mpr rfl
  obtain ⟨doc, hdoc⟩ := haccepted.mpr ⟨rfl, hnested⟩
  obtain ⟨forest, -, -, -, hcontents⟩ := htree doc hdoc
  exact ⟨(htokenized notedTokens).mp ⟨rfl, rfl⟩, hnested, doc, hdoc, hcontents⟩

-- A closing tag that crosses another element is named, not the tags that are left open behind it.
example : Document.parse "<p><b><i></b></i>" = .error (.mismatchedClose (some "i") "b" 11) := by
  decide +kernel

end Document
end ViewBinding
