import Mathlib
import ViewBinding.Proofs.Markup.Advancing
import ViewBinding.Proofs.Markup.Appending
import ViewBinding.Proofs.Markup.CutOff

/-!
# Markup in pieces

An accepted markup and another one behind it, which begins with a tag or a comment or is empty, are
read together as they are one after the other: no reader looks over the seam, and no element is open
there. Only the offsets are those of the whole markup (`Document.parseInto_append`).
-/

namespace ViewBinding

/-- The error that many bytes further on. -/
def MarkupError.shift (bytes : Nat) : MarkupError → MarkupError
  | unexpectedEnd offset => unexpectedEnd (offset + bytes)
  | invalidTag offset => invalidTag (offset + bytes)
  | mismatchedClose expected found offset => mismatchedClose expected found (offset + bytes)
  | unclosed tag => unclosed tag

namespace Markup

open Text

def Token.shift (bytes : Nat) : Token → Token
  | .closing tag offset => .closing tag (offset + bytes)
  | t => t

def Fault.shift (bytes : Nat) (fault : Fault) : Fault :=
  { fault with error := fault.error.shift bytes }

def Cursor.shift (bytes : Nat) (c : Cursor) : Cursor := ⟨c.offset + bytes, c.rest⟩

def Scan.shift (bytes : Nat) : Scan → Scan
  | .token t next => .token (t.shift bytes) (next.shift bytes)
  | .fault stopped => .fault (stopped.shift bytes)

/-! ## Offsets do not matter -/

variable (bytes : Nat) (c : Cursor)

namespace Cursor

@[simp] theorem shift_rest : (c.shift bytes).rest = c.rest := rfl

private theorem skipWhile_shift (p : Char → Bool) :
    (c.shift bytes).skipWhile p = (c.skipWhile p).shift bytes := by
  simp only [skipWhile, shift, Nat.add_right_comm]

private theorem skipBlanks_shift : (c.shift bytes).skipBlanks = c.skipBlanks.shift bytes :=
  skipWhile_shift bytes c isBlank

private theorem eat?_shift (literal : List Char) :
    (c.shift bytes).eat? literal = (c.eat? literal).map (shift bytes) := by
  simp only [eat?, shift, Option.map_map]
  apply Option.map_congr
  intro rest _
  simp only [Function.comp_apply, shift, Nat.add_right_comm]

private theorem upTo?_shift (literal : List Char) :
    (c.shift bytes).upTo? literal =
      (c.upTo? literal).map fun (text, next) => (text, next.shift bytes) := by
  simp only [upTo?, shift, Option.map_map]
  apply Option.map_congr
  rintro ⟨before, after⟩ -
  simp only [Function.comp_apply, Prod.mk.injEq, mk.injEq, and_true, true_and]
  omega

private theorem word?_shift (p : Char → Bool) :
    (c.shift bytes).word? p = (c.word? p).map fun (word, next) => (word, next.shift bytes) := by
  simp only [word?, shift_rest, skipWhile_shift]
  split <;> rfl

end Cursor

open Cursor

private theorem tagName?_shift :
    tagName? (c.shift bytes) = (tagName? c).map fun (tag, next) => (tag, next.shift bytes) := by
  simp only [tagName?, word?_shift, Option.map_map]
  rfl

private theorem attributeValue?_shift :
    attributeValue? (c.shift bytes) =
      (attributeValue? c).map fun (value, next) => (value, next.shift bytes) := by
  unfold attributeValue?
  rw [shift_rest]
  cases hrest : c.rest with
  | nil => rfl
  | cons quote rest =>
    dsimp only
    split
    · have hupTo := upTo?_shift bytes ⟨c.offset + quote.utf8Size, rest⟩ [quote]
      simp only [shift] at hupTo ⊢
      rw [← hupTo, Nat.add_right_comm]
    · rw [skipWhile_shift]
      rfl

private theorem readAttribute_shift :
    readAttribute (c.shift bytes) =
      ((readAttribute c).map fun (a, next) => (a, next.shift bytes)).mapError (·.shift bytes) := by
  unfold readAttribute
  rw [word?_shift]
  cases c.word? isAttributeNameChar with
  | none =>
    rw [Option.map_none, shift_rest]
    cases hrest : c.rest <;> rfl
  | some read =>
    obtain ⟨name, named⟩ := read
    simp only [Option.map_some, skipBlanks_shift, eat?_shift]
    cases named.skipBlanks.eat? ['='] with
    | none => rfl
    | some equals =>
      simp only [Option.map_some, skipBlanks_shift, attributeValue?_shift]
      cases attributeValue? equals.skipBlanks with
      | none => rfl
      | some read => rfl

private theorem attributeList_shift :
    attributeList (c.shift bytes) = ((attributeList c).1,
      ((attributeList c).2.map fun (selfClosing, next) =>
        (selfClosing, next.shift bytes)).mapError (·.shift bytes)) := by
  fun_induction attributeList c with
  | case1 c next hself =>
    apply attributeList_of_self
    rw [skipBlanks_shift, eat?_shift, hself]
    rfl
  | case2 c hself next hend =>
    apply attributeList_of_end
    · rw [skipBlanks_shift, eat?_shift, hself]
      rfl
    · rw [skipBlanks_shift, eat?_shift, hend]
      rfl
  | case3 c hself hend e hread =>
    apply attributeList_of_fault
    · rw [skipBlanks_shift, eat?_shift, hself]
      rfl
    · rw [skipBlanks_shift, eat?_shift, hend]
      rfl
    · rw [skipBlanks_shift, readAttribute_shift, hread]
      rfl
  | case4 c hself hend a next hread rest result hrec ih =>
    rw [hrec] at ih
    have hread' : readAttribute (c.shift bytes).skipBlanks = .ok (a, next.shift bytes) := by
      rw [skipBlanks_shift, readAttribute_shift, hread]
      rfl
    rw [attributeList_of_attribute hread', ih]

private theorem scanComment_shift : scanComment (c.shift bytes) = (scanComment c).shift bytes := by
  simp only [scanComment, upTo?_shift]
  cases c.upTo? ['-', '-', '>'] <;> rfl

private theorem scanClosing_shift : scanClosing (c.shift bytes) = (scanClosing c).shift bytes := by
  simp only [scanClosing, tagName?_shift]
  cases tagName? c with
  | none => rfl
  | some read =>
    obtain ⟨tag, named⟩ := read
    simp only [Option.map_some, skipBlanks_shift, eat?_shift]
    cases named.skipBlanks.eat? ['>'] <;> rfl

private theorem scanOpening_shift : scanOpening (c.shift bytes) = (scanOpening c).shift bytes := by
  simp only [scanOpening, tagName?_shift]
  cases tagName? c with
  | none => rfl
  | some read =>
    obtain ⟨tag, named⟩ := read
    simp only [Option.map_some, attributeList_shift]
    rcases attributeList named with ⟨attributes, e | ⟨selfClosing, next⟩⟩ <;> rfl

private theorem scan_shift : scan (c.shift bytes) = (scan c).shift bytes := by
  simp only [scan, eat?_shift]
  cases c.eat? ['<', '!', '-', '-'] with
  | some next => exact scanComment_shift bytes next
  | none =>
    cases c.eat? ['<', '/'] with
    | some next => exact scanClosing_shift bytes next
    | none =>
      cases c.eat? ['<'] with
      | some next => exact scanOpening_shift bytes next
      | none =>
        simp only [Option.map_none, scanText, skipWhile_shift, shift_rest]
        rfl

private theorem tokens_of_fault {c : Cursor} {fault : Fault} (h : scan c = .fault fault)
    (hne : c.rest ≠ []) : tokens c = ([], some fault) := by
  rw [tokens, dif_neg hne]
  split
  · rename_i stopped hstopped
    rw [Scan.fault.inj (h.symm.trans hstopped)]
  · rename_i token next htoken
    rw [h] at htoken
    cases htoken

private theorem tokens_shift :
    tokens (c.shift bytes) =
      ((tokens c).1.map (Token.shift bytes), (tokens c).2.map (Fault.shift bytes)) := by
  fun_induction tokens c with
  | case1 c hempty =>
    rw [tokens, dif_pos (by simpa using hempty)]
    rfl
  | case2 c hne fault hscan =>
    have hshifted : scan (c.shift bytes) = .fault (fault.shift bytes) := by
      rw [scan_shift, hscan]
      rfl
    rw [tokens_of_fault hshifted (by simpa using hne)]
    rfl
  | case3 c hne token next hscan rest fault hrec ih =>
    rw [hrec] at ih
    have hshifted : scan (c.shift bytes) = .token (token.shift bytes) (next.shift bytes) := by
      rw [scan_shift, hscan]
      rfl
    rw [tokens_of_scan hshifted (by simpa using hne), ih]
    rfl

/-! ## Placing tokens -/

/-- Places what was read of a markup under a node. -/
def settle (parent : NodeId) (read : List Token × Option Fault) (doc : Document) :
    Document × Except MarkupError Unit :=
  match build parent read.1 doc [] with
  | (built, .error e) => (built, .error e)
  | (built, .ok opened) => finish built read.2 opened

variable (parent : NodeId)

private theorem close_shift (tag : String) (offset : Nat) (opened : Opened) :
    close tag (offset + bytes) opened = (close tag offset opened).mapError (·.shift bytes) := by
  rcases opened with _ | ⟨⟨id, expected⟩, outer⟩
  · rfl
  · rw [close, close]
    split <;> rfl

private theorem build_shift (ts : List Token) (doc : Document) (opened : Opened) :
    build parent (ts.map (Token.shift bytes)) doc opened =
      ((build parent ts doc opened).1,
        (build parent ts doc opened).2.mapError (·.shift bytes)) := by
  induction ts generalizing doc opened with
  | nil => rfl
  | cons t ts ih =>
    cases t with
    | comment data | text data => exact ih _ opened
    | opening tag attributes selfClosing => exact ih _ _
    | closing tag offset =>
      rw [List.map_cons, Token.shift, build, build, close_shift]
      cases close tag offset opened with
      | ok outer => exact ih doc outer
      | error e => rfl

private theorem finish_shift (doc : Document) (fault : Option Fault) (opened : Opened) :
    finish doc (fault.map (Fault.shift bytes)) opened =
      ((finish doc fault opened).1, (finish doc fault opened).2.mapError (·.shift bytes)) := by
  rcases fault with _ | stopped
  · rcases opened with _ | ⟨⟨id, tag⟩, outer⟩ <;> rfl
  · rfl

private theorem settle_shift (ts : List Token) (fault : Option Fault) (doc : Document) :
    settle parent (ts.map (Token.shift bytes), fault.map (Fault.shift bytes)) doc =
      ((settle parent (ts, fault) doc).1,
        (settle parent (ts, fault) doc).2.mapError (·.shift bytes)) := by
  simp only [settle, build_shift]
  rcases build parent ts doc [] with ⟨built, e | opened⟩
  · rfl
  · exact finish_shift bytes built fault opened

/-- Tokens are placed one after the other, up to the first that does not fit. -/
theorem build_cons (t : Token) (ts : List Token) (doc : Document) (opened : Opened) :
    build parent (t :: ts) doc opened =
      match build parent [t] doc opened with
      | (built, .error e) => (built, .error e)
      | (built, .ok left) => build parent ts built left := by
  cases t with
  | comment data | text data => rfl
  | opening tag attributes selfClosing => rfl
  | closing tag offset =>
    rw [build, build]
    cases close tag offset opened <;> rfl

private theorem build_append {ts : List Token} {doc built : Document} {opened left : Opened}
    (h : build parent ts doc opened = (built, .ok left)) (us : List Token) :
    build parent (ts ++ us) doc opened = build parent us built left := by
  induction ts generalizing doc opened with
  | nil =>
    obtain ⟨rfl, hleft⟩ := Prod.mk.inj h
    rw [List.nil_append, Except.ok.inj hleft]
  | cons t ts ih =>
    rw [build_cons] at h
    rw [List.cons_append, build_cons]
    rcases hfirst : build parent [t] doc opened with ⟨placed, e | left⟩
    · rw [hfirst] at h
      cases (Prod.mk.inj h).2
    · rw [hfirst] at h
      exact ih h

private theorem settle_append {ts : List Token} {doc built : Document}
    (h : build parent ts doc [] = (built, .ok [])) (us : List Token) (fault : Option Fault) :
    settle parent (ts ++ us, fault) doc = settle parent (us, fault) built := by
  rw [settle, settle, build_append parent h]

end Markup

namespace Document

open Text Markup Cursor

theorem parseInto_eq_settle (doc : Document) (parent : NodeId) (markup : String) :
    doc.parseInto parent markup = settle parent (tokens (.start markup.toList)) doc := rfl

/-- An accepted markup is read to its end in any document, and so is what follows it: at the offset
where the first ends, which only moves the offsets of the second. -/
theorem tokens_append {first second : String} {parsed : Document}
    (hfirst : Document.parse first = .ok parsed)
    (hsecond : second = "" ∨ ∃ rest, second = "<" ++ rest) :
    tokens (.start (first ++ second).toList) =
      ((tokens (.start first.toList)).1 ++
        (tokens (.start second.toList)).1.map (Token.shift first.utf8ByteSize),
      (tokens (.start second.toList)).2.map (Fault.shift first.utf8ByteSize)) := by
  obtain ⟨last, hreads, hlast⟩ := exists_reads (.start first.toList)
  have hend : last.rest = [] := by
    rcases hlast with ⟨hnil, -⟩ | ⟨-, fault, -, hfault⟩
    · exact hnil
    · rw [(read_of_parse hfirst).1] at hfault
      cases hfault
  have hstops : Stops (· != '<') second.toList := by
    rcases hsecond with rfl | ⟨rest, rfl⟩
    · intro c hc
      cases hc
    · rw [String.toList_append]
      exact stops_of_head rfl _
  have hoffset : last.offset = first.utf8ByteSize := by
    have hstop := ((within_start first).ahead hreads.ahead).offset_add
    rwa [hend, utf8Length_nil, Nat.add_zero] at hstop
  have hseam :
      last.extend second.toList = (Cursor.start second.toList).shift first.utf8ByteSize := by
    simp only [extend, Cursor.shift, start, hend, hoffset, List.nil_append, Nat.zero_add]
  have hread := (hreads.extend fun _ _ => hstops).tokens
  rw [hseam, tokens_shift] at hread
  rw [String.toList_append]
  exact hread

/-- Reading two markups together is reading one after the other, with the offsets of the whole, when
the first is accepted and the second begins with a tag or is empty. -/
theorem parseInto_append (doc : Document) (parent : NodeId) {first second : String}
    (hfirst : ∃ parsed, Document.parse first = .ok parsed)
    (hsecond : second = "" ∨ ∃ rest, second = "<" ++ rest) :
    (doc.parseInto parent first).2 = .ok () ∧
      (doc.parseInto parent (first ++ second)).1 =
        ((doc.parseInto parent first).1.parseInto parent second).1 ∧
      (doc.parseInto parent (first ++ second)).2 =
        ((doc.parseInto parent first).1.parseInto parent second).2.mapError
          (·.shift first.utf8ByteSize) := by
  obtain ⟨parsed, hparsed⟩ := hfirst
  obtain ⟨hread, hclosed⟩ := read_of_parse hparsed
  have hbuilt :
      ∃ built, build parent (tokens (.start first.toList)).1 doc [] = (built, .ok []) := by
    have hnest := (build_nest parent (tokens (.start first.toList)).1 doc []).trans hclosed
    rcases hbuild : build parent (tokens (.start first.toList)).1 doc [] with ⟨built, e | opened⟩
    · rw [hbuild] at hnest
      cases hnest
    · rw [hbuild] at hnest
      rw [List.map_eq_nil_iff.mp (Except.ok.inj hnest)]
      exact ⟨built, rfl⟩
  obtain ⟨built, hbuilt⟩ := hbuilt
  have haccepted : doc.parseInto parent first = (built, .ok ()) := by
    rw [parseInto_eq_settle, settle, hbuilt, hread]
    rfl
  have hwhole : doc.parseInto parent (first ++ second) =
      ((built.parseInto parent second).1,
        (built.parseInto parent second).2.mapError (·.shift first.utf8ByteSize)) := by
    rw [parseInto_eq_settle, tokens_append hparsed hsecond, settle_append parent hbuilt,
      settle_shift]
    rfl
  rw [haccepted, hwhole]
  exact ⟨rfl, rfl, rfl⟩

/-- An element with a character of two bytes, and behind it a tag that breaks off in a quote. -/
theorem accentedBold_append :
    (∃ parsed, Document.parse "<b>é</b>" = .ok parsed) ∧
    ((shortParagraph.parseInto 1 "<b>é</b>").1.parseInto 1 "<i q=\"").2 =
      .error (.unexpectedEnd 3) ∧
    (shortParagraph.parseInto 1 ("<b>é</b>" ++ "<i q=\"")).2 = .error (.unexpectedEnd 12) ∧
    (shortParagraph.parseInto 1 "<b>é</b>").2 = .ok () ∧
      (shortParagraph.parseInto 1 ("<b>é</b>" ++ "<i q=\"")).1 =
        ((shortParagraph.parseInto 1 "<b>é</b>").1.parseInto 1 "<i q=\"").1 ∧
      (shortParagraph.parseInto 1 ("<b>é</b>" ++ "<i q=\"")).2 =
        ((shortParagraph.parseInto 1 "<b>é</b>").1.parseInto 1 "<i q=\"").2.mapError
          (·.shift "<b>é</b>".utf8ByteSize) :=
  have hfirst : ∃ parsed, Document.parse "<b>é</b>" = .ok parsed :=
    ⟨_, (by decide +kernel : Document.parse "<b>é</b>" =
      .ok ⟨#[{ content := .document, children := [1] },
        { content := .element "b" [] none, parent := some 0, children := [2] },
        { content := .text "é", parent := some 1 }]⟩)⟩
  ⟨hfirst, by decide +kernel, by decide +kernel,
    parseInto_append shortParagraph 1 hfirst (Or.inr ⟨"i q=\"", rfl⟩)⟩

end Document
end ViewBinding
