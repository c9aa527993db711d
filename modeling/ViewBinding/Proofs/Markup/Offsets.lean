import Mathlib
import ViewBinding.Proofs.Markup.Bytewise

/-!
# Offsets of errors

An error that stops reading is about one token, all before which is read and placed (`StopsAt`). Its
offset is that of a place in this token: behind the sign that the token begins with, or where an
attribute or the end of the tag was expected (`FailsAt`).
-/

namespace ViewBinding

/-- The offset that an error carries. An element that is left open has none. -/
def MarkupError.offset? : MarkupError → Option Nat
  | unexpectedEnd offset | invalidTag offset | mismatchedClose _ _ offset => some offset
  | unclosed _ => none

namespace Markup

open Text Cursor

/-! ## Places of errors -/

/-- Attributes are read one after the other. -/
inductive ReadsAttributes : Cursor → Cursor → Prop
  | refl (c : Cursor) : ReadsAttributes c c
  | step {c next last : Cursor} {a : Attribute} : readAttribute c.skipBlanks = .ok (a, next) →
      ReadsAttributes next last → ReadsAttributes c last

/-- Where in the token that begins at a position an error of it lies. -/
inductive FailsAt (first : Cursor) : MarkupError → Cursor → Prop
  | comment {inside : Cursor} : first.eat? ['<', '!', '-', '-'] = some inside →
      FailsAt first (.unexpectedEnd inside.offset) inside
  | closing {inside : Cursor} : first.eat? ['<', '/'] = some inside →
      FailsAt first (.invalidTag inside.offset) inside
  | mismatch {inside : Cursor} {expected : Option String} {found : String} :
      first.eat? ['<', '/'] = some inside →
      FailsAt first (.mismatchedClose expected found inside.offset) inside
  | opening {inside : Cursor} : first.eat? ['<'] = some inside →
      first.eat? ['<', '!', '-', '-'] = none → first.eat? ['<', '/'] = none →
      FailsAt first (.invalidTag inside.offset) inside
  | among {inside named last : Cursor} {tag : String} {e : MarkupError} :
      first.eat? ['<'] = some inside → tagName? inside = some (tag, named) →
      ReadsAttributes named last → last.skipBlanks.eat? ['/', '>'] = none →
      last.skipBlanks.eat? ['>'] = none → readAttribute last.skipBlanks = .error e →
      FailsAt first e last.skipBlanks

variable {c first next place : Cursor} {e : MarkupError}

private theorem ReadsAttributes.ahead (h : ReadsAttributes c next) : c.Ahead next := by
  induction h with
  | refl c => exact Ahead.refl c
  | step hread _ ih => exact (ahead_skipBlanks _).trans ((ahead_readAttribute hread).trans ih)

private theorem FailsAt.ahead (h : FailsAt first e place) : first.Ahead place := by
  cases h with
  | comment heat | closing heat | mismatch heat | opening heat => exact (takes_of_eat? heat).ahead
  | among heat hname hreads =>
    exact (takes_of_eat? heat).ahead.trans ((ahead_tagName? hname).trans
      (hreads.ahead.trans (ahead_skipBlanks _)))

private theorem FailsAt.offset_eq (h : FailsAt first e place) : e.offset? = some place.offset := by
  cases h with
  | comment | closing | mismatch | opening => rfl
  | among _ _ _ _ _ hfail => rcases readAttribute_error hfail with rfl | rfl <;> rfl

private theorem exists_readsAttributes (h : (attributeList c).2 = .error e) :
    ∃ last, ReadsAttributes c last ∧ last.skipBlanks.eat? ['/', '>'] = none ∧
      last.skipBlanks.eat? ['>'] = none ∧ readAttribute last.skipBlanks = .error e := by
  fun_induction attributeList c with
  | case1 => cases h
  | case2 => cases h
  | case3 c hself hend e' hread =>
    obtain rfl : e' = e := Except.error.inj h
    exact ⟨c, .refl c, hself, hend, hread⟩
  | case4 c hself hend a after hread rest result hrec ih =>
    rw [hrec] at ih
    obtain ⟨last, hreads, hlast⟩ := ih h
    exact ⟨last, .step hread hreads, hlast⟩

private theorem exists_failsAt_of_fault {fault : Fault} (h : scan first = .fault fault) :
    ∃ place, FailsAt first fault.error place := by
  rcases scan_fault_cases h with ⟨inside, hcomment, -, herror⟩ | ⟨inside, hclosing, hfault⟩ |
    ⟨inside, hopening, hcomment, hclosing, hfault⟩
  · exact ⟨inside, herror ▸ .comment hcomment⟩
  · exact ⟨inside, scanClosing_fault hfault ▸ .closing hclosing⟩
  · rcases scanOpening_fault hfault with ⟨-, herror⟩ | ⟨tag, named, hname, hlist⟩
    · exact ⟨inside, herror ▸ .opening hopening hcomment hclosing⟩
    · obtain ⟨last, hreads, hself, hend, hfail⟩ := exists_readsAttributes hlist
      exact ⟨_, .among hopening hname hreads hself hend hfail⟩

private theorem exists_eat?_of_closing {tag : String} {offset : Nat}
    (h : scan first = .token (.closing tag offset) next) :
    ∃ inside, first.eat? ['<', '/'] = some inside ∧ inside.offset = offset := by
  unfold scan at h
  split at h
  · unfold scanComment at h
    split at h <;> cases h
  split at h
  · rename_i inside hclosing
    unfold scanClosing at h
    split at h
    · cases h
    · split at h
      · cases h
      · cases h
        exact ⟨inside, hclosing, rfl⟩
  split at h
  · unfold scanOpening at h
    split at h
    · cases h
    · split at h <;> cases h
  · cases h

/-! ## The token that fails -/

/-- Reading a markup into a document stops at the token that begins at a position: what is before it
is read and placed, and it cannot be read or does not fit. -/
inductive StopsAt (doc : Document) (parent : NodeId) (markup : String) (first : Cursor) :
    MarkupError → Prop
  | fault {ts : List Token} {built : Document} {opened : Opened} {fault : Fault} :
      Reads (.start markup.toList) ts first → build parent ts doc [] = (built, .ok opened) →
      scan first = .fault fault → StopsAt doc parent markup first fault.error
  | misfit {ts : List Token} {built after : Document} {opened : Opened} {t : Token}
      {next : Cursor} {e : MarkupError} :
      Reads (.start markup.toList) ts first → build parent ts doc [] = (built, .ok opened) →
      scan first = .token t next → build parent [t] built opened = (after, .error e) →
      StopsAt doc parent markup first e

private theorem build_singleton_error {parent : NodeId} {t : Token} {doc built : Document}
    {opened : Opened} (h : build parent [t] doc opened = (built, .error e)) :
    ∃ expected tag offset, t = .closing tag offset ∧ e = .mismatchedClose expected tag offset := by
  cases t with
  | comment | text => cases (Prod.mk.inj h).2
  | opening => cases (Prod.mk.inj h).2
  | closing tag offset =>
    rw [build] at h
    split at h
    · cases (Prod.mk.inj h).2
    · rename_i e' hclose
      obtain ⟨expected, herror⟩ := close_eq_error hclose
      cases (Prod.mk.inj h).2
      exact ⟨expected, tag, offset, rfl, herror⟩

private theorem Reads.exists_misfit {parent : NodeId} {ts : List Token} {last : Cursor}
    (h : Reads c ts last) {doc built : Document} {opened : Opened}
    (hbuild : build parent ts doc opened = (built, .error e)) :
    ∃ us first t next placed left, Reads c us first ∧
      build parent us doc opened = (placed, .ok left) ∧ scan first = .token t next ∧
      build parent [t] placed left = (built, .error e) := by
  induction h generalizing doc opened with
  | refl => cases (Prod.mk.inj hbuild).2
  | @step c next last t ts hne hscan hrest ih =>
    rw [build_cons] at hbuild
    rcases hfirst : build parent [t] doc opened with ⟨placed, e' | left⟩
    · rw [hfirst] at hbuild
      cases hbuild
      exact ⟨[], c, t, next, doc, opened, .refl c, rfl, hscan, hfirst⟩
    · rw [hfirst] at hbuild
      obtain ⟨us, first, u, behind, placed', left', hreads, hus, hscan', hmisfit⟩ := ih hbuild
      refine ⟨t :: us, first, u, behind, placed', left', .step hne hscan hreads, ?_, hscan', hmisfit⟩
      rw [build_cons, hfirst]
      exact hus

variable {doc : Document} {parent : NodeId} {markup : String}

private theorem StopsAt.within (h : StopsAt doc parent markup first e) : first.Within markup := by
  cases h with
  | fault hreads | misfit hreads => exact hreads.ahead

private theorem StopsAt.exists_failsAt (h : StopsAt doc parent markup first e) :
    ∃ place, FailsAt first e place := by
  cases h with
  | fault _ _ hscan => exact exists_failsAt_of_fault hscan
  | misfit _ _ hscan hmisfit =>
    obtain ⟨expected, tag, offset, rfl, rfl⟩ := build_singleton_error hmisfit
    obtain ⟨inside, hclosing, rfl⟩ := exists_eat?_of_closing hscan
    exact ⟨inside, .mismatch hclosing⟩

/-- A markup that is refused leaves an element open, or reading it stops at a token. -/
theorem exists_stopsAt (h : (doc.parseInto parent markup).2 = .error e) :
    (∃ tag, e = .unclosed tag) ∨ ∃ first, StopsAt doc parent markup first e := by
  obtain ⟨last, hreads, hlast⟩ := exists_reads (.start markup.toList)
  rw [Document.parseInto_eq_settle, settle] at h
  rcases hbuild : build parent (tokens (.start markup.toList)).1 doc [] with ⟨built, e' | opened⟩
  · rw [hbuild] at h
    cases h
    obtain ⟨us, first, t, next, placed, left, hus, hplaced, hscan, hmisfit⟩ :=
      hreads.exists_misfit hbuild
    exact Or.inr ⟨first, .misfit hus hplaced hscan hmisfit⟩
  · rw [hbuild] at h
    rcases hlast with ⟨-, hnone⟩ | ⟨-, fault, hscan, hfault⟩
    · rw [hnone] at h
      rcases opened with _ | ⟨⟨element, tag⟩, outer⟩
      · cases h
      · cases h
        exact Or.inl ⟨tag, rfl⟩
    · rw [hfault] at h
      cases h
      exact Or.inr ⟨last, .fault hreads hbuild hscan⟩

end Markup

namespace Document

open Markup Bytewise

/-- Reading any markup under any node looks only at slices that begin and end within it and between
two characters, and ends within as many turns of its main loop as the markup has bytes. From every
boundary of a character a turn of the main loop, and one of the loop over the attributes, gets further
or is the last. An offset that an error carries is a boundary of a character of the markup, in the
token at which reading stops: behind its sign, or where an attribute or its end was expected. -/
theorem parseInto_bounded (doc : Document) (parent : NodeId) (markup : String) :
    parseInto? markup doc parent = some (doc.parseInto parent markup) ∧
      (∀ pos, String.Pos.Raw.IsValid markup ⟨pos⟩ →
        (pos < markup.utf8ByteSize → Advances markup pos (scan? markup pos)) ∧
          Advances markup pos (attributeTurn? markup pos)) ∧
      ∀ e offset, (doc.parseInto parent markup).2 = .error e → e.offset? = some offset →
        (offset ≤ markup.utf8ByteSize ∧ String.Pos.Raw.IsValid markup ⟨offset⟩) ∧
          ∃ first place, StopsAt doc parent markup first e ∧ FailsAt first e place ∧
            place.offset = offset := by
  refine ⟨parseInto?_eq markup doc parent, fun pos hpos => ?_, fun e offset herror hoffset => ?_⟩
  · obtain ⟨c, hc, rfl⟩ := Cursor.exists_within hpos
    exact ⟨scan?_advances hc, attributeTurn?_advances hc⟩
  · rcases exists_stopsAt herror with ⟨tag, rfl⟩ | ⟨first, hstops⟩
    · cases hoffset
    · obtain ⟨place, hplace⟩ := hstops.exists_failsAt
      have hwithin := hstops.within.ahead hplace.ahead
      obtain rfl := Option.some.inj (hplace.offset_eq.symm.trans hoffset)
      exact ⟨⟨hwithin.offset_le, hwithin.isValid⟩, first, place, hstops, hplace, rfl⟩

/-- A quote that is left open behind a character of two bytes: the error is where its attribute was
expected. -/
theorem openQuote_bounded :
    (Document.empty.parseInto Document.root "é<p a='").2 = .error (.unexpectedEnd 5) ∧
      String.Pos.Raw.IsValid "é<p a='" ⟨5⟩ ∧
      ∃ first place, StopsAt .empty Document.root "é<p a='" first (.unexpectedEnd 5) ∧
        FailsAt first (.unexpectedEnd 5) place ∧ place.offset = 5 := by
  have herror : (Document.empty.parseInto Document.root "é<p a='").2 = .error (.unexpectedEnd 5) := by
    decide +kernel
  obtain ⟨-, -, herrors⟩ := parseInto_bounded .empty Document.root "é<p a='"
  obtain ⟨⟨-, hvalid⟩, hplace⟩ := herrors (.unexpectedEnd 5) 5 herror rfl
  exact ⟨herror, hvalid, hplace⟩

end Document
end ViewBinding
