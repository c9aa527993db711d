import Mathlib
import ViewBinding.Proofs.Text.Words
import ViewBinding.Selector

/-!
# The grammar of selectors

A selector is read just when it is written as a compound: perhaps a tag name, then ids and classes in
any order, with one id at most (`parse?_eq_some_iff`). An element is selected when it meets every part
of the compound, so the order of the parts does not matter (`parse?_written`).
-/

namespace ViewBinding.Selector

open Text

/-! ## Compounds -/

/-- A part of a selector behind the tag name. -/
inductive Piece where
  | id (name : String)
  | classed (name : String)
deriving DecidableEq, Repr

namespace Piece

def name : Piece → String
  | id name => name
  | classed name => name

def mark : Piece → Char
  | id _ => '#'
  | classed _ => '.'

def written (p : Piece) : String := String.ofList (p.mark :: p.name.toList)

def id? : Piece → Option String
  | id name => some name
  | classed _ => none

def class? : Piece → Option String
  | id _ => none
  | classed name => some name

end Piece

/-- A selector as it is written: perhaps a tag name, then pieces in their order. -/
structure Compound where
  tag : Option String
  pieces : List Piece
deriving DecidableEq, Repr

namespace Compound

def ids (c : Compound) : List String := c.pieces.filterMap Piece.id?

def classes (c : Compound) : List String := c.pieces.filterMap Piece.class?

def written (c : Compound) : String := c.tag.getD "" ++ String.join (c.pieces.map Piece.written)

/-- Every name is one, and there is one id at most. -/
structure Proper (c : Compound) : Prop where
  tag_isName : ∀ name ∈ c.tag, isName name.toList = true
  piece_isName : ∀ p ∈ c.pieces, isName p.name.toList = true
  one_id : c.ids.length ≤ 1

/-- What a compound asks for, with the tag in small letters. -/
def selector (c : Compound) : Selector where
  tag := c.tag.map lowercase
  id := c.ids.head?
  classes := c.classes

/-- An element meets a compound when it meets each part: its tag is the name but for capitals, its id
is the one that is asked for, and the classes are among the words of its class attribute. -/
structure Meets (c : Compound) (tag : String) (id classAttribute : Option String) : Prop where
  tag_eq : ∀ name ∈ c.tag, lowercase name = lowercase tag
  id_eq : ∀ name, Piece.id name ∈ c.pieces → id = some name
  class_mem : ∀ name, Piece.classed name ∈ c.pieces →
    ∃ text ∈ classAttribute, name.toList ∈ text.toList.splitOnP isClassSeparator

end Compound

/-! ## Cutting before each mark -/

private theorem isMark_eq_false {c : Char} (h : isNameChar c = true) : isMark c = false := by
  rw [isMark, Bool.or_eq_false_iff, beq_eq_false_iff_ne, beq_eq_false_iff_ne]
  constructor <;> rintro rfl <;> simp [isNameChar, Char.isAlphanum, Char.isAlpha, Char.isUpper,
    Char.isLower, Char.isDigit] at h

private theorem isMark_eq_false_of_isName {name : List Char} (h : isName name = true) :
    ∀ c ∈ name, isMark c = false :=
  fun c hc => isMark_eq_false (((isName_iff name).mp h).2 c hc)

private theorem pieces_append {run : List Char} (hrun : ∀ c ∈ run, isMark c = false)
    (rest : List Char) : pieces (run ++ rest) = (run ++ (pieces rest).1, (pieces rest).2) := by
  induction run with
  | nil => rfl
  | cons c run ih =>
    have hc : ¬ isMark c = true := by simp [hrun c (by simp)]
    rw [List.cons_append, pieces, ih fun d hd => hrun d (by simp [hd])]
    exact if_neg hc

private theorem pieces_mark {mark : Char} (hmark : isMark mark = true) (rest : List Char) :
    pieces (mark :: rest) = ([], (mark, (pieces rest).1) :: (pieces rest).2) := by
  rw [pieces]
  exact if_pos hmark

/-- A mark with the text behind it, as it is cut off. -/
def Piece.cut (p : Piece) : Char × List Char := (p.mark, p.name.toList)

private theorem Piece.isMark_mark (p : Piece) : isMark p.mark = true := by cases p <;> rfl

private theorem Piece.toList_written (p : Piece) : p.written.toList = p.mark :: p.name.toList := by
  rw [written, String.toList_ofList]

private theorem Compound.toList_written (c : Compound) :
    c.written.toList = (c.tag.getD "").toList ++ c.pieces.flatMap fun p => p.mark :: p.name.toList := by
  rw [written, String.toList_append, String.toList_join, List.flatMap_map]
  simp only [Piece.toList_written]

private theorem pieces_written {run : List Char} {ps : List Piece}
    (hrun : ∀ c ∈ run, isMark c = false) (hps : ∀ p ∈ ps, ∀ c ∈ p.name.toList, isMark c = false) :
    pieces (run ++ ps.flatMap fun p => p.mark :: p.name.toList) = (run, ps.map Piece.cut) := by
  have htail : pieces (ps.flatMap fun p => p.mark :: p.name.toList) = ([], ps.map Piece.cut) := by
    induction ps with
    | nil => rfl
    | cons p ps ih =>
      rw [List.flatMap_cons, List.cons_append, pieces_mark p.isMark_mark,
        pieces_append (hps p (by simp)), ih fun q hq => hps q (by simp [hq]), List.append_nil]
      rfl
  rw [pieces_append hrun, htail, List.append_nil]

private theorem exists_cut {mark : Char} (hmark : isMark mark = true) (name : List Char) :
    ∃ p : Piece, p.cut = (mark, name) := by
  simp only [isMark, Bool.or_eq_true, beq_iff_eq] at hmark
  rcases hmark with rfl | rfl
  · exact ⟨.id (String.ofList name), by simp [Piece.cut, Piece.mark, Piece.name]⟩
  · exact ⟨.classed (String.ofList name), by simp [Piece.cut, Piece.mark, Piece.name]⟩

private theorem exists_pieces (text : List Char) :
    ∃ ps : List Piece, (pieces text).2 = ps.map Piece.cut ∧
      text = (pieces text).1 ++ ps.flatMap fun p => p.mark :: p.name.toList := by
  induction text with
  | nil => exact ⟨[], rfl, rfl⟩
  | cons c text ih =>
    obtain ⟨ps, hps, htext⟩ := ih
    by_cases hc : isMark c = true
    · obtain ⟨p, hp⟩ := exists_cut hc (pieces text).1
      obtain ⟨hmark, hname⟩ := Prod.mk.inj hp
      refine ⟨p :: ps, ?_, ?_⟩
      · rw [pieces_mark hc, List.map_cons, hp, hps]
      · rw [pieces_mark hc, List.nil_append, List.flatMap_cons, hmark, hname, List.cons_append,
          ← htext]
    · have hrun : ∀ d ∈ [c], isMark d = false := by simpa using hc
      have hcut := pieces_append hrun text
      rw [List.singleton_append, List.singleton_append] at hcut
      rw [hcut]
      exact ⟨ps, hps, congrArg (List.cons c) htext⟩

/-! ## Adding the pieces -/

private theorem addPiece?_cut (s : Selector) (p : Piece) :
    addPiece? s p.cut =
      if isName p.name.toList = true ∧ (s.id.toList ++ p.id?.toList).length ≤ 1 then
        some { s with id := s.id.or p.id?, classes := s.classes ++ p.class?.toList }
      else none := by
  rcases s with ⟨tag, _ | id, classes⟩ <;> cases p with
  | id name =>
    by_cases hname : isName name.toList = true <;>
      simp [addPiece?, Piece.cut, Piece.mark, Piece.name, Piece.id?, Piece.class?, hname]
  | classed name =>
    by_cases hname : isName name.toList = true <;>
      simp [addPiece?, Piece.cut, Piece.mark, Piece.name, Piece.id?, Piece.class?, hname]

private theorem filterMap_cons_eq {α β : Type} (f : α → Option β) (a : α) (as : List α) :
    (a :: as).filterMap f = (f a).toList ++ as.filterMap f := by
  rw [List.filterMap_cons]
  cases f a <;> rfl

private theorem foldlM_addPiece? (ps : List Piece) (s s' : Selector) :
    (ps.map Piece.cut).foldlM addPiece? s = some s' ↔
      (∀ p ∈ ps, isName p.name.toList = true) ∧
        (s.id.toList ++ ps.filterMap Piece.id?).length ≤ 1 ∧
          s' = { s with
            id := (s.id.toList ++ ps.filterMap Piece.id?).head?
            classes := s.classes ++ ps.filterMap Piece.class? } := by
  induction ps generalizing s with
  | nil =>
    rcases s with ⟨tag, _ | id, classes⟩ <;> simp [@eq_comm _ s']
  | cons p ps ih =>
    rw [List.map_cons, List.foldlM_cons, addPiece?_cut, List.forall_mem_cons, filterMap_cons_eq,
      filterMap_cons_eq, ← List.append_assoc, ← List.append_assoc]
    by_cases hadded : isName p.name.toList = true ∧ (s.id.toList ++ p.id?.toList).length ≤ 1
    · have hid : (s.id.or p.id?).toList = s.id.toList ++ p.id?.toList := by
        have hone := hadded.2
        cases hs : s.id with
        | none => rfl
        | some id =>
          cases hp : p.id? with
          | none => rfl
          | some other => simp [hs, hp] at hone
      rw [if_pos hadded, Option.bind_eq_bind, Option.bind_some, ih, hid]
      simp only [hadded.1, true_and]
    · rw [if_neg hadded]
      refine iff_of_false (by simp) ?_
      rintro ⟨⟨hname, -⟩, hone, -⟩
      refine hadded ⟨hname, ?_⟩
      rw [List.length_append] at hone
      omega

/-! ## Reading and matching -/

private theorem parse?_of_pieces {text : String} {run : List Char} {ps : List Piece}
    (hne : trim text ≠ "") (hcut : pieces (trim text).toList = (run, ps.map Piece.cut)) :
    parse? text =
      if run = [] then (ps.map Piece.cut).foldlM addPiece? {}
      else if isName run = true then
        (ps.map Piece.cut).foldlM addPiece? { tag := some (lowercase (String.ofList run)) }
      else none := by
  have hinput : (trim text).toList = trimChars text.toList := String.toList_ofList
  have hempty : ¬ trimChars text.toList = [] := by simpa [trim] using hne
  rw [hinput] at hcut
  rw [parse?]
  simp only [List.isEmpty_iff, if_neg hempty, hcut]

/-- A selector is read just when it is written as a compound that is proper. -/
theorem parse?_eq_some_iff {text : String} {s : Selector} :
    parse? text = some s ↔ trim text ≠ "" ∧
      ∃ c : Compound, c.Proper ∧ c.written = trim text ∧ s = c.selector := by
  constructor
  · intro h
    have hne : trim text ≠ "" := by
      intro hempty
      have hchars : (trimChars text.toList).isEmpty = true := by simpa [trim] using hempty
      rw [parse?] at h
      simp [hchars] at h
    refine ⟨hne, ?_⟩
    obtain ⟨ps, hps, htext⟩ := exists_pieces (trim text).toList
    rcases hcut : pieces (trim text).toList with ⟨run, marked⟩
    rw [hcut] at hps htext
    obtain rfl : marked = ps.map Piece.cut := hps
    rw [parse?_of_pieces hne hcut] at h
    split at h
    · rename_i hrun
      obtain ⟨hnames, hone, rfl⟩ := (foldlM_addPiece? ps _ s).mp h
      refine ⟨⟨none, ps⟩, ⟨by simp, hnames, hone⟩, String.toList_inj.mp ?_, rfl⟩
      rw [Compound.toList_written, htext, hrun]
      rfl
    · split at h
      · rename_i hrun
        obtain ⟨hnames, hone, rfl⟩ := (foldlM_addPiece? ps _ s).mp h
        refine ⟨⟨some (String.ofList run), ps⟩, ⟨by simpa using hrun, hnames, hone⟩,
          String.toList_inj.mp ?_, rfl⟩
        rw [Compound.toList_written, htext, Option.getD_some, String.toList_ofList]
      · cases h
  · rintro ⟨hne, ⟨tag, ps⟩, ⟨htag, hnames, hone⟩, hwritten, rfl⟩
    have hmarks : ∀ p ∈ ps, ∀ c ∈ p.name.toList, isMark c = false :=
      fun p hp => isMark_eq_false_of_isName (hnames p hp)
    have hcut (run : String) (htag : tag.getD "" = run)
        (hrun : ∀ c ∈ run.toList, isMark c = false) :
        pieces (trim text).toList = (run.toList, ps.map Piece.cut) := by
      rw [← hwritten, Compound.toList_written, htag, pieces_written hrun hmarks]
    cases tag with
    | none =>
      rw [parse?_of_pieces hne (hcut "" rfl (by simp)), if_pos (by simp)]
      exact (foldlM_addPiece? ps _ _).mpr ⟨hnames, hone, rfl⟩
    | some name =>
      have hname := htag name rfl
      rw [parse?_of_pieces hne (hcut name rfl (isMark_eq_false_of_isName hname)),
        if_neg ((isName_iff _).mp hname).1, if_pos hname, String.ofList_toList]
      exact (foldlM_addPiece? ps _ _).mpr ⟨hnames, hone, rfl⟩

theorem mem_classWords_iff {name : String} (hname : isName name.toList = true)
    (classAttribute : Option String) :
    name ∈ classWords classAttribute ↔
      ∃ text ∈ classAttribute, name.toList ∈ text.toList.splitOnP isClassSeparator := by
  have hne := ((isName_iff _).mp hname).1
  cases classAttribute with
  | none => simp [classWords]
  | some text =>
    simp only [classWords, wordsBy_eq_filter, List.mem_map, List.mem_filter, Option.mem_def,
      Option.some.injEq, exists_eq_left']
    constructor
    · rintro ⟨word, ⟨hword, -⟩, rfl⟩
      rwa [String.toList_ofList]
    · exact fun hword => ⟨name.toList, ⟨hword, by simpa using hne⟩, String.ofList_toList⟩

/-- A selector accepts the elements that meet the compound it was read from. -/
theorem accepts_selector {c : Compound} (hc : c.Proper) (tag : String)
    (id classAttribute : Option String) :
    c.selector.accepts tag id classAttribute = true ↔ c.Meets tag id classAttribute := by
  have hids (name : String) : name ∈ c.ids ↔ Piece.id name ∈ c.pieces := by
    rw [Compound.ids, List.mem_filterMap]
    refine ⟨?_, fun h => ⟨_, h, rfl⟩⟩
    rintro ⟨p | p, hp, ⟨⟩⟩
    exact hp
  have hclasses (name : String) : name ∈ c.classes ↔ Piece.classed name ∈ c.pieces := by
    rw [Compound.classes, List.mem_filterMap]
    refine ⟨?_, fun h => ⟨_, h, rfl⟩⟩
    rintro ⟨p | p, hp, ⟨⟩⟩
    exact hp
  have htag : (c.selector.tag.all fun wanted => lowercase wanted == lowercase tag) = true ↔
      ∀ name ∈ c.tag, lowercase name = lowercase tag := by
    rw [Compound.selector]
    cases c.tag <;> simp [lowercase_lowercase]
  have hid : (c.selector.id.isNone || c.selector.id == id) = true ↔
      ∀ name, Piece.id name ∈ c.pieces → id = some name := by
    simp only [← hids]
    have hone := hc.one_id
    rw [Compound.selector]
    rcases hlist : c.ids with _ | ⟨wanted, _ | ⟨other, rest⟩⟩
    · simp
    · simp [@eq_comm _ id]
    · simp [hlist] at hone
  have hclass : c.selector.classes.all (classWords classAttribute).contains = true ↔
      ∀ name, Piece.classed name ∈ c.pieces →
        ∃ text ∈ classAttribute, name.toList ∈ text.toList.splitOnP isClassSeparator := by
    rw [List.all_eq_true, Compound.selector]
    simp only [hclasses, List.contains_iff_mem]
    exact forall₂_congr fun name hname =>
      mem_classWords_iff (hc.piece_isName _ hname) classAttribute
  rw [accepts, Bool.and_eq_true, Bool.and_eq_true, htag, hid, hclass]
  exact ⟨fun ⟨⟨htag, hid⟩, hclass⟩ => ⟨htag, hid, hclass⟩,
    fun ⟨htag, hid, hclass⟩ => ⟨⟨htag, hid⟩, hclass⟩⟩

/-! ## Reordering -/

private theorem Compound.Proper.reorder {c c' : Compound} (hc : c.Proper) (htag : c'.tag = c.tag)
    (hperm : c'.pieces.Perm c.pieces) : c'.Proper where
  tag_isName := by rw [htag]; exact hc.tag_isName
  piece_isName p hp := hc.piece_isName p (hperm.mem_iff.mp hp)
  one_id := by
    rw [Compound.ids, (hperm.filterMap Piece.id?).length_eq]
    exact hc.one_id

theorem Compound.Proper.written_eq_empty_iff {c : Compound} (hc : c.Proper) :
    c.written = "" ↔ c.tag = none ∧ c.pieces = [] := by
  rw [← String.toList_inj, Compound.toList_written, String.toList_empty, List.append_eq_nil_iff]
  refine and_congr ?_ ?_
  · cases htag : c.tag with
    | none => simp
    | some name => simpa using ((isName_iff _).mp (hc.tag_isName name htag)).1
  · cases c.pieces <;> simp

private theorem Compound.meets_reorder {c c' : Compound} (htag : c'.tag = c.tag)
    (hperm : c'.pieces.Perm c.pieces) (tag : String) (id classAttribute : Option String) :
    c'.Meets tag id classAttribute ↔ c.Meets tag id classAttribute := by
  constructor <;> rintro ⟨htagEq, hid, hclass⟩
  · exact ⟨htag ▸ htagEq, fun name hname => hid name (hperm.mem_iff.mpr hname),
      fun name hname => hclass name (hperm.mem_iff.mpr hname)⟩
  · exact ⟨htag ▸ htagEq, fun name hname => hid name (hperm.mem_iff.mp hname),
      fun name hname => hclass name (hperm.mem_iff.mp hname)⟩

/-- A text is read as a selector just when it is not blank and is written, but for blanks around it,
as a proper compound: a tag name or none, then ids and classes, with one id at most. The selector has
the tag in small letters, the id, and the classes in order; it accepts the elements that meet each part
of the compound. The same parts in another order are read too, and accept the same elements. -/
theorem parse?_written (text : String) :
    ((∃ s, parse? text = some s) ↔
      trim text ≠ "" ∧ ∃ c : Compound, c.Proper ∧ c.written = trim text) ∧
    ∀ c : Compound, c.Proper → c.written = trim text → trim text ≠ "" →
      ∃ s, parse? text = some s ∧
        s.tag = c.tag.map lowercase ∧ s.id = c.ids.head? ∧ s.classes = c.classes ∧
        (∀ tag id classAttribute,
          s.accepts tag id classAttribute = true ↔ c.Meets tag id classAttribute) ∧
        ∀ (other : String) (c' : Compound), c'.tag = c.tag → c'.pieces.Perm c.pieces →
          c'.written = trim other → ∃ s', parse? other = some s' ∧
            ∀ tag id classAttribute,
              s'.accepts tag id classAttribute = s.accepts tag id classAttribute := by
  refine ⟨?_, fun c hc hwritten hne => ⟨c.selector, parse?_eq_some_iff.mpr ⟨hne, c, hc, hwritten, rfl⟩,
    rfl, rfl, rfl, accepts_selector hc, fun other c' htag hperm hother => ?_⟩⟩
  · simp only [parse?_eq_some_iff]
    constructor
    · rintro ⟨s, hne, c, hc, hwritten, -⟩
      exact ⟨hne, c, hc, hwritten⟩
    · rintro ⟨hne, c, hc, hwritten⟩
      exact ⟨c.selector, hne, c, hc, hwritten, rfl⟩
  · have hc' := hc.reorder htag hperm
    have hother_ne : trim other ≠ "" := by
      rw [← hwritten, Ne, hc.written_eq_empty_iff] at hne
      rw [← hother, Ne, hc'.written_eq_empty_iff, htag]
      rintro ⟨hnone, hnil⟩
      rw [hnil] at hperm
      exact hne ⟨hnone, hperm.symm.eq_nil⟩
    refine ⟨c'.selector, parse?_eq_some_iff.mpr ⟨hother_ne, c', hc', hother, rfl⟩,
      fun tag id classAttribute => ?_⟩
    rw [Bool.eq_iff_iff, accepts_selector hc', accepts_selector hc,
      Compound.meets_reorder htag hperm]

/-- An input with an id between two classes is also found with the id in front. -/
theorem inputField_written :
    (⟨some "Input", [.classed "field", .id "name", .classed "wide"]⟩ : Compound).Proper ∧
      ∃ s, parse? " Input.field#name.wide\n" = some s ∧
        s.tag = some "input" ∧ s.id = some "name" ∧ s.classes = ["field", "wide"] ∧
          ∃ s', parse? "Input#name.wide.field" = some s' ∧
            ∀ tag id classAttribute,
              s'.accepts tag id classAttribute = s.accepts tag id classAttribute := by
  have hproper : (⟨some "Input", [.classed "field", .id "name", .classed "wide"]⟩ : Compound).Proper :=
    ⟨by decide, by decide, by decide⟩
  obtain ⟨s, hs, htag, hid, hclasses, -, hreorder⟩ :=
    (parse?_written " Input.field#name.wide\n").2 _ hproper (by decide) (by decide)
  refine ⟨hproper, s, hs, htag.trans (by decide), hid, hclasses, ?_⟩
  exact hreorder "Input#name.wide.field"
    ⟨some "Input", [.id "name", .classed "wide", .classed "field"]⟩ rfl (by decide) (by decide)

end ViewBinding.Selector
