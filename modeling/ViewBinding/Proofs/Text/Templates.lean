import Mathlib
import ViewBinding.Proofs.Text.Slices
import ViewBinding.Template

/-!
# The span of a template

A text is a template when it can be cut at its leftmost opening delimiter and at the first closing
delimiter behind it, with a key between them (`parse?_eq_some_iff`). A text has one such cut at most,
so whatever stands behind the first span is never read (`parse?_cut`). The bytes of the span can be
added up while the delimiters are found, and serve to render the template (`readBytes?_eq`,
`renderBytes?_eq`).
-/

namespace ViewBinding.Template

open Text

/-- A text cut around a span: no opening delimiter begins before the span, and no closing one within
what stands between the delimiters. -/
structure Cut (marks : Delimiters) (text leading inner trailing : String) : Prop where
  text_eq : text = leading ++ marks.opening ++ inner ++ marks.closing ++ trailing
  opening_leftmost : ∀ i < leading.length, ¬ marks.opening.toList <+: text.toList.drop i
  closing_first : ∀ i < inner.length,
    ¬ marks.closing.toList <+: (inner ++ marks.closing ++ trailing).toList.drop i

variable {marks : Delimiters} {text leading inner trailing : String}

theorem cut_iff : Cut marks text leading inner trailing ↔ ∃ rest,
    splitAtFirst marks.opening.toList text.toList = some (leading.toList, rest) ∧
      splitAtFirst marks.closing.toList rest = some (inner.toList, trailing.toList) := by
  simp only [splitAtFirst_eq_some_iff, String.length_toList]
  constructor
  · rintro ⟨rfl, hopening, hclosing⟩
    refine ⟨(inner ++ marks.closing ++ trailing).toList, ⟨?_, hopening⟩, ?_, hclosing⟩ <;> simp
  · rintro ⟨_, ⟨htext, hopening⟩, rfl, hclosing⟩
    refine ⟨String.toList_inj.mp ?_, hopening, fun i hi => ?_⟩
    · simp [htext]
    · simpa using hclosing i hi

/-- There is one way only to cut a text. -/
theorem Cut.unique {leading' inner' trailing' : String} (h : Cut marks text leading inner trailing)
    (h' : Cut marks text leading' inner' trailing') :
    leading' = leading ∧ inner' = inner ∧ trailing' = trailing := by
  obtain ⟨rest, hopening, hclosing⟩ := cut_iff.mp h
  obtain ⟨rest', hopening', hclosing'⟩ := cut_iff.mp h'
  obtain ⟨hleading, rfl⟩ := Prod.mk.inj (Option.some.inj (hopening'.symm.trans hopening))
  obtain ⟨hinner, htrailing⟩ := Prod.mk.inj (Option.some.inj (hclosing'.symm.trans hclosing))
  exact ⟨String.toList_inj.mp hleading, String.toList_inj.mp hinner, String.toList_inj.mp htrailing⟩

/-- The template that is read from a cut. -/
def ofCut (marks : Delimiters) (leading inner trailing : String) : Template where
  leading := leading
  span := marks.opening ++ inner ++ marks.closing
  key := trim inner
  trailing := trailing

/-- A text is a template just when it is cut around a key. -/
theorem parse?_eq_some_iff {t : Template} :
    parse? marks text = some t ↔ (marks.opening ≠ "" ∧ marks.closing ≠ "") ∧
      ∃ leading inner trailing, Cut marks text leading inner trailing ∧ trim inner ≠ "" ∧
        t = ofCut marks leading inner trailing := by
  have hempty (s : String) : s.toList.isEmpty = false ↔ s ≠ "" := by simp
  simp only [parse?, Option.bind_eq_bind, Option.bind_eq_some_iff, Option.guard_eq_some', cut_iff,
    Bool.and_eq_true, Bool.not_eq_true', hempty, Prod.exists, exists_const]
  refine and_congr_right fun _ => ?_
  constructor
  · rintro ⟨before, rest, hopening, within, after, hclosing, hkey, ht⟩
    refine ⟨String.ofList before, String.ofList within, String.ofList after,
      ⟨rest, by simpa using hopening, by simpa using hclosing⟩, ?_, ?_⟩
    · simpa [trim] using hkey
    · rw [← Option.some.inj ht]
      simp [ofCut, trim, String.append_assoc]
  · rintro ⟨leading, inner, trailing, ⟨rest, hopening, hclosing⟩, hkey, rfl⟩
    refine ⟨leading.toList, rest, hopening, inner.toList, trailing.toList, hclosing, ?_, ?_⟩
    · simpa [trim] using hkey
    · simp [ofCut, trim, String.append_assoc]

private theorem source_ofCut (h : Cut marks text leading inner trailing) :
    (ofCut marks leading inner trailing).source = text := by
  simp [source, ofCut, h.text_eq, String.append_assoc]

private theorem spanStart_ofCut (marks : Delimiters) (leading inner trailing : String) :
    (ofCut marks leading inner trailing).spanStart = leading.utf8ByteSize :=
  utf8Length_toList leading

private theorem spanEnd_ofCut (marks : Delimiters) (leading inner trailing : String) :
    (ofCut marks leading inner trailing).spanEnd =
      (leading ++ marks.opening ++ inner ++ marks.closing).utf8ByteSize := by
  rw [spanEnd, spanStart_ofCut, utf8Length_toList, ofCut]
  simp only [String.utf8ByteSize_append, Nat.add_assoc]

private theorem isValid_spanStart (h : Cut marks text leading inner trailing) :
    String.Pos.Raw.IsValid text ⟨leading.utf8ByteSize⟩ :=
  isValid_iff.mpr ⟨leading.toList, (marks.opening ++ inner ++ marks.closing ++ trailing).toList,
    by simp [h.text_eq], (utf8Length_toList leading).symm⟩

private theorem isValid_spanEnd (h : Cut marks text leading inner trailing) :
    String.Pos.Raw.IsValid text ⟨(leading ++ marks.opening ++ inner ++ marks.closing).utf8ByteSize⟩ :=
  isValid_iff.mpr ⟨(leading ++ marks.opening ++ inner ++ marks.closing).toList, trailing.toList,
    by simp [h.text_eq], (utf8Length_toList _).symm⟩

/-! ## Reading and rendering by bytes -/

/-- Reads where the span of a text begins and ends, and its key, from the bytes at which the delimiters
are found. -/
def readBytes? (marks : Delimiters) (text : String) : Option (Option ((Nat × Nat) × String)) := do
  if marks.opening.toList.isEmpty || marks.closing.toList.isEmpty then return none
  let some start ← find? text marks.opening.toList 0 | return none
  let innerStart := start + marks.opening.utf8ByteSize
  let some innerEnd ← find? text marks.closing.toList innerStart | return none
  let key := trimChars (← slice? text innerStart innerEnd)
  if key.isEmpty then return none
  return some ((start, innerEnd + marks.closing.utf8ByteSize), String.ofList key)

/-- Puts a value in the place of some bytes of a text. -/
def renderBytes? (text : String) (start stop : Nat) (value : String) : Option String := do
  let leading ← slice? text 0 start
  let trailing ← behind? text stop
  return String.ofList leading ++ value ++ String.ofList trailing

/-- The bytes at which the delimiters are found are in place, and lead to the span of the template. -/
theorem readBytes?_eq (marks : Delimiters) (text : String) :
    readBytes? marks text =
      some ((parse? marks text).map fun t => ((t.spanStart, t.spanEnd), t.key)) := by
  have hstart := find?_eq (List.nil_append text.toList).symm marks.opening.toList
  rw [utf8Length_nil] at hstart
  rw [readBytes?, parse?, hstart, ← Bool.not_or]
  cases marks.opening.toList.isEmpty || marks.closing.toList.isEmpty with
  | true => rfl
  | false =>
    cases hopening : splitAtFirst marks.opening.toList text.toList with
    | none => rfl
    | some cut =>
      obtain ⟨before, rest⟩ := cut
      have htext := splitAtFirst_eq_some hopening
      have hend := find?_eq htext marks.closing.toList
      rw [utf8Length_append, utf8Length_toList] at hend
      simp only [Option.map_some, Nat.zero_add]
      cases hclosing : splitAtFirst marks.closing.toList rest with
      | none =>
        simp [hend, hclosing]
      | some cut =>
        obtain ⟨inner, after⟩ := cut
        have hrest : text.toList =
            (before ++ marks.opening.toList) ++ (inner ++ (marks.closing.toList ++ after)) := by
          rw [htext, splitAtFirst_eq_some hclosing, List.append_assoc inner]
        have hinner := slice?_eq hrest
        rw [utf8Length_append, utf8Length_toList] at hinner
        by_cases hkey : trimChars inner = []
        · simp [hend, hclosing, hinner, hkey]
        · have hbytes : utf8Length before + marks.opening.utf8ByteSize + utf8Length inner +
              marks.closing.utf8ByteSize = utf8Length before + (utf8Length marks.opening.toList +
                (utf8Length inner + utf8Length marks.closing.toList)) := by
            rw [utf8Length_toList, utf8Length_toList]
            omega
          simp [hend, hclosing, hinner, hkey, spanStart, spanEnd, hbytes]

theorem renderBytes?_eq (t : Template) (value : String) :
    renderBytes? t.source t.spanStart t.spanEnd value = some (t.render value) := by
  have hsource : t.source.toList = [] ++ (t.leading.toList ++ (t.span.toList ++ t.trailing.toList)) := by
    simp [source]
  have hbehind : t.source.toList = (t.leading.toList ++ t.span.toList) ++ t.trailing.toList := by
    simp [source]
  have hleading := slice?_eq hsource
  have htrailing := behind?_eq hbehind
  rw [utf8Length_nil, Nat.zero_add] at hleading
  rw [utf8Length_append] at htrailing
  rw [renderBytes?, spanEnd, spanStart, hleading]
  simp [htrailing, render]

/-- Reading gives a template just when the text is cut around a key by delimiters that are not empty.
A text has one cut at most. The template of a cut has the trimmed key, knows the text and where in its
bytes the span stands, and puts any value in the place of the span and nothing else; with a blank key
there is no template, whatever follows. Reading from the bytes at which the delimiters are found and
rendering from the bytes of the span come to the same, and slice the text between characters only. -/
theorem parse?_cut (marks : Delimiters) (text : String) :
    ((∃ t, parse? marks text = some t) ↔ (marks.opening ≠ "" ∧ marks.closing ≠ "") ∧
      ∃ leading inner trailing, Cut marks text leading inner trailing ∧ trim inner ≠ "") ∧
    readBytes? marks text =
      some ((parse? marks text).map fun t => ((t.spanStart, t.spanEnd), t.key)) ∧
    ∀ leading inner trailing, Cut marks text leading inner trailing →
      (∀ leading' inner' trailing', Cut marks text leading' inner' trailing' →
        leading' = leading ∧ inner' = inner ∧ trailing' = trailing) ∧
      (trim inner = "" → parse? marks text = none) ∧
      ∀ t, parse? marks text = some t →
        t.key = trim inner ∧ t.source = text ∧
          t.spanStart = leading.utf8ByteSize ∧
          t.spanEnd = (leading ++ marks.opening ++ inner ++ marks.closing).utf8ByteSize ∧
          (String.Pos.Raw.IsValid text ⟨t.spanStart⟩ ∧ String.Pos.Raw.IsValid text ⟨t.spanEnd⟩) ∧
          ∀ value, t.render value = leading ++ value ++ trailing ∧
            renderBytes? text t.spanStart t.spanEnd value = some (t.render value) := by
  refine ⟨?_, readBytes?_eq marks text, fun leading inner trailing hcut =>
    ⟨fun _ _ _ => hcut.unique, fun hblank => ?_, fun t ht => ?_⟩⟩
  · simp only [parse?_eq_some_iff]
    constructor
    · rintro ⟨t, hmarks, leading, inner, trailing, hcut, hkey, -⟩
      exact ⟨hmarks, leading, inner, trailing, hcut, hkey⟩
    · rintro ⟨hmarks, leading, inner, trailing, hcut, hkey⟩
      exact ⟨_, hmarks, leading, inner, trailing, hcut, hkey, rfl⟩
  · rw [Option.eq_none_iff_forall_ne_some]
    intro t ht
    obtain ⟨-, leading', inner', trailing', hcut', hkey, -⟩ := parse?_eq_some_iff.mp ht
    obtain ⟨-, rfl, -⟩ := hcut.unique hcut'
    exact hkey hblank
  · obtain ⟨-, leading', inner', trailing', hcut', -, rfl⟩ := parse?_eq_some_iff.mp ht
    obtain ⟨rfl, rfl, rfl⟩ := hcut.unique hcut'
    have hrender := renderBytes?_eq (ofCut marks leading' inner' trailing')
    rw [source_ofCut hcut] at hrender
    refine ⟨rfl, source_ofCut hcut, spanStart_ofCut _ _ _ _, spanEnd_ofCut _ _ _ _, ?_,
      fun value => ⟨rfl, hrender value⟩⟩
    rw [spanStart_ofCut, spanEnd_ofCut]
    exact ⟨isValid_spanStart hcut, isValid_spanEnd hcut⟩

/-- Three braces open a span at the first two, and the second span is never read. -/
theorem threeBraces_cut :
    Cut .standard "é\x7b\x7b\x7b a \x7d\x7d, \x7b\x7b b \x7d\x7d" "é" "\x7b a "
        ", \x7b\x7b b \x7d\x7d" ∧
      ∃ t, parse? .standard "é\x7b\x7b\x7b a \x7d\x7d, \x7b\x7b b \x7d\x7d" = some t ∧
        t.key = "\x7b a" ∧ (t.spanStart = 2 ∧ t.spanEnd = 10) ∧
          ∀ value, t.render value = "é" ++ value ++ ", \x7b\x7b b \x7d\x7d" := by
  have hcut : Cut .standard "é\x7b\x7b\x7b a \x7d\x7d, \x7b\x7b b \x7d\x7d" "é" "\x7b a "
      ", \x7b\x7b b \x7d\x7d" := ⟨by decide, by decide, by decide⟩
  obtain ⟨hiff, -, hall⟩ := parse?_cut .standard "é\x7b\x7b\x7b a \x7d\x7d, \x7b\x7b b \x7d\x7d"
  obtain ⟨t, ht⟩ := hiff.mpr ⟨by decide, _, _, _, hcut, by decide⟩
  obtain ⟨hkey, -, hstart, hend, -, hrender⟩ := (hall _ _ _ hcut).2.2 t ht
  exact ⟨hcut, t, ht, hkey.trans (by decide), ⟨hstart.trans (by decide), hend.trans (by decide)⟩,
    fun value => (hrender value).1⟩

end ViewBinding.Template
