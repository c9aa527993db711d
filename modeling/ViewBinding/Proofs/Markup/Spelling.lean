import Mathlib
import ViewBinding.Markup.Build
import ViewBinding.Proofs.Document.Depiction
import ViewBinding.Proofs.Markup.Scanning

/-!
# Forests in tokens

`Spells` relates a forest to the sequences of tokens that stand for it. A forest that can be written
(`Forest.Writable`) is read back as tokens that spell it (`Forest.Writable.exists_tokens`). In the
other direction, tokens that close every element they open spell a forest (`exists_spells_of_build`),
and when they were read from markup the forest can be written (`Spells.writable`).
-/

namespace ViewBinding

/-- The attributes of an element that are set from those of a tag one after another. -/
def settledAttributes (attributes : List Attribute) : List Attribute :=
  attributes.foldl (fun settled a => setAttributeValue (Text.lowercase a.name) a.value settled) []

theorem settledAttributes_concat (attributes : List Attribute) (a : Attribute) :
    settledAttributes (attributes ++ [a]) =
      setAttributeValue (Text.lowercase a.name) a.value (settledAttributes attributes) :=
  List.foldl_concat ..

/-- Forests that markup can express. -/
def Forest.Writable : Forest → Prop
  | .nil => True
  | .text data rest => data ≠ "" ∧ rest.beginsWithText = false ∧ rest.Writable
  | .comment data rest => ¬ ['-', '-', '>'] <:+: data.toList ∧ rest.Writable
  | .element tag attributes inside rest =>
    (Text.isName tag.toList = true ∧ Text.lowercase tag = tag) ∧
      (∀ a ∈ attributes, Markup.IsAttributeName a.name ∧ Text.lowercase a.name = a.name) ∧
      (attributes.map Attribute.name).Nodup ∧ (Markup.isVoid tag = true → inside = .nil) ∧
      inside.Writable ∧ rest.Writable

namespace Markup

open Text

/-- The tokens stand for the forest. -/
inductive Spells : Forest → List Token → Prop
  | nil : Spells .nil []
  | text {data rest ts} : Spells rest ts → Spells (.text data rest) (.text data :: ts)
  | comment {data rest ts} : Spells rest ts → Spells (.comment data rest) (.comment data :: ts)
  | alone {tag attributes selfClosing rest ts} :
      (selfClosing || isVoid tag) = true → Spells rest ts →
        Spells (.element tag (settledAttributes attributes) .nil rest)
          (.opening tag attributes selfClosing :: ts)
  | paired {tag attributes offset inside us rest ts} :
      isVoid tag = false → Spells inside us → Spells rest ts →
        Spells (.element tag (settledAttributes attributes) inside rest)
          (.opening tag attributes false :: (us ++ .closing tag offset :: ts))

/-! ## From forests to tokens -/

private theorem setAttributeValue_of_not_mem {name : String} {attributes : List Attribute}
    (h : name ∉ attributes.map Attribute.name) (value : String) :
    setAttributeValue name value attributes = attributes ++ [⟨name, value⟩] := by
  induction attributes with
  | nil => rfl
  | cons a rest ih =>
    rw [List.map_cons, List.mem_cons, not_or] at h
    rw [setAttributeValue, if_neg (Ne.symm h.1), ih h.2, List.cons_append]

private theorem settledAttributes_eq_self {attributes : List Attribute}
    (hlower : ∀ a ∈ attributes, lowercase a.name = a.name)
    (hnodup : (attributes.map Attribute.name).Nodup) : settledAttributes attributes = attributes := by
  induction attributes using List.reverseRecOn with
  | nil => rfl
  | append_singleton attributes a ih =>
    rw [List.map_append, List.nodup_append] at hnodup
    obtain ⟨hinit, -, hapart⟩ := hnodup
    have hnew : a.name ∉ attributes.map Attribute.name := fun hmem =>
      hapart a.name hmem a.name (by simp) rfl
    rw [settledAttributes_concat, ih (fun b hb => hlower b (by simp [hb])) hinit,
      hlower a (by simp), setAttributeValue_of_not_mem hnew]

theorem tokens_of_scan {c next : Cursor} {t : Token} (h : scan c = .token t next)
    (hne : c.rest ≠ []) : tokens c = (t :: (tokens next).1, (tokens next).2) := by
  rw [tokens, dif_neg hne]
  split
  · rename_i fault hfault
    rw [h] at hfault
    cases hfault
  · rename_i token after htoken
    obtain ⟨rfl, rfl⟩ := Scan.token.inj (h.symm.trans htoken)
    rfl

private theorem head?_markup {forest : Forest} (h : forest.beginsWithText = false)
    {rest : List Char} (hrest : ∀ c ∈ rest.head?, c = '<') :
    ∀ c ∈ (forest.markup ++ rest).head?, c = '<' := by
  cases forest with
  | nil => exact hrest
  | text => cases h
  | comment | element =>
    intro c hc
    simp only [Forest.markup, commentMarkup, openingMarkup, List.cons_append, List.head?_cons,
      Option.mem_some_iff] at hc
    exact hc.symm

end Markup

open Markup in
/-- The markup of a forest is read as tokens that spell it, whatever tag or comment follows. -/
theorem Forest.Writable.exists_tokens {forest : Forest} (h : forest.Writable) {rest : List Char}
    (hrest : ∀ c ∈ rest.head?, c = '<') (offset : Nat) :
    ∃ ts next, Spells forest ts ∧ tokens ⟨offset, forest.markup ++ rest⟩ =
      (ts ++ (tokens ⟨next, rest⟩).1, (tokens ⟨next, rest⟩).2) := by
  induction forest generalizing rest offset with
  | nil => exact ⟨[], offset, .nil, rfl⟩
  | text data behind ih =>
    obtain ⟨hdata, hbehind, hwritable⟩ := h
    obtain ⟨middle, hscan⟩ := scan_escapeText hdata (head?_markup hbehind hrest) offset
    obtain ⟨ts, next, hspells, htokens⟩ := ih hwritable hrest middle
    refine ⟨_, next, .text hspells, ?_⟩
    rw [Forest.markup, List.append_assoc, tokens_of_scan hscan, htokens]
    · rfl
    · refine List.append_ne_nil_of_left_ne_nil (fun hnil => hdata ?_) _
      simpa using escapeText_eq_nil hnil
  | comment data behind ih =>
    obtain ⟨hdata, hwritable⟩ := h
    obtain ⟨middle, hscan⟩ := scan_commentMarkup hdata (behind.markup ++ rest) offset
    obtain ⟨ts, next, hspells, htokens⟩ := ih hwritable hrest middle
    refine ⟨_, next, .comment hspells, ?_⟩
    rw [Forest.markup, List.append_assoc, tokens_of_scan hscan (by simp [commentMarkup]), htokens]
    rfl
  | element tag attributes inside behind ihinside ih =>
    obtain ⟨⟨htag, hlower⟩, hattributes, hnodup, hvoid, hinside, hbehind⟩ := h
    have hsettled : settledAttributes attributes = attributes :=
      settledAttributes_eq_self (fun a ha => (hattributes a ha).2) hnodup
    have hnames : ∀ a ∈ attributes, IsAttributeName a.name := fun a ha => (hattributes a ha).1
    cases hcase : isVoid tag with
    | true =>
      obtain rfl := hvoid hcase
      obtain ⟨middle, hscan⟩ := scan_openingMarkup htag hlower hnames (behind.markup ++ rest) offset
      obtain ⟨ts, next, hspells, htokens⟩ := ih hbehind hrest middle
      have halone : Spells (.element tag (settledAttributes attributes) .nil behind)
          (.opening tag attributes false :: ts) := .alone (by rw [hcase]; rfl) hspells
      rw [hsettled] at halone
      refine ⟨_, next, halone, ?_⟩
      simp only [Forest.markup, hcase, if_true, List.append_nil, List.append_assoc]
      rw [tokens_of_scan hscan (by simp [openingMarkup]), htokens]
      rfl
    | false =>
      have hclosing : ∀ c ∈ (closingMarkup tag ++ (behind.markup ++ rest)).head?, c = '<' := by
        simp [closingMarkup]
      obtain ⟨first, hopen⟩ := scan_openingMarkup htag hlower hnames
        (inside.markup ++ (closingMarkup tag ++ (behind.markup ++ rest))) offset
      obtain ⟨us, second, hus, htokensInside⟩ := ihinside hinside hclosing first
      obtain ⟨name, third, hclose⟩ := scan_closingMarkup htag hlower (behind.markup ++ rest) second
      obtain ⟨ts, next, hspells, htokens⟩ := ih hbehind hrest third
      have hpaired : Spells (.element tag (settledAttributes attributes) inside behind)
          (.opening tag attributes false :: (us ++ .closing tag name :: ts)) :=
        .paired hcase hus hspells
      rw [hsettled] at hpaired
      refine ⟨_, next, hpaired, ?_⟩
      simp only [Forest.markup, hcase, Bool.false_eq_true, if_false, List.append_assoc]
      rw [tokens_of_scan hopen (by simp [openingMarkup]), htokensInside,
        tokens_of_scan hclose (by simp [closingMarkup]), htokens]
      simp

namespace Markup

open Text

/-! ## From tokens to forests -/

/-- The tokens close the open elements with these tags, innermost first, and spell a forest before
each closing tag and behind the last one. -/
def SpelledUpTo : List String → List Token → Prop
  | [], ts => ∃ forest, Spells forest ts
  | tag :: outer, ts => ∃ forest us offset vs,
      Spells forest us ∧ ts = us ++ .closing tag offset :: vs ∧ SpelledUpTo outer vs

private theorem SpelledUpTo.prepend {tags : List String} {ts : List Token} (h : SpelledUpTo tags ts)
    (before : List Token)
    (hbefore : ∀ forest us, Spells forest us → ∃ more, Spells more (before ++ us)) :
    SpelledUpTo tags (before ++ ts) := by
  cases tags with
  | nil =>
    obtain ⟨forest, hforest⟩ := h
    exact hbefore forest ts hforest
  | cons tag outer =>
    obtain ⟨forest, us, offset, vs, hforest, rfl, hvs⟩ := h
    obtain ⟨more, hmore⟩ := hbefore forest us hforest
    exact ⟨more, before ++ us, offset, vs, hmore, (List.append_assoc _ _ _).symm, hvs⟩

private theorem spelledUpTo_of_build {parent : NodeId} {ts : List Token} {doc built : Document}
    {opened : Opened} (h : build parent ts doc opened = (built, .ok [])) :
    SpelledUpTo (opened.map Prod.snd) ts := by
  induction ts generalizing doc opened with
  | nil =>
    obtain rfl : opened = [] := by simpa [build] using congrArg Prod.snd h
    exact ⟨.nil, .nil⟩
  | cons token ts ih =>
    cases token with
    | text data => exact (ih h).prepend [.text data] fun _ _ hus => ⟨_, .text hus⟩
    | comment data =>
      exact (ih h).prepend [.comment data] fun _ _ hus => ⟨_, .comment hus⟩
    | opening tag attributes selfClosing =>
      have hrest := ih h
      split at hrest
      · rename_i halone
        exact hrest.prepend [.opening tag attributes selfClosing] fun _ _ hus =>
          ⟨_, .alone halone hus⟩
      · -- The element is closed further on; what follows that is up to the outer elements.
        rename_i hpaired
        obtain ⟨rfl, hvoid⟩ : selfClosing = false ∧ isVoid tag = false := by simpa using hpaired
        obtain ⟨inside, us, offset, vs, hus, rfl, hvs⟩ := hrest
        have hwhole := hvs.prepend (.opening tag attributes false :: (us ++ [.closing tag offset]))
          fun rest ts hts => ⟨.element tag (settledAttributes attributes) inside rest, by
            simpa using Spells.paired hvoid hus hts⟩
        simpa using hwhole
    | closing tag offset =>
      cases opened with
      | nil => simp [build, close] at h
      | cons innermost outer =>
        obtain ⟨id, expected⟩ := innermost
        by_cases htag : expected = tag
        · subst htag
          have hrest : build parent ts doc outer = (built, .ok []) := by simpa [build, close] using h
          exact ⟨.nil, [], offset, ts, .nil, rfl, ih hrest⟩
        · simp [build, close, htag] at h

/-- Tokens that are placed with no element left open spell a forest. -/
theorem exists_spells_of_build {parent : NodeId} {ts : List Token} {doc built : Document}
    (h : build parent ts doc [] = (built, .ok [])) : ∃ forest, Spells forest ts :=
  spelledUpTo_of_build h

/-! ## What reading yields -/

def Token.isText : Token → Bool
  | .text _ => true
  | _ => false

/-- What every token that is read satisfies. -/
def Token.Proper : Token → Prop
  | .text data => data ≠ ""
  | .comment data => ¬ ['-', '-', '>'] <:+: data.toList
  | .closing _ _ => True
  | .opening tag attributes _ =>
    (isName tag.toList = true ∧ lowercase tag = tag) ∧ ∀ a ∈ attributes, IsAttributeName a.name

private theorem word?_eq_some {p : Char → Bool} {c next : Cursor} {word : List Char}
    (h : c.word? p = some (word, next)) : word ≠ [] ∧ ∀ x ∈ word, p x = true := by
  simp only [Cursor.word?] at h
  split at h
  · cases h
  · rename_i hne
    obtain ⟨rfl, -⟩ := Prod.mk.inj (Option.some.inj h)
    exact ⟨by simpa using hne, fun x hx => List.mem_takeWhile_imp hx⟩

private theorem tagName?_eq_some {c next : Cursor} {tag : String}
    (h : tagName? c = some (tag, next)) : isName tag.toList = true ∧ lowercase tag = tag := by
  obtain ⟨⟨name, after⟩, hword, heq⟩ := Option.map_eq_some_iff.mp h
  obtain ⟨rfl, -⟩ := Prod.mk.inj heq
  exact ⟨isName_lowercase ((isName_iff name).mpr (word?_eq_some hword)),
    lowercase_lowercase _⟩

private theorem readAttribute_name {c next : Cursor} {a : Attribute}
    (h : readAttribute c = .ok (a, next)) : IsAttributeName a.name := by
  unfold readAttribute at h
  split at h
  · cases h
  · rename_i name named hword
    have hname := word?_eq_some hword
    have hread : a.name = String.ofList name := by
      split at h
      · rw [← (Prod.mk.inj (Except.ok.inj h)).1]
      · split at h
        · cases h
        · rw [← (Prod.mk.inj (Except.ok.inj h)).1]
    rw [hread]
    exact ⟨by simpa using hname.1, by simpa using hname.2⟩

private theorem attributeList_names (c : Cursor) : ∀ a ∈
    (attributeList c).1, IsAttributeName a.name := by
  fun_induction attributeList c with
  | case1 => simp
  | case2 => simp
  | case3 => simp
  | case4 c _ _ a next hattribute rest result hrec ih =>
    rw [hrec] at ih
    intro b hb
    rcases List.mem_cons.mp hb with rfl | hb
    · exact readAttribute_name hattribute
    · exact ih b hb

private theorem scanComment_proper {c next : Cursor} {t : Token}
    (h : scanComment c = .token t next) : t.Proper ∧ t.isText = false := by
  unfold scanComment at h
  split at h
  · rename_i data after hdata
    obtain ⟨rfl, -⟩ := Scan.token.inj h
    obtain ⟨⟨before, rest⟩, hsplit, heq⟩ := Option.map_eq_some_iff.mp hdata
    obtain ⟨rfl, -⟩ := Prod.mk.inj heq
    refine ⟨?_, rfl⟩
    simpa [Token.Proper] using not_infix_of_splitAtFirst hsplit (by simp)
  · cases h

private theorem scanClosing_proper {c next : Cursor} {t : Token}
    (h : scanClosing c = .token t next) : t.Proper ∧ t.isText = false := by
  unfold scanClosing at h
  split at h
  · cases h
  · split at h
    · cases h
    · obtain ⟨rfl, -⟩ := Scan.token.inj h
      exact ⟨trivial, rfl⟩

private theorem scanOpening_proper {c next : Cursor} {t : Token}
    (h : scanOpening c = .token t next) : t.Proper ∧ t.isText = false := by
  unfold scanOpening at h
  split at h
  · cases h
  · rename_i tag named htag
    split at h
    · rename_i attributes selfClosing after hattributes
      obtain ⟨rfl, -⟩ := Scan.token.inj h
      have hnames := attributeList_names named
      rw [hattributes] at hnames
      exact ⟨⟨tagName?_eq_some htag, hnames⟩, rfl⟩
    · cases h

private theorem scan_proper {c next : Cursor} {t : Token} (h : scan c = .token t next)
    (hne : c.rest ≠ []) :
    t.Proper ∧ (t.isText = true → c.rest.head? ≠ some '<' ∧ ∀ x ∈ next.rest.head?, x = '<') := by
  have hmarkup : ∀ {t : Token} {Q : Prop}, t.Proper ∧ t.isText = false →
      t.Proper ∧ (t.isText = true → Q) := by
    rintro t Q ⟨hproper, htext⟩
    exact ⟨hproper, fun h => by rw [htext] at h; cases h⟩
  unfold scan at h
  split at h
  · exact hmarkup (scanComment_proper h)
  split at h
  · exact hmarkup (scanClosing_proper h)
  split at h
  · exact hmarkup (scanOpening_proper h)
  rename_i hless
  obtain ⟨rfl, rfl⟩ := Scan.token.inj h
  obtain ⟨d, rest, hrest⟩ := List.exists_cons_of_ne_nil hne
  have hd : d ≠ '<' := by
    rintro rfl
    simp [Cursor.eat?, dropStart?, hrest] at hless
  refine ⟨?_, fun _ => ⟨by simpa [hrest] using hd, ?_⟩⟩
  · intro hempty
    have hnil := decodeEntities_eq_nil (by simpa using hempty)
    rw [hrest, List.takeWhile_cons_of_pos (by simpa using hd)] at hnil
    cases hnil
  · intro x hx
    have hstop := List.head?_dropWhile_not (· != '<') c.rest
    rw [Cursor.skipWhile] at hx
    rw [Option.mem_def.mp hx] at hstop
    simpa using hstop

/-- Tokens that are read are proper. -/
theorem tokens_proper (c : Cursor) : ∀ t ∈ (tokens c).1, t.Proper := by
  fun_induction tokens c with
  | case1 => simp
  | case2 => simp
  | case3 c hne token next hscan rest fault hrec ih =>
    rw [hrec] at ih
    exact List.forall_mem_cons.mpr ⟨(scan_proper hscan hne).1, ih⟩

private theorem head?_tokens_isText {c : Cursor} (h : ∀ x ∈ c.rest.head?, x = '<') :
    ∀ t ∈ (tokens c).1.head?, t.isText = false := by
  intro t ht
  rw [tokens] at ht
  split at ht
  · simp at ht
  · rename_i hne
    split at ht
    · simp at ht
    · rename_i token next hscan
      obtain rfl : token = t := by simpa using ht
      cases htext : token.isText with
      | false => rfl
      | true =>
        obtain ⟨d, rest, hrest⟩ := List.exists_cons_of_ne_nil hne
        have hhead := ((scan_proper hscan hne).2 htext).1
        rw [hrest] at hhead
        exact absurd (congrArg some (h d (by simp [hrest]))) hhead

/-- No two texts that are read stand side by side. -/
theorem tokens_apart (c : Cursor) :
    (tokens c).1.IsChain fun s t => ¬ (s.isText = true ∧ t.isText = true) := by
  fun_induction tokens c with
  | case1 => exact .nil
  | case2 => exact .nil
  | case3 c hne token next hscan rest fault hrec ih =>
    rw [hrec] at ih
    refine ih.cons ?_
    rintro t ht ⟨htoken, htext⟩
    have hstop := ((scan_proper hscan hne).2 htoken).2
    have hhead := head?_tokens_isText hstop t (by rw [hrec]; exact ht)
    rw [hhead] at htext
    cases htext

private theorem Spells.beginsWithText {forest : Forest} {ts : List Token} (h : Spells forest ts) :
    forest.beginsWithText = (ts.head?.map Token.isText).getD false := by
  cases h <;> rfl

theorem settledAttributes_writable {attributes : List Attribute}
    (h : ∀ a ∈ attributes, IsAttributeName a.name) :
    (∀ a ∈ settledAttributes attributes, IsAttributeName a.name ∧ lowercase a.name = a.name) ∧
      ((settledAttributes attributes).map Attribute.name).Nodup := by
  induction attributes using List.reverseRecOn with
  | nil => simp [settledAttributes]
  | append_singleton attributes a ih =>
    obtain ⟨hnames, hnodup⟩ := ih fun b hb => h b (by simp [hb])
    rw [settledAttributes_concat]
    refine ⟨?_, Document.nodup_setAttributeValue hnodup _⟩
    intro b hb
    rcases Document.mem_setAttributeValue hb with hb | rfl
    · exact hnames b hb
    · exact ⟨(h a (by simp)).lowercase, lowercase_lowercase _⟩

/-- A forest that is spelled by tokens as they are read can be written. -/
theorem Spells.writable {forest : Forest} {ts : List Token} (h : Spells forest ts)
    (hproper : ∀ t ∈ ts, t.Proper)
    (hapart : ts.IsChain fun s t => ¬ (s.isText = true ∧ t.isText = true)) : forest.Writable := by
  induction h with
  | nil => trivial
  | text hrest ih =>
    rw [List.forall_mem_cons] at hproper
    rw [List.isChain_cons] at hapart
    refine ⟨hproper.1, ?_, ih hproper.2 hapart.2⟩
    rw [hrest.beginsWithText]
    cases hhead : List.head? _ with
    | none => rfl
    | some t => simpa [Token.isText] using hapart.1 t hhead
  | comment _ ih =>
    rw [List.forall_mem_cons] at hproper
    exact ⟨hproper.1, ih hproper.2 (List.isChain_cons.mp hapart).2⟩
  | alone _ _ ih =>
    rw [List.forall_mem_cons] at hproper
    obtain ⟨⟨htag, hnames⟩, hrest⟩ := hproper
    obtain ⟨hsettled, hnodup⟩ := settledAttributes_writable hnames
    exact ⟨htag, hsettled, hnodup, fun _ => rfl, trivial, ih hrest (List.isChain_cons.mp hapart).2⟩
  | paired hvoid _ _ ihinside ih =>
    rw [List.forall_mem_cons, List.forall_mem_append, List.forall_mem_cons] at hproper
    obtain ⟨⟨htag, hnames⟩, hinside, -, hrest⟩ := hproper
    obtain ⟨hsettled, hnodup⟩ := settledAttributes_writable hnames
    have htail := (List.isChain_cons.mp hapart).2
    refine ⟨htag, hsettled, hnodup, ?_, ihinside hinside htail.left_of_append,
      ih hrest (List.isChain_cons.mp htail.right_of_append).2⟩
    rw [hvoid]
    exact fun h => absurd h Bool.false_ne_true

end Markup

end ViewBinding
