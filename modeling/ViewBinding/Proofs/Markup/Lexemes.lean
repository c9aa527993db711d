import Mathlib
import ViewBinding.Proofs.Markup.Advancing

/-!
# What tokens look like

The lexical grammar of markup: a comment goes up to the first `-->`, a closing tag is a name, an
opening tag a name with attributes, and a text goes up to the next `<`. A reader of this grammar
takes each word, value and text as far as it goes. All of a markup is read just when it is a sequence
of such pieces, and what is read are their tokens (`tokens_eq_iff`).
-/

namespace ViewBinding.Markup

open Text Cursor

/-! ## The grammar -/

/-- A value behind an equals sign, before a rest: what stands between two equal quotes, or a bare
word, which is empty only where a tag ends. -/
inductive ValueText (rest : List Char) : List Char → List Char → Prop
  | quoted {quote : Char} {value : List Char} : quote = '"' ∨ quote = '\'' → quote ∉ value →
      ValueText rest (quote :: (value ++ [quote])) value
  | bare {value : List Char} : (∀ c ∈ value, isBareValueChar c = true) →
      (∀ c ∈ value.head?, c ≠ '"' ∧ c ≠ '\'') → Stops isBareValueChar rest → value ++ rest ≠ [] →
        ValueText rest value value

/-- An attribute with the blanks behind it: a name alone, or a name, an equals sign and a value. -/
inductive AttributeText (rest : List Char) : List Char → Attribute → Prop
  | named {name blanks : List Char} : name ≠ [] → (∀ c ∈ name, isAttributeNameChar c = true) →
      (∀ c ∈ blanks, isBlank c = true) → Stops isAttributeNameChar (blanks ++ rest) →
        Stops isBlank rest → rest.head? ≠ some '=' →
          AttributeText rest (name ++ blanks) ⟨String.ofList name, ""⟩
  | valued {name before after written value : List Char} : name ≠ [] →
      (∀ c ∈ name, isAttributeNameChar c = true) → (∀ c ∈ before, isBlank c = true) →
        (∀ c ∈ after, isBlank c = true) → Stops isBlank (written ++ rest) →
          ValueText rest written value →
            AttributeText rest (name ++ (before ++ (['='] ++ (after ++ written))))
              ⟨String.ofList name, String.ofList (decodeEntities value)⟩

/-- What stands in an opening tag behind its name: attributes, and then the end of the tag. -/
inductive TagText (rest : List Char) : List Char → List Attribute → Bool → Prop
  | closed {blanks : List Char} : (∀ c ∈ blanks, isBlank c = true) →
      TagText rest (blanks ++ ['>']) [] false
  | selfClosed {blanks : List Char} : (∀ c ∈ blanks, isBlank c = true) →
      TagText rest (blanks ++ ['/', '>']) [] true
  | cons {blanks written more : List Char} {a : Attribute} {attributes : List Attribute}
      {selfClosing : Bool} : (∀ c ∈ blanks, isBlank c = true) →
        AttributeText (more ++ rest) written a → TagText rest more attributes selfClosing →
          TagText rest (blanks ++ (written ++ more)) (a :: attributes) selfClosing

/-- A token that stands at a byte, before a rest. -/
inductive TokenText (offset : Nat) (rest : List Char) : List Char → Token → Prop
  | comment {data : List Char} : ¬ ['-', '-', '>'] <:+: data →
      TokenText offset rest (['<', '!', '-', '-'] ++ (data ++ ['-', '-', '>']))
        (.comment (String.ofList data))
  | closing {name blanks : List Char} : name ≠ [] → (∀ c ∈ name, isNameChar c = true) →
      (∀ c ∈ blanks, isBlank c = true) →
        TokenText offset rest (['<', '/'] ++ (name ++ (blanks ++ ['>'])))
          (.closing (lowercase (String.ofList name)) (offset + 2))
  | opening {name written : List Char} {attributes : List Attribute} {selfClosing : Bool} :
      name ≠ [] → (∀ c ∈ name, isNameChar c = true) → Stops isNameChar (written ++ rest) →
        TagText rest written attributes selfClosing →
          TokenText offset rest (['<'] ++ (name ++ written))
            (.opening (lowercase (String.ofList name)) attributes selfClosing)
  | text {data : List Char} : data ≠ [] → '<' ∉ data → (∀ c ∈ rest.head?, c = '<') →
      TokenText offset rest data (.text (String.ofList (decodeEntities data)))

/-- Text that is a sequence of tokens, from a byte on. -/
inductive Tokenized : Nat → List Char → List Token → Prop
  | nil {offset : Nat} : Tokenized offset [] []
  | cons {offset : Nat} {written rest : List Char} {t : Token} {ts : List Token} :
      TokenText offset rest written t → Tokenized (offset + utf8Length written) rest ts →
        Tokenized offset (written ++ rest) (t :: ts)

/-! ## What is written so is read -/

variable {rest written : List Char}

private theorem ValueText.read {value : List Char} (h : ValueText rest written value)
    (offset : Nat) : attributeValue? ⟨offset, written ++ rest⟩ =
      some (value, ⟨offset + utf8Length written, rest⟩) := by
  cases h with
  | @quoted quote _ hquote hnot =>
    simp [attributeValue?, hquote, upTo?, splitAtFirst_singleton hnot, Nat.add_assoc]
  | bare hchars hhead hstops hne =>
    obtain ⟨d, tail, hd⟩ := List.exists_cons_of_ne_nil hne
    have hquote : ¬ (d = '"' ∨ d = '\'') := by
      cases written with
      | nil =>
        have hbare := hstops d (by simpa using congrArg List.head? hd)
        rintro (rfl | rfl) <;> cases hbare
      | cons c written =>
        obtain ⟨rfl, -⟩ := List.cons.inj hd
        exact not_or.mpr (hhead c rfl)
    simp only [attributeValue?, hd, if_neg hquote]
    rw [← hd, takeWhile_append hchars hstops, skipWhile_append hchars hstops]

private theorem AttributeText.read {a : Attribute} (h : AttributeText rest written a)
    (offset : Nat) :
    readAttribute ⟨offset, written ++ rest⟩ = .ok (a, ⟨offset + utf8Length written, rest⟩) := by
  cases h with
  | named hne hname hblanks hstops hrest hequals =>
    rename_i name blanks
    have hnone : ¬ ['='] <+: rest := by
      rintro ⟨tail, rfl⟩
      exact hequals rfl
    rw [List.append_assoc, readAttribute, word?_append hne hname hstops]
    simp only [skipBlanks, skipWhile_append hblanks hrest, eat?_eq_none hnone, utf8Length_append,
      Nat.add_assoc]
  | @valued name before after written value hne hname hbefore hafter hstops hvalue =>
    have hshape : name ++ (before ++ (['='] ++ (after ++ written))) ++ rest =
        name ++ (before ++ (['='] ++ (after ++ (written ++ rest)))) := by simp
    have hequals : Stops isBlank (['='] ++ (after ++ (written ++ rest))) := stops_of_head rfl _
    have hend : Stops isAttributeNameChar (before ++ (['='] ++ (after ++ (written ++ rest)))) := by
      cases before with
      | nil => exact stops_of_head rfl _
      | cons d before =>
        exact stops_of_head (isAttributeNameChar_of_isBlank (hbefore d List.mem_cons_self)) _
    rw [hshape, readAttribute, word?_append hne hname hend]
    simp only [skipBlanks, skipWhile_append hbefore hequals, eat?_append,
      skipWhile_append hafter hstops, hvalue.read]
    simp [Nat.add_assoc]

private theorem AttributeText.stops_isBlank {a : Attribute} (h : AttributeText rest written a)
    (more : List Char) : Stops isBlank (written ++ more) := by
  obtain ⟨name, tail, hne, hname, rfl⟩ : ∃ name tail, name ≠ [] ∧
      (∀ c ∈ name, isAttributeNameChar c = true) ∧ written = name ++ tail := by
    cases h with
    | named hne hname => exact ⟨_, _, hne, hname, rfl⟩
    | valued hne hname => exact ⟨_, _, hne, hname, rfl⟩
  obtain ⟨d, name, rfl⟩ := List.exists_cons_of_ne_nil hne
  have hd := hname d List.mem_cons_self
  apply stops_of_head
  by_contra hblank
  rw [isAttributeNameChar_of_isBlank (by simpa using hblank)] at hd
  cases hd

private theorem TagText.read {attributes : List Attribute} {selfClosing : Bool}
    (h : TagText rest written attributes selfClosing) (offset : Nat) :
    attributeList ⟨offset, written ++ rest⟩ =
      (attributes, .ok (selfClosing, ⟨offset + utf8Length written, rest⟩)) := by
  induction h generalizing offset with
  | @closed blanks hblanks =>
    have hskip : skipBlanks ⟨offset, blanks ++ ['>'] ++ rest⟩ =
        ⟨offset + utf8Length blanks, ['>'] ++ rest⟩ := by
      rw [List.append_assoc]
      exact skipWhile_append hblanks (stops_of_head rfl _) offset
    rw [attributeList_of_end (by rw [hskip]; rfl) (by rw [hskip]; exact eat?_append _ _),
      utf8Length_append, Nat.add_assoc]
  | @selfClosed blanks hblanks =>
    have hskip : skipBlanks ⟨offset, blanks ++ ['/', '>'] ++ rest⟩ =
        ⟨offset + utf8Length blanks, ['/', '>'] ++ rest⟩ := by
      rw [List.append_assoc]
      exact skipWhile_append hblanks (stops_of_head rfl _) offset
    rw [attributeList_of_self (by rw [hskip]; exact eat?_append _ _), utf8Length_append,
      Nat.add_assoc]
  | @cons blanks written more a attributes selfClosing hblanks hwritten _ ih =>
    have hskip : skipBlanks ⟨offset, blanks ++ (written ++ more) ++ rest⟩ =
        ⟨offset + utf8Length blanks, written ++ (more ++ rest)⟩ := by
      rw [List.append_assoc, List.append_assoc]
      exact skipWhile_append hblanks (hwritten.stops_isBlank _) offset
    have hread := hwritten.read (offset + utf8Length blanks)
    rw [← hskip] at hread
    rw [attributeList_of_attribute hread, ih]
    simp [Nat.add_assoc]

theorem TokenText.read {offset : Nat} {t : Token} (h : TokenText offset rest written t) :
    scan ⟨offset, written ++ rest⟩ = .token t ⟨offset + utf8Length written, rest⟩ := by
  cases h with
  | @comment data hdata =>
    rw [List.append_assoc, scan_eq_comment (eat?_append _ _), List.append_assoc]
    simp only [scanComment, upTo?, splitAtFirst_commentEnd hdata, Option.map_some,
      utf8Length_append, Nat.add_assoc]
  | @closing name blanks hne hname hblanks =>
    have hshape : ['<', '/'] ++ (name ++ (blanks ++ ['>'])) ++ rest =
        ['<', '/'] ++ (name ++ (blanks ++ (['>'] ++ rest))) := by simp
    have hstops : Stops isNameChar (blanks ++ (['>'] ++ rest)) := by
      cases blanks with
      | nil => exact stops_of_head rfl _
      | cons b blanks => exact stops_of_head (isNameChar_of_isBlank (hblanks b List.mem_cons_self)) _
    have hend : Stops isBlank (['>'] ++ rest) := stops_of_head rfl _
    rw [hshape, scan_eq_closing (eat?_append _ _), scanClosing, tagName?,
      word?_append hne hname hstops]
    simp only [Option.map_some, skipBlanks, skipWhile_append hblanks hend, eat?_append,
      utf8Length_append, Nat.add_assoc]
    rfl
  | @opening name written attributes selfClosing hne hname hstops htag =>
    have hname? : tagName? ⟨offset + utf8Length ['<'], name ++ (written ++ rest)⟩ =
        some (lowercase (String.ofList name),
          ⟨offset + utf8Length ['<'] + utf8Length name, written ++ rest⟩) := by
      rw [tagName?, word?_append hne hname hstops]
      rfl
    have hopening : eat? ['<'] ⟨offset, ['<'] ++ (name ++ (written ++ rest))⟩ =
        some ⟨offset + utf8Length ['<'], name ++ (written ++ rest)⟩ := eat?_append _ _
    obtain ⟨hcomment, hclosing⟩ := eat?_of_tagName? hopening hname? []
    rw [extend, List.append_nil] at hcomment hclosing
    rw [List.append_assoc, List.append_assoc, scan_eq_opening hopening hcomment hclosing,
      scanOpening, hname?]
    simp only [htag.read, utf8Length_append, Nat.add_assoc]
  | text hne hless hrest =>
    have hplain : ∀ c ∈ written, (c != '<') = true := fun c hc =>
      bne_iff_ne.mpr fun heq => hless (heq ▸ hc)
    have hstops : Stops (· != '<') rest := fun c hc => by simp [hrest c hc]
    have hopen : ¬ ['<'] <+: written ++ rest := by
      obtain ⟨c, tail, rfl⟩ := List.exists_cons_of_ne_nil hne
      rw [List.cons_append, List.cons_prefix_cons]
      exact fun hbegins => hless (hbegins.1 ▸ List.mem_cons_self)
    rw [scan_eq_text (eat?_eq_none hopen _), scanText, takeWhile_append hplain hstops,
      skipWhile_append hplain hstops]

theorem TokenText.ne_nil {offset : Nat} {t : Token} (h : TokenText offset rest written t) :
    written ≠ [] := by
  cases h with
  | text hne => exact hne
  | _ => simp

private theorem Tokenized.tokens {offset : Nat} {text : List Char} {ts : List Token}
    (h : Tokenized offset text ts) : Markup.tokens ⟨offset, text⟩ = (ts, none) := by
  induction h with
  | nil => simp [Markup.tokens]
  | cons ht _ ih =>
    rw [tokens_of_scan ht.read (by simp [ht.ne_nil]), ih]

/-! ## What is read is written so -/

variable {c next : Cursor}

private theorem exists_valueText {value : List Char} (h : attributeValue? c = some (value, next)) :
    ∃ written, c.Takes written next ∧ ValueText next.rest written value := by
  unfold attributeValue? at h
  split at h
  · cases h
  rename_i quote rest hrest
  split at h
  · rename_i hquote
    have htakes : c.Takes [quote] ⟨c.offset + quote.utf8Size, rest⟩ := ⟨hrest, rfl⟩
    obtain ⟨⟨before, after⟩, hsplit, heq⟩ := Option.map_eq_some_iff.mp h
    obtain ⟨rfl, rfl⟩ := Prod.mk.inj heq
    have hnot : quote ∉ before := by
      rw [← List.singleton_infix_iff]
      exact not_infix_of_splitAtFirst hsplit (List.cons_ne_nil _ _)
    exact ⟨_, htakes.trans (takes_of_upTo? h), .quoted hquote hnot⟩
  · rename_i hquote
    obtain ⟨rfl, rfl⟩ := Prod.mk.inj (Option.some.inj h)
    refine ⟨_, takes_skipWhile _ c, .bare (fun d hd => List.mem_takeWhile_imp hd) ?_
      (stops_dropWhile _ _) ?_⟩
    · intro d hd
      rw [hrest, Option.mem_def] at hd
      by_cases hbare : isBareValueChar quote = true
      · rw [List.takeWhile_cons_of_pos hbare] at hd
        obtain rfl := Option.some.inj hd
        exact not_or.mp hquote
      · rw [List.takeWhile_cons_of_neg hbare] at hd
        cases hd
    · change c.rest.takeWhile isBareValueChar ++ c.rest.dropWhile isBareValueChar ≠ []
      rw [List.takeWhile_append_dropWhile, hrest]
      exact List.cons_ne_nil _ _

private theorem exists_attributeText {a : Attribute} (h : readAttribute c = .ok (a, next)) :
    ∃ written, c.Takes written next ∧ AttributeText next.rest written a := by
  unfold readAttribute at h
  split at h
  · cases h
  rename_i name named hword
  have hnamed := takes_of_word? hword
  obtain ⟨rfl, hne, rfl⟩ := word?_eq_some_iff.mp hword
  have hname : ∀ d ∈ c.rest.takeWhile isAttributeNameChar, isAttributeNameChar d = true :=
    fun d hd => List.mem_takeWhile_imp hd
  generalize hskipped : c.skipWhile isAttributeNameChar = named at *
  have hblanks : ∀ d ∈ named.rest.takeWhile isBlank, isBlank d = true :=
    fun d hd => List.mem_takeWhile_imp hd
  split at h
  · rename_i hequals
    obtain ⟨rfl, rfl⟩ := Prod.mk.inj (Except.ok.inj h)
    refine ⟨_, hnamed.trans (takes_skipWhile isBlank named),
      .named hne hname hblanks ?_ (stops_dropWhile _ _) fun hhead => ?_⟩
    · change Stops _ (named.rest.takeWhile isBlank ++ named.rest.dropWhile isBlank)
      rw [List.takeWhile_append_dropWhile, ← hskipped]
      exact stops_dropWhile _ _
    · obtain ⟨tail, htail⟩ := List.head?_eq_some_iff.mp hhead
      exact eat?_eq_none_iff.mp hequals ⟨tail, htail.symm⟩
  · rename_i equals hequals
    split at h
    · cases h
    rename_i value after hvalue
    obtain ⟨rfl, rfl⟩ := Prod.mk.inj (Except.ok.inj h)
    obtain ⟨written, htakes, hwritten⟩ := exists_valueText hvalue
    have hstops : Stops isBlank (written ++ after.rest) := by
      rw [← htakes.rest_eq]
      exact stops_dropWhile _ _
    exact ⟨_, hnamed.trans ((takes_skipWhile isBlank named).trans ((takes_of_eat? hequals).trans
      ((takes_skipWhile isBlank equals).trans htakes))),
      .valued hne hname hblanks (fun d hd => List.mem_takeWhile_imp hd) hstops hwritten⟩

private theorem exists_tagText {attributes : List Attribute} {selfClosing : Bool}
    (h : attributeList c = (attributes, .ok (selfClosing, next))) :
    ∃ written, c.Takes written next ∧ TagText next.rest written attributes selfClosing := by
  fun_induction attributeList c generalizing attributes with
  | case1 c after hself =>
    obtain ⟨rfl, hresult⟩ := Prod.mk.inj h
    obtain ⟨rfl, rfl⟩ := Prod.mk.inj (Except.ok.inj hresult)
    exact ⟨_, (takes_skipWhile isBlank c).trans (takes_of_eat? hself),
      .selfClosed fun d hd => List.mem_takeWhile_imp hd⟩
  | case2 c _ after hend =>
    obtain ⟨rfl, hresult⟩ := Prod.mk.inj h
    obtain ⟨rfl, rfl⟩ := Prod.mk.inj (Except.ok.inj hresult)
    exact ⟨_, (takes_skipWhile isBlank c).trans (takes_of_eat? hend),
      .closed fun d hd => List.mem_takeWhile_imp hd⟩
  | case3 => cases (Prod.mk.inj h).2
  | case4 c _ _ a after hattribute rest result hrec ih =>
    obtain ⟨rfl, rfl⟩ := Prod.mk.inj h
    obtain ⟨written, htakes, hwritten⟩ := exists_attributeText hattribute
    obtain ⟨more, hmore, htag⟩ := ih hrec
    rw [hmore.rest_eq] at hwritten
    exact ⟨_, (takes_skipWhile isBlank c).trans (htakes.trans hmore),
      .cons (fun d hd => List.mem_takeWhile_imp hd) hwritten htag⟩

private theorem exists_tokenText {t : Token} (h : scan c = .token t next) (hne : c.rest ≠ []) :
    ∃ written, c.Takes written next ∧ TokenText c.offset next.rest written t := by
  unfold scan at h
  split at h
  · rename_i inside hcomment
    unfold scanComment at h
    split at h
    · rename_i data after hdata
      obtain ⟨rfl, rfl⟩ := Scan.token.inj h
      obtain ⟨⟨before, behind⟩, hsplit, heq⟩ := Option.map_eq_some_iff.mp hdata
      obtain ⟨rfl, rfl⟩ := Prod.mk.inj heq
      exact ⟨_, (takes_of_eat? hcomment).trans (takes_of_upTo? hdata),
        .comment (not_infix_of_splitAtFirst hsplit (List.cons_ne_nil _ _))⟩
    · cases h
  split at h
  · rename_i inside hclosing
    unfold scanClosing at h
    split at h
    · cases h
    rename_i tag named hname
    split at h
    · cases h
    rename_i after hend
    obtain ⟨rfl, rfl⟩ := Scan.token.inj h
    obtain ⟨⟨name, behind⟩, hword, heq⟩ := Option.map_eq_some_iff.mp hname
    obtain ⟨rfl, rfl⟩ := Prod.mk.inj heq
    have htakes := takes_of_word? hword
    obtain ⟨rfl, hnameNe, -⟩ := word?_eq_some_iff.mp hword
    have hoffset : inside.offset = c.offset + 2 := (takes_of_eat? hclosing).offset_eq
    rw [hoffset]
    exact ⟨_, (takes_of_eat? hclosing).trans (htakes.trans
      ((takes_skipWhile isBlank behind).trans (takes_of_eat? hend))),
      .closing hnameNe (fun d hd => List.mem_takeWhile_imp hd) fun d hd =>
        List.mem_takeWhile_imp hd⟩
  split at h
  · rename_i inside hopening
    unfold scanOpening at h
    split at h
    · cases h
    rename_i tag named hname
    split at h
    · rename_i attributes selfClosing after hattributes
      obtain ⟨rfl, rfl⟩ := Scan.token.inj h
      obtain ⟨⟨name, behind⟩, hword, heq⟩ := Option.map_eq_some_iff.mp hname
      obtain ⟨rfl, rfl⟩ := Prod.mk.inj heq
      have htakes := takes_of_word? hword
      obtain ⟨rfl, hnameNe, hbehind⟩ := word?_eq_some_iff.mp hword
      obtain ⟨written, hwritten, htag⟩ := exists_tagText hattributes
      have hstops : Stops isNameChar (written ++ after.rest) := by
        rw [← hwritten.rest_eq, hbehind]
        exact stops_dropWhile _ _
      exact ⟨_, (takes_of_eat? hopening).trans (htakes.trans hwritten),
        .opening hnameNe (fun d hd => List.mem_takeWhile_imp hd) hstops htag⟩
    · cases h
  · rename_i hopening
    obtain ⟨rfl, rfl⟩ := Scan.token.inj h
    obtain ⟨d, tail, hd⟩ := List.exists_cons_of_ne_nil hne
    have hplain : (d != '<') = true := by
      rw [bne_iff_ne]
      rintro rfl
      exact eat?_eq_none_iff.mp hopening ⟨tail, hd.symm⟩
    refine ⟨_, takes_skipWhile (· != '<') c, .text ?_ ?_ ?_⟩
    · rw [hd, List.takeWhile_cons, if_pos hplain]
      exact List.cons_ne_nil _ _
    · exact fun hless => absurd (List.mem_takeWhile_imp hless) (by simp)
    · intro e he
      simpa using stops_dropWhile (· != '<') c.rest e he

/-- All of a text is read, and these are the tokens, just when it is the sequence of these. -/
theorem tokens_eq_iff {ts : List Token} :
    tokens c = (ts, none) ↔ Tokenized c.offset c.rest ts := by
  refine ⟨fun h => ?_, fun h => h.tokens⟩
  fun_induction tokens c generalizing ts with
  | case1 c hempty =>
    obtain ⟨rfl, -⟩ := Prod.mk.inj h
    rw [hempty]
    exact .nil
  | case2 => cases (Prod.mk.inj h).2
  | case3 c hne t next hscan rest fault hrest ih =>
    obtain ⟨rfl, rfl⟩ := Prod.mk.inj h
    obtain ⟨written, htakes, htext⟩ := exists_tokenText hscan hne
    rw [htakes.rest_eq]
    have hnext := ih hrest
    rw [htakes.offset_eq] at hnext
    exact .cons htext hnext

end ViewBinding.Markup
