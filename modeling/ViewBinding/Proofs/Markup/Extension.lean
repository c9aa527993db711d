import Mathlib
import ViewBinding.Proofs.Markup.Spelling

/-!
# Reading on

Every reader looks at what it takes and at most one character further, so that what was read of a
markup is read again when more text follows, except that a word or a text at the very end may become
longer (`scan_extend`). Tokens that were read are therefore read from every longer markup
(`Reads.extend`).
-/

namespace ViewBinding

namespace Text

private theorem dropStart?_extend {pattern text rest : List Char}
    (h : dropStart? pattern text = some rest) (more : List Char) :
    dropStart? pattern (text ++ more) = some (rest ++ more) := by
  rw [dropStart?_eq_some.mp h, List.append_assoc]
  exact dropStart?_eq_some.mpr rfl

private theorem splitAtFirst_extend {pattern text before after : List Char}
    (h : splitAtFirst pattern text = some (before, after)) (more : List Char) :
    splitAtFirst pattern (text ++ more) = some (before, after ++ more) := by
  obtain ⟨rfl, hleftmost⟩ := splitAtFirst_eq_some_iff.mp h
  refine splitAtFirst_eq_some_iff.mpr ⟨by simp only [List.append_assoc], fun i hi hbegins => ?_⟩
  -- The text holds the pattern further on, so it is long enough to hold it here.
  have hlength : pattern.length ≤ ((before ++ (pattern ++ after)).drop i).length := by
    simp only [List.length_drop, List.length_append]
    omega
  rw [List.drop_append_of_le_length (by simp only [List.length_append]; omega)] at hbegins
  exact hleftmost i hi (List.prefix_of_prefix_length_le hbegins (List.prefix_append _ _) hlength)

end Text

namespace Markup

open Text

namespace Cursor

variable {p : Char → Bool} {c next : Cursor} {more : List Char}

/-- A position when more text follows. -/
def extend (c : Cursor) (more : List Char) : Cursor := ⟨c.offset, c.rest ++ more⟩

@[simp] theorem extend_rest (c : Cursor) (more : List Char) :
    (c.extend more).rest = c.rest ++ more := rfl

theorem eat?_extend {literal : List Char} (h : c.eat? literal = some next) (more : List Char) :
    (c.extend more).eat? literal = some (next.extend more) := by
  obtain ⟨rest, hrest, rfl⟩ := Option.map_eq_some_iff.mp h
  simp only [eat?, extend, dropStart?_extend hrest more, Option.map_some]

theorem eat?_eq_none_iff {literal : List Char} : c.eat? literal = none ↔ ¬ literal <+: c.rest := by
  constructor
  · rintro h ⟨rest, hrest⟩
    simp [eat?, dropStart?_eq_some.mpr hrest.symm] at h
  · exact fun h => eat?_eq_none h c.offset

/-- A literal that does not stand at a position does not come to stand there, unless the text ends
within it. -/
theorem eat?_extend_eq_none {literal : List Char} (h : c.eat? literal = none)
    (hrest : ¬ c.rest <+: literal) (more : List Char) : (c.extend more).eat? literal = none := by
  rw [eat?_eq_none_iff] at h ⊢
  intro hlong
  rcases List.prefix_or_prefix_of_prefix hlong (List.prefix_append c.rest more) with hin | hwithin
  · exact h hin
  · exact hrest hwithin

/-- A character that does not stand at a position does not come to stand there. -/
theorem eat?_singleton_extend_eq_none {d : Char} (h : c.eat? [d] = none) (hrest : c.rest ≠ [])
    (more : List Char) : (c.extend more).eat? [d] = none := by
  refine eat?_extend_eq_none h (fun hwithin => ?_) more
  rcases List.prefix_concat_iff.mp (show c.rest <+: [] ++ [d] from hwithin) with heq | hnil
  · rw [eat?_eq_none_iff, heq] at h
    exact h List.prefix_rfl
  · exact hrest (List.prefix_nil.mp hnil)

private theorem upTo?_extend {literal text : List Char} (h : c.upTo? literal = some (text, next))
    (more : List Char) :
    (c.extend more).upTo? literal = some (text, next.extend more) := by
  obtain ⟨⟨before, after⟩, hsplit, heq⟩ := Option.map_eq_some_iff.mp h
  obtain ⟨rfl, rfl⟩ := Prod.mk.inj heq
  simp only [upTo?, extend, splitAtFirst_extend hsplit more, Option.map_some]

private theorem takeWhile_extend {text : List Char} (h : text.dropWhile p = [] → Stops p more) :
    (text ++ more).takeWhile p = text.takeWhile p ∧
      (text ++ more).dropWhile p = text.dropWhile p ++ more := by
  induction text with
  | nil => exact ⟨takeWhile_of_stops (h rfl), dropWhile_of_stops (h rfl)⟩
  | cons d text ih =>
    by_cases hd : p d = true
    · rw [List.dropWhile_cons_of_pos hd] at h
      obtain ⟨htake, hdrop⟩ := ih h
      rw [List.cons_append, List.takeWhile_cons_of_pos hd, List.takeWhile_cons_of_pos hd, htake,
        List.dropWhile_cons_of_pos hd, List.dropWhile_cons_of_pos hd, hdrop]
      exact ⟨rfl, rfl⟩
    · rw [List.cons_append, List.takeWhile_cons_of_neg hd, List.takeWhile_cons_of_neg hd,
        List.dropWhile_cons_of_neg hd, List.dropWhile_cons_of_neg hd]
      exact ⟨rfl, rfl⟩

private theorem skipWhile_extend (h : (c.skipWhile p).rest = [] → Stops p more) :
    (c.extend more).skipWhile p = (c.skipWhile p).extend more := by
  obtain ⟨htake, hdrop⟩ := takeWhile_extend h
  simp only [skipWhile, extend, htake, hdrop]

theorem skipBlanks_extend (h : c.skipBlanks.rest = [] → Stops isBlank more) :
    (c.extend more).skipBlanks = c.skipBlanks.extend more :=
  skipWhile_extend h

theorem skipBlanks_extend_of_ne_nil (h : c.skipBlanks.rest ≠ []) (more : List Char) :
    (c.extend more).skipBlanks = c.skipBlanks.extend more :=
  skipBlanks_extend fun hnil => absurd hnil h

theorem word?_eq_some_iff {word : List Char} :
    c.word? p = some (word, next) ↔
      word = c.rest.takeWhile p ∧ word ≠ [] ∧ next = c.skipWhile p := by
  simp only [word?]
  split
  · rename_i hempty
    simp only [List.isEmpty_iff] at hempty
    simp +contextual [hempty]
  · rename_i hne
    simp only [List.isEmpty_iff] at hne
    simp only [Option.some.injEq, Prod.mk.injEq]
    constructor
    · rintro ⟨rfl, rfl⟩
      exact ⟨rfl, hne, rfl⟩
    · rintro ⟨rfl, -, rfl⟩
      exact ⟨rfl, rfl⟩

theorem word?_extend {word : List Char} (h : c.word? p = some (word, next))
    (hend : next.rest = [] → Stops p more) :
    (c.extend more).word? p = some (word, next.extend more) := by
  obtain ⟨hword, hne, rfl⟩ := word?_eq_some_iff.mp h
  rw [word?_eq_some_iff, skipWhile_extend hend, extend_rest, (takeWhile_extend hend).1]
  exact ⟨hword, hne, rfl⟩

/-- No word begins with the character that stands there, whatever follows it. -/
theorem word?_extend_eq_none (h : c.word? p = none) (hrest : c.rest ≠ []) (more : List Char) :
    (c.extend more).word? p = none := by
  obtain ⟨d, rest, hd⟩ := List.exists_cons_of_ne_nil hrest
  have hstop : ¬ p d = true := by
    intro hp
    simp [word?, hd, List.takeWhile_cons_of_pos hp] at h
  simp [word?, hd, List.takeWhile_cons_of_neg hstop]

end Cursor

open Cursor

variable {c next : Cursor} {more : List Char}

/-! ## Attributes and tags -/

theorem tagName?_extend {tag : String} (h : tagName? c = some (tag, next))
    (hend : next.rest = [] → Stops isNameChar more) :
    tagName? (c.extend more) = some (tag, next.extend more) := by
  obtain ⟨⟨name, after⟩, hword, heq⟩ := Option.map_eq_some_iff.mp h
  obtain ⟨rfl, rfl⟩ := Prod.mk.inj heq
  rw [tagName?, word?_extend hword hend]
  rfl

theorem tagName?_extend_eq_none (h : tagName? c = none) (hrest : c.rest ≠ []) (more : List Char) :
    tagName? (c.extend more) = none := by
  rw [tagName?, Option.map_eq_none_iff] at h ⊢
  exact word?_extend_eq_none h hrest more

theorem attributeValue?_extend {value : List Char} (h : attributeValue? c = some (value, next))
    (hend : next.rest = [] → Stops isBareValueChar more) :
    attributeValue? (c.extend more) = some (value, next.extend more) := by
  unfold attributeValue? at h ⊢
  split at h
  · cases h
  · rename_i quote rest hrest
    simp only [extend_rest, hrest, List.cons_append]
    split at h
    · rename_i hquote
      rw [if_pos hquote]
      exact upTo?_extend h more
    · rename_i hquote
      rw [if_neg hquote]
      obtain ⟨rfl, rfl⟩ := Prod.mk.inj (Option.some.inj h)
      rw [skipWhile_extend hend]
      have htake := (takeWhile_extend hend).1
      rw [hrest, List.cons_append] at htake
      rw [htake, hrest]

/-- An attribute with something behind it is read in the same way. -/
theorem readAttribute_extend {a : Attribute} (h : readAttribute c = .ok (a, next))
    (hnext : next.rest ≠ []) (more : List Char) :
    readAttribute (c.extend more) = .ok (a, next.extend more) := by
  unfold readAttribute at h ⊢
  split at h
  · cases h
  rename_i name named hword
  have hnamed : named.skipBlanks.rest ≠ [] → named.rest ≠ [] := fun hne hnil => hne (by
    simp [skipBlanks, skipWhile, hnil])
  split at h
  · rename_i hequals
    obtain ⟨rfl, rfl⟩ := Prod.mk.inj (Except.ok.inj h)
    rw [word?_extend hword fun hnil => absurd hnil (hnamed hnext)]
    simp only [skipBlanks_extend_of_ne_nil hnext more,
      eat?_singleton_extend_eq_none hequals hnext more]
  · rename_i equals hequals
    split at h
    · cases h
    rename_i value after hvalue
    obtain ⟨rfl, rfl⟩ := Prod.mk.inj (Except.ok.inj h)
    have hblanks : named.skipBlanks.rest ≠ [] := by
      intro hnil
      have hlength := eat?_length hequals
      simp [hnil] at hlength
    have hequalsBlanks : equals.skipBlanks.rest ≠ [] := by
      intro hnil
      simp [attributeValue?, hnil] at hvalue
    rw [word?_extend hword fun hnil => absurd hnil (hnamed hblanks)]
    simp only [skipBlanks_extend_of_ne_nil hblanks more, eat?_extend hequals more,
      skipBlanks_extend_of_ne_nil hequalsBlanks more,
      attributeValue?_extend hvalue fun hnil => absurd hnil hnext]

private theorem eat?_of_readAttribute {a : Attribute} (h : readAttribute c = .ok (a, next)) :
    c.eat? ['/', '>'] = none ∧ c.eat? ['>'] = none := by
  unfold readAttribute at h
  split at h
  · cases h
  rename_i name named hword
  obtain ⟨rfl, hne, -⟩ := word?_eq_some_iff.mp hword
  have hhead : ∀ d tail, isAttributeNameChar d = false → ¬ d :: tail <+: c.rest := by
    rintro d tail hd ⟨behind, hbehind⟩
    rw [← hbehind, List.cons_append, List.takeWhile_cons_of_neg (by simp [hd])] at hne
    exact hne rfl
  exact ⟨eat?_eq_none_iff.mpr (hhead _ _ rfl), eat?_eq_none_iff.mpr (hhead _ _ rfl)⟩

theorem attributeList_of_self (h : c.skipBlanks.eat? ['/', '>'] = some next) :
    attributeList c = ([], .ok (true, next)) := by
  rw [attributeList, h]

theorem attributeList_of_end (hself : c.skipBlanks.eat? ['/', '>'] = none)
    (h : c.skipBlanks.eat? ['>'] = some next) : attributeList c = ([], .ok (false, next)) := by
  rw [attributeList, hself, h]

theorem attributeList_of_attribute {a : Attribute} (h : readAttribute c.skipBlanks = .ok (a, next)) :
    attributeList c = (a :: (attributeList next).1, (attributeList next).2) := by
  obtain ⟨hself, hend⟩ := eat?_of_readAttribute h
  rw [attributeList, hself, hend]
  simp only
  split
  · rename_i e he
    rw [h] at he
    cases he
  · rename_i b after hb
    obtain ⟨rfl, rfl⟩ := Prod.mk.inj (Except.ok.inj (h.symm.trans hb))
    rfl

theorem attributeList_of_fault {e : MarkupError} (hself : c.skipBlanks.eat? ['/', '>'] = none)
    (hend : c.skipBlanks.eat? ['>'] = none) (h : readAttribute c.skipBlanks = .error e) :
    attributeList c = ([], .error e) := by
  rw [attributeList, hself, hend]
  simp only
  split
  · rename_i e' he
    rw [← Except.error.inj (h.symm.trans he)]
  · rename_i b after hb
    rw [h] at hb
    cases hb

theorem skipBlanks_rest_ne_nil_of_eat? {literal : List Char} (hliteral : literal ≠ [])
    (h : c.skipBlanks.eat? literal = some next) : c.skipBlanks.rest ≠ [] := by
  intro hnil
  have hlength := eat?_length h
  rw [hnil, List.length_nil, Nat.add_eq_zero_iff, List.length_eq_zero_iff,
    List.length_eq_zero_iff] at hlength
  exact hliteral hlength.2

theorem skipBlanks_rest_ne_nil_of_readAttribute {a : Attribute}
    (h : readAttribute c.skipBlanks = .ok (a, next)) : c.skipBlanks.rest ≠ [] := by
  intro hnil
  have hlength := readAttribute_length h
  simp [hnil] at hlength

/-- No list of attributes ends where the markup does. -/
theorem attributeList_of_nil (h : c.rest = []) :
    attributeList c = ([], .error (.unexpectedEnd c.offset)) := by
  have hskip : c.skipBlanks = ⟨c.offset, []⟩ := by simp [skipBlanks, skipWhile, h]
  apply attributeList_of_fault
  · rw [hskip]; rfl
  · rw [hskip]; rfl
  · rw [hskip]; rfl

private theorem attributeList_extend {attributes : List Attribute} {selfClosing : Bool}
    (h : attributeList c = (attributes, .ok (selfClosing, next))) (more : List Char) :
    attributeList (c.extend more) = (attributes, .ok (selfClosing, next.extend more)) := by
  fun_induction attributeList c generalizing attributes with
  | case1 c after hself =>
    obtain ⟨rfl, hok⟩ := Prod.mk.inj h
    obtain ⟨rfl, rfl⟩ := Prod.mk.inj (Except.ok.inj hok)
    apply attributeList_of_self
    rw [skipBlanks_extend_of_ne_nil (skipBlanks_rest_ne_nil_of_eat? (by simp) hself)]
    exact eat?_extend hself more
  | case2 c hself after hend =>
    obtain ⟨rfl, hok⟩ := Prod.mk.inj h
    obtain ⟨rfl, rfl⟩ := Prod.mk.inj (Except.ok.inj hok)
    have hblanks := skipBlanks_rest_ne_nil_of_eat? (by simp) hend
    obtain ⟨rest, hrest, -⟩ := Option.map_eq_some_iff.mp hend
    have hhead : ¬ c.skipBlanks.rest <+: ['/', '>'] := by simp [dropStart?_eq_some.mp hrest]
    apply attributeList_of_end
    · rw [skipBlanks_extend_of_ne_nil hblanks]
      exact eat?_extend_eq_none hself hhead more
    · rw [skipBlanks_extend_of_ne_nil hblanks]
      exact eat?_extend hend more
  | case3 => cases (Prod.mk.inj h).2
  | case4 c _ _ a after hattribute rest result hrec ih =>
    obtain ⟨rfl, rfl⟩ := Prod.mk.inj h
    have hafter : after.rest ≠ [] := by
      intro hnil
      rw [attributeList_of_nil hnil] at hrec
      cases (Prod.mk.inj hrec).2
    have hread : readAttribute (c.extend more).skipBlanks = .ok (a, after.extend more) := by
      rw [skipBlanks_extend_of_ne_nil (skipBlanks_rest_ne_nil_of_readAttribute hattribute)]
      exact readAttribute_extend hattribute hafter more
    rw [attributeList_of_attribute hread, ih hrec]

/-! ## Tokens -/

variable {t : Token}

private theorem scanComment_extend (h : scanComment c = .token t next) (more : List Char) :
    scanComment (c.extend more) = .token t (next.extend more) := by
  unfold scanComment at h ⊢
  split at h
  · rename_i data after hdata
    obtain ⟨rfl, rfl⟩ := Scan.token.inj h
    rw [upTo?_extend hdata]
  · cases h

theorem skipBlanks_of_nil (h : c.rest = []) : c.skipBlanks = ⟨c.offset, []⟩ := by
  simp [skipBlanks, skipWhile, h]

theorem rest_ne_nil_of_skipBlanks (h : c.skipBlanks.rest ≠ []) : c.rest ≠ [] :=
  fun hnil => h (by rw [skipBlanks_of_nil hnil])

private theorem scanClosing_extend (h : scanClosing c = .token t next) (more : List Char) :
    scanClosing (c.extend more) = .token t (next.extend more) := by
  unfold scanClosing at h ⊢
  split at h
  · cases h
  rename_i tag named hname
  split at h
  · cases h
  rename_i after hend
  obtain ⟨rfl, rfl⟩ := Scan.token.inj h
  have hblanks := skipBlanks_rest_ne_nil_of_eat? (by simp) hend
  rw [tagName?_extend hname fun hnil => absurd hnil (rest_ne_nil_of_skipBlanks hblanks)]
  simp only [skipBlanks_extend_of_ne_nil hblanks more, eat?_extend hend more]
  rfl

private theorem scanOpening_extend (h : scanOpening c = .token t next) (more : List Char) :
    scanOpening (c.extend more) = .token t (next.extend more) := by
  unfold scanOpening at h ⊢
  split at h
  · cases h
  rename_i tag named hname
  split at h
  · rename_i attributes selfClosing after hattributes
    obtain ⟨rfl, rfl⟩ := Scan.token.inj h
    have hnamed : named.rest ≠ [] := by
      intro hnil
      rw [attributeList_of_nil hnil] at hattributes
      cases (Prod.mk.inj hattributes).2
    rw [tagName?_extend hname fun hnil => absurd hnil hnamed]
    simp only [attributeList_extend hattributes more]
  · cases h

theorem scan_eq_comment (h : c.eat? ['<', '!', '-', '-'] = some next) : scan c = scanComment next := by
  rw [scan, h]

theorem scan_eq_closing (h : c.eat? ['<', '/'] = some next) : scan c = scanClosing next := by
  obtain ⟨rest, hrest, -⟩ := Option.map_eq_some_iff.mp h
  have hcomment : c.eat? ['<', '!', '-', '-'] = none := by
    rw [eat?_eq_none_iff, dropStart?_eq_some.mp hrest]
    simp
  rw [scan, hcomment, h]

/-- What begins with the sign of a tag is read as an opening tag when it can only be that. -/
theorem scan_eq_opening (h : c.eat? ['<'] = some next)
    (hcomment : c.eat? ['<', '!', '-', '-'] = none) (hclosing : c.eat? ['<', '/'] = none) :
    scan c = scanOpening next := by
  rw [scan, hcomment, hclosing, h]

theorem scan_eq_text (h : c.eat? ['<'] = none) : scan c = scanText c := by
  have hlonger : ∀ tail, c.eat? ('<' :: tail) = none := by
    rintro tail
    rw [eat?_eq_none_iff] at h ⊢
    rintro ⟨behind, hbehind⟩
    exact h ⟨tail ++ behind, hbehind⟩
  rw [scan, hlonger, hlonger, h]

/-- A tag name rules out a comment and a closing tag, whatever follows. -/
theorem eat?_of_tagName? {tag : String} {named : Cursor} (h : c.eat? ['<'] = some next)
    (hname : tagName? next = some (tag, named)) (more : List Char) :
    (c.extend more).eat? ['<', '!', '-', '-'] = none ∧ (c.extend more).eat? ['<', '/'] = none := by
  obtain ⟨rest, hrest, rfl⟩ := Option.map_eq_some_iff.mp h
  obtain ⟨⟨name, after⟩, hword, -⟩ := Option.map_eq_some_iff.mp hname
  obtain ⟨rfl, hne, -⟩ := word?_eq_some_iff.mp hword
  have hhead : ∀ d tail, isNameChar d = false → ¬ d :: tail <+: rest ++ more := by
    rintro d tail hd hbegins
    rcases rest with _ | ⟨x, rest⟩
    · exact hne rfl
    · rw [List.cons_append, List.cons_prefix_cons] at hbegins
      simp only [← hbegins.1] at hne
      rw [List.takeWhile_cons_of_neg (by simp [hd])] at hne
      exact hne rfl
  simp only [eat?_eq_none_iff, extend_rest, dropStart?_eq_some.mp hrest, List.cons_append,
    List.cons_prefix_cons, true_and]
  exact ⟨hhead _ _ rfl, hhead _ _ rfl⟩

/-- A token is read again when more text follows, a text at the end only when a tag follows. -/
theorem scan_extend (h : scan c = .token t next) (hne : c.rest ≠ [])
    (hend : t.isText = true → next.rest = [] → Stops (· != '<') more) :
    scan (c.extend more) = .token t (next.extend more) := by
  cases hcomment : c.eat? ['<', '!', '-', '-'] with
  | some after =>
    rw [scan_eq_comment hcomment] at h
    rw [scan_eq_comment (eat?_extend hcomment more)]
    exact scanComment_extend h more
  | none =>
    cases hclosing : c.eat? ['<', '/'] with
    | some after =>
      rw [scan_eq_closing hclosing] at h
      rw [scan_eq_closing (eat?_extend hclosing more)]
      exact scanClosing_extend h more
    | none =>
      cases hopening : c.eat? ['<'] with
      | some after =>
        rw [scan_eq_opening hopening hcomment hclosing] at h
        cases hname : tagName? after with
        | none => simp [scanOpening, hname] at h
        | some named =>
          obtain ⟨hcomment', hclosing'⟩ := eat?_of_tagName? hopening hname more
          rw [scan_eq_opening (eat?_extend hopening more) hcomment' hclosing']
          exact scanOpening_extend h more
      | none =>
        have hhead : ¬ c.rest <+: ['<'] := by
          rintro ⟨behind, hbehind⟩
          obtain ⟨d, rest, hrest⟩ := List.exists_cons_of_ne_nil hne
          rw [hrest, List.cons_append] at hbehind
          rw [eat?_eq_none_iff, hrest, (List.cons.inj hbehind).1] at hopening
          exact hopening ⟨rest, rfl⟩
        rw [scan_eq_text hopening] at h
        rw [scan_eq_text (eat?_extend_eq_none hopening hhead more)]
        obtain ⟨rfl, rfl⟩ := Scan.token.inj h
        have hstops := hend rfl
        rw [scanText, skipWhile_extend hstops, extend_rest, (takeWhile_extend hstops).1]

/-- Reading takes these tokens and gets to this position. -/
inductive Reads : Cursor → List Token → Cursor → Prop
  | refl (c : Cursor) : Reads c [] c
  | step {c next last : Cursor} {t : Token} {ts : List Token} : c.rest ≠ [] → scan c = .token t next → Reads next ts last →
      Reads c (t :: ts) last

theorem Reads.tokens {ts : List Token} {last : Cursor} (h : Reads c ts last) :
    tokens c = (ts ++ (Markup.tokens last).1, (Markup.tokens last).2) := by
  induction h with
  | refl => rfl
  | step hne hscan _ ih => rw [tokens_of_scan hscan hne, ih]; rfl

theorem Reads.trans {ts us : List Token} {middle last : Cursor} (h : Reads c ts middle)
    (hrest : Reads middle us last) : Reads c (ts ++ us) last := by
  induction h with
  | refl => exact hrest
  | step hne hscan _ ih => exact .step hne hscan (ih hrest)

/-- Reading gets to the end of a markup or to a fault. -/
theorem exists_reads (c : Cursor) :
    ∃ last, Reads c (tokens c).1 last ∧
      ((last.rest = [] ∧ (tokens c).2 = none) ∨
        last.rest ≠ [] ∧ ∃ fault, scan last = .fault fault ∧ (tokens c).2 = some fault) := by
  fun_induction tokens c with
  | case1 c hempty => exact ⟨c, .refl c, Or.inl ⟨hempty, rfl⟩⟩
  | case2 c hne fault hscan => exact ⟨c, .refl c, Or.inr ⟨hne, fault, hscan, rfl⟩⟩
  | case3 c hne token next hscan rest fault hrec ih =>
    rw [hrec] at ih
    obtain ⟨last, hreads, hlast⟩ := ih
    exact ⟨last, .step hne hscan hreads, hlast⟩

/-- A markup that goes on is read as far as it was, except that a text at its end may go on too. -/
theorem Reads.extend {ts : List Token} {last : Cursor} (h : Reads c ts last)
    (hend : last.rest = [] → (∃ t ∈ ts.getLast?, t.isText = true) → Stops (· != '<') more) :
    Reads (c.extend more) ts (last.extend more) := by
  induction h with
  | refl => exact .refl _
  | @step c next last t ts hne hscan hrest ih =>
    have hmore : (c.extend more).rest ≠ [] := by simp [hne]
    refine .step hmore (scan_extend hscan hne fun htext hnil => ?_) (ih fun hlast hlastText => ?_)
    · cases hrest with
      | refl => exact hend hnil ⟨t, rfl, htext⟩
      | step hnext => exact absurd hnil hnext
    · cases hrest with
      | refl => simp at hlastText
      | step => exact hend hlast (by rwa [List.getLast?_cons_cons])

end Markup
end ViewBinding
