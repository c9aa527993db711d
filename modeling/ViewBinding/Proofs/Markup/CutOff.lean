import Mathlib
import ViewBinding.Proofs.Markup.Extension
import ViewBinding.Proofs.Markup.Nesting

/-!
# Markup that was cut off

Some markup is rejected only because it stops too early. The errors about its end are given only for
such markup. An invalid tag is reported for it in three places, where a reader misses a character
and does not ask whether there is any (`CutShort`); everywhere else an invalid tag stays one, and a
closing tag that does not fit never comes to fit (`Document.parse_continues_iff`).
-/

namespace ViewBinding

/-- The errors that say that the markup ends too early. -/
def MarkupError.AtEnd : MarkupError → Prop
  | unexpectedEnd _ | unclosed _ => True
  | invalidTag _ | mismatchedClose _ _ _ => False

namespace Markup

open Text Cursor

variable {c next : Cursor} {more : List Char}

/-- A tag or a comment that the end of the markup cuts off before a character that its reader takes
for granted: in the opening of a comment, in a closing tag that may still be that of the innermost
open element, or before the last character of a tag that closes itself. -/
inductive CutShort (innermost : Option String) (c : Cursor) : Prop
  | comment {tail : List Char} : c.rest = '<' :: tail → tail <+: ['!', '-'] → CutShort innermost c
  | closing {name blanks : List Char} {tag : String} :
      c.rest = '<' :: '/' :: (name ++ blanks) → (∀ d ∈ name, isNameChar d = true) →
        (∀ d ∈ blanks, isBlank d = true) → innermost = some tag →
          name.map Char.toLower <+: tag.toList →
            (blanks ≠ [] → name.map Char.toLower = tag.toList) → CutShort innermost c
  | slash {tag : String} {attributes : List Attribute} {offset : Nat} :
      scan (c.extend ['>']) = .token (.opening tag attributes true) ⟨offset, []⟩ →
        CutShort innermost c

/-! ## Faults -/

private theorem exists_readAttribute_of_unexpectedEnd {offset : Nat}
    (h : readAttribute c = .error (.unexpectedEnd offset)) (hrest : c.rest ≠ []) :
    ∃ value, ∀ more, ∃ a after,
      readAttribute (c.extend (value ++ more)) = .ok (a, ⟨after, more⟩) := by
  unfold readAttribute at h
  split at h
  · rw [if_neg (by simpa using hrest)] at h
    cases Except.error.inj h
  rename_i name named hword
  split at h
  · cases h
  rename_i equals hequals
  split at h
  case h_2 => cases h
  rename_i hvalue
  have hblanks := skipBlanks_rest_ne_nil_of_eat? (by simp) hequals
  have hnamed := rest_ne_nil_of_skipBlanks hblanks
  -- Whatever follows, the value is read behind the equals sign.
  have hread : ∀ more value after, (equals.skipBlanks.rest = [] → Stops isBlank more) →
      attributeValue? (equals.skipBlanks.extend more) = some (value, after) →
        ∃ a, readAttribute (c.extend more) = .ok (a, after) := by
    intro more value after hstops hmore
    refine ⟨⟨String.ofList name, String.ofList (decodeEntities value)⟩, ?_⟩
    rw [readAttribute, word?_extend hword fun hnil => absurd hnil hnamed]
    simp only [skipBlanks_extend_of_ne_nil hblanks more, eat?_extend hequals more,
      skipBlanks_extend hstops, hmore]
  unfold attributeValue? at hvalue
  split at hvalue
  · rename_i hnil
    refine ⟨['"', '"'], fun more => ?_⟩
    obtain ⟨a, ha⟩ := hread (['"', '"'] ++ more) [] ⟨_, more⟩ (fun _ => stops_of_head rfl _)
      (by simp only [attributeValue?, extend, hnil, List.nil_append, List.cons_append, true_or,
            if_true, upTo?, splitAtFirst, dropStart?, Option.map_some]; rfl)
    exact ⟨a, _, ha⟩
  · rename_i quote rest hquoted
    split at hvalue
    case isFalse => cases hvalue
    rename_i hquote
    have hopen : quote ∉ rest := by
      rw [← List.singleton_infix_iff]
      exact splitAtFirst_eq_none_iff.mp (Option.map_eq_none_iff.mp hvalue)
    refine ⟨[quote], fun more => ?_⟩
    have hsplit := splitAtFirst_singleton hopen more
    obtain ⟨a, ha⟩ := hread (quote :: more) rest ⟨_, more⟩
      (fun hnil => by rw [hnil] at hquoted; cases hquoted)
      (by simp only [attributeValue?, extend, hquoted, List.cons_append, hquote, if_true, upTo?,
            hsplit, Option.map_some]; rfl)
    exact ⟨a, _, ha⟩

private theorem skipBlanks_extend_slash (h : c.skipBlanks.rest = []) :
    ∃ offset, (c.extend [' ', '/', '>']).skipBlanks = ⟨offset, ['/', '>']⟩ := by
  have hdrop : c.rest.dropWhile isBlank = [] := h
  have hrest : (c.rest ++ [' ', '/', '>']).dropWhile isBlank = ['/', '>'] := by
    rw [List.dropWhile_append, hdrop]
    rfl
  exact ⟨_, by rw [skipBlanks, skipWhile, extend_rest, hrest]⟩

private theorem exists_readAttribute_extend_slash {a : Attribute}
    (h : readAttribute c = .ok (a, next)) (hnext : next.rest = []) :
    ∃ after offset, readAttribute (c.extend [' ', '/', '>']) = .ok (a, after) ∧
      after.skipBlanks = ⟨offset, ['/', '>']⟩ := by
  unfold readAttribute at h ⊢
  split at h
  · cases h
  rename_i name named hword
  rw [word?_extend hword fun _ => stops_of_head rfl _]
  split at h
  · obtain ⟨rfl, rfl⟩ := Prod.mk.inj (Except.ok.inj h)
    obtain ⟨offset, hskip⟩ := skipBlanks_extend_slash hnext
    have hequals : eat? ['='] ⟨offset, ['/', '>']⟩ = none := rfl
    simp only [hskip, hequals]
    exact ⟨_, offset, rfl, rfl⟩
  · rename_i equals hequals
    split at h
    · cases h
    rename_i value after hvalue
    obtain ⟨rfl, rfl⟩ := Prod.mk.inj (Except.ok.inj h)
    have hblanks : named.skipBlanks.rest ≠ [] := skipBlanks_rest_ne_nil_of_eat? (by simp) hequals
    have hequalsBlanks : equals.skipBlanks.rest ≠ [] := by
      intro hnil
      simp [attributeValue?, hnil] at hvalue
    have hvalue' := attributeValue?_extend hvalue fun _ =>
      (stops_of_head rfl ['/', '>'] : Stops isBareValueChar [' ', '/', '>'])
    obtain ⟨offset, hskip⟩ :=
      skipBlanks_extend_slash (c := after) (by rw [skipBlanks_of_nil hnext])
    simp only [skipBlanks_extend_of_ne_nil hblanks, eat?_extend hequals,
      skipBlanks_extend_of_ne_nil hequalsBlanks, hvalue']
    exact ⟨_, offset, rfl, hskip⟩

private theorem exists_attributeList_of_unexpectedEnd {offset : Nat}
    (h : (attributeList c).2 = .error (.unexpectedEnd offset)) :
    ∃ more attributes after, (c.rest = [] → more = ['/', '>']) ∧
      attributeList (c.extend more) = (attributes, .ok (true, ⟨after, []⟩)) := by
  have hclose : ∀ {c : Cursor} {offset : Nat}, c.skipBlanks = ⟨offset, ['/', '>']⟩ →
      ∃ after, attributeList c = ([], .ok (true, ⟨after, []⟩)) :=
    fun hskip => ⟨_, attributeList_of_self (by rw [hskip]; rfl)⟩
  fun_induction attributeList c with
  | case1 => cases h
  | case2 => cases h
  | case3 c hself hend e hattribute =>
    obtain rfl : e = .unexpectedEnd offset := Except.error.inj h
    by_cases hblanks : c.skipBlanks.rest = []
    · have hskip : (c.extend ['/', '>']).skipBlanks = ⟨c.skipBlanks.offset, ['/', '>']⟩ := by
        rw [skipBlanks_extend fun _ => stops_of_head rfl _, extend, hblanks]
        rfl
      obtain ⟨after, hlist⟩ := hclose hskip
      exact ⟨_, [], after, fun _ => rfl, hlist⟩
    · obtain ⟨value, hvalue⟩ := exists_readAttribute_of_unexpectedEnd hattribute hblanks
      obtain ⟨a, after, hread⟩ := hvalue ['/', '>']
      obtain ⟨last, hlist⟩ := hclose (c := ⟨after, ['/', '>']⟩) rfl
      refine ⟨value ++ ['/', '>'], [a], last,
        fun hnil => absurd hnil (rest_ne_nil_of_skipBlanks hblanks), ?_⟩
      rw [← skipBlanks_extend_of_ne_nil hblanks] at hread
      rw [attributeList_of_attribute hread, hlist]
  | case4 c hself hend a after hattribute rest result hrec ih =>
    rw [hrec] at ih
    have hblanks := skipBlanks_rest_ne_nil_of_readAttribute hattribute
    have hne := rest_ne_nil_of_skipBlanks hblanks
    by_cases hafter : after.rest = []
    · obtain ⟨behind, offset, hread, hskip⟩ := exists_readAttribute_extend_slash hattribute hafter
      obtain ⟨last, hlist⟩ := hclose hskip
      refine ⟨[' ', '/', '>'], [a], last, fun hnil => absurd hnil hne, ?_⟩
      rw [← skipBlanks_extend_of_ne_nil hblanks] at hread
      rw [attributeList_of_attribute hread, hlist]
    · obtain ⟨more, attributes, last, -, hlist⟩ := ih h
      refine ⟨more, a :: attributes, last, fun hnil => absurd hnil hne, ?_⟩
      have hread := readAttribute_extend hattribute hafter more
      rw [← skipBlanks_extend_of_ne_nil hblanks] at hread
      rw [attributeList_of_attribute hread, hlist]

private theorem readAttribute_of_invalidTag {offset : Nat}
    (h : readAttribute c = .error (.invalidTag offset)) :
    c.rest ≠ [] ∧ ∀ more, readAttribute (c.extend more) = .error (.invalidTag offset) := by
  unfold readAttribute at h
  split at h
  · rename_i hword
    have hne : c.rest ≠ [] := by
      intro hnil
      simp [hnil] at h
    obtain rfl : c.offset = offset := by simpa [hne] using h
    refine ⟨hne, fun more => ?_⟩
    rw [readAttribute, word?_extend_eq_none hword hne]
    simp [hne, extend]
  · split at h
    · cases h
    · split at h
      · cases Except.error.inj h
      · cases h

private theorem attributeList_of_invalidTag {offset : Nat}
    (h : (attributeList c).2 = .error (.invalidTag offset)) :
    (∃ attributes after, attributeList (c.extend ['>']) = (attributes, .ok (true, ⟨after, []⟩))) ∨
      ∀ more, (attributeList (c.extend more)).2 = .error (.invalidTag offset) := by
  fun_induction attributeList c with
  | case1 => cases h
  | case2 => cases h
  | case3 c hself hend e hattribute =>
    obtain rfl : e = .invalidTag offset := Except.error.inj h
    obtain ⟨hblanks, hfault⟩ := readAttribute_of_invalidTag hattribute
    by_cases hslash : c.skipBlanks.rest = ['/']
    · refine Or.inl ⟨[], c.skipBlanks.offset + utf8Length ['/', '>'], attributeList_of_self ?_⟩
      rw [skipBlanks_extend_of_ne_nil hblanks, extend, hslash]
      rfl
    · refine Or.inr fun more => ?_
      have hwithin : ¬ c.skipBlanks.rest <+: ['/', '>'] := by
        intro hwithin
        rcases List.prefix_concat_iff.mp (show _ <+: ['/'] ++ ['>'] from hwithin) with heq | hwithin
        · exact eat?_eq_none_iff.mp hself (by rw [heq]; exact List.prefix_rfl)
        rcases List.prefix_concat_iff.mp (show _ <+: [] ++ ['/'] from hwithin) with heq | hnil
        · exact hslash heq
        · exact hblanks (List.prefix_nil.mp hnil)
      have hskip := skipBlanks_extend_of_ne_nil hblanks more
      rw [attributeList_of_fault (by rw [hskip]; exact eat?_extend_eq_none hself hwithin more)
        (by rw [hskip]; exact eat?_singleton_extend_eq_none hend hblanks more)
        (by rw [hskip]; exact hfault more)]
  | case4 c hself hend a after hattribute rest result hrec ih =>
    rw [hrec] at ih
    have hafter : after.rest ≠ [] := by
      intro hnil
      have hlist := attributeList_of_nil hnil
      rw [hrec] at hlist
      rw [(Prod.mk.inj hlist).2] at h
      cases Except.error.inj h
    have hread : ∀ more, readAttribute (c.extend more).skipBlanks = .ok (a, after.extend more) := by
      intro more
      rw [skipBlanks_extend_of_ne_nil (skipBlanks_rest_ne_nil_of_readAttribute hattribute)]
      exact readAttribute_extend hattribute hafter more
    rcases ih h with ⟨attributes, last, hlist⟩ | hstays
    · exact Or.inl ⟨a :: attributes, last, by rw [attributeList_of_attribute (hread _), hlist]⟩
    · exact Or.inr fun more => by rw [attributeList_of_attribute (hread more), hstays more]

theorem readAttribute_error {e : MarkupError} (h : readAttribute c = .error e) :
    e = .unexpectedEnd c.offset ∨ e = .invalidTag c.offset := by
  unfold readAttribute at h
  split at h
  · rw [← Except.error.inj h]
    split
    · exact Or.inl rfl
    · exact Or.inr rfl
  · split at h
    · cases h
    · split at h
      · exact Or.inl (Except.error.inj h).symm
      · cases h

private theorem attributeList_error {e : MarkupError} (h : (attributeList c).2 = .error e) :
    ∃ offset, e = .unexpectedEnd offset ∨ e = .invalidTag offset := by
  fun_induction attributeList c with
  | case1 => cases h
  | case2 => cases h
  | case3 c hself hend e' hattribute =>
    obtain rfl : e' = e := Except.error.inj h
    exact ⟨_, readAttribute_error hattribute⟩
  | case4 c hself hend a after hattribute rest result hrec ih =>
    rw [hrec] at ih
    exact ih h

theorem scanOpening_fault {fault : Fault} (h : scanOpening c = .fault fault) :
    (tagName? c = none ∧ fault.error = .invalidTag c.offset) ∨
      ∃ tag named, tagName? c = some (tag, named) ∧ (attributeList named).2 = .error fault.error := by
  unfold scanOpening at h
  split at h
  · rename_i hname
    rw [← Scan.fault.inj h]
    exact Or.inl ⟨hname, rfl⟩
  · rename_i tag named hname
    split at h
    · cases h
    · rename_i attributes e hlist
      rw [← Scan.fault.inj h]
      exact Or.inr ⟨tag, named, hname, by rw [hlist]⟩

theorem scanClosing_fault {fault : Fault} (h : scanClosing c = .fault fault) :
    fault.error = .invalidTag c.offset := by
  unfold scanClosing at h
  split at h
  · rw [← Scan.fault.inj h]
  · split at h
    · rw [← Scan.fault.inj h]
    · cases h

/-- A fault lies in a comment, in a closing tag or in an opening one. -/
theorem scan_fault_cases {fault : Fault} (h : scan c = .fault fault) :
    (∃ after, c.eat? ['<', '!', '-', '-'] = some after ∧ after.upTo? ['-', '-', '>'] = none ∧
        fault.error = .unexpectedEnd after.offset) ∨
      (∃ after, c.eat? ['<', '/'] = some after ∧ scanClosing after = .fault fault) ∨
      ∃ after, c.eat? ['<'] = some after ∧ c.eat? ['<', '!', '-', '-'] = none ∧
        c.eat? ['<', '/'] = none ∧ scanOpening after = .fault fault := by
  cases hcomment : c.eat? ['<', '!', '-', '-'] with
  | some after =>
    rw [scan_eq_comment hcomment, scanComment] at h
    split at h
    · cases h
    · rename_i hend
      rw [← Scan.fault.inj h]
      exact Or.inl ⟨after, rfl, hend, rfl⟩
  | none =>
    cases hclosing : c.eat? ['<', '/'] with
    | some after =>
      rw [scan_eq_closing hclosing] at h
      exact Or.inr (Or.inl ⟨after, rfl, h⟩)
    | none =>
      cases hopening : c.eat? ['<'] with
      | some after =>
        rw [scan_eq_opening hopening hcomment hclosing] at h
        exact Or.inr (Or.inr ⟨after, rfl, rfl, rfl, h⟩)
      | none =>
        rw [scan_eq_text hopening] at h
        cases h

private theorem scan_error {fault : Fault} (h : scan c = .fault fault) :
    ∃ offset, fault.error = .unexpectedEnd offset ∨ fault.error = .invalidTag offset := by
  rcases scan_fault_cases h with ⟨after, -, -, herror⟩ | ⟨after, -, hclosing⟩ |
    ⟨after, -, -, -, hopening⟩
  · exact ⟨_, Or.inl herror⟩
  · exact ⟨_, Or.inr (scanClosing_fault hclosing)⟩
  · rcases scanOpening_fault hopening with ⟨-, herror⟩ | ⟨tag, named, -, hlist⟩
    · exact ⟨_, Or.inr herror⟩
    · exact attributeList_error hlist

private theorem eq_of_eat? {literal : List Char} (h : c.eat? literal = some next) :
    c = ⟨c.offset, literal ++ next.rest⟩ ∧ next = ⟨c.offset + utf8Length literal, next.rest⟩ := by
  obtain ⟨rest, hrest, rfl⟩ := Option.map_eq_some_iff.mp h
  rw [← dropStart?_eq_some.mp hrest]
  exact ⟨rfl, rfl⟩

private theorem exists_scan_of_unexpectedEnd {fault : Fault} {offset : Nat}
    (h : scan c = .fault fault) (herror : fault.error = .unexpectedEnd offset) :
    ∃ more t after, scan (c.extend more) = .token t ⟨after, []⟩ ∧ t.bracket? = none := by
  rcases scan_fault_cases h with ⟨after, heat, hend, -⟩ | ⟨after, -, hclosing⟩ |
    ⟨after, hopen, -, -, hopening⟩
  · have hdata : ¬ ['-', '-', '>'] <:+: (String.ofList after.rest).toList := by
      rw [String.toList_ofList]
      exact splitAtFirst_eq_none_iff.mp (Option.map_eq_none_iff.mp hend)
    obtain ⟨last, hscan⟩ := scan_commentMarkup hdata [] c.offset
    refine ⟨['-', '-', '>'], .comment (String.ofList after.rest), last, ?_, rfl⟩
    rw [(eq_of_eat? heat).1]
    simpa [extend, commentMarkup] using hscan
  · rw [scanClosing_fault hclosing] at herror
    cases herror
  · rcases scanOpening_fault hopening with ⟨-, hinvalid⟩ | ⟨tag, named, hname, hlist⟩
    · rw [hinvalid] at herror
      cases herror
    · rw [herror] at hlist
      obtain ⟨more, attributes, last, hnil, hcompleted⟩ := exists_attributeList_of_unexpectedEnd hlist
      obtain ⟨hcomment, hclosing⟩ := eat?_of_tagName? hopen hname more
      refine ⟨more, .opening tag attributes true, last, ?_, rfl⟩
      rw [scan_eq_opening (eat?_extend hopen more) hcomment hclosing, scanOpening,
        tagName?_extend hname fun hrest => by rw [hnil hrest]; exact stops_of_head rfl _]
      simp only [hcompleted]

/-- The closing tag at a position breaks off in its name or in the blanks behind it. -/
def ClosingBroken (c : Cursor) (name blanks : List Char) : Prop :=
  c.rest = '<' :: '/' :: (name ++ blanks) ∧ (∀ d ∈ name, isNameChar d = true) ∧
    (∀ d ∈ blanks, isBlank d = true) ∧ (name = [] → blanks = [])

private theorem scan_of_invalidTag {fault : Fault} {offset : Nat} (h : scan c = .fault fault)
    (herror : fault.error = .invalidTag offset) :
    (∃ name blanks, ClosingBroken c name blanks) ∨ (∀ innermost, CutShort innermost c) ∨
      ∀ more, ∃ fault', scan (c.extend more) = .fault fault' := by
  rcases scan_fault_cases h with ⟨after, -, -, hend⟩ | ⟨after, hclose, hclosing⟩ |
    ⟨after, hopen, hnoComment, hnoClosing, hopening⟩
  · rw [hend] at herror
    cases herror
  · obtain ⟨hc, -⟩ := eq_of_eat? hclose
    have hstays : (∀ more, ∃ fault', scanClosing (after.extend more) = .fault fault') →
        ∀ more, ∃ fault', scan (c.extend more) = .fault fault' := by
      intro hafter more
      rw [scan_eq_closing (eat?_extend hclose more)]
      exact hafter more
    unfold scanClosing at hclosing
    split at hclosing
    · rename_i hname
      by_cases hrest : after.rest = []
      · exact Or.inl ⟨[], [], by rw [hc, hrest]; rfl, by simp, by simp, fun _ => rfl⟩
      · refine Or.inr (Or.inr (hstays fun more => ?_))
        rw [scanClosing, tagName?_extend_eq_none hname hrest]
        exact ⟨_, rfl⟩
    · rename_i tag named hname
      split at hclosing
      case h_2 => cases hclosing
      rename_i hend
      obtain ⟨⟨name, last⟩, hword, heq⟩ := Option.map_eq_some_iff.mp hname
      obtain ⟨rfl, rfl⟩ := Prod.mk.inj heq
      obtain ⟨rfl, hne, rfl⟩ := word?_eq_some_iff.mp hword
      by_cases hblanks : (after.skipWhile isNameChar).skipBlanks.rest = []
      · refine Or.inl ⟨after.rest.takeWhile isNameChar, after.rest.dropWhile isNameChar, ?_,
          fun _ => List.mem_takeWhile_imp, List.dropWhile_eq_nil_iff.mp hblanks, fun hnil =>
          absurd hnil hne⟩
        rw [List.takeWhile_append_dropWhile, hc]
        rfl
      · refine Or.inr (Or.inr (hstays fun more => ?_))
        rw [scanClosing, tagName?_extend hname fun hnil => absurd hnil
          (rest_ne_nil_of_skipBlanks hblanks)]
        simp only [skipBlanks_extend_of_ne_nil hblanks more,
          eat?_singleton_extend_eq_none hend hblanks more]
        exact ⟨_, rfl⟩
  · obtain ⟨hc, -⟩ := eq_of_eat? hopen
    refine Or.inr ?_
    rcases scanOpening_fault hopening with ⟨hname, -⟩ | ⟨tag, named, hname, hlist⟩
    · by_cases hbang : after.rest <+: ['!', '-']
      · exact Or.inl fun _ => .comment (by rw [hc]; rfl) hbang
      · refine Or.inr fun more => ?_
        have hrest : after.rest ≠ [] := fun hnil => hbang (by rw [hnil]; exact List.nil_prefix)
        have hcomment : ¬ c.rest <+: ['<', '!', '-', '-'] := by
          intro hwithin
          rcases List.prefix_concat_iff.mp (show _ <+: ['<', '!', '-'] ++ ['-'] from hwithin) with
            heq | hwithin
          · exact eat?_eq_none_iff.mp hnoComment (by rw [heq]; exact List.prefix_rfl)
          · rw [hc, List.singleton_append, List.cons_prefix_cons] at hwithin
            exact hbang hwithin.2
        have hclosing : ¬ c.rest <+: ['<', '/'] := by
          intro hwithin
          rcases List.prefix_concat_iff.mp (show _ <+: ['<'] ++ ['/'] from hwithin) with
            heq | hwithin
          · exact eat?_eq_none_iff.mp hnoClosing (by rw [heq]; exact List.prefix_rfl)
          · rw [hc, List.singleton_append, List.cons_prefix_cons, List.prefix_nil] at hwithin
            exact hrest hwithin.2
        rw [scan_eq_opening (eat?_extend hopen more) (eat?_extend_eq_none hnoComment hcomment more)
          (eat?_extend_eq_none hnoClosing hclosing more), scanOpening,
          tagName?_extend_eq_none hname hrest]
        exact ⟨_, rfl⟩
    · rw [herror] at hlist
      have hnamed : named.rest ≠ [] := by
        intro hnil
        rw [attributeList_of_nil hnil] at hlist
        cases Except.error.inj hlist
      have hscan : ∀ more, scan (c.extend more) = scanOpening (after.extend more) := by
        intro more
        obtain ⟨hcomment, hclosing⟩ := eat?_of_tagName? hopen hname more
        exact scan_eq_opening (eat?_extend hopen more) hcomment hclosing
      have hname' : ∀ more, tagName? (after.extend more) = some (tag, named.extend more) :=
        fun more => tagName?_extend hname fun hnil => absurd hnil hnamed
      rcases attributeList_of_invalidTag hlist with ⟨attributes, last, hself⟩ | hstays
      · have hcompleted : scan (c.extend ['>']) = .token (.opening tag attributes true) ⟨last, []⟩ := by
          rw [hscan, scanOpening, hname']
          simp only [hself]
        exact Or.inl fun _ => .slash hcompleted
      · refine Or.inr fun more => ?_
        rw [hscan, scanOpening, hname']
        rcases hrest : attributeList (named.extend more) with ⟨attributes, result⟩
        have hresult := hstays more
        rw [hrest] at hresult
        obtain rfl : result = .error (.invalidTag offset) := hresult
        simp only [hrest]
        exact ⟨_, rfl⟩

/-! ## The brackets of longer markup -/

private theorem nest_error_append {word : List Bracket} {e : MarkupError}
    (h : nest [] word = .error e) (more : List Bracket) : nest [] (word ++ more) = .error e := by
  obtain ⟨before, tag, offset, rest, tags, rfl, hleaves, hhead, rfl⟩ := nest_eq_error_iff.mp h
  exact nest_eq_error_iff.mpr
    ⟨before, tag, offset, rest ++ more, tags, by simp, hleaves, hhead, rfl⟩

private theorem brackets_extend (c : Cursor) (more : List Char) :
    brackets (tokens c).1 <+: brackets (tokens (c.extend more)).1 := by
  fun_induction tokens c with
  | case1 => exact List.nil_prefix
  | case2 => exact List.nil_prefix
  | case3 c hne token next hscan rest fault hrec ih =>
    rw [hrec] at ih
    by_cases htext : token.isText = true ∧ next.rest = []
    · obtain ⟨htoken, hnil⟩ := htext
      obtain rfl : [] = rest := by
        rw [tokens, dif_pos hnil] at hrec
        exact (Prod.mk.inj hrec).1
      cases token with
      | text data => exact List.nil_prefix
      | comment | opening | closing => cases htoken
    · have hmore : (c.extend more).rest ≠ [] := by simp [hne]
      have hscan' : scan (c.extend more) = .token token (next.extend more) :=
        scan_extend hscan hne fun htoken hnil => absurd ⟨htoken, hnil⟩ htext
      rw [tokens_of_scan hscan' hmore]
      simp only [brackets, List.filterMap_cons] at ih ⊢
      split
      · exact ih
      · exact List.cons_prefix_cons.mpr ⟨rfl, ih⟩

private theorem nest_names {P : String → Prop} {tags left : List String} {word : List Bracket}
    (h : nest tags word = .ok left) (htags : ∀ tag ∈ tags, P tag)
    (hword : ∀ tag, .opens tag ∈ word → P tag) : ∀ tag ∈ left, P tag := by
  induction word generalizing tags with
  | nil =>
    obtain rfl := Except.ok.inj h
    exact htags
  | cons bracket word ih =>
    have hrest : ∀ tag, .opens tag ∈ word → P tag :=
      fun tag htag => hword tag (List.mem_cons_of_mem _ htag)
    cases bracket with
    | opens tag =>
      exact ih h (List.forall_mem_cons.mpr ⟨hword tag (List.mem_cons_self), htags⟩) hrest
    | closes tag offset =>
      cases tags with
      | nil => cases h
      | cons expected outer =>
        rw [nest] at h
        split at h
        · exact ih h (List.forall_mem_cons.mp htags).2 hrest
        · cases h

private theorem names_of_brackets {ts : List Token} (hts : ∀ t ∈ ts, t.Proper) (tag : String)
    (h : .opens tag ∈ brackets ts) : isName tag.toList = true ∧ lowercase tag = tag := by
  obtain ⟨t, ht, hbracket⟩ := List.mem_filterMap.mp h
  have hproper := hts t ht
  cases t with
  | comment | text => cases hbracket
  | closing => cases Option.some.inj hbracket
  | opening name attributes selfClosing =>
    rw [Token.bracket?] at hbracket
    split at hbracket
    · cases hbracket
    · obtain rfl := Bracket.opens.inj (Option.some.inj hbracket)
      exact hproper.1

private theorem exists_tokens_closers {tags : List String}
    (h : ∀ tag ∈ tags, isName tag.toList = true ∧ lowercase tag = tag) (offset : Nat) :
    ∃ ts, tokens ⟨offset, tags.flatMap closingMarkup⟩ = (ts, none) ∧
      nest tags (brackets ts) = .ok [] := by
  induction tags generalizing offset with
  | nil => exact ⟨[], by rw [tokens]; rfl, rfl⟩
  | cons tag outer ih =>
    obtain ⟨⟨htag, hlower⟩, houter⟩ := List.forall_mem_cons.mp h
    obtain ⟨name, next, hscan⟩ :=
      scan_closingMarkup htag hlower (outer.flatMap closingMarkup) offset
    obtain ⟨ts, htokens, hnest⟩ := ih houter next
    refine ⟨.closing tag name :: ts, ?_, ?_⟩
    · rw [List.flatMap_cons, tokens_of_scan hscan (by simp [closingMarkup]), htokens]
    · exact (if_pos rfl).trans hnest

private theorem stops_closers (tags : List String) :
    Stops (· != '<') (tags.flatMap closingMarkup) := by
  cases tags with
  | nil => exact fun _ h => by cases h
  | cons tag outer => exact stops_of_head rfl _

private theorem exists_parse_of_reads {markup : String} {more : List Char} {ts : List Token}
    {last : Cursor} {tags : List String} (h : Reads (.start (markup.toList ++ more)) ts last)
    (hlast : last.rest = []) (hnest : nest [] (brackets ts) = .ok tags) :
    ∃ more doc, Document.parse (markup ++ more) = .ok doc := by
  have hts : ∀ t ∈ ts, t.Proper := by
    intro t ht
    apply tokens_proper (.start (markup.toList ++ more))
    rw [h.tokens]
    exact List.mem_append_left _ ht
  have hnames : ∀ tag ∈ tags, isName tag.toList = true ∧ lowercase tag = tag :=
    nest_names hnest (by simp) (names_of_brackets hts)
  obtain ⟨us, hus, hclosed⟩ := exists_tokens_closers hnames last.offset
  have hread : tokens (.start (markup ++ String.ofList (more ++ tags.flatMap closingMarkup)).toList) =
      (ts ++ us, none) := by
    have hextended := (h.extend fun _ _ => stops_closers tags).tokens
    rw [show last.extend (tags.flatMap closingMarkup) = ⟨last.offset, tags.flatMap closingMarkup⟩ by
      rw [extend, hlast]; rfl, hus] at hextended
    rw [← hextended, String.toList_append, String.toList_ofList, ← List.append_assoc]
    rfl
  have hbrackets : nest [] (brackets (ts ++ us)) = .ok [] := by
    rw [brackets, List.filterMap_append, ← brackets, (nest_eq_ok_iff.mp hnest).nest]
    exact hclosed
  obtain ⟨forest, -, hparse⟩ := Document.exists_parse_of_nested hread hbrackets
  exact ⟨_, _, hparse⟩

private theorem exists_parse_of_scan {markup : String} {ts : List Token} {last : Cursor} {t : Token}
    {tags left : List String} {offset : Nat} (h : Reads (.start markup.toList) ts last)
    (hlast : last.rest ≠ []) (hnest : nest [] (brackets ts) = .ok tags)
    (hscan : scan (last.extend more) = .token t ⟨offset, []⟩)
    (ht : nest tags t.bracket?.toList = .ok left) :
    ∃ more doc, Document.parse (markup ++ more) = .ok doc := by
  have hextended : Reads ((Cursor.start markup.toList).extend more) ts (last.extend more) :=
    h.extend fun hnil => absurd hnil hlast
  have hread : Reads (.start (markup.toList ++ more)) (ts ++ [t]) ⟨offset, []⟩ :=
    hextended.trans (.step (by simp [hlast]) hscan (.refl _))
  have hbrackets : brackets (ts ++ [t]) = brackets ts ++ t.bracket?.toList := by
    rw [brackets, List.filterMap_append, ← brackets]
    cases hbracket : t.bracket? <;> simp [hbracket]
  have hclosed : nest [] (brackets (ts ++ [t])) = .ok left := by
    rw [hbrackets, (nest_eq_ok_iff.mp hnest).nest, ht]
  exact exists_parse_of_reads hread rfl hclosed

/-! ## Broken closing tags -/

private theorem ClosingBroken.scan_extend {name blanks : List Char} {t : Token}
    (hbroken : ClosingBroken c name blanks) (h : scan (c.extend more) = .token t next) :
    ∃ tag offset, t = .closing tag offset ∧ name.map Char.toLower <+: tag.toList ∧
      (blanks ≠ [] → name.map Char.toLower = tag.toList) := by
  obtain ⟨hrest, hname, hblanks, -⟩ := hbroken
  have hshape : c.extend more = ⟨c.offset, ['<', '/'] ++ (name ++ (blanks ++ more))⟩ := by
    simp [extend, hrest]
  rw [hshape, scan_eq_closing (eat?_append _ _), scanClosing] at h
  split at h
  · cases h
  rename_i tag named htag
  split at h
  · cases h
  obtain ⟨rfl, -⟩ := Scan.token.inj h
  obtain ⟨⟨word, after⟩, hword, heq⟩ := Option.map_eq_some_iff.mp htag
  obtain ⟨rfl, -⟩ := Prod.mk.inj heq
  obtain ⟨rfl, -, -⟩ := word?_eq_some_iff.mp hword
  refine ⟨_, _, rfl, ?_⟩
  simp only [lowercase, String.toList_ofList, List.takeWhile_append_of_pos hname, List.map_append]
  refine ⟨List.prefix_append _ _, fun hne => ?_⟩
  obtain ⟨b, rest, rfl⟩ := List.exists_cons_of_ne_nil hne
  have hb : ¬ isNameChar b = true := by
    rw [isNameChar_of_isBlank (hblanks b (by simp))]
    exact Bool.false_ne_true
  rw [List.cons_append, List.takeWhile_cons_of_neg hb, List.map_nil, List.append_nil]

private theorem exists_scan_of_closing {name blanks : List Char} {tag : String}
    (hrest : c.rest = '<' :: '/' :: (name ++ blanks)) (hname : ∀ d ∈ name, isNameChar d = true)
    (hblanks : ∀ d ∈ blanks, isBlank d = true)
    (htag : isName tag.toList = true ∧ lowercase tag = tag)
    (hbegins : name.map Char.toLower <+: tag.toList)
    (hwhole : blanks ≠ [] → name.map Char.toLower = tag.toList) :
    ∃ more after last, scan (c.extend more) = .token (.closing tag after) ⟨last, []⟩ := by
  obtain ⟨hne, hchars⟩ := (isName_iff _).mp htag.1
  obtain ⟨suffix, hsuffix⟩ := hbegins
  have hlower : (name ++ suffix).map Char.toLower = tag.toList := by
    have hall : tag.toList.map Char.toLower = tag.toList := by
      have := congrArg String.toList htag.2
      rwa [lowercase, String.toList_ofList] at this
    rw [← hsuffix, List.map_append, List.map_map] at hall
    have hlength : (name.map (Char.toLower ∘ Char.toLower)).length = (name.map Char.toLower).length := by
      simp
    rw [List.map_append, (List.append_inj hall hlength).2, hsuffix]
  have hword : ∀ d ∈ name ++ suffix, isNameChar d = true := by
    intro d hd
    rcases List.mem_append.mp hd with hd | hd
    · exact hname d hd
    · exact hchars d (by rw [← hsuffix]; exact List.mem_append_right _ hd)
  have hwordNe : name ++ suffix ≠ [] := by
    intro hnil
    rw [hnil] at hlower
    exact hne hlower.symm
  have hclosing : TokenText c.offset [] (['<', '/'] ++ (name ++ suffix ++ (blanks ++ ['>'])))
      (.closing (lowercase (String.ofList (name ++ suffix))) (c.offset + 2)) :=
    .closing hwordNe hword hblanks
  have hscan := hclosing.read
  rw [List.append_nil, show lowercase (String.ofList (name ++ suffix)) = tag by
    rw [lowercase, String.toList_ofList, hlower, String.ofList_toList]] at hscan
  -- Only a name without blanks behind it goes on.
  have hshape : name ++ (blanks ++ (suffix ++ ['>'])) = name ++ suffix ++ (blanks ++ ['>']) := by
    by_cases hnil : blanks = []
    · simp [hnil]
    · have hnone : suffix = [] := by
        rw [hwhole hnil] at hsuffix
        exact List.append_right_eq_self.mp hsuffix
      simp [hnone]
  have hextend : c.extend (suffix ++ ['>']) =
      ⟨c.offset, ['<', '/'] ++ (name ++ suffix ++ (blanks ++ ['>']))⟩ := by
    rw [← hshape, extend, hrest]
    simp
  exact ⟨suffix ++ ['>'], _, _, hextend ▸ hscan⟩

end Markup

namespace Document

open Markup

/-- Reading gets to a tag or a comment that the end of the markup cuts short, with some elements still
open. -/
def CutOff (markup : String) : Prop :=
  ∃ ts last tags, Reads (.start markup.toList) ts last ∧ Leaves (brackets ts) tags ∧
    CutShort tags.head? last

section Rejected

variable {markup : String} {e : MarkupError}

private theorem parse_error_cases (h : Document.parse markup = .error e) :
    ∃ ts last, Reads (.start markup.toList) ts last ∧
      ((nest [] (brackets (tokens (.start markup.toList)).1) = .error e) ∨
        (∃ tag tags, last.rest = [] ∧ nest [] (brackets ts) = .ok (tag :: tags) ∧
          e = .unclosed tag) ∨
        ∃ fault tags, last.rest ≠ [] ∧ nest [] (brackets ts) = .ok tags ∧
          scan last = .fault fault ∧ e = fault.error) := by
  obtain ⟨last, hreads, hlast⟩ := exists_reads (.start markup.toList)
  rcases hread : tokens (.start markup.toList) with ⟨ts, fault⟩
  rw [hread] at hreads hlast
  refine ⟨ts, last, hreads, ?_⟩
  cases hnest : nest [] (brackets ts) with
  | error e' =>
    obtain rfl := Except.error.inj ((parse_of_nest_error hread hnest).symm.trans h)
    exact Or.inl rfl
  | ok tags =>
    right
    rcases hlast with ⟨hnil, rfl⟩ | ⟨hne, fault', hscan, rfl⟩
    · cases tags with
      | nil =>
        obtain ⟨forest, -, hparse⟩ := exists_parse_of_nested hread hnest
        rw [h] at hparse
        cases hparse
      | cons tag tags =>
        exact Or.inl ⟨tag, tags, hnil, rfl,
          Except.error.inj (h.symm.trans (parse_of_unclosed hread hnest))⟩
    · exact Or.inr ⟨fault', tags, hne, rfl, hscan,
        Except.error.inj (h.symm.trans (parse_of_fault hread hnest))⟩

/-- Accepted markup is read to its end and closes all that it opens. -/
theorem read_of_parse {doc : Document} (h : Document.parse markup = .ok doc) :
    (tokens (.start markup.toList)).2 = none ∧
      nest [] (brackets (tokens (.start markup.toList)).1) = .ok [] := by
  rcases hread : tokens (.start markup.toList) with ⟨ts, fault⟩
  cases hnest : nest [] (brackets ts) with
  | error e =>
    rw [parse_of_nest_error hread hnest] at h
    cases h
  | ok tags =>
    cases fault with
    | some fault =>
      rw [parse_of_fault hread hnest] at h
      cases h
    | none =>
      cases tags with
      | nil => exact ⟨rfl, rfl⟩
      | cons tag tags =>
        rw [parse_of_unclosed hread hnest] at h
        cases h

/-- A fault that a continuation mends is about the end of the markup, or the markup is cut short
there. -/
theorem cutShort_of_continues {ts : List Token} {last : Cursor} {tags : List String} {fault : Fault}
    {offset : Nat} (hreads : Reads (.start markup.toList) ts last) (hlast : last.rest ≠ [])
    (hnest : nest [] (brackets ts) = .ok tags) (hscan : scan last = .fault fault)
    (hfault : fault.error = .invalidTag offset) {more : String} {doc : Document}
    (h : Document.parse (markup ++ more) = .ok doc) : CutShort tags.head? last := by
  obtain ⟨hread, hclosed⟩ := read_of_parse h
  have hextended : Reads ((Cursor.start markup.toList).extend more.toList) ts
      (last.extend more.toList) := hreads.extend fun hnil => absurd hnil hlast
  have htokens := hextended.tokens
  rw [show Cursor.start (markup ++ more).toList = (Cursor.start markup.toList).extend more.toList by
    rw [String.toList_append]; rfl, htokens] at hread hclosed
  have hne : (last.extend more.toList).rest ≠ [] := by simp [hlast]
  have hstays : ∀ fault', scan (last.extend more.toList) ≠ .fault fault' := by
    intro fault' hfault'
    rw [tokens, dif_neg hne] at hread
    split at hread
    · cases hread
    · rename_i htoken
      rw [hfault'] at htoken
      cases htoken
  rcases scan_of_invalidTag hscan hfault with ⟨name, blanks, hbroken⟩ | hcut | hfaults
  · cases htoken : scan (last.extend more.toList) with
    | fault fault' => exact absurd htoken (hstays fault')
    | token t next =>
      obtain ⟨tag, at', rfl, hbegins, hwhole⟩ := hbroken.scan_extend htoken
      rw [tokens_of_scan htoken hne, brackets, List.filterMap_append, ← brackets,
        (nest_eq_ok_iff.mp hnest).nest] at hclosed
      obtain ⟨hrest, hname, hblanks, -⟩ := hbroken
      cases tags with
      | nil => cases hclosed
      | cons expected outer =>
        have hexpected : expected = tag := by
          by_contra hne
          have hmismatch : nest (expected :: outer)
              (List.filterMap Token.bracket? (.closing tag at' :: (tokens next).1)) =
                .error (.mismatchedClose (some expected) tag at') := if_neg hne
          rw [hmismatch] at hclosed
          cases hclosed
        exact .closing hrest hname hblanks (congrArg some hexpected) hbegins hwhole
  · exact hcut tags.head?
  · obtain ⟨fault', hfault'⟩ := hfaults more.toList
    exact absurd hfault' (hstays fault')

/-- What is cut short can be completed, and then the markup. -/
theorem CutOff.continues (h : CutOff markup) :
    ∃ more doc, Document.parse (markup ++ more) = .ok doc := by
  obtain ⟨ts, last, tags, hreads, hleaves, hcut⟩ := h
  have hnest := nest_eq_ok_iff.mpr hleaves
  cases hcut with
  | @comment tail hrest htail =>
    obtain ⟨suffix, hsuffix⟩ := htail
    obtain ⟨after, hscan⟩ := @scan_commentMarkup "" (by simp) [] last.offset
    have hshape : last.extend (suffix ++ ['-', '-', '-', '>']) =
        ⟨last.offset, commentMarkup "" ++ []⟩ := by
      rw [Cursor.extend, hrest, List.cons_append, ← List.append_assoc, hsuffix]
      rfl
    rw [← hshape] at hscan
    exact exists_parse_of_scan hreads (by simp [hrest]) hnest hscan rfl
  | @closing name blanks tag hrest hname hblanks hinnermost hbegins hwhole =>
    obtain ⟨outer, rfl⟩ : ∃ outer, tags = tag :: outer := by
      cases tags with
      | nil => cases hinnermost
      | cons expected outer => exact ⟨outer, by rw [Option.some.inj hinnermost]⟩
    have hproper : ∀ t ∈ ts, t.Proper := by
      intro t ht
      apply tokens_proper (.start markup.toList)
      rw [hreads.tokens]
      exact List.mem_append_left _ ht
    have htag := nest_names hnest (by simp) (names_of_brackets hproper) tag (by simp)
    obtain ⟨more, after, end', hscan⟩ :=
      exists_scan_of_closing hrest hname hblanks htag hbegins hwhole
    have hclosed : nest (tag :: outer) [.closes tag after] = .ok outer := if_pos rfl
    exact exists_parse_of_scan hreads (by simp [hrest]) hnest hscan hclosed
  | @slash tag attributes offset hscan =>
    have hlast : last.rest ≠ [] := by
      intro hnil
      rw [Cursor.extend, hnil] at hscan
      cases hscan
    exact exists_parse_of_scan hreads hlast hnest hscan rfl

/-- Rejected markup can be continued to markup that is accepted just when the error is about its end,
or is about an invalid tag where the markup breaks off within one that could still be completed. -/
theorem parse_continues_iff (h : Document.parse markup = .error e) :
    (∃ more doc, Document.parse (markup ++ more) = .ok doc) ↔
      e.AtEnd ∨ (∃ offset, e = .invalidTag offset) ∧ CutOff markup := by
  obtain ⟨ts, last, hreads, hcases⟩ := parse_error_cases h
  constructor
  · rintro ⟨more, doc, hmore⟩
    rcases hcases with hnest | ⟨tag, tags, -, -, rfl⟩ | ⟨fault, tags, hlast, hnest, hscan, rfl⟩
    · obtain ⟨rest, hrest⟩ := brackets_extend (.start markup.toList) more.toList
      obtain ⟨-, hclosed⟩ := read_of_parse hmore
      rw [show Cursor.start (markup ++ more).toList =
        (Cursor.start markup.toList).extend more.toList by rw [String.toList_append]; rfl,
        ← hrest, nest_error_append hnest] at hclosed
      cases hclosed
    · exact Or.inl trivial
    · obtain ⟨offset, hfault | hfault⟩ := scan_error hscan
      · exact Or.inl (by rw [hfault]; trivial)
      · exact Or.inr ⟨⟨offset, hfault⟩, ts, last, tags, hreads, nest_eq_ok_iff.mp hnest,
          cutShort_of_continues hreads hlast hnest hscan hfault hmore⟩
  · rintro (hend | ⟨-, hcut⟩)
    · rcases hcases with hnest | ⟨tag, tags, hlast, hnest, rfl⟩ |
        ⟨fault, tags, hlast, hnest, hscan, rfl⟩
      · obtain ⟨_, _, _, _, _, -, -, -, rfl⟩ := nest_eq_error_iff.mp hnest
        cases hend
      · have hread : Reads (.start (markup.toList ++ [])) ts last := by rwa [List.append_nil]
        exact exists_parse_of_reads hread hlast hnest
      · obtain ⟨offset, hfault | hfault⟩ := scan_error hscan
        · obtain ⟨more, t, after, hcompleted, hbracket⟩ :=
            exists_scan_of_unexpectedEnd hscan hfault
          exact exists_parse_of_scan hreads hlast hnest hcompleted (by rw [hbracket]; rfl)
        · rw [hfault] at hend
          cases hend
    · exact hcut.continues

/-- A list that ends within its first item. -/
theorem cutList_continues :
    Document.parse "<ul><li" = .error (.unexpectedEnd 7) ∧
      ((∃ more doc, Document.parse ("<ul><li" ++ more) = .ok doc) ↔
        (MarkupError.unexpectedEnd 7).AtEnd ∨
          (∃ offset, MarkupError.unexpectedEnd 7 = .invalidTag offset) ∧ CutOff "<ul><li") :=
  have h : Document.parse "<ul><li" = .error (.unexpectedEnd 7) := by decide +kernel
  ⟨h, parse_continues_iff h⟩

/-- The tag of an element that was to be closed is called invalid, though only its last character is
missing. -/
theorem cutClosing_invalid :
    Document.parse "<p></p" = .error (.invalidTag 5) ∧
      ∃ doc, Document.parse ("<p></p" ++ ">") = .ok doc :=
  ⟨by decide +kernel, _, (by decide +kernel : Document.parse "<p></p>" =
    .ok ⟨#[{ content := .document, children := [1] },
      { content := .element "p" [] none, parent := some 0 }]⟩)⟩

end Rejected

end Document
end ViewBinding
