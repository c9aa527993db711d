import Mathlib
import ViewBinding.Markup.Entity
import ViewBinding.Proofs.Text.Searching

/-!
# Decoding in one pass

Entities are replaced one after the other in the whole text, and still the text is decoded as if it
were read once and what comes out never again (`decodeEntities_once`). This rests on the order of the
table: no entity yields a character that a later one is written with (`InOrder`), so a replacement
neither makes nor breaks what is replaced after it. Decoding undoes both ways of escaping.
-/

namespace ViewBinding

namespace Markup

open Text

/-! ## Reading a text once -/

/-- The character of the entity whose name a text begins with, and what follows the name. -/
def entityAt? (table : List Entity) (text : List Char) : Option (Char × List Char) :=
  table.findSome? fun entity => (dropStart? entity.name text).map (entity.char, ·)

private theorem entityAt?_eq_some {table : List Entity} {text rest : List Char} {c : Char}
    (h : entityAt? table text = some (c, rest)) :
    ∃ entity ∈ table, entity.char = c ∧ text = entity.name ++ rest := by
  obtain ⟨entity, hentity, hname⟩ := List.exists_of_findSome?_eq_some h
  obtain ⟨after, hafter, heq⟩ := Option.map_eq_some_iff.mp hname
  obtain ⟨rfl, rfl⟩ := Prod.mk.inj heq
  exact ⟨entity, hentity, rfl, dropStart?_eq_some.mp hafter⟩

/-- Decodes a text from left to right in one pass: behind each ampersand an entity gives its
character, and reading goes on behind it. -/
def decodeOnce (table : List Entity) : List Char → List Char
  | [] => []
  | c :: text =>
    if c = '&' then
      match _h : entityAt? table text with
      | some (d, rest) => d :: decodeOnce table rest
      | none => c :: decodeOnce table text
    else c :: decodeOnce table text
termination_by text => text.length
decreasing_by
  · obtain ⟨entity, -, -, rfl⟩ := entityAt?_eq_some _h
    simp only [List.length_cons, List.length_append]
    omega
  · exact Nat.lt_succ_self _
  · exact Nat.lt_succ_self _

variable {table : List Entity} {text rest : List Char}

private theorem decodeOnce_entity {c : Char} (h : entityAt? table text = some (c, rest)) :
    decodeOnce table ('&' :: text) = c :: decodeOnce table rest := by
  rw [decodeOnce, if_pos rfl]
  split
  · rename_i d after hafter
    obtain ⟨rfl, rfl⟩ := Prod.mk.inj (Option.some.inj (h.symm.trans hafter))
    rfl
  · rename_i hnone
    rw [h] at hnone
    cases hnone

private theorem decodeOnce_ampersand (h : entityAt? table text = none) :
    decodeOnce table ('&' :: text) = '&' :: decodeOnce table text := by
  rw [decodeOnce, if_pos rfl]
  split
  · rename_i d after hafter
    rw [h] at hafter
    cases hafter
  · rfl

theorem decodeOnce_cons {c : Char} (hc : c ≠ '&') (text : List Char) :
    decodeOnce table (c :: text) = c :: decodeOnce table text := by
  rw [decodeOnce, if_neg hc]

private theorem decodeOnce_of_not_mem (h : '&' ∉ text) : decodeOnce table text = text := by
  induction text with
  | nil => rw [decodeOnce]
  | cons c text ih =>
    rw [List.mem_cons, not_or] at h
    rw [decodeOnce_cons (Ne.symm h.1), ih h.2]

private theorem decodeOnce_nil_table (text : List Char) : decodeOnce [] text = text := by
  induction text with
  | nil => rw [decodeOnce]
  | cons c text ih =>
    by_cases hc : c = '&'
    · rw [hc, decodeOnce_ampersand rfl, ih]
    · rw [decodeOnce_cons hc, ih]

/-! ## Replacing one entity after the other -/

/-- No entity yields the ampersand or a character of the name of a later one. -/
def InOrder (table : List Entity) : Prop :=
  (∀ entity ∈ table, '&' ∉ entity.name) ∧
    table.Pairwise fun entity later => entity.char ≠ '&' ∧ entity.char ∉ later.name

private theorem dropStart?_decodeOnce {name : List Char} (hname : '&' ∉ name)
    (hchars : ∀ entity ∈ table, entity.char ∉ name) (text : List Char) :
    dropStart? name (decodeOnce table text) = (dropStart? name text).map (decodeOnce table) := by
  induction name generalizing text with
  | nil => rfl
  | cons n name ih =>
    rw [List.mem_cons, not_or] at hname
    cases text with
    | nil => rw [decodeOnce]; rfl
    | cons c text =>
      by_cases hc : c = '&'
      · -- An ampersand begins no name, and neither does what an entity yields.
        subst hc
        have hnone : dropStart? (n :: name) ('&' :: text) = none := if_neg (Ne.symm hname.1)
        rw [hnone]
        cases hentity : entityAt? table text with
        | none => rw [decodeOnce_ampersand hentity]; exact if_neg (Ne.symm hname.1)
        | some read =>
          obtain ⟨d, rest⟩ := read
          obtain ⟨entity, hmem, rfl, -⟩ := entityAt?_eq_some hentity
          rw [decodeOnce_entity hentity]
          exact if_neg fun heq => hchars entity hmem (by simp [heq])
      · rw [decodeOnce_cons hc, dropStart?, dropStart?]
        split
        · exact ih hname.2 (fun entity hmem => List.not_mem_of_not_mem_cons (hchars entity hmem)) text
        · rfl

private theorem Entity.replace_name (entity : Entity) (rest : List Char) :
    entity.replace ('&' :: (entity.name ++ rest)) = entity.char :: entity.replace rest :=
  replaceAll_append rest

theorem Entity.replace_cons (entity : Entity) {c : Char} {text : List Char}
    (h : ¬ '&' :: entity.name <+: c :: text) :
    entity.replace (c :: text) = c :: entity.replace text :=
  replaceAll_cons h

private theorem Entity.replace_plain (entity : Entity) {c : Char} (hc : c ≠ '&')
    (text : List Char) : entity.replace (c :: text) = c :: entity.replace text :=
  entity.replace_cons fun h => hc (List.cons_prefix_cons.mp h).1.symm

private theorem entityAt?_concat (table : List Entity) (entity : Entity) (text : List Char) :
    entityAt? (table ++ [entity]) text =
      (entityAt? table text).or ((dropStart? entity.name text).map (entity.char, ·)) := by
  simp [entityAt?, List.findSome?_append]

private theorem Entity.replace_decodeOnce {entity : Entity} (hname : '&' ∉ entity.name)
    (hearlier : ∀ earlier ∈ table, earlier.char ≠ '&' ∧ earlier.char ∉ entity.name)
    (text : List Char) :
    entity.replace (decodeOnce table text) = decodeOnce (table ++ [entity]) text := by
  have hdrop := dropStart?_decodeOnce hname fun earlier hmem => (hearlier earlier hmem).2
  -- The induction is on the length, since reading goes on behind a whole name.
  induction hlength : text.length using Nat.strong_induction_on generalizing text with
  | h length ih =>
    subst hlength
    cases text with
    | nil => rw [decodeOnce, decodeOnce, replace, replaceAll]
    | cons c text =>
      by_cases hc : c = '&'
      case neg => rw [decodeOnce_cons hc, entity.replace_plain hc, decodeOnce_cons hc,
        ih _ (by simp) text rfl]
      subst hc
      cases hread : entityAt? table text with
      | some read =>
        -- An earlier entity: what it yields is not the ampersand.
        obtain ⟨d, rest⟩ := read
        obtain ⟨earlier, hmem, rfl, rfl⟩ := entityAt?_eq_some hread
        rw [decodeOnce_entity hread, entity.replace_plain (hearlier earlier hmem).1,
          decodeOnce_entity (by rw [entityAt?_concat, hread]; rfl),
          ih _ (by simp only [List.length_cons, List.length_append]; omega) rest rfl]
      | none =>
        have hfound := hdrop text
        rw [decodeOnce_ampersand hread]
        cases hnamed : dropStart? entity.name text with
        | some rest =>
          rw [hnamed, Option.map_some, dropStart?_eq_some] at hfound
          have hshorter := dropStart?_length hnamed
          rw [hfound, entity.replace_name,
            decodeOnce_entity (by rw [entityAt?_concat, hread, hnamed]; rfl),
            ih _ (by simp only [List.length_cons]; omega) rest rfl]
        | none =>
          rw [hnamed, Option.map_none, dropStart?_eq_none_iff] at hfound
          rw [entity.replace_cons fun h => hfound (List.cons_prefix_cons.mp h).2,
            decodeOnce_ampersand (by rw [entityAt?_concat, hread, hnamed]; rfl),
            ih _ (by simp) text rfl]

/-- Replacements one after the other are one pass with all their entities. -/
theorem foldl_replace_decodeOnce (later : List Entity) (h : InOrder (table ++ later))
    (text : List Char) :
    later.foldl (fun text entity => entity.replace text) (decodeOnce table text) =
      decodeOnce (table ++ later) text := by
  induction later generalizing table with
  | nil => rw [List.append_nil]; rfl
  | cons entity later ih =>
    have hearlier := (List.pairwise_append.mp h.2).2.2
    rw [List.foldl_cons, Entity.replace_decodeOnce (h.1 entity (by simp))
      fun earlier hmem => hearlier earlier hmem entity (by simp)]
    rw [List.append_cons table entity later] at h ⊢
    exact ih h

private theorem entities_inOrder : InOrder entities := by
  unfold InOrder
  decide

private theorem decodeEntities_eq_decodeOnce (text : List Char) :
    decodeEntities text = decodeOnce entities text := by
  unfold decodeEntities
  split
  · have hfold := @foldl_replace_decodeOnce [] entities entities_inOrder text
    rwa [decodeOnce_nil_table] at hfold
  · rename_i hplain
    rw [decodeOnce_of_not_mem (by simpa using hplain)]

/-! ## What is decoded -/

private theorem decodeEntities_entity (entity : Entity) (h : entity ∈ entities) (rest : List Char) :
    decodeEntities ('&' :: (entity.name ++ rest)) = entity.char :: decodeEntities rest := by
  have hentity : entityAt? entities (entity.name ++ rest) = some (entity.char, rest) := by
    simp only [entities, List.mem_cons, List.not_mem_nil, or_false] at h
    rcases h with rfl | rfl | rfl | rfl | rfl <;> rfl
  rw [decodeEntities_eq_decodeOnce, decodeOnce_entity hentity, decodeEntities_eq_decodeOnce]

private theorem decodeEntities_plain {c : Char} {text : List Char}
    (h : ∀ entity ∈ entities, ¬ '&' :: entity.name <+: c :: text) :
    decodeEntities (c :: text) = c :: decodeEntities text := by
  rw [decodeEntities_eq_decodeOnce, decodeEntities_eq_decodeOnce]
  by_cases hc : c = '&'
  · subst hc
    have hnone : entityAt? entities text = none := by
      rw [entityAt?, List.findSome?_eq_none_iff]
      intro entity hentity
      rw [dropStart?_eq_none_iff.mpr fun hprefix =>
        h entity hentity (List.cons_prefix_cons.mpr ⟨rfl, hprefix⟩)]
      rfl
    exact decodeOnce_ampersand hnone
  · exact decodeOnce_cons hc text

theorem decodeEntities_cons {c : Char} (hc : c ≠ '&') (rest : List Char) :
    decodeEntities (c :: rest) = c :: decodeEntities rest :=
  decodeEntities_plain fun _ _ h => hc (List.cons_prefix_cons.mp h).1.symm

theorem decodeEntities_eq_nil {text : List Char} (h : decodeEntities text = []) : text = [] := by
  rw [decodeEntities_eq_decodeOnce] at h
  unfold decodeOnce at h
  split at h
  · rfl
  · split at h
    · split at h <;> cases h
    · cases h

/-! ## What is escaped -/

private theorem decodeEntities_escapeTextChar (c : Char) (rest : List Char) :
    decodeEntities (escapeTextChar c ++ rest) = c :: decodeEntities rest := by
  unfold escapeTextChar
  split
  · exact decodeEntities_entity ⟨"amp;".toList, '&'⟩ (by decide) rest
  · exact decodeEntities_entity ⟨"lt;".toList, '<'⟩ (by decide) rest
  · exact decodeEntities_entity ⟨"gt;".toList, '>'⟩ (by decide) rest
  · rename_i hamp _ _
    exact decodeEntities_cons (fun h => hamp h) rest

private theorem decodeEntities_escapeAttributeChar (c : Char) (rest : List Char) :
    decodeEntities (escapeAttributeChar c ++ rest) = c :: decodeEntities rest := by
  unfold escapeAttributeChar
  split
  · exact decodeEntities_entity ⟨"amp;".toList, '&'⟩ (by decide) rest
  · exact decodeEntities_entity ⟨"quot;".toList, '"'⟩ (by decide) rest
  · rename_i hamp _
    exact decodeEntities_cons (fun h => hamp h) rest

private theorem decodeEntities_flatMap {escape : Char → List Char}
    (h : ∀ c rest, decodeEntities (escape c ++ rest) = c :: decodeEntities rest)
    (text : List Char) : decodeEntities (text.flatMap escape) = text := by
  induction text with
  | nil => rfl
  | cons c rest ih => rw [List.flatMap_cons, h, ih]

theorem decodeEntities_escapeText (text : List Char) : decodeEntities (escapeText text) = text :=
  decodeEntities_flatMap decodeEntities_escapeTextChar text

theorem decodeEntities_escapeAttribute (text : List Char) :
    decodeEntities (escapeAttribute text) = text :=
  decodeEntities_flatMap decodeEntities_escapeAttributeChar text

theorem less_not_mem_escapeText (text : List Char) : '<' ∉ escapeText text := by
  intro h
  obtain ⟨c, -, hc⟩ := List.mem_flatMap.mp h
  unfold escapeTextChar at hc
  split at hc
  · simp at hc
  · simp at hc
  · simp at hc
  · rename_i hless _
    exact hless (List.mem_singleton.mp hc).symm

theorem quote_not_mem_escapeAttribute (text : List Char) : '"' ∉ escapeAttribute text := by
  intro h
  obtain ⟨c, -, hc⟩ := List.mem_flatMap.mp h
  unfold escapeAttributeChar at hc
  split at hc
  · simp at hc
  · simp at hc
  · rename_i hquote
    exact hquote (List.mem_singleton.mp hc).symm

theorem escapeText_eq_nil {text : List Char} (h : escapeText text = []) : text = [] := by
  rw [← decodeEntities_escapeText text, h]
  rfl

/-- The entities as they are written, and the characters that they stand for. -/
def spellings : List (String × Char) :=
  [("&lt;", '<'), ("&gt;", '>'), ("&quot;", '"'), ("&#39;", '\''), ("&amp;", '&')]

private theorem spellings_entities :
    (∀ spelling ∈ spellings,
      ∃ entity ∈ entities, spelling = (String.ofList ('&' :: entity.name), entity.char)) ∧
    ∀ entity ∈ entities, (String.ofList ('&' :: entity.name), entity.char) ∈ spellings := by
  decide

/-- Replacing the entities one after the other decodes a text in one pass: an entity gives its
character, every other character stays, and what comes out is not read again. What is escaped in
either way is decoded to what it was, and has no character that would end it. -/
theorem decodeEntities_once (text : List Char) :
    decodeEntities text = decodeOnce entities text ∧
      (∀ spelling ∈ spellings,
        decodeEntities (spelling.1.toList ++ text) = spelling.2 :: decodeEntities text) ∧
      (∀ c, (∀ spelling ∈ spellings, ¬ spelling.1.toList <+: c :: text) →
        decodeEntities (c :: text) = c :: decodeEntities text) ∧
      decodeEntities ("&amp;lt;".toList ++ text) = "&lt;".toList ++ decodeEntities text ∧
      (decodeEntities (escapeText text) = text ∧ '<' ∉ escapeText text) ∧
      decodeEntities (escapeAttribute text) = text ∧ '"' ∉ escapeAttribute text := by
  refine ⟨decodeEntities_eq_decodeOnce text, fun spelling hspelling => ?_, fun c hc => ?_, ?_,
    ⟨decodeEntities_escapeText text, less_not_mem_escapeText text⟩,
    decodeEntities_escapeAttribute text, quote_not_mem_escapeAttribute text⟩
  · obtain ⟨entity, hentity, rfl⟩ := spellings_entities.1 spelling hspelling
    rw [String.toList_ofList]
    exact decodeEntities_entity entity hentity text
  · refine decodeEntities_plain fun entity hentity hbegins => ?_
    exact hc _ (spellings_entities.2 entity hentity) (by rwa [String.toList_ofList])
  · have hampersand := decodeEntities_entity ⟨"amp;".toList, '&'⟩ (by decide)
      ("lt;".toList ++ text)
    refine hampersand.trans (congrArg (List.cons '&') ?_)
    -- The name that is left over begins no entity.
    have hplain (c : Char) (hc : c ≠ '&') (rest : List Char) := decodeEntities_cons hc rest
    change decodeEntities ('l' :: 't' :: ';' :: text) = 'l' :: 't' :: ';' :: decodeEntities text
    rw [hplain 'l' (by decide), hplain 't' (by decide), hplain ';' (by decide)]

end Markup
end ViewBinding
