/-!
# Ordered dictionaries

Entries with string keys, kept in increasing order of the keys, so that equal contents are equal
lists. Strings are ordered by code point, which is also the order of their UTF-8 bytes.
-/

namespace ViewBinding

/-- Entries in increasing order of their keys, one for each key. -/
abbrev Dict (α : Type) := List (String × α)

namespace Dict

variable {α : Type}

def get? (key : String) : Dict α → Option α
  | [] => none
  | (k, v) :: rest => if k = key then some v else get? key rest

/-- Sets the value of a key; a new key goes to its place in the order. -/
def insert (key : String) (value : α) : Dict α → Dict α
  | [] => [(key, value)]
  | (k, v) :: rest =>
    if k = key then (key, value) :: rest
    else if key < k then (key, value) :: (k, v) :: rest
    else (k, v) :: insert key value rest

def erase (key : String) : Dict α → Dict α
  | [] => []
  | (k, v) :: rest => if k = key then rest else (k, v) :: erase key rest

/-- Adds entries one after another; of two entries with the same key the later one stays. -/
def insertAll (entries : List (String × α)) (dict : Dict α) : Dict α :=
  entries.foldl (fun acc (key, value) => acc.insert key value) dict

def ofList (entries : List (String × α)) : Dict α :=
  insertAll entries []

def keys (dict : Dict α) : List String :=
  dict.map Prod.fst

def Sorted (dict : Dict α) : Prop :=
  dict.keys.Pairwise (· < ·)

@[simp] theorem get?_nil (key : String) : get? key ([] : Dict α) = none := rfl

@[simp] theorem get?_insert_self (key : String) (value : α) (dict : Dict α) :
    get? key (insert key value dict) = some value := by
  induction dict with
  | nil => simp [insert, get?]
  | cons entry rest ih =>
    obtain ⟨k, v⟩ := entry
    unfold insert
    split
    · simp [get?]
    · split <;> simp_all [get?]

theorem get?_insert_of_ne {key other : String} (h : other ≠ key) (value : α) (dict : Dict α) :
    get? other (insert key value dict) = get? other dict := by
  induction dict with
  | nil => simp [insert, get?, h.symm]
  | cons entry rest ih =>
    obtain ⟨k, v⟩ := entry
    unfold insert
    split
    · subst k; simp [get?, h.symm]
    · split <;> simp [get?, h.symm, ih]

theorem sorted_nil : Sorted ([] : Dict α) := List.Pairwise.nil

theorem mem_keys_insert {key other : String} {value : α} {dict : Dict α} :
    other ∈ keys (insert key value dict) ↔ other = key ∨ other ∈ keys dict := by
  induction dict with
  | nil => simp [insert, keys]
  | cons entry rest ih =>
    obtain ⟨k, v⟩ := entry
    simp only [keys] at ih
    unfold insert
    split
    · subst k; simp [keys]
    · split
      · simp [keys]
      · simp only [keys, List.map_cons, List.mem_cons, ih]
        exact or_left_comm

theorem sorted_insert {dict : Dict α} (h : Sorted dict) (key : String) (value : α) :
    Sorted (insert key value dict) := by
  induction dict with
  | nil => simp [insert, Sorted, keys]
  | cons entry rest ih =>
    obtain ⟨k, v⟩ := entry
    obtain ⟨hfirst, hrest⟩ := List.pairwise_cons.1 h
    unfold insert
    split
    · rename_i heq
      exact List.pairwise_cons.2 ⟨heq ▸ hfirst, hrest⟩
    · rename_i hne
      split
      · rename_i hlt
        refine List.pairwise_cons.2 ⟨fun other hother => ?_, h⟩
        rcases List.mem_cons.1 hother with rfl | hlater
        · exact hlt
        · exact String.lt_trans hlt (hfirst other hlater)
      · rename_i hge
        refine List.pairwise_cons.2 ⟨fun other hother => ?_, ih hrest⟩
        rcases mem_keys_insert.1 hother with rfl | hlater
        · exact Std.lt_of_le_of_ne (String.not_lt.1 hge) hne
        · exact hfirst other hlater

theorem sorted_insertAll {dict : Dict α} (h : Sorted dict) (entries : List (String × α)) :
    Sorted (insertAll entries dict) := by
  induction entries generalizing dict with
  | nil => exact h
  | cons entry rest ih => exact ih (sorted_insert h entry.1 entry.2)

theorem sorted_ofList (entries : List (String × α)) : Sorted (ofList entries) :=
  sorted_insertAll sorted_nil entries

end Dict
end ViewBinding
