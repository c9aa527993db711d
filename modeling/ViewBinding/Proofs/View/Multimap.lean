import Mathlib
import ViewBinding.Registry

/-!
# The registry as a multimap

Whatever is done to a registry, it holds what was added since it was last cleared (`Registry.Holds`):
under each key the watchers that were added under this key, in order, and no key without a watcher.
All that it counts follows from this (`Registry.performAll_multimap`).
-/

namespace ViewBinding

namespace Dict

variable {α : Type}

theorem mem_keys_iff {key : String} {dict : Dict α} :
    key ∈ dict.keys ↔ ∃ value, dict.get? key = some value := by
  induction dict with
  | nil => simp [keys]
  | cons entry rest ih =>
    obtain ⟨k, v⟩ := entry
    simp only [keys] at ih
    by_cases h : k = key
    · simp [keys, get?, h]
    · simp [keys, get?, h, Ne.symm h, ih]

theorem get?_eq_none_iff {key : String} {dict : Dict α} :
    dict.get? key = none ↔ key ∉ dict.keys := by
  rw [mem_keys_iff, Option.eq_none_iff_forall_ne_some, not_exists]

private theorem Sorted.nodup {dict : Dict α} (h : Sorted dict) : dict.keys.Nodup := by
  apply List.Pairwise.imp _ h
  intro a b hlt heq
  subst heq
  exact String.lt_irrefl a hlt

private theorem Sorted.get?_of_mem {dict : Dict α} (h : Sorted dict) {key : String} {value : α}
    (hmem : (key, value) ∈ dict) : dict.get? key = some value := by
  induction dict with
  | nil => cases hmem
  | cons entry rest ih =>
    obtain ⟨k, v⟩ := entry
    obtain ⟨hfirst, hrest⟩ := List.pairwise_cons.1 h
    rcases List.mem_cons.1 hmem with heq | hlater
    · cases heq
      simp [get?]
    · have hlt : k < key := hfirst key (List.mem_map_of_mem hlater)
      have hne : k ≠ key := fun heq => String.lt_irrefl key (heq ▸ hlt)
      rw [get?, if_neg hne, ih hrest hlater]

private theorem Sorted.sum_insert {dict : Dict α} (h : Sorted dict) (f : α → Nat) (key : String)
    (value : α) :
    ((dict.insert key value).map fun entry => f entry.2).sum + ((dict.get? key).map f).getD 0 =
      (dict.map fun entry => f entry.2).sum + f value := by
  induction dict with
  | nil => simp [insert]
  | cons entry rest ih =>
    obtain ⟨k, v⟩ := entry
    obtain ⟨hfirst, hrest⟩ := List.pairwise_cons.1 h
    unfold insert
    split
    · rename_i heq
      simp only [List.map_cons, List.sum_cons, get?, if_pos heq, Option.map_some, Option.getD_some]
      omega
    rename_i hne
    split
    · rename_i hlt
      have habsent : get? key ((k, v) :: rest) = none := by
        rw [get?_eq_none_iff]
        intro hmem
        rcases List.mem_cons.1 hmem with heq | hlater
        · exact hne heq.symm
        · exact String.lt_irrefl key (String.lt_trans hlt (hfirst key hlater))
      simp only [habsent, List.map_cons, List.sum_cons, Option.map_none, Option.getD_none]
      omega
    · have hlater := ih hrest
      simp only [List.map_cons, List.sum_cons, get?, if_neg hne]
      omega

end Dict

namespace Registry

/-- What can be done to a registry. -/
inductive Op (α : Type) where
  | add (key : String) (watcher : α)
  | notify (key : String)
  | clear

variable {α σ : Type}

def Op.isClear : Op α → Bool
  | clear => true
  | add .. | notify _ => false

/-- What an operation adds. -/
def Op.entry? : Op α → Option (String × α)
  | add key watcher => some (key, watcher)
  | notify _ | clear => none

/-- Does an operation. A notification runs an action on watchers, which may change a state. -/
def perform (run : σ → α → σ) (before : Registry α × σ) : Op α → Registry α × σ
  | .add key watcher => (before.1.add key watcher, before.2)
  | .notify key => (before.1, (before.1.notify key run before.2).1)
  | .clear => (empty, before.2)

/-- Does operations one after another on a new registry. -/
def performAll (run : σ → α → σ) (ops : List (Op α)) (state : σ) : Registry α × σ :=
  ops.foldl (perform run) (empty, state)

/-- What operations have added since the last of them that clears. -/
def added (ops : List (Op α)) : List (String × α) :=
  ((ops.reverse.takeWhile fun op => !op.isClear).filterMap Op.entry?).reverse

/-- The watchers that were added under a key. -/
def under (key : String) (entries : List (String × α)) : List α :=
  (entries.filter fun entry => entry.1 == key).map Prod.snd

/-- A registry holds entries that were added one after another, and nothing else. -/
structure Holds (registry : Registry α) (entries : List (String × α)) : Prop where
  sorted : registry.entries.Sorted
  watchers : ∀ key, registry.watchers key = under key entries
  /-- No key is kept without a watcher. -/
  inhabited : ∀ key, registry.entries.get? key ≠ some []
  total : registry.total = entries.length

private theorem total_eq_sum (registry : Registry α) :
    registry.total = (registry.entries.map fun entry => entry.2.length).sum := by
  rw [total, List.sum_eq_foldl, List.foldl_map]

private theorem total_add {registry : Registry α} (h : registry.entries.Sorted) (key : String)
    (watcher : α) : (registry.add key watcher).total = registry.total + 1 := by
  have hsum := h.sum_insert List.length key (registry.watchers key ++ [watcher])
  have hold : ((registry.entries.get? key).map List.length).getD 0 =
      (registry.watchers key).length := by
    unfold watchers
    cases registry.entries.get? key <;> rfl
  rw [hold, List.length_append, List.length_singleton] at hsum
  rw [total_eq_sum, total_eq_sum]
  simp only [add]
  omega

private theorem holds_empty : (empty : Registry α).Holds [] where
  sorted := Dict.sorted_nil
  watchers := fun _ => rfl
  inhabited := fun _ h => nomatch h
  total := rfl

private theorem under_append (key : String) (entries more : List (String × α)) :
    under key (entries ++ more) = under key entries ++ under key more := by
  simp [under]

private theorem Holds.add {registry : Registry α} {entries : List (String × α)}
    (h : registry.Holds entries) (key : String) (watcher : α) :
    (registry.add key watcher).Holds (entries ++ [(key, watcher)]) where
  sorted := Dict.sorted_insert h.sorted key _
  watchers := by
    intro other
    rw [under_append]
    by_cases hother : other = key
    · subst hother
      rw [watchers_add_self, h.watchers]
      simp [under]
    · rw [watchers_add_of_ne _ hother, h.watchers]
      simp [under, Ne.symm hother]
  inhabited := by
    intro other
    by_cases hother : other = key
    · simp [hother, Registry.add]
    · rw [Registry.add, Dict.get?_insert_of_ne hother]
      exact h.inhabited other
  total := by rw [total_add h.sorted, h.total, List.length_append, List.length_singleton]

private theorem added_concat (ops : List (Op α)) (op : Op α) :
    added (ops ++ [op]) = if op.isClear then [] else added ops ++ op.entry?.toList := by
  rw [added, List.reverse_append, List.reverse_singleton, List.singleton_append]
  cases op with
  | add key watcher =>
    rw [List.takeWhile_cons_of_pos rfl, List.filterMap_cons_some (f := Op.entry?) rfl, List.reverse_cons]
    rfl
  | notify key =>
    rw [List.takeWhile_cons_of_pos rfl, List.filterMap_cons_none (f := Op.entry?) rfl]
    exact (List.append_nil _).symm
  | clear => rfl

/-- What a registry holds after an operation, from what it held before. -/
theorem Holds.perform {before : Registry α × σ} {ops : List (Op α)} (h : before.1.Holds (added ops))
    (run : σ → α → σ) (op : Op α) : (perform run before op).1.Holds (added (ops ++ [op])) := by
  rw [added_concat]
  cases op with
  | add key watcher => exact h.add key watcher
  | notify key => exact (List.append_nil (added ops)).symm ▸ h
  | clear => exact holds_empty

private theorem holds_performAll (run : σ → α → σ) (ops : List (Op α)) (state : σ) :
    (performAll run ops state).1.Holds (added ops) := by
  induction ops using List.reverseRecOn with
  | nil => exact holds_empty
  | append_singleton ops op ih =>
    rw [performAll, List.foldl_append]
    exact ih.perform run op

namespace Holds

variable {registry : Registry α} {entries : List (String × α)}

theorem count_pos_iff (h : registry.Holds entries) (key : String) :
    0 < registry.count key ↔ ∃ watcher, (key, watcher) ∈ entries := by
  rw [count, h.watchers, List.length_pos_iff_exists_mem]
  simp [under]

theorem contains_iff (h : registry.Holds entries) (key : String) :
    registry.contains key = true ↔ 0 < registry.count key := by
  have hinhabited := h.inhabited key
  unfold contains count Registry.watchers
  cases hkey : registry.entries.get? key with
  | none => simp
  | some list =>
    have hne : list ≠ [] := fun heq => hinhabited (heq ▸ hkey)
    simpa using List.length_pos_iff.mpr hne

theorem mem_keys_iff (h : registry.Holds entries) (key : String) :
    key ∈ registry.keys ↔ 0 < registry.count key := by
  rw [← h.contains_iff, contains, keys, Dict.mem_keys_iff, Option.isSome_iff_exists]

private theorem keys_perm (h : registry.Holds entries) :
    registry.keys.Perm (entries.map Prod.fst).dedup := by
  apply (List.perm_ext_iff_of_nodup h.sorted.nodup (List.nodup_dedup _)).mpr
  intro key
  change key ∈ registry.keys ↔ _
  rw [h.mem_keys_iff, h.count_pos_iff]
  simp

private theorem size_eq (h : registry.Holds entries) :
    registry.size = (entries.map Prod.fst).dedup.length := by
  rw [← h.keys_perm.length_eq, keys, Dict.keys, List.length_map, size]

private theorem total_eq_sum_count (h : registry.Holds entries) :
    registry.total = (registry.keys.map registry.count).sum := by
  rw [total_eq_sum, keys, Dict.keys, List.map_map]
  congr 1
  apply List.map_congr_left
  intro entry hentry
  have hget := h.sorted.get?_of_mem hentry
  simp [count, Registry.watchers, hget]

end Holds

/-- After any operations a registry has under each key the watchers that were added under exactly
this key since it was last cleared, in order. A notification runs these, tells how many there are,
and changes nothing. No key is kept without a watcher, so a key is contained, counted and listed
together; there are as many keys as different ones were added, and as many watchers as were added. -/
theorem performAll_multimap (run : σ → α → σ) (ops : List (Op α)) (state : σ) :
    let r := (performAll run ops state).1
    (∀ key, r.watchers key = under key (added ops)) ∧
    (∀ key seen, r.notify key run seen =
        ((under key (added ops)).foldl run seen, (under key (added ops)).length) ∧
      perform run (r, seen) (.notify key) = (r, (r.notify key run seen).1)) ∧
    (∀ key, r.entries.get? key ≠ some []) ∧
    (∀ key, (r.contains key = true ↔ 0 < r.count key) ∧ (key ∈ r.keys ↔ 0 < r.count key)) ∧
    (r.keys.Nodup ∧ r.size = ((added ops).map Prod.fst).dedup.length) ∧
    (r.isEmpty = true ↔ r.size = 0) ∧
    r.total = (added ops).length ∧ r.total = (r.keys.map r.count).sum := by
  intro r
  have h : r.Holds (added ops) := holds_performAll run ops state
  have hnotify : ∀ key seen, r.notify key run seen =
      ((under key (added ops)).foldl run seen, (under key (added ops)).length) := by
    intro key seen
    rw [notify, h.watchers]
  have hempty : r.isEmpty = true ↔ r.size = 0 := by
    rw [isEmpty, size, List.isEmpty_iff, List.length_eq_zero_iff]
  exact ⟨h.watchers, fun key seen => ⟨hnotify key seen, rfl⟩, h.inhabited,
    fun key => ⟨h.contains_iff key, h.mem_keys_iff key⟩, ⟨h.sorted.nodup, h.size_eq⟩, hempty,
    h.total, h.total_eq_sum_count⟩

end Registry
end ViewBinding
