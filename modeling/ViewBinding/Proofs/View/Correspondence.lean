import Mathlib
import ViewBinding.Proofs.View.Moves

/-!
# View models that differ in the numbers of callbacks

Callbacks are numbered in the order in which they are registered, by all view models together. So
the same watcher may have one number here and another one there, and what it has in common is its
place among the callbacks of its view model (`Binding.Corresponds`). Whatever is done to two view
models that correspond leaves them corresponding (`View.Corresponds.notified`,
`View.Corresponds.change`).
-/

namespace ViewBinding

/-! ## Bindings -/

/-- Two bindings of a view model are the same, but the callbacks of watchers have their place in two
lists in common instead of their number. -/
inductive Binding.Corresponds (region : NodeId → Prop) (own own' : List Callback) :
    Binding → Binding → Prop
  | shows {b : Binding} : b.isWatch = false → (∀ node, b.target? = some node → region node) →
      Corresponds region own own' b b
  | watches {key : String} {c c' : Callback} {place : Nat} : own[place]? = some c →
      own'[place]? = some c' → c'.script = c.script →
        Corresponds region own own' (.watch key c) (.watch key c')

namespace Binding.Corresponds

variable {region : NodeId → Prop} {own own' more more' : List Callback} {b b' : Binding}

theorem mono (h : Corresponds region own own' b b') (hown : own <+: more) (hown' : own' <+: more') :
    Corresponds region more more' b b' := by
  have hkept : ∀ {few many : List Callback} {place : Nat} {c : Callback}, few <+: many →
      few[place]? = some c → many[place]? = some c := by
    rintro few _ place c ⟨rest, rfl⟩ hc
    rw [List.getElem?_append_left (List.getElem?_eq_some_iff.mp hc).1, hc]
  cases h with
  | shows hwatch htarget => exact .shows hwatch htarget
  | watches hc hc' hscript => exact .watches (hkept hown hc) (hkept hown' hc') hscript

theorem key_eq (h : Corresponds region own own' b b') : b'.key = b.key := by
  cases h <;> rfl

theorem isWatch_eq (h : Corresponds region own own' b b') : b'.isWatch = b.isWatch := by
  cases h <;> rfl

theorem isModelOf_eq (h : Corresponds region own own' b b') (node : NodeId) :
    b'.isModelOf node = b.isModelOf node := by
  cases h <;> rfl

end Binding.Corresponds

/-! ## Registries -/

/-- Two registries have the same keys, with corresponding bindings in the same order. -/
structure Registry.Corresponds (R : Binding → Binding → Prop) (r r' : Registry Binding) : Prop where
  keys : r'.keys = r.keys
  watchers : ∀ key, List.Forall₂ R (r.watchers key) (r'.watchers key)

theorem Dict.keys_insert_congr {α : Type} {d d' : Dict α} (h : d'.keys = d.keys) (key : String)
    (value value' : α) : (d'.insert key value').keys = (d.insert key value).keys := by
  induction d generalizing d' with
  | nil =>
    obtain rfl : d' = [] := by simpa [keys] using h
    rfl
  | cons entry rest ih =>
    obtain ⟨k, v⟩ := entry
    obtain ⟨⟨k', v'⟩, rest', rfl, hk, hrest⟩ := List.map_eq_cons_iff.mp h
    obtain rfl : k' = k := hk
    have htail := ih hrest
    simp only [keys] at hrest htail
    unfold insert
    split
    · simp [keys, hrest]
    · split <;> simp [keys, hrest, htail]

namespace Registry.Corresponds

variable {R S : Binding → Binding → Prop} {r r' : Registry Binding} {b b' : Binding}

private theorem empty : Corresponds R Registry.empty Registry.empty :=
  ⟨rfl, fun _ => .nil⟩

private theorem imp (h : r.Corresponds R r') (hRS : ∀ b b', R b b' → S b b') : r.Corresponds S r' :=
  ⟨h.keys, fun key => (h.watchers key).imp hRS⟩

private theorem add (h : r.Corresponds R r') (hb : R b b') (key : String) :
    (r.add key b).Corresponds R (r'.add key b') := by
  refine ⟨Dict.keys_insert_congr h.keys _ _ _, fun other => ?_⟩
  by_cases hother : other = key
  · subst hother
    rw [Registry.watchers_add_self, Registry.watchers_add_self]
    exact List.rel_append (h.watchers other) (.cons hb .nil)
  · rw [Registry.watchers_add_of_ne _ hother, Registry.watchers_add_of_ne _ hother]
    exact h.watchers other

private theorem addAll (h : r.Corresponds R r') (hkey : ∀ b b', R b b' → b'.key = b.key)
    {bindings bindings' : List Binding} (hbindings : List.Forall₂ R bindings bindings') :
    (r.addAll (bindings.map fun b => (b.key, b))).Corresponds R
      (r'.addAll (bindings'.map fun b => (b.key, b))) := by
  induction hbindings generalizing r r' with
  | nil => exact h
  | @cons b b' rest rest' hb _ ih =>
    have hadded := h.add hb b.key
    rw [List.map_cons, List.map_cons, hkey b b' hb]
    exact ih hadded

end Registry.Corresponds

/-! ## View models -/

/-- Two view models are in the same state, with corresponding bindings. -/
structure View.Corresponds (R : Binding → Binding → Prop) (v v' : View) : Prop where
  root : v'.root = v.root
  settings : v'.settings = v.settings
  store : v'.store = v.store
  inFlight : v'.inFlight = v.inFlight
  dirty : v'.dirty = v.dirty
  disposed : v'.disposed = v.disposed
  passes : v'.passes = v.passes
  pins : v'.pins = v.pins
  registry : v.registry.Corresponds R v'.registry
  deferred : List.Forall₂ R v.deferred v'.deferred

namespace View.Corresponds

variable {R S : Binding → Binding → Prop} {v v' : View} {f : View → View} {b b' : Binding}

theorem imp (h : v.Corresponds R v') (hRS : ∀ b b', R b b' → S b b') : v.Corresponds S v' :=
  { h with
    registry := h.registry.imp hRS
    deferred := h.deferred.imp hRS }

theorem register (h : v.Corresponds R v') (hb : R b b') (hkey : b'.key = b.key) :
    (v.register b).Corresponds R (v'.register b') := by
  unfold View.register
  by_cases hpasses : v.passes = 0
  · rw [if_pos hpasses, if_pos (h.passes.trans hpasses), hkey]
    exact { h with registry := h.registry.add hb b.key }
  · rw [if_neg hpasses, if_neg (h.passes ▸ hpasses)]
    exact { h with deferred := List.rel_append h.deferred (.cons hb .nil) }

private theorem settle (h : v.Corresponds R v') (hkey : ∀ b b', R b b' → b'.key = b.key) :
    v.settle.Corresponds R v'.settle := by
  have hpasses : v'.passes ≠ 0 ↔ v.passes ≠ 0 := by rw [h.passes]
  have hdisposed : v'.disposed = true ↔ v.disposed = true := by rw [h.disposed]
  unfold View.settle
  split
  · rename_i hpass
    rw [if_pos (hpasses.mpr hpass)]
    exact h
  rename_i hpass
  rw [if_neg (mt hpasses.mp hpass)]
  split
  · rename_i hdead
    rw [if_pos (hdisposed.mpr hdead)]
    exact { h with registry := .empty, deferred := .nil }
  · rename_i halive
    rw [if_neg (mt hdisposed.mp halive)]
    exact { h with registry := h.registry.addAll hkey h.deferred, deferred := .nil }

private theorem markDirty (h : v.Corresponds R v') (key : String) :
    (v.markDirty key).Corresponds R (v'.markDirty key) := by
  have hdirty : v'.dirty.contains key = true ↔ v.dirty.contains key = true := by rw [h.dirty]
  unfold View.markDirty
  split
  · rename_i hmarked
    rw [if_pos (hdirty.mpr hmarked)]
    exact h
  · rename_i hmarked
    rw [if_neg (mt hdirty.mp hmarked)]
    exact { h with dirty := congrArg (· ++ [key]) h.dirty }

theorem notified (h : v.Corresponds R v') (hkey : ∀ b b', R b b' → b'.key = b.key)
    (hf : View.Notified f) : (f v).Corresponds R (f v') := by
  cases hf with
  | beginFrame key => exact { h with inFlight := congrArg (key :: ·) h.inFlight }
  | fold key => exact h.markDirty key
  | beginPass => exact { h with passes := congrArg (· + 1) h.passes }
  | endPass => exact { h with passes := congrArg (· - 1) h.passes }
  | clear key => exact { h with dirty := congrArg (·.erase key) h.dirty }
  | endFrame =>
    have htail : Corresponds R { v with inFlight := v.inFlight.tail }
        { v' with inFlight := v'.inFlight.tail } :=
      { h with inFlight := congrArg List.tail h.inFlight }
    exact htail.settle hkey

theorem change (h : v.Corresponds R v') (hf : View.Change f) : (f v).Corresponds R (f v') := by
  cases hf with
  | pins f => exact { h with pins := congrArg f h.pins }
  | store f => exact { h with store := congrArg f h.store }
  | dispose =>
    refine { h with disposed := rfl, registry := ?_, deferred := .nil }
    unfold View.dispose
    dsimp only
    rw [h.passes]
    split
    · exact .empty
    · exact h.registry

end View.Corresponds

/-- A view model that was mounted corresponds to itself if its bindings do. -/
theorem View.corresponds_mounted {R : Binding → Binding → Prop} (root : NodeId)
    (settings : Settings) (store : Store) {bindings : List Binding} (h : ∀ b ∈ bindings, R b b) :
    (mounted root settings store bindings).Corresponds R
      (mounted root settings store bindings) := by
  refine ⟨rfl, rfl, rfl, rfl, rfl, rfl, rfl, rfl, ⟨rfl, fun key => ?_⟩, .nil⟩
  refine List.forall₂_same.mpr fun b hb => h b ?_
  have hmem : b ∈ bindings ∧ b.key = key := by
    simpa [mounted, Registry.watchers_addAll, List.filter_map, Function.comp_def] using hb
  exact hmem.1

end ViewBinding
