import Mathlib
import ViewBinding.Proofs.Document.Regions
import ViewBinding.Proofs.View.Bookkeeping
import ViewBinding.Proofs.View.Correspondence
import ViewBinding.Proofs.View.Registrations

/-!
# What belongs to a view model

A document is divided among view models (`Division`): each has a part of the nodes, to which its
bindings write, the callbacks that were registered with it, and what these were told. What it does
itself leaves what belongs to the others (`Parted.unmoved`). Two worlds are alike for a view model
if what belongs to it is (`Alongside`), whatever numbers its callbacks and the new texts in its part
of the document have; and it does the same in both.
-/

namespace ViewBinding

def Binding.callback? : Binding → Option Callback
  | watch _ callback => some callback
  | _ => none

/-- Events that neither register a callback nor call one. -/
def Event.Mute : Event → Prop
  | .called .. | .mounted .. | .registered .. => False
  | _ => True

namespace Trace

/-- The callbacks that were ever registered with a view model, in order. -/
def callbacks (id : ViewId) (trace : List Moment) : List Callback :=
  (registrations id trace).filterMap Binding.callback?

/-- What the callbacks of a view model were told, the latest first, each with its place in the order
of registration with this view model. -/
def toldTo (id : ViewId) : List Moment → List (Nat × Option Value)
  | [] => []
  | m :: past =>
    match m.event with
    | .called callback notice =>
      match (callbacks id past).idxOf? callback with
      | some place => (place, notice.told) :: toldTo id past
      | none => toldTo id past
    | _ => toldTo id past

variable {id : ViewId} {e : Event}

theorem callbacks_cons (m : Moment) (past : List Moment) : callbacks id (m :: past) =
    callbacks id past ++ (m.event.added id).filterMap Binding.callback? := by
  rw [callbacks, registrations, List.filterMap_append]
  rfl

private theorem callbacks_cons_of_added {m : Moment} (past : List Moment)
    (h : m.event.added id = []) : callbacks id (m :: past) = callbacks id past := by
  rw [callbacks, registrations_cons past h, callbacks]

private theorem callbacks_cons_of_mute (he : e.Mute) (views : Array View) (past : List Moment) :
    callbacks id (⟨e, views⟩ :: past) = callbacks id past := by
  cases e <;> first | exact callbacks_cons_of_added past rfl | exact he.elim

private theorem toldTo_cons_of_mute (he : e.Mute) (views : Array View) (past : List Moment) :
    toldTo id (⟨e, views⟩ :: past) = toldTo id past := by
  cases e <;> first | rfl | exact he.elim

end Trace

/-! ## Worlds that are divided -/

/-- A document divided among view models, and the scripts that the callbacks of each may run. -/
structure Division where
  doc : Document
  region : ViewId → NodeId → Prop
  scripts : ViewId → ScriptId → Prop
  lt_size : ∀ {id node}, region id node → node < doc.size
  apart : ∀ {id other node}, region id node → region other node → id = other
  below : ∀ {id node child}, region id node → child ∈ doc.children node → region id child

/-- The parts of a document under two nodes that are not under each other, for the view models that
are mounted on the first and on the second. -/
def Division.under {doc : Document} (hwf : doc.WellFormed) {root₁ root₂ : NodeId}
    (hroot₁ : root₁ < doc.size) (hroot₂ : root₂ < doc.size) (h₁₂ : ¬doc.Under root₁ root₂)
    (h₂₁ : ¬doc.Under root₂ root₁) (scripts : ViewId → ScriptId → Prop) : Division where
  doc
  region := fun id node => (id = 0 ∧ doc.Under node root₁) ∨ (id = 1 ∧ doc.Under node root₂)
  scripts
  lt_size := by
    have hlt : ∀ {node root}, root < doc.size → doc.Under node root → node < doc.size := by
      intro node root hroot hunder
      rcases Relation.ReflTransGen.cases_head hunder with rfl | ⟨parent, hparent, -⟩
      · exact hroot
      · exact Document.lt_size_of_parent? hparent
    rintro id node (⟨-, hunder⟩ | ⟨-, hunder⟩)
    · exact hlt hroot₁ hunder
    · exact hlt hroot₂ hunder
  apart := by
    rintro id other node (⟨rfl, h⟩ | ⟨rfl, h⟩) (⟨rfl, h'⟩ | ⟨rfl, h'⟩)
    · rfl
    · exact ((h.total h').elim h₁₂ h₂₁).elim
    · exact ((h.total h').elim h₂₁ h₁₂).elim
    · rfl
  below := by
    intro id node child hin hchild
    have hparent := (hwf.linked node child).mp hchild
    exact hin.imp (And.imp_right (.head hparent)) (And.imp_right (.head hparent))

namespace World

open Trace

/-- A world in which nothing that belongs to one view model belongs to another. -/
structure Parted (D : Division) (w : World) : Prop where
  doc : D.doc.Renews w.doc
  listeners : ∀ entry ∈ w.listeners, ∃ id key, entry.2 = .model id key ∧ D.region id entry.1
  handles : ∀ (handle : Nat) (h : Handle), w.handles[handle]? = some h → h.view = handle
  known : ∀ id, ∀ c ∈ callbacks id w.trace, D.scripts id c.script ∧ c.registration < w.calls.size
  /-- A callback is found by its number. -/
  numbers : ∀ {id other : ViewId} {i j : Nat} {c d : Callback},
    (callbacks id w.trace)[i]? = some c → (callbacks other w.trace)[j]? = some d →
      c.registration = d.registration → id = other ∧ i = j

/-- A world in which a new watcher is registered with a view model. -/
def watching (w : World) (id : ViewId) (key : String) (script : ScriptId) : World :=
  ((w.newCallback script).1.modifyView id
    (·.register (.watch key (w.newCallback script).2))).emit
      (.registered id (.watch key (w.newCallback script).2))

/-- What a view model does to a world within what belongs to it. -/
inductive Stir (D : Division) (id : ViewId) : World → World → Prop
  | emit (w : World) {e : Event} : e.Mute → Stir D id w (w.emit e)
  | write (w : World) {change : HostChange} : D.region id change.node →
      Stir D id w (w.withDoc (w.doc.perform change))
  | modify (w : World) (f : View → View) : Stir D id w (w.modifyView id f)
  | called (w : World) {callback : Callback} (notice : Notice) :
      callback ∈ callbacks id w.trace →
        Stir D id w ((w.emit (.called callback notice)).countCall callback)
  | watching (w : World) (key : String) {script : ScriptId} : D.scripts id script →
      Stir D id w (w.watching id key script)

/-- What belongs to a view model is the same in two worlds. -/
structure Unmoved (D : Division) (id : ViewId) (w after : World) : Prop where
  handles : after.handles = w.handles
  listeners : after.listeners = w.listeners
  view : after.views[id]? = w.views[id]?
  own : callbacks id after.trace = callbacks id w.trace
  counts : ∀ c ∈ callbacks id w.trace, after.callCount c = w.callCount c
  told : toldTo id after.trace = toldTo id w.trace
  sight : ∀ node, D.region id node →
    after.doc.sight D.doc.size node = w.doc.sight D.doc.size node

/-- What belongs to a view model is alike in two worlds. -/
structure Alongside (D : Division) (id : ViewId) (x y : World) : Prop where
  handles : y.handles = x.handles
  listeners : y.listeners = x.listeners
  view : Option.Rel (View.Corresponds (Binding.Corresponds (D.region id) (callbacks id x.trace)
    (callbacks id y.trace))) x.views[id]? y.views[id]?
  length : (callbacks id y.trace).length = (callbacks id x.trace).length
  counts : ∀ {place : Nat} {c c' : Callback}, (callbacks id x.trace)[place]? = some c →
    (callbacks id y.trace)[place]? = some c' → y.callCount c' = x.callCount c
  told : toldTo id y.trace = toldTo id x.trace
  sight : ∀ node, D.region id node → y.doc.sight D.doc.size node = x.doc.sight D.doc.size node

variable {D : Division} {id other : ViewId} {w after x y : World}

/-! ## What view models do by themselves -/

private theorem callbacks_watching (w : World) (id other : ViewId) (key : String)
    (script : ScriptId) : callbacks other (w.watching id key script).trace =
      callbacks other w.trace ++ if id = other then [(w.newCallback script).2] else [] := by
  change callbacks other (⟨.registered id (.watch key (w.newCallback script).2), _⟩ :: w.trace) = _
  rw [callbacks_cons, Event.added]
  split <;> rfl

private theorem getElem?_callbacks_watching {key : String} {script : ScriptId} {place : Nat}
    {c : Callback} (h : (callbacks other (w.watching id key script).trace)[place]? = some c) :
    (callbacks other w.trace)[place]? = some c ∨
      (other = id ∧ place = (callbacks id w.trace).length ∧ c = (w.newCallback script).2) := by
  rw [callbacks_watching] at h
  split at h
  · rename_i hid
    subst hid
    by_cases hlt : place < (callbacks id w.trace).length
    · exact Or.inl (by rwa [List.getElem?_append_left hlt] at h)
    · rw [List.getElem?_append_right (Nat.not_lt.mp hlt), List.getElem?_singleton] at h
      split at h
      · rename_i hplace
        exact Or.inr ⟨rfl, by omega, (Option.some.inj h).symm⟩
      · cases h
  · rw [List.append_nil] at h
    exact Or.inl h

/-- Callbacks of a view model stay callbacks of it. -/
theorem Stir.callbacks_le (hstir : Stir D id w after) (other : ViewId) :
    callbacks other w.trace <+: callbacks other after.trace := by
  cases hstir with
  | emit he =>
    rw [World.emit, callbacks_cons_of_mute he]
  | write | modify => exact List.prefix_rfl
  | called notice =>
    change _ <+: callbacks other (⟨.called _ notice, w.views⟩ :: w.trace)
    rw [callbacks_cons_of_added _ rfl]
  | watching key =>
    rw [callbacks_watching]
    exact List.prefix_append _ _

namespace Parted

private theorem congr (h : w.Parted D) (hdoc : D.doc.Renews after.doc)
    (hlisteners : after.listeners = w.listeners) (hhandles : after.handles = w.handles)
    (hcalls : after.calls.size = w.calls.size)
    (hown : ∀ id, callbacks id after.trace = callbacks id w.trace) : after.Parted D := by
  refine ⟨hdoc, hlisteners ▸ h.listeners, hhandles ▸ h.handles, fun id c hc => ?_, ?_⟩
  · rw [hcalls]
    exact h.known id c (hown id ▸ hc)
  · intro id other i j c d hc hd
    rw [hown] at hc hd
    exact h.numbers hc hd

private theorem registration_ne (h : w.Parted D) (hne : id ≠ other) {c d : Callback}
    (hc : c ∈ callbacks id w.trace) (hd : d ∈ callbacks other w.trace) :
    c.registration ≠ d.registration := by
  intro hsame
  obtain ⟨i, hi⟩ := List.mem_iff_getElem?.mp hc
  obtain ⟨j, hj⟩ := List.mem_iff_getElem?.mp hd
  exact hne (h.numbers hi hj hsame).1

private theorem idxOf?_callbacks (h : w.Parted D) {place : Nat} {c : Callback}
    (hc : (callbacks id w.trace)[place]? = some c) :
    (callbacks id w.trace).idxOf? c = some place := by
  obtain ⟨hlt, hplace⟩ := List.getElem?_eq_some_iff.mp hc
  refine List.idxOf?_eq_some_iff.mpr ⟨hlt, hplace, fun earlier hearlier hsame => ?_⟩
  have hother := List.getElem?_eq_some_iff.mpr ⟨hearlier.trans hlt, hsame⟩
  exact Nat.ne_of_lt hearlier (h.numbers hother hc rfl).2

/-- A view model stays within what belongs to it. -/
theorem stir (h : w.Parted D) (hstir : Stir D id w after) : after.Parted D := by
  cases hstir with
  | emit he => exact h.congr h.doc rfl rfl rfl fun other => callbacks_cons_of_mute he _ _
  | write hnode => exact h.congr (h.doc.perform (D.lt_size hnode)) rfl rfl rfl fun _ => rfl
  | modify f => exact h.congr h.doc rfl rfl rfl fun _ => rfl
  | called notice _ =>
    exact h.congr h.doc rfl rfl Array.size_modify fun other => callbacks_cons_of_added _ rfl
  | @watching key script hscript =>
    have hsize : (w.watching id key script).calls.size = w.calls.size + 1 := Array.size_push _
    -- The new callback has a number that no other one has.
    have hfresh : ∀ {other : ViewId} {place : Nat} {c : Callback},
        (callbacks other w.trace)[place]? = some c → c.registration ≠ w.calls.size :=
      fun hc => Nat.ne_of_lt (h.known _ _ (List.mem_of_getElem? hc)).2
    refine ⟨h.doc, h.listeners, h.handles, fun other c hc => ?_,
      fun {_ _ _ _ _ _} hc hd hsame => ?_⟩
    · obtain ⟨place, hplace⟩ := List.mem_iff_getElem?.mp hc
      rw [hsize]
      rcases getElem?_callbacks_watching hplace with hold | ⟨rfl, -, rfl⟩
      · obtain ⟨hrun, hlt⟩ := h.known other c (List.mem_of_getElem? hold)
        exact ⟨hrun, Nat.lt_succ_of_lt hlt⟩
      · exact ⟨hscript, Nat.lt_succ_self _⟩
    · rcases getElem?_callbacks_watching hc with holdc | ⟨rfl, rfl, rfl⟩ <;>
        rcases getElem?_callbacks_watching hd with holdd | ⟨rfl, rfl, rfl⟩
      · exact h.numbers holdc holdd hsame
      · exact absurd hsame (hfresh holdc)
      · exact absurd hsame.symm (hfresh holdd)
      · exact ⟨rfl, rfl⟩

end Parted

/-! ## What belongs to others -/

namespace Unmoved

theorem refl (D : Division) (id : ViewId) (w : World) : Unmoved D id w w :=
  ⟨rfl, rfl, rfl, rfl, fun _ _ => rfl, rfl, fun _ _ => rfl⟩

theorem trans {a b c : World} (hab : Unmoved D id a b) (hbc : Unmoved D id b c) :
    Unmoved D id a c where
  handles := hbc.handles.trans hab.handles
  listeners := hbc.listeners.trans hab.listeners
  view := hbc.view.trans hab.view
  own := hbc.own.trans hab.own
  counts := fun callback h => (hbc.counts callback (hab.own ▸ h)).trans (hab.counts callback h)
  told := hbc.told.trans hab.told
  sight := fun node h => (hbc.sight node h).trans (hab.sight node h)

end Unmoved

private theorem callCount_countCall_of_ne (w : World) {c d : Callback}
    (h : c.registration ≠ d.registration) : (w.countCall c).callCount d = w.callCount d := by
  simp [callCount, countCall, Array.getElem?_modify, h]

private theorem callCount_countCall_self (w : World) {c : Callback}
    (h : c.registration < w.calls.size) : (w.countCall c).callCount c = w.callCount c + 1 := by
  rw [callCount, countCall, Array.getElem?_modify, if_pos rfl, callCount,
    Array.getElem?_eq_getElem h]
  rfl

private theorem callCount_watching (w : World) (id : ViewId) (key : String) (script : ScriptId)
    {c : Callback} (h : c.registration < w.calls.size) :
    (w.watching id key script).callCount c = w.callCount c := by
  change ((w.calls.push 0)[c.registration]?).getD 0 = _
  rw [Array.getElem?_push, if_neg (Nat.ne_of_lt h), callCount]

private theorem callCount_watching_new (w : World) (id : ViewId) (key : String)
    (script : ScriptId) : (w.watching id key script).callCount (w.newCallback script).2 = 0 := by
  change ((w.calls.push 0)[w.calls.size]?).getD 0 = 0
  rw [Array.getElem?_push_size, Option.getD_some]

private theorem Parted.callCount_called (h : w.Parted D) {place other : Nat} {c d : Callback}
    (hc : (callbacks id w.trace)[place]? = some c) (hd : (callbacks id w.trace)[other]? = some d)
    {notice : Notice} : ((w.emit (.called c notice)).countCall c).callCount d =
      if other = place then w.callCount d + 1 else w.callCount d := by
  split
  · rename_i hplace
    subst hplace
    obtain rfl := Option.some.inj (hc.symm.trans hd)
    exact callCount_countCall_self _ (h.known id c (List.mem_of_getElem? hc)).2
  · rename_i hplace
    exact callCount_countCall_of_ne _ fun hsame => hplace (h.numbers hc hd hsame).2.symm

/-- What belongs to others stays as it is. -/
theorem Parted.unmoved (h : w.Parted D) (hstir : Stir D id w after) (hother : id ≠ other) :
    Unmoved D other w after := by
  cases hstir with
  | emit he =>
    exact ⟨rfl, rfl, rfl, callbacks_cons_of_mute he _ _, fun _ _ => rfl, toldTo_cons_of_mute he _ _,
      fun _ _ => rfl⟩
  | write hnode =>
    refine ⟨rfl, rfl, rfl, rfl, fun _ _ => rfl, rfl, fun node hregion => ?_⟩
    refine h.doc.wellFormed.sight_perform_of_ne (D.lt_size hnode)
      ((D.lt_size hregion).trans_le h.doc.size) ?_
    rintro rfl
    exact hother (D.apart hnode hregion)
  | modify f =>
    refine ⟨rfl, rfl, ?_, rfl, fun _ _ => rfl, rfl, fun _ _ => rfl⟩
    rw [modifyView, Array.getElem?_modify, if_neg hother]
  | @called callback notice hcallback =>
    refine ⟨rfl, rfl, rfl, callbacks_cons_of_added _ rfl, fun c hc => ?_, ?_, fun _ _ => rfl⟩
    · exact callCount_countCall_of_ne _ (h.registration_ne hother hcallback hc)
    · change toldTo other (⟨.called callback notice, _⟩ :: w.trace) = _
      have hnone : (callbacks other w.trace).idxOf? callback = none :=
        List.idxOf?_eq_none_iff.mpr fun hmem =>
          h.registration_ne hother hcallback hmem rfl
      simp only [toldTo, hnone]
  | @watching key script _ =>
    refine ⟨rfl, rfl, ?_, ?_, fun c hc => ?_, rfl, fun _ _ => rfl⟩
    · change (w.views.modify id _)[other]? = _
      rw [Array.getElem?_modify, if_neg hother]
    · rw [callbacks_watching, if_neg hother, List.append_nil]
    · exact callCount_watching w id key script (h.known other c hc).2

/-! ## What two worlds have alike -/

namespace Alongside

theorem unmoved (h : Alongside D id x y) (hkept : Unmoved D id x after) :
    Alongside D id after y where
  handles := h.handles.trans hkept.handles.symm
  listeners := h.listeners.trans hkept.listeners.symm
  view := by
    rw [hkept.view, hkept.own]
    exact h.view
  length := by
    rw [hkept.own]
    exact h.length
  counts := by
    intro place c c' hc hc'
    rw [hkept.own] at hc
    rw [h.counts hc hc', hkept.counts c (List.mem_of_getElem? hc)]
  told := h.told.trans hkept.told.symm
  sight := fun node hnode => (h.sight node hnode).trans (hkept.sight node hnode).symm

theorem emit (h : Alongside D id x y) {e e' : Event} (he : e.Mute) (he' : e'.Mute) :
    Alongside D id (x.emit e) (y.emit e') := by
  have hx : callbacks id (x.emit e).trace = callbacks id x.trace := callbacks_cons_of_mute he _ _
  have hy : callbacks id (y.emit e').trace = callbacks id y.trace := callbacks_cons_of_mute he' _ _
  refine ⟨h.handles, h.listeners, ?_, ?_, ?_, ?_, h.sight⟩
  · rw [hx, hy]
    exact h.view
  · rw [hx, hy]
    exact h.length
  · rw [hx, hy]
    exact h.counts
  · exact (toldTo_cons_of_mute he' _ _).trans (h.told.trans (toldTo_cons_of_mute he _ _).symm)

theorem write (h : Alongside D id x y) (hx : x.Parted D) (hy : y.Parted D) {change : HostChange}
    (hnode : D.region id change.node) : Alongside D id (x.withDoc (x.doc.perform change))
      (y.withDoc (y.doc.perform change)) := by
  refine { h with sight := fun node hregion => ?_ }
  by_cases hchanged : node = change.node
  · subst hchanged
    exact Document.sight_perform_congr (h.sight _ hnode) hx.doc.wellFormed hy.doc.wellFormed
      (D.lt_size hnode) hx.doc.size hy.doc.size
  · have hlt := D.lt_size hregion
    have hold := hx.doc.wellFormed.sight_perform_of_ne (D.lt_size hnode) (hlt.trans_le hx.doc.size)
      hchanged
    have hold' := hy.doc.wellFormed.sight_perform_of_ne (D.lt_size hnode)
      (hlt.trans_le hy.doc.size) hchanged
    exact hold'.trans ((h.sight node hregion).trans hold.symm)

theorem modify (h : Alongside D id x y) {f : View → View}
    (hf : ∀ {v v' : View}, v.Corresponds (Binding.Corresponds (D.region id) (callbacks id x.trace)
      (callbacks id y.trace)) v' → (f v).Corresponds (Binding.Corresponds (D.region id)
        (callbacks id x.trace) (callbacks id y.trace)) (f v')) :
    Alongside D id (x.modifyView id f) (y.modifyView id f) := by
  refine { h with view := ?_ }
  have hview := h.view
  rw [modifyView, modifyView, Array.getElem?_modify, Array.getElem?_modify, if_pos rfl, if_pos rfl]
  generalize x.views[id]? = v at hview
  generalize y.views[id]? = v' at hview
  cases hview with
  | none => exact .none
  | some hview => exact .some (hf hview)

theorem called (h : Alongside D id x y) (hx : x.Parted D) (hy : y.Parted D) {place : Nat}
    {c c' : Callback} (hc : (callbacks id x.trace)[place]? = some c)
    (hc' : (callbacks id y.trace)[place]? = some c') (notice : Notice) :
    Alongside D id ((x.emit (.called c notice)).countCall c)
      ((y.emit (.called c' notice)).countCall c') := by
  have hownx : callbacks id ((x.emit (.called c notice)).countCall c).trace =
      callbacks id x.trace := callbacks_cons_of_added _ rfl
  have howny : callbacks id ((y.emit (.called c' notice)).countCall c').trace =
      callbacks id y.trace := callbacks_cons_of_added _ rfl
  refine ⟨h.handles, h.listeners, ?_, ?_, ?_, ?_, h.sight⟩
  · rw [hownx, howny]
    exact h.view
  · rw [hownx, howny]
    exact h.length
  · intro other d d' hd hd'
    rw [hownx] at hd
    rw [howny] at hd'
    rw [hx.callCount_called hc hd, hy.callCount_called hc' hd', h.counts hd hd']
  · have htold : toldTo id (⟨.called c notice, x.views⟩ :: x.trace) =
        (place, notice.told) :: toldTo id x.trace := by
      simp only [toldTo, hx.idxOf?_callbacks hc]
    have htold' : toldTo id (⟨.called c' notice, y.views⟩ :: y.trace) =
        (place, notice.told) :: toldTo id y.trace := by
      simp only [toldTo, hy.idxOf?_callbacks hc']
    exact htold'.trans ((congrArg _ h.told).trans htold.symm)

theorem watching (h : Alongside D id x y) (hx : x.Parted D) (hy : y.Parted D) (key : String)
    (script : ScriptId) : Alongside D id (x.watching id key script) (y.watching id key script) := by
  have hownx := callbacks_watching x id id key script
  have howny := callbacks_watching y id id key script
  rw [if_pos rfl] at hownx howny
  -- Both callbacks get the same place.
  have hplace : (callbacks id (x.watching id key script).trace)[(callbacks id x.trace).length]? =
      some (x.newCallback script).2 := by rw [hownx, List.getElem?_concat_length]
  have hplace' : (callbacks id (y.watching id key script).trace)[(callbacks id x.trace).length]? =
      some (y.newCallback script).2 := by rw [howny, ← h.length, List.getElem?_concat_length]
  refine ⟨h.handles, h.listeners, ?_, ?_, ?_, h.told, h.sight⟩
  · have hview := h.view
    change Option.Rel _ (x.views.modify id _)[id]? (y.views.modify id _)[id]?
    rw [Array.getElem?_modify, Array.getElem?_modify, if_pos rfl, if_pos rfl]
    generalize x.views[id]? = v at hview
    generalize y.views[id]? = v' at hview
    cases hview with
    | none => exact .none
    | some hview =>
      refine .some (View.Corresponds.register (hview.imp fun b b' hb => ?_)
        (.watches hplace hplace' rfl) rfl)
      refine hb.mono ?_ ?_
      · rw [hownx]
        exact List.prefix_append _ _
      · rw [howny]
        exact List.prefix_append _ _
  · rw [hownx, howny, List.length_append, List.length_append, h.length]
    rfl
  · intro place d d' hd hd'
    rcases getElem?_callbacks_watching hd with hold | ⟨-, hplace, hlast⟩ <;>
      rcases getElem?_callbacks_watching hd' with hold' | ⟨-, hplace', hlast'⟩
    · rw [callCount_watching x id key script (hx.known id d (List.mem_of_getElem? hold)).2,
        callCount_watching y id key script (hy.known id d' (List.mem_of_getElem? hold')).2,
        h.counts hold hold']
    · have hlt := (List.getElem?_eq_some_iff.mp hold).1
      rw [← h.length, ← hplace'] at hlt
      exact absurd rfl (Nat.ne_of_lt hlt)
    · have hlt := (List.getElem?_eq_some_iff.mp hold').1
      rw [h.length, ← hplace] at hlt
      exact absurd rfl (Nat.ne_of_lt hlt)
    · rw [hlast, hlast', callCount_watching_new, callCount_watching_new]

end Alongside

end World
end ViewBinding
