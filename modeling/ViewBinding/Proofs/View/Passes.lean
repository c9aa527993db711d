import Mathlib
import ViewBinding.Proofs.View.Books

/-!
# Passes

Between the passes of a notification its books are open, and `Midframe` is what holds then. A pass
with watchers closes them for the callbacks that run in it, and leads from one such world to another;
so does a pass over the view only, in which no callback runs. Either is complete unless the view
model is disposed of, and answers what was folded before (`Midframe.metSince_endPass`).
-/

namespace ViewBinding
namespace World

open Trace

/-- A way to run callbacks that keeps the books, and records that they are called. -/
structure Attends (call : Caller) : Prop where
  keeps : ∀ callback notice (w : World), w.Keeps (call callback notice w)
  called : ∀ callback notice (w : World), ∃ inner m,
    (call callback notice w).trace = inner ++ m :: w.trace ∧
      (m.event = .called callback notice ∨ m.event = .exhausted callback)

/-- A world in which a notification has begun. -/
def beginFrame (w : World) (id : ViewId) (key : String) (origin : Option NodeId) : World :=
  (w.modifyView id fun v => { v with inFlight := key :: v.inFlight }).emit
    (.frameBegan id key origin)

/-- A world in which the innermost notification has ended. -/
def endFrame (w : World) (id : ViewId) (key : String) (ran : Nat) : World :=
  (w.modifyView id fun v => { v with inFlight := v.inFlight.tail }.settle).emit
    (.frameEnded id key ran)

/-- A world in which a pass has begun. -/
def beginPass (w : World) (id : ViewId) (key : String) (viewOnly : Bool) : World :=
  (w.modifyView id fun v => { v with passes := v.passes + 1 }).emit (.passBegan id key viewOnly)

/-- A world in which a pass has ended. -/
def endPass (w : World) (id : ViewId) (key : String) : World :=
  (w.modifyView id fun v => { v with passes := v.passes - 1 }).emit (.passEnded id key)

/-- What holds between the passes of a notification that has begun in `w`. -/
structure Midframe (w : World) (id : ViewId) (key : String) (x : World) : Prop where
  booked : x.Booked
  size : w.views.size ≤ x.views.size
  inFlight : ∀ other, (x.view other).inFlight =
    if other = id then key :: (w.view other).inFlight else (w.view other).inFlight
  steady : ∀ other, (w.view other).Steady (x.view other)
  registry : (x.view id).registry = (w.view id).registry
  waiting : ∀ other, other ≠ id → (x.view other).inFlight = [] → (x.view other).deferred = []
  trace : ∃ new, x.trace = new ++ w.trace ∧ w.Quiet new ∧ Unended id key new

/-! ## Binding by binding -/

section

variable {call : Caller}

theorem keeps_foldl {α : Type} {f : World → α → World} (h : ∀ (w : World) a, w.Keeps (f w a))
    (list : List α) (w : World) : w.Keeps (list.foldl f w) :=
  foldl_of_trans Keeps.refl Keeps.trans h list w

theorem keeps_applyBinding (hcall : Attends call) (w : World) (b : Binding)
    (value : Option Value) : w.Keeps (w.applyBinding call b value) := by
  unfold applyBinding
  split
  · exact hcall.keeps _ _ w
  split
  · exact keeps_perform w _
  · exact .refl w

theorem keeps_visitBinding (hcall : Attends call) (id : ViewId) (key : String)
    (origin : Option NodeId) (viewOnly : Bool) (w : World) (b : Binding) :
    w.Keeps (visitBinding call id key origin viewOnly w b) := by
  unfold visitBinding
  split
  · exact .refl w
  split
  · exact .refl w
  · exact (keeps_emit w rfl (by simp)).trans (keeps_applyBinding hcall _ b _)

/-- A binding that a view model visits is left out or applied. -/
theorem visitBinding_of_view {id : ViewId} {w : World} {view : View}
    (hview : w.views[id]? = some view) {key : String} {origin : Option NodeId} {viewOnly : Bool}
    {b : Binding} : visitBinding call id key origin viewOnly w b =
      if view.disposed || (viewOnly && b.isWatch) || origin.any b.isModelOf then w
      else (w.emit (.applied id b (view.store.get? key))).applyBinding call b
        (view.store.get? key) := by
  simp only [visitBinding, hview]

/-- A binding that is not left out makes its change, unless it is a watcher. -/
theorem visitBinding_of_change {id : ViewId} {w : World} {view : View}
    (hview : w.views[id]? = some view) (halive : view.disposed = false) {key : String}
    {origin : Option NodeId} (viewOnly : Bool) {b : Binding} {change : HostChange}
    (hchange : b.change? (shownText (view.store.get? key)) = some change)
    (horigin : origin.any b.isModelOf = false) : visitBinding call id key origin viewOnly w b =
      (w.emit (.applied id b (view.store.get? key))).perform change := by
  rw [visitBinding_of_view hview, halive, horigin]
  cases b with
  | watch => cases hchange
  | interpolation | text | model => simp [applyBinding, hchange, Binding.isWatch]

private theorem applies_visitBinding (hcall : Attends call) {id : ViewId} (key : String)
    (viewOnly : Bool) {w : World} {view : View} (hview : w.views[id]? = some view)
    (halive : view.disposed = false) (b : Binding) (hb : (viewOnly && b.isWatch) = false) :
    ∃ own, (visitBinding call id key none viewOnly w b).trace = own ++ w.trace ∧
      Applies id key b own := by
  have hvisit : visitBinding call id key none viewOnly w b =
      (w.emit (.applied id b (view.store.get? key))).applyBinding call b (view.store.get? key) := by
    simp [visitBinding, hview, halive, hb]
  rw [hvisit]
  cases b with
  | watch k callback =>
    obtain ⟨inner, m, htrace, hm⟩ := hcall.called callback (.watched (view.store.get? key))
      (w.emit (.applied id (.watch k callback) (view.store.get? key)))
    refine ⟨_, ?_, inner, m, w.views, view, rfl, hview, hm⟩
    rw [applyBinding, htrace]
    simp [emit]
  | interpolation | text | model =>
    refine ⟨_, ?_, [], ⟨.changed _, w.views⟩, w.views, view, rfl, hview, _, rfl, rfl⟩
    rfl

private theorem visits_of_alive (hcall : Attends call) {id : ViewId} (key : String)
    (bindings : List Binding) {w : World} (hsound : w.Sound) (hid : id < w.views.size)
    (halive : ((bindings.foldl (visitBinding call id key none false) w).view id).disposed = false) :
    ∃ visits, (bindings.foldl (visitBinding call id key none false) w).trace = visits ++ w.trace ∧
      Visits id key false bindings visits := by
  induction bindings generalizing w with
  | nil => exact ⟨[], rfl, .nil⟩
  | cons b rest ih =>
    obtain ⟨hsound', hevolves⟩ := keeps_visitBinding hcall id key none false w b hsound
    obtain ⟨-, hlater⟩ := keeps_foldl (keeps_visitBinding hcall id key none false) rest _ hsound'
    have hw : (w.view id).disposed = false := by
      cases hd : (w.view id).disposed with
      | false => rfl
      | true =>
        have hd' := (hlater.steady id).disposed ((hevolves.steady id).disposed hd)
        rw [List.foldl_cons] at halive
        rw [hd'] at halive
        cases halive
    obtain ⟨own, hown, happlies⟩ := applies_visitBinding hcall key false (getElem?_views hid) hw b
      (Bool.false_and _)
    obtain ⟨visits, hvisits, hrest⟩ := ih hsound' (hid.trans_le hevolves.size) halive
    refine ⟨visits ++ own, ?_, .apply happlies hrest⟩
    rw [List.foldl_cons, hvisits, hown, List.append_assoc]

private theorem visits_viewOnly (hcall : Attends call) {id : ViewId} (key : String)
    (bindings : List Binding) {w : World} (hbooked : w.Booked) (hid : id < w.views.size)
    (halive : (w.view id).disposed = false) {z : World}
    (hz : bindings.foldl (visitBinding call id key none true) w = z) :
    z.Booked ∧ w.Evolves z ∧ z.views = w.views ∧
      ∃ visits, z.trace = visits ++ w.trace ∧ Visits id key true bindings visits := by
  induction bindings generalizing w with
  | nil =>
    subst hz
    exact ⟨hbooked, .refl w, rfl, [], rfl, .nil⟩
  | cons b rest ih =>
    rw [List.foldl_cons] at hz
    by_cases hwatch : b.isWatch = true
    · have hskip : visitBinding call id key none true w b = w := by
        simp [visitBinding, getElem?_views hid, hwatch]
      rw [hskip] at hz
      obtain ⟨hz, hevolves, hviews, visits, hvisits, hrest⟩ := ih hbooked hid halive hz
      exact ⟨hz, hevolves, hviews, visits, hvisits, .skip rfl hwatch hrest⟩
    · obtain ⟨change, hchange⟩ : ∃ change,
          b.change? (shownText ((w.view id).store.get? key)) = some change := by
        cases b with
        | watch => exact absurd rfl hwatch
        | interpolation | text | model => exact ⟨_, rfl⟩
      obtain ⟨own, hown, happlies⟩ := applies_visitBinding hcall key true (getElem?_views hid)
        halive b (by simpa using hwatch)
      have hvisit : visitBinding call id key none true w b =
          (w.emit (.applied id b ((w.view id).store.get? key))).perform change :=
        visitBinding_of_change (getElem?_views hid) halive true hchange rfl
      rw [hvisit] at hz hown
      have happlied : (w.emit (.applied id b ((w.view id).store.get? key))).Booked :=
        booked_emit_of_frame? hbooked rfl (by simp)
      have hevent : w.Evolves (w.emit (.applied id b ((w.view id).store.get? key))) :=
        evolves_emit w rfl (by simp)
      have hshown := hevent.trans happlied (evolves_perform _ change)
      obtain ⟨hz, hevolves, hviews, visits, hvisits, hrest⟩ :=
        ih (happlied.perform change) hid halive hz
      refine ⟨hz, hshown.trans (happlied.perform change) hevolves, hviews, visits ++ own, ?_,
        .apply happlies hrest⟩
      rw [hvisits, hown, List.append_assoc]

end

/-! ## Between passes -/

theorem mem_keys_of_watchers_ne_nil {α : Type} {registry : Registry α} {key : String}
    (h : registry.watchers key ≠ []) : key ∈ registry.keys := by
  obtain ⟨entries⟩ := registry
  simp only [Registry.watchers, Registry.keys] at h ⊢
  induction entries with
  | nil => simp at h
  | cons entry rest ih =>
    obtain ⟨k, v⟩ := entry
    by_cases hk : k = key
    · simp [Dict.keys, hk]
    · rw [Dict.get?, if_neg hk] at h
      exact List.mem_cons_of_mem _ (ih h)

theorem length_inFlight_le {v : View} (hnodup : v.inFlight.Nodup)
    (hwatched : ∀ key ∈ v.inFlight, v.registry.watchers key ≠ []) :
    v.inFlight.length ≤ v.registry.size := by
  have hsub : v.inFlight ⊆ v.registry.keys :=
    fun key hkey => mem_keys_of_watchers_ne_nil (hwatched key hkey)
  simpa [Registry.keys, Dict.keys, Registry.size] using (List.subperm_of_subset hnodup hsub).length_le

variable {w x z : World} {id : ViewId} {key : String}

@[simp] theorem view_beginFrame (w : World) {id : ViewId} (hid : id < w.views.size)
    (key : String) (origin : Option NodeId) (other : ViewId) :
    (w.beginFrame id key origin).view other =
      if other = id then { w.view other with inFlight := key :: (w.view other).inFlight }
      else w.view other := by
  rw [beginFrame, view_emit]
  split
  · rename_i hother
    rw [hother, view_modifyView_self hid]
  · rename_i hother
    rw [view_modifyView_of_ne w hother]

private theorem booked_beginFrame (hsound : w.Sound) (hid : id < w.views.size)
    (hkey : key ∉ (w.view id).inFlight) (origin : Option NodeId) :
    (w.beginFrame id key origin).Booked := by
  have hview := view_beginFrame w hid key origin
  apply booked_emit
  · intro other
    have hopen : (w.view other).inFlight = openFrames other w.trace := hsound.booked.stack other
    change ((w.beginFrame id key origin).view other).inFlight = _
    rw [hview, openFrames]
    by_cases hother : other = id
    · subst hother
      simp only [if_pos]
      rw [hopen]
      rfl
    · simp only [if_neg hother, if_neg (Ne.symm hother)]
      exact hopen
  · intro other
    change ((w.beginFrame id key origin).view other).Orderly
    rw [hview]
    split
    · rename_i hother
      subst hother
      have hqueues := hsound.booked.queues other
      exact ⟨List.nodup_cons.mpr ⟨hkey, hqueues.inFlight⟩, hqueues.dirty,
        fun k hk => List.mem_cons_of_mem _ (hqueues.dirty_subset hk)⟩
    · exact hsound.booked.queues other
  · intro other
    change ((w.beginFrame id key origin).view other).inFlight.length ≤
      ((w.beginFrame id key origin).view other).registry.size + 1
    rw [hview]
    split
    · exact Nat.succ_le_succ (length_inFlight_le (hsound.booked.queues other).inFlight
        (hsound.ready.watched other))
    · exact hsound.booked.nesting other
  · exact hsound.booked.lawful
  · simp
  · simp

theorem midframe_beginFrame (hsound : w.Sound) (hid : id < w.views.size)
    (hkey : key ∉ (w.view id).inFlight) (origin : Option NodeId) :
    w.Midframe id key (w.beginFrame id key origin) := by
  have hview := view_beginFrame w hid key origin
  refine ⟨booked_beginFrame hsound hid hkey origin, ?_, ?_, ?_, ?_, ?_, ?_⟩
  · simp [beginFrame, emit]
  · intro other
    rw [hview]
    split <;> rfl
  · intro other
    rw [hview]
    split
    · exact ⟨rfl, fun _ h => h, fun h => h, fun _ => rfl⟩
    · exact .refl _
  · rw [hview, if_pos rfl]
  · intro other hother
    rw [hview, if_neg hother]
    exact hsound.ready.waiting other
  · refine ⟨[⟨.frameBegan id key origin, _⟩], rfl, ?_, ?_⟩
    · intro m hm other k hframe
      rw [List.mem_singleton.mp hm] at hframe
      obtain ⟨rfl, rfl⟩ := Prod.mk.inj (Option.some.inj hframe)
      exact hkey
    · intro m hm ran hended
      rw [List.mem_singleton.mp hm] at hended
      cases hended

theorem view_beginPass (x : World) {id : ViewId} (hid : id < x.views.size) (key : String)
    (viewOnly : Bool) (other : ViewId) :
    (x.beginPass id key viewOnly).view other =
      if other = id then { x.view other with passes := (x.view other).passes + 1 }
      else x.view other := by
  rw [beginPass, view_emit]
  split
  · rename_i hother
    rw [hother, view_modifyView_self hid]
  · rename_i hother
    rw [view_modifyView_of_ne x hother]

theorem view_endPass (z : World) {id : ViewId} (hid : id < z.views.size) (key : String)
    (other : ViewId) :
    (z.endPass id key).view other =
      if other = id then { z.view other with passes := (z.view other).passes - 1 }
      else z.view other := by
  rw [endPass, view_emit]
  split
  · rename_i hother
    rw [hother, view_modifyView_self hid]
  · rename_i hother
    rw [view_modifyView_of_ne z hother]

theorem Midframe.lt_size (hmid : w.Midframe id key x) (hid : id < w.views.size) :
    id < x.views.size :=
  hid.trans_le hmid.size

theorem Midframe.inFlight_self (hmid : w.Midframe id key x) :
    (x.view id).inFlight = key :: (w.view id).inFlight := by
  rw [hmid.inFlight, if_pos rfl]

theorem Midframe.mem_inFlight (hmid : w.Midframe id key x) {other : ViewId} {k : String}
    (hk : k ∈ (w.view other).inFlight) : k ∈ (x.view other).inFlight := by
  rw [hmid.inFlight]
  split
  · exact List.mem_cons_of_mem _ hk
  · exact hk

theorem Booked.of_views {x after : World} (h : x.Booked) (htrace : after.trace = x.trace)
    (hviews : ∀ id, (after.view id).inFlight = (x.view id).inFlight ∧
      (after.view id).registry = (x.view id).registry ∧ (after.view id).Orderly) :
    after.Booked := by
  refine ⟨?_, fun id => (hviews id).2.2, ?_, by rw [htrace]; exact h.lawful⟩
  · intro id
    rw [(hviews id).1, htrace]
    exact h.stack id
  · intro id
    rw [(hviews id).1, (hviews id).2.1]
    exact h.nesting id

private theorem orderly_of_eq {v v' : View} (h : v.Orderly) (hinFlight : v'.inFlight = v.inFlight)
    (hdirty : v'.dirty = v.dirty) : v'.Orderly := by
  refine ⟨?_, ?_, ?_⟩
  · rw [hinFlight]
    exact h.inFlight
  · rw [hdirty]
    exact h.dirty
  · rw [hinFlight, hdirty]
    exact h.dirty_subset

private theorem Booked.modifyPasses {x : World} (h : x.Booked) (id : ViewId) (f : Nat → Nat) :
    (x.modifyView id fun v => { v with passes := f v.passes }).Booked := by
  apply h.of_views
  · rfl
  · intro other
    have hsame := view_modifyView_induction (motive := fun v v' => v'.inFlight = v.inFlight ∧
      v'.registry = v.registry ∧ v'.dirty = v.dirty) x id
      (f := fun v => { v with passes := f v.passes }) (fun _ => ⟨rfl, rfl, rfl⟩)
      (fun _ => ⟨rfl, rfl, rfl⟩) other
    exact ⟨hsame.1, hsame.2.1, orderly_of_eq (h.queues other) hsame.1 hsame.2.2⟩

private theorem Booked.beginPass {x : World} (h : x.Booked) (id : ViewId) (key : String)
    (viewOnly : Bool) : (x.beginPass id key viewOnly).Booked := by
  apply (h.modifyPasses id (· + 1)).emit
  · exact fun _ => rfl
  · simp
  · simp

private theorem Booked.endPass {z : World} (h : z.Booked) (id : ViewId) (key : String) :
    (z.endPass id key).Booked := by
  apply (h.modifyPasses id (· - 1)).emit
  · exact fun _ => rfl
  · simp
  · simp

theorem passesOf_beginPass (x : World) (id : ViewId) (key : String) (viewOnly : Bool) :
    passesOf id key (x.beginPass id key viewOnly).trace = viewOnly :: passesOf id key x.trace := by
  simp [World.beginPass, World.emit, passesOf, World.modifyView]

private theorem passesOf_beginPass_of_ne (x : World) (viewOnly : Bool) {id other : ViewId}
    {key k : String} (h : ¬ (id = other ∧ key = k)) :
    passesOf other k (x.beginPass id key viewOnly).trace = passesOf other k x.trace := by
  simp [World.beginPass, World.emit, passesOf, World.modifyView, h]

/-- When a pass with watchers begins and there are bindings, the books are closed. -/
theorem Midframe.sound_beginPass (hmid : w.Midframe id key x) (hsound : w.Sound)
    (hid : id < w.views.size) (hwatched : (x.view id).registry.watchers key ≠ [])
    (hfull : true ∉ passesOf id key x.trace) : (x.beginPass id key false).Sound := by
  have hview := view_beginPass x (hmid.lt_size hid) key false
  have hinFlight : ∀ other, ((x.beginPass id key false).view other).inFlight =
      (x.view other).inFlight := by
    intro other
    rw [hview]
    split <;> rfl
  have hregistry : ∀ other, ((x.beginPass id key false).view other).registry =
      (x.view other).registry := by
    intro other
    rw [hview]
    split <;> rfl
  -- What was in progress when the notification began is still in its pass.
  have hold : ∀ other, ∀ k ∈ (w.view other).inFlight,
      (x.view other).registry.watchers k ≠ [] ∧ true ∉ passesOf other k x.trace := by
    intro other k hk
    constructor
    · rw [(hmid.steady other).registry]
      · exact hsound.ready.watched other k hk
      · rw [hsound.ready.running]
        exact fun hlength => List.ne_nil_of_mem hk (List.length_eq_zero_iff.mp hlength)
    · obtain ⟨new, htrace, hquiet, -⟩ := hmid.trace
      rw [htrace, passesOf_append new w.trace (hquiet.frame?_ne hk)]
      exact hsound.ready.full other k hk
  refine ⟨hmid.booked.beginPass id key false, ?_, ?_, ?_, ?_⟩
  · intro other
    rw [hinFlight, hmid.inFlight, hview]
    by_cases hother : other = id
    · simp only [if_pos hother, List.length_cons]
      rw [(hmid.steady other).passes, hsound.ready.running]
    · rw [if_neg hother, if_neg hother, (hmid.steady other).passes, hsound.ready.running]
  · intro other hnil
    rw [hinFlight] at hnil
    by_cases hother : other = id
    · rw [hother, hmid.inFlight_self] at hnil
      cases hnil
    · rw [hview, if_neg hother]
      exact hmid.waiting other hother hnil
  · intro other k hk
    rw [hinFlight, hmid.inFlight] at hk
    rw [hregistry]
    split at hk
    · rename_i hother
      rcases List.mem_cons.mp hk with rfl | hk
      · rw [hother]
        exact hwatched
      · exact (hold other k hk).1
    · exact (hold other k hk).1
  · intro other k hk
    by_cases hthis : id = other ∧ key = k
    · obtain ⟨rfl, rfl⟩ := hthis
      rw [passesOf_beginPass]
      simpa using hfull
    · rw [passesOf_beginPass_of_ne x false hthis]
      rw [hinFlight, hmid.inFlight] at hk
      split at hk
      · rename_i hother
        rcases List.mem_cons.mp hk with rfl | hk
        · exact absurd ⟨hother.symm, rfl⟩ hthis
        · exact (hold other k hk).2
      · exact (hold other k hk).2

/-- What is between the beginning and the end of a pass, apart from what callbacks do. -/
structure Inpass (x : World) (id : ViewId) (key : String) (viewOnly : Bool) (z : World) : Prop where
  booked : z.Booked
  evolves : (x.beginPass id key viewOnly).Evolves z
  waiting : ∀ other, other ≠ id → (z.view other).inFlight = [] → (z.view other).deferred = []

theorem Inpass.steady {viewOnly : Bool} (hpass : x.Inpass id key viewOnly z)
    (hid : id < x.views.size) (other : ViewId) :
    (x.view other).Steady ((z.endPass id key).view other) := by
  have hbegin := view_beginPass x hid key viewOnly other
  have hend := view_endPass z (hid.trans_le (by simpa [beginPass, emit] using hpass.evolves.size))
    key other
  have hsteady := hpass.evolves.steady other
  rw [hbegin] at hsteady
  rw [hend]
  by_cases hother : other = id
  · simp only [if_pos hother] at hsteady ⊢
    refine ⟨?_, hsteady.dirty, hsteady.disposed, fun _ => hsteady.registry (Nat.succ_ne_zero _)⟩
    simp only [hsteady.passes]
    exact Nat.add_sub_cancel _ _
  · simpa only [if_neg hother] using hsteady

theorem inFlight_beginPass (x : World) {id : ViewId} (hid : id < x.views.size) (key : String)
    (viewOnly : Bool) (other : ViewId) :
    ((x.beginPass id key viewOnly).view other).inFlight = (x.view other).inFlight := by
  rw [view_beginPass x hid]
  split <;> rfl

private theorem trace_beginPass (x : World) (id : ViewId) (key : String) (viewOnly : Bool) :
    (x.beginPass id key viewOnly).trace =
      ⟨.passBegan id key viewOnly, (x.beginPass id key viewOnly).views⟩ :: x.trace := rfl

theorem trace_endPass (z : World) (id : ViewId) (key : String) :
    (z.endPass id key).trace = ⟨.passEnded id key, (z.endPass id key).views⟩ :: z.trace := rfl

/-- The moments of a pass, with those of callbacks inside. -/
def passMoments (x : World) (id : ViewId) (key : String) (viewOnly : Bool) (inner : List Moment)
    (z : World) : List Moment :=
  ⟨.passEnded id key, (z.endPass id key).views⟩ ::
    (inner ++ [⟨.passBegan id key viewOnly, (x.beginPass id key viewOnly).views⟩])

private theorem trace_of_passMoments {viewOnly : Bool} {inner : List Moment}
    (hinner : z.trace = inner ++ (x.beginPass id key viewOnly).trace) :
    (z.endPass id key).trace = passMoments x id key viewOnly inner z ++ x.trace := by
  rw [trace_endPass, hinner, trace_beginPass, passMoments]
  simp

private theorem frame?_passMoments {viewOnly : Bool} {inner : List Moment} {m : Moment}
    (hm : m ∈ passMoments x id key viewOnly inner z) :
    (m.event.frame? = some (id, key) ∧ ∀ other k ran, m.event ≠ .frameEnded other k ran) ∨
      m ∈ inner := by
  rcases List.mem_cons.mp hm with rfl | hm
  · exact Or.inl ⟨rfl, by simp⟩
  rcases List.mem_append.mp hm with hm | hm
  · exact Or.inr hm
  · rw [List.mem_singleton.mp hm]
    exact Or.inl ⟨rfl, by simp⟩

private theorem unended_passMoments {viewOnly : Bool} {inner : List Moment}
    (hid : id < x.views.size) (hquiet : (x.beginPass id key viewOnly).Quiet inner) {other : ViewId}
    {k : String} (hk : k ∈ (x.view other).inFlight) :
    Unended other k (passMoments x id key viewOnly inner z) := by
  intro m hm ran
  rcases frame?_passMoments hm with ⟨-, hended⟩ | hm
  · exact hended other k ran
  · rw [← inFlight_beginPass x hid key viewOnly] at hk
    exact Unended.of_frame? (hquiet.frame?_ne hk) m hm ran

theorem Midframe.endPass {viewOnly : Bool} (hmid : w.Midframe id key x)
    (hpass : x.Inpass id key viewOnly z) (hid : id < w.views.size)
    (hkey : key ∉ (w.view id).inFlight) : w.Midframe id key (z.endPass id key) := by
  have hidx := hmid.lt_size hid
  have hsize : x.views.size ≤ z.views.size := by
    simpa [beginPass, emit] using hpass.evolves.size
  have hend := view_endPass z (hidx.trans_le hsize) key
  have hinFlight : ∀ other, ((z.endPass id key).view other).inFlight = (x.view other).inFlight := by
    intro other
    rw [← inFlight_beginPass x hidx key viewOnly, ← hpass.evolves.inFlight, hend]
    split <;> rfl
  refine ⟨hpass.booked.endPass id key, ?_, ?_, ?_, ?_, ?_, ?_⟩
  · simpa [World.endPass, emit] using hmid.size.trans hsize
  · intro other
    rw [hinFlight, hmid.inFlight]
  · exact fun other => (hmid.steady other).trans (hpass.steady hidx other)
  · have hbegin := view_beginPass x hidx key viewOnly id
    rw [if_pos rfl] at hbegin
    have hkept := (hpass.evolves.steady id).registry
    rw [hbegin] at hkept
    rw [hend, if_pos rfl, ← hmid.registry]
    exact hkept (Nat.succ_ne_zero _)
  · intro other hother hnil
    rw [hend, if_neg hother] at hnil ⊢
    exact hpass.waiting other hother hnil
  · obtain ⟨new, htrace, hquiet, hopen⟩ := hmid.trace
    obtain ⟨newer, htrace', hquiet', -⟩ := hpass.evolves.trace
    refine ⟨passMoments x id key viewOnly newer z ++ new, ?_, ?_, ?_⟩
    · rw [trace_of_passMoments htrace', htrace, List.append_assoc]
    · apply Quiet.append _ hquiet
      intro m hm other k hframe hk
      rcases frame?_passMoments hm with ⟨hthis, -⟩ | hm
      · obtain ⟨rfl, rfl⟩ := Prod.mk.inj (Option.some.inj (hthis.symm.trans hframe))
        exact hkey hk
      · apply hquiet' m hm other k hframe
        rw [inFlight_beginPass x hidx]
        exact hmid.mem_inFlight hk
    · apply Unended.append _ hopen
      apply unended_passMoments hidx hquiet'
      rw [hmid.inFlight_self]
      exact List.mem_cons_self

theorem lt_size_inpass {viewOnly : Bool} (hpass : x.Inpass id key viewOnly z)
    (hid : id < x.views.size) : id < z.views.size :=
  hid.trans_le (by simpa [beginPass, emit] using hpass.evolves.size)

section

variable {call : Caller}

theorem Midframe.inpass_full (hcall : Attends call) (hmid : w.Midframe id key x)
    (hsound : w.Sound) (hid : id < w.views.size) (hfull : true ∉ passesOf id key x.trace)
    (origin : Option NodeId) :
    x.Inpass id key false ((x.watchers id key).foldl (visitBinding call id key origin false)
      (x.beginPass id key false)) := by
  have hidx := hmid.lt_size hid
  rw [watchers_eq hidx]
  by_cases hnil : (x.view id).registry.watchers key = []
  · rw [hnil]
    refine ⟨hmid.booked.beginPass id key false, .refl _, ?_⟩
    intro other hother
    rw [List.foldl_nil, view_beginPass x hidx, if_neg hother]
    exact hmid.waiting other hother
  · have hbegin := hmid.sound_beginPass hsound hid hnil hfull
    obtain ⟨hz, hevolves⟩ := keeps_foldl (keeps_visitBinding hcall id key origin false) _ _ hbegin
    exact ⟨hz.booked, hevolves, fun other _ => hz.ready.waiting other⟩

/-- A pass with watchers is complete, unless the view model is disposed of in it. -/
theorem Midframe.complete_full (hcall : Attends call) (hmid : w.Midframe id key x)
    (hsound : w.Sound) (hid : id < w.views.size) (hfull : true ∉ passesOf id key x.trace)
    (hz : (x.watchers id key).foldl (visitBinding call id key none false)
      (x.beginPass id key false) = z) (halive : (z.view id).disposed = false) :
    ∃ inner, z.trace = inner ++ (x.beginPass id key false).trace ∧
      CompletePass id key false (passMoments x id key false inner z) := by
  have hidx := hmid.lt_size hid
  have hbegin := view_beginPass x hidx key false id
  rw [if_pos rfl] at hbegin
  have hwatchers : x.watchers id key =
      ((x.beginPass id key false).view id).registry.watchers key := by
    rw [watchers_eq hidx, hbegin]
  have hview : (x.beginPass id key false).views[id]? =
      some ((x.beginPass id key false).view id) :=
    getElem?_views (by simpa [beginPass, emit] using hidx)
  have hvisits : ∃ visits, z.trace = visits ++ (x.beginPass id key false).trace ∧
      Visits id key false (x.watchers id key) visits := by
    by_cases hnil : x.watchers id key = []
    · rw [hnil] at hz ⊢
      subst hz
      exact ⟨[], rfl, .nil⟩
    · rw [watchers_eq hidx] at hnil
      have hsound' := hmid.sound_beginPass hsound hid hnil hfull
      subst hz
      exact visits_of_alive hcall key _ hsound' (by simpa [beginPass, emit] using hidx) halive
  obtain ⟨visits, htrace, hvisits⟩ := hvisits
  rw [hwatchers] at hvisits
  exact ⟨visits, htrace, _, visits, _, _, rfl, rfl, rfl, hview, hvisits⟩

/-- A pass over the view only is complete, and leaves the view models as they are. -/
theorem Midframe.inpass_viewOnly (hcall : Attends call) (hmid : w.Midframe id key x)
    (hid : id < w.views.size) (halive : (x.view id).disposed = false)
    (hz : (x.watchers id key).foldl (visitBinding call id key none true)
      (x.beginPass id key true) = z) :
    x.Inpass id key true z ∧ z.views = (x.beginPass id key true).views ∧
      ∃ inner, z.trace = inner ++ (x.beginPass id key true).trace ∧
        CompletePass id key true (passMoments x id key true inner z) := by
  have hidx := hmid.lt_size hid
  have hbegin := view_beginPass x hidx key true
  have hself := hbegin id
  rw [if_pos rfl] at hself
  have hsize : id < (x.beginPass id key true).views.size := by simpa [beginPass, emit] using hidx
  have hwatchers : x.watchers id key =
      ((x.beginPass id key true).view id).registry.watchers key := by
    rw [watchers_eq hidx, hself]
  obtain ⟨hbooked, hevolves, hviews, visits, htrace, hvisits⟩ :=
    visits_viewOnly hcall key (x.watchers id key) (hmid.booked.beginPass id key true) hsize
      (by rw [hself]; exact halive) hz
  refine ⟨⟨hbooked, hevolves, ?_⟩, hviews, visits, htrace, ?_⟩
  · intro other hother
    rw [view_congr hviews, hbegin, if_neg hother]
    exact hmid.waiting other hother
  · rw [hwatchers] at hvisits
    exact ⟨_, visits, _, _, rfl, rfl, rfl, getElem?_views hsize, hvisits⟩

end

/-- Since some time, something has come of every notification that was folded, or its key is due. -/
def MetSince (w x : World) (due : ViewId → String → Prop) : Prop :=
  ∀ new, x.trace = new ++ w.trace → FoldsMet due new w.trace

/-- A pass settles what was due for its key: it is complete, or the view model is disposed of. -/
def Settles (x : World) (id : ViewId) (key : String) (viewOnly : Bool) (z : World) : Prop :=
  (z.view id).disposed = true ∨
    ∃ inner, z.trace = inner ++ (x.beginPass id key viewOnly).trace ∧
      CompletePass id key viewOnly (passMoments x id key viewOnly inner z) ∧
        (viewOnly = true → passesOf id key x.trace = List.replicate maxPasses false)

/-- What is due after a pass has come up in it, or was due before for another key. -/
theorem Midframe.metSince_endPass {viewOnly : Bool} (hmid : w.Midframe id key x)
    (hid : id < w.views.size) {due : ViewId → String → Prop} (hmet : MetSince w x due)
    (hpass : x.Inpass id key viewOnly z)
    (hsettles : ∀ i k, due i k →
      x.Due i k ∨ (i = id ∧ k = key ∧ Settles x id key viewOnly z)) :
    MetSince w (z.endPass id key) (z.endPass id key).Due := by
  have hidx := hmid.lt_size hid
  have hidz := lt_size_inpass hpass hidx
  have hend := view_endPass z hidz key
  obtain ⟨new, htrace, -⟩ := hmid.trace
  obtain ⟨inner, hinner, hquiet, hmetInner⟩ := hpass.evolves.trace
  have hpassed := trace_of_passMoments hinner
  have hdue : ∀ i k, z.Due i k → (z.endPass id key).Due i k := by
    intro i k hk
    rw [Due, hend]
    split <;> exact hk
  have hmetPass : FoldsMet (z.endPass id key).Due (passMoments x id key viewOnly inner z)
      (new ++ w.trace) := by
    rw [← htrace]
    have hbegan : FoldsMet (fun _ _ => False)
        [⟨.passBegan id key viewOnly, (x.beginPass id key viewOnly).views⟩] x.trace :=
      (FoldsMet.nil (fun _ _ => False) _).cons (by simp) (by simp)
    have hrun := hbegan.append hmetInner (by simp)
    exact hrun.cons (by simp) fun i k hk => ⟨hdue i k hk, by simp⟩
  intro all hall
  have hsplit : all = passMoments x id key viewOnly inner z ++ new := by
    have hboth : all ++ w.trace = (passMoments x id key viewOnly inner z ++ new) ++ w.trace := by
      rw [← hall, hpassed, htrace, List.append_assoc]
    exact List.append_cancel_right hboth
  rw [hsplit]
  apply (hmet new htrace).append hmetPass
  intro i k later before hk hopen hbefore
  rcases hsettles i k hk with hk | ⟨rfl, rfl, hdone⟩
  · refine Or.inr (Or.inr ⟨(hpass.steady hidx i).dirty hk, ?_⟩)
    exact unended_passMoments hidx hquiet ((hmid.booked.queues i).dirty_subset hk)
  have hself := hmid.inFlight_self
  have hkey : k ∈ (x.view i).inFlight := by
    rw [hself]
    exact List.mem_cons_self
  rcases hdone with hdisposed | ⟨inner', hinner', hcomplete, hshape⟩
  · -- The end of the pass finds the view model disposed of.
    refine Or.inr (Or.inl ⟨[], ⟨.passEnded i k, (z.endPass i k).views⟩, _, (z.endPass i k).view i,
      rfl, ?_, getElem?_views ?_, ?_⟩)
    · apply Unended.append _ hopen
      have hpassOpen : Unended i k (passMoments x i k viewOnly inner z) :=
        unended_passMoments hidx hquiet hkey
      exact fun m hm => hpassOpen m (List.mem_cons_of_mem _ hm)
    · simpa [World.endPass, emit] using hidz
    · rw [hend, if_pos rfl]
      exact hdisposed
  · have hsame : inner' = inner := by
      apply List.append_cancel_right
      rw [← hinner', hinner]
    rw [hsame] at hcomplete
    refine Or.inl ⟨[], _, later, viewOnly, rfl, hopen, hcomplete, ?_⟩
    rw [hbefore, ← htrace]
    exact hshape

end World
end ViewBinding
