import Mathlib
import ViewBinding.Proofs.View.InStep
import ViewBinding.Proofs.View.Records

/-!
# What passes apply

A pass with watchers applies the bindings that its key had when the outermost notification in
progress began, each once and in the order of registration. What is registered meanwhile waits, and
joins the registry when that notification ends (`World.runAll_fanOut`).
-/

namespace ViewBinding

open Trace

/-- What a view model does `inside` an outermost notification that has just begun in `past`. The
view model is given as it was in the beginning. -/
structure Trace.FansOut (id : ViewId) (view : View) (inside past : List Moment) : Prop where
  alive : view.disposed = false
  /-- The bindings of each key are in the order in which they were found and registered. -/
  order : ∀ key, view.registry.watchers key =
    (registrations id past).filter fun b => b.key == key
  /-- No binding is added while the notification is in progress. -/
  deferral : ∀ after m before now, inside = after ++ m :: before → m.views[id]? = some now →
    now.disposed = false → ∀ key, now.registry.watchers key = view.registry.watchers key
  /-- A pass that ends, at any depth, has applied all bindings that its key had in the beginning, in
  order, apart from the watchers if it is over the view only, and from the model binding of an input
  whose change is not echoed if it is the first to answer that change. -/
  passes : ∀ after key views before now, inside = after ++ ⟨.passEnded id key, views⟩ :: before →
    views[id]? = some now → now.disposed = false →
      ∃ pass outer, openPasses id (before ++ past) = pass :: outer ∧ pass.key = key ∧
        (pass.origin.isSome = true → now.settings.echo = false) ∧
        pass.applied =
          (view.registry.watchers key).filter (Binding.isMet pass.origin pass.viewOnly)
  /-- A notification that ends, at any depth, has made a pass with watchers at least. -/
  shapes : ∀ after key ran views before,
    inside = after ++ ⟨.frameEnded id key ran, views⟩ :: before →
      FrameShape (passesOf id key (before ++ past))
  /-- Every pass that begins also ends. -/
  finished : openPasses id (inside ++ past) = []
  /-- What is applied is a binding of the key of the innermost pass in progress, to the value that
  the store has for the key at that time. -/
  values : ∀ after b value views before,
    inside = after ++ ⟨.applied id b value, views⟩ :: before →
      ∃ pass outer now, openPasses id (before ++ past) = pass :: outer ∧ b.key = pass.key ∧
        views[id]? = some now ∧ value = now.store.get? b.key ∧
        ∃ rest effect, after = rest ++ [effect] ∧ b.Effect value effect.event

/-! ## Inside an outermost notification -/

private theorem Trace.exists_frameEnded {id : ViewId} {key : String} {moments : List Moment}
    (h : ¬Unended id key moments) :
    ∃ later ran ended inside, moments = later ++ ⟨.frameEnded id key ran, ended⟩ :: inside ∧
      Unended id key inside := by
  induction moments with
  | nil => exact absurd (fun m hm => nomatch hm) h
  | cons m moments ih =>
    by_cases hrest : Unended id key moments
    · have hm : ∃ ran, m.event = .frameEnded id key ran := by
        by_contra hnone
        exact h (List.forall_mem_cons.mpr ⟨fun ran he => hnone ⟨ran, he⟩, hrest⟩)
      obtain ⟨ran, he⟩ := hm
      refine ⟨[], ran, m.views, moments, ?_, hrest⟩
      rw [← he]
      rfl
    · obtain ⟨later, ran, ended, inside, rfl, hinside⟩ := ih hrest
      exact ⟨m :: later, ran, ended, inside, rfl, hinside⟩

section Inside

variable {id : ViewId} {key : String} {began : Moment} {trace later inside past : List Moment}

private theorem Trace.openFrames_inside (hlawful : World.LawfulTrace trace)
    (hfair : FairTrace trace) (htrace : trace = later ++ (inside ++ began :: past))
    (hopen : openFrames id (began :: past) = [key]) (hunended : Unended id key inside) :
    ∃ inner, openFrames id (inside ++ began :: past) = inner ++ [key] ∧ key ∉ inner := by
  induction inside generalizing later with
  | nil => exact ⟨[], hopen, List.not_mem_nil⟩
  | cons m inside ih =>
    obtain ⟨hm, hinside⟩ := List.forall_mem_cons.mp hunended
    have hsplit : trace = later ++ m :: (inside ++ began :: past) := htrace
    have hrest : trace = (later ++ [m]) ++ (inside ++ began :: past) := by simp [hsplit]
    obtain ⟨inner, hinner, hnot⟩ := ih hrest hinside
    have hnow := hlawful _ _ _ hsplit
    cases he : m.event with
    | frameBegan view k origin =>
      by_cases hid : view = id
      · subst hid
        have hstack : openFrames view (m :: (inside ++ began :: past)) = k :: (inner ++ [key]) := by
          rw [openFrames_frameBegan _ he, hinner]
        have hbegan := (hfair _ _ _ hsplit).event
        rw [he] at hbegan
        obtain ⟨v, hv, -⟩ := hbegan
        have hnodup := (hnow.queues view v hv).inFlight
        rw [hnow.stack view v hv, hstack] at hnodup
        have hne : key ≠ k := fun heq => by simp [heq] at hnodup
        exact ⟨k :: inner, hstack, List.not_mem_cons_of_ne_of_not_mem hne hnot⟩
      · refine ⟨inner, ?_, hnot⟩
        rw [List.cons_append, openFrames, he, ← hinner]
        exact if_neg hid
    | frameEnded view k ran =>
      by_cases hid : view = id
      · subst hid
        have htail : openFrames view (m :: (inside ++ began :: past)) = (inner ++ [key]).tail := by
          rw [openFrames_frameEnded _ he, hinner]
        obtain ⟨outer, houter⟩ := hnow.innermost view k ran he
        rw [hinner] at houter
        cases inner with
        | nil =>
          obtain ⟨rfl, -⟩ := List.cons.inj houter
          exact absurd he (hm ran)
        | cons first inner =>
          exact ⟨inner, htail, fun hmem => hnot (List.mem_cons_of_mem _ hmem)⟩
      · refine ⟨inner, ?_, hnot⟩
        rw [List.cons_append, openFrames, he, ← hinner]
        exact if_neg hid
    | _ =>
      refine ⟨inner, ?_, hnot⟩
      rw [List.cons_append, openFrames, he, ← hinner]

private theorem Trace.held_inside (hlawful : World.LawfulTrace trace) (hfair : FairTrace trace)
    (htrace : trace = later ++ (inside ++ began :: past)) (houtermost : openFrames id past = [])
    (hopen : openFrames id (began :: past) = [key]) (hunended : Unended id key inside) :
    held id (inside ++ began :: past) = registrations id past := by
  induction inside generalizing later with
  | nil =>
    have hne : openFrames id (began :: past) ≠ [] := by simp [hopen]
    rw [List.nil_append, held_cons_of_openFrames_ne_nil hne, held_of_openFrames_eq_nil houtermost]
  | cons m inside ih =>
    obtain ⟨inner, hinner, -⟩ := openFrames_inside hlawful hfair htrace hopen hunended
    have hne : openFrames id (m :: (inside ++ began :: past)) ≠ [] := by
      rw [← List.cons_append, hinner]
      simp
    have hrest : trace = (later ++ [m]) ++ (inside ++ began :: past) := by simp [htrace]
    rw [List.cons_append, held_cons_of_openFrames_ne_nil hne]
    exact ih hrest (List.forall_mem_cons.mp hunended).2

private theorem Trace.Unended.of_append {a b : List Moment} (h : Unended id key (a ++ b)) :
    Unended id key b :=
  fun m hm => h m (List.mem_append_right a hm)

private theorem Trace.exists_effect {ended : Moment} {b : Binding} {value : Option Value}
    {views : Array View} {after before : List Moment} (hfair : FairTrace trace)
    (htrace : trace = later ++ ended :: (inside ++ past))
    (hended : ended.event.subject? = some id)
    (hinside : inside = after ++ ⟨.applied id b value, views⟩ :: before) :
    ∃ rest effect, after = rest ++ [effect] ∧ b.Effect value effect.event := by
  rcases List.eq_nil_or_concat after with rfl | ⟨rest, effect, rfl⟩
  · have heffect := (hfair _ _ _ htrace).effect ⟨.applied id b value, views⟩
      (by simp [hinside]) id b value rfl
    rw [heffect.plain.subject?] at hended
    cases hended
  · have hsplit : trace = (later ++ ended :: rest) ++
        effect :: (⟨.applied id b value, views⟩ :: (before ++ past)) := by
      simp [htrace, hinside]
    exact ⟨rest, effect, List.concat_eq_append,
      (hfair _ _ _ hsplit).effect _ rfl id b value rfl⟩

end Inside

namespace World

/-- An outermost notification that has ended did what it must, and with its end what was registered
meanwhile stands behind what each key had. -/
theorem fansOut_of_fair {trace : List Moment} (hlawful : LawfulTrace trace) (hfair : FairTrace trace)
    {id : ViewId} {key : String} {origin : Option NodeId} {ran : Nat} {views ended : Array View}
    {later inside past : List Moment}
    (htrace : trace = later ++ ⟨.frameEnded id key ran, ended⟩ ::
      (inside ++ ⟨.frameBegan id key origin, views⟩ :: past))
    (houtermost : openFrames id past = []) (hunended : Unended id key inside) :
    ∃ view, views[id]? = some view ∧
      FansOut id view inside (⟨.frameBegan id key origin, views⟩ :: past) ∧
      ∀ now, ended[id]? = some now → now.disposed = false → ∀ k, now.registry.watchers k =
        view.registry.watchers k ++ (registrations id inside).filter fun b => b.key == k := by
  have hopen : openFrames id (⟨.frameBegan id key origin, views⟩ :: past) = [key] := by
    rw [openFrames_frameBegan _ rfl, houtermost]
  have hbegan : trace = (later ++ ⟨.frameEnded id key ran, ended⟩ :: inside) ++
      ⟨.frameBegan id key origin, views⟩ :: past := by simp [htrace]
  have hwithin : trace = (later ++ [⟨.frameEnded id key ran, ended⟩]) ++
      (inside ++ ⟨.frameBegan id key origin, views⟩ :: past) := by simp [htrace]
  -- What is held stays the same at every moment of the notification.
  have hheld : ∀ after before, inside = after ++ before →
      held id (before ++ ⟨.frameBegan id key origin, views⟩ :: past) = registrations id past := by
    rintro after before rfl
    have hsplit : trace = (later ++ ⟨.frameEnded id key ran, ended⟩ :: after) ++
        (before ++ ⟨.frameBegan id key origin, views⟩ :: past) := by simp [htrace]
    exact held_inside hlawful hfair hsplit houtermost hopen hunended.of_append
  have hat : ∀ {after m before}, inside = after ++ m :: before →
      m.Fair (before ++ ⟨.frameBegan id key origin, views⟩ :: past) := by
    rintro after m before rfl
    exact hfair (later ++ ⟨.frameEnded id key ran, ended⟩ :: after) m _ (by simp [htrace])
  obtain ⟨view, hview, halive⟩ := (hfair _ _ _ hbegan).event
  have horder : ∀ k, view.registry.watchers k =
      (registrations id past).filter fun b => b.key == k := by
    rw [← hheld inside [] (List.append_nil _).symm]
    exact (hfair _ _ _ hbegan).registry id view hview halive
  obtain ⟨inner, hinner, hnot⟩ := openFrames_inside hlawful hfair hwithin hopen hunended
  obtain ⟨outer, houter⟩ := (hlawful _ _ _ htrace).innermost id key ran rfl
  have hnone : inner = [] := by
    cases inner with
    | nil => rfl
    | cons first inner =>
      obtain ⟨rfl, -⟩ := List.cons.inj (hinner.symm.trans houter)
      exact absurd List.mem_cons_self hnot
  rw [hnone, List.nil_append] at hinner
  refine ⟨view, hview, ⟨halive, ?_, ?_, ?_, ?_, ?_, ?_⟩, ?_⟩
  · rw [registrations_cons past rfl]
    exact horder
  · intro after m before now hsplit hnow hlives k
    rw [(hat hsplit).registry id now hnow hlives, horder, ← List.cons_append,
      hheld after (m :: before) hsplit]
  · intro after k ends before now hsplit hnow hlives
    obtain ⟨pass, outer, now', hpass, hkey, hnow', hecho, happlied⟩ := (hat hsplit).event
    obtain rfl := Option.some.inj (hnow'.symm.trans hnow)
    refine ⟨pass, outer, hpass, hkey, hecho, ?_⟩
    rw [happlied hlives, horder,
      hheld (after ++ [⟨.passEnded id k, ends⟩]) before (by simp [hsplit])]
  · intro after k ran' ends before hsplit
    have hinner : trace = (later ++ ⟨.frameEnded id key ran, ended⟩ :: after) ++
        ⟨.frameEnded id k ran', ends⟩ :: (before ++ ⟨.frameBegan id key origin, views⟩ :: past) := by
      simp [htrace, hsplit]
    exact (hlawful _ _ _ hinner).shape id k ran' rfl
  · have hclosed := (hfair _ _ _ htrace).event
    rw [Event.Fair, hinner] at hclosed
    simpa using hclosed
  · intro after b value applied before hsplit
    obtain ⟨pass, outer, now, hpass, hkey, hnow, -, hvalue⟩ := (hat hsplit).event
    exact ⟨pass, outer, now, hpass, hkey, hnow, hvalue, exists_effect hfair htrace rfl hsplit⟩
  · intro now hnow hlives k
    have hclosed : openFrames id (⟨.frameEnded id key ran, ended⟩ ::
        (inside ++ ⟨.frameBegan id key origin, views⟩ :: past)) = [] := by
      rw [openFrames_frameEnded _ rfl, hinner]
      rfl
    rw [(hfair _ _ _ htrace).registry id now hnow hlives, held_of_openFrames_eq_nil hclosed,
      registrations_cons _ rfl, registrations_append, registrations_cons past rfl,
      List.filter_append, horder]

/-- In every run, an outermost notification ends after a pass with watchers at least, and applies in
its passes, at any depth, the bindings that were registered under their keys when it began; each is
handed what the store has at that time. When it ends, what was registered meanwhile stands behind
what its key had. -/
theorem runAll_fanOut (doc : Document) (behaviour : Behaviour) (depth : Nat) (steps : List Step)
    {id : ViewId} {key : String} {origin : Option NodeId} {views : Array View}
    {rest past : List Moment}
    (htrace : ((ofDocument doc).runAll behaviour depth steps).trace =
      rest ++ ⟨.frameBegan id key origin, views⟩ :: past)
    (houtermost : openFrames id past = []) :
    ∃ view later ran ended inside, views[id]? = some view ∧
      rest = later ++ ⟨.frameEnded id key ran, ended⟩ :: inside ∧ Unended id key inside ∧
      FrameShape (passesOf id key (inside ++ ⟨.frameBegan id key origin, views⟩ :: past)) ∧
      FansOut id view inside (⟨.frameBegan id key origin, views⟩ :: past) ∧
      ∀ now, ended[id]? = some now → now.disposed = false → ∀ k, now.registry.watchers k =
        view.registry.watchers k ++ (registrations id inside).filter fun b => b.key == k := by
  obtain ⟨hsound, -⟩ := sound_runAll doc behaviour depth steps
  have hrecorded := recorded_runAll doc behaviour depth steps
  generalize (ofDocument doc).runAll behaviour depth steps = w at *
  have hopen : openFrames id (⟨.frameBegan id key origin, views⟩ :: past) = [key] := by
    rw [openFrames_frameBegan _ rfl, houtermost]
  have hends : ¬Unended id key rest := by
    intro hunended
    have hwhole : w.trace = [] ++ (rest ++ ⟨.frameBegan id key origin, views⟩ :: past) := htrace
    obtain ⟨inner, hinner, -⟩ :=
      openFrames_inside hsound.booked.lawful hrecorded.fair hwhole hopen hunended
    rw [← htrace, (hrecorded.views id).stack] at hinner
    simp [keysIn] at hinner
  obtain ⟨later, ran, ended, inside, rfl, hunended⟩ := exists_frameEnded hends
  have hends' : w.trace = later ++ ⟨.frameEnded id key ran, ended⟩ ::
      (inside ++ ⟨.frameBegan id key origin, views⟩ :: past) := by simpa using htrace
  obtain ⟨view, hview, hfans, hended⟩ :=
    fansOut_of_fair hsound.booked.lawful hrecorded.fair hends' houtermost hunended
  have hshape := (hsound.booked.lawful _ _ _ hends').shape id key ran rfl
  exact ⟨view, later, ran, ended, inside, hview, rfl, hunended, hshape, hfans, hended⟩

/-- Callbacks that on their first call register another watcher for the same key, set a second key,
and notify the first again. -/
def registering : Behaviour := fun script calls _ =>
  if script = 0 ∧ calls = 0 then
    [.watch 0 "name" 1, .set 0 "count" .increment, .notify 0 "name"]
  else []

/-- The user puts a name into a form whose name is watched by such a callback. -/
def registeringForm : World :=
  (ofDocument greetingForm).runAll registering 9
    [.mount { target := .node Document.root } {}, .watch 0 "name" 0, .dispatch 3 "Ada"]

/-- The notification that an event begins, with the input whose change it answers. -/
def begun? : Event → Option (ViewId × String × Option NodeId)
  | .frameBegan view key origin => some (view, key, origin)
  | _ => none

private theorem eq_frameBegan_of_begun? {e : Event} {id : ViewId} {key : String}
    {origin : Option NodeId} (h : begun? e = some (id, key, origin)) :
    e = .frameBegan id key origin := by
  cases e with
  | frameBegan view k o =>
    simp only [begun?, Option.some.injEq, Prod.mk.injEq] at h
    obtain ⟨rfl, rfl, rfl⟩ := h
    rfl
  | _ => cases h

theorem registeringForm_fansOut :
    ∃ rest past views,
      registeringForm.trace = rest ++ ⟨.frameBegan 0 "name" (some 3), views⟩ :: past ∧
      openFrames 0 past = [] ∧
      ∃ view later ran ended inside, views[0]? = some view ∧
        rest = later ++ ⟨.frameEnded 0 "name" ran, ended⟩ :: inside ∧ Unended 0 "name" inside ∧
        FrameShape
          (passesOf 0 "name" (inside ++ ⟨.frameBegan 0 "name" (some 3), views⟩ :: past)) ∧
        FansOut 0 view inside (⟨.frameBegan 0 "name" (some 3), views⟩ :: past) ∧
        ∀ now, ended[0]? = some now → now.disposed = false → ∀ k, now.registry.watchers k =
          view.registry.watchers k ++ (registrations 0 inside).filter fun b => b.key == k := by
  have hbegun : ((registeringForm.trace.drop 28).head?.bind fun m => begun? m.event) =
      some (0, "name", some 3) := by decide +kernel
  have houtermost : openFrames 0 (registeringForm.trace.drop 28).tail = [] := by decide +kernel
  cases hdrop : registeringForm.trace.drop 28 with
  | nil => simp [hdrop] at hbegun
  | cons m past =>
    rw [hdrop] at hbegun houtermost
    have hm : m = ⟨.frameBegan 0 "name" (some 3), m.views⟩ := by
      rw [← eq_frameBegan_of_begun? hbegun]
    have htrace : registeringForm.trace =
        registeringForm.trace.take 28 ++ ⟨.frameBegan 0 "name" (some 3), m.views⟩ :: past := by
      rw [← hm, ← hdrop, List.take_append_drop]
    exact ⟨_, past, m.views, htrace, houtermost,
      runAll_fanOut greetingForm registering 9 _ htrace houtermost⟩

end World
end ViewBinding
