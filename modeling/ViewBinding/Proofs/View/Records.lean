import Mathlib
import ViewBinding.Proofs.View.Acts
import ViewBinding.Proofs.View.Registrations

/-!
# What the registries record

A pass with watchers applies the bindings that its key had when the outermost notification in
progress began; what is registered meanwhile joins the registry when that notification ends.
`World.Recorded` says how the registries, the passes in progress and the trace fit together between
two acts, and each act keeps it (`Recorded.act`). So every moment of a run is fair
(`recorded_runAll`).
-/

namespace ViewBinding

open Trace

/-- The keys of the notifications of a view model. -/
def keysIn (id : ViewId) : List Frame → List String
  | [] => []
  | f :: frames => if f.view = id then f.key :: keysIn id frames else keysIn id frames

/-- The passes of a view model with their keys. -/
def passesIn (id : ViewId) : List Frame → List (String × Pass)
  | [] => []
  | f :: frames =>
    match f.pass with
    | some pass => if f.view = id then (f.key, pass) :: passesIn id frames else passesIn id frames
    | none => passesIn id frames

/-- The input that the pass of a notification, or its next one, leaves out. -/
def Frame.spared (f : Frame) : Option NodeId :=
  match f.pass with
  | some pass => pass.origin
  | none => f.origin

/-- A pass in progress is the one that the trace tells: what was applied and what is still to come
are together what it must apply. -/
structure OpenPass.Matches (v : View) (o : OpenPass) (p : String × Pass) : Prop where
  key : o.key = p.1
  origin : o.origin = p.2.origin
  viewOnly : o.viewOnly = p.2.viewOnly
  applied : v.disposed = false → o.applied ++ p.2.todo.filter (Binding.isMet p.2.origin p.2.viewOnly) =
    (v.registry.watchers p.1).filter (Binding.isMet p.2.origin p.2.viewOnly)

/-- A view model fits the notifications in progress and the trace. -/
structure View.Records (v : View) (id : ViewId) (frames : List Frame) (trace : List Moment) :
    Prop where
  stack : openFrames id trace = keysIn id frames
  running : v.passes = (passesIn id frames).length
  passes : List.Forall₂ (OpenPass.Matches v) (openPasses id trace) (passesIn id frames)
  registry : v.disposed = false →
    ∀ key, v.registry.watchers key = (held id trace).filter fun b => b.key == key
  deferred : v.disposed = false → registrations id trace = held id trace ++ v.deferred
  cleared : v.disposed = true → openFrames id trace = [] → v.registry = .empty

/-- What holds of registrations and passes when something happens, for what has happened before. -/
def Event.Fair (e : Event) (views : Array View) (past : List Moment) : Prop :=
  match e with
  | .frameBegan id _ _ => ∃ view, views[id]? = some view ∧ view.disposed = false
  -- Every pass that has begun in the notification has ended.
  | .frameEnded id _ _ => (openFrames id past).length = (openPasses id past).length + 1
  | .applied id b value => ∃ pass outer view, openPasses id past = pass :: outer ∧
      b.key = pass.key ∧ views[id]? = some view ∧ view.disposed = false ∧
        value = view.store.get? b.key
  -- The bindings of the key that were held have been applied in order, apart from those left out.
  | .passEnded id key => ∃ pass outer view, openPasses id past = pass :: outer ∧ pass.key = key ∧
      views[id]? = some view ∧ (pass.origin.isSome = true → view.settings.echo = false) ∧
        (view.disposed = false → pass.applied =
          ((held id past).filter fun b => b.key == key).filter
            (Binding.isMet pass.origin pass.viewOnly))
  -- A watcher is called when it is applied by a view model, or by a step to which it belongs.
  | .called callback (.watched value) => ∃ cause ∈ past.head?, ∃ key,
      cause.event = .tried (.watch key callback) value ∨
        ∃ id, cause.event = .applied id (.watch key callback) value
  | _ => True

/-- What holds at a moment of registrations and passes, for what has happened before. -/
structure Moment.Fair (m : Moment) (past : List Moment) : Prop where
  registry : ∀ (id : ViewId) (view : View), m.views[id]? = some view → view.disposed = false →
    ∀ key, view.registry.watchers key = (held id (m :: past)).filter fun b => b.key == key
  cleared : ∀ (id : ViewId) (view : View), m.views[id]? = some view → view.disposed = true →
    openFrames id (m :: past) = [] → view.registry = .empty
  event : m.event.Fair m.views past
  effect : ∀ before ∈ past.head?, ∀ id b value, before.event = .applied id b value →
    b.Effect value m.event

private theorem Event.Plain.fair {e : Event} (he : e.Plain) (hwatch : ¬e.IsWatch)
    (views : Array View) (past : List Moment) : e.Fair views past := by
  cases e with
  | called callback notice =>
    cases notice with
    | watched value => exact absurd trivial hwatch
    | changed text => trivial
  | _ => trivial

theorem Binding.Effect.plain {b : Binding} {value : Option Value} {e : Event}
    (h : b.Effect value e) : e.Plain := by
  cases b with
  | watch key callback => rcases h with rfl | rfl <;> trivial
  | interpolation | text | model =>
    obtain ⟨change, -, rfl⟩ := h
    trivial

private theorem Binding.Effect.fair {b : Binding} {value : Option Value} {e : Event}
    (h : b.Effect value e) {cause : Moment}
    (hcause : cause.event = .tried b value ∨ ∃ id, cause.event = .applied id b value)
    (views : Array View) (past : List Moment) : e.Fair views (cause :: past) := by
  cases b with
  | watch key callback =>
    rcases h with rfl | rfl
    · exact ⟨cause, rfl, key, hcause⟩
    · trivial
  | interpolation | text | model =>
    obtain ⟨change, -, rfl⟩ := h
    trivial

/-- Every moment of a trace is fair. -/
def Trace.FairTrace (trace : List Moment) : Prop :=
  ∀ later m past, trace = later ++ m :: past → m.Fair past

namespace World

/-- Between two acts, the registries and the passes in progress are what the trace tells. -/
structure Recorded (w : World) (frames : List Frame) : Prop where
  views : ∀ id, (w.view id).Records id frames w.trace
  nested : ∀ f ∈ frames.tail, f.pass.isSome = true
  next : ∀ f ∈ frames.head?, f.pass = none → f.origin = leftOut w.trace
  echo : ∀ f ∈ frames, f.spared.isSome = true → (w.view f.view).settings.echo = false
  known : ∀ f ∈ frames, f.view < w.views.size
  fresh : ∀ id, w.views.size ≤ id → registrations id w.trace = []
  effected : ∀ m ∈ w.trace.head?, ∀ id b value, m.event ≠ .applied id b value
  fair : FairTrace w.trace

end World

/-! ## Notifications in progress -/

variable {id : ViewId} {frames : List Frame} {f : Frame}

private theorem keysIn_cons_self (h : f.view = id) : keysIn id (f :: frames) = f.key ::
    keysIn id frames :=
  if_pos h

private theorem keysIn_cons_of_ne (h : f.view ≠ id) : keysIn id (f :: frames) = keysIn id frames :=
  if_neg h

private theorem passesIn_cons_self {pass : Pass} (hpass : f.pass = some pass) (h : f.view = id) :
    passesIn id (f :: frames) = (f.key, pass) :: passesIn id frames := by
  rw [passesIn, hpass]
  exact if_pos h

@[simp] theorem keysIn_mk (key : String) (origin : Option NodeId) (pass : Option Pass) :
    keysIn id (⟨id, key, origin, pass⟩ :: frames) = key :: keysIn id frames := if_pos rfl

@[simp] theorem passesIn_mk_some (key : String) (origin : Option NodeId) (pass : Pass) :
    passesIn id (⟨id, key, origin, some pass⟩ :: frames) = (key, pass) :: passesIn id frames :=
  if_pos rfl

@[simp] theorem passesIn_mk_none (key : String) (origin : Option NodeId) :
    passesIn id (⟨id, key, origin, none⟩ :: frames) = passesIn id frames := rfl

private theorem passesIn_cons_of_ne (h : f.view ≠ id) : passesIn id
    (f :: frames) = passesIn id frames := by
  rw [passesIn]
  split
  · exact if_neg h
  · rfl

private theorem passesIn_mk_of_ne {other : ViewId} (h : other ≠ id) (key : String)
    (origin origin' : Option NodeId) (pass pass' : Option Pass) :
    passesIn other (⟨id, key, origin, pass⟩ :: frames) =
      passesIn other (⟨id, key, origin', pass'⟩ :: frames) := by
  rw [passesIn_cons_of_ne (Ne.symm h), passesIn_cons_of_ne (Ne.symm h)]

private theorem length_passesIn (h : ∀ f ∈ frames, f.pass.isSome = true) :
    (passesIn id frames).length = (keysIn id frames).length := by
  induction frames with
  | nil => rfl
  | cons f frames ih =>
    obtain ⟨hf, hframes⟩ := List.forall_mem_cons.mp h
    obtain ⟨pass, hpass⟩ := Option.isSome_iff_exists.mp hf
    by_cases hid : f.view = id
    · rw [passesIn_cons_self hpass hid, keysIn_cons_self hid, List.length_cons, List.length_cons,
        ih hframes]
    · rw [passesIn_cons_of_ne hid, keysIn_cons_of_ne hid, ih hframes]

theorem keysIn_eq_nil (h : ∀ f ∈ frames, f.view ≠ id) : keysIn id frames = [] := by
  induction frames with
  | nil => rfl
  | cons f frames ih =>
    obtain ⟨hf, hframes⟩ := List.forall_mem_cons.mp h
    rw [keysIn_cons_of_ne hf, ih hframes]

theorem passesIn_eq_nil (h : ∀ f ∈ frames, f.view ≠ id) : passesIn id frames = [] := by
  induction frames with
  | nil => rfl
  | cons f frames ih =>
    obtain ⟨hf, hframes⟩ := List.forall_mem_cons.mp h
    rw [passesIn_cons_of_ne hf, ih hframes]

/-! ## View models -/

private theorem OpenPass.Matches.congr {v v' : View} {o : OpenPass} {p : String × Pass}
    (h : o.Matches v p) (hdisposed : v'.disposed = v.disposed)
    (hregistry : v'.registry = v.registry) :
    o.Matches v' p := by
  refine ⟨h.key, h.origin, h.viewOnly, fun hd => ?_⟩
  rw [hregistry]
  exact h.applied (hdisposed ▸ hd)

namespace View.Records

variable {v v' : View} {frames' : List Frame} {trace : List Moment} {m : Moment}

private theorem other (h : v.Records id frames trace) (hm : m.event.subject? ≠ some id)
    (hkeys : keysIn id frames' = keysIn id frames)
    (hpasses : passesIn id frames' = passesIn id frames) : v.Records id frames' (m :: trace) where
  stack := by rw [openFrames_of_subject?_ne trace hm, hkeys, h.stack]
  running := by rw [hpasses, h.running]
  passes := by
    rw [openPasses_of_subject?_ne trace hm, hpasses]
    exact h.passes
  registry := by
    rw [held_of_subject?_ne trace hm]
    exact h.registry
  deferred := by
    rw [held_of_subject?_ne trace hm, registrations_of_subject?_ne trace hm]
    exact h.deferred
  cleared := by
    rw [openFrames_of_subject?_ne trace hm]
    exact h.cleared

private theorem cons (h : v.Records id frames trace) (hm : m.event.subject? ≠ some id) :
    v.Records id frames (m :: trace) :=
  h.other hm rfl rfl

private theorem congr (h : v.Records id frames trace) (hpasses : v'.passes = v.passes)
    (hdisposed : v'.disposed = v.disposed) (hregistry : v'.registry = v.registry)
    (hdeferred : v'.deferred = v.deferred) : v'.Records id frames trace where
  stack := h.stack
  running := by rw [hpasses, h.running]
  passes := h.passes.imp fun _ _ hop => hop.congr hdisposed hregistry
  registry := by
    rw [hdisposed, hregistry]
    exact h.registry
  deferred := by
    rw [hdisposed, hdeferred]
    exact h.deferred
  cleared := by
    rw [hdisposed, hregistry]
    exact h.cleared

theorem openFrames_eq_nil_iff (h : v.Records id frames trace)
    (hbusy : ∀ f ∈ frames, f.pass.isSome = true) : openFrames id trace = [] ↔ v.passes = 0 := by
  rw [h.stack, h.running, length_passesIn hbusy, List.length_eq_zero_iff]

private theorem dispose (h : v.Records id frames trace)
    (hbusy : ∀ f ∈ frames, f.pass.isSome = true) : v.dispose.Records id frames trace where
  stack := h.stack
  running := h.running
  passes := h.passes.imp fun _ _ hop => ⟨hop.key, hop.origin, hop.viewOnly, (nomatch ·)⟩
  registry := (nomatch ·)
  deferred := (nomatch ·)
  cleared := fun _ hopen => if_pos ((h.openFrames_eq_nil_iff hbusy).mp hopen)

private theorem register (h : v.Records id frames trace)
    (hbusy : ∀ f ∈ frames, f.pass.isSome = true) (halive : v.disposed = false) {b : Binding}
    (hm : m.event = .registered id b) :
    (v.register b).Records id frames (m :: trace) := by
  have hopen : openFrames id (m :: trace) = openFrames id trace := by rw [openFrames, hm]
  have hpasses : openPasses id (m :: trace) = openPasses id trace := by rw [openPasses, hm]
  have hregistered : registrations id (m :: trace) = registrations id trace ++ [b] := by
    rw [registrations, hm, Event.added, if_pos rfl]
  by_cases hidle : v.passes = 0
  · have hnil := (h.openFrames_eq_nil_iff hbusy).mpr hidle
    have hheld : held id (m :: trace) = held id trace ++ [b] := by
      rw [held_of_openFrames_eq_nil (hopen.trans hnil), hregistered, held_of_openFrames_eq_nil hnil]
    have hnone : passesIn id frames = [] := List.length_eq_zero_iff.mp (h.running.symm.trans hidle)
    rw [View.register, if_pos hidle]
    refine ⟨hopen.trans h.stack, h.running, ?_, fun hd key => ?_, fun hd => ?_,
      fun hd => absurd (hd.symm.trans halive) (by decide)⟩
    · have hmatched := h.passes
      rw [hnone] at hmatched ⊢
      rw [hpasses, List.forall₂_nil_right_iff.mp hmatched]
      exact .nil
    · rw [hheld, List.filter_append, ← h.registry hd]
      by_cases hkey : b.key = key
      · subst hkey
        simp
      · rw [Registry.watchers_add_of_ne _ (Ne.symm hkey)]
        simp [hkey]
    · have hdeferred := h.deferred hd
      rw [held_of_openFrames_eq_nil hnil, List.self_eq_append_right] at hdeferred
      rw [hheld, hregistered, held_of_openFrames_eq_nil hnil]
      simp [hdeferred]
  · have hne : openFrames id (m :: trace) ≠ [] := by
      rw [hopen, ne_eq, h.openFrames_eq_nil_iff hbusy]
      exact hidle
    rw [View.register, if_neg hidle]
    refine ⟨hopen.trans h.stack, h.running, ?_, fun hd => ?_, fun hd => ?_,
      fun hd => absurd (hd.symm.trans halive) (by decide)⟩
    · rw [hpasses]
      exact h.passes.imp fun o p hop => ⟨hop.key, hop.origin, hop.viewOnly, hop.applied⟩
    · rw [held_cons_of_openFrames_ne_nil hne]
      exact h.registry hd
    · rw [held_cons_of_openFrames_ne_nil hne, hregistered, h.deferred hd, List.append_assoc]

end View.Records

/-! ## Notifications and passes of a view model -/

namespace View.Records

variable {v v' : View} {frames' : List Frame} {trace : List Moment} {m : Moment} {key : String}
  {origin : Option NodeId} {viewOnly : Bool} {b : Binding} {rest : List Binding}

private theorem within (h : v.Records id frames trace) (hadded : m.event.added id = [])
    (hopen : openFrames id (m :: trace) ≠ []) (hdisposed : v'.disposed = v.disposed)
    (hregistry : v'.registry = v.registry) (hdeferred : v'.deferred = v.deferred)
    (hstack : openFrames id (m :: trace) = keysIn id frames')
    (hrunning : v'.passes = (passesIn id frames').length)
    (hpasses : List.Forall₂ (OpenPass.Matches v) (openPasses id (m :: trace))
      (passesIn id frames')) : v'.Records id frames' (m :: trace) where
  stack := hstack
  running := hrunning
  passes := hpasses.imp fun _ _ hop => hop.congr hdisposed hregistry
  registry := by
    rw [hdisposed, hregistry, held_cons_of_openFrames_ne_nil hopen]
    exact h.registry
  deferred := by
    rw [hdisposed, hdeferred, held_cons_of_openFrames_ne_nil hopen, registrations_cons trace hadded]
    exact h.deferred
  cleared := fun _ hnil => absurd hnil hopen

private theorem beginFrame (h : v.Records id frames trace)
    (hm : m.event = .frameBegan id key origin) :
    View.Records { v with inFlight := key :: v.inFlight } id (⟨id, key, origin, none⟩ :: frames)
      (m :: trace) := by
  have hopen := openFrames_frameBegan trace hm
  have hne : openFrames id (m :: trace) ≠ [] := by simp [hopen]
  refine h.within (by rw [hm]; rfl) hne rfl rfl rfl ?_ h.running ?_
  · rw [hopen, keysIn_mk, h.stack]
  · rw [openPasses, hm]
    exact h.passes

private theorem beginPass (h : v.Records id (⟨id, key, origin, none⟩ :: frames) trace)
    (horigin : origin = leftOut trace) (hm : m.event = .passBegan id key viewOnly) :
    View.Records { v with passes := v.passes + 1 } id
      (⟨id, key, none, some ⟨origin, viewOnly, v.registry.watchers key⟩⟩ :: frames)
      (m :: trace) := by
  have hopen : openFrames id (m :: trace) = key :: keysIn id frames := by
    rw [openFrames, hm, h.stack, keysIn_mk]
  have hne : openFrames id (m :: trace) ≠ [] := by simp [hopen]
  refine h.within (by rw [hm]; rfl) hne rfl rfl rfl ?_ ?_ ?_
  · rw [hopen, keysIn_mk]
  · rw [passesIn_mk_some, List.length_cons, h.running, passesIn_mk_none]
  · rw [openPasses, hm, passesIn_mk_some]
    simp only [if_pos]
    exact .cons ⟨rfl, horigin.symm, rfl, fun _ => rfl⟩ h.passes

private theorem exists_openPass {pass : Pass}
    (h : v.Records id (⟨id, key, origin, some pass⟩ :: frames) trace) :
    ∃ o outer, openPasses id trace = o :: outer ∧ o.Matches v (key, pass) ∧
      List.Forall₂ (OpenPass.Matches v) outer (passesIn id frames) := by
  have hmatched := h.passes
  rw [passesIn_mk_some] at hmatched
  cases hall : openPasses id trace with
  | nil =>
    rw [hall] at hmatched
    cases hmatched
  | cons o outer =>
    rw [hall] at hmatched
    obtain ⟨ho, houter⟩ := List.forall₂_cons.mp hmatched
    exact ⟨o, outer, rfl, ho, houter⟩

private theorem running_of_inPass {pass pass' : Pass}
    (h : v.Records id (⟨id, key, origin, some pass⟩ :: frames) trace) :
    v.passes = (passesIn id (⟨id, key, origin, some pass'⟩ :: frames)).length := by
  rw [h.running, passesIn_mk_some, passesIn_mk_some, List.length_cons, List.length_cons]

private theorem key_of_mem_todo {pass : Pass}
    (h : v.Records id (⟨id, key, origin, some pass⟩ :: frames) trace) (halive : v.disposed = false)
    (hb : b ∈ pass.todo) (hmet : b.isMet pass.origin pass.viewOnly = true) : b.key = key := by
  obtain ⟨o, outer, -, ho, -⟩ := h.exists_openPass
  have hmem : b ∈ o.applied ++ pass.todo.filter (Binding.isMet pass.origin pass.viewOnly) :=
    List.mem_append_right _ (List.mem_filter.mpr ⟨hb, hmet⟩)
  rw [ho.applied halive, h.registry halive] at hmem
  simpa using (List.mem_filter.mp (List.mem_filter.mp hmem).1).2

private theorem skip
    (h : v.Records id (⟨id, key, none, some ⟨origin, viewOnly, b :: rest⟩⟩ :: frames) trace)
    (hskip : v.disposed = false → b.isMet origin viewOnly = false) :
    v.Records id (⟨id, key, none, some ⟨origin, viewOnly, rest⟩⟩ :: frames) trace := by
  obtain ⟨o, outer, hall, ho, houter⟩ := h.exists_openPass
  refine ⟨h.stack, h.running_of_inPass, ?_, h.registry, h.deferred, h.cleared⟩
  rw [hall, passesIn_mk_some]
  refine .cons ⟨ho.key, ho.origin, ho.viewOnly, fun hd => ?_⟩ houter
  rw [← ho.applied hd, List.filter_cons_of_neg (by simp [hskip hd])]

private theorem apply
    (h : v.Records id (⟨id, key, none, some ⟨origin, viewOnly, b :: rest⟩⟩ :: frames) trace)
    (hmet : b.isMet origin viewOnly = true) {value : Option Value}
    (hm : m.event = .applied id b value) :
    v.Records id (⟨id, key, none, some ⟨origin, viewOnly, rest⟩⟩ :: frames) (m :: trace) := by
  obtain ⟨o, outer, hall, ho, houter⟩ := h.exists_openPass
  have hopen : openFrames id (m :: trace) = key :: keysIn id frames := by
    rw [openFrames, hm, h.stack, keysIn_mk]
  have hne : openFrames id (m :: trace) ≠ [] := by simp [hopen]
  refine h.within (by rw [hm]; rfl) hne rfl rfl rfl ?_ h.running_of_inPass ?_
  · rw [hopen, keysIn_mk]
  · rw [openPasses, hm, passesIn_mk_some]
    simp only [if_pos, hall]
    refine .cons ⟨ho.key, ho.origin, ho.viewOnly, fun hd => ?_⟩ houter
    rw [← ho.applied hd, List.filter_cons_of_pos hmet, List.append_assoc, List.singleton_append]

private theorem endPass {pass : Pass}
    (h : v.Records id (⟨id, key, none, some pass⟩ :: frames) trace)
    (hm : m.event = .passEnded id key) :
    View.Records { v with passes := v.passes - 1 } id (⟨id, key, none, none⟩ :: frames)
      (m :: trace) := by
  obtain ⟨o, outer, hall, -, houter⟩ := h.exists_openPass
  have hopen : openFrames id (m :: trace) = key :: keysIn id frames := by
    rw [openFrames, hm, h.stack, keysIn_mk]
  have hne : openFrames id (m :: trace) ≠ [] := by simp [hopen]
  refine h.within (by rw [hm]; rfl) hne rfl rfl rfl ?_ ?_ ?_
  · rw [hopen, keysIn_mk]
  · rw [h.running, passesIn_mk_some, passesIn_mk_none, List.length_cons, Nat.add_sub_cancel]
  · rw [openPasses, hm, passesIn_mk_none]
    simp only [if_pos, hall]
    exact houter

private theorem endFrame (h : v.Records id (⟨id, key, none, none⟩ :: frames) trace)
    (hbusy : ∀ f ∈ frames, f.pass.isSome = true) {ran : Nat}
    (hm : m.event = .frameEnded id key ran) :
    View.Records { v with inFlight := v.inFlight.tail }.settle id frames (m :: trace) := by
  have hadded : m.event.added id = [] := by
    rw [hm]
    rfl
  have hopen : openFrames id (m :: trace) = keysIn id frames := by
    rw [openFrames_frameEnded trace hm, h.stack, keysIn_mk]
    rfl
  have hpasses : openPasses id (m :: trace) = openPasses id trace := by rw [openPasses, hm]
  have hrunning := h.running
  have hmatched := h.passes
  rw [passesIn_mk_none] at hrunning hmatched
  by_cases hidle : v.passes = 0
  · have hnil : openFrames id (m :: trace) = [] := by
      rw [hopen, ← List.length_eq_zero_iff, ← length_passesIn hbusy, ← hrunning, hidle]
    have hheld : held id (m :: trace) = registrations id trace := by
      rw [held_of_openFrames_eq_nil hnil, registrations_cons trace hadded]
    by_cases hdisposed : v.disposed = true
    · have hnot : v.disposed ≠ false := by simp [hdisposed]
      rw [View.settle, if_neg (not_not_intro hidle), if_pos hdisposed]
      refine ⟨hopen, hrunning, ?_, fun hd => absurd hd hnot, fun hd => absurd hd hnot,
        fun _ _ => rfl⟩
      rw [hpasses]
      exact hmatched.imp fun _ _ hop =>
        ⟨hop.key, hop.origin, hop.viewOnly, fun hd => absurd hd hnot⟩
    · have hnone : passesIn id frames = [] :=
        List.length_eq_zero_iff.mp (hrunning.symm.trans hidle)
      rw [View.settle, if_neg (not_not_intro hidle), if_neg hdisposed]
      rw [Bool.not_eq_true] at hdisposed
      refine ⟨hopen, hrunning, ?_, fun _ k => ?_, fun _ => ?_,
        fun hd => absurd (hd.symm.trans hdisposed) (by decide)⟩
      · rw [hnone] at hmatched ⊢
        rw [hpasses, List.forall₂_nil_right_iff.mp hmatched]
        exact .nil
      · rw [hheld, h.deferred hdisposed, List.filter_append, ← h.registry hdisposed,
          Registry.watchers_addAll]
        simp [List.filter_map, Function.comp_def]
      · rw [hheld, registrations_cons trace hadded, List.append_nil]
  · have hne : openFrames id (m :: trace) ≠ [] := by
      rw [hopen, ne_eq, ← List.length_eq_zero_iff, ← length_passesIn hbusy, ← hrunning]
      exact hidle
    rw [View.settle, if_pos hidle]
    refine h.within hadded hne rfl rfl rfl hopen hrunning ?_
    rw [hpasses]
    exact hmatched

end View.Records

private theorem View.records_mounted (root : NodeId) (settings : Settings) (store : Store)
    (bindings : List Binding) {trace : List Moment} {m : Moment} (hnone : ∀ f ∈ frames, f.view ≠ id)
    (h : View.blank.Records id frames trace) (hfresh : registrations id trace = [])
    (hm : m.event = .mounted id bindings) :
    (View.mounted root settings store bindings).Records id frames (m :: trace) := by
  have hkeys := keysIn_eq_nil hnone
  have hpasses := passesIn_eq_nil hnone
  have hopen : openFrames id (m :: trace) = [] := by
    rw [openFrames, hm]
    exact h.stack.trans hkeys
  have hregistered : registrations id (m :: trace) = bindings := by
    rw [registrations, hm, hfresh, Event.added, if_pos rfl, List.nil_append]
  refine ⟨hopen.trans hkeys.symm, ?_, ?_, fun _ key => ?_, fun _ => ?_,
    fun hdisposed => absurd hdisposed Bool.false_ne_true⟩
  · rw [hpasses]
    rfl
  · have hmatched := h.passes
    rw [hpasses] at hmatched ⊢
    rw [openPasses, hm, List.forall₂_nil_right_iff.mp hmatched]
    exact .nil
  · rw [held_of_openFrames_eq_nil hopen, hregistered, View.mounted, Registry.watchers_addAll,
      Registry.watchers_empty, List.nil_append]
    simp [List.filter_map, Function.comp_def]
  · rw [held_of_openFrames_eq_nil hopen]
    exact (List.append_nil _).symm

private theorem Trace.FairTrace.cons {trace : List Moment} (h : FairTrace trace) {m : Moment}
    (hm : m.Fair trace) : FairTrace (m :: trace) := by
  intro later m' past heq
  cases later with
  | nil =>
    obtain ⟨rfl, rfl⟩ := List.cons.inj heq
    exact hm
  | cons first later => exact h later m' past (List.cons.inj heq).2

namespace World

variable {w after : World}

private theorem recorded_ofDocument (doc : Document) : (ofDocument doc).Recorded [] where
  views := fun id => by
    have hview : (ofDocument doc).view id = .blank := by simp [World.view, ofDocument]
    rw [hview]
    exact ⟨rfl, rfl, .nil, fun _ _ => rfl, fun _ => rfl, fun _ _ => rfl⟩
  nested := by simp
  next := by simp
  echo := by simp
  known := by simp
  fresh := fun _ _ => rfl
  effected := by simp [ofDocument]
  fair := fun later m past h => by simp [ofDocument] at h

/-- A moment is fair when the view models are recorded as they are then. -/
theorem fair_of_records {m : Moment} {past : List Moment} (hviews : m.views = w.views)
    (hrecords : ∀ id, (w.view id).Records id frames (m :: past))
    (hevent : m.event.Fair m.views past)
    (heffect : ∀ before ∈ past.head?, ∀ id b value, before.event = .applied id b value →
      b.Effect value m.event) : m.Fair past := by
  have hrecord : ∀ (id : ViewId) (view : View), m.views[id]? = some view →
      view.Records id frames (m :: past) := by
    intro id view hview
    rw [hviews] at hview
    exact view_of_getElem? hview ▸ hrecords id
  exact ⟨fun id view hview => (hrecord id view hview).registry,
    fun id view hview => (hrecord id view hview).cleared, hevent, heffect⟩

namespace Recorded

private theorem busy (h : w.Recorded frames) (hframes : Callable frames) :
    ∀ f ∈ frames, f.pass.isSome = true := by
  cases frames with
  | nil => simp
  | cons f frames => exact List.forall_mem_cons.mpr ⟨hframes f rfl, h.nested⟩

private theorem host (h : w.Recorded frames) (hviews : after.views = w.views)
    (htrace : after.trace = w.trace) : after.Recorded frames where
  views := fun id => by
    rw [view_congr hviews, htrace]
    exact h.views id
  nested := h.nested
  next := by
    rw [htrace]
    exact h.next
  echo := fun f hf => by
    rw [view_congr hviews]
    exact h.echo f hf
  known := fun f hf => by
    rw [hviews]
    exact h.known f hf
  fresh := by
    rw [hviews, htrace]
    exact h.fresh
  effected := by
    rw [htrace]
    exact h.effected
  fair := by
    rw [htrace]
    exact h.fair

private theorem unapplied (h : w.Recorded frames) (e : Event) :
    ∀ before ∈ w.trace.head?, ∀ id b value, before.event = .applied id b value →
      b.Effect value e :=
  fun before hbefore id b value he => absurd he (h.effected before hbefore id b value)

private theorem modifyView (h : w.Recorded frames) (id : ViewId) {f : View → View}
    (hsettings : ∀ v, (f v).settings = v.settings)
    (hf : ∀ v : View, v.Records id frames w.trace → (f v).Records id frames w.trace) :
    (w.modifyView id f).Recorded frames where
  views := fun other => by
    by_cases hother : other = id
    · subst hother
      exact view_modifyView_induction
        (motive := fun v v' => v.Records other frames w.trace → v'.Records other frames w.trace)
        w other (fun _ hv => hv) hf other (h.views other)
    · rw [view_modifyView_of_ne w hother]
      exact h.views other
  nested := h.nested
  next := h.next
  echo := fun g hg hspared => view_modifyView_induction
    (motive := fun v v' => v.settings.echo = false → v'.settings.echo = false) w id
    (fun _ hv => hv) (fun v hv => by rwa [hsettings]) g.view (h.echo g hg hspared)
  known := fun g hg => by
    rw [size_views_modifyView]
    exact h.known g hg
  fresh := by
    rw [size_views_modifyView]
    exact h.fresh
  effected := h.effected
  fair := h.fair

private theorem change (h : w.Recorded frames) (hframes : Callable frames) (id : ViewId)
    {f : View → View} (hf : View.Change f) : (w.modifyView id f).Recorded frames := by
  cases hf with
  | pins | store =>
    exact h.modifyView id (fun _ => rfl) fun v hv => hv.congr rfl rfl rfl rfl
  | dispose => exact h.modifyView id (fun _ => rfl) fun v hv => hv.dispose (h.busy hframes)

private theorem emit (h : w.Recorded frames) (hframes : Callable frames) {e : Event} (he : e.Plain)
    (hfair : e.Fair w.views w.trace) : (w.emit e).Recorded frames :=
  have hsubject : ∀ id, e.subject? ≠ some id := by simp [he.subject?]
  have hviews : ∀ id, (w.view id).Records id frames (⟨e, w.views⟩ :: w.trace) :=
    fun id => (h.views id).cons (hsubject id)
  { views := hviews
    nested := h.nested
    next := fun f hf hnone => absurd (hframes f hf) (by simp [hnone])
    echo := h.echo
    known := h.known
    fresh := fun id hid => by
      rw [World.emit, registrations_of_subject?_ne _ (hsubject id)]
      exact h.fresh id hid
    effected := fun m hm id b value happlied => by
      obtain rfl : ⟨e, w.views⟩ = m := Option.some.inj hm
      exact hsubject id (congrArg Event.subject? happlied)
    fair := h.fair.cons (fair_of_records rfl hviews hfair (h.unapplied e)) }

private theorem tried (h : w.Recorded frames) (hframes : Callable frames) {b : Binding}
    {value : Option Value} {e : Event} (heffect : b.Effect value e) (hviews : after.views = w.views)
    (htrace : after.trace = ⟨e, w.views⟩ :: ⟨.tried b value, w.views⟩ :: w.trace) :
    after.Recorded frames := by
  have htried := h.emit hframes (e := .tried b value) trivial trivial
  exact (htried.emit hframes heffect.plain (heffect.fair (Or.inl rfl) _ _)).host hviews htrace

private theorem fold (h : w.Recorded frames) (hframes : Callable frames) (id : ViewId)
    (key : String) :
    ((w.modifyView id (·.markDirty key)).emit (.folded id key)).Recorded frames := by
  refine (h.modifyView id (fun v => ?_) fun v hv => ?_).emit hframes trivial trivial
  all_goals
    obtain ⟨dirty, hmarked⟩ := v.markDirty_eq key
    rw [hmarked]
  exact hv.congr rfl rfl rfl rfl

private theorem concern (h : w.Recorded frames) (f : View → View) (e : Event) (frames' : List Frame)
    (hid : id < w.views.size) (hsubject : e.subject? = some id)
    (hsettings : ∀ v, (f v).settings = v.settings)
    (hrecords : (f (w.view id)).Records id frames' (⟨e, (w.modifyView id f).views⟩ :: w.trace))
    (hkeys : ∀ other ≠ id, keysIn other frames' = keysIn other frames)
    (hpasses : ∀ other ≠ id, passesIn other frames' = passesIn other frames)
    (hnested : ∀ g ∈ frames'.tail, g.pass.isSome = true)
    (hnext : ∀ g ∈ frames'.head?, g.pass = none →
      g.origin = leftOut ((w.modifyView id f).emit e).trace)
    (hecho : ∀ g ∈ frames', g.spared.isSome = true → (w.view g.view).settings.echo = false)
    (hknown : ∀ g ∈ frames', g.view < w.views.size)
    (happlied : ∀ id b value, e ≠ .applied id b value)
    (hevent : e.Fair (w.modifyView id f).views w.trace) :
    ((w.modifyView id f).emit e).Recorded frames' :=
  have hviews : ∀ other, ((w.modifyView id f).view other).Records other frames'
      (⟨e, (w.modifyView id f).views⟩ :: w.trace) := by
    intro other
    by_cases hother : other = id
    · subst hother
      rw [view_modifyView_self hid]
      exact hrecords
    · rw [view_modifyView_of_ne w hother]
      refine (h.views other).other ?_ (hkeys other hother) (hpasses other hother)
      rw [hsubject]
      exact fun he => hother (Option.some.inj he).symm
  { views := hviews
    nested := hnested
    next := hnext
    echo := fun g hg hspared => view_modifyView_induction
      (motive := fun v v' => v.settings.echo = false → v'.settings.echo = false) w id
      (fun _ hv => hv) (fun v hv => by rwa [hsettings]) g.view (hecho g hg hspared)
    known := fun g hg => by
      simpa [World.emit] using hknown g hg
    fresh := fun other hother => by
      have hsize : w.views.size ≤ other := by simpa [World.emit] using hother
      rw [World.emit, registrations_of_subject?_ne]
      · exact h.fresh other hsize
      · rw [hsubject]
        exact fun he => absurd (Option.some.inj he) (Nat.ne_of_lt (hid.trans_le hsize))
    effected := fun m hm i b value he => by
      obtain rfl : ⟨e, (w.modifyView id f).views⟩ = m := Option.some.inj hm
      exact happlied i b value he
    fair := h.fair.cons (fair_of_records rfl hviews hevent (h.unapplied e)) }

private theorem registered (h : w.Recorded frames) (hframes : Callable frames)
    (halive : w.isDisposed id = false) (b : Binding) :
    ((w.modifyView id (·.register b)).emit (.registered id b)).Recorded frames := by
  have hid := lt_size_of_isDisposed_eq_false halive
  refine h.concern _ _ frames hid rfl (fun v => ?_)
    ((h.views id).register (h.busy hframes) (by rwa [isDisposed_eq hid] at halive) rfl)
    (fun _ _ => rfl) (fun _ _ => rfl) h.nested
    (fun f hf hnone => absurd (hframes f hf) (by simp [hnone])) h.echo h.known (by simp) trivial
  obtain ⟨registry, deferred, h⟩ := v.register_eq b
  rw [h]

variable {key : String} {origin : Option NodeId} {viewOnly : Bool}

private theorem beginFrame (h : w.Recorded frames) (hframes : Callable frames)
    (halive : w.isDisposed id = false)
    (hecho : origin.isSome = true → (w.view id).settings.echo = false) :
    (w.beginFrame id key origin).Recorded (⟨id, key, origin, none⟩ :: frames) := by
  have hid := lt_size_of_isDisposed_eq_false halive
  refine h.concern (fun v => { v with inFlight := key :: v.inFlight }) (.frameBegan id key origin)
    (⟨id, key, origin, none⟩ :: frames) hid rfl (fun _ => rfl) ((h.views id).beginFrame rfl)
    (fun other hother => keysIn_cons_of_ne (Ne.symm hother))
    (fun other hother => passesIn_cons_of_ne (Ne.symm hother)) (h.busy hframes) ?_
    (List.forall_mem_cons.mpr ⟨hecho, h.echo⟩) (List.forall_mem_cons.mpr ⟨hid, h.known⟩)
    (by simp) ⟨_, getElem?_views (by simpa using hid), ?_⟩
  · rintro g ⟨⟩ -
    rfl
  · rw [view_modifyView_self hid, ← isDisposed_eq hid, halive]

private theorem beginPass (h : w.Recorded (⟨id, key, origin, none⟩ :: frames)) (viewOnly : Bool) :
    (w.beginPass id key viewOnly).Recorded
      (⟨id, key, none, some ⟨origin, viewOnly, w.watchers id key⟩⟩ :: frames) := by
  have hid : id < w.views.size := h.known _ List.mem_cons_self
  have horigin : origin = leftOut w.trace := h.next _ rfl rfl
  rw [watchers_eq hid]
  refine h.concern (fun v => { v with passes := v.passes + 1 }) (.passBegan id key viewOnly)
    (⟨id, key, none, some ⟨origin, viewOnly, (w.view id).registry.watchers key⟩⟩ :: frames) hid rfl
    (fun _ => rfl) ((h.views id).beginPass horigin rfl) (fun _ _ => rfl)
    (fun other hother => passesIn_mk_of_ne hother ..) h.nested (by rintro g ⟨⟩ ⟨⟩)
    (List.forall_mem_cons.mpr (List.forall_mem_cons.mp h.echo))
    (List.forall_mem_cons.mpr (List.forall_mem_cons.mp h.known)) (by simp) trivial

private theorem endPass (h : w.Recorded (⟨id, key, none, some ⟨origin, viewOnly, []⟩⟩ :: frames)) :
    (w.endPass id key).Recorded (⟨id, key, none, none⟩ :: frames) := by
  have hid : id < w.views.size := h.known _ List.mem_cons_self
  obtain ⟨hecho, hechoes⟩ := List.forall_mem_cons.mp h.echo
  refine h.concern (fun v => { v with passes := v.passes - 1 }) (.passEnded id key)
    (⟨id, key, none, none⟩ :: frames) hid rfl (fun _ => rfl) ((h.views id).endPass rfl)
    (fun _ _ => rfl) (fun other hother => passesIn_mk_of_ne hother ..) h.nested ?_
    (List.forall_mem_cons.mpr ⟨(nomatch ·), hechoes⟩)
    (List.forall_mem_cons.mpr (List.forall_mem_cons.mp h.known)) (by simp) ?_
  · rintro g ⟨⟩ -
    rfl
  · obtain ⟨o, outer, hall, ho, -⟩ := (h.views id).exists_openPass
    refine ⟨o, outer, _, hall, ho.key, getElem?_views (by simpa using hid), fun hsome => ?_,
      fun halive => ?_⟩
    all_goals rw [view_modifyView_self hid] at *
    · rw [ho.origin] at hsome
      exact hecho hsome
    · have happlied := ho.applied halive
      rw [List.filter_nil, List.append_nil, (h.views id).registry halive] at happlied
      rw [happlied, ho.origin, ho.viewOnly]

private theorem endFrame (h : w.Recorded (⟨id, key, none, none⟩ :: frames)) (ran : Nat) :
    (w.endFrame id key ran).Recorded frames := by
  have hid : id < w.views.size := h.known _ List.mem_cons_self
  refine h.concern (fun v => { v with inFlight := v.inFlight.tail }.settle)
    (.frameEnded id key ran) frames hid rfl (fun v => ?_) ((h.views id).endFrame h.nested rfl)
    (fun other hother => (keysIn_cons_of_ne (Ne.symm hother)).symm)
    (fun other hother => (passesIn_cons_of_ne (Ne.symm hother)).symm)
    (fun g hg => h.nested g (List.mem_of_mem_tail hg))
    (fun g hg hnone => absurd (h.nested g (List.mem_of_mem_head? hg)) (by simp [hnone]))
    (List.forall_mem_cons.mp h.echo).2 (List.forall_mem_cons.mp h.known).2 (by simp) ?_
  · obtain ⟨registry, deferred, h⟩ := View.settle_eq { v with inFlight := v.inFlight.tail }
    rw [h]
  · have hrecords := h.views id
    have hbusy : ∀ f ∈ frames, f.pass.isSome = true := h.nested
    rw [Event.Fair, hrecords.stack, hrecords.passes.length_eq, keysIn_mk, passesIn_mk_none,
      length_passesIn hbusy, List.length_cons]

private theorem skip {b : Binding} {rest : List Binding}
    (h : w.Recorded (⟨id, key, none, some ⟨origin, viewOnly, b :: rest⟩⟩ :: frames))
    (homits : w.omits id ⟨origin, viewOnly, b :: rest⟩ b = true) :
    w.Recorded (⟨id, key, none, some ⟨origin, viewOnly, rest⟩⟩ :: frames) where
  views := fun other => by
    by_cases hother : other = id
    · subst hother
      refine (h.views other).skip fun halive => ?_
      have hid : other < w.views.size := h.known _ List.mem_cons_self
      rw [omits, isDisposed_eq hid, halive, Bool.false_or] at homits
      rw [Binding.isMet, ← Bool.not_or, homits, Bool.not_true]
    · have hsame : passesIn other (⟨id, key, none, some ⟨origin, viewOnly, b :: rest⟩⟩ :: frames) =
          passesIn other (⟨id, key, none, some ⟨origin, viewOnly, rest⟩⟩ :: frames) :=
        passesIn_mk_of_ne hother ..
      have hrecords := h.views other
      exact ⟨hrecords.stack, hsame ▸ hrecords.running, hsame ▸ hrecords.passes, hrecords.registry,
        hrecords.deferred, hrecords.cleared⟩
  nested := h.nested
  next := by
    rintro g ⟨⟩ ⟨⟩
  echo := List.forall_mem_cons.mpr (List.forall_mem_cons.mp h.echo)
  known := List.forall_mem_cons.mpr (List.forall_mem_cons.mp h.known)
  fresh := h.fresh
  effected := h.effected
  fair := h.fair

private theorem apply {b : Binding} {rest : List Binding} {v : View} {e : Event}
    (h : w.Recorded (⟨id, key, none, some ⟨origin, viewOnly, b :: rest⟩⟩ :: frames))
    (homits : w.omits id ⟨origin, viewOnly, b :: rest⟩ b = false) (hview : w.views[id]? = some v)
    (heffect : b.Effect (v.store.get? key) e) (hafter : after.views = w.views)
    (htrace : after.trace =
      ⟨e, w.views⟩ :: ⟨.applied id b (v.store.get? key), w.views⟩ :: w.trace) :
    after.Recorded (⟨id, key, none, some ⟨origin, viewOnly, rest⟩⟩ :: frames) := by
  have hid : id < w.views.size := h.known _ List.mem_cons_self
  rw [omits, isDisposed_eq hid, view_of_getElem? hview, Bool.or_assoc, Bool.or_eq_false_iff]
    at homits
  obtain ⟨halive, hmeets⟩ := homits
  have hmet : b.isMet origin viewOnly = true := by
    rw [Binding.isMet, ← Bool.not_or, hmeets, Bool.not_false]
  have happly : ∀ other, (w.view other).Records other
      (⟨id, key, none, some ⟨origin, viewOnly, rest⟩⟩ :: frames)
      (⟨.applied id b (v.store.get? key), w.views⟩ :: w.trace) := by
    intro other
    by_cases hother : other = id
    · subst hother
      exact (h.views other).apply hmet rfl
    · exact (h.views other).other (fun he => hother (Option.some.inj he).symm) rfl
        (passesIn_mk_of_ne hother ..)
  have hsubject : ∀ other, e.subject? ≠ some other := by simp [heffect.plain.subject?]
  have hviews := fun other => (happly other).cons (m := ⟨e, w.views⟩) (hsubject other)
  have hfirst : Moment.Fair ⟨.applied id b (v.store.get? key), w.views⟩ w.trace := by
    refine fair_of_records rfl happly ?_ (h.unapplied _)
    obtain ⟨o, outer, hall, ho, -⟩ := (h.views id).exists_openPass
    have hkey : b.key = key := (h.views id).key_of_mem_todo (by rwa [view_of_getElem? hview])
      List.mem_cons_self hmet
    exact ⟨o, outer, v, hall, hkey.trans ho.key.symm, hview, halive, by rw [hkey]⟩
  have hsecond : Moment.Fair ⟨e, w.views⟩
      (⟨.applied id b (v.store.get? key), w.views⟩ :: w.trace) := by
    refine fair_of_records rfl hviews (heffect.fair (Or.inr ⟨id, rfl⟩) _ _) ?_
    rintro before ⟨⟩ i b' value ⟨⟩
    exact heffect
  refine ⟨fun other => ?_, h.nested, by rintro g ⟨⟩ ⟨⟩, ?_, ?_, ?_, ?_, ?_⟩
  · rw [view_congr hafter, htrace]
    exact hviews other
  · simp only [view_congr hafter]
    exact List.forall_mem_cons.mpr (List.forall_mem_cons.mp h.echo)
  · rw [hafter]
    exact List.forall_mem_cons.mpr (List.forall_mem_cons.mp h.known)
  · intro other hother
    rw [hafter] at hother
    rw [htrace, registrations_of_subject?_ne _ (hsubject other), registrations_cons _ rfl]
    exact h.fresh other hother
  · intro m hm i b' value he
    rw [htrace] at hm
    obtain rfl := Option.some.inj hm
    exact hsubject i (congrArg Event.subject? he)
  · rw [htrace]
    exact (h.fair.cons hfirst).cons hsecond

private theorem mounted (h : w.Recorded frames) (hframes : Callable frames) (root : NodeId)
    (settings : Settings) (store : Store) (bindings : List Binding) :
    (({ w with views := w.views.push (.mounted root settings store bindings) } :
      World).emit (.mounted w.views.size bindings)).Recorded frames :=
  have hview : ∀ id, ({ w with views := w.views.push (.mounted root settings store bindings) } :
      World).view id =
        if id = w.views.size then .mounted root settings store bindings else w.view id := by
    intro id
    rw [World.view, World.view, Array.getElem?_push]
    split <;> rfl
  have hviews : ∀ id, (({ w with views := w.views.push (.mounted root settings store bindings) } :
      World).view id).Records id frames (⟨.mounted w.views.size bindings,
        w.views.push (.mounted root settings store bindings)⟩ :: w.trace) := by
    intro id
    rw [hview]
    split
    · rename_i hid
      subst hid
      have hblank : w.view w.views.size = .blank := by simp [World.view]
      exact View.records_mounted root settings store bindings
        (fun f hf => Nat.ne_of_lt (h.known f hf)) (hblank ▸ h.views w.views.size)
        (h.fresh _ (Nat.le_refl _)) rfl
    · rename_i hid
      exact (h.views id).cons fun he => hid (Option.some.inj he).symm
  { views := hviews
    nested := h.nested
    next := fun f hf hnone => absurd (hframes f hf) (by simp [hnone])
    echo := fun f hf hspared => by
      rw [view_emit, hview, if_neg (Nat.ne_of_lt (h.known f hf))]
      exact h.echo f hf hspared
    known := fun f hf => by
      simpa [World.emit] using Nat.lt_succ_of_lt (h.known f hf)
    fresh := fun id hid => by
      have hsize : w.views.size < id := by simpa [World.emit] using hid
      rw [World.emit, registrations_of_subject?_ne]
      · exact h.fresh id hsize.le
      · exact fun he => absurd (Option.some.inj he) (Nat.ne_of_lt hsize)
    effected := by simp [World.emit]
    fair := h.fair.cons (fair_of_records rfl hviews trivial (h.unapplied _)) }

theorem act {after : World} {frames' : List Frame} (h : w.Recorded frames)
    (hact : Act (w, frames) (after, frames')) : after.Recorded frames' := by
  cases hact with
  | host hframes hviews htrace => exact h.host hviews htrace
  | emit _ hframes he hwatch => exact h.emit hframes he (he.fair hwatch _ _)
  | tried hframes heffect hviews htrace => exact h.tried hframes heffect hviews htrace
  | view _ id hframes hf => exact h.change hframes id hf
  | registered _ id b hframes halive => exact h.registered hframes halive b
  | mounted _ root settings store bindings hframes =>
    exact h.mounted hframes root settings store bindings
  | fold _ id key hframes _ => exact h.fold hframes id key
  | beginFrame _ id key origin hframes halive hkey hecho => exact h.beginFrame hframes halive hecho
  | beginPass _ frames id key origin viewOnly _ => exact h.beginPass viewOnly
  | skip homits => exact h.skip homits
  | apply homits hview heffect hviews htrace => exact h.apply homits hview heffect hviews htrace
  | endPass _ frames id key origin viewOnly => exact h.endPass
  | clear _ _ id key =>
    exact h.modifyView id (fun _ => rfl) fun v hv => hv.congr rfl rfl rfl rfl
  | endFrame _ _ id key ran => exact h.endFrame ran

end Recorded

/-- Every run is recorded: its moments are fair, and in the end no pass is in progress. -/
theorem recorded_runAll (doc : Document) (behaviour : Behaviour) (depth : Nat)
    (steps : List Step) : ((ofDocument doc).runAll behaviour depth steps).Recorded [] := by
  have hacts := acts_runAll behaviour depth (ofDocument doc) steps
  suffices h : ∀ s, Acts (ofDocument doc, []) s → s.1.Recorded s.2 from h _ hacts
  intro s hs
  induction hs with
  | refl => exact recorded_ofDocument doc
  | tail _ hact ih => exact ih.act hact

end World
end ViewBinding
