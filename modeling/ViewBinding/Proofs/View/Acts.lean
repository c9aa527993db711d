import Mathlib
import ViewBinding.Proofs.View.Bookkeeping

/-!
# What notifications are made of

A run as a sequence of acts on a world and the notifications in progress, the innermost first. Each
act does one thing: a change from outside, the beginning or the end of a notification or of a pass,
or the next binding of a pass. Every step is such a sequence, however deep callbacks nest
(`acts_exec`), so what each act keeps holds of all runs.
-/

namespace ViewBinding

/-- A pass in progress. -/
structure Pass where
  /-- The input whose model binding is left out. -/
  origin : Option NodeId
  /-- Whether watchers are left out. -/
  viewOnly : Bool
  /-- The bindings that are still to come. -/
  todo : List Binding

/-- A notification in progress. -/
structure Frame where
  view : ViewId
  key : String
  /-- The input whose model binding the next pass leaves out. -/
  origin : Option NodeId
  /-- The pass that it is in, unless it is between passes. -/
  pass : Option Pass

namespace World

/-- Callbacks run only when the innermost notification is in a pass, or when there is none. -/
def Callable (frames : List Frame) : Prop := ∀ f ∈ frames.head?, f.pass.isSome = true

/-- Whether a pass leaves a binding out. -/
def omits (w : World) (id : ViewId) (pass : Pass) (b : Binding) : Bool :=
  w.isDisposed id || (pass.viewOnly && b.isWatch) || pass.origin.any b.isModelOf

inductive Act : World × List Frame → World × List Frame → Prop
  | host {w after frames} : Callable frames →
      after.views = w.views → after.trace = w.trace → Act (w, frames) (after, frames)
  | emit (w) {frames} {e : Event} : Callable frames → e.Plain → ¬e.IsWatch →
      Act (w, frames) (w.emit e, frames)
  /-- A binding that no view model has takes effect. -/
  | tried {w after frames b value e} : Callable frames → b.Effect value e →
      after.views = w.views → after.trace = ⟨e, w.views⟩ :: ⟨.tried b value, w.views⟩ :: w.trace →
        Act (w, frames) (after, frames)
  | view (w) {frames} (id : ViewId) {f : View → View} : Callable frames → View.Change f →
      Act (w, frames) (w.modifyView id f, frames)
  | registered (w) {frames} (id : ViewId) (b : Binding) : Callable frames →
      w.isDisposed id = false →
        Act (w, frames) ((w.modifyView id (·.register b)).emit (.registered id b), frames)
  | mounted (w) {frames} (root : NodeId) (settings : Settings) (store : Store)
      (bindings : List Binding) : Callable frames →
        Act (w, frames) (({ w with views := w.views.push (.mounted root settings store bindings) } :
          World).emit (.mounted w.views.size bindings), frames)
  | fold (w) {frames} (id : ViewId) (key : String) : Callable frames → w.isDisposed id = false →
      Act (w, frames) ((w.modifyView id (·.markDirty key)).emit (.folded id key), frames)
  | beginFrame (w) {frames} (id : ViewId) (key : String) (origin : Option NodeId) :
      Callable frames → w.isDisposed id = false → key ∉ (w.view id).inFlight →
      (origin.isSome = true → (w.view id).settings.echo = false) →
        Act (w, frames) (w.beginFrame id key origin, ⟨id, key, origin, none⟩ :: frames)
  | beginPass (w frames id key origin viewOnly) : w.isDisposed id = false →
      Act (w, ⟨id, key, origin, none⟩ :: frames) (w.beginPass id key viewOnly,
        ⟨id, key, none, some ⟨origin, viewOnly, w.watchers id key⟩⟩ :: frames)
  | skip {w frames id key origin viewOnly b rest} :
      w.omits id ⟨origin, viewOnly, b :: rest⟩ b = true →
        Act (w, ⟨id, key, none, some ⟨origin, viewOnly, b :: rest⟩⟩ :: frames)
          (w, ⟨id, key, none, some ⟨origin, viewOnly, rest⟩⟩ :: frames)
  /-- A binding is applied to the value that its key has now, and takes effect. -/
  | apply {w after frames id key origin viewOnly b rest view e} :
      w.omits id ⟨origin, viewOnly, b :: rest⟩ b = false → w.views[id]? = some view →
      b.Effect (view.store.get? key) e → after.views = w.views →
      after.trace = ⟨e, w.views⟩ :: ⟨.applied id b (view.store.get? key), w.views⟩ :: w.trace →
        Act (w, ⟨id, key, none, some ⟨origin, viewOnly, b :: rest⟩⟩ :: frames)
          (after, ⟨id, key, none, some ⟨origin, viewOnly, rest⟩⟩ :: frames)
  | endPass (w frames id key origin viewOnly) :
      Act (w, ⟨id, key, none, some ⟨origin, viewOnly, []⟩⟩ :: frames)
        (w.endPass id key, ⟨id, key, none, none⟩ :: frames)
  | clear (w frames) (id : ViewId) (key : String) :
      Act (w, frames) (w.modifyView id (·.clearDirty key), frames)
  | endFrame (w frames id key ran) :
      Act (w, ⟨id, key, none, none⟩ :: frames) (w.endFrame id key ran, frames)

/-- One act after another. -/
abbrev Acts : World × List Frame → World × List Frame → Prop := Relation.ReflTransGen Act

/-- A way to run callbacks that is made of acts, after the call is recorded. -/
def Answers (call : Caller) : Prop :=
  ∀ callback notice (w : World) frames, Callable frames →
    ∃ e, (e = .called callback notice ∨ e = .exhausted callback) ∧
      Acts (w.emit e, frames) (call callback notice w, frames)

variable {call : Caller} {frames : List Frame}

private theorem acts_call (hcall : Answers call) (hframes : Callable frames) (callback : Callback)
    (text : String) (w : World) : Acts (w, frames) (call callback (.changed text) w, frames) := by
  obtain ⟨e, he, hacts⟩ := hcall callback (.changed text) w frames hframes
  have hplain : e.Plain ∧ ¬e.IsWatch := by
    rcases he with rfl | rfl <;> exact ⟨trivial, not_false⟩
  exact .head (.emit w hframes hplain.1 hplain.2) hacts

private theorem acts_tried (hcall : Answers call) (hframes : Callable frames) (w : World)
    (b : Binding) (value : Option Value) :
    Acts (w, frames) ((w.emit (.tried b value)).applyBinding call b value, frames) := by
  cases b with
  | watch key callback =>
    obtain ⟨e, he, hacts⟩ := hcall callback (.watched value)
      (w.emit (.tried (.watch key callback) value)) frames hframes
    have htried : Act (w, frames)
        ((w.emit (.tried (.watch key callback) value)).emit e, frames) :=
      .tried (b := .watch key callback) hframes he rfl rfl
    exact .head htried hacts
  | interpolation node template =>
    exact .single (.tried (b := .interpolation node template) hframes ⟨_, rfl, rfl⟩ rfl rfl)
  | text node key => exact .single (.tried (b := .text node key) hframes ⟨_, rfl, rfl⟩ rfl rfl)
  | model node key => exact .single (.tried (b := .model node key) hframes ⟨_, rfl, rfl⟩ rfl rfl)

/-! ## Passes -/

private theorem acts_visitBinding (hcall : Answers call) (w : World) {id : ViewId} {key : String}
    {origin : Option NodeId} {viewOnly : Bool} (b : Binding) (rest : List Binding) :
    Acts (w, ⟨id, key, none, some ⟨origin, viewOnly, b :: rest⟩⟩ :: frames)
      (visitBinding call id key origin viewOnly w b,
        ⟨id, key, none, some ⟨origin, viewOnly, rest⟩⟩ :: frames) := by
  unfold visitBinding
  split
  · rename_i hnone
    exact .single (.skip (by simp [omits, isDisposed, hnone]))
  rename_i view hview
  have homits : w.omits id ⟨origin, viewOnly, b :: rest⟩ b =
      (view.disposed || (viewOnly && b.isWatch) || origin.any b.isModelOf) := by
    simp [omits, isDisposed, hview]
  split
  · rename_i hskip
    exact .single (.skip (by rw [homits, hskip]))
  rename_i happly
  have hnot : w.omits id ⟨origin, viewOnly, b :: rest⟩ b = false := by
    rw [homits]
    exact eq_false_of_ne_true happly
  cases b with
  | watch k callback =>
    obtain ⟨e, he, hacts⟩ := hcall callback (.watched (view.store.get? key))
      (w.emit (.applied id (.watch k callback) (view.store.get? key)))
      (⟨id, key, none, some ⟨origin, viewOnly, rest⟩⟩ :: frames) (by simp [Callable])
    have happly :
        Act (w, ⟨id, key, none, some ⟨origin, viewOnly, .watch k callback :: rest⟩⟩ :: frames)
          ((w.emit (.applied id (.watch k callback) (view.store.get? key))).emit e,
            ⟨id, key, none, some ⟨origin, viewOnly, rest⟩⟩ :: frames) :=
      .apply hnot hview he rfl rfl
    exact .head happly hacts
  | interpolation | text | model => exact .single (.apply hnot hview ⟨_, rfl, rfl⟩ rfl rfl)

private theorem acts_foldl_visitBinding (hcall : Answers call) (w : World) {id : ViewId}
    {key : String} {origin : Option NodeId} {viewOnly : Bool} (bindings : List Binding) :
    Acts (w, ⟨id, key, none, some ⟨origin, viewOnly, bindings⟩⟩ :: frames)
      (bindings.foldl (visitBinding call id key origin viewOnly) w,
        ⟨id, key, none, some ⟨origin, viewOnly, []⟩⟩ :: frames) := by
  induction bindings generalizing w with
  | nil => exact .refl
  | cons b rest ih => exact (acts_visitBinding hcall w b rest).trans (ih _)

private theorem acts_runPass (hcall : Answers call) (w : World) (id : ViewId) (key : String)
    (origin : Option NodeId) (viewOnly : Bool) (halive : w.isDisposed id = false) :
    Acts (w, ⟨id, key, origin, none⟩ :: frames)
      ((w.runPass call id key origin viewOnly).1, ⟨id, key, none, none⟩ :: frames) := by
  rw [runPass_fst]
  have hbegin : Acts (w, ⟨id, key, origin, none⟩ :: frames) _ :=
    .single (.beginPass w frames id key origin viewOnly halive)
  exact (hbegin.trans (acts_foldl_visitBinding hcall _ _)).tail (.endPass ..)

private theorem acts_repeatPasses (hcall : Answers call) (id : ViewId) (key : String)
    (remaining ran : Nat) (w : World) :
    Acts (w, ⟨id, key, none, none⟩ :: frames)
      ((w.repeatPasses call id key remaining ran).1, ⟨id, key, none, none⟩ :: frames) := by
  have hclear : ∀ w : World, Acts (w, ⟨id, key, none, none⟩ :: frames)
      (w.modifyView id (·.clearDirty key), ⟨id, key, none, none⟩ :: frames) :=
    fun w => .single (.clear w _ id key)
  induction remaining generalizing ran w with
  | zero =>
    unfold repeatPasses
    dsimp only
    split
    · rename_i hagain
      have halive : (w.modifyView id (·.clearDirty key)).isDisposed id = false := by
        simpa using (Bool.and_eq_true_iff.mp hagain).2
      exact (hclear w).trans (acts_runPass hcall _ id key none true halive)
    · exact hclear w
  | succ remaining ih =>
    unfold repeatPasses
    dsimp only
    split
    · rename_i hagain
      have halive : (w.modifyView id (·.clearDirty key)).isDisposed id = false := by
        simpa using (Bool.and_eq_true_iff.mp hagain).2
      exact ((hclear w).trans (acts_runPass hcall _ id key none false halive)).trans (ih _ _)
    · exact hclear w

private theorem acts_notifyFrom (hcall : Answers call) (hframes : Callable frames) (w : World)
    (id : ViewId) (key : String) (origin : Option NodeId)
    (hecho : origin.isSome = true → ∀ view, w.views[id]? = some view → view.settings.echo = false) :
    Acts (w, frames) ((w.notifyFrom call id key origin).1, frames) := by
  by_cases hdisposed : w.isDisposed id = true
  · rw [notifyFrom, if_pos hdisposed]
  have hid : id < w.views.size := lt_size_of_isDisposed_eq_false (by simpa using hdisposed)
  by_cases hkey : key ∈ (w.view id).inFlight
  · rw [notifyFrom, if_neg hdisposed, isInFlight_eq hid, if_pos (by simpa using hkey)]
    exact .single (.fold w id key hframes (by simpa using hdisposed))
  · rw [Bool.not_eq_true] at hdisposed
    have halive : (w.view id).disposed = false := by rwa [isDisposed_eq hid] at hdisposed
    rw [notifyFrom_eq_endFrame hid halive hkey]
    have hbegin : Acts (w, frames) _ := .single (.beginFrame w id key origin hframes
      hdisposed hkey fun h => hecho h _ (getElem?_views hid))
    have hbegan : (w.beginFrame id key origin).isDisposed id = false := by
      rw [isDisposed_eq (by simpa [beginFrame, emit] using hid), view_beginFrame w hid, if_pos rfl]
      exact halive
    exact ((hbegin.trans (acts_runPass hcall _ id key origin false hbegan)).trans
      (acts_repeatPasses hcall id key _ _ _)).tail (.endFrame ..)

/-! ## Steps -/

private theorem Move.acts (hcall : Answers call) (hframes : Callable frames) {w after : World}
    (h : Move call w after) : Acts (w, frames) (after, frames) := by
  cases h with
  | host hviews htrace => exact .single (.host hframes hviews htrace)
  | changed change => exact .single (.emit w hframes trivial not_false)
  | view id hf => exact .single (.view w id hframes hf)
  | registered id b halive => exact .single (.registered w id b hframes halive)
  | mounted root settings store bindings =>
    exact .single (.mounted w root settings store bindings hframes)
  | call callback text => exact acts_call hcall hframes callback text w
  | tried b value => exact acts_tried hcall hframes w b value
  | notify id key origin hecho => exact acts_notifyFrom hcall hframes w id key origin hecho

/-- A step is a sequence of acts that leaves the notifications in progress as they were. -/
theorem acts_exec (hcall : Answers call) (hframes : Callable frames) (told : Option Value)
    (w : World) (step : Step) : Acts (w, frames) ((w.exec call told step).1, frames) := by
  have hmoves : Moves call w (w.exec call told step).1 := exec_moves told w step
  generalize (w.exec call told step).1 = after at hmoves
  induction hmoves with
  | refl => exact .refl
  | tail _ hmove ih => exact ih.trans (hmove.acts hcall hframes)

private theorem acts_foldl {α : Type} {f : World → α → World}
    (h : ∀ w a, Acts (w, frames) (f w a, frames)) (list : List α) (w : World) :
    Acts (w, frames) (list.foldl f w, frames) :=
  foldl_of_trans (R := fun a b => Acts (a, frames) (b, frames)) (fun _ => .refl) .trans h list w

/-- Callbacks are made of acts, however deep they nest. -/
theorem answers_call (behaviour : Behaviour) (depth : Nat) : Answers (World.call behaviour depth) := by
  induction depth with
  | zero => exact fun callback notice w frames _ => ⟨.exhausted callback, Or.inr rfl, .refl⟩
  | succ depth ih =>
    intro callback notice w frames hframes
    have hcounted : Acts (w.emit (.called callback notice), frames)
        ((w.emit (.called callback notice)).countCall callback, frames) :=
      .single (.host hframes rfl rfl)
    refine ⟨.called callback notice, Or.inl rfl, hcounted.trans (acts_foldl (fun w step => ?_) _ _)⟩
    exact (acts_exec ih hframes notice.told w step).tail (.emit _ hframes trivial not_false)

private theorem acts_run (behaviour : Behaviour) (depth : Nat) (w : World) (step : Step) :
    Acts (w, []) ((w.run behaviour depth step).1, []) :=
  have hnone : Callable [] := by simp [Callable]
  acts_exec (answers_call behaviour depth) hnone none w step

theorem acts_runAll (behaviour : Behaviour) (depth : Nat) (w : World) (steps : List Step) :
    Acts (w, []) (w.runAll behaviour depth steps, []) :=
  acts_foldl (acts_run behaviour depth) steps w

end World
end ViewBinding
