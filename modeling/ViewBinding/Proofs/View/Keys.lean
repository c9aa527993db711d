import Mathlib
import ViewBinding.Proofs.View.Echo
import ViewBinding.Proofs.View.Silence

/-!
# Under which keys a store is written

All writes to the store of a view model go to trimmed keys, and all reads are of trimmed keys. The
data that a view model is mounted with is taken as it is. So an entry under a trimmed key can be
read and changed, and an entry under any other key stays in the store and is never read
(`World.runAll_reads`).
-/

namespace ViewBinding

/-! ## Trimmed keys -/

private theorem Text.trimStart_trimEnd {text : List Char} (h : Text.trimStart text = text) :
    Text.trimStart (Text.trimEnd text) = Text.trimEnd text := by
  have hprefix : Text.trimEnd text <+: text := List.rdropWhile_prefix Text.isBlank text
  cases hend : Text.trimEnd text with
  | nil => rfl
  | cons c rest =>
    obtain ⟨more, hmore⟩ := hprefix
    rw [hend] at hmore
    rw [← hmore, List.cons_append, Text.trimStart] at h
    refine List.dropWhile_cons_of_neg fun hc => ?_
    rw [List.dropWhile_cons_of_pos hc] at h
    have hlength := (List.dropWhile_sublist Text.isBlank (l := rest ++ more)).length_le
    rw [h] at hlength
    simp at hlength

private theorem Text.trim_trim (text : String) : Text.trim (Text.trim text) = Text.trim text := by
  have hstart : Text.trimStart (Text.trimStart text.toList) = Text.trimStart text.toList :=
    List.dropWhile_idempotent _ _
  have hend (list : List Char) : Text.trimEnd (Text.trimEnd list) = Text.trimEnd list :=
    List.rdropWhile_idempotent _ _
  rw [Text.trim, Text.trim, String.toList_ofList]
  congr 1
  rw [Text.trimChars, Text.trimChars, Text.trimStart_trimEnd hstart, hend]

/-- The key that a step writes to. -/
def Step.written? : Step → Option String
  | .write _ key _ | .set _ key _ => some (Text.trim key)
  | _ => none

/-- The steps that callbacks take write under other keys than some. -/
def Behaviour.Spares (behaviour : Behaviour) (S : String → Prop) : Prop :=
  ∀ script count told, ∀ step ∈ behaviour script count told,
    ∀ key, step.written? = some key → ¬S key

private theorem Step.written?_trimmed {step : Step} {key : String} (h : step.written? = some key) :
    Text.trim key = key := by
  cases step with
  | write handle given | set handle given =>
    rw [← Option.some.inj h]
    exact Text.trim_trim given
  | _ => cases h

private theorem Document.nodeBindings_model_trimmed {doc : Document} {settings : Settings}
    {id node : NodeId} {key : String} (h : .model node key ∈ doc.nodeBindings settings id) :
    Text.trim key = key := by
  unfold Document.nodeBindings at h
  split at h
  · obtain ⟨template, -, htemplate⟩ := Option.map_eq_some_iff.mp (Option.mem_toList.mp h)
    cases htemplate
  · obtain ⟨a, -, ha⟩ := List.mem_filterMap.mp h
    rcases directiveBinding_eq_some ha with ⟨hb, -⟩ | ⟨hb, -⟩ <;> cases hb
    exact Text.trim_trim a.value
  all_goals cases h

/-- The inputs of a subtree are bound to trimmed keys. -/
theorem trimmed_of_mem_modelInputs {doc : Document} (hdoc : doc.Reachable) {store : Store}
    {settings : Settings} {root : NodeId} {input : NodeId × String}
    (hinput : input ∈ (compile doc store settings root).modelInputs) :
    Text.trim input.2 = input.2 := by
  obtain ⟨order, -, -, -, hbindings, hinputs, -⟩ := compile_discovers hdoc store settings root
  rw [hinputs, hbindings] at hinput
  obtain ⟨b, hb, hmodel⟩ := List.mem_filterMap.mp hinput
  obtain ⟨id, -, hb⟩ := List.mem_flatMap.mp hb
  cases b with
  | model node key =>
    rw [← Option.some.inj hmodel]
    exact Document.nodeBindings_model_trimmed hb
  | interpolation | text | watch => cases hmodel

namespace World

/-- A handle reaches a view model that holds some entries as a store has them, and that listens to
no input under the key of such an entry. -/
structure Untouched (S : String → Prop) (handle : Nat) (id : ViewId) (store : Store) (w : World) :
    Prop where
  view : ∃ view, w.views[id]? = some view ∧ ∀ key, S key → view.store.get? key = store.get? key
  reached : (w.handles[handle]?).map Handle.view = some id
  listeners : ∀ entry ∈ w.listeners, ∀ key, entry.2 = .model id key → ¬S key

section Untouched

variable {S : String → Prop} {handle : Nat} {id : ViewId} {store : Store} {call : Caller}
  {w after : World}

private theorem Untouched.lt_size (h : w.Untouched S handle id store) : id < w.views.size := by
  obtain ⟨view, hview, -⟩ := h.view
  exact (Array.getElem?_eq_some_iff.mp hview).1

private theorem Untouched.congr (h : w.Untouched S handle id store) (hviews : after.views = w.views)
    (hhandles : after.handles = w.handles) (hlisteners : after.listeners = w.listeners) :
    after.Untouched S handle id store :=
  ⟨hviews ▸ h.view, hhandles ▸ h.reached, hlisteners ▸ h.listeners⟩

private theorem Untouched.modifyView (h : w.Untouched S handle id store) (other : ViewId)
    {f : View → View} (hf : ∀ v key, S key → (f v).store.get? key = v.store.get? key) :
    (w.modifyView other f).Untouched S handle id store := by
  refine ⟨?_, h.reached, h.listeners⟩
  obtain ⟨view, hview, hstore⟩ := h.view
  by_cases hother : other = id
  · subst hother
    exact ⟨f view, getElem?_modifyView_self hview f,
      fun key hkey => (hf view key hkey).trans (hstore key hkey)⟩
  · refine ⟨view, ?_, hstore⟩
    rw [World.modifyView, Array.getElem?_modify, if_neg hother, hview]

private theorem guarded_untouched (other : ViewId) :
    Guarded other (fun _ => True) (Untouched S handle id store) where
  watchers := fun _ _ _ _ => trivial
  modifyView := by
    intro w f hf h
    refine h.modifyView other fun v key _ => ?_
    obtain ⟨registry, deferred, inFlight, dirty, passes, hv⟩ := hf.eq v
    rw [hv]
  emit := fun _ h => h.congr rfl rfl rfl
  perform := fun _ _ h => h.congr rfl rfl rfl

/-- The callbacks leave these entries alone. -/
abbrev Untouching (call : Caller) (S : String → Prop) (handle : Nat) (id : ViewId) (store : Store) :
    Prop :=
  ∀ callback notice w, Untouched S handle id store w →
    Untouched S handle id store (call callback notice w)

private theorem Untouched.notifyFrom (hcall : Untouching call S handle id store)
    (h : w.Untouched S handle id store) (other : ViewId) (key : String) (origin : Option NodeId) :
    (w.notifyFrom call other key origin).1.Untouched S handle id store :=
  (guarded_untouched other).notifyFrom (fun _ _ _ _ => hcall _ _) key origin h

private theorem Untouched.writeValue (h : w.Untouched S handle id store) (other : ViewId)
    {key : String} (hkey : ¬S key) (value : Value) :
    (w.writeValue other key value).Untouched S handle id store :=
  h.modifyView other fun v _ hread =>
    Store.get?_set_of_ne v.store (ne_of_mem_of_not_mem (s := {key | S key}) hread hkey) value

private theorem Untouched.pinned {α : Type} (h : w.Untouched S handle id store) (other : ViewId)
    {action : World → World × α}
    (haction : ∀ w, Untouched S handle id store w → (action w).1.Untouched S handle id store) :
    (w.pinned other action).1.Untouched S handle id store := by
  have hpinned := h.modifyView other (f := fun v => { v with pins := v.pins + 1 }) fun _ _ _ => rfl
  exact (haction _ hpinned).modifyView other (f := fun v => { v with pins := v.pins - 1 })
    fun _ _ _ => rfl

private theorem Untouched.onView (h : w.Untouched S handle id store) (used : Nat)
    {action : ViewId → View → World → World × Outcome}
    (haction : ∀ other view w, Untouched S handle id store w →
      (action other view w).1.Untouched S handle id store) :
    (w.onView used action).1.Untouched S handle id store := by
  unfold World.onView
  split
  · exact h
  split
  · exact h
  · exact h.pinned _ (haction _ _)

private theorem Untouched.handleChange (hcall : Untouching call S handle id store)
    (h : w.Untouched S handle id store) (other : ViewId) (node : NodeId) {key : String}
    (hkey : other = id → ¬S key) (text : String) :
    (w.handleChange call other node key text).Untouched S handle id store := by
  unfold World.handleChange
  split
  · exact h
  split
  · exact h
  · refine Untouched.notifyFrom hcall ?_ other key _
    by_cases hother : other = id
    · exact h.writeValue other (hkey hother) _
    · exact ⟨by simpa [World.modifyView, Array.getElem?_modify, hother] using h.view, h.reached,
        h.listeners⟩

private theorem Untouched.fire (hcall : Untouching call S handle id store)
    (h : w.Untouched S handle id store) (node : NodeId) (text : String) {listener : Listener}
    (hlistener : ∀ key, listener = .model id key → ¬S key) :
    (World.fire call node text w listener).Untouched S handle id store := by
  cases listener with
  | callback callback => exact hcall _ _ _ h
  | model other key =>
    unfold World.fire
    dsimp only
    split
    · refine h.pinned other fun w hw => hw.handleChange hcall other node ?_ text
      rintro rfl
      exact hlistener key rfl
    · exact h

private theorem Untouched.dispatch (hcall : Untouching call S handle id store)
    (h : w.Untouched S handle id store) (node : NodeId) (text : String) :
    (w.dispatch call node text).1.Untouched S handle id store := by
  unfold World.dispatch
  split
  · refine List.foldlRecOn _ _ (h.congr rfl rfl rfl) fun w hw listener hlistener =>
      hw.fire hcall node text ?_
    obtain ⟨entry, hentry, rfl⟩ := List.mem_map.mp hlistener
    exact h.listeners entry (List.mem_filter.mp hentry).1
  · exact h

private theorem Untouched.listen (h : w.Untouched S handle id store) (node : NodeId)
    (listener : Listener) (hlistener : ∀ key, listener = .model id key → ¬S key) :
    (w.listen node listener).Untouched S handle id store := by
  unfold World.listen
  split
  · refine ⟨h.view, h.reached, fun entry hentry => ?_⟩
    rcases List.mem_append.mp hentry with hentry | hentry
    · exact h.listeners entry hentry
    · rw [List.mem_singleton.mp hentry]
      exact hlistener
  · exact h

private theorem Untouched.newHandle (h : w.Untouched S handle id store) (other : ViewId) :
    (w.newHandle other).1.Untouched S handle id store := by
  refine ⟨h.view, ?_, h.listeners⟩
  obtain ⟨entry, hentry, -⟩ := Option.map_eq_some_iff.mp h.reached
  have hlt := (Array.getElem?_eq_some_iff.mp hentry).1
  simpa [World.newHandle, Array.getElem?_push, Nat.ne_of_lt hlt] using h.reached

private theorem Untouched.dropHandle (h : w.Untouched S handle id store) (dropped : Nat) :
    (w.dropHandle dropped).1.Untouched S handle id store := by
  refine ⟨h.view, ?_, h.listeners⟩
  obtain ⟨entry, hentry, hid⟩ := Option.map_eq_some_iff.mp h.reached
  by_cases hdropped : dropped = handle <;>
    simp [World.dropHandle, Array.getElem?_modify, hdropped, hentry, hid]

private theorem Untouched.mount (h : w.Untouched S handle id store) (options : MountOptions)
    (settings : Settings) : (w.mount options settings).1.Untouched S handle id store := by
  have hne : id ≠ w.views.size := Nat.ne_of_lt h.lt_size
  unfold World.mount
  split
  · exact h
  rename_i root _
  generalize compile w.doc options.store settings root = compiled
  obtain ⟨trace, hbound⟩ := foldl_changed
    (compiled.bindings.filterMap fun b => b.change? (shownText (options.store.get? b.key))) w
  dsimp only
  rw [hbound]
  refine Untouched.newHandle ?_ _
  refine List.foldlRecOn _ _ ?_ fun x hx input _ => ?_
  · refine ⟨?_, h.reached, h.listeners⟩
    obtain ⟨view, hview, hstore⟩ := h.view
    exact ⟨view, by simp [World.emit, Array.getElem?_push, hne, hview], hstore⟩
  · have hperformed : (x.perform (.listen input.1)).Untouched S handle id store :=
      hx.congr rfl rfl rfl
    refine hperformed.listen input.1 (.model w.views.size input.2) fun key hkey => ?_
    exact absurd (Listener.model.inj hkey).1.symm hne

private theorem Untouched.mountOutcome {result : World × Except MountError (Nat × NodeId × Nat)}
    (h : result.1.Untouched S handle id store) :
    (World.mountOutcome result).1.Untouched S handle id store := by
  rcases result with ⟨after, e | ⟨handle, root, walks⟩⟩ <;> exact h

private theorem Untouched.execHost (h : w.Untouched S handle id store) (told : Option Value)
    {step : Step} (hstep : step.OfHost) :
    (w.exec call told step).1.Untouched S handle id store := by
  obtain ⟨after, outcome, -, -, hexec⟩ := exec_ofHost hstep w.doc
  rw [hexec call told w rfl]
  exact h.congr rfl rfl rfl

private theorem Untouched.exec (hcall : Untouching call S handle id store)
    (h : w.Untouched S handle id store) (told : Option Value) {step : Step}
    (hstep : ∀ key, step.written? = some key → ¬S key) :
    (w.exec call told step).1.Untouched S handle id store := by
  cases step with
  | createElement | createText | createComment | appendChild | setAttribute | appendElement
  | appendText | parseInto | getAttribute | inspect | query | dump | resolve | setText | setValue =>
    exact h.execHost told trivial
  | documentInfo => exact h
  | dispatch node text => exact h.dispatch hcall node text
  | listen node script =>
    have hmade : (w.newCallback script).1.Untouched S handle id store := h.congr rfl rfl rfl
    exact hmade.listen node (.callback (w.newCallback script).2) (by simp)
  | apply subject node value =>
    have happly : ∀ (w : World) (b : Binding), w.Untouched S handle id store →
        ((w.emit (.tried b value)).applyBinding call b value).Untouched S handle id store :=
      fun w b hw => (guarded_untouched 0).applyBinding (fun _ _ _ _ => hcall _ _) trivial value
        (hw.congr rfl rfl rfl)
    cases subject with
    | interpolation target text =>
      cases htemplate : Template.parse? .standard text with
      | none =>
        simp only [World.exec, subjectBinding, htemplate, Option.map_none]
        exact h
      | some template =>
        simp only [World.exec, subjectBinding, htemplate, Option.map_some]
        exact happly w _ h
    | text target key => exact happly w (.text target key) h
    | model target key => exact happly w (.model target key) h
    | watch key script => exact happly _ (.watch key _) (h.congr rfl rfl rfl)
  | mount options settings => exact (h.mount options settings).mountOutcome
  | mountConfig format text =>
    cases hread : ViewConfig.read format text <;> simp only [World.exec, hread]
    · exact h
    · exact (h.mount _ _).mountOutcome
  | clone used => exact h.onView used fun _ _ _ hw => hw.newHandle _
  | drop dropped => exact h.dropHandle dropped
  | get used | data used | bindingCount used | watchedKeys used | viewInfo used =>
    exact h.onView used fun _ _ _ hw => hw
  | write used key operand =>
    exact h.onView used fun other _ _ hw => hw.writeValue other (hstep _ rfl) _
  | set used key operand =>
    exact h.onView used fun other _ _ hw =>
      (hw.writeValue other (hstep _ rfl) _).notifyFrom hcall other _ none
  | notify used key => exact h.onView used fun other _ _ hw => hw.notifyFrom hcall other _ none
  | watch used key script =>
    refine h.onView used fun other view w hw => ?_
    dsimp only
    split
    · exact hw
    · have hmade : (w.newCallback script).1.Untouched S handle id store := hw.congr rfl rfl rfl
      have hregistered := hmade.modifyView other
        (f := (·.register (.watch (Text.trim key) (w.newCallback script).2))) fun v key _ => by
          obtain ⟨registry, deferred, hv⟩ := v.register_eq (.watch _ _)
          rw [hv]
      exact hregistered.congr rfl rfl rfl
  | dispose used => exact h.onView used fun other _ _ hw => hw.modifyView other fun _ _ _ => rfl

private theorem Untouched.calls {behaviour : Behaviour} (hbehaviour : behaviour.Spares S)
    (depth : Nat) : Untouching (World.call behaviour depth) S handle id store := by
  induction depth with
  | zero => exact fun callback notice w h => h.congr rfl rfl rfl
  | succ depth ih =>
    intro callback notice w h
    refine List.foldlRecOn _ _ (h.congr rfl rfl rfl) fun w hw step hstep => ?_
    have hexec := hw.exec ih notice.told fun key hkey => hbehaviour _ _ _ step hstep key hkey
    exact hexec.congr rfl rfl rfl

private theorem Untouched.runAll {behaviour : Behaviour} (hbehaviour : behaviour.Spares S)
    (depth : Nat) {steps : List Step}
    (hsteps : ∀ step ∈ steps, ∀ key, step.written? = some key → ¬S key)
    (h : w.Untouched S handle id store) :
    (w.runAll behaviour depth steps).Untouched S handle id store :=
  List.foldlRecOn _ _ h fun _ hw step hstep =>
    hw.exec (Untouched.calls hbehaviour depth) none (hsteps step hstep)

private theorem Attached.untouched_mount (h : w.Attached) {options : MountOptions}
    {settings : Settings} {root : NodeId} (hroot : options.target.resolve w.doc = .ok root)
    (hinputs : ∀ input ∈ (compile w.doc options.store settings root).modelInputs, ¬S input.2) :
    (w.mount options settings).1.Untouched S w.handles.size w.views.size options.store := by
  obtain ⟨-, hviews, hhandles, hlisteners⟩ := mount_eq w options settings hroot rfl
    (contains_modelInputs h.doc.wellFormed options.store settings root) rfl
  refine ⟨⟨_, by rw [hviews, Array.getElem?_push_size], fun _ _ => rfl⟩, ?_, ?_⟩
  · rw [hhandles, Array.getElem?_push_size]
    rfl
  · intro entry hentry key hkey
    rw [hlisteners] at hentry
    rcases List.mem_append.mp hentry with hentry | hentry
    · -- No other view model listens in the name of the new one.
      obtain ⟨-, view, hview, -⟩ := h.inputs entry.1 w.views.size key (by rw [← hkey]; exact hentry)
      simp at hview
    · obtain ⟨input, hinput, rfl⟩ := List.mem_map.mp hentry
      rw [← (Listener.model.inj hkey).2]
      exact hinputs input hinput

end Untouched

private theorem exec_data {w : World} {call : Caller} {told : Option Value} {handle : Nat}
    {id : ViewId} {data : Store} (hid : (w.handles[handle]?).map Handle.view = some id)
    (h : (w.exec call told (.data handle)).2 = .store data) :
    ∃ view, w.views[id]? = some view ∧ view.store = data ∧
      ∀ key, (w.exec call told (.get handle key)).2 = .value (data.get? (Text.trim key)) := by
  have hreach : ∀ other, w.reach? handle = some other → other = id := by
    intro other hother
    simp only [reach?, Option.bind_eq_bind, Option.bind_eq_some_iff] at hother
    obtain ⟨entry, hentry, hother⟩ := hother
    rw [hentry] at hid
    split at hother
    · exact (Option.some.inj hother).symm.trans (Option.some.inj hid)
    · cases hother
  cases hfound : w.reach? handle with
  | none =>
    simp only [exec, onView, hfound] at h
    cases h
  | some other =>
    obtain rfl := hreach other hfound
    cases hview : w.views[other]? with
    | none =>
      simp only [exec, onView, hfound, hview] at h
      cases h
    | some view =>
      simp only [exec, onView_eq hfound hview] at h ⊢
      exact ⟨view, rfl, Outcome.store.inj h, fun key => by rw [← Outcome.store.inj h]; rfl⟩

theorem attached_runAll {doc : Document} (hdoc : doc.Reachable) (behaviour : Behaviour)
    (depth : Nat) (steps : List Step) :
    ((ofDocument doc).runAll behaviour depth steps).Attached := by
  have hattached : (ofDocument doc).Attached :=
    ⟨hdoc, by simp [ofDocument], by simp [ofDocument]⟩
  have hmirrors : (ofDocument doc).Mirrors (ofDocument doc) :=
    ⟨rfl, rfl, rfl, rfl, by simp [ofDocument]⟩
  exact ((Together.refl hattached hmirrors).runAll behaviour depth steps).attached

/-- Whatever happens after a view model was mounted, its handle gives for each key the entry of the
trimmed key. So all entries under trimmed keys are read as they are, and those that the view model
was mounted with, as long as nothing writes to their keys. The entries under keys that are not
trimmed are always those that the view model was mounted with, and are not read under any key. -/
theorem runAll_reads {doc : Document} (hdoc : doc.Reachable) (behaviour : Behaviour) (depth : Nat)
    (before : List Step) {w mounted : World}
    (hw : (ofDocument doc).runAll behaviour depth before = w) {options : MountOptions}
    {settings : Settings} {handle walks : Nat} {root : NodeId}
    (hmount : w.run behaviour depth (.mount options settings) =
      (mounted, .mounted handle root walks))
    (steps : List Step) {after : World} (hafter : mounted.runAll behaviour depth steps = after)
    {data : Store} (hdata : (after.run behaviour depth (.data handle)).2 = .store data) :
    (∀ key, (after.run behaviour depth (.get handle key)).2 =
      .value (data.get? (Text.trim key))) ∧
    (∀ key, Text.trim key ≠ key → data.get? key = options.store.get? key) ∧
    ∀ key, (∀ input ∈ (compile w.doc options.store settings root).modelInputs, input.2 ≠ key) →
      (∀ step, (step ∈ steps ∨ ∃ script count told, step ∈ behaviour script count told) →
        step.written? ≠ some key) → data.get? key = options.store.get? key := by
  subst hafter
  have hattached : w.Attached := hw ▸ attached_runAll hdoc behaviour depth before
  obtain ⟨rfl, hroot, rfl⟩ := run_mount_eq hmount
  have huntouched : ∀ S : String → Prop,
      (∀ input ∈ (compile w.doc options.store settings root).modelInputs, ¬S input.2) →
      behaviour.Spares S → (∀ step ∈ steps, ∀ key, step.written? = some key → ¬S key) →
      ((w.mount options settings).1.runAll behaviour depth steps).Untouched S w.handles.size
        w.views.size options.store :=
    fun S hinputs hbehaviour hsteps =>
      (hattached.untouched_mount hroot hinputs).runAll hbehaviour depth hsteps
  have hkept : ∀ S : String → Prop,
      (∀ input ∈ (compile w.doc options.store settings root).modelInputs, ¬S input.2) →
      behaviour.Spares S → (∀ step ∈ steps, ∀ key, step.written? = some key → ¬S key) →
      ∀ key, S key → data.get? key = options.store.get? key := by
    intro S hinputs hbehaviour hsteps key hkey
    have h := huntouched S hinputs hbehaviour hsteps
    obtain ⟨view, hview, rfl, -⟩ := exec_data h.reached hdata
    obtain ⟨view', hview', hstore⟩ := h.view
    obtain rfl := Option.some.inj (hview.symm.trans hview')
    exact hstore key hkey
  refine ⟨?_, ?_, ?_⟩
  · have h := huntouched (fun _ => False) (fun _ _ => not_false)
      (fun _ _ _ _ _ _ _ => not_false) fun _ _ _ _ => not_false
    obtain ⟨view, -, -, hget⟩ := exec_data h.reached hdata
    exact hget
  · refine hkept (fun key => Text.trim key ≠ key) ?_ ?_ ?_
    · exact fun input hinput hne => hne (trimmed_of_mem_modelInputs hattached.doc hinput)
    · exact fun _ _ _ step _ key hkey hne => hne (Step.written?_trimmed hkey)
    · exact fun step _ key hkey hne => hne (Step.written?_trimmed hkey)
  · intro key hinputs hspared
    refine hkept (· = key) hinputs ?_ ?_ key rfl
    · rintro script count told step hstep _ hkey rfl
      exact hspared step (Or.inr ⟨script, count, told, hstep⟩) hkey
    · rintro step hstep _ hkey rfl
      exact hspared step (Or.inl hstep) hkey

/-- A name is given under a key with blanks around it. -/
def paddedName : MountOptions :=
  ({ target := .node Document.root } : MountOptions).entry " name " (.string "Ada")

/-- A callback that does nothing. -/
def idle : Behaviour := fun _ _ _ => []

/-- Another name, set under the same key, does not take the place of the first. -/
theorem paddedName_reads :
    let steps := [.set 0 " name " (.literal (.string "Bob"))]
    let after := ((ofDocument .empty).run idle 9 (.mount paddedName {})).1.runAll idle 9 steps
    let data : Store := ⟨[(" name ", .string "Ada"), ("name", .string "Bob")]⟩
    (∀ key, (after.run idle 9 (.get 0 key)).2 = .value (data.get? (Text.trim key))) ∧
      ∀ key, Text.trim key ≠ key → data.get? key = paddedName.store.get? key := by
  intro steps after data
  have hmount : ((ofDocument .empty).run idle 9 (.mount paddedName {})).2 =
      .mounted 0 Document.root 1 := by cbv
  have hdata : ((((ofDocument .empty).run idle 9 (.mount paddedName {})).1.runAll idle 9
      [.set 0 " name " (.literal (.string "Bob"))]).run idle 9 (.data 0)).2 =
        .store ⟨[(" name ", .string "Ada"), ("name", .string "Bob")]⟩ := by cbv
  obtain ⟨hget, hpadded, -⟩ :=
    runAll_reads .empty idle 9 [] rfl (Prod.ext rfl hmount) steps rfl hdata
  exact ⟨hget, hpadded⟩

/-- The data has a name under the key that it was given under, and the key gives none. -/
theorem paddedName_not_read :
    let w := (ofDocument .empty).runAll idle 9 [.mount paddedName {}]
    (w.run idle 9 (.data 0)).2 = .store ⟨[(" name ", .string "Ada")]⟩ ∧
      paddedName.store.get? " name " = some (.string "Ada") ∧
      (w.run idle 9 (.get 0 " name ")).2 = .value none :=
  ⟨by cbv, by cbv, by cbv⟩

end World
end ViewBinding
