import Mathlib
import ViewBinding.Proofs.Document.Written
import ViewBinding.Proofs.View.Determined
import ViewBinding.Proofs.View.Echo
import ViewBinding.Proofs.View.Fitting
import ViewBinding.Proofs.View.Keys
import ViewBinding.Proofs.View.Undisturbed

/-!
# Typing into an input

A view model keeps the bindings that it was mounted with and goes on to listen to its inputs,
whatever happens, until it is disposed of (`Retained`). So a text that is typed into one of its
inputs goes into its data as it is, and from there to all that shows the key of the input. What
shows other keys stays as it is (`World.runAll_typed`).
-/

namespace ViewBinding

/-- Whether it is a view model that listens. -/
def Listener.isOf (id : ViewId) : Listener → Bool
  | .model view _ => view == id
  | .callback _ => false

variable {bindings : List Binding}

/-! ## What a view model keeps -/

namespace View

variable {v : View}

/-- A view model has the bindings that it was mounted with, or was disposed of. -/
def Retains (bindings : List Binding) (v : View) : Prop :=
  v.disposed = true ∨ v.Wired bindings

private theorem Notified.retains {f : View → View} (hf : Notified f) (h : v.Retains bindings) :
    (f v).Retains bindings := by
  rcases h with hdisposed | hwired
  · obtain ⟨registry, deferred, inFlight, dirty, passes, heq⟩ := hf.eq v
    rw [heq]
    exact Or.inl hdisposed
  · exact Or.inr (hf.wired hwired)

private theorem Change.retains {f : View → View} (hf : Change f) (h : v.Retains bindings) :
    (f v).Retains bindings := by
  cases hf with
  | pins | store =>
    exact h.imp (fun hdisposed => hdisposed) fun hwired =>
      ⟨hwired.alive, hwired.registry, hwired.deferred⟩
  | dispose => exact Or.inl rfl

private theorem Retains.register (h : v.Retains bindings) {b : Binding} (hb : b.isWatch = true) :
    (v.register b).Retains bindings := by
  rcases h with hdisposed | hwired
  · obtain ⟨registry, deferred, heq⟩ := v.register_eq b
    rw [heq]
    exact Or.inl hdisposed
  · cases b with
    | watch key callback => exact Or.inr (hwired.register key callback)
    | interpolation | text | model => cases hb

theorem Wired.mem_watchers_iff (h : v.Wired bindings) {b : Binding} (hb : b.isWatch = false)
    (key : String) : b ∈ v.registry.watchers key ↔ b ∈ bindings ∧ b.key = key := by
  have hsame : b ∈ (v.registry.watchers key).filter (fun c => !c.isWatch) ↔
      b ∈ bindings.filter fun c => c.key == key := by rw [h.registry]
  simpa [hb] using hsame

end View

namespace World

/-- A view model keeps its bindings and listens to its inputs. -/
structure Retained (id : ViewId) (bindings : List Binding) (w : World) : Prop where
  view : ∃ view, w.views[id]? = some view ∧ view.Retains bindings
  listeners : (w.listeners.filter fun entry => entry.2.isOf id) =
    (bindings.filterMap Binding.modelInput?).map fun input => (input.1, .model id input.2)

variable {id : ViewId} {w x : World}

private theorem Retained.lt_size (h : w.Retained id bindings) : id < w.views.size := by
  obtain ⟨view, hview, -⟩ := h.view
  exact (Array.getElem?_eq_some_iff.mp hview).1

private theorem Retained.modifyView (h : w.Retained id bindings) (other : ViewId) {f : View → View}
    (hf : ∀ v : View, v.Retains bindings → (f v).Retains bindings) :
    (w.modifyView other f).Retained id bindings := by
  obtain ⟨view, hview, hretains⟩ := h.view
  refine ⟨?_, h.listeners⟩
  rw [World.modifyView, Array.getElem?_modify, hview]
  split
  · exact ⟨f view, rfl, hf view hretains⟩
  · exact ⟨view, rfl, hretains⟩

private theorem filter_isOf_of_ne {other : ViewId} (hne : other ≠ id)
    (inputs : List (NodeId × String)) :
    ((inputs.map fun input => (input.1, Listener.model other input.2)).filter
      fun entry => entry.2.isOf id) = [] := by
  rw [List.filter_map]
  simp [Function.comp_def, Listener.isOf, hne]

private theorem Retained.mount (h : w.Retained id bindings) (hdoc : w.doc.Reachable)
    (options : MountOptions) (settings : Settings) :
    (w.mount options settings).1.Retained id bindings := by
  cases hroot : options.target.resolve w.doc with
  | error e => simpa [World.mount, hroot] using h
  | ok root =>
    have hwf := hdoc.wellFormed
    obtain ⟨-, hviews, -, hlisteners⟩ := mount_eq w options settings hroot rfl
      (contains_modelInputs hwf options.store settings root) rfl
    obtain ⟨view, hview, hretains⟩ := h.view
    refine ⟨⟨view, ?_, hretains⟩, ?_⟩
    · rw [hviews, Array.getElem?_push, if_neg (Nat.ne_of_lt h.lt_size), hview]
    · rw [hlisteners, List.filter_append, filter_isOf_of_ne (Nat.ne_of_gt h.lt_size),
        List.append_nil, h.listeners]

private theorem Attached.retained_mount (hattached : w.Attached) {options : MountOptions}
    {settings : Settings} {root : NodeId} (hroot : options.target.resolve w.doc = .ok root) :
    (w.mount options settings).1.Retained w.views.size
      (compile w.doc options.store settings root).bindings := by
  have hwf := hattached.doc.wellFormed
  obtain ⟨-, hviews, -, hlisteners⟩ := mount_eq w options settings hroot rfl
    (contains_modelInputs hwf options.store settings root) rfl
  obtain ⟨-, -, hfound⟩ := compile_displays hwf options.store settings root
  refine ⟨⟨_, ?_, Or.inr (wired_mounted root settings options.store fun b hb => (hfound b hb).1)⟩, ?_⟩
  · rw [hviews, Array.getElem?_push_size]
  · have hbefore : (w.listeners.filter fun entry => entry.2.isOf w.views.size) = [] := by
      refine List.filter_eq_nil_iff.mpr fun ⟨node, listener⟩ hmem => ?_
      cases listener with
      | callback callback => simp [Listener.isOf]
      | model other key =>
        obtain ⟨-, view, hview, -⟩ := hattached.inputs node other key hmem
        have hlt := (Array.getElem?_eq_some_iff.mp hview).1
        simpa [Listener.isOf] using Nat.ne_of_lt hlt
    rw [hlisteners, List.filter_append, hbefore, List.nil_append, modelInputs_compile hwf]
    rw [List.filter_map]
    simp [Function.comp_def, Listener.isOf]

theorem upheld_retained (id : ViewId) (bindings : List Binding) :
    Upheld fun w => w.doc.Reachable ∧ w.Retained id bindings where
  host := by
    intro w after hhost h
    obtain ⟨new, hlisteners, hnew⟩ := hhost.listeners
    refine ⟨hhost.doc.reachable h.1, by rw [hhost.views]; exact h.2.view, ?_⟩
    have hnone : (new.filter fun entry => entry.2.isOf id) = [] := by
      refine List.filter_eq_nil_iff.mpr fun entry hentry => ?_
      obtain ⟨callback, hcallback⟩ := hnew entry hentry
      simp [hcallback, Listener.isOf]
    rw [hlisteners, List.filter_append, hnone, List.append_nil, h.2.listeners]
  emit _ h := ⟨h.1, h.2.view, h.2.listeners⟩
  notified other _ hf h := ⟨h.1, h.2.modifyView other fun _ => hf.retains⟩
  changed other _ hf h := ⟨h.1, h.2.modifyView other fun _ => hf.retains⟩
  registered other _ hwatch h := ⟨h.1, h.2.modifyView other fun _ hv => hv.register hwatch⟩
  mount options settings h :=
    ⟨(edits_mount h.1 options settings).reachable h.1, h.2.mount h.1 options settings⟩

/-! ## A change of an input -/

private theorem Retained.listenersOf_eq (h : x.Retained id bindings)
    (hapart : bindings.Pairwise fun a b => a.cell? ≠ b.cell?) {node : NodeId} {key : String}
    (hmodel : .model node key ∈ bindings)
    (hown : ∀ listener ∈ x.listenersOf node, ∃ k, listener = .model id k) :
    x.listenersOf node = [.model id key] := by
  have hsame : x.listenersOf node = ((x.listeners.filter fun entry => entry.2.isOf id).filter
      fun entry => entry.1 == node).map Prod.snd := by
    rw [listenersOf, List.filter_filter]
    congr 1
    refine List.filter_congr fun entry hentry => ?_
    by_cases hnode : (entry.1 == node) = true
    · obtain ⟨k, hk⟩ := hown entry.2
        (List.mem_map_of_mem (List.mem_filter.mpr ⟨hentry, hnode⟩))
      simp [hnode, hk, Listener.isOf]
    · simp [hnode]
  rw [hsame, h.listeners]
  exact listeners_model id hapart hmodel

variable {call : Caller} {view : View} {key : String} {node : NodeId}

/-- A change of an input that is told to one view model alone, and there disturbed by nobody. The
binding of the input shows the text first, by the change itself. -/
theorem dispatch_showText (hsound : x.Sound) (hview : x.views[id]? = some view)
    (hheld : x.isAlive id = true) (halive : view.disposed = false) (hkey : key ∉ view.inFlight)
    (hvalue : x.doc.supportsValue node = true) (hlisteners : x.listenersOf node = [.model id key])
    (hcall : Undisturbed call id (fun _ _ => True) (view.registry.watchers key)) (text : String) :
    let y := x.dispatch call node text
    y.2 = 1 ∧
      y.1.views[id]? = some { view with store := view.store.set key (.string text) } ∧
      y.1.doc = (.model node key :: Binding.besides (if view.settings.echo then none else some node)
        (view.registry.watchers key)).foldl (.showText text) x.doc := by
  intro y
  obtain ⟨typed, htyped⟩ : ∃ typed : World,
      typed = { x with doc := x.doc.setValue node text } := ⟨_, rfl⟩
  obtain ⟨pinned, hpinned⟩ : ∃ pinned,
      pinned = typed.modifyView id fun v => { v with pins := v.pins + 1 } := ⟨_, rfl⟩
  have hview' : pinned.views[id]? = some { view with pins := view.pins + 1 } := by
    subst hpinned htyped
    exact getElem?_modifyView_self hview _
  have hset : pinned.doc.value? node = some text := by
    obtain ⟨value, hold⟩ := Option.isSome_iff_exists.mp hvalue
    subst hpinned htyped
    change (x.doc.setValue node text).value? node = some text
    rw [Document.value?_setValue, if_pos rfl, hold]
    rfl
  have hsound' : (pinned.modifyView id fun v =>
      { v with store := v.store.set key (.string text) }).Sound := by
    have htyping : x.Keeps typed := by
      subst htyped
      exact keeps_host rfl rfl
    have hkeeps : x.Keeps pinned := htyping.trans (hpinned ▸ keeps_modifyView _ id (.pins (· + 1)))
    exact (keeps_modifyView _ id (.store (·.set key (.string text))) (hkeeps hsound).1).1
  have hdispatch : y = ((pinned.handleChange call id node key text).modifyView id
      fun v => { v with pins := v.pins - 1 }, 1) := by
    have halive' : typed.isAlive id = true := by
      subst htyped
      exact hheld
    simp only [y, dispatch, hvalue, if_true, hlisteners, List.foldl_cons, List.foldl_nil,
      List.length_singleton, ← htyped, fire, halive', World.pinned, ← hpinned]
  obtain ⟨hdoc, hafter, -⟩ := notifyFrom_showText (R := fun _ _ => True)
    ⟨fun _ => trivial, fun _ _ => trivial, fun _ _ _ => trivial, fun _ _ _ => trivial,
      fun _ _ => trivial⟩ hsound' (getElem?_modifyView_self hview' _) hcall halive hkey
    (if view.settings.echo then none else some node)
  rw [hdispatch, handleChange_of_alive hview' halive hset]
  refine ⟨rfl, getElem?_modifyView_self hafter _, hdoc.trans ?_⟩
  rw [Store.get?_set_self]
  subst hpinned htyped
  rfl

/-- What is seen of a document before and after a text was typed under a key of a view model. -/
structure Typed (view : View) (key text : String) (before after : Document) : Prop where
  inputs : ∀ node, .model node key ∈ view.registry.watchers key → after.value? node = some text
  texts : ∀ node, .text node key ∈ view.registry.watchers key →
    after.textContent? node = some text
  interpolations : ∀ node template, .interpolation node template ∈ view.registry.watchers key →
    after.textContent? node = some (template.leading ++ text ++ template.trailing)
  others : ∀ other ≠ key, ∀ b ∈ view.registry.watchers other,
    ∃ shown, b.Shows before shown ∧ b.Shows after shown

private theorem typed_of_displays {old : Nat} (hdisplays : x.doc.Displays old bindings)
    (hshowing : ∀ b ∈ bindings, b.isWatch = false) (hwired : view.Wired bindings)
    (hmodel : .model node key ∈ bindings) {origin : Option NodeId}
    (horigin : ∀ other ∈ origin, other = node) (text : String) :
    Typed view key text x.doc ((.model node key ::
      Binding.besides origin (view.registry.watchers key)).foldl (.showText text) x.doc) := by
  obtain ⟨found, hfound⟩ : ∃ found,
      found = .model node key :: Binding.besides origin (view.registry.watchers key) := ⟨_, rfl⟩
  rw [← hfound]
  have hmem : ∀ b : Binding, b.isWatch = false → ∀ k, b ∈ view.registry.watchers k ↔
      b ∈ bindings ∧ b.key = k := fun b hb k => hwired.mem_watchers_iff hb k
  have hclear : ∀ b ∈ bindings, ∀ c ∈ found,
      c.Fits x.doc old ∧ (c = b ∨ b.cell? ≠ c.cell?) := by
    intro b hb c hc
    rw [hfound] at hc
    rcases List.mem_cons.mp hc with rfl | hc
    · exact ⟨hdisplays.fits _ hmodel, hdisplays.eq_or_cell?_ne hb hmodel⟩
    · have hkept := (List.mem_filter.mp hc).1
      cases hwatch : c.isWatch with
      | true =>
        cases c with
        | watch k callback =>
          refine ⟨trivial, Or.inr ?_⟩
          cases b with
          | watch => exact nomatch hshowing _ hb
          | interpolation | text | model => simp [Binding.cell?]
        | interpolation | text | model => cases hwatch
      | false =>
        have hc := ((hmem c hwatch key).mp hkept).1
        exact ⟨hdisplays.fits c hc, hdisplays.eq_or_cell?_ne hb hc⟩
  have hin : ∀ b ∈ bindings, (b ∈ found ↔ b.key = key) := by
    intro b hb
    rw [hfound, List.mem_cons, Binding.besides, List.mem_filter, hmem b (hshowing b hb) key]
    refine ⟨?_, fun hkey => ?_⟩
    · rintro (rfl | ⟨⟨-, hkey⟩, -⟩)
      · rfl
      · exact hkey
    · -- Only the binding of the input itself is left out, and this one has shown the text before.
      refine (hdisplays.eq_or_cell?_ne hb hmodel).imp Eq.symm fun hcell => ⟨⟨hb, hkey⟩, ?_⟩
      cases origin with
      | none => rfl
      | some other =>
        obtain rfl := horigin other rfl
        simpa using View.isModelOf_eq_false hcell
  have hholds : ∀ b ∈ bindings, ∃ shown, b.Shows x.doc shown ∧
      b.Shows (found.foldl (.showText text) x.doc) (if b.key = key then text else shown) := by
    intro b hb
    obtain ⟨shown, hshown⟩ := hdisplays.holds b hb
    have hafter := Document.holds_foldl_showText hdisplays.size (hdisplays.fits b hb) hshown
      found (hclear b hb) text
    simp only [hin b hb] at hafter
    exact ⟨shown, Document.shows_of_holds hshown, Document.shows_of_holds hafter⟩
  have hself : ∀ b : Binding, b.isWatch = false → b ∈ view.registry.watchers key →
      b.Shows (found.foldl (.showText text) x.doc) text := by
    intro b hwatch hb
    obtain ⟨hb, hkey⟩ := (hmem b hwatch key).mp hb
    obtain ⟨shown, -, hshown⟩ := hholds b hb
    rwa [if_pos hkey] at hshown
  refine ⟨fun m => hself (.model m key) rfl, fun e => hself (.text e key) rfl,
    fun t template => hself (.interpolation t template) rfl, fun other hother b hb => ?_⟩
  cases hwatch : b.isWatch with
  | true =>
    cases b with
    | watch => exact ⟨"", trivial, trivial⟩
    | interpolation | text | model => cases hwatch
  | false =>
    obtain ⟨hkept, rfl⟩ := (hmem b hwatch other).mp hb
    obtain ⟨shown, hbefore, hafter⟩ := hholds b hkept
    rw [if_neg hother] at hafter
    exact ⟨shown, hbefore, hafter⟩

/-! ## Whole runs -/

private theorem exec_get {handle : Nat} (hreach : x.reach? handle = some id)
    (hview : x.views[id]? = some view) (hkey : Text.trim key = key) (told : Option Value) :
    (x.exec call told (.get handle key)).2 = .value (view.store.get? key) := by
  simp only [exec, onView_eq hreach hview, hkey, World.pinned]

/-- Let a view model be mounted on any document, at top level or by a callback, and let nothing else
change the document after that than its bindings and what is typed into its inputs. A text that is
typed into an input to which nothing else listens goes into the data as it is, whatever it is, and
changes nothing else there. Everything that shows the key of the input shows the text, and what
shows another key still shows what it did, as long as the watchers of the key leave the document and
the view model alone. It may be typed between the steps of a run or by a callback
(`upheld_retained`), even while other keys are being notified. -/
theorem runAll_typed {doc : Document} (hdoc : doc.Reachable) (behaviour : Behaviour) (depth : Nat)
    (before : List Step) :
    let start := (ofDocument doc).runAll behaviour depth before
    (start.Sound ∧ start.Attached) ∧
    ∀ w : World, w.Sound → w.Attached → ∀ options settings root,
      options.target.resolve w.doc = .ok root →
      let mounted := (w.mount options settings).1
      let id := w.views.size
      let bindings := (compile w.doc options.store settings root).bindings
      (∀ later, (mounted.runAll behaviour depth later).Sound ∧
        (mounted.runAll behaviour depth later).Retained id bindings) ∧
      ∀ x : World, x.Sound → x.Retained id bindings →
        Relation.ReflTransGen (Document.WrittenBy bindings) mounted.doc x.doc →
        ∀ view, x.views[id]? = some view → x.isAlive id = true → view.disposed = false →
        ∀ node key, .model node key ∈ view.registry.watchers key → key ∉ view.inFlight →
        (∀ listener ∈ x.listenersOf node, ∃ k, listener = .model id k) →
        ∀ call, Undisturbed call id (fun _ _ => True) (view.registry.watchers key) →
        ∀ told text, ∃ after store,
          x.exec call told (.dispatch node text) = (after, .count 1) ∧
          after.views[id]? = some { view with store } ∧
          (∀ handle, after.reach? handle = some id →
            (after.exec call told (.get handle key)).2 = .value (some (.string text))) ∧
          store.get? key = some (.string text) ∧
          (∀ other ≠ key, store.get? other = view.store.get? other) ∧
          Typed view key text x.doc after.doc := by
  intro start
  refine ⟨⟨(sound_runAll doc behaviour depth before).1, attached_runAll hdoc behaviour depth before⟩,
    ?_⟩
  intro w hsound hattached options settings root hroot mounted id bindings
  have hwf := hattached.doc.wellFormed
  obtain ⟨hsize, hpairwise, hfound⟩ := compile_displays hwf options.store settings root
  obtain ⟨hcompiled, -⟩ := mount_eq w options settings hroot rfl
    (contains_modelInputs hwf options.store settings root) rfl
  refine ⟨fun later => ?_, ?_⟩
  · have hmoves : Moves (World.call behaviour depth) w mounted := moves_mount w options settings
    have hmounted : mounted.Sound := (hmoves.keeps (attends_call behaviour depth) hsound).1
    have hdoc' : mounted.doc.Reachable :=
      (edits_mount hattached.doc options settings).reachable hattached.doc
    exact ⟨(keeps_runAll behaviour depth mounted later hmounted).1,
      ((upheld_retained id bindings).lasting.runAll behaviour depth mounted later
        ⟨hdoc', hattached.retained_mount hroot⟩).2⟩
  intro x hsound hretained hwritten view hview hheld halive node key hmodel hkey hown call hcall
    told text
  have hdisplays : x.doc.Displays w.doc.size bindings := by
    refine Document.Displays.written ?_ hwritten
    rw [hcompiled]
    exact ⟨hpairwise, hsize, fun b hb => (hfound b hb).2.1, fun b hb => ⟨_, (hfound b hb).2.2⟩⟩
  have hwired : view.Wired bindings := by
    obtain ⟨kept, hkept, hretains⟩ := hretained.view
    obtain rfl := Option.some.inj (hview.symm.trans hkept)
    exact hretains.resolve_left (by simp [halive])
  have hbound := ((hwired.mem_watchers_iff rfl key).mp hmodel).1
  have hinput : (node, key) ∈ (compile w.doc options.store settings root).modelInputs := by
    rw [modelInputs_compile hwf]
    exact List.mem_filterMap.mpr ⟨_, hbound, rfl⟩
  have htrimmed := trimmed_of_mem_modelInputs hattached.doc hinput
  obtain ⟨hcount, hview', hafter⟩ := dispatch_showText hsound hview hheld halive hkey
    (hdisplays.fits _ hbound).2 (hretained.listenersOf_eq hpairwise hbound hown) hcall text
  refine ⟨(x.dispatch call node text).1, view.store.set key (.string text), ?_, hview',
    fun handle hreach => ?_, Store.get?_set_self _ _ _, fun other hother =>
      Store.get?_set_of_ne _ hother _, ?_⟩
  · simp only [exec, hcount]
  · rw [exec_get hreach hview' htrimmed, Store.get?_set_self]
  · rw [hafter]
    refine typed_of_displays hdisplays (fun b hb => (hfound b hb).1) hwired hbound ?_ text
    intro other hother
    split at hother <;> simp_all

/-- An input under an element that shows the name in its place, and another one with the name. -/
def twoWayForm : Document :=
  (((((Document.empty.appendElement Document.root "div" [⟨"v-text", "name"⟩]).1.appendElement 1
    "input" [⟨"v-model", "name"⟩]).1.appendElement Document.root "textarea"
    [⟨"v-model", "name"⟩]).1.appendElement Document.root "p" [⟨"v-text", "other"⟩]).1.appendText
    Document.root "Hi \x7b\x7bname\x7d\x7d!").1

/-- The text is typed into the input that has lost its place, and read from the other places. -/
theorem twoWayForm_typed :
    let x := ((ofDocument twoWayForm).mount { target := .node Document.root } {}).1.runAll idle 9
      [.watch 0 "name" 0, .set 0 "name" (.literal (.string "Ada"))]
    let text := " \x7b\x7bother\x7d\x7d <b>"
    x.doc.parent? 2 = none ∧ ∃ after view,
      x.exec (World.call idle 9) none (.dispatch 2 text) = (after, .count 1) ∧
      x.views[0]? = some view ∧ Typed view "name" text x.doc after.doc ∧
      after.doc.value? 3 = some text ∧ after.doc.textContent? 1 = some text := by
  intro x text
  have hdoc : twoWayForm.Reachable :=
    .appendText _ _ (.appendElement _ _ _ (.appendElement _ _ _
      (.appendElement _ _ _ (.appendElement _ _ _ .empty))))
  have hroot : (Target.node Document.root).resolve twoWayForm = .ok Document.root := by
    decide +kernel
  obtain ⟨⟨hsound, hattached⟩, htyped⟩ := runAll_typed hdoc idle 9 []
  obtain ⟨hlater, hdispatch⟩ := htyped (ofDocument twoWayForm) hsound hattached
    { target := .node Document.root } {} Document.root hroot
  obtain ⟨hsound', hretained⟩ :=
    hlater [.watch 0 "name" 0, .set 0 "name" (.literal (.string "Ada"))]
  -- To set the name has shown it by the bindings of the name.
  have hwritten : Relation.ReflTransGen
      (Document.WrittenBy (compile twoWayForm .empty {} Document.root).bindings)
      ((ofDocument twoWayForm).mount { target := .node Document.root } {}).1.doc x.doc := by
    have hshown : x.doc = ((compile twoWayForm .empty {} Document.root).bindings.filter
        fun b => b.key == "name").foldl (Document.showText "Ada")
          ((ofDocument twoWayForm).mount { target := .node Document.root } {}).1.doc := by
      decide +kernel
    rw [hshown]
    exact Document.writtenBy_foldl_showText (List.filter_subset_self _) _ _
  have hwatchers : (x.views[0]?.map fun v => v.registry.watchers "name") =
      some [.model 2 "name", .text 1 "name", .model 3 "name",
        .interpolation 5 ⟨"Hi ", "\x7b\x7bname\x7d\x7d", "name", "!"⟩, .watch "name" ⟨0, 0⟩] := by
    decide +kernel
  have hstate : (x.views[0]?.map fun v => (v.disposed, v.inFlight)) = some (false, []) := by
    decide +kernel
  obtain ⟨view, hview, hbindings⟩ := Option.map_eq_some_iff.mp hwatchers
  rw [hview] at hstate
  obtain ⟨halive, hidle⟩ := Prod.mk.inj (Option.some.inj hstate)
  have hheard : x.listenersOf 2 = [.model 0 "name"] := by decide +kernel
  have hcall : Undisturbed (World.call idle 9) 0 (fun _ _ => True)
      (view.registry.watchers "name") := fun _ _ _ _ _ => ⟨rfl, rfl, trivial⟩
  obtain ⟨after, store, hexec, -, -, -, -, hseen⟩ := hdispatch x hsound' hretained hwritten view hview
    (by decide +kernel) halive 2 "name" (by simp [hbindings]) (by simp [hidle])
    (by rw [hheard]; simp [ofDocument]) (World.call idle 9) hcall none text
  exact ⟨by decide +kernel, after, view, hexec, hview, hseen,
    hseen.inputs 3 (by simp [hbindings]), hseen.texts 1 (by simp [hbindings])⟩

end World
end ViewBinding
