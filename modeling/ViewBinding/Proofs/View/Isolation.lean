import Mathlib
import ViewBinding.Proofs.View.Division
import ViewBinding.Proofs.View.Mounting

/-!
# View models that do not interfere

Two view models are mounted on parts of a document that have no node in common. Whatever one of
them does at the same time in two worlds that are alike for it, it does the same, they stay alike,
and what belongs to the other stays as it is (`Advance`). So in any interleaving of calls on both,
each of them gives the results, the data and the markup that it gives alone (`runAll_isolated`).
-/

namespace ViewBinding

/-- The steps that concern one view model: calls on it, and changes of its inputs. Callbacks that
they register run scripts of its own. -/
def Step.Concerns (scripts : ScriptId → Prop) (inputs : NodeId → Prop) (id : ViewId) : Step → Prop
  | .get handle _ | .data handle | .write handle _ _ | .set handle _ _ | .notify handle _
  | .bindingCount handle _ | .watchedKeys handle | .dispose handle => handle = id
  | .watch handle _ script => handle = id ∧ scripts script
  | .dispatch node _ => inputs node
  | _ => False

theorem Step.Concerns.mono {scripts : ScriptId → Prop} {inputs more : NodeId → Prop} {id : ViewId}
    {step : Step} (h : step.Concerns scripts inputs id) (hmore : ∀ node, inputs node → more node) :
    step.Concerns scripts more id := by
  cases step with
  | dispatch node text => exact hmore node h
  | _ => exact h

/-- The steps for one view model among those for several. -/
def stepsFor (id : ViewId) (steps : List (ViewId × Step)) : List Step :=
  (steps.filter fun entry => entry.1 == id).map Prod.snd

private theorem stepsFor_cons_self (id : ViewId) (step : Step) (rest : List (ViewId × Step)) :
    stepsFor id ((id, step) :: rest) = step :: stepsFor id rest := by
  simp [stepsFor]

private theorem stepsFor_cons_of_ne {id other : ViewId} (h : other ≠ id) (step : Step)
    (rest : List (ViewId × Step)) : stepsFor id ((other, step) :: rest) = stepsFor id rest := by
  simp [stepsFor, h]

/-- The scripts of the callbacks of each view model concern only this view model. -/
def Behaviour.Apart (behaviour : Behaviour) (scripts : ViewId → ScriptId → Prop)
    (inputs : ViewId → NodeId → Prop) : Prop :=
  ∀ id script, scripts id script → ∀ count told, ∀ step ∈ behaviour script count told,
    step.Concerns (scripts id) (inputs id) id

namespace World

open Trace

variable {D : Division} {id other : ViewId} {w x y : World} {call : Caller} {key : String}

/-! ## What is alike in both worlds -/

namespace Alongside

private theorem views (h : Alongside D id x y) : (x.views[id]? = none ∧ y.views[id]? = none) ∨
    ∃ v v', x.views[id]? = some v ∧ y.views[id]? = some v' ∧ v.Corresponds
      (Binding.Corresponds (D.region id) (callbacks id x.trace) (callbacks id y.trace)) v' := by
  have hview := h.view
  generalize x.views[id]? = v at hview ⊢
  generalize y.views[id]? = v' at hview ⊢
  cases hview with
  | none => exact Or.inl ⟨rfl, rfl⟩
  | some hview => exact Or.inr ⟨_, _, rfl, rfl, hview⟩

private theorem isDisposed (h : Alongside D id x y) : y.isDisposed id = x.isDisposed id := by
  rcases h.views with ⟨hx, hy⟩ | ⟨v, v', hx, hy, hview⟩ <;> simp only [World.isDisposed, hx, hy]
  exact hview.disposed

private theorem isInFlight (h : Alongside D id x y) (key : String) :
    y.isInFlight id key = x.isInFlight id key := by
  rcases h.views with ⟨hx, hy⟩ | ⟨v, v', hx, hy, hview⟩ <;> simp only [World.isInFlight, hx, hy]
  rw [hview.inFlight]

private theorem isDirty (h : Alongside D id x y) (key : String) :
    y.isDirty id key = x.isDirty id key := by
  rcases h.views with ⟨hx, hy⟩ | ⟨v, v', hx, hy, hview⟩ <;> simp only [World.isDirty, hx, hy]
  rw [hview.dirty]

private theorem isAlive (h : Alongside D id x y) : y.isAlive id = x.isAlive id := by
  rcases h.views with ⟨hx, hy⟩ | ⟨v, v', hx, hy, hview⟩ <;>
    simp only [World.isAlive, h.handles, hx, hy]
  rw [hview.pins]

private theorem watchers (h : Alongside D id x y) (key : String) :
    List.Forall₂ (Binding.Corresponds (D.region id) (callbacks id x.trace) (callbacks id y.trace))
      (x.watchers id key) (y.watchers id key) := by
  rcases h.views with ⟨hx, hy⟩ | ⟨v, v', hx, hy, hview⟩ <;> simp only [World.watchers, hx, hy]
  · exact .nil
  · exact hview.registry.watchers key

private theorem listenersOf (h : Alongside D id x y) (node : NodeId) :
    y.listenersOf node = x.listenersOf node := by
  rw [World.listenersOf, World.listenersOf, h.listeners]

end Alongside

/-- Two worlds that are alike for a view model have come from others by what it has done in both. -/
structure Advance (D : Division) (id : ViewId) (start : World × World) (x y : World) : Prop where
  left : x.Parted D
  right : y.Parted D
  alongside : Alongside D id x y
  others : ∀ other, id ≠ other → Unmoved D other start.1 x
  grows : callbacks id start.1.trace <+: callbacks id x.trace
  grows' : callbacks id start.2.trace <+: callbacks id y.trace

/-- Callbacks that have the same place let a view model do the same in both worlds. -/
def Paired (D : Division) (id : ViewId) (call : Caller) : Prop :=
  ∀ {start : World × World} {x y : World} {place : Nat} {c c' : Callback} (notice : Notice),
    Advance D id start x y → (callbacks id x.trace)[place]? = some c →
      (callbacks id y.trace)[place]? = some c' → c'.script = c.script →
        Advance D id start (call c notice x) (call c' notice y)

variable {start : World × World}

namespace Advance

theorem refl (hx : x.Parted D) (hy : y.Parted D) (h : Alongside D id x y) :
    Advance D id (x, y) x y :=
  ⟨hx, hy, h, fun other _ => .refl D other x, List.prefix_rfl, List.prefix_rfl⟩

theorem trans {x' y' : World} (h : Advance D id start x y) (h' : Advance D id (x, y) x' y') :
    Advance D id start x' y' :=
  ⟨h'.left, h'.right, h'.alongside,
    fun other hne => (h.others other hne).trans (h'.others other hne),
    h.grows.trans h'.grows, h.grows'.trans h'.grows'⟩

private theorem stir {x' y' : World} (h : Advance D id start x y) (hx : Stir D id x x')
    (hy : Stir D id y y') (halike : Alongside D id x' y') : Advance D id start x' y' :=
  ⟨h.left.stir hx, h.right.stir hy, halike,
    fun other hne => (h.others other hne).trans (h.left.unmoved hx hne),
    h.grows.trans (hx.callbacks_le id), h.grows'.trans (hy.callbacks_le id)⟩

private theorem emit (h : Advance D id start x y) (e e' : Event) (he : e.Mute) (he' : e'.Mute) :
    Advance D id start (x.emit e) (y.emit e') :=
  h.stir (.emit x he) (.emit y he') (h.alongside.emit he he')

private theorem write (h : Advance D id start x y) (change : HostChange)
    (hnode : D.region id change.node) : Advance D id start (x.withDoc (x.doc.perform change))
      (y.withDoc (y.doc.perform change)) :=
  h.stir (.write x hnode) (.write y hnode) (h.alongside.write h.left h.right hnode)

private theorem perform (h : Advance D id start x y) {change : HostChange}
    (hnode : D.region id change.node) : Advance D id start (x.perform change) (y.perform change) :=
  (h.emit (.changed change) (.changed change) trivial trivial).write change hnode

private theorem changed (h : Advance D id start x y) {f : View → View} (hf : View.Change f) :
    Advance D id start (x.modifyView id f) (y.modifyView id f) :=
  h.stir (.modify x f) (.modify y f) (h.alongside.modify fun hv => hv.change hf)

private theorem notified (h : Advance D id start x y) {f : View → View} (hf : View.Notified f) :
    Advance D id start (x.modifyView id f) (y.modifyView id f) :=
  h.stir (.modify x f) (.modify y f)
    (h.alongside.modify fun hv => hv.notified (fun _ _ hb => hb.key_eq) hf)

private theorem foldl {α : Type} {f g : World → α → World} {items : List α}
    (hfg : ∀ a ∈ items, ∀ {x y : World}, Advance D id start x y →
      Advance D id start (f x a) (g y a)) (h : Advance D id start x y) :
    Advance D id start (items.foldl f x) (items.foldl g y) := by
  induction items generalizing x y with
  | nil => exact h
  | cons a rest ih =>
    obtain ⟨ha, hrest⟩ := List.forall_mem_cons.mp hfg
    exact ih hrest (ha h)

/-! ## Notifications -/

private theorem applyBinding (hcall : Paired D id call) (h : Advance D id start x y)
    {b b' : Binding}
    (hb : b.Corresponds (D.region id) (callbacks id x.trace) (callbacks id y.trace) b')
    (value : Option Value) :
    Advance D id start (x.applyBinding call b value) (y.applyBinding call b' value) := by
  cases hb with
  | watches hc hc' hscript => exact hcall _ h hc hc' hscript
  | shows hwatch hregion =>
    cases b with
    | watch => cases hwatch
    | interpolation node template => exact h.perform (hregion node rfl)
    | text node key => exact h.perform (hregion node rfl)
    | model node key => exact h.perform (hregion node rfl)

private theorem visitBinding (hcall : Paired D id call) (h : Advance D id start x y) (key : String)
    (origin : Option NodeId) (viewOnly : Bool) {b b' : Binding}
    (hb : b.Corresponds (D.region id) (callbacks id x.trace) (callbacks id y.trace) b') :
    Advance D id start (World.visitBinding call id key origin viewOnly x b)
      (World.visitBinding call id key origin viewOnly y b') := by
  rcases h.alongside.views with ⟨hx, hy⟩ | ⟨v, v', hx, hy, hview⟩
  · simp only [World.visitBinding, hx, hy]
    exact h
  · have hleft : World.visitBinding call id key origin viewOnly y b' =
        if v.disposed || (viewOnly && b.isWatch) || origin.any b.isModelOf then y
        else (y.emit (.applied id b' (v.store.get? key))).applyBinding call b'
          (v.store.get? key) := by
      have hmodel : b'.isModelOf = b.isModelOf := funext hb.isModelOf_eq
      rw [visitBinding_of_view hy, hview.disposed, hview.store, hb.isWatch_eq, hmodel]
    rw [visitBinding_of_view hx, hleft]
    split
    · exact h
    · have happlied := (refl h.left h.right h.alongside).emit (.applied id b (v.store.get? key))
        (.applied id b' (v.store.get? key)) trivial trivial
      exact h.trans
        (happlied.applyBinding hcall (hb.mono happlied.grows happlied.grows') (v.store.get? key))

private theorem foldl_visitBinding (hcall : Paired D id call) (h : Advance D id start x y)
    (key : String) (origin : Option NodeId) (viewOnly : Bool) {bindings bindings' : List Binding}
    (hbindings : List.Forall₂ (Binding.Corresponds (D.region id) (callbacks id start.1.trace)
      (callbacks id start.2.trace)) bindings bindings') :
    Advance D id start (bindings.foldl (World.visitBinding call id key origin viewOnly) x)
      (bindings'.foldl (World.visitBinding call id key origin viewOnly) y) := by
  induction hbindings generalizing x y with
  | nil => exact h
  | cons hb _ ih =>
    exact ih (h.visitBinding hcall key origin viewOnly (hb.mono h.grows h.grows'))

private theorem runPass (hcall : Paired D id call) (h : Advance D id start x y) (key : String)
    (origin : Option NodeId) (viewOnly : Bool) :
    Advance D id start (x.runPass call id key origin viewOnly).1
        (y.runPass call id key origin viewOnly).1 ∧
      (y.runPass call id key origin viewOnly).2 = (x.runPass call id key origin viewOnly).2 := by
  have hbindings := h.alongside.watchers key
  refine ⟨h.trans ?_, hbindings.length_eq.symm⟩
  have hbegan := ((refl h.left h.right h.alongside).notified .beginPass).emit
    (.passBegan id key viewOnly) (.passBegan id key viewOnly) trivial trivial
  have hran := hbegan.foldl_visitBinding hcall key origin viewOnly hbindings
  exact (hran.notified .endPass).emit (.passEnded id key) (.passEnded id key) trivial trivial

private theorem repeatPasses (hcall : Paired D id call) (h : Advance D id start x y) (key : String)
    (remaining ran : Nat) :
    Advance D id start (x.repeatPasses call id key remaining ran).1
        (y.repeatPasses call id key remaining ran).1 ∧
      (y.repeatPasses call id key remaining ran).2 =
        (x.repeatPasses call id key remaining ran).2 := by
  induction remaining generalizing x y ran with
  | zero =>
    have hcleared := h.notified (.clear key)
    unfold World.repeatPasses
    dsimp only
    rw [h.alongside.isDirty, hcleared.alongside.isDisposed]
    split
    · exact ⟨(hcleared.runPass hcall key none true).1, rfl⟩
    · exact ⟨hcleared, rfl⟩
  | succ remaining ih =>
    have hcleared := h.notified (.clear key)
    unfold World.repeatPasses
    dsimp only
    rw [h.alongside.isDirty, hcleared.alongside.isDisposed]
    split
    · obtain ⟨hpassed, hcount⟩ := hcleared.runPass hcall key none false
      rw [hcount]
      exact ih hpassed _
    · exact ⟨hcleared, rfl⟩

private theorem notifyFrom (hcall : Paired D id call) (h : Advance D id start x y) (key : String)
    (origin : Option NodeId) :
    Advance D id start (x.notifyFrom call id key origin).1 (y.notifyFrom call id key origin).1 ∧
      (y.notifyFrom call id key origin).2 = (x.notifyFrom call id key origin).2 := by
  unfold World.notifyFrom
  rw [h.alongside.isDisposed, h.alongside.isInFlight]
  split
  · exact ⟨h, rfl⟩
  split
  · exact ⟨(h.notified (.fold key)).emit (.folded id key) (.folded id key) trivial trivial, rfl⟩
  · have hbegan := (h.notified (.beginFrame key)).emit (.frameBegan id key origin)
      (.frameBegan id key origin) trivial trivial
    obtain ⟨hfirst, hcount⟩ := hbegan.runPass hcall key origin false
    obtain ⟨hlast, hran⟩ := hfirst.repeatPasses hcall key (maxPasses - 1)
      (World.runPass call id key origin false _).2
    dsimp only
    rw [hcount, hran]
    exact ⟨(hlast.notified .endFrame).emit (.frameEnded id key _) (.frameEnded id key _) trivial
      trivial, rfl⟩

/-! ## Changes of inputs -/

private theorem handleChange (hcall : Paired D id call) (h : Advance D id start x y) {node : NodeId}
    (hnode : D.region id node) (key text : String) :
    Advance D id start (x.handleChange call id node key text)
      (y.handleChange call id node key text) := by
  have hvalue := Document.value?_of_sight (h.alongside.sight node hnode)
  rcases h.alongside.views with ⟨hx, hy⟩ | ⟨v, v', hx, hy, hview⟩
  · simp only [World.handleChange, hx, hy]
    exact h
  · simp only [World.handleChange, hx, hy, hview.disposed, hview.settings, hvalue]
    split
    · exact h
    · exact ((h.changed (.store (·.set key (.string ((x.doc.value? node).getD text))))).notifyFrom
        hcall key _).1

private theorem fire (hcall : Paired D id call) (h : Advance D id start x y) {node : NodeId}
    (hnode : D.region id node) (text key : String) :
    Advance D id start (World.fire call node text x (.model id key))
      (World.fire call node text y (.model id key)) := by
  simp only [World.fire, h.alongside.isAlive]
  split
  · have hpinned := h.changed (.pins (· + 1))
    exact (hpinned.handleChange hcall hnode key text).changed (.pins (· - 1))
  · exact h

private theorem dispatch (hcall : Paired D id call) (h : Advance D id start x y) {node : NodeId}
    (hnode : D.region id node) (text : String) :
    Advance D id start (x.dispatch call node text).1 (y.dispatch call node text).1 ∧
      (y.dispatch call node text).2 = (x.dispatch call node text).2 := by
  have hvalue : y.doc.supportsValue node = x.doc.supportsValue node :=
    congrArg Option.isSome (Document.value?_of_sight (h.alongside.sight node hnode))
  -- All that listens to the input are model bindings of the view model.
  have hmodels : ∀ listener ∈ x.listenersOf node, ∃ key, listener = .model id key := by
    intro listener hlistener
    obtain ⟨entry, hentry, rfl⟩ := List.mem_map.mp hlistener
    obtain ⟨hmem, hsame⟩ := List.mem_filter.mp hentry
    obtain ⟨other, key, hlistener, hregion⟩ := h.left.listeners entry hmem
    rw [eq_of_beq hsame] at hregion
    exact ⟨key, by rw [hlistener, D.apart hregion hnode]⟩
  unfold World.dispatch
  rw [hvalue, h.alongside.listenersOf]
  split
  · refine ⟨foldl (fun listener hlistener x y hxy => ?_) (h.write (.setValue node text) hnode), rfl⟩
    obtain ⟨key, rfl⟩ := hmodels listener hlistener
    exact hxy.fire hcall hnode text key
  · exact ⟨h, rfl⟩

/-! ## Steps -/

private theorem onView (h : Advance D id start x y) {a b : ViewId → View → World → World × Outcome}
    (hab : ∀ {v v' : View} {x y : World}, Advance D id start x y →
      v.Corresponds (Binding.Corresponds (D.region id) (callbacks id x.trace)
        (callbacks id y.trace)) v' →
      Advance D id start (a id v x).1 (b id v' y).1 ∧ (b id v' y).2 = (a id v x).2) :
    Advance D id start (x.onView id a).1 (y.onView id b).1 ∧
      (y.onView id b).2 = (x.onView id a).2 := by
  have hreach : y.reach? id = x.reach? id := by
    simp only [World.reach?, h.alongside.handles]
    cases hhandle : x.handles[id]? with
    | none => rfl
    | some entry =>
      have halive := h.alongside.isAlive
      rw [← h.left.handles id entry hhandle] at halive
      simp only [Option.bind_eq_bind, Option.bind_some, halive]
  unfold World.onView
  rw [hreach]
  cases hfound : x.reach? id with
  | none => exact ⟨h, rfl⟩
  | some other =>
    obtain rfl : other = id := by
      simp only [World.reach?, Option.bind_eq_bind, Option.bind_eq_some_iff] at hfound
      obtain ⟨entry, hentry, hother⟩ := hfound
      rw [h.left.handles id entry hentry] at hother
      split at hother
      · exact (Option.some.inj hother).symm
      · cases hother
    rcases h.alongside.views with ⟨hx, hy⟩ | ⟨v, v', hx, hy, hview⟩ <;> simp only [hx, hy]
    · exact ⟨h, trivial⟩
    · obtain ⟨hdone, hresult⟩ := hab (h.changed (.pins (· + 1))) hview
      exact ⟨hdone.changed (.pins (· - 1)), hresult⟩

private theorem exec (hcall : Paired D id call) (h : Advance D id start x y) (told : Option Value)
    {step : Step} (hstep : step.Concerns (D.scripts id) (D.region id) id) :
    Advance D id start (x.exec call told step).1 (y.exec call told step).1 ∧
      (y.exec call told step).2 = (x.exec call told step).2 := by
  cases step with
  | dispatch node text =>
    obtain ⟨hdone, hcount⟩ := h.dispatch hcall hstep text
    exact ⟨hdone, congrArg Outcome.count hcount⟩
  | get handle key =>
    obtain rfl := hstep
    refine h.onView fun hxy hview => ⟨hxy, ?_⟩
    rw [hview.store]
  | data handle =>
    obtain rfl := hstep
    refine h.onView fun hxy hview => ⟨hxy, ?_⟩
    rw [hview.store]
  | write handle key operand =>
    obtain rfl := hstep
    refine h.onView fun hxy hview => ⟨hxy.changed (.store (·.set _ _)), ?_⟩
    rw [hview.store]
  | set handle key operand =>
    obtain rfl := hstep
    refine h.onView fun hxy hview => ?_
    have hwritten := hxy.changed (.store (·.set (Text.trim key) (operand.eval told)))
    obtain ⟨hdone, hcount⟩ := hwritten.notifyFrom hcall (Text.trim key) none
    exact ⟨hdone, congrArg Outcome.count hcount⟩
  | notify handle key =>
    obtain rfl := hstep
    refine h.onView fun hxy hview => ?_
    obtain ⟨hdone, hcount⟩ := hxy.notifyFrom hcall (Text.trim key) none
    exact ⟨hdone, congrArg Outcome.count hcount⟩
  | watch handle key script =>
    obtain ⟨rfl, hscript⟩ := hstep
    refine h.onView fun {v v' x y} hxy hview => ?_
    dsimp only
    rw [hview.disposed]
    split
    · exact ⟨hxy, rfl⟩
    · refine ⟨hxy.stir (.watching x (Text.trim key) hscript) (.watching y (Text.trim key) hscript)
        (hxy.alongside.watching hxy.left hxy.right (Text.trim key) script), rfl⟩
  | bindingCount handle key =>
    obtain rfl := hstep
    refine h.onView fun hxy hview => ⟨hxy, ?_⟩
    exact congrArg Outcome.count (hview.registry.watchers (Text.trim key)).length_eq.symm
  | watchedKeys handle =>
    obtain rfl := hstep
    refine h.onView fun hxy hview => ⟨hxy, congrArg Outcome.count ?_⟩
    have hlength := congrArg List.length hview.registry.keys
    rwa [Registry.keys, Dict.keys, List.length_map, Registry.keys, Dict.keys, List.length_map]
      at hlength
  | dispose handle =>
    obtain rfl := hstep
    exact h.onView fun hxy _ => ⟨hxy.changed .dispose, rfl⟩
  | _ => exact hstep.elim

/-! ## Callbacks and runs -/

private theorem execScripted (hcall : Paired D id call) (h : Advance D id start x y)
    (c c' : Callback) (told : Option Value) {step : Step}
    (hstep : step.Concerns (D.scripts id) (D.region id) id) :
    Advance D id start (x.execScripted call c told step) (y.execScripted call c' told step) :=
  (h.exec hcall told hstep).1.emit (.did c step _) (.did c' step _) trivial trivial

end Advance

private theorem paired_call {behaviour : Behaviour}
    (hbehaviour : behaviour.Apart D.scripts D.region)
    (id : ViewId) (depth : Nat) : Paired D id (World.call behaviour depth) := by
  induction depth with
  | zero => exact fun notice h _ _ _ => h.emit (.exhausted _) (.exhausted _) trivial trivial
  | succ depth ih =>
    intro start x y place c c' notice h hc hc' hscript
    have hmem := List.mem_of_getElem? hc
    have hcalled := h.stir (.called x notice hmem) (.called y notice (List.mem_of_getElem? hc'))
      (h.alongside.called h.left h.right hc hc' notice)
    have hown := hbehaviour id c.script (h.left.known id c hmem).1
    unfold World.call
    dsimp only
    rw [h.alongside.counts hc hc', hscript]
    exact hcalled.foldl fun step hstep _ _ hxy =>
      hxy.execScripted ih c c' notice.told (hown _ _ step hstep)

/-- In a run of steps that each concern one view model, every view model has what it has in the run
of the steps that concern it. -/
theorem alongside_runAll {behaviour : Behaviour} (hbehaviour : behaviour.Apart D.scripts D.region)
    (depth : Nat) {steps : List (ViewId × Step)}
    (hsteps : ∀ entry ∈ steps, entry.2.Concerns (D.scripts entry.1) (D.region entry.1) entry.1)
    {alone : ViewId → World} (hx : x.Parted D)
    (h : ∀ id, (alone id).Parted D ∧ Alongside D id x (alone id)) (id : ViewId) :
    (x.runAll behaviour depth (steps.map Prod.snd)).Parted D ∧
      ((alone id).runAll behaviour depth (stepsFor id steps)).Parted D ∧
      Alongside D id (x.runAll behaviour depth (steps.map Prod.snd))
        ((alone id).runAll behaviour depth (stepsFor id steps)) := by
  induction steps generalizing x alone with
  | nil => exact ⟨hx, h id⟩
  | cons entry rest ih =>
    obtain ⟨hstep, hrest⟩ := List.forall_mem_cons.mp hsteps
    obtain ⟨acting, step⟩ := entry
    obtain ⟨hdone, -⟩ := (Advance.refl hx (h acting).1 (h acting).2).exec
      (paired_call hbehaviour acting depth) none hstep
    -- The step is made in the world of the acting view model and left out in the others.
    obtain ⟨next, hacting, hkept⟩ : ∃ next : ViewId → World,
        next acting = ((alone acting).run behaviour depth step).1 ∧
          ∀ id, id ≠ acting → next id = alone id :=
      ⟨Function.update alone acting _, Function.update_self .., fun _ hid =>
        Function.update_of_ne hid ..⟩
    have hboth : ∀ id, (next id).Parted D ∧
        Alongside D id (x.run behaviour depth step).1 (next id) := by
      intro id
      by_cases hid : id = acting
      · subst hid
        rw [hacting]
        exact ⟨hdone.right, hdone.alongside⟩
      · rw [hkept id hid]
        exact ⟨(h id).1, (h id).2.unmoved (hdone.others id (Ne.symm hid))⟩
    have hnext := ih hrest hdone.left hboth
    by_cases hid : id = acting
    · subst hid
      rw [hacting] at hnext
      rw [stepsFor_cons_self]
      exact hnext
    · rw [hkept id hid] at hnext
      rw [stepsFor_cons_of_ne (Ne.symm hid)]
      exact hnext

/-! ## Mounting on a part -/

/-- A world in which view models were mounted on their parts of a document, and nothing else has
happened since. -/
structure Staged (D : Division) (w : World) : Prop where
  parted : w.Parted D
  handles : w.handles.size = w.views.size
  views : ∀ (id : ViewId) (v : View), w.views[id]? = some v → D.region id v.root ∧
    ∃ bindings, v = .mounted v.root v.settings v.store bindings ∧ ∀ b ∈ bindings,
      b.isWatch = false ∧ ∀ node, b.target? = some node → D.region id node
  /-- The parts of view models that are still to come are as they were. -/
  untouched : ∀ id, w.views.size ≤ id → ∀ node, D.region id node →
    w.doc.children node = D.doc.children node

private theorem staged_ofDocument (hwf : D.doc.WellFormed) : (ofDocument D.doc).Staged D where
  parted := ⟨.refl hwf, by simp [ofDocument], by simp [ofDocument],
    by simp [ofDocument, callbacks, registrations], by simp [ofDocument, callbacks, registrations]⟩
  handles := rfl
  views := by simp [ofDocument]
  untouched := fun _ _ _ _ => rfl

/-- No callback is registered or counted. -/
def Uncalled (w after : World) : Prop :=
  after.calls = w.calls ∧ ∀ id, callbacks id after.trace = callbacks id w.trace

theorem Uncalled.trans {a b c : World} (hab : a.Uncalled b) (hbc : b.Uncalled c) : a.Uncalled c :=
  ⟨hbc.1.trans hab.1, fun id => (hbc.2 id).trans (hab.2 id)⟩

private theorem uncalled_emit (w : World) {e : Event}
    (he : ∀ id, (e.added id).filterMap Binding.callback? = []) : w.Uncalled (w.emit e) := by
  refine ⟨rfl, fun id => (callbacks_cons _ _).trans ?_⟩
  rw [he, List.append_nil]

private theorem uncalled_mount (w : World) (options : MountOptions) (settings : Settings)
    (hfound : ∀ root, ∀ b ∈ (compile w.doc options.store settings root).bindings,
      b.isWatch = false) : w.Uncalled (w.mount options settings).1 := by
  unfold World.mount
  split
  · exact ⟨rfl, fun _ => rfl⟩
  rename_i root _
  have hnone : ∀ b ∈ (compile w.doc options.store settings root).bindings, b.callback? = none := by
    intro b hb
    have hwatch := hfound root b hb
    cases b with
    | watch => cases hwatch
    | interpolation | text | model => rfl
  generalize compile w.doc options.store settings root = compiled at hnone
  have hrefl : ∀ w : World, w.Uncalled w := fun _ => ⟨rfl, fun _ => rfl⟩
  have hlisten : ∀ (z : World) (input : NodeId × String), z.Uncalled
      ((z.perform (.listen input.1)).listen input.1 (.model w.views.size input.2)) := by
    intro z input
    unfold World.listen
    split <;> exact uncalled_emit z (e := .changed (.listen input.1)) fun _ => rfl
  have hbound := foldl_of_trans hrefl Uncalled.trans
    (f := fun w change => w.emit (.changed change)) (fun w change => uncalled_emit w fun _ => rfl)
    (compiled.bindings.filterMap fun b => b.change? (shownText (options.store.get? b.key))) w
  refine (hbound.trans (uncalled_emit _ (e := .mounted w.views.size compiled.bindings) ?_)).trans
    (foldl_of_trans hrefl Uncalled.trans hlisten compiled.modelInputs _)
  intro id
  rw [Event.added]
  split
  · exact List.filterMap_eq_nil_iff.mpr hnone
  · rfl

private theorem Staged.mount (h : w.Staged D) {options : MountOptions} (settings : Settings)
    {root : NodeId} (hroot : options.target.resolve w.doc = .ok root)
    (hregion : D.region w.views.size root) :
    (w.mount options settings).1.Staged D := by
  have hwf := h.parted.doc.wellFormed
  obtain ⟨order, asked, horder, -, hcompile⟩ := compile_eq_extended hwf options.store settings root
  have hwatch : ∀ root, ∀ b ∈ (compile w.doc options.store settings root).bindings,
      b.isWatch = false := fun root b hb =>
    ((compile_displays hwf options.store settings root).2.2 b hb).1
  have htarget : ∀ b ∈ (compile w.doc options.store settings root).bindings, ∀ node,
      b.target? = some node → D.region w.views.size node := by
    intro b hb node hnode
    obtain ⟨found, hfound, hb⟩ : ∃ found ∈ order, b ∈ w.doc.nodeBindings settings found := by
      simpa [hcompile, Compilation.extended] using hb
    rw [Document.target?_of_mem_nodeBindings hb] at hnode
    rw [← Option.some.inj hnode]
    refine h.parted.doc.region_of_under (fun _ hin _ hchild => D.below hin hchild)
      (h.untouched _ (Nat.le_refl _)) hregion ?_
    obtain ⟨top, htop, hunder⟩ := (horder.mem_iff hwf found).mp hfound
    rwa [← List.mem_singleton.mp htop]
  have hshown : (compile w.doc options.store settings root).doc =
      (compile w.doc options.store settings root).bindings.foldl
        (Document.showBinding options.store) w.doc := by
    simp [hcompile, Compilation.extended]
  obtain ⟨hcalls, hown⟩ := uncalled_mount w options settings hwatch
  obtain ⟨hdoc, hviews, hhandles, hlisteners⟩ := mount_eq w options settings hroot rfl
    (contains_modelInputs hwf options.store settings root) rfl
  refine ⟨⟨?_, ?_, ?_, ?_, ?_⟩, ?_, ?_, ?_⟩
  · rw [hdoc, hshown]
    exact h.parted.doc.foldl_showBinding options.store fun b hb node hnode =>
      D.lt_size (htarget b hb node hnode)
  · intro entry hentry
    rw [hlisteners] at hentry
    rcases List.mem_append.mp hentry with hold | hnew
    · exact h.parted.listeners entry hold
    · obtain ⟨input, hinput, rfl⟩ := List.mem_map.mp hnew
      refine ⟨w.views.size, input.2, rfl, ?_⟩
      rw [modelInputs_compile hwf] at hinput
      obtain ⟨b, hb, hmodel⟩ := List.mem_filterMap.mp hinput
      cases b with
      | model node key =>
        rw [← Option.some.inj hmodel]
        exact htarget _ hb node rfl
      | interpolation | text | watch => cases hmodel
  · intro handle entry hentry
    rw [hhandles, Array.getElem?_push] at hentry
    split at hentry
    · rename_i hnew
      rw [← Option.some.inj hentry, hnew, h.handles]
    · exact h.parted.handles handle entry hentry
  · intro id c hc
    rw [hcalls]
    exact h.parted.known id c (hown id ▸ hc)
  · intro id other i j c d hc hd
    rw [hown] at hc hd
    exact h.parted.numbers hc hd
  · rw [hhandles, hviews, Array.size_push, Array.size_push, h.handles]
  · intro id v hv
    rw [hviews, Array.getElem?_push] at hv
    split at hv
    · rename_i hnew
      subst hnew
      obtain rfl := Option.some.inj hv
      exact ⟨hregion, _, rfl, fun b hb => ⟨hwatch root b hb, htarget b hb⟩⟩
    · exact h.views id v hv
  · intro id hid node hnode
    rw [hviews, Array.size_push] at hid
    rw [← h.untouched id (Nat.le_of_succ_le hid) node hnode, hdoc, hshown]
    refine (Document.sameAt_foldl_showBinding options.store
      ((D.lt_size hnode).trans_le h.parted.doc.size) fun b hb hsame => ?_).2
    exact Nat.ne_of_lt hid (D.apart (htarget b hb node hsame) hnode)

private theorem Staged.alongside (h : w.Staged D) (id : ViewId) : Alongside D id w w := by
  refine ⟨rfl, rfl, ?_, rfl, fun hc hc' => ?_, rfl, fun _ _ => rfl⟩
  · cases hview : w.views[id]? with
    | none => exact .none
    | some v =>
      obtain ⟨-, bindings, hv, hbindings⟩ := h.views id v hview
      rw [hv]
      exact .some (View.corresponds_mounted _ _ _ fun b hb => (hbindings b hb).elim .shows)
  · obtain rfl := Option.some.inj (hc.symm.trans hc')
    rfl

/-! ## Two view models -/

/-- A view model listens to an input. -/
def Hears (w : World) (id : ViewId) (node : NodeId) : Prop :=
  ∃ key, (node, .model id key) ∈ w.listeners

private theorem Parted.region_of_hears (h : w.Parted D) {node : NodeId} (hhears : w.Hears id node) :
    D.region id node := by
  obtain ⟨key, hmem⟩ := hhears
  obtain ⟨other, key', hlistener, hregion⟩ := h.listeners _ hmem
  rwa [(Listener.model.inj hlistener).1]

/-- Two view models are mounted on nodes of a document that are not under each other, and their
callbacks act each on their own view model and its inputs only. Then a run of calls on both and of
changes of their inputs, in any order, is for each of them as if the steps for the other were left
out: each step gives the same result, and it has the same data, its callbacks were told the same
values, its node has the same markup, and its inputs have the same values. -/
theorem runAll_isolated {doc : Document} (hdoc : doc.Reachable) (behaviour : Behaviour)
    (depth : Nat) {options₁ options₂ : MountOptions} {settings₁ settings₂ : Settings}
    {first w : World} {root₁ root₂ : NodeId} {walks₁ walks₂ : Nat}
    (hfirst : (ofDocument doc).run behaviour depth (.mount options₁ settings₁) =
      (first, .mounted 0 root₁ walks₁))
    (hsecond : first.run behaviour depth (.mount options₂ settings₂) =
      (w, .mounted 1 root₂ walks₂))
    (hroot₁ : doc.contains root₁ = true) (hroot₂ : doc.contains root₂ = true)
    (h₁₂ : ¬doc.Under root₁ root₂) (h₂₁ : ¬doc.Under root₂ root₁)
    {scripts : ViewId → ScriptId → Prop} (hbehaviour : behaviour.Apart scripts w.Hears)
    {steps : List (ViewId × Step)}
    (hsteps : ∀ entry ∈ steps, entry.2.Concerns (scripts entry.1) (w.Hears entry.1) entry.1)
    {id : ViewId} {view : View} (hview : w.views[id]? = some view) :
    let together := w.runAll behaviour depth (steps.map Prod.snd)
    let alone := w.runAll behaviour depth (stepsFor id steps)
    (∀ step : Step, step.Concerns (scripts id) (w.Hears id) id →
        (alone.run behaviour depth step).2 = (together.run behaviour depth step).2) ∧
      alone.views[id]?.map View.store = together.views[id]?.map View.store ∧
      toldTo id alone.trace = toldTo id together.trace ∧
      alone.doc.innerMarkup view.root = together.doc.innerMarkup view.root ∧
      ∀ node, w.Hears id node → alone.doc.value? node = together.doc.value? node := by
  intro together alone
  let D := Division.under hdoc.wellFormed ((Document.contains_iff _ _).mp hroot₁)
    ((Document.contains_iff _ _).mp hroot₂) h₁₂ h₂₁ scripts
  obtain ⟨hmount₁, hresolve₁, -⟩ := run_mount_eq hfirst
  obtain ⟨hmount₂, hresolve₂, hhandle⟩ := run_mount_eq hsecond
  have hstart : (ofDocument doc).Staged D := staged_ofDocument hdoc.wellFormed
  have hone : first.Staged D := hmount₁ ▸ hstart.mount settings₁ hresolve₁ (Or.inl ⟨rfl, .refl⟩)
  have hsize : first.views.size = 1 := hone.handles.symm.trans hhandle.symm
  have hstaged : w.Staged D :=
    hmount₂ ▸ hone.mount settings₂ hresolve₂ (Or.inr ⟨hsize, .refl⟩)
  have hregion : ∀ id node, w.Hears id node → D.region id node :=
    fun id node => hstaged.parted.region_of_hears
  have hown : behaviour.Apart D.scripts D.region := fun id script hscript count told step hstep =>
    (hbehaviour id script hscript count told step hstep).mono (hregion id)
  obtain ⟨htogether, halone, halike⟩ := alongside_runAll hown depth
    (fun entry hentry => (hsteps entry hentry).mono (hregion entry.1)) hstaged.parted
    (fun id => ⟨hstaged.parted, hstaged.alongside id⟩) id
  refine ⟨fun step hstep => ?_, ?_, halike.told, ?_, fun node hnode => ?_⟩
  · exact ((Advance.refl htogether halone halike).exec (paired_call hown id depth) none
      (hstep.mono (hregion id))).2
  · rcases halike.views with ⟨hx, hy⟩ | ⟨v, v', hx, hy, hcorresponds⟩
    · exact (congrArg _ hy).trans (congrArg _ hx).symm
    · refine (congrArg _ hy).trans (Eq.trans ?_ (congrArg _ hx).symm)
      exact congrArg some hcorresponds.store
  · exact Document.Renews.innerMarkup_eq (fun _ hin _ hchild => D.below hin hchild)
      (fun _ hin => D.lt_size hin) htogether.doc halike.sight halone.doc
      (hstaged.views id view hview).1
  · exact Document.value?_of_sight (halike.sight node (hregion id node hnode))

end World

/-- A document with one more group of nodes: a name that is shown, and an input for it. -/
def Document.withForm (doc : Document) (top : NodeId) : Document :=
  (((doc.appendElement Document.root "div" []).1.appendElement top "p"
    [⟨"v-text", "name"⟩]).1.appendElement top "input" [⟨"v-model", "name"⟩]).1

private theorem Document.Reachable.withForm {doc : Document} (h : doc.Reachable) (top : NodeId) :
    (doc.withForm top).Reachable :=
  .appendElement _ _ _ (.appendElement _ _ _ (.appendElement _ _ _ h))

/-- What a mount gives, if it has succeeded. -/
def Outcome.mounted? : Outcome → Option (Nat × NodeId × Nat)
  | .mounted handle root walks => some (handle, root, walks)
  | _ => none

private theorem Outcome.eq_mounted {outcome : Outcome} {handle walks : Nat} {root : NodeId}
    (h : outcome.mounted? = some (handle, root, walks)) : outcome = .mounted handle root walks := by
  cases outcome <;> simp_all [Outcome.mounted?]

namespace World

open Trace

/-- Two groups of nodes, each with a name that is shown and an input for it. -/
def twoForms : Document :=
  (Document.empty.withForm 1).withForm 4

def answering : Behaviour := fun script _ _ => [.set script "heard" .same]

/-- In both forms a name is watched and typed, and in the second it is also set. -/
def typedNames : List (ViewId × Step) :=
  [(0, .watch 0 "name" 0), (1, .watch 1 "name" 1), (0, .dispatch 3 "Ada"),
    (1, .set 1 "name" (.literal (.string "Bob"))), (1, .dispatch 6 "Eve")]

/-- With callbacks that answer, the first form is the same without the second being filled in. -/
theorem twoForms_isolated :
    let first := ((ofDocument twoForms).run answering 9 (.mount { target := .node 1 } {})).1
    let w := (first.run answering 9 (.mount { target := .node 4 } {})).1
    let together := w.runAll answering 9 (typedNames.map Prod.snd)
    let alone := w.runAll answering 9 (stepsFor 0 typedNames)
    (alone.doc.size ≠ together.doc.size ∧ alone.doc.innerMarkup 4 ≠ together.doc.innerMarkup 4) ∧
      (∀ step : Step, step.Concerns (· = 0) (w.Hears 0) 0 →
        (alone.run answering 9 step).2 = (together.run answering 9 step).2) ∧
      alone.views[0]?.map View.store = together.views[0]?.map View.store ∧
      toldTo 0 alone.trace = toldTo 0 together.trace ∧
      alone.doc.innerMarkup 1 = together.doc.innerMarkup 1 ∧
      ∀ node, w.Hears 0 node → alone.doc.value? node = together.doc.value? node := by
  intro first w together alone
  have hdoc : twoForms.Reachable := (Document.Reachable.empty.withForm 1).withForm 4
  have hfirst : ((ofDocument twoForms).run answering 9
      (.mount { target := .node 1 } {})).2.mounted? = some (0, 1, 3) := by decide +kernel
  have hsecond : (first.run answering 9 (.mount { target := .node 4 } {})).2.mounted? =
      some (1, 4, 3) := by decide +kernel
  have hcontains : twoForms.contains 1 = true ∧ twoForms.contains 4 = true := by decide +kernel
  have hparent : twoForms.parent? 1 = some 0 ∧ twoForms.parent? 4 = some 0 ∧
      twoForms.parent? 0 = none := by decide +kernel
  have h₁₄ : ¬twoForms.Under 1 4 := by
    have hlineage : twoForms.Lineage 1 [1, 0] := .up hparent.1 (.top hparent.2.2)
    rw [← hlineage.mem_iff]
    decide
  have h₄₁ : ¬twoForms.Under 4 1 := by
    have hlineage : twoForms.Lineage 4 [4, 0] := .up hparent.2.1 (.top hparent.2.2)
    rw [← hlineage.mem_iff]
    decide
  have hlisteners : w.listeners = [(3, .model 0 "name"), (6, .model 1 "name")] := by
    decide +kernel
  have hroot : w.views[0]?.map View.root = some 1 := by decide +kernel
  have hbehaviour : answering.Apart (fun id script => script = id) w.Hears := by
    rintro id script rfl count told step hstep
    rw [List.mem_singleton.mp hstep]
    rfl
  have hsteps : ∀ entry ∈ typedNames,
      entry.2.Concerns (· = entry.1) (w.Hears entry.1) entry.1 := by
    have hears : w.Hears 0 3 ∧ w.Hears 1 6 := by
      refine ⟨⟨"name", ?_⟩, "name", ?_⟩ <;> rw [hlisteners] <;> simp
    simp [typedNames, Step.Concerns, hears]
  obtain ⟨view, hview, hroot⟩ := Option.map_eq_some_iff.mp hroot
  have hisolated := runAll_isolated hdoc answering 9 (Prod.ext rfl (Outcome.eq_mounted hfirst))
    (Prod.ext rfl (Outcome.eq_mounted hsecond)) hcontains.1 hcontains.2 h₁₄ h₄₁ hbehaviour hsteps
    hview
  rw [hroot] at hisolated
  exact ⟨by decide +kernel, hisolated⟩

end World
end ViewBinding
