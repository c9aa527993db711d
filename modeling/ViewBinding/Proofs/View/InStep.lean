import Mathlib
import ViewBinding.Proofs.View.Mounting
import ViewBinding.Proofs.View.Wiring

/-!
# The view in step with the store

As long as everybody acts through the view model, the document shows what is in the store whenever a
step is over, whatever callbacks do meanwhile (`runAll_shows`). Inside a notification this is broken
and restored: a pass lights the bindings of its key one after another, and what a callback darkens
again belongs to a key that falls due. The notification ends only when its key is not due, or with a
pass in which no callback runs.
-/

namespace ViewBinding

/-- A step through the view model: it reads, sets, notifies or watches a key, or changes an input as
the user does. -/
def Step.throughView : Step → Bool
  | .get .. | .set .. | .notify .. | .watch .. | .dispatch .. => true
  | _ => false

namespace World

open Trace

/-- Callbacks act through the view model only. -/
def ThroughView (behaviour : Behaviour) : Prop :=
  ∀ script calls told, ∀ step ∈ behaviour script calls told, step.throughView = true

/-- A way to run callbacks that keeps the books and the view in step. -/
structure Careful (bindings : List Binding) (old : Nat) (call : Caller) : Prop where
  attends : Attends call
  follows : ∀ callback notice (w : World), w.Follows bindings old (call callback notice w)

/-- What holds when the bindings of a key have been visited in a pass that began in `x`. -/
structure Passed (bindings : List Binding) (old : Nat) (x z : World) : Prop where
  wired : z.Wired bindings old
  idle : ∀ b ∈ bindings, b.key ∉ (x.view 0).inFlight → z.Lit old b
  minds : x.Minds bindings old z

/-- What holds between the passes of a notification that has begun in `w`. -/
structure Framed (bindings : List Binding) (old : Nat) (w : World) (key : String) (x : World) :
    Prop where
  mid : w.Midframe 0 key x
  wired : x.Wired bindings old
  idle : ∀ b ∈ bindings, b.key ∉ (x.view 0).inFlight → x.Lit old b
  minds : w.Minds bindings old x

variable {bindings : List Binding} {old ran : Nat} {call : Caller} {w x z : World} {key : String}

/-! ## Binding by binding -/

private theorem follows_visitBinding (hcall : Careful bindings old call) (origin : Option NodeId)
    (viewOnly : Bool) {b : Binding} (hb : b.isWatch = true ∨ (b ∈ bindings ∧ b.key = key))
    (w : World) : w.Follows bindings old (visitBinding call 0 key origin viewOnly w b) := by
  rcases hb with hwatch | ⟨hb, rfl⟩
  · cases b with
    | watch k callback =>
      unfold visitBinding
      split
      · exact .refl w
      split
      · exact .refl w
      · exact (follows_emit w rfl (by simp)).trans (hcall.follows callback _ _)
    | interpolation | text | model => simp [Binding.isWatch] at hwatch
  · apply follows_of_lit (keeps_visitBinding hcall.attends 0 b.key origin viewOnly w b)
    intro h
    obtain ⟨hwired, -, hlit, -⟩ := h.visit call hb origin viewOnly
    exact ⟨hwired, hlit⟩

private theorem lit_foldl_visitBinding (hcall : Careful bindings old call) {list : List Binding}
    (hlist : ∀ b ∈ list, b.isWatch = true ∨ (b ∈ bindings ∧ b.key = key))
    (h : w.InStep bindings old) (hkey : key ∈ (w.view 0).inFlight) {origin : Option NodeId}
    (horigin : key ∈ (w.view 0).dirty ∨
      ∀ b ∈ bindings, b.key = key → origin.any b.isModelOf = true → w.Lit old b)
    (hz : list.foldl (visitBinding call 0 key origin false) w = z) :
    key ∈ (z.view 0).dirty ∨ ∀ b ∈ list, b.isWatch = false → z.Lit old b := by
  -- On the bindings still to be visited: what is lit already stays so unless the key falls due.
  induction list generalizing w with
  | nil => exact Or.inr (by simp)
  | cons b rest ih =>
    obtain ⟨hb, hrest⟩ := List.forall_mem_cons.mp hlist
    obtain ⟨hnext, hevolves, hminds⟩ := follows_visitBinding hcall origin false hb w h
    have hkey' : key ∈ ((visitBinding call 0 key origin false w b).view 0).inFlight := by
      rwa [hevolves.inFlight]
    have horigin' : key ∈ ((visitBinding call 0 key origin false w b).view 0).dirty ∨
        ∀ c ∈ bindings, c.key = key → origin.any c.isModelOf = true →
          (visitBinding call 0 key origin false w b).Lit old c := by
      rcases horigin with hdue | horigin
      · exact Or.inl ((hevolves.steady 0).dirty hdue)
      · by_cases hdue : key ∈ ((visitBinding call 0 key origin false w b).view 0).dirty
        · exact Or.inl hdue
        · refine Or.inr fun c hc hck hco => ?_
          subst hck
          exact ((hminds c hc hkey).resolve_left hdue) (horigin c hc rfl hco)
    rw [List.foldl_cons] at hz
    rcases ih hrest hnext hkey' horigin' hz with hdue | hlit
    · exact Or.inl hdue
    obtain ⟨-, hlater, hkept⟩ := follows_foldl
      (fun w c hc => follows_visitBinding hcall origin false (hrest c hc) w) _ hnext
    rw [hz] at hlater hkept
    by_cases hdue : key ∈ (z.view 0).dirty
    · exact Or.inl hdue
    refine Or.inr fun c hc hview => ?_
    rcases List.mem_cons.mp hc with rfl | hc
    · rcases hb with hwatch | ⟨hb, rfl⟩
      · rw [hview] at hwatch
        cases hwatch
      have hlit : (visitBinding call 0 c.key origin false w c).Lit old c := by
        obtain ⟨-, -, -, hskipped | hlit⟩ := h.wired.visit call hb origin false
        · rcases horigin' with hdue' | horigin'
          · exact absurd ((hlater.steady 0).dirty hdue') hdue
          · exact horigin' c hb rfl hskipped
        · exact hlit
      exact ((hkept c hb hkey').resolve_left hdue) hlit
    · exact hlit c hc hview

private theorem lit_foldl_viewOnly {list : List Binding}
    (hlist : ∀ b ∈ list, b.isWatch = true ∨ (b ∈ bindings ∧ b.key = key))
    (h : w.Wired bindings old) (hz : list.foldl (visitBinding call 0 key none true) w = z) :
    z.Wired bindings old ∧ z.views = w.views ∧ (∀ b ∈ bindings, w.Lit old b → z.Lit old b) ∧
      ∀ b ∈ list, b.isWatch = false → z.Lit old b := by
  induction list generalizing w with
  | nil =>
    subst hz
    exact ⟨h, rfl, fun _ _ hlit => hlit, by simp⟩
  | cons b rest ih =>
    obtain ⟨hb, hrest⟩ := List.forall_mem_cons.mp hlist
    rw [List.foldl_cons] at hz
    rcases hb with hwatch | ⟨hb, rfl⟩
    · have hskip : visitBinding call 0 key none true w b = w := by
        simp [visitBinding, getElem?_views h.lt_size, hwatch]
      rw [hskip] at hz
      obtain ⟨hwired, hviews, hkept, hlit⟩ := ih hrest h hz
      refine ⟨hwired, hviews, hkept, List.forall_mem_cons.mpr ⟨fun hview => ?_, hlit⟩⟩
      rw [hview] at hwatch
      cases hwatch
    · obtain ⟨hnext, hviews, hkept, hself⟩ := h.visit call hb none true
      obtain ⟨hwired, hviews', hkept', hlit⟩ := ih hrest hnext hz
      refine ⟨hwired, hviews'.trans hviews, fun c hc hlit => hkept' c hc (hkept c hc hlit), ?_⟩
      refine List.forall_mem_cons.mpr ⟨fun _ => ?_, hlit⟩
      rcases hself with hskipped | hself
      · simp at hskipped
      · exact hkept' b hb hself

/-! ## Pass by pass -/

private theorem Wired.beginPass (h : x.Wired bindings old) (key : String) (viewOnly : Bool) :
    (x.beginPass 0 key viewOnly).Wired bindings old :=
  (h.modifyView ⟨h.view.alive, h.view.registry, h.view.deferred⟩).emit _

private theorem Wired.endPass (h : z.Wired bindings old) (key : String) :
    (z.endPass 0 key).Wired bindings old :=
  (h.modifyView ⟨h.view.alive, h.view.registry, h.view.deferred⟩).emit _

private theorem lit_beginPass (h : x.Wired bindings old) (key : String) (viewOnly : Bool)
    (b : Binding) : (x.beginPass 0 key viewOnly).Lit old b ↔ x.Lit old b :=
  lit_modifyView (f := fun v => { v with passes := v.passes + 1 }) h rfl b

private theorem lit_endPass (h : z.Wired bindings old) (key : String) (b : Binding) :
    (z.endPass 0 key).Lit old b ↔ z.Lit old b :=
  lit_modifyView (f := fun v => { v with passes := v.passes - 1 }) h rfl b

private theorem dirty_endPass (h : z.Wired bindings old) (key : String) :
    ((z.endPass 0 key).view 0).dirty = (z.view 0).dirty := by
  rw [view_endPass z h.lt_size, if_pos rfl]

private theorem Framed.passed_full (hcall : Careful bindings old call) (hsound : w.Sound)
    (hid : 0 < w.views.size) (h : w.Framed bindings old key x)
    (hfull : true ∉ passesOf 0 key x.trace) {origin : Option NodeId}
    (horigin : ∀ b ∈ bindings, b.key = key → origin.any b.isModelOf = true → x.Lit old b)
    (hz : (x.watchers 0 key).foldl (visitBinding call 0 key origin false)
      (x.beginPass 0 key false) = z) :
    x.Passed bindings old z ∧
      (key ∈ (z.view 0).dirty ∨ ∀ b ∈ bindings, b.key = key → z.Lit old b) := by
  have hidx := h.mid.lt_size hid
  have hbegan := h.wired.beginPass key false
  have hlit := lit_beginPass h.wired key false
  have hinFlight := inFlight_beginPass x hidx key false 0
  rw [watchers_eq hidx] at hz
  by_cases hnil : (x.view 0).registry.watchers key = []
  · -- Without bindings there is nothing to light.
    rw [hnil, List.foldl_nil] at hz
    subst hz
    refine ⟨⟨hbegan, fun b hb hkey => (hlit b).mpr (h.idle b hb hkey),
      fun b _ _ => Or.inr (hlit b).mpr⟩, Or.inr fun b hb hkey => ?_⟩
    have hmem := (h.wired.mem_watchers hb hkey).1
    rw [hnil] at hmem
    simp at hmem
  · have hstep : (x.beginPass 0 key false).InStep bindings old := by
      refine ⟨h.mid.sound_beginPass hsound hid hnil hfull, hbegan, fun b hb hkey => ?_⟩
      rw [hinFlight] at hkey
      exact (hlit b).mpr (h.idle b hb hkey)
    have hlist : ∀ b ∈ (x.view 0).registry.watchers key,
        b.isWatch = true ∨ (b ∈ bindings ∧ b.key = key) := fun b hb => h.wired.key_eq hb
    have hkey : key ∈ ((x.beginPass 0 key false).view 0).inFlight := by
      rw [hinFlight, h.mid.inFlight_self]
      exact List.mem_cons_self
    obtain ⟨hnext, hevolves, hminds⟩ := follows_foldl
      (fun w b hb => follows_visitBinding hcall origin false (hlist b hb) w) _ hstep
    rw [hz] at hnext hevolves hminds
    refine ⟨⟨hnext.wired, fun b hb hkey => hnext.lit b hb ?_, fun b hb hkey => ?_⟩, ?_⟩
    · rwa [hevolves.inFlight, hinFlight]
    · rcases hminds b hb (by rwa [hinFlight]) with hdue | hkept
      · exact Or.inl hdue
      · exact Or.inr fun hb => hkept ((hlit b).mpr hb)
    · rcases lit_foldl_visitBinding hcall hlist hstep hkey
        (Or.inr fun b hb hbk hbo => (hlit b).mpr (horigin b hb hbk hbo)) hz with hdue | hall
      · exact Or.inl hdue
      · refine Or.inr fun b hb hbk => ?_
        obtain ⟨hmem, hview⟩ := h.wired.mem_watchers hb hbk
        exact hall b hmem hview

private theorem Framed.passed_viewOnly (call : Caller) (hid : 0 < w.views.size)
    (h : w.Framed bindings old key x)
    (hz : (x.watchers 0 key).foldl (visitBinding call 0 key none true)
      (x.beginPass 0 key true) = z) :
    x.Passed bindings old z ∧ ∀ b ∈ bindings, b.key = key → z.Lit old b := by
  have hidx := h.mid.lt_size hid
  have hlit := lit_beginPass h.wired key true
  rw [watchers_eq hidx] at hz
  obtain ⟨hwired, -, hkept, hall⟩ := lit_foldl_viewOnly
    (fun b hb => h.wired.key_eq hb) (h.wired.beginPass key true) hz
  refine ⟨⟨hwired, fun b hb hkey => hkept b hb ((hlit b).mpr (h.idle b hb hkey)),
    fun b hb _ => Or.inr fun h => hkept b hb ((hlit b).mpr h)⟩, fun b hb hbk => ?_⟩
  obtain ⟨hmem, hview⟩ := h.wired.mem_watchers hb hbk
  exact hall b hmem hview

private theorem Framed.endPass {viewOnly : Bool} (hid : 0 < w.views.size)
    (hkey : key ∉ (w.view 0).inFlight) (h : w.Framed bindings old key x)
    (hpass : x.Inpass 0 key viewOnly z) (hpassed : x.Passed bindings old z) :
    w.Framed bindings old key (z.endPass 0 key) := by
  have hmid := h.mid.endPass hpass hid hkey
  have hlit := lit_endPass hpassed.wired key
  refine ⟨hmid, hpassed.wired.endPass key, fun b hb hbk => ?_, fun b hb hbk => ?_⟩
  · rw [hmid.inFlight_self, ← h.mid.inFlight_self] at hbk
    exact (hlit b).mpr (hpassed.idle b hb hbk)
  · rw [dirty_endPass hpassed.wired]
    have hold := h.minds b hb hbk
    have hnew := hpassed.minds b hb (h.mid.mem_inFlight hbk)
    rcases hnew with hdue | hnew
    · exact Or.inl hdue
    rcases hold with hdue | hold
    · have hsteady := (hpass.steady (h.mid.lt_size hid) 0).dirty hdue
      rw [dirty_endPass hpassed.wired] at hsteady
      exact Or.inl hsteady
    · exact Or.inr fun hb => (hlit b).mpr (hnew (hold hb))

/-! ## A whole notification -/

private theorem Framed.runPass (hcall : Careful bindings old call) (hsound : w.Sound)
    (hid : 0 < w.views.size) (hkey : key ∉ (w.view 0).inFlight) (h : w.Framed bindings old key x)
    (hfull : true ∉ passesOf 0 key x.trace) (origin : Option NodeId)
    (horigin : ∀ b ∈ bindings, b.key = key → origin.any b.isModelOf = true → x.Lit old b)
    (hz : (x.runPass call 0 key origin false).1 = z) :
    w.Framed bindings old key z ∧
      (key ∈ (z.view 0).dirty ∨ ∀ b ∈ bindings, b.key = key → z.Lit old b) := by
  have hpass := h.mid.inpass_full hcall.attends hsound hid hfull origin
  obtain ⟨hpassed, hlit⟩ := h.passed_full hcall hsound hid hfull horigin rfl
  rw [runPass_fst] at hz
  subst hz
  refine ⟨h.endPass hid hkey hpass hpassed, ?_⟩
  rw [dirty_endPass hpassed.wired]
  exact hlit.imp_right fun hall b hb hbk => (lit_endPass hpassed.wired key b).mpr (hall b hb hbk)

private theorem Framed.runPass_viewOnly (hcall : Careful bindings old call) (hid : 0 < w.views.size)
    (hkey : key ∉ (w.view 0).inFlight) (h : w.Framed bindings old key x)
    (hz : (x.runPass call 0 key none true).1 = z) :
    w.Framed bindings old key z ∧ ∀ b ∈ bindings, b.key = key → z.Lit old b := by
  obtain ⟨hpass, -⟩ := h.mid.inpass_viewOnly hcall.attends hid h.wired.view.alive rfl
  obtain ⟨hpassed, hlit⟩ := h.passed_viewOnly call hid rfl
  rw [runPass_fst] at hz
  subst hz
  exact ⟨h.endPass hid hkey hpass hpassed,
    fun b hb hbk => (lit_endPass hpassed.wired key b).mpr (hlit b hb hbk)⟩

private theorem lit_clearDirty (h : x.Wired bindings old) (key : String) (b : Binding) :
    (x.modifyView 0 (·.clearDirty key)).Lit old b ↔ x.Lit old b :=
  lit_modifyView (f := (·.clearDirty key)) h rfl b

private theorem Framed.clearDirty (hsound : w.Sound) (hid : 0 < w.views.size)
    (hkey : key ∉ (w.view 0).inFlight) (h : w.Framed bindings old key x) :
    w.Framed bindings old key (x.modifyView 0 (·.clearDirty key)) := by
  have hmid := h.mid.clearDirty hsound hid hkey
  have hlit := lit_clearDirty h.wired key
  have hcleared := view_clearDirty x (h.mid.lt_size hid) key 0
  rw [if_pos rfl] at hcleared
  refine ⟨hmid, h.wired.modifyView ⟨h.wired.view.alive, h.wired.view.registry,
    h.wired.view.deferred⟩, fun b hb hbk => ?_, fun b hb hbk => ?_⟩
  · rw [hmid.inFlight_self, ← h.mid.inFlight_self] at hbk
    exact (hlit b).mpr (h.idle b hb hbk)
  · rcases h.minds b hb hbk with hdue | hkept
    · have hne : b.key ≠ key := fun he => hkey (he ▸ hbk)
      rw [hcleared]
      exact Or.inl ((List.mem_erase_of_ne hne).mpr hdue)
    · exact Or.inr fun hb => (hlit b).mpr (hkept hb)

private theorem Framed.stop (hsound : w.Sound) (hid : 0 < w.views.size)
    (hkey : key ∉ (w.view 0).inFlight) (h : w.Framed bindings old key x)
    (hlit : key ∈ (x.view 0).dirty ∨ ∀ b ∈ bindings, b.key = key → x.Lit old b)
    (hagain : ¬ (x.isDirty 0 key && !(x.modifyView 0 (·.clearDirty key)).isDisposed 0) = true) :
    w.Framed bindings old key (x.modifyView 0 (·.clearDirty key)) ∧
      ∀ b ∈ bindings, b.key = key → (x.modifyView 0 (·.clearDirty key)).Lit old b := by
  rw [again_iff (h.mid.lt_size hid), not_and_or, Bool.not_eq_false] at hagain
  have hclean : ¬ x.Due 0 key := hagain.resolve_right (by simp [h.wired.view.alive])
  exact ⟨h.clearDirty hsound hid hkey, fun b hb hbk =>
    (lit_clearDirty h.wired key b).mpr (hlit.resolve_left hclean b hb hbk)⟩

private theorem Framed.repeatPasses (hcall : Careful bindings old call) (hsound : w.Sound)
    (hid : 0 < w.views.size) (hkey : key ∉ (w.view 0).inFlight) {remaining count : Nat} (ran : Nat)
    (hbetween : Between w 0 key count x) (h : w.Framed bindings old key x)
    (hlit : key ∈ (x.view 0).dirty ∨ ∀ b ∈ bindings, b.key = key → x.Lit old b)
    (hz : (x.repeatPasses call 0 key remaining ran).1 = z) :
    w.Framed bindings old key z ∧ ∀ b ∈ bindings, b.key = key → z.Lit old b := by
  induction remaining generalizing x count ran with
  | zero =>
    rw [World.repeatPasses] at hz
    by_cases hagain : (x.isDirty 0 key && !(x.modifyView 0 (·.clearDirty key)).isDisposed 0) = true
    · rw [if_pos hagain] at hz
      exact (h.clearDirty hsound hid hkey).runPass_viewOnly hcall hid hkey hz
    · rw [if_neg hagain] at hz
      subst hz
      exact h.stop hsound hid hkey hlit hagain
  | succ remaining ih =>
    rw [World.repeatPasses] at hz
    by_cases hagain : (x.isDirty 0 key && !(x.modifyView 0 (·.clearDirty key)).isDisposed 0) = true
    · rw [if_pos hagain] at hz
      have hcleared := h.clearDirty hsound hid hkey
      have hpasses : passesOf 0 key (x.modifyView 0 (·.clearDirty key)).trace =
          List.replicate count false := hbetween.passes
      have hmet : MetSince w (x.modifyView 0 (·.clearDirty key)) fun i k =>
          (x.modifyView 0 (·.clearDirty key)).Due i k ∨ (i = 0 ∧ k = key) :=
        fun new hnew => (hbetween.met new hnew).mono fun i k =>
          due_clearDirty (h.mid.lt_size hid)
      have hnext := Between.runPass hcall.attends hsound hid hkey hcleared.mid hpasses hmet
      obtain ⟨hpassed, hlit⟩ := hcleared.runPass hcall hsound hid hkey (by simp [hpasses]) none
        (by simp) rfl
      exact ih _ hnext hpassed hlit hz
    · rw [if_neg hagain] at hz
      subst hz
      exact h.stop hsound hid hkey hlit hagain

private theorem framed_beginFrame (hsound : w.Sound) (hwired : w.Wired bindings old)
    (hkey : key ∉ (w.view 0).inFlight)
    (hlit : ∀ b ∈ bindings, b.key ≠ key → b.key ∉ (w.view 0).inFlight → w.Lit old b) :
    w.Framed bindings old key (w.beginFrame 0 key origin) ∧
      ∀ b, (w.beginFrame 0 key origin).Lit old b ↔ w.Lit old b := by
  have hmid := midframe_beginFrame hsound hwired.lt_size hkey origin
  have hsame : ∀ b, (w.beginFrame 0 key origin).Lit old b ↔ w.Lit old b :=
    lit_modifyView (f := fun v => { v with inFlight := key :: v.inFlight }) hwired rfl
  refine ⟨⟨hmid, ?_, fun b hb hbk => ?_, fun b _ _ => Or.inr (hsame b).mpr⟩, hsame⟩
  · exact (hwired.modifyView ⟨hwired.view.alive, hwired.view.registry,
      hwired.view.deferred⟩).emit _
  · rw [hmid.inFlight_self, List.mem_cons, not_or] at hbk
    exact (hsame b).mpr (hlit b hb hbk.1 hbk.2)

private theorem settle_store (v : View) : v.settle.store = v.store := by
  unfold View.settle
  split
  · rfl
  split <;> rfl

private theorem Framed.endFrame (h : w.Framed bindings old key x)
    (hlit : ∀ b ∈ bindings, b.key = key → x.Lit old b) (hsound : (x.endFrame 0 key ran).Sound)
    (hevolves : w.Evolves (x.endFrame 0 key ran)) :
    (x.endFrame 0 key ran).InStep bindings old ∧ w.Minds bindings old (x.endFrame 0 key ran) := by
  have hsettled : View.Wired bindings
      (View.settle { x.view 0 with inFlight := (x.view 0).inFlight.tail }) :=
    View.Wired.settle ⟨h.wired.view.alive, h.wired.view.registry, h.wired.view.deferred⟩
  have hwired : (x.endFrame 0 key ran).Wired bindings old :=
    (h.wired.modifyView (f := fun v => View.settle { v with inFlight := v.inFlight.tail })
      hsettled).emit _
  have hsame : ∀ b, (x.endFrame 0 key ran).Lit old b ↔ x.Lit old b :=
    lit_modifyView (f := fun v => View.settle { v with inFlight := v.inFlight.tail }) h.wired
      (settle_store _)
  refine ⟨⟨hsound, hwired, fun b hb hbk => ?_⟩, fun b hb hbk => ?_⟩
  · apply (hsame b).mpr
    rw [hevolves.inFlight] at hbk
    by_cases hthis : b.key = key
    · exact hlit b hb hthis
    · apply h.idle b hb
      rw [h.mid.inFlight_self, List.mem_cons, not_or]
      exact ⟨hthis, hbk⟩
  · have hdirty : ((x.endFrame 0 key ran).view 0).dirty = (x.view 0).dirty := by
      rw [view_endFrame x h.wired.lt_size, if_pos rfl]
      exact (settle_facts _).2.1
    rw [hdirty]
    exact (h.minds b hb hbk).imp_right fun hkept hb => (hsame b).mpr (hkept hb)

theorem markDirty_wired {v : View} (h : v.Wired bindings) (key : String) :
    (v.markDirty key).Wired bindings ∧ (v.markDirty key).store = v.store := by
  unfold View.markDirty
  split
  · exact ⟨h, rfl⟩
  · exact ⟨⟨h.alive, h.registry, h.deferred⟩, rfl⟩

/-- A notification of a key whose bindings may be dark brings all in step again, or leaves the key
due. Only the model binding that it leaves out must be lit. -/
theorem notifyFrom_inStep (hcall : Careful bindings old call) (hsound : w.Sound)
    (hwired : w.Wired bindings old)
    (hlit : ∀ b ∈ bindings, b.key ≠ key → b.key ∉ (w.view 0).inFlight → w.Lit old b)
    {origin : Option NodeId}
    (horigin : ∀ b ∈ bindings, b.key = key → origin.any b.isModelOf = true → w.Lit old b)
    (hz : (w.notifyFrom call 0 key origin).1 = z) :
    z.InStep bindings old ∧ w.Evolves z ∧
      ∀ b ∈ bindings, b.key ∈ (w.view 0).inFlight →
        b.key ∈ (z.view 0).dirty ∨ (b.key ≠ key ∧ (w.Lit old b → z.Lit old b)) := by
  have hid := hwired.lt_size
  by_cases hkey : key ∈ (w.view 0).inFlight
  · -- The notification is folded, and its key is due.
    obtain ⟨hfolded, hevolves⟩ := keeps_fold hid hkey hsound
    obtain ⟨hmarked, hstore⟩ := markDirty_wired hwired.view key
    have hview := view_markDirty w hid key 0
    rw [if_pos rfl] at hview
    have hsame : ∀ b, ((w.modifyView 0 (·.markDirty key)).emit (.folded 0 key)).Lit old b ↔
        w.Lit old b := lit_modifyView (f := (·.markDirty key)) hwired hstore
    rw [notifyFrom, isDisposed_eq hid, hwired.view.alive, isInFlight_eq hid] at hz
    simp only [Bool.false_eq_true, if_false, List.contains_iff_mem, hkey, if_true] at hz
    subst hz
    refine ⟨⟨hfolded, (hwired.modifyView hmarked).emit _, fun b hb hbk => ?_⟩, hevolves,
      fun b hb hbk => ?_⟩
    · rw [hevolves.inFlight] at hbk
      exact (hsame b).mpr (hlit b hb (fun he => hbk (he ▸ hkey)) hbk)
    · by_cases hthis : b.key = key
      · rw [view_emit, hview, hthis]
        exact Or.inl (markDirty_facts (hsound.booked.queues 0) hkey).2.2.2.2.2
      · exact Or.inr ⟨hthis, (hsame b).mpr⟩
  · obtain ⟨hframed, hsame⟩ := framed_beginFrame hsound hwired hkey hlit
    have hfull : true ∉ passesOf 0 key (w.beginFrame 0 key origin).trace := by
      have hnone : passesOf 0 key (w.beginFrame 0 key origin).trace = [] := by
        simp [beginFrame, World.emit, passesOf]
      simp [hnone]
    obtain ⟨hfirst, hdue⟩ := hframed.runPass hcall hsound hid hkey hfull origin
      (fun b hb hbk hbo => (hsame b).mpr (horigin b hb hbk hbo)) rfl
    have hbetween := between_first hcall.attends hsound hid hkey origin
    generalize hpass : (w.beginFrame 0 key origin).runPass call 0 key origin false = first
      at hfirst hdue hbetween
    have hfinished : Finished w 0 key (first.1.repeatPasses call 0 key (maxPasses - 1) first.2).1 :=
      hbetween.repeatPasses hcall.attends hsound hid hkey first.2 rfl (Nat.le_refl 1)
    obtain ⟨hlast, hall⟩ := hfirst.repeatPasses hcall hsound hid hkey first.2 hbetween hdue rfl
    obtain ⟨hclosed, hevolves⟩ := hfinished.keeps_endFrame hsound hid hkey
      (first.1.repeatPasses call 0 key (maxPasses - 1) first.2).2
    obtain ⟨hinStep, hminds⟩ := hlast.endFrame hall hclosed hevolves
    rw [notifyFrom_eq_endFrame hid hwired.view.alive hkey, hpass] at hz
    subst hz
    refine ⟨hinStep, hevolves, fun b hb hbk => (hminds b hb hbk).imp_right fun hkept => ?_⟩
    exact ⟨fun he => hkey (he ▸ hbk), hkept⟩

/-! ## Steps -/

private theorem follows_of_notify (hcall : Careful bindings old call) (hkeeps : w.Keeps x)
    (hwired : w.Wired bindings old → x.Wired bindings old)
    (hlit : w.Wired bindings old → ∀ b ∈ bindings, b.key ≠ key → w.Lit old b → x.Lit old b)
    {origin : Option NodeId}
    (horigin : w.InStep bindings old →
      ∀ b ∈ bindings, b.key = key → origin.any b.isModelOf = true → x.Lit old b) :
    w.Follows bindings old (x.notifyFrom call 0 key origin).1 := by
  intro h
  obtain ⟨hsound, hevolves⟩ := hkeeps h.sound
  have hlit' : ∀ b ∈ bindings, b.key ≠ key → b.key ∉ (x.view 0).inFlight → x.Lit old b := by
    intro b hb hne hbk
    rw [hevolves.inFlight] at hbk
    exact hlit h.wired b hb hne (h.lit b hb hbk)
  obtain ⟨hinStep, hevolves', hminds⟩ := notifyFrom_inStep hcall hsound (hwired h.wired) hlit'
    (horigin h) rfl
  refine ⟨hinStep, hevolves.trans hsound.booked hevolves', fun b hb hbk => ?_⟩
  rcases hminds b hb (by rwa [hevolves.inFlight]) with hdue | ⟨hne, hkept⟩
  · exact Or.inl hdue
  · exact Or.inr fun hb' => hkept (hlit h.wired b hb hne hb')

theorem Wired.writeValue (h : w.Wired bindings old) (key : String) (value : Value) :
    (w.writeValue 0 key value).Wired bindings old :=
  h.modifyView ⟨h.view.alive, h.view.registry, h.view.deferred⟩

private theorem keeps_writeValue (w : World) (key : String) (value : Value) :
    w.Keeps (w.writeValue 0 key value) :=
  keeps_modifyView w 0 (.store (·.set key value))

private theorem follows_notify (hcall : Careful bindings old call) (w : World) (key : String) :
    w.Follows bindings old (w.notifyFrom call 0 key none).1 :=
  follows_of_notify hcall (.refl w) (fun h => h) (fun _ _ _ _ hlit => hlit) (by simp)

private theorem follows_set (hcall : Careful bindings old call) (w : World) (key : String)
    (value : Value) :
    w.Follows bindings old ((w.writeValue 0 key value).notifyFrom call 0 key none).1 := by
  apply follows_of_notify hcall (keeps_writeValue w key value)
  · exact fun h => h.writeValue key value
  · exact fun h b _ hne => (lit_writeValue_of_ne h hne value).mpr
  · simp

private theorem follows_register (w : World) (key : String) (callback : Callback) :
    w.Follows bindings old (w.modifyView 0 (·.register (.watch key callback))) := by
  apply follows_of_lit (keeps_modifyView_of_alike w 0 (View.alike_register · _))
  intro h
  have hstore : ((w.view 0).register (.watch key callback)).store = (w.view 0).store := by
    unfold View.register
    split <;> rfl
  exact ⟨h.modifyView (h.view.register key callback),
    fun b _ => (lit_modifyView (f := (·.register (.watch key callback))) h hstore b).mpr⟩

theorem Wired.setValue (h : w.Wired bindings old) (node : NodeId) (text : String) :
    (w.withDoc (w.doc.setValue node text)).Wired bindings old :=
  have hperformed := h.perform (.setValue node text)
  ⟨h.single, h.handles, h.listeners, h.view, hperformed.size, hperformed.fits, h.apart⟩

theorem Wired.isAlive (h : w.Wired bindings old) : w.isAlive 0 = true := by
  simp [World.isAlive, h.handles]

private theorem handleChange_eq (h : w.Wired bindings old) {node : NodeId} {key text : String}
    (hvalue : w.doc.value? node = some text) :
    w.handleChange call 0 node key text =
      ((w.writeValue 0 key (.string text)).notifyFrom call 0 key
        (if (w.view 0).settings.echo then none else some node)).1 := by
  rw [handleChange, getElem?_views h.lt_size]
  simp [h.view.alive, hvalue, World.writeValue]

private theorem follows_dispatch_model (hcall : Careful bindings old call) {node : NodeId}
    {key : String} (hmodel : .model node key ∈ bindings) (text : String) (w : World)
    (hvalue : w.doc.supportsValue node = true) :
    w.Follows bindings old
      (fire call node text (w.withDoc (w.doc.setValue node text)) (.model 0 key)) := by
  intro h
  have hchanged := h.wired.setValue node text
  have hpinned : ((w.withDoc (w.doc.setValue node text)).modifyView 0
      fun v => { v with pins := v.pins + 1 }).Wired bindings old :=
    hchanged.modifyView ⟨hchanged.view.alive, hchanged.view.registry, hchanged.view.deferred⟩
  have htext : (w.doc.setValue node text).value? node = some text := by
    obtain ⟨before, hbefore⟩ := Option.isSome_iff_exists.mp hvalue
    rw [Document.value?_setValue, if_pos rfl, hbefore]
    rfl
  rw [fire, if_pos hchanged.isAlive, pinned]
  simp only
  rw [handleChange_eq hpinned htext]
  refine ((follows_of_notify hcall ?_ ?_ ?_ ?_).trans (follows_pins _ (· - 1))) h
  · have hwritten : w.Keeps (w.withDoc (w.doc.setValue node text)) := keeps_host rfl rfl
    exact (hwritten.trans (keeps_modifyView _ 0 (.pins (· + 1)))).trans (keeps_writeValue _ key _)
  · exact fun _ => hpinned.writeValue key _
  · intro _ b hb hne hlit
    have hcell : b.cell? ≠ some (.value node) := by
      intro hcell
      rw [h.wired.eq_of_cell? hmodel hb hcell] at hne
      exact hne rfl
    rw [lit_writeValue_of_ne hpinned hne, lit_modifyView hchanged rfl]
    exact Document.holds_setValue_of_ne hcell hlit text
  · intro _ b hb hbk horigin
    have hself : b = .model node key := by
      cases b with
      | model id k =>
        have hid : id = node := by
          split at horigin
          · simp at horigin
          · simpa [Binding.isModelOf] using horigin
        subst hid
        exact h.wired.eq_of_cell? hmodel hb rfl
      | interpolation | text | watch =>
        split at horigin <;> simp [Binding.isModelOf] at horigin
    subst hself
    rw [Lit, writeValue, view_modifyView_self hpinned.lt_size]
    simp only [Binding.key, Store.get?_set_self]
    exact htext

private theorem follows_dispatch (hcall : Careful bindings old call) (w : World) (node : NodeId)
    (text : String) : w.Follows bindings old (w.dispatch call node text).1 := by
  intro h
  unfold dispatch
  split
  · rename_i hvalue
    by_cases hbound : ∃ b ∈ bindings, b.cell? = some (.value node)
    · obtain ⟨b, hb, hcell⟩ := hbound
      cases b with
      | model id key =>
        obtain rfl : id = node := by simpa [Binding.cell?] using hcell
        rw [h.wired.listenersOf_model hb]
        exact follows_dispatch_model hcall hb text w hvalue h
      | interpolation | text | watch => simp [Binding.cell?] at hcell
    · have hcells : ∀ b ∈ bindings, b.cell? ≠ some (.value node) :=
        fun b hb hcell => hbound ⟨b, hb, hcell⟩
      rw [h.wired.listenersOf_eq_nil hcells]
      have hwritten : w.Keeps (w.withDoc (w.doc.setValue node text)) := keeps_host rfl rfl
      apply follows_of_lit hwritten _ h
      exact fun h => ⟨h.setValue node text,
        fun b hb hlit => Document.holds_setValue_of_ne (hcells b hb) hlit text⟩
  · exact Follows.refl w h

theorem Wired.reach?_eq (h : w.Wired bindings old) {handle : Nat} {id : ViewId}
    (hid : w.reach? handle = some id) : id = 0 := by
  obtain ⟨entry, hentry, hreached⟩ := Option.bind_eq_some_iff.mp hid
  rw [h.handles] at hentry
  have hmem : entry ∈ #[{ view := 0 : Handle }] := Array.mem_of_getElem? hentry
  obtain rfl : entry = { view := 0 } := by simpa using hmem
  split at hreached
  · exact (Option.some.inj hreached).symm
  · cases hreached

private theorem follows_onView (w : World) (handle : Nat)
    {action : ViewId → View → World → World × Outcome}
    (haction : ∀ view (w : World), w.Follows bindings old (action 0 view w).1) :
    w.Follows bindings old (w.onView handle action).1 := by
  intro h
  unfold onView
  split
  · exact Follows.refl w h
  rename_i id hid
  obtain rfl := h.wired.reach?_eq hid
  split
  · exact Follows.refl w h
  · exact follows_pinned w (haction _) h

private theorem follows_newCallback (w : World) (script : ScriptId) :
    w.Follows bindings old (w.newCallback script).1 :=
  follows_host rfl rfl rfl rfl rfl

private theorem follows_exec (hcall : Careful bindings old call) (told : Option Value) {step : Step}
    (hstep : step.throughView = true) (w : World) :
    w.Follows bindings old (w.exec call told step).1 := by
  cases step with
  | get handle key => exact follows_onView w handle fun _ w => .refl w
  | set handle key operand => exact follows_onView w handle fun _ w => follows_set hcall w _ _
  | notify handle key => exact follows_onView w handle fun _ w => follows_notify hcall w _
  | watch handle key script =>
    apply follows_onView w handle
    intro view w
    dsimp only
    split
    · exact .refl w
    · exact ((follows_newCallback w script).trans (follows_register _ _ _)).trans
        (follows_emit _ rfl (by simp))
  | dispatch node text => exact follows_dispatch hcall w node text
  | _ => simp [Step.throughView] at hstep

/-- Callbacks that act through the view model keep it in step, however deep they nest. -/
theorem careful_call {behaviour : Behaviour} (hbehaviour : ThroughView behaviour) (depth : Nat) :
    Careful bindings old (World.call behaviour depth) := by
  refine ⟨attends_call behaviour depth, ?_⟩
  induction depth with
  | zero => exact fun callback notice w => follows_emit w rfl (by simp)
  | succ depth ih =>
    intro callback notice w
    have hcall : Careful bindings old (World.call behaviour depth) :=
      ⟨attends_call behaviour depth, ih⟩
    have hcalled : w.Follows bindings old
        ((w.emit (.called callback notice)).countCall callback) :=
      (follows_emit w rfl (by simp)).trans (follows_host rfl rfl rfl rfl rfl)
    refine hcalled.trans (follows_foldl (fun w step hstep => ?_) _)
    exact (follows_exec hcall notice.told (hbehaviour _ _ _ step hstep) w).trans
      (follows_emit _ rfl (by simp))

theorem follows_runAll {behaviour : Behaviour} (hbehaviour : ThroughView behaviour) (depth : Nat)
    {steps : List Step} (hsteps : ∀ step ∈ steps, step.throughView = true) (w : World) :
    w.Follows bindings old (w.runAll behaviour depth steps) :=
  follows_foldl (fun w step hstep =>
    follows_exec (careful_call hbehaviour depth) none (hsteps step hstep) w) w

/-! ## Whole runs -/

theorem wired_mounted (root : NodeId) (settings : Settings) (store : Store)
    (hbindings : ∀ b ∈ bindings, b.isWatch = false) :
    (View.mounted root settings store bindings).Wired bindings := by
  refine ⟨rfl, fun key => ?_, by simp [View.mounted]⟩
  rw [View.mounted, Registry.watchers_addAll, List.filter_map, List.map_map]
  simp only [Registry.watchers_empty, List.nil_append, Function.comp_def, List.map_id']
  apply List.filter_eq_self.mpr
  intro b hb
  simp [hbindings b (List.mem_filter.mp hb).1]

/-- After it was mounted, a view model is in step. -/
theorem inStep_mount {doc : Document} (hdoc : doc.Reachable) (options : MountOptions)
    (settings : Settings) {root : NodeId} (hroot : options.target.resolve doc = .ok root)
    (hz : ((ofDocument doc).mount options settings).1 = z) :
    z.InStep (compile doc options.store settings root).bindings doc.size ∧
      (z.view 0).inFlight = [] := by
  have hwf := hdoc.wellFormed
  obtain ⟨hsize, hapart, hshown⟩ := compile_displays hwf options.store settings root
  obtain ⟨hcompiled, hviews, hhandles, hlisteners⟩ := mount_eq (ofDocument doc) options settings
    hroot rfl (contains_modelInputs hwf options.store settings root) hz
  have hkeeps : (ofDocument doc).Keeps z := by
    have hmoves : Moves (World.call (fun _ _ _ => []) 0) (ofDocument doc) z :=
      hz ▸ moves_mount _ options settings
    exact hmoves.keeps (attends_call _ 0)
  have hview : z.view 0 = .mounted root settings options.store
      (compile doc options.store settings root).bindings := by
    rw [World.view, hviews]
    rfl
  have hwired : z.Wired (compile doc options.store settings root).bindings doc.size := by
    refine ⟨by rw [hviews]; rfl, hhandles, ?_, ?_, hcompiled ▸ hsize, ?_, hapart⟩
    · rw [← modelInputs_compile hwf]
      exact hlisteners.trans (List.nil_append _)
    · rw [hview]
      exact wired_mounted root settings options.store fun b hb => (hshown b hb).1
    · exact fun b hb => hcompiled ▸ (hshown b hb).2.1
  refine ⟨⟨?_, hwired, fun b hb _ => ?_⟩, by rw [hview]; rfl⟩
  · exact (hkeeps (atRest_ofDocument doc).sound).1
  · rw [Lit, hview, hcompiled]
    exact (hshown b hb).2.2

theorem shownText_get? (store : Store) (key : String) :
    shownText (store.get? key) = store.render key := by
  unfold Store.render shownText
  cases store.get? key <;> rfl

private theorem InStep.shows (h : w.InStep bindings old) (hidle : (w.view 0).inFlight = [])
    {b : Binding} (hb : b ∈ (w.view 0).registry.watchers key) :
    b.Shows w.doc ((w.view 0).store.render b.key) := by
  rcases h.wired.key_eq hb with hwatch | ⟨hb, -⟩
  · cases b with
    | watch => trivial
    | interpolation | text | model => cases hwatch
  · rw [← shownText_get?]
    exact Document.shows_of_holds (h.lit b hb (by simp [hidle]))

/-- When a view model has been mounted on a document, and after each step through it that follows,
its registry has the bindings that the walk has found, and each of them shows what the store has for
its key, whatever callbacks do meanwhile through the view model. -/
theorem runAll_shows {doc : Document} (hdoc : doc.Reachable) (options : MountOptions)
    (settings : Settings) {root : NodeId} (hroot : options.target.resolve doc = .ok root)
    {behaviour : Behaviour} (hbehaviour : ThroughView behaviour) (depth : Nat) {steps : List Step}
    (hsteps : ∀ step ∈ steps, step.throughView = true) :
    ∃ view, ((ofDocument doc).runAll behaviour depth
        (.mount options settings :: steps)).views[0]? = some view ∧
      (∀ key, (view.registry.watchers key).filter (fun b => !b.isWatch) =
        (compile doc options.store settings root).bindings.filter fun b => b.key == key) ∧
      ∀ key, ∀ b ∈ view.registry.watchers key,
        b.Shows ((ofDocument doc).runAll behaviour depth (.mount options settings :: steps)).doc
          (view.store.render b.key) := by
  have hfirst : ((ofDocument doc).run behaviour depth (.mount options settings)).1 =
      ((ofDocument doc).mount options settings).1 := by
    simp only [run, exec, mountOutcome]
    split <;> simp_all
  have hall : (ofDocument doc).runAll behaviour depth (.mount options settings :: steps) =
      ((ofDocument doc).mount options settings).1.runAll behaviour depth steps := by
    rw [← hfirst]
    rfl
  obtain ⟨hmounted, hidle⟩ := inStep_mount hdoc options settings hroot rfl
  obtain ⟨hstep, hevolves, -⟩ := follows_runAll hbehaviour depth hsteps _ hmounted
  have hidle' := (hevolves.inFlight 0).trans hidle
  rw [hall]
  exact ⟨_, getElem?_views hstep.wired.lt_size, hstep.wired.view.registry,
    fun key b hb => hstep.shows hidle' hb⟩

/-- The greeting with an input for the name. -/
def greetingForm : Document :=
  (Document.greeting.appendElement Document.root "input" [⟨"v-model", "name"⟩]).1

/-- Callbacks that put the name between more angle brackets on every call. -/
def wrapping : Behaviour := fun _ _ _ => [.set 0 "name" .wrap]

theorem greetingForm_shows :
    ∃ view, ((ofDocument greetingForm).runAll wrapping 40
        [.mount { target := .node Document.root } {}, .watch 0 "name" 0,
          .dispatch 3 "Ada"]).views[0]? = some view ∧
      ∀ key, ∀ b ∈ view.registry.watchers key,
        b.Shows ((ofDocument greetingForm).runAll wrapping 40
          [.mount { target := .node Document.root } {}, .watch 0 "name" 0,
            .dispatch 3 "Ada"]).doc (view.store.render b.key) := by
  have hdoc : greetingForm.Reachable :=
    .appendElement _ _ _ (.appendText _ _ (.appendElement _ _ _ .empty))
  have hroot : (MountOptions.mk (.node Document.root) none).target.resolve greetingForm =
      .ok Document.root := by decide +kernel
  have hbehaviour : ThroughView wrapping := by
    intro script calls told step hstep
    rw [List.mem_singleton.mp hstep]
    rfl
  have hsteps : ∀ step ∈ [Step.watch 0 "name" 0, .dispatch 3 "Ada"], step.throughView = true := by
    simp [Step.throughView]
  obtain ⟨view, hview, -, hshows⟩ := runAll_shows hdoc { target := .node Document.root } {} hroot
    hbehaviour 40 hsteps
  exact ⟨view, hview, hshows⟩

end World
end ViewBinding
