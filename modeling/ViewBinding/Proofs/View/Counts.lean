import Mathlib
import ViewBinding.Proofs.View.Silence

/-!
# What notifications count

A notification counts the bindings that its passes with watchers meet. All of these are applied as
long as the view model is not disposed of (`World.runAll_counts`); the bindings that a pass leaves
out after a callback has disposed of the view model are counted too, and those that are applied in a
pass over the view only are not.
-/

namespace ViewBinding

/-- What a trace tells of the last notification of a key. -/
structure Tally where
  /-- The input whose change it answers. -/
  origin : Option NodeId := none
  /-- Whether its last pass is over the view only. -/
  viewOnly : Bool := false
  /-- How many bindings its passes with watchers have applied. -/
  full : Nat := 0
  /-- How many bindings its pass over the view only has applied. -/
  late : Nat := 0

/-- What becomes of the tally of a key by an event. -/
def Tally.after (id : ViewId) (key : String) (t : Tally) : Event → Tally
  | .frameBegan view k origin => if view = id ∧ k = key then { origin } else t
  | .passBegan view k viewOnly => if view = id ∧ k = key then { t with viewOnly } else t
  | .applied view b _ =>
    if view = id ∧ b.key = key then
      if t.viewOnly then { t with late := t.late + 1 } else { t with full := t.full + 1 }
    else t
  | _ => t

/-- How a tally has grown by some bindings that were met in a pass. None counts in a pass over the
view only; in another all are applied, if the pass is `complete`. -/
structure Tally.Meets (t t' : Tally) (count : Nat) (complete : Prop) : Prop where
  origin : t'.origin = t.origin
  viewOnly : t'.viewOnly = t.viewOnly
  late : t.viewOnly = true → t'.full = t.full
  most : t'.full ≤ t.full + count
  all : t.viewOnly = false → complete → t'.full = t.full + count

/-- The notification whose tally an event changes. -/
def Event.tallied? : Event → Option (ViewId × String)
  | .frameBegan view key _ | .passBegan view key _ => some (view, key)
  | .applied view b _ => some (view, b.key)
  | _ => none

namespace Trace

def tally (id : ViewId) (key : String) : List Moment → Tally
  | [] => {}
  | m :: past => (tally id key past).after id key m.event

private theorem tally_cons_of_ne {id : ViewId} {key : String} {m : Moment} (past : List Moment)
    (h : m.event.tallied? ≠ some (id, key)) : tally id key (m :: past) = tally id key past := by
  rw [tally]
  cases he : m.event with
  | frameBegan view k origin | passBegan view k viewOnly | applied view b value =>
    rw [he] at h
    refine if_neg ?_
    rintro ⟨rfl, rfl⟩
    exact h rfl
  | _ => rfl

end Trace

open Trace

namespace Tally

theorem Meets.refl (t : Tally) (complete : Prop) : t.Meets t 0 complete :=
  ⟨rfl, rfl, fun _ => rfl, Nat.le_refl _, fun _ _ => rfl⟩

theorem Meets.trans {a b c : Tally} {m n : Nat} {first second : Prop} (hab : a.Meets b m first)
    (hbc : b.Meets c n second) (h : second → first) : a.Meets c (m + n) second where
  origin := hbc.origin.trans hab.origin
  viewOnly := hbc.viewOnly.trans hab.viewOnly
  late := fun hlate => (hbc.late (hab.viewOnly.trans hlate)).trans (hab.late hlate)
  most := by
    have := hab.most
    have := hbc.most
    omega
  all := by
    intro hfull hsecond
    have := hab.all hfull (h hsecond)
    have := hbc.all (hab.viewOnly.trans hfull) hsecond
    omega

private theorem origin_after {t : Tally} {id : ViewId} {key : String} {e : Event}
    (h : ∀ origin, e ≠ .frameBegan id key origin) : (t.after id key e).origin = t.origin := by
  unfold after
  split
  · refine congrArg Tally.origin (if_neg ?_)
    rintro ⟨rfl, rfl⟩
    exact h _ rfl
  · split <;> rfl
  · split
    · split <;> rfl
    · rfl
  · rfl

private theorem meets_applied (t : Tally) {id : ViewId} {key : String} {b : Binding}
    (hb : b.key = key) (value : Option Value) (complete : Prop) :
    t.Meets (t.after id key (.applied id b value)) 1 complete := by
  have hafter : t.after id key (.applied id b value) =
      if t.viewOnly then { t with late := t.late + 1 } else { t with full := t.full + 1 } :=
    if_pos ⟨rfl, hb⟩
  rw [hafter]
  cases hview : t.viewOnly
  · exact ⟨rfl, hview.symm ▸ rfl, by simp [hview], Nat.le_refl _, fun _ _ => rfl⟩
  · exact ⟨rfl, hview.symm ▸ rfl, fun _ => rfl, Nat.le_succ _, by simp [hview]⟩

end Tally

/-- A notification that answers no change of an input ends with a count that its passes with
watchers have not exceeded, and have reached unless the view model is disposed of. -/
def Moment.CountsRight (m : Moment) (past : List Moment) : Prop :=
  ∀ id key ran, m.event = .frameEnded id key ran → (tally id key past).origin = none →
    (tally id key past).full ≤ ran ∧
      ∀ view, m.views[id]? = some view → view.disposed = false → (tally id key past).full = ran

/-- The counts in a trace are right. -/
def Trace.CountedTrace (trace : List Moment) : Prop :=
  ∀ later m past, trace = later ++ m :: past → m.CountsRight past

private theorem Trace.CountedTrace.cons {trace : List Moment} (h : CountedTrace trace) {m : Moment}
    (hm : m.CountsRight trace) : CountedTrace (m :: trace) := by
  intro later m' past heq
  cases later with
  | nil =>
    obtain ⟨rfl, rfl⟩ := List.cons.inj heq
    exact hm
  | cons first later => exact h later m' past (List.cons.inj heq).2

/-- Every binding is registered under its own key. -/
def View.Keyed (v : View) : Prop := ∀ key, ∀ b ∈ v.registry.watchers key, b.key = key

/-- A change that leaves the notifications in progress and brings back no view model. -/
structure View.Mild (v after : View) : Prop where
  inFlight : after.inFlight = v.inFlight
  disposed : v.disposed = true → after.disposed = true
  keyed : v.Keyed → after.Keyed

namespace View

variable {v : View}

private theorem mild_of_eq {after : View} (hinFlight : after.inFlight = v.inFlight)
    (hdisposed : after.disposed = v.disposed) (hregistry : after.registry = v.registry) :
    v.Mild after := by
  refine ⟨hinFlight, fun h => hdisposed.trans h, fun h => ?_⟩
  rw [Keyed, hregistry]
  exact h

theorem Mild.refl (v : View) : v.Mild v := mild_of_eq rfl rfl rfl

private theorem keyed_addAll (h : v.Keyed) (bindings : List Binding) (key : String) :
    ∀ b ∈ (v.registry.addAll (bindings.map fun b => (b.key, b))).watchers key, b.key = key := by
  intro b hb
  rw [Registry.watchers_addAll] at hb
  rcases List.mem_append.mp hb with hb | hb
  · exact h key b hb
  · obtain ⟨entry, hentry, rfl⟩ := List.mem_map.mp hb
    obtain ⟨hentry, hkey⟩ := List.mem_filter.mp hentry
    obtain ⟨b, -, rfl⟩ := List.mem_map.mp hentry
    simpa using hkey

private theorem keyed_mounted (root : NodeId) (settings : Settings) (store : Store)
    (bindings : List Binding) : (mounted root settings store bindings).Keyed :=
  keyed_addAll (v := blank) (by simp [Keyed, blank, mounted, Registry.addAll]) bindings

private theorem mild_register (v : View) (b : Binding) : v.Mild (v.register b) := by
  unfold register
  split
  · exact ⟨rfl, id, fun h => keyed_addAll h [b]⟩
  · exact mild_of_eq rfl rfl rfl

private theorem mild_settle (v : View) : v.Mild v.settle := by
  unfold settle
  split
  · exact .refl v
  split
  · exact ⟨rfl, id, fun _ => by simp [Keyed]⟩
  · exact ⟨rfl, id, fun h => keyed_addAll h v.deferred⟩

private theorem mild_markDirty (v : View) (key : String) : v.Mild (v.markDirty key) := by
  obtain ⟨dirty, h⟩ := v.markDirty_eq key
  rw [h]
  exact mild_of_eq rfl rfl rfl

private theorem Change.mild {f : View → View} (hf : Change f) (v : View) : v.Mild (f v) := by
  cases hf with
  | pins | store => exact mild_of_eq rfl rfl rfl
  | dispose =>
    refine ⟨rfl, fun _ => rfl, fun h key b hb => ?_⟩
    simp only [View.dispose] at hb
    split at hb
    · simp at hb
    · exact h key b hb

end View

namespace World

/-- The counts of all notifications that have ended are right. -/
structure Counted (w : World) : Prop where
  keyed : ∀ id, (w.view id).Keyed
  counts : CountedTrace w.trace

/-- What becomes of a world while the notifications in progress wait: their tallies stay. -/
structure Expects (w after : World) : Prop where
  inFlight : ∀ id, (after.view id).inFlight = (w.view id).inFlight
  disposed : ∀ id, (w.view id).disposed = true → (after.view id).disposed = true
  size : w.views.size ≤ after.views.size
  tally : ∀ id, ∀ key ∈ (w.view id).inFlight, tally id key after.trace = tally id key w.trace

/-- From right counts to right counts. -/
def Reckons (w after : World) : Prop := w.Counted → after.Counted ∧ w.Expects after

variable {call : Caller} {w x y after : World} {id : ViewId} {key : String}

theorem Expects.refl (w : World) : w.Expects w :=
  ⟨fun _ => rfl, fun _ h => h, Nat.le_refl _, fun _ _ _ => rfl⟩

theorem Expects.trans {a b c : World} (hab : a.Expects b) (hbc : b.Expects c) : a.Expects c where
  inFlight := fun id => (hbc.inFlight id).trans (hab.inFlight id)
  disposed := fun id h => hbc.disposed id (hab.disposed id h)
  size := hab.size.trans hbc.size
  tally := fun id key hkey =>
    (hbc.tally id key (hab.inFlight id ▸ hkey)).trans (hab.tally id key hkey)

theorem Reckons.refl (w : World) : w.Reckons w := fun h => ⟨h, .refl w⟩

theorem Reckons.trans {a b c : World} (hab : a.Reckons b) (hbc : b.Reckons c) : a.Reckons c := by
  intro h
  obtain ⟨hb, hawaits⟩ := hab h
  obtain ⟨hc, hawaits'⟩ := hbc hb
  exact ⟨hc, hawaits.trans hawaits'⟩

/-! ## Outside notifications -/

private theorem reckons_views (htrace : after.trace = w.trace)
    (hsize : w.views.size ≤ after.views.size) (hviews : ∀ id, (w.view id).Mild (after.view id)) :
    w.Reckons after := fun h =>
  ⟨⟨fun id => (hviews id).keyed (h.keyed id), htrace ▸ h.counts⟩,
    fun id => (hviews id).inFlight, fun id => (hviews id).disposed, hsize,
    fun _ _ _ => by rw [htrace]⟩

private theorem reckons_host (hviews : after.views = w.views) (htrace : after.trace = w.trace) :
    w.Reckons after :=
  reckons_views htrace (by rw [hviews]) fun id => by
    rw [view_congr hviews]
    exact .refl _

private theorem reckons_modifyView (w : World) (id : ViewId) {f : View → View}
    (hf : ∀ v : View, v.Mild (f v)) : w.Reckons (w.modifyView id f) :=
  reckons_views rfl (by simp) (view_modifyView_induction w id View.Mild.refl hf)

private theorem Counted.emit (h : w.Counted) {e : Event}
    (he : Moment.CountsRight ⟨e, w.views⟩ w.trace) : (w.emit e).Counted :=
  ⟨h.keyed, h.counts.cons he⟩

private theorem reckons_emit (w : World) {e : Event} (he : e.tallied? = none)
    (hended : ∀ id key ran, e ≠ .frameEnded id key ran) : w.Reckons (w.emit e) := by
  refine fun h => ⟨h.emit fun id key ran hevent => absurd hevent (hended id key ran), ?_⟩
  refine ⟨fun _ => rfl, fun _ h => h, Nat.le_refl _, fun id key _ => ?_⟩
  exact tally_cons_of_ne _ (by simp [he])

private theorem reckons_plain (w : World) {e : Event} (he : e.Plain) : w.Reckons (w.emit e) := by
  refine reckons_emit w ?_ ?_
  · cases e <;> first | rfl | exact he.elim
  · rintro id key ran rfl
    exact he

private theorem reckons_perform (w : World) (change : HostChange) : w.Reckons (w.perform change) :=
  (reckons_plain w (e := .changed change) trivial).trans (reckons_host rfl rfl)

private theorem reckons_mounted (w : World) (root : NodeId) (settings : Settings) (store : Store)
    (bindings : List Binding) :
    w.Reckons (({ w with views := w.views.push (.mounted root settings store bindings) } :
      World).emit (.mounted w.views.size bindings)) := by
  have hpushed : w.Reckons
      { w with views := w.views.push (.mounted root settings store bindings) } := by
    refine reckons_views rfl (by simp) fun id => ?_
    rw [World.view, World.view, Array.getElem?_push]
    split
    · rename_i hid
      have hnone : w.views[id]? = none := by simp [hid]
      rw [hnone]
      exact ⟨rfl, fun h => (by cases h), fun _ => View.keyed_mounted root settings store bindings⟩
    · exact .refl _
  exact hpushed.trans (reckons_emit _ rfl (by simp))

/-- Callbacks keep counts right. -/
def Recalls (call : Caller) : Prop := ∀ callback notice w, Reckons w (call callback notice w)

private theorem reckons_applyBinding (hcall : Recalls call) (w : World) (b : Binding)
    (value : Option Value) : w.Reckons (w.applyBinding call b value) := by
  unfold applyBinding
  split
  · exact hcall _ _ w
  split
  · exact reckons_perform w _
  · exact .refl w

/-! ## Inside a notification -/

/-- What holds in the course of a notification that has begun in `w`. -/
structure Amid (w : World) (id : ViewId) (key : String) (x : World) : Prop where
  counted : x.Counted
  inFlight : ∀ other, (x.view other).inFlight =
    if other = id then key :: (w.view other).inFlight else (w.view other).inFlight
  disposed : ∀ other, (w.view other).disposed = true → (x.view other).disposed = true
  size : w.views.size ≤ x.views.size
  outer : ∀ other, ∀ k ∈ (w.view other).inFlight, tally other k x.trace = tally other k w.trace

private theorem Amid.reckons (h : w.Amid id key x) (hxy : x.Reckons y) :
    w.Amid id key y ∧ tally id key y.trace = tally id key x.trace ∧
      ((x.view id).disposed = true → (y.view id).disposed = true) := by
  obtain ⟨hcounted, hawaits⟩ := hxy h.counted
  have hmem : ∀ other, ∀ k ∈ (w.view other).inFlight, k ∈ (x.view other).inFlight := by
    intro other k hk
    rw [h.inFlight]
    split
    · exact List.mem_cons_of_mem _ hk
    · exact hk
  refine ⟨⟨hcounted, fun other => (hawaits.inFlight other).trans (h.inFlight other),
    fun other hd => hawaits.disposed other (h.disposed other hd), h.size.trans hawaits.size,
    fun other k hk => (hawaits.tally other k (hmem other k hk)).trans (h.outer other k hk)⟩,
    hawaits.tally id key ?_, hawaits.disposed id⟩
  rw [h.inFlight, if_pos rfl]
  exact List.mem_cons_self

private theorem Amid.emit (h : w.Amid id key x) (hkey : key ∉ (w.view id).inFlight) {e : Event}
    (he : e.tallied? = some (id, key)) : w.Amid id key (x.emit e) := by
  refine ⟨h.counted.emit fun other k ran (hended : e = _) => ?_, h.inFlight, h.disposed, h.size,
    fun other k hk => ?_⟩
  · rw [hended] at he
    cases he
  · refine (tally_cons_of_ne _ ?_).trans (h.outer other k hk)
    rw [he]
    rintro heq
    obtain ⟨rfl, rfl⟩ := Prod.mk.inj (Option.some.inj heq)
    exact hkey hk

private theorem Amid.visitBinding (hcall : Recalls call) (h : w.Amid id key x)
    (hid : id < w.views.size) (hkey : key ∉ (w.view id).inFlight) (origin : Option NodeId)
    (viewOnly : Bool) {b : Binding} (hb : b.key = key)
    (hy : World.visitBinding call id key origin viewOnly x b = y) :
    w.Amid id key y ∧ ((x.view id).disposed = true → (y.view id).disposed = true) ∧
      (tally id key x.trace).Meets (tally id key y.trace) 1
        (viewOnly = false ∧ origin = none ∧ (y.view id).disposed = false) := by
  rw [visitBinding_of_view (getElem?_views (hid.trans_le h.size))] at hy
  split at hy
  · rename_i hskip
    subst hy
    refine ⟨h, fun h => h, ⟨rfl, rfl, fun _ => rfl, Nat.le_succ _, ?_⟩⟩
    rintro - ⟨rfl, rfl, halive⟩
    simp [halive] at hskip
  · have happlied := h.emit hkey (e := .applied id b ((x.view id).store.get? key))
      (by rw [← hb]; rfl)
    obtain ⟨hy', htally, hdisposed⟩ := happlied.reckons (reckons_applyBinding hcall _ b _)
    rw [hy] at hy' htally hdisposed
    refine ⟨hy', hdisposed, ?_⟩
    rw [htally]
    exact Tally.meets_applied _ hb _ _

private theorem Amid.foldl_visitBinding (hcall : Recalls call) (h : w.Amid id key x)
    (hid : id < w.views.size) (hkey : key ∉ (w.view id).inFlight) (origin : Option NodeId)
    (viewOnly : Bool) {bindings : List Binding} (hbindings : ∀ b ∈ bindings, b.key = key)
    (hy : bindings.foldl (World.visitBinding call id key origin viewOnly) x = y) :
    w.Amid id key y ∧ ((x.view id).disposed = true → (y.view id).disposed = true) ∧
      (tally id key x.trace).Meets (tally id key y.trace) bindings.length
        (viewOnly = false ∧ origin = none ∧ (y.view id).disposed = false) := by
  induction bindings generalizing x with
  | nil =>
    subst hy
    exact ⟨h, fun h => h, .refl _ _⟩
  | cons b rest ih =>
    obtain ⟨hb, hrest⟩ := List.forall_mem_cons.mp hbindings
    obtain ⟨hfirst, hdisposed, hmeets⟩ := h.visitBinding hcall hid hkey origin viewOnly hb rfl
    obtain ⟨hlater, hdisposed', hmeets'⟩ := ih hfirst hrest hy
    refine ⟨hlater, hdisposed' ∘ hdisposed, ?_⟩
    rw [List.length_cons, Nat.add_comm]
    refine hmeets.trans hmeets' ?_
    rintro ⟨hfull, hnone, halive⟩
    exact ⟨hfull, hnone, Bool.eq_false_iff.mpr (mt hdisposed' (Bool.eq_false_iff.mp halive))⟩

private theorem Amid.runPass (hcall : Recalls call) (h : w.Amid id key x) (hid : id < w.views.size)
    (hkey : key ∉ (w.view id).inFlight) (origin : Option NodeId) (viewOnly : Bool) {count : Nat}
    (hy : x.runPass call id key origin viewOnly = (y, count)) :
    w.Amid id key y ∧ ((x.view id).disposed = true → (y.view id).disposed = true) ∧
      ({ tally id key x.trace with viewOnly } : Tally).Meets (tally id key y.trace) count
        (viewOnly = false ∧ origin = none ∧ (y.view id).disposed = false) := by
  have hfst : (x.runPass call id key origin viewOnly).1 = _ := runPass_fst x id key origin viewOnly
  rw [hy] at hfst
  have hcount : count = (x.watchers id key).length := (congrArg Prod.snd hy).symm
  have hkeyed : ∀ b ∈ x.watchers id key, b.key = key := by
    rw [watchers_eq (hid.trans_le h.size)]
    exact h.counted.keyed id key
  obtain ⟨hmodified, htally, hdisposed⟩ := h.reckons (reckons_modifyView x id
    (f := fun v => { v with passes := v.passes + 1 }) fun _ => View.mild_of_eq rfl rfl rfl)
  have hbegan : w.Amid id key (x.beginPass id key viewOnly) :=
    hmodified.emit hkey (e := .passBegan id key viewOnly) rfl
  have hbeganTally : tally id key (x.beginPass id key viewOnly).trace =
      { tally id key x.trace with viewOnly } := if_pos ⟨rfl, rfl⟩
  obtain ⟨hran, hdisposed', hmeets⟩ :=
    hbegan.foldl_visitBinding hcall hid hkey origin viewOnly hkeyed rfl
  obtain ⟨hended, htally', hdisposed''⟩ := hran.reckons ((reckons_modifyView _ id
    (f := fun v => { v with passes := v.passes - 1 }) fun _ => View.mild_of_eq rfl rfl rfl).trans
      (reckons_emit _ (e := .passEnded id key) rfl (by simp)))
  subst hfst hcount
  refine ⟨hended, hdisposed'' ∘ hdisposed' ∘ hdisposed, ?_⟩
  rw [← hbeganTally]
  have hmeets' := hmeets
  rw [← htally'] at hmeets'
  refine ⟨hmeets'.origin, hmeets'.viewOnly, hmeets'.late, hmeets'.most, ?_⟩
  rintro hview ⟨hfull, hnone, halive⟩
  exact hmeets'.all hview
    ⟨hfull, hnone, Bool.eq_false_iff.mpr (mt hdisposed'' (Bool.eq_false_iff.mp halive))⟩

/-- The count of a notification that answers no change of an input is right so far. -/
def Counts (id : ViewId) (key : String) (ran : Nat) (x : World) : Prop :=
  (tally id key x.trace).origin = none → (tally id key x.trace).full ≤ ran ∧
    ((x.view id).disposed = false → (tally id key x.trace).full = ran)

private theorem Counts.runPass_full {count ran : Nat} {origin : Option NodeId}
    (hran : x.Counts id key ran) (horigin : (tally id key x.trace).origin = none → origin = none)
    (hdisposed : (x.view id).disposed = true → (y.view id).disposed = true)
    (hmeets : ({ tally id key x.trace with viewOnly := false } : Tally).Meets
      (tally id key y.trace) count (false = false ∧ origin = none ∧ (y.view id).disposed = false)) :
    y.Counts id key (ran + count) := by
  intro hnone
  have hnone' : (tally id key x.trace).origin = none := hmeets.origin.symm.trans hnone
  obtain ⟨hmost, hall⟩ := hran hnone'
  refine ⟨hmeets.most.trans (Nat.add_le_add_right hmost count), fun halive => ?_⟩
  have hbefore : (x.view id).disposed = false :=
    Bool.eq_false_iff.mpr (mt hdisposed (Bool.eq_false_iff.mp halive))
  rw [hmeets.all rfl ⟨rfl, horigin hnone', halive⟩, ← hall hbefore]

private theorem Counts.runPass_viewOnly {ran : Nat} {count : Nat} {complete : Prop}
    (hran : x.Counts id key ran)
    (hdisposed : (x.view id).disposed = true → (y.view id).disposed = true)
    (hmeets : ({ tally id key x.trace with viewOnly := true } : Tally).Meets
      (tally id key y.trace) count complete) : y.Counts id key ran := by
  intro hnone
  obtain ⟨hmost, hall⟩ := hran (hmeets.origin.symm.trans hnone)
  rw [hmeets.late rfl]
  refine ⟨hmost, fun halive => hall ?_⟩
  exact Bool.eq_false_iff.mpr (mt hdisposed (Bool.eq_false_iff.mp halive))

private theorem Amid.clearDirty (h : w.Amid id key x) :
    w.Amid id key (x.modifyView id (·.clearDirty key)) :=
  (h.reckons (reckons_modifyView x id (f := (·.clearDirty key)) fun _ =>
    View.mild_of_eq rfl rfl rfl)).1

private theorem Counts.clearDirty {ran : Nat} (h : x.Counts id key ran) (hid : id < x.views.size) :
    (x.modifyView id (·.clearDirty key)).Counts id key ran := by
  intro hnone
  rw [view_modifyView_self hid]
  exact h hnone

/-- The passes that follow the first keep the count right. -/
theorem Amid.repeatPasses (hcall : Recalls call) (h : w.Amid id key x) (hid : id < w.views.size)
    (hkey : key ∉ (w.view id).inFlight) {remaining ran total : Nat} (hran : x.Counts id key ran)
    (hy : x.repeatPasses call id key remaining ran = (y, total)) :
    w.Amid id key y ∧ y.Counts id key total := by
  induction remaining generalizing ran x with
  | zero =>
    have hcounts := hran.clearDirty (hid.trans_le h.size)
    unfold World.repeatPasses at hy
    dsimp only at hy
    split at hy
    · obtain ⟨rfl, rfl⟩ := Prod.mk.inj hy
      obtain ⟨hpassed, hdisposed, hmeets⟩ := h.clearDirty.runPass hcall hid hkey none true rfl
      exact ⟨hpassed, hcounts.runPass_viewOnly hdisposed hmeets⟩
    · obtain ⟨rfl, rfl⟩ := Prod.mk.inj hy
      exact ⟨h.clearDirty, hcounts⟩
  | succ remaining ih =>
    have hcounts := hran.clearDirty (hid.trans_le h.size)
    unfold World.repeatPasses at hy
    dsimp only at hy
    split at hy
    · obtain ⟨hpassed, hdisposed, hmeets⟩ := h.clearDirty.runPass hcall hid hkey none false rfl
      exact ih hpassed (hcounts.runPass_full (fun _ => rfl) hdisposed hmeets) hy
    · obtain ⟨rfl, rfl⟩ := Prod.mk.inj hy
      exact ⟨h.clearDirty, hcounts⟩

private theorem amid_beginFrame (hw : w.Counted) (hid : id < w.views.size)
    (hkey : key ∉ (w.view id).inFlight) (origin : Option NodeId) :
    w.Amid id key (w.beginFrame id key origin) := by
  have hview := view_beginFrame w hid key origin
  refine ⟨⟨fun other => ?_, hw.counts.cons fun _ _ _ hended => by cases hended⟩, fun other => ?_,
    fun other hdisposed => ?_, ?_, fun other k hk => ?_⟩
  · rw [hview]
    split
    · exact hw.keyed other
    · exact hw.keyed other
  · rw [hview]
    split <;> rfl
  · rw [hview]
    split <;> exact hdisposed
  · simp [beginFrame, World.emit]
  · refine tally_cons_of_ne _ fun heq => ?_
    obtain ⟨rfl, rfl⟩ := Prod.mk.inj (Option.some.inj heq)
    exact hkey hk

private theorem Amid.endFrame (h : w.Amid id key x) (hid : id < w.views.size) {ran : Nat}
    (hran : x.Counts id key ran) :
    (x.endFrame id key ran).Counted ∧ w.Expects (x.endFrame id key ran) := by
  have hview := view_endFrame x (hid.trans_le h.size) key ran
  have hsettle : ∀ other, (View.settle { x.view other with
      inFlight := (x.view other).inFlight.tail }).disposed = (x.view other).disposed := by
    intro other
    obtain ⟨registry, deferred, hsettled⟩ :=
      View.settle_eq { x.view other with inFlight := (x.view other).inFlight.tail }
    rw [hsettled]
  refine ⟨⟨fun other => ?_, h.counted.counts.cons ?_⟩, fun other => ?_, fun other hdisposed => ?_,
    ?_, fun other k hk => ?_⟩
  · rw [hview]
    split
    · exact (View.mild_settle _).keyed (h.counted.keyed other)
    · exact h.counted.keyed other
  · intro other k total hended hnone
    obtain ⟨rfl, rfl, rfl⟩ := Event.frameEnded.inj hended
    obtain ⟨hmost, hall⟩ := hran hnone
    refine ⟨hmost, fun view (hnow : (x.endFrame id key ran).views[id]? = some view) halive => ?_⟩
    rw [← view_of_getElem? hnow, hview, if_pos rfl, hsettle] at halive
    exact hall halive
  · rw [hview]
    split
    · rename_i hother
      rw [(View.mild_settle _).inFlight]
      simp [h.inFlight, hother]
    · rename_i hother
      rw [h.inFlight, if_neg hother]
  · rw [hview]
    split
    · rw [hsettle]
      exact h.disposed other hdisposed
    · exact h.disposed other hdisposed
  · simpa [World.endFrame, World.emit] using h.size
  · rw [← h.outer other k hk]
    exact tally_cons_of_ne _ (by simp [Event.tallied?])

private theorem reckons_notifyFrom (hcall : Recalls call) (w : World) (id : ViewId) (key : String)
    (origin : Option NodeId) : w.Reckons (w.notifyFrom call id key origin).1 := by
  by_cases hdisposed : w.isDisposed id = true
  · rw [notifyFrom, if_pos hdisposed]
    exact .refl w
  have hid : id < w.views.size := lt_size_of_isDisposed_eq_false (by simpa using hdisposed)
  by_cases hkey : key ∈ (w.view id).inFlight
  · rw [notifyFrom, if_neg hdisposed, isInFlight_eq hid, if_pos (by simpa using hkey)]
    exact (reckons_modifyView w id (View.mild_markDirty · key)).trans
      (reckons_plain _ (e := .folded id key) trivial)
  · intro hw
    rw [isDisposed_eq hid, Bool.not_eq_true] at hdisposed
    rw [notifyFrom_eq_endFrame hid hdisposed hkey]
    have hbegan := amid_beginFrame hw hid hkey origin
    have htally : tally id key (w.beginFrame id key origin).trace = { origin } := if_pos ⟨rfl, rfl⟩
    have hnone : (w.beginFrame id key origin).Counts id key 0 := by
      intro _
      rw [htally]
      exact ⟨Nat.le_refl _, fun _ => rfl⟩
    obtain ⟨hfirst, hdisposed', hmeets⟩ := hbegan.runPass hcall hid hkey origin false rfl
    have horigin : (tally id key (w.beginFrame id key origin).trace).origin = none →
        origin = none := by
      rw [htally]
      exact fun h => h
    have hran := hnone.runPass_full horigin hdisposed' hmeets
    rw [Nat.zero_add] at hran
    obtain ⟨hlast, htotal⟩ := hfirst.repeatPasses hcall hid hkey hran rfl
    exact hlast.endFrame hid htotal

/-! ## Runs -/

private theorem Move.reckons (hcall : Recalls call) (h : Move call w after) : w.Reckons after := by
  cases h with
  | host hviews htrace => exact reckons_host hviews htrace
  | changed change => exact reckons_plain w (e := .changed change) trivial
  | view id hf => exact reckons_modifyView w id hf.mild
  | registered id b _ =>
    exact (reckons_modifyView w id (View.mild_register · b)).trans (reckons_emit _ rfl (by simp))
  | mounted root settings store bindings => exact reckons_mounted w root settings store bindings
  | call callback text => exact hcall callback (.changed text) w
  | tried b value =>
    exact (reckons_plain w (e := .tried b value) trivial).trans
      (reckons_applyBinding hcall _ b value)
  | notify id key origin _ => exact reckons_notifyFrom hcall w id key origin

private theorem lasting_reckons : Lasting Reckons where
  refl := Reckons.refl
  trans := Reckons.trans
  emit := fun w _ he => reckons_plain w he
  countCall := fun _ _ => reckons_host rfl rfl
  exec := by
    intro call hcall told w step
    have hmoves : Moves call w (w.exec call told step).1 := exec_moves told w step
    generalize (w.exec call told step).1 = after at hmoves
    induction hmoves with
    | refl => exact .refl w
    | tail _ hmove ih => exact ih.trans (hmove.reckons hcall)

private theorem counted_runAll (doc : Document) (behaviour : Behaviour) (depth : Nat)
    (steps : List Step) : ((ofDocument doc).runAll behaviour depth steps).Counted := by
  have hreckons := lasting_reckons.runAll behaviour depth (ofDocument doc) steps
  refine (hreckons ⟨fun id => ?_, fun later m past htrace => ?_⟩).1
  · exact View.keyed_mounted Document.root {} .empty []
  · simp [ofDocument] at htrace

private theorem mem_openFrames {trace inside past : List Moment} (hlawful : LawfulTrace trace)
    {m : Moment} {origin : Option NodeId} (htrace : inside ++ m :: past <:+ trace)
    (hbegan : m.event = .frameBegan id key origin) (hunended : Unended id key inside) :
    key ∈ openFrames id (inside ++ m :: past) := by
  induction inside with
  | nil =>
    rw [List.nil_append, openFrames_frameBegan past hbegan]
    exact List.mem_cons_self
  | cons first inside ih =>
    obtain ⟨hfirst, hinside⟩ := List.forall_mem_cons.mp hunended
    have hmem := ih ((List.suffix_cons first _).trans htrace) hinside
    rw [List.cons_append]
    cases he : first.event with
    | frameBegan view k origin =>
      by_cases hid : view = id
      · subst hid
        rw [openFrames_frameBegan _ he]
        exact List.mem_cons_of_mem _ hmem
      · rw [openFrames_cons_of_ne _ (by simp [he, Event.frame?, hid])]
        exact hmem
    | frameEnded view k ran =>
      by_cases hid : view = id
      · subst hid
        obtain ⟨later, rfl⟩ := htrace
        obtain ⟨outer, houter⟩ :=
          (hlawful later first (inside ++ m :: past) rfl).innermost view k ran he
        rw [openFrames_frameEnded _ he, houter]
        rw [houter] at hmem
        refine (List.mem_cons.mp hmem).resolve_left ?_
        rintro rfl
        exact hfirst ran he
      · rw [openFrames_cons_of_ne _ (by simp [he, Event.frame?, hid])]
        exact hmem
    | _ =>
      rw [openFrames, he]
      exact hmem

private theorem frameBegan_ne {trace inside past : List Moment} (hlawful : LawfulTrace trace)
    (hfair : FairTrace trace) {m : Moment} {origin : Option NodeId}
    (htrace : inside ++ m :: past <:+ trace)
    (hbegan : m.event = .frameBegan id key origin) (hunended : Unended id key inside) :
    ∀ m' ∈ inside, ∀ again, m'.event ≠ .frameBegan id key again := by
  intro m' hm' again hagain
  obtain ⟨after, before, rfl⟩ := List.append_of_mem hm'
  obtain ⟨later, hlater⟩ := htrace
  have hsplit : trace = (later ++ after) ++ m' :: (before ++ m :: past) := by simp [← hlater]
  have hbefore : before ++ m :: past <:+ trace := ⟨later ++ after ++ [m'], by simp [hsplit]⟩
  have hmem := mem_openFrames hlawful hbefore hbegan fun x hx => hunended x (by simp [hx])
  have hnow := hlawful _ _ _ hsplit
  have hevent := (hfair _ _ _ hsplit).event
  rw [hagain] at hevent
  obtain ⟨view, hview, -⟩ := hevent
  have hnodup := (hnow.queues id view hview).inFlight
  rw [hnow.stack id view hview, openFrames_frameBegan _ hagain] at hnodup
  exact (List.nodup_cons.mp hnodup).1 hmem

private theorem tally_origin {inside past : List Moment} {m : Moment} {origin : Option NodeId}
    (hbegan : m.event = .frameBegan id key origin)
    (hinside : ∀ m' ∈ inside, ∀ again, m'.event ≠ .frameBegan id key again) :
    (tally id key (inside ++ m :: past)).origin = origin := by
  induction inside with
  | nil =>
    rw [List.nil_append, tally, hbegan]
    exact congrArg Tally.origin (if_pos ⟨rfl, rfl⟩)
  | cons first inside ih =>
    obtain ⟨hfirst, hrest⟩ := List.forall_mem_cons.mp hinside
    rw [List.cons_append, tally, Tally.origin_after hfirst, ih hrest]

/-- A notification that answers no change of an input ends with its count, which is its result. -/
def EndsWith (x : World) (id : ViewId) (key : String) (result : World × Nat) : Prop :=
  ∃ ended inside began, result.1.trace = ⟨.frameEnded id key result.2, ended⟩ ::
    (inside ++ ⟨.frameBegan id key none, began⟩ :: x.trace) ∧ Unended id key inside

/-- A notification of a key that is not being notified has the count for its result with which it
ends. -/
theorem endsWith_notifyFrom (behaviour : Behaviour) (depth : Nat) (hsound : x.Sound)
    (hid : id < x.views.size) (halive : (x.view id).disposed = false)
    (hkey : key ∉ (x.view id).inFlight) :
    x.EndsWith id key (x.notifyFrom (World.call behaviour depth) id key none) := by
  have hcall := attends_call behaviour depth
  have hguarded := (closed_grows id).guarded (x.beginFrame id key none)
  have hheeds : Heeds (World.call behaviour depth) (fun _ => True)
      (Grows (x.beginFrame id key none)) :=
    fun _ callback _ value w hw =>
      hw.trans (lasting_grows.calls behaviour depth callback (.watched value) w)
  have hfirst := between_first hcall hsound hid hkey none
  have hgrows := hguarded.runPass hheeds key none false ⟨[], rfl⟩
  rw [notifyFrom_eq_endFrame hid halive hkey]
  generalize (x.beginFrame id key none).runPass (World.call behaviour depth) id key none false =
    first at hfirst hgrows ⊢
  have hcount : 1 + (maxPasses - 1) = maxPasses := rfl
  obtain ⟨new, hnew, -, hunended⟩ :=
    (hfirst.repeatPasses hcall hsound hid hkey first.2 hcount (Nat.le_refl 1)).mid.trace
  obtain ⟨inside, hinside⟩ := hguarded.repeatPasses hheeds key (maxPasses - 1) first.2 hgrows
  dsimp only
  generalize first.1.repeatPasses (World.call behaviour depth) id key (maxPasses - 1) first.2 =
    last at hnew hinside ⊢
  refine ⟨(last.1.endFrame id key last.2).views, inside, (x.beginFrame id key none).views, ?_,
    fun m hm => hunended m ?_⟩
  · exact congrArg (List.cons _) hinside
  · -- The same moments, seen from before the notification began.
    have hsame : new =
        inside ++ [⟨.frameBegan id key none, (x.beginFrame id key none).views⟩] := by
      have hboth : new ++ x.trace = (inside ++
          [⟨.frameBegan id key none, (x.beginFrame id key none).views⟩]) ++ x.trace := by
        rw [← hnew, hinside, List.append_assoc]
        rfl
      exact List.append_cancel_right hboth
    rw [hsame]
    exact List.mem_append_left _ hm

private theorem endsWith_of_change (behaviour : Behaviour) (depth : Nat) (hsound : x.Sound)
    {view : View} (hview : x.views[id]? = some view) (halive : view.disposed = false)
    (hkey : key ∉ view.inFlight) {f : View → View} (hf : View.Change f)
    (hdisposed : (f view).disposed = view.disposed)
    (hinFlight : (f view).inFlight = view.inFlight) :
    x.EndsWith id key
      ((x.modifyView id f).notifyFrom (World.call behaviour depth) id key none) := by
  have hid : id < x.views.size := (Array.getElem?_eq_some_iff.mp hview).1
  have hnow := view_of_getElem? (getElem?_modifyView_self hview f)
  refine endsWith_notifyFrom (x := x.modifyView id f) behaviour depth
    (keeps_modifyView x id hf hsound).1 (by simpa using hid) ?_ ?_
  · rw [hnow, hdisposed, halive]
  · rw [hnow, hinFlight]
    exact hkey

/-- In every run, the count of a notification that answers no change of an input is how many
bindings its passes with watchers have applied, unless the view model is disposed of when it ends.
Then it may be more: the bindings that are left out since are counted. Calls that notify a key that
is not being notified, at top level or by a callback, give the count of such a notification. -/
theorem runAll_counts (doc : Document) (behaviour : Behaviour) (depth : Nat) (steps : List Step) :
    let w := (ofDocument doc).runAll behaviour depth steps
    (∀ later id key ran ended inside began past,
      w.trace = later ++ ⟨.frameEnded id key ran, ended⟩ ::
        (inside ++ ⟨.frameBegan id key none, began⟩ :: past) → Unended id key inside →
      (tally id key (inside ++ ⟨.frameBegan id key none, began⟩ :: past)).full ≤ ran ∧
        ∀ view, ended[id]? = some view → view.disposed = false →
          (tally id key (inside ++ ⟨.frameBegan id key none, began⟩ :: past)).full = ran) ∧
    w.Sound ∧
    ∀ x : World, x.Sound → ∀ told handle id view key, x.reach? handle = some id →
      x.views[id]? = some view → view.disposed = false → Text.trim key ∉ view.inFlight →
      ∀ step, (step = .notify handle key ∨ ∃ operand, step = .set handle key operand) →
        ∃ after ran, x.exec (World.call behaviour depth) told step = (after, .count ran) ∧
          x.EndsWith id (Text.trim key) (after, ran) := by
  intro w
  obtain ⟨hsound, -⟩ := sound_runAll doc behaviour depth steps
  have hrecorded := recorded_runAll doc behaviour depth steps
  have hcounted := counted_runAll doc behaviour depth steps
  refine ⟨?_, hsound, ?_⟩
  · intro later id key ran ended inside began past htrace hunended
    have hsuffix : inside ++ ⟨.frameBegan id key none, began⟩ :: past <:+ w.trace :=
      ⟨later ++ [⟨.frameEnded id key ran, ended⟩], by simp [htrace]⟩
    have hbegan := frameBegan_ne hsound.booked.lawful hrecorded.fair hsuffix rfl hunended
    exact hcounted.counts later _ _ htrace id key ran rfl (tally_origin rfl hbegan)
  · intro x hx told handle id view key hreach hview halive hkey step hstep
    rcases hstep with rfl | ⟨operand, rfl⟩
    · obtain ⟨ended, inside, began, htrace, hunended⟩ := endsWith_of_change behaviour depth hx hview
        halive hkey (.pins (· + 1)) rfl rfl
      simp only [exec, onView_eq hreach hview]
      exact ⟨_, _, rfl, ended, inside, began, htrace, hunended⟩
    · have hpinned := getElem?_modifyView_self hview fun v => { v with pins := v.pins + 1 }
      have hwritten := endsWith_of_change behaviour depth
        (keeps_modifyView x id (.pins (· + 1)) hx).1 hpinned halive hkey
        (.store (·.set (Text.trim key) (operand.eval told))) rfl rfl
      obtain ⟨ended, inside, began, htrace, hunended⟩ := hwritten
      simp only [exec, onView_eq hreach hview]
      exact ⟨_, _, rfl, ended, inside, began, htrace, hunended⟩

/-- Nothing is going on when two watchers of a count are registered, so a notification of the count
gives the count of its passes. -/
theorem watchedCount_counts :
    let x := (ofDocument .empty).runAll disposing 9 watchedCount
    ∃ after ran, x.exec (World.call disposing 9) none (.notify 0 "count") = (after, .count ran) ∧
      x.EndsWith 0 "count" (after, ran) := by
  intro x
  obtain ⟨-, hsound, hcalls⟩ := runAll_counts .empty disposing 9 watchedCount
  have htrim : Text.trim "count" = "count" := by decide +kernel
  have hreach : x.reach? 0 = some 0 := by decide +kernel
  have hview : x.views[0]?.map (fun view => (view.disposed, view.inFlight)) = some (false, []) := by
    decide +kernel
  obtain ⟨view, hview, hidle⟩ := Option.map_eq_some_iff.mp hview
  obtain ⟨halive, hnone⟩ := Prod.mk.inj hidle
  have hcount := hcalls x hsound none 0 0 view "count" hreach hview halive (by simp [hnone]) _
    (Or.inl rfl)
  rwa [htrim] at hcount

/-- The first watcher disposes of the view model, the second is not called, and two are counted. -/
theorem watchedCount_overcounted :
    let x := (ofDocument .empty).runAll disposing 9 watchedCount
    let done := x.run disposing 9 (.notify 0 "count")
    done.2 = .count 2 ∧ done.1.calls = #[1, 0] ∧
      (tally 0 "count" done.1.trace).full + (tally 0 "count" done.1.trace).late = 1 := by
  refine ⟨by cbv, by decide +kernel, by decide +kernel⟩

end World
end ViewBinding
