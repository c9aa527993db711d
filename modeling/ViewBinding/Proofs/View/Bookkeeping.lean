import Mathlib
import ViewBinding.Proofs.View.Passes

/-!
# The bookkeeping of notifications

Whatever callbacks do, the keys of a view model that are being notified are the stack of its
notifications in progress, the keys to pass over again are among them, and both are empty once a
step is over. A notification that is folded into one in progress is answered by a complete pass
before that one ends, unless the view model is disposed of (`runAll_bookkeeping`).
-/

namespace ViewBinding
namespace World

open Trace

variable {w x z : World} {id : ViewId} {key : String}

/-! ## A whole notification -/

theorem view_clearDirty (x : World) {id : ViewId} (hid : id < x.views.size) (key : String)
    (other : ViewId) :
    (x.modifyView id (·.clearDirty key)).view other =
      if other = id then { x.view other with dirty := (x.view other).dirty.erase key }
      else x.view other := by
  split
  · rename_i hother
    rw [hother, view_modifyView_self hid]
    rfl
  · rename_i hother
    rw [view_modifyView_of_ne x hother]

theorem Midframe.clearDirty (hmid : w.Midframe id key x) (hsound : w.Sound)
    (hid : id < w.views.size) (hkey : key ∉ (w.view id).inFlight) :
    w.Midframe id key (x.modifyView id (·.clearDirty key)) := by
  have hview := view_clearDirty x (hmid.lt_size hid) key
  refine ⟨?_, ?_, ?_, ?_, ?_, ?_, hmid.trace⟩
  · apply hmid.booked.of_views
    · rfl
    · intro other
      have hqueues := hmid.booked.queues other
      rw [hview]
      split
      · exact ⟨rfl, rfl, hqueues.inFlight, hqueues.dirty.erase key,
          fun k hk => hqueues.dirty_subset (List.mem_of_mem_erase hk)⟩
      · exact ⟨rfl, rfl, hqueues⟩
  · simpa using hmid.size
  · intro other
    rw [← hmid.inFlight, hview]
    split <;> rfl
  · intro other
    rw [hview]
    split
    · rename_i hother
      subst hother
      have hsteady := hmid.steady other
      refine ⟨hsteady.passes, ?_, hsteady.disposed, hsteady.registry⟩
      intro k hk
      have hne : k ≠ key := by
        rintro rfl
        exact hkey ((hsound.booked.queues other).dirty_subset hk)
      exact (List.mem_erase_of_ne hne).mpr (hsteady.dirty hk)
    · exact hmid.steady other
  · rw [hview, if_pos rfl]
    exact hmid.registry
  · intro other hother
    rw [hview, if_neg hother]
    exact hmid.waiting other hother

/-- What holds before a pass that is made again, when so many passes have been made. -/
structure Between (w : World) (id : ViewId) (key : String) (count : Nat) (x : World) : Prop where
  mid : w.Midframe id key x
  passes : passesOf id key x.trace = List.replicate count false
  met : MetSince w x x.Due
  last : ∃ past, x.trace = ⟨.passEnded id key, x.views⟩ :: past

/-- What holds when a notification has made its last pass. -/
structure Finished (w : World) (id : ViewId) (key : String) (x : World) : Prop where
  mid : w.Midframe id key x
  shape : FrameShape (passesOf id key x.trace)
  met : MetSince w x x.Due
  clean : ¬ x.Due id key

section

variable {call : Caller}

private theorem passesOf_endPass {viewOnly : Bool} (hmid : w.Midframe id key x)
    (hid : id < w.views.size) (hpass : x.Inpass id key viewOnly z) :
    passesOf id key (z.endPass id key).trace = viewOnly :: passesOf id key x.trace := by
  obtain ⟨inner, hinner, hquiet, -⟩ := hpass.evolves.trace
  have hkey : key ∈ ((x.beginPass id key viewOnly).view id).inFlight := by
    rw [inFlight_beginPass x (hmid.lt_size hid), hmid.inFlight_self]
    exact List.mem_cons_self
  rw [trace_endPass, passesOf, hinner, passesOf_append _ _ (hquiet.frame?_ne hkey),
    passesOf_beginPass]

theorem runPass_fst (x : World) (id : ViewId) (key : String) (origin : Option NodeId)
    (viewOnly : Bool) : (x.runPass call id key origin viewOnly).1 =
      ((x.watchers id key).foldl (visitBinding call id key origin viewOnly)
        (x.beginPass id key viewOnly)).endPass id key := rfl

theorem Between.runPass (hcall : Attends call) (hsound : w.Sound) (hid : id < w.views.size)
    (hkey : key ∉ (w.view id).inFlight) (hmid : w.Midframe id key x) {count : Nat}
    (hpasses : passesOf id key x.trace = List.replicate count false)
    (hmet : MetSince w x fun i k => x.Due i k ∨ (i = id ∧ k = key)) :
    Between w id key (count + 1) (x.runPass call id key none false).1 := by
  have hfull : true ∉ passesOf id key x.trace := by simp [hpasses]
  have hpass := hmid.inpass_full hcall hsound hid hfull none
  refine ⟨hmid.endPass hpass hid hkey, ?_, ?_, _, rfl⟩
  · rw [runPass_fst, passesOf_endPass hmid hid hpass, hpasses]
    rfl
  · apply hmid.metSince_endPass hid hmet hpass
    rintro i k (hdue | ⟨hi, hk⟩)
    · exact Or.inl hdue
    refine Or.inr ⟨hi, hk, ?_⟩
    by_cases halive : (((x.watchers id key).foldl (visitBinding call id key none false)
        (x.beginPass id key false)).view id).disposed = true
    · exact Or.inl halive
    · obtain ⟨inner, hinner, hcomplete⟩ := hmid.complete_full hcall hsound hid hfull rfl
        (by simpa using halive)
      exact Or.inr ⟨inner, hinner, hcomplete, by simp⟩

theorem due_clearDirty (hid : id < x.views.size) {i : ViewId} {k : String} (hdue : x.Due i k) :
    (x.modifyView id (·.clearDirty key)).Due i k ∨ (i = id ∧ k = key) := by
  by_cases hthis : i = id ∧ k = key
  · exact Or.inr hthis
  · rw [Due, view_clearDirty x hid key]
    split
    · rename_i hi
      exact Or.inl ((List.mem_erase_of_ne fun hk => hthis ⟨hi, hk⟩).mpr hdue)
    · exact Or.inl hdue

private theorem Between.finished (hsound : w.Sound) (hid : id < w.views.size)
    (hkey : key ∉ (w.view id).inFlight) {count : Nat} (h : Between w id key count x)
    (hone : 1 ≤ count) (hmax : count ≤ maxPasses)
    (hstop : ¬ x.Due id key ∨ (x.view id).disposed = true) :
    Finished w id key (x.modifyView id (·.clearDirty key)) := by
  have hidx := h.mid.lt_size hid
  refine ⟨h.mid.clearDirty hsound hid hkey, Or.inl ⟨count, hone, hmax, h.passes⟩, ?_, ?_⟩
  · intro new hnew later i k views before hlater
    rcases h.met new hnew later i k views before hlater with hmet | hmet | ⟨hdue, hopen⟩
    · exact Or.inl hmet
    · exact Or.inr (Or.inl hmet)
    have hcleared : (x.modifyView id (·.clearDirty key)).Due i k ∨ (i = id ∧ k = key) :=
      due_clearDirty hidx hdue
    rcases hcleared with hdue' | ⟨rfl, rfl⟩
    · exact Or.inr (Or.inr ⟨hdue', hopen⟩)
    rcases hstop with hstop | hstop
    · exact absurd hdue hstop
    · -- The end of the pass before found the view model disposed of.
      obtain ⟨past, hlast⟩ := h.last
      have hx : x.trace = new ++ w.trace := hnew
      rw [hx, hlater] at hlast
      rcases later with _ | ⟨m, later⟩
      · exact absurd (congrArg Moment.event (List.cons.inj hlast).1) (by simp)
      · have hm : m = ⟨.passEnded i k, x.views⟩ := (List.cons.inj hlast).1
        refine Or.inr (Or.inl ⟨[], m, later, x.view i, rfl, ?_, ?_, hstop⟩)
        · exact fun m' hm' => hopen m' (List.mem_cons_of_mem _ hm')
        · rw [hm]
          exact getElem?_views hidx
  · rw [Due, view_clearDirty x hidx key, if_pos rfl]
    exact (h.mid.booked.queues id).dirty.not_mem_erase

private theorem Finished.runPass (hcall : Attends call) (hid : id < w.views.size)
    (hkey : key ∉ (w.view id).inFlight) (hmid : w.Midframe id key x)
    (hpasses : passesOf id key x.trace = List.replicate maxPasses false)
    (hmet : MetSince w x fun i k => x.Due i k ∨ (i = id ∧ k = key))
    (halive : (x.view id).disposed = false) (hclean : ¬ x.Due id key) :
    Finished w id key (x.runPass call id key none true).1 := by
  have hidx := hmid.lt_size hid
  obtain ⟨hpass, hviews, inner, hinner, hcomplete⟩ := hmid.inpass_viewOnly hcall hid halive rfl
  rw [runPass_fst]
  refine ⟨hmid.endPass hpass hid hkey, ?_, ?_, ?_⟩
  · rw [passesOf_endPass hmid hid hpass, hpasses]
    exact Or.inr rfl
  · apply hmid.metSince_endPass hid hmet hpass
    rintro i k (hdue | ⟨hi, hk⟩)
    · exact Or.inl hdue
    · exact Or.inr ⟨hi, hk, Or.inr ⟨inner, hinner, hcomplete, fun _ => hpasses⟩⟩
  · rw [Due, view_endPass _ (lt_size_inpass hpass hidx), if_pos rfl, view_congr hviews,
      view_beginPass x hidx, if_pos rfl]
    exact hclean

theorem again_iff (hid : id < x.views.size) :
    (x.isDirty id key && !(x.modifyView id (·.clearDirty key)).isDisposed id) = true ↔
      x.Due id key ∧ (x.view id).disposed = false := by
  rw [isDirty_eq hid, isDisposed_eq (by simpa using hid), view_clearDirty x hid, if_pos rfl]
  simp [Due]

theorem Between.repeatPasses (hcall : Attends call) (hsound : w.Sound) (hid : id < w.views.size)
    (hkey : key ∉ (w.view id).inFlight) {remaining count : Nat} (ran : Nat)
    (hcount : count + remaining = maxPasses) (hone : 1 ≤ count)
    (h : Between w id key count x) :
    Finished w id key (x.repeatPasses call id key remaining ran).1 := by
  induction remaining generalizing x count ran with
  | zero =>
    have hidx := h.mid.lt_size hid
    by_cases hagain : (x.isDirty id key &&
        !(x.modifyView id (·.clearDirty key)).isDisposed id) = true
    · rw [World.repeatPasses, if_pos hagain]
      obtain ⟨-, halive⟩ := (again_iff hidx).mp hagain
      have hcleared := view_clearDirty x hidx key id
      rw [if_pos rfl] at hcleared
      apply Finished.runPass hcall hid hkey (h.mid.clearDirty hsound hid hkey)
      · rw [← hcount]
        exact h.passes
      · exact fun new hnew => (h.met new hnew).mono fun i k => due_clearDirty hidx
      · rw [hcleared]
        exact halive
      · rw [Due, hcleared]
        exact (h.mid.booked.queues id).dirty.not_mem_erase
    · rw [World.repeatPasses, if_neg hagain]
      rw [again_iff hidx, not_and_or, Bool.not_eq_false] at hagain
      exact h.finished hsound hid hkey hone (by omega) hagain
  | succ remaining ih =>
    have hidx := h.mid.lt_size hid
    by_cases hagain : (x.isDirty id key &&
        !(x.modifyView id (·.clearDirty key)).isDisposed id) = true
    · rw [World.repeatPasses, if_pos hagain]
      apply ih _ (by omega) (Nat.le_add_left 1 count)
      apply Between.runPass hcall hsound hid hkey (h.mid.clearDirty hsound hid hkey) h.passes
      exact fun new hnew => (h.met new hnew).mono fun i k => due_clearDirty hidx
    · rw [World.repeatPasses, if_neg hagain]
      rw [again_iff hidx, not_and_or, Bool.not_eq_false] at hagain
      exact h.finished hsound hid hkey hone (by omega) hagain

theorem view_endFrame (x : World) {id : ViewId} (hid : id < x.views.size) (key : String)
    (ran : Nat) (other : ViewId) :
    (x.endFrame id key ran).view other =
      if other = id then
        View.settle { x.view other with inFlight := (x.view other).inFlight.tail }
      else x.view other := by
  rw [endFrame, view_emit]
  split
  · rename_i hother
    rw [hother, view_modifyView_self hid]
  · rename_i hother
    rw [view_modifyView_of_ne x hother]

/-- The end of a notification changes nothing but what waits for the last pass to end. -/
theorem settle_facts (v : View) :
    v.settle.inFlight = v.inFlight ∧ v.settle.dirty = v.dirty ∧ v.Steady v.settle ∧
      (v.passes = 0 → v.settle.deferred = []) := by
  unfold View.settle
  split
  · rename_i hpasses
    exact ⟨rfl, rfl, .refl v, fun h => absurd h hpasses⟩
  · rename_i hpasses
    have hzero : v.passes = 0 := by simpa using hpasses
    split
    · exact ⟨rfl, rfl, ⟨rfl, fun _ h => h, fun h => h, fun h => absurd hzero h⟩, fun _ => rfl⟩
    · exact ⟨rfl, rfl, ⟨rfl, fun _ h => h, fun h => h, fun h => absurd hzero h⟩, fun _ => rfl⟩

private theorem Finished.view_endFrame (h : Finished w id key x) (hsound : w.Sound)
    (hid : id < w.views.size) (ran : Nat) (other : ViewId) :
    ((x.endFrame id key ran).view other).inFlight = (w.view other).inFlight ∧
      ((x.endFrame id key ran).view other).dirty = (x.view other).dirty ∧
      (w.view other).Steady ((x.endFrame id key ran).view other) ∧
      ((w.view other).inFlight = [] → ((x.endFrame id key ran).view other).deferred = []) := by
  have hend := World.view_endFrame x (h.mid.lt_size hid) key ran other
  have hinFlight := h.mid.inFlight other
  have hsteady := h.mid.steady other
  by_cases hother : other = id
  · rw [if_pos hother] at hend hinFlight
    rw [hend]
    obtain ⟨hsame, hdirty, hsettle, hdeferred⟩ :=
      settle_facts { x.view other with inFlight := (x.view other).inFlight.tail }
    refine ⟨?_, hdirty, hsteady.trans ⟨hsettle.passes, hsettle.dirty, hsettle.disposed,
      hsettle.registry⟩, ?_⟩
    · rw [hsame]
      simp [hinFlight]
    · intro hnil
      apply hdeferred
      simp only [hsteady.passes]
      rw [hsound.ready.running, hnil]
      rfl
  · rw [if_neg hother] at hend hinFlight
    rw [hend]
    refine ⟨hinFlight, rfl, hsteady, fun hnil => h.mid.waiting other hother ?_⟩
    rw [hinFlight, hnil]

/-- A notification closes the books that it has opened. -/
theorem Finished.keeps_endFrame (h : Finished w id key x) (hsound : w.Sound)
    (hid : id < w.views.size) (hkey : key ∉ (w.view id).inFlight) (ran : Nat) :
    (x.endFrame id key ran).Sound ∧ w.Evolves (x.endFrame id key ran) := by
  have hview := h.view_endFrame hsound hid ran
  have hinFlight := fun other => (hview other).1
  have hdirty := fun other => (hview other).2.1
  have hregistry : ∀ other, (w.view other).inFlight ≠ [] →
      ((x.endFrame id key ran).view other).registry = (w.view other).registry := by
    intro other hne
    apply (hview other).2.2.1.registry
    rw [hsound.ready.running]
    exact fun hlength => hne (List.length_eq_zero_iff.mp hlength)
  obtain ⟨new, htrace, hquiet, -⟩ := h.mid.trace
  have htrace' : (x.endFrame id key ran).trace =
      (⟨.frameEnded id key ran, (x.endFrame id key ran).views⟩ :: new) ++ w.trace := by
    rw [List.cons_append, ← htrace]
    rfl
  have hquiet' : w.Quiet (⟨.frameEnded id key ran, (x.endFrame id key ran).views⟩ :: new) := by
    intro m hm other k hframe
    rcases List.mem_cons.mp hm with rfl | hm
    · obtain ⟨rfl, rfl⟩ := Prod.mk.inj (Option.some.inj hframe)
      exact hkey
    · exact hquiet m hm other k hframe
  refine ⟨⟨?_, ?_⟩, ?_⟩
  · apply booked_emit
    · intro other
      change ((x.endFrame id key ran).view other).inFlight = _
      have hstack := h.mid.booked.stack other
      rw [h.mid.inFlight] at hstack
      rw [hinFlight, openFrames]
      by_cases hother : other = id
      · simp only [hother, if_pos] at hstack ⊢
        change _ = (openFrames id x.trace).tail
        rw [← hstack]
        rfl
      · simp only [if_neg hother, if_neg (Ne.symm hother)] at hstack ⊢
        exact hstack
    · intro other
      change ((x.endFrame id key ran).view other).Orderly
      refine ⟨?_, ?_, ?_⟩
      · rw [hinFlight]
        exact (hsound.booked.queues other).inFlight
      · rw [hdirty]
        exact (h.mid.booked.queues other).dirty
      · rw [hinFlight, hdirty]
        intro k hk
        have hmem := (h.mid.booked.queues other).dirty_subset hk
        rw [h.mid.inFlight] at hmem
        split at hmem
        · rename_i hother
          rcases List.mem_cons.mp hmem with rfl | hmem
          · rw [hother] at hk
            exact absurd hk h.clean
          · exact hmem
        · exact hmem
    · intro other
      change ((x.endFrame id key ran).view other).inFlight.length ≤
        ((x.endFrame id key ran).view other).registry.size + 1
      rw [hinFlight]
      by_cases hnil : (w.view other).inFlight = []
      · rw [hnil]
        exact Nat.zero_le _
      · rw [hregistry other hnil]
        exact hsound.booked.nesting other
    · exact h.mid.booked.lawful
    · intro i k ran' hended
      cases hended
      refine ⟨⟨(w.view id).inFlight, ?_⟩, h.shape⟩
      change openFrames id x.trace = _
      rw [← h.mid.booked.stack, h.mid.inFlight_self]
    · simp
  · refine ⟨?_, ?_, ?_, ?_⟩
    · intro other
      rw [hinFlight, (hview other).2.2.1.passes, hsound.ready.running]
    · intro other hnil
      rw [hinFlight] at hnil
      exact (hview other).2.2.2 hnil
    · intro other k hk
      rw [hinFlight] at hk
      rw [hregistry other (List.ne_nil_of_mem hk)]
      exact hsound.ready.watched other k hk
    · intro other k hk
      rw [hinFlight] at hk
      rw [htrace', passesOf_append _ _ (hquiet'.frame?_ne hk)]
      exact hsound.ready.full other k hk
  · refine ⟨hinFlight, fun other => (hview other).2.2.1, ?_, _, htrace', hquiet', ?_⟩
    · simpa [endFrame, emit] using h.mid.size
    · apply (h.met new htrace).cons
      · simp
      · intro i k hdue
        refine ⟨?_, ?_⟩
        · rw [Due, hdirty]
          exact hdue
        · intro ran' hended
          cases hended
          exact h.clean hdue

theorem view_markDirty (w : World) {id : ViewId} (hid : id < w.views.size) (key : String)
    (other : ViewId) : (w.modifyView id (·.markDirty key)).view other =
      if other = id then (w.view other).markDirty key else w.view other := by
  split
  · rename_i hother
    rw [hother, view_modifyView_self hid]
  · rename_i hother
    rw [view_modifyView_of_ne w hother]

theorem markDirty_facts {v : View} (hv : v.Orderly) {key : String} (hkey : key ∈ v.inFlight) :
    (v.markDirty key).inFlight = v.inFlight ∧ (v.markDirty key).deferred = v.deferred ∧
      (v.markDirty key).registry = v.registry ∧ v.Steady (v.markDirty key) ∧
        (v.markDirty key).Orderly ∧ key ∈ (v.markDirty key).dirty := by
  unfold View.markDirty
  split
  · rename_i hmarked
    exact ⟨rfl, rfl, rfl, .refl v, hv, by simpa using hmarked⟩
  · rename_i hmarked
    have hnew : key ∉ v.dirty := by simpa using hmarked
    refine ⟨rfl, rfl, rfl, ⟨rfl, ?_, fun h => h, fun _ => rfl⟩, ⟨hv.inFlight, ?_, ?_⟩, by simp⟩
    · exact fun k hk => List.mem_append_left _ hk
    · exact List.nodup_append.mpr ⟨hv.dirty, by simp, fun a ha b hb => by
        rw [List.mem_singleton.mp hb]
        exact fun he => hnew (he ▸ ha)⟩
    · intro k hk
      rcases List.mem_append.mp hk with hk | hk
      · exact hv.dirty_subset hk
      · rw [List.mem_singleton.mp hk]
        exact hkey

private theorem exists_markDirty (v : View) (key : String) :
    ∃ due, v.markDirty key = { v with dirty := due } ∧ key ∈ due := by
  unfold View.markDirty
  split
  · rename_i hmarked
    exact ⟨v.dirty, rfl, by simpa using hmarked⟩
  · exact ⟨v.dirty ++ [key], rfl, by simp⟩

/-- Folding a notification leaves the books closed, with its key due. -/
theorem keeps_fold (hid : id < w.views.size) (hkey : key ∈ (w.view id).inFlight) :
    w.Keeps ((w.modifyView id (·.markDirty key)).emit (.folded id key)) := by
  intro hsound
  have hview : ∀ other,
      ((w.modifyView id (·.markDirty key)).view other).inFlight = (w.view other).inFlight ∧
      ((w.modifyView id (·.markDirty key)).view other).deferred = (w.view other).deferred ∧
      ((w.modifyView id (·.markDirty key)).view other).registry = (w.view other).registry ∧
      (w.view other).Steady ((w.modifyView id (·.markDirty key)).view other) ∧
      ((w.modifyView id (·.markDirty key)).view other).Orderly := by
    intro other
    have hqueues := hsound.booked.queues other
    rw [view_markDirty w hid key]
    split
    · rename_i hother
      subst hother
      obtain ⟨h₁, h₂, h₃, h₄, h₅, -⟩ := markDirty_facts hqueues hkey
      exact ⟨h₁, h₂, h₃, h₄, h₅⟩
    · exact ⟨rfl, rfl, rfl, .refl _, hqueues⟩
  have hdue : ((w.modifyView id (·.markDirty key)).emit (.folded id key)).Due id key := by
    rw [Due, view_emit, view_markDirty w hid key, if_pos rfl]
    exact (markDirty_facts (hsound.booked.queues id) hkey).2.2.2.2.2
  have hmarked : (w.modifyView id (·.markDirty key)).Booked := by
    apply hsound.booked.of_views
    · rfl
    · exact fun other => ⟨(hview other).1, (hview other).2.2.1, (hview other).2.2.2.2⟩
  refine ⟨⟨booked_emit_of_frame? hmarked rfl (by simp), ⟨?_, ?_, ?_, ?_⟩⟩, ?_⟩
  · intro other
    rw [view_emit, (hview other).2.2.2.1.passes, (hview other).1, hsound.ready.running]
  · intro other hnil
    rw [view_emit, (hview other).1] at hnil
    rw [view_emit, (hview other).2.1]
    exact hsound.ready.waiting other hnil
  · intro other k hk
    rw [view_emit, (hview other).1] at hk
    rw [view_emit, (hview other).2.2.1]
    exact hsound.ready.watched other k hk
  · intro other k hk
    rw [view_emit, (hview other).1] at hk
    exact hsound.ready.full other k hk
  · refine ⟨fun other => (hview other).1, fun other => (hview other).2.2.2.1, ?_,
      [⟨.folded id key, (w.modifyView id (·.markDirty key)).views⟩], rfl, ?_, ?_⟩
    · simp [emit]
    · intro m hm other k hframe
      rw [List.mem_singleton.mp hm] at hframe
      cases hframe
    · intro later i k views before hsplit
      rcases later with _ | ⟨m, later⟩
      · cases (List.cons.inj hsplit).1
        exact Or.inr (Or.inr ⟨hdue, fun m hm => by simp at hm⟩)
      · have hnil := (List.cons.inj hsplit).2
        simp at hnil

theorem between_first (hcall : Attends call) (hsound : w.Sound) (hid : id < w.views.size)
    (hkey : key ∉ (w.view id).inFlight) (origin : Option NodeId) :
    Between w id key 1 ((w.beginFrame id key origin).runPass call id key origin false).1 := by
  have hmid := midframe_beginFrame hsound hid hkey origin
  have hnone : passesOf id key (w.beginFrame id key origin).trace = [] := by
    simp [beginFrame, emit, passesOf]
  have hpass := hmid.inpass_full hcall hsound hid (by simp [hnone]) origin
  rw [runPass_fst]
  refine ⟨hmid.endPass hpass hid hkey, ?_, ?_, _, rfl⟩
  · rw [passesOf_endPass hmid hid hpass, hnone]
    rfl
  · have hbegan : MetSince w (w.beginFrame id key origin) (w.beginFrame id key origin).Due := by
      intro new hnew
      have hone : new = [⟨.frameBegan id key origin, (w.beginFrame id key origin).views⟩] := by
        apply List.append_cancel_right
        rw [← hnew]
        rfl
      rw [hone]
      exact (FoldsMet.nil (fun _ _ => False) _).cons (by simp) (by simp)
    exact hmid.metSince_endPass hid hbegan hpass fun i k hdue => Or.inl hdue

/-- A notification of a key that is not being notified makes its first pass and those that fall due,
and ends. -/
theorem notifyFrom_of_idle (hdisposed : w.isDisposed id = false)
    (hkey : w.isInFlight id key = false) (origin : Option NodeId) :
    w.notifyFrom call id key origin =
      let first := (w.beginFrame id key origin).runPass call id key origin false
      let last := first.1.repeatPasses call id key (maxPasses - 1) first.2
      (last.1.endFrame id key last.2, last.2) := by
  rw [notifyFrom, hdisposed, hkey]
  rfl

theorem notifyFrom_eq_endFrame (hid : id < w.views.size) (halive : (w.view id).disposed = false)
    (hkey : key ∉ (w.view id).inFlight) (origin : Option NodeId) :
    w.notifyFrom call id key origin =
      let first := (w.beginFrame id key origin).runPass call id key origin false
      let last := first.1.repeatPasses call id key (maxPasses - 1) first.2
      (last.1.endFrame id key last.2, last.2) := by
  apply notifyFrom_of_idle
  · rw [isDisposed_eq hid, halive]
  · rw [isInFlight_eq hid]
    simpa using hkey

private theorem notifyFrom_of_inFlight {view : View} (hview : w.views[id]? = some view)
    (halive : view.disposed = false) (hkey : key ∈ view.inFlight) (origin : Option NodeId) :
    w.notifyFrom call id key origin =
      ((w.modifyView id (·.markDirty key)).emit (.folded id key), 0) := by
  have hdisposed : w.isDisposed id = false := by simpa [isDisposed, hview] using halive
  have hinFlight : w.isInFlight id key = true := by simpa [isInFlight, hview] using hkey
  rw [notifyFrom, hdisposed, hinFlight]
  rfl

/-- A notification keeps the books, whatever callbacks do. -/
theorem keeps_notifyFrom (hcall : Attends call) (w : World) (id : ViewId) (key : String)
    (origin : Option NodeId) : w.Keeps (w.notifyFrom call id key origin).1 := by
  intro hsound
  by_cases hdisposed : w.isDisposed id = true
  · rw [notifyFrom, if_pos hdisposed]
    exact ⟨hsound, .refl w⟩
  have hid : id < w.views.size := lt_size_of_isDisposed_eq_false (by simpa using hdisposed)
  rw [isDisposed_eq hid, Bool.not_eq_true] at hdisposed
  by_cases hkey : key ∈ (w.view id).inFlight
  · rw [notifyFrom_of_inFlight (getElem?_views hid) hdisposed hkey]
    exact keeps_fold hid hkey hsound
  · rw [notifyFrom_eq_endFrame hid hdisposed hkey]
    exact ((between_first hcall hsound hid hkey origin).repeatPasses hcall hsound hid hkey _ rfl
      (Nat.le_refl 1)).keeps_endFrame hsound hid hkey _

private theorem Move.keeps (hcall : Attends call) {w after : World} (h : Move call w after) :
    w.Keeps after := by
  cases h with
  | host hviews htrace => exact keeps_host hviews htrace
  | changed change => exact keeps_emit w rfl (by simp)
  | view id hf => exact keeps_modifyView w id hf
  | registered id b _ => exact keeps_registered w id b
  | mounted root settings store bindings => exact keeps_mounted w root settings store bindings
  | call callback text => exact hcall.keeps callback (.changed text) w
  | tried b value => exact (keeps_emit w rfl (by simp)).trans (keeps_applyBinding hcall _ b value)
  | notify id key origin _ => exact keeps_notifyFrom hcall w id key origin

theorem Moves.keeps (hcall : Attends call) {w after : World} (h : Moves call w after) :
    w.Keeps after := by
  induction h with
  | refl => exact .refl w
  | tail _ hmove ih => exact ih.trans (hmove.keeps hcall)

theorem keeps_execScripted (hcall : Attends call) (callback : Callback) (told : Option Value)
    (w : World) (step : Step) : w.Keeps (execScripted call callback told w step) :=
  ((exec_moves told w step).keeps hcall).trans (keeps_emit _ rfl (by simp))

end

/-- Callbacks keep the books, however deep they nest. -/
theorem attends_call (behaviour : Behaviour) (depth : Nat) : Attends (call behaviour depth) := by
  induction depth with
  | zero =>
    refine ⟨fun callback notice w => keeps_emit w rfl (by simp), fun callback notice w => ?_⟩
    exact ⟨[], ⟨.exhausted callback, w.views⟩, rfl, Or.inr rfl⟩
  | succ depth ih =>
    refine ⟨fun callback notice w => ?_, fun callback notice w => ?_⟩
    · have hcalled : w.Keeps ((w.emit (.called callback notice)).countCall callback) :=
        (keeps_emit w rfl (by simp)).trans (keeps_host rfl rfl)
      exact hcalled.trans (keeps_foldl (keeps_execScripted ih callback notice.told) _ _)
    · obtain ⟨inner, hinner⟩ := foldl_of_trans lasting_grows.refl lasting_grows.trans
        (lasting_grows.execScripted (lasting_grows.calls behaviour depth) callback notice.told)
        (behaviour callback.script (w.callCount callback) notice.told)
        ((w.emit (.called callback notice)).countCall callback)
      exact ⟨inner, ⟨.called callback notice, w.views⟩, hinner, Or.inl rfl⟩

theorem keeps_run (behaviour : Behaviour) (depth : Nat) (w : World) (step : Step) :
    w.Keeps (w.run behaviour depth step).1 :=
  (exec_moves none w step).keeps (attends_call behaviour depth)

/-- Steps taken one after another at top level. -/
def runAll (behaviour : Behaviour) (depth : Nat) (w : World) (steps : List Step) : World :=
  steps.foldl (fun w step => (w.run behaviour depth step).1) w

theorem Lasting.runAll {R : World → World → Prop} (h : Lasting R) (behaviour : Behaviour)
    (depth : Nat) (w : World) (steps : List Step) : R w (w.runAll behaviour depth steps) :=
  foldl_of_trans h.refl h.trans (h.run behaviour depth) steps w

theorem keeps_runAll (behaviour : Behaviour) (depth : Nat) (w : World) (steps : List Step) :
    w.Keeps (w.runAll behaviour depth steps) :=
  keeps_foldl (keeps_run behaviour depth) steps w

/-- Nothing is going on. -/
def AtRest (w : World) : Prop :=
  ∀ (id : ViewId) (view : View), w.views[id]? = some view →
    view.inFlight = [] ∧ view.dirty = [] ∧ view.deferred = [] ∧ view.passes = 0

private theorem AtRest.view (h : w.AtRest) (id : ViewId) :
    (w.view id).inFlight = [] ∧ (w.view id).dirty = [] ∧ (w.view id).deferred = [] ∧
      (w.view id).passes = 0 := by
  by_cases hid : id < w.views.size
  · exact h id _ (getElem?_views hid)
  · have hnone : w.views[id]? = none := by simpa using hid
    rw [World.view, hnone]
    exact ⟨rfl, rfl, rfl, rfl⟩

/-- The books of a world at rest are closed, as soon as its trace begins anew. -/
theorem AtRest.sound (h : w.AtRest) : ({ w with trace := [] } : World).Sound := by
  have hview : ∀ id, ({ w with trace := [] } : World).view id = w.view id := fun _ => rfl
  refine ⟨⟨?_, ?_, ?_, ?_⟩, ⟨?_, ?_, ?_, ?_⟩⟩
  · exact fun id => (h.view id).1
  · intro id
    obtain ⟨hinFlight, hdirty, -⟩ := h.view id
    rw [hview]
    exact ⟨hinFlight ▸ List.nodup_nil, hdirty ▸ List.nodup_nil, hdirty ▸ List.nil_subset _⟩
  · intro id
    rw [hview, (h.view id).1]
    exact Nat.zero_le _
  · intro later m past htrace
    simp at htrace
  · intro id
    rw [hview, (h.view id).1, (h.view id).2.2.2]
    rfl
  · exact fun id _ => (h.view id).2.2.1
  all_goals
    intro id key hkey
    rw [hview, (h.view id).1] at hkey
    simp at hkey

private theorem Sound.atRest (h : w.Sound) (hidle : ∀ id, (w.view id).inFlight = []) :
    w.AtRest := by
  intro id view hview
  rw [← view_of_getElem? hview]
  refine ⟨hidle id, ?_, h.ready.waiting id (hidle id), ?_⟩
  · apply List.subset_nil.mp
    rw [← hidle id]
    exact (h.booked.queues id).dirty_subset
  · rw [h.ready.running, hidle]
    rfl

/-- On a world without view models nothing goes on. -/
theorem atRest_ofDocument (doc : Document) : (ofDocument doc).AtRest := by
  intro id view hview
  simp [ofDocument] at hview

theorem sound_runAll (doc : Document) (behaviour : Behaviour) (depth : Nat) (steps : List Step) :
    ((ofDocument doc).runAll behaviour depth steps).Sound ∧
      (ofDocument doc).Evolves ((ofDocument doc).runAll behaviour depth steps) :=
  keeps_runAll behaviour depth (ofDocument doc) steps (atRest_ofDocument doc).sound

theorem atRest_runAll (doc : Document) (behaviour : Behaviour) (depth : Nat) (steps : List Step) :
    ((ofDocument doc).runAll behaviour depth steps).AtRest := by
  obtain ⟨hsound, hevolves⟩ := sound_runAll doc behaviour depth steps
  apply hsound.atRest
  intro id
  rw [hevolves.inFlight]
  exact ((atRest_ofDocument doc).view id).1

/-- At every moment of a run the keys being notified are different, are the stack of the
notifications in progress, and include those to pass over again. A notification of one of them is
folded: it marks the key and is recorded. It is answered by a complete pass before the one in
progress ends, unless the view model is disposed of first. After each step nothing is in progress,
due or waiting. -/
theorem runAll_bookkeeping (doc : Document) (behaviour : Behaviour) (depth : Nat)
    (steps : List Step) :
    (∀ later m past, ((ofDocument doc).runAll behaviour depth steps).trace = later ++ m :: past →
      (∀ (id : ViewId) (view : View), m.views[id]? = some view →
        view.Orderly ∧ view.inFlight = openFrames id (m :: past)) ∧
      ∀ id key ran, m.event = .frameEnded id key ran →
        ∃ outer, openFrames id past = key :: outer) ∧
    (∀ (call : Caller) (x : World) id view key origin, x.views[id]? = some view →
      view.disposed = false → key ∈ view.inFlight →
        ∃ marked due, x.notifyFrom call id key origin = (marked, 0) ∧
          marked.trace = ⟨.folded id key, marked.views⟩ :: x.trace ∧
            marked.views[id]? = some { view with dirty := due } ∧ key ∈ due) ∧
    (∀ later id key views past, ((ofDocument doc).runAll behaviour depth steps).trace =
        later ++ ⟨.folded id key, views⟩ :: past →
      Answered id key later (⟨.folded id key, views⟩ :: past) ∨ Cut id key later) ∧
    ∀ (id : ViewId) (view : View),
      ((ofDocument doc).runAll behaviour depth steps).views[id]? = some view →
        view.inFlight = [] ∧ view.dirty = [] ∧ view.deferred = [] := by
  obtain ⟨hsound, hevolves⟩ := sound_runAll doc behaviour depth steps
  have hrest := atRest_runAll doc behaviour depth steps
  refine ⟨?_, ?_, ?_, ?_⟩
  · intro later m past htrace
    have hlawful := hsound.booked.lawful later m past htrace
    exact ⟨fun id view hview => ⟨hlawful.queues id view hview, hlawful.stack id view hview⟩,
      hlawful.innermost⟩
  · intro call x id view key origin hview halive hkey
    obtain ⟨due, hmarked, hdue⟩ := exists_markDirty view key
    refine ⟨_, due, notifyFrom_of_inFlight hview halive hkey origin, rfl, ?_, hdue⟩
    rw [← hmarked]
    exact getElem?_modifyView_self hview (·.markDirty key)
  · intro later id key views past htrace
    obtain ⟨new, hnew, -, hmet⟩ := hevolves.trace
    have hall : new = later ++ ⟨.folded id key, views⟩ :: past := by
      rw [← htrace, hnew]
      simp [ofDocument]
    rcases hmet later id key views past hall with h | h | ⟨hdue, -⟩
    · exact Or.inl (by simpa [ofDocument] using h)
    · exact Or.inr h
    · rw [Due, (hrest.view id).2.1] at hdue
      simp at hdue
  · intro id view hview
    obtain ⟨hinFlight, hdirty, hdeferred, -⟩ := hrest id view hview
    exact ⟨hinFlight, hdirty, hdeferred⟩

/-- Callbacks that on their first call put the name between angle brackets. -/
def wrappingOnce : Behaviour := fun _ calls _ => if calls = 0 then [.set 0 "name" .wrap] else []

/-- The name of a greeting is set, and set again by its watcher. -/
def wrappedGreeting : World :=
  (ofDocument Document.greeting).runAll wrappingOnce 9
    [.mount { target := .node Document.root } {}, .watch 0 "name" 0,
      .set 0 "name" (.literal (.string "Ada"))]

/-- Whether a notification of the key is folded. -/
def isFold (id : ViewId) (key : String) : Event → Bool
  | .folded view k => view == id && k == key
  | _ => false

theorem wrappedGreeting_folded :
    ∃ later views past,
      wrappedGreeting.trace = later ++ ⟨.folded 0 "name", views⟩ :: past ∧
        Answered 0 "name" later (⟨.folded 0 "name", views⟩ :: past) := by
  have hfold : wrappedGreeting.trace.any (fun m => isFold 0 "name" m.event) = true := by
    decide +kernel
  have halive : wrappedGreeting.trace.all (fun m => m.views.all (!·.disposed)) = true := by
    decide +kernel
  obtain ⟨m, hm, hevent⟩ := List.any_eq_true.mp hfold
  obtain ⟨later, past, htrace⟩ := List.append_of_mem hm
  have hfolded : m = ⟨.folded 0 "name", m.views⟩ := by
    obtain ⟨event, views⟩ := m
    cases event with
    | folded view k =>
      obtain ⟨rfl, rfl⟩ : view = 0 ∧ k = "name" := by simpa [isFold] using hevent
      rfl
    | _ => cases hevent
  rw [hfolded] at htrace
  obtain ⟨-, -, hanswered, -⟩ := runAll_bookkeeping Document.greeting wrappingOnce 9
    [.mount { target := .node Document.root } {}, .watch 0 "name" 0,
      .set 0 "name" (.literal (.string "Ada"))]
  refine ⟨later, m.views, past, htrace, ?_⟩
  rcases hanswered _ _ _ _ _ htrace with h | ⟨after, n, before, view, rfl, -, hview, hdisposed⟩
  · exact h
  · -- No view model is disposed of in this run.
    have hmem : n ∈ wrappedGreeting.trace := by
      rw [htrace]
      simp
    have hlives := Array.all_eq_true_iff_forall_mem.mp (List.all_eq_true.mp halive n hmem) view
      (Array.mem_of_getElem? hview)
    rw [hdisposed] at hlives
    cases hlives

end World
end ViewBinding
