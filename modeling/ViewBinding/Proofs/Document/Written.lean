import Mathlib
import ViewBinding.Proofs.Document.Redrawing

/-!
# Documents that only bindings have written to

As long as nothing but the bindings of a view model writes to a document, each of them shows some
text (`Displays.written`), in nodes that the document has had at first or that were made for it.
When some of them show a text, one after another, these show it at the end, and the others still
show what they have shown (`holds_foldl_showText`), wherever in the tree their nodes are.
-/

namespace ViewBinding
namespace Document

/-- A binding of a view model shows a text. A user who changes the value of an input that is bound
does the same as the model binding of the input. -/
def WrittenBy (bindings : List Binding) (doc after : Document) : Prop :=
  ∃ b ∈ bindings, ∃ shown, after = doc.showText shown b

/-- The bindings write to different cells, and all of them show some text. -/
structure Displays (old : Nat) (bindings : List Binding) (doc : Document) : Prop where
  apart : bindings.Pairwise fun a b => a.cell? ≠ b.cell?
  size : old ≤ doc.size
  fits : ∀ b ∈ bindings, b.Fits doc old
  holds : ∀ b ∈ bindings, ∃ shown, b.Holds doc old shown

variable {doc after : Document} {old : Nat} {b : Binding} {bindings : List Binding}
  {shown : String}

/-- Of bindings that write to different cells, those that show a text show it when all of them are
done, and another one shows what it has shown before. -/
theorem holds_foldl_showText (hold : old ≤ doc.size) (hfits : b.Fits doc old)
    (h : b.Holds doc old shown) (found : List Binding)
    (hfound : ∀ c ∈ found, c.Fits doc old ∧ (c = b ∨ b.cell? ≠ c.cell?)) (text : String) :
    b.Holds (found.foldl (showText text) doc) old (if b ∈ found then text else shown) := by
  induction found generalizing doc shown with
  | nil => simpa using h
  | cons c rest ih =>
    obtain ⟨⟨hc, happart⟩, hrest⟩ := List.forall_mem_cons.mp hfound
    have hold' := hold.trans (size_le_showText text doc c)
    have hfits' := fits_showText hold hfits c text
    have hrest' : ∀ d ∈ rest, d.Fits (doc.showText text c) old ∧ (d = b ∨ b.cell? ≠ d.cell?) :=
      fun d hd => ⟨fits_showText hold (hrest d hd).1 c text, (hrest d hd).2⟩
    rw [List.foldl_cons]
    rcases happart with rfl | hcell
    · have hlast := ih hold' hfits' (holds_showText_self hold hfits text) hrest'
      simpa using hlast
    · have hne : b ≠ c := by
        rintro rfl
        exact hcell rfl
      have hlast := ih hold' hfits' (holds_showText_of_ne hold hfits hc hcell h text) hrest'
      simpa [hne] using hlast

theorem Displays.eq_or_cell?_ne (h : Displays old bindings doc) {b c : Binding} (hb : b ∈ bindings)
    (hc : c ∈ bindings) : c = b ∨ b.cell? ≠ c.cell? := by
  by_cases hne : c = b
  · exact Or.inl hne
  · have hsymm : Std.Symm fun a b : Binding => a.cell? ≠ b.cell? := ⟨fun _ _ => Ne.symm⟩
    exact Or.inr (h.apart.forall hb hc (Ne.symm hne))

/-- Whatever bindings show, all of them go on to show something. -/
theorem Displays.written (h : Displays old bindings doc)
    (hwritten : Relation.ReflTransGen (WrittenBy bindings) doc after) :
    Displays old bindings after := by
  induction hwritten with
  | refl => exact h
  | tail _ hwrite ih =>
    obtain ⟨c, hc, text, rfl⟩ := hwrite
    refine ⟨h.apart, ih.size.trans (size_le_showText text _ c),
      fun b hb => fits_showText ih.size (ih.fits b hb) c text, fun b hb => ?_⟩
    obtain ⟨shown, hholds⟩ := ih.holds b hb
    exact ⟨_, holds_foldl_showText ih.size (ih.fits b hb) hholds [c]
      (by simpa using ⟨ih.fits c hc, h.eq_or_cell?_ne hb hc⟩) text⟩

theorem writtenBy_foldl_showText {found : List Binding} (hfound : found ⊆ bindings)
    (doc : Document) (text : String) :
    Relation.ReflTransGen (WrittenBy bindings) doc (found.foldl (showText text) doc) := by
  induction found generalizing doc with
  | nil => exact .refl
  | cons b rest ih =>
    obtain ⟨hb, hrest⟩ := List.cons_subset.mp hfound
    exact .head ⟨b, hb, text, rfl⟩ (ih hrest _)

end Document
end ViewBinding
