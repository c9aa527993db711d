import Mathlib
import ViewBinding.Proofs.Compile.Discovery
import ViewBinding.Proofs.Document.Display

/-!
# What a walk shows

No two bindings of a subtree write to the same cell (`pairwise_cell_bindings`): they have different
nodes, or come from two attributes of one element, whose names differ. So what the walk has shown by
one binding is still shown when the others have been applied (`compile_displays`).
-/

namespace ViewBinding

namespace Document

/-! ## Different cells -/

private theorem pairwise_cell_nodeBindings {doc : Document} (hwf : doc.WellFormed)
    (settings : Settings) (id : NodeId) :
    (doc.nodeBindings settings id).Pairwise fun a b => a.cell? ≠ b.cell? := by
  unfold nodeBindings
  split
  · cases Template.parse? settings.delimiters _ <;> simp
  · rename_i tag attributes value hcontent
    have hnames : attributes.Pairwise fun a b => a.name ≠ b.name :=
      List.pairwise_map.mp (hwf.valid id _ hcontent).2.1
    apply hnames.filterMap
    intro a a' hne b hb b' hb' hcell
    rcases directiveBinding_eq_some hb with ⟨rfl, hname⟩ | ⟨rfl, hname, -⟩ <;>
      rcases directiveBinding_eq_some hb' with ⟨rfl, hname'⟩ | ⟨rfl, hname', -⟩
    · exact hne (hname.trans hname'.symm)
    · simp [Binding.cell?] at hcell
    · simp [Binding.cell?] at hcell
    · exact hne (hname.trans hname'.symm)
  all_goals exact .nil

theorem pairwise_cell_bindings {doc : Document} (hwf : doc.WellFormed) (settings : Settings)
    {order : List NodeId} (hnodup : order.Nodup) :
    (order.flatMap (doc.nodeBindings settings)).Pairwise fun a b => a.cell? ≠ b.cell? := by
  rw [List.pairwise_flatMap]
  refine ⟨fun id _ => pairwise_cell_nodeBindings hwf settings id, hnodup.imp ?_⟩
  intro id other hne a ha b hb hcell
  have htarget : a.target? = b.target? := by rw [a.target?_eq, hcell, b.target?_eq]
  rw [target?_of_mem_nodeBindings ha, target?_of_mem_nodeBindings hb] at htarget
  exact hne (Option.some.inj htarget)

theorem fits_of_mem_nodeBindings {doc : Document} {settings : Settings} {id : NodeId} {b : Binding}
    (h : b ∈ doc.nodeBindings settings id) : b.Fits doc doc.size := by
  unfold nodeBindings at h
  split at h
  · rename_i data hcontent
    obtain ⟨template, -, rfl⟩ := Option.map_eq_some_iff.mp (Option.mem_toList.mp h)
    exact ⟨lt_size_of_content? hcontent, (kind_eq_text_iff doc id).mpr ⟨data, hcontent⟩⟩
  · rename_i tag attributes value hcontent
    have hlt := lt_size_of_content? hcontent
    obtain ⟨a, -, ha⟩ := List.mem_filterMap.mp h
    rcases directiveBinding_eq_some ha with ⟨rfl, -⟩ | ⟨rfl, -, hvalue⟩
    · exact ⟨hlt, (kind_eq_element_iff doc id).mpr ⟨tag, attributes, value, hcontent⟩⟩
    · refine ⟨hlt, ?_⟩
      rw [supportsValue, value?_eq, hcontent]
      exact hvalue
  all_goals simp at h

/-! ## One binding after another -/

section

variable {doc : Document} {old : Nat} {store : Store} {b other : Binding} {shown : String}

theorem fits_showBinding (hold : old ≤ doc.size) (h : b.Fits doc old) (other : Binding) :
    b.Fits (doc.showBinding store other) old :=
  fits_showText hold h other _

private theorem holds_showBinding_self (hold : old ≤ doc.size) (h : b.Fits doc old) :
    b.Holds (doc.showBinding store b) old (shownText (store.get? b.key)) :=
  holds_showText_self hold h _

private theorem holds_showBinding_of_ne (hold : old ≤ doc.size) (hfits : b.Fits doc old)
    (hother : other.Fits doc old) (hcell : b.cell? ≠ other.cell?) (h : b.Holds doc old shown) :
    b.Holds (doc.showBinding store other) old shown :=
  holds_showText_of_ne hold hfits hother hcell h _

end

private theorem fits_foldl_showBinding {doc : Document} {old : Nat} (store : Store)
    (hold : old ≤ doc.size) {b : Binding} (h : b.Fits doc old) (found : List Binding) :
    b.Fits (found.foldl (showBinding store) doc) old := by
  induction found generalizing doc with
  | nil => exact h
  | cons other rest ih =>
    exact ih (hold.trans (size_le_showBinding store doc other)) (fits_showBinding hold h other)

private theorem holds_foldl_showBinding_of_ne {doc : Document} {old : Nat} (store : Store)
    (hold : old ≤ doc.size) {b : Binding} (hfits : b.Fits doc old) {shown : String}
    (h : b.Holds doc old shown) {found : List Binding} (hfound : ∀ c ∈ found, c.Fits doc old)
    (hcells : ∀ c ∈ found, b.cell? ≠ c.cell?) :
    b.Holds (found.foldl (showBinding store) doc) old shown := by
  induction found generalizing doc with
  | nil => exact h
  | cons other rest ih =>
    obtain ⟨hother, hrest⟩ := List.forall_mem_cons.mp hfound
    obtain ⟨hne, hcells⟩ := List.forall_mem_cons.mp hcells
    apply ih (hold.trans (size_le_showBinding store doc other)) (fits_showBinding hold hfits other)
      (holds_showBinding_of_ne hold hfits hother hne h) _ hcells
    exact fun c hc => fits_showBinding hold (hrest c hc) other

private theorem holds_foldl_showBinding {doc : Document} {old : Nat} (store : Store)
    (hold : old ≤ doc.size) {found : List Binding} (hfound : ∀ b ∈ found, b.Fits doc old)
    (hcells : found.Pairwise fun a b => a.cell? ≠ b.cell?) :
    ∀ b ∈ found, b.Holds (found.foldl (showBinding store) doc) old
      (shownText (store.get? b.key)) := by
  induction found generalizing doc with
  | nil => simp
  | cons first rest ih =>
    obtain ⟨hfirst, hrest⟩ := List.forall_mem_cons.mp hfound
    obtain ⟨hne, hcells⟩ := List.pairwise_cons.mp hcells
    have hold' := hold.trans (size_le_showBinding store doc first)
    have hrest' : ∀ b ∈ rest, b.Fits (doc.showBinding store first) old :=
      fun b hb => fits_showBinding hold (hrest b hb) first
    intro b hb
    rcases List.mem_cons.mp hb with rfl | hb
    · exact holds_foldl_showBinding_of_ne store hold' (fits_showBinding hold hfirst b)
        (holds_showBinding_self hold hfirst) hrest' hne
    · exact ih hold' hrest' hcells b hb

end Document

/-- The bindings that a walk finds write to different cells, and all of them show the store when it
is over. -/
theorem compile_displays {doc : Document} (hwf : doc.WellFormed) (store : Store)
    (settings : Settings) (root : NodeId) :
    doc.size ≤ (compile doc store settings root).doc.size ∧
      (compile doc store settings root).bindings.Pairwise (fun a b => a.cell? ≠ b.cell?) ∧
      ∀ b ∈ (compile doc store settings root).bindings,
        b.isWatch = false ∧ b.Fits (compile doc store settings root).doc doc.size ∧
          b.Holds (compile doc store settings root).doc doc.size
            (shownText (store.get? b.key)) := by
  obtain ⟨order, asked, horder, -, hcompile⟩ := compile_eq_extended hwf store settings root
  have hcells := Document.pairwise_cell_bindings hwf settings (horder.nodup_singleton hwf)
  have hfits : ∀ b ∈ order.flatMap (doc.nodeBindings settings), b.Fits doc doc.size := by
    intro b hb
    obtain ⟨id, -, hb⟩ := List.mem_flatMap.mp hb
    exact Document.fits_of_mem_nodeBindings hb
  rw [hcompile]
  simp only [Compilation.extended, List.nil_append]
  refine ⟨Document.size_le_foldl_showBinding store doc _, hcells, fun b hb => ⟨?_, ?_, ?_⟩⟩
  · obtain ⟨id, -, hid⟩ := List.mem_flatMap.mp hb
    cases b with
    | interpolation | text | model => rfl
    | watch => simpa [Binding.target?] using Document.target?_of_mem_nodeBindings hid
  · exact Document.fits_foldl_showBinding store (Nat.le_refl _) (hfits b hb) _
  · exact Document.holds_foldl_showBinding store (Nat.le_refl _) hfits hcells b hb

end ViewBinding
