-- The variable map is a `HashMap`, which gives its values in whatever order it
-- has. The order moves the items of the model, and nothing else.
import Reductor.Exceptions
import Reductor.Items

open reductor.java reductor.dimacs reductor.minizinc

namespace reductor.transformer

/-! ## Items in another order -/

/-- The same items in another order, with one output item at the end that
prints the same elements in another order. -/
inductive Reordered : List Item → List Item → Prop
  | intro {items items' : List Item} {elements elements' : List OutputElement} :
      items.Perm items' → elements.Perm elements' →
      Reordered (items ++ [.output elements]) (items' ++ [.output elements'])

variable {items items' : List Item} {x : Text}

theorem Reordered.declared_perm (h : Reordered items items') :
    (declared items).Perm (declared items') := by
  cases h with
  | intro hitems _ =>
    unfold declared
    rw [List.filterMap_append, List.filterMap_append]
    exact (hitems.filterMap _).append (.refl _)

/-- Only the output item may be another one. -/
theorem Reordered.mem_iff (h : Reordered items items') {item : Item}
    (hitem : item.isOutput = false) : item ∈ items ↔ item ∈ items' := by
  cases h with
  | intro hitems _ =>
    have hne : ∀ elements, item ∉ [Item.output elements] := by
      intro elements hmem
      rw [List.mem_singleton.mp hmem] at hitem
      cases hitem
    rw [List.mem_append, List.mem_append, hitems.mem_iff, or_iff_left (hne _), or_iff_left (hne _)]

theorem Reordered.isSolution (h : Reordered items items') {σ : Valuation}
    (hσ : IsSolution items σ) : IsSolution items' σ where
  assigned := fun x => (hσ.assigned x).trans h.declared_perm.mem_iff
  in_domain := fun lo hi x hx => hσ.in_domain lo hi x ((h.mem_iff rfl).mpr hx)
  holds := fun c hc => hσ.holds c ((h.mem_iff rfl).mpr hc)

theorem Reordered.wellFormed (h : Reordered items items') (hw : WellFormed items) :
    WellFormed items' := by
  have hdeclared := h.declared_perm
  refine ⟨hdeclared.nodup_iff.mp hw.declared_once, ?_, ?_, ?_⟩
  · intro item hitem x hx
    apply hdeclared.mem_iff.mp
    cases h with
    | intro hitems helements =>
      rcases List.mem_append.mp hitem with hmem | hmem
      · exact hw.closed item (List.mem_append_left _ (hitems.mem_iff.mpr hmem)) x hx
      · rw [List.mem_singleton.mp hmem] at hx
        exact hw.closed _ List.mem_concat_self x ((helements.filterMap _).mem_iff.mpr hx)
  · have hone := hw.one_solve
    cases h with
    | intro hitems _ =>
      rw [List.count_append] at hone ⊢
      rw [← hitems.count_eq]
      exact hone
  · have hone := hw.one_output
    cases h with
    | intro hitems _ =>
      rw [List.countP_append] at hone ⊢
      rw [← hitems.countP_eq]
      exact hone

/-! ## The items of the two orders -/

variable (order order' : Order)

theorem reordered_modelItems (dimacs : DimacsDto) :
    Reordered (modelItems order dimacs) (modelItems order' dimacs) := by
  have hindices : (indices order dimacs.variables').Perm (indices order' dimacs.variables') :=
    (indices_perm order _).trans (indices_perm order' _).symm
  have hsplit : ∀ o : Order, modelItems o dimacs =
      ((indices o dimacs.variables').flatMap declarationItems ++
        (indices o dimacs.variables').map complementItem ++
        dimacs.clausesDto.map
          (fun c => .constraint (clauseConstraint dimacs.variables' c.values)) ++
        [.solve]) ++ [.output ((indices o dimacs.variables').flatMap entryElements)] := by
    intro o
    unfold modelItems
    rw [List.append_assoc _ [Item.solve]]
    rfl
  rw [hsplit order, hsplit order']
  refine .intro ?_ (hindices.flatMap_right _)
  exact (((hindices.flatMap_right _).append (hindices.map _)).append (.refl _)).append (.refl _)

/-- The two texts spell the same items, in another order, or are no models. -/
structure SameButOrder (text text' : Text) : Prop where
  wellFormed : WellFormedText text ↔ WellFormedText text'
  solutions : solutions text = solutions text'
  items : ∀ items, parse text = some items →
    ∃ items', parse text' = some items' ∧ Reordered items items'

theorem exists_parse {dimacs : DimacsDto} (h : Fits dimacs) (hc : PlainComments dimacs)
    (hparse : parse (modelText order dimacs) = some items) :
    ∃ items', parse (modelText order' dimacs) = some items' ∧ Reordered items items' := by
  obtain ⟨hpos, hclauses, rfl⟩ := (parse_modelText_eq_some_iff order h hc items).mp hparse
  exact ⟨_, (parse_modelText_eq_some_iff order' h hc _).mpr ⟨hpos, hclauses, rfl⟩,
    reordered_modelItems order order' dimacs⟩

theorem wellFormedText_of_order {dimacs : DimacsDto} (h : Fits dimacs) (hc : PlainComments dimacs)
    (hw : WellFormedText (modelText order dimacs)) : WellFormedText (modelText order' dimacs) := by
  obtain ⟨items, hparse, hwell⟩ := hw
  obtain ⟨items', hparse', hreordered⟩ := exists_parse order order' h hc hparse
  exact ⟨items', hparse', hreordered.wellFormed hwell⟩

theorem solutions_subset_of_order {dimacs : DimacsDto} (h : Fits dimacs)
    (hc : PlainComments dimacs) :
    solutions (modelText order dimacs) ⊆ solutions (modelText order' dimacs) := by
  rintro σ ⟨items, hparse, hσ⟩
  obtain ⟨items', hparse', hreordered⟩ := exists_parse order order' h hc hparse
  exact ⟨items', hparse', hreordered.isSolution hσ⟩

/-- Whatever the lines of a file are, the order in which the map is enumerated
shows neither in what is thrown nor in what the text means: the texts are both
models, with the same solutions and the same items, or both are none. -/
theorem the_order_of_the_map_does_not_show (lines : List Line) :
    (∀ e, process order lines = .error e ↔ process order' lines = .error e) ∧
      ∀ text, process order lines = .ok text →
        ∃ text', process order' lines = .ok text' ∧ SameButOrder text text' := by
  have hthrows : ∀ (o o' : Order) e, process o lines = .error e → process o' lines = .error e := by
    intro o o' e he
    unfold process at he ⊢
    cases hd : deserialize lines with
    | error thrown =>
      rw [hd] at he
      exact he
    | ok dimacs =>
      rw [hd] at he
      exact transformDimacs_eq_error_iff.mpr (transformDimacs_eq_error_iff.mp he)
  refine ⟨fun e => ⟨hthrows order order' e, hthrows order' order e⟩, ?_⟩
  intro text htext
  obtain ⟨hreadable, hfits, rfl⟩ := process_eq_ok_iff.mp htext
  have hplain := plainComments_dtoOf lines
  refine ⟨_, process_eq_ok_iff.mpr ⟨hreadable, hfits, rfl⟩, ⟨?_, ?_⟩, ?_, ?_⟩
  · exact wellFormedText_of_order order order' hfits hplain
  · exact wellFormedText_of_order order' order hfits hplain
  · exact Set.Subset.antisymm (solutions_subset_of_order order order' hfits hplain)
      (solutions_subset_of_order order' order hfits hplain)
  · intro items hparse
    exact exists_parse order order' hfits hplain hparse

end reductor.transformer
