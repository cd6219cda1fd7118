-- The reduction from end to end: the solutions of the model that a DIMACS
-- file gives are the assignments that satisfy its formula. Formulas with an
-- empty clause or with no variable never give a model.
import Reductor.Entries
import Reductor.Items

open reductor.java reductor.dimacs reductor.minizinc reductor.cnf

namespace reductor.transformer

/-! ## Models of a formula -/

/-- The valuation that an assignment spells at the identifiers of the literals. -/
noncomputable def spelled {n : Nat} (a : Fin n → Bool) : Valuation :=
  valuation literalIdent (numbers a)

theorem spelled_varName {n : Nat} (a : Fin n → Bool) (i : Fin n) :
    spelled a (varName (i + 1)) = some (a i).toNat := by
  have h := valuation_name literalIdent_injective (numbers a) ⟨i, true⟩
  rw [numbers_positive] at h
  exact h

theorem spelled_negName {n : Nat} (a : Fin n → Bool) (i : Fin n) :
    spelled a (negName (i + 1)) = some (1 - (a i).toNat) := by
  have h := valuation_name literalIdent_injective (numbers a) ⟨i, false⟩
  rw [numbers_negative] at h
  exact h

/-- The text is a well-formed model whose solutions are the assignments that
satisfy the formula, each with 1 and 0 for the two literals of a variable. -/
structure Models {n : Nat} (f : Formula (Fin n)) (text : Text) : Prop where
  wellFormed : WellFormedText text
  bijective : Set.BijOn spelled {a | Satisfies a f} (solutions text)
  positive : ∀ a : Fin n → Bool, ∀ i : Fin n, spelled a (varName (i + 1)) = some (a i).toNat
  negative : ∀ a : Fin n → Bool, ∀ i : Fin n, spelled a (negName (i + 1)) = some (1 - (a i).toNat)
  feasible : Feasible text ↔ Satisfiable f

theorem solutions_of_parse {text : Text} {items : List Item} (h : parse text = some items) :
    solutions text = {σ | IsSolution items σ} := by
  ext σ
  constructor
  · rintro ⟨items', hitems', hσ⟩
    rw [h, Option.some.injEq] at hitems'
    rwa [hitems']
  · intro hσ
    exact ⟨items, h, hσ⟩

theorem parse_modelText_terminated (order : Order) {dimacs : DimacsDto}
    (hc : PlainComments dimacs) (hpos : 0 < dimacs.variables'.toInt)
    (h : ∀ c ∈ dimacs.clausesDto, Terminated dimacs.variables' c) :
    parse (modelText order dimacs) = some (modelItems order dimacs) :=
  parse_modelText_ok order hc hpos fun c hcm => (h c hcm).leavesConstraint

/-- The valuations that solve the 0/1 program of value lists. -/
def programSolutions (count : Int32) (clauses : List (List Int32)) : Set Valuation :=
  {σ | (∀ t, (σ t).isSome ↔
      t ∈ Set.range (literalIdent : Literal (Fin count.toInt.toNat) → Text)) ∧
    Solves (formula count clauses) fun l => (σ (literalIdent l)).getD 0}

theorem solutions_modelText (order : Order) {dimacs : DimacsDto}
    (hc : PlainComments dimacs) (hpos : 0 < dimacs.variables'.toInt)
    (h : ∀ c ∈ dimacs.clausesDto, Terminated dimacs.variables' c) :
    solutions (modelText order dimacs) =
      programSolutions dimacs.variables' (valueLists dimacs) := by
  rw [solutions_of_parse (parse_modelText_terminated order hc hpos h)]
  ext σ
  exact isSolution_modelItems_iff order h σ

/-- What the writer makes of clauses as DIMACS has them. -/
theorem models_modelText (order : Order) {dimacs : DimacsDto}
    (hc : PlainComments dimacs) (hpos : 0 < dimacs.variables'.toInt)
    (h : ∀ c ∈ dimacs.clausesDto, Terminated dimacs.variables' c) :
    Models (formula dimacs.variables' (valueLists dimacs)) (modelText order dimacs) := by
  have hbij : Set.BijOn spelled {a | Satisfies a (formula dimacs.variables' (valueLists dimacs))}
      (solutions (modelText order dimacs)) := by
    rw [solutions_modelText order hc hpos h]
    exact (bijOn_valuation literalIdent_injective _).comp (bijOn_numbers _)
  refine ⟨⟨_, parse_modelText_terminated order hc hpos h, wellFormed_modelItems order h⟩, hbij,
    spelled_varName, spelled_negName, ?_⟩
  unfold Feasible
  rw [← hbij.image_eq, Set.image_nonempty]
  exact Iff.rfl

/-- The solutions of the model that a file gives are the assignments that
satisfy its formula, for every file that is one header, comments, and clauses
of literals in range with one 0 each, in any order and spacing. -/
theorem solutions_are_the_satisfying_assignments (order : Order) {entries : List Entry}
    {lines : List Line} {format : Text} {n m : Int32} {comments : List Text}
    {clauses : List (List Int32)} (h : List.Forall₂ (Writes Reads) entries lines)
    (hi : Interleaved format n m comments clauses entries) (hn : 1 ≤ n.toInt)
    (hclauses : ∀ values ∈ clauses, Terminated n ⟨values⟩) :
    ∃ text, process order lines = .ok text ∧ Models (formula n clauses) text := by
  have hreads : List.Forall₂ ReadAs entries lines := h.imp fun _ _ hw => hw.readAs
  have hdto := dtoOf_written hreads hi
  have hterminated : ∀ c ∈ (dtoOf lines).clausesDto, Terminated (dtoOf lines).variables' c := by
    intro c hc
    rw [hdto] at hc ⊢
    obtain ⟨values, hvalues, rfl⟩ := List.mem_map.mp hc
    exact hclauses values hvalues
  have hlists : valueLists (dtoOf lines) = clauses := by
    rw [hdto, valueLists, List.map_map]
    exact List.map_id _
  have hvariables : (dtoOf lines).variables' = n := by rw [hdto]
  have hmodels := models_modelText order (plainComments_dtoOf lines)
    (by rw [hvariables]; omega) hterminated
  refine ⟨_, process_eq_ok_iff.mpr ⟨readable_of_readAs hreads, fits_of_terminated hterminated, rfl⟩,
    ?_⟩
  rw [hlists] at hmodels
  subst hvariables
  exact hmodels

/-- A clause in front of the header, with a tautology and a variable that no clause uses. -/
theorem solutions_are_the_satisfying_assignments_in_any_order :
    ∃ text, process .insertion [⟨"1  -1 +1 0".toList, by decide⟩,
        ⟨"c x".toList, by decide⟩, ⟨"p cnf 2 7".toList, by decide⟩] = .ok text ∧
      Models (formula 2 [[1, -1, 1, 0]]) text := by
  have hclause : Spaced ["1".toList, "-1".toList, "+1".toList, "0".toList] "1  -1 +1 0".toList :=
    .cons _ 1 (.cons _ 0 (.cons _ 0 (.last _)))
  have hheader : Spaced [PROBLEM, "cnf".toList, "2".toList, "7".toList] "p cnf 2 7".toList :=
    .cons _ 0 (.cons _ 0 (.cons _ 0 (.last _)))
  have hnone : Padding [] := by unfold Padding; decide
  refine solutions_are_the_satisfying_assignments _
    (.cons ?_ (.cons ?_ (.cons ?_ .nil)) : List.Forall₂ (Writes Reads)
      [.clause [1, -1, 1, 0], .comment "x".toList, .problem "cnf".toList 2 7] _)
    ⟨rfl, rfl, rfl⟩ (by decide) ?_
  · refine ⟨_, .cons ?_ (.cons ?_ (.cons ?_ (.cons ?_ .nil))), [], _, [], rfl, hnone,
      hclause, hnone⟩
    all_goals
      unfold Reads
      decide
  · rfl
  · refine ⟨_, _, by decide, by decide, ?_, ?_, [], _, [], rfl, hnone, hheader, hnone⟩
    all_goals
      unfold Reads
      decide
  · intro values hvalues
    rw [List.mem_singleton] at hvalues
    exact ⟨[1, -1, 1], by rw [hvalues]; rfl, by decide, by decide⟩

/-! ## Formulas with an empty clause or with no variable -/

/-- Each clause is literals in range, or none, and then one 0; some clause
has no literal, or there is no variable. -/
structure Degenerate (dimacs : DimacsDto) : Prop where
  variables' : 0 ≤ dimacs.variables'.toInt
  clauses : ∀ c ∈ dimacs.clausesDto, ∃ ls, c.values = ls ++ [0] ∧
    ∀ v ∈ ls, InRange dimacs.variables' v
  degenerate : dimacs.variables' = 0 ∨ ⟨[0]⟩ ∈ dimacs.clausesDto

theorem Degenerate.fits {dimacs : DimacsDto} (h : Degenerate dimacs) : Fits dimacs := by
  intro c hc
  obtain ⟨ls, hls, hrange⟩ := h.clauses c hc
  rw [hls]
  by_cases hne : ls = []
  · rw [hne]
    show 2 ≤ 10
    decide
  · rw [(left_terminated _ (fun h0 => (hrange 0 h0).1 rfl) hne).1]
    exact Nat.zero_le 10

theorem flatMap_commentLine_lines (comments : List Text) :
    comments.flatMap commentLine = [] ∨ ∃ w, comments.flatMap commentLine = w ++ ['\n'] := by
  rcases List.eq_nil_or_concat comments with rfl | ⟨front, comment, rfl⟩
  · exact .inl rfl
  · right
    rw [List.concat_eq_append, List.flatMap_append, List.flatMap_singleton]
    exact ⟨front.flatMap commentLine ++ (PERCENTAGE ++ " ".toList ++ comment),
      by simp only [commentLine, List.append_assoc]; rfl⟩

/-- Every statement after the first stands in the text by itself, whatever the comments hold. -/
theorem parseItem_of_parse_modelText (order : Order) {dimacs : DimacsDto} {items : List Item}
    (h : Fits dimacs) (hparse : parse (modelText order dimacs) = some items) :
    ∀ c ∈ (statementsOf order dimacs).tail, (parseItem c).isSome := by
  obtain ⟨out, hout, hitems⟩ := Option.bind_eq_some_iff.mp hparse
  have hsemi := semi_notMem_statementsOf order dimacs
  have hscan := scans_bodyText order h
  cases hs : statementsOf order dimacs with
  | nil => simp
  | cons first rest =>
    rw [hs] at hsemi hscan
    have hmem := mem_of_textStatements (flatMap_commentLine_lines dimacs.comments) hscan
      (hsemi first List.mem_cons_self) (fun c hc => hsemi c (List.mem_cons_of_mem first hc)) hout
    exact fun c hc => isSome_of_mapM hitems c (hmem c hc)

/-- A formula with an empty clause or with no variable never gives a
well-formed model: the deletion takes two characters of a keyword, or the
bracket of the output item. -/
theorem not_wellFormed_of_degenerate (order : Order) {dimacs : DimacsDto} (h : Degenerate dimacs) :
    ¬ WellFormedText (modelText order dimacs) := by
  rintro ⟨items, hparse, -⟩
  have hsome := parseItem_of_parse_modelText order h.fits hparse
  have hnone : ∀ c ∈ (statementsOf order dimacs).tail, parseItem c ≠ none := by
    intro c hc hp
    have := hsome c hc
    rw [hp] at this
    cases this
  by_cases hn : dimacs.variables' = 0
  · have hindices : indices order dimacs.variables' = [] := by
      rw [indices_eq_nil_iff, hn]
      exact Int.le_refl 0
    refine hnone (outputTokens []) ?_ rfl
    unfold statementsOf
    rw [hindices]
    cases dimacs.clausesDto <;> simp
  · have hempty := h.degenerate.resolve_left hn
    refine hnone (clauseTokens dimacs.variables' [0]) ?_ (parseItem_cut ?_ ?_)
    · unfold statementsOf
      cases hi : indices order dimacs.variables' with
      | nil =>
        have := indices_eq_nil_iff.mp hi
        have := mt toInt_eq_zero_iff.mp hn
        have := h.variables'
        omega
      | cons i is =>
        simp only [List.flatMap_cons, List.cons_append, List.tail_cons, List.mem_cons,
          List.mem_append, List.mem_map]
        exact .inr (.inl (.inr ⟨⟨[0]⟩, hempty, rfl⟩))
    · exact Nat.zero_lt_two
    · show 2 ≤ 10
      decide

/-- The writer gives a text for every degenerate formula, and none of these
texts is a well-formed model. -/
theorem a_degenerate_formula_never_gives_a_model (order : Order) {dimacs : DimacsDto}
    (h : Degenerate dimacs) :
    (∃ text, transformDimacs order dimacs = .ok text) ∧
      ¬ ∃ text, transformDimacs order dimacs = .ok text ∧ WellFormedText text ∧
        (Feasible text ↔ ⟨[0]⟩ ∉ dimacs.clausesDto) := by
  have htext := transformDimacs_ok order h.fits
  refine ⟨⟨_, htext⟩, ?_⟩
  rintro ⟨text, ht, hwell, -⟩
  rw [htext, Except.ok.injEq] at ht
  rw [← ht] at hwell
  exact not_wellFormed_of_degenerate order h hwell

/-- The formula with no variable and no clause. -/
theorem the_formula_without_variables_gives_no_model :
    (∃ text, transformDimacs .insertion {} = .ok text) ∧
      ¬ ∃ text, transformDimacs .insertion {} = .ok text ∧ WellFormedText text ∧
        (Feasible text ↔ (⟨[0]⟩ : ClausesDto) ∉ []) :=
  a_degenerate_formula_never_gives_a_model _
    (⟨by decide, by simp, .inl rfl⟩ : Degenerate {})

/-- One variable and one empty clause: the text ends the keyword of the clause too early. -/
theorem the_empty_clause_gives_no_model :
    Degenerate ⟨[], some "cnf".toList, 1, 1, [⟨[0]⟩]⟩ ∧
      ¬ ∃ text, transformDimacs .insertion ⟨[], some "cnf".toList, 1, 1, [⟨[0]⟩]⟩ =
        .ok text ∧ WellFormedText text ∧
          (Feasible text ↔ (⟨[0]⟩ : ClausesDto) ∉ [⟨[0]⟩]) := by
  obtain ⟨model, htext, hparse⟩ : ∃ text, transformDimacs .insertion
      ⟨[], some "cnf".toList, 1, 1, [⟨[0]⟩]⟩ = .ok text ∧ parse text = none :=
    ⟨modelText .insertion ⟨[], none, 1, 1, [⟨[0]⟩]⟩, by decide +kernel, by decide +kernel⟩
  refine ⟨⟨by decide, ?_, .inr List.mem_cons_self⟩, ?_⟩
  · intro c hc
    rw [List.mem_singleton] at hc
    exact ⟨[], by rw [hc]; rfl, by simp⟩
  · rintro ⟨text, ht, ⟨items, hitems, -⟩, -⟩
    rw [htext, Except.ok.injEq] at ht
    rw [← ht, hparse] at hitems
    cases hitems

end reductor.transformer
