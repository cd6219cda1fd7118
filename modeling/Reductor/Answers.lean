-- The answers that a model prints for its solutions, and how a solution is
-- read back from its answer: nothing stands between the value of one
-- variable and the name of the next.
import Reductor.Reduction

open reductor.java reductor.dimacs reductor.minizinc reductor.cnf

namespace reductor.transformer

/-! ## The decoder of answers -/

/-- The entries of an answer: the text up to an equals sign, and the digit
behind it. The text of the entry that is open is at hand. -/
def answerEntries : Text → Text → List (Text × Nat)
  | _, [] => []
  | name, '=' :: d :: s => (name, d.toNat - '0'.toNat) :: answerEntries [] s
  | name, c :: s => answerEntries (name ++ [c]) s

/-- The identifier whose value stands behind a label. -/
def labelIdent : Text → Text
  | '\t' :: '-' :: x => "n_".toList ++ x
  | x => x

/-- The valuation that an answer shows. -/
def readAnswer (answer : Text) : Valuation := fun x =>
  ((answerEntries [] answer).map fun e => (labelIdent e.1, e.2)).lookup x

/-! ## Answers read back -/

theorem answerEntries_entry {u : Text} (hu : '=' ∉ u) (name : Text) (d : Char) (s : Text) :
    answerEntries name (u ++ '=' :: d :: s) =
      (name ++ u, d.toNat - '0'.toNat) :: answerEntries [] s := by
  induction u generalizing name with
  | nil =>
    rw [List.nil_append, List.append_nil]
    rfl
  | cons c u ih =>
    have hc : c ≠ '=' := fun h => hu (h ▸ List.mem_cons_self)
    rw [List.cons_append, answerEntries, ih fun h => hu (List.mem_cons_of_mem c h),
      List.append_assoc]
    · rfl
    · intro _ _ h
      exact absurd h hc

/-- A list of values that are all those of a valuation, and all of them. -/
theorem lookup_eq_of_forall {σ : Valuation} {l : List (Text × Nat)} {x : Text}
    (hl : ∀ e ∈ l, σ e.1 = some e.2) (hx : (σ x).isSome → x ∈ l.map Prod.fst) :
    l.lookup x = σ x := by
  induction l with
  | nil =>
    rw [List.lookup_nil, eq_comm, ← Option.not_isSome_iff_eq_none]
    exact fun h => List.not_mem_nil (hx h)
  | cons e l ih =>
    obtain ⟨y, v⟩ := e
    rw [List.lookup_cons]
    by_cases hy : x = y
    · rw [hy, beq_self_eq_true]
      exact (hl (y, v) List.mem_cons_self).symm
    · rw [beq_false_of_ne hy]
      refine ih (fun e he => hl e (List.mem_cons_of_mem _ he)) fun h => ?_
      exact (List.mem_cons.mp (hx h)).resolve_left hy

/-! ## The answer of a solution -/

/-- The digit of a 0/1 variable. -/
def digitOf (σ : Valuation) (x : Text) : Char := Nat.digitChar ((σ x).getD 0)

/-- What the entries of a variable show. -/
def variableAnswer (σ : Valuation) (i : Nat) : Text :=
  label i ++ [digitOf σ (varName i)] ++ negLabel i ++ [digitOf σ (negName i)]

theorem equals_notMem_varName (i : Nat) : '=' ∉ varName i := by
  intro h
  exact absurd (isWordChar_varName i '=' h) (by decide)

theorem toNat_digitOf {σ : Valuation} {x : Text} {v : Nat} (h : σ x = some v) (hv : v ≤ 1) :
    (digitOf σ x).toNat - '0'.toNat = v := by
  rw [digitOf, h, Option.getD_some]
  rcases Nat.le_one_iff_eq_zero_or_eq_one.mp hv with rfl | rfl <;> rfl

theorem shown_value {σ : Valuation} {x : Text} {v : Nat} (h : σ x = some v) (hv : v ≤ 1) :
    OutputElement.shown σ (.value x) = some [digitOf σ x] := by
  rw [OutputElement.shown, digitOf, h, Option.getD_some]
  rcases Nat.le_one_iff_eq_zero_or_eq_one.mp hv with rfl | rfl <;> rfl

/-- The labels of an answer and the values behind them, found again. -/
theorem answerEntries_variables (σ : Valuation) (is : List Nat) :
    answerEntries [] (is.flatMap (variableAnswer σ)) = is.flatMap fun i =>
      [(varName i, (digitOf σ (varName i)).toNat - '0'.toNat),
        (['\t', '-'] ++ varName i, (digitOf σ (negName i)).toNat - '0'.toNat)] := by
  induction is with
  | nil => rfl
  | cons i is ih =>
    have hvar := equals_notMem_varName i
    have hneg : '=' ∉ ['\t', '-'] ++ varName i := by simpa using hvar
    rw [List.flatMap_cons, List.flatMap_cons, ← ih]
    have htext : variableAnswer σ i ++ is.flatMap (variableAnswer σ) =
        varName i ++ '=' :: digitOf σ (varName i) :: ((['\t', '-'] ++ varName i) ++
          '=' :: digitOf σ (negName i) :: is.flatMap (variableAnswer σ)) := by
      simp [variableAnswer, label, negLabel]
    rw [htext, answerEntries_entry hvar, answerEntries_entry hneg]
    rfl

/-! ## Solutions of a model -/

/-- A solution gives each of the two names of a variable 0 or 1. -/
theorem solution_values {order : Order} {dimacs : DimacsDto} {σ : Valuation}
    (hσ : IsSolution (modelItems order dimacs) σ) {i : Nat}
    (hi : i ∈ indices order dimacs.variables') :
    (∃ v, σ (varName i) = some v ∧ v ≤ 1) ∧ ∃ v, σ (negName i) = some v ∧ v ≤ 1 := by
  have hvalue : ∀ x, x = varName i ∨ x = negName i → ∃ v, σ x = some v ∧ v ≤ 1 := by
    intro x hx
    obtain ⟨v, hv, -, hle⟩ := hσ.in_domain 0 1 x (var_mem_modelItems.mpr ⟨rfl, rfl, i, hi, hx⟩)
    exact ⟨v, hv, hle⟩
  exact ⟨hvalue _ (.inl rfl), hvalue _ (.inr rfl)⟩

theorem elements_modelItems (order : Order) (dimacs : DimacsDto) :
    (modelItems order dimacs).findSome? Item.elements? =
      some ((indices order dimacs.variables').flatMap entryElements) := by
  have hnone : ((indices order dimacs.variables').flatMap declarationItems ++
      (indices order dimacs.variables').map complementItem ++
      dimacs.clausesDto.map fun c =>
        Item.constraint (clauseConstraint dimacs.variables' c.values)).findSome? Item.elements? =
      none := by
    rw [List.findSome?_eq_none_iff]
    intro item hitem
    simp only [List.mem_append, List.mem_flatMap, List.mem_map] at hitem
    rcases hitem with (⟨i, -, hi⟩ | ⟨i, -, rfl⟩) | ⟨c, -, rfl⟩
    · simp only [declarationItems, List.mem_cons, List.not_mem_nil, or_false] at hi
      rcases hi with rfl | rfl <;> rfl
    · rfl
    · rfl
  rw [modelItems, List.findSome?_append, hnone]
  rfl

/-- The answer of a solution is the entries of the variables, one after the other. -/
theorem printed_modelItems {order : Order} {dimacs : DimacsDto} {σ : Valuation}
    (hσ : IsSolution (modelItems order dimacs) σ) :
    printed (modelItems order dimacs) σ =
      some ((indices order dimacs.variables').flatMap (variableAnswer σ)) := by
  have hshown : ∀ is : List Nat, (∀ i ∈ is, i ∈ indices order dimacs.variables') →
      ((is.flatMap entryElements).mapM (OutputElement.shown σ)).map List.flatten =
        some (is.flatMap (variableAnswer σ)) := by
    intro is
    induction is with
    | nil => exact fun _ => rfl
    | cons i is ih =>
      intro his
      obtain ⟨us, hus, hflat⟩ := Option.map_eq_some_iff.mp
        (ih fun j hj => his j (List.mem_cons_of_mem i hj))
      obtain ⟨⟨v, hv, hv1⟩, w, hw, hw1⟩ := solution_values hσ (his i List.mem_cons_self)
      have hentry : (entryElements i).mapM (OutputElement.shown σ) =
          some [label i, [digitOf σ (varName i)], negLabel i, [digitOf σ (negName i)]] := by
        simp only [entryElements, List.mapM_cons, List.mapM_nil, shown_value hv hv1,
          shown_value hw hw1]
        rfl
      rw [List.flatMap_cons, mapM_append_eq_some hentry hus, Option.map_some,
        List.flatten_append, hflat, List.flatMap_cons]
      simp [variableAnswer]
  rw [printed, elements_modelItems]
  exact hshown _ fun _ hi => hi

/-- The decoder gets a solution back from its answer. -/
theorem readAnswer_variables {order : Order} {dimacs : DimacsDto} {σ : Valuation}
    (hσ : IsSolution (modelItems order dimacs) σ) :
    readAnswer ((indices order dimacs.variables').flatMap (variableAnswer σ)) = σ := by
  funext x
  rw [readAnswer, answerEntries_variables, List.map_flatMap]
  apply lookup_eq_of_forall
  · intro e he
    obtain ⟨i, hi, he⟩ := List.mem_flatMap.mp he
    obtain ⟨⟨v, hv, hv1⟩, w, hw, hw1⟩ := solution_values hσ hi
    simp only [List.map_cons, List.map_nil, List.mem_cons, List.not_mem_nil, or_false] at he
    rcases he with rfl | rfl
    · exact hv.trans (congrArg some (toNat_digitOf hv hv1).symm)
    · exact hw.trans (congrArg some (toNat_digitOf hw hw1).symm)
  · intro hx
    obtain ⟨i, hi, hname⟩ := mem_declared_modelItems.mp ((hσ.assigned x).mp hx)
    rw [List.map_flatMap, List.mem_flatMap]
    refine ⟨i, mem_indices.mpr hi, ?_⟩
    rcases hname with rfl | rfl
    · exact List.mem_cons_self
    · exact List.mem_cons_of_mem _ List.mem_cons_self

/-- The answer shows the 0 or 1 that the solution has for both names of each variable. -/
def Shows (count : Int32) (σ : Valuation) (answer : Text) : Prop :=
  ∀ i : Nat, 1 ≤ i → (i : Int) ≤ count.toInt → ∀ x ∈ [varName i, negName i],
    ∃ v ≤ 1, σ x = some v ∧ readAnswer answer x = some v

theorem shows_of_readAnswer {order : Order} {dimacs : DimacsDto} {σ : Valuation} {answer : Text}
    (hσ : IsSolution (modelItems order dimacs) σ) (hread : readAnswer answer = σ) :
    Shows dimacs.variables' σ answer := by
  intro i hi hcount x hx
  obtain ⟨⟨v, hv, hv1⟩, w, hw, hw1⟩ := solution_values hσ (mem_indices.mpr ⟨hi, hcount⟩)
  rw [hread]
  rcases List.mem_pair.mp hx with rfl | rfl
  · exact ⟨v, hv1, hv, hv⟩
  · exact ⟨w, hw1, hw, hw⟩

/-- Every solution is read back from its answer, whatever order the variables
are printed in, so that no two solutions have one answer. -/
theorem an_answer_determines_its_solution (order : Order) {dimacs : DimacsDto}
    (hc : PlainComments dimacs) (hn : 1 ≤ dimacs.variables'.toInt)
    (h : ∀ c ∈ dimacs.clausesDto, Terminated dimacs.variables' c) :
    ∃ text, transformDimacs order dimacs = .ok text ∧
      (∀ σ ∈ solutions text, ∃ answer, printedBy text σ = some answer ∧
        Shows dimacs.variables' σ answer ∧ readAnswer answer = σ) ∧
      ∀ σ ∈ solutions text, ∀ τ ∈ solutions text, printedBy text σ = printedBy text τ → σ = τ := by
  have hparse := parse_modelText_terminated order hc (by omega) h
  have hprinted : ∀ σ ∈ solutions (modelText order dimacs), ∃ answer,
      printedBy (modelText order dimacs) σ = some answer ∧
        Shows dimacs.variables' σ answer ∧ readAnswer answer = σ := by
    intro σ hσ
    rw [solutions_of_parse hparse] at hσ
    have hread := readAnswer_variables hσ
    refine ⟨_, ?_, shows_of_readAnswer hσ hread, hread⟩
    rw [printedBy, hparse, Option.bind_some, printed_modelItems hσ]
  refine ⟨_, transformDimacs_ok order (fits_of_terminated h), hprinted, ?_⟩
  intro σ hσ τ hτ hsame
  obtain ⟨answer, hanswer, -, hback⟩ := hprinted σ hσ
  obtain ⟨answer', hanswer', -, hback'⟩ := hprinted τ hτ
  rw [hanswer, hanswer', Option.some.injEq] at hsame
  rw [← hback, ← hback', hsame]

/-- Eleven variables: an answer has `Var1=1` in front of `Var2=`, and `Var11=`. -/
def closeNames : DimacsDto := ⟨[], some "cnf".toList, 11, 1, [⟨[-11, 1, 0]⟩]⟩

theorem the_answers_of_close_names_are_read_back :
    ∃ text, transformDimacs .insertion closeNames = .ok text ∧ (solutions text).Nonempty ∧
      (∀ σ ∈ solutions text, ∃ answer, printedBy text σ = some answer ∧
        Shows 11 σ answer ∧ readAnswer answer = σ) ∧
      ∀ σ ∈ solutions text, ∀ τ ∈ solutions text, printedBy text σ = printedBy text τ → σ = τ := by
  have hc : PlainComments closeNames := by simp [PlainComments, closeNames]
  have hterminated : ∀ c ∈ closeNames.clausesDto, Terminated closeNames.variables' c := by
    intro c hc
    rw [List.mem_singleton.mp hc]
    exact ⟨[-11, 1], rfl, by decide, by decide⟩
  have hmodels := models_modelText .insertion hc (by decide) hterminated
  obtain ⟨text, htext, hrest⟩ :=
    an_answer_determines_its_solution .insertion hc (by decide) hterminated
  refine ⟨text, htext, ?_, hrest⟩
  rw [transformDimacs_ok .insertion (fits_of_terminated hterminated), Except.ok.injEq] at htext
  rw [← htext]
  have hsatisfies : Satisfies (fun _ => true)
      (formula closeNames.variables' (valueLists closeNames)) := by
    unfold Satisfies
    decide
  exact ⟨_, hmodels.bijective.mapsTo hsatisfies⟩

end reductor.transformer
