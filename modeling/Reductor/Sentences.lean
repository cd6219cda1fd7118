-- The texts that a file may give, whatever its lines hold: when they are
-- sentences of the grammar, and which parts of the file they stand for.
import Reductor.Comments
import Reductor.Entries
import Reductor.Items

open reductor.java reductor.dimacs reductor.minizinc

namespace reductor.transformer

/-! ## The grammar -/

/-- Pairs of declarations, complement constraints, sums of one name or more,
and the two items at the end, with something to print. -/
def InGrammar (items : List Item) : Prop :=
  ∃ (is js : List Nat) (sums : List (List Text)) (elements : List OutputElement),
    items = is.flatMap declarationItems ++ js.map complementItem ++
      sums.map (fun terms => .constraint ⟨terms, .ge, 1⟩) ++ [.solve, .output elements] ∧
    (∀ terms ∈ sums, terms ≠ []) ∧ elements ≠ []

/-- Comment lines, and then a text without a comment that is in the grammar. -/
def Sentence (text : Text) : Prop :=
  ∃ (comments : List Text) (body : Text) (items : List Item),
    (∀ comment ∈ comments, '\n' ∉ comment) ∧ text = comments.flatMap commentLine ++ body ∧
      '%' ∉ body ∧ parse body = some items ∧ InGrammar items

theorem Sentence.parses {text : Text} (h : Sentence text) : ∃ items, parse text = some items := by
  obtain ⟨comments, body, items, hcomments, rfl, -, hparse, -⟩ := h
  exact ⟨items, by rw [parse_append_of_scans (scans_commentLines hcomments), hparse]⟩

theorem inGrammar_modelItems (order : Order) {dimacs : DimacsDto}
    (hpos : 0 < dimacs.variables'.toInt)
    (h : ∀ c ∈ dimacs.clausesDto, LeavesConstraint dimacs.variables' c.values) :
    InGrammar (modelItems order dimacs) := by
  refine ⟨indices order dimacs.variables', indices order dimacs.variables',
    dimacs.clausesDto.map fun c => (clauseConstraint dimacs.variables' c.values).terms,
    (indices order dimacs.variables').flatMap entryElements, ?_, ?_, ?_⟩
  · rw [List.map_map]
    rfl
  · intro terms hterms
    obtain ⟨c, hc, rfl⟩ := List.mem_map.mp hterms
    exact clauseConstraint_terms_ne_nil (h c hc)
  · cases hi : indices order dimacs.variables' with
    | nil => exact absurd (indices_eq_nil_iff.mp hi) (by omega)
    | cons i is => simp [entryElements]

/-- An emitted text is a sentence just when there is a variable and every
clause line leaves a clause constraint. -/
theorem sentence_modelText_iff (order : Order) {dimacs : DimacsDto} (h : Fits dimacs)
    (hc : PlainComments dimacs) :
    Sentence (modelText order dimacs) ↔
      0 < dimacs.variables'.toInt ∧
        ∀ c ∈ dimacs.clausesDto, LeavesConstraint dimacs.variables' c.values := by
  constructor
  · intro hs
    obtain ⟨items, hparse⟩ := hs.parses
    obtain ⟨hpos, hclauses, -⟩ := (parse_modelText_eq_some_iff order h hc items).mp hparse
    exact ⟨hpos, hclauses⟩
  · rintro ⟨hpos, hclauses⟩
    have hparse := parse_modelText_ok order hc hpos hclauses
    rw [modelText, parse_append_of_scans (scans_commentLines hc)] at hparse
    exact ⟨dimacs.comments, bodyText order dimacs, modelItems order dimacs, hc, rfl,
      percent_notMem_bodyText order dimacs, hparse, inGrammar_modelItems order hpos hclauses⟩

/-! ## Well formed or rejected -/

/-- Whatever the lines give is a sentence. -/
def SentenceOrRejected (order : Order) (lines : List Line) : Prop :=
  ∀ text, process order lines = .ok text → Sentence text

theorem sentence_or_rejected_iff (order : Order) (lines : List Line) :
    SentenceOrRejected order lines ↔
      (∃ l ∈ lines, ¬ Readable l) ∨
      (∃ l ∈ clauseLines lines, 10 < overhang (headerVariables lines) (clauseValues l)) ∨
      (0 < (headerVariables lines).toInt ∧
        ∀ l ∈ clauseLines lines, LeavesConstraint (headerVariables lines) (clauseValues l)) := by
  apply forall_process_iff
  intro hfits
  rw [sentence_modelText_iff order hfits (plainComments_dtoOf lines),
    forall_clausesDto_iff (P := LeavesConstraint _)]
  exact Iff.rfl

/-- The end marker of a SATLIB file is read as two more clauses. -/
theorem the_end_marker_is_no_sentence :
    ¬ SentenceOrRejected .insertion (read "p cnf 1 1\n1 0\n%\n0".toList) := by
  intro h
  obtain ⟨text, hprocess, hparse⟩ : ∃ text,
      process .insertion (read "p cnf 1 1\n1 0\n%\n0".toList) = .ok text ∧ parse text = none :=
    ⟨modelText .insertion ⟨[], none, 1, 1, [⟨[1, 0]⟩, ⟨[]⟩, ⟨[0]⟩]⟩, by decide +kernel,
      by decide +kernel⟩
  obtain ⟨items, hitems⟩ := (h text hprocess).parses
  rw [hparse] at hitems
  cases hitems

/-! ## What a text stands for -/

/-- The sum of a clause constraint. -/
def sum? : Item → Option (List Text)
  | .constraint ⟨terms, .ge, _⟩ => some terms
  | _ => none

/-- The sums of the clause constraints of a text. -/
def clauseSums (text : Text) : Option (List (List Text)) :=
  (parse text).map (·.filterMap sum?)

/-- The model has a clause constraint for each clause that the header counts,
and each token of a clause line is an integer of its clause. -/
structure StandsForFile (lines : List Line) (dimacs : DimacsDto) (text : Text) : Prop where
  count : (clauseSums text).map (fun sums => (sums.length : Int)) = some dimacs.clauses.toInt
  decoded : List.Forall₂ (fun l c => List.Forall₂ Reads (tokens l) c.values) (clauseLines lines)
    dimacs.clausesDto

/-- The statement of a clause: its operands and the operators between them. -/
def sumText (operands : List Text) : Text :=
  "constraint ".toList ++ " +  ".toList.intercalate operands ++ " >= 1;\n".toList

/-- The operand of a literal, as far as its variable is one of those of the header. -/
def IsOperand (count v : Int32) (t : Text) : Prop :=
  InRange count v → t = if v < 0 then negName v.toInt.natAbs else varName v.toInt.natAbs

/-- A line of literals that ends in its only 0 gives the statement with an
operand for each of them. -/
def EmitsSum (count : Int32) (l : Line) (piece : Text) : Prop :=
  ∀ ls, (tokens l).filterMap parseInt = ls ++ [0] → ls ≠ [] → (0 : Int32) ∉ ls →
    ∃ operands, piece = sumText operands ∧ List.Forall₂ (IsOperand count) ls operands

/-- The sum is that of a line of literals that ends in its only 0. -/
def IsSum (count : Int32) (l : Line) (terms : List Text) : Prop :=
  ∃ ls, (tokens l).filterMap parseInt = ls ++ [0] ∧ List.Forall₂ (IsOperand count) ls terms

/-- The text is the comments, the declarations of the variables, their
complement constraints, a piece for each clause line, and the two items at the
end. The integers of a clause line are those of its tokens that are integers.
When all lines are clauses, the sums of the text are theirs, line after line. -/
structure StandsForClauseLines (lines : List Line) (dimacs : DimacsDto) (text : Text) : Prop where
  decoded : List.Forall₂ (fun l c => c.values = (tokens l).filterMap parseInt) (clauseLines lines)
    dimacs.clausesDto
  emitted : ∃ names pieces : List Text,
    names.Perm ((List.range dimacs.variables'.toInt.toNat).map fun i => varName (i + 1)) ∧
    text = dimacs.comments.flatMap commentLine ++
      names.flatMap declaration ++ names.flatMap complement ++ pieces.flatten ++
      "solve satisfy;\n".toList ++
      (("output [".toList ++ names.flatMap outputEntry).rdrop 2 ++ "];".toList) ∧
    List.Forall₂ (EmitsSum dimacs.variables') (clauseLines lines) pieces
  counted : 0 < dimacs.variables'.toInt →
    (∀ l ∈ clauseLines lines, Terminated dimacs.variables' ⟨(tokens l).filterMap parseInt⟩) →
    ∃ sums, clauseSums text = some sums ∧
      List.Forall₂ (IsSum dimacs.variables') (clauseLines lines) sums

theorem isOperand_literalName (count v : Int32) : IsOperand count v (literalName count v) :=
  literalName_of_inRange

theorem forall₂_isOperand (count : Int32) (ls : List Int32) :
    List.Forall₂ (IsOperand count) ls (ls.map (literalName count)) := by
  rw [List.forall₂_map_right_iff, List.forall₂_same]
  exact fun v _ => isOperand_literalName count v

section

attribute [local irreducible] String.toList

theorem operand_without_operator (count v : Int32) :
    (operand count v).take ((operand count v).length - 2) =
      " ".toList ++ literalName count v ++ " ".toList := by
  have hsep : " + ".toList = " ".toList ++ ['+', ' '] := by decide +kernel
  have hcut : operand count v = " ".toList ++ literalName count v ++ " ".toList ++ ['+', ' '] := by
    rw [operand, hsep, List.append_assoc _ " ".toList]
  rw [hcut, List.length_append]
  exact List.take_left' rfl

/-- One 0 takes the operator after the last literal. -/
theorem leftText_terminated (count : Int32) {ls : List Int32} (hne : ls ≠ [])
    (h0 : (0 : Int32) ∉ ls) : leftText count (ls ++ [0]) =
      " ".toList ++ " +  ".toList.intercalate (ls.map (literalName count)) ++ " ".toList := by
  induction ls with
  | nil => exact absurd rfl hne
  | cons v ls ih =>
    have hv : v ≠ 0 := fun h => h0 (h ▸ List.mem_cons_self)
    have h0 : (0 : Int32) ∉ ls := fun h => h0 (List.mem_cons_of_mem v h)
    cases ls with
    | nil =>
      have hover : overhang count ([] ++ [0]) = 2 := rfl
      have hleft : left count ([] ++ [0]) = [] := rfl
      rw [leftText, List.cons_append, left, if_neg hv, hover, hleft, List.flatMap_cons,
        List.flatMap_nil, List.append_nil, List.map_singleton, List.intercalate_singleton]
      exact operand_without_operator count v
    | cons w ls =>
      have hrest := ih (List.cons_ne_nil w ls) h0
      have hover := (left_terminated count h0 (List.cons_ne_nil w ls)).1
      have hsep : " + ".toList ++ " ".toList = " +  ".toList := by decide +kernel
      rw [leftText] at hrest
      rw [leftText, List.cons_append, left, if_neg hv, hover, List.flatMap_cons, hrest,
        Nat.sub_zero, List.take_length]
      simp only [List.map_cons, List.intercalate_cons_cons, operand, ← hsep, List.append_assoc]

theorem emitsSum_clauseText (count : Int32) (l : Line) :
    EmitsSum count l (clauseText count (clauseValues l)) := by
  intro ls hls hne h0
  refine ⟨ls.map (literalName count), ?_, forall₂_isOperand count ls⟩
  have hvalues : clauseValues l = ls ++ [0] := hls
  have hstart : "constraint".toList.take (10 - 0) ++ " ".toList = "constraint ".toList := by
    decide +kernel
  have hend : " ".toList ++ ">= 1;\n".toList = " >= 1;\n".toList := by decide +kernel
  rw [hvalues]
  delta clauseText sumText
  rw [(left_terminated count h0 hne).1, leftText_terminated count hne h0, ← hstart, ← hend]
  simp only [List.append_assoc]

end

/-- The text of a model, with the two characters at the end of the output loop cut off. -/
theorem modelText_eq (order : Order) (dimacs : DimacsDto) :
    modelText order dimacs = dimacs.comments.flatMap commentLine ++
      ((indices order dimacs.variables').map varName).flatMap declaration ++
      ((indices order dimacs.variables').map varName).flatMap complement ++
      (dimacs.clausesDto.map fun c => clauseText dimacs.variables' c.values).flatten ++
      "solve satisfy;\n".toList ++
      (("output [".toList ++ ((indices order dimacs.variables').map varName).flatMap
        outputEntry).rdrop 2 ++ "];".toList) := by
  obtain ⟨t, c, d, hloop, htext⟩ := outputLoop_eq (indices order dimacs.variables')
  have hend : (t ++ [c, d]).rdrop 2 = t := by
    rw [List.rdrop_eq_reverse_drop_reverse, List.reverse_append]
    exact List.reverse_reverse t
  simp only [List.flatMap_map]
  rw [hloop, hend, htext, modelText, bodyText, List.flatMap_def (l := dimacs.clausesDto)]
  simp only [List.append_assoc]

theorem clauseSums_modelText (order : Order) {dimacs : DimacsDto} (hc : PlainComments dimacs)
    (hpos : 0 < dimacs.variables'.toInt)
    (h : ∀ c ∈ dimacs.clausesDto, LeavesConstraint dimacs.variables' c.values) :
    clauseSums (modelText order dimacs) =
      some (dimacs.clausesDto.map
        fun c => (clauseConstraint dimacs.variables' c.values).terms) := by
  have hnone : ∀ items : List Item, (∀ item ∈ items, sum? item = none) →
      items.filterMap sum? = [] := fun items => List.filterMap_eq_nil_iff.mpr
  have hdeclarations : ((indices order dimacs.variables').flatMap declarationItems).filterMap
      sum? = [] := by
    refine hnone _ fun item hitem => ?_
    obtain ⟨i, -, hi⟩ := List.mem_flatMap.mp hitem
    simp only [declarationItems, List.mem_cons, List.not_mem_nil, or_false] at hi
    rcases hi with rfl | rfl <;> rfl
  have hcomplements : ((indices order dimacs.variables').map complementItem).filterMap sum? =
      [] := by
    refine hnone _ fun item hitem => ?_
    obtain ⟨i, -, rfl⟩ := List.mem_map.mp hitem
    rfl
  rw [clauseSums, parse_modelText_ok order hc hpos h, Option.map_some, modelItems,
    List.filterMap_append, List.filterMap_append, List.filterMap_append, hdeclarations,
    hcomplements, List.filterMap_map, hnone [.solve, _] (by simp [sum?]), List.append_nil,
    List.nil_append, List.nil_append]
  exact congrArg some (congrFun List.filterMap_eq_map dimacs.clausesDto)

/-- The text of a file stands for its clause lines, and for what the reader
takes for integers in them: not for the clause count of the header. -/
theorem a_model_stands_for_the_clause_lines (order : Order) {lines : List Line}
    {dimacs : DimacsDto} {text : Text} (hread : deserialize lines = .ok dimacs)
    (htext : transformDimacs order dimacs = .ok text) : StandsForClauseLines lines dimacs text := by
  obtain ⟨-, rfl⟩ := deserialize_eq_ok_iff.mp hread
  obtain ⟨hfits, rfl⟩ := transformDimacs_eq_ok_iff.mp htext
  refine ⟨?_, ?_, fun hpos hterminated => ?_⟩
  · rw [dtoOf, List.forall₂_map_right_iff, List.forall₂_same]
    exact fun _ _ => rfl
  · refine ⟨(indices order (headerVariables lines)).map varName,
      (clauseLines lines).map fun l => clauseText (headerVariables lines) (clauseValues l),
      ?_, ?_, ?_⟩
    · have hperm := (indices_perm order (headerVariables lines)).map varName
      rwa [List.map_map] at hperm
    · have htext := modelText_eq order (dtoOf lines)
      have hpieces : ((dtoOf lines).clausesDto.map fun c =>
          clauseText (dtoOf lines).variables' c.values) = (clauseLines lines).map fun l =>
            clauseText (headerVariables lines) (clauseValues l) := by
        show ((clauseLines lines).map fun l => (⟨clauseValues l⟩ : ClausesDto)).map _ = _
        rw [List.map_map]
        rfl
      rw [hpieces] at htext
      exact htext
    · rw [List.forall₂_map_right_iff, List.forall₂_same]
      exact fun l _ => emitsSum_clauseText _ l
  · have hclauses : ∀ c ∈ (dtoOf lines).clausesDto, Terminated (dtoOf lines).variables' c := by
      intro c hc
      obtain ⟨l, hl, rfl⟩ := List.mem_map.mp hc
      exact hterminated l hl
    refine ⟨_, clauseSums_modelText order (plainComments_dtoOf lines) hpos
      fun c hc => (hclauses c hc).leavesConstraint, ?_⟩
    show List.Forall₂ (IsSum (headerVariables lines)) _
      (((clauseLines lines).map fun l => (⟨clauseValues l⟩ : ClausesDto)).map _)
    rw [List.map_map, List.forall₂_map_right_iff, List.forall₂_same]
    intro l hl
    obtain ⟨ls, hls, hne, hrange⟩ := hterminated l hl
    have hvalues : clauseValues l = ls ++ [0] := hls
    have hrange : ∀ v ∈ ls, InRange (headerVariables lines) v := hrange
    refine ⟨ls, hls, ?_⟩
    show List.Forall₂ _ ls (clauseConstraint (headerVariables lines) (clauseValues l)).terms
    rw [hvalues, clauseConstraint_terminated hne hrange]
    exact forall₂_isOperand _ ls

/-- A file with one clause line where the header counts two, and with a token that is no integer. -/
def shortFile : List Line := read "p cnf 2 2\n1 x 2 0".toList

def shortDimacs : DimacsDto := ⟨[], some "cnf".toList, 2, 2, [⟨[1, 2, 0]⟩]⟩

theorem fits_shortDimacs : Fits shortDimacs := by decide

theorem the_short_file_stands_for_its_clause_line :
    StandsForClauseLines shortFile shortDimacs (modelText .insertion shortDimacs) :=
  a_model_stands_for_the_clause_lines .insertion (by decide +kernel)
    (transformDimacs_ok .insertion fits_shortDimacs)

/-- The clause that is missing and the token that is dropped go unnoticed. -/
theorem the_short_file_loses_a_clause_and_a_token :
    deserialize shortFile = .ok shortDimacs ∧
      transformDimacs .insertion shortDimacs = .ok (modelText .insertion shortDimacs) ∧
      clauseSums (modelText .insertion shortDimacs) = some [["Var1".toList, "Var2".toList]] ∧
      (∀ l ∈ clauseLines shortFile, ¬ List.Forall₂ Reads (tokens l) [1, 2, 0]) ∧
      ¬ StandsForFile shortFile shortDimacs (modelText .insertion shortDimacs) := by
  have hsums : clauseSums (modelText .insertion shortDimacs) =
      some [["Var1".toList, "Var2".toList]] := by decide +kernel
  have htokens : ∀ l ∈ clauseLines shortFile, (tokens l).length = 4 := by decide +kernel
  refine ⟨by decide +kernel, transformDimacs_ok .insertion fits_shortDimacs, hsums,
    fun l hl h => ?_, fun h => ?_⟩
  · have hlength := h.length_eq
    rw [htokens l hl] at hlength
    cases hlength
  · have htwo := h.count
    rw [hsums] at htwo
    cases htwo

end reductor.transformer
