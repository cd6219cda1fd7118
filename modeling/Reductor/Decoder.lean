-- A decoder of emitted texts: a text determines the comments, the variable
-- count and the clauses that it was made from.
import Reductor.Comments
import Reductor.Items

open reductor.java reductor.dimacs reductor.minizinc

namespace reductor.transformer

/-! ## The decoder -/

/-- The literal that an identifier stands for. -/
def decodeName : Text → Option Int32
  | 'V' :: 'a' :: 'r' :: digits => some (Int32.ofNat (Nat.ofDigitChars 10 digits 0))
  | 'n' :: '_' :: 'V' :: 'a' :: 'r' :: digits => some (-Int32.ofNat (Nat.ofDigitChars 10 digits 0))
  | _ => none

/-- The values of a clause constraint, with the 0 that ends them. -/
def decodeItem : Item → Option ClausesDto
  | .constraint ⟨terms, .ge, _⟩ => some ⟨terms.filterMap decodeName ++ [0]⟩
  | _ => none

/-- The comments, half the number of declarations, and the clause constraints. -/
def decode (text : Text) : Option (List Text × Int32 × List ClausesDto) :=
  let (comments, body) := splitComments none text
  (parse body).map fun items =>
    (comments.map (·.drop 1), Int32.ofNat ((declared items).length / 2), items.filterMap decodeItem)

/-- A problem as DIMACS has it: a variable or more, comments of one line
each, and clauses of literals in range with one 0 each. -/
structure Proper (dimacs : DimacsDto) : Prop where
  comments : PlainComments dimacs
  variables' : 1 ≤ dimacs.variables'.toInt
  clauses : ∀ c ∈ dimacs.clausesDto, Terminated dimacs.variables' c

/-! ## Each part decoded -/

theorem decodeName_varName (i : Nat) : decodeName (varName i) = some (Int32.ofNat i) := by
  show some (Int32.ofNat (Nat.ofDigitChars 10 (Nat.toDigits 10 i) 0)) = _
  rw [Nat.ofDigitChars_ten_toDigits]

theorem decodeName_negName (i : Nat) : decodeName (negName i) = some (-Int32.ofNat i) := by
  show some (-Int32.ofNat (Nat.ofDigitChars 10 (Nat.toDigits 10 i) 0)) = _
  rw [Nat.ofDigitChars_ten_toDigits]

theorem decodeName_literalName {count v : Int32} (h : InRange count v) :
    decodeName (literalName count v) = some v := by
  have hle := h.2
  have hcount := count.toInt_lt
  rw [literalName_of_inRange h]
  split
  · rename_i hneg
    rw [int32_lt_zero_iff] at hneg
    rw [decodeName_negName, Option.some.injEq, ← Int32.toInt_inj, Int32.toInt_neg,
      toInt_ofNat (by omega), Int.bmod_eq_of_le (by omega) (by omega)]
    omega
  · rename_i hneg
    rw [int32_lt_zero_iff] at hneg
    rw [decodeName_varName, Option.some.injEq, ← Int32.toInt_inj, toInt_ofNat (by omega)]
    omega

theorem filterMap_decodeName {count : Int32} {ls : List Int32} (h : ∀ v ∈ ls, InRange count v) :
    (ls.map (literalName count)).filterMap decodeName = ls := by
  induction ls with
  | nil => rfl
  | cons v ls ih =>
    rw [List.map_cons, List.filterMap_cons_some (decodeName_literalName (h v List.mem_cons_self)),
      ih fun w hw => h w (List.mem_cons_of_mem v hw)]

theorem decodeItem_clauseConstraint {count : Int32} {c : ClausesDto} (h : Terminated count c) :
    decodeItem (.constraint (clauseConstraint count c.values)) = some c := by
  obtain ⟨ls, hls, hne, hrange⟩ := h
  rw [hls, clauseConstraint_terminated hne hrange, decodeItem, filterMap_decodeName hrange, ← hls]

/-- Only the clause constraints give clauses. -/
theorem filterMap_decodeItem (order : Order) {dimacs : DimacsDto}
    (h : ∀ c ∈ dimacs.clausesDto, Terminated dimacs.variables' c) :
    (modelItems order dimacs).filterMap decodeItem = dimacs.clausesDto := by
  have hdeclarations : ∀ is : List Nat,
      (is.flatMap declarationItems).filterMap decodeItem = [] := by
    intro is
    rw [List.filterMap_eq_nil_iff]
    intro item hitem
    obtain ⟨i, -, hi⟩ := List.mem_flatMap.mp hitem
    simp only [declarationItems, List.mem_cons, List.not_mem_nil, or_false] at hi
    rcases hi with rfl | rfl <;> rfl
  have hcomplements : ∀ is : List Nat, (is.map complementItem).filterMap decodeItem = [] := by
    intro is
    rw [List.filterMap_map, List.filterMap_eq_nil_iff]
    exact fun _ _ => rfl
  have hclauses : ∀ cs : List ClausesDto, (∀ c ∈ cs, Terminated dimacs.variables' c) →
      (cs.map fun c => Item.constraint (clauseConstraint dimacs.variables' c.values)).filterMap
        decodeItem = cs := by
    intro cs hcs
    induction cs with
    | nil => rfl
    | cons c cs ih =>
      rw [List.map_cons, List.filterMap_cons_some
        (decodeItem_clauseConstraint (hcs c List.mem_cons_self)),
        ih fun d hd => hcs d (List.mem_cons_of_mem c hd)]
  unfold modelItems
  rw [List.filterMap_append, List.filterMap_append, List.filterMap_append, hdeclarations,
    hcomplements, hclauses _ h]
  exact List.append_nil _

theorem declared_modelItems_length (order : Order) (dimacs : DimacsDto) :
    (declared (modelItems order dimacs)).length = 2 * dimacs.variables'.toInt.toNat := by
  have hlen := (indices_perm order dimacs.variables').length_eq
  rw [List.length_map, List.length_range] at hlen
  have hpairs : ∀ is : List Nat, (is.flatMap fun i => [varName i, negName i]).length =
      2 * is.length := by
    intro is
    induction is with
    | nil => rfl
    | cons i is ih =>
      rw [List.flatMap_cons, List.length_append, ih, Nat.add_comm]
      rfl
  rw [declared_modelItems, hpairs, hlen]

theorem decode_modelText (order : Order) {dimacs : DimacsDto} (h : Proper dimacs) :
    decode (modelText order dimacs) =
      some (dimacs.comments, dimacs.variables', dimacs.clausesDto) := by
  have hleaves := fun c hc => (h.clauses c hc).leavesConstraint
  have hparse := parse_modelText_ok order h.comments h.variables' hleaves
  rw [modelText, parse_append_of_scans (scans_commentLines h.comments)] at hparse
  have hcomments : (dimacs.comments.map (' ' :: ·)).map (·.drop 1) = dimacs.comments := by
    rw [List.map_map]
    exact List.map_id _
  have hcount : Int32.ofNat (dimacs.variables'.toInt.toNat) = dimacs.variables' := by
    have hlt := dimacs.variables'.toInt_lt
    have hpos := h.variables'
    rw [← Int32.toInt_inj, toInt_ofNat (by omega)]
    omega
  unfold decode
  rw [splitComments_modelText order h.comments]
  simp only [hparse, Option.map_some, hcomments, declared_modelItems_length,
    filterMap_decodeItem order h.clauses]
  rw [Nat.mul_div_cancel_left _ Nat.zero_lt_two, hcount]

/-! ## The text determines the problem -/

/-- The decoder gives back the comments, the variable count and the clauses.
So two problems that give one text are the same in these. -/
theorem a_text_determines_its_problem :
    (∀ (order : Order) (dimacs : DimacsDto), Proper dimacs →
      ∃ text, transformDimacs order dimacs = .ok text ∧
        decode text = some (dimacs.comments, dimacs.variables', dimacs.clausesDto)) ∧
    ∀ (order order' : Order) (dimacs dimacs' : DimacsDto), Proper dimacs → Proper dimacs' →
      transformDimacs order dimacs = transformDimacs order' dimacs' →
        dimacs.comments = dimacs'.comments ∧ dimacs.variables' = dimacs'.variables' ∧
          dimacs.clausesDto = dimacs'.clausesDto := by
  have hdecode : ∀ (order : Order) (dimacs : DimacsDto), Proper dimacs →
      ∃ text, transformDimacs order dimacs = .ok text ∧
        decode text = some (dimacs.comments, dimacs.variables', dimacs.clausesDto) :=
    fun order dimacs h =>
      ⟨_, transformDimacs_ok order (fits_of_terminated h.clauses), decode_modelText order h⟩
  refine ⟨hdecode, ?_⟩
  intro order order' dimacs dimacs' h h' heq
  obtain ⟨text, htext, hd⟩ := hdecode order dimacs h
  obtain ⟨text', htext', hd'⟩ := hdecode order' dimacs' h'
  rw [htext, htext', Except.ok.injEq] at heq
  rw [heq, hd', Option.some.injEq, Prod.mk.injEq, Prod.mk.injEq] at hd
  exact ⟨hd.1.symm, hd.2.1.symm, hd.2.2.symm⟩

/-- Names that are the starts of one another, and a comment that looks like code. -/
theorem the_text_of_close_names_is_decoded :
    ∃ text, transformDimacs .insertion
        ⟨["solve satisfy;".toList], none, 11, 1, [⟨[-11, 1, 11, 1, 0]⟩]⟩ = .ok text ∧
      decode text = some (["solve satisfy;".toList], 11, [⟨[-11, 1, 11, 1, 0]⟩]) := by
  refine a_text_determines_its_problem.1 _ _ ⟨?_, by decide, ?_⟩
  · unfold PlainComments
    decide
  · intro c hc
    rw [List.mem_singleton] at hc
    exact ⟨[-11, 1, 11, 1], by rw [hc]; rfl, by decide, by decide⟩

end reductor.transformer
