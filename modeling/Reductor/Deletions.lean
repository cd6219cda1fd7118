-- The deletions of a run of `transformDimacs`: on which buffer each call of
-- `delete(length - 2, length)` is made, and whether the separator that it
-- should remove is what it removes.
import Reductor.Emitted
import Mathlib.Data.List.Chain

open reductor.java reductor.dimacs

namespace reductor.transformer

attribute [local irreducible] String.toList

/-! ## The calls of a run -/

/-- A call of `delete`: its buffer, and what the call on the same buffer just
before it appended, if that one was an `append`. -/
structure DeleteCall where
  builder : Text
  appended : Option Text
  deriving DecidableEq, Repr

/-- The calls of the literal loop, up to one that throws. -/
def valueCalls (variables' : HashMap Int32 Text) (clausesBuilder : Text) (appended : Option Text) :
    List Int32 → List DeleteCall
  | [] => []
  | value :: values =>
    let calls := if value = 0 then [⟨clausesBuilder, appended⟩] else []
    match appendValue variables' clausesBuilder value with
    | .error _ => calls
    | .ok builder =>
      calls ++ valueCalls variables' builder
        (if value = 0 then none else some (builder.drop clausesBuilder.length)) values

/-- The calls for one clause: its buffer is new, with the keyword appended. -/
def clauseCalls (variables' : HashMap Int32 Text) (clauses : ClausesDto) : List DeleteCall :=
  valueCalls variables' "constraint".toList (some "constraint".toList) clauses.values

/-- The calls of the clause loop, up to a clause that throws. -/
def clausesCalls (variables' : HashMap Int32 Text) : List ClausesDto → List DeleteCall
  | [] => []
  | clauses :: rest =>
    match clauseLine variables' clauses with
    | .error _ => clauseCalls variables' clauses
    | .ok _ => clauseCalls variables' clauses ++ clausesCalls variables' rest

/-- `transformDimacs` up to its last deletion: `builder` at that call. -/
def beforeDelete (order : Order) (dimacs : DimacsDto) : Except Thrown Text := do
  let builder := dimacs.comments.foldl (fun builder comment => builder ++ commentLine comment) []
  let variables' := variableMap dimacs.variables'
  let builder := (variables'.values order).foldl (fun b variable' => b ++ declaration variable')
    builder
  let builder := (variables'.values order).foldl (fun b variable' => b ++ complement variable')
    builder
  let builder ← dimacs.clausesDto.foldlM (fun b clauses => do
    return b ++ (← clauseLine variables' clauses)) builder
  let builder := builder ++ "solve satisfy;\n".toList
  let builder := builder ++ "output [".toList
  return (variables'.values order).foldl (fun b variable' => b ++ outputEntry variable') builder

/-- What was appended last before the last deletion. -/
def lastAppended (order : Order) (dimacs : DimacsDto) : Text :=
  (((variableMap dimacs.variables').values order).getLast?.map outputEntry).getD "output [".toList

/-- All calls of a run, in their order. -/
def deleteCalls (order : Order) (dimacs : DimacsDto) : List DeleteCall :=
  clausesCalls (variableMap dimacs.variables') dimacs.clausesDto ++
    match beforeDelete order dimacs with
    | .error _ => []
    | .ok builder => [⟨builder, some (lastAppended order dimacs)⟩]

theorem transformDimacs_eq (order : Order) (dimacs : DimacsDto) :
    transformDimacs order dimacs = (do
      let builder ← beforeDelete order dimacs
      let builder ← delete builder (builder.length - 2) builder.length
      return builder ++ "];".toList) := by
  unfold transformDimacs beforeDelete
  simp only [bind_assoc, pure_bind]

/-! ## Calls in range -/

/-- A literal appends a text that ends in the operator. -/
theorem appendValue_of_ne_zero (variables' : HashMap Int32 Text) (clausesBuilder : Text)
    {value : Int32} (h : value ≠ 0) : ∃ front,
      appendValue variables' clausesBuilder value =
        .ok (clausesBuilder ++ (front ++ "+ ".toList)) := by
  have hplus : " + ".toList = " ".toList ++ "+ ".toList := by decide +kernel
  unfold appendValue
  by_cases hneg : value < 0
  · rw [if_pos hneg]
    refine ⟨" n_".toList ++ formatted (variables'.get (mathAbs value)) ++ " ".toList, ?_⟩
    rw [hplus]
    simp only [List.append_assoc]
  · have hpos : 0 < value := by
      rw [int32_lt_zero_iff] at hneg
      rw [int32_zero_lt_iff]
      have := mt toInt_eq_zero_iff.mp h
      omega
    rw [if_neg hneg, if_pos hpos]
    refine ⟨" ".toList ++ formatted (variables'.get value) ++ " ".toList, ?_⟩
    rw [hplus]
    simp only [List.append_assoc]

theorem appendValue_zero (variables' : HashMap Int32 Text) (clausesBuilder : Text) :
    appendValue variables' clausesBuilder 0 =
      delete clausesBuilder (clausesBuilder.length - 2) clausesBuilder.length := rfl

theorem valueCalls_of_ne_zero {variables' : HashMap Int32 Text} {clausesBuilder text : Text}
    {value : Int32} (h : value ≠ 0)
    (hok : appendValue variables' clausesBuilder value = .ok (clausesBuilder ++ text))
    (appended : Option Text) (values : List Int32) :
    valueCalls variables' clausesBuilder appended (value :: values) =
      valueCalls variables' (clausesBuilder ++ text) (some text) values := by
  rw [valueCalls, hok, if_neg h]
  dsimp only
  rw [if_neg h, List.nil_append, List.drop_left]

theorem valueCalls_zero_error {clausesBuilder : Text} (h : clausesBuilder.length < 2)
    (variables' : HashMap Int32 Text) (appended : Option Text) (values : List Int32) :
    valueCalls variables' clausesBuilder appended (0 :: values) = [⟨clausesBuilder, appended⟩] := by
  rw [valueCalls, appendValue_zero, delete_tail, if_pos h]
  rfl

theorem valueCalls_zero_ok {clausesBuilder : Text} (h : 2 ≤ clausesBuilder.length)
    (variables' : HashMap Int32 Text) (appended : Option Text) (values : List Int32) :
    valueCalls variables' clausesBuilder appended (0 :: values) =
      ⟨clausesBuilder, appended⟩ ::
        valueCalls variables' (clausesBuilder.take (clausesBuilder.length - 2)) none values := by
  rw [valueCalls, appendValue_zero, delete_tail, if_neg (by omega)]
  rfl

theorem not_exists_ok (thrown : Thrown) :
    ¬ ∃ text, (.error thrown : Except Thrown Text) = .ok text := by
  rintro ⟨text, h⟩
  cases h

/-- The literal loop goes through just when its calls are in range. -/
theorem values_ok_iff (variables' : HashMap Int32 Text) (values : List Int32)
    (clausesBuilder : Text) (appended : Option Text) :
    (∃ text, values.foldlM (appendValue variables') clausesBuilder = .ok text) ↔
      ∀ call ∈ valueCalls variables' clausesBuilder appended values, 2 ≤ call.builder.length := by
  induction values generalizing clausesBuilder appended with
  | nil => simp [valueCalls, pure, Except.pure]
  | cons value values ih =>
    rw [List.foldlM_cons]
    by_cases hv : value = 0
    · subst hv
      rw [appendValue_zero, delete_tail]
      by_cases hlen : clausesBuilder.length < 2
      · rw [if_pos hlen, valueCalls_zero_error hlen, List.forall_mem_singleton]
        exact iff_of_false (not_exists_ok _) (Nat.not_le_of_lt hlen)
      · have hlen := Nat.le_of_not_lt hlen
        rw [if_neg (Nat.not_lt_of_le hlen), valueCalls_zero_ok hlen, List.forall_mem_cons,
          ← ih _ none]
        exact (and_iff_right hlen).symm
    · obtain ⟨front, hok⟩ := appendValue_of_ne_zero variables' clausesBuilder hv
      rw [valueCalls_of_ne_zero hv hok, hok, ← ih]
      rfl

theorem clauseLine_ok_iff (variables' : HashMap Int32 Text) (clauses : ClausesDto) :
    (∃ text, clauseLine variables' clauses = .ok text) ↔
      ∀ call ∈ clauseCalls variables' clauses, 2 ≤ call.builder.length := by
  rw [clauseCalls, ← values_ok_iff, clauseLine]
  cases clauses.values.foldlM (appendValue variables') "constraint".toList with
  | error thrown => exact iff_of_false (not_exists_ok _) (not_exists_ok _)
  | ok builder => exact iff_of_true ⟨_, rfl⟩ ⟨_, rfl⟩

/-- A clause that throws has a call out of range, so what is in range at every
call that was made holds at the calls of every clause. -/
theorem forall_clausesCalls_iff {P : DeleteCall → Prop}
    (hP : ∀ call, P call → 2 ≤ call.builder.length)
    (variables' : HashMap Int32 Text) (clausesDto : List ClausesDto) :
    (∀ call ∈ clausesCalls variables' clausesDto, P call) ↔
      ∀ clauses ∈ clausesDto, ∀ call ∈ clauseCalls variables' clauses, P call := by
  induction clausesDto with
  | nil => simp [clausesCalls]
  | cons clauses rest ih =>
    rw [List.forall_mem_cons, ← ih, clausesCalls]
    cases hline : clauseLine variables' clauses with
    | ok text => rw [List.forall_mem_append]
    | error thrown =>
      have hbad : ¬ ∀ call ∈ clauseCalls variables' clauses, P call := by
        intro h
        obtain ⟨text, htext⟩ :=
          (clauseLine_ok_iff variables' clauses).mpr fun call hcall => hP call (h call hcall)
        rw [hline] at htext
        cases htext
      exact iff_of_false hbad fun h => hbad h.1

/-! ## The last call -/

theorem foldlM_append_ok_iff {α : Type} (f : α → Except Thrown Text) (l : List α) (b : Text) :
    (∃ text, l.foldlM (fun b x => do return b ++ (← f x)) b = .ok text) ↔
      ∀ x ∈ l, ∃ text, f x = .ok text := by
  induction l generalizing b with
  | nil => simp [pure, Except.pure]
  | cons x l ih =>
    rw [List.foldlM_cons, List.forall_mem_cons]
    cases hx : f x with
    | error thrown => exact iff_of_false (not_exists_ok _) fun h => not_exists_ok _ h.1
    | ok text =>
      rw [← ih (b ++ text)]
      exact (and_iff_right ⟨text, rfl⟩).symm

/-- The clause loop comes before the last deletion, and the output loop right in front of it. -/
theorem beforeDelete_eq (order : Order) (dimacs : DimacsDto) : ∃ b, beforeDelete order dimacs =
    (dimacs.clausesDto.foldlM (fun b clauses => do
      return b ++ (← clauseLine (variableMap dimacs.variables') clauses)) b).map fun b =>
        b ++ "solve satisfy;\n".toList ++ "output [".toList ++
          ((variableMap dimacs.variables').values order).flatMap outputEntry := by
  unfold beforeDelete
  simp only [foldl_append_flatMap]
  exact ⟨_, rfl⟩

/-- The last deletion is reached just when the calls of all clauses are in range. -/
theorem beforeDelete_ok_iff (order : Order) (dimacs : DimacsDto) :
    (∃ builder, beforeDelete order dimacs = .ok builder) ↔
      ∀ call ∈ clausesCalls (variableMap dimacs.variables') dimacs.clausesDto,
        2 ≤ call.builder.length := by
  obtain ⟨b, hb⟩ := beforeDelete_eq order dimacs
  rw [forall_clausesCalls_iff fun _ h => h]
  simp only [← clauseLine_ok_iff]
  rw [hb, ← foldlM_append_ok_iff (clauseLine (variableMap dimacs.variables')) dimacs.clausesDto b]
  cases dimacs.clausesDto.foldlM (fun b clauses => do
      return b ++ (← clauseLine (variableMap dimacs.variables') clauses)) b with
  | error thrown => simp [Except.map]
  | ok builder => simp [Except.map]

/-- The buffer of the last deletion ends in what was appended last. -/
theorem beforeDelete_ok {order : Order} {dimacs : DimacsDto} {builder : Text}
    (h : beforeDelete order dimacs = .ok builder) :
    ∃ base, builder = base ++ lastAppended order dimacs := by
  obtain ⟨b, hb⟩ := beforeDelete_eq order dimacs
  rw [hb] at h
  cases hfold : dimacs.clausesDto.foldlM (fun b clauses => do
      return b ++ (← clauseLine (variableMap dimacs.variables') clauses)) b with
  | error thrown =>
    rw [hfold] at h
    cases h
  | ok middle =>
    rw [hfold] at h
    obtain rfl := Except.ok.inj h
    unfold lastAppended
    rcases List.eq_nil_or_concat ((variableMap dimacs.variables').values order) with
      hnil | ⟨front, last, hlast⟩
    · rw [hnil]
      exact ⟨_, List.append_nil _⟩
    · rw [hlast, List.concat_eq_append, List.getLast?_append, List.flatMap_append,
        List.flatMap_singleton]
      exact ⟨_, (List.append_assoc _ _ _).symm⟩

/-- The writer returns just when every call of `delete` is in range. -/
theorem transformDimacs_ok_iff (order : Order) (dimacs : DimacsDto) :
    (∃ text, transformDimacs order dimacs = .ok text) ↔
      ∀ call ∈ deleteCalls order dimacs, 2 ≤ call.builder.length := by
  rw [transformDimacs_eq, deleteCalls, List.forall_mem_append, ← beforeDelete_ok_iff order]
  cases beforeDelete order dimacs with
  | error thrown => exact iff_of_false (not_exists_ok _) fun h => not_exists_ok _ h.1
  | ok builder =>
    rw [List.forall_mem_singleton, and_iff_right ⟨builder, rfl⟩]
    show (∃ text, (delete builder _ _).bind _ = _) ↔ _
    rw [delete_tail]
    by_cases hlen : builder.length < 2
    · rw [if_pos hlen]
      exact iff_of_false (not_exists_ok _) (Nat.not_le_of_lt hlen)
    · rw [if_neg hlen]
      exact iff_of_true ⟨_, rfl⟩ (Nat.le_of_not_lt hlen)

/-! ## Calls that remove a separator -/

def separators : List Text := ["+ ".toList, ", ".toList]

/-- The two characters that are deleted are the separator that the call just
before appended last. -/
structure DeleteCall.OfSeparator (call : DeleteCall) : Prop where
  two_le : 2 ≤ call.builder.length
  separator : ∃ separator ∈ separators, ∃ base front,
    call.appended = some (front ++ separator) ∧ call.builder = base ++ (front ++ separator)

theorem not_ofSeparator_none (builder : Text) : ¬ DeleteCall.OfSeparator ⟨builder, none⟩ := by
  rintro ⟨-, separator, -, base, front, happended, -⟩
  cases happended

/-- Right after an append, it is the text appended that matters. -/
theorem ofSeparator_append_iff (base : Text) {text : Text} :
    DeleteCall.OfSeparator ⟨base ++ text, some text⟩ ↔
      ∃ separator ∈ separators, separator <:+ text := by
  constructor
  · rintro ⟨-, separator, hmem, -, front, happended, -⟩
    exact ⟨separator, hmem, front, (Option.some.inj happended).symm⟩
  · rintro ⟨separator, hmem, front, rfl⟩
    have hlength : ∀ separator ∈ separators, separator.length = 2 := by decide +kernel
    refine ⟨?_, separator, hmem, base, front, rfl, rfl⟩
    have := hlength separator hmem
    simp only [List.length_append]
    omega

/-- Every 0 directly follows a literal. -/
def ZerosFollowLiterals (values : List Int32) : Prop :=
  values.head? ≠ some 0 ∧ values.IsChain fun v w => ¬(v = 0 ∧ w = 0)

instance (values : List Int32) : Decidable (ZerosFollowLiterals values) :=
  inferInstanceAs (Decidable (_ ∧ _))

/-- The first 0 deletes what was appended before the values, if nothing comes
in between; each other 0 needs a literal right in front of it. -/
theorem valueCalls_ofSeparator_iff (variables' : HashMap Int32 Text) (values : List Int32)
    (clausesBuilder : Text) (appended : Option Text) :
    (∀ call ∈ valueCalls variables' clausesBuilder appended values, call.OfSeparator) ↔
      (values.head? = some 0 → DeleteCall.OfSeparator ⟨clausesBuilder, appended⟩) ∧
        values.IsChain fun v w => ¬(v = 0 ∧ w = 0) := by
  induction values generalizing clausesBuilder appended with
  | nil => simp [valueCalls]
  | cons value values ih =>
    rw [List.isChain_cons]
    by_cases hv : value = 0
    · subst hv
      by_cases hlen : clausesBuilder.length < 2
      · have hbad : ¬ DeleteCall.OfSeparator ⟨clausesBuilder, appended⟩ := fun h =>
          absurd h.two_le (Nat.not_le_of_lt hlen)
        rw [valueCalls_zero_error hlen, List.forall_mem_singleton]
        exact iff_of_false hbad fun h => hbad (h.1 rfl)
      · -- After a deletion nothing has been appended, so another 0 must not follow.
        have hnext : (∀ w ∈ values.head?, ¬((0 : Int32) = 0 ∧ w = 0)) ↔
            (values.head? = some 0 → DeleteCall.OfSeparator
              ⟨clausesBuilder.take (clausesBuilder.length - 2), none⟩) := by
          constructor
          · intro h h0
            exact absurd ⟨rfl, rfl⟩ (h 0 h0)
          · rintro h w hw ⟨-, rfl⟩
            exact not_ofSeparator_none _ (h hw)
        rw [valueCalls_zero_ok (Nat.le_of_not_lt hlen), List.forall_mem_cons, ih, hnext]
        exact and_congr_left fun _ => ⟨fun h _ => h, fun h => h rfl⟩
    · obtain ⟨front, hok⟩ := appendValue_of_ne_zero variables' clausesBuilder hv
      have hgood : DeleteCall.OfSeparator
          ⟨clausesBuilder ++ (front ++ "+ ".toList), some (front ++ "+ ".toList)⟩ :=
        (ofSeparator_append_iff _).mpr ⟨_, List.mem_cons_self, front, rfl⟩
      rw [valueCalls_of_ne_zero hv hok, ih]
      constructor
      · rintro ⟨-, hchain⟩
        exact ⟨fun h => absurd (Option.some.inj h) hv, fun w _ h => hv h.1, hchain⟩
      · rintro ⟨-, -, hchain⟩
        exact ⟨fun _ => hgood, hchain⟩

/-- The keyword does not end in a separator. -/
theorem clauseCalls_ofSeparator_iff (variables' : HashMap Int32 Text) (clauses : ClausesDto) :
    (∀ call ∈ clauseCalls variables' clauses, call.OfSeparator) ↔
      ZerosFollowLiterals clauses.values := by
  have hkeyword : ¬ DeleteCall.OfSeparator ⟨"constraint".toList, some "constraint".toList⟩ := by
    have hends : ¬ ∃ separator ∈ separators, separator <:+ "constraint".toList := by decide +kernel
    exact mt (ofSeparator_append_iff []).mp hends
  rw [clauseCalls, valueCalls_ofSeparator_iff, imp_iff_not hkeyword]
  exact Iff.rfl

/-- Only with no variable is it the bracket that was appended last. -/
theorem lastAppended_ends_iff (order : Order) (dimacs : DimacsDto) :
    (∃ separator ∈ separators, separator <:+ lastAppended order dimacs) ↔
      0 < dimacs.variables'.toInt := by
  unfold lastAppended
  rw [values_variableMap]
  rcases List.eq_nil_or_concat (indices order dimacs.variables') with hnil | ⟨front, last, hlast⟩
  · have hends : ¬ ∃ separator ∈ separators, separator <:+ "output [".toList := by decide +kernel
    rw [hnil]
    exact iff_of_false hends (by simpa using indices_eq_nil_iff.mp hnil)
  · have hne : indices order dimacs.variables' ≠ [] := by
      rw [hlast]
      simp
    rw [hlast, List.concat_eq_append, List.map_append, List.getLast?_append]
    refine iff_of_true ⟨", ".toList, .tail _ (.head _), ?_⟩ ?_
    · show ", ".toList <:+ outputEntry (varName last)
      rw [outputEntry_eq]
      exact List.suffix_append _ _
    · exact Int.not_le.mp (mt indices_eq_nil_iff.mpr hne)

/-! ## Runs that remove separators only -/

/-- The writer returns, and every deletion removes a separator. -/
def DeletesSeparators (order : Order) (dimacs : DimacsDto) : Prop :=
  (∃ text, transformDimacs order dimacs = .ok text) ∧
    ∀ call ∈ deleteCalls order dimacs, call.OfSeparator

theorem deletesSeparators_iff (order : Order) (dimacs : DimacsDto) :
    DeletesSeparators order dimacs ↔
      0 < dimacs.variables'.toInt ∧
        ∀ clauses ∈ dimacs.clausesDto, ZerosFollowLiterals clauses.values := by
  have hclauses : (∀ call ∈ clausesCalls (variableMap dimacs.variables') dimacs.clausesDto,
      call.OfSeparator) ↔ ∀ clauses ∈ dimacs.clausesDto, ZerosFollowLiterals clauses.values := by
    rw [forall_clausesCalls_iff fun _ h => h.two_le]
    simp only [clauseCalls_ofSeparator_iff]
  unfold DeletesSeparators
  rw [transformDimacs_ok_iff]
  constructor
  · rintro ⟨-, hcalls⟩
    rw [deleteCalls, List.forall_mem_append] at hcalls
    obtain ⟨builder, hbuilder⟩ :=
      (beforeDelete_ok_iff order dimacs).mpr fun call h => (hcalls.1 call h).two_le
    obtain ⟨base, rfl⟩ := beforeDelete_ok hbuilder
    rw [hbuilder, List.forall_mem_singleton, ofSeparator_append_iff,
      lastAppended_ends_iff] at hcalls
    exact ⟨hcalls.2, hclauses.mp hcalls.1⟩
  · rintro ⟨hvariables, hvalues⟩
    have hcalls : ∀ call ∈ deleteCalls order dimacs, call.OfSeparator := by
      rw [deleteCalls, List.forall_mem_append]
      refine ⟨hclauses.mpr hvalues, ?_⟩
      cases hbuilder : beforeDelete order dimacs with
      | error thrown => simp
      | ok builder =>
        obtain ⟨base, rfl⟩ := beforeDelete_ok hbuilder
        rw [List.forall_mem_singleton, ofSeparator_append_iff]
        exact (lastAppended_ends_iff order dimacs).mpr hvariables
    exact ⟨fun call h => (hcalls call h).two_le, hcalls⟩

/-- The writer fails on nothing that the reader accepts, and deletes nothing
but separators, just when there is a variable and every 0 follows a literal. -/
theorem deletions_remove_separators_iff (order : Order) (lines : List Line) :
    (∀ dimacs, deserialize lines = .ok dimacs → DeletesSeparators order dimacs) ↔
      (∃ l ∈ lines, ¬ Readable l) ∨
      (0 < (headerVariables lines).toInt ∧
        ∀ l ∈ clauseLines lines, ZerosFollowLiterals (clauseValues l)) := by
  by_cases hreadable : ∀ l ∈ lines, Readable l
  · have hall : ¬ ∃ l ∈ lines, ¬ Readable l := by
      rintro ⟨l, hl, hbad⟩
      exact hbad (hreadable l hl)
    rw [or_iff_right hall, ← forall_clausesDto_iff, deserialize_ok hreadable]
    simp only [Except.ok.injEq, forall_eq']
    exact deletesSeparators_iff order (dtoOf lines)
  · have hbad : ∃ l ∈ lines, ¬ Readable l := by simpa using hreadable
    refine iff_of_true ?_ (.inl hbad)
    intro dimacs hdimacs
    obtain ⟨thrown, hthrown⟩ := deserialize_error hbad
    rw [hthrown] at hdimacs
    cases hdimacs

example : ZerosFollowLiterals [1, 0, -2, 3, 0] ∧ ¬ ZerosFollowLiterals [1, 0, 0] := by decide

/-- A file that the reader accepts, and the writer throws on: the sixth 0
finds nothing left of the keyword. -/
theorem six_zeros_delete_too_much :
    (∃ dimacs, deserialize (read "p cnf 1 1\n0 0 0 0 0 0".toList) = .ok dimacs ∧
      transformDimacs .insertion dimacs = .error (.stringIndex (-2))) ∧
    ¬ ∀ dimacs, deserialize (read "p cnf 1 1\n0 0 0 0 0 0".toList) = .ok dimacs →
      DeletesSeparators .insertion dimacs := by
  have hread : deserialize (read "p cnf 1 1\n0 0 0 0 0 0".toList) =
      .ok ⟨[], some "cnf".toList, 1, 1, [⟨[0, 0, 0, 0, 0, 0]⟩]⟩ := by decide +kernel
  have hthrows : transformDimacs .insertion
      ⟨[], some "cnf".toList, 1, 1, [⟨[0, 0, 0, 0, 0, 0]⟩]⟩ = .error (.stringIndex (-2)) := by
    decide +kernel
  refine ⟨⟨_, hread, hthrows⟩, ?_⟩
  intro h
  obtain ⟨⟨text, htext⟩, -⟩ := h _ hread
  rw [hthrows] at htext
  cases htext

end reductor.transformer
