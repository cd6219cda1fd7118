-- What a file that does not convert makes the code throw: the exception of
-- its first line that cannot be read, or of the first 0 that has no two
-- characters to delete.
import Reductor.Acceptance
import Reductor.Emitted

open reductor.java

namespace reductor.dimacs

/-! ## Folds that throw -/

section

variable {σ α ε : Type} {f : σ → α → Except ε σ}

/-- A fold throws what it throws at the first element that does not pass. -/
theorem foldlM_eq_error_iff {s : σ} {l : List α} {e : ε} :
    l.foldlM f s = .error e ↔ ∃ before a after mid, l = before ++ a :: after ∧
      before.foldlM f s = .ok mid ∧ f mid a = .error e := by
  induction l generalizing s with
  | nil =>
    constructor
    · intro h
      cases h
    · rintro ⟨before, a, after, mid, hl, -⟩
      cases before <;> cases hl
  | cons x l ih =>
    rw [List.foldlM_cons]
    cases hx : f s x with
    | error e' =>
      constructor
      · intro h
        cases h
        exact ⟨[], x, l, s, rfl, rfl, hx⟩
      · rintro ⟨before, a, after, mid, hl, hbefore, ha⟩
        cases before with
        | nil =>
          cases hl
          cases hbefore
          rw [hx] at ha
          cases ha
          rfl
        | cons y before =>
          cases hl
          rw [List.foldlM_cons, hx] at hbefore
          cases hbefore
    | ok s' =>
      refine Iff.trans (show _ ↔ l.foldlM f s' = .error e from Iff.rfl) (ih.trans ?_)
      constructor
      · rintro ⟨before, a, after, mid, rfl, hbefore, ha⟩
        refine ⟨x :: before, a, after, mid, rfl, ?_, ha⟩
        rw [List.foldlM_cons, hx]
        exact hbefore
      · rintro ⟨before, a, after, mid, hl, hbefore, ha⟩
        cases before with
        | nil =>
          cases hl
          cases hbefore
          rw [hx] at ha
          cases ha
        | cons y before =>
          cases hl
          rw [List.foldlM_cons, hx] at hbefore
          exact ⟨before, a, after, mid, rfl, hbefore, ha⟩

end

/-! ## The reader -/

/-- What the reader throws on a line, by its tokens: a part that is missing,
the text of a bare `c`, or a number of a header that is no integer. -/
inductive LineThrows (l : Line) : Thrown → Prop
  | blank : IsTokens l [] → LineThrows l (.arrayIndex 0)
  | bare : l.chars = COMMENT → LineThrows l (.stringIndex (-1))
  | noFormat : IsTokens l [PROBLEM] → LineThrows l (.arrayIndex 1)
  | noVariables {format : Text} : IsTokens l [PROBLEM, format] → LineThrows l (.arrayIndex 2)
  | badVariables {format tn : Text} {ts : List Text} :
      IsTokens l (PROBLEM :: format :: tn :: ts) → ¬ Accepted tn →
      LineThrows l (.numberFormat tn)
  | noClauses {format tn : Text} : IsTokens l [PROBLEM, format, tn] → Accepted tn →
      LineThrows l (.arrayIndex 3)
  | badClauses {format tn tm : Text} {ts : List Text} :
      IsTokens l (PROBLEM :: format :: tn :: tm :: ts) → Accepted tn → ¬ Accepted tm →
      LineThrows l (.numberFormat tm)

theorem parseInt_eq_none {t : Text} (h : ¬ Accepted t) : parseInt t = none :=
  Option.not_isSome_iff_eq_none.mp (mt accepted_iff.mpr h)

theorem deserializeLine_throws (dimacs : DimacsDto) {l : Line} {e : Thrown} (h : LineThrows l e) :
    deserializeLine dimacs l = .error e := by
  unfold deserializeLine
  rw [trim_split]
  cases h with
  | blank ht => rw [isTokens_iff.mp ht]; rfl
  | bare hbare =>
    have ht : tokens l = [COMMENT] := by
      rw [tokens, hbare]
      decide +kernel
    rw [ht, hbare]
    rfl
  | noFormat ht => rw [isTokens_iff.mp ht]; rfl
  | noVariables ht => rw [isTokens_iff.mp ht]; rfl
  | @badVariables format tn ts ht hno =>
    rw [isTokens_iff.mp ht]
    show (valueOf tn >>= fun _ => _) = _
    rw [valueOf_eq_error (parseInt_eq_none hno)]
    rfl
  | @noClauses format tn ht hn =>
    obtain ⟨n, hn⟩ := Option.isSome_iff_exists.mp (accepted_iff.mp hn)
    rw [isTokens_iff.mp ht]
    show (valueOf tn >>= fun _ => _) = _
    rw [valueOf_eq_ok hn]
    rfl
  | @badClauses format tn tm ts ht hn hno =>
    obtain ⟨n, hn⟩ := Option.isSome_iff_exists.mp (accepted_iff.mp hn)
    rw [isTokens_iff.mp ht]
    show (valueOf tn >>= fun _ => valueOf tm >>= fun _ => _) = _
    rw [valueOf_eq_ok hn, valueOf_eq_error (parseInt_eq_none hno)]
    rfl

/-- Every line that is rejected has an exception. -/
theorem Rejected.throws {l : Line} (h : Rejected l) : ∃ e, LineThrows l e := by
  cases h with
  | blank ht => exact ⟨_, .blank ht⟩
  | bare hbare => exact ⟨_, .bare hbare⟩
  | @short ts ht hlen =>
    rcases ts with _ | ⟨format, _ | ⟨tn, _ | ⟨tm, rest⟩⟩⟩
    · exact ⟨_, .noFormat ht⟩
    · exact ⟨_, .noVariables ht⟩
    · by_cases hn : Accepted tn
      · exact ⟨_, .noClauses ht hn⟩
      · exact ⟨_, .badVariables ht hn⟩
    · simp only [List.length_cons] at hlen
      omega
  | @number format tn tm ts ht hno =>
    by_cases hn : Accepted tn
    · exact ⟨_, .badClauses ht hn (hno.resolve_left (not_not_intro hn))⟩
    · exact ⟨_, .badVariables ht hn⟩

theorem deserializeLine_eq_error_iff (dimacs : DimacsDto) {l : Line} {e : Thrown} :
    deserializeLine dimacs l = .error e ↔ LineThrows l e := by
  refine ⟨fun h => ?_, deserializeLine_throws dimacs⟩
  by_cases hr : Readable l
  · rw [deserializeLine_ok dimacs hr] at h
    cases h
  · obtain ⟨e', he'⟩ := (rejected_iff.mpr hr).throws
    rw [deserializeLine_throws dimacs he'] at h
    cases h
    exact he'

/-- The exception of the first line that cannot be read. -/
def ReaderThrows (lines : List Line) (e : Thrown) : Prop :=
  ∃ before l after, lines = before ++ l :: after ∧ (∀ l' ∈ before, ¬ Rejected l') ∧ LineThrows l e

theorem deserialize_eq_error_iff {lines : List Line} {e : Thrown} :
    deserialize lines = .error e ↔ ReaderThrows lines e := by
  unfold deserialize ReaderThrows
  rw [foldlM_eq_error_iff]
  constructor
  · rintro ⟨before, l, after, mid, rfl, hbefore, hl⟩
    refine ⟨before, l, after, rfl, ?_, (deserializeLine_eq_error_iff mid).mp hl⟩
    intro l' hl' hbad
    have hread := (deserialize_eq_ok_iff.mp hbefore).1 l' hl'
    exact rejected_iff.mp hbad hread
  · rintro ⟨before, l, after, rfl, hbefore, hl⟩
    refine ⟨before, l, after, dtoOf before, rfl, deserialize_ok ?_, deserializeLine_throws _ hl⟩
    intro l' hl'
    exact not_not.mp (mt rejected_iff.mpr (hbefore l' hl'))

end reductor.dimacs

namespace reductor.transformer

open reductor.dimacs

/-! ## The writer -/

/-- How many characters are left of the keyword and the literals, once the
zeros so far have deleted theirs. -/
def leftLength (count : Int32) (vs : List Int32) : Nat :=
  (10 - overhang count vs) + (leftText count vs).length

/-- What the writer throws on the values of a clause: the start of the
deletion of the first 0 that finds no two characters. -/
def ClauseThrows (count : Int32) (values : List Int32) (e : Thrown) : Prop :=
  ∃ vs ws, values = vs ++ 0 :: ws ∧ overhang count vs ≤ 10 ∧ leftLength count vs < 2 ∧
    e = .stringIndex (leftLength count vs - 2)

theorem appendValues_eq_ok_iff {count : Int32} {vs : List Int32} {buffer text : Text} :
    vs.foldlM (appendValue (variableMap count)) buffer = .ok text ↔
      overhang count vs ≤ buffer.length ∧
        text = buffer.take (buffer.length - overhang count vs) ++ leftText count vs := by
  by_cases h : overhang count vs ≤ buffer.length
  · rw [appendValues_ok count vs buffer h, Except.ok.injEq]
    exact ⟨fun he => ⟨h, he.symm⟩, fun he => he.2.symm⟩
  · obtain ⟨i, hi⟩ := appendValues_error count vs buffer (Nat.lt_of_not_le h)
    rw [hi]
    constructor
    · intro he
      cases he
    · intro he
      exact absurd he.1 h

theorem appendValue_eq_error_iff {count : Int32} {buffer : Text} {v : Int32} {e : Thrown} :
    appendValue (variableMap count) buffer v = .error e ↔
      v = 0 ∧ buffer.length < 2 ∧ e = .stringIndex (buffer.length - 2) := by
  rw [appendValue_eq]
  by_cases hv : v = 0
  · rw [if_pos hv, delete_tail]
    by_cases hlen : buffer.length < 2
    · rw [if_pos hlen, Except.error.injEq]
      exact ⟨fun h => ⟨hv, hlen, h.symm⟩, fun h => h.2.2.symm⟩
    · rw [if_neg hlen]
      constructor
      · intro h
        cases h
      · intro h
        exact absurd h.2.1 hlen
  · rw [if_neg hv]
    constructor
    · intro h
      cases h
    · intro h
      exact absurd h.1 hv

theorem clauseLine_eq_error_iff {count : Int32} {clauses : ClausesDto} {e : Thrown} :
    clauseLine (variableMap count) clauses = .error e ↔ ClauseThrows count clauses.values e := by
  have hloop : clauseLine (variableMap count) clauses = .error e ↔
      clauses.values.foldlM (appendValue (variableMap count)) "constraint".toList = .error e := by
    unfold clauseLine
    cases clauses.values.foldlM (appendValue (variableMap count)) "constraint".toList with
    | ok text =>
      constructor <;>
        intro h <;> cases h
    | error thrown =>
      constructor <;>
      · intro h
        cases h
        rfl
  have hlength : ∀ vs, ("constraint".toList.take ("constraint".toList.length - overhang count vs) ++
      leftText count vs).length = leftLength count vs := by
    intro vs
    rw [List.length_append, List.length_take]
    show min (10 - _) 10 + _ = _
    unfold leftLength
    omega
  rw [hloop, foldlM_eq_error_iff]
  constructor
  · rintro ⟨vs, v, ws, buffer, hvalues, hvs, hv⟩
    obtain ⟨hover, rfl⟩ := appendValues_eq_ok_iff.mp hvs
    obtain ⟨rfl, hlen, rfl⟩ := appendValue_eq_error_iff.mp hv
    rw [hlength] at hlen ⊢
    exact ⟨vs, ws, hvalues, hover, hlen, rfl⟩
  · rintro ⟨vs, ws, hvalues, hover, hlen, rfl⟩
    refine ⟨vs, 0, ws, _, hvalues, appendValues_eq_ok_iff.mpr ⟨hover, rfl⟩, ?_⟩
    rw [appendValue_eq_error_iff, hlength]
    exact ⟨rfl, hlen, rfl⟩

/-- Only the loop over the clauses throws. -/
theorem transformDimacs_throws_iff (order : Order) (dimacs : DimacsDto) (e : Thrown) :
    ∃ b : Text, transformDimacs order dimacs = .error e ↔
      (dimacs.clausesDto.foldlM (fun b clauses => do
        return b ++ (← clauseLine (variableMap dimacs.variables') clauses)) b :
          Except Thrown Text) = .error e := by
  refine ⟨dimacs.comments.flatMap commentLine ++
    ((indices order dimacs.variables').map varName).flatMap declaration ++
    ((indices order dimacs.variables').map varName).flatMap complement, ?_⟩
  by_cases hfits : Fits dimacs
  · rw [transformDimacs_ok order hfits, foldlM_clauseLine_ok _ _ _ hfits]
    constructor
    · intro h
      cases h
    · intro h
      cases h
  · have hbad : ∃ c ∈ dimacs.clausesDto, 10 < overhang dimacs.variables' c.values := by
      simpa only [Fits, not_forall, Nat.not_le, exists_prop] using hfits
    obtain ⟨i, hi⟩ := foldlM_clauseLine_error dimacs.variables' dimacs.clausesDto
      (dimacs.comments.flatMap commentLine ++
        ((indices order dimacs.variables').map varName).flatMap declaration ++
        ((indices order dimacs.variables').map varName).flatMap complement) hbad
    have htransform : transformDimacs order dimacs = .error (.stringIndex i) := by
      unfold transformDimacs
      simp only [foldl_append_flatMap, List.nil_append, values_variableMap]
      rw [hi]
      rfl
    rw [htransform, hi]

theorem appendClause_eq_error_iff {count : Int32} {clauses : ClausesDto} {b : Text} {e : Thrown} :
    (do return b ++ (← clauseLine (variableMap count) clauses) : Except Thrown Text) = .error e ↔
      ClauseThrows count clauses.values e := by
  rw [← clauseLine_eq_error_iff]
  cases clauseLine (variableMap count) clauses with
  | ok text =>
    constructor
    · intro h
      cases h
    · intro h
      cases h
  | error thrown => exact Iff.rfl

theorem transformDimacs_eq_error_iff {order : Order} {dimacs : DimacsDto} {e : Thrown} :
    transformDimacs order dimacs = .error e ↔ ∃ before c after,
      dimacs.clausesDto = before ++ c :: after ∧
      (∀ b ∈ before, overhang dimacs.variables' b.values ≤ 10) ∧
      ClauseThrows dimacs.variables' c.values e := by
  obtain ⟨b, hloop⟩ := transformDimacs_throws_iff order dimacs e
  rw [hloop, foldlM_eq_error_iff]
  constructor
  · rintro ⟨before, c, after, mid, hclauses, hbefore, hc⟩
    refine ⟨before, c, after, hclauses, ?_, appendClause_eq_error_iff.mp hc⟩
    by_contra hno
    push Not at hno
    obtain ⟨i, hi⟩ := foldlM_clauseLine_error dimacs.variables' before b hno
    rw [hi] at hbefore
    cases hbefore
  · rintro ⟨before, c, after, hclauses, hbefore, hc⟩
    exact ⟨before, c, after, _, hclauses, foldlM_clauseLine_ok _ _ _ hbefore,
      appendClause_eq_error_iff.mpr hc⟩

/-- The exception of the first 0 of a clause line that has no two characters to delete. -/
def WriterThrows (lines : List Line) (e : Thrown) : Prop :=
  ∃ before l after, clauseLines lines = before ++ l :: after ∧
    (∀ l' ∈ before, overhang (headerVariables lines) (clauseValues l') ≤ 10) ∧
    ClauseThrows (headerVariables lines) (clauseValues l) e

theorem writerThrows_iff {order : Order} {lines : List Line} {e : Thrown} :
    transformDimacs order (dtoOf lines) = .error e ↔ WriterThrows lines e := by
  rw [transformDimacs_eq_error_iff]
  unfold WriterThrows
  constructor
  · rintro ⟨before, c, after, hclauses, hbefore, hc⟩
    obtain ⟨before', rest, hlines, rfl, hrest⟩ := List.map_eq_append_iff.mp hclauses
    obtain ⟨l, after', rfl, rfl, rfl⟩ := List.map_eq_cons_iff.mp hrest
    exact ⟨before', l, after', hlines, fun l' hl' => hbefore _ (List.mem_map_of_mem hl'), hc⟩
  · rintro ⟨before, l, after, hlines, hbefore, hc⟩
    refine ⟨before.map fun l => ⟨clauseValues l⟩, ⟨clauseValues l⟩,
      after.map fun l => ⟨clauseValues l⟩, ?_, ?_, hc⟩
    · show (clauseLines lines).map _ = _
      rw [hlines, List.map_append, List.map_cons]
    · intro b hb
      obtain ⟨l', hl', rfl⟩ := List.mem_map.mp hb
      exact hbefore l' hl'

/-- A file that does not convert throws the exception of its first line that
cannot be read, and else that of the first 0 that has no two characters to delete. -/
theorem the_first_fault_is_thrown (order : Order) (lines : List Line) (e : Thrown) :
    process order lines = .error e ↔
      ReaderThrows lines e ∨ (∀ l ∈ lines, ¬ Rejected l) ∧ WriterThrows lines e := by
  unfold process
  by_cases h : ∀ l ∈ lines, Readable l
  · have hreads : ∀ l ∈ lines, ¬ Rejected l := fun l hl hr => rejected_iff.mp hr (h l hl)
    have hnone : ¬ ReaderThrows lines e := by
      rw [← deserialize_eq_error_iff, deserialize_ok h]
      intro he
      cases he
    rw [deserialize_ok h]
    show transformDimacs order (dtoOf lines) = _ ↔ _
    rw [writerThrows_iff]
    exact ⟨fun he => .inr ⟨hreads, he⟩, fun he => (he.resolve_left hnone).2⟩
  · obtain ⟨e', he'⟩ := deserialize_error (by simpa using h)
    have hreads : ¬ ∀ l ∈ lines, ¬ Rejected l := by
      intro hno
      exact h fun l hl => not_not.mp (mt rejected_iff.mpr (hno l hl))
    rw [← deserialize_eq_error_iff, he']
    constructor
    · intro he
      cases he
      exact .inl rfl
    · rintro (he | he)
      · cases he
        rfl
      · exact absurd he.1 hreads

end reductor.transformer
