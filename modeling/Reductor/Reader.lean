-- What `deserialize` gives for any list of lines: which lines it accepts,
-- and the fields that it fills from the lines of each kind.
import Reductor.Dimacs

open reductor.java

namespace reductor.dimacs

/-! ## The tokens of a line -/

/-- The runs of characters other than a space. -/
def words (s : Text) : List Text := (s.splitOn ' ').filter fun part => !part.isEmpty

/-- The runs of characters other than a space, in the trimmed line. -/
def tokens (l : Line) : List Text := words (java.trim l.chars)

theorem not_mem_of_mem_splitOn {d : Char} {s part : Text} (h : part ∈ s.splitOn d) : d ∉ part := by
  induction s generalizing part with
  | nil =>
    simp only [List.splitOn_nil, List.mem_singleton] at h
    rw [h]
    exact List.not_mem_nil
  | cons c s ih =>
    rw [List.splitOn_cons_eq_if_modifyHead] at h
    split at h
    · rcases List.mem_cons.mp h with rfl | h
      · exact List.not_mem_nil
      · exact ih h
    · rename_i hc
      cases hs : s.splitOn d with
      | nil => exact absurd hs (List.splitOn_ne_nil d s)
      | cons p ps =>
        rw [hs, List.modifyHead_cons] at h
        rw [hs] at ih
        rcases List.mem_cons.mp h with rfl | h
        · intro hd
          rcases List.mem_cons.mp hd with rfl | hd
          · exact hc BEq.rfl
          · exact ih List.mem_cons_self hd
        · exact ih (List.mem_cons_of_mem p h)

theorem words_word {t : Text} (hne : t ≠ []) (h : ' ' ∉ t) : words t = [t] := by
  rw [words, List.splitOn_eq_singleton h, List.filter_cons_of_pos (by simpa using hne),
    List.filter_nil]

theorem words_append (s t : Text) : words (s ++ ' ' :: t) = words s ++ words t := by
  rw [words, List.splitOn_append_cons_self, List.filter_append]
  rfl

/-- Words have a character, and no space. -/
theorem mem_words {s t : Text} (h : t ∈ words s) : t ≠ [] ∧ ' ' ∉ t := by
  obtain ⟨hmem, hne⟩ := List.mem_filter.mp h
  exact ⟨by simpa using hne, not_mem_of_mem_splitOn hmem⟩

/-- The parts that the reader works on are the tokens. -/
theorem trim_split (l : Line) : StringUtils.trim (split (java.trim l.chars) ' ') = tokens l := by
  have hspace : ∀ part ∈ (java.trim l.chars).splitOn ' ', part ≠ SPACE := by
    intro part h he
    exact not_mem_of_mem_splitOn h (he ▸ List.mem_cons_self)
  unfold StringUtils.trim tokens words
  rw [← List.filter_filter, List.filter_comm, filter_split, List.filter_eq_self.mpr]
  intro part h
  simpa using hspace part (List.mem_of_mem_filter h)

/-- The kinds of lines that the reader tells apart by the first token. -/
inductive LineKind
  | blank | comment | problem | clause
  deriving DecidableEq, Repr

def kind (l : Line) : LineKind :=
  match (tokens l).head? with
  | none => .blank
  | some first =>
    if first = COMMENT then .comment else if first = PROBLEM then .problem else .clause

/-- The token of a header line at a position, as an `int`. -/
def headerInt (l : Line) (i : Nat) : Option Int32 := (tokens l)[i]?.bind parseInt

/-- The integers of a clause line; the other tokens are passed over. -/
def clauseValues (l : Line) : List Int32 := (tokens l).filterMap parseInt

/-- The reader goes on after the line: it has a token, it is not the bare `c`,
and a header has its two numbers. -/
def Readable (l : Line) : Prop :=
  kind l ≠ .blank ∧ (kind l = .comment → l.chars ≠ COMMENT) ∧
    (kind l = .problem → (headerInt l 2).isSome ∧ (headerInt l 3).isSome)

instance (l : Line) : Decidable (Readable l) := inferInstanceAs (Decidable (_ ∧ _))

/-! ## The fields that the lines fill -/

def commentLines (lines : List Line) : List Line := lines.filter (kind · = .comment)

def clauseLines (lines : List Line) : List Line := lines.filter (kind · = .clause)

/-- The header is the last problem line. -/
def headerLine (lines : List Line) : Option Line := (lines.filter (kind · = .problem)).getLast?

/-- The variable count of the header, or 0 with no header. -/
def headerVariables (lines : List Line) : Int32 :=
  ((headerLine lines).bind (headerInt · 2)).getD 0

def headerClauses (lines : List Line) : Int32 :=
  ((headerLine lines).bind (headerInt · 3)).getD 0

def dtoOf (lines : List Line) : DimacsDto where
  comments := (commentLines lines).map (·.chars.drop 2)
  format := (headerLine lines).bind fun l => (tokens l)[1]?
  variables' := headerVariables lines
  clauses := headerClauses lines
  clausesDto := (clauseLines lines).map fun l => ⟨clauseValues l⟩

/-! ## The reader, line by line -/

/-- What a readable line adds to the problem. -/
def addLine (d : DimacsDto) (l : Line) : DimacsDto :=
  match kind l with
  | .blank => d
  | .comment => d.addComment (l.chars.drop 2)
  | .problem =>
    { d with
      format := (tokens l)[1]?
      variables' := (headerInt l 2).getD 0
      clauses := (headerInt l 3).getD 0 }
  | .clause => d.addClausesDto ⟨clauseValues l⟩

theorem element_eq_ok {parts : List Text} {i : Nat} {part : Text} (h : parts[i]? = some part) :
    element parts i = .ok part := by
  rw [element, h]

theorem element_eq_error {parts : List Text} {i : Nat} (h : parts[i]? = none) :
    element parts i = .error (.arrayIndex i) := by
  rw [element, h]

theorem valueOf_eq_ok {s : Text} {v : Int32} (h : parseInt s = some v) : valueOf s = .ok v := by
  rw [valueOf, h]

theorem valueOf_eq_error {s : Text} (h : parseInt s = none) :
    valueOf s = .error (.numberFormat s) := by
  rw [valueOf, h]

/-- The loop over the parts of a clause line collects its integers. -/
theorem foldl_addPart (parts : List Text) (clausesDto : ClausesDto) :
    parts.foldl addPart clausesDto = ⟨clausesDto.values ++ parts.filterMap parseInt⟩ := by
  induction parts generalizing clausesDto with
  | nil => simp
  | cons part parts ih =>
    rw [List.foldl_cons, ih, List.filterMap_cons, addPart]
    cases h : parseInt part with
    | none => rw [valueOf_eq_error h]
    | some v =>
      rw [valueOf_eq_ok h]
      simp [ClausesDto.addValue]

/-- A line whose first token is `c` has a second character, or is the bare `c`. -/
theorem comment_length {l : Line} (h : (tokens l).head? = some COMMENT) :
    l.chars ≠ COMMENT ↔ 2 ≤ l.chars.length := by
  have hne : l.chars ≠ [] := by
    intro he
    rw [tokens, he] at h
    cases h
  constructor
  · intro hbare
    by_contra hlen
    obtain ⟨c, hc⟩ : ∃ c, l.chars = [c] := by
      cases hl : l.chars with
      | nil => exact absurd hl hne
      | cons c s =>
        rw [hl, List.length_cons] at hlen
        have hs : s = [] := List.length_eq_zero_iff.mp (by omega)
        exact ⟨c, by rw [hs]⟩
    -- A line of one character is its own only token, or has none.
    rw [hc] at hbare
    rw [tokens, hc] at h
    by_cases hb : isBlank c = true
    · simp [java.trim, hb, words] at h
    · have htrim : java.trim [c] = [c] := by simp [java.trim, List.rdropWhile, hb]
      have hspace : ' ' ∉ [c] := by
        intro hm
        rw [List.mem_singleton] at hm
        rw [← hm] at hb
        exact hb (by decide)
      rw [htrim, words_word (List.cons_ne_nil c []) hspace] at h
      exact hbare (Option.some.inj h)
  · intro hlen he
    rw [he] at hlen
    exact absurd hlen (by decide)

theorem kind_cons {l : Line} {first : Text} {rest : List Text} (h : tokens l = first :: rest) :
    kind l = if first = COMMENT then .comment else if first = PROBLEM then .problem
      else .clause := by
  rw [kind, h]
  rfl

theorem kind_nil {l : Line} (h : tokens l = []) : kind l = .blank := by
  rw [kind, h]
  rfl

theorem kind_of_bare {l : Line} (h : l.chars = COMMENT) : kind l = .comment := by
  have htokens : tokens l = [COMMENT] := by
    rw [tokens, h]
    decide +kernel
  rw [kind_cons htokens, if_pos rfl]

theorem readable_comment_iff {l : Line} (h : kind l = .comment) :
    Readable l ↔ l.chars ≠ COMMENT := by
  simp [Readable, h]

theorem readable_problem_iff {l : Line} (h : kind l = .problem) :
    Readable l ↔ (headerInt l 2).isSome ∧ (headerInt l 3).isSome := by
  simp [Readable, h]

theorem readable_clause {l : Line} (h : kind l = .clause) : Readable l := by
  simp [Readable, h]

/-- One turn of the line loop. -/
theorem deserializeLine_ok (d : DimacsDto) {l : Line} (h : Readable l) :
    deserializeLine d l = .ok (addLine d l) := by
  obtain ⟨hblank, hcomment, hproblem⟩ := h
  unfold deserializeLine addLine
  rw [trim_split]
  cases ht : tokens l with
  | nil => exact absurd (kind_nil ht) hblank
  | cons first rest =>
    have hk := kind_cons ht
    have hfirst : element (first :: rest) 0 = .ok first := rfl
    simp only [hfirst, bind, Except.bind]
    by_cases hc : first = COMMENT
    · rw [if_pos hc] at hk
      have hlen := (comment_length (by rw [ht, hc]; rfl)).mp (hcomment hk)
      have hsub : substring l.chars 2 l.chars.length = .ok (l.chars.drop 2) := by
        rw [substring, if_neg (by omega), if_neg (by omega), List.take_length]
      rw [if_pos hc, hk, hsub]
      rfl
    · rw [if_neg hc] at hk ⊢
      by_cases hp : first = PROBLEM
      · rw [if_pos hp] at hk ⊢
        obtain ⟨h2, h3⟩ := hproblem hk
        obtain ⟨n, hn⟩ := Option.isSome_iff_exists.mp h2
        obtain ⟨m, hm⟩ := Option.isSome_iff_exists.mp h3
        obtain ⟨tn, htn, hvn⟩ := Option.bind_eq_some_iff.mp hn
        obtain ⟨tm, htm, hvm⟩ := Option.bind_eq_some_iff.mp hm
        rw [ht] at htn htm
        obtain ⟨format, hformat⟩ : ∃ format, (first :: rest)[1]? = some format := by
          have hlen := (List.getElem?_eq_some_iff.mp htn).1
          exact ⟨_, List.getElem?_eq_getElem (by omega)⟩
        rw [hk, element_eq_ok hformat, element_eq_ok htn, element_eq_ok htm]
        simp only [valueOf_eq_ok hvn, valueOf_eq_ok hvm, hn, hm, Option.getD_some, hformat]
        rfl
      · rw [if_neg hp] at hk ⊢
        rw [hk, foldl_addPart, clauseValues, ht]
        rfl

theorem deserializeLine_error (d : DimacsDto) {l : Line} (h : ¬ Readable l) :
    ∃ e, deserializeLine d l = .error e := by
  unfold deserializeLine
  rw [trim_split]
  cases ht : tokens l with
  | nil => exact ⟨.arrayIndex 0, rfl⟩
  | cons first rest =>
    have hk := kind_cons ht
    have hfirst : element (first :: rest) 0 = .ok first := rfl
    simp only [hfirst, bind, Except.bind]
    by_cases hc : first = COMMENT
    · rw [if_pos hc] at hk ⊢
      have hlen : l.chars.length < 2 := by
        by_contra hlen
        have hbare := (comment_length (by rw [ht, hc]; rfl)).mpr (Nat.le_of_not_lt hlen)
        exact h ((readable_comment_iff hk).mpr hbare)
      rw [substring, if_neg (by omega), if_pos hlen]
      exact ⟨_, rfl⟩
    · rw [if_neg hc] at hk ⊢
      by_cases hp : first = PROBLEM
      · rw [if_pos hp] at hk ⊢
        cases hformat : (first :: rest)[1]? with
        | none => exact ⟨_, by rw [element_eq_error hformat]⟩
        | some format =>
          rw [element_eq_ok hformat]
          cases hn : (first :: rest)[2]? with
          | none => exact ⟨_, by rw [element_eq_error hn]⟩
          | some tn =>
            rw [element_eq_ok hn]
            cases hvn : parseInt tn with
            | none => exact ⟨.numberFormat tn, by simp only [valueOf_eq_error hvn]⟩
            | some n =>
              simp only [valueOf_eq_ok hvn]
              cases hm : (first :: rest)[3]? with
              | none => exact ⟨_, by rw [element_eq_error hm]⟩
              | some tm =>
                rw [element_eq_ok hm]
                cases hvm : parseInt tm with
                | none => exact ⟨.numberFormat tm, by simp only [valueOf_eq_error hvm]⟩
                | some m =>
                  refine absurd ((readable_problem_iff hk).mpr ?_) h
                  simp [headerInt, ht, hn, hm, hvn, hvm]
      · rw [if_neg hp] at hk
        exact absurd (readable_clause hk) h

/-! ## The whole reader -/

theorem dtoOf_append (lines : List Line) (l : Line) :
    dtoOf (lines ++ [l]) = addLine (dtoOf lines) l := by
  unfold addLine
  cases hk : kind l
  all_goals
    simp [dtoOf, commentLines, clauseLines, headerVariables, headerClauses, headerLine,
      List.filter_append, hk, DimacsDto.addComment, DimacsDto.addClausesDto]

/-- `deserialize` gives the fields of the lines when every line is readable. -/
theorem deserialize_ok {lines : List Line} (h : ∀ l ∈ lines, Readable l) :
    deserialize lines = .ok (dtoOf lines) := by
  unfold deserialize
  induction lines using List.reverseRecOn with
  | nil => rfl
  | append_singleton lines l ih =>
    rw [List.foldlM_append, ih fun x hx => h x (List.mem_append_left _ hx), dtoOf_append]
    show ([l].foldlM deserializeLine (dtoOf lines) : Except Thrown DimacsDto) = _
    rw [List.foldlM_cons, deserializeLine_ok _ (h l (by simp))]
    rfl

/-- One line that is not readable loses the whole file. -/
theorem deserialize_error {lines : List Line} (h : ∃ l ∈ lines, ¬ Readable l) :
    ∃ e, deserialize lines = .error e := by
  unfold deserialize
  have hfrom : ∀ d : DimacsDto, ∃ e, lines.foldlM deserializeLine d = .error e := by
    induction lines with
    | nil =>
      obtain ⟨l, hl, -⟩ := h
      cases hl
    | cons x lines ih =>
      intro d
      rw [List.foldlM_cons]
      by_cases hx : Readable x
      · rw [deserializeLine_ok d hx]
        obtain ⟨l, hl, hbad⟩ := h
        rcases List.mem_cons.mp hl with rfl | hl
        · exact absurd hx hbad
        · exact ih ⟨l, hl, hbad⟩ _
      · obtain ⟨e, he⟩ := deserializeLine_error d hx
        exact ⟨e, by rw [he]; rfl⟩
  exact hfrom _

theorem deserialize_eq_ok_iff {lines : List Line} {d : DimacsDto} :
    deserialize lines = .ok d ↔ (∀ l ∈ lines, Readable l) ∧ d = dtoOf lines := by
  by_cases h : ∀ l ∈ lines, Readable l
  · rw [deserialize_ok h, Except.ok.injEq]
    exact ⟨fun he => ⟨h, he.symm⟩, fun he => he.2.symm⟩
  · obtain ⟨e, he⟩ := deserialize_error (by simpa using h)
    rw [he]
    constructor
    · intro hd
      cases hd
    · intro hd
      exact absurd hd.1 h

end reductor.dimacs
