-- The comment lines of a file and of an emitted text: what they change, and
-- that the rest of the text is free of them.
import Reductor.Statements

open reductor.java reductor.dimacs reductor.minizinc

namespace reductor.transformer

/-! ## The text after the comments -/

section

attribute [local irreducible] String.toList

/-- A character of a model outside its comments: one of ASCII, and no `%`. -/
def isBodyChar (c : Char) : Bool := decide (c.toNat < 128) && c != '%'

theorem isBodyChar_of_isWordChar {c : Char} (h : isWordChar c = true) : isBodyChar c = true := by
  have hpercent : c ≠ '%' := by
    rintro rfl
    exact absurd h (by decide)
  have hlt : c.toNat < 128 := by
    simp only [isWordChar, Bool.or_eq_true, beq_iff_eq] at h
    rcases h with h | rfl
    · delta Char.isAlphanum Char.isAlpha Char.isUpper Char.isLower Char.isDigit at h
      simp only [Bool.or_eq_true, Bool.and_eq_true, decide_eq_true_eq,
        UInt32.le_iff_toNat_le] at h
      change ((65 ≤ c.toNat ∧ c.toNat ≤ 90) ∨ (97 ≤ c.toNat ∧ c.toNat ≤ 122)) ∨
        (48 ≤ c.toNat ∧ c.toNat ≤ 57) at h
      omega
    · decide
  simp only [isBodyChar, Bool.and_eq_true, decide_eq_true_eq, bne_iff_ne]
  exact ⟨hlt, hpercent⟩

theorem isBodyChar_varName (i : Nat) : ∀ c ∈ varName i, isBodyChar c = true :=
  fun c hc => isBodyChar_of_isWordChar (isWordChar_varName i c hc)

/-- What the writer puts between the names. -/
theorem isBodyChar_pieces : ∀ piece ∈ ["var 0..1 : ", "; var 0..1 : n_", ";\n", "constraint ",
    " + n_", " = 1;\n", " ", " + ", "constraint", ">= 1;\n", "\"", "=\", show(", "), \"\\t-",
    "=\", show(n_", ")", "output];", "output [", ", ", "];", "solve satisfy;\n"],
    ∀ c ∈ piece.toList, isBodyChar c = true := by
  decide +kernel

theorem isBodyChar_declaration (i : Nat) :
    ∀ c ∈ declaration (varName i), isBodyChar c = true := by
  have hvar := isBodyChar_varName i
  delta declaration
  simp only [List.forall_mem_append]
  exact ⟨⟨⟨⟨isBodyChar_pieces "var 0..1 : " (by simp), hvar⟩,
    isBodyChar_pieces "; var 0..1 : n_" (by simp)⟩, hvar⟩, isBodyChar_pieces ";\n" (by simp)⟩

theorem isBodyChar_complement (i : Nat) : ∀ c ∈ complement (varName i), isBodyChar c = true := by
  have hvar := isBodyChar_varName i
  delta complement
  simp only [List.forall_mem_append]
  exact ⟨⟨⟨⟨isBodyChar_pieces "constraint " (by simp), hvar⟩,
    isBodyChar_pieces " + n_" (by simp)⟩, hvar⟩, isBodyChar_pieces " = 1;\n" (by simp)⟩

theorem isBodyChar_operand (count v : Int32) : ∀ c ∈ operand count v, isBodyChar c = true := by
  delta operand
  simp only [List.forall_mem_append]
  exact ⟨⟨isBodyChar_pieces " " (by simp),
    fun c hc => isBodyChar_of_isWordChar (isWordChar_literalName count v c hc)⟩,
    isBodyChar_pieces " + " (by simp)⟩

theorem isBodyChar_clauseText (count : Int32) (vs : List Int32) :
    ∀ c ∈ clauseText count vs, isBodyChar c = true := by
  delta clauseText leftText
  simp only [List.forall_mem_append, List.forall_mem_flatMap]
  exact ⟨⟨fun c hc => isBodyChar_pieces "constraint" (by simp) c (List.mem_of_mem_take hc),
    fun p _ c hc => isBodyChar_operand count p.1 c (List.mem_of_mem_take hc)⟩,
    isBodyChar_pieces ">= 1;\n" (by simp)⟩

theorem isBodyChar_entryText (i : Nat) : ∀ c ∈ entryText i, isBodyChar c = true := by
  have hvar := isBodyChar_varName i
  delta entryText
  simp only [List.forall_mem_append]
  exact ⟨⟨⟨⟨⟨⟨⟨⟨isBodyChar_pieces "\"" (by simp), hvar⟩,
    isBodyChar_pieces "=\", show(" (by simp)⟩, hvar⟩,
    isBodyChar_pieces "), \"\\t-" (by simp)⟩, hvar⟩,
    isBodyChar_pieces "=\", show(n_" (by simp)⟩, hvar⟩, isBodyChar_pieces ")" (by simp)⟩

theorem isBodyChar_outputText (is : List Nat) : ∀ c ∈ outputText is, isBodyChar c = true := by
  delta outputText
  cases is with
  | nil => exact isBodyChar_pieces "output];" (by simp)
  | cons i is =>
    simp only [List.forall_mem_append, List.forall_mem_flatMap]
    exact ⟨⟨isBodyChar_pieces "output [" (by simp), isBodyChar_entryText i,
      fun j _ => ⟨isBodyChar_pieces ", " (by simp), isBodyChar_entryText j⟩⟩,
      isBodyChar_pieces "];" (by simp)⟩

theorem isBodyChar_bodyText (order : Order) (dimacs : DimacsDto) :
    ∀ c ∈ bodyText order dimacs, isBodyChar c = true := by
  delta bodyText
  simp only [List.forall_mem_append, List.forall_mem_flatMap]
  exact ⟨⟨⟨⟨fun i _ => isBodyChar_declaration i, fun i _ => isBodyChar_complement i⟩,
    fun c _ => isBodyChar_clauseText _ _⟩, isBodyChar_pieces "solve satisfy;\n" (by simp)⟩,
    isBodyChar_outputText _⟩

/-- The text after the comments holds no comment. -/
theorem percent_notMem_bodyText (order : Order) (dimacs : DimacsDto) :
    '%' ∉ bodyText order dimacs :=
  fun h => absurd (isBodyChar_bodyText order dimacs '%' h) (by decide)

/-- What is not ASCII in a model comes from a comment. -/
theorem ascii_or_comment {order : Order} {dimacs : DimacsDto} {c : Char}
    (hc : c ∈ modelText order dimacs) :
    c.toNat < 128 ∨ ∃ comment ∈ dimacs.comments, c ∈ comment := by
  rcases List.mem_append.mp hc with hc | hc
  · obtain ⟨comment, hcomment, hc⟩ := List.mem_flatMap.mp hc
    have h1 : ∀ c ∈ PERCENTAGE ++ " ".toList, c.toNat < 128 := by decide +kernel
    have h2 : ∀ c ∈ "\n".toList, c.toNat < 128 := by decide +kernel
    delta commentLine at hc
    rcases List.mem_append.mp hc with hc | hc
    · rcases List.mem_append.mp hc with hc | hc
      · exact .inl (h1 c hc)
      · exact .inr ⟨comment, hcomment, hc⟩
    · exact .inl (h2 c hc)
  · have hbody := isBodyChar_bodyText order dimacs c hc
    simp only [isBodyChar, Bool.and_eq_true, decide_eq_true_eq] at hbody
    exact .inl hbody.1

theorem commentLine_eq (comment s : Text) :
    commentLine comment ++ s = '%' :: (' ' :: comment ++ '\n' :: s) := by
  have h1 : PERCENTAGE ++ " ".toList = ['%', ' '] := by decide +kernel
  have h2 : "\n".toList = ['\n'] := by decide +kernel
  delta commentLine
  rw [h1, h2]
  simp

/-- The comments of a text are found again, each after its space. -/
theorem splitComments_commentLines {comments : List Text} {body : Text}
    (h : ∀ comment ∈ comments, '\n' ∉ comment) (hbody : '%' ∉ body) :
    splitComments none (comments.flatMap commentLine ++ body) =
      (comments.map (' ' :: ·), body) := by
  induction comments with
  | nil => exact splitComments_of_notMem hbody
  | cons comment comments ih =>
    have hline : '\n' ∉ ' ' :: comment := by
      simp [h comment List.mem_cons_self]
    rw [List.flatMap_cons, List.append_assoc, commentLine_eq, splitComments_line _ hline,
      ih fun c hc => h c (List.mem_cons_of_mem comment hc)]
    rfl

theorem splitComments_modelText (order : Order) {dimacs : DimacsDto} (h : PlainComments dimacs) :
    splitComments none (modelText order dimacs) =
      (dimacs.comments.map (' ' :: ·), bodyText order dimacs) :=
  splitComments_commentLines h (percent_notMem_bodyText order dimacs)

end

/-! ## Files that differ in their comment lines -/

/-- The other lines of the two files are the same, in the same order. -/
def SameButComments (lines lines' : List Line) : Prop :=
  lines.filter (kind · ≠ .comment) = lines'.filter (kind · ≠ .comment)

/-- The text without the comment lines at its start. -/
def withoutComments (text : Text) : Text := (splitComments none text).2

/-- The reader throws on both files or on none, and else they give the same
problem and the same model, apart from the comments. -/
def SameModel (order : Order) (lines lines' : List Line) : Prop :=
  ((∃ e, deserialize lines = .error e) ↔ ∃ e, deserialize lines' = .error e) ∧
    ∀ d d', deserialize lines = .ok d → deserialize lines' = .ok d' →
      d.format = d'.format ∧ d.variables' = d'.variables' ∧ d.clauses = d'.clauses ∧
      d.clausesDto = d'.clausesDto ∧
      (transformDimacs order d).toOption.map withoutComments =
        (transformDimacs order d').toOption.map withoutComments

/-- A line that is the one character `c`. -/
def HasBareComment (lines : List Line) : Prop := ∃ l ∈ lines, l.chars = COMMENT

/-- A line that is no comment and on which the reader throws. -/
def HasBadLine (lines : List Line) : Prop := ∃ l ∈ lines, kind l ≠ .comment ∧ ¬ Readable l

theorem deserialize_fails_iff {lines : List Line} :
    (∃ e, deserialize lines = .error e) ↔ HasBareComment lines ∨ HasBadLine lines := by
  have hbad : (∃ e, deserialize lines = .error e) ↔ ∃ l ∈ lines, ¬ Readable l := by
    constructor
    · rintro ⟨e, he⟩
      by_contra hall
      rw [deserialize_ok (by simpa using hall)] at he
      cases he
    · exact deserialize_error
  rw [hbad]
  constructor
  · rintro ⟨l, hl, hread⟩
    by_cases hk : kind l = .comment
    · rw [readable_comment_iff hk, not_not] at hread
      exact .inl ⟨l, hl, hread⟩
    · exact .inr ⟨l, hl, hk, hread⟩
  · rintro (⟨l, hl, hbare⟩ | ⟨l, hl, -, hread⟩)
    · refine ⟨l, hl, ?_⟩
      rw [readable_comment_iff (kind_of_bare hbare), not_not]
      exact hbare
    · exact ⟨l, hl, hread⟩

theorem SameButComments.hasBadLine_iff {lines lines' : List Line}
    (h : SameButComments lines lines') :
    HasBadLine lines ↔ HasBadLine lines' := by
  have hmem : ∀ ls : List Line, HasBadLine ls ↔
      ∃ l ∈ ls.filter (kind · ≠ .comment), ¬ Readable l := by
    intro ls
    simp [HasBadLine, and_assoc]
  rw [hmem, hmem, h]

/-- The lines of every other kind are the same. -/
theorem SameButComments.filter_eq {lines lines' : List Line} (h : SameButComments lines lines')
    {k : LineKind} (hk : k ≠ .comment) :
    lines.filter (kind · = k) = lines'.filter (kind · = k) := by
  have hfilter : ∀ ls : List Line,
      (ls.filter (kind · ≠ .comment)).filter (kind · = k) = ls.filter (kind · = k) := by
    intro ls
    rw [List.filter_filter]
    apply List.filter_congr
    intro l _
    by_cases hl : kind l = k
    · simp [hl, hk]
    · simp [hl]
  rw [← hfilter lines, ← hfilter lines', h]

/-- The fields that no comment line fills. -/
theorem SameButComments.dtoOf_eq {lines lines' : List Line} (h : SameButComments lines lines') :
    dtoOf lines' = { dtoOf lines with comments := (dtoOf lines').comments } := by
  have hheader : headerLine lines' = headerLine lines := by
    rw [headerLine, headerLine, h.filter_eq (by decide)]
  have hclauses : clauseLines lines' = clauseLines lines := (h.filter_eq (by decide)).symm
  simp only [dtoOf, headerVariables, headerClauses, hheader, hclauses]

/-- The model apart from its comments comes from the other fields. -/
theorem map_withoutComments (order : Order) {dimacs : DimacsDto} (h : PlainComments dimacs) :
    (transformDimacs order dimacs).toOption.map withoutComments =
      if Fits dimacs then some (bodyText order dimacs) else none := by
  split
  · rename_i hfits
    rw [transformDimacs_ok order hfits]
    show some (splitComments none (modelText order dimacs)).2 = _
    rw [splitComments_modelText order h]
  · rename_i hfits
    obtain ⟨i, hi⟩ := transformDimacs_error order hfits
    rw [hi]
    rfl

/-- Comment lines change nothing but the comments, unless a bare `c` is what
makes the reader throw on one of the two files. -/
theorem comment_lines_are_inert_iff (order : Order) {lines lines' : List Line}
    (h : SameButComments lines lines') :
    SameModel order lines lines' ↔
      (HasBareComment lines ↔ HasBareComment lines') ∨ HasBadLine lines := by
  have hbad := h.hasBadLine_iff
  constructor
  · rintro ⟨hfails, -⟩
    rw [deserialize_fails_iff, deserialize_fails_iff, ← hbad] at hfails
    by_cases hb : HasBadLine lines
    · exact .inr hb
    · simp only [hb, or_false] at hfails
      exact .inl hfails
  · intro hcases
    constructor
    · rw [deserialize_fails_iff, deserialize_fails_iff, ← hbad]
      rcases hcases with hbare | hb
      · rw [hbare]
      · simp [hb]
    · intro d d' hd hd'
      obtain ⟨-, rfl⟩ := deserialize_eq_ok_iff.mp hd
      obtain ⟨-, rfl⟩ := deserialize_eq_ok_iff.mp hd'
      rw [map_withoutComments order (plainComments_dtoOf lines),
        map_withoutComments order (plainComments_dtoOf lines'), h.dtoOf_eq]
      exact ⟨rfl, rfl, rfl, rfl, rfl⟩

/-- A comment put in front of a file is inert, even one that looks like code. -/
theorem a_comment_like_code_is_inert :
    SameModel .insertion (read "p cnf 1 1\n1 0".toList)
      (read "c solve satisfy;\np cnf 1 1\n1 0".toList) :=
  (comment_lines_are_inert_iff _ (by unfold SameButComments; decide +kernel)).mpr
    (.inl (by unfold HasBareComment; decide +kernel))

/-- A bare `c` put in front of a file makes the reader throw. -/
theorem a_bare_comment_is_not_inert :
    SameButComments (read "p cnf 1 1".toList) (read "c\np cnf 1 1".toList) ∧
      ¬ SameModel .insertion (read "p cnf 1 1".toList) (read "c\np cnf 1 1".toList) := by
  refine ⟨by unfold SameButComments; decide +kernel, ?_⟩
  rintro ⟨hfails, -⟩
  obtain ⟨e, he⟩ := hfails.mpr ⟨.stringIndex (-1), by decide +kernel⟩
  have hok : deserialize (read "p cnf 1 1".toList) = .ok ⟨[], some "cnf".toList, 1, 1, []⟩ := by
    decide +kernel
  rw [hok] at he
  cases he

end reductor.transformer
