-- The lexemes of a DIMACS file, which no layout changes: its comments, its
-- header, and the tokens of its clauses between spaces, tabs and line ends.
-- They are read off the text, whatever the reader takes a line for.
import Reductor.Entries
import Mathlib.Data.List.Chain

open reductor.java

namespace reductor.dimacs

/-! ## Runs of characters -/

/-- The runs of characters between separators. -/
def runs (sep : Char → Bool) (s : Text) : List Text :=
  (s.splitOnP sep).filter fun part => !part.isEmpty

variable {sep sep' : Char → Bool}

theorem runs_append {c : Char} (hc : sep c = true) (s t : Text) :
    runs sep (s ++ c :: t) = runs sep s ++ runs sep t := by
  rw [runs, List.splitOnP_append_cons s t hc, List.filter_append]
  rfl

theorem runs_cons {c : Char} (hc : sep c = true) (s : Text) : runs sep (c :: s) = runs sep s :=
  runs_append hc [] s

theorem runs_run {t : Text} (hne : t ≠ []) (h : ∀ c ∈ t, sep c = false) : runs sep t = [t] := by
  rw [runs, List.splitOnP_eq_singleton h, List.filter_cons_of_pos (by simpa using hne),
    List.filter_nil]

/-- A text is free of separators, or is cut at the first of them. -/
theorem cut_at_separator (sep : Char → Bool) (s : Text) :
    (∀ c ∈ s, sep c = false) ∨
      ∃ a c b, s = a ++ c :: b ∧ (∀ x ∈ a, sep x = false) ∧ sep c = true := by
  induction s with
  | nil => exact .inl (by simp)
  | cons c s ih =>
    by_cases hc : sep c = true
    · exact .inr ⟨[], c, s, rfl, by simp, hc⟩
    · have hc := Bool.eq_false_iff.mpr hc
      rcases ih with hs | ⟨a, d, b, rfl, ha, hd⟩
      · exact .inl (by simpa [hc] using hs)
      · exact .inr ⟨c :: a, d, b, rfl, by simpa [hc] using ha, hd⟩

/-- Runs cut again at more separators are the runs between these. -/
theorem flatMap_runs (h : ∀ c, sep' c = true → sep c = true) (s : Text) :
    (runs sep' s).flatMap (runs sep) = runs sep s := by
  induction hn : s.length using Nat.strongRecOn generalizing s with
  | ind n ih =>
    rcases cut_at_separator sep' s with hs | ⟨a, c, b, rfl, ha, hc⟩
    · by_cases hne : s = []
      · rw [hne]
        rfl
      · rw [runs_run hne hs, List.flatMap_singleton]
    · rw [List.length_append, List.length_cons] at hn
      rw [runs_append hc, runs_append (h c hc), List.flatMap_append,
        ih b.length (by omega) b rfl]
      by_cases hne : a = []
      · rw [hne]
        rfl
      · rw [runs_run hne ha, List.flatMap_singleton]

/-- Every character that is no separator is in a run. -/
theorem mem_runs_of_mem {s : Text} {c : Char} (hc : c ∈ s) (hsep : sep c = false) :
    ∃ t ∈ runs sep s, c ∈ t := by
  induction hn : s.length using Nat.strongRecOn generalizing s with
  | ind n ih =>
    rcases cut_at_separator sep s with hs | ⟨a, d, b, rfl, ha, hd⟩
    · rw [runs_run (List.ne_nil_of_mem hc) hs]
      exact ⟨s, List.mem_cons_self, hc⟩
    · rw [List.length_append, List.length_cons] at hn
      rw [runs_append hd]
      have hdc : c ≠ d := by
        rintro rfl
        rw [hd] at hsep
        cases hsep
      rcases List.mem_append.mp hc with hca | hcb
      · rw [runs_run (List.ne_nil_of_mem hca) ha]
        exact ⟨a, by simp, hca⟩
      · obtain ⟨t, ht, hct⟩ := ih b.length (by omega) ((List.mem_cons.mp hcb).resolve_left hdc) rfl
        exact ⟨t, List.mem_append_right _ ht, hct⟩

theorem runs_of_padding {s : Text} (h : ∀ c ∈ s, sep c = true) : runs sep s = [] := by
  induction s with
  | nil => rfl
  | cons c s ih =>
    rw [runs_cons (h c List.mem_cons_self), ih fun d hd => h d (List.mem_cons_of_mem c hd)]

/-- Separators around a text do not change its runs. -/
theorem runs_padded {front middle back : Text} (hfront : ∀ c ∈ front, sep c = true)
    (hback : ∀ c ∈ back, sep c = true) :
    runs sep (front ++ middle ++ back) = runs sep middle := by
  have hrest : runs sep (middle ++ back) = runs sep middle := by
    cases back with
    | nil => rw [List.append_nil]
    | cons c back =>
      rw [runs_append (hback c List.mem_cons_self),
        runs_of_padding fun d hd => hback d (List.mem_cons_of_mem c hd), List.append_nil]
  rw [List.append_assoc, ← hrest]
  induction front with
  | nil => rfl
  | cons c front ih =>
    rw [List.cons_append, runs_cons (hfront c List.mem_cons_self)]
    exact ih fun d hd => hfront d (List.mem_cons_of_mem c hd)

/-! ## Lexemes -/

/-- A space or a tab. -/
def isSpaceOrTab (c : Char) : Bool := c == ' ' || c == '\t'

def blankTokens (s : Text) : List Text := runs isSpaceOrTab s

/-- What a line is in DIMACS, by its first character that is no space and no tab. -/
def dimacsKind (l : Line) : LineKind :=
  match (l.chars.dropWhile isSpaceOrTab).head? with
  | none => .blank
  | some c => if c = 'c' then .comment else if c = 'p' then .problem else .clause

inductive Lexeme
  | comment (l : Line)
  | problem (l : Line)
  | token (t : Text)
  deriving DecidableEq

/-- A comment line or a header line, or the tokens of a line of clauses. -/
def lexemesOf (l : Line) : List Lexeme :=
  match dimacsKind l with
  | .comment => [.comment l]
  | .problem => [.problem l]
  | _ => (blankTokens l.chars).map .token

/-- What is left of a file without the layout of its clauses. -/
def lexemes (lines : List Line) : List Lexeme := lines.flatMap lexemesOf

def Lexeme.problem? : Lexeme → Option Line
  | .problem l => some l
  | _ => none

def Lexeme.token? : Lexeme → Option Text
  | .token t => some t
  | _ => none

/-- The tokens of all clauses. -/
def literalTokens (lines : List Line) : List Text := (lexemes lines).filterMap Lexeme.token?

def CNF : Text := "cnf".toList

/-- One header with a variable or more, and tokens that are clauses: each has
a literal, all of them in range, and a 0 at its end. -/
structure IsDimacs (n : Int32) (clauses : List (List Int32)) (lines : List Line) : Prop where
  header : ∃ l tn tm m, lines.filter (dimacsKind · = .problem) = [l] ∧
    blankTokens l.chars = [PROBLEM, CNF, tn, tm] ∧ Reads tn n ∧ Reads tm m
  variables' : 1 ≤ n.toInt
  tokens : List.Forall₂ Reads (literalTokens lines) (clauses.flatMap (· ++ [0]))
  clauses : ∀ ls ∈ clauses, ls ≠ [] ∧ ∀ v ∈ ls, v ≠ 0 ∧ (v.toInt.natAbs : Int) ≤ n.toInt

theorem filter_problem_lexemes (lines : List Line) :
    lines.filter (dimacsKind · = .problem) = (lexemes lines).filterMap Lexeme.problem? := by
  induction lines with
  | nil => rfl
  | cons l lines ih =>
    have htokens : ∀ ts : List Text, (ts.map Lexeme.token).filterMap Lexeme.problem? = [] := by
      intro ts
      rw [List.filterMap_map, List.filterMap_eq_nil_iff]
      exact fun _ _ => rfl
    rw [lexemes, List.flatMap_cons, List.filterMap_append, ← lexemes, ← ih, lexemesOf]
    cases hk : dimacsKind l with
    | blank =>
      rw [List.filter_cons_of_neg (by simp [hk])]
      exact (congrArg (· ++ _) (htokens _)).symm
    | comment =>
      rw [List.filter_cons_of_neg (by simp [hk])]
      rfl
    | problem =>
      rw [List.filter_cons_of_pos (by simp [hk])]
      rfl
    | clause =>
      rw [List.filter_cons_of_neg (by simp [hk])]
      exact (congrArg (· ++ _) (htokens _)).symm

/-- A second layout of a DIMACS file is one of the same clauses. -/
theorem IsDimacs.relayout {n : Int32} {clauses : List (List Int32)} {lines lines' : List Line}
    (h : IsDimacs n clauses lines) (hl : lexemes lines = lexemes lines') :
    IsDimacs n clauses lines' where
  header := by
    rw [filter_problem_lexemes, ← hl, ← filter_problem_lexemes]
    exact h.header
  variables' := h.variables'
  tokens := by
    rw [literalTokens, ← hl]
    exact h.tokens
  clauses := h.clauses

/-- A line of spaces and tabs has no token. -/
theorem blankTokens_of_blank {l : Line} (h : dimacsKind l = .blank) : blankTokens l.chars = [] := by
  refine runs_of_padding fun c hc => ?_
  unfold dimacsKind at h
  split at h
  · rename_i hnone
    rw [List.head?_eq_none_iff, List.dropWhile_eq_nil_iff] at hnone
    exact hnone c hc
  · split at h
    · cases h
    · split at h <;> cases h

/-- The tokens of all clauses are those of the lines of clauses, line after line. -/
theorem literalTokens_eq (lines : List Line) :
    literalTokens lines = (lines.filter (dimacsKind · = .clause)).flatMap
      fun l => blankTokens l.chars := by
  induction lines with
  | nil => rfl
  | cons l lines ih =>
    have htokens : ∀ ts : List Text, (ts.map Lexeme.token).filterMap Lexeme.token? = ts := by
      intro ts
      rw [List.filterMap_map]
      exact List.filterMap_some
    rw [literalTokens, lexemes, List.flatMap_cons, List.filterMap_append, ← lexemes,
      ← literalTokens, ih, lexemesOf]
    cases hk : dimacsKind l with
    | blank =>
      rw [List.filter_cons_of_neg (by simp [hk]), blankTokens_of_blank hk]
      rfl
    | comment =>
      rw [List.filter_cons_of_neg (by simp [hk])]
      rfl
    | problem =>
      rw [List.filter_cons_of_neg (by simp [hk])]
      rfl
    | clause =>
      rw [List.filter_cons_of_pos (by simp [hk]), List.flatMap_cons]
      exact congrArg (· ++ _) (htokens _)

end reductor.dimacs
