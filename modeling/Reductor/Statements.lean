-- The statements of an emitted text: what the lexer makes of each piece, for
-- every problem, well formed or not.
import Reductor.Emitted

open reductor.java reductor.dimacs reductor.minizinc

namespace reductor.transformer

attribute [local irreducible] String.toList

/-! ## The tokens of each piece -/

def declarationTokens (x : Text) : List Token :=
  [.keyword .var, .num 0, .dots, .num 1, .colon, .ident x]

def complementTokens (i : Nat) : List Token :=
  [.keyword .constraint, .ident (varName i), .plus, .ident (negName i), .eq, .num 1]

def showTokens (label x : Text) : List Token :=
  [.str label, .comma, .keyword .show, .lparen, .ident x, .rparen]

/-- The label in front of the value of a variable, and of its negation. -/
def label (i : Nat) : Text := varName i ++ ['=']

def negLabel (i : Nat) : Text := ['\t', '-'] ++ varName i ++ ['=']

def entryTokens (i : Nat) : List Token :=
  showTokens (label i) (varName i) ++ .comma :: showTokens (negLabel i) (negName i)

def outputTokens : List Nat → List Token
  | [] => [.keyword .output, .rbrack]
  | i :: is =>
    [.keyword .output, .lbrack] ++ (entryTokens i ++ is.flatMap fun j => .comma :: entryTokens j) ++
      [.rbrack]

def solveTokens : List Token := [.keyword .solve, .keyword .satisfy]

/-- The statements of the text after the comments. -/
def statementsOf (order : Order) (dimacs : DimacsDto) : List (List Token) :=
  (indices order dimacs.variables').flatMap (fun i =>
    [declarationTokens (varName i), declarationTokens (negName i)]) ++
  (indices order dimacs.variables').map complementTokens ++
  dimacs.clausesDto.map (fun c => clauseTokens dimacs.variables' c.values) ++
  [solveTokens, outputTokens (indices order dimacs.variables')]

/-! ## Scanning each piece -/

theorem scans_varName {i : Nat} {c : Char} {s : Text} {ts : List Token} {m : Mode}
    (hc : isWordChar c = false) (h : Scans .blank (c :: s) ts m) :
    Scans .blank (varName i ++ c :: s) (.ident (varName i) :: ts) m :=
  Scans.word (wordToken_varName i) (isWordChar_varName i) hc h

theorem scans_negName {i : Nat} {c : Char} {s : Text} {ts : List Token} {m : Mode}
    (hc : isWordChar c = false) (h : Scans .blank (c :: s) ts m) :
    Scans .blank (negName i ++ c :: s) (.ident (negName i) :: ts) m :=
  Scans.word (wordToken_negName i) (isWordChar_negName i) hc h

theorem scans_commentLine {comment : Text} (h : '\n' ∉ comment) :
    Scans .blank (commentLine comment) [] .blank := by
  have hstart : Scans .blank (PERCENTAGE ++ " ".toList) [] .comment := by decide +kernel
  have hend : "\n".toList = ['\n'] := by decide +kernel
  have hrest := hstart.append (scans_comment h)
  delta commentLine
  rw [hend, List.append_assoc]
  exact hrest

theorem scans_commentLines {comments : List Text} (h : ∀ comment ∈ comments, '\n' ∉ comment) :
    Scans .blank (comments.flatMap commentLine) [] .blank := by
  have hcomments := Scans.flatMap (l := comments) (f := commentLine) (g := fun _ => [])
    fun c hc => scans_commentLine (h c hc)
  have hnil : (comments.flatMap fun _ => ([] : List Token)) = [] := by
    rw [List.flatMap_eq_nil_iff]
    exact fun _ _ => rfl
  rwa [hnil] at hcomments

theorem scans_declaration (i : Nat) :
    Scans .blank (declaration (varName i))
      (declarationTokens (varName i) ++ .semi :: (declarationTokens (negName i) ++ [.semi]))
      .blank := by
  have hnext : "; var 0..1 : n_".toList = ';' :: (" var 0..1 : ".toList ++ "n_".toList) := by
    decide +kernel
  have hlast : ";\n".toList = [';', '\n'] := by decide +kernel
  have htext : declaration (varName i) = "var 0..1 : ".toList ++ (varName i ++
      ';' :: (" var 0..1 : ".toList ++ (negName i ++ [';', '\n']))) := by
    delta declaration negName
    simp only [hnext, hlast, List.append_assoc, List.cons_append]
  have hvar : Scans .blank "var 0..1 : ".toList
      [.keyword .var, .num 0, .dots, .num 1, .colon] .blank := by decide +kernel
  have hvar' : Scans .blank (';' :: " var 0..1 : ".toList)
      [.semi, .keyword .var, .num 0, .dots, .num 1, .colon] .blank := by decide +kernel
  have hend : Scans .blank [';', '\n'] [.semi] .blank := by decide +kernel
  rw [htext]
  exact hvar.append (scans_varName (by decide) (hvar'.append (scans_negName (by decide) hend)))

theorem scans_complement (i : Nat) :
    Scans .blank (complement (varName i)) (complementTokens i ++ [.semi]) .blank := by
  have hnext : " + n_".toList = ' ' :: ("+ ".toList ++ "n_".toList) := by decide +kernel
  have hlast : " = 1;\n".toList = ' ' :: "= 1;\n".toList := by decide +kernel
  have htext : complement (varName i) = "constraint ".toList ++ (varName i ++
      ' ' :: ("+ ".toList ++ (negName i ++ ' ' :: "= 1;\n".toList))) := by
    delta complement negName
    simp only [hnext, hlast, List.append_assoc, List.cons_append]
  have hconstraint : Scans .blank "constraint ".toList [.keyword .constraint] .blank := by
    decide +kernel
  have hplus : Scans .blank (' ' :: "+ ".toList) [.plus] .blank := by decide +kernel
  have hend : Scans .blank (' ' :: "= 1;\n".toList) [.eq, .num 1, .semi] .blank := by
    decide +kernel
  rw [htext]
  exact hconstraint.append
    (scans_varName (by decide) (hplus.append (scans_negName (by decide) hend)))

/-- Inside a string, the name of a variable is plain text. -/
theorem scans_str_varName (a : Text) (i : Nat) :
    Scans (.str a) (varName i) [] (.str (a ++ varName i)) := by
  apply scans_str
  intro c hc
  have hw := isWordChar_varName i c hc
  refine ⟨?_, ?_, ?_⟩
  all_goals
    rintro rfl
    exact absurd hw (by decide)

/-- A label ends with its sign and its quote; the call of `show` follows. -/
theorem scans_str_show (a : Text) :
    Scans (.str a) "=\", show(".toList [.str (a ++ ['=']), .comma, .keyword .show, .lparen]
      .blank := by
  have htext : "=\", show(".toList = ['=', '"'] ++ ", show(".toList := by decide +kernel
  have hquote : Scans (.str a) ['=', '"'] [.str (a ++ ['='])] .blank := rfl
  have hshow : Scans .blank ", show(".toList [.comma, .keyword .show, .lparen] .blank := by
    decide +kernel
  rw [htext]
  exact hquote.append hshow

theorem scans_entryText (i : Nat) :
    Scans .blank (entryText i) (entryTokens i) .blank := by
  have hnext : "), \"\\t-".toList = ')' :: ", \"\\t-".toList := by decide +kernel
  have hneg : "=\", show(n_".toList = "=\", show(".toList ++ "n_".toList := by decide +kernel
  have hlast : ")".toList = [')'] := by decide +kernel
  have htext : entryText i = "\"".toList ++ (varName i ++ ("=\", show(".toList ++ (varName i ++
      ')' :: (", \"\\t-".toList ++ (varName i ++ ("=\", show(".toList ++
        (negName i ++ [')']))))))) := by
    delta entryText negName
    simp only [hnext, hneg, hlast, List.append_assoc, List.cons_append]
  have hquote : Scans .blank "\"".toList [] (.str []) := by decide +kernel
  have hnextLabel : Scans .blank (')' :: ", \"\\t-".toList) [.rparen, .comma]
      (.str ['\t', '-']) := by decide +kernel
  have hend : Scans .blank [')'] [.rparen] .blank := by decide +kernel
  rw [htext]
  exact hquote.append ((scans_str_varName _ i).append ((scans_str_show _).append
    (scans_varName (by decide) (hnextLabel.append ((scans_str_varName _ i).append
      ((scans_str_show _).append (scans_negName (by decide) hend)))))))

theorem scans_outputText (is : List Nat) :
    Scans .blank (outputText is) (outputTokens is ++ [.semi]) .blank := by
  have hcomma : Scans .blank ", ".toList [.comma] .blank := by decide +kernel
  have hnone : Scans .blank "output];".toList [.keyword .output, .rbrack, .semi] .blank := by
    decide +kernel
  have hopen : Scans .blank "output [".toList [.keyword .output, .lbrack] .blank := by
    decide +kernel
  have hclose : Scans .blank "];".toList [.rbrack, .semi] .blank := by decide +kernel
  cases is with
  | nil => exact hnone
  | cons i is =>
    have hall := (hopen.append ((scans_entryText i).append
      (Scans.flatMap (l := is) fun j _ => hcomma.append (scans_entryText j)))).append hclose
    rw [outputTokens, List.append_assoc _ [Token.rbrack]]
    exact hall

/-- The text after the comments is made of its statements. -/
theorem scans_bodyText (order : Order) {dimacs : DimacsDto} (h : Fits dimacs) :
    Scans .blank (bodyText order dimacs) ((statementsOf order dimacs).flatMap (· ++ [.semi]))
      .blank := by
  have hdeclarations := Scans.flatMap (l := indices order dimacs.variables')
    fun i _ => scans_declaration i
  have hcomplements := Scans.flatMap (l := indices order dimacs.variables')
    fun i _ => scans_complement i
  have hclauses := Scans.flatMap (l := dimacs.clausesDto) fun c hc => scans_clauseLine (h c hc)
  have hsolve : Scans .blank "solve satisfy;\n".toList (solveTokens ++ [.semi]) .blank := by
    decide +kernel
  have houtput := scans_outputText (indices order dimacs.variables')
  have hall := (((hdeclarations.append hcomplements).append hclauses).append hsolve).append houtput
  unfold Scans at hall ⊢
  refine Eq.trans hall ?_
  simp only [statementsOf, List.flatMap_append, List.flatMap_assoc, List.flatMap_map,
    List.flatMap_cons, List.flatMap_nil, List.append_nil, List.append_assoc, List.cons_append,
    List.nil_append]

/-- No comment has a line feed, as `readLine` guarantees. -/
def PlainComments (dimacs : DimacsDto) : Prop := ∀ comment ∈ dimacs.comments, '\n' ∉ comment

theorem plainComments_dtoOf (lines : List Line) : PlainComments (dtoOf lines) := by
  intro comment hcomment hnewline
  obtain ⟨l, -, rfl⟩ := List.mem_map.mp hcomment
  exact (l.one_line '\n' (List.mem_of_mem_drop hnewline)).1 rfl

theorem scans_modelText (order : Order) {dimacs : DimacsDto} (h : Fits dimacs)
    (hc : PlainComments dimacs) :
    Scans .blank (modelText order dimacs) ((statementsOf order dimacs).flatMap (· ++ [.semi]))
      .blank :=
  (scans_commentLines hc).append (scans_bodyText order h)

theorem lex_modelText (order : Order) {dimacs : DimacsDto} (h : Fits dimacs)
    (hc : PlainComments dimacs) :
    lex (modelText order dimacs) = some ((statementsOf order dimacs).flatMap (· ++ [.semi])) :=
  lex_of_scans (scans_modelText order h hc)

/-! ## The statements read back -/

theorem semi_notMem_outputTokens (is : List Nat) : Token.semi ∉ outputTokens is := by
  have hentry : ∀ i, Token.semi ∉ entryTokens i := fun i => by
    simp [entryTokens, showTokens]
  cases is with
  | nil => decide
  | cons i is =>
    simp only [outputTokens, List.mem_append, List.mem_flatMap, List.mem_cons, List.not_mem_nil,
      not_or, not_exists, not_and, or_false]
    refine ⟨⟨by simp, hentry i, fun j _ => ⟨by simp, hentry j⟩⟩, by simp⟩

theorem semi_notMem_statementsOf (order : Order) (dimacs : DimacsDto) :
    ∀ statement ∈ statementsOf order dimacs, Token.semi ∉ statement := by
  intro statement h
  simp only [statementsOf, List.mem_append, List.mem_flatMap, List.mem_map, List.mem_cons,
    List.not_mem_nil, or_false] at h
  rcases h with ((⟨i, -, rfl | rfl⟩ | ⟨i, -, rfl⟩) | ⟨c, -, rfl⟩) | rfl | rfl
  · simp [declarationTokens]
  · simp [declarationTokens]
  · simp [complementTokens]
  · exact semi_notMem_clauseTokens _ _
  · decide
  · exact semi_notMem_outputTokens _

/-- An emitted text is cut into the statements of its problem. -/
theorem textStatements_modelText (order : Order) {dimacs : DimacsDto} (h : Fits dimacs)
    (hc : PlainComments dimacs) :
    textStatements (modelText order dimacs) = some (statementsOf order dimacs) := by
  rw [textStatements, lex_modelText order h hc, Option.bind_some]
  exact statements_flatMap (semi_notMem_statementsOf order dimacs)

theorem parse_modelText (order : Order) {dimacs : DimacsDto} (h : Fits dimacs)
    (hc : PlainComments dimacs) :
    parse (modelText order dimacs) = (statementsOf order dimacs).mapM parseItem := by
  rw [parse, textStatements_modelText order h hc, Option.bind_some]

end reductor.transformer
