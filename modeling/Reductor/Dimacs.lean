-- The reader of DIMACS files: `FileUtils.read` cuts a file into lines, and
-- `DimacsTransformer.deserialize` folds the lines into a `DimacsDto`.
import Reductor.JavaText

open reductor.java

namespace reductor.dimacs

/-! ## Constants -/

def PERCENTAGE : Text := "%".toList
def COMMENT : Text := "c".toList
def PROBLEM : Text := "p".toList
def SPACE : Text := " ".toList
def CNF_EXT : Text := ".cnf".toList
def MINIZINC_EXT : Text := ".mzn".toList

/-! ## The lines of a file -/

/-- A line as `BufferedReader.readLine` gives it, without its terminator. -/
structure Line where
  chars : Text
  one_line : ∀ c ∈ chars, c ≠ '\n' ∧ c ≠ '\r'
  deriving DecidableEq

def Line.nil : Line := ⟨[], by simp⟩

def Line.cons (c : Char) (l : Line) (h : c ≠ '\n' ∧ c ≠ '\r') : Line :=
  ⟨c :: l.chars, fun d hd => by
    rcases List.mem_cons.mp hd with rfl | hd
    · exact h
    · exact l.one_line d hd⟩

/-- `FileUtils.read`: a line ends at a line feed, at a carriage return, or at
the two of them. Text after the last terminator is a line of its own. -/
def read : Text → List Line
  | [] => []
  | '\r' :: '\n' :: s => .nil :: read s
  | c :: s =>
    if h : c ≠ '\n' ∧ c ≠ '\r' then
      match read s with
      | [] => [Line.nil.cons c h]
      | l :: ls => l.cons c h :: ls
    else .nil :: read s

/-! ## The data of a problem -/

structure ClausesDto where
  values : List Int32 := []
  deriving DecidableEq, Repr

def ClausesDto.addValue (clauses : ClausesDto) (value : Int32) : ClausesDto :=
  { clauses with values := clauses.values ++ [value] }

/-- The fields of a new object: empty lists, no format, zeros. -/
structure DimacsDto where
  comments : List Text := []
  format : Option Text := none
  variables' : Int32 := 0
  clauses : Int32 := 0
  clausesDto : List ClausesDto := []
  deriving DecidableEq, Repr

def DimacsDto.addComment (dimacs : DimacsDto) (comment : Text) : DimacsDto :=
  { dimacs with comments := dimacs.comments ++ [comment] }

def DimacsDto.addClausesDto (dimacs : DimacsDto) (clausesDto : ClausesDto) : DimacsDto :=
  { dimacs with clausesDto := dimacs.clausesDto ++ [clausesDto] }

/-! ## The reader -/

/-- `StringUtils.trim` -/
def StringUtils.trim (parts : List Text) : List Text :=
  parts.filter fun part => !part.isEmpty && part != SPACE

/-- One turn of the loop over the parts of a clause line. The catch of
`NumberFormatException` goes on with the next part. -/
def addPart (clausesDto : ClausesDto) (part : Text) : ClausesDto :=
  match valueOf part with
  | .ok value => clausesDto.addValue value
  | .error _ => clausesDto

/-- One turn of the line loop of `deserialize`. -/
def deserializeLine (dimacs : DimacsDto) (line : Line) : Except Thrown DimacsDto := do
  let parts := StringUtils.trim (split (java.trim line.chars) ' ')
  let first ← element parts 0
  if first = COMMENT then
    let comment ← substring line.chars 2 line.chars.length
    return dimacs.addComment comment
  else if first = PROBLEM then
    let dimacs := { dimacs with format := some (← element parts 1) }
    let dimacs := { dimacs with variables' := ← valueOf (← element parts 2) }
    return { dimacs with clauses := ← valueOf (← element parts 3) }
  else
    return dimacs.addClausesDto (parts.foldl addPart {})

/-- `DimacsTransformer.deserialize`, on the lines that `FileUtils.read` gives. -/
def deserialize (content : List Line) : Except Thrown DimacsDto :=
  content.foldlM deserializeLine {}

end reductor.dimacs
