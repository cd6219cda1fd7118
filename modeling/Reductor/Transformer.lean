-- The writer of MiniZinc models: `DimacsTransformer.transformDimacs`, and the
-- two steps of `DimacsProcessor.run` that come before the file is written.
import Reductor.Dimacs

open reductor.java reductor.dimacs

namespace reductor.transformer

/-! ## The variable map -/

/-- The order in which the enumerations of the variable map run. -/
abbrev Order := Enumeration Int32 Text

/-- `variables.put(i + 1, String.format("Var%s", i + 1))` for each `i` below
`dimacs.getVariables()`. -/
def variableMap (count : Int32) : HashMap Int32 Text :=
  (List.range count.toInt.toNat).foldl (fun variables' i =>
    variables'.put (Int32.ofNat (i + 1)) ("Var".toList ++ intString (Int32.ofNat (i + 1)))) .empty

/-! ## The pieces of the text -/

def commentLine (comment : Text) : Text := PERCENTAGE ++ " ".toList ++ comment ++ "\n".toList

def declaration (variable' : Text) : Text :=
  "var 0..1 : ".toList ++ variable' ++ "; var 0..1 : n_".toList ++ variable' ++ ";\n".toList

def complement (variable' : Text) : Text :=
  "constraint ".toList ++ variable' ++ " + n_".toList ++ variable' ++ " = 1;\n".toList

def outputEntry (variable' : Text) : Text :=
  "\"".toList ++ variable' ++ "=\", show(".toList ++ variable' ++ "), \"\\t-".toList ++ variable' ++
    "=\", show(n_".toList ++ variable' ++ "), ".toList

/-! ## The clause loop -/

/-- One turn of the literal loop on `clausesBuilder`. -/
def appendValue (variables' : HashMap Int32 Text) (clausesBuilder : Text) (value : Int32) :
    Except Thrown Text :=
  if value < 0 then
    .ok (clausesBuilder ++ (" n_".toList ++ formatted (variables'.get (mathAbs value)) ++
      " + ".toList))
  else if 0 < value then
    .ok (clausesBuilder ++ (" ".toList ++ formatted (variables'.get value) ++ " + ".toList))
  else delete clausesBuilder (clausesBuilder.length - 2) clausesBuilder.length

/-- One turn of the clause loop: what it appends to `builder`. -/
def clauseLine (variables' : HashMap Int32 Text) (clauses : ClausesDto) : Except Thrown Text := do
  let clausesBuilder ← clauses.values.foldlM (appendValue variables') "constraint".toList
  return clausesBuilder ++ ">= 1;\n".toList

/-! ## The whole text -/

/-- `DimacsTransformer.transformDimacs` -/
def transformDimacs (order : Order) (dimacs : DimacsDto) : Except Thrown Text := do
  let builder := dimacs.comments.foldl (fun builder comment => builder ++ commentLine comment) []
  let variables' := variableMap dimacs.variables'
  let builder := (variables'.values order).foldl (fun b variable' => b ++ declaration variable')
    builder
  let builder := (variables'.values order).foldl (fun b variable' => b ++ complement variable')
    builder
  let builder ← dimacs.clausesDto.foldlM (fun b clauses => do
    return b ++ (← clauseLine variables' clauses)) builder
  let builder := builder ++ "solve satisfy;\n".toList
  let builder := builder ++ "output [".toList
  let builder := (variables'.values order).foldl (fun b variable' => b ++ outputEntry variable')
    builder
  let builder ← delete builder (builder.length - 2) builder.length
  return builder ++ "];".toList

/-- The content that `DimacsProcessor.run` hands to `serialize`. -/
def process (order : Order) (content : List Line) : Except Thrown Text := do
  let dimacs ← deserialize content
  transformDimacs order dimacs

end reductor.transformer
