-- The literals of Candy and the problem that its DIMACS reader builds.
import Reductor.Drup
import Reductor.Candy.ParseUtils
import Mathlib.Data.List.Sort

open reductor.streams reductor.drup

namespace reductor.candy

/-! ## Literals -/

/-- `Lit`: twice the variable, and one more for a negative literal. -/
structure Lit where
  x : Int
  deriving DecidableEq, Repr

/-- `operator ~` -/
def Lit.not (p : Lit) : Lit := ⟨Int.xor p.x 1⟩

def sign (p : Lit) : Bool := Int.land p.x 1 != 0

def var (p : Lit) : Int := p.x >>> (1 : Nat)

def lit_Undef : Lit := ⟨-2⟩

abbrev Cl := List Lit

/-! ## The problem -/

/-- `CNFProblem`, with the calls of its certificate so far. -/
structure CNFProblem where
  problem : List Cl := []
  maxVars : Int := 0
  headerVars : Int := 0
  headerClauses : Int := 0
  certificate : List (Line Lit) := []
  deriving DecidableEq, Repr

/-- The loop of `readClause` over the literals in their order: the literals
kept so far stand in front of the one that is read. The loop is left at once,
with no clause, at a literal that the one before contradicts. -/
def keepLits : (prev : Lit) → (maxVars : Int) → (kept : Cl) → Cl → Int × Option Cl
  | _, maxVars, kept, [] => (maxVars, some kept)
  | prev, maxVars, kept, lit :: lits =>
    if lit = prev.not then (maxVars, none)
    else if lit ≠ prev then keepLits lit (max maxVars (var lit + 1)) (kept ++ [lit]) lits
    else keepLits prev maxVars kept lits

/-- The order that `operator <` of `Lit` sorts by. -/
def Lit.le (p q : Lit) : Prop := p.x ≤ q.x

instance : DecidableRel Lit.le := fun p q => inferInstanceAs (Decidable (p.x ≤ q.x))

/-- `std::sort`: equal literals are one, so there is one way to sort them. -/
def sorted (lits : Cl) : Cl := lits.insertionSort Lit.le

/-- The calls of the certificate for a clause of which some literals are kept:
none, unless a literal has gone. -/
def shortened (lits clause : Cl) : List (Line Lit) :=
  if clause.length = lits.length then [] else [.added clause, .removed lits]

/-- `CNFProblem::readClause(begin, end)` -/
def CNFProblem.readClause (cnf : CNFProblem) (lits : Cl) : CNFProblem :=
  match keepLits lit_Undef cnf.maxVars [] (sorted lits) with
  | (maxVars, some clause) =>
    { cnf with
      problem := cnf.problem ++ [clause]
      maxVars := maxVars
      certificate := cnf.certificate ++ shortened lits clause }
  | (maxVars, none) =>
    { cnf with maxVars := maxVars, certificate := cnf.certificate ++ [.removed lits] }

/-! ## The reader -/

section

variable {σ : Type} [CharStream σ UInt8]

/-- `mkLit` -/
def mkLit (var : Int) (sign : Bool) : Parser σ Stop Lit := do
  return ⟨← int32 (var + var + sign.toInt)⟩

/-- One turn of the loop of `readClause(in)` over the integers. -/
def litTurn (a : Int × Cl) : Parser σ Stop (Int × Cl ⊕ Cl) :=
  if a.1 = 0 then return .inr a.2
  else do
    let lit ← mkLit (a.1.natAbs - 1) (decide (a.1 < 0))
    let plit ← parseInt
    return .inl (plit, a.2 ++ [lit])

/-- The literals that `CNFProblem::readClause(in)` reads up to a 0. -/
def readLits : Parser σ Stop Cl := do
  let plit ← parseInt
  loop litTurn (plit, [])

/-- The header: a vector takes no negative number of clauses. -/
def readHeader (cnf : CNFProblem) : Parser σ Stop CNFProblem := do
  if ← eagerMatch (ascii "p cnf") then
    let headerVars ← parseInt
    let headerClauses ← parseInt
    if headerClauses < 0 then fail .length
    else return { cnf with headerVars := headerVars, headerClauses := headerClauses }
  else fail (.expectedHeader (← peek))

/-- What the character in front is the start of: a header, a comment or a clause. -/
def readItem (c : Option UInt8) (cnf : CNFProblem) : Parser σ Stop CNFProblem :=
  if c = some 112 then readHeader cnf
  else if c = some 99 then do
    skipLine
    return cnf
  else do
    let lits ← readLits
    return cnf.readClause lits

/-- One turn of the loop of `parse_DIMACS`, which the end of the file ends. -/
def dimacsTurn (cnf : CNFProblem) : Parser σ Stop (CNFProblem ⊕ CNFProblem) := do
  let c ← peek
  if c.isNone then return .inr cnf
  else
    let cnf ← readItem c cnf
    skipWhitespace
    return .inl cnf

/-- `CNFProblem::parse_DIMACS`, without its warnings about the header. -/
def parse_DIMACS (cnf : CNFProblem) : Parser σ Stop CNFProblem := do
  skipWhitespace
  loop dimacsTurn cnf

theorem refines_mkLit (var : Int) (sign : Bool) :
    Refines (mkLit var sign : Parser σ Stop Lit) (mkLit var sign) :=
  (refines_int32 _).bind fun _ => refines_pure _

theorem refines_litTurn (a : Int × Cl) :
    Refines (litTurn a : Parser σ Stop (Int × Cl ⊕ Cl)) (litTurn a) := by
  apply (refines_pure _).ite
  apply (refines_mkLit _ _).bind
  intro lit
  exact refines_parseInt.bind fun _ => refines_pure _

theorem refines_readLits : Refines (readLits : Parser σ Stop Cl) readLits := by
  apply refines_parseInt.bind
  intro plit
  exact refines_loop refines_litTurn _

theorem refines_readHeader (cnf : CNFProblem) :
    Refines (readHeader cnf : Parser σ Stop CNFProblem) (readHeader cnf) := by
  apply (refines_eagerMatch _).bind
  intro matched
  apply Refines.ite
  · apply refines_parseInt.bind
    intro headerVars
    apply refines_parseInt.bind
    intro headerClauses
    exact (refines_fail _).ite (refines_pure _)
  · exact refines_peek.bind fun _ => refines_fail _

theorem refines_readItem (c : Option UInt8) (cnf : CNFProblem) :
    Refines (readItem c cnf : Parser σ Stop CNFProblem) (readItem c cnf) := by
  apply (refines_readHeader cnf).ite
  apply Refines.ite
  · exact refines_skipLine.bind fun _ => refines_pure _
  · exact refines_readLits.bind fun _ => refines_pure _

theorem refines_dimacsTurn (cnf : CNFProblem) :
    Refines (dimacsTurn cnf : Parser σ Stop (CNFProblem ⊕ CNFProblem)) (dimacsTurn cnf) := by
  apply refines_peek.bind
  intro c
  apply (refines_pure _).ite
  apply (refines_readItem c cnf).bind
  intro cnf
  exact refines_skipWhitespace.bind fun _ => refines_pure _

theorem refines_parse_DIMACS (cnf : CNFProblem) :
    Refines (parse_DIMACS cnf : Parser σ Stop CNFProblem) (parse_DIMACS cnf) :=
  refines_skipWhitespace.bind fun _ => refines_loop refines_dimacsTurn cnf

end

end reductor.candy
