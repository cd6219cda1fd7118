-- Candy's solver before its first decision: the clauses of a problem are
-- added one by one, unit clauses are propagated through two watched literals
-- of each clause, satisfied clauses are removed and false literals are cut off.
import Reductor.Candy.Clauses
import Mathlib.Logic.Function.Basic

open reductor.drup

namespace reductor.candy

/-! ## Memory -/

/-- `Clause*` -/
abbrev Ref := Nat

/-- `Clause`, with its flag for the allocator. -/
structure Clause where
  literals : Cl := []
  deleted : Bool := false
  deriving DecidableEq, Repr

/-- The constructor of `Clause`: the length has sixteen bits, and a longer
clause loses its end. -/
def Clause.ofLits (lits : Cl) : Clause := { literals := lits.take (lits.length % 2 ^ 16) }

/-- `Clause::swap` -/
def swap (c : Cl) (i j : Nat) : Cl :=
  (c.set i (c.getD j lit_Undef)).set j (c.getD i lit_Undef)

structure Watcher where
  cref : Ref
  blocker : Lit
  deriving DecidableEq, Repr

/-- `OccLists`: a list for each literal, and the literals whose lists may
hold elements that are gone. -/
structure OccLists (ε : Type) where
  occs : Lit → List ε := fun _ => []
  dirties : List Lit := []

section

variable {ε : Type}

def OccLists.set (o : OccLists ε) (idx : Lit) (es : List ε) : OccLists ε :=
  { o with occs := Function.update o.occs idx es }

def OccLists.push (o : OccLists ε) (idx : Lit) (e : ε) : OccLists ε :=
  o.set idx (o.occs idx ++ [e])

def OccLists.smudge (o : OccLists ε) (idx : Lit) : OccLists ε :=
  if o.dirties.contains idx then o else { o with dirties := o.dirties ++ [idx] }

def OccLists.cleanAll (deleted : ε → Bool) (o : OccLists ε) : OccLists ε where
  occs idx := if o.dirties.contains idx then (o.occs idx).filter (!deleted ·) else o.occs idx

end

/-- What `Solver` holds before its first decision: there are no learnt
clauses, and the level of each variable is 0. The memory of a clause is taken
up to `allocated`. -/
structure Solver where
  clause : Ref → Clause := fun _ => {}
  allocated : Ref := 0
  clauses : List Ref := []
  watches : OccLists Watcher := {}
  watchesBin : OccLists Watcher := {}
  assigns : Int → Option Bool := fun _ => none
  reason : Int → Option Ref := fun _ => none
  trail : List Lit := []
  qhead : Nat := 0
  nVars : Int := 0
  certificate : List (Line Lit) := []
  ok : Bool := true

/-- Why a run of the solver gives nothing: an assertion that fails, or a loop
that was cut short. -/
inductive Abort
  | assertion
  | outOfFuel
  deriving DecidableEq, Repr

namespace Solver

/-- `value` of a literal: `l_True`, `l_False` or, for `none`, `l_Undef`. -/
def value (s : Solver) (p : Lit) : Option Bool := (s.assigns (var p)).map (· != sign p)

def literals (s : Solver) (cr : Ref) : Cl := (s.clause cr).literals

def satisfied (s : Solver) (cr : Ref) : Bool := (s.literals cr).any fun p => s.value p == some true

def setLiterals (s : Solver) (cr : Ref) (lits : Cl) : Solver :=
  { s with clause := Function.update s.clause cr ⟨lits, (s.clause cr).deleted⟩ }

def setDeleted (s : Solver) (cr : Ref) : Solver :=
  { s with clause := Function.update s.clause cr ⟨s.literals cr, true⟩ }

/-- `new (allocator.allocate(..)) Clause(..)` -/
def alloc (s : Solver) (c : Clause) : Ref × Solver :=
  (s.allocated,
    { s with clause := Function.update s.clause s.allocated c, allocated := s.allocated + 1 })

def pushWatch (s : Solver) (l : Lit) (w : Watcher) : Solver :=
  { s with watches := s.watches.push l w }

def setReason (s : Solver) (x : Int) (cr : Option Ref) : Solver :=
  { s with reason := Function.update s.reason x cr }

/-- `locked`: the clause is the reason of a literal of its own. -/
def locked (s : Solver) (cr : Ref) : Bool :=
  let c := s.literals cr
  let owns (p : Lit) := s.value p == some true && s.reason (var p) == some cr
  if 2 < c.length then owns (c.getD 0 lit_Undef)
  else owns (c.getD 0 lit_Undef) || owns (c.getD 1 lit_Undef)

/-- The literal at the end of the trail, with its reason. -/
def enqueued (s : Solver) (p : Lit) (cr : Option Ref) : Solver :=
  { s with
    assigns := Function.update s.assigns (var p) (some (!sign p))
    reason := Function.update s.reason (var p) cr
    trail := s.trail ++ [p] }

def uncheckedEnqueue (s : Solver) (p : Lit) (cr : Option Ref) : Except Abort Solver :=
  if s.value p = none then .ok (s.enqueued p cr) else .error .assertion

def attachClause (s : Solver) (cr : Ref) : Except Abort Solver :=
  match s.literals cr with
  | [first, second] =>
    .ok { s with watchesBin :=
      (s.watchesBin.push first.not ⟨cr, second⟩).push second.not ⟨cr, first⟩ }
  | first :: second :: _ =>
    .ok ((s.pushWatch first.not ⟨cr, second⟩).pushWatch second.not ⟨cr, first⟩)
  | _ => .error .assertion

/-- `detachClause`, which is not strict here: the lists are cleaned later. -/
def detachClause (s : Solver) (cr : Ref) : Except Abort Solver :=
  match s.literals cr with
  | [first, second] =>
    .ok { s with watchesBin := (s.watchesBin.smudge first.not).smudge second.not }
  | first :: second :: _ =>
    .ok { s with watches := (s.watches.smudge first.not).smudge second.not }
  | _ => .error .assertion

/-- `watches.cleanAll()` and `watchesBin.cleanAll()` -/
def cleanAll (s : Solver) : Solver :=
  let deleted (w : Watcher) := (s.clause w.cref).deleted
  { s with watches := s.watches.cleanAll deleted, watchesBin := s.watchesBin.cleanAll deleted }

/-- `freeMarkedClauses(clauses)` -/
def freeMarkedClauses (s : Solver) : Solver :=
  { s with clauses := s.clauses.filter fun cr => !(s.clause cr).deleted }

/-! ## Propagation -/

/-- The loop of `propagate` over the watchers of binary clauses. -/
def propagateBin : List Watcher → Solver → Except Abort (Option Ref × Solver)
  | [], s => .ok (none, s)
  | w :: ws, s =>
    if s.value w.blocker = some false then .ok (some w.cref, s)
    else if s.value w.blocker = none then do
      let s ← s.uncheckedEnqueue w.blocker (some w.cref)
      propagateBin ws s
    else propagateBin ws s

/-- What becomes of a watcher: it stays where it is, its clause is watched at
another literal, or its clause is a conflict. -/
inductive Visit
  | keep (w : Watcher) (s : Solver)
  | moved (s : Solver)
  | conflict (w : Watcher) (s : Solver)

/-- One turn of the loop of `propagate` over the other watchers of `p`. -/
def visit (s : Solver) (p : Lit) (w : Watcher) : Except Abort Visit :=
  if s.value w.blocker = some true then .ok (.keep w s)
  else
    -- make sure the false literal is the second one
    let c := s.literals w.cref
    let c := if c.getD 0 lit_Undef = p.not then swap c 0 1 else c
    let s := s.setLiterals w.cref c
    let first := c.getD 0 lit_Undef
    let w := { w with blocker := first }
    if s.value first = some true then .ok (.keep w s)
    else
      match (c.drop 2).findIdx? fun q => s.value q != some false with
      | some k =>
        let c := swap c 1 (k + 2)
        let s := s.setLiterals w.cref c
        let second := c.getD 1 lit_Undef
        .ok (.moved (s.pushWatch second.not ⟨w.cref, first⟩))
      | none =>
        if s.value first = some false then .ok (.conflict w s)
        else do
          let s ← s.uncheckedEnqueue first (some w.cref)
          return .keep w s

/-- The loop over the watchers of `p` that are still to be visited. Those that
stay make up the list of `p`, and a conflict leaves the rest in it. -/
def propagateWatches (p : Lit) : List Watcher → Solver → Except Abort (Option Ref × Solver)
  | [], s => .ok (none, s)
  | w :: ws, s => do
    match ← s.visit p w with
    | .keep w s => propagateWatches p ws (s.pushWatch p w)
    | .moved s => propagateWatches p ws s
    | .conflict w s =>
      return (some w.cref, { s with watches := s.watches.set p (s.watches.occs p ++ w :: ws) })

/-- The loop of `propagate` over the trail. -/
def propagateLoop : Nat → Solver → Except Abort (Option Ref × Solver)
  | 0, _ => .error .outOfFuel
  | fuel + 1, s =>
    match s.trail[s.qhead]? with
    | none => .ok (none, s)
    | some p => do
      let s := { s with qhead := s.qhead + 1 }
      let (confl, s) ← propagateBin (s.watchesBin.occs p) s
      if confl.isSome then return (confl, s)
      let (confl, s) ← propagateWatches p (s.watches.occs p)
        { s with watches := s.watches.set p [] }
      if confl.isSome then return (confl, s)
      propagateLoop fuel s

/-- `propagate`: a turn for each variable, and one for the end. -/
def propagate (s : Solver) : Except Abort (Option Ref × Solver) :=
  propagateLoop (s.nVars.toNat + 1) s.cleanAll

/-! ## Clauses -/

def addClause (s : Solver) (lits : Cl) : Except Abort Solver :=
  match lits with
  | [] => .ok { s with ok := false }
  | [p] =>
    match s.value p with
    | none => do
      let s ← s.uncheckedEnqueue p none
      let (confl, s) ← s.propagate
      return { s with ok := confl.isNone }
    | some true => .ok (s.setReason (var p) none)
    | some false => .ok { s with ok := false }
  | _ =>
    let (cr, s) := s.alloc (.ofLits lits)
    { s with clauses := s.clauses ++ [cr] }.attachClause cr

def removeClause (s : Solver) (cr : Ref) : Except Abort Solver := do
  let c := s.literals cr
  let s := { s with certificate := s.certificate ++ [Line.removed c] }
  let s ← s.detachClause cr
  let s := if s.locked cr then s.setReason (var (c.getD 0 lit_Undef)) none else s
  return s.setDeleted cr

/-- `simplify`, with its result in `ok`. -/
def simplify (s : Solver) : Except Abort Solver :=
  if s.ok then do
    let (confl, s) ← s.propagate
    if confl.isSome then return { s with ok := false }
    let s ← s.clauses.foldlM (fun s cr => if s.satisfied cr then s.removeClause cr else pure s) s
    return s.cleanAll.freeMarkedClauses
  else return s

/-- One turn of the first loop of `strengthen`: the false literals of a clause
are cut off, and the clause is noted. -/
def cutOff (a : List Ref × Solver) (cr : Ref) : Except Abort (List Ref × Solver) :=
  let (strengthened, s) := a
  let c := s.literals cr
  if !(s.clause cr).deleted && c.any fun p => s.value p == some false then do
    let s ← s.detachClause cr
    let rest := c.filter fun p => s.value p != some false
    let s := { s with certificate := s.certificate ++ [Line.removed c, .added rest] }
    return (strengthened ++ [cr], s.setLiterals cr rest)
  else return a

/-- One turn of the second loop of `strengthen`: what is left of the clause is
a literal to enqueue, or a clause that takes its place. -/
def replaceClause (s : Solver) (cr : Ref) : Except Abort Solver := do
  let s ←
    match s.literals cr with
    | [p] =>
      if s.value p = some true then pure (s.setReason (var p) none)
      else s.uncheckedEnqueue p none
    | c => do
      let (clean, s) := s.alloc (s.clause cr)
      let s := if s.locked cr then s.setReason (var (c.getD 0 lit_Undef)) (some clean) else s
      let s ← s.attachClause clean
      pure { s with clauses := s.clauses ++ [clean] }
  return s.setDeleted cr

def strengthen (s : Solver) : Except Abort Solver := do
  let (strengthened, s) ← s.clauses.foldlM cutOff ([], s)
  let s ← strengthened.foldlM replaceClause s
  let (confl, s) ← s.cleanAll.freeMarkedClauses.propagate
  return { s with ok := confl.isNone }

/-- The loop of `addClauses`, which the first conflict ends. -/
def addAll : List Cl → Solver → Except Abort Solver
  | [], s => .ok s
  | c :: cs, s => do
    let s ← s.addClause c
    if s.ok then addAll cs s else return s

/-- `addClauses` -/
def addClauses (s : Solver) (cnf : CNFProblem) : Except Abort Solver := do
  let s ← addAll cnf.problem { s with nVars := max s.nVars cnf.maxVars }
  if s.ok then
    let s ← s.simplify
    if s.ok then s.strengthen else return s
  else return s

end Solver

end reductor.candy
