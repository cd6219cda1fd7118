-- The reader of Candy ends on every file, and what it makes of a file does
-- not depend on the buffer through which it reads.
import Reductor.Candy.CNFProblem

open reductor.streams

namespace reductor.candy

/-! ## Every turn that goes on takes a byte -/

theorem takes_whitespaceTurn : Takes (whitespaceTurn : Unit → Parser Bytes Stop (Unit ⊕ Unit)) := by
  intro a s b s' h
  rw [whitespaceTurn, peek_bind] at h
  cases s with
  | nil => cases h
  | cons c s =>
    by_cases hc : (c :: s).head?.any isWhitespace = true
    · rw [if_pos hc] at h
      cases h
      exact Nat.lt_succ_self _
    · rw [if_neg hc] at h
      cases h

theorem takes_lineTurn : Takes (lineTurn : Unit → Parser Bytes Stop (Unit ⊕ Unit)) := by
  intro a s b s' h
  rw [lineTurn, peek_bind] at h
  cases s with
  | nil => cases h
  | cons c s =>
    rw [if_neg (by simp), advance_bind] at h
    by_cases hc : (c :: s).head? = some 10
    · rw [if_pos hc] at h
      cases h
    · rw [if_neg hc] at h
      cases h
      exact Nat.lt_succ_self _

theorem takes_digitTurn : Takes (digitTurn : Int → Parser Bytes Stop (Int ⊕ Int)) := by
  intro a s b s' h
  rw [digitTurn, peek_bind] at h
  cases s with
  | nil => cases h
  | cons c s =>
    by_cases hc : (c :: s).head?.any isDigit = true
    · rw [if_pos hc] at h
      obtain ⟨val, t, hval, h⟩ := bind_eq_ok h
      have ht : t = c :: s := by
        unfold int32 at hval
        split at hval
        · cases hval
          rfl
        · cases hval
      rw [ht] at h
      cases h
      exact Nat.lt_succ_self _
    · rw [if_neg hc] at h
      cases h

/-! ## Every function ends -/

theorem ends_int32 (z : Int) : Ends (int32 z : Parser Bytes Stop Int) :=
  (ends_pure z).ite (ends_fail _)

theorem ends_skipWhitespace : Ends (skipWhitespace : Parser Bytes Stop Unit) := by
  refine Ends.loop (fun _ => ?_) takes_whitespaceTurn ()
  apply ends_peek.bind
  intro c
  exact (ends_advance.bind fun _ => ends_pure _).ite (ends_pure _)

theorem ends_skipLine : Ends (skipLine : Parser Bytes Stop Unit) := by
  refine Ends.loop (fun _ => ?_) takes_lineTurn ()
  apply ends_peek.bind
  intro c
  exact (ends_pure _).ite (ends_advance.bind fun _ => ends_pure _)

theorem ends_digits (val : Int) : Ends (loop digitTurn val : Parser Bytes Stop Int) := by
  refine Ends.loop (fun val => ?_) takes_digitTurn val
  apply ends_peek.bind
  intro c
  apply Ends.ite
  · apply (ends_int32 _).bind
    intro val
    exact ends_advance.bind fun _ => ends_pure _
  · exact ends_pure _

theorem ends_parseSign : Ends (parseSign : Parser Bytes Stop Bool) := by
  apply ends_peek.bind
  intro c
  apply (ends_advance.bind fun _ => ends_pure _).ite
  exact (ends_advance.bind fun _ => ends_pure _).ite (ends_pure _)

theorem ends_parseInt : Ends (parseInt : Parser Bytes Stop Int) := by
  apply ends_skipWhitespace.bind
  intro _
  apply ends_parseSign.bind
  intro neg
  apply ends_peek.bind
  intro c
  exact ((ends_digits 0).bind fun _ => ends_pure _).ite (ends_fail _)

theorem ends_eagerMatch (str : Bytes) : Ends (eagerMatch str : Parser Bytes Stop Bool) := by
  induction str with
  | nil => exact ends_pure _
  | cons c str ih =>
    apply ends_peek.bind
    intro c'
    exact (ends_advance.bind fun _ => ih).ite (ends_pure _)

/-- An integer has a digit at least. -/
theorem parseInt_takes {s s' : Bytes} {z : Int}
    (h : (parseInt : Parser Bytes Stop Int) s = .ok (z, s')) : s'.length < s.length := by
  obtain ⟨_, t, hspace, h⟩ := bind_eq_ok h
  obtain ⟨neg, u, hsign, h⟩ := bind_eq_ok h
  have hspace := ends_skipWhitespace.shrinks _ _ _ hspace
  have hsign := ends_parseSign.shrinks _ _ _ hsign
  rw [peek_bind] at h
  cases u with
  | nil => cases h
  | cons c u =>
    by_cases hc : (c :: u).head?.any isDigit = true
    · rw [if_pos hc] at h
      obtain ⟨val, v, hloop, h⟩ := bind_eq_ok h
      cases h
      rw [loop_eq takes_digitTurn] at hloop
      cases hturn : digitTurn 0 (c :: u) with
      | error e =>
        rw [hturn] at hloop
        cases hloop
      | ok r =>
        rw [hturn] at hloop
        obtain ⟨val' | val', w⟩ := r
        · have hless := takes_digitTurn _ _ _ _ hturn
          have hrest := (ends_digits val').shrinks w _ _ hloop
          omega
        · -- The first turn is at a digit, and goes on.
          rw [digitTurn, peek_bind, if_pos hc] at hturn
          obtain ⟨val'', x, -, hturn⟩ := bind_eq_ok hturn
          cases hturn
    · rw [if_neg hc] at h
      cases h

theorem takes_litTurn : Takes (litTurn : Int × Cl → Parser Bytes Stop (Int × Cl ⊕ Cl)) := by
  intro a s b s' h
  unfold litTurn at h
  by_cases hz : a.1 = 0
  · rw [if_pos hz] at h
    cases h
  · rw [if_neg hz] at h
    obtain ⟨lit, t, hlit, h⟩ := bind_eq_ok h
    obtain ⟨plit', u, hint, h⟩ := bind_eq_ok h
    cases h
    have hlit := ((ends_int32 _).bind fun _ => ends_pure _).shrinks _ _ _ hlit
    have hint := parseInt_takes hint
    omega

theorem ends_litTurn (a : Int × Cl) : Ends (litTurn a : Parser Bytes Stop (Int × Cl ⊕ Cl)) := by
  apply (ends_pure _).ite
  apply ((ends_int32 _).bind fun _ => ends_pure _).bind
  intro lit
  exact ends_parseInt.bind fun _ => ends_pure _

theorem ends_readLits : Ends (readLits : Parser Bytes Stop Cl) := by
  apply ends_parseInt.bind
  intro plit
  exact Ends.loop ends_litTurn takes_litTurn _

theorem readLits_takes {s s' : Bytes} {lits : Cl}
    (h : (readLits : Parser Bytes Stop Cl) s = .ok (lits, s')) : s'.length < s.length := by
  obtain ⟨plit, t, hint, h⟩ := bind_eq_ok h
  have hint := parseInt_takes hint
  have hloop := (Ends.loop ends_litTurn takes_litTurn _).shrinks _ _ _ h
  omega

theorem ends_readHeader (cnf : CNFProblem) :
    Ends (readHeader cnf : Parser Bytes Stop CNFProblem) := by
  apply (ends_eagerMatch _).bind
  intro matched
  apply Ends.ite
  · apply ends_parseInt.bind
    intro headerVars
    apply ends_parseInt.bind
    intro headerClauses
    exact (ends_fail _).ite (ends_pure _)
  · exact ends_peek.bind fun _ => ends_fail _

theorem readHeader_takes {cnf cnf' : CNFProblem} {s s' : Bytes}
    (h : (readHeader cnf : Parser Bytes Stop CNFProblem) s = .ok (cnf', s')) :
    s'.length < s.length := by
  obtain ⟨matched, t, hmatch, h⟩ := bind_eq_ok h
  have hmatch := (ends_eagerMatch _).shrinks _ _ _ hmatch
  by_cases hm : matched = true
  · rw [if_pos hm] at h
    obtain ⟨headerVars, u, hvars, h⟩ := bind_eq_ok h
    obtain ⟨headerClauses, v, hclauses, h⟩ := bind_eq_ok h
    have hvars := parseInt_takes hvars
    have hclauses := parseInt_takes hclauses
    have hrest := ((ends_fail _).ite (ends_pure _)).shrinks _ _ _ h
    omega
  · rw [if_neg hm] at h
    cases h

theorem skipLine_takes {s s' : Bytes} (hs : s ≠ [])
    (h : (skipLine : Parser Bytes Stop Unit) s = .ok ((), s')) : s'.length < s.length := by
  obtain ⟨c, t, rfl⟩ := List.exists_cons_of_ne_nil hs
  rw [skipLine, loop_eq takes_lineTurn] at h
  cases hturn : lineTurn () (c :: t) with
  | error e =>
    rw [hturn] at h
    cases h
  | ok r =>
    have ht : r.2 = t := by
      rw [lineTurn, peek_bind, if_neg (by simp), advance_bind] at hturn
      cases hturn
      rfl
    rw [hturn] at h
    obtain ⟨b | b, u⟩ := r
    · have hrest := ends_skipLine.shrinks _ _ _ h
      rw [← ht]
      exact Nat.lt_succ_of_le hrest
    · cases h
      rw [← ht]
      exact Nat.lt_succ_self _

theorem ends_readItem (c : Option UInt8) (cnf : CNFProblem) :
    Ends (readItem c cnf : Parser Bytes Stop CNFProblem) := by
  apply (ends_readHeader cnf).ite
  apply Ends.ite
  · exact ends_skipLine.bind fun _ => ends_pure _
  · exact ends_readLits.bind fun _ => ends_pure _

theorem readItem_takes {c : Option UInt8} {cnf cnf' : CNFProblem} {s s' : Bytes} (hs : s ≠ [])
    (h : (readItem c cnf : Parser Bytes Stop CNFProblem) s = .ok (cnf', s')) :
    s'.length < s.length := by
  unfold readItem at h
  by_cases hp : c = some 112
  · rw [if_pos hp] at h
    exact readHeader_takes h
  · rw [if_neg hp] at h
    by_cases hc : c = some 99
    · rw [if_pos hc] at h
      obtain ⟨_, t, hline, h⟩ := bind_eq_ok h
      cases h
      exact skipLine_takes hs hline
    · rw [if_neg hc] at h
      obtain ⟨lits, t, hlits, h⟩ := bind_eq_ok h
      cases h
      exact readLits_takes hlits

theorem takes_dimacsTurn :
    Takes (dimacsTurn : CNFProblem → Parser Bytes Stop (CNFProblem ⊕ CNFProblem)) := by
  intro cnf s b s' h
  rw [dimacsTurn, peek_bind] at h
  cases s with
  | nil => cases h
  | cons c s =>
    rw [if_neg (by simp)] at h
    obtain ⟨cnf', t, hitem, h⟩ := bind_eq_ok h
    obtain ⟨_, u, hspace, h⟩ := bind_eq_ok h
    cases h
    have hitem := readItem_takes (List.cons_ne_nil c s) hitem
    have hspace := ends_skipWhitespace.shrinks _ _ _ hspace
    omega

theorem ends_parse_DIMACS (cnf : CNFProblem) :
    Ends (parse_DIMACS cnf : Parser Bytes Stop CNFProblem) := by
  apply ends_skipWhitespace.bind
  intro _
  refine Ends.loop (fun cnf => ?_) takes_dimacsTurn cnf
  apply ends_peek.bind
  intro c
  apply (ends_pure _).ite
  apply (ends_readItem c cnf).bind
  intro cnf'
  exact ends_skipWhitespace.bind fun _ => ends_pure _

/-! ## The reader through a buffer -/

/-- The problem that a parser gives for the bytes of a file. -/
def problemOf (bytes : Bytes) : Except (Stopped Stop) CNFProblem :=
  ((parse_DIMACS {} : Parser Bytes Stop CNFProblem) bytes).map Prod.fst

/-- `CNFProblem::readDimacsFromFile`, on a file with these bytes. -/
def readDimacs {n : BufferSize} (gzread : GzRead n) (bytes : Bytes) :
    Except (Stopped Stop) CNFProblem :=
  ((parse_DIMACS {} : Parser (StreamBuffer gzread) Stop CNFProblem)
    (StreamBuffer.start gzread bytes)).map Prod.fst

variable {n : BufferSize} (gzread : GzRead n)

theorem readDimacs_eq_problemOf (bytes : Bytes) :
    readDimacs gzread bytes = problemOf bytes := by
  have hrefines := refines_parse_DIMACS {} (StreamBuffer.start gzread bytes)
  rw [rest_start] at hrefines
  unfold readDimacs problemOf
  rw [← hrefines]
  cases (parse_DIMACS {} : Parser (StreamBuffer gzread) Stop CNFProblem)
    (StreamBuffer.start gzread bytes) <;> rfl

/-- Whatever the size of the buffer, and however many bytes fill it at a time,
the reader ends on every file, with the problem or the error that the bytes of
the file give one by one. -/
theorem the_buffer_does_not_show (bytes : Bytes) :
    readDimacs gzread bytes = problemOf bytes ∧ readDimacs gzread bytes ≠ .error .outOfFuel := by
  refine ⟨readDimacs_eq_problemOf gzread bytes, ?_⟩
  rw [readDimacs_eq_problemOf]
  unfold problemOf
  have hfuel := (ends_parse_DIMACS {}).fuel bytes
  cases hrun : (parse_DIMACS {} : Parser Bytes Stop CNFProblem) bytes with
  | ok r =>
    intro h
    cases h
  | error e =>
    intro h
    cases h
    exact hfuel hrun

end reductor.candy
