-- The stream of bytes that Candy reads a DIMACS file from, a buffer that
-- `gzread` fills, and the parse functions of `ParseUtils.h` over any stream.
import Reductor.Streams
import Mathlib.Data.Int.Bitwise

open reductor.streams

namespace reductor.candy

abbrev Bytes := List UInt8

/-- The bytes of a string of the source. -/
def ascii (s : String) : Bytes := s.toList.map fun c => UInt8.ofNat c.toNat

/-! ## The buffer -/

/-- How many bytes a buffer can hold: one at least. -/
abbrev BufferSize := { n : Nat // 0 < n }

def buffer_size : BufferSize := ⟨1048576, by decide⟩

/-- `gzread` of zlib on a file: the number of bytes that it delivers of those
still to come, no more than the buffer holds, and one at least while there are any. -/
structure GzRead (n : BufferSize) where
  count : Bytes → Nat
  fits : ∀ unread, count unread ≤ min n.1 unread.length
  delivers : ∀ unread, unread ≠ [] → 0 < count unread

/-- The buffer is filled as long as the file lasts. -/
def GzRead.full (n : BufferSize) : GzRead n where
  count unread := min n.1 unread.length
  fits _ := Nat.le_refl _
  delivers _ h := Nat.lt_min.mpr ⟨n.2, List.length_pos_iff.mpr h⟩

variable {n : BufferSize}

/-- `StreamBuffer`: the bytes of the file that have not been read, those that
the buffer holds, and the position in these. When the position is behind them,
the file is at its end. -/
structure StreamBuffer (gzread : GzRead n) where
  unread : Bytes
  buf : Bytes
  pos : Nat
  ready : buf.length ≤ pos → unread = []

/-- `StreamBuffer::assureLookahead`: the next bytes of the file, as many as
`gzread` delivers, when the position is behind those that are there. -/
def assureLookahead (gzread : GzRead n) (unread buf : Bytes) (pos : Nat) : StreamBuffer gzread :=
  if h : buf.length ≤ pos then
    { unread := unread.drop (gzread.count unread)
      buf := unread.take (gzread.count unread)
      pos := 0
      ready := by
        intro hempty
        by_contra hdrop
        have hne : unread ≠ [] := by
          rintro rfl
          exact hdrop List.drop_nil
        have hcount := gzread.delivers unread hne
        have hfits := gzread.fits unread
        rw [List.length_take] at hempty
        omega }
  else ⟨unread, buf, pos, fun h' => absurd h' h⟩

variable {gzread : GzRead n}

/-- The buffer on a file that has been opened. -/
def StreamBuffer.start (gzread : GzRead n) (bytes : Bytes) : StreamBuffer gzread :=
  assureLookahead gzread bytes [] 0

/-- The bytes that are still to come: those in the buffer, and those not read yet. -/
def StreamBuffer.rest (b : StreamBuffer gzread) : Bytes := b.buf.drop b.pos ++ b.unread

theorem rest_assureLookahead (unread buf : Bytes) (pos : Nat) :
    (assureLookahead gzread unread buf pos).rest = buf.drop pos ++ unread := by
  unfold assureLookahead
  split
  · rename_i h
    rw [List.drop_eq_nil_of_le h]
    show (unread.take _).drop 0 ++ unread.drop _ = [] ++ unread
    rw [List.drop_zero, List.take_append_drop, List.nil_append]
  · rfl

/-- The byte at the position, or the end of the file when there is none; and
the step to the next byte. -/
instance : CharStream (StreamBuffer gzread) UInt8 where
  rest := StreamBuffer.rest
  peek b := b.buf[b.pos]?
  next b := assureLookahead gzread b.unread b.buf (b.pos + 1)
  peek_eq := by
    intro b
    rw [StreamBuffer.rest, List.head?_append, List.head?_drop]
    by_cases h : b.buf.length ≤ b.pos
    · rw [b.ready h, List.head?_nil, Option.or_none]
    · rw [List.getElem?_eq_getElem (Nat.lt_of_not_le h), Option.some_or]
  rest_next := by
    intro b
    rw [rest_assureLookahead, StreamBuffer.rest]
    by_cases h : b.buf.length ≤ b.pos
    · rw [b.ready h, List.drop_eq_nil_of_le h, List.drop_eq_nil_of_le (Nat.le_succ_of_le h)]
      rfl
    · rw [List.drop_eq_getElem_cons (Nat.lt_of_not_le h)]
      rfl

theorem rest_start (bytes : Bytes) : rest (StreamBuffer.start gzread bytes) = bytes :=
  rest_assureLookahead bytes [] 0

/-! ## Parse functions -/

/-- What makes Candy leave a file: an unexpected character, or the end of the
file, where an integer or a header has to stand; or a number of clauses that no
vector can hold. A signed overflow is no stop of the source: what it does from
there on is undefined, and the model says no more. -/
inductive Stop
  | expectedInteger (found : Option UInt8)
  | expectedHeader (found : Option UInt8)
  | overflow
  | length
  deriving DecidableEq, Repr

def isWhitespace (c : UInt8) : Bool := (9 ≤ c && c ≤ 13) || c == 32

def isDigit (c : UInt8) : Bool := 48 ≤ c && c ≤ 57

section

variable {σ : Type} [CharStream σ UInt8]

/-- The result of an `int` operation, which is defined when it fits. -/
def int32 (z : Int) : Parser σ Stop Int :=
  if -2 ^ 31 ≤ z ∧ z < 2 ^ 31 then pure z else fail .overflow

def whitespaceTurn (_ : Unit) : Parser σ Stop (Unit ⊕ Unit) := do
  if (← peek).any isWhitespace then
    advance
    return .inl ()
  else return .inr ()

def skipWhitespace : Parser σ Stop Unit := loop whitespaceTurn ()

def lineTurn (_ : Unit) : Parser σ Stop (Unit ⊕ Unit) := do
  let c ← peek
  if c.isNone then return .inr ()
  else
    advance
    return if c = some 10 then .inr () else .inl ()

def skipLine : Parser σ Stop Unit := loop lineTurn ()

/-- One turn of the loop over the digits of `parseInt`. -/
def digitTurn (val : Int) : Parser σ Stop (Int ⊕ Int) := do
  let c ← peek
  if c.any isDigit then
    let val ← int32 (val * 10 + ((c.getD 0).toNat - 48))
    advance
    return .inl val
  else return .inr val

/-- The sign in front of an integer. -/
def parseSign : Parser σ Stop Bool := do
  let c ← peek
  if c = some 45 then
    advance
    return true
  else if c = some 43 then
    advance
    return false
  else return false

def parseInt : Parser σ Stop Int := do
  skipWhitespace
  let neg ← parseSign
  let c ← peek
  if c.any isDigit then
    let val ← loop digitTurn 0
    return if neg then -val else val
  else fail (.expectedInteger c)

def eagerMatch : Bytes → Parser σ Stop Bool
  | [] => return true
  | c :: str => do
    if (← peek) = some c then
      advance
      eagerMatch str
    else return false

/-! ## The functions on any stream -/

theorem refines_int32 (z : Int) : Refines (int32 z : Parser σ Stop Int) (int32 z) :=
  (refines_pure z).ite (refines_fail _)

theorem refines_skipWhitespace : Refines (skipWhitespace : Parser σ Stop Unit) skipWhitespace := by
  apply refines_loop
  intro _
  apply refines_peek.bind
  intro c
  apply Refines.ite
  · exact refines_advance.bind fun _ => refines_pure _
  · exact refines_pure _

theorem refines_skipLine : Refines (skipLine : Parser σ Stop Unit) skipLine := by
  apply refines_loop
  intro _
  apply refines_peek.bind
  intro c
  apply (refines_pure _).ite
  exact refines_advance.bind fun _ => refines_pure _

theorem refines_digitTurn (val : Int) :
    Refines (digitTurn val : Parser σ Stop (Int ⊕ Int)) (digitTurn val) := by
  apply refines_peek.bind
  intro c
  apply Refines.ite
  · apply (refines_int32 _).bind
    intro val
    exact refines_advance.bind fun _ => refines_pure _
  · exact refines_pure _

theorem refines_parseSign : Refines (parseSign : Parser σ Stop Bool) parseSign := by
  apply refines_peek.bind
  intro c
  apply Refines.ite
  · exact refines_advance.bind fun _ => refines_pure _
  · apply Refines.ite
    · exact refines_advance.bind fun _ => refines_pure _
    · exact refines_pure _

theorem refines_parseInt : Refines (parseInt : Parser σ Stop Int) parseInt := by
  apply refines_skipWhitespace.bind
  intro _
  apply refines_parseSign.bind
  intro neg
  apply refines_peek.bind
  intro c
  apply Refines.ite
  · exact (refines_loop refines_digitTurn 0).bind fun _ => refines_pure _
  · exact refines_fail _

theorem refines_eagerMatch (str : Bytes) :
    Refines (eagerMatch str : Parser σ Stop Bool) (eagerMatch str) := by
  induction str with
  | nil => exact refines_pure _
  | cons c str ih =>
    apply refines_peek.bind
    intro c'
    exact (refines_advance.bind fun _ => ih).ite (refines_pure _)

end

end reductor.candy
