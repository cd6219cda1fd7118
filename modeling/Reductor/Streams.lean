-- Parsers over a stream of characters that is looked at one character ahead.
-- What a parser makes of a stream depends on the characters that are still to
-- come alone, and a loop that takes a character at each turn comes to an end.
import Mathlib.Tactic.Common

namespace reductor.streams

/-! ## Streams -/

/-- A stream has a rest, of which it shows the first character. -/
class CharStream (σ : Type) (α : outParam Type) where
  rest : σ → List α
  peek : σ → Option α
  next : σ → σ
  peek_eq : ∀ s, peek s = (rest s).head?
  rest_next : ∀ s, rest (next s) = (rest s).tail

/-- The list of its characters is the plainest stream. -/
instance (α : Type) : CharStream (List α) α where
  rest s := s
  peek := List.head?
  next := List.tail
  peek_eq _ := rfl
  rest_next _ := rfl

export CharStream (rest)

/-! ## Parsers -/

/-- Why a parser gives nothing: an error of its own, or a loop that was cut short. -/
inductive Stopped (ε : Type)
  | failed (error : ε)
  | outOfFuel
  deriving DecidableEq, Repr

abbrev Parser (σ ε : Type) := StateT σ (Except (Stopped ε))

variable {σ α ε τ ρ : Type}

section

variable [CharStream σ α]

/-- The character in front, if the stream is not at its end. -/
def peek : Parser σ ε (Option α) := do return CharStream.peek (← get)

def advance : Parser σ ε Unit := modify CharStream.next

def fail (error : ε) : Parser σ ε τ := throw (.failed error)

/-- Turns of a loop, each of which goes on or comes to a result. -/
def loopFor (turn : τ → Parser σ ε (τ ⊕ ρ)) : Nat → τ → Parser σ ε ρ
  | 0, _ => throw .outOfFuel
  | fuel + 1, a => do
    match ← turn a with
    | .inl b => loopFor turn fuel b
    | .inr r => return r

/-- A loop has a turn for each character of the rest, and one for its end. -/
def loop (turn : τ → Parser σ ε (τ ⊕ ρ)) (a : τ) : Parser σ ε ρ := do
  loopFor turn ((rest (← get)).length + 1) a

end

/-! ## What a parser sees of a stream -/

section

variable [CharStream σ α]

/-- The result of a parser, with the rest that it leaves. -/
def seen : Except (Stopped ε) (τ × σ) → Except (Stopped ε) (τ × List α)
  | .ok (a, s) => .ok (a, rest s)
  | .error e => .error e

/-- On any stream the parser does what the other does on its rest. -/
def Refines (p : Parser σ ε τ) (q : Parser (List α) ε τ) : Prop :=
  ∀ s, seen (p s) = q (rest s)

theorem refines_pure (a : τ) : Refines (pure a : Parser σ ε τ) (pure a) := fun _ => rfl

theorem refines_throw (e : Stopped ε) : Refines (throw e : Parser σ ε τ) (throw e) := fun _ => rfl

theorem refines_fail (e : ε) : Refines (fail e : Parser σ ε τ) (fail e) := fun _ => rfl

theorem refines_peek : Refines (peek : Parser σ ε (Option α)) peek := by
  intro s
  show Except.ok (CharStream.peek s, rest s) = .ok ((rest s).head?, rest s)
  rw [CharStream.peek_eq]

theorem refines_advance : Refines (advance : Parser σ ε Unit) advance := by
  intro s
  show Except.ok ((), rest (CharStream.next s)) = .ok ((), (rest s).tail)
  rw [CharStream.rest_next]

theorem Refines.bind {p : Parser σ ε τ} {q : Parser (List α) ε τ} {f : τ → Parser σ ε ρ}
    {g : τ → Parser (List α) ε ρ} (h : Refines p q) (hf : ∀ a, Refines (f a) (g a)) :
    Refines (p >>= f) (q >>= g) := by
  intro s
  have hp := h s
  show seen (p s >>= fun r => f r.1 r.2) = (q (rest s) >>= fun r => g r.1 r.2)
  rw [← hp]
  cases p s with
  | error e => rfl
  | ok r => exact hf r.1 r.2

theorem Refines.ite {p p' : Parser σ ε τ} {q q' : Parser (List α) ε τ} {c : Prop} [Decidable c]
    (h : Refines p q) (h' : Refines p' q') :
    Refines (if c then p else p') (if c then q else q') := by
  by_cases hc : c
  · rw [if_pos hc, if_pos hc]
    exact h
  · rw [if_neg hc, if_neg hc]
    exact h'

theorem refines_loopFor {turn : τ → Parser σ ε (τ ⊕ ρ)} {turn' : τ → Parser (List α) ε (τ ⊕ ρ)}
    (h : ∀ a, Refines (turn a) (turn' a)) (fuel : Nat) (a : τ) :
    Refines (loopFor turn fuel a) (loopFor turn' fuel a) := by
  induction fuel generalizing a with
  | zero => exact refines_throw _
  | succ fuel ih =>
    apply (h a).bind
    rintro (b | r)
    · exact ih b
    · exact refines_pure r

theorem refines_loop {turn : τ → Parser σ ε (τ ⊕ ρ)} {turn' : τ → Parser (List α) ε (τ ⊕ ρ)}
    (h : ∀ a, Refines (turn a) (turn' a)) (a : τ) : Refines (loop turn a) (loop turn' a) :=
  fun s => refines_loopFor h _ a s

end

/-! ## Parsers on lists -/

section

variable {s s' : List α}

theorem peek_bind (f : Option α → Parser (List α) ε τ) (s : List α) :
    (peek >>= f) s = f s.head? s := rfl

theorem advance_bind (f : Unit → Parser (List α) ε τ) (s : List α) :
    (advance >>= f) s = f () s.tail := rfl

theorem bind_of_ok {p : Parser (List α) ε τ} {a : τ} (h : p s = .ok (a, s'))
    (f : τ → Parser (List α) ε ρ) : (p >>= f) s = f a s' := by
  show (p s >>= fun r => f r.1 r.2) = _
  rw [h]
  rfl

/-- What a sequence of two parsers has done. -/
theorem bind_eq_ok {p : Parser (List α) ε τ} {f : τ → Parser (List α) ε ρ} {b : ρ}
    (h : (p >>= f) s = .ok (b, s')) : ∃ a t, p s = .ok (a, t) ∧ f a t = .ok (b, s') := by
  have hbind : (p s >>= fun r => f r.1 r.2) = .ok (b, s') := h
  cases hp : p s with
  | error e =>
    rw [hp] at hbind
    cases hbind
  | ok r =>
    rw [hp] at hbind
    exact ⟨r.1, r.2, rfl, hbind⟩

theorem bind_eq_ok_iff {p : Parser (List α) ε τ} {f : τ → Parser (List α) ε ρ} {b : ρ} :
    (p >>= f) s = .ok (b, s') ↔ ∃ a t, p s = .ok (a, t) ∧ f a t = .ok (b, s') := by
  refine ⟨bind_eq_ok, ?_⟩
  rintro ⟨a, t, hp, hf⟩
  rw [bind_of_ok hp, hf]

end

/-! ## Loops that come to an end -/

section

variable {turn : τ → Parser (List α) ε (τ ⊕ ρ)}

/-- A turn that goes on has taken a character. -/
def Takes (turn : τ → Parser (List α) ε (τ ⊕ ρ)) : Prop :=
  ∀ a s b s', turn a s = .ok (.inl b, s') → s'.length < s.length

/-- With a turn for each character and one for the end, more turns change nothing. -/
theorem loopFor_of_enough (h : Takes turn) {n m : Nat} (a : τ) {s : List α} (hn : s.length < n)
    (hm : s.length < m) : loopFor turn n a s = loopFor turn m a s := by
  induction n generalizing m a s with
  | zero => exact absurd hn (Nat.not_lt_zero _)
  | succ n ih =>
    cases m with
    | zero => exact absurd hm (Nat.not_lt_zero _)
    | succ m =>
      show (turn a s >>= _) = (turn a s >>= _)
      cases ht : turn a s with
      | error e => rfl
      | ok r =>
        obtain ⟨b | r, s'⟩ := r
        · have hless := h a s b s' ht
          exact ih b (by omega) (by omega)
        · rfl

/-- Such a loop is its first turn and the loop again. -/
theorem loop_eq (h : Takes turn) (a : τ) (s : List α) :
    loop turn a s = (turn a s >>= fun r => r.1.elim (fun b => loop turn b r.2)
      fun result => .ok (result, r.2)) := by
  show loopFor turn (s.length + 1) a s = _
  show (turn a s >>= _) = _
  cases ht : turn a s with
  | error e => rfl
  | ok r =>
    obtain ⟨b | r, s'⟩ := r
    · have hless := h a s b s' ht
      exact loopFor_of_enough h b hless (Nat.lt_succ_self _)
    · rfl

/-- Turns that go on, and one that comes to a result. -/
inductive Turns (turn : τ → Parser (List α) ε (τ ⊕ ρ)) : τ → List α → ρ → List α → Prop
  | last {a : τ} {s s' : List α} {r : ρ} : turn a s = .ok (.inr r, s') → Turns turn a s r s'
  | next {a b : τ} {s t s' : List α} {r : ρ} : turn a s = .ok (.inl b, t) → Turns turn b t r s' →
      Turns turn a s r s'

theorem loop_eq_ok_iff (h : Takes turn) {a : τ} {s s' : List α} {r : ρ} :
    loop turn a s = .ok (r, s') ↔ Turns turn a s r s' := by
  constructor
  · intro hloop
    induction hn : s.length using Nat.strongRecOn generalizing a s with
    | ind n ih =>
      rw [loop_eq h] at hloop
      cases ht : turn a s with
      | error e =>
        rw [ht] at hloop
        cases hloop
      | ok result =>
        rw [ht] at hloop
        obtain ⟨b | r', t⟩ := result
        · exact .next ht (ih t.length (hn ▸ h a s b t ht) hloop rfl)
        · cases hloop
          exact .last ht
  · intro hturns
    induction hturns with
    | last ht =>
      rw [loop_eq h, ht]
      rfl
    | next ht _ ih =>
      rw [loop_eq h, ht]
      exact ih

end

/-- The parser ends, and it does not put characters back. -/
structure Ends (p : Parser (List α) ε τ) : Prop where
  fuel : ∀ s, p s ≠ .error .outOfFuel
  shrinks : ∀ s a s', p s = .ok (a, s') → s'.length ≤ s.length

theorem ends_pure (a : τ) : Ends (pure a : Parser (List α) ε τ) where
  fuel := by
    intro s h
    cases h
  shrinks := by
    intro s b s' h
    cases h
    exact Nat.le_refl _

theorem ends_fail (e : ε) : Ends (fail e : Parser (List α) ε τ) where
  fuel := by
    intro s h
    cases h
  shrinks := by
    intro s b s' h
    cases h

theorem ends_peek : Ends (peek : Parser (List α) ε (Option α)) where
  fuel := by
    intro s h
    cases h
  shrinks := by
    intro s b s' h
    cases h
    exact Nat.le_refl _

theorem ends_advance : Ends (advance : Parser (List α) ε Unit) where
  fuel := by
    intro s h
    cases h
  shrinks := by
    intro s b s' h
    cases h
    show s.tail.length ≤ s.length
    rw [List.length_tail]
    exact Nat.sub_le _ _

theorem Ends.bind {p : Parser (List α) ε τ} {f : τ → Parser (List α) ε ρ} (h : Ends p)
    (hf : ∀ a, Ends (f a)) : Ends (p >>= f) where
  fuel := by
    intro s he
    have hbind : (p s >>= fun r => f r.1 r.2) = .error .outOfFuel := he
    cases hp : p s with
    | error e =>
      rw [hp] at hbind
      cases hbind
      exact h.fuel s hp
    | ok r =>
      rw [hp] at hbind
      exact (hf r.1).fuel r.2 hbind
  shrinks := by
    intro s b s' he
    obtain ⟨a, t, hp, hrest⟩ := bind_eq_ok he
    exact Nat.le_trans ((hf a).shrinks t b s' hrest) (h.shrinks s a t hp)

theorem Ends.ite {p p' : Parser (List α) ε τ} {c : Prop} [Decidable c] (h : Ends p)
    (h' : Ends p') : Ends (if c then p else p') := by
  by_cases hc : c
  · rw [if_pos hc]
    exact h
  · rw [if_neg hc]
    exact h'

/-- A loop ends when each of its turns does, and each that goes on takes a character. -/
theorem Ends.loop {turn : τ → Parser (List α) ε (τ ⊕ ρ)} (h : ∀ a, Ends (turn a))
    (htakes : Takes turn) (a : τ) : Ends (loop turn a) where
  fuel := by
    intro s
    induction hn : s.length using Nat.strongRecOn generalizing a s with
    | ind n ih =>
      rw [loop_eq htakes]
      cases ht : turn a s with
      | error e =>
        intro he
        cases he
        exact (h a).fuel s ht
      | ok r =>
        obtain ⟨b | r, s'⟩ := r
        · exact ih s'.length (hn ▸ htakes a s b s' ht) b s' rfl
        · intro he
          cases he
  shrinks := by
    intro s
    induction hn : s.length using Nat.strongRecOn generalizing a s with
    | ind n ih =>
      intro b s' hloop
      rw [loop_eq htakes] at hloop
      cases ht : turn a s with
      | error e =>
        rw [ht] at hloop
        cases hloop
      | ok r =>
        rw [ht] at hloop
        have hle := (h a).shrinks s _ _ ht
        obtain ⟨c | r, t⟩ := r
        · exact Nat.le_trans (ih t.length (hn ▸ htakes a s c t ht) c t rfl b s' hloop) (hn ▸ hle)
        · cases hloop
          exact hn ▸ hle

/-- What every turn keeps holds of the result of a loop. -/
theorem loop_result {turn : τ → Parser (List α) ε (τ ⊕ ρ)} {I : τ → Prop} {R : ρ → Prop}
    (htakes : Takes turn) (hstep : ∀ a s b s', I a → turn a s = .ok (.inl b, s') → I b)
    (hend : ∀ a s r s', I a → turn a s = .ok (.inr r, s') → R r) {a : τ} {s s' : List α} {r : ρ}
    (ha : I a) (hloop : loop turn a s = .ok (r, s')) : R r := by
  induction (loop_eq_ok_iff htakes).mp hloop with
  | last ht => exact hend _ _ _ _ ha ht
  | next ht hrest ih => exact ih (hstep _ _ _ _ ha ht) ((loop_eq_ok_iff htakes).mpr hrest)

end reductor.streams
