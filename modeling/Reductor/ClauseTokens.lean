-- The tokens of a clause line, for every list of values, and which lists
-- give the tokens of a clause constraint.
import Reductor.ClauseBuffer
import Reductor.MiniZinc

open reductor.java reductor.dimacs reductor.minizinc

namespace reductor.transformer

/-! ## Identifiers -/

theorem isWordChar_of_isDigit {c : Char} (h : c.isDigit = true) : isWordChar c = true := by
  simp [isWordChar, Char.isAlphanum, h]

theorem isWordChar_toDigits (i : Nat) : ∀ c ∈ Nat.toDigits 10 i, isWordChar c = true :=
  fun _ hc => isWordChar_of_isDigit (Nat.isDigit_of_mem_toDigits (by decide) (by decide) hc)

theorem isWordChar_varName (i : Nat) : ∀ c ∈ varName i, isWordChar c = true := by
  intro c hc
  rcases List.mem_append.mp hc with hc | hc
  · exact (by decide : ∀ c ∈ "Var".toList, isWordChar c = true) c hc
  · exact isWordChar_toDigits i c hc

theorem isWordChar_literalName (count v : Int32) :
    ∀ c ∈ literalName count v, isWordChar c = true := by
  intro c hc
  rcases List.mem_append.mp hc with hc | hc
  · split at hc
    · exact (by decide : ∀ c ∈ "n_".toList, isWordChar c = true) c hc
    · cases hc
  · split at hc
    · exact isWordChar_varName _ c hc
    · exact (by decide : ∀ c ∈ "null".toList, isWordChar c = true) c hc

/-- No keyword starts as the names of the variables and their negations do. -/
theorem wordToken_ident {c : Char} {w : Text} (h : c = 'V' ∨ c = 'n') :
    wordToken (c :: w) = some (.ident (c :: w)) := by
  rcases h with rfl | rfl
  · rfl
  · rfl

theorem literalName_cons (count v : Int32) :
    ∃ c w, literalName count v = c :: w ∧ (c = 'V' ∨ c = 'n') := by
  unfold literalName
  split
  · exact ⟨_, _, rfl, .inr rfl⟩
  · split
    · exact ⟨_, _, rfl, .inl rfl⟩
    · exact ⟨_, _, rfl, .inr rfl⟩

/-- The name of the negation of a variable. -/
def negName (i : Nat) : Text := "n_".toList ++ varName i

theorem isWordChar_negName (i : Nat) : ∀ c ∈ negName i, isWordChar c = true := by
  intro c hc
  rcases List.mem_append.mp hc with hc | hc
  · exact (by decide : ∀ c ∈ "n_".toList, isWordChar c = true) c hc
  · exact isWordChar_varName i c hc

theorem wordToken_varName (i : Nat) : wordToken (varName i) = some (.ident (varName i)) :=
  wordToken_ident (.inl rfl)

theorem wordToken_negName (i : Nat) : wordToken (negName i) = some (.ident (negName i)) :=
  wordToken_ident (.inr rfl)

/-- A name is an identifier, and so is every part of it from its start. -/
theorem wordToken_take_literalName (count v : Int32) (k : Nat) :
    wordToken ((literalName count v).take (k + 1)) =
      some (.ident ((literalName count v).take (k + 1))) := by
  obtain ⟨c, w, h, hc⟩ := literalName_cons count v
  rw [h, List.take_succ_cons]
  exact wordToken_ident hc

/-! ## The tokens that the values leave -/

/-- The tokens of the first `k` characters of the operand of a name. -/
def pieceTokens (name : Text) (k : Nat) : List Token :=
  if k ≤ 1 then []
  else if k ≤ name.length + 2 then [.ident (name.take (k - 1))]
  else [.ident name, .plus]

/-- The tokens of what the zeros leave of the keyword. -/
def baseTokens (cut : Nat) : List Token := (wordToken ("constraint".toList.take (10 - cut))).toList

def leftTokens (count : Int32) (pieces : List (Int32 × Nat)) : List Token :=
  pieces.flatMap fun p => pieceTokens (literalName count p.1) p.2

/-- The statement of a clause line. -/
def clauseTokens (count : Int32) (vs : List Int32) : List Token :=
  baseTokens (overhang count vs) ++ leftTokens count (left count vs) ++ [.ge, .num 1]

theorem take_operand (count v : Int32) (k : Nat) :
    (operand count v).take (k + 1) = ' ' :: (literalName count v ++ " + ".toList).take k := rfl

/-- One piece, in front of something that ends a word. -/
theorem scans_piece (count v : Int32) {c : Char} {s : Text} {ts : List Token} {m : Mode} (k : Nat)
    (hc : isWordChar c = false) (h : Scans .blank (c :: s) ts m) :
    Scans .blank ((operand count v).take k ++ c :: s)
      (pieceTokens (literalName count v) k ++ ts) m := by
  cases k with
  | zero => exact h
  | succ k =>
    rw [take_operand, List.cons_append, pieceTokens]
    cases k with
    | zero => exact h.space
    | succ k =>
      rw [if_neg (by omega), List.take_append]
      apply Scans.space
      split
      · -- The cut leaves a part of the name, or the name and its space.
        rename_i hk
        have hword : ∀ c ∈ (literalName count v).take (k + 1), isWordChar c = true :=
          fun c hc => isWordChar_literalName count v c (List.mem_of_mem_take hc)
        have htoken := wordToken_take_literalName count v k
        rw [List.append_assoc]
        by_cases hall : k + 1 ≤ (literalName count v).length
        · rw [Nat.sub_eq_zero_of_le hall, List.take_zero, List.nil_append]
          exact Scans.word htoken hword hc h
        · have hone : k + 1 - (literalName count v).length = 1 := by omega
          rw [hone]
          exact Scans.word htoken hword (by decide) h.space
      · -- The operator is there too, with or without the space after it.
        rename_i hk
        have hword := isWordChar_literalName count v
        have htoken := wordToken_take_literalName count v k
        have hplus : Scans .blank " +".toList [.plus] .blank := rfl
        rw [List.take_of_length_le (by omega)] at htoken
        rw [List.take_of_length_le (by omega), List.append_assoc]
        obtain ⟨r, hr⟩ : ∃ r, k + 1 - (literalName count v).length = r + 2 :=
          ⟨k + 1 - (literalName count v).length - 2, by omega⟩
        rw [hr]
        cases r with
        | zero => exact Scans.word htoken hword (by decide) (hplus.append h)
        | succ r =>
          have hall : " + ".toList.take (r + 1 + 2) = " + ".toList :=
            List.take_of_length_le (by show 3 ≤ _; omega)
          rw [hall]
          exact Scans.word htoken hword (by decide) (hplus.append h.space)

/-- The pieces, one after the other, and then the comparison. -/
theorem scans_pieces (count : Int32) (pieces : List (Int32 × Nat)) :
    ∃ c s, (pieces.flatMap fun p => (operand count p.1).take p.2) ++ ">= 1;\n".toList = c :: s ∧
      isWordChar c = false ∧
      Scans .blank (c :: s) (leftTokens count pieces ++ [.ge, .num 1, .semi]) .blank := by
  induction pieces with
  | nil => exact ⟨'>', "= 1;\n".toList, rfl, by decide, rfl⟩
  | cons p pieces ih =>
    obtain ⟨c, s, htext, hc, hscan⟩ := ih
    have hpiece := scans_piece count p.1 p.2 hc hscan
    rw [List.flatMap_cons, List.append_assoc, htext]
    rw [leftTokens, List.flatMap_cons, List.append_assoc]
    cases hk : p.2 with
    | zero =>
      rw [hk] at hpiece
      exact ⟨c, s, rfl, hc, hpiece⟩
    | succ k =>
      rw [hk] at hpiece
      rw [take_operand, List.cons_append] at hpiece ⊢
      exact ⟨' ', _, rfl, by decide, hpiece⟩

theorem wordToken_base : ∀ cut < 10,
    (wordToken ("constraint".toList.take (10 - cut))).isSome = true := by decide

/-- Every clause line is one statement, whatever the zeros leave of it. -/
theorem scans_clauseLine {count : Int32} {vs : List Int32} (h : overhang count vs ≤ 10) :
    Scans .blank ("constraint".toList.take (10 - overhang count vs) ++ leftText count vs ++
      ">= 1;\n".toList) (clauseTokens count vs ++ [.semi]) .blank := by
  obtain ⟨c, s, htext, hc, hscan⟩ := scans_pieces count (left count vs)
  rw [List.append_assoc, leftText, htext, clauseTokens, baseTokens]
  simp only [List.append_assoc, List.cons_append, List.nil_append]
  rcases Nat.eq_or_lt_of_le h with h10 | hlt
  · rw [h10]
    exact hscan
  · obtain ⟨t, ht⟩ := Option.isSome_iff_exists.mp (wordToken_base _ hlt)
    rw [ht]
    refine Scans.word ht ?_ hc hscan
    intro d hd
    exact (by decide : ∀ d ∈ "constraint".toList, isWordChar d = true) d (List.mem_of_mem_take hd)

theorem wordToken_ne_semi (w : Text) : wordToken w ≠ some .semi := by
  unfold wordToken
  split
  · simp
  · split
    · simp
    · split
      · simp
      · split <;> simp

theorem semi_notMem_clauseTokens (count : Int32) (vs : List Int32) :
    Token.semi ∉ clauseTokens count vs := by
  have hbase : Token.semi ∉ baseTokens (overhang count vs) := by
    rw [baseTokens, Option.mem_toList]
    exact wordToken_ne_semi _
  have hpiece : ∀ name k, Token.semi ∉ pieceTokens name k := by
    intro name k
    unfold pieceTokens
    split
    · simp
    · split <;> simp
  simp only [clauseTokens, leftTokens, List.mem_append, List.mem_flatMap, not_or, not_exists,
    not_and]
  exact ⟨⟨hbase, fun p _ => hpiece _ _⟩, by decide⟩

end reductor.transformer
