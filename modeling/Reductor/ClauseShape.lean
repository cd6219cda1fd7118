-- Which lists of values give a clause constraint: the operands that the
-- zeros leave must still be a sum.
import Reductor.ClauseTokens
import Mathlib.Data.List.Chain

open reductor.java reductor.dimacs reductor.minizinc

namespace reductor.transformer

/-! ## What is left of one operand -/

/-- Nothing but a space is left of the operand. -/
def Gone (p : Int32 × Nat) : Prop := p.2 ≤ 1

/-- A part of the name is left, and the operator is not. -/
def Bare (count : Int32) (p : Int32 × Nat) : Prop :=
  2 ≤ p.2 ∧ p.2 ≤ (literalName count p.1).length + 2

/-- The name and the operator are left. -/
def Joined (count : Int32) (p : Int32 × Nat) : Prop := (literalName count p.1).length + 3 ≤ p.2

instance (p : Int32 × Nat) : Decidable (Gone p) := inferInstanceAs (Decidable (_ ≤ _))

instance (count : Int32) (p : Int32 × Nat) : Decidable (Bare count p) :=
  inferInstanceAs (Decidable (_ ∧ _))

theorem pieceTokens_gone {count : Int32} {p : Int32 × Nat} (h : Gone p) :
    pieceTokens (literalName count p.1) p.2 = [] := if_pos h

theorem pieceTokens_bare {count : Int32} {p : Int32 × Nat} (h : Bare count p) :
    pieceTokens (literalName count p.1) p.2 =
      [.ident ((literalName count p.1).take (p.2 - 1))] := by
  unfold Bare at h
  rw [pieceTokens, if_neg (by omega), if_pos h.2]

theorem pieceTokens_joined {count : Int32} {p : Int32 × Nat} (h : Joined count p) :
    pieceTokens (literalName count p.1) p.2 = [.ident (literalName count p.1), .plus] := by
  unfold Joined at h
  rw [pieceTokens, if_neg (by omega), if_neg (by omega)]

theorem gone_or_bare_or_joined (count : Int32) (p : Int32 × Nat) :
    Gone p ∨ Bare count p ∨ Joined count p := by
  unfold Gone Bare Joined
  omega

/-! ## The sum of the operands -/

/-- The names of the sum that the pieces are, if they are one: the last
piece that shows a name has no operator, and the ones before it have theirs. -/
def sumNames (count : Int32) : List (Int32 × Nat) → Option (List Text)
  | [] => none
  | p :: ps =>
    if Gone p then sumNames count ps
    else if Bare count p then
      if ∀ q ∈ ps, Gone q then some [(literalName count p.1).take (p.2 - 1)] else none
    else (sumNames count ps).map (literalName count p.1 :: ·)

/-- The pieces are a sum. -/
def LeavesSum (count : Int32) (ps : List (Int32 × Nat)) : Prop :=
  ∃ front p back, ps = front ++ p :: back ∧ (∀ q ∈ front, Gone q ∨ Joined count q) ∧
    Bare count p ∧ ∀ q ∈ back, Gone q

theorem not_bare_of_gone {count : Int32} {p : Int32 × Nat} (h : Gone p) : ¬ Bare count p := by
  unfold Gone at h
  unfold Bare
  omega

theorem not_bare_of_joined {count : Int32} {p : Int32 × Nat} (h : Joined count p) :
    ¬ Bare count p := by
  unfold Joined at h
  unfold Bare
  omega

theorem not_gone_of_joined {count : Int32} {p : Int32 × Nat} (h : Joined count p) : ¬ Gone p := by
  unfold Joined at h
  unfold Gone
  omega

theorem sumNames_gone {count : Int32} {p : Int32 × Nat} (h : Gone p) (ps : List (Int32 × Nat)) :
    sumNames count (p :: ps) = sumNames count ps := by
  rw [sumNames, if_pos h]

theorem sumNames_bare {count : Int32} {p : Int32 × Nat} (h : Bare count p)
    (ps : List (Int32 × Nat)) :
    sumNames count (p :: ps) =
      if ∀ q ∈ ps, Gone q then some [(literalName count p.1).take (p.2 - 1)] else none := by
  rw [sumNames, if_neg fun hg => not_bare_of_gone hg h, if_pos h]

theorem sumNames_joined {count : Int32} {p : Int32 × Nat} (h : Joined count p)
    (ps : List (Int32 × Nat)) :
    sumNames count (p :: ps) = (sumNames count ps).map (literalName count p.1 :: ·) := by
  rw [sumNames, if_neg (not_gone_of_joined h), if_neg (not_bare_of_joined h)]

/-- One 0 takes the operator of an operand, and nothing else that shows. -/
theorem bare_of_one_zero (count v : Int32) : Bare count (v, (operand count v).length - 2) := by
  have hlen := operand_length count v
  have hname := List.length_pos_of_ne_nil (literalName_ne_nil count v)
  unfold Bare
  dsimp only
  omega

theorem joined_whole (count v : Int32) : Joined count (v, (operand count v).length) := by
  have hlen := operand_length count v
  unfold Joined
  dsimp only
  omega

/-- The first piece is the one that shows a name, or it stands in front of it. -/
theorem leavesSum_cons {count : Int32} {q : Int32 × Nat} {ps : List (Int32 × Nat)} :
    LeavesSum count (q :: ps) ↔
      (Bare count q ∧ ∀ r ∈ ps, Gone r) ∨ ((Gone q ∨ Joined count q) ∧ LeavesSum count ps) := by
  constructor
  · rintro ⟨front, p, back, h, hfront, hp, hback⟩
    cases front with
    | nil =>
      obtain ⟨rfl, rfl⟩ := List.cons.inj h
      exact .inl ⟨hp, hback⟩
    | cons r front =>
      obtain ⟨rfl, rfl⟩ := List.cons.inj h
      exact .inr ⟨hfront q List.mem_cons_self,
        front, p, back, rfl, fun s hs => hfront s (List.mem_cons_of_mem q hs), hp, hback⟩
  · rintro (⟨hq, hps⟩ | ⟨hq, front, p, back, rfl, hfront, hp, hback⟩)
    · exact ⟨[], q, ps, rfl, by simp, hq, hps⟩
    · refine ⟨q :: front, p, back, rfl, ?_, hp, hback⟩
      intro s hs
      rcases List.mem_cons.mp hs with rfl | hs
      · exact hq
      · exact hfront s hs

theorem sumNames_isSome_iff (count : Int32) (ps : List (Int32 × Nat)) :
    (sumNames count ps).isSome ↔ LeavesSum count ps := by
  induction ps with
  | nil =>
    constructor
    · intro h
      cases h
    · rintro ⟨front, p, back, h, -⟩
      cases front <;> cases h
  | cons q ps ih =>
    rw [leavesSum_cons]
    rcases gone_or_bare_or_joined count q with hq | hq | hq
    · rw [sumNames_gone hq, ih]
      simp [hq, not_bare_of_gone hq]
    · have hg : ¬ Gone q := fun hg => not_bare_of_gone hg hq
      have hj : ¬ Joined count q := fun hj => not_bare_of_joined hj hq
      rw [sumNames_bare hq]
      split <;> simp_all
    · rw [sumNames_joined hq, Option.isSome_map, ih]
      simp [hq, not_bare_of_joined hq]

/-! ## The parser on the operands -/

theorem parseConstraint_ident_plus (x : Text) (ts : List Token) :
    parseConstraint (.ident x :: .plus :: ts) =
      (parseConstraint ts).map fun c => { c with terms := x :: c.terms } := by
  unfold parseConstraint
  rw [parseSum]
  cases parseSum ts with
  | none => rfl
  | some r =>
    obtain ⟨xs, rest⟩ := r
    simp only [Option.map_some]
    split
    · rename_i h
      cases h
      rfl
    · rename_i h
      cases h
      rfl
    · rename_i h1 h2
      split
      · rename_i h
        cases h
        exact absurd rfl (h1 _ _)
      · rename_i h
        cases h
        exact absurd rfl (h2 _ _)
      · rfl

theorem leftTokens_cons (count : Int32) (p : Int32 × Nat) (ps : List (Int32 × Nat)) :
    leftTokens count (p :: ps) = pieceTokens (literalName count p.1) p.2 ++ leftTokens count ps :=
  rfl

theorem leftTokens_of_gone {count : Int32} {ps : List (Int32 × Nat)} (h : ∀ q ∈ ps, Gone q) :
    leftTokens count ps = [] := by
  rw [leftTokens, List.flatMap_eq_nil_iff]
  exact fun q hq => pieceTokens_gone (h q hq)

/-- Pieces that show a name start with an identifier. -/
theorem leftTokens_of_not_gone (count : Int32) {ps : List (Int32 × Nat)} (h : ¬ ∀ q ∈ ps, Gone q) :
    ∃ x ts, leftTokens count ps = .ident x :: ts := by
  induction ps with
  | nil => exact absurd (by simp) h
  | cons q ps ih =>
    rw [leftTokens_cons]
    rcases gone_or_bare_or_joined count q with hq | hq | hq
    · rw [pieceTokens_gone hq, List.nil_append]
      apply ih
      intro hps
      apply h
      intro r hr
      rcases List.mem_cons.mp hr with rfl | hr
      · exact hq
      · exact hps r hr
    · exact ⟨_, _, by rw [pieceTokens_bare hq]; rfl⟩
    · exact ⟨_, _, by rw [pieceTokens_joined hq]; rfl⟩

/-- After the keyword, the parser reads the sum if there is one, and else fails. -/
theorem parseConstraint_leftTokens (count : Int32) (ps : List (Int32 × Nat)) :
    parseConstraint (leftTokens count ps ++ [.ge, .num 1]) =
      (sumNames count ps).map fun xs => ⟨xs, .ge, 1⟩ := by
  induction ps with
  | nil => rfl
  | cons q ps ih =>
    rw [leftTokens_cons, List.append_assoc]
    rcases gone_or_bare_or_joined count q with hq | hq | hq
    · rw [pieceTokens_gone hq, sumNames_gone hq]
      exact ih
    · rw [pieceTokens_bare hq, sumNames_bare hq]
      split
      · rename_i hps
        rw [leftTokens_of_gone hps]
        rfl
      · rename_i hps
        obtain ⟨x, ts, hx⟩ := leftTokens_of_not_gone count hps
        rw [hx]
        rfl
    · rw [pieceTokens_joined hq, sumNames_joined hq]
      show parseConstraint (.ident _ :: .plus :: (leftTokens count ps ++ _)) = _
      rw [parseConstraint_ident_plus, ih]
      cases sumNames count ps <;> rfl

/-! ## The statement of a clause line -/

/-- The values leave a clause constraint: the keyword, and a sum. -/
def LeavesConstraint (count : Int32) (vs : List Int32) : Prop :=
  overhang count vs = 0 ∧ LeavesSum count (left count vs)

theorem baseTokens_cut : ∀ cut < 11, 0 < cut →
    baseTokens cut = [] ∨ ∃ x, baseTokens cut = [.ident x] := by
  intro cut hlt hpos
  rcases Nat.eq_or_lt_of_le (Nat.le_of_lt_succ hlt) with rfl | hlt
  · exact .inl rfl
  · have hident : ∀ c < 10, 0 < c → wordToken ("constraint".toList.take (10 - c)) =
        some (.ident ("constraint".toList.take (10 - c))) := by decide +kernel
    right
    rw [baseTokens, hident cut hlt hpos]
    exact ⟨_, rfl⟩

/-- A keyword that is cut makes no item. -/
theorem parseItem_cut {count : Int32} {vs : List Int32} (h : 0 < overhang count vs)
    (hfit : overhang count vs ≤ 10) : parseItem (clauseTokens count vs) = none := by
  unfold clauseTokens
  rcases baseTokens_cut _ (Nat.lt_succ_of_le hfit) h with hb | ⟨x, hb⟩
  · rw [hb, List.nil_append]
    by_cases hps : ∀ q ∈ left count vs, Gone q
    · rw [leftTokens_of_gone hps]
      rfl
    · obtain ⟨x, ts, hx⟩ := leftTokens_of_not_gone count hps
      rw [hx]
      rfl
  · rw [hb]
    rfl

theorem parseItem_clauseTokens {count : Int32} {vs : List Int32} (h : overhang count vs = 0) :
    parseItem (clauseTokens count vs) =
      (sumNames count (left count vs)).map fun xs => .constraint ⟨xs, .ge, 1⟩ := by
  have hbase : baseTokens 0 = [.keyword .constraint] := by decide +kernel
  rw [clauseTokens, h, hbase, List.append_assoc]
  show (parseConstraint (leftTokens count (left count vs) ++ _)).map _ = _
  rw [parseConstraint_leftTokens, Option.map_map]
  rfl

/-- A clause line that is written is a statement of the grammar just when
its values leave a clause constraint. -/
theorem parseItem_clauseTokens_isSome_iff {count : Int32} {vs : List Int32}
    (hfit : overhang count vs ≤ 10) :
    (parseItem (clauseTokens count vs)).isSome ↔ LeavesConstraint count vs := by
  unfold LeavesConstraint
  rcases Nat.eq_zero_or_pos (overhang count vs) with h | h
  · rw [parseItem_clauseTokens h, Option.isSome_map, sumNames_isSome_iff]
    simp [h]
  · rw [parseItem_cut h hfit]
    constructor
    · intro hs
      cases hs
    · intro hs
      omega

/-! ## Clauses as they should be -/

/-- Literals and then one 0, as DIMACS writes a clause. -/
theorem left_terminated (count : Int32) {ls : List Int32} (h0 : (0 : Int32) ∉ ls) (hne : ls ≠ []) :
    overhang count (ls ++ [0]) = 0 ∧
      sumNames count (left count (ls ++ [0])) = some (ls.map (literalName count)) := by
  induction ls with
  | nil => exact absurd rfl hne
  | cons v ls ih =>
    have hv : v ≠ 0 := fun h => h0 (h ▸ List.mem_cons_self)
    have hlen := operand_length count v
    cases ls with
    | nil =>
      have hover : overhang count ([] ++ [0]) = 2 := rfl
      have hleft : left count ([] ++ [0]) = [] := rfl
      rw [List.cons_append, overhang, left, if_neg hv, if_neg hv, hover, hleft]
      refine ⟨by omega, ?_⟩
      rw [sumNames_bare (bare_of_one_zero count v), if_pos (by simp)]
      rw [List.take_of_length_le (by dsimp only; omega)]
      rfl
    | cons w ls =>
      obtain ⟨hover, hsum⟩ := ih (fun h => h0 (List.mem_cons_of_mem v h)) (by simp)
      rw [List.cons_append, overhang, left, if_neg hv, if_neg hv, hover]
      refine ⟨by omega, ?_⟩
      rw [Nat.sub_zero, sumNames_joined (joined_whole count v), hsum]
      rfl

/-- With no two zeros in a row, a 0 reaches into one operand at most. -/
theorem overhang_of_isolated (count : Int32) {vs : List Int32}
    (h : vs.IsChain fun v w => ¬(v = 0 ∧ w = 0)) :
    overhang count vs = if vs.head? = some 0 then 2 else 0 := by
  induction vs with
  | nil => rfl
  | cons v vs ih =>
    have hrest := ih h.tail
    have hlen := operand_length count v
    rw [overhang]
    by_cases hv : v = 0
    · have hhead : vs.head? ≠ some 0 := by
        intro hw
        cases vs with
        | nil => cases hw
        | cons w vs => exact (List.isChain_cons_cons.mp h).1 ⟨hv, Option.some.inj hw⟩
      rw [if_pos hv, hrest, if_neg hhead, hv]
      rfl
    · have hhead : ¬ (v :: vs).head? = some 0 := by simpa using hv
      rw [if_neg hv, hrest, if_neg hhead]
      split <;> omega

/-- Then a literal keeps a part of its operand. -/
theorem not_gone_of_isolated {count v : Int32} {vs : List Int32}
    (h : (v :: vs).IsChain fun v w => ¬(v = 0 ∧ w = 0)) :
    ¬ Gone (v, (operand count v).length - overhang count vs) := by
  have hover := overhang_of_isolated count (show vs.IsChain _ from h.tail)
  have hlen := operand_length count v
  have hname := List.length_pos_of_ne_nil (literalName_ne_nil count v)
  intro hgone
  unfold Gone at hgone
  rw [hover] at hgone
  dsimp only at hgone
  split at hgone <;> omega

/-- Then the values leave a constraint only if they are literals and one 0. -/
theorem terminated_of_isolated {count : Int32} {vs : List Int32}
    (h : vs.IsChain fun v w => ¬(v = 0 ∧ w = 0)) (hs : LeavesConstraint count vs) :
    ∃ ls, vs = ls ++ [0] ∧ ls ≠ [] ∧ (0 : Int32) ∉ ls := by
  have hsum := (sumNames_isSome_iff count _).mpr hs.2
  have hhead : vs.head? ≠ some 0 := by
    intro hv
    have hover := overhang_of_isolated count h
    rw [hs.1, if_pos hv] at hover
    cases hover
  clear hs
  induction vs with
  | nil => cases hsum
  | cons v vs ih =>
    have hv : v ≠ 0 := by simpa using hhead
    have htail : vs.IsChain fun v w => ¬(v = 0 ∧ w = 0) := h.tail
    have hrest := overhang_of_isolated count htail
    rw [left, if_neg hv] at hsum
    by_cases hw : vs.head? = some 0
    · -- A 0 takes the operator of `v`, so nothing may follow that 0.
      obtain ⟨ws, rfl⟩ : ∃ ws, vs = 0 :: ws := by
        cases vs with
        | nil => cases hw
        | cons w ws => exact ⟨ws, by rw [Option.some.inj hw]⟩
      rw [if_pos hw] at hrest
      rw [hrest, sumNames_bare (bare_of_one_zero count v), left, if_pos rfl] at hsum
      have hws : ws = [] := by
        cases ws with
        | nil => rfl
        | cons w ws =>
          have hw0 : w ≠ 0 := fun he => (List.isChain_cons_cons.mp htail).1 ⟨rfl, he⟩
          rw [left, if_neg hw0, if_neg] at hsum
          · cases hsum
          · exact fun hall => not_gone_of_isolated htail.tail (hall _ List.mem_cons_self)
      exact ⟨[v], by rw [hws]; rfl, by simp, by simpa using Ne.symm hv⟩
    · rw [if_neg hw] at hrest
      rw [hrest, Nat.sub_zero, sumNames_joined (joined_whole count v), Option.isSome_map] at hsum
      obtain ⟨ls, rfl, -, h0⟩ := ih htail hsum hw
      exact ⟨v :: ls, rfl, by simp, by simpa [h0] using Ne.symm hv⟩

end reductor.transformer
