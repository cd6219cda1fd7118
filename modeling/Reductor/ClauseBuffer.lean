-- The buffer of one clause. Each literal appends an operand with its
-- operator, and each 0 deletes two characters, whatever they are. So what is
-- left of an operand depends on the zeros after it: read from the right, a 0
-- cancels the two nearest characters that nothing has cancelled yet.
import Reductor.Transformer

open reductor.java reductor.dimacs

namespace reductor.transformer

/-! ## The variable map read -/

def varName (i : Nat) : Text := "Var".toList ++ Nat.toDigits 10 i

theorem toInt_ofNat {i : Nat} (h : i < 2 ^ 31) : (Int32.ofNat i).toInt = i :=
  Int32.toInt_ofNat_of_lt h

theorem intString_ofNat {i : Nat} (h : i < 2 ^ 31) :
    intString (Int32.ofNat i) = Nat.toDigits 10 i := by
  unfold intString
  rw [toInt_ofNat h, if_neg (by omega)]
  rfl

theorem variableMap_entries (count : Int32) :
    (variableMap count).entries =
      (List.range count.toInt.toNat).map fun i => (Int32.ofNat (i + 1), varName (i + 1)) := by
  have hcount := count.toInt_lt
  unfold variableMap
  rw [HashMap.foldl_put_entries]
  · apply List.map_congr_left
    intro i hi
    have hi := List.mem_range.mp hi
    rw [intString_ofNat (by omega)]
    rfl
  · intro i hi j hj hij
    have := congrArg Int32.toInt hij
    rw [toInt_ofNat (by omega), toInt_ofNat (by omega)] at this
    omega

/-- The map has a name for the numbers from 1 to the count, and no others. -/
theorem get_variableMap (count k : Int32) :
    (variableMap count).get k =
      if 1 ≤ k.toInt ∧ k.toInt ≤ count.toInt then some (varName k.toInt.toNat) else none := by
  have hcount := count.toInt_lt
  have hentry : ∀ v, (k, v) ∈ (variableMap count).entries ↔
      (1 ≤ k.toInt ∧ k.toInt ≤ count.toInt) ∧ v = varName k.toInt.toNat := by
    intro v
    rw [variableMap_entries, List.mem_map]
    constructor
    · rintro ⟨i, hi, h⟩
      obtain ⟨rfl, rfl⟩ := Prod.mk.inj h
      have hi := List.mem_range.mp hi
      rw [toInt_ofNat (by omega)]
      exact ⟨by omega, rfl⟩
    · rintro ⟨hk, rfl⟩
      refine ⟨k.toInt.toNat - 1, List.mem_range.mpr (by omega), ?_⟩
      have hnat : k.toInt.toNat - 1 + 1 = k.toInt.toNat := by omega
      rw [hnat, Prod.mk.injEq]
      refine ⟨?_, rfl⟩
      apply Int32.toInt_inj.mp
      rw [toInt_ofNat (by omega)]
      omega
  split
  · rename_i hk
    rw [HashMap.get_eq_some_iff, hentry]
    exact ⟨hk, rfl⟩
  · rename_i hk
    rw [Option.eq_none_iff_forall_ne_some]
    intro v hv
    rw [HashMap.get_eq_some_iff, hentry] at hv
    exact hk hv.1

/-! ## The operand of a literal -/

/-- The literal is one of a variable that the map names. -/
def InRange (count v : Int32) : Prop := v ≠ 0 ∧ (v.toInt.natAbs : Int) ≤ count.toInt

instance (count v : Int32) : Decidable (InRange count v) :=
  inferInstanceAs (Decidable (_ ∧ _))

/-- The identifier that stands for a literal, with `null` for a variable that
the map does not name. -/
def literalName (count v : Int32) : Text :=
  (if v < 0 then "n_".toList else []) ++
    if InRange count v then varName v.toInt.natAbs else "null".toList

/-- What a literal appends to the buffer. -/
def operand (count v : Int32) : Text := " ".toList ++ literalName count v ++ " + ".toList

theorem operand_length (count v : Int32) :
    (operand count v).length = (literalName count v).length + 4 := by
  simp only [operand, List.length_append]
  show 1 + _ + 3 = _
  omega

theorem literalName_ne_nil (count v : Int32) : literalName count v ≠ [] := by
  unfold literalName varName
  intro h
  have h2 := (List.append_eq_nil_iff.mp h).2
  split at h2
  · cases h2
  · cases h2

theorem toInt_eq_zero_iff {v : Int32} : v.toInt = 0 ↔ v = 0 := by
  rw [← Int32.toInt_inj, Int32.toInt_zero]

theorem int32_lt_zero_iff {v : Int32} : v < 0 ↔ v.toInt < 0 := by
  rw [Int32.lt_iff_toInt_lt, Int32.toInt_zero]

theorem int32_zero_lt_iff {v : Int32} : 0 < v ↔ 0 < v.toInt := by
  rw [Int32.lt_iff_toInt_lt, Int32.toInt_zero]

/-- The absolute value of the least `int` is negative, and no key of the map. -/
theorem mathAbs_cases (v : Int32) :
    (mathAbs v).toInt = v.toInt.natAbs ∨ v.toInt = -2 ^ 31 ∧ (mathAbs v).toInt = -2 ^ 31 := by
  by_cases hmin : v.toInt = -2 ^ 31
  · obtain rfl : v = Int32.minValue := Int32.toInt_inj.mp hmin
    exact .inr ⟨rfl, rfl⟩
  · exact .inl (mathAbs_toInt hmin)

/-- The look-up of the variable of a literal, as `String.format` prints it. -/
theorem formatted_get {count v k : Int32} (hv : v ≠ 0)
    (hk : k.toInt = v.toInt.natAbs ∨ v.toInt = -2 ^ 31 ∧ k.toInt = -2 ^ 31) :
    formatted ((variableMap count).get k) =
      if InRange count v then varName v.toInt.natAbs else "null".toList := by
  have hcount := count.toInt_lt
  have hne := mt toInt_eq_zero_iff.mp hv
  rw [get_variableMap]
  by_cases hr : InRange count v
  · have hle := hr.2
    have hnat : k.toInt.toNat = v.toInt.natAbs := by omega
    rw [if_pos hr, if_pos (by omega), hnat]
    rfl
  · have hout : ¬ (1 ≤ k.toInt ∧ k.toInt ≤ count.toInt) := by
      rintro ⟨h1, hle⟩
      exact hr ⟨hv, by omega⟩
    rw [if_neg hr, if_neg hout]
    rfl

/-- Both branches of a literal append its operand, and a 0 deletes. -/
theorem appendValue_eq (count : Int32) (buffer : Text) (v : Int32) :
    appendValue (variableMap count) buffer v =
      if v = 0 then delete buffer (buffer.length - 2) buffer.length
      else .ok (buffer ++ operand count v) := by
  unfold appendValue operand literalName
  by_cases hneg : v < 0
  · have hz : v ≠ 0 := by
      rintro rfl
      exact absurd hneg (by decide)
    rw [if_pos hneg, if_neg hz, if_pos hneg, formatted_get hz (mathAbs_cases v)]
    simp only [List.append_assoc]
    rfl
  · rw [if_neg hneg]
    by_cases hz : v = 0
    · subst hz
      rfl
    · have hpos : 0 < v.toInt := by
        rw [int32_lt_zero_iff] at hneg
        have := mt toInt_eq_zero_iff.mp hz
        omega
      rw [if_pos (int32_zero_lt_iff.mpr hpos), if_neg hz, if_neg hneg,
        formatted_get hz (.inl (by omega))]
      simp only [List.append_assoc]
      rfl

/-! ## What the zeros leave -/

/-- How many characters in front of the values their zeros cancel. -/
def overhang (count : Int32) : List Int32 → Nat
  | [] => 0
  | v :: vs =>
    if v = 0 then overhang count vs + 2
    else overhang count vs - (operand count v).length

/-- The literals of the values, each with the number of characters of its
operand that no zero cancels. -/
def left (count : Int32) : List Int32 → List (Int32 × Nat)
  | [] => []
  | v :: vs =>
    if v = 0 then left count vs
    else (v, (operand count v).length - overhang count vs) :: left count vs

/-- The text that the values leave. -/
def leftText (count : Int32) (vs : List Int32) : Text :=
  (left count vs).flatMap fun p => (operand count p.1).take p.2

theorem take_append_operand (b s : Text) (k : Nat) :
    (b ++ s).take ((b ++ s).length - k) =
      b.take (b.length - (k - s.length)) ++ s.take (s.length - k) := by
  rw [List.take_append, List.length_append]
  have hs : b.length + s.length - k - b.length = s.length - k := by omega
  have hb : b.take (b.length + s.length - k) = b.take (b.length - (k - s.length)) := by
    by_cases hk : k ≤ s.length
    · rw [List.take_of_length_le (by omega), List.take_of_length_le (by omega)]
    · congr 1
      omega
  rw [hs, hb]

/-- The literal loop, as long as the zeros do not run past the start of the buffer. -/
theorem appendValues_ok (count : Int32) (vs : List Int32) (buffer : Text)
    (h : overhang count vs ≤ buffer.length) :
    vs.foldlM (appendValue (variableMap count)) buffer =
      .ok (buffer.take (buffer.length - overhang count vs) ++ leftText count vs) := by
  induction vs generalizing buffer with
  | nil =>
    simp only [overhang, leftText, left, Nat.sub_zero, List.take_length, List.flatMap_nil,
      List.append_nil]
    rfl
  | cons v vs ih =>
    rw [List.foldlM_cons, appendValue_eq]
    by_cases hv : v = 0
    · simp only [overhang, leftText, left, if_pos hv] at h ⊢
      rw [delete_tail, if_neg (by omega)]
      have hlen : (buffer.take (buffer.length - 2)).length = buffer.length - 2 := by simp
      have hrest := ih (buffer.take (buffer.length - 2)) (by omega)
      rw [hlen, List.take_take, Nat.min_eq_left (by omega), Nat.sub_sub, Nat.add_comm 2] at hrest
      exact hrest
    · simp only [overhang, leftText, left, if_neg hv] at h ⊢
      have hrest := ih (buffer ++ operand count v) (by rw [List.length_append]; omega)
      rw [take_append_operand, List.append_assoc] at hrest
      exact hrest

/-- Else the deletion that runs past it throws. -/
theorem appendValues_error (count : Int32) (vs : List Int32) (buffer : Text)
    (h : buffer.length < overhang count vs) :
    ∃ i, vs.foldlM (appendValue (variableMap count)) buffer = .error (.stringIndex i) := by
  induction vs generalizing buffer with
  | nil => exact absurd h (Nat.not_lt_zero _)
  | cons v vs ih =>
    rw [List.foldlM_cons, appendValue_eq]
    by_cases hv : v = 0
    · simp only [overhang, if_pos hv] at h ⊢
      rw [delete_tail]
      split
      · exact ⟨_, rfl⟩
      · exact ih _ (by rw [List.length_take]; omega)
    · simp only [overhang, if_neg hv] at h ⊢
      exact ih _ (by rw [List.length_append]; omega)

theorem clauseLine_ok {count : Int32} {clauses : ClausesDto}
    (h : overhang count clauses.values ≤ 10) :
    clauseLine (variableMap count) clauses =
      .ok ("constraint".toList.take (10 - overhang count clauses.values) ++
        leftText count clauses.values ++ ">= 1;\n".toList) := by
  unfold clauseLine
  rw [appendValues_ok count clauses.values "constraint".toList h]
  rfl

theorem clauseLine_error {count : Int32} {clauses : ClausesDto}
    (h : 10 < overhang count clauses.values) :
    ∃ i, clauseLine (variableMap count) clauses = .error (.stringIndex i) := by
  obtain ⟨i, hi⟩ := appendValues_error count clauses.values "constraint".toList h
  refine ⟨i, ?_⟩
  unfold clauseLine
  rw [hi]
  rfl

end reductor.transformer
