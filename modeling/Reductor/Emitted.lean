-- The whole text of a model: its closed form, when the writer throws instead
-- of giving it, and the statements that it is cut into.
import Reductor.ClauseTokens
import Reductor.Reader
import Mathlib.Data.List.Perm.Basic

open reductor.java reductor.dimacs reductor.minizinc

namespace reductor.transformer

attribute [local irreducible] String.toList

/-! ## The enumeration of the variables -/

/-- The numbers of the variables, in the order that the enumerations give. -/
def indices (order : Order) (count : Int32) : List Nat :=
  (order.run (variableMap count).entries).map fun e => e.1.toInt.toNat

theorem values_variableMap (order : Order) (count : Int32) :
    (variableMap count).values order = (indices order count).map varName := by
  unfold HashMap.values indices
  rw [List.map_map]
  apply List.map_congr_left
  intro e he
  have he := (order.perm _).mem_iff.mp he
  rw [variableMap_entries] at he
  obtain ⟨i, hi, rfl⟩ := List.mem_map.mp he
  have hi := List.mem_range.mp hi
  have hcount := count.toInt_lt
  show varName (i + 1) = varName (Int32.ofNat (i + 1)).toInt.toNat
  rw [toInt_ofNat (by omega)]
  rfl

/-- Each variable from 1 to the count comes once. -/
theorem indices_perm (order : Order) (count : Int32) :
    (indices order count).Perm ((List.range count.toInt.toNat).map (· + 1)) := by
  refine ((order.perm _).map _).trans (.of_eq ?_)
  rw [variableMap_entries, List.map_map]
  apply List.map_congr_left
  intro i hi
  have hi := List.mem_range.mp hi
  have hcount := count.toInt_lt
  show (Int32.ofNat (i + 1)).toInt.toNat = i + 1
  rw [toInt_ofNat (by omega)]
  rfl

theorem mem_indices {order : Order} {count : Int32} {i : Nat} :
    i ∈ indices order count ↔ 1 ≤ i ∧ (i : Int) ≤ count.toInt := by
  rw [(indices_perm order count).mem_iff, List.mem_map]
  constructor
  · rintro ⟨j, hj, rfl⟩
    have hj := List.mem_range.mp hj
    omega
  · intro h
    exact ⟨i - 1, List.mem_range.mpr (by omega), by omega⟩

theorem indices_nodup (order : Order) (count : Int32) : (indices order count).Nodup := by
  rw [(indices_perm order count).nodup_iff]
  refine List.nodup_range.map ?_
  intro i j h
  exact Nat.succ.inj h

theorem indices_eq_nil_iff {order : Order} {count : Int32} :
    indices order count = [] ↔ count.toInt ≤ 0 := by
  have hlen := (indices_perm order count).length_eq
  rw [List.length_map, List.length_range] at hlen
  rw [← List.length_eq_zero_iff, hlen]
  omega

/-! ## The closed form of the text -/

/-- The text of one clause. -/
def clauseText (count : Int32) (vs : List Int32) : Text :=
  "constraint".toList.take (10 - overhang count vs) ++ leftText count vs ++ ">= 1;\n".toList

/-- An output entry without the separator after it. -/
def entryText (i : Nat) : Text :=
  "\"".toList ++ varName i ++ "=\", show(".toList ++ varName i ++ "), \"\\t-".toList ++ varName i ++
    "=\", show(n_".toList ++ varName i ++ ")".toList

/-- The output item. With no variable the last deletion takes the bracket. -/
def outputText : List Nat → Text
  | [] => "output];".toList
  | i :: is =>
    "output [".toList ++ (entryText i ++ is.flatMap fun j => ", ".toList ++ entryText j) ++
      "];".toList

/-- The text after the comments. -/
def bodyText (order : Order) (dimacs : DimacsDto) : Text :=
  (indices order dimacs.variables').flatMap (fun i => declaration (varName i)) ++
  (indices order dimacs.variables').flatMap (fun i => complement (varName i)) ++
  dimacs.clausesDto.flatMap (fun c => clauseText dimacs.variables' c.values) ++
  "solve satisfy;\n".toList ++ outputText (indices order dimacs.variables')

def modelText (order : Order) (dimacs : DimacsDto) : Text :=
  dimacs.comments.flatMap commentLine ++ bodyText order dimacs

theorem outputEntry_eq (i : Nat) : outputEntry (varName i) = entryText i ++ ", ".toList := by
  have hend : "), ".toList = ")".toList ++ ", ".toList := by decide +kernel
  delta outputEntry entryText
  simp only [List.append_assoc, hend]

/-- The separator after each entry is the one in front of the next. -/
theorem flatMap_separated {α : Type} (f : α → Text) (sep : Text) (i : α) (is : List α) :
    (i :: is).flatMap (fun j => f j ++ sep) = f i ++ is.flatMap (fun j => sep ++ f j) ++ sep := by
  induction is generalizing i with
  | nil => simp
  | cons j is ih =>
    rw [List.flatMap_cons, ih j, List.flatMap_cons]
    simp only [List.append_assoc]

/-- What the output loop appends, in front of the two characters that are deleted. -/
theorem outputLoop_eq (is : List Nat) : ∃ t c d,
    ("output [".toList ++ is.flatMap fun i => outputEntry (varName i)) = t ++ [c, d] ∧
      t ++ "];".toList = outputText is := by
  have hopen : "output [".toList = "output".toList ++ [' ', '['] := by decide +kernel
  have hclose : "output".toList ++ "];".toList = "output];".toList := by decide +kernel
  have hsep : ", ".toList = [',', ' '] := by decide +kernel
  cases is with
  | nil =>
    exact ⟨"output".toList, ' ', '[', by rw [List.flatMap_nil, List.append_nil, hopen], hclose⟩
  | cons i is =>
    refine ⟨"output [".toList ++ (entryText i ++ is.flatMap fun j => ", ".toList ++ entryText j),
      ',', ' ', ?_, rfl⟩
    simp only [outputEntry_eq]
    rw [flatMap_separated]
    simp only [List.append_assoc, hsep]

/-- The last deletion, and the closing bracket after it. -/
theorem delete_outputText (b : Text) (is : List Nat) :
    (do
      let builder := b ++ "output [".toList ++ is.flatMap fun i => outputEntry (varName i)
      let builder ← delete builder (builder.length - 2) builder.length
      return builder ++ "];".toList) = Except.ok (b ++ outputText is) := by
  obtain ⟨t, c, d, hloop, htext⟩ := outputLoop_eq is
  rw [List.append_assoc, hloop, ← List.append_assoc, ← htext, ← List.append_assoc]
  show (delete (b ++ t ++ [c, d]) _ _).bind _ = _
  rw [delete_pair]
  rfl

theorem foldl_append_flatMap {α : Type} (f : α → Text) (l : List α) (b : Text) :
    l.foldl (fun b x => b ++ f x) b = b ++ l.flatMap f := by
  rw [List.foldl_append_eq_append, List.flatMap_def]

theorem foldlM_clauseLine_ok (count : Int32) (clauses : List ClausesDto) (b : Text)
    (h : ∀ c ∈ clauses, overhang count c.values ≤ 10) :
    (clauses.foldlM (fun b clauses => do
      return b ++ (← clauseLine (variableMap count) clauses)) b : Except Thrown Text) =
      .ok (b ++ clauses.flatMap fun c => clauseText count c.values) := by
  induction clauses generalizing b with
  | nil => simp only [List.flatMap_nil, List.append_nil]; rfl
  | cons c clauses ih =>
    rw [List.foldlM_cons, clauseLine_ok (h c List.mem_cons_self), List.flatMap_cons,
      ← List.append_assoc]
    exact ih _ fun d hd => h d (List.mem_cons_of_mem c hd)

theorem foldlM_clauseLine_error (count : Int32) (clauses : List ClausesDto) (b : Text)
    (h : ∃ c ∈ clauses, 10 < overhang count c.values) :
    ∃ i, (clauses.foldlM (fun b clauses => do
      return b ++ (← clauseLine (variableMap count) clauses)) b : Except Thrown Text) =
      .error (.stringIndex i) := by
  induction clauses generalizing b with
  | nil =>
    obtain ⟨c, hc, -⟩ := h
    cases hc
  | cons c clauses ih =>
    rw [List.foldlM_cons]
    by_cases hc : overhang count c.values ≤ 10
    · rw [clauseLine_ok hc]
      obtain ⟨d, hd, hover⟩ := h
      rcases List.mem_cons.mp hd with rfl | hd
      · omega
      · exact ih _ ⟨d, hd, hover⟩
    · obtain ⟨i, hi⟩ := clauseLine_error (Nat.lt_of_not_le hc)
      exact ⟨i, by rw [hi]; rfl⟩

/-- No clause has zeros enough to cancel more than its keyword. -/
def Fits (dimacs : DimacsDto) : Prop :=
  ∀ c ∈ dimacs.clausesDto, overhang dimacs.variables' c.values ≤ 10

instance (dimacs : DimacsDto) : Decidable (Fits dimacs) :=
  inferInstanceAs (Decidable (∀ c ∈ dimacs.clausesDto, _))

/-- `transformDimacs` gives the text as long as every clause fits. -/
theorem transformDimacs_ok (order : Order) {dimacs : DimacsDto} (h : Fits dimacs) :
    transformDimacs order dimacs = .ok (modelText order dimacs) := by
  unfold transformDimacs
  simp only [foldl_append_flatMap, List.nil_append, values_variableMap, List.flatMap_map]
  rw [foldlM_clauseLine_ok _ _ _ h]
  refine (delete_outputText _ _).trans ?_
  simp only [modelText, bodyText, List.append_assoc]

/-- Else it throws, from inside the clause loop. -/
theorem transformDimacs_error (order : Order) {dimacs : DimacsDto} (h : ¬ Fits dimacs) :
    ∃ i, transformDimacs order dimacs = .error (.stringIndex i) := by
  have hbad : ∃ c ∈ dimacs.clausesDto, 10 < overhang dimacs.variables' c.values := by
    simpa only [Fits, not_forall, Nat.not_le, exists_prop] using h
  unfold transformDimacs
  simp only [foldl_append_flatMap, List.nil_append, values_variableMap]
  obtain ⟨i, hi⟩ := foldlM_clauseLine_error dimacs.variables' dimacs.clausesDto
    (dimacs.comments.flatMap commentLine ++
      ((indices order dimacs.variables').map varName).flatMap declaration ++
      ((indices order dimacs.variables').map varName).flatMap complement) hbad
  exact ⟨i, by rw [hi]; rfl⟩

theorem transformDimacs_eq_ok_iff {order : Order} {dimacs : DimacsDto} {text : Text} :
    transformDimacs order dimacs = .ok text ↔ Fits dimacs ∧ text = modelText order dimacs := by
  by_cases h : Fits dimacs
  · rw [transformDimacs_ok order h, Except.ok.injEq]
    exact ⟨fun he => ⟨h, he.symm⟩, fun he => he.2.symm⟩
  · obtain ⟨i, hi⟩ := transformDimacs_error order h
    rw [hi]
    constructor
    · intro he
      cases he
    · intro he
      exact absurd he.1 h

/-- The reader and the writer give a text just when every line is readable and every clause fits. -/
theorem process_eq_ok_iff {order : Order} {lines : List Line} {text : Text} :
    process order lines = .ok text ↔
      (∀ l ∈ lines, Readable l) ∧ Fits (dtoOf lines) ∧ text = modelText order (dtoOf lines) := by
  unfold process
  by_cases h : ∀ l ∈ lines, Readable l
  · rw [deserialize_ok h]
    show transformDimacs order (dtoOf lines) = _ ↔ _
    rw [transformDimacs_eq_ok_iff]
    exact ⟨fun ht => ⟨h, ht⟩, fun ht => ht.2⟩
  · obtain ⟨e, he⟩ := deserialize_error (by simpa using h)
    rw [he]
    constructor
    · intro ht
      cases ht
    · intro ht
      exact absurd ht.1 h

/-- The clauses of a file are the values of its clause lines. -/
theorem forall_clausesDto_iff {lines : List Line} {P : List Int32 → Prop} :
    (∀ c ∈ (dtoOf lines).clausesDto, P c.values) ↔ ∀ l ∈ clauseLines lines, P (clauseValues l) := by
  simp [dtoOf]

/-- Whatever lines give has a property just when the reader or the writer
throws, or the text of the lines has it. -/
theorem forall_process_iff {order : Order} {lines : List Line} {P : Text → Prop} {Q : Prop}
    (h : Fits (dtoOf lines) → (P (modelText order (dtoOf lines)) ↔ Q)) :
    (∀ text, process order lines = .ok text → P text) ↔
      (∃ l ∈ lines, ¬ Readable l) ∨
      (∃ l ∈ clauseLines lines, 10 < overhang (headerVariables lines) (clauseValues l)) ∨ Q := by
  simp only [process_eq_ok_iff]
  by_cases hreadable : ∀ l ∈ lines, Readable l
  · by_cases hfits : Fits (dtoOf lines)
    · have hfit := (forall_clausesDto_iff (P := fun vs => overhang _ vs ≤ 10)).mp hfits
      constructor
      · intro hp
        exact .inr (.inr ((h hfits).mp (hp _ ⟨hreadable, hfits, rfl⟩)))
      · rintro (⟨l, hl, hbad⟩ | ⟨l, hl, hover⟩ | hq) text ⟨-, -, rfl⟩
        · exact absurd (hreadable l hl) hbad
        · exact absurd (hfit l hl) (Nat.not_le_of_lt hover)
        · exact (h hfits).mpr hq
    · have hover : ∃ l ∈ clauseLines lines,
          10 < overhang (headerVariables lines) (clauseValues l) := by
        have hfit := mt (forall_clausesDto_iff
          (P := fun vs => overhang (headerVariables lines) vs ≤ 10)).mpr hfits
        simpa only [not_forall, Nat.not_le, exists_prop] using hfit
      refine ⟨fun _ => .inr (.inl hover), fun _ text htext => ?_⟩
      exact absurd htext.2.1 hfits
  · have hbad : ∃ l ∈ lines, ¬ Readable l := by simpa using hreadable
    refine ⟨fun _ => .inl hbad, fun _ text htext => ?_⟩
    exact absurd htext.1 hreadable

end reductor.transformer
