-- When an emitted text is closed: every identifier that it names outside a
-- declaration is declared once. The zeros of a clause may cut a name, and a
-- name may be one of a variable that the header does not count.
import Reductor.Items
import Mathlib.Data.List.Count

open reductor.java reductor.dimacs reductor.minizinc

namespace reductor.transformer

/-! ## Closed texts -/

/-- The identifier that a statement declares with the domain `0..1`. -/
def declaredBy : List Token → Option Text
  | [.keyword .var, .num 0, .dots, .num 1, .colon, .ident x] => some x
  | _ => none

def ident? : Token → Option Text
  | .ident x => some x
  | _ => none

/-- The identifiers that a statement names and does not declare. -/
def usedBy (statement : List Token) : List Text :=
  if (declaredBy statement).isSome then [] else statement.filterMap ident?

def declaredNames (ss : List (List Token)) : List Text := ss.filterMap declaredBy

/-- The identifiers of the output items. -/
def shownNames (ss : List (List Token)) : List Text :=
  (ss.filter fun s => s.head? = some (.keyword .output)).flatMap usedBy

/-- Every name is declared once, and each pair of names is tied once and shown once. -/
structure Closed (ss : List (List Token)) : Prop where
  declared : ∀ s ∈ ss, ∀ x ∈ usedBy s, (declaredNames ss).count x = 1
  paired : ∀ i, varName i ∈ declaredNames ss ↔ negName i ∈ declaredNames ss
  tied : ∀ i, varName i ∈ declaredNames ss → ss.count (complementTokens i) = 1
  shown : ∀ i, varName i ∈ declaredNames ss →
    (shownNames ss).count (varName i) = 1 ∧ (shownNames ss).count (negName i) = 1

/-! ## Names cut -/

/-- The length of a name without its digits. -/
def stem (v : Int32) : Nat := if v < 0 then 5 else 3

/-- The first digits of a number that is not 0 are those of a smaller one, or all of them. -/
theorem take_toDigits {i m : Nat} (hi : 1 ≤ i) (hm : 1 ≤ m) :
    ∃ j, 1 ≤ j ∧ j ≤ i ∧ (Nat.toDigits 10 i).take m = Nat.toDigits 10 j := by
  induction i using Nat.strongRecOn with
  | ind i ih =>
    by_cases hall : (Nat.toDigits 10 i).length ≤ m
    · exact ⟨i, hi, Nat.le_refl i, List.take_of_length_le hall⟩
    · have hten : 10 ≤ i := by
        by_contra hlt
        rw [Nat.toDigits_of_lt_base (Nat.lt_of_not_le hlt)] at hall
        exact hall hm
      obtain ⟨j, hj, hle, htake⟩ := ih (i / 10) (by omega) (by omega)
      refine ⟨j, hj, by omega, ?_⟩
      rw [Nat.toDigits_eq_if (by decide), if_neg (by omega)] at hall ⊢
      rw [List.length_append, List.length_singleton] at hall
      rw [List.take_append_of_le_length (by omega), htake]

theorem one_le_of_inRange {count v : Int32} (h : InRange count v) : 1 ≤ v.toInt.natAbs := by
  have := mt toInt_eq_zero_iff.mp h.1
  omega

theorem take_varName (i m : Nat) :
    (varName i).take (m + 3) = "Var".toList ++ (Nat.toDigits 10 i).take m := rfl

theorem take_negName (i m : Nat) : (negName i).take (m + 2) = "n_".toList ++ (varName i).take m :=
  rfl

/-- A cut behind the first digit leaves the name of a variable of the problem. -/
theorem take_literalName {count v : Int32} (h : InRange count v) {m : Nat} (hm : stem v < m) :
    ∃ i : Nat, (1 ≤ i ∧ (i : Int) ≤ count.toInt) ∧
      ((literalName count v).take m = varName i ∨ (literalName count v).take m = negName i) := by
  have hle := h.2
  rw [literalName_of_inRange h]
  unfold stem at hm
  split at hm
  · rename_i hneg
    obtain ⟨j, hj, hji, htake⟩ := take_toDigits (m := m - 5) (one_le_of_inRange h) (by omega)
    obtain ⟨k, rfl⟩ : ∃ k, m = k + 3 + 2 := ⟨m - 5, by omega⟩
    refine ⟨j, ⟨hj, by omega⟩, .inr ?_⟩
    rw [if_pos hneg, take_negName, take_varName]
    exact congrArg (fun digits => "n_".toList ++ ("Var".toList ++ digits)) htake
  · rename_i hneg
    obtain ⟨j, hj, hji, htake⟩ := take_toDigits (m := m - 3) (one_le_of_inRange h) (by omega)
    obtain ⟨k, rfl⟩ : ∃ k, m = k + 3 := ⟨m - 3, by omega⟩
    refine ⟨j, ⟨hj, by omega⟩, .inl ?_⟩
    rw [if_neg hneg, take_varName]
    exact congrArg ("Var".toList ++ ·) htake

theorem varName_length (i : Nat) : 4 ≤ (varName i).length := by
  have := List.length_pos_of_ne_nil (Nat.toDigits_ne_nil (b := 10) (n := i))
  simp only [varName, List.length_append]
  show 4 ≤ 3 + _
  omega

theorem negName_length (i : Nat) : 6 ≤ (negName i).length := by
  have := varName_length i
  simp only [negName, List.length_append]
  show 6 ≤ 2 + _
  omega

/-- A cut in front of the first digit leaves no name. -/
theorem take_literalName_ne {count v : Int32} (h : InRange count v) {m : Nat} (hm : m ≤ stem v)
    (i : Nat) : (literalName count v).take m ≠ varName i ∧
      (literalName count v).take m ≠ negName i := by
  have hlen : ((literalName count v).take m).length ≤ stem v := by
    rw [List.length_take]
    omega
  have hvar := varName_length i
  have hneg := negName_length i
  rw [literalName_of_inRange h] at hlen ⊢
  unfold stem at hlen
  split at hlen
  · rename_i hv
    rw [if_pos hv]
    constructor
    · intro he
      cases m with
      | zero =>
        rw [← he] at hvar
        exact absurd hvar (by simp)
      | succ m =>
        have he : 'n' :: _ = 'V' :: _ := he
        exact absurd (List.cons.inj he).1 (by decide)
    · intro he
      rw [he] at hlen
      omega
  · rename_i hv
    rw [if_neg hv]
    constructor
    · intro he
      rw [he] at hlen
      omega
    · intro he
      rw [he] at hlen
      omega

/-! ## The names of each statement -/

theorem declaredBy_eq_some {s : List Token} {x : Text} (h : declaredBy s = some x) :
    s = declarationTokens x := by
  unfold declaredBy at h
  split at h
  · cases h
    rfl
  · cases h

/-- No clause line ends as a declaration does. -/
theorem declaredBy_clauseTokens (count : Int32) (vs : List Int32) :
    declaredBy (clauseTokens count vs) = none := by
  rw [Option.eq_none_iff_forall_ne_some]
  intro x hx
  have hlast := congrArg List.getLast? (declaredBy_eq_some hx)
  rw [clauseTokens, List.getLast?_append] at hlast
  cases hlast

theorem declaredNames_statementsOf (order : Order) (dimacs : DimacsDto) :
    declaredNames (statementsOf order dimacs) = declared (modelItems order dimacs) := by
  have hdeclarations : ∀ is : List Nat, (is.flatMap fun i =>
      [declarationTokens (varName i), declarationTokens (negName i)]).filterMap declaredBy =
        is.flatMap fun i => [varName i, negName i] := by
    intro is
    induction is with
    | nil => rfl
    | cons i is ih =>
      rw [List.flatMap_cons, List.filterMap_append, ih]
      rfl
  have hnone : ∀ (α : Type) (l : List α) (f : α → List Token),
      (∀ x ∈ l, declaredBy (f x) = none) → (l.map f).filterMap declaredBy = [] := by
    intro α l f hf
    rw [List.filterMap_map, List.filterMap_eq_nil_iff]
    exact hf
  have houtput : ∀ is, declaredBy (outputTokens is) = none := by
    intro is
    cases is <;> rfl
  rw [declared_modelItems, declaredNames, statementsOf, List.filterMap_append,
    List.filterMap_append, List.filterMap_append, hdeclarations, hnone _ _ _ fun _ _ => rfl,
    hnone _ _ _ fun _ _ => declaredBy_clauseTokens _ _, List.filterMap_cons_none rfl,
    List.filterMap_cons_none (houtput _)]
  simp

theorem mem_piece_names {name x : Text} {k : Nat} :
    x ∈ (pieceTokens name k).filterMap ident? ↔ 2 ≤ k ∧ x = name.take (k - 1) := by
  unfold pieceTokens
  split
  · simp only [List.filterMap_nil, List.not_mem_nil, false_iff]
    omega
  · split
    · simp only [List.filterMap_cons, List.filterMap_nil, ident?, List.mem_singleton]
      exact ⟨fun h => ⟨by omega, h⟩, And.right⟩
    · rw [List.take_of_length_le (by omega)]
      simp only [List.filterMap_cons, List.filterMap_nil, ident?, List.mem_singleton]
      exact ⟨fun h => ⟨by omega, h⟩, And.right⟩

theorem mem_usedBy_clauseTokens {count : Int32} {vs : List Int32} {x : Text} :
    x ∈ usedBy (clauseTokens count vs) ↔ x ∈ (baseTokens (overhang count vs)).filterMap ident? ∨
      ∃ p ∈ left count vs, 2 ≤ p.2 ∧ x = (literalName count p.1).take (p.2 - 1) := by
  rw [usedBy, declaredBy_clauseTokens, if_neg (by simp), clauseTokens, List.filterMap_append,
    List.filterMap_append, leftTokens, List.filterMap_flatMap]
  simp only [List.mem_append, List.mem_flatMap, mem_piece_names]
  simp [ident?]

/-- What the zeros leave of the keyword is a name, unless they leave all of it or nothing. -/
theorem base_names : ∀ cut < 11, (baseTokens cut).filterMap ident? =
    if cut = 0 ∨ cut = 10 then [] else ["constraint".toList.take (10 - cut)] := by
  decide +kernel

theorem mem_left {count : Int32} {vs : List Int32} {p : Int32 × Nat} (h : p ∈ left count vs) :
    p.1 ∈ vs ∧ p.1 ≠ 0 := by
  induction vs with
  | nil => cases h
  | cons v vs ih =>
    rw [left] at h
    split at h
    · exact ⟨List.mem_cons_of_mem v (ih h).1, (ih h).2⟩
    · rename_i hv
      rcases List.mem_cons.mp h with rfl | h
      · exact ⟨List.mem_cons_self, hv⟩
      · exact ⟨List.mem_cons_of_mem v (ih h).1, (ih h).2⟩

/-! ## When a text is closed -/

/-- The zeros cut the keyword nowhere or away, and no name in front of its first digit. -/
def KeepsNames (count : Int32) (vs : List Int32) : Prop :=
  (overhang count vs = 0 ∨ overhang count vs = 10) ∧
    ∀ p ∈ left count vs, Gone p ∨ stem p.1 + 2 ≤ p.2

/-- Every literal of the values is one of a variable of the problem. -/
def LiteralsInRange (count : Int32) (vs : List Int32) : Prop := ∀ v ∈ vs, v ≠ 0 → InRange count v

/-- What is left of a keyword that is cut is no declared name. -/
theorem take_keyword_notMem_declared (order : Order) (dimacs : DimacsDto) {k : Nat} (hk : 0 < k) :
    "constraint".toList.take k ∉ declared (modelItems order dimacs) := by
  intro h
  obtain ⟨i, -, hi⟩ := mem_declared_modelItems.mp h
  obtain ⟨k, rfl⟩ : ∃ j, k = j + 1 := ⟨k - 1, by omega⟩
  rcases hi with hi | hi
  · have hi : 'c' :: _ = 'V' :: _ := hi
    exact absurd (List.cons.inj hi).1 (by decide)
  · have hi : 'c' :: _ = 'n' :: _ := hi
    exact absurd (List.cons.inj hi).1 (by decide)

theorem clause_names_iff (order : Order) {dimacs : DimacsDto} {vs : List Int32}
    (hfit : overhang dimacs.variables' vs ≤ 10) (hrange : LiteralsInRange dimacs.variables' vs) :
    (∀ x ∈ usedBy (clauseTokens dimacs.variables' vs), x ∈ declared (modelItems order dimacs)) ↔
      KeepsNames dimacs.variables' vs := by
  have hbase := base_names _ (Nat.lt_succ_of_le hfit)
  constructor
  · intro h
    constructor
    · by_contra hcut
      rw [if_neg hcut] at hbase
      have hpos : 0 < 10 - overhang dimacs.variables' vs := by omega
      refine take_keyword_notMem_declared order dimacs hpos (h _ ?_)
      rw [mem_usedBy_clauseTokens, hbase]
      exact .inl List.mem_cons_self
    · intro p hp
      by_contra hcut
      unfold Gone at hcut
      obtain ⟨hmem, hne⟩ := mem_left hp
      obtain ⟨i, -, hi⟩ := mem_declared_modelItems.mp
        (h _ (mem_usedBy_clauseTokens.mpr (.inr ⟨p, hp, by omega, rfl⟩)))
      obtain ⟨hvar, hneg⟩ := take_literalName_ne (hrange _ hmem hne)
        (show p.2 - 1 ≤ stem p.1 by omega) i
      rcases hi with hi | hi
      · exact hvar hi
      · exact hneg hi
  · rintro ⟨hcut, hpieces⟩ x hx
    rw [if_pos hcut] at hbase
    rw [mem_usedBy_clauseTokens, hbase] at hx
    rcases hx with hx | ⟨p, hp, hk, rfl⟩
    · cases hx
    · obtain ⟨hmem, hne⟩ := mem_left hp
      have hkeep : stem p.1 < p.2 - 1 := by
        have := hpieces p hp
        unfold Gone at this
        omega
      exact mem_declared_modelItems.mpr (take_literalName (hrange _ hmem hne) hkeep)

theorem varName_mem_declared {order : Order} {dimacs : DimacsDto} {i : Nat} :
    varName i ∈ declared (modelItems order dimacs) ↔ i ∈ indices order dimacs.variables' := by
  rw [mem_declared_modelItems, mem_indices]
  constructor
  · rintro ⟨j, hj, h | h⟩
    · rw [varName_injective h]
      exact hj
    · exact absurd h (varName_ne_negName i j)
  · exact fun hi => ⟨i, hi, .inl rfl⟩

theorem negName_mem_declared {order : Order} {dimacs : DimacsDto} {i : Nat} :
    negName i ∈ declared (modelItems order dimacs) ↔ i ∈ indices order dimacs.variables' := by
  rw [mem_declared_modelItems, mem_indices]
  constructor
  · rintro ⟨j, hj, h | h⟩
    · exact absurd h.symm (varName_ne_negName j i)
    · rw [negName_injective h]
      exact hj
  · exact fun hi => ⟨i, hi, .inr rfl⟩

theorem usedBy_outputTokens (is : List Nat) :
    usedBy (outputTokens is) = is.flatMap fun i => [varName i, negName i] := by
  have hentries : ∀ is : List Nat, (is.flatMap fun j => .comma :: entryTokens j).filterMap ident? =
      is.flatMap fun i => [varName i, negName i] := by
    intro is
    rw [List.filterMap_flatMap]
    rfl
  cases is with
  | nil => rfl
  | cons i is =>
    show (entryTokens i ++ (is.flatMap fun j => Token.comma :: entryTokens j) ++
      [Token.rbrack]).filterMap ident? = _
    rw [List.filterMap_append, List.filterMap_append, hentries, List.flatMap_cons]
    exact List.append_nil _

theorem keyword_notMem_clauseTokens {count : Int32} {vs : List Int32} (h : overhang count vs ≤ 10) :
    Token.keyword .output ∉ clauseTokens count vs := by
  have hbase : ∀ cut < 11, Token.keyword .output ∉ baseTokens cut := by decide +kernel
  have hpiece : ∀ name k, Token.keyword .output ∉ pieceTokens name k := by
    intro name k
    unfold pieceTokens
    split
    · simp
    · split <;> simp
  simp only [clauseTokens, leftTokens, List.mem_append, List.mem_flatMap, not_or, not_exists,
    not_and]
  exact ⟨⟨hbase _ (Nat.lt_succ_of_le h), fun p _ => hpiece _ _⟩, by decide⟩

/-- The output item is the only one, and shows the names that are declared. -/
theorem shownNames_statementsOf (order : Order) {dimacs : DimacsDto} (h : Fits dimacs) :
    shownNames (statementsOf order dimacs) = declared (modelItems order dimacs) := by
  have hbefore : ∀ s ∈ (indices order dimacs.variables').flatMap (fun i =>
        [declarationTokens (varName i), declarationTokens (negName i)]) ++
      (indices order dimacs.variables').map complementTokens ++
      dimacs.clausesDto.map (fun c => clauseTokens dimacs.variables' c.values) ++ [solveTokens],
      ¬ s.head? = some (.keyword .output) := by
    intro s hs
    simp only [List.mem_append, List.mem_flatMap, List.mem_map, List.mem_cons, List.not_mem_nil,
      or_false] at hs
    rcases hs with ((⟨i, -, rfl | rfl⟩ | ⟨i, -, rfl⟩) | ⟨c, hc, rfl⟩) | rfl
    · simp [declarationTokens]
    · simp [declarationTokens]
    · simp [complementTokens]
    · exact fun hhead => keyword_notMem_clauseTokens (h c hc) (List.mem_of_mem_head? hhead)
    · simp [solveTokens]
  have hsplit : statementsOf order dimacs = (indices order dimacs.variables').flatMap (fun i =>
        [declarationTokens (varName i), declarationTokens (negName i)]) ++
      (indices order dimacs.variables').map complementTokens ++
      dimacs.clausesDto.map (fun c => clauseTokens dimacs.variables' c.values) ++ [solveTokens] ++
      [outputTokens (indices order dimacs.variables')] := by
    simp [statementsOf]
  have hhead : ∀ is, (outputTokens is).head? = some (.keyword .output) := by
    intro is
    cases is <;> rfl
  rw [shownNames, hsplit, List.filter_append, List.filter_eq_nil_iff.mpr fun s hs => by
    simpa using hbefore s hs]
  rw [List.filter_cons_of_pos (by simp [hhead]), List.filter_nil, List.nil_append,
    List.flatMap_singleton, usedBy_outputTokens, declared_modelItems]

theorem complementTokens_injective : Function.Injective complementTokens := by
  intro i j h
  injection h with _ h
  injection h with h
  injection h with h
  exact varName_injective h

/-- Each variable of the problem has one complement constraint. -/
theorem count_complementTokens {order : Order} {dimacs : DimacsDto} {i : Nat}
    (hi : i ∈ indices order dimacs.variables') :
    (statementsOf order dimacs).count (complementTokens i) = 1 := by
  have hdeclarations : complementTokens i ∉ (indices order dimacs.variables').flatMap fun i =>
      [declarationTokens (varName i), declarationTokens (negName i)] := by
    simp [declarationTokens, complementTokens]
  have hclauses : complementTokens i ∉
      dimacs.clausesDto.map fun c => clauseTokens dimacs.variables' c.values := by
    intro hmem
    obtain ⟨c, -, hc⟩ := List.mem_map.mp hmem
    have hge : Token.ge ∈ complementTokens i := by
      rw [← hc]
      simp [clauseTokens]
    simp [complementTokens] at hge
  have hsolve : solveTokens ≠ complementTokens i := by
    simp [solveTokens, complementTokens]
  have houtput : outputTokens (indices order dimacs.variables') ≠ complementTokens i := by
    cases indices order dimacs.variables' <;> simp [outputTokens, complementTokens]
  rw [statementsOf, List.count_append, List.count_append, List.count_append,
    List.count_eq_zero.mpr hdeclarations, List.count_eq_zero.mpr hclauses,
    List.count_map_of_injective _ _ complementTokens_injective,
    List.count_eq_one_of_mem (indices_nodup order dimacs.variables') hi,
    List.count_cons_of_ne hsolve, List.count_cons_of_ne houtput, List.count_nil]

theorem clauseTokens_mem_statementsOf (order : Order) {dimacs : DimacsDto} {c : ClausesDto}
    (h : c ∈ dimacs.clausesDto) :
    clauseTokens dimacs.variables' c.values ∈ statementsOf order dimacs := by
  simp only [statementsOf, List.mem_append, List.mem_map]
  exact .inl (.inr ⟨c, h, rfl⟩)

/-- A text that names no variable beyond the problem is closed just when
every clause keeps its names. -/
theorem closed_statementsOf_iff (order : Order) {dimacs : DimacsDto} (h : Fits dimacs)
    (hrange : ∀ c ∈ dimacs.clausesDto, LiteralsInRange dimacs.variables' c.values) :
    Closed (statementsOf order dimacs) ↔
      ∀ c ∈ dimacs.clausesDto, KeepsNames dimacs.variables' c.values := by
  have hnodup := declared_modelItems_nodup order dimacs
  constructor
  · intro hclosed c hc
    refine (clause_names_iff order (h c hc) (hrange c hc)).mp fun x hx => ?_
    have hcount := hclosed.declared _ (clauseTokens_mem_statementsOf order hc) x hx
    rw [declaredNames_statementsOf] at hcount
    exact List.count_pos_iff.mp (by omega)
  · intro hkeeps
    constructor
    · intro s hs x hx
      rw [declaredNames_statementsOf]
      refine List.count_eq_one_of_mem hnodup ?_
      simp only [statementsOf, List.mem_append, List.mem_flatMap, List.mem_map, List.mem_cons,
        List.not_mem_nil, or_false] at hs
      rcases hs with ((⟨i, -, rfl | rfl⟩ | ⟨i, hi, rfl⟩) | ⟨c, hc, rfl⟩) | rfl | rfl
      · cases hx
      · cases hx
      · have hx : x ∈ [varName i, negName i] := hx
        simp only [List.mem_cons, List.not_mem_nil, or_false] at hx
        rcases hx with rfl | rfl
        · exact varName_mem_declared.mpr hi
        · exact negName_mem_declared.mpr hi
      · exact (clause_names_iff order (h c hc) (hrange c hc)).mpr (hkeeps c hc) x hx
      · cases hx
      · rw [declared_modelItems]
        rwa [usedBy_outputTokens] at hx
    · intro i
      rw [declaredNames_statementsOf, varName_mem_declared, negName_mem_declared]
    · intro i hi
      rw [declaredNames_statementsOf, varName_mem_declared] at hi
      exact count_complementTokens hi
    · intro i hi
      rw [declaredNames_statementsOf, varName_mem_declared] at hi
      rw [shownNames_statementsOf order h]
      exact ⟨List.count_eq_one_of_mem hnodup (varName_mem_declared.mpr hi),
        List.count_eq_one_of_mem hnodup (negName_mem_declared.mpr hi)⟩

/-! ## Closed or rejected -/

/-- Every text that the lines give is closed, and lines without a header or
with a literal beyond the variable count give none. -/
def ClosedOrRejected (order : Order) (lines : List Line) : Prop :=
  ∀ text, process order lines = .ok text →
    (∃ ss, textStatements text = some ss ∧ Closed ss) ∧ (headerLine lines).isSome ∧
      ∀ l ∈ clauseLines lines, LiteralsInRange (headerVariables lines) (clauseValues l)

/-- The lines give a text that is closed, or the reader or the writer throws. -/
theorem closed_or_rejected_iff (order : Order) (lines : List Line) :
    ClosedOrRejected order lines ↔
      (∃ l ∈ lines, ¬ Readable l) ∨
      (∃ l ∈ clauseLines lines, 10 < overhang (headerVariables lines) (clauseValues l)) ∨
      ((headerLine lines).isSome ∧ ∀ l ∈ clauseLines lines,
        LiteralsInRange (headerVariables lines) (clauseValues l) ∧
        KeepsNames (headerVariables lines) (clauseValues l)) := by
  apply forall_process_iff
  intro hfits
  have hstatements := textStatements_modelText order hfits (plainComments_dtoOf lines)
  have hclosed := closed_statementsOf_iff order hfits
  rw [forall_clausesDto_iff (P := LiteralsInRange _),
    forall_clausesDto_iff (P := KeepsNames _)] at hclosed
  constructor
  · rintro ⟨⟨ss, hss, hc⟩, hheader, hrange⟩
    rw [hstatements, Option.some.injEq] at hss
    rw [← hss, hclosed hrange] at hc
    exact ⟨hheader, fun l hl => ⟨hrange l hl, hc l hl⟩⟩
  · rintro ⟨hheader, hlines⟩
    have hrange := fun l hl => (hlines l hl).1
    exact ⟨⟨_, hstatements, (hclosed hrange).mpr fun l hl => (hlines l hl).2⟩, hheader, hrange⟩

/-- The least integer is its own `Math.abs`, and the map has no name for it. -/
theorem the_least_integer_is_written :
    ¬ ClosedOrRejected .insertion (read "p cnf 1 1\n-2147483648 0".toList) := by
  intro h
  obtain ⟨text, statements, hprocess, hstatements, hused, hdeclared⟩ : ∃ text ss,
      process .insertion (read "p cnf 1 1\n-2147483648 0".toList) = .ok text ∧
      textStatements text = some ss ∧ "n_null".toList ∈ ss.flatMap usedBy ∧
      (declaredNames ss).count "n_null".toList = 0 :=
    ⟨modelText .insertion ⟨[], none, 1, 1, [⟨[-2147483648, 0]⟩]⟩,
      statementsOf .insertion ⟨[], none, 1, 1, [⟨[-2147483648, 0]⟩]⟩,
      by decide +kernel, by decide +kernel, by decide +kernel, by decide +kernel⟩
  obtain ⟨⟨ss, hss, hclosed⟩, -⟩ := h text hprocess
  rw [hstatements, Option.some.injEq] at hss
  subst hss
  obtain ⟨s, hs, hx⟩ := List.mem_flatMap.mp hused
  have hone := hclosed.declared s hs _ hx
  omega

end reductor.transformer
