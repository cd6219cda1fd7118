-- The items of an emitted text: when the text parses, what it declares, and
-- what its solutions are.
import Reductor.ClauseShape
import Reductor.Statements
import Reductor.Cnf

open reductor.java reductor.dimacs reductor.minizinc reductor.cnf

namespace reductor.transformer

/-! ## The items -/

def declarationItems (i : Nat) : List Item := [.var 0 1 (varName i), .var 0 1 (negName i)]

def complementItem (i : Nat) : Item := .constraint ⟨[varName i, negName i], .eq, 1⟩

def entryElements (i : Nat) : List OutputElement :=
  [.text (label i), .value (varName i), .text (negLabel i), .value (negName i)]

/-- The constraint of a clause line that leaves one. -/
def clauseConstraint (count : Int32) (vs : List Int32) : Constraint :=
  ⟨(sumNames count (left count vs)).getD [], .ge, 1⟩

/-- The items of the text, as long as it parses. -/
def modelItems (order : Order) (dimacs : DimacsDto) : List Item :=
  (indices order dimacs.variables').flatMap declarationItems ++
  (indices order dimacs.variables').map complementItem ++
  dimacs.clausesDto.map (fun c => .constraint (clauseConstraint dimacs.variables' c.values)) ++
  [.solve, .output ((indices order dimacs.variables').flatMap entryElements)]

/-! ## Parsing the statements -/

theorem mapM_append_eq_some {α β : Type} {f : α → Option β} {xs ys : List α} {us vs : List β}
    (hx : xs.mapM f = some us) (hy : ys.mapM f = some vs) :
    (xs ++ ys).mapM f = some (us ++ vs) := by
  rw [List.mapM_append, hx, hy]
  rfl

theorem mapM_map_eq_some {α β γ : Type} {f : β → Option γ} {g : α → β} {h : α → γ} {l : List α}
    (hf : ∀ x ∈ l, f (g x) = some (h x)) : (l.map g).mapM f = some (l.map h) := by
  induction l with
  | nil => rfl
  | cons x l ih =>
    rw [List.map_cons, List.mapM_cons, hf x List.mem_cons_self,
      ih fun y hy => hf y (List.mem_cons_of_mem x hy)]
    rfl

theorem isSome_of_mapM {α β : Type} {f : α → Option β} {l : List α} {zs : List β}
    (h : l.mapM f = some zs) : ∀ x ∈ l, (f x).isSome := by
  induction l generalizing zs with
  | nil => simp
  | cons x l ih =>
    rw [List.mapM_cons] at h
    obtain ⟨y, hy, h⟩ := Option.bind_eq_some_iff.mp h
    obtain ⟨ys, hys, -⟩ := Option.bind_eq_some_iff.mp h
    intro z hz
    rcases List.mem_cons.mp hz with rfl | hz
    · rw [hy]
      rfl
    · exact ih hys z hz

/-- Entries, each after its comma, and the bracket. -/
theorem parseElements_entries (is : List Nat) :
    ∀ i, parseElements (entryTokens i ++ (is.flatMap fun j => .comma :: entryTokens j) ++
      [.rbrack]) = some ((i :: is).flatMap entryElements) := by
  induction is with
  | nil => exact fun _ => rfl
  | cons j is ih =>
    intro i
    have hrest := ih j
    rw [List.flatMap_cons, List.append_assoc] at hrest
    rw [List.flatMap_cons, List.flatMap_cons, List.cons_append, List.append_assoc, List.cons_append,
      List.append_assoc]
    show ((((parseElements (entryTokens j ++ _)).map _).map _).map _).map _ = _
    rw [hrest]
    rfl

theorem parseItem_outputTokens (i : Nat) (is : List Nat) :
    parseItem (outputTokens (i :: is)) = some (.output ((i :: is).flatMap entryElements)) := by
  show (parseElements (entryTokens i ++ (is.flatMap fun j => .comma :: entryTokens j) ++
    [.rbrack])).map _ = _
  rw [parseElements_entries]
  rfl

theorem sumNames_ne_nil {count : Int32} {ps : List (Int32 × Nat)} {xs : List Text}
    (h : sumNames count ps = some xs) : xs ≠ [] := by
  induction ps generalizing xs with
  | nil => cases h
  | cons p ps ih =>
    rw [sumNames] at h
    split at h
    · exact ih h
    · split at h
      · split at h
        · cases h
          simp
        · cases h
      · obtain ⟨ys, -, rfl⟩ := Option.map_eq_some_iff.mp h
        simp

theorem parseItem_clauseConstraint {count : Int32} {vs : List Int32}
    (h : LeavesConstraint count vs) :
    parseItem (clauseTokens count vs) = some (.constraint (clauseConstraint count vs)) := by
  obtain ⟨xs, hxs⟩ := Option.isSome_iff_exists.mp ((sumNames_isSome_iff count _).mpr h.2)
  rw [parseItem_clauseTokens h.1, clauseConstraint, hxs]
  rfl

theorem clauseConstraint_terms_ne_nil {count : Int32} {vs : List Int32}
    (h : LeavesConstraint count vs) : (clauseConstraint count vs).terms ≠ [] := by
  obtain ⟨xs, hxs⟩ := Option.isSome_iff_exists.mp ((sumNames_isSome_iff count _).mpr h.2)
  rw [clauseConstraint, hxs]
  exact sumNames_ne_nil hxs

theorem mapM_declarations (is : List Nat) :
    (is.flatMap fun i => [declarationTokens (varName i), declarationTokens (negName i)]).mapM
      parseItem = some (is.flatMap declarationItems) := by
  induction is with
  | nil => rfl
  | cons i is ih =>
    rw [List.flatMap_cons, List.flatMap_cons]
    exact mapM_append_eq_some rfl ih

/-- With a variable, and with clause lines that all leave clause constraints, the text parses. -/
theorem parse_modelText_ok (order : Order) {dimacs : DimacsDto} (hc : PlainComments dimacs)
    (hpos : 0 < dimacs.variables'.toInt)
    (hclauses : ∀ c ∈ dimacs.clausesDto, LeavesConstraint dimacs.variables' c.values) :
    parse (modelText order dimacs) = some (modelItems order dimacs) := by
  have hfits : Fits dimacs := fun c hcm => by
    rw [(hclauses c hcm).1]
    omega
  have hdeclarations := mapM_declarations (indices order dimacs.variables')
  have hcomplements := mapM_map_eq_some (f := parseItem) (g := complementTokens)
    (h := complementItem) (l := indices order dimacs.variables') fun i _ => rfl
  have hconstraints := mapM_map_eq_some (f := parseItem) (l := dimacs.clausesDto)
    fun c hcm => parseItem_clauseConstraint (hclauses c hcm)
  have hlast : [solveTokens, outputTokens (indices order dimacs.variables')].mapM parseItem =
      some [.solve, .output ((indices order dimacs.variables').flatMap entryElements)] := by
    cases hi : indices order dimacs.variables' with
    | nil => exact absurd (indices_eq_nil_iff.mp hi) (by omega)
    | cons i is =>
      rw [List.mapM_cons, List.mapM_cons, parseItem_outputTokens]
      rfl
  rw [parse_modelText order hfits hc, statementsOf]
  exact mapM_append_eq_some (mapM_append_eq_some
    (mapM_append_eq_some hdeclarations hcomplements) hconstraints) hlast

/-- An emitted text parses just when there is a variable and every clause
line leaves a clause constraint. -/
theorem parse_modelText_eq_some_iff (order : Order) {dimacs : DimacsDto} (h : Fits dimacs)
    (hc : PlainComments dimacs) (items : List Item) :
    parse (modelText order dimacs) = some items ↔
      0 < dimacs.variables'.toInt ∧
      (∀ c ∈ dimacs.clausesDto, LeavesConstraint dimacs.variables' c.values) ∧
      items = modelItems order dimacs := by
  constructor
  · intro hparse
    have hsome := hparse
    rw [parse_modelText order h hc] at hsome
    have hsome := isSome_of_mapM hsome
    simp only [statementsOf, List.mem_append, List.mem_map, List.mem_cons] at hsome
    have hclauses : ∀ c ∈ dimacs.clausesDto, LeavesConstraint dimacs.variables' c.values :=
      fun c hcm => (parseItem_clauseTokens_isSome_iff (h c hcm)).mp
        (hsome _ (.inl (.inr ⟨c, hcm, rfl⟩)))
    have houtput := hsome _ (.inr (.inr (.inl rfl)))
    have hpos : 0 < dimacs.variables'.toInt := by
      by_contra hle
      rw [indices_eq_nil_iff.mpr (by omega)] at houtput
      cases houtput
    rw [parse_modelText_ok order hc hpos hclauses, Option.some.injEq] at hparse
    exact ⟨hpos, hclauses, hparse.symm⟩
  · rintro ⟨hpos, hclauses, rfl⟩
    exact parse_modelText_ok order hc hpos hclauses

/-! ## What the items declare -/

theorem toDigits_injective {i j : Nat} (h : Nat.toDigits 10 i = Nat.toDigits 10 j) : i = j := by
  have := congrArg (fun digits => Nat.ofDigitChars 10 digits 0) h
  simpa only [Nat.ofDigitChars_ten_toDigits] using this

theorem varName_injective {i j : Nat} (h : varName i = varName j) : i = j :=
  toDigits_injective (List.append_cancel_left h)

theorem negName_injective {i j : Nat} (h : negName i = negName j) : i = j :=
  varName_injective (List.append_cancel_left h)

theorem varName_ne_negName (i j : Nat) : varName i ≠ negName j := by
  intro h
  exact absurd (List.cons.inj (show 'V' :: _ = 'n' :: _ from h)).1 (by decide)

theorem declared_modelItems (order : Order) (dimacs : DimacsDto) :
    declared (modelItems order dimacs) =
      (indices order dimacs.variables').flatMap fun i => [varName i, negName i] := by
  have hdeclarations : ∀ is : List Nat, (is.flatMap declarationItems).filterMap Item.declares =
      is.flatMap fun i => [varName i, negName i] := by
    intro is
    induction is with
    | nil => rfl
    | cons i is ih =>
      rw [List.flatMap_cons, List.filterMap_append, ih]
      rfl
  have hnone : ∀ (α : Type) (l : List α) (f : α → Constraint),
      (l.map fun x => Item.constraint (f x)).filterMap Item.declares = [] := by
    intro α l f
    rw [List.filterMap_map, List.filterMap_eq_nil_iff]
    exact fun _ _ => rfl
  unfold declared modelItems
  rw [List.filterMap_append, List.filterMap_append, List.filterMap_append, hdeclarations, hnone]
  rw [show complementItem = fun i => Item.constraint ⟨[varName i, negName i], .eq, 1⟩ from rfl,
    hnone]
  simp [Item.declares]

theorem mem_declared_modelItems {order : Order} {dimacs : DimacsDto} {x : Text} :
    x ∈ declared (modelItems order dimacs) ↔
      ∃ i : Nat, (1 ≤ i ∧ (i : Int) ≤ dimacs.variables'.toInt) ∧
        (x = varName i ∨ x = negName i) := by
  rw [declared_modelItems, List.mem_flatMap]
  simp only [mem_indices, List.mem_cons, List.not_mem_nil, or_false]

theorem declared_modelItems_nodup (order : Order) (dimacs : DimacsDto) :
    (declared (modelItems order dimacs)).Nodup := by
  rw [declared_modelItems, List.nodup_flatMap]
  refine ⟨?_, ?_⟩
  · intro i _
    simp [varName_ne_negName]
  · refine (indices_nodup order dimacs.variables').imp ?_
    intro i j hij x hi hj
    simp only [List.mem_cons, List.not_mem_nil, or_false] at hi hj
    rcases hi with rfl | rfl <;> rcases hj with h | h
    · exact hij (varName_injective h)
    · exact varName_ne_negName i j h
    · exact varName_ne_negName j i h.symm
    · exact hij (negName_injective h)

/-- The name of a literal in range is one of the two of its variable. -/
theorem literalName_of_inRange {count v : Int32} (h : InRange count v) :
    literalName count v = if v < 0 then negName v.toInt.natAbs else varName v.toInt.natAbs := by
  unfold literalName
  rw [if_pos h]
  split
  · rfl
  · rfl

/-- Every clause is one or more literals in range and then one 0. -/
def Terminated (count : Int32) (c : ClausesDto) : Prop :=
  ∃ ls, c.values = ls ++ [0] ∧ ls ≠ [] ∧ ∀ v ∈ ls, InRange count v

theorem Terminated.leavesConstraint {count : Int32} {c : ClausesDto} (h : Terminated count c) :
    LeavesConstraint count c.values := by
  obtain ⟨ls, hls, hne, hrange⟩ := h
  obtain ⟨hover, hsum⟩ := left_terminated count (fun h0 => (hrange 0 h0).1 rfl) hne
  rw [hls]
  refine ⟨hover, ?_⟩
  rw [← sumNames_isSome_iff, hsum]
  rfl

theorem fits_of_terminated {dimacs : DimacsDto}
    (h : ∀ c ∈ dimacs.clausesDto, Terminated dimacs.variables' c) : Fits dimacs := by
  intro c hc
  rw [(h c hc).leavesConstraint.1]
  exact Nat.zero_le 10

theorem clauseConstraint_terminated {count : Int32} {ls : List Int32} (hne : ls ≠ [])
    (hrange : ∀ v ∈ ls, InRange count v) :
    clauseConstraint count (ls ++ [0]) = ⟨ls.map (literalName count), .ge, 1⟩ := by
  obtain ⟨-, hsum⟩ := left_terminated count (fun h0 => (hrange 0 h0).1 rfl) hne
  rw [clauseConstraint, hsum]
  rfl

theorem literalName_mem_declared (order : Order) {dimacs : DimacsDto} {v : Int32}
    (h : InRange dimacs.variables' v) :
    literalName dimacs.variables' v ∈ declared (modelItems order dimacs) := by
  have hne := mt toInt_eq_zero_iff.mp h.1
  rw [mem_declared_modelItems]
  refine ⟨v.toInt.natAbs, ⟨by omega, h.2⟩, ?_⟩
  rw [literalName_of_inRange h]
  split
  · exact .inr rfl
  · exact .inl rfl

theorem uses_output (is : List Nat) :
    (Item.output (is.flatMap entryElements)).uses = is.flatMap fun i => [varName i, negName i] := by
  induction is with
  | nil => rfl
  | cons i is ih =>
    simp only [Item.uses] at ih ⊢
    rw [List.flatMap_cons, List.filterMap_append, ih, List.flatMap_cons]
    rfl

/-- The items are a well-formed model when the clauses are as DIMACS writes them. -/
theorem wellFormed_modelItems (order : Order) {dimacs : DimacsDto}
    (h : ∀ c ∈ dimacs.clausesDto, Terminated dimacs.variables' c) :
    WellFormed (modelItems order dimacs) where
  declared_once := declared_modelItems_nodup order dimacs
  closed := by
    intro item hitem x hx
    simp only [modelItems, List.mem_append, List.mem_flatMap, List.mem_map, List.mem_cons,
      List.not_mem_nil, or_false] at hitem
    rcases hitem with ((⟨i, -, hi⟩ | ⟨i, hi, rfl⟩) | ⟨c, hc, rfl⟩) | rfl | rfl
    · simp only [declarationItems, List.mem_cons, List.not_mem_nil, or_false] at hi
      rcases hi with rfl | rfl <;> cases hx
    · rw [mem_declared_modelItems]
      refine ⟨i, mem_indices.mp hi, ?_⟩
      simpa [complementItem, Item.uses] using hx
    · obtain ⟨ls, hls, hne, hrange⟩ := h c hc
      rw [Item.uses, hls, clauseConstraint_terminated hne hrange] at hx
      obtain ⟨v, hv, rfl⟩ := List.mem_map.mp hx
      exact literalName_mem_declared order (hrange v hv)
    · cases hx
    · rwa [uses_output, ← declared_modelItems order dimacs] at hx
  one_solve := by
    unfold modelItems
    rw [List.count_append, List.count_append, List.count_append, List.count_eq_zero.mpr,
      List.count_eq_zero.mpr, List.count_eq_zero.mpr]
    · simp
    · simp
    · simp [complementItem]
    · simp [declarationItems]
  one_output := by
    unfold modelItems
    rw [List.countP_append, List.countP_append, List.countP_append, List.countP_eq_zero.mpr,
      List.countP_eq_zero.mpr, List.countP_eq_zero.mpr]
    · simp [Item.isOutput]
    · simp [Item.isOutput]
    · simp [complementItem, Item.isOutput]
    · intro item hitem
      obtain ⟨i, -, hi⟩ := List.mem_flatMap.mp hitem
      simp only [declarationItems, List.mem_cons, List.not_mem_nil, or_false] at hi
      rcases hi with rfl | rfl <;> exact Bool.false_ne_true

/-! ## What the items mean -/

/-- The variable of a literal in range, counted from 0. -/
def literalVar (count v : Int32) (h : InRange count v) : Fin count.toInt.toNat :=
  ⟨v.toInt.natAbs - 1, by
    have := mt toInt_eq_zero_iff.mp h.1
    have := h.2
    omega⟩

/-- The literal that a value stands for, when it is in range. -/
def literal? (count v : Int32) : Option (Literal (Fin count.toInt.toNat)) :=
  if h : InRange count v then some ⟨literalVar count v h, decide (0 < v)⟩ else none

/-- The formula of value lists. -/
def formula (count : Int32) (clauses : List (List Int32)) : Formula (Fin count.toInt.toNat) :=
  clauses.map (·.filterMap (literal? count))

/-- The identifier of a literal. -/
def literalIdent {n : Nat} (l : Literal (Fin n)) : Text :=
  if l.positive then varName (l.var + 1) else negName (l.var + 1)

theorem literalIdent_injective {n : Nat} :
    Function.Injective (literalIdent : Literal (Fin n) → Text) := by
  rintro ⟨v, b⟩ ⟨w, d⟩ h
  cases b <;> cases d
  · have := negName_injective (show negName (v + 1) = negName (w + 1) from h)
    congr 1
    omega
  · exact absurd h.symm (varName_ne_negName _ _)
  · exact absurd h (varName_ne_negName _ _)
  · have := varName_injective (show varName (v + 1) = varName (w + 1) from h)
    congr 1
    omega

theorem literalIdent_of_literal? {count v : Int32} {l : Literal (Fin count.toInt.toNat)}
    (h : literal? count v = some l) : literalIdent l = literalName count v := by
  unfold literal? at h
  split at h
  · rename_i hr
    cases h
    have hz := mt toInt_eq_zero_iff.mp hr.1
    have hnat : v.toInt.natAbs - 1 + 1 = v.toInt.natAbs := by omega
    rw [literalName_of_inRange hr, literalIdent]
    simp only [literalVar, hnat, decide_eq_true_eq, int32_zero_lt_iff, int32_lt_zero_iff]
    split
    · rw [if_neg (by omega)]
    · rw [if_pos (by omega)]
  · cases h

/-- Every clause names the identifiers of its literals. -/
theorem map_literalName {count : Int32} {ls : List Int32} (h : ∀ v ∈ ls, InRange count v) :
    ls.map (literalName count) = (ls.filterMap (literal? count)).map literalIdent := by
  induction ls with
  | nil => rfl
  | cons v ls ih =>
    have hv := h v List.mem_cons_self
    obtain ⟨l, hl⟩ : ∃ l, literal? count v = some l := ⟨_, dif_pos hv⟩
    rw [List.map_cons, List.filterMap_cons, hl, List.map_cons, literalIdent_of_literal? hl,
      ih fun w hw => h w (List.mem_cons_of_mem v hw)]

/-- The identifiers of the literals are those that the model declares. -/
theorem mem_range_literalIdent {order : Order} {dimacs : DimacsDto} {x : Text} :
    x ∈ Set.range (literalIdent : Literal (Fin dimacs.variables'.toInt.toNat) → Text) ↔
      x ∈ declared (modelItems order dimacs) := by
  rw [mem_declared_modelItems]
  constructor
  · rintro ⟨⟨v, b⟩, rfl⟩
    refine ⟨v + 1, by omega, ?_⟩
    cases b
    · exact .inr rfl
    · exact .inl rfl
  · rintro ⟨i, hi, hx⟩
    have hnat : i - 1 + 1 = i := by omega
    rcases hx with rfl | rfl
    · exact ⟨⟨⟨i - 1, by omega⟩, true⟩, by simp [literalIdent, hnat]⟩
    · exact ⟨⟨⟨i - 1, by omega⟩, false⟩, by simp [literalIdent, hnat]⟩

/-- The value lists of the clauses, as the formula reads them. -/
def valueLists (dimacs : DimacsDto) : List (List Int32) := dimacs.clausesDto.map ClausesDto.values

theorem literal?_zero (count : Int32) : literal? count 0 = none := dif_neg fun h => h.1 rfl

/-! ## The constraints of the items, and their solutions -/

theorem constraint_mem_modelItems {order : Order} {dimacs : DimacsDto} {c : Constraint} :
    Item.constraint c ∈ modelItems order dimacs ↔
      (∃ i ∈ indices order dimacs.variables', c = ⟨[varName i, negName i], .eq, 1⟩) ∨
      ∃ d ∈ dimacs.clausesDto, c = clauseConstraint dimacs.variables' d.values := by
  simp [modelItems, declarationItems, complementItem, eq_comm]

theorem var_mem_modelItems {order : Order} {dimacs : DimacsDto} {lo hi : Nat} {x : Text} :
    Item.var lo hi x ∈ modelItems order dimacs ↔
      lo = 0 ∧ hi = 1 ∧ ∃ i ∈ indices order dimacs.variables', x = varName i ∨ x = negName i := by
  simp only [modelItems, declarationItems, complementItem, List.mem_append, List.mem_flatMap,
    List.mem_map, List.mem_cons, List.not_mem_nil, or_false, Item.var.injEq, reduceCtorEq,
    and_false, exists_false]
  constructor
  · rintro ⟨i, hi, ⟨rfl, rfl, rfl⟩ | ⟨rfl, rfl, rfl⟩⟩
    · exact ⟨rfl, rfl, i, hi, .inl rfl⟩
    · exact ⟨rfl, rfl, i, hi, .inr rfl⟩
  · rintro ⟨rfl, rfl, i, hi, rfl | rfl⟩
    · exact ⟨i, hi, .inl ⟨rfl, rfl, rfl⟩⟩
    · exact ⟨i, hi, .inr ⟨rfl, rfl, rfl⟩⟩

theorem holds_complement_iff {σ : Valuation} {i : Nat} :
    Constraint.Holds ⟨[varName i, negName i], .eq, 1⟩ σ ↔
      (σ (varName i)).getD 0 + (σ (negName i)).getD 0 = 1 := by
  simp [Constraint.Holds, Constraint.sum]

theorem holds_clauseConstraint_iff {count : Int32} {c : ClausesDto} {σ : Valuation}
    (h : Terminated count c) :
    (clauseConstraint count c.values).Holds σ ↔
      1 ≤ ((c.values.filterMap (literal? count)).map fun l => (σ (literalIdent l)).getD 0).sum := by
  obtain ⟨ls, hls, hne, hrange⟩ := h
  rw [hls, clauseConstraint_terminated hne hrange, List.filterMap_append]
  simp only [Constraint.Holds, Constraint.sum, map_literalName hrange, List.map_map,
    List.filterMap_cons, literal?_zero, List.filterMap_nil, List.append_nil]
  rfl

/-- The pairs of the program are the pairs of the items. -/
theorem complement_iff {count : Int32} {σ : Valuation} :
    (∀ v : Fin count.toInt.toNat,
      (σ (literalIdent ⟨v, true⟩)).getD 0 + (σ (literalIdent ⟨v, false⟩)).getD 0 = 1) ↔
    ∀ i : Nat, 1 ≤ i ∧ (i : Int) ≤ count.toInt →
      (σ (varName i)).getD 0 + (σ (negName i)).getD 0 = 1 := by
  constructor
  · intro h i hi
    have hnat : i - 1 + 1 = i := by omega
    simpa [literalIdent, hnat] using h ⟨i - 1, by omega⟩
  · intro h v
    exact h (v + 1) (by omega)

/-- The solutions of the items give exactly the identifiers of the literals
values, and these solve the 0/1 program of the formula. -/
theorem isSolution_modelItems_iff (order : Order) {dimacs : DimacsDto}
    (h : ∀ c ∈ dimacs.clausesDto, Terminated dimacs.variables' c) (σ : Valuation) :
    IsSolution (modelItems order dimacs) σ ↔
      (∀ t, (σ t).isSome ↔
        t ∈ Set.range (literalIdent : Literal (Fin dimacs.variables'.toInt.toNat) → Text)) ∧
      Solves (formula dimacs.variables' (valueLists dimacs))
        fun l => (σ (literalIdent l)).getD 0 := by
  constructor
  · intro hσ
    refine ⟨fun t => (hσ.assigned t).trans mem_range_literalIdent.symm, ?_, ?_⟩
    · refine complement_iff.mpr fun i hi => holds_complement_iff.mp (hσ.holds _ ?_)
      exact constraint_mem_modelItems.mpr (.inl ⟨i, mem_indices.mpr hi, rfl⟩)
    · intro c hc
      simp only [formula, valueLists, List.map_map, List.mem_map] at hc
      obtain ⟨c, hc, rfl⟩ := hc
      refine (holds_clauseConstraint_iff (h c hc)).mp (hσ.holds _ ?_)
      exact constraint_mem_modelItems.mpr (.inr ⟨c, hc, rfl⟩)
  · rintro ⟨hdom, hsolves⟩
    have hassigned : ∀ x, (σ x).isSome ↔ x ∈ declared (modelItems order dimacs) :=
      fun x => (hdom x).trans mem_range_literalIdent
    have hpair := complement_iff.mp hsolves.complement
    refine ⟨hassigned, ?_, ?_⟩
    · intro lo hi x hx
      obtain ⟨rfl, rfl, i, hi, hname⟩ := var_mem_modelItems.mp hx
      have hd : x ∈ declared (modelItems order dimacs) :=
        mem_declared_modelItems.mpr ⟨i, mem_indices.mp hi, hname⟩
      obtain ⟨v, hv⟩ := Option.isSome_iff_exists.mp ((hassigned x).mpr hd)
      have hp := hpair i (mem_indices.mp hi)
      refine ⟨v, hv, Nat.zero_le v, ?_⟩
      rcases hname with rfl | rfl
      · rw [hv, Option.getD_some] at hp
        omega
      · rw [hv, Option.getD_some] at hp
        omega
    · intro c hc
      rcases constraint_mem_modelItems.mp hc with ⟨i, hi, rfl⟩ | ⟨d, hd, rfl⟩
      · exact holds_complement_iff.mpr (hpair i (mem_indices.mp hi))
      · refine (holds_clauseConstraint_iff (h d hd)).mpr (hsolves.clauses _ ?_)
        simp only [formula, valueLists, List.map_map, List.mem_map]
        exact ⟨d, hd, rfl⟩

end reductor.transformer
