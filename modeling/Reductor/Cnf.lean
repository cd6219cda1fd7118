-- Formulas in conjunctive normal form, and their 0/1 programs: each literal
-- gets a number, the two literals of a variable add up to 1, and each clause
-- adds up to 1 or more.
import Mathlib.Algebra.Order.Ring.Nat
import Mathlib.Data.Set.Function
import Mathlib.Algebra.BigOperators.Group.List.Lemmas
import Mathlib.Algebra.Order.BigOperators.Group.List

namespace reductor.cnf

variable {V X : Type*}

/-! ## Formulas -/

structure Literal (V : Type*) where
  var : V
  positive : Bool
  deriving DecidableEq, Repr

abbrev Formula (V : Type*) := List (List (Literal V))

def Literal.holds (a : V → Bool) (l : Literal V) : Bool :=
  if l.positive then a l.var else !a l.var

/-- Every clause has a literal that holds. -/
def Satisfies (a : V → Bool) (f : Formula V) : Prop := ∀ c ∈ f, ∃ l ∈ c, l.holds a = true

def Satisfiable (f : Formula V) : Prop := ∃ a, Satisfies a f

/-! ## The 0/1 program of a formula -/

/-- The numbers of the literals solve the 0/1 program of the formula. -/
structure Solves (f : Formula V) (x : Literal V → Nat) : Prop where
  complement : ∀ v, x ⟨v, true⟩ + x ⟨v, false⟩ = 1
  clauses : ∀ c ∈ f, 1 ≤ (c.map x).sum

/-- The number of a literal under an assignment: 1 when it holds, else 0. -/
def numbers (a : V → Bool) (l : Literal V) : Nat := (l.holds a).toNat

theorem numbers_positive (a : V → Bool) (v : V) : numbers a ⟨v, true⟩ = (a v).toNat := rfl

theorem numbers_negative (a : V → Bool) (v : V) : numbers a ⟨v, false⟩ = 1 - (a v).toNat := by
  simp only [numbers, Literal.holds]
  cases a v <;> rfl

theorem one_le_numbers_iff (a : V → Bool) (l : Literal V) : 1 ≤ numbers a l ↔ l.holds a = true := by
  unfold numbers
  cases l.holds a <;> simp

/-- A sum of numbers is positive as soon as one of them is. -/
theorem one_le_sum_iff {α : Type*} (c : List α) (x : α → Nat) :
    1 ≤ (c.map x).sum ↔ ∃ l ∈ c, 1 ≤ x l := by
  induction c with
  | nil => simp
  | cons l c ih =>
    rw [List.map_cons, List.sum_cons, List.exists_mem_cons_iff, ← ih]
    omega

theorem solves_numbers_iff (f : Formula V) (a : V → Bool) :
    Solves f (numbers a) ↔ Satisfies a f := by
  constructor
  · intro h c hc
    obtain ⟨l, hl, hx⟩ := (one_le_sum_iff c _).mp (h.clauses c hc)
    exact ⟨l, hl, (one_le_numbers_iff a l).mp hx⟩
  · intro h
    refine ⟨?_, ?_⟩
    · intro v
      rw [numbers_positive, numbers_negative]
      cases a v <;> rfl
    · intro c hc
      obtain ⟨l, hl, hx⟩ := h c hc
      exact (one_le_sum_iff c _).mpr ⟨l, hl, (one_le_numbers_iff a l).mpr hx⟩

/-- A solution is the numbers of the assignment that it spells. -/
theorem Solves.eq_numbers {f : Formula V} {x : Literal V → Nat} (h : Solves f x) :
    x = numbers fun v => decide (x ⟨v, true⟩ = 1) := by
  funext ⟨v, b⟩
  have hv := h.complement v
  cases b with
  | true =>
    rw [numbers_positive]
    by_cases h1 : x ⟨v, true⟩ = 1
    · simp [h1]
    · simp only [h1, decide_false, Bool.toNat_false]
      omega
  | false =>
    rw [numbers_negative]
    by_cases h1 : x ⟨v, true⟩ = 1
    · simp only [h1, decide_true, Bool.toNat_true]
      omega
    · simp only [h1, decide_false, Bool.toNat_false]
      omega

theorem numbers_injective : Function.Injective (numbers : (V → Bool) → Literal V → Nat) := by
  intro a b h
  funext v
  have hv := congrFun h ⟨v, true⟩
  rw [numbers_positive, numbers_positive] at hv
  cases ha : a v <;> cases hb : b v <;> simp_all

/-- The satisfying assignments of a formula are the solutions of its 0/1 program. -/
theorem bijOn_numbers (f : Formula V) :
    Set.BijOn numbers {a | Satisfies a f} {x | Solves f x} := by
  refine ⟨fun a ha => (solves_numbers_iff f a).mpr ha, numbers_injective.injOn, ?_⟩
  intro x hx
  refine ⟨_, ?_, (Solves.eq_numbers hx).symm⟩
  show Satisfies _ f
  rw [← solves_numbers_iff, ← Solves.eq_numbers hx]
  exact hx

/-! ## Programs over names -/

/-- The numbers of the literals, given to their names; no other name has a value. -/
noncomputable def valuation (name : Literal V → X) (x : Literal V → Nat) : X → Option Nat :=
  Function.extend name (fun l => some (x l)) fun _ => none

variable {name : Literal V → X}

theorem valuation_name (h : Function.Injective name) (x : Literal V → Nat) (l : Literal V) :
    valuation name x (name l) = some (x l) := h.extend_apply _ _ l

theorem valuation_isSome_iff (h : Function.Injective name) (x : Literal V → Nat) (t : X) :
    (valuation name x t).isSome ↔ t ∈ Set.range name := by
  by_cases ht : t ∈ Set.range name
  · obtain ⟨l, rfl⟩ := ht
    simp [valuation_name h]
  · have hnone : valuation name x t = none := Function.extend_apply' _ _ t fun hl => ht hl
    simp [hnone, ht]

/-- The valuations of exactly the names, with a property of the numbers that
they give to the literals, are those that come from such numbers. -/
theorem bijOn_valuation (h : Function.Injective name) (P : (Literal V → Nat) → Prop) :
    Set.BijOn (valuation name) {x | P x}
      {σ | (∀ t, (σ t).isSome ↔ t ∈ Set.range name) ∧ P fun l => (σ (name l)).getD 0} := by
  refine ⟨?_, ?_, ?_⟩
  · intro x hx
    refine ⟨valuation_isSome_iff h x, ?_⟩
    simpa only [valuation_name h, Option.getD_some] using (show P x from hx)
  · intro x _ y _ hxy
    funext l
    have hl := congrFun hxy (name l)
    rwa [valuation_name h, valuation_name h, Option.some.injEq] at hl
  · rintro σ ⟨hdom, hP⟩
    refine ⟨_, hP, ?_⟩
    funext t
    by_cases ht : t ∈ Set.range name
    · obtain ⟨l, rfl⟩ := ht
      obtain ⟨v, hv⟩ := Option.isSome_iff_exists.mp ((hdom (name l)).mpr ⟨l, rfl⟩)
      rw [valuation_name h, hv, Option.getD_some]
    · have hnone : σ t = none := by
        rw [← Option.not_isSome_iff_eq_none, hdom]
        exact ht
      rw [hnone]
      exact Function.extend_apply' _ _ t fun hl => ht hl

end reductor.cnf
