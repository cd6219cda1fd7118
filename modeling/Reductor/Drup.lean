-- Certificates, line by line. A clause that is added has to follow from those
-- there are by unit propagation, and a clause that is removed has to be there:
-- so whatever satisfies the clauses at the start satisfies those at the end.
-- The order of the literals of a clause does not count.
import Mathlib.Algebra.Order.Group.Multiset
import Mathlib.Tactic.Common

namespace reductor.drup

/-- A line of a certificate. -/
inductive Line (α : Type)
  | added (clause : List α)
  | removed (clause : List α)
  deriving DecidableEq, Repr

variable {α β : Type} {F G H : Multiset (Multiset α)} {c : Multiset α} {ls ls' : List (Line α)}

def Line.map (f : α → β) : Line α → Line β
  | .added clause => .added (clause.map f)
  | .removed clause => .removed (clause.map f)

section

variable [Neg α]

/-! ## Unit propagation -/

/-- The literals that unit propagation makes false once those of the clause are. -/
inductive Falsified (F : Multiset (Multiset α)) (c : Multiset α) : α → Prop
  | start {p : α} : p ∈ c → Falsified F c p
  | unit {d : Multiset α} {q : α} : d ∈ F → q ∈ d → (∀ p ∈ d, p ≠ q → Falsified F c p) →
      Falsified F c (-q)

/-- Unit propagation from the negated clause runs into a conflict. -/
def Rup (F : Multiset (Multiset α)) (c : Multiset α) : Prop := ∃ d ∈ F, ∀ p ∈ d, Falsified F c p

/-- Some literal of each clause holds. -/
def Satisfied (holds : α → Prop) (F : Multiset (Multiset α)) : Prop := ∀ c ∈ F, ∃ p ∈ c, holds p

theorem Falsified.mono (hle : F ≤ G) {q : α} (h : Falsified F c q) : Falsified G c q := by
  induction h with
  | start hp => exact .start hp
  | unit hd hq _ ih => exact .unit (Multiset.mem_of_le hle hd) hq ih

/-- What is false once some literals are that are false once those of the clause are. -/
theorem Falsified.trans {d : Multiset α} (hd : ∀ p ∈ d, Falsified F c p) {q : α}
    (h : Falsified F d q) : Falsified F c q := by
  induction h with
  | start hp => exact hd _ hp
  | unit he hq _ ih => exact .unit he hq ih

theorem Rup.mono (hle : F ≤ G) : Rup F c → Rup G c := by
  rintro ⟨d, hd, hfalse⟩
  exact ⟨d, Multiset.mem_of_le hle hd, fun p hp => (hfalse p hp).mono hle⟩

/-- A clause follows from one that has no other literals. -/
theorem rup_of_subset {d : Multiset α} (hd : d ∈ F) (h : d ⊆ c) : Rup F c :=
  ⟨d, hd, fun _ hp => .start (h hp)⟩

section

variable {holds : α → Prop} (hneg : ∀ p, holds (-p) → ¬ holds p)

include hneg

theorem Falsified.sound (hF : Satisfied holds F) (hc : ∀ p ∈ c, ¬ holds p) {q : α}
    (h : Falsified F c q) : ¬ holds q := by
  induction h with
  | start hp => exact hc _ hp
  | @unit d q hd hq _ ih =>
    intro hnot
    obtain ⟨p, hp, hholds⟩ := hF d hd
    by_cases he : p = q
    · exact hneg q hnot (he ▸ hholds)
    · exact ih p hp he hholds

theorem Rup.sound (h : Rup F c) (hF : Satisfied holds F) : ∃ p ∈ c, holds p := by
  obtain ⟨d, hd, hfalse⟩ := h
  by_contra hc
  push Not at hc
  obtain ⟨p, hp, hholds⟩ := hF d hd
  exact (hfalse p hp).sound hneg hF hc hholds

end

/-! ## What is left of a formula -/

/-- What is left of a formula: literals that follow by unit propagation, and
clauses without some of the literals that are false. A clause that is not
there any more is satisfied by one of the literals. -/
structure Residue (F : Multiset (Multiset α)) (units : α → Prop) (clauses : Multiset α → Prop) :
    Prop where
  follows : ∀ p, units p → Falsified F 0 (-p)
  shorter : ∀ c, clauses c → ∃ d ∈ F, c ⊆ d ∧ ∀ q ∈ d, q ∉ c → Falsified F 0 q
  covers : ∀ d ∈ F, (∃ p ∈ d, units p) ∨ ∃ c, clauses c ∧ c ⊆ d

section

variable {units units' : α → Prop} {clauses clauses' : Multiset α → Prop} {p q : α}

theorem Residue.step (h : Residue F units clauses) (hunits : ∀ p, units p → units' p)
    (hfollows : ∀ p, units' p → Falsified F 0 (-p))
    (hshorter : ∀ c', clauses' c' → ∃ c, clauses c ∧ c' ⊆ c ∧ ∀ q ∈ c, q ∉ c' → Falsified F 0 q)
    (hcovers : ∀ c, clauses c → (∃ p ∈ c, units' p) ∨ ∃ c', clauses' c' ∧ c' ⊆ c) :
    Residue F units' clauses' := by
  refine ⟨hfollows, ?_, ?_⟩
  · intro c' hc'
    obtain ⟨c, hc, hsubset, hfalse⟩ := hshorter c' hc'
    obtain ⟨d, hd, hsubset', hfalse'⟩ := h.shorter c hc
    refine ⟨d, hd, Multiset.Subset.trans hsubset hsubset', fun q hq hqc' => ?_⟩
    by_cases hqc : q ∈ c
    · exact hfalse q hqc hqc'
    · exact hfalse' q hq hqc
  · intro d hd
    rcases h.covers d hd with ⟨p, hp, hunit⟩ | ⟨c, hc, hsubset⟩
    · exact .inl ⟨p, hp, hunits p hunit⟩
    · rcases hcovers c hc with ⟨p, hp, hunit⟩ | ⟨c', hc', hsubset'⟩
      · exact .inl ⟨p, hsubset hp, hunit⟩
      · exact .inr ⟨c', hc', Multiset.Subset.trans hsubset' hsubset⟩

/-- More literals are found, and clauses go that they satisfy. -/
theorem Residue.leave (h : Residue F units clauses) (hunits : ∀ p, units p → units' p)
    (hfollows : ∀ p, units' p → Falsified F 0 (-p)) (hclauses : ∀ c, clauses' c → clauses c)
    (hcovers : ∀ c, clauses c → (∃ p ∈ c, units' p) ∨ clauses' c) : Residue F units' clauses' := by
  refine h.step hunits hfollows (fun c hc => ?_) fun c hc => ?_
  · exact ⟨c, hclauses c hc, fun _ hq => hq, fun q hq hno => absurd hq hno⟩
  · exact (hcovers c hc).imp_right fun hc => ⟨c, hc, fun _ hq => hq⟩

/-- The formula gets another clause, which is left as it is or as a literal. -/
theorem Residue.cons {d : Multiset α} (h : Residue F units clauses)
    (hunits : ∀ p, units p → units' p) (hclauses : ∀ c, clauses c → clauses' c)
    (hfollows : ∀ p, units' p → units p ∨ d = {p}) (hshorter : ∀ c, clauses' c → clauses c ∨ c = d)
    (hcovers : (∃ p ∈ d, units' p) ∨ clauses' d) : Residue (d ::ₘ F) units' clauses' := by
  have hle : F ≤ d ::ₘ F := Multiset.le_cons_self F d
  refine ⟨?_, ?_, ?_⟩
  · intro p hp
    rcases hfollows p hp with hp | rfl
    · exact (h.follows p hp).mono hle
    · refine .unit (Multiset.mem_cons_self _ _) (Multiset.mem_singleton_self p) fun q hq hne => ?_
      exact absurd (Multiset.mem_singleton.mp hq) hne
  · intro c hc
    rcases hshorter c hc with hc | rfl
    · obtain ⟨e, he, hsubset, hfalse⟩ := h.shorter c hc
      exact ⟨e, Multiset.mem_cons_of_mem he, hsubset, fun q hq hqc => (hfalse q hq hqc).mono hle⟩
    · exact ⟨c, Multiset.mem_cons_self _ _, fun _ hq => hq, fun q hq hqc => absurd hq hqc⟩
  · intro e he
    rcases Multiset.mem_cons.mp he with rfl | he
    · exact hcovers.imp_right fun hc => ⟨e, hc, fun _ hq => hq⟩
    · rcases h.covers e he with ⟨p, hp, hunit⟩ | ⟨c, hc, hsubset⟩
      · exact .inl ⟨p, hp, hunits p hunit⟩
      · exact .inr ⟨c, hclauses c hc, hsubset⟩

/-- What follows from the clauses that are left follows from the formula. -/
theorem Residue.falsified (h : Residue F units clauses) (hG : ∀ c ∈ G, clauses c)
    (hc : ∀ p ∈ c, Falsified F 0 p) (hq : Falsified G c q) : Falsified F 0 q := by
  induction hq with
  | start hp => exact hc _ hp
  | @unit d q hd hq _ ih =>
    obtain ⟨e, he, hsubset, hfalse⟩ := h.shorter d (hG d hd)
    refine .unit he (hsubset hq) fun p hp hne => ?_
    by_cases hpd : p ∈ d
    · exact ih p hpd hne
    · exact hfalse p hp hpd

theorem Residue.unit (h : Residue F units clauses) (hp : clauses {p}) : Falsified F 0 (-p) := by
  obtain ⟨d, hd, hsubset, hfalse⟩ := h.shorter _ hp
  refine .unit hd (hsubset (Multiset.mem_singleton_self p)) fun q hq hne => ?_
  exact hfalse q hq fun hmem => hne (Multiset.mem_singleton.mp hmem)

/-- A clause that is left is false at its own literals only: it follows. -/
theorem Residue.rup (h : Residue F units clauses) (hc : clauses c) : Rup F c := by
  obtain ⟨d, hd, -, hfalse⟩ := h.shorter c hc
  refine ⟨d, hd, fun q hq => ?_⟩
  by_cases hqc : q ∈ c
  · exact .start hqc
  · exact (hfalse q hq hqc).trans fun p hp => absurd hp (Multiset.notMem_zero p)

theorem Residue.refutes (h : Residue F units clauses) (hc : clauses c)
    (hfalse : ∀ p ∈ c, Falsified F 0 p) : Rup F 0 := by
  obtain ⟨d, hd, hall⟩ := h.rup hc
  exact ⟨d, hd, fun q hq => (hall q hq).trans hfalse⟩

theorem Residue.satisfied_iff {holds : α → Prop} (hneg : ∀ p, holds (-p) ↔ ¬ holds p)
    (h : Residue F units clauses) : Satisfied holds F ↔
      (∀ p, units p → holds p) ∧ ∀ c, clauses c → ∃ p ∈ c, holds p := by
  constructor
  · intro hF
    have hnot : ∀ q, Falsified F 0 q → ¬ holds q := fun q hq =>
      hq.sound (fun p => (hneg p).mp) hF fun p hp => absurd hp (Multiset.notMem_zero p)
    refine ⟨fun p hp => ?_, fun c hc => ?_⟩
    · by_contra hno
      exact hnot _ (h.follows p hp) ((hneg p).mpr hno)
    · obtain ⟨d, hd, -, hfalse⟩ := h.shorter c hc
      obtain ⟨p, hp, hholds⟩ := hF d hd
      by_contra hno
      exact hnot p (hfalse p hp fun hpc => hno ⟨p, hpc, hholds⟩) hholds
  · rintro ⟨hunits, hclauses⟩ d hd
    rcases h.covers d hd with ⟨p, hp, hunit⟩ | ⟨c, hc, hsubset⟩
    · exact ⟨p, hp, hunits p hunit⟩
    · obtain ⟨p, hp, hholds⟩ := hclauses c hc
      exact ⟨p, hsubset hp, hholds⟩

end

section

variable {units : α → Prop} {clauses : Multiset α → Prop} (h : Residue F units clauses)
  (hunits : ∀ p, units p → ¬ units (-p))
  (hclauses : ∀ c, clauses c → (∃ p ∈ c, units p) ∨
    ∃ a ∈ c, ∃ b ∈ c, a ≠ b ∧ ¬ units (-a) ∧ ¬ units (-b))

include h hclauses

/-- When each clause that is left is satisfied or has two literals that are not
false, so has each clause of the formula. -/
theorem Residue.satisfied_or_open {d : Multiset α} (hd : d ∈ F) : (∃ p ∈ d, units p) ∨
    ∃ a ∈ d, ∃ b ∈ d, a ≠ b ∧ ¬ units (-a) ∧ ¬ units (-b) := by
  rcases h.covers d hd with hunit | ⟨c, hc, hsubset⟩
  · exact .inl hunit
  · rcases hclauses c hc with ⟨p, hp, hunit⟩ | ⟨a, ha, b, hb, hopen⟩
    · exact .inl ⟨p, hsubset hp, hunit⟩
    · exact .inr ⟨a, hsubset ha, b, hsubset hb, hopen⟩

include hunits

/-- In that case all that follows has been found. -/
theorem Residue.complete (hnot : ∀ p : α, - -p = p) {q : α} (hq : Falsified F 0 q) :
    units (-q) := by
  induction hq with
  | start hp => exact absurd hp (Multiset.notMem_zero _)
  | @unit d q hd _ _ ih =>
    rw [hnot]
    rcases h.satisfied_or_open hclauses hd with ⟨p, hp, hunit⟩ | ⟨a, ha, b, hb, hne, hopen⟩
    · by_cases he : p = q
      · exact he ▸ hunit
      · exact absurd (ih p hp he) (hunits p hunit)
    · by_cases he : a = q
      · exact absurd (ih b hb fun hbq => hne (he.trans hbq.symm)) hopen.2
      · exact absurd (ih a ha he) hopen.1

theorem Residue.not_rup (hnot : ∀ p : α, - -p = p) : ¬ Rup F 0 := by
  rintro ⟨d, hd, hfalse⟩
  have hfalse := fun p hp => h.complete hunits hclauses hnot (hfalse p hp)
  rcases h.satisfied_or_open hclauses hd with ⟨p, hp, hunit⟩ | ⟨a, ha, b, hb, hne, hopen⟩
  · exact hunits p hunit (hfalse p hp)
  · exact hopen.1 (hfalse a ha)

end

/-! ## Checking a certificate -/

/-- The lines check, and lead from the one formula to the other. -/
inductive Checks : Multiset (Multiset α) → List (Line α) → Multiset (Multiset α) → Prop
  | done (F : Multiset (Multiset α)) : Checks F [] F
  | added {F G : Multiset (Multiset α)} {c : List α} {ls : List (Line α)} :
      Rup F c → Checks (↑c ::ₘ F) ls G → Checks F (.added c :: ls) G
  | removed {F G : Multiset (Multiset α)} {c : List α} {ls : List (Line α)} :
      Checks F ls G → Checks (↑c ::ₘ F) (.removed c :: ls) G

theorem Checks.append (h : Checks F ls G) (h' : Checks G ls' H) : Checks F (ls ++ ls') H := by
  induction h with
  | done => exact h'
  | added hrup _ ih => exact .added hrup (ih h')
  | removed _ ih => exact .removed (ih h')

/-- Lines that check beside further clauses leave these as they are. -/
theorem Checks.frame (h : Checks F ls G) (K : Multiset (Multiset α)) :
    Checks (F + K) ls (G + K) := by
  induction h with
  | done => exact .done _
  | @added F _ _ _ hrup _ ih =>
    rw [Multiset.cons_add] at ih
    exact .added (hrup.mono (Multiset.le_add_right F K)) ih
  | removed _ ih =>
    rw [Multiset.cons_add]
    exact .removed ih

theorem Checks.sound {holds : α → Prop} (hneg : ∀ p, holds (-p) → ¬ holds p)
    (h : Checks F ls G) (hF : Satisfied holds F) : Satisfied holds G := by
  induction h with
  | done => exact hF
  | added hrup _ ih => exact ih (Multiset.forall_mem_cons.mpr ⟨hrup.sound hneg hF, hF⟩)
  | removed _ ih => exact ih (Multiset.forall_mem_cons.mp hF).2

/-- A certificate that comes to the empty clause refutes the formula. -/
theorem Checks.refutes {holds : α → Prop} (hneg : ∀ p, holds (-p) → ¬ holds p)
    (h : Checks F ls G) (hempty : 0 ∈ G) : ¬ Satisfied holds F := by
  intro hF
  obtain ⟨p, hp, -⟩ := h.sound hneg hF 0 hempty
  exact absurd hp (Multiset.notMem_zero p)

end

end reductor.drup
