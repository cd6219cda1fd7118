-- Candy's solver takes in a problem. All it does is unit propagation, and what
-- is left stands for the clauses of the problem.
import Reductor.Candy.Strengthening

open reductor.drup

namespace reductor.candy

namespace Solver

/-! ## Taking in a problem -/

section

variable {F : Multiset (Multiset Lit)} {s : Solver} {cnf : CNFProblem} {n : Int}

/-- The solver gets room for more variables. -/
theorem Represents.grow (h : Represents F s) (hn : s.nVars ≤ n) :
    Represents F { s with nVars := n } := by
  have hvars : ∀ p : Lit, 0 ≤ var p ∧ var p < s.nVars → 0 ≤ var p ∧ var p < n := fun p hp =>
    ⟨hp.1, Int.lt_of_lt_of_le hp.2 hn⟩
  refine ⟨⟨⟨?_, h.inv.trail.nodup, h.inv.trail.value_iff, h.inv.trail.qhead_le⟩, ?_,
    h.inv.allocated, h.inv.nodup, h.inv.long, h.inv.binary, h.inv.clean⟩, h.residue, h.lines⟩
  · exact fun p hp => hvars p (h.inv.trail.vars p hp)
  · intro cr hcr
    have hclause := h.inv.clause cr hcr
    exact ⟨hclause.nodup, hclause.two_le, fun p hp => hvars p (hclause.vars p hp)⟩

theorem fits_of_normal {c : Cl} (h : NormalClause cnf.maxVars c) (hn : cnf.maxVars ≤ n)
    (hshort : c.length < 2 ^ 16) : Fits n c := by
  refine ⟨h.increasing.imp ?_, fun p hp => ⟨?_, ?_⟩, hshort⟩
  · rintro p _ hlt rfl
    exact Int.lt_irrefl _ hlt
  · have hvalid := h.valid p hp
    rw [var_eq]
    omega
  · exact Int.lt_of_lt_of_le (h.vars p hp) hn

theorem addClauses_spec (h : Represents F s) (hok : s.ok = true) (hcnf : cnf.Normal)
    (hshort : ∀ c ∈ cnf.problem, c.length < 2 ^ 16) :
    Outcome (formulaOf cnf.problem + F) Done (s.addClauses cnf) := by
  have hgrown := h.grow (Int.le_max_left s.nVars cnf.maxVars)
  have hadd := addAll_spec hgrown hok fun c hc =>
    fits_of_normal (hcnf c hc) (Int.le_max_right s.nVars cnf.maxVars) (hshort c hc)
  unfold addClauses
  refine hadd.next (le_refl _) fun t htok _ ht => ?_
  exact (simplify_spec ht htok).next (le_refl _) fun u huok _ hu => strengthen_spec hu huok

theorem represents_start : Represents 0 {} := by
  refine ⟨inv_start 0, ⟨?_, ?_, ?_⟩, fun c hc => absurd hc List.not_mem_nil⟩
  · exact fun p hp => absurd hp List.not_mem_nil
  · exact fun c hc => absurd hc (Multiset.notMem_zero c)
  · exact fun d hd => absurd hd (Multiset.notMem_zero d)

/-- What a solver has made of a formula that unit propagation does not refute:
the trail is all that unit propagation finds, in each clause that is not
satisfied the two literals that are watched have no value, and an assignment
satisfies the formula if and only if it satisfies the trail and the clauses. -/
structure TakenIn (F : Multiset (Multiset Lit)) (s : Solver) : Prop where
  inv : Inv s
  queue : s.qhead = s.trail.length
  trail : ∀ p, p ∈ s.trail ↔ Falsified F 0 p.not
  watched : ∀ cr ∈ s.clauses, (∃ p ∈ s.literals cr, p ∈ s.trail) ∨
    ∀ p ∈ (s.literals cr).take 2, s.value p = none
  models : ∀ holds : Lit → Prop, (∀ p, holds p.not ↔ ¬ holds p) →
    (Satisfied holds F ↔ (∀ p ∈ s.trail, holds p) ∧ Satisfied holds s.formula)
  lines : ∀ c, Line.added c ∈ s.certificate → Rup F ↑c

theorem Represents.takenIn (h : Represents F s) (hdone : Done s) : TakenIn F s ∧ ¬ Rup F 0 := by
  obtain ⟨hsettled, hqhead⟩ := hdone
  have hall : ∀ p ∈ s.trail, s.SettledAt p := by
    rwa [Settled, hqhead, List.take_length] at hsettled
  have hwatched : ∀ cr ∈ s.clauses, (∃ p ∈ s.literals cr, p ∈ s.trail) ∨
      ∀ p ∈ (s.literals cr).take 2, s.value p = none := by
    intro cr hcr
    refine (satisfied_or_unassigned h.inv hall hcr).imp_left ?_
    rintro ⟨p, hp, htrue⟩
    exact ⟨p, hp, (h.inv.trail.value_iff p).mp htrue⟩
  -- no variable is in the trail twice, and a literal without a value is not in it
  have hunits : ∀ p, p ∈ s.trail → ¬ p.not ∈ s.trail := by
    intro p hp hnot
    have hfalse := h.inv.trail.value_false_iff.mpr hnot
    rw [(h.inv.trail.value_iff p).mpr hp] at hfalse
    cases hfalse
  have hopen : ∀ p, s.value p = none → ¬ p.not ∈ s.trail := by
    intro p hp hnot
    rw [h.inv.trail.value_false_iff.mpr hnot] at hp
    cases hp
  have hclauses : ∀ c, c ∈ s.formula → (∃ p ∈ c, p ∈ s.trail) ∨
      ∃ a ∈ c, ∃ b ∈ c, a ≠ b ∧ ¬ a.not ∈ s.trail ∧ ¬ b.not ∈ s.trail := by
    intro c hc
    obtain ⟨cr, hcr, rfl⟩ := mem_formula_iff.mp hc
    refine (hwatched cr hcr).imp_right fun hnone => ?_
    have hclause := h.inv.clause cr hcr
    obtain ⟨a, b, rest, hlits⟩ := exists_of_two_le hclause.two_le
    have hnodup := hclause.nodup
    rw [hlits] at hnodup hnone ⊢
    have hb : b ∈ a :: b :: rest := List.mem_cons_of_mem _ List.mem_cons_self
    refine ⟨a, List.mem_cons_self, b, hb, ?_, hopen a (hnone a List.mem_cons_self),
      hopen b (hnone b (List.mem_cons_of_mem _ List.mem_cons_self))⟩
    rintro rfl
    exact (List.nodup_cons.mp hnodup).1 List.mem_cons_self
  refine ⟨⟨h.inv, hqhead, fun p => ⟨h.residue.follows p, fun hp => ?_⟩, hwatched,
    fun holds hneg => h.residue.satisfied_iff hneg, h.lines⟩, ?_⟩
  · have hcomplete := h.residue.complete hunits hclauses lit_not_not hp
    rwa [show - p.not = p from lit_not_not p] at hcomplete
  · exact h.residue.not_rup hunits hclauses lit_not_not

-- an assertion fails where what is left of two clauses is 2 and -2
example : addClauses {} { problem := [[⟨0⟩], [⟨1⟩, ⟨2⟩], [⟨1⟩, ⟨3⟩]], maxVars := 2 } =
    .error .assertion := rfl

end

end Solver

end reductor.candy
