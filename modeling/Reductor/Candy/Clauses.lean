-- What Candy keeps of a clause: its literals in order and once each, and
-- nothing of a tautology. So a problem has the assignments of its clauses.
import Reductor.Candy.Reading
import Mathlib.Algebra.Group.Nat.Even

open reductor.streams

namespace reductor.candy

/-! ## Literals -/

section

variable {p q : Lit} {a : Int → Bool}

/-- The literals of a variable are neighbours. -/
theorem not_x (p : Lit) : p.not.x = if p.x % 2 = 0 then p.x + 1 else p.x - 1 := by
  have hnat : ∀ m : Nat, m ^^^ 1 = if m % 2 = 0 then m + 1 else m - 1 := by
    intro m
    split
    · exact Nat.xor_one_of_even (Nat.even_iff.mpr ‹_›)
    · exact Nat.xor_one_of_odd (Nat.odd_iff.mpr (by omega))
  obtain ⟨x⟩ := p
  cases x with
  | ofNat m =>
    show ((m ^^^ 1 : Nat) : Int) = _
    rw [hnat]
    simp only [Int.ofNat_eq_natCast]
    split <;> split <;> omega
  | negSucc m =>
    show Int.negSucc (m ^^^ 1) = _
    rw [hnat]
    simp only [Int.negSucc_eq]
    split <;> split <;> omega

theorem var_eq (p : Lit) : var p = p.x / 2 := by
  rw [var, Int.shiftRight_eq_div_pow]
  rfl

theorem ldiff_one (m : Nat) : Nat.ldiff 1 m = 1 - m % 2 := by
  rcases Nat.mod_two_eq_zero_or_one m with h | h
  all_goals
    apply Nat.eq_of_testBit_eq
    intro i
    rw [Nat.testBit_ldiff, h]
    cases i with
    | zero => simp [h]
    | succ i => simp [Nat.testBit_succ]

theorem sign_eq (p : Lit) : sign p = decide (p.x % 2 = 1) := by
  obtain ⟨x⟩ := p
  cases x with
  | ofNat m =>
    show (((m &&& 1 : Nat) : Int) != 0) = _
    rw [Nat.and_one_is_mod, Int.ofNat_eq_natCast]
    rcases Nat.mod_two_eq_zero_or_one m with h | h <;> simp [h] <;> omega
  | negSucc m =>
    show (((Nat.ldiff 1 m : Nat) : Int) != 0) = _
    rw [ldiff_one, Int.negSucc_eq]
    rcases Nat.mod_two_eq_zero_or_one m with h | h <;> rw [h] <;> simp <;> omega

theorem Lit.ext_x (h : p.x = q.x) : p = q := by
  cases p
  cases q
  exact congrArg _ h

theorem lit_not_ne (p : Lit) : p.not ≠ p := by
  intro h
  have hx := not_x p
  rw [h] at hx
  split at hx <;> omega

theorem lit_not_not (p : Lit) : p.not.not = p := by
  apply Lit.ext_x
  rw [not_x, not_x]
  split <;> split <;> omega

/-- The literal holds when the value of its variable is its sign turned. -/
def Lit.holds (a : Int → Bool) (p : Lit) : Bool := a (var p) != sign p

theorem var_not (p : Lit) : var p.not = var p := by
  rw [var_eq, var_eq, not_x]
  split <;> omega

theorem sign_not (p : Lit) : sign p.not = !sign p := by
  rw [sign_eq, sign_eq, not_x]
  rcases Int.emod_two_eq_zero_or_one p.x with h | h
  · rw [if_pos h, h]
    simp
    omega
  · rw [if_neg (by omega), h]
    simp
    omega

theorem holds_not (p : Lit) : p.not.holds a = !p.holds a := by
  unfold Lit.holds
  rw [var_not, sign_not]
  cases a (var p) <;> cases sign p <;> rfl

end

/-! ## The loop over the sorted literals -/

/-- Two literals of the clause contradict each other. -/
def Tautology (lits : Cl) : Prop := ∃ p ∈ lits, p.not ∈ lits

instance : DecidablePred Tautology := fun lits =>
  inferInstanceAs (Decidable (∃ p ∈ lits, p.not ∈ lits))

section

variable {prev : Lit} {maxVars : Int} {kept lits : Cl}

/-- Between a literal and the next one there is no other one of its variable. -/
theorem tautology_cons_cons {lit : Lit} (h : (prev :: lit :: lits).Pairwise Lit.le)
    (hne : lit ≠ prev) (hnot : lit ≠ prev.not) :
    Tautology (prev :: lit :: lits) ↔ Tautology (lit :: lits) := by
  obtain ⟨hprev, hrest⟩ := List.pairwise_cons.mp h
  obtain ⟨hlit, -⟩ := List.pairwise_cons.mp hrest
  have hfar : prev.not ∉ lit :: lits := by
    intro hmem
    have h1 : prev.x ≤ lit.x := hprev lit List.mem_cons_self
    have h2 : lit.x ≤ prev.not.x := by
      rcases List.mem_cons.mp hmem with he | hmem
      · exact absurd he.symm hnot
      · exact hlit _ hmem
    have hx := not_x prev
    have h3 : lit.x ≠ prev.x := fun he => hne (Lit.ext_x he)
    have h4 : lit.x ≠ prev.not.x := fun he => hnot (Lit.ext_x he)
    split at hx <;> omega
  constructor
  · rintro ⟨p, hp, hpn⟩
    rcases List.mem_cons.mp hp with rfl | hp
    · rcases List.mem_cons.mp hpn with he | hpn
      · exact absurd he (lit_not_ne p)
      · exact absurd hpn hfar
    · rcases List.mem_cons.mp hpn with he | hpn
      · exact absurd (by rw [← he, lit_not_not]; exact hp) hfar
      · exact ⟨p, hp, hpn⟩
  · rintro ⟨p, hp, hpn⟩
    exact ⟨p, List.mem_cons_of_mem _ hp, List.mem_cons_of_mem _ hpn⟩

/-- The loop gives no clause just when two literals contradict each other. -/
theorem keepLits_none_iff (h : (prev :: lits).Pairwise Lit.le) :
    (keepLits prev maxVars kept lits).2 = none ↔ Tautology (prev :: lits) := by
  induction lits generalizing prev maxVars kept with
  | nil =>
    constructor
    · intro he
      cases he
    · rintro ⟨p, hp, hpn⟩
      rw [List.mem_singleton] at hp hpn
      exact absurd (hpn.trans hp.symm) (lit_not_ne p)
  | cons lit lits ih =>
    unfold keepLits
    obtain ⟨hprev, hrest⟩ := List.pairwise_cons.mp h
    by_cases hnot : lit = prev.not
    · rw [if_pos hnot]
      refine iff_of_true rfl ⟨prev, List.mem_cons_self, ?_⟩
      rw [← hnot]
      exact List.mem_cons_of_mem _ List.mem_cons_self
    · rw [if_neg hnot]
      by_cases hne : lit ≠ prev
      · rw [if_pos hne, ih hrest, tautology_cons_cons h hne hnot]
      · rw [if_neg hne]
        obtain rfl : lit = prev := not_ne_iff.mp hne
        rw [ih hrest]
        unfold Tautology
        simp

/-- A clause that the loop gives has the literals in order and once each. -/
theorem keepLits_some {clause : Cl} {maxVars' : Int} (h : (prev :: lits).Pairwise Lit.le)
    (hkeep : keepLits prev maxVars kept lits = (maxVars', some clause)) :
    ∃ new, clause = kept ++ new ∧ (prev :: new).Pairwise (fun p q => p.x < q.x) ∧
      (∀ p, p ∈ prev :: new ↔ p ∈ prev :: lits) := by
  induction lits generalizing prev maxVars kept with
  | nil =>
    cases hkeep
    exact ⟨[], (List.append_nil _).symm, List.pairwise_singleton _ _, fun _ => Iff.rfl⟩
  | cons lit lits ih =>
    unfold keepLits at hkeep
    obtain ⟨hprev, hrest⟩ := List.pairwise_cons.mp h
    by_cases hnot : lit = prev.not
    · rw [if_pos hnot] at hkeep
      cases hkeep
    · rw [if_neg hnot] at hkeep
      by_cases hne : lit ≠ prev
      · rw [if_pos hne] at hkeep
        obtain ⟨new, hclause, hnew, hmem⟩ := ih hrest hkeep
        refine ⟨lit :: new, by rw [hclause, List.append_assoc]; rfl, ?_, ?_⟩
        · refine List.pairwise_cons.mpr ⟨?_, hnew⟩
          have hlt : prev.x < lit.x := by
            have hle : prev.x ≤ lit.x := hprev lit List.mem_cons_self
            have hx : lit.x ≠ prev.x := fun he => hne (Lit.ext_x he)
            omega
          intro p hp
          rcases List.mem_cons.mp hp with rfl | hp
          · exact hlt
          · have hlast := (List.pairwise_cons.mp hnew).1 p hp
            omega
        · intro p
          rw [List.mem_cons, hmem, ← List.mem_cons]
      · rw [if_neg hne] at hkeep
        obtain rfl : lit = prev := not_ne_iff.mp hne
        obtain ⟨new, hclause, hnew, hmem⟩ := ih hrest hkeep
        refine ⟨new, hclause, hnew, ?_⟩
        intro p
        rw [hmem]
        simp

/-- The number of variables never goes down, and goes up to that of a literal. -/
theorem keepLits_maxVars (prev : Lit) (maxVars : Int) (kept lits : Cl) :
    maxVars ≤ (keepLits prev maxVars kept lits).1 ∧
      ((keepLits prev maxVars kept lits).1 = maxVars ∨
        ∃ p ∈ lits, (keepLits prev maxVars kept lits).1 = var p + 1) := by
  induction lits generalizing prev maxVars kept with
  | nil => exact ⟨Int.le_refl _, .inl rfl⟩
  | cons lit lits ih =>
    unfold keepLits
    by_cases hnot : lit = prev.not
    · rw [if_pos hnot]
      exact ⟨Int.le_refl _, .inl rfl⟩
    · rw [if_neg hnot]
      by_cases hne : lit ≠ prev
      · rw [if_pos hne]
        obtain ⟨hle, hsome⟩ := ih lit (max maxVars (var lit + 1)) (kept ++ [lit])
        refine ⟨by omega, ?_⟩
        rcases hsome with he | ⟨p, hp, he⟩
        · rcases Int.le_total maxVars (var lit + 1) with h | h
          · exact .inr ⟨lit, List.mem_cons_self, by omega⟩
          · exact .inl (by omega)
        · exact .inr ⟨p, List.mem_cons_of_mem _ hp, he⟩
      · rw [if_neg hne]
        obtain ⟨hle, hsome⟩ := ih prev maxVars kept
        refine ⟨hle, hsome.imp_right ?_⟩
        rintro ⟨p, hp, he⟩
        exact ⟨p, List.mem_cons_of_mem _ hp, he⟩

/-- It is large enough for a clause that is kept. -/
theorem var_lt_keepLits (hsome : (keepLits prev maxVars kept lits).2.isSome) :
    ∀ p ∈ lits, p ≠ prev → var p < (keepLits prev maxVars kept lits).1 := by
  induction lits generalizing prev maxVars kept with
  | nil =>
    intro p hp
    cases hp
  | cons lit lits ih =>
    unfold keepLits at hsome ⊢
    by_cases hnot : lit = prev.not
    · rw [if_pos hnot] at hsome
      cases hsome
    · rw [if_neg hnot] at hsome ⊢
      by_cases hne : lit ≠ prev
      · rw [if_pos hne] at hsome ⊢
        have hle := (keepLits_maxVars lit (max maxVars (var lit + 1)) (kept ++ [lit]) lits).1
        intro p hp _
        by_cases hlit : p = lit
        · rw [hlit]
          omega
        · exact ih hsome p ((List.mem_cons.mp hp).resolve_left hlit) hlit
      · rw [if_neg hne] at hsome ⊢
        intro p hp hpne
        rcases List.mem_cons.mp hp with rfl | hp
        · exact absurd hpne hne
        · exact ih hsome p hp hpne

end

/-! ## A clause read -/

/-- The literals come from variables. -/
def Valid (lits : Cl) : Prop := ∀ p ∈ lits, 0 ≤ p.x

instance : DecidablePred Valid := fun lits => inferInstanceAs (Decidable (∀ p ∈ lits, 0 ≤ p.x))

/-- The clause has these literals, in order and once each. -/
structure Normalizes (lits clause : Cl) : Prop where
  increasing : clause.Pairwise fun p q => p.x < q.x
  mem_iff : ∀ p, p ∈ clause ↔ p ∈ lits

section

variable {cnf : CNFProblem} {lits : Cl}

theorem mem_sorted {p : Lit} : p ∈ sorted lits ↔ p ∈ lits := List.mem_insertionSort _

/-- The loop starts in front of all literals. -/
theorem pairwise_sorted (h : Valid lits) : (lit_Undef :: sorted lits).Pairwise Lit.le := by
  have htotal : Std.Total Lit.le := ⟨fun p q => Int.le_total p.x q.x⟩
  have htrans : IsTrans Lit Lit.le := ⟨fun _ _ _ h h' => Int.le_trans h h'⟩
  refine List.pairwise_cons.mpr ⟨?_, List.pairwise_insertionSort Lit.le lits⟩
  intro p hp
  have hx := h p (mem_sorted.mp hp)
  show -2 ≤ p.x
  omega

theorem tautology_undef_iff (h : Valid lits) :
    Tautology (lit_Undef :: sorted lits) ↔ Tautology lits := by
  have hpos : ∀ p ∈ lits, p ≠ lit_Undef ∧ p.not ≠ lit_Undef := by
    intro p hp
    have hx := h p hp
    have hnot := not_x p
    constructor
    · rintro rfl
      exact absurd hx (by decide)
    · intro he
      rw [he] at hnot
      have hundef : lit_Undef.x = -2 := rfl
      rw [hundef] at hnot
      split at hnot <;> omega
  constructor
  · rintro ⟨p, hp, hpn⟩
    rcases List.mem_cons.mp hp with rfl | hp
    · have hnot : lit_Undef.not ∈ lits := by
        rcases List.mem_cons.mp hpn with he | hpn
        · exact absurd he (lit_not_ne _)
        · exact mem_sorted.mp hpn
      exact absurd (lit_not_not _) (hpos _ hnot).2
    · have hp := mem_sorted.mp hp
      rcases List.mem_cons.mp hpn with he | hpn
      · exact absurd he (hpos p hp).2
      · exact ⟨p, hp, mem_sorted.mp hpn⟩
  · rintro ⟨p, hp, hpn⟩
    exact ⟨p, List.mem_cons_of_mem _ (mem_sorted.mpr hp),
      List.mem_cons_of_mem _ (mem_sorted.mpr hpn)⟩

/-- What reading a clause does to a problem. -/
inductive ReadsClause (cnf : CNFProblem) (lits : Cl) : CNFProblem → Prop
  | dropped {maxVars : Int} : Tautology lits → cnf.maxVars ≤ maxVars →
      ReadsClause cnf lits
        { cnf with maxVars := maxVars, certificate := cnf.certificate ++ [.removed lits] }
  | added {clause : Cl} {maxVars : Int} : ¬ Tautology lits → Normalizes lits clause →
      cnf.maxVars ≤ maxVars → (∀ p ∈ lits, var p < maxVars) →
      ReadsClause cnf lits
        { cnf with
          problem := cnf.problem ++ [clause]
          maxVars := maxVars
          certificate := cnf.certificate ++ shortened lits clause }

theorem readsClause (cnf : CNFProblem) (h : Valid lits) :
    ReadsClause cnf lits (cnf.readClause lits) := by
  have hsorted := pairwise_sorted h
  have hnone : (keepLits lit_Undef cnf.maxVars [] (sorted lits)).2 = none ↔ Tautology lits :=
    (keepLits_none_iff hsorted).trans (tautology_undef_iff h)
  have hmax := (keepLits_maxVars lit_Undef cnf.maxVars [] (sorted lits)).1
  unfold CNFProblem.readClause
  cases hkeep : keepLits lit_Undef cnf.maxVars [] (sorted lits) with
  | mk maxVars result =>
    rw [hkeep] at hnone hmax
    cases result with
    | none => exact .dropped (hnone.mp rfl) hmax
    | some clause =>
      have hnot : ¬ Tautology lits := fun ht => by
        have he := hnone.mpr ht
        cases he
      obtain ⟨new, hclause, hnew, hmem⟩ := keepLits_some hsorted hkeep
      rw [List.nil_append] at hclause
      subst hclause
      have hne : ∀ p ∈ lits, p ≠ lit_Undef := by
        rintro p hp rfl
        exact absurd (h _ hp) (by decide)
      obtain ⟨hfirst, hincreasing⟩ := List.pairwise_cons.mp hnew
      refine .added hnot ⟨hincreasing, ?_⟩ hmax ?_
      · intro p
        have hp := hmem p
        rw [List.mem_cons, List.mem_cons, mem_sorted] at hp
        constructor
        · intro hpn
          have hnpu : p ≠ lit_Undef := by
            rintro rfl
            exact absurd (hfirst _ hpn) (Int.lt_irrefl _)
          exact (hp.mp (.inr hpn)).resolve_left hnpu
        · intro hpl
          exact (hp.mpr (.inr hpl)).resolve_left (hne p hpl)
      · intro p hp
        have hlt := var_lt_keepLits (by rw [hkeep]; rfl) p (mem_sorted.mpr hp) (hne p hp)
        rwa [hkeep] at hlt

end

/-! ## Problems -/

/-- A clause in order, with each literal once, with none that contradicts
another, and with variables that the problem counts. -/
structure NormalClause (maxVars : Int) (clause : Cl) : Prop where
  increasing : clause.Pairwise fun p q => p.x < q.x
  noTautology : ¬ Tautology clause
  valid : Valid clause
  vars : ∀ p ∈ clause, var p < maxVars

/-- Every clause of the problem is one that reading it again leaves. -/
def CNFProblem.Normal (cnf : CNFProblem) : Prop := ∀ c ∈ cnf.problem, NormalClause cnf.maxVars c

/-- The assignment gives each clause of the problem a literal that holds. -/
def CNFProblem.SatisfiedBy (cnf : CNFProblem) (a : Int → Bool) : Prop :=
  ∀ c ∈ cnf.problem, ∃ p ∈ c, p.holds a = true

section

variable {cnf cnf' : CNFProblem} {lits clause : Cl} {maxVars : Int} {a : Int → Bool}

theorem NormalClause.mono (h : NormalClause cnf.maxVars clause) (hle : cnf.maxVars ≤ maxVars) :
    NormalClause maxVars clause :=
  ⟨h.increasing, h.noTautology, h.valid, fun p hp => by
    have hlt := h.vars p hp
    omega⟩

theorem Normalizes.tautology_iff (h : Normalizes lits clause) :
    Tautology clause ↔ Tautology lits := by
  unfold Tautology
  simp only [h.mem_iff]

theorem ReadsClause.normal (h : ReadsClause cnf lits cnf') (hvalid : Valid lits)
    (hcnf : cnf.Normal) : cnf'.Normal := by
  cases h with
  | dropped _ hle => exact fun c hc => (hcnf c hc).mono hle
  | added htaut hnorm hle hvars =>
    intro c hc
    rcases List.mem_append.mp hc with hc | hc
    · exact (hcnf c hc).mono hle
    · obtain rfl := List.mem_singleton.mp hc
      exact ⟨hnorm.increasing, mt hnorm.tautology_iff.mp htaut,
        fun p hp => hvalid p ((hnorm.mem_iff p).mp hp),
        fun p hp => hvars p ((hnorm.mem_iff p).mp hp)⟩

/-- Some literal of a tautology holds. -/
theorem exists_holds_of_tautology (h : Tautology lits) (a : Int → Bool) :
    ∃ p ∈ lits, p.holds a = true := by
  obtain ⟨p, hp, hpn⟩ := h
  cases hholds : p.holds a with
  | true => exact ⟨p, hp, hholds⟩
  | false =>
    refine ⟨p.not, hpn, ?_⟩
    rw [holds_not, hholds]
    rfl

/-- A clause read takes away the assignments under which no literal of it holds. -/
theorem ReadsClause.satisfiedBy_iff (h : ReadsClause cnf lits cnf') :
    cnf'.SatisfiedBy a ↔ cnf.SatisfiedBy a ∧ ∃ p ∈ lits, p.holds a = true := by
  cases h with
  | dropped htaut _ =>
    exact ⟨fun hs => ⟨hs, exists_holds_of_tautology htaut a⟩, fun hs => hs.1⟩
  | added _ hnorm _ _ =>
    unfold CNFProblem.SatisfiedBy
    simp only [List.forall_mem_append, List.forall_mem_singleton, hnorm.mem_iff]

/-- A normal clause is read as it is. -/
theorem problem_readClause (cnf : CNFProblem) (h : NormalClause maxVars clause) :
    (cnf.readClause clause).problem = cnf.problem ++ [clause] := by
  have hreads := readsClause cnf h.valid
  generalize cnf.readClause clause = cnf' at hreads
  cases hreads with
  | dropped htaut _ => exact absurd htaut h.noTautology
  | @added clause' _ _ hnorm _ _ =>
    have hirrefl : Std.Irrefl fun p q : Lit => p.x < q.x := ⟨fun p => Int.lt_irrefl p.x⟩
    have hantisymm : Std.Antisymm fun p q : Lit => p.x < q.x :=
      ⟨fun p q h h' => absurd h' (Int.lt_asymm h)⟩
    have hsame : clause' = clause :=
      List.Pairwise.eq_of_mem_iff hnorm.increasing h.increasing fun p => hnorm.mem_iff p
    rw [hsame]

/-- So a normal problem is read from its own clauses. -/
theorem problem_readClauses (cnf : CNFProblem) {clauses : List Cl}
    (h : ∀ c ∈ clauses, NormalClause maxVars c) :
    (clauses.foldl CNFProblem.readClause cnf).problem = cnf.problem ++ clauses := by
  induction clauses generalizing cnf with
  | nil => exact (List.append_nil _).symm
  | cons c clauses ih =>
    rw [List.foldl_cons, ih _ fun d hd => h d (List.mem_cons_of_mem c hd),
      problem_readClause cnf (h c List.mem_cons_self), List.append_assoc]
    rfl

end

/-! ## Every problem that the reader gives -/

theorem mkLit_valid {plit : Int} (hz : plit ≠ 0) {negative : Bool} {s s' : Bytes} {lit : Lit}
    (h : (mkLit (plit.natAbs - 1) negative : Parser Bytes Stop Lit) s = .ok (lit, s')) :
    0 ≤ lit.x := by
  obtain ⟨x, t, hx, h⟩ := bind_eq_ok h
  cases h
  unfold int32 at hx
  split at hx
  · cases hx
    have hsign : 0 ≤ negative.toInt := by
      cases negative <;> decide
    show 0 ≤ ((plit.natAbs : Int) - 1) + ((plit.natAbs : Int) - 1) + negative.toInt
    omega
  · cases hx

theorem readLits_valid {s s' : Bytes} {lits : Cl}
    (h : (readLits : Parser Bytes Stop Cl) s = .ok (lits, s')) : Valid lits := by
  obtain ⟨plit, t, -, h⟩ := bind_eq_ok h
  refine loop_result (I := fun a => Valid a.2) takes_litTurn ?_ ?_ ?_ h
  · intro a s b s' ha hturn
    unfold litTurn at hturn
    by_cases hz : a.1 = 0
    · rw [if_pos hz] at hturn
      cases hturn
    · rw [if_neg hz] at hturn
      obtain ⟨lit, u, hlit, hturn⟩ := bind_eq_ok hturn
      obtain ⟨plit', v, -, hturn⟩ := bind_eq_ok hturn
      cases hturn
      exact List.forall_mem_append.mpr ⟨ha, List.forall_mem_singleton.mpr (mkLit_valid hz hlit)⟩
  · intro a s r s' ha hturn
    unfold litTurn at hturn
    by_cases hz : a.1 = 0
    · rw [if_pos hz] at hturn
      cases hturn
      exact ha
    · rw [if_neg hz] at hturn
      obtain ⟨lit, u, hlit, hturn⟩ := bind_eq_ok hturn
      obtain ⟨plit', v, -, hturn⟩ := bind_eq_ok hturn
      cases hturn
  · intro p hp
    cases hp

theorem readHeader_normal {cnf cnf' : CNFProblem} {s s' : Bytes} (hcnf : cnf.Normal)
    (h : (readHeader cnf : Parser Bytes Stop CNFProblem) s = .ok (cnf', s')) : cnf'.Normal := by
  obtain ⟨matched, t, -, h⟩ := bind_eq_ok h
  by_cases hm : matched = true
  · rw [if_pos hm] at h
    obtain ⟨headerVars, u, -, h⟩ := bind_eq_ok h
    obtain ⟨headerClauses, v, -, h⟩ := bind_eq_ok h
    split at h
    · cases h
    · cases h
      exact hcnf
  · rw [if_neg hm] at h
    cases h

theorem readItem_normal {c : Option UInt8} {cnf cnf' : CNFProblem} {s s' : Bytes}
    (hcnf : cnf.Normal)
    (h : (readItem c cnf : Parser Bytes Stop CNFProblem) s = .ok (cnf', s')) : cnf'.Normal := by
  unfold readItem at h
  by_cases hp : c = some 112
  · rw [if_pos hp] at h
    exact readHeader_normal hcnf h
  · rw [if_neg hp] at h
    by_cases hc : c = some 99
    · rw [if_pos hc] at h
      obtain ⟨_, t, -, h⟩ := bind_eq_ok h
      cases h
      exact hcnf
    · rw [if_neg hc] at h
      obtain ⟨lits, t, hlits, h⟩ := bind_eq_ok h
      cases h
      have hvalid := readLits_valid hlits
      exact (readsClause cnf hvalid).normal hvalid hcnf

theorem dimacsTurn_normal {cnf : CNFProblem} {r : CNFProblem ⊕ CNFProblem} {s s' : Bytes}
    (hcnf : cnf.Normal)
    (h : (dimacsTurn cnf : Parser Bytes Stop (CNFProblem ⊕ CNFProblem)) s = .ok (r, s')) :
    ∃ cnf', cnf'.Normal ∧ (r = .inl cnf' ∨ r = .inr cnf') := by
  rw [dimacsTurn, peek_bind] at h
  by_cases hend : s.head?.isNone = true
  · rw [if_pos hend] at h
    cases h
    exact ⟨cnf, hcnf, .inr rfl⟩
  · rw [if_neg hend] at h
    obtain ⟨cnf', t, hitem, h⟩ := bind_eq_ok h
    obtain ⟨_, u, -, h⟩ := bind_eq_ok h
    cases h
    exact ⟨cnf', readItem_normal hcnf hitem, .inl rfl⟩

/-- Whatever a file holds, a problem that is read from it has each clause in
order, with each literal once and none that contradicts another, and counts
all its variables; and read again clause by clause it is the same. -/
theorem every_problem_is_normal {bytes : Bytes} {cnf : CNFProblem}
    (h : problemOf bytes = .ok cnf) :
    (∀ c ∈ cnf.problem, NormalClause cnf.maxVars c) ∧
      (cnf.problem.foldl CNFProblem.readClause {}).problem = cnf.problem := by
  have hnormal : cnf.Normal := by
    unfold problemOf at h
    cases hrun : (parse_DIMACS {} : Parser Bytes Stop CNFProblem) bytes with
    | error e =>
      rw [hrun] at h
      cases h
    | ok r =>
      rw [hrun] at h
      cases h
      obtain ⟨_, t, -, hloop⟩ := bind_eq_ok hrun
      refine loop_result (I := CNFProblem.Normal) takes_dimacsTurn ?_ ?_ ?_ hloop
      · intro a s b s' ha hturn
        obtain ⟨cnf', hcnf', he | he⟩ := dimacsTurn_normal ha hturn
        · cases he
          exact hcnf'
        · cases he
      · intro a s r s' ha hturn
        obtain ⟨cnf', hcnf', he | he⟩ := dimacsTurn_normal ha hturn
        · cases he
        · cases he
          exact hcnf'
      · intro c hc
        cases hc
  exact ⟨hnormal, (problem_readClauses {} hnormal).trans (List.nil_append _)⟩

/-- A tautology, a literal twice, and a file that ends in its last clause. -/
theorem a_small_problem_is_normal :
    (∀ c ∈ [[⟨0⟩, ⟨3⟩], [⟨4⟩]], NormalClause 3 c) ∧
      ([[⟨0⟩, ⟨3⟩], [⟨4⟩]].foldl CNFProblem.readClause {}).problem = [[⟨0⟩, ⟨3⟩], [⟨4⟩]] := by
  have hread : problemOf (ascii "c x\np cnf 9 3\n-2 1 1 0 2 -2\n0\t+03 0") =
      .ok ⟨[[⟨0⟩, ⟨3⟩], [⟨4⟩]], 3, 9, 3, [.added [⟨0⟩, ⟨3⟩], .removed [⟨3⟩, ⟨0⟩, ⟨0⟩],
        .removed [⟨2⟩, ⟨3⟩]]⟩ := by decide +kernel
  exact every_problem_is_normal hread

end reductor.candy
