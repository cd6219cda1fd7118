-- Candy's solver cuts off the literals that are false. A clause that is cut
-- goes, and what is left of it comes as a literal or as a new clause.
import Reductor.Candy.Adding

open reductor.drup

namespace reductor.candy

namespace Solver

/-! ## Cutting off literals that are false -/

/-- The clause without the literals that are false. -/
def cut (s : Solver) (cr : Ref) : Cl := (s.literals cr).filter fun p => s.value p != some false

/-- `strengthen` cuts off some literal of the clause. -/
def isCut (s : Solver) (cr : Ref) : Bool := (s.literals cr).any fun p => s.value p == some false

/-- What the first loop of `strengthen` has made of a solver when it has seen
some of its clauses: those it has cut are noted, and are gone. -/
structure Cutting (F : Multiset (Multiset Lit)) (s₀ : Solver) (done : List Ref)
    (a : List Ref × Solver) : Prop where
  noted : a.1 = done.filter s₀.isCut
  inv : InvWithout a.2 a.1
  same : Same s₀ a.2
  seen : ∀ cr ∈ done, a.2.literals cr = s₀.cut cr
  unseen : ∀ cr, cr ∉ done → a.2.literals cr = s₀.literals cr
  kept : ∀ cr ∈ s₀.clauses, (a.2.clause cr).deleted = false
  lines : ∀ c, Line.added c ∈ a.2.certificate → Rup F ↑c

section

variable {F : Multiset (Multiset Lit)} {s₀ s s' : Solver} {gone done rest : List Ref} {cr : Ref}
  {a : List Ref × Solver}

/-- What is left of a clause follows from the formula. -/
theorem Represents.rup_cut (h : Represents F s) (hcr : cr ∈ s.clauses) : Rup F ↑(s.cut cr) := by
  obtain ⟨d, hd, hall⟩ := h.residue.rup (mem_formula hcr)
  refine ⟨d, hd, fun q hq => (hall q hq).trans fun p hp => ?_⟩
  by_cases hfalse : s.value p = some false
  · exact (h.falsified hfalse).trans fun r hr => absurd hr (Multiset.notMem_zero r)
  · exact .start (List.mem_filter.mpr ⟨hp, bne_iff_ne.mpr hfalse⟩)

theorem cut_of_not_isCut (h : s.isCut cr = false) : s.cut cr = s.literals cr := by
  refine List.filter_eq_self.mpr fun p hp => bne_iff_ne.mpr fun hfalse => ?_
  refine Bool.false_ne_true (h.symm.trans (List.any_eq_true.mpr ⟨p, hp, ?_⟩))
  rw [hfalse]
  rfl

/-- A clause that is gone gets other literals. -/
theorem InvWithout.setLiterals (h : InvWithout s gone) (hcr : cr ∈ gone) (c : Cl) :
    InvWithout (s.setLiterals cr c) gone := by
  refine h.forget fun c hc => Function.update_of_ne ?_ ..
  rintro rfl
  exact hc hcr

theorem Cutting.step (h₀ : Represents F s₀) (h : Cutting F s₀ done a) (hcr : cr ∈ s₀.clauses)
    (hnew : cr ∉ done) : ∃ a', cutOff a cr = .ok a' ∧ Cutting F s₀ (done ++ [cr]) a' := by
  obtain ⟨noted, s⟩ := a
  obtain ⟨rfl, hinv, hsame, hseen, hunseen, hkept, hlines⟩ := h
  have hlits : s.literals cr = s₀.literals cr := hunseen cr hnew
  have hvalue : s.value = s₀.value := by
    unfold value
    rw [hsame.assigns]
  have hcond : (!(s.clause cr).deleted && (s.literals cr).any fun p => s.value p == some false) =
      s₀.isCut cr := by
    rw [hkept cr hcr, hlits, hvalue]
    rfl
  unfold cutOff
  simp only [hcond]
  cases hcase : s₀.isCut cr with
  | false =>
    refine ⟨_, rfl, (filter_concat_of_neg hcase done).symm, hinv, hsame, ?_, ?_, hkept, hlines⟩
    · intro cr' hcr'
      rcases List.mem_append.mp hcr' with hcr' | hcr'
      · exact hseen cr' hcr'
      · rw [List.mem_singleton.mp hcr', cut_of_not_isCut hcase]
        exact hlits
    · exact fun cr' hcr' => hunseen cr' fun hmem => hcr' (List.mem_append_left _ hmem)
  | true =>
    have hlive : cr ∉ done.filter s₀.isCut := fun hgone => hnew (List.mem_of_mem_filter hgone)
    obtain ⟨d, dBin, hdetach, hinv'⟩ := hinv.detach (hsame.clauses ▸ hcr) hlive
    simp only [hdetach]
    have hcut : (s.literals cr).filter (fun p => s.value p != some false) = s₀.cut cr := by
      rw [hlits, hvalue]
      rfl
    have hgone : cr ∈ done.filter s₀.isCut ++ [cr] := List.mem_append_right _ List.mem_cons_self
    refine ⟨_, rfl, (filter_concat_of_pos hcase done).symm,
      (hinv'.frame s.reason _).setLiterals hgone _, ?_, ?_, ?_, ?_, ?_⟩
    · exact ⟨hsame.clauses, hsame.assigns, hsame.trail, hsame.qhead, hsame.nVars, hsame.ok⟩
    · intro cr' hcr'
      by_cases he : cr' = cr
      · rw [he, literals_setLiterals_self]
        exact hcut
      · rw [literals_setLiterals_of_ne he]
        refine hseen cr' ((List.mem_append.mp hcr').resolve_right fun hmem => he ?_)
        exact List.mem_singleton.mp hmem
    · intro cr' hcr'
      rw [List.mem_append, List.mem_singleton, not_or] at hcr'
      rw [literals_setLiterals_of_ne hcr'.2]
      exact hunseen cr' hcr'.1
    · intro cr' hcr'
      exact (deleted_setLiterals ..).trans (hkept cr' hcr')
    · intro c hc
      rcases List.mem_append.mp hc with hc | hc
      · exact hlines c hc
      · rcases List.mem_pair.mp hc with he | he
        · cases he
        · rw [(Line.added.inj he).trans hcut]
          exact h₀.rup_cut hcr

theorem cutting (h : Represents F s) : ∃ a, s.clauses.foldlM cutOff ([], s) = .ok a ∧
    Cutting F s s.clauses a := by
  have hstart : Cutting F s [] ([], s) :=
    ⟨rfl, h.inv.invWithout, ⟨rfl, rfl, rfl, rfl, rfl, rfl⟩,
      fun _ hcr => absurd hcr List.not_mem_nil, fun _ _ => rfl,
      fun cr hcr => (h.inv.allocated cr hcr).2, h.lines⟩
  exact foldlM_rule_of_ok h.inv.nodup hstart fun _ _ _ hcr hnew ha => ha.step h hcr hnew

end

/-! ## Replacing clauses that were cut -/

/-- What the second loop of `strengthen` has made of a solver when it has seen
some of the clauses that were cut: these are gone, and what was left of them
has come. The literals that have been visited occur negated in no clause. -/
structure Replacing (F : Multiset (Multiset Lit)) (noted : List Ref) (n : Int) (done : List Ref)
    (s : Solver) : Prop where
  inv : InvWithout s noted
  subset : done ⊆ noted
  residue : Residue F (· ∈ s.trail) fun c => ∃ cr ∈ s.clauses, cr ∉ done ∧ ↑(s.literals cr) = c
  unvisited : ∀ cr ∈ s.clauses, cr ∉ done → ∀ q ∈ s.literals cr, q.not ∉ s.trail.take s.qhead
  deleted : ∀ cr ∈ done, (s.clause cr).deleted = true
  kept : ∀ cr ∈ noted, cr ∉ done → (s.clause cr).deleted = false
  fits : ∀ cr ∈ noted, cr ∉ done →
    (s.literals cr).Nodup ∧ ∀ p ∈ s.literals cr, 0 ≤ var p ∧ var p < n
  nVars : s.nVars = n
  ok : s.ok = true
  lines : ∀ c, Line.added c ∈ s.certificate → Rup F ↑c

section

variable {F : Multiset (Multiset Lit)} {n : Int} {s s' : Solver} {noted done : List Ref} {cr : Ref}
  {p : Lit} {a : List Ref × Solver}

theorem Represents.replacing (h : Represents F s) (hok : s.ok = true)
    (ha : Cutting F s s.clauses a) : Replacing F a.1 s.nVars [] a.2 := by
  have hclauses : ∀ cr, cr ∈ a.2.clauses ↔ cr ∈ s.clauses := fun cr => by rw [ha.same.clauses]
  have hnoted : ∀ cr ∈ a.1, cr ∈ s.clauses := fun cr hcr => (hclauses cr).mp (ha.inv.subset hcr)
  refine ⟨ha.inv, List.nil_subset _, ?_, ?_, fun cr hcr => absurd hcr List.not_mem_nil,
    fun cr hcr _ => ha.kept cr (hnoted cr hcr), ?_, ha.same.nVars, ha.same.ok.trans hok, ha.lines⟩
  · rw [ha.same.trail]
    refine h.residue.step (fun p hp => hp) h.residue.follows ?_ ?_
    · rintro _ ⟨cr, hcr, -, rfl⟩
      have hcr := (hclauses cr).mp hcr
      rw [ha.seen cr hcr]
      refine ⟨_, mem_formula hcr, fun q hq => List.mem_of_mem_filter hq, fun q hq hno => ?_⟩
      refine h.falsified ?_
      by_contra hfalse
      exact hno (List.mem_filter.mpr ⟨hq, bne_iff_ne.mpr hfalse⟩)
    · intro c hc
      obtain ⟨cr, hcr, rfl⟩ := mem_formula_iff.mp hc
      refine .inr ⟨_, ⟨cr, (hclauses cr).mpr hcr, List.not_mem_nil, rfl⟩, ?_⟩
      rw [ha.seen cr hcr]
      exact fun q hq => List.mem_of_mem_filter hq
  · intro cr hcr _ q hq hvisited
    rw [ha.seen cr ((hclauses cr).mp hcr)] at hq
    rw [ha.same.trail] at hvisited
    refine bne_iff_ne.mp (List.mem_filter.mp hq).2 (h.inv.trail.value_false_iff.mpr ?_)
    exact List.mem_of_mem_take hvisited
  · intro cr hcr _
    have hclause := h.inv.clause cr (hnoted cr hcr)
    rw [ha.seen cr (hnoted cr hcr)]
    exact ⟨hclause.nodup.filter _, fun p hp => hclause.vars p (List.mem_of_mem_filter hp)⟩

/-- The clause leaves when what was left of it is there in another way. -/
theorem Replacing.leave (h : Replacing F noted n done s) (hcr : cr ∈ noted)
    (hcovers : (∃ p ∈ s.literals cr, p ∈ s.trail) ∨
      ∃ cr' ∈ s.clauses, cr' ∉ done ∧ cr' ≠ cr ∧ s.literals cr' = s.literals cr)
    (reason : Int → Option Ref) :
    Replacing F noted n (done ++ [cr]) ({ s with reason := reason }.setDeleted cr) := by
  have hstays : ∀ c, c ∉ done ++ [cr] ↔ c ∉ done ∧ c ≠ cr := by
    intro c
    rw [List.mem_append, List.mem_singleton, not_or]
  have hlits := literals_setDeleted { s with reason := reason } cr
  refine ⟨(h.inv.frame reason s.certificate).setDeleted hcr, ?_, ?_, ?_, ?_, ?_, ?_, h.nVars, h.ok,
    h.lines⟩
  · exact List.append_subset.mpr ⟨h.subset, List.cons_subset.mpr ⟨hcr, List.nil_subset _⟩⟩
  · refine h.residue.leave (fun p hp => hp) h.residue.follows ?_ ?_
    · rintro _ ⟨c, hc, hlive, rfl⟩
      rw [hlits]
      exact ⟨c, hc, ((hstays c).mp hlive).1, rfl⟩
    · rintro _ ⟨c, hc, hlive, rfl⟩
      by_cases he : c = cr
      · rw [he]
        refine hcovers.imp_right fun ⟨c', hc', hlive', hne, hsame⟩ => ?_
        refine ⟨c', hc', (hstays c').mpr ⟨hlive', hne⟩, ?_⟩
        rw [hlits]
        exact congrArg _ hsame
      · refine .inr ⟨c, hc, (hstays c).mpr ⟨hlive, he⟩, ?_⟩
        rw [hlits]
        rfl
  · intro c hc hlive
    rw [hlits]
    exact h.unvisited c hc ((hstays c).mp hlive).1
  · intro c hc
    by_cases he : c = cr
    · rw [he, clause_setDeleted_self]
    · rw [clause_setDeleted_of_ne he]
      refine h.deleted c ((List.mem_append.mp hc).resolve_right fun hmem => he ?_)
      exact List.mem_singleton.mp hmem
  · intro c hc hlive
    obtain ⟨hlive, hne⟩ := (hstays c).mp hlive
    rw [clause_setDeleted_of_ne hne]
    exact h.kept c hc hlive
  · intro c hc hlive
    rw [hlits]
    exact h.fits c hc ((hstays c).mp hlive).1

/-- What is left of a clause is a literal without a value. -/
theorem Replacing.enqueued (h : Replacing F noted n done s) (hcr : cr ∈ noted) (hnew : cr ∉ done)
    (hlits : s.literals cr = [p]) (hp : s.value p = none) :
    Replacing F noted n done (s.enqueued p none) := by
  have hvar : 0 ≤ var p ∧ var p < s.nVars := by
    rw [h.nVars]
    refine (h.fits cr hcr hnew).2 p ?_
    rw [hlits]
    exact List.mem_cons_self
  refine ⟨h.inv.enqueued hp hvar none, h.subset, ?_, ?_, h.deleted, h.kept, h.fits, h.nVars, h.ok,
    h.lines⟩
  · refine h.residue.leave (fun q hq => List.mem_append_left _ hq) (fun q hq => ?_)
      (fun c hc => hc) fun c hc => .inr hc
    rcases List.mem_append.mp hq with hq | hq
    · exact h.residue.follows q hq
    · rw [List.mem_singleton.mp hq]
      refine h.residue.unit ⟨cr, h.inv.subset hcr, hnew, ?_⟩
      rw [hlits]
      rfl
  · intro c hc hlive q hq
    show q.not ∉ (s.trail ++ [p]).take s.qhead
    rw [List.take_append_of_le_length h.inv.trail.qhead_le]
    exact h.unvisited c hc hlive q hq

/-- What is left of a clause comes as a new one. -/
theorem Replacing.attach (h : Replacing F noted n done s) (hcr : cr ∈ noted) (hnew : cr ∉ done)
    (htwo : 2 ≤ (s.literals cr).length) (reason : Int → Option Ref) :
    ∃ w wBin, { (s.alloc (s.clause cr)).2 with reason := reason }.attachClause s.allocated =
        .ok { (s.alloc (s.clause cr)).2 with reason := reason, watches := w, watchesBin := wBin } ∧
      Replacing F noted n done { s.added (s.clause cr) with watches := w, watchesBin := wBin } := by
  obtain ⟨hnodup, hvars⟩ := h.fits cr hcr hnew
  have hclause : ClauseOk s.nVars (s.clause cr).literals := ⟨hnodup, htwo, h.nVars ▸ hvars⟩
  obtain ⟨w, wBin, hattach, -, -, hinv⟩ := h.inv.attach hclause (h.kept cr hcr hnew)
  refine ⟨w, wBin, hattach _ literals_added_self rfl rfl, ?_⟩
  have hold : ∀ c ∈ s.clauses, (s.added (s.clause cr)).clause c = s.clause c := fun c hc =>
    clause_added_of_ne (h.inv.ne_allocated hc)
  have hlits : ∀ c ∈ s.clauses, (s.added (s.clause cr)).literals c = s.literals c := fun c hc =>
    congrArg Clause.literals (hold c hc)
  -- no literals are there now that were not there before
  have hsource : ∀ c ∈ (s.added (s.clause cr)).clauses, c ∉ done → ∃ c' ∈ s.clauses,
      c' ∉ done ∧ (s.added (s.clause cr)).literals c = s.literals c' := by
    intro c hc hlive
    rcases mem_clauses_added.mp hc with hc | rfl
    · exact ⟨c, hc, hlive, hlits c hc⟩
    · exact ⟨cr, h.inv.subset hcr, hnew, literals_added_self⟩
  refine ⟨hinv, h.subset, ?_, ?_, ?_, ?_, ?_, h.nVars, h.ok, h.lines⟩
  · refine h.residue.leave (fun q hq => hq) h.residue.follows ?_ ?_
    · rintro _ ⟨c, hc, hlive, rfl⟩
      obtain ⟨c', hc', hlive', hsame⟩ := hsource c hc hlive
      exact ⟨c', hc', hlive', congrArg _ hsame.symm⟩
    · rintro _ ⟨c, hc, hlive, rfl⟩
      exact .inr ⟨c, List.mem_append_left _ hc, hlive, congrArg _ (hlits c hc)⟩
  · intro c hc hlive
    obtain ⟨c', hc', hlive', hsame⟩ := hsource c hc hlive
    show ∀ q ∈ (s.added (s.clause cr)).literals c, _
    rw [hsame]
    exact h.unvisited c' hc' hlive'
  · intro c hc
    exact (congrArg Clause.deleted (hold c (h.inv.subset (h.subset hc)))).trans (h.deleted c hc)
  · intro c hc hlive
    exact (congrArg Clause.deleted (hold c (h.inv.subset hc))).trans (h.kept c hc hlive)
  · intro c hc hlive
    show ((s.added (s.clause cr)).literals c).Nodup ∧ ∀ p ∈ (s.added (s.clause cr)).literals c, _
    rw [hlits c (h.inv.subset hc)]
    exact h.fits c hc hlive

/-- `replaceClause` where a literal is left. -/
theorem replaceClause_unit (hlits : s.literals cr = [p]) : s.replaceClause cr =
    if s.value p = some true then .ok ((s.setReason (var p) none).setDeleted cr)
    else (s.uncheckedEnqueue p none).map (·.setDeleted cr) := by
  unfold replaceClause
  rw [hlits]
  rfl

/-- `replaceClause` where a clause is left. -/
theorem replaceClause_clean (hlits : ∀ p, s.literals cr ≠ [p]) : ∃ reason, s.replaceClause cr =
    (attachClause { (s.alloc (s.clause cr)).2 with reason := reason } s.allocated).map fun t =>
      { t with clauses := t.clauses ++ [s.allocated] }.setDeleted cr := by
  unfold replaceClause
  split
  · exact absurd ‹_› (hlits _)
  · let t := (s.alloc (s.clause cr)).2
    obtain ⟨reason, hreason⟩ := setReason_if t (t.locked cr)
      (var ((s.literals cr).getD 0 lit_Undef)) (some s.allocated)
    refine ⟨reason, ?_⟩
    show ((if t.locked cr then t.setReason _ _ else t).attachClause s.allocated >>= _) = _
    rw [hreason]
    cases attachClause { t with reason := reason } s.allocated <;> rfl

theorem Replacing.refutes (h : Replacing F noted n done s) (hcr : cr ∈ noted) (hnew : cr ∉ done)
    (hfalse : ∀ q ∈ s.literals cr, s.value q = some false) : Rup F 0 := by
  refine h.residue.refutes ⟨cr, h.inv.subset hcr, hnew, rfl⟩ fun q hq => ?_
  have hfollows := h.residue.follows q.not (h.inv.trail.value_false_iff.mp (hfalse q hq))
  rwa [show - q.not = q from lit_not_not q] at hfollows

theorem Replacing.step (h : Replacing F noted n done s) (hcr : cr ∈ noted) (hnew : cr ∉ done) :
    (∃ s', s.replaceClause cr = .ok s' ∧ Replacing F noted n (done ++ [cr]) s') ∨
      ∃ e, s.replaceClause cr = .error e ∧ e = Abort.assertion ∧ Rup F 0 := by
  by_cases hone : ∃ p, s.literals cr = [p]
  · obtain ⟨p, hlits⟩ := hone
    have hmem : p ∈ s.literals cr := hlits ▸ List.mem_cons_self
    rw [replaceClause_unit hlits]
    cases hvalue : s.value p with
    | none =>
      have henqueued := h.enqueued hcr hnew hlits hvalue
      rw [if_neg (Option.some_ne_none true).symm, uncheckedEnqueue, if_pos hvalue]
      refine .inl ⟨_, rfl, henqueued.leave hcr (.inl ⟨p, hmem, ?_⟩) _⟩
      exact List.mem_append_right _ List.mem_cons_self
    | some b =>
      cases b with
      | true =>
        rw [if_pos rfl]
        exact .inl ⟨_, rfl, h.leave hcr (.inl ⟨p, hmem, (h.inv.trail.value_iff p).mp hvalue⟩) _⟩
      | false =>
        rw [if_neg (by decide), uncheckedEnqueue, hvalue, if_neg (by decide)]
        refine .inr ⟨.assertion, rfl, rfl, h.refutes hcr hnew ?_⟩
        rw [hlits]
        exact List.forall_mem_singleton.mpr hvalue
  · obtain ⟨reason, hrun⟩ := replaceClause_clean fun p hp => hone ⟨p, hp⟩
    rw [hrun]
    by_cases hempty : s.literals cr = []
    · refine .inr ⟨.assertion, ?_, rfl, h.refutes hcr hnew ?_⟩
      · have hself : literals { (s.alloc (s.clause cr)).2 with reason := reason } s.allocated =
            [] := literals_added_self.trans hempty
        rw [attachClause, hself]
        rfl
      · rw [hempty]
        exact fun q hq => absurd hq List.not_mem_nil
    · have htwo : 2 ≤ (s.literals cr).length := by
        rcases hlits : s.literals cr with _ | ⟨a, _ | ⟨b, rest⟩⟩
        · exact absurd hlits hempty
        · exact absurd ⟨a, hlits⟩ hone
        · exact Nat.le_add_left 2 _
      obtain ⟨w, wBin, hattach, ht⟩ := h.attach hcr hnew htwo reason
      rw [hattach]
      refine .inl ⟨_, rfl, ht.leave hcr (.inr ⟨s.allocated, ?_, ?_, ?_, ?_⟩) reason⟩
      · exact List.mem_append_right _ List.mem_cons_self
      · exact fun hmem => h.inv.allocated_notMem (h.subset hmem)
      · exact (h.inv.ne_allocated (h.inv.subset hcr)).symm
      · refine literals_added_self.trans ?_
        exact (literals_added_of_ne (h.inv.ne_allocated (h.inv.subset hcr))).symm

theorem Replacing.loop (h : Replacing F noted n [] s) (hnodup : noted.Nodup) :
    (∃ s', noted.foldlM replaceClause s = .ok s' ∧ Replacing F noted n noted s') ∨
      ∃ e, noted.foldlM replaceClause s = .error e ∧ e = Abort.assertion ∧ Rup F 0 :=
  foldlM_rule hnodup h fun _ _ _ hcr hnew ht => ht.step hcr hnew

/-- At the end of the loop no clause has the negation of a literal that has
been visited, and so no watcher is left to visit. -/
theorem Replacing.collected (h : Replacing F noted n noted s) :
    Represents F s.cleanAll.freeMarkedClauses ∧ s.cleanAll.freeMarkedClauses.Settled := by
  obtain ⟨hinv, hmem⟩ := h.inv.collect h.deleted
  refine ⟨⟨hinv, ?_, h.lines⟩, ?_⟩
  · have hformula : (· ∈ s.cleanAll.freeMarkedClauses.formula) = fun c : Multiset Lit =>
        ∃ cr ∈ s.clauses, cr ∉ noted ∧ ↑(s.literals cr) = c := by
      funext c
      refine propext (mem_formula_iff.trans (exists_congr fun cr => ?_))
      rw [hmem, and_assoc]
      rfl
    show Residue F (· ∈ s.trail) (· ∈ s.cleanAll.freeMarkedClauses.formula)
    rw [hformula]
    exact h.residue
  · have hvisited : ∀ p ∈ s.trail.take s.qhead, ∀ cr ∈ s.cleanAll.freeMarkedClauses.clauses,
        p.not ∉ s.literals cr := by
      intro p hp cr hcr hq
      obtain ⟨hcr, hlive⟩ := (hmem cr).mp hcr
      refine h.unvisited cr hcr hlive p.not hq ?_
      rwa [lit_not_not]
    refine fun p hp => ⟨fun w hw => ?_, fun w hw => ?_⟩
    · obtain ⟨hlong, hwatch, -⟩ := hinv.long.sound p w hw
      exact absurd (List.mem_of_mem_take hwatch) (hvisited p hp w.cref hlong.1)
    · obtain ⟨hbinary, hwatch, -⟩ := hinv.binary.sound p w hw
      exact absurd (List.mem_of_mem_take hwatch) (hvisited p hp w.cref hbinary.1)

/-- Nothing is left to propagate. -/
def Done (s : Solver) : Prop := s.Settled ∧ s.qhead = s.trail.length

theorem strengthen_spec (h : Represents F s) (hok : s.ok = true) :
    Outcome F Done s.strengthen := by
  obtain ⟨⟨noted, t⟩, hcut, ht⟩ := cutting h
  have hnodup : noted.Nodup := by
    rw [show noted = s.clauses.filter s.isCut from ht.noted]
    exact h.inv.nodup.filter _
  unfold strengthen
  rw [hcut]
  show Outcome _ _ (noted.foldlM replaceClause t >>= _)
  rcases (h.replacing hok ht).loop hnodup with ⟨u, hloop, hu⟩ | ⟨e, he, rfl, hrup⟩
  · obtain ⟨hrep, hsettled⟩ := hu.collected
    obtain ⟨confl, v, hrun, hv, -, -, hconfl, hnone⟩ := hrep.propagate
    rw [hloop]
    show Outcome _ _ (u.cleanAll.freeMarkedClauses.propagate >>= _)
    rw [hrun]
    cases confl with
    | some cr => exact .refuted rfl (hconfl rfl)
    | none =>
      obtain ⟨hqhead, hs⟩ := hnone rfl
      exact .stands rfl ⟨hs hsettled, hqhead⟩ (hv.frame _ _)
  · rw [he]
    exact .failed hrup

end

end Solver

end reductor.candy
