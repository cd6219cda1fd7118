-- Candy's solver takes in clauses and removes those that are satisfied. What
-- it says of the variables stays what the clauses say that it has taken in.
import Reductor.Candy.Propagation

open reductor.drup

namespace reductor.candy

/-! ## Loops that may fail -/

section

variable {σ ε α : Type} {f : σ → α → Except ε σ} {I : List α → σ → Prop} {E : ε → Prop} {s : σ}

theorem foldlM_rest (done rest : List α) (h : I done s)
    (hstep : ∀ front a back s, done ++ rest = front ++ a :: back → I front s →
      (∃ s', f s a = .ok s' ∧ I (front ++ [a]) s') ∨ ∃ e, f s a = .error e ∧ E e) :
    (∃ s', rest.foldlM f s = .ok s' ∧ I (done ++ rest) s') ∨
      ∃ e, rest.foldlM f s = .error e ∧ E e := by
  induction rest generalizing done s with
  | nil => exact .inl ⟨s, rfl, by rwa [List.append_nil]⟩
  | cons a rest ih =>
    rw [List.foldlM_cons]
    rcases hstep done a rest s rfl h with ⟨s', hs', h'⟩ | ⟨e, he, hE⟩
    · rw [hs', List.append_cons]
      refine ih (done ++ [a]) h' fun front b back t hlist ht => ?_
      exact hstep front b back t ((List.append_cons ..).trans hlist) ht
    · rw [he]
      exact .inr ⟨e, rfl, hE⟩

/-- The rule for a loop over a list without repetitions: what each turn keeps
holds at the end, or else some turn has failed. -/
theorem foldlM_rule {l : List α} (hnodup : l.Nodup) (h : I [] s)
    (hstep : ∀ done a s, a ∈ l → a ∉ done → I done s →
      (∃ s', f s a = .ok s' ∧ I (done ++ [a]) s') ∨ ∃ e, f s a = .error e ∧ E e) :
    (∃ s', l.foldlM f s = .ok s' ∧ I l s') ∨ ∃ e, l.foldlM f s = .error e ∧ E e := by
  refine foldlM_rest [] l h fun front a back t hlist ht => ?_
  rw [List.nil_append] at hlist
  rw [hlist, List.nodup_middle, List.nodup_cons] at hnodup
  refine hstep front a t ?_ (fun ha => hnodup.1 (List.mem_append_left _ ha)) ht
  rw [hlist]
  exact List.mem_append_right _ List.mem_cons_self

/-- The same for a loop of which no turn fails. -/
theorem foldlM_rule_of_ok {l : List α} (hnodup : l.Nodup) (h : I [] s)
    (hstep : ∀ done a s, a ∈ l → a ∉ done → I done s →
      ∃ s', f s a = .ok s' ∧ I (done ++ [a]) s') : ∃ s', l.foldlM f s = .ok s' ∧ I l s' := by
  have hrule := foldlM_rule (E := fun _ => False) hnodup h fun done a t ha hnew ht =>
    .inl (hstep done a t ha hnew ht)
  exact hrule.resolve_right fun ⟨_, _, hno⟩ => hno

theorem filter_concat_of_pos {p : α → Bool} {a : α} (h : p a = true) (l : List α) :
    (l ++ [a]).filter p = l.filter p ++ [a] := by
  rw [List.filter_append, List.filter_cons_of_pos h, List.filter_nil]

theorem filter_concat_of_neg {p : α → Bool} {a : α} (h : p a = false) (l : List α) :
    (l ++ [a]).filter p = l.filter p := by
  rw [List.filter_append, List.filter_cons_of_neg (Bool.eq_false_iff.mp h), List.filter_nil,
    List.append_nil]

end

namespace Solver

/-! ## What a solver stands for -/

/-- What the trail and the clauses say is what the formula says, up to unit
propagation, and so is what the certificate adds. -/
structure Represents (F : Multiset (Multiset Lit)) (s : Solver) : Prop where
  inv : Inv s
  residue : Residue F (· ∈ s.trail) (· ∈ s.formula)
  lines : ∀ c, Line.added c ∈ s.certificate → Rup F ↑c

section

variable {F G : Multiset (Multiset Lit)} {s s' : Solver} {p : Lit} {cr : Ref} {c : Cl}

theorem mem_formula_iff {c : Multiset Lit} :
    c ∈ s.formula ↔ ∃ cr ∈ s.clauses, ↑(s.literals cr) = c := List.mem_map

theorem Represents.falsified (h : Represents F s) (hp : s.value p = some false) :
    Falsified F 0 p := by
  have hfollows := h.residue.follows p.not (h.inv.trail.value_false_iff.mp hp)
  rwa [show - p.not = p from lit_not_not p] at hfollows

/-- Reasons and the result say nothing about what the solver stands for. -/
theorem Represents.frame (h : Represents F s) (reason : Int → Option Ref) (ok : Bool) :
    Represents F { s with reason := reason, ok := ok } :=
  ⟨⟨⟨h.inv.trail.vars, h.inv.trail.nodup, h.inv.trail.value_iff, h.inv.trail.qhead_le⟩,
    h.inv.clause, h.inv.allocated, h.inv.nodup, h.inv.long, h.inv.binary, h.inv.clean⟩,
    h.residue, h.lines⟩

theorem Represents.advances (h : Represents F s) (hadv : s.Advances s') : Represents F s' := by
  refine ⟨hadv.inv, ?_, ?_⟩
  · rw [hadv.formula_eq]
    refine h.residue.leave (fun p hp => hadv.trail.subset hp) (fun p hp => ?_) (fun c hc => hc)
      fun c hc => .inr hc
    refine h.residue.falsified (fun _ hc => hc) (fun q hq => ?_) (hadv.follows p hp)
    exact h.falsified (h.inv.trail.value_false_iff.mpr (mem_falseLits.mp hq))
  · rw [hadv.certificate]
    exact h.lines

theorem Represents.refutes (h : Represents F s) (hcr : s.Conflict cr) : Rup F 0 :=
  h.residue.refutes (mem_formula hcr.1) fun q hq => h.falsified (hcr.2 q hq)

theorem Represents.propagate (h : Represents F s) : ∃ confl s', s.propagate = .ok (confl, s') ∧
    Represents F s' ∧ s'.nVars = s.nVars ∧ s'.ok = s.ok ∧ (confl.isSome → Rup F 0) ∧
    (confl = none → s'.qhead = s'.trail.length ∧ (s.Settled → s'.Settled)) := by
  obtain ⟨confl, t, hrun, hadv, hconfl, hnone⟩ := propagate_spec h.inv
  have ht := h.advances hadv
  refine ⟨confl, t, hrun, ht, hadv.nVars, hadv.ok, fun hsome => ?_, hnone⟩
  obtain ⟨cr, hcr⟩ := Option.isSome_iff_exists.mp hsome
  exact ht.refutes (hconfl cr hcr)

end

/-! ## Adding clauses -/

/-- What an operation on a solver comes to: a solver that stands for the
formula, or the news that unit propagation refutes it, which may make an
assertion fail. -/
inductive Outcome (F : Multiset (Multiset Lit)) (P : Solver → Prop) : Except Abort Solver → Prop
  | stands {s : Solver} : s.ok = true → P s → Represents F s → Outcome F P (.ok s)
  | refuted {s : Solver} : s.ok = false → Rup F 0 → Outcome F P (.ok s)
  | failed : Rup F 0 → Outcome F P (.error .assertion)

section

variable {F G : Multiset (Multiset Lit)} {P Q : Solver → Prop} {s : Solver} {p : Lit} {c : Cl}
  {cs : List Cl}

/-- The rule for an operation that is made when the one before was not the last. -/
theorem Outcome.next {r : Except Abort Solver} (h : Outcome F P r) (hle : F ≤ G)
    {f : Solver → Except Abort Solver}
    (hf : ∀ t, t.ok = true → P t → Represents F t → Outcome G Q (f t)) :
    Outcome G Q (r >>= fun t => if t.ok then f t else pure t) := by
  cases h with
  | @stands t hok hP ht =>
    show Outcome G Q (if t.ok then f t else pure t)
    rw [if_pos hok]
    exact hf t hok hP ht
  | @refuted t hok hrup =>
    show Outcome G Q (if t.ok then f t else pure t)
    rw [hok]
    exact .refuted hok (hrup.mono hle)
  | failed hrup => exact .failed (hrup.mono hle)

/-- The clause of a literal that has no value. -/
theorem Represents.enqueued (h : Represents F s) (hp : s.value p = none)
    (hvar : 0 ≤ var p ∧ var p < s.nVars) :
    Represents ({p} ::ₘ F) (s.enqueued p none) := by
  refine ⟨(h.inv.invWithout.enqueued hp hvar none).inv h.inv.clean, ?_, ?_⟩
  · have hmem : p ∈ (s.enqueued p none).trail := List.mem_append_right _ List.mem_cons_self
    refine h.residue.cons (fun q hq => List.mem_append_left _ hq) (fun c hc => hc)
      (fun q hq => ?_) (fun c hc => .inl hc) (.inl ⟨p, Multiset.mem_singleton_self p, hmem⟩)
    refine (List.mem_append.mp hq).imp_right fun hq => ?_
    rw [List.mem_singleton.mp hq]
  · exact fun c hc => (h.lines c hc).mono (Multiset.le_cons_self _ _)

/-- The clause of a literal that is true. -/
theorem Represents.satisfied (h : Represents F s) (hp : s.value p = some true) :
    Represents ({p} ::ₘ F) s := by
  refine ⟨h.inv, ?_, ?_⟩
  · exact h.residue.cons (fun q hq => hq) (fun c hc => hc) (fun q hq => .inl hq)
      (fun c hc => .inl hc) (.inl ⟨p, Multiset.mem_singleton_self p,
        (h.inv.trail.value_iff p).mp hp⟩)
  · exact fun c hc => (h.lines c hc).mono (Multiset.le_cons_self _ _)

theorem formula_added (h : Inv s) (c : Clause) :
    (s.added c).formula = ↑c.literals ::ₘ s.formula := by
  have hold : s.clauses.map (fun cr => (↑((s.added c).literals cr) : Multiset Lit)) =
      s.clauses.map fun cr => ↑(s.literals cr) := List.map_congr_left fun cr hcr =>
    congrArg _ (literals_added_of_ne (h.invWithout.ne_allocated hcr))
  show ((s.clauses ++ [s.allocated]).map fun cr => (↑((s.added c).literals cr) : Multiset Lit) :
    Multiset (Multiset Lit)) = _
  rw [List.map_append, hold, ← Multiset.coe_add, List.map_singleton, literals_added_self, add_comm]
  rfl

/-- A clause of two literals or more is watched. -/
theorem Represents.attach (h : Represents F s) (hc : ClauseOk s.nVars c) :
    ∃ s', (s.added ⟨c, false⟩).attachClause s.allocated = .ok s' ∧
      Represents (↑c ::ₘ F) s' ∧ s'.nVars = s.nVars ∧ s'.ok = s.ok := by
  obtain ⟨w, wBin, hattach, hd, hdBin, hinv⟩ :=
    h.inv.invWithout.attach (c := ⟨c, false⟩) hc rfl
  refine ⟨_, hattach _ literals_added_self rfl rfl, ⟨hinv.inv ?_, ?_, ?_⟩, rfl, rfl⟩
  · exact ⟨hd.trans h.inv.clean.1, hdBin.trans h.inv.clean.2⟩
  · show Residue (↑c ::ₘ F) (· ∈ s.trail) (· ∈ (s.added ⟨c, false⟩).formula)
    rw [formula_added h.inv]
    exact h.residue.cons (fun q hq => hq) (fun d hd => Multiset.mem_cons_of_mem hd)
      (fun q hq => .inl hq) (fun d hd => (Multiset.mem_cons.mp hd).symm)
      (.inr (Multiset.mem_cons_self _ _))
  · exact fun d hd => (h.lines d hd).mono (Multiset.le_cons_self _ _)

/-- What the solver asks of a clause: its literals are there once, have a
variable of the solver, and fit into the memory of a clause. -/
structure Fits (n : Int) (c : Cl) : Prop where
  nodup : c.Nodup
  vars : ∀ p ∈ c, 0 ≤ var p ∧ var p < n
  short : c.length < 2 ^ 16

theorem Represents.addClause (h : Represents F s) (hok : s.ok = true) (hc : Fits s.nVars c) :
    Outcome (↑c ::ₘ F) (·.nVars = s.nVars) (s.addClause c) := by
  cases c with
  | nil =>
    refine .refuted rfl ⟨0, Multiset.mem_cons_self _ _, fun p hp => ?_⟩
    exact absurd hp (Multiset.notMem_zero p)
  | cons p rest =>
    cases rest with
    | nil =>
      rw [addClause]
      cases hvalue : s.value p with
      | none =>
        have henqueued := h.enqueued hvalue (hc.vars p List.mem_cons_self)
        obtain ⟨confl, t, hrun, ht, hn, -, hconfl, -⟩ := henqueued.propagate
        simp only [uncheckedEnqueue, if_pos hvalue]
        show Outcome _ _ ((s.enqueued p none).propagate >>= _)
        rw [hrun]
        cases confl with
        | none => exact .stands rfl hn (ht.frame _ _)
        | some cr => exact .refuted rfl (hconfl rfl)
      | some b =>
        cases b with
        | true => exact .stands hok rfl ((h.satisfied hvalue).frame _ _)
        | false =>
          refine .refuted rfl ⟨{p}, Multiset.mem_cons_self _ _, fun q hq => ?_⟩
          rw [Multiset.mem_singleton.mp hq]
          exact (h.falsified hvalue).mono (Multiset.le_cons_self _ _)
    | cons q rest =>
      have hclause : ClauseOk s.nVars (p :: q :: rest) :=
        ⟨hc.nodup, Nat.le_add_left 2 _, hc.vars⟩
      obtain ⟨t, hrun, ht, hn, htok⟩ := h.attach hclause
      have hfits : Clause.ofLits (p :: q :: rest) = ⟨p :: q :: rest, false⟩ := by
        rw [Clause.ofLits, Nat.mod_eq_of_lt hc.short, List.take_length]
      show Outcome _ _ ((s.added (Clause.ofLits (p :: q :: rest))).attachClause s.allocated)
      rw [hfits, hrun]
      exact .stands (htok.trans hok) hn ht

/-- The clauses of a problem as a formula. -/
def formulaOf (cs : List Cl) : Multiset (Multiset Lit) := ↑(cs.map fun c => (↑c : Multiset Lit))

theorem addAll_spec (h : Represents F s) (hok : s.ok = true) (hcs : ∀ c ∈ cs, Fits s.nVars c) :
    Outcome (formulaOf cs + F) (·.nVars = s.nVars) (addAll cs s) := by
  induction cs generalizing F s with
  | nil =>
    refine .stands hok rfl ?_
    rwa [show formulaOf [] + F = F from zero_add F]
  | cons c cs ih =>
    obtain ⟨hc, hcs⟩ := List.forall_mem_cons.mp hcs
    have hformula : formulaOf (c :: cs) + F = formulaOf cs + (↑c ::ₘ F) :=
      (Multiset.cons_add (c : Multiset Lit) (formulaOf cs) F).trans (Multiset.add_cons ..).symm
    rw [hformula, addAll]
    refine (h.addClause hok hc).next (Multiset.le_add_left _ _) fun t htok hn ht => ?_
    have hadd := ih ht htok (hn ▸ hcs)
    rwa [hn] at hadd

end

/-! ## Removing clauses that are satisfied -/

/-- What is the same in two solvers that differ in their lists and in what
their clauses hold. -/
structure Same (s s' : Solver) : Prop where
  clauses : s'.clauses = s.clauses
  assigns : s'.assigns = s.assigns
  trail : s'.trail = s.trail
  qhead : s'.qhead = s.qhead
  nVars : s'.nVars = s.nVars
  ok : s'.ok = s.ok

/-- What the loop of `simplify` has made of a solver when it has seen some of
its clauses: those that are satisfied are gone. -/
structure Removing (s₀ : Solver) (done : List Ref) (s : Solver) : Prop where
  inv : InvWithout s (done.filter s₀.satisfied)
  same : Same s₀ s
  literals : s.literals = s₀.literals
  deleted : ∀ cr ∈ done.filter s₀.satisfied, (s.clause cr).deleted = true
  lines : ∀ c, Line.added c ∈ s.certificate → Line.added c ∈ s₀.certificate

section

variable {F : Multiset (Multiset Lit)} {s₀ s s' s'' : Solver} {gone done rest : List Ref} {cr : Ref}

theorem Same.trans (h : Same s s') (h' : Same s' s'') : Same s s'' :=
  ⟨h'.clauses.trans h.clauses, h'.assigns.trans h.assigns, h'.trail.trans h.trail,
    h'.qhead.trans h.qhead, h'.nVars.trans h.nVars, h'.ok.trans h.ok⟩

theorem InvWithout.frame (h : InvWithout s gone) (reason : Int → Option Ref)
    (certificate : List (Line Lit)) :
    InvWithout { s with reason := reason, certificate := certificate } gone :=
  ⟨⟨h.trail.vars, h.trail.nodup, h.trail.value_iff, h.trail.qhead_le⟩, h.clause, h.allocated,
    h.kept, h.nodup, h.subset, h.long, h.binary, h.dirty, h.dirtyBin⟩

theorem clause_setDeleted_self (s : Solver) (cr : Ref) :
    (s.setDeleted cr).clause cr = ⟨s.literals cr, true⟩ := Function.update_self ..

theorem clause_setDeleted_of_ne {cr' : Ref} (h : cr' ≠ cr) :
    (s.setDeleted cr).clause cr' = s.clause cr' := Function.update_of_ne h ..

theorem literals_setDeleted (s : Solver) (cr : Ref) : (s.setDeleted cr).literals = s.literals := by
  funext cr'
  by_cases he : cr' = cr
  · show ((s.setDeleted cr).clause cr').literals = _
    rw [he, clause_setDeleted_self]
  · exact congrArg Clause.literals (clause_setDeleted_of_ne he)

/-- A clause is marked as deleted. -/
theorem InvWithout.setDeleted (h : InvWithout s gone) (hcr : cr ∈ gone) :
    InvWithout (s.setDeleted cr) gone := by
  refine h.forget fun c hc => clause_setDeleted_of_ne ?_
  rintro rfl
  exact hc hcr

theorem setReason_if (s : Solver) (b : Bool) (x : Int) (cr : Option Ref) :
    ∃ reason, (if b then s.setReason x cr else s) = { s with reason := reason } := by
  cases b with
  | true => exact ⟨_, rfl⟩
  | false => exact ⟨_, rfl⟩

theorem removeClause_spec (h : InvWithout s gone) (hcr : cr ∈ s.clauses) (hlive : cr ∉ gone) :
    ∃ s', s.removeClause cr = .ok s' ∧ InvWithout s' (gone ++ [cr]) ∧ Same s s' ∧
      s'.clause = (s.setDeleted cr).clause ∧
      s'.certificate = s.certificate ++ [Line.removed (s.literals cr)] := by
  let t : Solver := { s with certificate := s.certificate ++ [Line.removed (s.literals cr)] }
  have ht : InvWithout t gone := h.frame s.reason _
  obtain ⟨d, dBin, hdetach, hinv⟩ := ht.detach hcr hlive
  let u : Solver := { t with
    watches := { t.watches with dirties := d }
    watchesBin := { t.watchesBin with dirties := dBin } }
  obtain ⟨reason, hreason⟩ := setReason_if u (u.locked cr)
    (var ((s.literals cr).getD 0 lit_Undef)) none
  refine ⟨{ u with reason := reason }.setDeleted cr, ?_, ?_, ?_, rfl, rfl⟩
  · unfold removeClause
    show (t.detachClause cr >>= _) = _
    rw [hdetach]
    show Except.ok ((if u.locked cr then u.setReason _ none else u).setDeleted cr) = _
    rw [hreason]
  · exact InvWithout.setDeleted (hinv.frame reason _)
      (List.mem_append_right _ List.mem_cons_self)
  · exact ⟨rfl, rfl, rfl, rfl, rfl, rfl⟩

theorem Removing.step (h : Removing s₀ done s) (hcr : cr ∈ s₀.clauses) (hnew : cr ∉ done) :
    ∃ s', (if s.satisfied cr then s.removeClause cr else pure s) = .ok s' ∧
      Removing s₀ (done ++ [cr]) s' := by
  have hsat : s.satisfied cr = s₀.satisfied cr := by
    unfold satisfied value
    rw [h.literals, h.same.assigns]
  rw [hsat]
  cases hcase : s₀.satisfied cr with
  | false =>
    have hfilter := filter_concat_of_neg hcase done
    refine ⟨s, rfl, ?_, h.same, h.literals, ?_, h.lines⟩
    · rw [hfilter]
      exact h.inv
    · rw [hfilter]
      exact h.deleted
  | true =>
    have hfilter := filter_concat_of_pos hcase done
    have hlive : cr ∉ done.filter s₀.satisfied := fun hgone => hnew (List.mem_of_mem_filter hgone)
    obtain ⟨t, hrun, hinv, hsame, hclause, hcertificate⟩ :=
      removeClause_spec h.inv (h.same.clauses ▸ hcr) hlive
    refine ⟨t, hrun, hfilter ▸ hinv, h.same.trans hsame, ?_, ?_, ?_⟩
    · refine Eq.trans ?_ ((literals_setDeleted s cr).trans h.literals)
      exact congrArg (fun memory cr' => (memory cr').literals) hclause
    · intro cr' hcr'
      rw [hfilter] at hcr'
      rw [hclause]
      by_cases he : cr' = cr
      · rw [he, clause_setDeleted_self]
      · rw [clause_setDeleted_of_ne he]
        refine h.deleted cr' ((List.mem_append.mp hcr').resolve_right fun hmem => he ?_)
        exact List.mem_singleton.mp hmem
    · intro c hc
      rw [hcertificate] at hc
      refine h.lines c ((List.mem_append.mp hc).resolve_right fun hmem => ?_)
      cases List.mem_singleton.mp hmem

theorem removing (h : Inv s) : ∃ s', s.clauses.foldlM (fun s cr =>
    if s.satisfied cr then s.removeClause cr else pure s) s = .ok s' ∧
      Removing s s.clauses s' := by
  have hstart : Removing s [] s :=
    ⟨h.invWithout, ⟨rfl, rfl, rfl, rfl, rfl, rfl⟩, rfl, fun _ hcr => absurd hcr List.not_mem_nil,
      fun _ hc => hc⟩
  exact foldlM_rule_of_ok h.nodup hstart fun _ _ _ hcr hnew ht => ht.step hcr hnew

theorem satisfied_eq_true_iff (h : TrailOk s) :
    s.satisfied cr = true ↔ ∃ p ∈ s.literals cr, p ∈ s.trail := by
  unfold satisfied
  rw [List.any_eq_true]
  refine exists_congr fun p => and_congr_right fun _ => ?_
  rw [beq_iff_eq, h.value_iff]

theorem Represents.removed (h : Represents F s) (hr : Removing s s.clauses s') :
    Represents F s'.cleanAll.freeMarkedClauses := by
  obtain ⟨hinv, hmem⟩ := hr.inv.collect hr.deleted
  have hmem : ∀ cr, cr ∈ s'.cleanAll.freeMarkedClauses.clauses ↔
      cr ∈ s.clauses ∧ s.satisfied cr = false := by
    intro cr
    rw [hmem, hr.same.clauses, List.mem_filter]
    cases s.satisfied cr <;> simp
  refine ⟨hinv, ?_, fun c hc => h.lines c (hr.lines c hc)⟩
  show Residue F (· ∈ s'.trail) (· ∈ s'.cleanAll.freeMarkedClauses.formula)
  rw [hr.same.trail]
  have hlits : s'.cleanAll.freeMarkedClauses.literals = s.literals := hr.literals
  refine h.residue.leave (fun p hp => hp) h.residue.follows ?_ ?_
  · intro c hc
    obtain ⟨cr, hcr, rfl⟩ := mem_formula_iff.mp hc
    rw [hlits]
    exact mem_formula ((hmem cr).mp hcr).1
  · intro c hc
    obtain ⟨cr, hcr, rfl⟩ := mem_formula_iff.mp hc
    cases hsat : s.satisfied cr with
    | true => exact .inl ((satisfied_eq_true_iff h.inv.trail).mp hsat)
    | false =>
      refine .inr (mem_formula_iff.mpr ⟨cr, (hmem cr).mpr ⟨hcr, hsat⟩, ?_⟩)
      rw [hlits]

theorem simplify_spec (h : Represents F s) (hok : s.ok = true) :
    Outcome F (fun _ => True) s.simplify := by
  obtain ⟨confl, t, hrun, ht, -, htok, hconfl, -⟩ := h.propagate
  unfold simplify
  rw [if_pos hok]
  show Outcome _ _ (s.propagate >>= _)
  rw [hrun]
  cases confl with
  | some cr => exact .refuted rfl (hconfl rfl)
  | none =>
    obtain ⟨u, hloop, hr⟩ := removing ht.inv
    show Outcome _ _ (t.clauses.foldlM _ t >>= fun (s : Solver) =>
      Except.ok s.cleanAll.freeMarkedClauses)
    rw [hloop]
    exact .stands (hr.same.ok.trans (htok.trans hok)) trivial (ht.removed hr)

end

end Solver

end reductor.candy
