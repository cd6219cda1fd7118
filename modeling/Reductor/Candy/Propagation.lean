-- Unit propagation through two watched literals. The watchers that move from
-- list to list always watch the first two literals of each clause, so
-- `propagate` finds all literals that follow by unit propagation, and no others.
import Reductor.Candy.Removal

open reductor.drup

namespace reductor.candy

namespace Solver

/-! ## The literals of a clause -/

section

variable {c rest : Cl} {first q r : Lit} {k : Nat}

/-- The clause in the order in which the second literal is `q`. -/
structure Turned (c : Cl) (q first : Lit) (rest : Cl) : Prop where
  perm : (first :: q :: rest).Perm c
  mem_take : ∀ r, r ∈ c.take 2 ↔ r = first ∨ r = q

theorem swap_one (h : rest[k]? = some r) :
    swap (first :: q :: rest) 1 (k + 2) = first :: r :: rest.set k q := by
  have hget : rest.getD k lit_Undef = r := by
    rw [List.getD_eq_getElem?_getD, h, Option.getD_some]
  show first :: rest.getD k lit_Undef :: rest.set k q = _
  rw [hget]

theorem perm_swap_one (h : rest[k]? = some r) :
    (first :: r :: rest.set k q).Perm (first :: q :: rest) := by
  have hperm := List.getD_set_perm_cons rest k q
  rw [h, Option.getD_some] at hperm
  exact hperm.cons first

/-- Looking at a watched literal, `propagate` puts it second. -/
theorem exists_turned (hnodup : c.Nodup) (hlength : 2 ≤ c.length) (hq : q ∈ c.take 2) :
    ∃ first rest, (if c.getD 0 lit_Undef = q then swap c 0 1 else c) = first :: q :: rest ∧
      Turned c q first rest := by
  cases c with
  | nil => cases hq
  | cons a c =>
    cases c with
    | nil => exact absurd hlength (Nat.not_succ_le_self 1)
    | cons b rest =>
      by_cases ha : a = q
      · subst ha
        refine ⟨b, rest, if_pos rfl, .swap a b rest, fun r => ?_⟩
        rw [or_comm]
        exact List.mem_pair
      · have hb : q = b := (List.mem_pair.mp hq).resolve_left (Ne.symm ha)
        subst hb
        exact ⟨a, rest, if_neg ha, .refl _, fun r => List.mem_pair⟩

end

/-! ## What propagation keeps -/

instance : Neg Lit := ⟨Lit.not⟩

/-- The clauses of the solver as a formula. -/
def formula (s : Solver) : Multiset (Multiset Lit) :=
  ↑(s.clauses.map fun cr => (↑(s.literals cr) : Multiset Lit))

/-- The literals of which the trail says that they are false. -/
def falseLits (s : Solver) : Multiset Lit := ↑(s.trail.map Lit.not)

/-- The watchers that the literal has to visit have been visited. -/
def SettledAt (s : Solver) (p : Lit) : Prop :=
  (∀ w ∈ s.watches.occs p, s.value w.blocker = some true) ∧
    ∀ w ∈ s.watchesBin.occs p, s.value w.blocker = some true

/-- All literals of the clause are false. -/
def Conflict (s : Solver) (cr : Ref) : Prop :=
  cr ∈ s.clauses ∧ ∀ q ∈ s.literals cr, s.value q = some false

/-- What propagation makes of a solver: the trail grows by literals that
follow by unit propagation, and nothing else changes that counts. -/
structure Advances (s s' : Solver) : Prop where
  inv : Inv s'
  perm : ∀ cr, (s'.literals cr).Perm (s.literals cr)
  trail : s.trail <+: s'.trail
  follows : ∀ p ∈ s'.trail, Falsified s.formula s.falseLits p.not
  settled : ∀ p ∈ s.trail, s.SettledAt p → s'.SettledAt p
  watchesBin : s'.watchesBin = s.watchesBin
  clauses : s'.clauses = s.clauses
  allocated : s'.allocated = s.allocated
  nVars : s'.nVars = s.nVars
  certificate : s'.certificate = s.certificate
  ok : s'.ok = s.ok

section

variable {s s' s'' : Solver} {p q : Lit} {cr : Ref}

theorem mem_falseLits : p ∈ s.falseLits ↔ p.not ∈ s.trail := by
  rw [falseLits, Multiset.mem_coe]
  constructor
  · intro hp
    obtain ⟨q, hq, rfl⟩ := List.mem_map.mp hp
    rwa [lit_not_not]
  · intro hp
    exact List.mem_map.mpr ⟨_, hp, lit_not_not p⟩

theorem formula_eq_of_perm (hclauses : s'.clauses = s.clauses)
    (hperm : ∀ cr, (s'.literals cr).Perm (s.literals cr)) : s'.formula = s.formula := by
  unfold formula
  rw [hclauses]
  exact congrArg _ (List.map_congr_left fun cr _ => Multiset.coe_eq_coe.mpr (hperm cr))

theorem mem_formula (h : cr ∈ s.clauses) : (↑(s.literals cr) : Multiset Lit) ∈ s.formula :=
  List.mem_map.mpr ⟨cr, h, rfl⟩

theorem long_iff_of_perm (hclauses : s'.clauses = s.clauses)
    (hperm : ∀ cr, (s'.literals cr).Perm (s.literals cr)) (cr : Ref) : s'.Long cr ↔ s.Long cr := by
  unfold Long
  rw [hclauses, (hperm cr).length_eq]

theorem binary_iff_of_perm (hclauses : s'.clauses = s.clauses)
    (hperm : ∀ cr, (s'.literals cr).Perm (s.literals cr)) (cr : Ref) :
    s'.Binary cr ↔ s.Binary cr := by
  unfold Binary
  rw [hclauses, (hperm cr).length_eq]

/-- A literal of the trail follows from the trail. -/
theorem falsified_of_mem_trail (h : p ∈ s.trail) : Falsified s.formula s.falseLits p.not :=
  .start (mem_falseLits.mpr (by rwa [lit_not_not]))

theorem Advances.formula_eq (h : Advances s s') : s'.formula = s.formula :=
  formula_eq_of_perm h.clauses h.perm

theorem Advances.refl (h : Inv s) : Advances s s :=
  ⟨h, fun _ => .refl _, List.prefix_rfl, fun _ hp => falsified_of_mem_trail hp,
    fun _ _ hs => hs, rfl, rfl, rfl, rfl, rfl, rfl⟩

theorem Advances.trans (h : Advances s s') (h' : Advances s' s'') : Advances s s'' where
  inv := h'.inv
  perm cr := (h'.perm cr).trans (h.perm cr)
  trail := h.trail.trans h'.trail
  follows p hp := by
    have hfalse := h'.follows p hp
    rw [h.formula_eq] at hfalse
    refine hfalse.trans fun q hq => ?_
    rw [← lit_not_not q]
    exact h.follows _ (mem_falseLits.mp hq)
  settled p hp hs := h'.settled p (h.trail.subset hp) (h.settled p hp hs)
  watchesBin := h'.watchesBin.trans h.watchesBin
  clauses := h'.clauses.trans h.clauses
  allocated := h'.allocated.trans h.allocated
  nVars := h'.nVars.trans h.nVars
  certificate := h'.certificate.trans h.certificate
  ok := h'.ok.trans h.ok

/-- Values never change while the trail grows. -/
theorem Advances.value (h : Advances s s') (hs : Inv s) {b : Bool} (hp : s.value p = some b) :
    s'.value p = some b := by
  cases b with
  | true => exact (h.inv.trail.value_iff p).mpr (h.trail.subset ((hs.trail.value_iff p).mp hp))
  | false => exact h.inv.trail.value_false_iff.mpr (h.trail.subset (hs.trail.value_false_iff.mp hp))

/-- The last literal of a clause that is not false follows. -/
theorem advances_enqueued (h : Inv s) (hcr : cr ∈ s.clauses) (hp : p ∈ s.literals cr)
    (hvalue : s.value p = none) (hfalse : ∀ q ∈ s.literals cr, q ≠ p → s.value q = some false) :
    Advances s (s.enqueued p (some cr)) where
  inv := ⟨h.trail.enqueued hvalue ((h.clause cr hcr).vars p hp), h.clause, h.allocated,
    h.nodup, h.long, h.binary, h.clean⟩
  perm _ := .refl _
  trail := List.prefix_append _ _
  follows q hq := by
    rcases List.mem_append.mp hq with hq | hq
    · exact falsified_of_mem_trail hq
    · obtain rfl := List.mem_singleton.mp hq
      refine .unit (mem_formula hcr) hp fun r hr hne => ?_
      exact .start (mem_falseLits.mpr (h.trail.value_false_iff.mp (hfalse r hr hne)))
  settled q hq hs :=
    ⟨fun w hw => value_enqueued_of_some hvalue (hs.1 w hw),
      fun w hw => value_enqueued_of_some hvalue (hs.2 w hw)⟩
  watchesBin := rfl
  clauses := rfl
  allocated := rfl
  nVars := rfl
  certificate := rfl
  ok := rfl

end

/-! ## One watcher -/

/-- The list of `p` with the watchers that are still to be visited. -/
def resume (s : Solver) (p : Lit) (ws : List Watcher) : Solver :=
  { s with watches := s.watches.set p (s.watches.occs p ++ ws) }

/-- What `visit` does, by the literals of the clause in the order in which the
false literal is the second one. -/
inductive Visited (s : Solver) (p : Lit) (w : Watcher) : Visit → Prop
  | satisfied : s.value w.blocker = some true → Visited s p w (.keep w s)
  | first {first : Lit} {rest : Cl} : Turned (s.literals w.cref) p.not first rest →
      s.value first = some true →
      Visited s p w (.keep ⟨w.cref, first⟩ (s.setLiterals w.cref (first :: p.not :: rest)))
  | moved {first q : Lit} {rest : Cl} {k : Nat} : Turned (s.literals w.cref) p.not first rest →
      rest[k]? = some q → s.value q ≠ some false →
      Visited s p w (.moved ((s.setLiterals w.cref (first :: q :: rest.set k p.not)).pushWatch
        q.not ⟨w.cref, first⟩))
  | conflict {first : Lit} {rest : Cl} : Turned (s.literals w.cref) p.not first rest →
      s.value w.blocker ≠ some true → (∀ q ∈ rest, s.value q = some false) →
      s.value first = some false →
      Visited s p w (.conflict ⟨w.cref, first⟩ (s.setLiterals w.cref (first :: p.not :: rest)))
  | unit {first : Lit} {rest : Cl} : Turned (s.literals w.cref) p.not first rest →
      s.value w.blocker ≠ some true → (∀ q ∈ rest, s.value q = some false) →
      s.value first = none →
      Visited s p w (.keep ⟨w.cref, first⟩
        ((s.setLiterals w.cref (first :: p.not :: rest)).enqueued first (some w.cref)))

section

variable {s : Solver} {p : Lit} {w : Watcher} {ws : List Watcher}

theorem setLiterals_setLiterals (s : Solver) (cr : Ref) (c c' : Cl) :
    (s.setLiterals cr c).setLiterals cr c' = s.setLiterals cr c' := by
  have hmemory : Function.update (Function.update s.clause cr ⟨c, (s.clause cr).deleted⟩) cr
      ⟨c', (Function.update s.clause cr ⟨c, (s.clause cr).deleted⟩ cr).deleted⟩ =
      Function.update s.clause cr ⟨c', (s.clause cr).deleted⟩ := by
    rw [Function.update_self, Function.update_idem]
  exact congrArg (fun memory => { s with clause := memory }) hmemory

theorem literals_setLiterals_self (s : Solver) (cr : Ref) (c : Cl) :
    (s.setLiterals cr c).literals cr = c := by
  show (Function.update s.clause cr _ cr).literals = c
  rw [Function.update_self]

theorem literals_setLiterals_of_ne {cr cr' : Ref} (h : cr' ≠ cr) (c : Cl) :
    (s.setLiterals cr c).literals cr' = s.literals cr' := by
  show (Function.update s.clause cr _ cr').literals = _
  rw [Function.update_of_ne h]
  rfl

theorem visited (hnodup : (s.literals w.cref).Nodup) (hlength : 2 ≤ (s.literals w.cref).length)
    (hwatch : p.not ∈ (s.literals w.cref).take 2) : ∃ r, s.visit p w = .ok r ∧ Visited s p w r := by
  unfold visit
  by_cases hblocker : s.value w.blocker = some true
  · exact ⟨_, if_pos hblocker, .satisfied hblocker⟩
  · rw [if_neg hblocker]
    obtain ⟨first, rest, hc, hturned⟩ := exists_turned hnodup hlength hwatch
    simp only [hc, List.getD_cons_zero, List.drop_succ_cons, List.drop_zero]
    have hvalue : ∀ q, (s.setLiterals w.cref (first :: p.not :: rest)).value q = s.value q :=
      fun _ => rfl
    simp only [hvalue]
    by_cases hfirst : s.value first = some true
    · exact ⟨_, if_pos hfirst, .first hturned hfirst⟩
    · rw [if_neg hfirst]
      cases hfind : rest.findIdx? fun q => s.value q != some false with
      | some k =>
        obtain ⟨hk, hq, -⟩ := List.findIdx?_eq_some_iff_getElem.mp hfind
        have hget : rest[k]? = some rest[k] := List.getElem?_eq_getElem hk
        simp only [swap_one hget, setLiterals_setLiterals, List.getD_cons_succ, List.getD_cons_zero]
        exact ⟨_, rfl, .moved hturned hget (bne_iff_ne.mp hq)⟩
      | none =>
        have hrest : ∀ q ∈ rest, s.value q = some false := by
          intro q hq
          have hfalse := List.findIdx?_eq_none_iff.mp hfind q hq
          rwa [bne_eq_false_iff_eq] at hfalse
        by_cases hfalse : s.value first = some false
        · exact ⟨_, if_pos hfalse, .conflict hturned hblocker hrest hfalse⟩
        · have hnone : s.value first = none := by
            cases hvalue : s.value first with
            | none => rfl
            | some b =>
              cases b with
              | true => exact absurd hvalue hfirst
              | false => exact absurd hvalue hfalse
          refine ⟨_, ?_, .unit hturned hblocker hrest hnone⟩
          rw [if_neg hfalse, uncheckedEnqueue, hvalue, if_pos hnone]
          rfl

theorem deleted_setLiterals (s : Solver) (cr cr' : Ref) (c : Cl) :
    ((s.setLiterals cr c).clause cr').deleted = (s.clause cr').deleted := by
  show (Function.update s.clause cr _ cr').deleted = _
  by_cases h : cr' = cr
  · rw [h, Function.update_self]
  · rw [Function.update_of_ne h]

theorem resume_occs_self : (s.resume p ws).watches.occs p = s.watches.occs p ++ ws :=
  Function.update_self ..

theorem resume_occs_of_ne {q : Lit} (h : q ≠ p) :
    (s.resume p ws).watches.occs q = s.watches.occs q := Function.update_of_ne h ..

theorem mem_resume (v : Watcher) (hv : v ∈ s.watches.occs p ++ ws) :
    v ∈ (s.resume p ws).watches.occs p := by
  rwa [resume_occs_self]

/-- The literals of a clause in another order. -/
theorem perm_setLiterals {cr : Ref} {c : Cl} (h : c.Perm (s.literals cr)) (cr' : Ref) :
    ((s.setLiterals cr c).literals cr').Perm (s.literals cr') := by
  by_cases he : cr' = cr
  · rw [he, literals_setLiterals_self]
    exact h
  · rw [literals_setLiterals_of_ne he]

variable {first q : Lit} {rest : Cl} {k : Nat}

theorem Turned.mem_take_setLiterals {cr : Ref} (h : Turned (s.literals cr) p.not first rest)
    (cr' : Ref) (r : Lit) :
    r ∈ ((s.setLiterals cr (first :: p.not :: rest)).literals cr').take 2 ↔
      r ∈ (s.literals cr').take 2 := by
  by_cases he : cr' = cr
  · rw [he, literals_setLiterals_self, h.mem_take]
    exact List.mem_pair
  · rw [literals_setLiterals_of_ne he]

/-- The watcher stays, with the other watched literal as its blocker. -/
theorem advances_reblock (h : Inv (s.resume p (w :: ws)))
    (ht : Turned (s.literals w.cref) p.not first rest)
    (hset : s.value w.blocker = some true → s.value first = some true) :
    Advances (s.resume p (w :: ws))
      ((s.setLiterals w.cref (first :: p.not :: rest)).resume p (⟨w.cref, first⟩ :: ws)) := by
  have hperm := perm_setLiterals ht.perm
  have hw := h.long.sound p w (mem_resume w (List.mem_append_right _ List.mem_cons_self))
  have hnodup := ht.perm.nodup_iff.mpr (h.clause w.cref hw.1.1).nodup
  refine ⟨⟨?_, ?_, ?_, h.nodup, ?_, ?_, h.clean⟩, hperm, List.prefix_rfl, ?_, ?_, rfl, rfl, rfl,
    rfl, rfl, rfl⟩
  · exact ⟨h.trail.vars, h.trail.nodup, h.trail.value_iff, h.trail.qhead_le⟩
  · exact fun cr hcr => (h.clause cr hcr).perm (hperm cr)
  · intro cr hcr
    exact ⟨(h.allocated cr hcr).1, (deleted_setLiterals s w.cref cr _).trans (h.allocated cr hcr).2⟩
  · have hlong : Watched (s.setLiterals w.cref (first :: p.not :: rest)).literals
        (s.setLiterals w.cref (first :: p.not :: rest)).Long (s.resume p (w :: ws)).watches.occs :=
      h.long.congr (long_iff_of_perm rfl hperm) (fun cr _ r => (hperm cr).mem_iff)
        fun cr _ r => ht.mem_take_setLiterals cr r
    refine hlong.reblock resume_occs_self resume_occs_self ?_ ?_ ?_
    · exact fun m hm => (resume_occs_of_ne hm).trans (resume_occs_of_ne hm).symm
    · rw [literals_setLiterals_self]
      exact List.mem_cons_self
    · exact fun he => (List.nodup_cons.mp hnodup).1 (he ▸ List.mem_cons_self)
  · exact h.binary.congr (binary_iff_of_perm rfl hperm) (fun cr _ r => (hperm cr).mem_iff)
      fun cr _ r => ht.mem_take_setLiterals cr r
  · exact fun r hr => falsified_of_mem_trail hr
  · intro r hr hs
    refine ⟨fun v hv => ?_, hs.2⟩
    by_cases hrp : r = p
    · subst hrp
      rw [resume_occs_self] at hv
      rcases List.mem_append.mp hv with hv | hv
      · exact hs.1 v (mem_resume v (List.mem_append_left _ hv))
      · rcases List.mem_cons.mp hv with rfl | hv
        · exact hset (hs.1 w (mem_resume w (List.mem_append_right _ List.mem_cons_self)))
        · exact hs.1 v (mem_resume v (List.mem_append_right _ (List.mem_cons_of_mem _ hv)))
    · rw [resume_occs_of_ne hrp] at hv
      exact hs.1 v ((resume_occs_of_ne hrp).symm ▸ hv)

/-- The watcher leaves for the list of a literal that is not false. -/
theorem advances_move (h : Inv (s.resume p (w :: ws))) (hp : p ∈ s.trail)
    (ht : Turned (s.literals w.cref) p.not first rest) (hk : rest[k]? = some q)
    (hq : s.value q ≠ some false) :
    Advances (s.resume p (w :: ws))
      (((s.setLiterals w.cref (first :: q :: rest.set k p.not)).pushWatch
        q.not ⟨w.cref, first⟩).resume p ws) := by
  have htrue : ∀ r ∈ s.trail, r ≠ q.not := by
    rintro r hr rfl
    exact hq (value_eq_false_iff.mpr ((h.trail.value_iff _).mpr hr))
  have hpq := htrue p hp
  have hperm' := perm_setLiterals ht.perm
  have hmoved : (first :: q :: rest.set k p.not).Perm (s.literals w.cref) :=
    (perm_swap_one hk).trans ht.perm
  have hperm := perm_setLiterals hmoved
  have hw := h.long.sound p w (mem_resume w (List.mem_append_right _ List.mem_cons_self))
  have hnodup := ht.perm.nodup_iff.mpr (h.clause w.cref hw.1.1).nodup
  have hstay : ∀ r ∈ s.trail, ((s.setLiterals w.cref (first :: q :: rest.set k p.not)).pushWatch
      q.not ⟨w.cref, first⟩).watches.occs r = s.watches.occs r :=
    fun r hr => Function.update_of_ne (htrue r hr) ..
  refine ⟨⟨?_, ?_, ?_, h.nodup, ?_, ?_, h.clean⟩, hperm, List.prefix_rfl, ?_, ?_, rfl, rfl, rfl,
    rfl, rfl, rfl⟩
  · exact ⟨h.trail.vars, h.trail.nodup, h.trail.value_iff, h.trail.qhead_le⟩
  · exact fun cr hcr => (h.clause cr hcr).perm (hperm cr)
  · intro cr hcr
    exact ⟨(h.allocated cr hcr).1, (deleted_setLiterals s w.cref cr _).trans (h.allocated cr hcr).2⟩
  · have hturned : Watched (s.setLiterals w.cref (first :: p.not :: rest)).literals
        (s.resume p (w :: ws)).Long (s.resume p (w :: ws)).watches.occs :=
      h.long.congr (fun _ => Iff.rfl) (fun cr _ r => (hperm' cr).mem_iff)
        fun cr _ r => ht.mem_take_setLiterals cr r
    have hlong : Watched (s.setLiterals w.cref (first :: q :: rest.set k p.not)).literals
        (s.resume p (w :: ws)).Long
        (((s.setLiterals w.cref (first :: q :: rest.set k p.not)).pushWatch
          q.not ⟨w.cref, first⟩).resume p ws).watches.occs := by
      refine hturned.move resume_occs_self (literals_setLiterals_self ..)
        (by rw [literals_setLiterals_self]; exact hnodup) (List.mem_of_getElem? hk)
        (literals_setLiterals_self ..) ((hperm w.cref).trans (hperm' w.cref).symm) ?_ ?_ ?_ ?_
      · exact fun cr hcr =>
          (literals_setLiterals_of_ne hcr _).trans (literals_setLiterals_of_ne hcr _).symm
      · exact resume_occs_self.trans (congrArg (· ++ ws) (hstay p hp))
      · rw [resume_occs_of_ne hpq.symm, resume_occs_of_ne hpq.symm]
        exact Function.update_self ..
      · intro m hm hmq
        rw [resume_occs_of_ne hm, resume_occs_of_ne hm]
        exact Function.update_of_ne hmq ..
    exact hlong.congr (long_iff_of_perm rfl hperm) (fun _ _ _ => Iff.rfl) fun _ _ _ => Iff.rfl
  · refine h.binary.congr (binary_iff_of_perm rfl hperm) (fun cr _ r => (hperm cr).mem_iff)
      fun cr hcr r => ?_
    have hne : cr ≠ w.cref := by
      rintro rfl
      have hlength := hw.1.2
      rw [hcr.2] at hlength
      exact absurd hlength (by decide)
    show r ∈ ((s.setLiterals w.cref _).literals cr).take 2 ↔ _
    rw [literals_setLiterals_of_ne hne]
    rfl
  · exact fun r hr => falsified_of_mem_trail hr
  · intro r hr hs
    refine ⟨fun v hv => ?_, hs.2⟩
    by_cases hrp : r = p
    · subst hrp
      rw [resume_occs_self, hstay r hr] at hv
      refine hs.1 v (mem_resume v ?_)
      rcases List.mem_append.mp hv with hv | hv
      · exact List.mem_append_left _ hv
      · exact List.mem_append_right _ (List.mem_cons_of_mem _ hv)
    · rw [resume_occs_of_ne hrp, hstay r hr] at hv
      exact hs.1 v ((resume_occs_of_ne hrp).symm ▸ hv)

theorem resume_nil (s : Solver) (p : Lit) : s.resume p [] = s := by
  have hoccs : Function.update s.watches.occs p (s.watches.occs p ++ []) = s.watches.occs := by
    rw [List.append_nil, Function.update_eq_self]
  exact congrArg (fun occs => { s with watches := { s.watches with occs := occs } }) hoccs

theorem resume_pushWatch (s : Solver) (p : Lit) (w : Watcher) (ws : List Watcher) :
    (s.pushWatch p w).resume p ws = s.resume p (w :: ws) := by
  have hoccs : Function.update (Function.update s.watches.occs p (s.watches.occs p ++ [w])) p
      (Function.update s.watches.occs p (s.watches.occs p ++ [w]) p ++ ws) =
      Function.update s.watches.occs p (s.watches.occs p ++ w :: ws) := by
    rw [Function.update_self, Function.update_idem, List.append_assoc]
    rfl
  exact congrArg (fun occs => { s with watches := { s.watches with occs := occs } }) hoccs

/-- What a visit comes to for the whole list of `p`. -/
def Visit.Good (s : Solver) (p : Lit) (w : Watcher) (ws : List Watcher) : Visit → Prop
  | .keep w' s' => Advances (s.resume p (w :: ws)) (s'.resume p (w' :: ws)) ∧
      s'.watches.occs p = s.watches.occs p ∧ s'.qhead = s.qhead ∧
      s'.value w'.blocker = some true
  | .moved s' => Advances (s.resume p (w :: ws)) (s'.resume p ws) ∧
      s'.watches.occs p = s.watches.occs p ∧ s'.qhead = s.qhead
  | .conflict w' s' => Advances (s.resume p (w :: ws)) (s'.resume p (w' :: ws)) ∧
      s'.qhead = s.qhead ∧ s'.Conflict w'.cref

theorem Visited.good {r : Visit} (h : Inv (s.resume p (w :: ws))) (hp : p ∈ s.trail)
    (hv : Visited s p w r) : r.Good s p w ws := by
  have hw := h.long.sound p w (mem_resume w (List.mem_append_right _ List.mem_cons_self))
  have hfalse : s.value p.not = some false := by
    rw [value_eq_false_iff, lit_not_not]
    exact (h.trail.value_iff p).mpr hp
  cases hv with
  | satisfied hblocker => exact ⟨.refl h, rfl, rfl, hblocker⟩
  | first ht hfirst => exact ⟨advances_reblock h ht fun _ => hfirst, rfl, rfl, hfirst⟩
  | @moved first q rest k ht hk hq =>
    refine ⟨advances_move h hp ht hk hq, Function.update_of_ne ?_ .., rfl⟩
    rintro rfl
    exact hq (value_eq_false_iff.mpr ((h.trail.value_iff _).mpr hp))
  | conflict ht hblocker hrest hfirst =>
    refine ⟨advances_reblock h ht fun hb => absurd hb hblocker, rfl, hw.1.1, ?_⟩
    rw [literals_setLiterals_self]
    exact List.forall_mem_cons.mpr ⟨hfirst, List.forall_mem_cons.mpr ⟨hfalse, hrest⟩⟩
  | @unit first rest ht hblocker hrest hfirst =>
    have hreblock := advances_reblock h ht fun hb => absurd hb hblocker
    refine ⟨hreblock.trans (advances_enqueued hreblock.inv hw.1.1 ?_ hfirst ?_), rfl, rfl,
      value_enqueued_self⟩
    · show first ∈ (s.setLiterals w.cref (first :: p.not :: rest)).literals w.cref
      rw [literals_setLiterals_self]
      exact List.mem_cons_self
    · show ∀ q ∈ (s.setLiterals w.cref (first :: p.not :: rest)).literals w.cref, q ≠ first →
        s.value q = some false
      rw [literals_setLiterals_self]
      have hothers : ∀ q ∈ p.not :: rest, s.value q = some false :=
        List.forall_mem_cons.mpr ⟨hfalse, hrest⟩
      exact fun q hq hne => hothers q ((List.mem_cons.mp hq).resolve_left hne)

/-! ## The loops -/

theorem propagateWatches_spec (h : Inv (s.resume p ws)) (hp : p ∈ s.trail)
    (hkept : ∀ w ∈ s.watches.occs p, s.value w.blocker = some true) :
    ∃ confl s', propagateWatches p ws s = .ok (confl, s') ∧ (s.resume p ws).Advances s' ∧
      s'.qhead = s.qhead ∧ (∀ cr, confl = some cr → s'.Conflict cr) ∧
      (confl = none → ∀ w ∈ s'.watches.occs p, s'.value w.blocker = some true) := by
  induction ws generalizing s with
  | nil =>
    rw [resume_nil] at h ⊢
    exact ⟨none, s, rfl, .refl h, rfl, fun cr hcr => (Option.some_ne_none cr hcr.symm).elim,
      fun _ => hkept⟩
  | cons w ws ih =>
    have hw := h.long.sound p w (mem_resume w (List.mem_append_right _ List.mem_cons_self))
    have hc := h.clause w.cref hw.1.1
    obtain ⟨r, hr, hv⟩ : ∃ r, s.visit p w = .ok r ∧ Visited s p w r :=
      visited hc.nodup hc.two_le hw.2.1
    have hgood := hv.good h hp
    rw [propagateWatches, hr]
    cases r with
    | keep w' s' =>
      obtain ⟨hadv, hoccs, hqhead, htrue⟩ := hgood
      rw [← resume_pushWatch s' p w' ws] at hadv
      have hkept' : ∀ v ∈ (s'.pushWatch p w').watches.occs p, s'.value v.blocker = some true := by
        intro v hv
        have hself : (s'.pushWatch p w').watches.occs p = s'.watches.occs p ++ [w'] :=
          Function.update_self ..
        rw [hself, hoccs] at hv
        rcases List.mem_append.mp hv with hv | hv
        · exact hadv.value h (hkept v hv)
        · rw [List.mem_singleton.mp hv]
          exact htrue
      obtain ⟨confl, t, ht, hadv', hqhead', hconfl, hnone⟩ :=
        ih hadv.inv (hadv.trail.subset hp) hkept'
      exact ⟨confl, t, ht, hadv.trans hadv', hqhead'.trans hqhead, hconfl, hnone⟩
    | moved s' =>
      obtain ⟨hadv, hoccs, hqhead⟩ := hgood
      have hkept' : ∀ v ∈ s'.watches.occs p, s'.value v.blocker = some true := by
        rw [hoccs]
        exact fun v hv => hadv.value h (hkept v hv)
      obtain ⟨confl, t, ht, hadv', hqhead', hconfl, hnone⟩ :=
        ih hadv.inv (hadv.trail.subset hp) hkept'
      exact ⟨confl, t, ht, hadv.trans hadv', hqhead'.trans hqhead, hconfl, hnone⟩
    | conflict w' s' =>
      obtain ⟨hadv, hqhead, hconfl⟩ := hgood
      refine ⟨some w'.cref, s'.resume p (w' :: ws), rfl, hadv, hqhead, ?_, fun he => ?_⟩
      · intro cr hcr
        cases hcr
        exact hconfl
      · cases he

theorem mem_of_binary {c : Cl} (hlength : c.length = 2) {q b r : Lit} (hq : q ∈ c.take 2)
    (hb : b ∈ c) (hne : b ≠ q) (hr : r ∈ c) : r = q ∨ r = b := by
  obtain ⟨a, d, rfl⟩ := List.length_eq_two.mp hlength
  rw [List.mem_pair] at hb hr
  have hq := List.mem_pair.mp hq
  grind

theorem propagateBin_spec (h : Inv s) (hp : p ∈ s.trail) (hws : ws ⊆ s.watchesBin.occs p) :
    ∃ confl s', propagateBin ws s = .ok (confl, s') ∧ s.Advances s' ∧ s'.qhead = s.qhead ∧
      (∀ cr, confl = some cr → s'.Conflict cr) ∧
      (confl = none → ∀ w ∈ ws, s'.value w.blocker = some true) := by
  induction ws generalizing s with
  | nil =>
    refine ⟨none, s, rfl, .refl h, rfl, fun cr hcr => (Option.some_ne_none cr hcr.symm).elim, ?_⟩
    intro _ w hw
    cases hw
  | cons w ws ih =>
    obtain ⟨hw, hws⟩ := List.cons_subset.mp hws
    obtain ⟨⟨hcr, hlength⟩, hwatch, hblocker, hne⟩ := h.binary.sound p w hw
    have hfalse : s.value p.not = some false := by
      rw [value_eq_false_iff, lit_not_not]
      exact (h.trail.value_iff p).mpr hp
    rw [propagateBin]
    cases hvalue : s.value w.blocker with
    | none =>
      have hothers : ∀ q ∈ s.literals w.cref, q ≠ w.blocker → s.value q = some false := by
        intro q hq hqb
        rwa [(mem_of_binary hlength hwatch hblocker hne hq).resolve_right hqb]
      have hadv := advances_enqueued h hcr hblocker hvalue hothers
      obtain ⟨confl, t, ht, hadv', hqhead, hconfl, hnone⟩ :=
        ih hadv.inv (hadv.trail.subset hp) hws
      refine ⟨confl, t, ?_, hadv.trans hadv', hqhead, hconfl, fun he => ?_⟩
      · rw [if_neg (by decide), if_pos rfl, uncheckedEnqueue, if_pos hvalue]
        exact ht
      · exact List.forall_mem_cons.mpr ⟨hadv'.value hadv.inv value_enqueued_self, hnone he⟩
    | some b =>
      cases b with
      | true =>
        obtain ⟨confl, t, ht, hadv, hqhead, hconfl, hnone⟩ := ih h hp hws
        refine ⟨confl, t, ?_, hadv, hqhead, hconfl, fun he => ?_⟩
        · rw [if_neg (by decide), if_neg (by decide)]
          exact ht
        · exact List.forall_mem_cons.mpr ⟨hadv.value h hvalue, hnone he⟩
      | false =>
        refine ⟨some w.cref, s, if_pos rfl, .refl h, rfl, ?_, fun he => ?_⟩
        · intro cr he
          cases he
          refine ⟨hcr, fun q hq => ?_⟩
          rcases mem_of_binary hlength hwatch hblocker hne hq with rfl | rfl
          · exact hfalse
          · exact hvalue
        · cases he

theorem resume_set (s : Solver) (p : Lit) :
    resume { s with watches := s.watches.set p [] } p (s.watches.occs p) = s := by
  have hoccs : Function.update (Function.update s.watches.occs p []) p
      (Function.update s.watches.occs p [] p ++ s.watches.occs p) = s.watches.occs := by
    rw [Function.update_self, Function.update_idem, List.nil_append, Function.update_eq_self]
  exact congrArg (fun occs => { s with watches := { s.watches with occs := occs } }) hoccs

/-- The loop over all watchers of a literal. -/
theorem propagateWatches_all (h : Inv s) (hp : p ∈ s.trail) :
    ∃ confl s', propagateWatches p (s.watches.occs p) { s with watches := s.watches.set p [] } =
        .ok (confl, s') ∧ s.Advances s' ∧ s'.qhead = s.qhead ∧
      (∀ cr, confl = some cr → s'.Conflict cr) ∧
      (confl = none → ∀ w ∈ s'.watches.occs p, s'.value w.blocker = some true) := by
  let t : Solver := { s with watches := s.watches.set p [] }
  have ht : t.resume p (s.watches.occs p) = s := resume_set s p
  have hkept : ∀ w ∈ t.watches.occs p, t.value w.blocker = some true := by
    intro w hw
    have hempty : t.watches.occs p = [] := Function.update_self ..
    rw [hempty] at hw
    cases hw
  have hinv : Inv (t.resume p (s.watches.occs p)) := ht.symm ▸ h
  have hmem : p ∈ t.trail := hp
  have hspec := propagateWatches_spec hinv hmem hkept
  rw [ht] at hspec
  exact hspec

/-- The literals of the trail in front of the queue have been visited. -/
def Settled (s : Solver) : Prop := ∀ p ∈ s.trail.take s.qhead, s.SettledAt p

theorem propagateLoop_spec {fuel : Nat} (h : Inv s) (hfuel : s.nVars.toNat < fuel + s.qhead) :
    ∃ confl s', propagateLoop fuel s = .ok (confl, s') ∧ s.Advances s' ∧
      (∀ cr, confl = some cr → s'.Conflict cr) ∧
      (confl = none → s'.qhead = s'.trail.length ∧ (s.Settled → s'.Settled)) := by
  induction fuel generalizing s with
  | zero =>
    have hle := h.trail.length_le
    have hqhead := h.trail.qhead_le
    omega
  | succ fuel ih =>
    rw [propagateLoop]
    cases hget : s.trail[s.qhead]? with
    | none =>
      have hend : s.qhead = s.trail.length :=
        Nat.le_antisymm h.trail.qhead_le (List.getElem?_eq_none_iff.mp hget)
      exact ⟨none, s, rfl, .refl h, fun cr hcr => (Option.some_ne_none cr hcr.symm).elim,
        fun _ => ⟨hend, fun hs => hs⟩⟩
    | some p =>
      obtain ⟨hlt, -⟩ := List.getElem?_eq_some_iff.mp hget
      have hmem : p ∈ s.trail := List.mem_of_getElem? hget
      let s₁ : Solver := { s with qhead := s.qhead + 1 }
      have h₁ : Inv s₁ := ⟨⟨h.trail.vars, h.trail.nodup, h.trail.value_iff, hlt⟩, h.clause,
        h.allocated, h.nodup, h.long, h.binary, h.clean⟩
      have hadv₁ : s.Advances s₁ := ⟨h₁, fun _ => .refl _, List.prefix_rfl,
        fun _ hq => falsified_of_mem_trail hq, fun _ _ hs => hs, rfl, rfl, rfl, rfl, rfl, rfl⟩
      obtain ⟨confl, s₂, hrun₂, hadv₂, hqhead₂, hconfl₂, hnone₂⟩ :=
        propagateBin_spec h₁ hmem (List.Subset.refl _)
      have hadv₂ := hadv₁.trans hadv₂
      show ∃ confl s', (propagateBin (s.watchesBin.occs p) s₁ >>= _) = _ ∧ _
      rw [hrun₂]
      cases confl with
      | some cr =>
        refine ⟨some cr, s₂, rfl, hadv₂, hconfl₂, fun he => ?_⟩
        cases he
      | none =>
        obtain ⟨confl, s₃, hrun₃, hadv, hqhead₃, hconfl₃, hnone₃⟩ :=
          propagateWatches_all hadv₂.inv (hadv₂.trail.subset hmem)
        have hadv₃ := hadv₂.trans hadv
        show ∃ confl s', (propagateWatches p (s₂.watches.occs p) _ >>= _) = _ ∧ _
        rw [hrun₃]
        cases confl with
        | some cr =>
          refine ⟨some cr, s₃, rfl, hadv₃, hconfl₃, fun he => ?_⟩
          cases he
        | none =>
          have hqhead : s₃.qhead = s.qhead + 1 := hqhead₃.trans hqhead₂
          have hnVars : s₃.nVars = s.nVars := hadv₃.nVars
          obtain ⟨confl, t, hrun, hadv₄, hconfl, hnone⟩ :=
            ih hadv₃.inv (by rw [hqhead, hnVars]; omega)
          refine ⟨confl, t, hrun, hadv₃.trans hadv₄, hconfl, fun he => ?_⟩
          obtain ⟨hend, hsettled⟩ := hnone he
          refine ⟨hend, fun hs => hsettled fun q hq => ?_⟩
          obtain ⟨new, hnew⟩ := hadv₃.trail
          rw [hqhead, ← hnew, List.take_append_of_le_length hlt, List.take_add_one, hget] at hq
          rcases List.mem_append.mp hq with hq | hq
          · exact hadv₃.settled q (List.mem_of_mem_take hq) (hs q hq)
          · obtain rfl := List.mem_singleton.mp hq
            refine ⟨hnone₃ rfl, fun w hw => ?_⟩
            rw [hadv₃.watchesBin] at hw
            exact hadv.value hadv₂.inv (hnone₂ rfl w hw)

theorem cleanAll_of_clean (h : s.watches.dirties = [] ∧ s.watchesBin.dirties = []) :
    s.cleanAll = s := by
  obtain ⟨clause, allocated, clauses, ⟨occs, dirties⟩, ⟨occsBin, dirtiesBin⟩, assigns, reason,
    trail, qhead, nVars, certificate, ok⟩ := s
  obtain ⟨rfl, rfl⟩ := h
  rfl

theorem propagate_spec (h : Inv s) : ∃ confl s', s.propagate = .ok (confl, s') ∧ s.Advances s' ∧
    (∀ cr, confl = some cr → s'.Conflict cr) ∧
    (confl = none → s'.qhead = s'.trail.length ∧ (s.Settled → s'.Settled)) := by
  rw [propagate, cleanAll_of_clean h.clean]
  exact propagateLoop_spec h (by omega)

/-! ## What propagation finds -/

/-- A clause is satisfied, or the two literals that are watched have no value. -/
theorem satisfied_or_unassigned (h : Inv s) (hs : ∀ p ∈ s.trail, s.SettledAt p) {cr : Ref}
    (hcr : cr ∈ s.clauses) : (∃ q ∈ s.literals cr, s.value q = some true) ∨
      ∀ q ∈ (s.literals cr).take 2, s.value q = none := by
  by_contra hno
  push Not at hno
  obtain ⟨hunsat, q, hq, hvalue⟩ := hno
  have hfalse : s.value q = some false := by
    cases hv : s.value q with
    | none => exact absurd hv hvalue
    | some b =>
      cases b with
      | true => exact absurd hv (hunsat q (List.mem_of_mem_take hq))
      | false => rfl
  have hsettled := hs q.not (h.trail.value_false_iff.mp hfalse)
  rcases Nat.lt_or_eq_of_le (h.clause cr hcr).two_le with hlong | hbinary
  · obtain ⟨w, hw, rfl⟩ := h.long.complete cr ⟨hcr, hlong⟩ q hq
    exact hunsat _ (h.long.sound q.not w hw).2.2.1 (hsettled.1 w hw)
  · obtain ⟨w, hw, rfl⟩ := h.binary.complete cr ⟨hcr, hbinary.symm⟩ q hq
    exact hunsat _ (h.binary.sound q.not w hw).2.2.1 (hsettled.2 w hw)

theorem value_eq_false_of_falsified (h : Inv s) (hs : ∀ p ∈ s.trail, s.SettledAt p)
    {c : Multiset Lit} (hc : ∀ p ∈ c, s.value p = some false) (hq : Falsified s.formula c q) :
    s.value q = some false := by
  induction hq with
  | start hp => exact hc _ hp
  | @unit d q hd hq _ ih =>
    obtain ⟨cr, hcr, rfl⟩ := List.mem_map.mp hd
    show s.value q.not = some false
    rw [value_eq_false_iff, lit_not_not]
    rcases satisfied_or_unassigned h hs hcr with ⟨r, hr, htrue⟩ | hwatched
    · by_cases he : r = q
      · rw [← he]
        exact htrue
      · rw [ih r hr he] at htrue
        cases htrue
    · -- of two literals without a value one is not `q`, and so is false
      have hok := h.clause cr hcr
      have hlen := hok.two_le
      have hfalse : ∀ r ∈ (s.literals cr).take 2, r = q := by
        intro r hr
        by_contra he
        have hvalue := ih r (List.mem_of_mem_take hr) he
        rw [hwatched r hr] at hvalue
        cases hvalue
      have hnodup := (List.take_sublist 2 (s.literals cr)).nodup hok.nodup
      have hlength := List.length_take_of_le hlen
      obtain ⟨a, b, hab⟩ := List.length_eq_two.mp hlength
      rw [hab] at hfalse hnodup
      have ha := hfalse a List.mem_cons_self
      have hb := hfalse b (List.mem_cons_of_mem _ List.mem_cons_self)
      rw [ha, hb] at hnodup
      exact absurd List.mem_cons_self (List.nodup_cons.mp hnodup).1

end

end Solver

end reductor.candy
