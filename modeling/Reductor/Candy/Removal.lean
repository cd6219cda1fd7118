-- Clauses that come and go. A clause that comes is watched at once. When one
-- goes its watchers stay for a while, in lists that are cleaned later, and
-- until then the invariant holds of the clauses that are still there.
import Reductor.Candy.Watches

namespace reductor.candy

namespace Solver

/-! ## Lists that are to be cleaned -/

/-- The lists without the watchers of some clauses. -/
def without (gone : List Ref) (occs : Lit → List Watcher) (l : Lit) : List Watcher :=
  (occs l).filter fun w => !gone.contains w.cref

/-- The watchers of a new clause that stand in the list of a literal. -/
def watchersOf (cr : Ref) (a b l : Lit) : List Watcher :=
  (if l = a.not then [⟨cr, b⟩] else []) ++ if l = b.not then [⟨cr, a⟩] else []

section

variable {lits lits' : Ref → Cl} {refs : Ref → Prop} {occs occs' : Lit → List Watcher}
  {gone : List Ref} {w : Watcher} {a b l m : Lit} {cr : Ref} {ε : Type} {e : ε} {o : OccLists ε}

theorem mem_without : w ∈ without gone occs l ↔ w ∈ occs l ∧ w.cref ∉ gone := by
  unfold without
  rw [List.mem_filter, Bool.not_eq_true', ← Bool.not_eq_true, List.contains_iff_mem]

theorem without_eq_self (h : ∀ l, ∀ w ∈ occs l, w.cref ∉ gone) : without gone occs = occs := by
  funext l
  refine List.filter_eq_self.mpr fun w hw => ?_
  rw [Bool.not_eq_true', ← Bool.not_eq_true, List.contains_iff_mem]
  exact h l w hw

theorem Watched.without (h : Watched lits refs (without gone occs)) (cr : Ref) :
    Watched lits (fun c => refs c ∧ c ≠ cr) (without (gone ++ [cr]) occs) := by
  have hmem : ∀ l w, w ∈ Solver.without (gone ++ [cr]) occs l ↔
      w ∈ Solver.without gone occs l ∧ w.cref ≠ cr := by
    intro l w
    rw [mem_without, mem_without, List.mem_append, List.mem_singleton, not_or, and_assoc]
  refine ⟨?_, ?_, ?_⟩
  · intro l w hw
    obtain ⟨hw, hne⟩ := (hmem l w).mp hw
    obtain ⟨hcr, hwatch⟩ := h.sound l w hw
    exact ⟨⟨hcr, hne⟩, hwatch⟩
  · rintro c ⟨hc, hne⟩ q hq
    obtain ⟨w, hw, rfl⟩ := h.complete c hc q hq
    exact ⟨w, (hmem q.not w).mpr ⟨hw, hne⟩, rfl⟩
  · intro l
    refine (h.nodup l).sublist (List.Sublist.map _ (List.monotone_filter_right _ ?_))
    intro w hw
    rw [List.contains_append, Bool.not_or, Bool.and_eq_true] at hw
    exact hw.1

theorem mem_watchersOf : w ∈ watchersOf cr a b l ↔
    w = ⟨cr, b⟩ ∧ l = a.not ∨ w = ⟨cr, a⟩ ∧ l = b.not := by
  unfold watchersOf
  rw [List.mem_append]
  refine or_congr ?_ ?_
  all_goals
    split
    · rename_i hl
      rw [List.mem_singleton, and_iff_left hl]
    · rename_i hl
      exact iff_of_false List.not_mem_nil fun h => hl h.2

theorem Watched.of_eq {refs' : Ref → Prop} (h : Watched lits refs occs)
    (hrefs : ∀ cr, refs' cr ↔ refs cr) (hlits : ∀ cr, refs cr → lits' cr = lits cr) :
    Watched lits' refs' occs :=
  h.congr hrefs (fun cr hcr _ => by rw [hlits cr hcr]) fun cr hcr _ => by rw [hlits cr hcr]

/-- A clause that is new is watched at its first two literals. -/
theorem Watched.attach (h : Watched lits refs occs) {rest : Cl} (hnew : ¬ refs cr)
    (hlits : ∀ c, refs c → lits' c = lits c) (hc : lits' cr = a :: b :: rest) (hab : a ≠ b)
    (hoccs : ∀ l, occs' l = occs l ++ watchersOf cr a b l) :
    Watched lits' (fun c => refs c ∨ c = cr) occs' := by
  have hmem : ∀ l w, w ∈ occs' l ↔ w ∈ occs l ∨ w ∈ watchersOf cr a b l := by
    intro l w
    rw [hoccs, List.mem_append]
  refine ⟨?_, ?_, ?_⟩
  · intro l w hw
    rcases (hmem l w).mp hw with hw | hw
    · obtain ⟨hcr, hwatch⟩ := h.sound l w hw
      rw [hlits _ hcr]
      exact ⟨.inl hcr, hwatch⟩
    · rcases mem_watchersOf.mp hw with ⟨rfl, rfl⟩ | ⟨rfl, rfl⟩
      all_goals
        rw [lit_not_not, hc]
      · exact ⟨.inr rfl, List.mem_cons_self, List.mem_cons_of_mem _ List.mem_cons_self, hab.symm⟩
      · exact ⟨.inr rfl, List.mem_cons_of_mem _ List.mem_cons_self, List.mem_cons_self, hab⟩
  · rintro c hcr q hq
    by_cases he : c = cr
    · subst he
      rw [hc] at hq
      rcases List.mem_pair.mp hq with rfl | rfl
      · exact ⟨⟨c, b⟩, (hmem _ _).mpr (.inr (mem_watchersOf.mpr (.inl ⟨rfl, rfl⟩))), rfl⟩
      · exact ⟨⟨c, a⟩, (hmem _ _).mpr (.inr (mem_watchersOf.mpr (.inr ⟨rfl, rfl⟩))), rfl⟩
    · have hcr := hcr.resolve_right he
      rw [hlits c hcr] at hq
      obtain ⟨w, hw, hwc⟩ := h.complete c hcr q hq
      exact ⟨w, (hmem _ _).mpr (.inl hw), hwc⟩
  · intro l
    have hne : a.not ≠ b.not := fun he => hab (by rw [← lit_not_not a, he, lit_not_not])
    rw [hoccs, List.map_append, List.nodup_append]
    refine ⟨h.nodup l, ?_, ?_⟩
    · unfold watchersOf
      by_cases hla : l = a.not
      · rw [if_pos hla, if_neg fun hlb => hne (hla.symm.trans hlb)]
        exact List.nodup_singleton _
      · rw [if_neg hla, List.nil_append]
        split
        · exact List.nodup_singleton _
        · exact List.nodup_nil
    · intro c hcl c' hcl' he
      subst he
      obtain ⟨w, hw, rfl⟩ := List.mem_map.mp hcl
      obtain ⟨v, hv, hvc⟩ := List.mem_map.mp hcl'
      have hvcr : v.cref = cr := by
        rcases mem_watchersOf.mp hv with ⟨rfl, -⟩ | ⟨rfl, -⟩ <;> rfl
      have hcr := (h.sound l w hw).1
      rw [← hvc, hvcr] at hcr
      exact hnew hcr

theorem occs_push_push (o : OccLists Watcher) (cr : Ref) (a b l : Lit) :
    ((o.push a.not ⟨cr, b⟩).push b.not ⟨cr, a⟩).occs l = o.occs l ++ watchersOf cr a b l := by
  have hpush : ∀ (o : OccLists Watcher) (idx : Lit) (e : Watcher),
      (o.push idx e).occs l = o.occs l ++ if l = idx then [e] else [] := by
    intro o idx e
    show Function.update o.occs idx (o.occs idx ++ [e]) l = _
    by_cases hl : l = idx
    · rw [hl, Function.update_self, if_pos rfl]
    · rw [Function.update_of_ne hl, if_neg hl, List.append_nil]
  rw [hpush, hpush, List.append_assoc]
  rfl

theorem occs_smudge (o : OccLists ε) (l : Lit) : (o.smudge l).occs = o.occs := by
  unfold OccLists.smudge
  split <;> rfl

theorem exists_of_two_le {c : Cl} (h : 2 ≤ c.length) : ∃ a b rest, c = a :: b :: rest := by
  cases c with
  | nil => cases h
  | cons a c =>
    cases c with
    | nil => exact absurd h (Nat.not_succ_le_self 1)
    | cons b rest => exact ⟨a, b, rest, rfl⟩

theorem mem_smudge : m ∈ (o.smudge l).dirties ↔ m = l ∨ m ∈ o.dirties := by
  unfold OccLists.smudge
  split
  · rename_i hl
    refine (or_iff_right_of_imp fun he => ?_).symm
    rw [he]
    exact List.contains_iff_mem.mp hl
  · rw [List.mem_append, List.mem_singleton, or_comm]

end

/-! ## The invariant while clauses are gone -/

/-- What holds while some clauses are gone: of the others all that `Inv` says,
and the lists that still have watchers of those that are gone are to be cleaned. -/
structure InvWithout (s : Solver) (gone : List Ref) : Prop where
  trail : TrailOk s
  clause : ∀ cr ∈ s.clauses, cr ∉ gone → ClauseOk s.nVars (s.literals cr)
  allocated : ∀ cr ∈ s.clauses, cr < s.allocated
  kept : ∀ cr ∈ s.clauses, cr ∉ gone → (s.clause cr).deleted = false
  nodup : s.clauses.Nodup
  subset : gone ⊆ s.clauses
  long : Watched s.literals (fun cr => s.Long cr ∧ cr ∉ gone) (without gone s.watches.occs)
  binary : Watched s.literals (fun cr => s.Binary cr ∧ cr ∉ gone) (without gone s.watchesBin.occs)
  dirty : ∀ l, ∀ w ∈ s.watches.occs l, w.cref ∈ gone → l ∈ s.watches.dirties
  dirtyBin : ∀ l, ∀ w ∈ s.watchesBin.occs l, w.cref ∈ gone → l ∈ s.watchesBin.dirties

section

variable {s : Solver} {gone : List Ref} {cr : Ref} {p : Lit}

theorem inv_start (n : Int) : Inv { nVars := n } := by
  have hwatched : ∀ refs, (∀ cr, ¬ refs cr) →
      Watched (fun _ => []) refs fun _ => [] := fun refs hrefs =>
    ⟨fun _ w hw => absurd hw List.not_mem_nil, fun cr hcr => (hrefs cr hcr).elim,
      fun _ => List.nodup_nil⟩
  have hno : ∀ cr, cr ∉ ([] : List Ref) := fun _ => List.not_mem_nil
  refine ⟨⟨?_, List.nodup_nil, ?_, Nat.le_refl 0⟩, ?_, ?_, List.nodup_nil, ?_, ?_, rfl, rfl⟩
  · exact fun p hp => absurd hp List.not_mem_nil
  · exact fun p => iff_of_false (Option.some_ne_none true ∘ Eq.symm) List.not_mem_nil
  · exact fun cr hcr => absurd hcr (hno cr)
  · exact fun cr hcr => absurd hcr (hno cr)
  · exact hwatched _ fun cr hcr => hno cr hcr.1
  · exact hwatched _ fun cr hcr => hno cr hcr.1

theorem Inv.invWithout (h : Inv s) : InvWithout s [] where
  trail := h.trail
  clause cr hcr _ := h.clause cr hcr
  allocated cr hcr := (h.allocated cr hcr).1
  kept cr hcr _ := (h.allocated cr hcr).2
  nodup := h.nodup
  subset := List.nil_subset _
  long := by
    rw [without_eq_self fun _ _ _ => List.not_mem_nil]
    exact h.long.of_eq (fun _ => and_iff_left List.not_mem_nil) fun _ _ => rfl
  binary := by
    rw [without_eq_self fun _ _ _ => List.not_mem_nil]
    exact h.binary.of_eq (fun _ => and_iff_left List.not_mem_nil) fun _ _ => rfl
  dirty _ _ _ hw := absurd hw List.not_mem_nil
  dirtyBin _ _ _ hw := absurd hw List.not_mem_nil

theorem InvWithout.inv (h : InvWithout s [])
    (hclean : s.watches.dirties = [] ∧ s.watchesBin.dirties = []) : Inv s where
  trail := h.trail
  clause cr hcr := h.clause cr hcr List.not_mem_nil
  allocated cr hcr := ⟨h.allocated cr hcr, h.kept cr hcr List.not_mem_nil⟩
  nodup := h.nodup
  long := by
    have hlong := h.long
    rw [without_eq_self fun _ _ _ => List.not_mem_nil] at hlong
    exact hlong.of_eq (fun _ => (and_iff_left List.not_mem_nil).symm) fun _ _ => rfl
  binary := by
    have hbinary := h.binary
    rw [without_eq_self fun _ _ _ => List.not_mem_nil] at hbinary
    exact hbinary.of_eq (fun _ => (and_iff_left List.not_mem_nil).symm) fun _ _ => rfl
  clean := hclean

/-- Whatever becomes of the memory of a clause that is gone. -/
theorem InvWithout.forget (h : InvWithout s gone) {memory : Ref → Clause}
    (hmemory : ∀ c, c ∉ gone → memory c = s.clause c) :
    InvWithout { s with clause := memory } gone := by
  have hlits : ∀ c, c ∉ gone → (memory c).literals = s.literals c := fun c hc =>
    congrArg Clause.literals (hmemory c hc)
  refine ⟨⟨h.trail.vars, h.trail.nodup, h.trail.value_iff, h.trail.qhead_le⟩, ?_, h.allocated,
    ?_, h.nodup, h.subset, ?_, ?_, h.dirty, h.dirtyBin⟩
  · intro c hc hlive
    show ClauseOk s.nVars (memory c).literals
    rw [hlits c hlive]
    exact h.clause c hc hlive
  · intro c hc hlive
    show (memory c).deleted = false
    rw [hmemory c hlive]
    exact h.kept c hc hlive
  · refine h.long.of_eq (fun c => and_congr_left fun hlive => ?_) fun c hc => hlits c hc.2
    show c ∈ s.clauses ∧ 2 < (memory c).literals.length ↔ _
    rw [hlits c hlive]
    rfl
  · refine h.binary.of_eq (fun c => and_congr_left fun hlive => ?_) fun c hc => hlits c hc.2
    show c ∈ s.clauses ∧ (memory c).literals.length = 2 ↔ _
    rw [hlits c hlive]
    rfl

theorem InvWithout.enqueued (h : InvWithout s gone) (hp : s.value p = none)
    (hvar : 0 ≤ var p ∧ var p < s.nVars) (reason : Option Ref) :
    InvWithout (s.enqueued p reason) gone :=
  ⟨h.trail.enqueued hp hvar, h.clause, h.allocated, h.kept, h.nodup, h.subset, h.long, h.binary,
    h.dirty, h.dirtyBin⟩

/-- A clause goes once the lists that have its watchers are to be cleaned. -/
theorem InvWithout.leave (h : InvWithout s gone) (hcr : cr ∈ s.clauses)
    {d dBin : List Lit} (hd : s.watches.dirties ⊆ d) (hdBin : s.watchesBin.dirties ⊆ dBin)
    (hlong : s.Long cr → ∀ q ∈ (s.literals cr).take 2, q.not ∈ d)
    (hbinary : s.Binary cr → ∀ q ∈ (s.literals cr).take 2, q.not ∈ dBin) :
    InvWithout { s with
      watches := { s.watches with dirties := d }
      watchesBin := { s.watchesBin with dirties := dBin } } (gone ++ [cr]) := by
  have hstays : ∀ c, c ∉ gone ++ [cr] ↔ c ∉ gone ∧ c ≠ cr := by
    intro c
    rw [List.mem_append, List.mem_singleton, not_or]
  refine ⟨⟨h.trail.vars, h.trail.nodup, h.trail.value_iff, h.trail.qhead_le⟩, ?_, h.allocated,
    ?_, h.nodup, ?_, ?_, ?_, ?_, ?_⟩
  · exact fun c hc hgone => h.clause c hc ((hstays c).mp hgone).1
  · exact fun c hc hgone => h.kept c hc ((hstays c).mp hgone).1
  · exact List.append_subset.mpr ⟨h.subset, List.cons_subset.mpr ⟨hcr, List.nil_subset _⟩⟩
  · refine (h.long.without cr).of_eq (fun c => ?_) fun _ _ => rfl
    rw [hstays, and_assoc]
    rfl
  · refine (h.binary.without cr).of_eq (fun c => ?_) fun _ _ => rfl
    rw [hstays, and_assoc]
    rfl
  · intro l w hw hgone
    by_cases hold : w.cref ∈ gone
    · exact hd (h.dirty l w hw hold)
    · obtain ⟨⟨hlong', -⟩, hwatch, -⟩ := h.long.sound l w (mem_without.mpr ⟨hw, hold⟩)
      obtain rfl := List.mem_singleton.mp ((List.mem_append.mp hgone).resolve_left hold)
      rw [← lit_not_not l]
      exact hlong hlong' l.not hwatch
  · intro l w hw hgone
    by_cases hold : w.cref ∈ gone
    · exact hdBin (h.dirtyBin l w hw hold)
    · obtain ⟨⟨hbinary', -⟩, hwatch, -⟩ := h.binary.sound l w (mem_without.mpr ⟨hw, hold⟩)
      obtain rfl := List.mem_singleton.mp ((List.mem_append.mp hgone).resolve_left hold)
      rw [← lit_not_not l]
      exact hbinary hbinary' l.not hwatch

/-- A clause is detached: its watchers stay, but their lists are to be cleaned. -/
theorem InvWithout.detach (h : InvWithout s gone) (hcr : cr ∈ s.clauses) (hlive : cr ∉ gone) :
    ∃ d dBin, s.detachClause cr = .ok { s with
        watches := { s.watches with dirties := d }
        watchesBin := { s.watchesBin with dirties := dBin } } ∧
      InvWithout { s with
        watches := { s.watches with dirties := d }
        watchesBin := { s.watchesBin with dirties := dBin } } (gone ++ [cr]) := by
  obtain ⟨a, b, rest, hc⟩ := exists_of_two_le (h.clause cr hcr hlive).two_le
  have htake : ∀ (o : OccLists Watcher), ∀ q ∈ (s.literals cr).take 2,
      q.not ∈ ((o.smudge a.not).smudge b.not).dirties := by
    intro o q hq
    rw [hc] at hq
    rcases List.mem_pair.mp hq with rfl | rfl
    · exact mem_smudge.mpr (.inr (mem_smudge.mpr (.inl rfl)))
    · exact mem_smudge.mpr (.inl rfl)
  have hmono : ∀ (o : OccLists Watcher), o.dirties ⊆ ((o.smudge a.not).smudge b.not).dirties :=
    fun o l hl => mem_smudge.mpr (.inr (mem_smudge.mpr (.inr hl)))
  have hsmudge : ∀ (o : OccLists Watcher), (o.smudge a.not).smudge b.not =
      { o with dirties := ((o.smudge a.not).smudge b.not).dirties } := fun o =>
    congrArg (fun occs => OccLists.mk occs _) ((occs_smudge _ _).trans (occs_smudge _ _))
  cases rest with
  | nil =>
    refine ⟨s.watches.dirties, ((s.watchesBin.smudge a.not).smudge b.not).dirties, ?_,
      h.leave hcr (List.Subset.refl _) (hmono _) (fun hlong => ?_) fun _ => htake _⟩
    · rw [detachClause, hc]
      exact congrArg (fun o => Except.ok { s with watchesBin := o }) (hsmudge _)
    · have hlt := hlong.2
      rw [hc] at hlt
      exact absurd hlt (Nat.lt_irrefl 2)
  | cons c rest =>
    refine ⟨((s.watches.smudge a.not).smudge b.not).dirties, s.watchesBin.dirties, ?_,
      h.leave hcr (hmono _) (List.Subset.refl _) (fun _ => htake _) fun hbinary => ?_⟩
    · rw [detachClause, hc]
      exact congrArg (fun o => Except.ok { s with watches := o }) (hsmudge _)
    · have hlen := hbinary.2
      rw [hc] at hlen
      cases hlen

/-- The solver with one more clause, which is not watched yet. -/
def added (s : Solver) (c : Clause) : Solver :=
  { (s.alloc c).2 with clauses := s.clauses ++ [s.allocated] }

section

variable {c : Clause} {cr' : Ref}

theorem literals_added_self : (s.added c).literals s.allocated = c.literals :=
  congrArg Clause.literals (Function.update_self ..)

theorem clause_added_of_ne (hne : cr' ≠ s.allocated) : (s.added c).clause cr' = s.clause cr' :=
  Function.update_of_ne hne ..

theorem literals_added_of_ne (hne : cr' ≠ s.allocated) :
    (s.added c).literals cr' = s.literals cr' := congrArg Clause.literals (clause_added_of_ne hne)

theorem mem_clauses_added : cr' ∈ (s.added c).clauses ↔ cr' ∈ s.clauses ∨ cr' = s.allocated :=
  List.mem_append.trans (or_congr_right List.mem_singleton)

variable (h : InvWithout s gone)

include h

theorem InvWithout.ne_allocated (hcr : cr ∈ s.clauses) : cr ≠ s.allocated :=
  Nat.ne_of_lt (h.allocated cr hcr)

theorem InvWithout.allocated_notMem : s.allocated ∉ gone :=
  fun hg => h.ne_allocated (h.subset hg) rfl

/-- The clauses of a length that are there. -/
theorem InvWithout.sized_added (P : Nat → Prop) :
    (cr' ∈ (s.added c).clauses ∧ P ((s.added c).literals cr').length) ∧ cr' ∉ gone ↔
      ((cr' ∈ s.clauses ∧ P (s.literals cr').length) ∧ cr' ∉ gone) ∨
        cr' = s.allocated ∧ P c.literals.length := by
  rw [mem_clauses_added]
  by_cases he : cr' = s.allocated
  · rw [he, literals_added_self]
    have hold : s.allocated ∉ s.clauses := fun hcr => h.ne_allocated hcr rfl
    have hlive := h.allocated_notMem
    tauto
  · rw [literals_added_of_ne he]
    tauto

/-- The watchers of the clauses of some lengths, when a clause is added. -/
theorem InvWithout.watched_added {P : Nat → Prop} [DecidablePred P] {o o' : OccLists Watcher}
    {a b : Lit} {rest : Cl}
    (hw : Watched s.literals (fun cr => (cr ∈ s.clauses ∧ P (s.literals cr).length) ∧ cr ∉ gone)
      (without gone o.occs))
    (hc : c.literals = a :: b :: rest) (hab : a ≠ b)
    (ho : o' = if P c.literals.length then
      (o.push a.not ⟨s.allocated, b⟩).push b.not ⟨s.allocated, a⟩ else o) :
    Watched (s.added c).literals
      (fun cr => (cr ∈ (s.added c).clauses ∧ P ((s.added c).literals cr).length) ∧ cr ∉ gone)
      (without gone o'.occs) := by
  have hlits : ∀ cr, (cr ∈ s.clauses ∧ P (s.literals cr).length) ∧ cr ∉ gone →
      (s.added c).literals cr = s.literals cr := fun cr hcr =>
    literals_added_of_ne (h.ne_allocated hcr.1.1)
  by_cases hP : P c.literals.length
  · rw [if_pos hP] at ho
    refine (hw.attach (fun hcr => h.ne_allocated hcr.1.1 rfl) hlits
      (literals_added_self.trans hc) hab fun l => ?_).of_eq (fun cr => ?_) fun _ _ => rfl
    · unfold without
      rw [ho, occs_push_push, List.filter_append]
      refine congrArg _ (List.filter_eq_self.mpr fun w hw => ?_)
      have hcref : w.cref = s.allocated := by
        rcases mem_watchersOf.mp hw with ⟨rfl, -⟩ | ⟨rfl, -⟩ <;> rfl
      rw [Bool.not_eq_true', ← Bool.not_eq_true, List.contains_iff_mem, hcref]
      exact h.allocated_notMem
    · exact (h.sized_added P).trans (or_congr_right (and_iff_left hP))
  · rw [if_neg hP] at ho
    rw [ho]
    exact hw.of_eq (fun cr => (h.sized_added P).trans (or_iff_left fun he => hP he.2)) hlits

theorem InvWithout.dirty_added {o : OccLists Watcher} {a b : Lit}
    (hdirty : ∀ l, ∀ w ∈ o.occs l, w.cref ∈ gone → l ∈ o.dirties) {P : Prop} [Decidable P] {l : Lit}
    {w : Watcher}
    (hw : w ∈ (if P then (o.push a.not ⟨s.allocated, b⟩).push b.not ⟨s.allocated, a⟩ else o).occs l)
    (hg : w.cref ∈ gone) :
    l ∈ (if P then (o.push a.not ⟨s.allocated, b⟩).push b.not ⟨s.allocated, a⟩ else o).dirties := by
  split at hw
  · rw [if_pos ‹P›]
    rw [occs_push_push] at hw
    refine hdirty l w ((List.mem_append.mp hw).resolve_right fun hw => h.allocated_notMem ?_) hg
    rcases mem_watchersOf.mp hw with ⟨rfl, -⟩ | ⟨rfl, -⟩ <;> exact hg
  · rw [if_neg ‹¬P›]
    exact hdirty l w hw hg

/-- A new clause joins those that are there once it is watched. -/
theorem InvWithout.join (hc : ClauseOk s.nVars c.literals) (hdeleted : c.deleted = false)
    {a b : Lit} {rest : Cl} (hlits : c.literals = a :: b :: rest) {w wBin : OccLists Watcher}
    (hw : w = if 2 < c.literals.length then
      (s.watches.push a.not ⟨s.allocated, b⟩).push b.not ⟨s.allocated, a⟩ else s.watches)
    (hwBin : wBin = if c.literals.length = 2 then
      (s.watchesBin.push a.not ⟨s.allocated, b⟩).push b.not ⟨s.allocated, a⟩ else s.watchesBin) :
    InvWithout { s.added c with watches := w, watchesBin := wBin } gone := by
  have hab : a ≠ b := by
    have hnodup := hc.nodup
    rw [hlits] at hnodup
    exact fun he => (List.nodup_cons.mp hnodup).1 (he ▸ List.mem_cons_self)
  have hclauses : ∀ cr ∈ (s.added c).clauses, cr ∈ s.clauses ∨ cr = s.allocated :=
    fun cr hcr => mem_clauses_added.mp hcr
  refine ⟨⟨h.trail.vars, h.trail.nodup, h.trail.value_iff, h.trail.qhead_le⟩, ?_, ?_, ?_, ?_, ?_,
    h.watched_added (P := (2 < ·)) h.long hlits hab hw,
    h.watched_added (P := (· = 2)) h.binary hlits hab hwBin, ?_, ?_⟩
  · intro cr hcr hlive
    show ClauseOk s.nVars ((s.added c).literals cr)
    rcases hclauses cr hcr with hcr | rfl
    · rw [literals_added_of_ne (h.ne_allocated hcr)]
      exact h.clause cr hcr hlive
    · rw [literals_added_self]
      exact hc
  · intro cr hcr
    show cr < s.allocated + 1
    rcases hclauses cr hcr with hcr | rfl
    · exact Nat.lt_succ_of_lt (h.allocated cr hcr)
    · exact Nat.lt_succ_self _
  · intro cr hcr hlive
    show ((s.added c).clause cr).deleted = false
    rcases hclauses cr hcr with hcr | rfl
    · rw [clause_added_of_ne (h.ne_allocated hcr)]
      exact h.kept cr hcr hlive
    · exact (congrArg Clause.deleted (Function.update_self ..)).trans hdeleted
  · show (s.clauses ++ [s.allocated]).Nodup
    rw [List.nodup_append_comm]
    exact List.nodup_cons.mpr ⟨fun hcr => h.ne_allocated hcr rfl, h.nodup⟩
  · exact fun cr hcr => List.mem_append_left _ (h.subset hcr)
  · rw [hw]
    exact fun l v hv hg => h.dirty_added h.dirty hv hg
  · rw [hwBin]
    exact fun l v hv hg => h.dirty_added h.dirtyBin hv hg

/-- A new clause is attached. -/
theorem InvWithout.attach (hc : ClauseOk s.nVars c.literals) (hdeleted : c.deleted = false) :
    ∃ w wBin, (∀ t : Solver, t.literals s.allocated = c.literals → t.watches = s.watches →
        t.watchesBin = s.watchesBin →
        t.attachClause s.allocated = .ok { t with watches := w, watchesBin := wBin }) ∧
      w.dirties = s.watches.dirties ∧ wBin.dirties = s.watchesBin.dirties ∧
      InvWithout { s.added c with watches := w, watchesBin := wBin } gone := by
  obtain ⟨a, b, rest, hlits⟩ := exists_of_two_le hc.two_le
  cases rest with
  | nil =>
    have hbinary : c.literals.length = 2 := congrArg List.length hlits
    refine ⟨s.watches, (s.watchesBin.push a.not ⟨s.allocated, b⟩).push b.not ⟨s.allocated, a⟩,
      ?_, rfl, rfl, h.join hc hdeleted hlits (if_neg (Nat.not_lt_of_le (Nat.le_of_eq hbinary))).symm
        (if_pos hbinary).symm⟩
    intro t ht hw hwBin
    rw [attachClause, ht, hlits, hwBin, ← hw]
  | cons d rest =>
    have hlong : 2 < c.literals.length := by
      rw [hlits]
      exact Nat.le_add_left 3 _
    refine ⟨(s.watches.push a.not ⟨s.allocated, b⟩).push b.not ⟨s.allocated, a⟩, s.watchesBin,
      ?_, rfl, rfl, h.join hc hdeleted hlits (if_pos hlong).symm (if_neg (Nat.ne_of_gt hlong)).symm⟩
    intro t ht hw hwBin
    rw [attachClause, ht, hlits, ← hwBin]
    simp only [pushWatch, hw]

end

theorem cleanAll_eq_without {o : OccLists Watcher} {deleted : Watcher → Bool}
    (hkept : ∀ l, ∀ w ∈ without gone o.occs l, deleted w = false)
    (hgone : ∀ w : Watcher, w.cref ∈ gone → deleted w = true)
    (hdirty : ∀ l, ∀ w ∈ o.occs l, w.cref ∈ gone → l ∈ o.dirties) :
    (o.cleanAll deleted).occs = without gone o.occs := by
  funext l
  show (if o.dirties.contains l then (o.occs l).filter (!deleted ·) else o.occs l) = _
  split
  · refine List.filter_congr fun w hw => ?_
    by_cases hg : w.cref ∈ gone
    · rw [hgone w hg, List.contains_iff_mem.mpr hg]
    · rw [hkept l w (mem_without.mpr ⟨hw, hg⟩),
        Bool.eq_false_iff.mpr fun hc => hg (List.contains_iff_mem.mp hc)]
  · rename_i hclean
    refine (List.filter_eq_self.mpr fun w hw => ?_).symm
    rw [Bool.not_eq_true', ← Bool.not_eq_true, List.contains_iff_mem]
    exact fun hg => hclean (List.contains_iff_mem.mpr (hdirty l w hw hg))

/-- Once the clauses that are gone are marked as deleted, the lists are cleaned
of their watchers, and they leave the list of clauses. -/
theorem InvWithout.collect (h : InvWithout s gone)
    (hgone : ∀ cr ∈ gone, (s.clause cr).deleted = true) :
    Inv s.cleanAll.freeMarkedClauses ∧
      ∀ cr, cr ∈ s.cleanAll.freeMarkedClauses.clauses ↔ cr ∈ s.clauses ∧ cr ∉ gone := by
  have hmem : ∀ cr, cr ∈ s.cleanAll.freeMarkedClauses.clauses ↔ cr ∈ s.clauses ∧ cr ∉ gone := by
    intro cr
    refine List.mem_filter.trans (and_congr_right fun hcr => ?_)
    show (!(s.clause cr).deleted) = true ↔ _
    rw [Bool.not_eq_true', ← Bool.not_eq_true]
    refine not_congr ⟨fun hd => ?_, hgone cr⟩
    by_contra hlive
    rw [h.kept cr hcr hlive] at hd
    cases hd
  refine ⟨⟨?_, ?_, ?_, ?_, ?_, ?_, rfl, rfl⟩, hmem⟩
  · exact ⟨h.trail.vars, h.trail.nodup, h.trail.value_iff, h.trail.qhead_le⟩
  · intro cr hcr
    obtain ⟨hcr, hlive⟩ := (hmem cr).mp hcr
    exact h.clause cr hcr hlive
  · intro cr hcr
    obtain ⟨hcr, hlive⟩ := (hmem cr).mp hcr
    exact ⟨h.allocated cr hcr, h.kept cr hcr hlive⟩
  · exact h.nodup.filter _
  · show Watched s.literals _ (s.watches.cleanAll _).occs
    rw [cleanAll_eq_without (fun l w hw => ?_) (fun w hw => hgone w.cref hw) h.dirty]
    · refine h.long.of_eq (fun cr => ?_) fun _ _ => rfl
      unfold Long
      rw [hmem, and_right_comm]
      rfl
    · obtain ⟨⟨hlong, hlive⟩, -⟩ := h.long.sound l w hw
      exact h.kept w.cref hlong.1 hlive
  · show Watched s.literals _ (s.watchesBin.cleanAll _).occs
    rw [cleanAll_eq_without (fun l w hw => ?_) (fun w hw => hgone w.cref hw) h.dirtyBin]
    · refine h.binary.of_eq (fun cr => ?_) fun _ _ => rfl
      unfold Binary
      rw [hmem, and_right_comm]
      rfl
    · obtain ⟨⟨hbinary, hlive⟩, -⟩ := h.binary.sound l w hw
      exact h.kept w.cref hbinary.1 hlive

end

end Solver

end reductor.candy
