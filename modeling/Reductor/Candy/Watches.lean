-- The invariant of Candy's solver: the trail is what the values say, and the
-- watchers watch the first two literals of each clause, wherever these go.
import Reductor.Candy.Solver
import Mathlib.Data.List.Perm.Subperm

namespace reductor.candy

namespace Solver

/-! ## Values -/

section

variable {s : Solver} {p q : Lit} {cr : Option Ref}

theorem value_not (s : Solver) (p : Lit) : s.value p.not = (s.value p).map (!·) := by
  unfold value
  rw [var_not, sign_not, Option.map_map]
  congr
  funext b
  cases b <;> cases sign p <;> rfl

theorem value_eq_false_iff : s.value p = some false ↔ s.value p.not = some true := by
  rw [value_not]
  cases s.value p with
  | none => decide
  | some b => cases b <;> decide

theorem value_enqueued_self : (s.enqueued p cr).value p = some true := by
  show Option.map _ (Function.update s.assigns (var p) (some (!sign p)) (var p)) = _
  rw [Function.update_self]
  cases sign p <;> rfl

theorem value_enqueued_of_ne (h : var q ≠ var p) : (s.enqueued p cr).value q = s.value q :=
  congrArg (Option.map _) (Function.update_of_ne h _ _)

/-- A literal has a value if and only if its variable has one. -/
theorem value_eq_none_of_var_eq (h : var q = var p) (hp : s.value p = none) : s.value q = none := by
  unfold value at hp ⊢
  rw [Option.map_eq_none_iff] at hp ⊢
  rw [h, hp]

theorem value_enqueued_of_some {b : Bool} (hp : s.value p = none) (hq : s.value q = some b) :
    (s.enqueued p cr).value q = some b := by
  rw [value_enqueued_of_ne, hq]
  intro hvar
  rw [value_eq_none_of_var_eq hvar hp] at hq
  cases hq

/-- The literal that is enqueued, or one of its variable: its own, or the other one. -/
theorem eq_or_eq_not (h : var q = var p) : q = p ∨ q = p.not := by
  rw [var_eq, var_eq] at h
  have hx := not_x p
  by_cases he : q.x = p.x
  · exact .inl (Lit.ext_x he)
  · refine .inr (Lit.ext_x ?_)
    split at hx <;> omega

theorem value_enqueued_eq_true_iff (hp : s.value p = none) :
    (s.enqueued p cr).value q = some true ↔ q = p ∨ s.value q = some true := by
  constructor
  · intro hq
    by_cases hvar : var q = var p
    · rcases eq_or_eq_not hvar with rfl | rfl
      · exact .inl rfl
      · rw [value_not, value_enqueued_self] at hq
        cases hq
    · rw [value_enqueued_of_ne hvar] at hq
      exact .inr hq
  · rintro (rfl | hq)
    · exact value_enqueued_self
    · exact value_enqueued_of_some hp hq

end

/-! ## The trail -/

/-- The trail holds each variable once, and the values are those it gives. -/
structure TrailOk (s : Solver) : Prop where
  vars : ∀ p ∈ s.trail, 0 ≤ var p ∧ var p < s.nVars
  nodup : (s.trail.map var).Nodup
  value_iff : ∀ p, s.value p = some true ↔ p ∈ s.trail
  qhead_le : s.qhead ≤ s.trail.length

section

variable {s : Solver} {p q : Lit} {cr : Option Ref}

theorem TrailOk.value_false_iff (h : TrailOk s) : s.value p = some false ↔ p.not ∈ s.trail := by
  rw [value_eq_false_iff, h.value_iff]

theorem TrailOk.enqueued (h : TrailOk s) (hp : s.value p = none)
    (hvar : 0 ≤ var p ∧ var p < s.nVars) :
    TrailOk (s.enqueued p cr) := by
  refine ⟨?_, ?_, ?_, ?_⟩
  · exact List.forall_mem_append.mpr ⟨h.vars, List.forall_mem_singleton.mpr hvar⟩
  · show ((s.trail ++ [p]).map var).Nodup
    rw [List.map_append, List.nodup_append_comm]
    refine List.nodup_cons.mpr ⟨?_, h.nodup⟩
    intro hmem
    obtain ⟨q, hq, hvar'⟩ := List.mem_map.mp hmem
    have hq := (h.value_iff q).mpr hq
    rw [value_eq_none_of_var_eq hvar' hp] at hq
    cases hq
  · intro q
    rw [value_enqueued_eq_true_iff hp, h.value_iff]
    show _ ↔ q ∈ s.trail ++ [p]
    rw [List.mem_append, List.mem_singleton, or_comm]
  · show s.qhead ≤ (s.trail ++ [p]).length
    rw [List.length_append]
    exact Nat.le_add_right_of_le h.qhead_le

/-- The trail never holds more literals than there are variables. -/
theorem TrailOk.length_le (h : TrailOk s) : s.trail.length ≤ s.nVars.toNat := by
  have hnodup : ((s.trail.map var).map Int.toNat).Nodup := by
    refine h.nodup.map_on fun x hx y hy he => ?_
    obtain ⟨p, hp, rfl⟩ := List.mem_map.mp hx
    obtain ⟨q, hq, rfl⟩ := List.mem_map.mp hy
    have h1 := (h.vars p hp).1
    have h2 := (h.vars q hq).1
    omega
  have hsubset : (s.trail.map var).map Int.toNat ⊆ List.range s.nVars.toNat := by
    intro n hn
    obtain ⟨x, hx, rfl⟩ := List.mem_map.mp hn
    obtain ⟨p, hp, rfl⟩ := List.mem_map.mp hx
    have h1 := h.vars p hp
    rw [List.mem_range]
    omega
  have hle := (List.subperm_of_subset hnodup hsubset).length_le
  rwa [List.length_map, List.length_map, List.length_range] at hle

end

/-! ## Watchers -/

/-- The lists hold the watchers of some clauses: one for each of the first two
literals of a clause, in the list of the negated literal, and no others. The
blocker is another literal of the clause. -/
structure Watched (lits : Ref → Cl) (refs : Ref → Prop) (occs : Lit → List Watcher) : Prop where
  sound : ∀ l, ∀ w ∈ occs l, refs w.cref ∧ l.not ∈ (lits w.cref).take 2 ∧
    w.blocker ∈ lits w.cref ∧ w.blocker ≠ l.not
  complete : ∀ cr, refs cr → ∀ q ∈ (lits cr).take 2, ∃ w ∈ occs q.not, w.cref = cr
  nodup : ∀ l, ((occs l).map Watcher.cref).Nodup

section

variable {lits lits' : Ref → Cl} {refs refs' : Ref → Prop} {occs occs' : Lit → List Watcher}

/-- Only the first two literals of the clauses and the others as a set count. -/
theorem Watched.congr (h : Watched lits refs occs) (hrefs : ∀ cr, refs' cr ↔ refs cr)
    (hmem : ∀ cr, refs cr → ∀ r, r ∈ lits' cr ↔ r ∈ lits cr)
    (htake : ∀ cr, refs cr → ∀ r, r ∈ (lits' cr).take 2 ↔ r ∈ (lits cr).take 2) :
    Watched lits' refs' occs := by
  refine ⟨?_, ?_, h.nodup⟩
  · intro l w hw
    obtain ⟨hcr, hwatch, hblocker, hne⟩ := h.sound l w hw
    exact ⟨(hrefs _).mpr hcr, (htake _ hcr _).mpr hwatch, (hmem _ hcr _).mpr hblocker, hne⟩
  · intro cr hcr q hq
    have hcr := (hrefs cr).mp hcr
    exact h.complete cr hcr q ((htake cr hcr q).mp hq)

/-- A watcher gets another blocker. -/
theorem Watched.reblock (h : Watched lits refs occs) {l b : Lit} {kept ws : List Watcher}
    {w : Watcher}
    (hl : occs l = kept ++ w :: ws) (hl' : occs' l = kept ++ ⟨w.cref, b⟩ :: ws)
    (hne : ∀ m, m ≠ l → occs' m = occs m) (hb : b ∈ lits w.cref) (hbl : b ≠ l.not) :
    Watched lits refs occs' := by
  have hw := h.sound l w (by rw [hl]; exact List.mem_append_right _ List.mem_cons_self)
  refine ⟨?_, ?_, ?_⟩
  · intro m v hv
    by_cases hm : m = l
    · subst hm
      rw [hl'] at hv
      have hrest : v ∈ kept ++ w :: ws ∨ v = ⟨w.cref, b⟩ := by
        rcases List.mem_append.mp hv with hv | hv
        · exact .inl (List.mem_append_left _ hv)
        · rcases List.mem_cons.mp hv with hv | hv
          · exact .inr hv
          · exact .inl (List.mem_append_right _ (List.mem_cons_of_mem _ hv))
      rcases hrest with hv | rfl
      · exact h.sound m v (by rw [hl]; exact hv)
      · exact ⟨hw.1, hw.2.1, hb, hbl⟩
    · rw [hne m hm] at hv
      exact h.sound m v hv
  · intro cr hcr q hq
    obtain ⟨v, hv, hvcr⟩ := h.complete cr hcr q hq
    by_cases hm : q.not = l
    · rw [hm, hl] at hv
      rw [hm, hl']
      rcases List.mem_append.mp hv with hv | hv
      · exact ⟨v, List.mem_append_left _ hv, hvcr⟩
      · rcases List.mem_cons.mp hv with rfl | hv
        · exact ⟨_, List.mem_append_right _ List.mem_cons_self, hvcr⟩
        · exact ⟨v, List.mem_append_right _ (List.mem_cons_of_mem _ hv), hvcr⟩
    · rw [hne _ hm]
      exact ⟨v, hv, hvcr⟩
  · intro m
    by_cases hm : m = l
    · subst hm
      have hnodup := h.nodup m
      rw [hl] at hnodup
      rw [hl']
      rw [List.map_append, List.map_cons] at hnodup ⊢
      exact hnodup
    · rw [hne m hm]
      exact h.nodup m

/-- A clause whose second literal is watched in the list of `l` gets another
second literal: its watcher leaves that list for the list of the other literal. -/
theorem Watched.move (h : Watched lits refs occs) {l first q : Lit} {rest rest' : Cl}
    {kept ws : List Watcher} {w : Watcher} {lits' : Ref → Cl}
    (hl : occs l = kept ++ w :: ws) (hc : lits w.cref = first :: l.not :: rest)
    (hnodup : (lits w.cref).Nodup) (hq : q ∈ rest)
    (hc' : lits' w.cref = first :: q :: rest') (hperm : (lits' w.cref).Perm (lits w.cref))
    (hlits : ∀ cr, cr ≠ w.cref → lits' cr = lits cr)
    (hl' : occs' l = kept ++ ws) (hq' : occs' q.not = occs q.not ++ [⟨w.cref, first⟩])
    (hne : ∀ m, m ≠ l → m ≠ q.not → occs' m = occs m) :
    Watched lits' refs occs' := by
  rw [hc] at hnodup
  obtain ⟨hfirst, hrest⟩ := List.nodup_cons.mp hnodup
  obtain ⟨hsecond, -⟩ := List.nodup_cons.mp hrest
  have hql : q ≠ l.not := fun he => hsecond (he ▸ hq)
  have hqf : q ≠ first := fun he => hfirst (he ▸ List.mem_cons_of_mem _ hq)
  have hqn : q.not ≠ l := fun he => hql (by rw [← he, lit_not_not])
  have hw := h.sound l w (by rw [hl]; exact List.mem_append_right _ List.mem_cons_self)
  -- a watcher of this clause in a list that stays is the one of its first literal
  have hother : ∀ m, m ≠ l → ∀ v ∈ occs m, v.cref = w.cref → m.not = first := by
    intro m hm v hv hvw
    have hwatch := (h.sound m v hv).2.1
    rw [hvw, hc] at hwatch
    refine (List.mem_pair.mp hwatch).resolve_right fun he => hm ?_
    rw [← lit_not_not m, he, lit_not_not]
  have hgone : ∀ v ∈ kept ++ ws, v.cref ≠ w.cref := by
    intro v hv he
    have hnd := h.nodup l
    rw [hl, List.map_append, List.map_cons] at hnd
    have hnd := List.nodup_middle.mp hnd
    refine (List.nodup_cons.mp hnd).1 ?_
    rw [← he, ← List.map_append]
    exact List.mem_map_of_mem hv
  have hcases : ∀ m, ∀ v ∈ occs' m, (v = ⟨w.cref, first⟩ ∧ m = q.not) ∨ v ∈ occs m ∧
      (v.cref = w.cref → m.not = first) := by
    intro m v hv
    by_cases hm : m = l
    · subst hm
      rw [hl'] at hv
      refine .inr ⟨?_, fun he => absurd he (hgone v hv)⟩
      rw [hl]
      rcases List.mem_append.mp hv with hv | hv
      · exact List.mem_append_left _ hv
      · exact List.mem_append_right _ (List.mem_cons_of_mem _ hv)
    · by_cases hmq : m = q.not
      · rw [hmq, hq'] at hv
        rcases List.mem_append.mp hv with hv | hv
        · rw [← hmq] at hv
          exact .inr ⟨hv, hother m hm v hv⟩
        · exact .inl ⟨List.mem_singleton.mp hv, hmq⟩
      · rw [hne m hm hmq] at hv
        exact .inr ⟨hv, hother m hm v hv⟩
  refine ⟨?_, ?_, ?_⟩
  · intro m v hv
    rcases hcases m v hv with ⟨rfl, rfl⟩ | ⟨hv, hvw⟩
    · rw [lit_not_not]
      show refs w.cref ∧ q ∈ (lits' w.cref).take 2 ∧ first ∈ lits' w.cref ∧ first ≠ q
      rw [hc']
      exact ⟨hw.1, List.mem_cons_of_mem _ List.mem_cons_self, List.mem_cons_self, hqf.symm⟩
    · obtain ⟨hcr, hwatch, hblocker, hbl⟩ := h.sound m v hv
      by_cases he : v.cref = w.cref
      · refine ⟨hcr, ?_, ?_, hbl⟩
        · rw [he, hc', hvw he]
          exact List.mem_cons_self
        · rw [he] at hblocker ⊢
          exact hperm.mem_iff.mpr hblocker
      · rw [hlits _ he]
        exact ⟨hcr, hwatch, hblocker, hbl⟩
  · intro cr hcr r hr
    have hstays : ∀ v ∈ occs r.not, v.cref = cr → (r.not = l → v.cref ≠ w.cref) →
        ∃ v ∈ occs' r.not, v.cref = cr := by
      intro v hv hvcr hvl
      by_cases hm : r.not = l
      · have hvw := hvl hm
        rw [hm, hl] at hv
        rw [hm, hl']
        rcases List.mem_append.mp hv with hv | hv
        · exact ⟨v, List.mem_append_left _ hv, hvcr⟩
        · rcases List.mem_cons.mp hv with rfl | hv
          · exact absurd rfl hvw
          · exact ⟨v, List.mem_append_right _ hv, hvcr⟩
      · by_cases hmq : r.not = q.not
        · rw [hmq, hq']
          exact ⟨v, List.mem_append_left _ (hmq ▸ hv), hvcr⟩
        · rw [hne _ hm hmq]
          exact ⟨v, hv, hvcr⟩
    by_cases he : cr = w.cref
    · subst he
      rw [hc'] at hr
      rcases List.mem_pair.mp hr with rfl | rfl
      · have hmem : r ∈ (lits w.cref).take 2 := by
          rw [hc]
          exact List.mem_cons_self
        obtain ⟨v, hv, hvcr⟩ := h.complete w.cref hcr r hmem
        refine hstays v hv hvcr fun hm => ?_
        refine absurd ?_ hfirst
        rw [← hm, lit_not_not]
        exact List.mem_cons_self
      · exact ⟨⟨w.cref, first⟩, by rw [hq']; exact List.mem_append_right _ List.mem_cons_self, rfl⟩
    · rw [hlits cr he] at hr
      obtain ⟨v, hv, hvcr⟩ := h.complete cr hcr r hr
      exact hstays v hv hvcr fun _ => hvcr ▸ he
  · intro m
    by_cases hm : m = l
    · subst hm
      have hnd := h.nodup m
      rw [hl, List.map_append, List.map_cons] at hnd
      rw [hl', List.map_append]
      exact (List.nodup_cons.mp (List.nodup_middle.mp hnd)).2
    · by_cases hmq : m = q.not
      · rw [hmq, hq', List.map_append]
        refine List.nodup_append_comm.mp (List.nodup_cons.mpr ⟨?_, h.nodup q.not⟩)
        intro hmem
        obtain ⟨v, hv, hvw⟩ := List.mem_map.mp hmem
        have hqfirst := hother q.not hqn v hv hvw
        rw [lit_not_not] at hqfirst
        exact hqf hqfirst
      · rw [hne m hm hmq]
        exact h.nodup m

end

/-! ## The invariant -/

structure ClauseOk (n : Int) (c : Cl) : Prop where
  nodup : c.Nodup
  two_le : 2 ≤ c.length
  vars : ∀ p ∈ c, 0 ≤ var p ∧ var p < n

theorem ClauseOk.perm {n : Int} {c c' : Cl} (h : ClauseOk n c) (hperm : c'.Perm c) :
    ClauseOk n c' :=
  ⟨hperm.nodup_iff.mpr h.nodup, hperm.length_eq ▸ h.two_le,
    fun p hp => h.vars p (hperm.mem_iff.mp hp)⟩

/-- The clauses that `watches` is for. -/
def Long (s : Solver) (cr : Ref) : Prop := cr ∈ s.clauses ∧ 2 < (s.literals cr).length

/-- The clauses that `watchesBin` is for. -/
def Binary (s : Solver) (cr : Ref) : Prop := cr ∈ s.clauses ∧ (s.literals cr).length = 2

/-- What holds between any two operations of the solver. -/
structure Inv (s : Solver) : Prop where
  trail : TrailOk s
  clause : ∀ cr ∈ s.clauses, ClauseOk s.nVars (s.literals cr)
  allocated : ∀ cr ∈ s.clauses, cr < s.allocated ∧ (s.clause cr).deleted = false
  nodup : s.clauses.Nodup
  long : Watched s.literals s.Long s.watches.occs
  binary : Watched s.literals s.Binary s.watchesBin.occs
  clean : s.watches.dirties = [] ∧ s.watchesBin.dirties = []

end Solver

end reductor.candy
