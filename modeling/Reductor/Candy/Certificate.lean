-- The certificate that Candy writes while it reads a file. Its lines check
-- from the clauses of the file, integer by integer, and they lead to just the
-- clauses that the solver gets.
import Reductor.Candy.Grammar

open reductor.streams reductor.drup

namespace reductor.candy

/-! ## Lines -/

/-- The integer that `Certificate::printLiterals` writes for a literal. -/
def Lit.dimacs (p : Lit) : Int := (var p + 1) * if sign p then -1 else 1

/-- Every literal is written as the integer that it was read from. -/
theorem dimacs_literal (z : Int) : (literal z).dimacs = z := by
  unfold Lit.dimacs
  rw [var_eq, sign_eq, literal_x]
  by_cases hneg : z < 0
  · rw [if_pos hneg, if_pos (decide_eq_true (by omega))]
    omega
  · rw [if_neg hneg, if_neg (by rw [decide_eq_true_eq]; omega)]
    omega

theorem map_dimacs_literal (zs : List Int) : (zs.map literal).map Lit.dimacs = zs := by
  rw [List.map_map]
  conv_rhs => rw [← List.map_id zs]
  exact List.map_congr_left fun z _ => dimacs_literal z

/-- The clauses of a solver as a checker of certificates sees them. -/
def written (clauses : List Cl) : Multiset (Multiset Int) :=
  ↑(clauses.map fun c => (↑(c.map Lit.dimacs) : Multiset Int))

theorem written_append (cs ds : List Cl) : written (cs ++ ds) = written cs + written ds := by
  unfold written
  rw [List.map_append, Multiset.coe_add]

/-! ## A clause -/

section

variable {cnf cnf' : CNFProblem} {zs : List Int}

theorem Normalizes.nodup {lits clause : Cl} (h : Normalizes lits clause) : clause.Nodup :=
  h.increasing.imp fun hlt he => by
    rw [he] at hlt
    exact Int.lt_irrefl _ hlt

/-- What reading a clause adds to the certificate leads from the clause to
what the problem keeps of it. -/
theorem ReadsClause.checks (h : ReadsClause cnf (zs.map literal) cnf') :
    ∃ lines clauses, cnf'.certificate = cnf.certificate ++ lines ∧
      cnf'.problem = cnf.problem ++ clauses ∧
      Checks {↑zs} (lines.map (Line.map Lit.dimacs)) (written clauses) := by
  have hzs := map_dimacs_literal zs
  cases h with
  | dropped _ _ =>
    refine ⟨[.removed (zs.map literal)], [], rfl, (List.append_nil _).symm, ?_⟩
    show Checks _ [.removed ((zs.map literal).map Lit.dimacs)] 0
    rw [hzs]
    exact .removed (.done 0)
  | @added clause _ _ hnorm _ _ =>
    refine ⟨shortened (zs.map literal) clause, [clause], rfl, rfl, ?_⟩
    show Checks _ _ {↑(clause.map Lit.dimacs)}
    unfold shortened
    by_cases hlength : clause.length = (zs.map literal).length
    · have hperm : clause.Perm (zs.map literal) :=
        (List.subperm_of_subset hnorm.nodup fun p hp => (hnorm.mem_iff p).mp hp).perm_of_length_le
          (Nat.le_of_eq hlength.symm)
      have hsame := hperm.map Lit.dimacs
      rw [hzs] at hsame
      rw [if_pos hlength, Multiset.coe_eq_coe.mpr hsame]
      exact .done _
    · rw [if_neg hlength]
      show Checks _ [.added (clause.map Lit.dimacs),
        .removed ((zs.map literal).map Lit.dimacs)] _
      rw [hzs]
      have hsubset : (↑zs : Multiset Int) ⊆ ↑(clause.map Lit.dimacs) := by
        intro z hmem
        rw [Multiset.mem_coe] at hmem ⊢
        exact List.mem_map.mpr ⟨literal z, (hnorm.mem_iff _).mpr (List.mem_map_of_mem hmem),
          dimacs_literal z⟩
      refine .added (rup_of_subset (Multiset.mem_singleton_self _) hsubset) ?_
      rw [← Multiset.cons_zero, Multiset.cons_swap]
      exact .removed (.done _)

end

/-! ## A file -/

/-- The clauses of a file as a checker of certificates sees them. -/
def fileClauses (items : List Item) : Multiset (Multiset Int) :=
  ↑(items.filterMap fun
    | .clause zs => some (↑zs : Multiset Int)
    | _ => none)

theorem fileClauses_cons (item : Item) (items : List Item) :
    fileClauses (item :: items) = fileClauses [item] + fileClauses items := by
  unfold fileClauses
  rw [Multiset.coe_add, ← List.filterMap_append]
  rfl

theorem ItemText.checks {item : Item} {s rest : Bytes} (h : ItemText item s rest)
    (cnf : CNFProblem) : ∃ lines clauses, (cnf.add item).certificate = cnf.certificate ++ lines ∧
      (cnf.add item).problem = cnf.problem ++ clauses ∧
      Checks (fileClauses [item]) (lines.map (Line.map Lit.dimacs)) (written clauses) := by
  cases h with
  | header => exact ⟨[], [], (List.append_nil _).symm, (List.append_nil _).symm, .done 0⟩
  | comment => exact ⟨[], [], (List.append_nil _).symm, (List.append_nil _).symm, .done 0⟩
  | lastComment => exact ⟨[], [], (List.append_nil _).symm, (List.append_nil _).symm, .done 0⟩
  | clause hzs => exact (readsClause cnf (valid_literals hzs.nonzero)).checks

theorem FileText.checks {items : List Item} {s : Bytes} (h : FileText items s) (cnf : CNFProblem) :
    ∃ lines clauses, (items.foldl CNFProblem.add cnf).certificate = cnf.certificate ++ lines ∧
      (items.foldl CNFProblem.add cnf).problem = cnf.problem ++ clauses ∧
      Checks (fileClauses items) (lines.map (Line.map Lit.dimacs)) (written clauses) := by
  induction h generalizing cnf with
  | done => exact ⟨[], [], (List.append_nil _).symm, (List.append_nil _).symm, .done 0⟩
  | @item item items space s rest _ hitem _ ih =>
    obtain ⟨lines, clauses, hlines, hclauses, hchecks⟩ := hitem.checks cnf
    obtain ⟨lines', clauses', hlines', hclauses', hchecks'⟩ := ih (cnf.add item)
    refine ⟨lines ++ lines', clauses ++ clauses', ?_, ?_, ?_⟩
    · rw [List.foldl_cons, hlines', hlines, List.append_assoc]
    · rw [List.foldl_cons, hclauses', hclauses, List.append_assoc]
    · rw [fileClauses_cons, List.map_append, written_append]
      refine (hchecks.frame (fileClauses items)).append ?_
      rw [add_comm (written clauses), add_comm (written clauses)]
      exact hchecks'.frame (written clauses)

theorem FileText.nonzero {items : List Item} {s : Bytes} (h : FileText items s) :
    ∀ zs, Item.clause zs ∈ items → ∀ z ∈ zs, z ≠ 0 := by
  induction h with
  | done =>
    intro zs hzs
    cases hzs
  | item _ hitem _ ih =>
    intro zs hzs
    rcases List.mem_cons.mp hzs with rfl | hzs
    · cases hitem with
      | clause htext => exact htext.nonzero
    · exact ih zs hzs

theorem mem_fileClauses {items : List Item} {c : Multiset Int} :
    c ∈ fileClauses items ↔ ∃ zs, Item.clause zs ∈ items ∧ c = ↑zs := by
  unfold fileClauses
  rw [Multiset.mem_coe, List.mem_filterMap]
  constructor
  · rintro ⟨item, hitem, hc⟩
    cases item with
    | clause zs =>
      cases hc
      exact ⟨zs, hitem, rfl⟩
    | comment => cases hc
    | header => cases hc
  · rintro ⟨zs, hzs, rfl⟩
    exact ⟨_, hzs, rfl⟩

/-- Whatever file Candy accepts, the certificate that it has written when it
has read the file checks: each clause that is added follows from those of the
file and the lines before, each that is removed is there, and those left are
the clauses of the problem. So lines that go on from there to the empty clause
refute the file. -/
theorem the_certificate_of_a_file_checks {bytes : Bytes} {cnf : CNFProblem}
    (h : problemOf bytes = .ok cnf) :
    ∃ items, FileText items bytes ∧
      Checks (fileClauses items) (cnf.certificate.map (Line.map Lit.dimacs))
        (written cnf.problem) ∧
      ∀ lines G, Checks (written cnf.problem) lines G → 0 ∈ G →
        Checks (fileClauses items) (cnf.certificate.map (Line.map Lit.dimacs) ++ lines) G ∧
          ∀ a, ¬ ∀ zs, Item.clause zs ∈ items → ∃ z ∈ zs, Holds a z := by
  obtain ⟨items, hitems, rfl⟩ := problemOf_eq_ok_iff.mp h
  obtain ⟨reading, clauses, hreading, hclauses, hchecks⟩ := hitems.checks {}
  have hfile : Checks (fileClauses items)
      ((items.foldl CNFProblem.add {}).certificate.map (Line.map Lit.dimacs))
      (written (items.foldl CNFProblem.add {}).problem) := by
    rw [hreading, hclauses]
    exact hchecks
  refine ⟨items, hitems, hfile, ?_⟩
  intro lines G hlines hempty
  refine ⟨hfile.append hlines, fun a hall => ?_⟩
  -- 0 is no literal, so it is not asked whether it holds
  have hneg : ∀ z : Int, (-z ≠ 0 ∧ Holds a (-z)) → ¬ (z ≠ 0 ∧ Holds a z) := by
    rintro z ⟨-, hnot⟩ ⟨hz, hholds⟩
    unfold Holds at hnot hholds
    rw [Int.natAbs_neg, hholds, decide_eq_decide] at hnot
    omega
  have hrefuted : ¬ Satisfied (fun z : Int => z ≠ 0 ∧ Holds a z) (fileClauses items) :=
    (hfile.append hlines).refutes hneg hempty
  refine hrefuted ?_
  intro c hc
  obtain ⟨zs, hzs, rfl⟩ := mem_fileClauses.mp hc
  obtain ⟨z, hmem, hholds⟩ := hall zs hzs
  exact ⟨z, hmem, hitems.nonzero zs hzs z hmem, hholds⟩

/-- A literal twice and a tautology; what is left is refuted at once. -/
theorem the_certificate_of_a_small_file_checks :
    ∃ items, FileText items (ascii "1 1 0 2 -2 0 -1 0") ∧
      Checks (fileClauses items) [.added [1], .removed [1, 1], .removed [2, -2]] {{1}, {-1}} ∧
      ∀ lines G, Checks {{1}, {-1}} lines G → 0 ∈ G →
        Checks (fileClauses items) ([.added [1], .removed [1, 1], .removed [2, -2]] ++ lines) G ∧
          ∀ a, ¬ ∀ zs, Item.clause zs ∈ items → ∃ z ∈ zs, Holds a z := by
  have hread : problemOf (ascii "1 1 0 2 -2 0 -1 0") = .ok ⟨[[⟨0⟩], [⟨1⟩]], 2, 0, 0,
      [.added [⟨0⟩], .removed [⟨0⟩, ⟨0⟩], .removed [⟨2⟩, ⟨3⟩]]⟩ := by decide +kernel
  exact the_certificate_of_a_file_checks hread

end reductor.candy
