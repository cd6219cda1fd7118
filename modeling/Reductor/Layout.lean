-- Two layouts of one DIMACS file: the reader takes a line for a clause, so
-- their models have the same solutions as long as each clause has a line of
-- its own.
import Reductor.Lexemes
import Reductor.Reduction

open reductor.java reductor.dimacs reductor.minizinc

namespace reductor.transformer

/-! ## The words of a line -/

/-- A word of tabs only. -/
def isTabs (t : Text) : Bool := t.all (· == '\t')

/-- No tab touches another character of a word. -/
def NoTabTouches (ts : List Text) : Prop := ∀ t ∈ ts, '\t' ∈ t → isTabs t = true

section

variable {l : Line} {t : Text} {ts : List Text} {v : Int32}

theorem words_eq_runs (s : Text) : words s = runs (· == ' ') s := by
  rw [words, List.splitOn_eq_splitOnP]
  rfl

/-- On a line without other blanks, spaces and tabs cut the words that spaces cut. -/
theorem blankTokens_eq (h : ∀ t ∈ blankTokens l.chars, ∀ c ∈ t, isBlank c = false) :
    blankTokens l.chars = (tokens l).flatMap blankTokens := by
  have hsep : ∀ c ∈ l.chars, isBlank c = true → isSpaceOrTab c = true := by
    intro c hc hblank
    by_contra hno
    obtain ⟨t, ht, hct⟩ := mem_runs_of_mem hc (Bool.eq_false_iff.mpr hno)
    rw [h t ht c hct] at hblank
    cases hblank
  have hcut : l.chars = l.chars.takeWhile isBlank ++ java.trim l.chars ++
      (l.chars.dropWhile isBlank).rtakeWhile isBlank := by
    rw [List.append_assoc, java.trim, List.rdropWhile_append_rtakeWhile,
      List.takeWhile_append_dropWhile]
  have hfront : ∀ c ∈ l.chars.takeWhile isBlank, isSpaceOrTab c = true := fun c hc =>
    hsep c (List.takeWhile_subset _ hc) (List.mem_takeWhile_imp hc)
  have hback : ∀ c ∈ (l.chars.dropWhile isBlank).rtakeWhile isBlank, isSpaceOrTab c = true :=
    fun c hc => hsep c ((List.dropWhile_suffix _).subset ((List.rtakeWhile_suffix _ _).subset hc))
      (List.mem_rtakeWhile_imp hc)
  rw [tokens, words_eq_runs]
  show runs isSpaceOrTab l.chars = (runs _ _).flatMap (runs isSpaceOrTab)
  rw [flatMap_runs (by simp +contextual [isSpaceOrTab]), hcut, runs_padded hfront hback, ← hcut]

theorem blankTokens_of_noTab (hne : t ≠ []) (hspace : ' ' ∉ t) (htab : '\t' ∉ t) :
    blankTokens t = [t] := by
  refine runs_run hne fun c hc => ?_
  simp only [isSpaceOrTab, Bool.or_eq_false_iff, beq_eq_false_iff_ne]
  exact ⟨fun h => hspace (h ▸ hc), fun h => htab (h ▸ hc)⟩

theorem blankTokens_of_isTabs (h : isTabs t = true) : blankTokens t = [] := by
  refine runs_of_padding fun c hc => ?_
  rw [isTabs, List.all_eq_true] at h
  rw [isSpaceOrTab, h c hc, Bool.or_true]

/-- Then spaces and tabs cut the same words as spaces alone, without the tabs. -/
theorem flatMap_blankTokens (hts : ∀ t ∈ ts, t ≠ [] ∧ ' ' ∉ t) (h : NoTabTouches ts) :
    ts.flatMap blankTokens = ts.filter (!isTabs ·) := by
  induction ts with
  | nil => rfl
  | cons t ts ih =>
    obtain ⟨hne, hspace⟩ := hts t List.mem_cons_self
    have ih := ih (fun u hu => hts u (List.mem_cons_of_mem t hu))
      fun u hu => h u (List.mem_cons_of_mem t hu)
    rw [List.flatMap_cons, ih]
    by_cases htabs : isTabs t = true
    · rw [blankTokens_of_isTabs htabs, List.filter_cons_of_neg (by rw [htabs]; decide)]
      rfl
    · have htab : '\t' ∉ t := fun hmem => htabs (h t List.mem_cons_self hmem)
      rw [blankTokens_of_noTab hne hspace htab, List.filter_cons_of_pos (by simpa using htabs)]
      rfl

theorem tab_notMem_of_reads (h : Reads t v) : '\t' ∉ t := by
  intro htab
  have hblank := h.word.2.2 '\t' htab
  exact absurd hblank (by decide)

theorem parseInt_of_isTabs (hne : t ≠ []) (h : isTabs t = true) : parseInt t = none := by
  rw [isTabs, List.all_eq_true] at h
  obtain ⟨c, hc⟩ := List.exists_mem_of_ne_nil t hne
  have htab : '\t' ∈ t := beq_iff_eq.mp (h c hc) ▸ hc
  rw [Option.eq_none_iff_forall_ne_some]
  exact fun v hv => tab_notMem_of_reads hv htab

/-- Words of tabs only are passed over. -/
theorem clauseValues_eq (l : Line) : clauseValues l =
    ((tokens l).filter (!isTabs ·)).filterMap parseInt := by
  rw [clauseValues, List.filterMap_filter]
  refine List.filterMap_congr fun t ht => ?_
  by_cases htabs : isTabs t = true
  · rw [parseInt_of_isTabs (mem_words ht).1 htabs, htabs]
    rfl
  · rw [if_pos (by simpa using htabs)]

/-- The first word starts with the first character that is no space and no tab. -/
theorem tokens_of_head {c : Char} (h : (l.chars.dropWhile isSpaceOrTab).head? = some c)
    (hc : isBlank c = false) : ∃ w rest, tokens l = (c :: w) :: rest := by
  obtain ⟨s, hs⟩ := List.head?_eq_some_iff.mp h
  have htrim : java.trim l.chars = c :: s.rdropWhile isBlank := by
    have hfront : ∀ x ∈ l.chars.takeWhile isSpaceOrTab, isBlank x = true := by
      intro x hx
      have hx := List.mem_takeWhile_imp hx
      rw [isSpaceOrTab, Bool.or_eq_true, beq_iff_eq, beq_iff_eq] at hx
      rcases hx with rfl | rfl <;> decide
    rw [← List.takeWhile_append_dropWhile (p := isSpaceOrTab) (l := l.chars), hs, java.trim,
      List.dropWhile_append_of_pos hfront, List.dropWhile_cons_of_neg (by rw [hc]; decide),
      rdropWhile_cons_of_neg hc]
  have hspace : c ≠ ' ' := by
    rintro rfl
    cases hc
  rw [tokens, htrim]
  rcases cut_at_separator (· == ' ') (s.rdropWhile isBlank) with hno | ⟨w, d, b, hcut, hw, hd⟩
  · refine ⟨_, [], words_word (List.cons_ne_nil _ _) fun hmem => ?_⟩
    rcases List.mem_cons.mp hmem with he | hmem
    · exact hspace he.symm
    · exact absurd (hno ' ' hmem) (by decide)
  · obtain rfl := beq_iff_eq.mp hd
    have hword : ' ' ∉ c :: w := by
      intro hmem
      rcases List.mem_cons.mp hmem with he | hmem
      · exact hspace he.symm
      · exact absurd (hw ' ' hmem) (by decide)
    refine ⟨w, words b, ?_⟩
    rw [hcut, ← List.cons_append, words_append, words_word (List.cons_ne_nil _ _) hword]
    rfl

end

/-! ## What the reader takes the lines for -/

variable {n : Int32} {clauses : List (List Int32)} {lines lines' : List Line} {l : Line}

theorem dimacsKind_eq_some {c : Char} (h : (l.chars.dropWhile isSpaceOrTab).head? = some c) :
    dimacsKind l = if c = 'c' then .comment else if c = 'p' then .problem else .clause := by
  rw [dimacsKind, h]

theorem head_of_dimacsKind (h : dimacsKind l ≠ .blank) :
    ∃ c, (l.chars.dropWhile isSpaceOrTab).head? = some c := by
  cases hc : (l.chars.dropWhile isSpaceOrTab).head? with
  | none => exact absurd (by rw [dimacsKind, hc]) h
  | some c => exact ⟨c, rfl⟩

theorem kind_of_blank (h : dimacsKind l = .blank) : kind l = .blank := by
  apply kind_nil
  have hblank : ∀ c ∈ l.chars, isBlank c = true := by
    intro c hc
    by_contra hno
    have hsep : isSpaceOrTab c = false := by
      rw [Bool.eq_false_iff]
      intro hsep
      rw [isSpaceOrTab, Bool.or_eq_true, beq_iff_eq, beq_iff_eq] at hsep
      rcases hsep with rfl | rfl <;> exact hno (by decide)
    obtain ⟨t, ht, -⟩ := mem_runs_of_mem hc hsep
    have hnone := blankTokens_of_blank h
    rw [blankTokens] at hnone
    rw [hnone] at ht
    cases ht
  rw [tokens, java.trim, List.dropWhile_eq_nil_iff.mpr hblank]
  rfl

/-- A comment line is one for the reader if its first word is `c`. -/
theorem kind_of_comment (h : dimacsKind l = .comment) :
    kind l = if (tokens l).head? = some COMMENT then .comment else .clause := by
  obtain ⟨c, hc⟩ := head_of_dimacsKind (l := l) (by rw [h]; decide)
  have hkind := dimacsKind_eq_some hc
  rw [h] at hkind
  obtain rfl : c = 'c' := by
    by_contra hne
    rw [if_neg hne] at hkind
    split at hkind <;> cases hkind
  obtain ⟨w, rest, hw⟩ := tokens_of_head hc (by decide)
  have hproblem : 'c' :: w ≠ PROBLEM := fun he => absurd (List.cons.inj he).1 (by decide)
  rw [kind_cons hw, hw, List.head?_cons, if_neg hproblem]
  simp only [Option.some.injEq]

/-- A header line is one for the reader if its first word is `p`. -/
theorem kind_of_problem (h : dimacsKind l = .problem) :
    kind l = if (tokens l).head? = some PROBLEM then .problem else .clause := by
  obtain ⟨c, hc⟩ := head_of_dimacsKind (l := l) (by rw [h]; decide)
  have hkind := dimacsKind_eq_some hc
  rw [h] at hkind
  obtain rfl : c = 'p' := by
    by_contra hne
    rw [if_neg hne] at hkind
    split at hkind <;> cases hkind
  obtain ⟨w, rest, hw⟩ := tokens_of_head hc (by decide)
  have hcomment : 'p' :: w ≠ COMMENT := fun he => absurd (List.cons.inj he).1 (by decide)
  rw [kind_cons hw, hw, List.head?_cons, if_neg hcomment]
  simp only [Option.some.injEq]

theorem kind_of_clause (h : dimacsKind l = .clause)
    (hreads : ∀ t ∈ blankTokens l.chars, ∃ v, Reads t v) : kind l = .clause := by
  obtain ⟨c, hc⟩ := head_of_dimacsKind (l := l) (by rw [h]; decide)
  have hkind := dimacsKind_eq_some hc
  rw [h] at hkind
  have hblank : isBlank c = false := by
    obtain ⟨s, hs⟩ := List.head?_eq_some_iff.mp hc
    have hmem : c ∈ l.chars := by
      refine (List.dropWhile_suffix isSpaceOrTab).subset ?_
      rw [hs]
      exact List.mem_cons_self
    have hsep : isSpaceOrTab c = false := by
      have hnot := List.head?_dropWhile_not isSpaceOrTab l.chars
      rw [hc] at hnot
      exact hnot
    obtain ⟨t, ht, hct⟩ := mem_runs_of_mem hmem hsep
    obtain ⟨v, hv⟩ := hreads t ht
    exact hv.word.2.2 c hct
  obtain ⟨w, rest, hw⟩ := tokens_of_head hc hblank
  have hcomment : c :: w ≠ COMMENT := by
    intro he
    have hfirst : c = 'c' := (List.cons.inj he).1
    rw [hfirst, if_pos rfl] at hkind
    cases hkind
  have hproblem : c :: w ≠ PROBLEM := by
    intro he
    have hfirst : c = 'p' := (List.cons.inj he).1
    rw [hfirst, if_neg (by decide), if_pos rfl] at hkind
    cases hkind
  rw [kind_cons hw, if_neg hcomment, if_neg hproblem]

theorem reads_of_isDimacs (h : IsDimacs n clauses lines) (hl : l ∈ lines)
    (hk : dimacsKind l = .clause) : ∀ t ∈ blankTokens l.chars, ∃ v, Reads t v := by
  intro t ht
  apply mem_forall₂_reads h.tokens
  rw [literalTokens_eq]
  exact List.mem_flatMap.mpr ⟨l, List.mem_filter.mpr ⟨hl, by simpa using hk⟩, ht⟩

/-- The tokens of a line of clauses are its words, but for those of tabs only. -/
theorem words_of_noTabTouches (hd : IsDimacs n clauses lines) (hl : l ∈ lines)
    (hk : dimacsKind l = .clause) (htab : NoTabTouches (tokens l)) :
    blankTokens l.chars = (tokens l).filter (!isTabs ·) := by
  have hblank : ∀ t ∈ blankTokens l.chars, ∀ c ∈ t, isBlank c = false := by
    intro t ht
    obtain ⟨v, hv⟩ := reads_of_isDimacs hd hl hk t ht
    exact hv.word.2.2
  rw [blankTokens_eq hblank]
  exact flatMap_blankTokens (fun t ht => mem_words ht) htab

/-! ## Clauses with a line of their own -/

/-- The words of a header line, between spaces: tabs may stand around `cnf` only. -/
def PlainHeader (l : Line) : Prop :=
  ∃ f tn tm, tokens l = [PROBLEM, f, tn, tm] ∧ blankTokens f = [CNF] ∧ '\t' ∉ tn ∧ '\t' ∉ tm

/-- There is no blank line. The first word of a comment line is `c`, and it is
not the whole line. No tab touches a number of the header, and the words of
each line of clauses, but those of tabs only, are the literals of one clause
and its 0. -/
structure OneClauseALine (lines : List Line) : Prop where
  not_blank : ∀ l ∈ lines, dimacsKind l ≠ .blank
  comment : ∀ l ∈ lines, dimacsKind l = .comment →
    (tokens l).head? = some COMMENT ∧ l.chars ≠ COMMENT
  header : ∀ l ∈ lines, dimacsKind l = .problem → PlainHeader l
  one_clause : ∀ l ∈ lines, dimacsKind l = .clause → ∃ ls, ls ≠ [] ∧ (0 : Int32) ∉ ls ∧
    List.Forall₂ Reads ((tokens l).filter (!isTabs ·)) (ls ++ [0])

/-- The reader takes each line for what it is. -/
def Recognised (lines : List Line) : Prop := ∀ l ∈ lines, kind l = dimacsKind l

theorem OneClauseALine.recognised (h : OneClauseALine lines) (hd : IsDimacs n clauses lines) :
    Recognised lines := by
  intro l hl
  cases hk : dimacsKind l with
  | blank => exact kind_of_blank hk
  | comment => rw [kind_of_comment hk, if_pos (h.comment l hl hk).1]
  | problem =>
    obtain ⟨f, tn, tm, htokens, -⟩ := h.header l hl hk
    rw [kind_of_problem hk, htokens, List.head?_cons, if_pos rfl]
  | clause => exact kind_of_clause hk (reads_of_isDimacs hd hl hk)

section

variable (h : Recognised lines)

include h

theorem clauseLines_of_recognised :
    clauseLines lines = lines.filter (dimacsKind · = .clause) :=
  List.filter_congr fun l hl => by rw [h l hl]

theorem filter_problem_of_recognised (hd : lines.filter (dimacsKind · = .problem) = [l]) :
    lines.filter (kind · = .problem) = [l] := by
  rw [← hd]
  exact List.filter_congr fun l hl => by rw [h l hl]

/-- The values that the reader gets are those of the clauses, in their order. -/
theorem values_of_recognised (hd : IsDimacs n clauses lines)
    (htab : ∀ l ∈ lines, dimacsKind l = .clause → NoTabTouches (tokens l)) :
    (clauseLines lines).flatMap clauseValues = clauses.flatMap (· ++ [0]) := by
  have hvalues := filterMap_parseInt hd.tokens
  rw [literalTokens_eq, List.filterMap_flatMap] at hvalues
  rw [clauseLines_of_recognised h, ← hvalues]
  refine List.flatMap_congr fun l hl => ?_
  obtain ⟨hl, hk⟩ := List.mem_filter.mp hl
  have hk : dimacsKind l = .clause := by simpa using hk
  rw [clauseValues_eq, words_of_noTabTouches hd hl hk (htab l hl hk)]

end

/-- The zeros tell where the clauses end. -/
theorem terminated_injective {xs ys : List (List Int32)} (hx : ∀ ls ∈ xs, (0 : Int32) ∉ ls)
    (hy : ∀ ls ∈ ys, (0 : Int32) ∉ ls)
    (h : xs.flatMap (· ++ [0]) = ys.flatMap (· ++ [0])) : xs = ys := by
  have hsplit : ∀ zs : List (List Int32), (∀ ls ∈ zs, (0 : Int32) ∉ ls) →
      (zs.flatMap (· ++ [0])).splitOn 0 = zs ++ [[]] := by
    intro zs hzs
    induction zs with
    | nil => rfl
    | cons ls zs ih =>
      rw [List.flatMap_cons, List.append_assoc, List.singleton_append,
        List.splitOn_append_cons_self_of_not_mem (hzs ls List.mem_cons_self),
        ih fun l hl => hzs l (List.mem_cons_of_mem ls hl)]
      rfl
  have hcut := congrArg (List.splitOn (0 : Int32)) h
  rw [hsplit xs hx, hsplit ys hy] at hcut
  exact List.append_cancel_right hcut

theorem zero_notMem_clauses (h : IsDimacs n clauses lines) : ∀ ls ∈ clauses, (0 : Int32) ∉ ls :=
  fun ls hls h0 => ((h.clauses ls hls).2 0 h0).1 rfl

theorem not_isBlank_header {tn tm : Text} {m : Int32}
    (hb : blankTokens l.chars = [PROBLEM, CNF, tn, tm]) (hn : Reads tn n) (hm : Reads tm m) :
    ∀ t ∈ blankTokens l.chars, ∀ c ∈ t, isBlank c = false := by
  intro t ht
  rw [hb] at ht
  simp only [List.mem_cons, List.not_mem_nil, or_false] at ht
  rcases ht with rfl | rfl | rfl | rfl
  · decide
  · decide
  · exact hn.word.2.2
  · exact hm.word.2.2

theorem PlainHeader.ints {tn tm : Text} {m : Int32} (h : PlainHeader l)
    (hb : blankTokens l.chars = [PROBLEM, CNF, tn, tm]) (hn : Reads tn n) (hm : Reads tm m) :
    headerInt l 2 = some n ∧ headerInt l 3 = some m := by
  obtain ⟨f, un, um, htokens, hf, hun, hum⟩ := h
  have hword : ∀ t ∈ [PROBLEM, f, un, um], t ≠ [] ∧ ' ' ∉ t := htokens ▸ fun t ht => mem_words ht
  have hcut := blankTokens_eq (not_isBlank_header hb hn hm)
  obtain ⟨hn1, hn2⟩ := hword un (by simp)
  obtain ⟨hm1, hm2⟩ := hword um (by simp)
  rw [hb, htokens, List.flatMap_cons, List.flatMap_cons, List.flatMap_cons, List.flatMap_cons, hf,
    blankTokens_of_noTab hn1 hn2 hun, blankTokens_of_noTab hm1 hm2 hum,
    blankTokens_of_noTab (by decide) (by decide) (by decide)] at hcut
  obtain ⟨-, -, rfl, rfl⟩ : PROBLEM = PROBLEM ∧ CNF = CNF ∧ tn = un ∧ tm = um := by
    simpa using hcut
  rw [headerInt, headerInt, htokens]
  exact ⟨hn, hm⟩

theorem OneClauseALine.header_read (h : OneClauseALine lines) (hd : IsDimacs n clauses lines) :
    ∃ l m, lines.filter (kind · = .problem) = [l] ∧ headerInt l 2 = some n ∧
      headerInt l 3 = some m := by
  obtain ⟨l, tn, tm, m, hl, hb, hn, hm⟩ := hd.header
  obtain ⟨hmem, hk⟩ := List.mem_filter.mp (hl ▸ List.mem_singleton_self l)
  obtain ⟨hvariables, hclauses⟩ := (h.header l hmem (by simpa using hk)).ints hb hn hm
  exact ⟨l, m, filter_problem_of_recognised (h.recognised hd) hl, hvariables, hclauses⟩

theorem OneClauseALine.noTabTouches (h : OneClauseALine lines) :
    ∀ l ∈ lines, dimacsKind l = .clause → NoTabTouches (tokens l) := by
  intro l hl hk t ht htab
  obtain ⟨ls, -, -, hreads⟩ := h.one_clause l hl hk
  by_contra htabs
  obtain ⟨v, hv⟩ := mem_forall₂_reads hreads t (List.mem_filter.mpr ⟨ht, by simpa using htabs⟩)
  exact tab_notMem_of_reads hv htab

/-- A line for each clause gives the reader the clauses. -/
theorem OneClauseALine.values (h : OneClauseALine lines) (hd : IsDimacs n clauses lines) :
    (clauseLines lines).map clauseValues = clauses.map (· ++ [0]) := by
  have hrecognised := h.recognised hd
  have hline : ∀ l ∈ clauseLines lines, clauseValues l = (clauseValues l).dropLast ++ [0] ∧
      (0 : Int32) ∉ (clauseValues l).dropLast := by
    intro l hl
    rw [clauseLines_of_recognised hrecognised] at hl
    obtain ⟨hl, hk⟩ := List.mem_filter.mp hl
    obtain ⟨ls, -, h0, hreads⟩ := h.one_clause l hl (by simpa using hk)
    have hvalues : clauseValues l = ls ++ [0] :=
      (clauseValues_eq l).trans (filterMap_parseInt hreads)
    rw [hvalues, List.dropLast_concat]
    exact ⟨rfl, h0⟩
  have hvalues := values_of_recognised hrecognised hd h.noTabTouches
  rw [List.flatMap_congr fun l hl => (hline l hl).1,
    ← List.flatMap_map (fun l => (clauseValues l).dropLast) (· ++ [0])] at hvalues
  have hlists := terminated_injective (by
    intro ls hls
    obtain ⟨l, hl, rfl⟩ := List.mem_map.mp hls
    exact (hline l hl).2) (zero_notMem_clauses hd) hvalues
  rw [← hlists, List.map_map]
  exact List.map_congr_left fun l hl => (hline l hl).1

theorem OneClauseALine.headerVariables (h : OneClauseALine lines) (hd : IsDimacs n clauses lines) :
    headerVariables lines = n := by
  obtain ⟨l, m, hl, hn, -⟩ := h.header_read hd
  rw [dimacs.headerVariables, headerLine, hl]
  show (headerInt l 2).getD 0 = n
  rw [hn]
  rfl

theorem OneClauseALine.readable (h : OneClauseALine lines) (hd : IsDimacs n clauses lines) :
    ∀ l ∈ lines, Readable l := by
  intro l hl
  have hkind := h.recognised hd l hl
  refine ⟨?_, fun hk => ?_, fun hk => ?_⟩
  · rw [hkind]
    exact h.not_blank l hl
  · exact (h.comment l hl (hkind ▸ hk)).2
  · obtain ⟨header, m, hheader, hn, hm⟩ := h.header_read hd
    have hmem : l ∈ lines.filter (kind · = .problem) := List.mem_filter.mpr ⟨hl, by simpa using hk⟩
    rw [hheader, List.mem_singleton] at hmem
    rw [hmem, hn, hm]
    exact ⟨rfl, rfl⟩

theorem OneClauseALine.terminated (h : OneClauseALine lines) (hd : IsDimacs n clauses lines) :
    ∀ c ∈ (dtoOf lines).clausesDto, Terminated (dtoOf lines).variables' c := by
  intro c hc
  have hvalues : c.values ∈ (clauseLines lines).map clauseValues := by
    obtain ⟨l, hl, rfl⟩ := List.mem_map.mp hc
    exact List.mem_map_of_mem hl
  rw [h.values hd] at hvalues
  obtain ⟨ls, hls, hc⟩ := List.mem_map.mp hvalues
  show Terminated (dimacs.headerVariables lines) c
  rw [h.headerVariables hd]
  exact ⟨ls, hc.symm, hd.clauses ls hls⟩

/-- The model of such a layout has the solutions of the clauses of the file. -/
theorem OneClauseALine.model (order : Order) (h : OneClauseALine lines)
    (hd : IsDimacs n clauses lines) :
    ∃ text, process order lines = .ok text ∧ WellFormedText text ∧
      solutions text = programSolutions n (clauses.map (· ++ [0])) := by
  have hterminated := h.terminated hd
  have hplain := plainComments_dtoOf lines
  have hn : (dtoOf lines).variables' = n := h.headerVariables hd
  have hpos : 0 < (dtoOf lines).variables'.toInt := by
    have := hd.variables'
    rw [hn]
    omega
  have hlists : valueLists (dtoOf lines) = clauses.map (· ++ [0]) := by
    rw [← h.values hd, valueLists, dtoOf, List.map_map]
    rfl
  refine ⟨_, process_eq_ok_iff.mpr ⟨h.readable hd, fits_of_terminated hterminated, rfl⟩,
    (models_modelText order hplain hpos hterminated).wellFormed, ?_⟩
  rw [solutions_modelText order hplain hpos hterminated, hlists, hn]

/-! ## Only then -/

theorem isChain_of_zero_notMem {ls : List Int32} (h : (0 : Int32) ∉ ls) :
    ls.IsChain fun v w => ¬(v = 0 ∧ w = 0) := by
  induction ls with
  | nil => exact .nil
  | cons v ls ih =>
    have hv : v ≠ 0 := fun he => h (he ▸ List.mem_cons_self)
    rw [List.isChain_cons]
    exact ⟨fun w _ hvw => hv hvw.1, ih fun h0 => h (List.mem_cons_of_mem v h0)⟩

/-- Clauses with a literal each have no two zeros in a row. -/
theorem isChain_clauses {xs : List (List Int32)} (h : ∀ ls ∈ xs, ls ≠ [] ∧ (0 : Int32) ∉ ls) :
    (xs.flatMap (· ++ [0])).IsChain fun v w => ¬(v = 0 ∧ w = 0) := by
  induction xs with
  | nil => exact .nil
  | cons ls xs ih =>
    obtain ⟨-, h0⟩ := h ls List.mem_cons_self
    have hrest := ih fun l hl => h l (List.mem_cons_of_mem ls hl)
    rw [List.flatMap_cons, List.append_assoc, List.isChain_append]
    refine ⟨isChain_of_zero_notMem h0, ?_, ?_⟩
    · rw [List.singleton_append, List.isChain_cons]
      refine ⟨fun w hw hvw => ?_, hrest⟩
      cases xs with
      | nil => cases hw
      | cons ls' xs =>
        obtain ⟨hne', h0'⟩ := h ls' (List.mem_cons_of_mem ls List.mem_cons_self)
        cases ls' with
        | nil => exact hne' rfl
        | cons v ls' =>
          cases hw
          exact h0' (hvw.2 ▸ List.mem_cons_self)
    · intro v hv w _ hvw
      exact h0 (hvw.1 ▸ List.mem_of_mem_getLast? hv)

theorem forall₂_reads {ts : List Text} (h : ∀ t ∈ ts, ∃ v, Reads t v) :
    List.Forall₂ Reads ts (ts.filterMap parseInt) := by
  induction ts with
  | nil => exact .nil
  | cons t ts ih =>
    obtain ⟨v, hv⟩ := h t List.mem_cons_self
    rw [List.filterMap_cons_some hv]
    exact .cons hv (ih fun u hu => h u (List.mem_cons_of_mem t hu))

/-- Nothing that the reader passes over is a number: no tab touches a number of
a clause, and no word of a comment line that it takes for a clause is one. -/
structure NothingHidden (lines : List Line) : Prop where
  clause : ∀ l ∈ lines, dimacsKind l = .clause → NoTabTouches (tokens l)
  comment : ∀ l ∈ lines, dimacsKind l = .comment → (tokens l).head? ≠ some COMMENT →
    ∀ t ∈ tokens l, ∀ v, ¬ Reads t v

/-- The last character of a text is one of its last word. -/
theorem mem_getLast_words {s : Text} {d : Char} (hd : d ≠ ' ') (h : s.getLast? = some d) :
    ∃ t, (words s).getLast? = some t ∧ d ∈ t := by
  induction hn : s.length using Nat.strongRecOn generalizing s with
  | ind n ih =>
    rcases cut_at_separator (· == ' ') s with hno | ⟨a, c, b, rfl, -, hc⟩
    · have hmem := List.mem_of_getLast? h
      refine ⟨s, ?_, hmem⟩
      rw [words_word (List.ne_nil_of_mem hmem) fun hspace => ?_]
      · rfl
      · exact absurd (hno ' ' hspace) (by decide)
    · obtain rfl := beq_iff_eq.mp hc
      rw [List.length_append, List.length_cons] at hn
      have hb : b.getLast? = some d := by
        rw [List.getLast?_append, List.getLast?_cons] at h
        cases hlast : b.getLast? with
        | none =>
          rw [hlast] at h
          exact absurd (Option.some.inj h).symm hd
        | some c =>
          rw [hlast] at h
          exact h
      obtain ⟨t, ht, hdt⟩ := ih b.length (by omega) hb rfl
      refine ⟨t, ?_, hdt⟩
      rw [words_append, List.getLast?_append, ht]
      rfl

/-- The last word of a line is not of tabs only. -/
theorem blankTokens_getLast_ne_nil {u : Text} (h : (tokens l).getLast? = some u) :
    blankTokens u ≠ [] := by
  intro hu
  have hne : java.trim l.chars ≠ [] := by
    intro he
    rw [tokens, he] at h
    cases h
  have hlast : ¬ isBlank ((java.trim l.chars).getLast hne) = true :=
    List.rdropWhile_last_not isBlank (l.chars.dropWhile isBlank) hne
  have hsome := List.getLast?_eq_some_getLast hne
  have hd : (java.trim l.chars).getLast hne ≠ ' ' := by
    intro he
    rw [he] at hlast
    exact hlast (by decide)
  obtain ⟨t, ht, hdt⟩ := mem_getLast_words hd hsome
  obtain rfl := Option.some.inj (h.symm.trans ht)
  have hsep : isSpaceOrTab ((java.trim l.chars).getLast hne) = false := by
    rw [Bool.eq_false_iff]
    intro hsep
    rw [isSpaceOrTab, Bool.or_eq_true, beq_iff_eq, beq_iff_eq] at hsep
    rcases hsep with he | he
    · exact hd he
    · rw [he] at hlast
      exact hlast (by decide)
  obtain ⟨w, hw, -⟩ := mem_runs_of_mem hdt hsep
  have hw : w ∈ blankTokens u := hw
  rw [hu] at hw
  cases hw

/-- A header line that the reader reads is a plain one. -/
theorem plainHeader_of_readable {tn tm : Text} {m : Int32}
    (hb : blankTokens l.chars = [PROBLEM, CNF, tn, tm]) (hn : Reads tn n) (hm : Reads tm m)
    (hk : kind l = .problem) (hreadable : Readable l) : PlainHeader l := by
  obtain ⟨h2, h3⟩ := (readable_problem_iff hk).mp hreadable
  obtain ⟨v2, h2⟩ := Option.isSome_iff_exists.mp h2
  obtain ⟨v3, h3⟩ := Option.isSome_iff_exists.mp h3
  obtain ⟨t2, ht2, hr2⟩ := Option.bind_eq_some_iff.mp h2
  obtain ⟨t3, ht3, hr3⟩ := Option.bind_eq_some_iff.mp h3
  have hcut := blankTokens_eq (not_isBlank_header hb hn hm)
  obtain ⟨f, rest, htokens⟩ : ∃ f rest, tokens l = PROBLEM :: f :: t2 :: t3 :: rest := by
    rcases hl : tokens l with _ | ⟨a, _ | ⟨f, _ | ⟨u, _ | ⟨w, rest⟩⟩⟩⟩
    all_goals rw [hl] at ht2 ht3
    all_goals cases ht3
    cases ht2
    rw [kind_cons hl] at hk
    split at hk
    · cases hk
    · split at hk
      · rename_i ha
        exact ⟨f, rest, by rw [ha]⟩
      · cases hk
  have hr2 : Reads t2 v2 := hr2
  have hr3 : Reads t3 v3 := hr3
  rw [hb, htokens, List.flatMap_cons, List.flatMap_cons, List.flatMap_cons, List.flatMap_cons,
    blankTokens_of_noTab hr2.word.1 hr2.word.2.1 (tab_notMem_of_reads hr2),
    blankTokens_of_noTab hr3.word.1 hr3.word.2.1 (tab_notMem_of_reads hr3),
    blankTokens_of_noTab (by decide) (by decide) (by decide)] at hcut
  have hcut : [CNF, tn, tm] = blankTokens f ++ t2 :: t3 :: rest.flatMap blankTokens :=
    List.tail_eq_of_cons_eq hcut
  have hlength := congrArg List.length hcut
  cases hf : blankTokens f with
  | nil =>
    rw [hf] at hcut
    have hnone : parseInt CNF = none := by decide
    rw [(List.cons.inj hcut).1] at hnone
    cases hnone.symm.trans hr2
  | cons x xs =>
    rw [hf] at hcut hlength
    simp only [List.length_append, List.length_cons, List.length_nil] at hlength
    have hxs : xs = [] := List.length_eq_zero_iff.mp (by omega)
    have hflat : rest.flatMap blankTokens = [] := List.length_eq_zero_iff.mp (by omega)
    have hrest : rest = [] := by
      by_contra hne
      have hlast : (tokens l).getLast? = some (rest.getLast hne) := by
        rw [htokens]
        simp [List.getLast?_cons, List.getLast?_eq_some_getLast hne]
      refine blankTokens_getLast_ne_nil hlast ?_
      exact List.flatMap_eq_nil_iff.mp hflat _ (List.getLast_mem hne)
    refine ⟨f, t2, t3, by rw [htokens, hrest], ?_, tab_notMem_of_reads hr2,
      tab_notMem_of_reads hr3⟩
    rw [hf, hxs, (List.cons.inj hcut).1]

/-- Then only such a layout gives a well-formed model. -/
theorem oneClauseALine_of_wellFormed {order : Order} {text : Text} (hd : IsDimacs n clauses lines)
    (hh : NothingHidden lines) (htext : process order lines = .ok text)
    (hwell : WellFormedText text) : OneClauseALine lines := by
  obtain ⟨hreadable, hfits, rfl⟩ := process_eq_ok_iff.mp htext
  obtain ⟨items, hparse, -⟩ := hwell
  obtain ⟨hpos, hleaves, -⟩ :=
    (parse_modelText_eq_some_iff order hfits (plainComments_dtoOf lines) items).mp hparse
  have hleaves : ∀ l ∈ lines, kind l = .clause →
      LeavesConstraint (headerVariables lines) (clauseValues l) := fun l hl hk =>
    hleaves _ (List.mem_map_of_mem (List.mem_filter.mpr ⟨hl, by simpa using hk⟩))
  have hcomment : ∀ l ∈ lines, dimacsKind l = .comment → (tokens l).head? = some COMMENT := by
    intro l hl hk
    by_contra hfirst
    have hkind := kind_of_comment hk
    rw [if_neg hfirst] at hkind
    have hvalues : clauseValues l = [] :=
      List.filterMap_eq_nil_iff.mpr fun t ht =>
        Option.eq_none_iff_forall_ne_some.mpr (hh.comment l hl hk hfirst t ht)
    have hclause := hleaves l hl hkind
    rw [hvalues] at hclause
    obtain ⟨ls, hls, -⟩ := terminated_of_isolated .nil hclause
    cases ls <;> cases hls
  have hproblem : ∀ l ∈ lines, dimacsKind l = .problem → kind l = .problem ∧ PlainHeader l := by
    intro l hl hk
    obtain ⟨header, tn, tm, m, hheader, hb, hn, hm⟩ := hd.header
    have hsame : l = header := by
      have hmem : l ∈ lines.filter (dimacsKind · = .problem) :=
        List.mem_filter.mpr ⟨hl, by simpa using hk⟩
      rw [hheader] at hmem
      exact List.mem_singleton.mp hmem
    -- without a header for the reader there is no variable
    have hkind : kind l = .problem := by
      by_contra hno
      have hnone : lines.filter (kind · = .problem) = [] := by
        refine List.filter_eq_nil_iff.mpr fun x hx hkx => ?_
        have hkx : kind x = .problem := by simpa using hkx
        cases hdx : dimacsKind x with
        | blank => cases (kind_of_blank hdx).symm.trans hkx
        | comment =>
          have hkind := kind_of_comment hdx
          rw [hkx, if_pos (hcomment x hx hdx)] at hkind
          cases hkind
        | problem =>
          have hmem : x ∈ lines.filter (dimacsKind · = .problem) :=
            List.mem_filter.mpr ⟨hx, by simpa using hdx⟩
          rw [hheader, List.mem_singleton] at hmem
          exact hno (by rw [hsame, ← hmem, hkx])
        | clause => cases (kind_of_clause hdx (reads_of_isDimacs hd hx hdx)).symm.trans hkx
      have hzero : headerVariables lines = 0 := by
        rw [headerVariables, headerLine, hnone]
        rfl
      have hpos : 0 < (headerVariables lines).toInt := hpos
      rw [hzero] at hpos
      exact absurd hpos (by decide)
    exact ⟨hkind, plainHeader_of_readable (hsame ▸ hb) hn hm hkind (hreadable l hl)⟩
  have hrecognised : Recognised lines := by
    intro l hl
    cases hk : dimacsKind l with
    | blank => exact kind_of_blank hk
    | comment => rw [kind_of_comment hk, if_pos (hcomment l hl hk)]
    | problem => exact (hproblem l hl hk).1
    | clause => exact kind_of_clause hk (reads_of_isDimacs hd hl hk)
  refine ⟨fun l hl hk => ?_, fun l hl hk => ⟨hcomment l hl hk, fun hbare => ?_⟩,
    fun l hl hk => (hproblem l hl hk).2, fun l hl hk => ?_⟩
  · exact (hreadable l hl).1 ((hrecognised l hl).trans hk)
  · exact (hreadable l hl).2.1 (kind_of_bare hbare) hbare
  · have hclause : l ∈ clauseLines lines :=
      List.mem_filter.mpr ⟨hl, by simpa [hrecognised l hl] using hk⟩
    have hchain : (clauseValues l).IsChain fun v w => ¬(v = 0 ∧ w = 0) := by
      have hall := isChain_clauses fun ls hls =>
        ⟨(hd.clauses ls hls).1, zero_notMem_clauses hd ls hls⟩
      rw [← values_of_recognised hrecognised hd hh.clause, List.flatMap_def] at hall
      exact hall.infix (List.infix_of_mem_flatten (List.mem_map_of_mem hclause))
    obtain ⟨ls, hls, hne, h0⟩ :=
      terminated_of_isolated hchain (hleaves l hl ((hrecognised l hl).trans hk))
    refine ⟨ls, hne, h0, ?_⟩
    rw [← hls, clauseValues_eq]
    refine forall₂_reads fun t ht => reads_of_isDimacs hd hl hk t ?_
    rw [words_of_noTabTouches hd hl hk (hh.clause l hl hk)]
    exact ht

/-- Both files give a well-formed model, and the two have the same solutions. -/
def SameSolutions (order order' : Order) (lines lines' : List Line) : Prop :=
  ∃ text text', process order lines = .ok text ∧ process order' lines' = .ok text' ∧
    WellFormedText text ∧ WellFormedText text' ∧ solutions text = solutions text'

def header : Line := ⟨"p cnf 2 1".toList, by decide⟩

/-- One clause in one line, the same with spaces and tabs that the reader does
not mind, and the same in two lines. -/
def oneLine : List Line := [header, ⟨"1 -2 0".toList, by decide⟩]

def spacedLine : List Line := [header, ⟨" 1 \t  -2 0\t".toList, by decide⟩]

def twoLines : List Line := [header, ⟨"1".toList, by decide⟩, ⟨"-2 0".toList, by decide⟩]

theorem reads_clause : List.Forall₂ Reads ["1".toList, "-2".toList, "0".toList] [1, -2, 0] := by
  refine .cons ?_ (.cons ?_ (.cons ?_ .nil))
  all_goals
    unfold Reads
    decide +kernel

theorem isDimacs_oneLine : IsDimacs 2 [[1, -2]] oneLine where
  header := by
    refine ⟨header, "2".toList, "1".toList, 1, by decide +kernel, by decide +kernel, ?_, ?_⟩
    all_goals
      unfold Reads
      decide +kernel
  variables' := by decide
  tokens := by
    have htokens : literalTokens oneLine = ["1".toList, "-2".toList, "0".toList] := by
      decide +kernel
    rw [htokens]
    exact reads_clause
  clauses := by decide

theorem oneClauseALine_of_words {l : Line} (hk : dimacsKind l = .clause)
    (hl : (tokens l).filter (!isTabs ·) = ["1".toList, "-2".toList, "0".toList]) :
    OneClauseALine [header, l] := by
  have hheader : dimacsKind header = .problem := by decide +kernel
  have hplain : PlainHeader header :=
    ⟨CNF, "2".toList, "1".toList, by decide +kernel, by decide +kernel, by decide, by decide⟩
  refine ⟨?_, ?_, ?_, ?_⟩
  all_goals
    rw [List.forall_mem_cons, List.forall_mem_singleton, hheader, hk]
  · decide
  · exact ⟨fun h => absurd h (by decide), fun h => absurd h (by decide)⟩
  · exact ⟨fun _ => hplain, fun h => absurd h (by decide)⟩
  · refine ⟨fun h => absurd h (by decide), fun _ => ⟨[1, -2], by decide, by decide, ?_⟩⟩
    rw [hl]
    exact reads_clause

end reductor.transformer
