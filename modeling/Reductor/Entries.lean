-- DIMACS files as they are written, in any spacing and in any order of their
-- lines, and what the reader makes of them.
import Reductor.Reader
import Mathlib.Data.List.Forall2

open reductor.java

namespace reductor.dimacs

/-! ## Lines as they are written -/

/-- What a line of a DIMACS file holds. -/
inductive Entry
  | comment (text : Text)
  | problem (format : Text) (variables' clauses : Int32)
  | clause (values : List Int32)
  deriving DecidableEq, Repr

/-- The tokens, with one space or more between any two of them. -/
inductive Spaced : List Text → Text → Prop
  | last (token : Text) : Spaced [token] token
  | cons (token : Text) (k : Nat) {tokens : List Text} {s : Text} :
      Spaced tokens s → Spaced (token :: tokens) (token ++ (List.replicate (k + 1) ' ' ++ s))

def Padding (s : Text) : Prop := ∀ c ∈ s, c = ' ' ∨ c = '\t'

/-- Spaced tokens, with spaces and tabs in front of them and behind them. -/
def Padded (tokens : List Text) (s : Text) : Prop :=
  ∃ front middle back, s = front ++ middle ++ back ∧
    Padding front ∧ Spaced tokens middle ∧ Padding back

/-- The line is one that the entry may be written as, with its integers
spelled in a way that `spells` allows. -/
def Writes (spells : Text → Int32 → Prop) : Entry → Line → Prop
  | .comment text, l => l.chars = "c ".toList ++ text
  | .problem format n m, l => ∃ tn tm, format ≠ [] ∧ ' ' ∉ format ∧ spells tn n ∧ spells tm m ∧
      Padded [PROBLEM, format, tn, tm] l.chars
  | .clause values, l => ∃ ts, List.Forall₂ spells ts values ∧ Padded ts l.chars

/-- The token is one that `Integer.valueOf` takes for the integer. -/
def Reads (t : Text) (v : Int32) : Prop := parseInt t = some v

/-- The token is the integer in decimal. -/
def Prints (t : Text) (v : Int32) : Prop := t = intString v

theorem Prints.reads {t : Text} {v : Int32} (h : Prints t v) : Reads t v := by
  rw [h]
  exact parseInt_intString v

def Entry.comment? : Entry → Option Text
  | .comment text => some text
  | _ => none

def Entry.problem? : Entry → Option (Text × Int32 × Int32)
  | .problem format n m => some (format, n, m)
  | _ => none

def Entry.clause? : Entry → Option (List Int32)
  | .clause values => some values
  | _ => none

/-- One header, the comments and the clauses, in an order that keeps that of
the comments and that of the clauses. -/
structure Interleaved (format : Text) (n m : Int32) (comments : List Text)
    (clauses : List (List Int32)) (entries : List Entry) : Prop where
  header : entries.filterMap Entry.problem? = [(format, n, m)]
  comments : entries.filterMap Entry.comment? = comments
  clauses : entries.filterMap Entry.clause? = clauses

/-! ## The tokens of spaced text -/

theorem words_replicate (k : Nat) (s : Text) : words (List.replicate k ' ' ++ s) = words s := by
  induction k with
  | zero => rfl
  | succ k ih =>
    rw [List.replicate_succ, List.cons_append]
    exact (words_append [] _).trans ih

theorem words_spaced {ts : List Text} {s : Text} (h : Spaced ts s)
    (hts : ∀ t ∈ ts, t ≠ [] ∧ ' ' ∉ t) : words s = ts := by
  induction h with
  | last t =>
    obtain ⟨hne, hspace⟩ := hts t List.mem_cons_self
    exact words_word hne hspace
  | cons t k h ih =>
    obtain ⟨hne, hspace⟩ := hts t List.mem_cons_self
    rw [List.replicate_succ, List.cons_append, words_append, words_word hne hspace,
      words_replicate, ih fun u hu => hts u (List.mem_cons_of_mem t hu)]
    rfl

/-- The text starts with a character of the first token. -/
theorem spaced_head {ts : List Text} {s : Text} (h : Spaced ts s) (hts : ∀ t ∈ ts, t ≠ []) :
    ∃ t ∈ ts.head?, ∃ c ∈ t, ∃ r, s = c :: r := by
  have hfirst : ∀ (t : Text) (r : Text), t ≠ [] → ∃ c ∈ t, ∃ r', t ++ r = c :: r' := by
    intro t r ht
    cases t with
    | nil => exact absurd rfl ht
    | cons c t => exact ⟨c, List.mem_cons_self, t ++ r, rfl⟩
  cases h with
  | last =>
    have ht := hfirst s [] (hts s List.mem_cons_self)
    rw [List.append_nil] at ht
    exact ⟨s, rfl, ht⟩
  | cons t k h => exact ⟨t, rfl, hfirst t _ (hts t List.mem_cons_self)⟩

/-- The text ends with a character of the last token. -/
theorem spaced_getLast {ts : List Text} {s : Text} (h : Spaced ts s) (hts : ∀ t ∈ ts, t ≠ []) :
    ∃ t ∈ ts.getLast?, ∃ c ∈ t, ∃ r, s = r ++ [c] := by
  induction h with
  | last t =>
    have ht := hts t List.mem_cons_self
    exact ⟨t, rfl, t.getLast ht, List.getLast_mem ht, _, (List.dropLast_append_getLast ht).symm⟩
  | cons t k h ih =>
    obtain ⟨u, hu, c, hc, r, rfl⟩ := ih fun u hu => hts u (List.mem_cons_of_mem t hu)
    refine ⟨u, ?_, c, hc, t ++ (List.replicate (k + 1) ' ' ++ r), by simp⟩
    rw [Option.mem_def] at hu ⊢
    rw [List.getLast?_cons, hu]
    rfl

theorem isBlank_of_padding {s : Text} (h : Padding s) : ∀ c ∈ s, isBlank c = true := by
  intro c hc
  rcases h c hc with rfl | rfl
  · decide
  · decide

theorem rdropWhile_append_of_pos {α : Type} {p : α → Bool} {l r : List α}
    (h : ∀ x ∈ r, p x = true) : (l ++ r).rdropWhile p = l.rdropWhile p := by
  rw [List.rdropWhile, List.reverse_append, List.dropWhile_append_of_pos, List.rdropWhile]
  intro x hx
  exact h x (List.mem_reverse.mp hx)

/-- Blanks around a text that starts and ends without one are trimmed. -/
theorem trim_padded {front middle back : Text} {c d : Char} {r r' : Text}
    (hfront : ∀ x ∈ front, isBlank x = true) (hback : ∀ x ∈ back, isBlank x = true)
    (hhead : middle = c :: r) (hc : isBlank c = false) (hlast : middle = r' ++ [d])
    (hd : isBlank d = false) : java.trim (front ++ middle ++ back) = middle := by
  unfold java.trim
  rw [List.append_assoc, List.dropWhile_append_of_pos hfront]
  have hkeep : (middle ++ back).dropWhile isBlank = middle ++ back := by
    rw [hhead, List.cons_append, List.dropWhile_cons_of_neg (by simp [hc])]
  rw [hkeep, rdropWhile_append_of_pos hback, hlast, List.rdropWhile_concat_neg _ _ _ (by simp [hd])]

/-- The reader finds the tokens of a padded line again. -/
theorem tokens_padded {l : Line} {ts : List Text} (h : Padded ts l.chars)
    (hts : ∀ t ∈ ts, t ≠ [] ∧ ' ' ∉ t) (hfirst : ∀ t ∈ ts.head?, ∀ c ∈ t, isBlank c = false)
    (hlast : ∀ t ∈ ts.getLast?, ∀ c ∈ t, isBlank c = false) : tokens l = ts := by
  obtain ⟨front, middle, back, hl, hfront, hmiddle, hback⟩ := h
  obtain ⟨t, ht, c, hc, r, hr⟩ := spaced_head hmiddle fun t ht => (hts t ht).1
  obtain ⟨u, hu, d, hd, r', hr'⟩ := spaced_getLast hmiddle fun t ht => (hts t ht).1
  rw [tokens, hl, trim_padded (isBlank_of_padding hfront) (isBlank_of_padding hback) hr
    (hfirst t ht c hc) hr' (hlast u hu d hd)]
  exact words_spaced hmiddle hts

/-! ## Each kind of line read -/

theorem Reads.word {t : Text} {v : Int32} (h : Reads t v) :
    t ≠ [] ∧ ' ' ∉ t ∧ ∀ c ∈ t, isBlank c = false := by
  have hblank := not_isBlank_of_parseInt h
  refine ⟨ne_nil_of_parseInt h, fun hspace => ?_, hblank⟩
  exact absurd (hblank ' ' hspace) (by decide)

theorem rdropWhile_cons_of_neg {p : Char → Bool} {c : Char} {s : Text} (hc : p c = false) :
    (c :: s).rdropWhile p = c :: s.rdropWhile p := by
  induction s using List.reverseRecOn with
  | nil => simp [List.rdropWhile, hc]
  | append_singleton s x ih =>
    rw [← List.cons_append]
    by_cases hx : p x = true
    · rw [List.rdropWhile_concat_pos _ _ _ hx, List.rdropWhile_concat_pos _ _ _ hx, ih]
    · rw [List.rdropWhile_concat_neg _ _ _ hx, List.rdropWhile_concat_neg _ _ _ hx]
      rfl

/-- A line `c ` and a text is a comment line that is readable, whatever the text. -/
theorem comment_read {l : Line} {text : Text} (h : l.chars = "c ".toList ++ text) :
    kind l = .comment ∧ Readable l ∧ l.chars.drop 2 = text := by
  have hchars : l.chars = 'c' :: ' ' :: text := h
  have htrim : java.trim l.chars = 'c' :: (' ' :: text).rdropWhile isBlank := by
    rw [hchars, java.trim, List.dropWhile_cons_of_neg (by decide),
      rdropWhile_cons_of_neg (by decide)]
  have hword : words ['c'] = [COMMENT] := by decide
  obtain ⟨rest, hrest⟩ : ∃ rest, tokens l = COMMENT :: rest := by
    rw [tokens, htrim]
    cases hr : (' ' :: text).rdropWhile isBlank with
    | nil => exact ⟨[], hword⟩
    | cons d r =>
      have hpre := List.rdropWhile_prefix isBlank (l := ' ' :: text)
      rw [hr, List.cons_prefix_cons] at hpre
      rw [hpre.1]
      refine ⟨words r, ?_⟩
      rw [show 'c' :: ' ' :: r = ['c'] ++ ' ' :: r from rfl, words_append, hword]
      rfl
  have hkind : kind l = .comment := by rw [kind_cons hrest, if_pos rfl]
  refine ⟨hkind, (readable_comment_iff hkind).mpr ?_, by rw [hchars]; rfl⟩
  rw [hchars]
  intro he
  cases he

/-- A header line has the tokens that it was written with. -/
theorem problem_read {l : Line} {format tn tm : Text} {n m : Int32} (hne : format ≠ [])
    (hspace : ' ' ∉ format) (hn : Reads tn n) (hm : Reads tm m)
    (h : Padded [PROBLEM, format, tn, tm] l.chars) :
    kind l = .problem ∧ Readable l ∧ (tokens l)[1]? = some format ∧ headerInt l 2 = some n ∧
      headerInt l 3 = some m := by
  have htokens : tokens l = [PROBLEM, format, tn, tm] := by
    apply tokens_padded h
    · intro t ht
      simp only [List.mem_cons, List.not_mem_nil, or_false] at ht
      rcases ht with rfl | rfl | rfl | rfl
      · decide
      · exact ⟨hne, hspace⟩
      · exact ⟨hn.word.1, hn.word.2.1⟩
      · exact ⟨hm.word.1, hm.word.2.1⟩
    · intro t ht
      cases ht
      decide
    · intro t ht
      cases ht
      exact hm.word.2.2
  have hkind : kind l = .problem := by
    rw [kind_cons htokens, if_neg (by decide), if_pos rfl]
  have hn2 : headerInt l 2 = some n := by rw [headerInt, htokens]; exact hn
  have hm3 : headerInt l 3 = some m := by rw [headerInt, htokens]; exact hm
  refine ⟨hkind, (readable_problem_iff hkind).mpr ?_, ?_, hn2, hm3⟩
  · rw [hn2, hm3]
    exact ⟨rfl, rfl⟩
  · rw [htokens]
    rfl

theorem filterMap_parseInt {ts : List Text} {values : List Int32}
    (h : List.Forall₂ Reads ts values) : ts.filterMap parseInt = values := by
  induction h with
  | nil => rfl
  | cons ht _ ih => rw [List.filterMap_cons_some ht, ih]

theorem mem_forall₂_reads {ts : List Text} {values : List Int32}
    (h : List.Forall₂ Reads ts values) :
    ∀ t ∈ ts, ∃ v, Reads t v := by
  induction h with
  | nil => simp
  | cons ht _ ih =>
    intro t hmem
    rcases List.mem_cons.mp hmem with rfl | hmem
    · exact ⟨_, ht⟩
    · exact ih t hmem

/-- A line whose first token is an integer is a clause line. -/
theorem kind_clause {l : Line} {first : Text} {rest : List Text} {v : Int32}
    (h : tokens l = first :: rest) (hfirst : Reads first v) : kind l = .clause := by
  have hcomment : parseInt COMMENT = none := by decide
  have hproblem : parseInt PROBLEM = none := by decide
  rw [kind_cons h, if_neg, if_neg]
  · rintro rfl
    cases hproblem.symm.trans hfirst
  · rintro rfl
    cases hcomment.symm.trans hfirst

/-- A clause line has the integers that it was written with. -/
theorem clause_read {l : Line} {ts : List Text} {values : List Int32}
    (hts : List.Forall₂ Reads ts values) (h : Padded ts l.chars) :
    kind l = .clause ∧ Readable l ∧ clauseValues l = values := by
  have hword := mem_forall₂_reads hts
  have htokens : tokens l = ts := by
    apply tokens_padded h
    · intro t ht
      obtain ⟨v, hv⟩ := hword t ht
      exact ⟨hv.word.1, hv.word.2.1⟩
    · intro t ht
      obtain ⟨v, hv⟩ := hword t (List.mem_of_mem_head? ht)
      exact hv.word.2.2
    · intro t ht
      obtain ⟨v, hv⟩ := hword t (List.mem_of_mem_getLast? ht)
      exact hv.word.2.2
  obtain ⟨front, middle, back, -, -, hmiddle, -⟩ := h
  have hkind : kind l = .clause := by
    cases hts with
    | nil => cases hmiddle
    | cons ht hrest => exact kind_clause htokens ht
  refine ⟨hkind, readable_clause hkind, ?_⟩
  rw [clauseValues, htokens, filterMap_parseInt hts]

/-! ## Whole files read -/

theorem Writes.mono {spells spells' : Text → Int32 → Prop} (hs : ∀ t v, spells t v → spells' t v)
    {e : Entry} {l : Line} (h : Writes spells e l) : Writes spells' e l := by
  cases e with
  | comment text => exact h
  | problem format n m =>
    obtain ⟨tn, tm, hne, hspace, hn, hm, hpadded⟩ := h
    exact ⟨tn, tm, hne, hspace, hs _ _ hn, hs _ _ hm, hpadded⟩
  | clause values =>
    obtain ⟨ts, hts, hpadded⟩ := h
    exact ⟨ts, hts.imp hs, hpadded⟩

/-- The fields of a header line, as the reader sees them. -/
def headerFields (l : Line) : Option Text × Option Int32 × Option Int32 :=
  ((tokens l)[1]?, headerInt l 2, headerInt l 3)

/-- The reader takes the line for a line of the kind of the entry, with what the entry holds. -/
structure ReadAs (e : Entry) (l : Line) : Prop where
  readable : Readable l
  comment : e.comment? = if kind l = .comment then some (l.chars.drop 2) else none
  problem : e.problem?.map (fun (f, n, m) => (some f, some n, some m)) =
    if kind l = .problem then some (headerFields l) else none
  clause : e.clause? = if kind l = .clause then some (clauseValues l) else none

/-- The reader takes each line for what it was written as. -/
theorem Writes.readAs {e : Entry} {l : Line} (h : Writes Reads e l) : ReadAs e l := by
  cases e with
  | comment text =>
    obtain ⟨hkind, hreadable, htext⟩ := comment_read h
    refine ⟨hreadable, ?_, ?_, ?_⟩
    · rw [if_pos hkind, htext]
      rfl
    · rw [hkind]
      rfl
    · rw [hkind]
      rfl
  | problem format n m =>
    obtain ⟨tn, tm, hne, hspace, hn, hm, hpadded⟩ := h
    obtain ⟨hkind, hreadable, hformat, hvariables, hclauses⟩ :=
      problem_read hne hspace hn hm hpadded
    refine ⟨hreadable, ?_, ?_, ?_⟩
    · rw [hkind]
      rfl
    · rw [if_pos hkind, headerFields, hformat, hvariables, hclauses]
      rfl
    · rw [hkind]
      rfl
  | clause values =>
    obtain ⟨ts, hts, hpadded⟩ := h
    obtain ⟨hkind, hreadable, hvalues⟩ := clause_read hts hpadded
    refine ⟨hreadable, ?_, ?_, ?_⟩
    · rw [hkind]
      rfl
    · rw [hkind]
      rfl
    · rw [if_pos hkind, hvalues]
      rfl

theorem readable_of_readAs {entries : List Entry} {lines : List Line}
    (h : List.Forall₂ ReadAs entries lines) : ∀ l ∈ lines, Readable l := by
  induction h with
  | nil => simp
  | cons he _ ih =>
    intro l hl
    rcases List.mem_cons.mp hl with rfl | hl
    · exact he.readable
    · exact ih l hl

/-- The lines of one kind hold what the entries of that kind hold. -/
theorem map_filter_readAs {β : Type} {entries : List Entry} {lines : List Line} {k : LineKind}
    {f : Line → β} {pick : Entry → Option β} (h : List.Forall₂ ReadAs entries lines)
    (hpick : ∀ e l, ReadAs e l → pick e = if kind l = k then some (f l) else none) :
    (lines.filter (kind · = k)).map f = entries.filterMap pick := by
  induction h with
  | nil => rfl
  | @cons e l entries lines hel _ ih =>
    have he := hpick e l hel
    by_cases hk : kind l = k
    · rw [if_pos hk] at he
      rw [List.filterMap_cons_some he, List.filter_cons_of_pos (by simp [hk]), List.map_cons, ih]
    · rw [if_neg hk] at he
      rw [List.filterMap_cons_none he, List.filter_cons_of_neg (by simp [hk]), ih]

/-- The fields of the lines are those that were written. -/
theorem dtoOf_written {entries : List Entry} {lines : List Line} {format : Text} {n m : Int32}
    {comments : List Text} {clauses : List (List Int32)}
    (h : List.Forall₂ ReadAs entries lines)
    (hi : Interleaved format n m comments clauses entries) :
    dtoOf lines = ⟨comments, some format, n, m, clauses.map ClausesDto.mk⟩ := by
  have hheaders := map_filter_readAs h fun _ _ he => he.problem
  have hcomments : (commentLines lines).map (·.chars.drop 2) = comments :=
    (map_filter_readAs h fun _ _ he => he.comment).trans hi.comments
  have hvalues : (clauseLines lines).map clauseValues = clauses :=
    (map_filter_readAs h fun _ _ he => he.clause).trans hi.clauses
  rw [← List.map_filterMap, hi.header] at hheaders
  obtain ⟨l, hl, hfields⟩ := List.map_eq_singleton_iff.mp hheaders
  obtain ⟨hformat, hn, hm⟩ : (tokens l)[1]? = some format ∧ headerInt l 2 = some n ∧
      headerInt l 3 = some m := by simpa [headerFields] using hfields
  have hheader : headerLine lines = some l := by rw [headerLine, hl]; rfl
  unfold dtoOf headerVariables headerClauses
  rw [hcomments, hheader, ← hvalues, List.map_map]
  simp only [Option.bind_some, hformat, hn, hm, Option.getD_some]
  rfl

/-- Reading undoes writing: the reader gives back what the lines were
written from, in any spacing and in any order of the kinds of lines. -/
theorem reading_undoes_writing {entries : List Entry} {lines : List Line} {format : Text}
    {n m : Int32} {comments : List Text} {clauses : List (List Int32)}
    (h : List.Forall₂ (Writes Prints) entries lines)
    (hi : Interleaved format n m comments clauses entries) :
    deserialize lines = .ok ⟨comments, some format, n, m, clauses.map ClausesDto.mk⟩ := by
  have hreads : List.Forall₂ ReadAs entries lines :=
    h.imp fun _ _ hw => (hw.mono fun _ _ => Prints.reads).readAs
  rw [deserialize_ok (readable_of_readAs hreads), dtoOf_written hreads hi]

/-- Both ends of the 32 bits, a tab, runs of spaces, and a clause in front of the header. -/
theorem reading_undoes_writing_at_both_ends :
    deserialize [⟨"\t-2147483648  2147483647 ".toList, by decide⟩, ⟨"c  x".toList, by decide⟩,
        ⟨" p cnf   1 1".toList, by decide⟩] =
      .ok ⟨[" x".toList], some "cnf".toList, 1, 1, [⟨[-2147483648, 2147483647]⟩]⟩ := by
  have hclause : Spaced ["-2147483648".toList, "2147483647".toList]
      "-2147483648  2147483647".toList := .cons _ 1 (.last _)
  have hheader : Spaced [PROBLEM, "cnf".toList, "1".toList, "1".toList] "p cnf   1 1".toList :=
    .cons _ 0 (.cons _ 2 (.cons _ 0 (.last _)))
  refine reading_undoes_writing
    (.cons ?_ (.cons ?_ (.cons ?_ .nil)) : List.Forall₂ (Writes Prints)
      [.clause [-2147483648, 2147483647], .comment " x".toList, .problem "cnf".toList 1 1] _)
    ⟨rfl, rfl, rfl⟩
  · exact ⟨_, .cons (by unfold Prints; decide) (.cons (by unfold Prints; decide) .nil),
      ['\t'], _, [' '], rfl, by unfold Padding; decide, hclause, by unfold Padding; decide⟩
  · rfl
  · exact ⟨_, _, by decide, by decide, by unfold Prints; decide, by unfold Prints; decide,
      [' '], _, [], rfl, by unfold Padding; decide, hheader, by unfold Padding; decide⟩

end reductor.dimacs
