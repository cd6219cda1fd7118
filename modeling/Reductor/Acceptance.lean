-- Which lists of lines `deserialize` accepts, told apart by what stands in
-- the lines: their tokens as runs of characters, and the integers as
-- `Integer.valueOf` documents them.
import Reductor.Lexemes

open reductor.java

namespace reductor.dimacs

/-! ## Integers -/

inductive Sign : Text → Int → Prop
  | none : Sign [] 1
  | plus : Sign ['+'] 1
  | minus : Sign ['-'] (-1)

/-- The value of decimal digits, the first of which weighs most. -/
def digitsValue (acc : Nat) (ds : List Nat) : Nat := ds.foldl (fun k d => 10 * k + d) acc

/-- An optional sign and decimal digits that spell an integer of 32 bits. -/
structure IntToken (t : Text) (z : Int) : Prop where
  spelled : ∃ sign digits s ds, t = sign ++ digits ∧ Sign sign s ∧ digits ≠ [] ∧
    List.Forall₂ (fun c d => digit c = some d) digits ds ∧ z = s * digitsValue 0 ds
  fits : -2 ^ 31 ≤ z ∧ z < 2 ^ 31

/-- What `Integer.valueOf` accepts. -/
def Accepted (t : Text) : Prop := ∃ z, IntToken t z

theorem parseDigits_eq_some_iff {s : Text} {acc k : Nat} :
    parseDigits s acc = some k ↔
      ∃ ds, List.Forall₂ (fun c d => digit c = some d) s ds ∧ k = digitsValue acc ds := by
  induction s generalizing acc with
  | nil =>
    constructor
    · intro h
      exact ⟨[], .nil, (Option.some.inj h).symm⟩
    · rintro ⟨ds, hds, rfl⟩
      cases hds
      rfl
  | cons c s ih =>
    rw [parseDigits, Option.bind_eq_some_iff]
    constructor
    · rintro ⟨d, hd, hs⟩
      obtain ⟨ds, hds, hk⟩ := ih.mp hs
      exact ⟨d :: ds, .cons hd hds, hk⟩
    · rintro ⟨ds, hds, hk⟩
      cases hds with
      | cons hd hds => exact ⟨_, hd, ih.mpr ⟨_, hds, hk⟩⟩

theorem toInt32_eq_some_iff {z : Int} {v : Int32} :
    toInt32 z = some v ↔ v.toInt = z ∧ -2 ^ 31 ≤ z ∧ z < 2 ^ 31 := by
  constructor
  · intro h
    unfold toInt32 at h
    split at h
    · rename_i hfits
      cases h
      exact ⟨Int32.toInt_ofInt_of_le hfits.1 hfits.2, hfits⟩
    · cases h
  · rintro ⟨rfl, -⟩
    exact toInt32_toInt v

theorem signedInt_eq_some_iff {sign : Int} {s : Text} {v : Int32} :
    signedInt sign s = some v ↔ s ≠ [] ∧ (-2 ^ 31 ≤ v.toInt ∧ v.toInt < 2 ^ 31) ∧
      ∃ ds, List.Forall₂ (fun c d => digit c = some d) s ds ∧
        v.toInt = sign * digitsValue 0 ds := by
  cases s with
  | nil =>
    constructor
    · intro h
      cases h
    · rintro ⟨hne, -⟩
      exact absurd rfl hne
  | cons c s =>
    rw [signedInt, Option.bind_eq_some_iff]
    constructor
    · rintro ⟨k, hk, hv⟩
      obtain ⟨ds, hds, rfl⟩ := parseDigits_eq_some_iff.mp hk
      obtain ⟨hz, hfits⟩ := toInt32_eq_some_iff.mp hv
      exact ⟨List.cons_ne_nil c s, by rwa [hz], ds, hds, hz⟩
    · rintro ⟨-, hfits, ds, hds, hv⟩
      refine ⟨_, parseDigits_eq_some_iff.mpr ⟨ds, hds, rfl⟩, ?_⟩
      rw [toInt32_eq_some_iff, ← hv]
      exact ⟨rfl, hfits⟩

/-- The code's `Integer.valueOf` reads the integers that the library documents. -/
theorem parseInt_eq_some_iff {t : Text} {v : Int32} :
    parseInt t = some v ↔ IntToken t v.toInt := by
  constructor
  · intro h
    unfold parseInt at h
    split at h
    · obtain ⟨hne, hfits, ds, hds, hv⟩ := signedInt_eq_some_iff.mp h
      exact ⟨⟨['-'], _, -1, ds, rfl, .minus, hne, hds, hv⟩, hfits⟩
    · obtain ⟨hne, hfits, ds, hds, hv⟩ := signedInt_eq_some_iff.mp h
      exact ⟨⟨['+'], _, 1, ds, rfl, .plus, hne, hds, hv⟩, hfits⟩
    · obtain ⟨hne, hfits, ds, hds, hv⟩ := signedInt_eq_some_iff.mp h
      exact ⟨⟨[], _, 1, ds, rfl, .none, hne, hds, hv⟩, hfits⟩
  · rintro ⟨⟨sign, digits, s, ds, rfl, hsign, hne, hds, hv⟩, hfits⟩
    have hsigned := signedInt_eq_some_iff.mpr ⟨hne, hfits, ds, hds, hv⟩
    cases hsign with
    | minus => exact hsigned
    | plus => exact hsigned
    | none =>
      -- A digit is no sign, so the third branch takes the text.
      rw [List.nil_append, parseInt]
      · exact hsigned
      all_goals
        rintro s rfl
        cases hds with
        | cons hd hds => exact absurd (digit_ge hd) (by decide)

theorem accepted_iff {t : Text} : Accepted t ↔ (parseInt t).isSome := by
  rw [Option.isSome_iff_exists]
  constructor
  · rintro ⟨z, hz⟩
    have hz32 := Int32.toInt_ofInt_of_le hz.fits.1 hz.fits.2
    exact ⟨Int32.ofInt z, parseInt_eq_some_iff.mpr (by rwa [hz32])⟩
  · rintro ⟨v, hv⟩
    exact ⟨v.toInt, parseInt_eq_some_iff.mp hv⟩

/-! ## Tokens -/

/-- The text without the characters up to U+0020 at its two ends. -/
def Trimmed (text s : Text) : Prop :=
  ∃ front back, text = front ++ s ++ back ∧ (∀ c ∈ front, c.toNat ≤ 32) ∧
    (∀ c ∈ back, c.toNat ≤ 32) ∧ (∀ c ∈ s.head?, 32 < c.toNat) ∧ ∀ c ∈ s.getLast?, 32 < c.toNat

/-- The maximal runs of characters other than a space. -/
inductive Runs : Text → List Text → Prop
  | nil : Runs [] []
  | space {s : Text} {ts : List Text} : Runs s ts → Runs (' ' :: s) ts
  | run {t s : Text} {ts : List Text} : t ≠ [] → ' ' ∉ t → (∀ c ∈ s.head?, c = ' ') →
      Runs s ts → Runs (t ++ s) (t :: ts)

theorem isBlank_eq_false {c : Char} (h : 32 < c.toNat) : isBlank c = false := by
  rw [Bool.eq_false_iff, ne_eq, isBlank_iff]
  exact Nat.not_le_of_lt h

theorem trim_of_trimmed {text s : Text} (h : Trimmed text s) : java.trim text = s := by
  obtain ⟨front, back, rfl, hfront, hback, hhead, hlast⟩ := h
  have hfront : ∀ c ∈ front, isBlank c = true := fun c hc => isBlank_iff.mpr (hfront c hc)
  have hback : ∀ c ∈ back, isBlank c = true := fun c hc => isBlank_iff.mpr (hback c hc)
  rcases List.eq_nil_or_concat s with rfl | ⟨r, d, hs⟩
  · have hdrop : (front ++ [] ++ back).dropWhile isBlank = [] := by
      rw [List.dropWhile_eq_nil_iff]
      intro c hc
      rw [List.append_nil] at hc
      exact (List.mem_append.mp hc).elim (hfront c) (hback c)
    rw [java.trim, hdrop]
    rfl
  · rw [List.concat_eq_append] at hs
    cases s with
    | nil => exact absurd hs.symm (by simp)
    | cons c s =>
      have hc := isBlank_eq_false (hhead c rfl)
      have hd := isBlank_eq_false (hlast d (by rw [hs]; simp))
      exact trim_padded hfront hback rfl hc hs hd

theorem trimmed_trim (text : Text) : Trimmed text (java.trim text) := by
  refine ⟨text.takeWhile isBlank, (text.dropWhile isBlank).rtakeWhile isBlank, ?_, ?_, ?_, ?_, ?_⟩
  · rw [java.trim, List.append_assoc, List.rdropWhile_append_rtakeWhile,
      List.takeWhile_append_dropWhile]
  · intro c hc
    exact isBlank_iff.mp (List.mem_takeWhile_imp hc)
  · intro c hc
    exact isBlank_iff.mp (List.mem_rtakeWhile_imp hc)
  · intro c hc
    obtain ⟨rest, hrest⟩ : java.trim text <+: text.dropWhile isBlank :=
      List.rdropWhile_prefix isBlank _
    have hnot := List.head?_dropWhile_not isBlank text
    rw [← hrest, List.head?_append, Option.mem_def.mp hc] at hnot
    exact Nat.lt_of_not_le (mt isBlank_iff.mpr (Bool.eq_false_iff.mp hnot))
  · intro c hc
    have hne : java.trim text ≠ [] := by
      intro hnil
      rw [hnil] at hc
      cases hc
    have hnot : ¬ isBlank ((java.trim text).getLast hne) = true :=
      List.rdropWhile_last_not isBlank (text.dropWhile isBlank) hne
    rw [List.getLast?_eq_some_getLast hne] at hc
    rw [Option.some.inj hc] at hnot
    exact Nat.lt_of_not_le (mt isBlank_iff.mpr hnot)

theorem trimmed_iff {text s : Text} : Trimmed text s ↔ java.trim text = s :=
  ⟨trim_of_trimmed, fun h => h ▸ trimmed_trim text⟩

/-- The words of a text are its runs. -/
theorem runs_words (s : Text) : Runs s (words s) := by
  induction hn : s.length using Nat.strongRecOn generalizing s with
  | ind n ih =>
    rcases cut_at_separator (· == ' ') s with hs | ⟨a, c, b, rfl, ha, hc⟩
    · have hspace : ' ' ∉ s := fun h => absurd (hs ' ' h) (by decide)
      by_cases hne : s = []
      · rw [hne]
        exact .nil
      · rw [words_word hne hspace]
        have hrun := Runs.run hne hspace (by simp) .nil
        rwa [List.append_nil] at hrun
    · obtain rfl : c = ' ' := by simpa using hc
      have hspace : ' ' ∉ a := fun h => absurd (ha ' ' h) (by decide)
      rw [List.length_append, List.length_cons] at hn
      have hrest : Runs (' ' :: b) (words b) := .space (ih b.length (by omega) b rfl)
      rw [words_append]
      by_cases hne : a = []
      · rw [hne]
        exact hrest
      · rw [words_word hne hspace]
        exact .run hne hspace (by simp) hrest

theorem runs_iff {s : Text} {ts : List Text} : Runs s ts ↔ words s = ts := by
  constructor
  · intro h
    induction h with
    | nil => rfl
    | space _ ih =>
      rw [← ih]
      exact words_append [] _
    | @run t s ts hne hspace hnext _ ih =>
      cases s with
      | nil =>
        rw [List.append_nil, words_word hne hspace, ← ih]
        rfl
      | cons c s =>
        obtain rfl : c = ' ' := hnext c rfl
        have hwords : words (' ' :: s) = words s := words_append [] s
        rw [words_append, words_word hne hspace, ← ih, hwords]
        rfl
  · rintro rfl
    exact runs_words s

/-- The tokens of a line: the runs of the line once trimmed. -/
def IsTokens (l : Line) (ts : List Text) : Prop := ∃ s, Trimmed l.chars s ∧ Runs s ts

theorem isTokens_iff {l : Line} {ts : List Text} : IsTokens l ts ↔ tokens l = ts := by
  constructor
  · rintro ⟨s, hs, hruns⟩
    rw [tokens, trimmed_iff.mp hs]
    exact runs_iff.mp hruns
  · rintro rfl
    exact ⟨java.trim l.chars, trimmed_iff.mpr rfl, runs_words _⟩

/-! ## Lines that the reader throws on -/

/-- No token, the bare `c`, or a header whose two numbers are missing or no integers. -/
inductive Rejected (l : Line) : Prop
  | blank : IsTokens l [] → Rejected l
  | bare : l.chars = COMMENT → Rejected l
  | short {ts : List Text} : IsTokens l (PROBLEM :: ts) → (PROBLEM :: ts).length < 4 → Rejected l
  | number {format tn tm : Text} {ts : List Text} :
    IsTokens l (PROBLEM :: format :: tn :: tm :: ts) →
      ¬ Accepted tn ∨ ¬ Accepted tm → Rejected l

theorem kind_eq_blank_iff {l : Line} : kind l = .blank ↔ tokens l = [] := by
  constructor
  · intro h
    cases ht : tokens l with
    | nil => rfl
    | cons first rest =>
      rw [kind_cons ht] at h
      split at h
      · cases h
      · split at h
        · cases h
        · cases h
  · exact kind_nil

theorem kind_eq_problem_iff {l : Line} : kind l = .problem ↔ ∃ ts, tokens l = PROBLEM :: ts := by
  constructor
  · intro h
    cases ht : tokens l with
    | nil =>
      rw [kind_nil ht] at h
      cases h
    | cons first rest =>
      rw [kind_cons ht] at h
      split at h
      · cases h
      · split at h
        · rename_i hp
          exact ⟨rest, by rw [hp]⟩
        · cases h
  · rintro ⟨ts, ht⟩
    rw [kind_cons ht, if_neg (by decide), if_pos rfl]

theorem headerInts {l : Line} {format tn tm : Text} {ts : List Text}
    (h : tokens l = PROBLEM :: format :: tn :: tm :: ts) :
    headerInt l 2 = parseInt tn ∧ headerInt l 3 = parseInt tm := by
  simp [headerInt, h]

/-- A header line is rejected, or has its two numbers. -/
theorem rejected_problem_iff {l : Line} {ts : List Text} (h : tokens l = PROBLEM :: ts) :
    Rejected l ↔ ¬ ((headerInt l 2).isSome ∧ (headerInt l 3).isSome) := by
  constructor
  · intro hr
    cases hr with
    | blank ht =>
      rw [isTokens_iff.mp ht] at h
      cases h
    | bare hbare =>
      have hk := kind_of_bare hbare
      rw [kind_eq_problem_iff.mpr ⟨ts, h⟩] at hk
      cases hk
    | short ht hlen =>
      have hnone : headerInt l 3 = none := by
        rw [headerInt, isTokens_iff.mp ht, List.getElem?_eq_none (Nat.le_of_lt_succ hlen)]
        rfl
      simp [hnone]
    | number ht hno =>
      obtain ⟨h2, h3⟩ := headerInts (isTokens_iff.mp ht)
      rw [h2, h3, ← accepted_iff, ← accepted_iff, not_and_or]
      exact hno
  · intro hno
    by_cases hlen : (PROBLEM :: ts).length < 4
    · exact .short (isTokens_iff.mpr h) hlen
    · obtain ⟨format, tn, tm, rest, rfl⟩ :
          ∃ format tn tm rest, ts = format :: tn :: tm :: rest := by
        rcases ts with _ | ⟨format, _ | ⟨tn, _ | ⟨tm, rest⟩⟩⟩
        · simp at hlen
        · simp at hlen
        · simp at hlen
        · exact ⟨format, tn, tm, rest, rfl⟩
      obtain ⟨h2, h3⟩ := headerInts h
      rw [h2, h3, ← accepted_iff, ← accepted_iff, not_and_or] at hno
      exact .number (isTokens_iff.mpr h) hno

theorem Rejected.kind {l : Line} (h : Rejected l) :
    kind l = .blank ∨ l.chars = COMMENT ∨ kind l = .problem := by
  cases h with
  | blank ht => exact .inl (kind_eq_blank_iff.mpr (isTokens_iff.mp ht))
  | bare hbare => exact .inr (.inl hbare)
  | short ht => exact .inr (.inr (kind_eq_problem_iff.mpr ⟨_, isTokens_iff.mp ht⟩))
  | number ht => exact .inr (.inr (kind_eq_problem_iff.mpr ⟨_, isTokens_iff.mp ht⟩))

/-- The reader throws on the lines that are rejected. -/
theorem rejected_iff {l : Line} : Rejected l ↔ ¬ Readable l := by
  cases hk : kind l with
  | blank =>
    have ht := kind_eq_blank_iff.mp hk
    exact iff_of_true (.blank (isTokens_iff.mpr ht)) fun h => h.1 hk
  | comment =>
    rw [readable_comment_iff hk, not_not]
    refine ⟨fun h => ?_, .bare⟩
    rcases h.kind with hb | hbare | hp
    · rw [hk] at hb
      cases hb
    · exact hbare
    · rw [hk] at hp
      cases hp
  | problem =>
    obtain ⟨ts, ht⟩ := kind_eq_problem_iff.mp hk
    rw [rejected_problem_iff ht, readable_problem_iff hk]
  | clause =>
    refine iff_of_false (fun h => ?_) (not_not.mpr (readable_clause hk))
    rcases h.kind with hb | hbare | hp
    · rw [hk] at hb
      cases hb
    · rw [kind_of_bare hbare] at hk
      cases hk
    · rw [hk] at hp
      cases hp

/-! ## Lists of lines that the reader accepts -/

/-- A comment for each line with `c` first, a clause for each line with
neither `c` nor `p` first, and the header of the last line with `p` first. -/
structure FilledFrom (lines : List Line) (dimacs : DimacsDto) : Prop where
  comments : List.Forall₂ (fun l comment => comment = l.chars.drop 2) (commentLines lines)
    dimacs.comments
  clauses : List.Forall₂ (fun l c => c.values = (tokens l).filterMap parseInt) (clauseLines lines)
    dimacs.clausesDto
  header : ∀ l, headerLine lines = some l → ∃ format tn tm ts,
    IsTokens l (PROBLEM :: format :: tn :: tm :: ts) ∧ dimacs.format = some format ∧
      IntToken tn dimacs.variables'.toInt ∧ IntToken tm dimacs.clauses.toInt
  no_header : headerLine lines = none →
    dimacs.format = none ∧ dimacs.variables' = 0 ∧ dimacs.clauses = 0

theorem header_tokens {l : Line} (hk : kind l = .problem) (h : Readable l) :
    ∃ format tn tm ts n m, tokens l = PROBLEM :: format :: tn :: tm :: ts ∧
      parseInt tn = some n ∧ parseInt tm = some m := by
  obtain ⟨ts, ht⟩ := kind_eq_problem_iff.mp hk
  obtain ⟨h2, h3⟩ := (readable_problem_iff hk).mp h
  match ts with
  | format :: tn :: tm :: rest =>
    obtain ⟨he2, he3⟩ := headerInts ht
    rw [he2] at h2
    rw [he3] at h3
    obtain ⟨n, hn⟩ := Option.isSome_iff_exists.mp h2
    obtain ⟨m, hm⟩ := Option.isSome_iff_exists.mp h3
    exact ⟨format, tn, tm, rest, n, m, ht, hn, hm⟩
  | [] | [_] | [_, _] => simp [headerInt, ht] at h3

theorem filledFrom_dtoOf {lines : List Line} (h : ∀ l ∈ lines, Readable l) :
    FilledFrom lines (dtoOf lines) where
  comments := by
    rw [dtoOf, List.forall₂_map_right_iff, List.forall₂_same]
    exact fun _ _ => rfl
  clauses := by
    rw [dtoOf, List.forall₂_map_right_iff, List.forall₂_same]
    exact fun _ _ => rfl
  header := by
    intro l hl
    obtain ⟨hmem, hkind⟩ : l ∈ lines ∧ kind l = .problem := by
      have hlast := List.mem_of_getLast? hl
      simpa using hlast
    obtain ⟨format, tn, tm, ts, n, m, ht, hn, hm⟩ := header_tokens hkind (h l hmem)
    obtain ⟨h2, h3⟩ := headerInts ht
    refine ⟨format, tn, tm, ts, isTokens_iff.mpr ht, ?_, ?_, ?_⟩
    · simp [dtoOf, hl, ht]
    · simpa [dtoOf, headerVariables, hl, h2, hn] using parseInt_eq_some_iff.mp hn
    · simpa [dtoOf, headerClauses, hl, h3, hm] using parseInt_eq_some_iff.mp hm
  no_header := by
    intro hnone
    simp [dtoOf, headerVariables, headerClauses, hnone]

/-- The reader throws on a list just when it holds a line that is rejected,
and else fills the fields from the lines. -/
theorem reader_accepts_exactly (lines : List Line) :
    ((∃ thrown, deserialize lines = .error thrown) ↔ ∃ l ∈ lines, Rejected l) ∧
      ((∀ l ∈ lines, ¬ Rejected l) →
        ∃ dimacs, deserialize lines = .ok dimacs ∧ FilledFrom lines dimacs) := by
  have hreadable : (∀ l ∈ lines, ¬ Rejected l) ↔ ∀ l ∈ lines, Readable l := by
    simp only [rejected_iff, not_not]
  constructor
  · constructor
    · rintro ⟨thrown, hthrown⟩
      by_contra hno
      push Not at hno
      rw [deserialize_ok (hreadable.mp hno)] at hthrown
      cases hthrown
    · rintro ⟨l, hl, hr⟩
      exact deserialize_error ⟨l, hl, rejected_iff.mp hr⟩
  · intro h
    have hlines := hreadable.mp h
    exact ⟨dtoOf lines, deserialize_ok hlines, filledFrom_dtoOf hlines⟩

/-- A line of clauses may hold anything, and the later header wins. -/
theorem the_reader_accepts_junk_in_clauses :
    ∃ dimacs, deserialize (read "p cnf 1 1\n%\nx 0 1.5\n p x +2 -0 y\n".toList) = .ok dimacs ∧
      FilledFrom (read "p cnf 1 1\n%\nx 0 1.5\n p x +2 -0 y\n".toList) dimacs := by
  refine (reader_accepts_exactly _).2 ?_
  simp only [rejected_iff]
  decide +kernel

end reductor.dimacs
