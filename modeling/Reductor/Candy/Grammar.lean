-- Which files Candy accepts, told apart by what stands in them, and what it
-- makes of each: white space is free, and a 0 ends a clause.
import Reductor.Candy.Clauses
import Mathlib.Data.List.TakeWhile

open reductor.streams

namespace reductor.candy

/-! ## White space and lines -/

def White (space : Bytes) : Prop := ∀ c ∈ space, isWhitespace c = true

theorem white_nil : White [] := by
  intro c hc
  cases hc

theorem skipWhitespace_eq (s : Bytes) :
    (skipWhitespace : Parser Bytes Stop Unit) s = .ok ((), s.dropWhile isWhitespace) := by
  induction s with
  | nil => rfl
  | cons c s ih =>
    rw [skipWhitespace, loop_eq takes_whitespaceTurn, whitespaceTurn, peek_bind]
    by_cases hc : isWhitespace c = true
    · rw [if_pos (show (c :: s).head?.any isWhitespace = true from hc),
        List.dropWhile_cons_of_pos hc]
      exact ih
    · rw [if_neg (show ¬ (c :: s).head?.any isWhitespace = true from hc),
        List.dropWhile_cons_of_neg hc]
      rfl

theorem dropWhile_of_head {p : UInt8 → Bool} {s : Bytes} (h : ∀ c ∈ s.head?, p c = false) :
    s.dropWhile p = s := by
  cases s with
  | nil => rfl
  | cons c s => exact List.dropWhile_cons_of_neg (Bool.eq_false_iff.mp (h c rfl))

/-- A text is bytes of a kind, and then another byte or the end. -/
theorem exists_span (p : UInt8 → Bool) (s : Bytes) : ∃ front, s = front ++ s.dropWhile p ∧
    (∀ c ∈ front, p c = true) ∧ ∀ c ∈ (s.dropWhile p).head?, p c = false := by
  refine ⟨s.takeWhile p, List.takeWhile_append_dropWhile.symm,
    fun c hc => List.mem_takeWhile_imp hc, ?_⟩
  intro c hc
  have hnot := List.head?_dropWhile_not p s
  rwa [Option.mem_def.mp hc] at hnot

theorem lineTurn_cons (c : UInt8) (s : Bytes) :
    (lineTurn () : Parser Bytes Stop (Unit ⊕ Unit)) (c :: s) =
      .ok (if c = 10 then .inr () else .inl (), s) := by
  rw [lineTurn, peek_bind, if_neg (by simp), advance_bind]
  by_cases hc : c = 10
  · rw [if_pos hc, hc]
    rfl
  · rw [if_neg hc, List.head?_cons, if_neg (fun he => hc (Option.some.inj he))]
    rfl

theorem skipLine_eq (s : Bytes) :
    (skipLine : Parser Bytes Stop Unit) s = .ok ((), (s.dropWhile (· != 10)).tail) := by
  induction s with
  | nil => rfl
  | cons c s ih =>
    rw [skipLine, loop_eq takes_lineTurn, lineTurn_cons]
    by_cases hc : c = 10
    · rw [if_pos hc, List.dropWhile_cons_of_neg (by simp [hc])]
      rfl
    · rw [if_neg hc, List.dropWhile_cons_of_pos (by simp [hc])]
      exact ih

/-! ## Integers -/

/-- The value of decimal digits behind digits that have a value. -/
def decimal (val : Int) (digits : Bytes) : Int :=
  digits.foldl (fun val c => val * 10 + (c.toNat - 48)) val

theorem decimal_cons (val : Int) (c : UInt8) (digits : Bytes) :
    decimal val (c :: digits) = decimal (val * 10 + (c.toNat - 48)) digits := rfl

inductive SignText : Bytes → Bool → Prop
  | none : SignText [] false
  | plus : SignText [43] false
  | minus : SignText [45] true

/-- White space, a sign or none, and all the digits of an integer that fits. -/
structure IntText (z : Int) (s rest : Bytes) : Prop where
  spelled : ∃ space sign negative digits, s = space ++ (sign ++ (digits ++ rest)) ∧ White space ∧
    SignText sign negative ∧ digits ≠ [] ∧ (∀ c ∈ digits, isDigit c = true) ∧
    z = if negative then -decimal 0 digits else decimal 0 digits
  fits : z.natAbs < 2 ^ 31
  ends : ∀ c ∈ rest.head?, isDigit c = false

theorem isDigit_iff {c : UInt8} : isDigit c = true ↔ 48 ≤ c.toNat ∧ c.toNat ≤ 57 := by
  unfold isDigit
  rw [Bool.and_eq_true, decide_eq_true_eq, decide_eq_true_eq, UInt8.le_iff_toNat_le,
    UInt8.le_iff_toNat_le]
  rfl

theorem le_decimal {val : Int} (hval : 0 ≤ val) {digits : Bytes}
    (h : ∀ c ∈ digits, isDigit c = true) : val ≤ decimal val digits := by
  induction digits generalizing val with
  | nil => exact Int.le_refl _
  | cons c digits ih =>
    have hc := (isDigit_iff.mp (h c List.mem_cons_self)).1
    have hval' : 0 ≤ val * 10 + ((c.toNat : Int) - 48) := by omega
    have hrest := ih hval' fun d hd => h d (List.mem_cons_of_mem c hd)
    exact Int.le_trans (by omega) hrest

theorem digitTurn_cons {c : UInt8} (hc : isDigit c = true) (val : Int) (s : Bytes) :
    (digitTurn val : Parser Bytes Stop (Int ⊕ Int)) (c :: s) =
      if -2 ^ 31 ≤ val * 10 + ((c.toNat : Int) - 48) ∧
          val * 10 + ((c.toNat : Int) - 48) < 2 ^ 31 then
        .ok (.inl (val * 10 + (c.toNat - 48)), s)
      else .error (.failed .overflow) := by
  rw [digitTurn, peek_bind, if_pos (show (c :: s).head?.any isDigit = true from hc)]
  rw [List.head?_cons, Option.getD_some, int32]
  by_cases h : -2 ^ 31 ≤ val * 10 + ((c.toNat : Int) - 48) ∧
      val * 10 + ((c.toNat : Int) - 48) < 2 ^ 31
  · rw [if_pos h, if_pos h]
    rfl
  · rw [if_neg h, if_neg h]
    rfl

/-- The digits in front are read, unless their value is too large. -/
theorem digits_eq {val : Int} (hval : 0 ≤ val) (hfits : val < 2 ^ 31) (s : Bytes) :
    (loop digitTurn val : Parser Bytes Stop Int) s =
      if decimal val (s.takeWhile isDigit) < 2 ^ 31 then
        .ok (decimal val (s.takeWhile isDigit), s.dropWhile isDigit)
      else .error (.failed .overflow) := by
  induction s generalizing val with
  | nil =>
    rw [List.takeWhile_nil, List.dropWhile_nil, if_pos (show decimal val [] < 2 ^ 31 from hfits)]
    rfl
  | cons c s ih =>
    rw [loop_eq takes_digitTurn]
    by_cases hc : isDigit c = true
    · have hge := (isDigit_iff.mp hc).1
      rw [digitTurn_cons hc, List.takeWhile_cons_of_pos hc, List.dropWhile_cons_of_pos hc,
        decimal_cons]
      by_cases hlt : val * 10 + ((c.toNat : Int) - 48) < 2 ^ 31
      · rw [if_pos ⟨by omega, hlt⟩]
        exact ih (by omega) hlt
      · have hval' : 0 ≤ val * 10 + ((c.toNat : Int) - 48) := by omega
        have hle := le_decimal hval' fun d (hd : d ∈ s.takeWhile isDigit) =>
          List.mem_takeWhile_imp hd
        rw [if_neg fun h => hlt h.2, if_neg fun h => hlt (Int.lt_of_le_of_lt hle h)]
        rfl
    · rw [digitTurn, peek_bind, if_neg (show ¬ (c :: s).head?.any isDigit = true from hc),
        List.takeWhile_cons_of_neg hc, List.dropWhile_cons_of_neg hc,
        if_pos (show decimal val [] < 2 ^ 31 from hfits)]
      rfl

/-- In front there is a sign or none. -/
theorem parseSign_spec (s : Bytes) : ∃ sign negative t, s = sign ++ t ∧ SignText sign negative ∧
    (parseSign : Parser Bytes Stop Bool) s = .ok (negative, t) := by
  unfold parseSign
  rw [peek_bind]
  cases s with
  | nil => exact ⟨[], false, [], rfl, .none, rfl⟩
  | cons c s =>
    by_cases hminus : c = 45
    · subst hminus
      exact ⟨[45], true, s, rfl, .minus, rfl⟩
    · rw [List.head?_cons, if_neg fun he => hminus (Option.some.inj he)]
      by_cases hplus : c = 43
      · subst hplus
        exact ⟨[43], false, s, rfl, .plus, rfl⟩
      · rw [if_neg fun he => hplus (Option.some.inj he)]
        exact ⟨[], false, c :: s, rfl, .none, rfl⟩

theorem parseSign_text {sign digits : Bytes} {negative : Bool} (h : SignText sign negative)
    (hne : digits ≠ []) (hdigits : ∀ c ∈ digits, isDigit c = true) (rest : Bytes) :
    (parseSign : Parser Bytes Stop Bool) (sign ++ (digits ++ rest)) =
      .ok (negative, digits ++ rest) := by
  cases h with
  | plus => rfl
  | minus => rfl
  | none =>
    obtain ⟨c, digits, rfl⟩ := List.exists_cons_of_ne_nil hne
    have hc := isDigit_iff.mp (hdigits c List.mem_cons_self)
    have hminus : some c ≠ some 45 := by
      rintro ⟨⟩
      exact absurd hc.1 (by decide)
    have hplus : some c ≠ some 43 := by
      rintro ⟨⟩
      exact absurd hc.1 (by decide)
    unfold parseSign
    rw [peek_bind, List.nil_append, List.cons_append, List.head?_cons, if_neg hminus, if_neg hplus]
    rfl

theorem isWhitespace_iff {c : UInt8} : isWhitespace c = true ↔
    9 ≤ c.toNat ∧ c.toNat ≤ 13 ∨ c.toNat = 32 := by
  unfold isWhitespace
  rw [Bool.or_eq_true, Bool.and_eq_true, decide_eq_true_eq, decide_eq_true_eq, beq_iff_eq,
    UInt8.le_iff_toNat_le, UInt8.le_iff_toNat_le, ← UInt8.toNat_inj]
  rfl

/-- An integer starts with no white space. -/
theorem SignText.head {sign digits : Bytes} {negative : Bool} (h : SignText sign negative)
    (hne : digits ≠ []) (hdigits : ∀ c ∈ digits, isDigit c = true) (rest : Bytes) :
    ∀ c ∈ (sign ++ (digits ++ rest)).head?, isWhitespace c = false := by
  obtain ⟨d, digits, rfl⟩ := List.exists_cons_of_ne_nil hne
  intro c hc
  cases h with
  | plus =>
    cases hc
    rfl
  | minus =>
    cases hc
    rfl
  | none =>
    cases hc
    have hd := isDigit_iff.mp (hdigits d List.mem_cons_self)
    rw [Bool.eq_false_iff, ne_eq, isWhitespace_iff]
    omega

/-- The integers that are read are those that a text spells. -/
theorem parseInt_eq_ok_iff {z : Int} {s rest : Bytes} :
    (parseInt : Parser Bytes Stop Int) s = .ok (z, rest) ↔ IntText z s rest := by
  constructor
  · intro h
    obtain ⟨space, hspace, hwhite, -⟩ := exists_span isWhitespace s
    obtain ⟨sign, negative, t, ht, hsign, hparse⟩ := parseSign_spec (s.dropWhile isWhitespace)
    unfold parseInt at h
    rw [bind_of_ok (skipWhitespace_eq s), bind_of_ok hparse, peek_bind] at h
    by_cases hd : t.head?.any isDigit = true
    · rw [if_pos hd] at h
      obtain ⟨val, u, hloop, hend⟩ := bind_eq_ok h
      cases hend
      rw [digits_eq (Int.le_refl 0) (by decide)] at hloop
      have hdigits : ∀ c ∈ t.takeWhile isDigit, isDigit c = true :=
        fun c hc => List.mem_takeWhile_imp hc
      have hpos := le_decimal (Int.le_refl 0) hdigits
      obtain ⟨-, -, -, hends⟩ := exists_span isDigit t
      split at hloop
      · rename_i hfits
        cases hloop
        refine ⟨⟨space, sign, negative, _, ?_, hwhite, hsign, ?_, hdigits, rfl⟩, ?_, ?_⟩
        · rw [List.takeWhile_append_dropWhile, ← ht, ← hspace]
        · cases t with
          | nil => cases hd
          | cons c t =>
            have hc : isDigit c = true := hd
            rw [List.takeWhile_cons_of_pos hc]
            exact List.cons_ne_nil _ _
        · cases negative <;> simp <;> omega
        · exact hends
      · cases hloop
    · rw [if_neg hd] at h
      cases h
  · rintro ⟨⟨space, sign, negative, digits, rfl, hwhite, hsign, hne, hdigits, rfl⟩, hfits, hends⟩
    have hpos := le_decimal (Int.le_refl 0) hdigits
    have hlt : decimal 0 digits < 2 ^ 31 := by
      cases negative <;> simp at hfits <;> omega
    have hdrop : (space ++ (sign ++ (digits ++ rest))).dropWhile isWhitespace =
        sign ++ (digits ++ rest) := by
      rw [List.dropWhile_append_of_pos hwhite, dropWhile_of_head (hsign.head hne hdigits rest)]
    have htake : (digits ++ rest).takeWhile isDigit = digits := by
      rw [List.takeWhile_append_of_pos hdigits]
      cases rest with
      | nil => exact List.append_nil _
      | cons c rest =>
        rw [List.takeWhile_cons_of_neg (Bool.eq_false_iff.mp (hends c rfl)), List.append_nil]
    unfold parseInt
    rw [bind_of_ok (skipWhitespace_eq _), hdrop, bind_of_ok (parseSign_text hsign hne hdigits rest),
      peek_bind, if_pos, bind_of_ok]
    · rfl
    · rw [digits_eq (Int.le_refl 0) (by decide), htake, if_pos hlt,
        List.dropWhile_append_of_pos hdigits, dropWhile_of_head hends]
    · obtain ⟨c, digits, rfl⟩ := List.exists_cons_of_ne_nil hne
      exact hdigits c List.mem_cons_self

/-- An integer is the start of no comment and of no header. -/
theorem IntText.head {z : Int} {s rest : Bytes} (h : IntText z s rest) :
    s ≠ [] ∧ s.head? ≠ some 112 ∧ s.head? ≠ some 99 := by
  obtain ⟨⟨space, sign, negative, digits, rfl, hwhite, hsign, hne, hdigits, -⟩, -, -⟩ := h
  obtain ⟨d, digits, rfl⟩ := List.exists_cons_of_ne_nil hne
  have hd := isDigit_iff.mp (hdigits d List.mem_cons_self)
  cases space with
  | cons c space =>
    have hc := isWhitespace_iff.mp (hwhite c List.mem_cons_self)
    refine ⟨List.cons_ne_nil _ _, ?_, ?_⟩
    · rintro ⟨⟩
      exact absurd hc (by decide)
    · rintro ⟨⟩
      exact absurd hc (by decide)
  | nil =>
    cases hsign with
    | plus => exact ⟨List.cons_ne_nil _ _, by simp, by simp⟩
    | minus => exact ⟨List.cons_ne_nil _ _, by simp, by simp⟩
    | none =>
      refine ⟨List.cons_ne_nil _ _, ?_, ?_⟩
      · rintro ⟨⟩
        exact absurd hd (by decide)
      · rintro ⟨⟩
        exact absurd hd (by decide)

/-! ## Clauses -/

/-- The literal that an integer other than 0 stands for. -/
def literal (z : Int) : Lit := ⟨(z.natAbs - 1) + (z.natAbs - 1) + (decide (z < 0)).toInt⟩

/-- Integers other than 0 whose literals fit, and a 0 behind them. -/
inductive ClauseText : List Int → Bytes → Bytes → Prop
  | zero {s rest : Bytes} : IntText 0 s rest → ClauseText [] s rest
  | cons {z : Int} {zs : List Int} {s t rest : Bytes} : IntText z s t → z ≠ 0 →
      z.natAbs ≤ 2 ^ 30 → ClauseText zs t rest → ClauseText (z :: zs) s rest

theorem mkLit_eq (z : Int) (s : Bytes) :
    (mkLit (z.natAbs - 1) (decide (z < 0)) : Parser Bytes Stop Lit) s =
      if z.natAbs ≤ 2 ^ 30 then .ok (literal z, s) else .error (.failed .overflow) := by
  unfold mkLit int32
  have hsign : 0 ≤ (decide (z < 0)).toInt ∧ (decide (z < 0)).toInt ≤ 1 := by
    cases decide (z < 0) <;> decide
  by_cases h : z.natAbs ≤ 2 ^ 30
  · rw [if_pos h, if_pos ⟨by omega, by omega⟩]
    rfl
  · rw [if_neg h, if_neg fun hfits => h (by omega)]
    rfl

theorem litTurn_zero (kept : Cl) (s : Bytes) :
    (litTurn (0, kept) : Parser Bytes Stop (Int × Cl ⊕ Cl)) s = .ok (.inr kept, s) := rfl

theorem litTurn_eq_ok_iff {z : Int} (hz : z ≠ 0) {kept : Cl} {s t : Bytes} {r : Int × Cl ⊕ Cl} :
    (litTurn (z, kept) : Parser Bytes Stop (Int × Cl ⊕ Cl)) s = .ok (r, t) ↔
      z.natAbs ≤ 2 ^ 30 ∧ ∃ z', IntText z' s t ∧ r = .inl (z', kept ++ [literal z]) := by
  unfold litTurn
  rw [if_neg hz, bind_eq_ok_iff]
  simp only [mkLit_eq]
  constructor
  · rintro ⟨lit, u, hlit, h⟩
    split at hlit
    · rename_i hfits
      cases hlit
      obtain ⟨z', v, hint, hend⟩ := bind_eq_ok h
      cases hend
      exact ⟨hfits, z', parseInt_eq_ok_iff.mp hint, rfl⟩
    · cases hlit
  · rintro ⟨hfits, z', hint, rfl⟩
    refine ⟨literal z, s, if_pos hfits, ?_⟩
    rw [bind_of_ok (parseInt_eq_ok_iff.mpr hint)]
    rfl

/-- The loop behind an integer reads the rest of a clause. -/
theorem clauseText_of_turns {a : Int × Cl} {s t rest : Bytes} {lits : Cl}
    (hturns : Turns litTurn a t lits rest) (hint : IntText a.1 s t) :
    ∃ zs, ClauseText zs s rest ∧ lits = a.2 ++ zs.map literal := by
  induction hturns generalizing s with
  | @last a t rest lits hturn =>
    by_cases hz : a.1 = 0
    · unfold litTurn at hturn
      rw [if_pos hz] at hturn
      cases hturn
      rw [hz] at hint
      exact ⟨[], .zero hint, (List.append_nil _).symm⟩
    · obtain ⟨-, z', -, he⟩ := (litTurn_eq_ok_iff hz).mp hturn
      cases he
  | @next a b t u rest lits hturn _ ih =>
    by_cases hz : a.1 = 0
    · unfold litTurn at hturn
      rw [if_pos hz] at hturn
      cases hturn
    · obtain ⟨hfits, z', hint', he⟩ := (litTurn_eq_ok_iff hz).mp hturn
      cases he
      obtain ⟨zs, hzs, hlits⟩ := ih hint'
      refine ⟨a.1 :: zs, .cons hint hz hfits hzs, ?_⟩
      rw [hlits, List.append_assoc]
      rfl

theorem turns_of_clauseText {zs : List Int} {s rest : Bytes} (h : ClauseText zs s rest)
    (kept : Cl) :
    ∃ z t, IntText z s t ∧ Turns litTurn (z, kept) t (kept ++ zs.map literal) rest := by
  induction h generalizing kept with
  | @zero s rest hint =>
    refine ⟨0, rest, hint, .last ?_⟩
    rw [litTurn_zero, List.map_nil, List.append_nil]
  | @cons z zs s t rest hint hz hfits _ ih =>
    obtain ⟨z', u, hint', hturns⟩ := ih (kept ++ [literal z])
    refine ⟨z, t, hint, .next ((litTurn_eq_ok_iff hz).mpr ⟨hfits, z', hint', rfl⟩) ?_⟩
    rwa [List.append_assoc] at hturns

theorem readLits_eq_ok_iff {s rest : Bytes} {lits : Cl} :
    (readLits : Parser Bytes Stop Cl) s = .ok (lits, rest) ↔
      ∃ zs, ClauseText zs s rest ∧ lits = zs.map literal := by
  unfold readLits
  rw [bind_eq_ok_iff]
  constructor
  · rintro ⟨z, t, hint, hloop⟩
    exact clauseText_of_turns ((loop_eq_ok_iff takes_litTurn).mp hloop) (parseInt_eq_ok_iff.mp hint)
  · rintro ⟨zs, hzs, rfl⟩
    obtain ⟨z, t, hint, hturns⟩ := turns_of_clauseText hzs []
    exact ⟨z, t, parseInt_eq_ok_iff.mpr hint, (loop_eq_ok_iff takes_litTurn).mpr hturns⟩

/-! ## Files -/

inductive Item
  | comment
  | header (headerVars headerClauses : Int)
  | clause (literals : List Int)
  deriving DecidableEq, Repr

def CNFProblem.add (cnf : CNFProblem) : Item → CNFProblem
  | .comment => cnf
  | .header headerVars headerClauses =>
    { cnf with headerVars := headerVars, headerClauses := headerClauses }
  | .clause zs => cnf.readClause (zs.map literal)

inductive ItemText : Item → Bytes → Bytes → Prop
  | header {n m : Int} {s t rest : Bytes} : IntText n s t → IntText m t rest → 0 ≤ m →
      ItemText (.header n m) (ascii "p cnf" ++ s) rest
  | comment {line rest : Bytes} : 10 ∉ line → ItemText .comment (99 :: (line ++ 10 :: rest)) rest
  | lastComment {line : Bytes} : 10 ∉ line → ItemText .comment (99 :: line) []
  | clause {zs : List Int} {s rest : Bytes} : ClauseText zs s rest → ItemText (.clause zs) s rest

/-- Items up to the end, with white space around them as they like it. -/
inductive FileText : List Item → Bytes → Prop
  | done {space : Bytes} : White space → FileText [] space
  | item {item : Item} {items : List Item} {space s rest : Bytes} : White space →
      ItemText item s rest → FileText items rest → FileText (item :: items) (space ++ s)

theorem eagerMatch_eq_ok_iff {str s t : Bytes} :
    (eagerMatch str : Parser Bytes Stop Bool) s = .ok (true, t) ↔ s = str ++ t := by
  induction str generalizing s with
  | nil =>
    constructor
    · intro h
      cases h
      rfl
    · rintro rfl
      rfl
  | cons c str ih =>
    rw [eagerMatch, peek_bind]
    by_cases hc : s.head? = some c
    · obtain ⟨r, rfl⟩ := List.head?_eq_some_iff.mp hc
      rw [if_pos hc, advance_bind, List.cons_append, List.cons.injEq]
      exact ih.trans (and_iff_right rfl).symm
    · rw [if_neg hc]
      refine iff_of_false (fun h => ?_) ?_
      · cases h
      · rintro rfl
        exact hc rfl

theorem readHeader_eq_ok_iff {cnf cnf' : CNFProblem} {s rest : Bytes} :
    (readHeader cnf : Parser Bytes Stop CNFProblem) s = .ok (cnf', rest) ↔
      ∃ n m t u, s = ascii "p cnf" ++ t ∧ IntText n t u ∧ IntText m u rest ∧ 0 ≤ m ∧
        cnf' = cnf.add (.header n m) := by
  constructor
  · intro h
    obtain ⟨matched, t, hmatch, h⟩ := bind_eq_ok h
    cases matched with
    | false => cases h
    | true =>
      rw [if_pos rfl] at h
      obtain ⟨n, u, hn, h⟩ := bind_eq_ok h
      obtain ⟨m, v, hm, h⟩ := bind_eq_ok h
      split at h
      · cases h
      · rename_i hneg
        cases h
        exact ⟨n, m, t, u, eagerMatch_eq_ok_iff.mp hmatch, parseInt_eq_ok_iff.mp hn,
          parseInt_eq_ok_iff.mp hm, Int.not_lt.mp hneg, rfl⟩
  · rintro ⟨n, m, t, u, rfl, hn, hm, hpos, rfl⟩
    unfold readHeader
    rw [bind_of_ok (eagerMatch_eq_ok_iff.mpr rfl), if_pos rfl,
      bind_of_ok (parseInt_eq_ok_iff.mpr hn), bind_of_ok (parseInt_eq_ok_iff.mpr hm),
      if_neg (Int.not_lt.mpr hpos)]
    rfl

/-- The rest of a line: up to its line feed, or up to the end of the file. -/
theorem line_cases (s : Bytes) : ∃ line, 10 ∉ line ∧
    (s = line ∧ (s.dropWhile (· != 10)).tail = [] ∨
      s = line ++ 10 :: (s.dropWhile (· != 10)).tail) := by
  obtain ⟨line, hs, hline, hends⟩ := exists_span (· != 10) s
  refine ⟨line, fun h => absurd (hline 10 h) (by decide), ?_⟩
  cases hdrop : s.dropWhile (· != 10) with
  | nil =>
    rw [hdrop, List.append_nil] at hs
    exact .inl ⟨hs, rfl⟩
  | cons c rest =>
    rw [hdrop] at hs hends
    have hc : c = 10 := by simpa using hends c rfl
    rw [hc] at hs
    exact .inr hs

theorem dropWhile_line {line : Bytes} (h : 10 ∉ line) (rest : Bytes) :
    (line ++ 10 :: rest).dropWhile (· != 10) = 10 :: rest ∧ line.dropWhile (· != 10) = [] := by
  have hall : ∀ c ∈ line, (c != 10) = true := by
    intro c hc
    rw [bne_iff_ne]
    rintro rfl
    exact h hc
  refine ⟨?_, List.dropWhile_eq_nil_iff.mpr hall⟩
  rw [List.dropWhile_append_of_pos hall]
  rfl

theorem ClauseText.head {zs : List Int} {s rest : Bytes} (h : ClauseText zs s rest) :
    s ≠ [] ∧ s.head? ≠ some 112 ∧ s.head? ≠ some 99 := by
  cases h with
  | zero hint => exact hint.head
  | cons hint => exact hint.head

theorem readItem_text {item : Item} {s rest : Bytes} (h : ItemText item s rest)
    (cnf : CNFProblem) : s ≠ [] ∧
      (readItem s.head? cnf : Parser Bytes Stop CNFProblem) s = .ok (cnf.add item, rest) := by
  cases h with
  | header hn hm hpos =>
    refine ⟨List.cons_ne_nil _ _, ?_⟩
    exact readHeader_eq_ok_iff.mpr ⟨_, _, _, _, rfl, hn, hm, hpos, rfl⟩
  | comment hline =>
    refine ⟨List.cons_ne_nil _ _, ?_⟩
    show (skipLine >>= fun _ => pure cnf) _ = _
    rw [bind_of_ok (skipLine_eq _), List.dropWhile_cons_of_pos (by decide),
      (dropWhile_line hline rest).1]
    rfl
  | lastComment hline =>
    refine ⟨List.cons_ne_nil _ _, ?_⟩
    show (skipLine >>= fun _ => pure cnf) _ = _
    rw [bind_of_ok (skipLine_eq _), List.dropWhile_cons_of_pos (by decide),
      (dropWhile_line hline []).2]
    rfl
  | clause hzs =>
    obtain ⟨hne, hp, hc⟩ := hzs.head
    refine ⟨hne, ?_⟩
    unfold readItem
    rw [if_neg hp, if_neg hc, bind_of_ok (readLits_eq_ok_iff.mpr ⟨_, hzs, rfl⟩)]
    rfl

/-- What is read at a byte is an item that stands there. -/
theorem readItem_eq_ok_iff {cnf cnf' : CNFProblem} {s rest : Bytes} :
    s ≠ [] ∧ (readItem s.head? cnf : Parser Bytes Stop CNFProblem) s = .ok (cnf', rest) ↔
      ∃ item, ItemText item s rest ∧ cnf' = cnf.add item := by
  constructor
  · rintro ⟨hs, h⟩
    obtain ⟨c, s, rfl⟩ := List.exists_cons_of_ne_nil hs
    unfold readItem at h
    split at h
    · obtain ⟨n, m, t, u, hs, hn, hm, hpos, rfl⟩ := readHeader_eq_ok_iff.mp h
      rw [hs]
      exact ⟨_, .header hn hm hpos, rfl⟩
    · split at h
      · rename_i hc
        cases hc
        rw [bind_of_ok (skipLine_eq _), List.dropWhile_cons_of_pos (by decide)] at h
        cases h
        obtain ⟨line, hline, ⟨hs, hend⟩ | hs⟩ := line_cases s
        · rw [hend, hs]
          exact ⟨.comment, .lastComment hline, rfl⟩
        · have hitem : ItemText .comment (99 :: (line ++ 10 :: (s.dropWhile (· != 10)).tail)) _ :=
            .comment hline
          rw [← hs] at hitem
          exact ⟨.comment, hitem, rfl⟩
      · obtain ⟨lits, t, hlits, h⟩ := bind_eq_ok h
        cases h
        obtain ⟨zs, hzs, rfl⟩ := readLits_eq_ok_iff.mp hlits
        exact ⟨_, .clause hzs, rfl⟩
  · rintro ⟨item, hitem, rfl⟩
    exact readItem_text hitem cnf

/-! ## Whole files -/

theorem dropWhile_dropWhile (p : UInt8 → Bool) (s : Bytes) :
    (s.dropWhile p).dropWhile p = s.dropWhile p := by
  obtain ⟨-, -, -, hhead⟩ := exists_span p s
  exact dropWhile_of_head hhead

/-- The white space in front of an integer may go. -/
theorem IntText.dropWhile {z : Int} {s rest : Bytes} (h : IntText z s rest) :
    IntText z (s.dropWhile isWhitespace) rest := by
  have hparse := parseInt_eq_ok_iff.mpr h
  apply parseInt_eq_ok_iff.mp
  unfold parseInt at hparse ⊢
  rw [bind_of_ok (skipWhitespace_eq _)] at hparse ⊢
  rwa [dropWhile_dropWhile]

theorem ItemText.dropWhile {item : Item} {s rest : Bytes} (h : ItemText item s rest) :
    ItemText item (s.dropWhile isWhitespace) rest := by
  cases h with
  | header hn hm hpos => exact .header hn hm hpos
  | comment hline => exact .comment hline
  | lastComment hline => exact .lastComment hline
  | clause hzs =>
    refine .clause ?_
    cases hzs with
    | zero hint => exact .zero hint.dropWhile
    | cons hint hz hfits hzs => exact .cons hint.dropWhile hz hfits hzs

theorem FileText.white {items : List Item} {space s : Bytes} (h : FileText items s)
    (hspace : White space) : FileText items (space ++ s) := by
  cases h with
  | done hwhite => exact .done (List.forall_mem_append.mpr ⟨hspace, hwhite⟩)
  | item hwhite hitem hrest =>
    rw [← List.append_assoc]
    exact .item (List.forall_mem_append.mpr ⟨hspace, hwhite⟩) hitem hrest

theorem dimacsTurn_eq_ok_iff {cnf : CNFProblem} {s t : Bytes} {r : CNFProblem ⊕ CNFProblem} :
    (dimacsTurn cnf : Parser Bytes Stop (CNFProblem ⊕ CNFProblem)) s = .ok (r, t) ↔
      (s = [] ∧ r = .inr cnf ∧ t = []) ∨
        ∃ item rest, ItemText item s rest ∧ r = .inl (cnf.add item) ∧
          t = rest.dropWhile isWhitespace := by
  constructor
  · intro h
    rw [dimacsTurn, peek_bind] at h
    cases s with
    | nil =>
      cases h
      exact .inl ⟨rfl, rfl, rfl⟩
    | cons c s =>
      rw [if_neg (by simp)] at h
      obtain ⟨cnf', rest, hread, h⟩ := bind_eq_ok h
      rw [bind_of_ok (skipWhitespace_eq _)] at h
      cases h
      obtain ⟨item, hitem, rfl⟩ := readItem_eq_ok_iff.mp ⟨List.cons_ne_nil c s, hread⟩
      exact .inr ⟨item, rest, hitem, rfl, rfl⟩
  · rintro (⟨rfl, rfl, rfl⟩ | ⟨item, rest, hitem, rfl, rfl⟩)
    · rfl
    · obtain ⟨hne, hread⟩ := readItem_text hitem cnf
      have hsome : ¬ s.head?.isNone = true := by
        rw [Option.isNone_iff_eq_none, List.head?_eq_none_iff]
        exact hne
      rw [dimacsTurn, peek_bind, if_neg hsome, bind_of_ok hread, bind_of_ok (skipWhitespace_eq _)]
      rfl

theorem fileText_of_turns {cnf cnf' : CNFProblem} {s rest : Bytes}
    (h : Turns dimacsTurn cnf s cnf' rest) :
    ∃ items, FileText items s ∧ items.foldl CNFProblem.add cnf = cnf' := by
  induction h with
  | last hturn =>
    obtain ⟨rfl, he, -⟩ | ⟨item, rest, -, he, -⟩ := dimacsTurn_eq_ok_iff.mp hturn
    · cases he
      exact ⟨[], .done white_nil, rfl⟩
    · cases he
  | next hturn _ ih =>
    obtain ⟨-, he, -⟩ | ⟨item, rest, hitem, he, ht⟩ := dimacsTurn_eq_ok_iff.mp hturn
    · cases he
    · cases he
      obtain ⟨items, hitems, hcnf⟩ := ih
      obtain ⟨space, hrest, hwhite, -⟩ := exists_span isWhitespace rest
      rw [ht] at hitems
      have hfile := hitems.white hwhite
      rw [← hrest] at hfile
      exact ⟨item :: items, .item white_nil hitem hfile, hcnf⟩

theorem turns_of_fileText {items : List Item} {s : Bytes} (h : FileText items s)
    (cnf : CNFProblem) :
    Turns dimacsTurn cnf (s.dropWhile isWhitespace) (items.foldl CNFProblem.add cnf) [] := by
  induction h generalizing cnf with
  | done hwhite =>
    rw [List.dropWhile_eq_nil_iff.mpr hwhite]
    exact .last rfl
  | item hwhite hitem _ ih =>
    rw [List.dropWhile_append_of_pos hwhite]
    exact .next (dimacsTurn_eq_ok_iff.mpr (.inr ⟨_, _, hitem.dropWhile, rfl, rfl⟩)) (ih _)

theorem problemOf_eq_ok_iff {bytes : Bytes} {cnf : CNFProblem} : problemOf bytes = .ok cnf ↔
    ∃ items, FileText items bytes ∧ items.foldl CNFProblem.add {} = cnf := by
  have hrun : (parse_DIMACS {} : Parser Bytes Stop CNFProblem) bytes =
      loop dimacsTurn {} (bytes.dropWhile isWhitespace) := bind_of_ok (skipWhitespace_eq bytes) _
  unfold problemOf
  rw [hrun]
  constructor
  · intro h
    cases hloop : (loop dimacsTurn {} : Parser Bytes Stop CNFProblem)
      (bytes.dropWhile isWhitespace) with
    | error e =>
      rw [hloop] at h
      cases h
    | ok r =>
      rw [hloop] at h
      cases h
      obtain ⟨items, hitems, hcnf⟩ :=
        fileText_of_turns ((loop_eq_ok_iff takes_dimacsTurn).mp hloop)
      obtain ⟨space, hbytes, hwhite, -⟩ := exists_span isWhitespace bytes
      have hfile := hitems.white hwhite
      rw [← hbytes] at hfile
      exact ⟨items, hfile, hcnf⟩
  · rintro ⟨items, hitems, rfl⟩
    rw [(loop_eq_ok_iff takes_dimacsTurn).mpr (turns_of_fileText hitems {})]
    rfl

/-! ## What a file means -/

theorem literal_x (z : Int) :
    (literal z).x = 2 * ((z.natAbs : Int) - 1) + (if z < 0 then 1 else 0) := by
  unfold literal
  by_cases h : z < 0
  · simp [h]
    omega
  · simp [h]
    omega

/-- The literal holds when the variable has the value that its sign asks for. -/
theorem holds_literal {z : Int} (hz : z ≠ 0) (a : Int → Bool) :
    (literal z).holds a = true ↔ a ((z.natAbs : Int) - 1) = decide (0 < z) := by
  have hx := literal_x z
  have hvar : var (literal z) = (z.natAbs : Int) - 1 := by
    rw [var_eq, hx]
    split <;> omega
  have hsign : sign (literal z) = !decide (0 < z) := by
    rw [sign_eq, hx]
    by_cases h : z < 0
    · rw [if_pos h]
      simp
      omega
    · rw [if_neg h]
      simp
      omega
  rw [Lit.holds, hvar, hsign]
  cases a ((z.natAbs : Int) - 1) <;> cases decide (0 < z) <;> decide

/-- An integer of a clause is true of the assignment. -/
def Holds (a : Int → Bool) (z : Int) : Prop := a ((z.natAbs : Int) - 1) = decide (0 < z)

theorem valid_literals {zs : List Int} (hz : ∀ z ∈ zs, z ≠ 0) : Valid (zs.map literal) := by
  intro p hp
  obtain ⟨z, hmem, rfl⟩ := List.mem_map.mp hp
  rw [literal_x]
  have hne := hz z hmem
  split <;> omega

theorem satisfiedBy_add_clause {cnf : CNFProblem} {zs : List Int} (hz : ∀ z ∈ zs, z ≠ 0)
    (a : Int → Bool) : (cnf.add (.clause zs)).SatisfiedBy a ↔
      cnf.SatisfiedBy a ∧ ∃ z ∈ zs, Holds a z := by
  refine (readsClause cnf (valid_literals hz)).satisfiedBy_iff.trans (and_congr_right fun _ => ?_)
  simp only [List.mem_map, exists_exists_and_eq_and]
  exact exists_congr fun z => and_congr_right fun hmem => holds_literal (hz z hmem) a

theorem ClauseText.nonzero {zs : List Int} {s rest : Bytes} (h : ClauseText zs s rest) :
    ∀ z ∈ zs, z ≠ 0 := by
  induction h with
  | zero => simp
  | cons _ hz _ _ ih => exact List.forall_mem_cons.mpr ⟨hz, ih⟩

/-- The assignments of a file are those that make an integer of each clause true. -/
theorem FileText.satisfiedBy_iff {items : List Item} {s : Bytes} (h : FileText items s)
    (cnf : CNFProblem) (a : Int → Bool) : (items.foldl CNFProblem.add cnf).SatisfiedBy a ↔
      cnf.SatisfiedBy a ∧ ∀ zs, Item.clause zs ∈ items → ∃ z ∈ zs, Holds a z := by
  induction h generalizing cnf with
  | done => simp
  | @item item items space s rest _ hitem _ ih =>
    have hrest := ih (cnf.add item)
    rw [List.foldl_cons, hrest]
    have hadd : (cnf.add item).SatisfiedBy a ↔
        cnf.SatisfiedBy a ∧ ∀ zs, item = .clause zs → ∃ z ∈ zs, Holds a z := by
      cases hitem with
      | header => exact (and_iff_left fun _ he => by cases he).symm
      | comment => exact (and_iff_left fun _ he => by cases he).symm
      | lastComment => exact (and_iff_left fun _ he => by cases he).symm
      | clause hzs =>
        rw [satisfiedBy_add_clause hzs.nonzero]
        simp
    rw [hadd, and_assoc]
    refine and_congr_right fun _ => ?_
    simp only [List.mem_cons, or_imp, forall_and, eq_comm]

/-- Candy accepts just the files that are headers, comments and clauses in any
order, with white space where they like it, and the assignments of its problem
are those that make an integer of each clause true. -/
theorem candy_accepts_exactly (bytes : Bytes) (cnf : CNFProblem) :
    (problemOf bytes = .ok cnf ↔
      ∃ items, FileText items bytes ∧ items.foldl CNFProblem.add {} = cnf) ∧
    ∀ items, FileText items bytes → problemOf bytes = .ok cnf → ∀ a, cnf.SatisfiedBy a ↔
      ∀ zs, Item.clause zs ∈ items → ∃ z ∈ zs, Holds a z := by
  refine ⟨problemOf_eq_ok_iff, ?_⟩
  intro items hitems hcnf a
  rw [problemOf_eq_ok_iff.mpr ⟨items, hitems, rfl⟩] at hcnf
  cases hcnf
  have hempty : CNFProblem.SatisfiedBy {} a := by
    intro c hc
    cases hc
  rw [hitems.satisfiedBy_iff {} a, and_iff_right hempty]

/-- A clause over two lines, two clauses in one, and a file that ends in its last 0. -/
theorem a_small_file_is_accepted :
    ∃ items, FileText items (ascii "c x\np cnf 9 3\n-2 1 1 0 2\n-2 0\t+03 0") ∧
      items.foldl CNFProblem.add {} = ⟨[[⟨0⟩, ⟨3⟩], [⟨4⟩]], 3, 9, 3, [.added [⟨0⟩, ⟨3⟩],
        .removed [⟨3⟩, ⟨0⟩, ⟨0⟩], .removed [⟨2⟩, ⟨3⟩]]⟩ :=
  (candy_accepts_exactly _ _).1.mp (by decide +kernel)

end reductor.candy
