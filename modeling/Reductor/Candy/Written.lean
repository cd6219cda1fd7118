-- Files that both programs read: written line by line, in a charset that
-- keeps the ASCII characters, and what Candy finds in them.
import Reductor.Acceptance
import Reductor.Entries
import Reductor.LineBreaks
import Reductor.Candy.Grammar

open reductor.java reductor.dimacs

namespace reductor.candy

/-! ## Charsets -/

/-- A charset that keeps ASCII: an ASCII character is its byte, no other one
has a line feed among its bytes, and a text is found again when the charset has
all its characters. -/
structure AsciiCharset where
  encodeChar : Char → Bytes
  decode : Bytes → Text
  Has : Char → Prop
  has_ascii : ∀ c, c.toNat < 128 → Has c
  ascii : ∀ c, c.toNat < 128 → encodeChar c = [UInt8.ofNat c.toNat]
  other : ∀ c, 128 ≤ c.toNat → 10 ∉ encodeChar c
  decode_encode : ∀ s : Text, (∀ c ∈ s, Has c) → decode (s.flatMap encodeChar) = s

def AsciiCharset.encode (charset : AsciiCharset) (s : Text) : Bytes := s.flatMap charset.encodeChar

theorem le_toNat_or (x : UInt8) {y : UInt8} (h : 128 ≤ y.toNat) : 128 ≤ (x ||| y).toNat := by
  rw [UInt8.toNat_or]
  exact Nat.le_trans h Nat.right_le_or

theorem le_toNat_of_mem_utf8EncodeChar {c : Char} (hc : 128 ≤ c.toNat) :
    ∀ b ∈ String.utf8EncodeChar c, 128 ≤ b.toNat := by
  intro b hb
  rcases Char.utf8Size_eq c with h | h | h | h
  · have hle := UInt32.le_iff_toNat_le.mp (Char.utf8Size_eq_one_iff.mp h)
    exact absurd (Nat.le_trans hc hle) (by decide)
  · rw [String.utf8EncodeChar_eq_cons_cons h, List.mem_pair] at hb
    rcases hb with rfl | rfl <;> exact le_toNat_or _ (by decide)
  · rw [String.utf8EncodeChar_eq_cons_cons_cons h] at hb
    simp only [List.mem_cons, List.not_mem_nil, or_false] at hb
    rcases hb with rfl | rfl | rfl <;> exact le_toNat_or _ (by decide)
  · rw [String.utf8EncodeChar_eq_cons_cons_cons_cons h] at hb
    simp only [List.mem_cons, List.not_mem_nil, or_false] at hb
    rcases hb with rfl | rfl | rfl | rfl <;> exact le_toNat_or _ (by decide)

/-- UTF-8, which has all characters. -/
def utf8 : AsciiCharset where
  encodeChar := String.utf8EncodeChar
  decode bytes := (bytes.toByteArray.utf8Decode?.map Array.toList).getD []
  Has _ := True
  has_ascii _ _ := trivial
  ascii := by
    intro c hc
    have hle : c.val ≤ 127 := UInt32.le_iff_toNat_le.mpr (Nat.le_of_lt_succ hc)
    rw [String.utf8EncodeChar_eq_singleton (Char.utf8Size_eq_one_iff.mpr hle)]
    rfl
  other := fun _ hc hb => absurd (le_toNat_of_mem_utf8EncodeChar hc 10 hb) (by decide)
  decode_encode := by
    intro s _
    have hdecode : (s.flatMap String.utf8EncodeChar).toByteArray.utf8Decode? = some s.toArray :=
      List.utf8Decode?_utf8Encode
    rw [hdecode]
    rfl

theorem ofNat_toNat_ofNat {c : Char} (h : c.toNat < 256) :
    Char.ofNat (UInt8.ofNat c.toNat).toNat = c := by
  rw [UInt8.toNat_ofNat', Nat.mod_eq_of_lt h, Char.ofNat_toNat]

/-- ISO 8859-1, which has 256 characters and writes `?` for the others. -/
def iso8859_1 : AsciiCharset where
  encodeChar c := if c.toNat < 256 then [UInt8.ofNat c.toNat] else [63]
  decode bytes := bytes.map fun b => Char.ofNat b.toNat
  Has c := c.toNat < 256
  has_ascii _ hc := Nat.lt_trans hc (by decide)
  ascii := fun c hc => if_pos (Nat.lt_trans hc (by decide))
  other := by
    intro c hc hb
    split at hb
    · have hnat : c.toNat = 10 := by
        have := congrArg UInt8.toNat (List.mem_singleton.mp hb)
        rw [UInt8.toNat_ofNat', Nat.mod_eq_of_lt ‹_›] at this
        exact this.symm
      omega
    · cases List.mem_singleton.mp hb
  decode_encode := by
    intro s hs
    induction s with
    | nil => rfl
    | cons c s ih =>
      obtain ⟨hc, hs⟩ := List.forall_mem_cons.mp hs
      rw [List.flatMap_cons, if_pos hc, List.map_append, ih hs]
      show Char.ofNat (UInt8.ofNat c.toNat).toNat :: s = c :: s
      rw [ofNat_toNat_ofNat hc]

variable {charset : AsciiCharset}

theorem encode_append (s t : Text) :
    charset.encode (s ++ t) = charset.encode s ++ charset.encode t := List.flatMap_append

theorem encode_ascii {s : Text} (h : ∀ c ∈ s, c.toNat < 128) :
    charset.encode s = s.map fun c => UInt8.ofNat c.toNat := by
  induction s with
  | nil => rfl
  | cons c s ih =>
    show charset.encodeChar c ++ charset.encode s = _
    rw [charset.ascii c (h c List.mem_cons_self), ih fun d hd => h d (List.mem_cons_of_mem c hd)]
    rfl

theorem toNat_ofNat_of_lt {c : Char} (h : c.toNat < 128) :
    (UInt8.ofNat c.toNat).toNat = c.toNat := by
  rw [UInt8.toNat_ofNat']
  exact Nat.mod_eq_of_lt (by omega)

variable (charset)

/-- A line feed among the bytes is one among the characters. -/
theorem lf_notMem_encode {s : Text} (h : '\n' ∉ s) : 10 ∉ charset.encode s := by
  intro hmem
  obtain ⟨c, hc, hb⟩ := List.mem_flatMap.mp hmem
  rcases Nat.lt_or_ge c.toNat 128 with hlt | hge
  · rw [charset.ascii c hlt, List.mem_singleton] at hb
    have hnat : c.toNat = 10 := by
      rw [← toNat_ofNat_of_lt hlt, ← hb]
      rfl
    have hlf : c = '\n' := Char.toNat_inj.mp hnat
    exact h (hlf ▸ hc)
  · exact charset.other c hge hb

theorem white_encode {s : Text} (h : Padding s) : White (charset.encode s) := by
  have hascii : ∀ c ∈ s, c.toNat < 128 := by
    intro c hc
    rcases h c hc with rfl | rfl
    · decide
    · decide
  rw [encode_ascii hascii]
  intro b hb
  obtain ⟨c, hc, rfl⟩ := List.mem_map.mp hb
  rcases h c hc with rfl | rfl
  · decide
  · decide

/-! ## Integers -/

/-- A token of ASCII characters that `Integer.valueOf` takes for the integer. -/
def ReadsAscii (t : Text) (v : Int32) : Prop := Reads t v ∧ ∀ c ∈ t, c.toNat < 128

theorem digit_ascii {c : Char} {d : Nat} (hc : c.toNat < 128) (h : digit c = some d) :
    48 ≤ c.toNat ∧ c.toNat ≤ 57 ∧ d = c.toNat - 48 := by
  unfold digit at h
  obtain ⟨z, hz, rfl⟩ := Option.map_eq_some_iff.mp h
  have hmem := List.mem_of_find?_eq_some hz
  have hrun := List.find?_some hz
  simp only [Bool.and_eq_true, decide_eq_true_eq] at hrun
  have hzero : z = 48 := by
    have hsmall : ∀ z ∈ digitZeros, z < 128 → z = 48 := by decide
    exact hsmall z hmem (by omega)
  subst hzero
  omega

theorem decimal_map {cs : Text} {ds : List Nat} (hcs : ∀ c ∈ cs, c.toNat < 128)
    (h : List.Forall₂ (fun c d => digit c = some d) cs ds) (acc : Nat) :
    (∀ b ∈ cs.map fun c => UInt8.ofNat c.toNat, isDigit b = true) ∧
      decimal acc (cs.map fun c => UInt8.ofNat c.toNat) = digitsValue acc ds := by
  induction h generalizing acc with
  | nil => exact ⟨by simp, rfl⟩
  | @cons c d cs ds hd _ ih =>
    obtain ⟨hge, hle, hval⟩ := digit_ascii (hcs c List.mem_cons_self) hd
    have hnat := toNat_ofNat_of_lt (hcs c List.mem_cons_self)
    obtain ⟨hdigits, hrest⟩ := ih (fun e he => hcs e (List.mem_cons_of_mem c he)) (10 * acc + d)
    refine ⟨?_, ?_⟩
    · rw [List.map_cons]
      refine List.forall_mem_cons.mpr ⟨isDigit_iff.mpr ?_, hdigits⟩
      rw [hnat]
      exact ⟨hge, hle⟩
    · rw [List.map_cons, decimal_cons, hnat]
      have hacc : (acc : Int) * 10 + ((c.toNat : Int) - 48) = ((10 * acc + d : Nat) : Int) := by
        omega
      rw [hacc, hrest]
      rfl

/-- Candy reads such a token as `Integer.valueOf` does, but for the least `int`. -/
theorem intText_of_token {t : Text} {v : Int32} (h : ReadsAscii t v) (hfits : v.toInt ≠ -2 ^ 31)
    {space rest : Bytes} (hspace : White space) (hends : ∀ c ∈ rest.head?, isDigit c = false) :
    IntText v.toInt (space ++ (charset.encode t ++ rest)) rest := by
  obtain ⟨hreads, hascii⟩ := h
  obtain ⟨⟨sign, cs, s, ds, rfl, hsign, hne, hds, hv⟩, hrange⟩ := parseInt_eq_some_iff.mp hreads
  obtain ⟨hsascii, hcsascii⟩ := List.forall_mem_append.mp hascii
  obtain ⟨hdigits, hval⟩ := decimal_map hcsascii hds 0
  have hdigitsNe : cs.map (fun c => UInt8.ofNat c.toNat) ≠ [] := mt List.map_eq_nil_iff.mp hne
  have hsignText : ∃ negative, SignText (charset.encode sign) negative ∧
      s * (digitsValue 0 ds : Int) = if negative then -(digitsValue 0 ds : Int)
        else (digitsValue 0 ds : Int) := by
    rw [encode_ascii hsascii]
    cases hsign with
    | none => exact ⟨false, .none, Int.one_mul _⟩
    | plus => exact ⟨false, .plus, Int.one_mul _⟩
    | minus => exact ⟨true, .minus, Int.neg_one_mul _⟩
  obtain ⟨negative, hsignText, hs⟩ := hsignText
  refine ⟨⟨space, _, negative, _, ?_, hspace, hsignText, hdigitsNe, hdigits, ?_⟩, by omega, hends⟩
  · rw [encode_append, encode_ascii hcsascii, List.append_assoc]
  · rw [hv, hs]
    exact hval ▸ rfl

/-! ## Lines that both programs read -/

/-- The line is one that the entry may be written as so that both programs
read it: one space stands between `p` and `cnf`, which are a token for Candy. -/
def WritesBoth : Entry → Line → Prop
  | .comment text, l => l.chars = "c ".toList ++ text
  | .problem format n m, l => format = "cnf".toList ∧ ∃ tn tm, ReadsAscii tn n ∧ ReadsAscii tm m ∧
      Padded ["p cnf".toList, tn, tm] l.chars
  | .clause values, l => ∃ ts, List.Forall₂ ReadsAscii ts values ∧ Padded ts l.chars

theorem WritesBoth.writes {e : Entry} {l : Line} (h : WritesBoth e l) : Writes Reads e l := by
  cases e with
  | comment text => exact h
  | problem format n m =>
    obtain ⟨rfl, tn, tm, hn, hm, front, middle, back, hl, hfront, hmiddle, hback⟩ := h
    refine ⟨tn, tm, by decide, by decide, hn.1, hm.1, front, middle, back, hl, hfront, ?_, hback⟩
    cases hmiddle with
    | cons _ k hrest => exact .cons PROBLEM 0 (.cons "cnf".toList k hrest)
  | clause values =>
    obtain ⟨ts, hts, hpadded⟩ := h
    exact ⟨ts, hts.imp fun _ _ hr => hr.1, hpadded⟩

/-- Candy has room for the integers of the entry, and a clause has one 0, at its end. -/
def EntryFits : Entry → Prop
  | .comment _ => True
  | .problem _ n m => n.toInt ≠ -2 ^ 31 ∧ 0 ≤ m.toInt
  | .clause values => ∃ ls, values = ls ++ [0] ∧ ∀ v ∈ ls, v ≠ 0 ∧ v.toInt.natAbs ≤ 2 ^ 30

/-- What Candy finds where the entry is written. -/
def itemOf : Entry → Item
  | .comment _ => .comment
  | .problem _ n m => .header n.toInt m.toInt
  | .clause values => .clause (values.dropLast.map Int32.toInt)

theorem clause_mem_items_iff {entries : List Entry} {zs : List Int} :
    Item.clause zs ∈ entries.map itemOf ↔
      ∃ values ∈ entries.filterMap Entry.clause?, values.dropLast.map Int32.toInt = zs := by
  rw [List.mem_map]
  constructor
  · rintro ⟨e, he, hitem⟩
    cases e with
    | comment => cases hitem
    | problem => cases hitem
    | clause values =>
      cases hitem
      exact ⟨values, List.mem_filterMap.mpr ⟨_, he, rfl⟩, rfl⟩
  · rintro ⟨values, hvalues, rfl⟩
    obtain ⟨e, he, hclause⟩ := List.mem_filterMap.mp hvalues
    cases e with
    | comment => cases hclause
    | problem => cases hclause
    | clause values' =>
      cases hclause
      exact ⟨_, he, rfl⟩

/-! ## What Candy finds in a line -/

theorem white_spaces (k : Nat) : White (charset.encode (List.replicate k ' ')) := by
  apply white_encode
  intro c hc
  exact .inl (List.eq_of_mem_replicate hc)

/-- White space ends an integer. -/
theorem not_isDigit_of_white {space rest : Bytes} (h : White space)
    (hrest : ∀ c ∈ rest.head?, isDigit c = false) :
    ∀ c ∈ (space ++ rest).head?, isDigit c = false := by
  cases space with
  | nil => exact hrest
  | cons d space =>
    intro c hc
    cases hc
    have hd := isWhitespace_iff.mp (h d List.mem_cons_self)
    rw [Bool.eq_false_iff, ne_eq, isDigit_iff]
    omega

/-- A space or more between tokens ends the first of them. -/
theorem not_isDigit_of_spaces (k : Nat) (rest : Bytes) :
    ∀ c ∈ (charset.encode (List.replicate (k + 1) ' ') ++ rest).head?, isDigit c = false := by
  intro c hc
  have hspace : charset.encode (List.replicate (k + 1) ' ') =
      32 :: charset.encode (List.replicate k ' ') := by
    rw [List.replicate_succ]
    show charset.encodeChar ' ' ++ _ = _
    rw [charset.ascii ' ' (by decide)]
    rfl
  rw [hspace] at hc
  cases hc
  rfl

theorem clauseText_of_spaced {ts : List Text} {s : Text} (h : Spaced ts s) {ls : List Int32}
    (hts : List.Forall₂ ReadsAscii ts (ls ++ [0]))
    (hls : ∀ v ∈ ls, v ≠ 0 ∧ v.toInt.natAbs ≤ 2 ^ 30) {space rest : Bytes} (hspace : White space)
    (hends : ∀ c ∈ rest.head?, isDigit c = false) :
    ClauseText (ls.map Int32.toInt) (space ++ (charset.encode s ++ rest)) rest := by
  induction h generalizing ls space with
  | last t =>
    cases ls with
    | cons v ls =>
      have hlength := hts.length_eq
      simp at hlength
    | nil =>
      cases hts with
      | cons ht _ => exact .zero (intText_of_token charset ht (by decide) hspace hends)
  | @cons t k ts s hrest ih =>
    cases ls with
    | nil =>
      cases hts with
      | cons _ hnil =>
        cases hnil
        cases hrest
    | cons v ls =>
      obtain ⟨⟨hv, hfits⟩, hls⟩ := List.forall_mem_cons.mp hls
      cases hts with
      | cons ht hts =>
        have hne : v.toInt ≠ 0 := fun h0 => hv (Int32.toInt_inj.mp h0)
        have hint := intText_of_token charset ht (by omega) hspace
          (not_isDigit_of_spaces charset k (charset.encode s ++ rest))
        rw [encode_append, encode_append]
        simp only [List.append_assoc] at hint ⊢
        exact .cons hint hne hfits (ih hts hls (white_spaces charset (k + 1)))

theorem encode_stop (stop : LineEnd) :
    charset.encode stop.chars = stop.chars.map fun c => UInt8.ofNat c.toNat := by
  apply encode_ascii
  cases stop <;> decide

/-- What stands behind the last token of a line is white space, and no digit follows. -/
theorem line_ends {back : Text} (hback : Padding back) {stop : LineEnd} {rest : Bytes}
    (hrest : stop = .eof → rest = []) : White (charset.encode (back ++ stop.chars)) ∧
      ∀ c ∈ (charset.encode (back ++ stop.chars) ++ rest).head?, isDigit c = false := by
  have hwhite := white_encode charset hback
  have hstop : White (charset.encode stop.chars) := by
    rw [encode_stop]
    unfold White
    cases stop <;> decide
  have hhead : ∀ c ∈ (charset.encode stop.chars ++ rest).head?, isDigit c = false := by
    rw [encode_stop]
    cases stop with
    | eof => simp [LineEnd.chars, hrest rfl]
    | lf | cr | crlf =>
      rintro c ⟨⟩
      decide
  rw [encode_append]
  refine ⟨List.forall_mem_append.mpr ⟨hwhite, hstop⟩, ?_⟩
  rw [List.append_assoc]
  exact not_isDigit_of_white hwhite hhead

/-- A line that is written with its end is an item, with white space around it. -/
theorem item_of_written {e : Entry} {l : Line} (h : WritesBoth e l) (hfits : EntryFits e)
    {stop : LineEnd} (hstop : stop ≠ .cr) {rest : Bytes} (hrest : stop = .eof → rest = []) :
    ∃ space s behind, charset.encode (l.chars ++ stop.chars) ++ rest = space ++ s ∧ White space ∧
      White behind ∧ ItemText (itemOf e) s (behind ++ rest) := by
  cases e with
  | comment text =>
    have hlf : '\n' ∉ ' ' :: text := by
      intro hmem
      refine (l.one_line '\n' ?_).1 rfl
      rw [show l.chars = 'c' :: ' ' :: text from h]
      exact List.mem_cons_of_mem _ hmem
    have hline : charset.encode l.chars = 99 :: charset.encode (' ' :: text) := by
      rw [show l.chars = 'c' :: ' ' :: text from h]
      show charset.encodeChar 'c' ++ _ = _
      rw [charset.ascii 'c' (by decide)]
      rfl
    have hbytes := lf_notMem_encode charset hlf
    refine ⟨[], _, [], (List.nil_append _).symm, white_nil, white_nil, ?_⟩
    rw [encode_append, hline, encode_stop, itemOf]
    cases stop with
    | cr => exact absurd rfl hstop
    | eof =>
      have hitem := ItemText.lastComment hbytes
      simpa [LineEnd.chars, hrest rfl] using hitem
    | lf =>
      have hitem : ItemText .comment (99 :: (_ ++ 10 :: rest)) rest := .comment hbytes
      simpa [LineEnd.chars] using hitem
    | crlf =>
      have hline : 10 ∉ charset.encode (' ' :: text) ++ [13] := by
        rw [List.mem_append, not_or]
        exact ⟨hbytes, by decide⟩
      have hitem : ItemText .comment (99 :: (_ ++ 10 :: rest)) rest := .comment hline
      simpa [LineEnd.chars] using hitem
  | problem format n m =>
    obtain ⟨-, tn, tm, hn, hm, front, middle, back, hl, hfront, hmiddle, hback⟩ := h
    obtain ⟨hnmin, hmpos⟩ := hfits
    obtain ⟨hwhite, hends⟩ := line_ends charset hback hrest
    cases hmiddle with
    | cons _ k hmiddle =>
      cases hmiddle with
      | @cons _ k' _ _ hlast =>
        cases hlast with
        | last =>
          have hmText := intText_of_token charset hm (by omega)
            (white_spaces charset (k' + 1)) hends
          have hnText := intText_of_token charset hn hnmin (white_spaces charset (k + 1))
            (not_isDigit_of_spaces charset k'
              (charset.encode tm ++ (charset.encode (back ++ stop.chars) ++ rest)))
          have hp : charset.encode "p cnf".toList = ascii "p cnf" := encode_ascii (by decide)
          refine ⟨_, _, _, ?_, white_encode charset hfront, hwhite, .header hnText hmText hmpos⟩
          rw [hl]
          simp only [encode_append, List.append_assoc, hp]
        | cons _ _ hnil => cases hnil
  | clause values =>
    obtain ⟨ts, hts, front, middle, back, hl, hfront, hmiddle, hback⟩ := h
    obtain ⟨ls, rfl, hls⟩ := hfits
    obtain ⟨hwhite, hends⟩ := line_ends charset hback hrest
    have hclause := clauseText_of_spaced charset hmiddle hts hls
      (white_encode charset hfront) hends
    refine ⟨[], _, _, (List.nil_append _).symm, white_nil, hwhite, ?_⟩
    rw [itemOf, List.dropLast_concat, hl]
    simp only [encode_append, List.append_assoc] at hclause ⊢
    exact .clause hclause

/-! ## Whole files -/

/-- The bytes of a file whose lines are written so are the items of its entries. -/
theorem fileText_of_written {entries : List Entry} {lines : List Ended}
    (h : List.Forall₂ WritesBoth entries (lines.map Prod.fst))
    (hfits : ∀ e ∈ entries, EntryFits e) (hends : ∀ p ∈ lines, p.2 ≠ .cr)
    (hwell : WellEnded lines) :
    FileText (entries.map itemOf) (charset.encode (rendered lines)) := by
  induction lines generalizing entries with
  | nil =>
    cases h
    exact .done white_nil
  | cons p lines ih =>
    cases h with
    | @cons e _ entries _ he hrest =>
      obtain ⟨hcr, hends⟩ := List.forall_mem_cons.mp hends
      obtain ⟨hfit, hfits⟩ := List.forall_mem_cons.mp hfits
      obtain ⟨heof, -, hwell⟩ := hwell
      have hnothing : p.2 = .eof → charset.encode (rendered lines) = [] := by
        intro hp
        rw [(heof hp).2]
        rfl
      obtain ⟨space, s, behind, hbytes, hspace, hbehind, hitem⟩ :=
        item_of_written charset he hfit hcr hnothing
      have hfile := FileText.item hspace hitem ((ih hrest hfits hends hwell).white hbehind)
      rw [← hbytes, ← encode_append] at hfile
      exact hfile

end reductor.candy
