-- The strings, the integers and the maps of the Java library, as far as the
-- code calls them. A string is the list of its characters: the positions
-- that the code counts lie in front of every character outside the BMP.
import Mathlib.Data.List.DropRight
import Mathlib.Data.List.Nodup
import Mathlib.Algebra.Order.BigOperators.Group.List
import Mathlib.Algebra.Order.Ring.Int
import Mathlib.Tactic.Common

namespace reductor.java

abbrev Text := List Char

/-- A fact about each entry of a list is decided by going through the list,
also where another instance would go through the whole type. -/
instance (priority := 2000) decidableForallMem {α : Type} {p : α → Prop} [DecidablePred p]
    (l : List α) : Decidable (∀ x ∈ l, p x) := List.decidableBAll p l

/-- What the library throws into the code, with the data of its message. -/
inductive Thrown
  | arrayIndex (index : Nat)
  | stringIndex (index : Int)
  | numberFormat (input : Text)
  deriving DecidableEq, Repr

/-! ## Strings -/

/-- `String.trim` and this model call a character up to U+0020 a blank. -/
def isBlank (c : Char) : Bool := decide (c ≤ ' ')

/-- `String.trim` -/
def trim (s : Text) : Text := (s.dropWhile isBlank).rdropWhile isBlank

/-- `String.split` at one character: the empty strings at the end fall away,
and a string without the character is its own only part. -/
def split (s : Text) (d : Char) : List Text :=
  let parts := s.splitOn d
  if parts.length = 1 then [s] else parts.rdropWhile List.isEmpty

/-- `String.substring(begin, end)` -/
def substring (s : Text) (start stop : Nat) : Except Thrown Text :=
  if s.length < stop then .error (.stringIndex stop)
  else if stop < start then .error (.stringIndex (stop - start))
  else .ok ((s.take stop).drop start)

/-- The rest of `String.replace`, with so many characters of an occurrence still to skip. -/
def replaceRest (target replacement : Text) : Nat → Text → Text
  | _, [] => []
  | skip + 1, _ :: s => replaceRest target replacement skip s
  | 0, c :: s =>
    if target.isPrefixOf (c :: s) then
      replacement ++ replaceRest target replacement (target.length - 1) s
    else c :: replaceRest target replacement 0 s

/-- `String.replace(target, replacement)` for a target that is not empty:
every occurrence, from the left, with no overlap. -/
def replace (s target replacement : Text) : Text := replaceRest target replacement 0 s

/-- `StringBuilder.delete(start, end)` -/
def delete (s : Text) (start stop : Int) : Except Thrown Text :=
  if start < 0 then .error (.stringIndex start)
  else if min stop s.length < start then .error (.stringIndex (min stop s.length - start))
  else .ok (s.take start.toNat ++ s.drop (min stop s.length).toNat)

/-- `parts[i]` -/
def element (parts : List Text) (i : Nat) : Except Thrown Text :=
  match parts[i]? with
  | some part => .ok part
  | none => .error (.arrayIndex i)

/-- A `%s` of `String.format`: a missing string prints as `null`. -/
def formatted : Option Text → Text
  | some s => s
  | none => "null".toList

/-! ## Integers -/

/-- The zeros of the runs of decimal digits that `Character.digit` knows for
a `char`: the class Nd of Unicode 6.2, which Java 8 follows. -/
def digitZeros : List Nat :=
  [0x30, 0x660, 0x6F0, 0x7C0, 0x966, 0x9E6, 0xA66, 0xAE6, 0xB66, 0xBE6, 0xC66, 0xCE6, 0xD66,
    0xE50, 0xED0, 0xF20, 0x1040, 0x1090, 0x17E0, 0x1810, 0x1946, 0x19D0, 0x1A80, 0x1A90, 0x1B50,
    0x1BB0, 0x1C40, 0x1C50, 0xA620, 0xA8D0, 0xA900, 0xA9D0, 0xAA50, 0xABF0, 0xFF10]

/-- `Character.digit(c, 10)` -/
def digit (c : Char) : Option Nat :=
  (digitZeros.find? fun z => decide (z ≤ c.toNat) && decide (c.toNat < z + 10)).map (c.toNat - ·)

/-- The digits of `Integer.parseInt`, read from the left. -/
def parseDigits : Text → Nat → Option Nat
  | [], acc => some acc
  | c :: s, acc => (digit c).bind fun d => parseDigits s (10 * acc + d)

/-- A Java `int` holds the integers of 32 bits. -/
def toInt32 (z : Int) : Option Int32 :=
  if -2 ^ 31 ≤ z ∧ z < 2 ^ 31 then some (Int32.ofInt z) else none

/-- One digit or more, with its sign, as an `int`. -/
def signedInt (sign : Int) : Text → Option Int32
  | [] => none
  | c :: s => (parseDigits (c :: s) 0).bind fun k => toInt32 (sign * k)

/-- What `Integer.parseInt` makes of a string: an optional sign, then digits. -/
def parseInt : Text → Option Int32
  | '-' :: s => signedInt (-1) s
  | '+' :: s => signedInt 1 s
  | s => signedInt 1 s

/-- `Integer.valueOf(String)` -/
def valueOf (s : Text) : Except Thrown Int32 :=
  match parseInt s with
  | some v => .ok v
  | none => .error (.numberFormat s)

/-- `Integer.toString` -/
def intString (v : Int32) : Text :=
  if v.toInt < 0 then '-' :: Nat.toDigits 10 v.toInt.natAbs else Nat.toDigits 10 v.toInt.natAbs

/-- `Math.abs(int)`: the negation wraps, so the least `int` is its own value. -/
def mathAbs (v : Int32) : Int32 := if v < 0 then -v else v

/-! ## Maps -/

/-- `HashMap`: its entries in the order of their first `put`, one for each key. -/
structure HashMap (κ ν : Type) where
  entries : List (κ × ν)
  keysNodup : (entries.map Prod.fst).Nodup

/-- An order in which `HashMap.values` may enumerate the entries of a map. The
library promises no more than this. -/
structure Enumeration (κ ν : Type) where
  run : List (κ × ν) → List (κ × ν)
  perm : ∀ entries, (run entries).Perm entries

/-- The enumeration in the order of the first `put`. -/
def Enumeration.insertion {κ ν : Type} : Enumeration κ ν := ⟨id, fun _ => .refl _⟩

namespace HashMap

variable {κ ν : Type} [DecidableEq κ]

def empty : HashMap κ ν := ⟨[], List.nodup_nil⟩

def get (m : HashMap κ ν) (k : κ) : Option ν := m.entries.lookup k

/-- A new value for a key that is there, or a new entry. -/
def putEntries (entries : List (κ × ν)) (k : κ) (v : ν) : List (κ × ν) :=
  if k ∈ entries.map Prod.fst then entries.map fun e => if e.1 = k then (k, v) else e
  else entries ++ [(k, v)]

theorem putEntries_nodup (entries : List (κ × ν)) (k : κ) (v : ν)
    (h : (entries.map Prod.fst).Nodup) : ((putEntries entries k v).map Prod.fst).Nodup := by
  unfold putEntries
  split
  · have hkeys : (fun e : κ × ν => (if e.1 = k then (k, v) else e).1) = Prod.fst := by
      funext e
      split
      · exact Eq.symm ‹_›
      · rfl
    rw [List.map_map]
    simpa only [Function.comp_def, hkeys] using h
  · rename_i hk
    rw [List.map_append, List.nodup_append]
    refine ⟨h, List.nodup_singleton k, ?_⟩
    intro a ha b hb hab
    simp only [List.map_cons, List.map_nil, List.mem_singleton] at hb
    subst hb hab
    exact hk ha

def put (m : HashMap κ ν) (k : κ) (v : ν) : HashMap κ ν :=
  ⟨putEntries m.entries k v, putEntries_nodup m.entries k v m.keysNodup⟩

def values (order : Enumeration κ ν) (m : HashMap κ ν) : List ν :=
  (order.run m.entries).map Prod.snd

end HashMap

/-! ## Strings cut -/

theorem filter_rdropWhile {α : Type} (p : α → Bool) (l : List α) :
    (l.rdropWhile p).filter (fun x => !p x) = l.filter (fun x => !p x) := by
  induction l using List.reverseRecOn with
  | nil => rfl
  | append_singleton l x ih =>
    by_cases hx : p x = true
    · rw [List.rdropWhile_concat_pos p l x hx, ih]
      simp [hx]
    · rw [List.rdropWhile_concat_neg p l x hx]

/-- The parts of a split that are not empty are those between any two of the characters. -/
theorem filter_split (s : Text) (d : Char) :
    (split s d).filter (fun p => !p.isEmpty) = (s.splitOn d).filter (fun p => !p.isEmpty) := by
  unfold split
  dsimp only
  split
  · rename_i hone
    obtain ⟨p, hp⟩ := List.length_eq_one_iff.mp hone
    have hs : [d].intercalate (s.splitOn d) = s := List.intercalate_splitOn d
    rw [hp] at hs ⊢
    simp at hs
    rw [hs]
  · exact filter_rdropWhile List.isEmpty _

theorem delete_tail (s : Text) :
    delete s (s.length - 2) s.length =
      if s.length < 2 then .error (.stringIndex (s.length - 2))
      else .ok (s.take (s.length - 2)) := by
  unfold delete
  by_cases h : s.length < 2
  · rw [if_pos (by omega), if_pos h]
  · rw [if_neg (by omega), if_neg (by omega), if_neg h]
    have h1 : ((s.length : Int) - 2).toNat = s.length - 2 := by omega
    simp [h1]

theorem delete_pair (s : Text) (a b : Char) :
    delete (s ++ [a, b]) ((s ++ [a, b]).length - 2) (s ++ [a, b]).length = .ok s := by
  rw [delete_tail]
  simp

/-! ## Integers read and printed -/

theorem digit_digitChar {d : Nat} (h : d < 10) : digit d.digitChar = some d := by
  revert d
  decide

theorem digitZeros_ge : ∀ z ∈ digitZeros, 48 ≤ z := by decide

/-- A digit stands behind every blank and every sign. -/
theorem digit_ge {c : Char} {d : Nat} (h : digit c = some d) : 48 ≤ c.toNat := by
  unfold digit at h
  obtain ⟨z, hz, -⟩ := Option.map_eq_some_iff.mp h
  have hmem := digitZeros_ge z (List.mem_of_find?_eq_some hz)
  have hle := List.find?_some hz
  simp only [Bool.and_eq_true, decide_eq_true_eq] at hle
  omega

theorem parseDigits_ge {s : Text} {acc k : Nat} (h : parseDigits s acc = some k) :
    ∀ c ∈ s, 48 ≤ c.toNat := by
  induction s generalizing acc with
  | nil => simp
  | cons c s ih =>
    obtain ⟨d, hd, hs⟩ := Option.bind_eq_some_iff.mp h
    intro x hx
    rcases List.mem_cons.mp hx with rfl | hx
    · exact digit_ge hd
    · exact ih hs x hx

theorem parseDigits_append (s t : Text) (acc : Nat) :
    parseDigits (s ++ t) acc = (parseDigits s acc).bind (parseDigits t) := by
  induction s generalizing acc with
  | nil => rfl
  | cons c s ih =>
    simp only [List.cons_append, parseDigits]
    cases digit c with
    | none => rfl
    | some d => exact ih _

theorem parseDigits_toDigits (n : Nat) : parseDigits (Nat.toDigits 10 n) 0 = some n := by
  induction n using Nat.strongRecOn with
  | ind n ih =>
    rw [Nat.toDigits_eq_if (by decide)]
    split
    · rename_i hn
      simp [parseDigits, digit_digitChar hn]
    · rw [parseDigits_append, ih (n / 10) (by omega)]
      simp only [Option.bind_some, parseDigits, digit_digitChar (Nat.mod_lt n (by decide)),
        Option.some.injEq]
      omega

theorem isBlank_iff {c : Char} : isBlank c = true ↔ c.toNat ≤ 32 := by
  simp only [isBlank, decide_eq_true_eq]
  exact Iff.rfl

/-- The characters of a string that `Integer.valueOf` accepts. -/
theorem not_isBlank_of_parseInt {s : Text} {v : Int32} (h : parseInt s = some v) :
    ∀ c ∈ s, isBlank c = false := by
  have hdigits : ∀ {sign : Int} {t : Text} {w : Int32}, signedInt sign t = some w →
      ∀ c ∈ t, 48 ≤ c.toNat := by
    intro sign t w ht
    cases t with
    | nil => simp
    | cons c t =>
      obtain ⟨k, hk, -⟩ := Option.bind_eq_some_iff.mp ht
      exact parseDigits_ge hk
  intro c hc
  rw [Bool.eq_false_iff, ne_eq, isBlank_iff]
  unfold parseInt at h
  split at h
  · rcases List.mem_cons.mp hc with rfl | hc
    · decide
    · have := hdigits h c hc
      omega
  · rcases List.mem_cons.mp hc with rfl | hc
    · decide
    · have := hdigits h c hc
      omega
  · have := hdigits h c hc
    omega

theorem ne_nil_of_parseInt {s : Text} {v : Int32} (h : parseInt s = some v) : s ≠ [] := by
  rintro rfl
  cases h

theorem toInt32_toInt (v : Int32) : toInt32 v.toInt = some v := by
  unfold toInt32
  rw [if_pos ⟨v.le_toInt, v.toInt_lt⟩, Int32.ofInt_toInt]

theorem signedInt_toDigits (sign : Int) (n : Nat) :
    signedInt sign (Nat.toDigits 10 n) = toInt32 (sign * n) := by
  cases h : Nat.toDigits 10 n with
  | nil => exact absurd h Nat.toDigits_ne_nil
  | cons c s =>
    show (parseDigits (c :: s) 0).bind _ = _
    rw [← h, parseDigits_toDigits]
    rfl

theorem parseInt_toDigits (n : Nat) : parseInt (Nat.toDigits 10 n) = toInt32 n := by
  have hdigit : ∀ c ∈ Nat.toDigits 10 n, c ≠ '-' ∧ c ≠ '+' := by
    intro c hc
    have := Nat.isDigit_of_mem_toDigits (by decide) (by decide) hc
    constructor
    · rintro rfl
      simp at this
    · rintro rfl
      simp at this
  have hs := signedInt_toDigits 1 n
  rw [Int.one_mul] at hs
  rw [← hs]
  unfold parseInt
  split
  · rename_i s h
    exact absurd rfl (hdigit '-' (by rw [h]; exact List.mem_cons_self)).1
  · rename_i s h
    exact absurd rfl (hdigit '+' (by rw [h]; exact List.mem_cons_self)).2
  · rfl

/-- `Integer.valueOf` reads what `Integer.toString` prints. -/
theorem parseInt_intString (v : Int32) : parseInt (intString v) = some v := by
  have hv := toInt32_toInt v
  unfold intString
  split
  · show signedInt (-1) _ = _
    rw [signedInt_toDigits, ← hv]
    congr 1
    omega
  · rw [parseInt_toDigits, ← hv]
    congr 1
    omega

theorem mathAbs_toInt {v : Int32} (h : v.toInt ≠ -2 ^ 31) :
    (mathAbs v).toInt = v.toInt.natAbs := by
  have h1 := v.le_toInt
  have h2 := v.toInt_lt
  unfold mathAbs
  split
  · rename_i hneg
    rw [Int32.lt_iff_toInt_lt] at hneg
    simp only [Int32.toInt_zero] at hneg
    rw [Int32.toInt_neg, Int.bmod_eq_of_le (by omega) (by omega)]
    omega
  · rename_i hneg
    rw [Int32.lt_iff_toInt_lt] at hneg
    simp only [Int32.toInt_zero] at hneg
    omega

/-! ## Maps read -/

namespace HashMap

variable {κ ν : Type} [DecidableEq κ]

theorem get_eq_some_iff (m : HashMap κ ν) (k : κ) (v : ν) :
    m.get k = some v ↔ (k, v) ∈ m.entries := by
  have hnodup := m.keysNodup
  unfold get
  rw [List.lookup_eq_some_iff]
  constructor
  · rintro ⟨l₁, l₂, h, -⟩
    rw [h]
    simp
  · intro h
    obtain ⟨l₁, l₂, h⟩ := List.append_of_mem h
    refine ⟨l₁, l₂, h, ?_⟩
    intro p hp
    rw [h, List.map_append, List.map_cons, List.nodup_append] at hnodup
    have := hnodup.2.2 p.1 (List.mem_map_of_mem hp) k List.mem_cons_self
    simpa using Ne.symm this

theorem put_entries_of_fresh (m : HashMap κ ν) (k : κ) (v : ν)
    (h : k ∉ m.entries.map Prod.fst) : (m.put k v).entries = m.entries ++ [(k, v)] := by
  show putEntries _ _ _ = _
  rw [putEntries, if_neg h]

/-- A loop that puts a fresh key at each turn lists its entries in that order. -/
theorem foldl_put_entries (key : Nat → κ) (val : Nat → ν) (n : Nat)
    (hkey : ∀ i < n, ∀ j < n, key i = key j → i = j) :
    ((List.range n).foldl (fun m i => m.put (key i) (val i)) (empty : HashMap κ ν)).entries =
      (List.range n).map fun i => (key i, val i) := by
  induction n with
  | zero => rfl
  | succ n ih =>
    have ih := ih fun i hi j hj => hkey i (by omega) j (by omega)
    rw [List.range_succ, List.foldl_append, List.map_append, List.foldl_cons, List.foldl_nil,
      put_entries_of_fresh, ih]
    · rfl
    · rw [ih, List.map_map]
      intro hmem
      obtain ⟨i, hi, hik⟩ := List.mem_map.mp hmem
      have hi := List.mem_range.mp hi
      have := hkey i (by omega) n (by omega) hik
      omega

end HashMap

end reductor.java
