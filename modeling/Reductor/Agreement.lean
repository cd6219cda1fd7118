-- The two programs on one file: the model that the reduction writes has the
-- assignments of the problem that Candy reads for its solutions.
import Reductor.Candy.Written
import Reductor.Comments
import Reductor.Reduction
import Reductor.Reruns
import Reductor.Folder

open reductor.java reductor.dimacs reductor.transformer reductor.minizinc reductor.cnf
open reductor.files reductor.application
open reductor.candy (AsciiCharset WritesBoth EntryFits itemOf CNFProblem Holds problemOf
  problemOf_eq_ok_iff fileText_of_written clause_mem_items_iff BufferSize buffer_size GzRead
  readDimacs readDimacs_eq_problemOf)

namespace reductor.agreement

/-! ## Files that both programs read -/

/-- The text is a DIMACS file for both programs: its lines are ones that both
read, no line ends in a carriage return alone, and there are no more variables
than Candy has literals for. -/
structure Shared (text : Text) (n : Int32) (clauses : List (List Int32)) : Prop where
  ends : ∀ p ∈ breaks text, p.2 ≠ .cr
  written : ∃ entries format m comments, List.Forall₂ WritesBoth entries (read text) ∧
    Interleaved format n m comments clauses entries ∧ 0 ≤ m.toInt
  variables' : 1 ≤ n.toInt ∧ n.toInt ≤ 2 ^ 30
  clauses : ∀ values ∈ clauses, Terminated n ⟨values⟩

/-- What an assignment of all variables gives to those that are counted from 0. -/
def upTo (n : Int32) (a : Int → Bool) (i : Fin n.toInt.toNat) : Bool := a i

/-- The solutions of a model are the assignments of a problem. -/
structure Agree (n : Int32) (model : Text) (cnf : CNFProblem) : Prop where
  wellFormed : WellFormedText model
  solutions : ∀ a : Int → Bool, cnf.SatisfiedBy a ↔
    spelled (upTo n a) ∈ solutions model
  feasible : Feasible model ↔ ∃ a, cnf.SatisfiedBy a

variable {text : Text} {n m : Int32} {clauses : List (List Int32)}

/-! ## The model -/

theorem spelled_injective {k : Nat} :
    Function.Injective (spelled : (Fin k → Bool) → Valuation) := by
  intro a b h
  funext i
  have hi := congrFun h (varName (i + 1))
  rw [spelled_varName, spelled_varName, Option.some.injEq] at hi
  cases ha : a i <;> cases hb : b i <;> simp_all

theorem spelled_mem_solutions_iff {k : Nat} {f : Formula (Fin k)} {model : Text}
    (h : Models f model) (a : Fin k → Bool) : spelled a ∈ solutions model ↔ Satisfies a f := by
  constructor
  · intro ha
    obtain ⟨b, hb, he⟩ := h.bijective.surjOn ha
    rwa [← spelled_injective he]
  · exact fun ha => h.bijective.mapsTo ha

/-- What the reduction makes of the lines of entries. -/
theorem models_of_written (order : Order) {entries : List Entry} {lines : List Line}
    {format : Text} {comments : List Text} (h : List.Forall₂ (Writes Reads) entries lines)
    (hi : Interleaved format n m comments clauses entries) (hn : 1 ≤ n.toInt)
    (hclauses : ∀ values ∈ clauses, Terminated n ⟨values⟩) :
    ∃ model, process order lines = .ok model ∧ Models (formula n clauses) model := by
  have hreads : List.Forall₂ ReadAs entries lines := h.imp fun _ _ hw => hw.readAs
  have hdto := dtoOf_written hreads hi
  have hterminated : ∀ c ∈ (dtoOf lines).clausesDto, Terminated (dtoOf lines).variables' c := by
    intro c hc
    rw [hdto] at hc ⊢
    obtain ⟨values, hvalues, rfl⟩ := List.mem_map.mp hc
    exact hclauses values hvalues
  have hmodels := models_modelText order (plainComments_dtoOf lines)
    (by rw [hdto]; exact hn) hterminated
  have hlists : valueLists (dtoOf lines) = clauses := by
    rw [hdto, valueLists, List.map_map]
    exact List.map_id _
  have hvariables : (dtoOf lines).variables' = n := by rw [hdto]
  rw [hlists] at hmodels
  subst hvariables
  exact ⟨_, process_eq_ok_iff.mpr ⟨readable_of_readAs hreads, fits_of_terminated hterminated, rfl⟩,
    hmodels⟩

/-! ## The problem -/

/-- A literal of the formula holds when its integer is true of the assignment. -/
theorem holds_iff {v : Int32} (h : InRange n v) (a : Int → Bool) :
    Literal.holds (upTo n a) ⟨literalVar n v h, decide (0 < v)⟩ = true ↔ Holds a v.toInt := by
  have hne := mt toInt_eq_zero_iff.mp h.1
  have hvar : upTo n a (literalVar n v h) = a ((v.toInt.natAbs : Int) - 1) := by
    show a ((v.toInt.natAbs - 1 : Nat) : Int) = _
    rw [Int.ofNat_sub (by omega)]
    rfl
  have hsign : decide (0 < v) = decide (0 < v.toInt) := decide_eq_decide.mpr int32_zero_lt_iff
  unfold Literal.holds Holds
  rw [hvar, hsign]
  cases a ((v.toInt.natAbs : Int) - 1) <;> cases decide (0 < v.toInt) <;> simp

theorem clause_holds_iff {values : List Int32} (h : Terminated n ⟨values⟩) (a : Int → Bool) :
    (∃ z ∈ values.dropLast.map Int32.toInt, Holds a z) ↔
      ∃ l ∈ values.filterMap (literal? n), l.holds (upTo n a) = true := by
  obtain ⟨ls, rfl, -, hrange⟩ := h
  rw [List.dropLast_concat, List.filterMap_append]
  simp only [List.mem_map, exists_exists_and_eq_and, List.filterMap_cons, literal?_zero,
    List.filterMap_nil, List.append_nil, List.mem_filterMap]
  constructor
  · rintro ⟨v, hv, hholds⟩
    exact ⟨_, ⟨v, hv, dif_pos (hrange v hv)⟩, (holds_iff (hrange v hv) a).mpr hholds⟩
  · rintro ⟨l, ⟨v, hv, hl⟩, hholds⟩
    have hliteral : literal? n v = some ⟨literalVar n v (hrange v hv), decide (0 < v)⟩ :=
      dif_pos (hrange v hv)
    rw [hliteral] at hl
    cases hl
    exact ⟨v, hv, (holds_iff (hrange v hv) a).mp hholds⟩

theorem Shared.entries_fit (h : Shared text n clauses) {entries : List Entry} {format : Text}
    {comments : List Text} (hi : Interleaved format n m comments clauses entries)
    (hm : 0 ≤ m.toInt) : ∀ e ∈ entries, EntryFits e := by
  intro e he
  cases e with
  | comment => trivial
  | problem format' n' m' =>
    have hmem : (format', n', m') ∈ entries.filterMap Entry.problem? :=
      List.mem_filterMap.mpr ⟨_, he, rfl⟩
    rw [hi.header, List.mem_singleton] at hmem
    cases hmem
    have hn := h.variables'
    exact ⟨by omega, hm⟩
  | clause values =>
    have hmem : values ∈ entries.filterMap Entry.clause? := List.mem_filterMap.mpr ⟨_, he, rfl⟩
    rw [hi.clauses] at hmem
    obtain ⟨ls, hls, -, hrange⟩ := h.clauses values hmem
    refine ⟨ls, hls, fun v hv => ?_⟩
    obtain ⟨hne, hle⟩ := hrange v hv
    have hn := h.variables'
    exact ⟨hne, by omega⟩

/-- The problem that Candy reads has the assignments of the formula. -/
theorem satisfiedBy_of_shared (charset : AsciiCharset) (h : Shared text n clauses) :
    ∃ cnf, problemOf (charset.encode text) = .ok cnf ∧
      ∀ a, cnf.SatisfiedBy a ↔ Satisfies (upTo n a) (formula n clauses) := by
  obtain ⟨entries, format, m, comments, hlines, hi, hm⟩ := h.written
  rw [read_eq_breaks] at hlines
  have hfile := fileText_of_written charset hlines (h.entries_fit hi hm) h.ends
    (wellEnded_breaks text)
  rw [rendered_breaks] at hfile
  refine ⟨_, problemOf_eq_ok_iff.mpr ⟨_, hfile, rfl⟩, fun a => ?_⟩
  have hempty : CNFProblem.SatisfiedBy {} a := by
    intro c hc
    cases hc
  rw [hfile.satisfiedBy_iff, and_iff_right hempty]
  simp only [clause_mem_items_iff, hi.clauses]
  constructor
  · intro hall c hc
    obtain ⟨values, hvalues, rfl⟩ := List.mem_map.mp hc
    exact (clause_holds_iff (h.clauses values hvalues) a).mp (hall _ ⟨values, hvalues, rfl⟩)
  · rintro hall _ ⟨values, hvalues, rfl⟩
    exact (clause_holds_iff (h.clauses values hvalues) a).mpr
      (hall _ (List.mem_map.mpr ⟨values, hvalues, rfl⟩))

/-! ## Both on one file -/

/-- Every assignment of the variables of a formula is one of all variables. -/
theorem exists_upTo (b : Fin n.toInt.toNat → Bool) : ∃ a, upTo n a = b := by
  refine ⟨fun z => if h : z.toNat < n.toInt.toNat then b ⟨z.toNat, h⟩ else false, ?_⟩
  funext i
  exact dif_pos i.isLt

theorem agree_of_shared (charset : AsciiCharset) (order : Order) (h : Shared text n clauses) :
    ∃ model cnf, process order (read text) = .ok model ∧
      problemOf (charset.encode text) = .ok cnf ∧ Agree n model cnf := by
  obtain ⟨entries, format, m, comments, hlines, hi, -⟩ := h.written
  obtain ⟨model, hmodel, hmodels⟩ := models_of_written order
    (hlines.imp fun _ _ => WritesBoth.writes) hi h.variables'.1 h.clauses
  obtain ⟨cnf, hcnf, hsatisfied⟩ := satisfiedBy_of_shared charset h
  refine ⟨model, cnf, hmodel, hcnf, hmodels.wellFormed, ?_, ?_⟩
  · intro a
    rw [hsatisfied]
    exact (spelled_mem_solutions_iff hmodels _).symm
  · rw [hmodels.feasible]
    constructor
    · rintro ⟨b, hb⟩
      obtain ⟨a, rfl⟩ := exists_upTo b
      exact ⟨a, (hsatisfied a).mpr hb⟩
    · rintro ⟨a, ha⟩
      exact ⟨_, (hsatisfied a).mp ha⟩

/-- A comment outside ASCII, a tab, a sign, and lines that end in three ways. -/
def sharedText : Text := "c ñ\np cnf 2 2\n\t1 -2  0 \r\n-1 +2 0".toList

theorem shared_sharedText : Shared sharedText 2 [[1, -2, 0], [-1, 2, 0]] := by
  have hread : read sharedText = [⟨"c ñ".toList, by decide⟩, ⟨"p cnf 2 2".toList, by decide⟩,
      ⟨"\t1 -2  0 ".toList, by decide⟩, ⟨"-1 +2 0".toList, by decide⟩] := by decide +kernel
  have hnone : Padding [] := by unfold Padding; decide
  refine ⟨by decide +kernel, ⟨[.comment "ñ".toList, .problem "cnf".toList 2 2,
    .clause [1, -2, 0], .clause [-1, 2, 0]], "cnf".toList, 2, ["ñ".toList], ?_, ⟨rfl, rfl, rfl⟩,
    by decide⟩, by decide, ?_⟩
  · rw [hread]
    refine .cons rfl (.cons ⟨rfl, "2".toList, "2".toList, ?_, ?_, [], _, [], rfl, hnone,
      .cons _ 0 (.cons _ 0 (.last _)), hnone⟩ (.cons ⟨["1".toList, "-2".toList, "0".toList],
      .cons ?_ (.cons ?_ (.cons ?_ .nil)), "\t".toList, _, " ".toList, rfl, ?_,
      .cons _ 0 (.cons _ 1 (.last _)), ?_⟩ (.cons ⟨["-1".toList, "+2".toList, "0".toList],
      .cons ?_ (.cons ?_ (.cons ?_ .nil)), [], _, [], rfl, hnone,
      .cons _ 0 (.cons _ 0 (.last _)), hnone⟩ .nil)))
    all_goals
      first
      | exact ⟨by unfold Reads; decide, by decide⟩
      | unfold Padding; decide
  · intro values hvalues
    rcases List.mem_pair.mp hvalues with rfl | rfl
    · exact ⟨[1, -2], rfl, by decide, by decide⟩
    · exact ⟨[-1, 2], rfl, by decide, by decide⟩

/-! ## Both on a folder -/

/-- The charset of `FileReader` and `FileWriter`. -/
def javaCharset (charset : AsciiCharset) : Charset UInt8 := ⟨charset.decode, charset.encode⟩

/-- A charset that has the characters of a file has those of its model. -/
theorem has_of_process {charset : AsciiCharset} {order : Order} {model : Text}
    (h : process order (read text) = .ok model) (htext : ∀ c ∈ text, charset.Has c) :
    ∀ c ∈ model, charset.Has c := by
  obtain ⟨-, -, rfl⟩ := process_eq_ok_iff.mp h
  intro c hc
  rcases ascii_or_comment hc with hc | ⟨comment, hcomment, hc⟩
  · exact charset.has_ascii c hc
  · apply htext
    obtain ⟨l, hl, rfl⟩ := List.mem_map.mp hcomment
    have hl := List.mem_of_mem_filter hl
    rw [read_eq_breaks] at hl
    obtain ⟨p, hp, rfl⟩ := List.mem_map.mp hl
    rw [← rendered_breaks text]
    exact List.mem_flatMap.mpr ⟨p, hp, List.mem_append_left _ (List.mem_of_mem_drop hc)⟩

/-- The file alone in its folder. -/
def sharedFiles (charset : AsciiCharset) : Files Text UInt8 where
  dir p := if p = aCnf then some 0 else none
  data _ := charset.encode sharedText
  next := 1
  fresh := by
    intro p i h
    split at h
    · cases h
      exact Nat.zero_lt_one
    · cases h

def sharedWalk : Walk := ⟨[(aCnf, true)], by decide +kernel⟩

/-- The run is stopped when the writer has brought three bytes to the output file. -/
def stoppedRun : List Action :=
  [.visit, .advance aCnf, .advance aCnf, .advance aCnf, .flush aCnf 3]

def wholeRun : List Action :=
  [.visit, .shutdown, .advance aCnf, .advance aCnf, .advance aCnf, .advance aCnf, .terminate]

/-- After a run that was stopped, a whole one, and the programs agree on the file. -/
def AgreeAfterStop (charset : AsciiCharset) : Prop :=
  ∃ mid st, exec (App.step .insertion (javaCharset charset) parentFolder)
      (App.start (sharedFiles charset) sharedWalk) stoppedRun = some mid ∧
    exec (App.step .insertion (javaCharset charset) parentFolder)
      (App.start mid.files sharedWalk) wholeRun = some st ∧
    ∃ model cnf, st.files.content (outputFile parentFolder aCnf) = some (charset.encode model) ∧
      charset.decode (charset.encode model) = model ∧
      (st.files.content aCnf).map (readDimacs (.full buffer_size)) = some (.ok cnf) ∧
      Agree 2 model cnf

end reductor.agreement
