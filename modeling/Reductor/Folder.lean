-- The output files of a folder: which inputs meet in one output file, and a
-- folder in which none do.
import Reductor.Tasks

open reductor.java reductor.dimacs reductor.transformer reductor.files

namespace reductor.application

/-! ## Texts that a replacement makes one -/

/-- Texts that differ only where one has the target and the other its replacement. -/
inductive Twins (target replacement : Text) : Text → Text → Prop
  | nil : Twins target replacement [] []
  | char (c : Char) {s s' : Text} :
      Twins target replacement s s' → Twins target replacement (c :: s) (c :: s')
  | replaced {s s' : Text} : Twins target replacement s s' →
      Twins target replacement (target ++ s) (replacement ++ s')
  | kept {s s' : Text} : Twins target replacement s s' →
      Twins target replacement (replacement ++ s) (target ++ s')

section

variable {target replacement s s' : Text} {c : Char} {t u : Text}

theorem Twins.append_left (front : Text) (h : Twins target replacement s s') :
    Twins target replacement (front ++ s) (front ++ s') := by
  induction front with
  | nil => exact h
  | cons c front ih => exact .char c ih

theorem replace_cons_of_not (h : ¬ target <+: c :: s) :
    replace (c :: s) target replacement = c :: replace s target replacement := by
  rw [replace, replaceRest, if_neg fun hp => h (List.isPrefixOf_iff_prefix.mp hp)]
  rfl

/-- What lacks the first character of the target is no part of an occurrence. -/
theorem replace_append_of_not_mem (hc : c ∉ u) (s : Text) :
    replace (u ++ s) (c :: t) replacement = u ++ replace s (c :: t) replacement := by
  induction u with
  | nil => rfl
  | cons d u ih =>
    obtain ⟨hd, hu⟩ := not_or.mp (mt List.mem_cons.mpr hc)
    rw [List.cons_append, replace_cons_of_not, ih hu, List.cons_append]
    rintro ⟨rest, hrest⟩
    exact hd (List.cons.inj hrest).1

theorem replace_eq_append (hc : c ∉ u) {rest : Text}
    (h : replace s (c :: t) (c :: replacement) = u ++ rest) :
    ∃ s', s = u ++ s' ∧ replace s' (c :: t) (c :: replacement) = rest := by
  induction u generalizing s with
  | nil => exact ⟨s, rfl, h⟩
  | cons d u ih =>
    obtain ⟨hd, hu⟩ := not_or.mp (mt List.mem_cons.mpr hc)
    cases s with
    | nil => cases h
    | cons a s =>
      by_cases hpre : c :: t <+: a :: s
      · obtain ⟨b, hb⟩ := hpre
        rw [← hb, replace_append_target (List.cons_ne_nil c t)] at h
        exact absurd (List.cons.inj h).1 hd
      · rw [replace_cons_of_not hpre, List.cons_append] at h
        obtain ⟨rfl, htail⟩ := List.cons.inj h
        obtain ⟨s', rfl, hrest⟩ := ih hu htail
        exact ⟨s', rfl, hrest⟩

/-- The replacement is not taken for the target. -/
theorem replace_append_replacement (hc : c ∉ u) (hlen : u.length = t.length) (s : Text) :
    replace (c :: u ++ s) (c :: t) (c :: u) = c :: u ++ replace s (c :: t) (c :: u) := by
  by_cases hpre : c :: t <+: c :: u ++ s
  · have hsame : c :: t = c :: u := by
      have hle := List.prefix_of_prefix_length_le hpre (List.prefix_append (c :: u) s)
        (by rw [List.length_cons, List.length_cons, hlen])
      exact hle.eq_of_length (by rw [List.length_cons, List.length_cons, hlen])
    rw [hsame]
    exact replace_append_target (List.cons_ne_nil c u) s
  · refine (replace_cons_of_not hpre).trans ?_
    show c :: replace (u ++ s) _ _ = _
    rw [replace_append_of_not_mem hc, List.cons_append]

/-- An occurrence in one of two texts with one result, and no occurrence in the other. -/
theorem exists_twin_of_occurrence (hu : c ∉ u) {a : Char} {x r : Text}
    (hpre : ¬ c :: t <+: a :: x)
    (h : replace (c :: t ++ r) (c :: t) (c :: u) = replace (a :: x) (c :: t) (c :: u)) :
    ∃ y, a :: x = c :: u ++ y ∧
      replace r (c :: t) (c :: u) = replace y (c :: t) (c :: u) := by
  rw [replace_append_target (List.cons_ne_nil c t), replace_cons_of_not hpre,
    List.cons_append] at h
  obtain ⟨rfl, htail⟩ := List.cons.inj h
  obtain ⟨y, rfl, hy⟩ := replace_eq_append hu htail.symm
  exact ⟨y, rfl, hy.symm⟩

theorem twins_of_replace_eq (hu : c ∉ u)
    (h : replace s (c :: t) (c :: u) = replace s' (c :: t) (c :: u)) :
    Twins (c :: t) (c :: u) s s' := by
  induction hn : s.length using Nat.strongRecOn generalizing s s' with
  | ind n ih =>
    have hne : c :: t ≠ [] := List.cons_ne_nil c t
    rcases s with _ | ⟨a, x⟩ <;> rcases s' with _ | ⟨b, y⟩
    · exact .nil
    · by_cases hpre : c :: t <+: b :: y
      · obtain ⟨r, hr⟩ := hpre
        rw [← hr, replace_append_target hne] at h
        cases h
      · rw [replace_cons_of_not hpre] at h
        cases h
    · by_cases hpre : c :: t <+: a :: x
      · obtain ⟨r, hr⟩ := hpre
        rw [← hr, replace_append_target hne] at h
        cases h
      · rw [replace_cons_of_not hpre] at h
        cases h
    · by_cases hpre : c :: t <+: a :: x <;> by_cases hpre' : c :: t <+: b :: y
      · obtain ⟨r, hr⟩ := hpre
        obtain ⟨r', hr'⟩ := hpre'
        rw [← hr, ← hr', replace_append_target hne, replace_append_target hne] at h
        have hrest := List.append_cancel_left h
        rw [← hr, ← hr']
        apply Twins.append_left
        refine ih r.length ?_ hrest rfl
        rw [← hn, ← hr, List.length_append, List.length_cons]
        omega
      · obtain ⟨r, hr⟩ := hpre
        rw [← hr] at h
        obtain ⟨y', hy', hrest⟩ := exists_twin_of_occurrence hu hpre' h
        rw [← hr, hy']
        refine .replaced (ih r.length ?_ hrest rfl)
        rw [← hn, ← hr, List.length_append, List.length_cons]
        omega
      · obtain ⟨r', hr'⟩ := hpre'
        rw [← hr'] at h
        obtain ⟨x', hx', hrest⟩ := exists_twin_of_occurrence hu hpre h.symm
        rw [← hr', hx']
        refine .kept (ih x'.length ?_ hrest.symm rfl)
        rw [← hn, hx', List.length_append, List.length_cons]
        omega
      · rw [replace_cons_of_not hpre, replace_cons_of_not hpre'] at h
        obtain ⟨rfl, htail⟩ := List.cons.inj h
        exact .char a (ih x.length (by rw [← hn]; exact Nat.lt_succ_self _) htail rfl)

/-- The same character in front of two texts with one result. -/
theorem replace_cons_congr (ht : c ∉ t) {a : Char}
    (h : replace s (c :: t) (c :: u) = replace s' (c :: t) (c :: u)) :
    replace (a :: s) (c :: t) (c :: u) = replace (a :: s') (c :: t) (c :: u) := by
  -- An occurrence at the front of one is one at the front of the other.
  have hfront : ∀ {s s' : Text}, replace s (c :: t) (c :: u) = replace s' (c :: t) (c :: u) →
      c :: t <+: a :: s → c :: t <+: a :: s' := by
    rintro s s' he ⟨r, hr⟩
    obtain ⟨rfl, rfl⟩ := List.cons.inj hr
    have happend : replace (t ++ r) (c :: t) (c :: u) = _ := replace_append_of_not_mem ht r
    obtain ⟨y, rfl, -⟩ := replace_eq_append ht (he.symm.trans happend)
    exact ⟨y, rfl⟩
  by_cases hpre : c :: t <+: a :: s
  · obtain ⟨r, hr⟩ := hpre
    obtain ⟨r', hr'⟩ := hfront h ⟨r, hr⟩
    obtain ⟨rfl, rfl⟩ := List.cons.inj hr
    obtain ⟨-, rfl⟩ := List.cons.inj hr'
    have hrest : replace r (c :: t) (c :: u) = replace r' (c :: t) (c :: u) := by
      have hboth : replace (t ++ r) (c :: t) (c :: u) = replace (t ++ r') (c :: t) (c :: u) := h
      rw [replace_append_of_not_mem ht, replace_append_of_not_mem ht] at hboth
      exact List.append_cancel_left hboth
    show replace (c :: t ++ r) _ _ = replace (c :: t ++ r') _ _
    rw [replace_append_target (List.cons_ne_nil c t), replace_append_target (List.cons_ne_nil c t),
      hrest]
  · rw [replace_cons_of_not hpre, replace_cons_of_not fun hpre' => hpre (hfront h.symm hpre'), h]

theorem replace_eq_of_twins (ht : c ∉ t) (hu : c ∉ u) (hlen : u.length = t.length)
    (h : Twins (c :: t) (c :: u) s s') :
    replace s (c :: t) (c :: u) = replace s' (c :: t) (c :: u) := by
  induction h with
  | nil => rfl
  | char a _ ih => exact replace_cons_congr ht ih
  | replaced _ ih =>
    rw [replace_append_target (List.cons_ne_nil c t), replace_append_replacement hu hlen, ih]
  | kept _ ih =>
    rw [replace_append_target (List.cons_ne_nil c t), replace_append_replacement hu hlen, ih]

/-- Texts that lack the replacement are no twins of each other. -/
theorem Twins.eq_of_not_infix (h : Twins target replacement s s') (hs : ¬ replacement <:+: s)
    (hs' : ¬ replacement <:+: s') : s = s' := by
  induction h with
  | nil => rfl
  | char c _ ih =>
    rw [ih (fun hi => hs (hi.trans (List.suffix_cons _ _).isInfix))
      (fun hi => hs' (hi.trans (List.suffix_cons _ _).isInfix))]
  | replaced _ _ => exact absurd (List.prefix_append _ _).isInfix hs'
  | kept _ _ => exact absurd (List.prefix_append _ _).isInfix hs

end

/-! ## The inputs of a folder -/

/-- What lies below the input folder, where the path of the folder does not occur again. -/
structure Below (parent f : Text) where
  below : Text
  path : f = inputPath parent ++ below
  once : ¬ inputPath parent <:+: below

section

variable {parent f g s s' : Text}

theorem twins_iff : Twins CNF_EXT MINIZINC_EXT s s' ↔
    replace s CNF_EXT MINIZINC_EXT = replace s' CNF_EXT MINIZINC_EXT := by
  have hcnf : '.' ∉ "cnf".toList := by decide
  have hmzn : '.' ∉ "mzn".toList := by decide
  exact ⟨replace_eq_of_twins hcnf hmzn (by decide), twins_of_replace_eq hmzn⟩

theorem outputFile_of_below (hf : Below parent f) :
    outputFile parent f = replace parent CNF_EXT MINIZINC_EXT ++
      ("/InstanciasMiniZinc".toList ++ replace hf.below CNF_EXT MINIZINC_EXT) := by
  have hne : inputPath parent ≠ [] := by
    unfold inputPath
    simp
  obtain ⟨below, rfl, honce⟩ := hf
  rw [outputFile_inside, replace_eq_self hne honce]

theorem replace_of_below (hf : Below parent f) :
    replace f CNF_EXT MINIZINC_EXT =
      replace parent CNF_EXT MINIZINC_EXT ++ "/InstanciasSAT".toList ++
        replace hf.below CNF_EXT MINIZINC_EXT := by
  have hslash : '/' ∉ CNF_EXT := by decide
  have hpath : f = parent ++ '/' :: ("InstanciasSAT".toList ++ hf.below) :=
    hf.path.trans (List.append_assoc ..)
  refine (congrArg (replace · CNF_EXT MINIZINC_EXT) hpath).trans ?_
  refine (replaceRest_append_cons hslash _ (Nat.zero_le _)).trans ?_
  rw [List.append_assoc]
  rfl

/-- Two inputs have one output file just when their paths differ only where
one has `.cnf` and the other `.mzn`. -/
theorem output_files_meet_iff (hf : Below parent f) (hg : Below parent g) :
    outputFile parent f = outputFile parent g ↔ Twins CNF_EXT MINIZINC_EXT f g := by
  rw [outputFile_of_below hf, outputFile_of_below hg, twins_iff, replace_of_below hf,
    replace_of_below hg]
  simp only [List.append_cancel_left_eq]

theorem outputFile_ne_of_below (hf : Below parent f) (hg : Below parent g) :
    outputFile parent f ≠ g :=
  outputFile_ne_of_inside ⟨hf.below, hf.path.symm⟩ ⟨hg.below, hg.path.symm⟩

variable {β : Type} {order : Order} {charset : Charset β} {files : Files Text β}
  {inputs : List Text}

/-- A header without its numbers, which is not read. -/
def shortHeader : Text := "p cnf".toList

/-- A file in the folder in whose path, below the folder, no `.mzn` occurs. -/
structure Instance (parent f : Text) extends Below parent f where
  inside : "/".toList <+: below
  noModel : ¬ MINIZINC_EXT <:+: below

/-- The path is one of a file in the folder. -/
def LiesIn (folder path : Text) : Prop := folder ++ "/".toList <+: path

theorem Instance.apart (hf : Instance parent f) (hg : Instance parent g) (hne : g ≠ f) :
    outputFile parent g ≠ outputFile parent f := by
  intro h
  rw [outputFile_of_below hf.toBelow, outputFile_of_below hg.toBelow] at h
  have htwins := twins_iff.mpr (List.append_cancel_left (List.append_cancel_left h))
  have hbelow := htwins.eq_of_not_infix hg.noModel hf.noModel
  exact hne (by rw [hg.path, hf.path, hbelow])

/-- Where `.cnf` does not occur in the path of the project, an output file is
in the folder that the application has for it. -/
theorem Instance.liesIn (hf : Instance parent f) (hproject : ¬ CNF_EXT <:+: parent) :
    LiesIn (outputPath parent) (outputFile parent f) := by
  obtain ⟨rest, hrest⟩ := hf.inside
  have hslash : ¬ CNF_EXT <+: '/' :: rest := by
    rintro ⟨s, hs⟩
    cases hs
  have hbelow : replace hf.below CNF_EXT MINIZINC_EXT =
      "/".toList ++ replace rest CNF_EXT MINIZINC_EXT := by
    rw [← hrest]
    exact replace_cons_of_not hslash
  refine ⟨replace rest CNF_EXT MINIZINC_EXT, ?_⟩
  rw [outputFile_of_below hf.toBelow, replace_ext_eq_self_iff.mpr hproject, hbelow, outputPath]
  simp only [List.append_assoc]

theorem independent_of_instances (h : ∀ f ∈ inputs, Nonempty (Instance parent f)) :
    Independent order charset parent files inputs where
  apart := by
    intro f hf g hg hne _ _ _ _
    obtain ⟨hf'⟩ := h f hf
    obtain ⟨hg'⟩ := h g hg
    exact hg'.apart hf' hne
  outside := by
    intro f hf g hg _ _
    obtain ⟨hf'⟩ := h f hf
    obtain ⟨hg'⟩ := h g hg
    exact outputFile_ne_of_below hf'.toBelow hg'.toBelow

end

end reductor.application
