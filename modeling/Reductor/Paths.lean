-- The paths that `ReductorApplication.run` computes, by two replacements in
-- the whole path of an input file.
import Reductor.Dimacs

open reductor.java reductor.dimacs

namespace reductor.application

def inputPath (parent : Text) : Text := parent ++ "/InstanciasSAT".toList

def outputPath (parent : Text) : Text := parent ++ "/InstanciasMiniZinc".toList

/-- The output file that `ReductorApplication.run` computes for an input file. -/
def outputFile (parent inputFile : Text) : Text :=
  replace (replace inputFile (inputPath parent) (outputPath parent)) CNF_EXT MINIZINC_EXT

/-! ## Replacements -/

section

variable {target replacement : Text}

theorem replaceRest_skip (u s : Text) :
    replaceRest target replacement u.length (u ++ s) = replace s target replacement := by
  induction u with
  | nil => rfl
  | cons c u ih => exact ih

theorem replace_append_target (hne : target ≠ []) (s : Text) :
    replace (target ++ s) target replacement = replacement ++ replace s target replacement := by
  cases target with
  | nil => exact absurd rfl hne
  | cons c t =>
    have hpre : (c :: t).isPrefixOf (c :: (t ++ s)) = true := by
      rw [List.isPrefixOf_iff_prefix]
      exact List.prefix_append (c :: t) s
    rw [replace, List.cons_append, replaceRest, if_pos hpre]
    exact congrArg _ (replaceRest_skip t s)

/-- An occurrence that lacks a character lies in front of it. -/
theorem prefix_of_prefix_append_cons {t p s : Text} {d : Char} (hd : d ∉ t)
    (h : t <+: p ++ d :: s) : t <+: p := by
  apply List.prefix_of_prefix_length_le h (List.prefix_append _ _)
  by_contra hlen
  have hover : p ++ [d] <+: t := by
    apply List.prefix_of_prefix_length_le _ h
    · rw [List.length_append, List.length_singleton]
      omega
    · simp
  exact hd (hover.subset (by simp))

/-- A text that the target cannot reach over is two texts. -/
theorem replaceRest_append_cons {d : Char} (hd : d ∉ target) (s : Text) {p : Text} {k : Nat}
    (hk : k ≤ p.length) :
    replaceRest target replacement k (p ++ d :: s) =
      replaceRest target replacement k p ++ replaceRest target replacement 0 (d :: s) := by
  induction p generalizing k with
  | nil =>
    obtain rfl : k = 0 := Nat.le_zero.mp hk
    rfl
  | cons c p ih =>
    cases k with
    | succ k => exact ih (Nat.le_of_succ_le_succ hk)
    | zero =>
      -- An occurrence in front of `d` is an occurrence in `p`.
      have hpre : target <+: c :: p ++ d :: s ↔ target <+: c :: p :=
        ⟨prefix_of_prefix_append_cons hd, fun h => h.trans (List.prefix_append _ _)⟩
      rw [List.cons_append, replaceRest, replaceRest]
      rw [List.cons_append] at hpre
      by_cases h : target <+: c :: p
      · have hlen : target.length - 1 ≤ p.length := by
          have := h.length_le
          rw [List.length_cons] at this
          omega
        rw [if_pos (List.isPrefixOf_iff_prefix.mpr (hpre.mpr h)),
          if_pos (List.isPrefixOf_iff_prefix.mpr h), ih hlen, List.append_assoc]
      · rw [if_neg fun ht => h (hpre.mp (List.isPrefixOf_iff_prefix.mp ht)),
          if_neg fun ht => h (List.isPrefixOf_iff_prefix.mp ht), ih (Nat.zero_le _),
          List.cons_append]

theorem length_replaceRest (hne : target ≠ []) (hlen : replacement.length = target.length)
    {s : Text} {k : Nat} (hk : k ≤ s.length) :
    (replaceRest target replacement k s).length = s.length - k := by
  induction s generalizing k with
  | nil =>
    rw [replaceRest, List.length_nil, Nat.zero_sub]
  | cons c s ih =>
    cases k with
    | succ k =>
      rw [replaceRest, ih (Nat.le_of_succ_le_succ hk), List.length_cons]
      omega
    | zero =>
      rw [replaceRest]
      split
      · rename_i h
        have hle := (List.isPrefixOf_iff_prefix.mp h).length_le
        have hpos := List.length_pos_of_ne_nil hne
        rw [List.length_cons] at hle
        rw [List.length_append, ih (by omega), List.length_cons]
        omega
      · rw [List.length_cons, ih (Nat.zero_le _), List.length_cons]
        omega

/-- Without an occurrence nothing is replaced; else the first one is, and the
text behind it goes on by itself. -/
theorem replace_cases (hne : target ≠ []) (s : Text) :
    (¬ target <:+: s ∧ replace s target replacement = s) ∨
      ∃ a b, s = a ++ target ++ b ∧
        replace s target replacement = a ++ replacement ++ replace b target replacement ∧
        ∀ a' b', s = a' ++ target ++ b' → a.length ≤ a'.length := by
  induction s with
  | nil => exact .inl ⟨fun h => hne (List.infix_nil.mp h), rfl⟩
  | cons c s ih =>
    by_cases hpre : target <+: c :: s
    · obtain ⟨b, hb⟩ := hpre
      refine .inr ⟨[], b, hb.symm, ?_, fun a' _ _ => Nat.zero_le _⟩
      rw [← hb, replace_append_target hne]
      rfl
    · have hcons : replace (c :: s) target replacement = c :: replace s target replacement := by
        rw [replace, replaceRest, if_neg fun h => hpre (List.isPrefixOf_iff_prefix.mp h)]
        rfl
      rcases ih with ⟨hno, hs⟩ | ⟨a, b, hs, hr, hfirst⟩
      · left
        rw [hcons, hs, List.infix_cons_iff, not_or]
        exact ⟨⟨hpre, hno⟩, rfl⟩
      · right
        refine ⟨c :: a, b, by rw [hs]; rfl, by rw [hcons, hr]; rfl, ?_⟩
        intro a' b' hs'
        cases a' with
        | nil => exact absurd ⟨b', hs'.symm⟩ hpre
        | cons c' a' => exact Nat.succ_le_succ (hfirst a' b' (List.cons.inj hs').2)

theorem replace_eq_self (hne : target ≠ []) {s : Text} (h : ¬ target <:+: s) :
    replace s target replacement = s := by
  rcases replace_cases hne s with ⟨-, hs⟩ | ⟨a, b, rfl, -, -⟩
  · exact hs
  · exact absurd ⟨a, b, rfl⟩ h

/-- A replacement of the same length that is no other text leaves the text as
it is just when there is nothing to replace. -/
theorem replace_eq_self_iff (hne : target ≠ []) (hlen : replacement.length = target.length)
    (hdiff : replacement ≠ target) {s : Text} :
    replace s target replacement = s ↔ ¬ target <:+: s := by
  refine ⟨fun h => ?_, replace_eq_self hne⟩
  rcases replace_cases hne s with ⟨hno, -⟩ | ⟨a, b, hs, hr, -⟩
  · exact hno
  · rw [h, hs, List.append_assoc, List.append_assoc] at hr
    have hrest := List.append_cancel_left hr
    exact absurd (List.append_inj hrest hlen.symm).1.symm hdiff

theorem length_le_replace (hne : target ≠ []) (hlen : target.length ≤ replacement.length)
    (s : Text) : s.length ≤ (replace s target replacement).length := by
  induction hn : s.length using Nat.strongRecOn generalizing s with
  | ind n ih =>
    have hpos := List.length_pos_of_ne_nil hne
    rcases replace_cases hne s with ⟨-, hs⟩ | ⟨a, b, hs, hr, -⟩
    · rw [hs, hn]
    · have hsum : a.length + target.length + b.length = n := by
        rw [← hn, hs, List.length_append, List.length_append]
      have hb := ih b.length (by omega) b rfl
      rw [hr, List.length_append, List.length_append]
      omega

/-- A longer replacement that leaves the length as it is has replaced nothing. -/
theorem not_infix_of_length_replace (hne : target ≠ []) (hlen : target.length < replacement.length)
    {s : Text} (h : (replace s target replacement).length = s.length) : ¬ target <:+: s := by
  rcases replace_cases hne s with ⟨hno, -⟩ | ⟨a, b, hs, hr, -⟩
  · exact hno
  · have hb := length_le_replace hne (Nat.le_of_lt hlen) b
    rw [hr, hs] at h
    simp only [List.length_append] at h
    omega

/-- If only the end of a text is replaced, the target does not occur in front of it. -/
theorem not_infix_of_replace_append {front : Text} (hne : target ≠ [])
    (hlen : replacement.length = target.length) (hdiff : replacement ≠ target)
    (h : replace (front ++ target) target replacement = front ++ replacement) :
    ¬ target <:+: front := by
  rintro ⟨a', b', hfront⟩
  rcases replace_cases hne (front ++ target) with ⟨hno, -⟩ | ⟨a, b, hs, hr, hfirst⟩
  · exact absurd ⟨front, [], List.append_nil _⟩ hno
  · have hle : a.length + target.length ≤ front.length := by
      have hfirst := hfirst a' (b' ++ target) (by rw [← hfront, List.append_assoc])
      rw [← hfront, List.length_append, List.length_append]
      omega
    -- Both the target and its replacement would stand behind `a` in `front`.
    have htarget : a ++ target <+: front := by
      apply List.prefix_of_prefix_length_le ⟨b, hs.symm⟩ (List.prefix_append _ _)
      rwa [List.length_append]
    have hreplacement : a ++ replacement <+: front := by
      rw [h] at hr
      apply List.prefix_of_prefix_length_le ⟨_, hr.symm⟩ (List.prefix_append _ _)
      rwa [List.length_append, hlen]
    have hlength : (a ++ replacement).length = (a ++ target).length := by
      rw [List.length_append, List.length_append, hlen]
    have hsame := List.prefix_of_prefix_length_le hreplacement htarget hlength.le
    exact hdiff (List.append_cancel_left (hsame.eq_of_length hlength))

/-- A target that cannot overlap itself is replaced alone at the end of a text
in which it does not occur before. -/
theorem replace_append_self {c : Char} {t front : Text} (hc : c ∉ t) (h : ¬ (c :: t) <:+: front) :
    replace (front ++ c :: t) (c :: t) replacement = front ++ replacement := by
  rcases replace_cases (List.cons_ne_nil c t) (front ++ c :: t) with
    ⟨hno, -⟩ | ⟨a, b, hs, hr, hfirst⟩
  · exact absurd ⟨front, [], List.append_nil _⟩ hno
  · have hle := hfirst front [] (List.append_nil _).symm
    obtain ⟨x, hx⟩ : a <+: front := by
      apply List.prefix_of_prefix_length_le _ (List.prefix_append front (c :: t)) hle
      exact ⟨c :: t ++ b, by rw [hs, List.append_assoc]⟩
    rw [← hx, List.append_assoc, List.append_assoc] at hs
    have hs := List.append_cancel_left hs
    cases x with
    | nil =>
      have hb : b = [] := by
        have hlength := congrArg List.length hs
        rw [List.nil_append, List.length_append] at hlength
        exact List.length_eq_zero_iff.mp (by omega)
      rw [hr, hb, ← hx, List.append_nil]
      exact List.append_nil _
    | cons c' x =>
      -- The first occurrence would reach into the end, where its first character is not.
      obtain ⟨rfl, hs⟩ := List.cons.inj hs
      obtain ⟨y, hy⟩ := prefix_of_prefix_append_cons hc ⟨b, hs.symm⟩
      exact absurd ⟨a, y, by rw [← hx, ← hy]; simp⟩ h

end

/-! ## The output files of a folder -/

/-- The parent folder is replaced on its own, and so is what lies below the input folder. -/
theorem outputFile_inside (parent below : Text) :
    outputFile parent (inputPath parent ++ below) =
      replace parent CNF_EXT MINIZINC_EXT ++ ("/InstanciasMiniZinc".toList ++
        replace (replace below (inputPath parent) (outputPath parent)) CNF_EXT MINIZINC_EXT) := by
  have hne : inputPath parent ≠ [] := by
    unfold inputPath
    simp
  have hslash : '/' ∉ CNF_EXT := by decide
  rw [outputFile, replace_append_target hne, outputPath, List.append_assoc]
  show replaceRest _ _ 0 (parent ++ '/' :: ("InstanciasMiniZinc".toList ++ _)) = _
  rw [replaceRest_append_cons hslash _ (Nat.zero_le _)]
  -- No character of the folder's name is the dot of an extension.
  rfl

theorem length_ext : MINIZINC_EXT.length = CNF_EXT.length := by decide

theorem length_replace_ext (s : Text) : (replace s CNF_EXT MINIZINC_EXT).length = s.length := by
  have hne : CNF_EXT ≠ [] := by decide
  exact length_replaceRest hne length_ext (Nat.zero_le _)

theorem replace_ext_eq_self_iff {s : Text} :
    replace s CNF_EXT MINIZINC_EXT = s ↔ ¬ CNF_EXT <:+: s := by
  have hne : CNF_EXT ≠ [] := by decide
  have hdiff : MINIZINC_EXT ≠ CNF_EXT := by decide
  exact replace_eq_self_iff hne length_ext hdiff

theorem replace_append_ext_iff {s : Text} :
    replace (s ++ CNF_EXT) CNF_EXT MINIZINC_EXT = s ++ MINIZINC_EXT ↔ ¬ CNF_EXT <:+: s := by
  have hne : CNF_EXT ≠ [] := by decide
  have hdiff : MINIZINC_EXT ≠ CNF_EXT := by decide
  have hdot : '.' ∉ "cnf".toList := by decide
  exact ⟨not_infix_of_replace_append hne length_ext hdiff, replace_append_self hdot⟩

/-- No output file lies where the input files do. -/
theorem outputFile_ne_of_inside {parent f g : Text} (hf : inputPath parent <+: f)
    (hg : inputPath parent <+: g) : outputFile parent f ≠ g := by
  obtain ⟨below, rfl⟩ := hf
  obtain ⟨below', rfl⟩ := hg
  rw [outputFile_inside, inputPath, List.append_assoc]
  intro h
  have hfolders := (List.append_inj h (length_replace_ext parent)).2
  simp at hfolders

/-! ## Names and paths -/

/-- A name in a path: a folder or a file. -/
structure Name where
  chars : Text
  ne_nil : chars ≠ []
  no_slash : '/' ∉ chars

/-- The names that `Paths.get` finds in an absolute path: slashes in a row are
one, and a slash at the end is none. -/
def pathNames (s : Text) : List Text := (s.splitOn '/').filter fun name => !name.isEmpty

/-- `Path.toString` of the absolute path of the names. -/
def pathString (names : List Text) : Text :=
  if names = [] then "/".toList else names.flatMap fun name => '/' :: name

/-- The path, below the input folder, of a file whose name ends in `.cnf`. -/
structure CnfFile where
  folders : List Name
  stem : Text
  no_slash : '/' ∉ stem

/-- The path of the file below the input folder, without the extension. -/
def CnfFile.stemPath (file : CnfFile) : Text :=
  (file.folders.flatMap fun name => '/' :: name.chars) ++ '/' :: file.stem

/-- The project folder as `user.dir` gives it: `getParent` of an absolute path. -/
def parentPath (project : List Name) : Text := pathString (project.map Name.chars)

/-- The path that `Files.walk` gives for a file below the input folder. -/
def walked (project : List Name) (file : CnfFile) : Text :=
  pathString (pathNames (inputPath (parentPath project))) ++ (file.stemPath ++ CNF_EXT)

/-- The same place below the output folder, with the other extension. -/
def mirrored (project : List Name) (file : CnfFile) : Text :=
  pathString (project.map Name.chars ++ ["InstanciasMiniZinc".toList]) ++
    (file.stemPath ++ MINIZINC_EXT)

theorem pathNames_append (s t : Text) : pathNames (s ++ '/' :: t) = pathNames s ++ pathNames t := by
  rw [pathNames, List.splitOn_append_cons_self, List.filter_append]
  rfl

theorem pathNames_name {s : Text} (hne : s ≠ []) (h : '/' ∉ s) : pathNames s = [s] := by
  rw [pathNames, List.splitOn_eq_singleton h, List.filter_cons_of_pos (by simpa using hne),
    List.filter_nil]

theorem parentPath_of_ne_nil {project : List Name} (h : project ≠ []) :
    parentPath project = project.flatMap fun name => '/' :: name.chars := by
  rw [parentPath, pathString, if_neg (by simpa using h), List.flatMap_map]

theorem pathNames_parentPath (project : List Name) :
    pathNames (parentPath project) = project.map Name.chars := by
  induction project using List.reverseRecOn with
  | nil => decide +kernel
  | append_singleton project name ih =>
    have hname := pathNames_name name.ne_nil name.no_slash
    rw [parentPath_of_ne_nil (by simp), List.flatMap_append, List.flatMap_singleton,
      pathNames_append, hname, List.map_append]
    by_cases h : project = []
    · rw [h]
      rfl
    · rw [← parentPath_of_ne_nil h, ih]
      rfl

theorem pathNames_inputPath (project : List Name) :
    pathNames (inputPath (parentPath project)) =
      project.map Name.chars ++ ["InstanciasSAT".toList] := by
  have hfolder : pathNames "InstanciasSAT".toList = ["InstanciasSAT".toList] := by decide +kernel
  rw [← pathNames_parentPath project, ← hfolder]
  exact pathNames_append _ _

/-- A folder below a project folder that is not the root. -/
theorem pathString_append (project : List Name) (folder : Text) :
    pathString (project.map Name.chars ++ [folder]) =
      (project.flatMap fun name => '/' :: name.chars) ++ '/' :: folder := by
  rw [pathString, if_neg (by simp), List.flatMap_append, List.flatMap_map, List.flatMap_singleton]

/-! ## When output paths mirror input paths -/

/-- The extension stands nowhere but at the end of the input path, and the
path of the input folder nowhere but at its start. -/
structure OccursOnce (project : List Name) (file : CnfFile) : Prop where
  in_project : ¬ CNF_EXT <:+: parentPath project
  in_file : ¬ CNF_EXT <:+: file.stemPath
  of_folder : ¬ inputPath (parentPath project) <:+: file.stemPath ++ CNF_EXT

/-- What lies below the input folder is kept, but for the extension. -/
theorem below_mirrored_iff {parent : Text} {file : CnfFile} :
    replace (replace (file.stemPath ++ CNF_EXT) (inputPath parent) (outputPath parent)) CNF_EXT
        MINIZINC_EXT = file.stemPath ++ MINIZINC_EXT ↔
      ¬ CNF_EXT <:+: file.stemPath ∧ ¬ inputPath parent <:+: file.stemPath ++ CNF_EXT := by
  have hne : inputPath parent ≠ [] := by
    unfold inputPath
    simp
  have hlonger : (inputPath parent).length < (outputPath parent).length := by
    simp [inputPath, outputPath]
  constructor
  · intro h
    have hlength := congrArg List.length h
    rw [length_replace_ext, List.length_append, length_ext, ← List.length_append] at hlength
    have hfolder := not_infix_of_length_replace hne hlonger hlength
    rw [replace_eq_self hne hfolder] at h
    exact ⟨replace_append_ext_iff.mp h, hfolder⟩
  · rintro ⟨hfile, hfolder⟩
    rw [replace_eq_self hne hfolder]
    exact replace_append_ext_iff.mpr hfile

/-- The output path of a file is its place below the output folder just when
the two replacements have one thing each to replace, and the project folder
is not the root. -/
theorem output_paths_mirror_input_paths_iff (project : List Name) (file : CnfFile) :
    outputFile (parentPath project) (walked project file) = mirrored project file ↔
      project ≠ [] ∧ OccursOnce project file := by
  rw [walked, pathNames_inputPath, mirrored, pathString_append, pathString_append]
  by_cases hroot : project = []
  · subst hroot
    -- The walk spells the input folder with one slash, `run` with two.
    refine iff_of_false (fun h => ?_) fun h => h.1 rfl
    have houtput : ∃ below, outputFile (parentPath []) ('/' :: ("InstanciasSAT".toList ++
        (file.stemPath ++ CNF_EXT))) = '/' :: ("InstanciasSAT".toList ++ below) :=
      ⟨replace (replace (file.stemPath ++ CNF_EXT) (inputPath (parentPath []))
        (outputPath (parentPath []))) CNF_EXT MINIZINC_EXT, rfl⟩
    obtain ⟨below, hbelow⟩ := houtput
    simp only [List.flatMap_nil, List.nil_append, List.cons_append] at h
    rw [hbelow] at h
    simp at h
  · have hstart : (project.flatMap fun name => '/' :: name.chars) ++ '/' :: "InstanciasSAT".toList =
        inputPath (parentPath project) := by
      rw [parentPath_of_ne_nil hroot]
      rfl
    have hmirror : (project.flatMap fun name => '/' :: name.chars) ++
        '/' :: "InstanciasMiniZinc".toList ++ (file.stemPath ++ MINIZINC_EXT) =
        parentPath project ++ ("/InstanciasMiniZinc".toList ++
          (file.stemPath ++ MINIZINC_EXT)) := by
      rw [parentPath_of_ne_nil hroot, List.append_assoc]
      rfl
    rw [hstart, outputFile_inside, hmirror]
    constructor
    · intro h
      obtain ⟨hproject, hbelow⟩ := List.append_inj h (length_replace_ext _)
      obtain ⟨hfile, hfolder⟩ := below_mirrored_iff.mp (List.append_cancel_left hbelow)
      exact ⟨hroot, replace_ext_eq_self_iff.mp hproject, hfile, hfolder⟩
    · rintro ⟨-, hproject, hfile, hfolder⟩
      rw [replace_ext_eq_self_iff.mpr hproject, below_mirrored_iff.mpr ⟨hfile, hfolder⟩]

def folderW : Name := ⟨"w".toList, by decide, by decide⟩
def twoExtensions : CnfFile := ⟨[], "a.cnf".toList, by decide⟩

/-- The first of two extensions is a part of the name, and is replaced too. -/
theorem both_extensions_are_replaced :
    walked [folderW] twoExtensions = "/w/InstanciasSAT/a.cnf.cnf".toList ∧
      outputFile (parentPath [folderW]) (walked [folderW] twoExtensions) =
        "/w/InstanciasMiniZinc/a.mzn.mzn".toList ∧
      outputFile (parentPath [folderW]) (walked [folderW] twoExtensions) ≠
        mirrored [folderW] twoExtensions := by
  decide +kernel

end reductor.application
