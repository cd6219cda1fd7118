-- The batch: `ReductorApplication.run` starts a `DimacsProcessor` for each
-- input file, and the steps of these on the file system run in any order.
import Mathlib.Algebra.Order.Ring.Nat
import Reductor.Emitted
import Reductor.Files
import Reductor.Paths

open reductor.java reductor.dimacs reductor.transformer reductor.files

namespace reductor.application

/-! ## The steps of the processors -/

/-- How far `DimacsProcessor.run` has got for an input file. -/
inductive Stage
  | submitted
  | transformed (content : Text)
  | deleted (content : Text)
  | opened (content : Text) (file : Nat)
  | ended
  | failed (thrown : Thrown)
  deriving DecidableEq

/-- The files, and the stage of the processor of each input file. -/
structure State where
  files : Files Text Char
  stage : Text → Stage

/-- What `deserialize` and `transformDimacs` make of the content of an input file. -/
def transformed (order : Order) (content : Text) : Stage :=
  match process order (read content) with
  | .ok text => .transformed text
  | .error thrown => .failed thrown

/-- The next step of the processor of an input file on the file system:
`FileUtils.read`, `FileUtils.deleteIfExists`, and the `FileWriter` of
`FileUtils.write` opened and then written and closed. There is none when the
file is not there to read, or the processor has ended. -/
def step (order : Order) (parent : Text) (st : State) (inputFile : Text) : Option State :=
  match st.stage inputFile with
  | .submitted => (st.files.content inputFile).map fun content =>
      ⟨st.files, Function.update st.stage inputFile (transformed order content)⟩
  | .transformed content =>
    some ⟨st.files.delete (outputFile parent inputFile),
      Function.update st.stage inputFile (.deleted content)⟩
  | .deleted content =>
    let (files, file) := st.files.openWriter (outputFile parent inputFile)
    some ⟨files, Function.update st.stage inputFile (.opened content file)⟩
  | .opened content file =>
    some ⟨st.files.write file content, Function.update st.stage inputFile .ended⟩
  | .ended => none
  | .failed _ => none

/-- The processors of the input files are submitted, and no others are there. -/
def start (files : Files Text Char) (inputs : List Text) : State :=
  ⟨files, fun f => if f ∈ inputs then .submitted else .ended⟩

def Stage.Ended : Stage → Prop
  | .ended => True
  | .failed _ => True
  | _ => False

/-! ## Files that do not meet -/

/-- How `FileReader` and `FileWriter` turn the units of a file into characters and back. -/
structure Charset (β : Type) where
  decode : List β → Text
  encode : Text → List β

/-- Files of characters. -/
def plain : Charset Char := ⟨id, id⟩

theorem plain_decode (content : Text) : plain.decode content = content := rfl

section

variable {β : Type}

/-- The reader and the writer give the text for the input file. -/
def Gives (order : Order) (charset : Charset β) (files : Files Text β) (inputFile text : Text) :
    Prop :=
  ∃ units, files.content inputFile = some units ∧
    process order (read (charset.decode units)) = .ok text

/-- No two input files that convert have one output file, and none of them
has an input file for its output file. -/
structure Independent (order : Order) (charset : Charset β) (parent : Text) (files : Files Text β)
    (inputs : List Text) : Prop where
  apart : ∀ f ∈ inputs, ∀ g ∈ inputs, f ≠ g → ∀ t u, Gives order charset files f t →
    Gives order charset files g u → outputFile parent f ≠ outputFile parent g
  outside : ∀ f ∈ inputs, ∀ g ∈ inputs, ∀ t, Gives order charset files f t →
    outputFile parent f ≠ g

section

variable {order : Order} {charset : Charset β} {parent : Text} {files : Files Text β}
  {inputs : List Text}

/-- Below the input folder it is enough that the output files differ. -/
theorem independent_of_inside (hinside : ∀ f ∈ inputs, inputPath parent <+: f)
    (hapart : ∀ f ∈ inputs, ∀ g ∈ inputs, f ≠ g → outputFile parent f ≠ outputFile parent g) :
    Independent order charset parent files inputs where
  apart := fun f hf g hg hne _ _ _ _ => hapart f hf g hg hne
  outside := fun f hf g hg _ _ => outputFile_ne_of_inside (hinside f hf) (hinside g hg)

end

end

/-- The same for files of characters. -/
abbrev Converts (order : Order) (files : Files Text Char) : Text → Text → Prop :=
  Gives order plain files

abbrev Separate (order : Order) (parent : Text) (files : Files Text Char) (inputs : List Text) :
    Prop :=
  Independent order plain parent files inputs

/-- What the stage of an input file says about its output file. -/
def StageHolds (order : Order) (parent : Text) (files : Files Text Char) (now : Files Text Char)
    (f : Text) : Stage → Prop
  | .submitted => True
  | .transformed text => Converts order files f text
  | .deleted text => Converts order files f text ∧ now.dir (outputFile parent f) = none
  | .opened text i => Converts order files f text ∧ now.dir (outputFile parent f) = some i ∧
      files.next ≤ i ∧ now.data i = []
  | .ended => ∃ text, Converts order files f text ∧
      now.content (outputFile parent f) = some text
  | .failed _ => ∀ text, ¬ Converts order files f text

/-- What every run keeps: the files of the start are as they were, names that
are no output are as they were, and a file made since has one name. -/
structure Inv (order : Order) (parent : Text) (files : Files Text Char) (inputs : List Text)
    (st : State) : Prop where
  next : files.next ≤ st.files.next
  data : ∀ i < files.next, st.files.data i = files.data i
  dir : ∀ p, (∀ f ∈ inputs, ∀ t, Converts order files f t → p ≠ outputFile parent f) →
    st.files.dir p = files.dir p
  single : ∀ p q i, files.next ≤ i → st.files.dir p = some i → st.files.dir q = some i → p = q
  stages : ∀ f ∈ inputs, StageHolds order parent files st.files f (st.stage f)
  others : ∀ f, f ∉ inputs → st.stage f = .ended

variable {order : Order} {parent : Text} {files : Files Text Char} {inputs : List Text}

theorem inv_start : Inv order parent files inputs (start files inputs) where
  next := Nat.le_refl _
  data := fun _ _ => rfl
  dir := fun _ _ => rfl
  single := by
    intro p q i hi hp _
    exact absurd (files.fresh p i hp) (Nat.not_lt_of_le hi)
  stages := by
    intro f hf
    simp only [start, if_pos hf]
    exact trivial
  others := by
    intro f hf
    simp only [start, if_neg hf]

/-- The input files stay as they were. -/
theorem Inv.content {st : State} (h : Inv order parent files inputs st)
    (hsep : Separate order parent files inputs) {f : Text} (hf : f ∈ inputs) :
    st.files.content f = files.content f := by
  have hdir := h.dir f fun g hg t ht he => hsep.outside g hg f hf t ht he.symm
  unfold Files.content
  rw [hdir]
  cases hi : files.dir f with
  | none => rfl
  | some i =>
    rw [Option.map_some, Option.map_some, h.data i (files.fresh f i hi)]

/-- The stage of an input file holds on as long as nothing touches its output file. -/
theorem StageHolds.frame {now now' : Files Text Char} {g : Text} {s : Stage}
    (h : StageHolds order parent files now g s)
    (hframe : ∀ t, Converts order files g t →
      now'.dir (outputFile parent g) = now.dir (outputFile parent g) ∧
      ∀ i, now.dir (outputFile parent g) = some i → now'.data i = now.data i) :
    StageHolds order parent files now' g s := by
  cases s with
  | submitted => exact trivial
  | transformed text => exact h
  | deleted text =>
    obtain ⟨hconverts, hdir⟩ := h
    exact ⟨hconverts, (hframe text hconverts).1.trans hdir⟩
  | opened text i =>
    obtain ⟨hconverts, hdir, hi, hdata⟩ := h
    obtain ⟨hd, hsame⟩ := hframe text hconverts
    exact ⟨hconverts, hd.trans hdir, hi, (hsame i hdir).trans hdata⟩
  | ended =>
    obtain ⟨text, hconverts, hcontent⟩ := h
    obtain ⟨i, hdir, hdata⟩ := Files.content_eq_some.mp hcontent
    obtain ⟨hd, hsame⟩ := hframe text hconverts
    exact ⟨text, hconverts,
      Files.content_eq_some.mpr ⟨i, hd.trans hdir, (hsame i hdir).trans hdata⟩⟩
  | failed thrown => exact h

/-- A step on `f` that touches only the output file of `f` keeps the stages. -/
theorem stages_step {st : State} (h : Inv order parent files inputs st)
    (hsep : Separate order parent files inputs) {f : Text} (hf : f ∈ inputs) {now : Files Text Char}
    {s : Stage} (hs : StageHolds order parent files now f s)
    (hframe : ∀ p, p ≠ outputFile parent f → now.dir p = st.files.dir p ∧
      ∀ i, st.files.dir p = some i → now.data i = st.files.data i)
    (hconverts : ∃ t, Converts order files f t) :
    ∀ g ∈ inputs, StageHolds order parent files now g (Function.update st.stage f s g) := by
  intro g hg
  by_cases hgf : g = f
  · rw [hgf, Function.update_self]
    exact hs
  · rw [Function.update_of_ne hgf]
    obtain ⟨t, ht⟩ := hconverts
    exact (h.stages g hg).frame fun u hu => hframe _ (hsep.apart g hg f hf hgf u t hu ht)

theorem others_step {st : State} (h : Inv order parent files inputs st) {f : Text} (hf : f ∈ inputs)
    {s : Stage} : ∀ g, g ∉ inputs → Function.update st.stage f s g = .ended := by
  intro g hg
  have hgf : g ≠ f := by
    rintro rfl
    exact hg hf
  rw [Function.update_of_ne hgf]
  exact h.others g hg

theorem inv_read (hsep : Separate order parent files inputs) {st : State}
    (h : Inv order parent files inputs st) {f : Text} (hf : f ∈ inputs) {content : Text}
    (hcontent : st.files.content f = some content) :
    Inv order parent files inputs
      ⟨st.files, Function.update st.stage f (transformed order content)⟩ := by
  rw [h.content hsep hf] at hcontent
  refine ⟨h.next, h.data, h.dir, h.single, ?_, others_step h hf⟩
  intro g hg
  by_cases hgf : g = f
  · subst hgf
    show StageHolds order parent files st.files g
      (Function.update st.stage g (transformed order content) g)
    rw [Function.update_self, transformed]
    cases hp : process order (read content) with
    | ok text => exact ⟨content, hcontent, hp⟩
    | error thrown =>
      rintro text ⟨content', hcontent', hp'⟩
      rw [hcontent, Option.some.injEq] at hcontent'
      rw [← hcontent', plain_decode, hp] at hp'
      cases hp'
  · show StageHolds order parent files st.files g
      (Function.update st.stage f (transformed order content) g)
    rw [Function.update_of_ne hgf]
    exact h.stages g hg

theorem inv_delete (hsep : Separate order parent files inputs) {st : State}
    (h : Inv order parent files inputs st) {f : Text} (hf : f ∈ inputs) {text : Text}
    (hs : st.stage f = .transformed text) :
    Inv order parent files inputs
      ⟨st.files.delete (outputFile parent f), Function.update st.stage f (.deleted text)⟩ := by
  have hconverts : Converts order files f text := by
    have hstage := h.stages f hf
    rwa [hs] at hstage
  refine ⟨h.next, h.data, ?_, ?_, ?_, others_step h hf⟩
  · intro p hp
    exact (Files.dir_delete_of_ne (hp f hf text hconverts)).trans (h.dir p hp)
  · intro p q i hi hp hq
    exact h.single p q i hi (Files.dir_delete_eq_some hp) (Files.dir_delete_eq_some hq)
  · exact stages_step h hsep hf ⟨hconverts, Files.dir_delete_self⟩
      (fun p hp => ⟨Files.dir_delete_of_ne hp, fun _ _ => rfl⟩) ⟨text, hconverts⟩

theorem inv_open (hsep : Separate order parent files inputs) {st : State}
    (h : Inv order parent files inputs st) {f : Text} (hf : f ∈ inputs) {text : Text}
    (hs : st.stage f = .deleted text) :
    Inv order parent files inputs ⟨(st.files.openWriter (outputFile parent f)).1,
      Function.update st.stage f
        (.opened text (st.files.openWriter (outputFile parent f)).2)⟩ := by
  obtain ⟨hconverts, hnone⟩ : Converts order files f text ∧
      st.files.dir (outputFile parent f) = none := by
    have hstage := h.stages f hf
    rwa [hs] at hstage
  have hnext := h.next
  rw [Files.openWriter_of_none hnone]
  refine ⟨Nat.le_succ_of_le hnext, ?_, ?_, ?_, ?_, others_step h hf⟩
  · intro i hi
    exact (Files.data_create_of_ne (by omega)).trans (h.data i hi)
  · intro p hp
    exact (Files.dir_create_of_ne (hp f hf text hconverts)).trans (h.dir p hp)
  · intro p q i hi hp hq
    rcases Files.dir_create_eq_some hp with ⟨hpf, hpi⟩ | ⟨hpi, hp⟩ <;>
      rcases Files.dir_create_eq_some hq with ⟨hqf, hqi⟩ | ⟨hqi, hq⟩
    · rw [hpf, hqf]
    · exact absurd hpi hqi
    · exact absurd hqi hpi
    · exact h.single p q i hi hp hq
  · refine stages_step h hsep hf ⟨hconverts, Files.dir_create_self, hnext, Files.data_create_self⟩
      (fun p hp => ⟨Files.dir_create_of_ne hp, fun i hi => ?_⟩) ⟨text, hconverts⟩
    have := st.files.fresh p i hi
    exact Files.data_create_of_ne (by omega)

theorem inv_write (hsep : Separate order parent files inputs) {st : State}
    (h : Inv order parent files inputs st) {f : Text} (hf : f ∈ inputs) {text : Text} {i : Nat}
    (hs : st.stage f = .opened text i) :
    Inv order parent files inputs
      ⟨st.files.write i text, Function.update st.stage f .ended⟩ := by
  obtain ⟨hconverts, hdir, hi, hempty⟩ : Converts order files f text ∧
      st.files.dir (outputFile parent f) = some i ∧ files.next ≤ i ∧ st.files.data i = [] := by
    have hstage := h.stages f hf
    rwa [hs] at hstage
  refine ⟨h.next, ?_, h.dir, h.single, ?_, others_step h hf⟩
  · intro j hj
    exact (Files.data_write_of_ne (by omega)).trans (h.data j hj)
  · refine stages_step h hsep hf
      ⟨text, hconverts, Files.content_eq_some.mpr ⟨i, hdir, Files.data_write_self hempty⟩⟩
      (fun p hp => ⟨rfl, fun j hj => ?_⟩) ⟨text, hconverts⟩
    -- Another name for the file would be the output file itself.
    refine Files.data_write_of_ne ?_
    rintro rfl
    exact hp (h.single p _ j hi hj hdir)

/-- Every step of every processor keeps the invariant. -/
theorem inv_step (hsep : Separate order parent files inputs) (st : State) (f : Text) (st' : State)
    (h : Inv order parent files inputs st) (hstep : step order parent st f = some st') :
    Inv order parent files inputs st' := by
  have hf : f ∈ inputs := by
    by_contra hno
    rw [step, h.others f hno] at hstep
    cases hstep
  unfold step at hstep
  cases hs : st.stage f with
  | submitted =>
    rw [hs] at hstep
    obtain ⟨content, hcontent, rfl⟩ := Option.map_eq_some_iff.mp hstep
    exact inv_read hsep h hf hcontent
  | transformed text =>
    rw [hs] at hstep
    cases hstep
    exact inv_delete hsep h hf hs
  | deleted text =>
    rw [hs] at hstep
    cases hstep
    exact inv_open hsep h hf hs
  | opened text i =>
    rw [hs] at hstep
    cases hstep
    exact inv_write hsep h hf hs
  | ended =>
    rw [hs] at hstep
    cases hstep
  | failed thrown =>
    rw [hs] at hstep
    cases hstep

/-! ## Whole runs -/

/-- Whatever the order of the steps, when all processors have ended each input
file is as it was, and each that converts has its text in an output file of
its own. -/
theorem a_batch_converts_each_file_on_its_own (hsep : Separate order parent files inputs)
    {schedule : List Text} {st : State}
    (hrun : exec (step order parent) (start files inputs) schedule = some st)
    (hended : ∀ f ∈ inputs, (st.stage f).Ended) :
    ∀ f ∈ inputs, st.files.content f = files.content f ∧
      ∀ text, Converts order files f text →
        st.files.content (outputFile parent f) = some text ∧
        ∀ g ∈ inputs, outputFile parent f ≠ g ∧
          ∀ t, Converts order files g t → g ≠ f → outputFile parent g ≠ outputFile parent f := by
  have hinv : Inv order parent files inputs st :=
    exec_induction (inv_step hsep) inv_start hrun
  intro f hf
  refine ⟨hinv.content hsep hf, fun text htext => ⟨?_, fun g hg =>
    ⟨hsep.outside f hf g hg text htext, fun t ht hgf => hsep.apart g hg f hf hgf t text ht htext⟩⟩⟩
  have hstage := hinv.stages f hf
  have hend := hended f hf
  cases hs : st.stage f with
  | ended =>
    rw [hs] at hstage
    obtain ⟨u, ⟨content, hcontent, hu⟩, hout⟩ := hstage
    obtain ⟨content', hcontent', ht⟩ := htext
    rw [hcontent, Option.some.injEq] at hcontent'
    rw [← hcontent', hu, Except.ok.injEq] at ht
    rw [← ht]
    exact hout
  | failed thrown =>
    rw [hs] at hstage
    exact absurd htext (hstage text)
  | submitted => rw [hs] at hend; exact hend.elim
  | transformed content => rw [hs] at hend; exact hend.elim
  | deleted content => rw [hs] at hend; exact hend.elim
  | opened content file => rw [hs] at hend; exact hend.elim

/-- The steps that a processor has before it at most. -/
def Stage.left : Stage → Nat
  | .submitted => 4
  | .transformed _ => 3
  | .deleted _ => 2
  | .opened _ _ => 1
  | .ended => 0
  | .failed _ => 0

/-- No processor waits for another one. -/
theorem exists_step (hsep : Separate order parent files inputs) {st : State}
    (h : Inv order parent files inputs st) {f : Text} (hf : f ∈ inputs)
    (hfile : (files.content f).isSome) (hgoing : ¬ (st.stage f).Ended) :
    ∃ st', step order parent st f = some st' ∧ (st'.stage f).left < (st.stage f).left ∧
      ∀ g, g ≠ f → st'.stage g = st.stage g := by
  unfold step
  cases hs : st.stage f with
  | submitted =>
    obtain ⟨content, hcontent⟩ := Option.isSome_iff_exists.mp hfile
    rw [← h.content hsep hf] at hcontent
    simp only [hcontent, Option.map_some]
    refine ⟨_, rfl, ?_, fun g hg => Function.update_of_ne hg ..⟩
    simp only [Function.update_self, transformed]
    cases process order (read content) <;> simp [Stage.left]
  | transformed text =>
    refine ⟨_, rfl, ?_, fun g hg => Function.update_of_ne hg ..⟩
    simp only [Function.update_self, Stage.left]
    decide
  | deleted text =>
    refine ⟨_, rfl, ?_, fun g hg => Function.update_of_ne hg ..⟩
    simp only [Function.update_self, Stage.left]
    decide
  | opened text i =>
    refine ⟨_, rfl, ?_, fun g hg => Function.update_of_ne hg ..⟩
    simp only [Function.update_self, Stage.left]
    decide
  | ended =>
    rw [hs] at hgoing
    exact absurd trivial hgoing
  | failed thrown =>
    rw [hs] at hgoing
    exact absurd trivial hgoing

theorem exists_end (hsep : Separate order parent files inputs)
    (hfiles : ∀ f ∈ inputs, (files.content f).isSome) {st : State}
    (h : Inv order parent files inputs st) :
    ∃ schedule st', exec (step order parent) st schedule = some st' ∧
      ∀ f ∈ inputs, (st'.stage f).Ended := by
  -- The steps that are left to all processors are the measure.
  induction hn : (inputs.map fun f => (st.stage f).left).sum using Nat.strong_induction_on
    generalizing st with
  | _ n ih =>
    by_cases hended : ∀ f ∈ inputs, (st.stage f).Ended
    · exact ⟨[], st, rfl, hended⟩
    · push Not at hended
      obtain ⟨f, hf, hgoing⟩ := hended
      obtain ⟨st₁, hstep, hless, hsame⟩ := exists_step hsep h hf (hfiles f hf) hgoing
      have hsum : (inputs.map fun g => (st₁.stage g).left).sum < n := by
        rw [← hn]
        refine List.sum_lt_sum _ _ (fun g _ => ?_) ⟨f, hf, hless⟩
        by_cases hg : g = f
        · rw [hg]
          exact Nat.le_of_lt hless
        · rw [hsame g hg]
      obtain ⟨schedule, st', hexec, hend⟩ := ih _ hsum (inv_step hsep st f st₁ h hstep) rfl
      refine ⟨f :: schedule, st', ?_, hend⟩
      rw [exec, List.foldlM_cons, hstep]
      exact hexec

/-- Every run goes on to one in which all processors have ended. -/
theorem every_run_can_end (hsep : Separate order parent files inputs)
    (hfiles : ∀ f ∈ inputs, (files.content f).isSome) {schedule : List Text} {st : State}
    (hrun : exec (step order parent) (start files inputs) schedule = some st) :
    ∃ more st', exec (step order parent) (start files inputs) (schedule ++ more) = some st' ∧
      ∀ f ∈ inputs, (st'.stage f).Ended := by
  have hinv : Inv order parent files inputs st :=
    exec_induction (inv_step hsep) inv_start hrun
  obtain ⟨more, st', hexec, hended⟩ := exists_end hsep hfiles hinv
  refine ⟨more, st', ?_, hended⟩
  rw [exec_append, hrun]
  exact hexec

/-- A file system with a file at each of two paths. -/
def twoFiles (a b first second : Text) : Files Text Char where
  dir p := if p = a then some 0 else if p = b then some 1 else none
  data i := if i = 0 then first else second
  next := 2
  fresh := by
    intro p i h
    split at h
    · cases h
      decide
    · split at h
      · cases h
        decide
      · cases h

def parentFolder : Text := "/w".toList
def aCnf : Text := "/w/InstanciasSAT/a.cnf".toList
def bCnf : Text := "/w/InstanciasSAT/b.cnf".toList
def aMzn : Text := "/w/InstanciasSAT/a.mzn".toList
def positive : Text := "p cnf 1 1\n1 0\n".toList
def negative : Text := "p cnf 1 1\n-1 0\n".toList

theorem separate_two (files : Files Text Char) :
    Separate .insertion parentFolder files [aCnf, bCnf] := by
  apply independent_of_inside
  · decide +kernel
  · decide +kernel

/-- Two files, with their steps mixed. -/
theorem two_files_in_mixed_order :
    ∃ st, exec (step .insertion parentFolder)
        (start (twoFiles aCnf bCnf positive negative) [aCnf, bCnf])
        [aCnf, bCnf, bCnf, aCnf, aCnf, bCnf, bCnf, aCnf] = some st ∧
      ∀ f ∈ [aCnf, bCnf],
        st.files.content f = (twoFiles aCnf bCnf positive negative).content f ∧
        ∀ text, Converts .insertion (twoFiles aCnf bCnf positive negative) f text →
          st.files.content (outputFile parentFolder f) = some text ∧
          ∀ g ∈ [aCnf, bCnf], outputFile parentFolder f ≠ g ∧ ∀ t,
            Converts .insertion (twoFiles aCnf bCnf positive negative) g t → g ≠ f →
              outputFile parentFolder g ≠ outputFile parentFolder f := by
  have hended : ((exec (step .insertion parentFolder)
      (start (twoFiles aCnf bCnf positive negative) [aCnf, bCnf])
      [aCnf, bCnf, bCnf, aCnf, aCnf, bCnf, bCnf, aCnf]).map fun st =>
        decide (st.stage aCnf = .ended) && decide (st.stage bCnf = .ended)) = some true := by
    decide +kernel
  obtain ⟨st, hst, hstages⟩ := Option.map_eq_some_iff.mp hended
  simp only [Bool.and_eq_true, decide_eq_true_eq] at hstages
  refine ⟨st, hst, a_batch_converts_each_file_on_its_own (separate_two _) hst ?_⟩
  intro f hf
  simp only [List.mem_cons, List.not_mem_nil, or_false] at hf
  rcases hf with rfl | rfl
  · rw [hstages.1]
    exact trivial
  · rw [hstages.2]
    exact trivial

/-- The inputs `a.cnf` and `a.mzn` share an output file: the one that is
written first is lost. -/
theorem two_files_share_an_output_file :
    ∃ st text, exec (step .insertion parentFolder)
        (start (twoFiles aCnf aMzn positive negative) [aCnf, aMzn])
        [aCnf, aCnf, aCnf, aCnf, aMzn, aMzn, aMzn, aMzn] = some st ∧
      (∀ f ∈ [aCnf, aMzn], (st.stage f).Ended) ∧
      Converts .insertion (twoFiles aCnf aMzn positive negative) aCnf text ∧
      st.files.content (outputFile parentFolder aCnf) ≠ some text := by
  obtain ⟨text, htext⟩ : ∃ text, process .insertion (read positive) = .ok text :=
    ⟨modelText .insertion ⟨[], none, 1, 1, [⟨[1, 0]⟩]⟩, by decide +kernel⟩
  have hrun : ((exec (step .insertion parentFolder)
      (start (twoFiles aCnf aMzn positive negative) [aCnf, aMzn])
      [aCnf, aCnf, aCnf, aCnf, aMzn, aMzn, aMzn, aMzn]).map fun st =>
        decide (st.stage aCnf = .ended) && decide (st.stage aMzn = .ended) &&
        decide (st.files.content (outputFile parentFolder aCnf) =
          (process .insertion (read negative)).toOption) &&
        decide (process .insertion (read negative) ≠
          process .insertion (read positive))) = some true := by
    decide +kernel
  obtain ⟨st, hst, hstages⟩ := Option.map_eq_some_iff.mp hrun
  simp only [Bool.and_eq_true, decide_eq_true_eq] at hstages
  obtain ⟨⟨⟨ha, hb⟩, hcontent⟩, hne⟩ := hstages
  refine ⟨st, text, hst, ?_, ⟨positive, by decide +kernel, htext⟩, ?_⟩
  · intro f hf
    simp only [List.mem_cons, List.not_mem_nil, or_false] at hf
    rcases hf with rfl | rfl
    · rw [ha]
      exact trivial
    · rw [hb]
      exact trivial
  · intro hsame
    rw [hcontent] at hsame
    apply hne
    rw [htext]
    cases hp : process .insertion (read negative) with
    | ok other =>
      rw [hp] at hsame
      cases hsame
      rfl
    | error thrown =>
      rw [hp] at hsame
      cases hsame

end reductor.application
