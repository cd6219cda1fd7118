-- The application started again and again: whatever has failed before, and
-- wherever it was stopped, a run in which nothing fails leaves what one run
-- alone leaves.
import Reductor.Endings

open reductor.java reductor.dimacs reductor.transformer reductor.files

namespace reductor.application

variable {β : Type}

/-! ## Runs in which no call fails -/

/-- Every task has ended, and none of them by a call that failed. -/
def App.Clean (inputs : List Text) (st : App β) : Prop :=
  ∀ f ∈ inputs, st.task f = .completed ∨ ∃ failure, st.task f = .failed none failure

section

variable {order : Order} {charset : Charset β} {parent : Text} {files mid : Files Text β}
  {inputs : List Text} {st st' : App β} {f text : Text}

/-- A file that converts has its text then. -/
theorem AppInv.content_of_clean (h : AppInv order charset parent files inputs st)
    (hind : Independent order charset parent files inputs) (hclean : st.Clean inputs)
    (hf : f ∈ inputs) (hgives : Gives order charset files f text) :
    st.files.content (outputFile parent f) = some (charset.encode text) := by
  have hholds := h.asAlone hf
  have halone : outcome (DimacsProcessor.run order charset none f (outputFile parent f)) files =
      (.ok (), (files.delete (outputFile parent f)).put (outputFile parent f)
        (charset.encode text)) :=
    (run_of_gives hgives (by decide)).trans (serialize_complete text)
  rcases hclean f hf with hs | ⟨failure, hs⟩
  · rw [hs] at hholds
    obtain ⟨alone, hrun, hout⟩ := hholds
    rw [hrun] at halone
    cases halone
    rw [hout (hind.ownOutput hf hgives), Files.content_put_self]
  · rw [hs] at hholds
    obtain ⟨alone, hrun, -⟩ := hholds
    rw [hrun] at halone
    cases halone

/-! ## What a run that is stopped leaves -/

/-- The names that are no output of an input that converts stand for what they stood for. -/
def Kept (order : Order) (charset : Charset β) (parent : Text) (inputs : List Text)
    (files now : Files Text β) : Prop :=
  ∀ p, (∀ f ∈ inputs, ∀ text, Gives order charset files f text → p ≠ outputFile parent f) →
    now.content p = files.content p

/-- The walk gives these files, in some order. -/
def Walk.Gives (walk : Walk) (inputs : List Text) : Prop := ∀ f, f ∈ walk.inputs ↔ f ∈ inputs

/-- The application started any number of times on the same input files, and
each time stopped at any point of a run in which anything may have failed. -/
inductive Restarts [Inhabited β] (order : Order) (charset : Charset β) (parent : Text)
    (inputs : List Text) (files : Files Text β) : Files Text β → Prop
  | never : Restarts order charset parent inputs files files
  | again {mid : Files Text β} {walk : Walk} {schedule : List Action} {st : App β} :
      Restarts order charset parent inputs files mid → walk.Gives inputs →
      exec (App.step order charset parent) (App.start mid walk) schedule = some st →
      Restarts order charset parent inputs files st.files

theorem Kept.content (h : Kept order charset parent inputs files mid)
    (hind : Independent order charset parent files inputs) (hf : f ∈ inputs) :
    mid.content f = files.content f :=
  h f fun g hg t ht he => hind.outside g hg f hf t ht he.symm

/-- The input files convert to what they did. -/
theorem Kept.gives_iff (h : Kept order charset parent inputs files mid)
    (hind : Independent order charset parent files inputs) (hf : f ∈ inputs) :
    Gives order charset mid f text ↔ Gives order charset files f text := by
  unfold Gives
  rw [h.content hind hf]

theorem Kept.independent (h : Kept order charset parent inputs files mid)
    (hind : Independent order charset parent files inputs) :
    Independent order charset parent mid inputs where
  apart := fun f hf g hg hne t u ht hu =>
    hind.apart f hf g hg hne t u ((h.gives_iff hind hf).mp ht) ((h.gives_iff hind hg).mp hu)
  outside := fun f hf g hg t ht => hind.outside f hf g hg t ((h.gives_iff hind hf).mp ht)

theorem Kept.trans (h : Kept order charset parent inputs files mid) {now : Files Text β}
    (hind : Independent order charset parent files inputs)
    (h' : Kept order charset parent inputs mid now) :
    Kept order charset parent inputs files now := by
  intro p hp
  refine (h' p fun f hf t ht => ?_).trans (h p hp)
  exact hp f hf t ((h.gives_iff hind hf).mp ht)

theorem Independent.of_walk {walk : Walk} (hind : Independent order charset parent files inputs)
    (hwalk : walk.Gives inputs) : Independent order charset parent files walk.inputs where
  apart := fun f hf g hg => hind.apart f ((hwalk f).mp hf) g ((hwalk g).mp hg)
  outside := fun f hf g hg => hind.outside f ((hwalk f).mp hf) g ((hwalk g).mp hg)

variable [Inhabited β]

theorem kept_of_run {walk : Walk} (hind : Independent order charset parent files inputs)
    (hwalk : walk.Gives inputs) {schedule : List Action}
    (hrun : exec (App.step order charset parent) (App.start files walk) schedule = some st) :
    Kept order charset parent inputs files st.files := by
  obtain ⟨hinv, -⟩ := inv_app_run (hind.of_walk hwalk) hrun
  intro p hp
  exact hinv.content_of_dir (hinv.dir p fun f hf => hp f ((hwalk f).mp hf))

/-- However often the application has been stopped, its inputs are as they were. -/
theorem Restarts.kept (hind : Independent order charset parent files inputs)
    (h : Restarts order charset parent inputs files mid) :
    Kept order charset parent inputs files mid := by
  induction h with
  | never => exact fun _ _ => rfl
  | again _ hwalk hrun ih => exact ih.trans hind (kept_of_run (ih.independent hind) hwalk hrun)

theorem content_of_clean_run {walk : Walk} (hind : Independent order charset parent files inputs)
    (hwalk : walk.Gives inputs) {schedule : List Action}
    (hrun : exec (App.step order charset parent) (App.start files walk) schedule = some st)
    (hclean : st.Clean inputs) (hf : f ∈ inputs) (hgives : Gives order charset files f text) :
    st.files.content (outputFile parent f) = some (charset.encode text) := by
  obtain ⟨hinv, -⟩ := inv_app_run (hind.of_walk hwalk) hrun
  exact hinv.content_of_clean (hind.of_walk hwalk) (fun g hg => hclean g ((hwalk g).mp hg))
    ((hwalk f).mpr hf) hgives

/-- After any number of runs, each stopped anywhere and with any failures, a
run in which nothing fails leaves at every path what one such run on the files
of the start leaves, whatever the order of the steps of either. -/
theorem a_clean_run_repairs_the_runs_before (hind : Independent order charset parent files inputs)
    (hbefore : Restarts order charset parent inputs files mid) {walk walk' : Walk}
    (hwalk : walk.Gives inputs) (hwalk' : walk'.Gives inputs) {schedule schedule' : List Action}
    (hrun : exec (App.step order charset parent) (App.start mid walk) schedule = some st)
    (hclean : st.Clean inputs)
    (honce : exec (App.step order charset parent) (App.start files walk') schedule' = some st')
    (hclean' : st'.Clean inputs) (p : Text) :
    st.files.content p = st'.files.content p := by
  have hkept := hbefore.kept hind
  by_cases hp : ∀ f ∈ inputs, ∀ text, Gives order charset files f text → p ≠ outputFile parent f
  · have hmid := kept_of_run (hkept.independent hind) hwalk hrun
    rw [hkept.trans hind hmid p hp, kept_of_run hind hwalk' honce p hp]
  · push Not at hp
    obtain ⟨f, hf, text, hgives, rfl⟩ := hp
    have hgives' := (hkept.gives_iff hind hf).mpr hgives
    rw [content_of_clean_run (hkept.independent hind) hwalk hrun hclean hf hgives',
      content_of_clean_run hind hwalk' honce hclean' hf hgives]

end

/-- One task after the other. -/
def oneByOne (first second : Text) : List Action :=
  [.visit, .visit, .visit, .shutdown, .advance first, .advance first, .advance first,
    .advance first, .advance second, .advance second, .advance second, .advance second, .terminate]

def BothCompleted (st : App Char) : Bool :=
  decide (st.task aCnf = .completed) && decide (st.task bCnf = .completed)

theorem clean_of_both {st : App Char} (h : BothCompleted st) : st.Clean twoWalk.inputs := by
  simp only [BothCompleted, Bool.and_eq_true, decide_eq_true_eq] at h
  intro f hf
  have hmem : f ∈ [aCnf, bCnf] := hf
  simp only [List.mem_cons, List.not_mem_nil, or_false] at hmem
  rcases hmem with rfl | rfl
  · exact .inl h.1
  · exact .inl h.2

/-- The run that left a part of an output file is repaired by the next one. -/
theorem the_mixed_run_is_repaired :
    ∃ mid st once, exec (App.step .insertion plain parentFolder)
        (App.start (twoFiles aCnf bCnf positive negative) twoWalk) mixedRun = some mid ∧
      exec (App.step .insertion plain parentFolder) (App.start mid.files twoWalk)
        (oneByOne bCnf aCnf) = some st ∧
      exec (App.step .insertion plain parentFolder)
        (App.start (twoFiles aCnf bCnf positive negative) twoWalk)
        (oneByOne aCnf bCnf) = some once ∧
      ∀ p, st.files.content p = once.files.content p := by
  have hmid : (exec (App.step .insertion plain parentFolder)
      (App.start (twoFiles aCnf bCnf positive negative) twoWalk) mixedRun).any (fun mid =>
        (exec (App.step .insertion plain parentFolder) (App.start mid.files twoWalk)
          (oneByOne bCnf aCnf)).any BothCompleted) := by decide +kernel
  have honce : (exec (App.step .insertion plain parentFolder)
      (App.start (twoFiles aCnf bCnf positive negative) twoWalk)
      (oneByOne aCnf bCnf)).any BothCompleted := by decide +kernel
  obtain ⟨mid, hmid, hagain⟩ := (Option.any_eq_true ..).mp hmid
  obtain ⟨st, hst, hboth⟩ := (Option.any_eq_true ..).mp hagain
  obtain ⟨once, honce, hboth'⟩ := (Option.any_eq_true ..).mp honce
  have hwalk : twoWalk.Gives twoWalk.inputs := fun _ => Iff.rfl
  exact ⟨mid, st, once, hmid, hst, honce, a_clean_run_repairs_the_runs_before (independent_two _)
    (.again .never hwalk hmid) hwalk hwalk hst (clean_of_both hboth) honce
    (clean_of_both hboth')⟩

end reductor.application
