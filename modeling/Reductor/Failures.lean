-- One run of `DimacsProcessor.run` on a file system that may fail it: what
-- the run throws, and what it leaves behind.
import Reductor.Batch

open reductor.java reductor.dimacs reductor.transformer reductor.files

namespace reductor.application

/-! ## Runs that fail -/

/-- The point at which the file system fails a run. A write or a close that
fails has brought so many units of the content to the file. -/
inductive Fault
  | reading | deleting | opening
  | writing (flushed : Nat)
  | closing (flushed : Nat)
  deriving DecidableEq, Repr

/-- What a run throws: an exception of the library on the data, or a
`DimacsException` with its message in place of an `IOException`. -/
inductive Failure
  | library (thrown : Thrown)
  | dimacsException (message : Text)
  deriving DecidableEq, Repr

/-- A computation on the files. What it has done to them stays when it throws. -/
abbrev Run (β : Type) := ExceptT Failure (StateM (Files Text β))

variable {β : Type}

/-- The result of a computation, and the files that it leaves. -/
def outcome {α : Type} (x : Run β α) (files : Files Text β) : Except Failure α × Files Text β :=
  x.run files

/-- What the pure code throws goes through. -/
def lifted {α : Type} : Except Thrown α → Run β α
  | .ok a => pure a
  | .error thrown => throw (.library thrown)

def message (verb fileName : Text) : Text :=
  "No se ha logrado ".toList ++ verb ++ " el archivo [".toList ++ fileName ++ "]".toList

/-! ## The source -/

/-- `FileUtils.read` -/
def FileUtils.read (charset : Charset β) (fault : Option Fault) (fileName : Text) :
    Run β (List Line) := do
  match (← get).content fileName with
  | some units =>
    if fault = some .reading then throw (.dimacsException (message "leer".toList fileName))
    return reductor.dimacs.read (charset.decode units)
  | none => throw (.dimacsException (message "leer".toList fileName))

/-- `FileUtils.deleteIfExists` -/
def FileUtils.deleteIfExists (fault : Option Fault) (fileName : Text) : Run β Unit := do
  if fault = some .deleting then throw (.dimacsException (message "eliminar".toList fileName))
  modify (·.delete fileName)

/-- `FileUtils.write`: a writer opened, appended to and closed. -/
def FileUtils.write (charset : Charset β) (fault : Option Fault) (fileName content : Text) :
    Run β Unit := do
  if fault = some .opening then throw (.dimacsException (message "escribir".toList fileName))
  let (files, file) := (← get).openWriter fileName
  set files
  match fault with
  | some (.writing flushed) | some (.closing flushed) =>
    modify (·.write file ((charset.encode content).take flushed))
    throw (.dimacsException (message "escribir".toList fileName))
  | _ => modify (·.write file (charset.encode content))

/-- `DimacsTransformer.deserialize`, with the file that it reads. -/
def DimacsTransformer.deserialize (charset : Charset β) (fault : Option Fault) (fileName : Text) :
    Run β DimacsDto := do
  let content ← FileUtils.read charset fault fileName
  lifted (reductor.dimacs.deserialize content)

/-- `DimacsTransformer.serialize` -/
def DimacsTransformer.serialize (charset : Charset β) (fault : Option Fault)
    (fileName content : Text) : Run β Unit := do
  FileUtils.deleteIfExists fault fileName
  FileUtils.write charset fault fileName content

/-- `DimacsProcessor.run` -/
def DimacsProcessor.run (order : Order) (charset : Charset β) (fault : Option Fault)
    (inputFile outputFile : Text) : Run β Unit := do
  let dimacs ← DimacsTransformer.deserialize charset fault inputFile
  let content ← lifted (transformDimacs order dimacs)
  DimacsTransformer.serialize charset fault outputFile content

/-! ## Runs step by step -/

theorem outcome_bind_ok {α γ : Type} {x : Run β α} {f : α → Run β γ} {a : α}
    {files now : Files Text β} (h : outcome x files = (.ok a, now)) :
    outcome (x >>= f) files = outcome (f a) now := by
  unfold outcome at h ⊢
  rw [ExceptT.run_bind]
  show StateT.bind x.run _ files = _
  unfold StateT.bind
  rw [h]
  rfl

theorem outcome_bind_error {α γ : Type} {x : Run β α} {f : α → Run β γ} {e : Failure}
    {files now : Files Text β} (h : outcome x files = (.error e, now)) :
    outcome (x >>= f) files = (.error e, now) := by
  unfold outcome at h ⊢
  rw [ExceptT.run_bind]
  show StateT.bind x.run _ files = _
  unfold StateT.bind
  rw [h]
  rfl

theorem outcome_get_bind {γ : Type} (f : Files Text β → Run β γ) (files : Files Text β) :
    outcome (get >>= f) files = outcome (f files) files :=
  outcome_bind_ok rfl

theorem outcome_lifted_ok {α : Type} {x : Except Thrown α} {a : α} (h : x = .ok a)
    (files : Files Text β) : outcome (lifted x) files = (.ok a, files) := by
  rw [h]
  rfl

theorem outcome_lifted_error {α : Type} {x : Except Thrown α} {thrown : Thrown}
    (h : x = .error thrown) (files : Files Text β) :
    outcome (lifted x) files = (.error (.library thrown), files) := by
  rw [h]
  rfl

variable {charset : Charset β} {fault : Option Fault} {fileName : Text} {files : Files Text β}

theorem read_ok {units : List β} (hunits : files.content fileName = some units)
    (hfault : fault ≠ some .reading) :
    outcome (FileUtils.read charset fault fileName) files =
      (.ok (reductor.dimacs.read (charset.decode units)), files) := by
  rw [FileUtils.read, outcome_get_bind, hunits]
  dsimp only
  rw [if_neg hfault]
  rfl

theorem read_error (h : files.content fileName = none ∨ fault = some .reading) :
    outcome (FileUtils.read charset fault fileName) files =
      (.error (.dimacsException (message "leer".toList fileName)), files) := by
  rw [FileUtils.read, outcome_get_bind]
  cases hunits : files.content fileName with
  | none => rfl
  | some units =>
    rcases h with h | h
    · rw [hunits] at h
      cases h
    · rw [h]
      rfl

theorem outcome_deserialize {units : List β} (hunits : files.content fileName = some units)
    (hfault : fault ≠ some .reading) :
    outcome (DimacsTransformer.deserialize charset fault fileName) files =
      outcome (lifted (deserialize (reductor.dimacs.read (charset.decode units)))) files :=
  outcome_bind_ok (read_ok hunits hfault)

theorem deleteIfExists_ok (h : fault ≠ some .deleting) :
    outcome (FileUtils.deleteIfExists fault fileName) files = (.ok (), files.delete fileName) := by
  rw [FileUtils.deleteIfExists, if_neg h]
  rfl

theorem deleteIfExists_error :
    outcome (FileUtils.deleteIfExists (some .deleting) fileName) files =
      (.error (.dimacsException (message "eliminar".toList fileName)), files) := rfl

/-- The writer is opened on a name that no file has. -/
theorem openWriter_delete (files : Files Text β) (fileName : Text) :
    (files.delete fileName).openWriter fileName =
      ((files.delete fileName).create fileName, (files.delete fileName).next) :=
  Files.openWriter_of_none Files.dir_delete_self

/-! ## What a run writes -/

/-- How much of the content has reached the file when a writer fails. -/
def Fault.flushed? : Fault → Option Nat
  | .writing flushed => some flushed
  | .closing flushed => some flushed
  | _ => none

theorem serialize_deleting (content : Text) :
    outcome (DimacsTransformer.serialize charset (some .deleting) fileName content) files =
      (.error (.dimacsException (message "eliminar".toList fileName)), files) :=
  outcome_bind_error deleteIfExists_error

/-- The old file is gone before the new one is opened. -/
theorem serialize_opening (content : Text) :
    outcome (DimacsTransformer.serialize charset (some .opening) fileName content) files =
      (.error (.dimacsException (message "escribir".toList fileName)), files.delete fileName) := by
  have hfault : some Fault.opening ≠ some .deleting := by decide
  rw [DimacsTransformer.serialize, outcome_bind_ok (deleteIfExists_ok hfault)]
  rfl

theorem serialize_flushed {fault : Fault} {flushed : Nat} (h : fault.flushed? = some flushed)
    (content : Text) :
    outcome (DimacsTransformer.serialize charset (some fault) fileName content) files =
      (.error (.dimacsException (message "escribir".toList fileName)),
        (files.delete fileName).put fileName ((charset.encode content).take flushed)) := by
  have hdeleting : some fault ≠ some .deleting := by
    intro he
    cases he
    cases h
  have hopening : some fault ≠ some .opening := by
    intro he
    cases he
    cases h
  rw [DimacsTransformer.serialize, outcome_bind_ok (deleteIfExists_ok hdeleting), FileUtils.write,
    if_neg hopening]
  show outcome (get >>= _) _ = _
  rw [outcome_get_bind, openWriter_delete]
  cases fault with
  | writing flushed =>
    cases h
    rfl
  | closing flushed =>
    cases h
    rfl
  | reading => cases h
  | deleting => cases h
  | opening => cases h

theorem serialize_complete (content : Text) :
    outcome (DimacsTransformer.serialize charset none fileName content) files =
      (.ok (), (files.delete fileName).put fileName (charset.encode content)) := by
  have hdeleting : none ≠ some Fault.deleting := by decide
  have hopening : none ≠ some Fault.opening := by decide
  rw [DimacsTransformer.serialize, outcome_bind_ok (deleteIfExists_ok hdeleting), FileUtils.write,
    if_neg hopening]
  show outcome (get >>= _) _ = _
  rw [outcome_get_bind, openWriter_delete]
  rfl

/-! ## What a run leaves -/

section

variable {order : Order} {inputFile outputFile text : Text}

theorem process_ok_iff {lines : List Line} : process order lines = .ok text ↔
    ∃ dimacs, deserialize lines = .ok dimacs ∧ transformDimacs order dimacs = .ok text := by
  unfold process
  cases deserialize lines with
  | error thrown =>
    constructor
    · intro h
      cases h
    · rintro ⟨dimacs, h, -⟩
      cases h
  | ok dimacs =>
    constructor
    · intro h
      exact ⟨dimacs, rfl, h⟩
    · rintro ⟨dimacs', h, htext⟩
      cases h
      exact htext

/-- With the text at hand, a run is its last part. -/
theorem run_of_gives (h : Gives order charset files inputFile text)
    (hfault : fault ≠ some .reading) :
    outcome (DimacsProcessor.run order charset fault inputFile outputFile) files =
      outcome (DimacsTransformer.serialize charset fault outputFile text) files := by
  obtain ⟨units, hunits, hprocess⟩ := h
  obtain ⟨dimacs, hdimacs, htext⟩ := process_ok_iff.mp hprocess
  have hdeserialize : outcome (DimacsTransformer.deserialize charset fault inputFile) files =
      (.ok dimacs, files) := by
    rw [outcome_deserialize hunits hfault, outcome_lifted_ok hdimacs]
  rw [DimacsProcessor.run, outcome_bind_ok hdeserialize,
    outcome_bind_ok (outcome_lifted_ok htext files)]

/-- A run that does not get to a text changes nothing. -/
theorem run_of_not_gives (outputFile : Text)
    (h : (∀ text, ¬ Gives order charset files inputFile text) ∨ fault = some .reading) :
    ∃ failure, outcome (DimacsProcessor.run order charset fault inputFile outputFile) files =
      (.error failure, files) := by
  by_cases hread : files.content inputFile = none ∨ fault = some .reading
  · exact ⟨_, outcome_bind_error (outcome_bind_error (read_error hread))⟩
  · obtain ⟨hcontent, hfault⟩ := not_or.mp hread
    obtain ⟨units, hunits⟩ := Option.ne_none_iff_exists'.mp hcontent
    have hno := h.resolve_right hfault
    cases hd : deserialize (reductor.dimacs.read (charset.decode units)) with
    | error thrown =>
      refine ⟨.library thrown, outcome_bind_error ?_⟩
      rw [outcome_deserialize hunits hfault, outcome_lifted_error hd]
    | ok dimacs =>
      have hdeserialize : outcome (DimacsTransformer.deserialize charset fault inputFile) files =
          (.ok dimacs, files) := by
        rw [outcome_deserialize hunits hfault, outcome_lifted_ok hd]
      cases ht : transformDimacs order dimacs with
      | error thrown =>
        refine ⟨.library thrown, ?_⟩
        rw [DimacsProcessor.run, outcome_bind_ok hdeserialize,
          outcome_bind_error (outcome_lifted_error ht files)]
      | ok text =>
        exact absurd ⟨units, hunits, process_ok_iff.mpr ⟨dimacs, hd, ht⟩⟩ (hno text)

/-- Every file but one is as it was. -/
def SameElsewhere (outputFile : Text) (files now : Files Text β) : Prop :=
  ∀ p, p ≠ outputFile → now.content p = files.content p

/-- How a run ends and what it leaves, by the point at which it fails. -/
inductive Ends (order : Order) (charset : Charset β) (inputFile outputFile : Text)
    (files : Files Text β) : Option Fault → Except Failure Unit → Files Text β → Prop
  /-- Up to the deletion of the old output file, nothing changes. -/
  | intact {fault : Option Fault} (failure : Failure) :
      (∀ text, ¬ Gives order charset files inputFile text) ∨ fault = some .reading ∨
        fault = some .deleting →
      Ends order charset inputFile outputFile files fault (.error failure) files
  /-- The old output file is gone, and no new one is there. -/
  | absent {text : Text} {now : Files Text β} (failure : Failure) :
      Gives order charset files inputFile text → now.content outputFile = none →
      SameElsewhere outputFile files now →
      Ends order charset inputFile outputFile files (some .opening) (.error failure) now
  /-- The new output file holds what the writer has flushed. -/
  | cut {fault : Fault} {text : Text} {now : Files Text β} (failure : Failure) (flushed : Nat) :
      Gives order charset files inputFile text → fault.flushed? = some flushed →
      now.content outputFile = some ((charset.encode text).take flushed) →
      SameElsewhere outputFile files now →
      Ends order charset inputFile outputFile files (some fault) (.error failure) now
  | complete {text : Text} {now : Files Text β} :
      Gives order charset files inputFile text →
      now.content outputFile = some (charset.encode text) →
      SameElsewhere outputFile files now →
      Ends order charset inputFile outputFile files none (.ok ()) now

theorem sameElsewhere_put (files : Files Text β) (outputFile : Text) (new : List β) :
    SameElsewhere outputFile files ((files.delete outputFile).put outputFile new) := by
  intro p hp
  rw [Files.content_put_of_ne hp, Files.content_delete_of_ne hp]

/-- A run that completes leaves the whole new content. One that fails leaves
all as it was, or no output file, or the start of the new content, as it
fails before, at or after the opening of the writer. -/
theorem a_run_ends_by_its_point_of_failure (order : Order) (charset : Charset β)
    (fault : Option Fault) (inputFile outputFile : Text) (files : Files Text β) :
    ∃ result now, outcome (DimacsProcessor.run order charset fault inputFile outputFile) files =
      (result, now) ∧ Ends order charset inputFile outputFile files fault result now := by
  by_cases h : (∀ text, ¬ Gives order charset files inputFile text) ∨ fault = some .reading
  · obtain ⟨failure, hrun⟩ := run_of_not_gives outputFile h
    exact ⟨_, _, hrun, .intact failure (h.imp_right .inl)⟩
  · obtain ⟨hgives, hreading⟩ := not_or.mp h
    push Not at hgives
    obtain ⟨text, hg⟩ := hgives
    rw [run_of_gives hg hreading]
    cases fault with
    | none =>
      exact ⟨_, _, serialize_complete text,
        .complete hg Files.content_put_self (sameElsewhere_put _ _ _)⟩
    | some fault =>
      cases hf : fault.flushed? with
      | some flushed =>
        exact ⟨_, _, serialize_flushed hf text,
          .cut _ flushed hg hf Files.content_put_self (sameElsewhere_put _ _ _)⟩
      | none =>
        cases fault with
        | reading => exact absurd rfl hreading
        | deleting => exact ⟨_, _, serialize_deleting text, .intact _ (.inr (.inr rfl))⟩
        | opening =>
          exact ⟨_, _, serialize_opening text,
            .absent _ hg Files.content_delete_self fun p hp => Files.content_delete_of_ne hp⟩
        | writing flushed => cases hf
        | closing flushed => cases hf

end

/-- An input file, and the output file that an earlier run made for it. -/
def runBefore : Files Text Char :=
  twoFiles aCnf (outputFile parentFolder aCnf) positive "solve satisfy;".toList

/-- The run throws, and the output path is not as it was. -/
def FailsWithChange (order : Order) (charset : Charset β) (fault : Option Fault)
    (inputFile outputFile : Text) (files : Files Text β) : Prop :=
  ∃ failure now, outcome (DimacsProcessor.run order charset fault inputFile outputFile) files =
    (.error failure, now) ∧ now.content outputFile ≠ files.content outputFile

/-- With a writer that cannot be opened, or not be flushed when it is closed,
the old output file is gone. -/
theorem a_failed_run_loses_the_old_output :
    FailsWithChange .insertion plain (some .opening) aCnf (outputFile parentFolder aCnf)
        runBefore ∧
      FailsWithChange .insertion plain (some (.closing 0)) aCnf (outputFile parentFolder aCnf)
        runBefore := by
  have hgives : Gives .insertion plain runBefore aCnf
      (modelText .insertion ⟨[], none, 1, 1, [⟨[1, 0]⟩]⟩) :=
    ⟨positive, by decide +kernel, by decide +kernel⟩
  have hbefore : runBefore.content (outputFile parentFolder aCnf) =
      some "solve satisfy;".toList := by decide +kernel
  constructor
  · refine ⟨_, _, (run_of_gives hgives (by decide)).trans (serialize_opening _), ?_⟩
    rw [hbefore, Files.content_delete_self]
    simp
  · refine ⟨_, _, (run_of_gives hgives (by decide)).trans (serialize_flushed rfl _), ?_⟩
    rw [hbefore, Files.content_put_self, List.take_zero]
    decide

/-! ## Runs and the steps of a batch -/

variable {order : Order} {parent inputFile content text : Text} {st : State}

theorem exec_cons_of_step {s : State} (h : step order parent st inputFile = some s)
    (schedule : List Text) :
    exec (step order parent) st (inputFile :: schedule) = exec (step order parent) s schedule := by
  unfold exec
  rw [List.foldlM_cons, h]
  rfl

/-- The first step reads the file, and takes what the reader and the writer make of it. -/
theorem step_submitted (order : Order) (parent : Text) (hstage : st.stage inputFile = .submitted)
    (hcontent : st.files.content inputFile = some content) :
    step order parent st inputFile =
      some ⟨st.files, Function.update st.stage inputFile (transformed order content)⟩ := by
  rw [step, hstage]
  dsimp only
  rw [hcontent, Option.map_some]

/-- The steps after it delete, open and write. -/
theorem exec_transformed (hstage : st.stage inputFile = .transformed text) :
    exec (step order parent) st (List.replicate 3 inputFile) =
      some ⟨(st.files.delete (outputFile parent inputFile)).put (outputFile parent inputFile) text,
        Function.update st.stage inputFile .ended⟩ := by
  have hdelete : step order parent st inputFile =
      some ⟨st.files.delete (outputFile parent inputFile),
        Function.update st.stage inputFile (.deleted text)⟩ := by
    rw [step, hstage]
  have hopen : step order parent ⟨st.files.delete (outputFile parent inputFile),
      Function.update st.stage inputFile (.deleted text)⟩ inputFile =
      some ⟨(st.files.delete (outputFile parent inputFile)).create (outputFile parent inputFile),
        Function.update st.stage inputFile (.opened text st.files.next)⟩ := by
    rw [step]
    dsimp only
    rw [Function.update_self]
    dsimp only
    rw [openWriter_delete, Function.update_idem]
    rfl
  have hwrite : step order parent ⟨(st.files.delete (outputFile parent inputFile)).create
      (outputFile parent inputFile),
      Function.update st.stage inputFile (.opened text st.files.next)⟩ inputFile =
      some ⟨(st.files.delete (outputFile parent inputFile)).put (outputFile parent inputFile) text,
        Function.update st.stage inputFile .ended⟩ := by
    rw [step]
    dsimp only
    rw [Function.update_self]
    dsimp only
    rw [Function.update_idem]
    rfl
  show exec _ st [inputFile, inputFile, inputFile] = _
  rw [exec_cons_of_step hdelete, exec_cons_of_step hopen, exec_cons_of_step hwrite]
  rfl

/-- Where nothing fails, the steps of a processor in a batch make up its run:
they leave the same files, and it has failed if and only if the run has thrown. -/
theorem the_steps_of_a_processor_make_up_its_run (order : Order) (parent : Text)
    (hstage : st.stage inputFile = .submitted)
    (hcontent : st.files.content inputFile = some content) :
    ∃ n stage result now,
      outcome (DimacsProcessor.run order plain none inputFile (outputFile parent inputFile))
        st.files = (result, now) ∧
      exec (step order parent) st (List.replicate n inputFile) =
        some ⟨now, Function.update st.stage inputFile stage⟩ ∧
      stage.Ended ∧ (stage = .ended ↔ result = .ok ()) := by
  have hstep := step_submitted order parent hstage hcontent
  cases hprocess : process order (reductor.dimacs.read content) with
  | ok text =>
    have hgives : Gives order plain st.files inputFile text := ⟨content, hcontent, hprocess⟩
    rw [transformed, hprocess] at hstep
    refine ⟨4, .ended, .ok (), _,
      (run_of_gives hgives (by decide)).trans (serialize_complete text), ?_, trivial,
      iff_of_true rfl rfl⟩
    rw [List.replicate_succ, exec_cons_of_step hstep, exec_transformed (Function.update_self ..),
      Function.update_idem]
    rfl
  | error thrown =>
    have hno : (∀ text, ¬ Gives order plain st.files inputFile text) ∨
        none = some Fault.reading := by
      left
      rintro text ⟨units, hunits, htext⟩
      rw [hcontent, Option.some.injEq] at hunits
      rw [← hunits, plain_decode, hprocess] at htext
      cases htext
    obtain ⟨failure, hrun⟩ := run_of_not_gives (outputFile parent inputFile) hno
    rw [transformed, hprocess] at hstep
    refine ⟨1, .failed thrown, .error failure, st.files, hrun, ?_, trivial, ?_⟩
    · exact exec_cons_of_step hstep []
    · refine iff_of_false (fun he => ?_) fun he => ?_
      · cases he
      · cases he

def twoStarted : State := start (twoFiles aCnf bCnf positive negative) [aCnf, bCnf]

/-- The steps of one of two processors. -/
theorem the_steps_of_one_of_two_make_up_its_run :
    ∃ n stage result now,
      outcome (DimacsProcessor.run .insertion plain none aCnf (outputFile parentFolder aCnf))
        twoStarted.files = (result, now) ∧
      exec (step .insertion parentFolder) twoStarted (List.replicate n aCnf) =
        some ⟨now, Function.update twoStarted.stage aCnf stage⟩ ∧
      stage.Ended ∧ (stage = .ended ↔ result = .ok ()) := by
  have hstage : twoStarted.stage aCnf = .submitted := by decide +kernel
  have hcontent : twoStarted.files.content aCnf = some positive := by decide +kernel
  exact the_steps_of_a_processor_make_up_its_run .insertion parentFolder hstage hcontent

end reductor.application
