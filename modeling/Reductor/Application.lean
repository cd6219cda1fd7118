-- The application as a whole: the main thread of `ReductorApplication.run`
-- walks the input folder and submits a task for each file, and the tasks run
-- beside it and beside each other. Any call of the file system may fail.
import Reductor.Failures

open reductor.java reductor.dimacs reductor.transformer reductor.files

namespace reductor.application

/-! ## The threads -/

/-- How far the task of an input file has got. A writer that is open has
brought so many units of the content to its file. -/
inductive Task
  | queued
  | transformed (content : Text)
  | deleted (content : Text)
  | opened (content : Text) (file flushed : Nat)
  | completed
  | failed (fault : Option Fault) (failure : Failure)
  deriving DecidableEq

/-- How `ReductorApplication.run` comes to its end. -/
inductive Return
  | terminated | timedOut | walkFailed
  deriving DecidableEq, Repr

/-- The main thread: paths that the walk has still to give, each with what
`Files.isRegularFile` says of it, or the wait for the executor. -/
inductive MainThread
  | walking (rest : List (Text × Bool))
  | awaiting
  | returned (how : Return)
  deriving DecidableEq

/-- The walk of the input folder gives no path twice. -/
structure Walk where
  entries : List (Text × Bool)
  nodup : (entries.map Prod.fst).Nodup

/-- The regular files, in the order of the walk. -/
def regularFiles (entries : List (Text × Bool)) : List Text :=
  (entries.filter Prod.snd).map Prod.fst

def Walk.inputs (walk : Walk) : List Text := regularFiles walk.entries

/-- The files, the main thread, the tasks that the executor has been given,
and how far each of them is. -/
structure App (β : Type) where
  files : Files Text β
  main : MainThread
  submitted : List Text
  task : Text → Task

inductive Action
  | visit | walkFails | shutdown | terminate | timeOut
  | advance (inputFile : Text)
  | fail (inputFile : Text) (fault : Fault)
  | flush (inputFile : Text) (count : Nat)
  deriving DecidableEq

def Task.Ended : Task → Bool
  | .completed => true
  | .failed _ _ => true
  | _ => false

variable {β : Type}

/-! ## Steps of a task -/

/-- The task with what the reader and the writer make of the content of its file. -/
def transformedTask : Except Thrown Text → Task
  | .ok content => .transformed content
  | .error thrown => .failed none (.library thrown)

/-- The next call of `DimacsProcessor.run` on the file system, where it does not fail. -/
def Task.next [Inhabited β] (order : Order) (charset : Charset β) (inputFile outputFile : Text)
    (files : Files Text β) : Task → Option (Files Text β × Task)
  | .queued =>
    match files.content inputFile with
    | some units =>
      some (files, transformedTask (process order (reductor.dimacs.read (charset.decode units))))
    | none => some (files, .failed none (.dimacsException (message "leer".toList inputFile)))
  | .transformed content => some (files.delete outputFile, .deleted content)
  | .deleted content =>
    let (files, file) := files.openWriter outputFile
    some (files, .opened content file 0)
  | .opened content file flushed =>
    some (files.writeAt file flushed ((charset.encode content).drop flushed), .completed)
  | .completed => none
  | .failed _ _ => none

/-- What the task throws when the next call fails. -/
def Task.failure? (inputFile outputFile : Text) (fault : Fault) : Task → Option Failure
  | .queued =>
    if fault = .reading then some (.dimacsException (message "leer".toList inputFile)) else none
  | .transformed _ =>
    if fault = .deleting then some (.dimacsException (message "eliminar".toList outputFile))
    else none
  | .deleted _ =>
    if fault = .opening then some (.dimacsException (message "escribir".toList outputFile))
    else none
  | .opened _ _ flushed =>
    if fault.flushed? = some flushed then
      some (.dimacsException (message "escribir".toList outputFile))
    else none
  | .completed => none
  | .failed _ _ => none

/-- A writer brings some more of the content to its file. -/
def Task.flush [Inhabited β] (charset : Charset β) (count : Nat) (files : Files Text β) :
    Task → Option (Files Text β × Task)
  | .opened content file flushed =>
    if 0 < count ∧ flushed + count ≤ (charset.encode content).length then
      some (files.writeAt file flushed (((charset.encode content).drop flushed).take count),
        .opened content file (flushed + count))
    else none
  | _ => none

/-! ## Steps of the application -/

/-- `ReductorApplication.run` at its start. -/
def App.start (files : Files Text β) (walk : Walk) : App β :=
  ⟨files, .walking walk.entries, [], fun _ => .queued⟩

/-- A task goes on, if the executor has it. -/
def App.setTask (st : App β) (inputFile : Text) (result : Option (Files Text β × Task)) :
    Option (App β) :=
  if st.submitted.contains inputFile then
    result.map fun (files, task) =>
      { st with files := files, task := Function.update st.task inputFile task }
  else none

/-- One step of one of the threads. The wait ends when all tasks have ended,
or when its time is over; the tasks that are left go on then. -/
def App.step [Inhabited β] (order : Order) (charset : Charset β) (parent : Text) (st : App β) :
    Action → Option (App β)
  | .visit =>
    match st.main with
    | .walking ((path, regular) :: rest) =>
      some { st with
        main := .walking rest
        submitted := if regular then st.submitted ++ [path] else st.submitted }
    | _ => none
  | .walkFails =>
    match st.main with
    | .walking _ => some { st with main := .returned .walkFailed }
    | _ => none
  | .shutdown => if st.main = .walking [] then some { st with main := .awaiting } else none
  | .terminate =>
    if st.main = .awaiting ∧ ∀ f ∈ st.submitted, (st.task f).Ended then
      some { st with main := .returned .terminated }
    else none
  | .timeOut =>
    if st.main = .awaiting then some { st with main := .returned .timedOut } else none
  | .advance inputFile =>
    st.setTask inputFile
      ((st.task inputFile).next order charset inputFile (outputFile parent inputFile) st.files)
  | .fail inputFile fault =>
    st.setTask inputFile
      (((st.task inputFile).failure? inputFile (outputFile parent inputFile) fault).map
        fun failure => (st.files, .failed (some fault) failure))
  | .flush inputFile count =>
    st.setTask inputFile ((st.task inputFile).flush charset count st.files)

/-! ## What a step does -/

/-- The steps of the main thread leave the files and the tasks. -/
inductive MainStep (st : App β) : App β → Prop
  | submit {path : Text} {rest : List (Text × Bool)} :
      st.main = .walking ((path, true) :: rest) →
      MainStep st { st with main := .walking rest, submitted := st.submitted ++ [path] }
  | skip {path : Text} {rest : List (Text × Bool)} :
      st.main = .walking ((path, false) :: rest) → MainStep st { st with main := .walking rest }
  | walkFails {rest : List (Text × Bool)} :
      st.main = .walking rest → MainStep st { st with main := .returned .walkFailed }
  | shutdown : st.main = .walking [] → MainStep st { st with main := .awaiting }
  | terminate : st.main = .awaiting → (∀ f ∈ st.submitted, (st.task f).Ended) →
      MainStep st { st with main := .returned .terminated }
  | timeOut : st.main = .awaiting → MainStep st { st with main := .returned .timedOut }

/-- The steps of a task: a call that succeeds, some more of the content
brought to the file, or a call that fails. -/
inductive TaskStep [Inhabited β] (order : Order) (charset : Charset β) (parent : Text)
    (st : App β) (f : Text) : Files Text β → Task → Prop
  | advance {now : Files Text β} {task : Task} :
      (st.task f).next order charset f (outputFile parent f) st.files = some (now, task) →
      TaskStep order charset parent st f now task
  | flush {count : Nat} {now : Files Text β} {task : Task} :
      (st.task f).flush charset count st.files = some (now, task) →
      TaskStep order charset parent st f now task
  | fail {fault : Fault} {failure : Failure} :
      (st.task f).failure? f (outputFile parent f) fault = some failure →
      TaskStep order charset parent st f st.files (.failed (some fault) failure)

section

variable {st st' : App β} {f : Text}

theorem setTask_eq_some {result : Option (Files Text β × Task)}
    (h : st.setTask f result = some st') :
    f ∈ st.submitted ∧ ∃ now task, result = some (now, task) ∧
      st' = { st with files := now, task := Function.update st.task f task } := by
  obtain ⟨hf, h⟩ := Option.ite_none_right_eq_some.mp h
  obtain ⟨⟨now, task⟩, hresult, rfl⟩ := Option.map_eq_some_iff.mp h
  exact ⟨List.contains_iff_mem.mp hf, now, task, hresult, rfl⟩

/-- A step is one of the main thread, or one of a task that it has submitted. -/
theorem step_cases [Inhabited β] {order : Order} {charset : Charset β} {parent : Text}
    {a : Action} (h : st.step order charset parent a = some st') :
    MainStep st st' ∨ ∃ f ∈ st.submitted, ∃ now task, TaskStep order charset parent st f now task ∧
      st' = { st with files := now, task := Function.update st.task f task } := by
  cases a with
  | visit =>
    left
    unfold App.step at h
    cases hmain : st.main with
    | walking rest =>
      rw [hmain] at h
      rcases rest with _ | ⟨⟨path, regular⟩, rest⟩
      · cases h
      · cases regular with
        | true =>
          cases h
          exact .submit hmain
        | false =>
          cases h
          exact .skip hmain
    | awaiting => rw [hmain] at h; cases h
    | returned how => rw [hmain] at h; cases h
  | walkFails =>
    left
    unfold App.step at h
    cases hmain : st.main with
    | walking rest =>
      rw [hmain] at h
      cases h
      exact .walkFails hmain
    | awaiting => rw [hmain] at h; cases h
    | returned how => rw [hmain] at h; cases h
  | shutdown =>
    obtain ⟨hmain, h⟩ := Option.ite_none_right_eq_some.mp h
    cases h
    exact .inl (.shutdown hmain)
  | terminate =>
    obtain ⟨⟨hmain, hended⟩, h⟩ := Option.ite_none_right_eq_some.mp h
    cases h
    exact .inl (.terminate hmain hended)
  | timeOut =>
    obtain ⟨hmain, h⟩ := Option.ite_none_right_eq_some.mp h
    cases h
    exact .inl (.timeOut hmain)
  | advance f =>
    obtain ⟨hf, now, task, hnext, rfl⟩ := setTask_eq_some h
    exact .inr ⟨f, hf, now, task, .advance hnext, rfl⟩
  | fail f fault =>
    obtain ⟨hf, now, task, hresult, rfl⟩ := setTask_eq_some h
    obtain ⟨failure, hfail, he⟩ := Option.map_eq_some_iff.mp hresult
    cases he
    exact .inr ⟨f, hf, _, _, .fail hfail, rfl⟩
  | flush f count =>
    obtain ⟨hf, now, task, hflush, rfl⟩ := setTask_eq_some h
    exact .inr ⟨f, hf, now, task, .flush hflush, rfl⟩

end

/-! ## The batch in the application -/

/-- The stages of a processor of a batch are those of a task in which no call fails. -/
def Stage.task : Stage → Task
  | .submitted => .queued
  | .transformed content => .transformed content
  | .deleted content => .deleted content
  | .opened content file => .opened content file 0
  | .ended => .completed
  | .failed thrown => .failed none (.library thrown)

/-- The application is where the batch of all its inputs is. -/
structure Matches (inputs : List Text) (batch : State) (st : App Char) : Prop where
  files : st.files = batch.files
  submitted : st.submitted = inputs
  task : ∀ f ∈ inputs, st.task f = (batch.stage f).task
  others : ∀ f, f ∉ inputs → batch.stage f = .ended

section

variable {order : Order} {parent : Text} {inputs : List Text} {batch batch' : State}
  {st : App Char} {f : Text}

theorem writeAt_zero (files : Files Text Char) (file : Nat) (content : Text) :
    files.writeAt file 0 content = files.write file content := by
  unfold Files.writeAt Files.write
  simp

theorem next_of_batch_step (hstep : step order parent batch f = some batch') :
    ∃ stage, batch'.stage = Function.update batch.stage f stage ∧
      (batch.stage f).task.next order plain f (outputFile parent f) batch.files =
        some (batch'.files, stage.task) := by
  unfold step at hstep
  cases hs : batch.stage f with
  | submitted =>
    rw [hs] at hstep
    obtain ⟨content, hcontent, rfl⟩ := Option.map_eq_some_iff.mp hstep
    refine ⟨_, rfl, ?_⟩
    simp only [Stage.task, Task.next, hcontent, transformed]
    show some (_, transformedTask (process order (read content))) = _
    cases process order (read content) with
    | ok text => rfl
    | error thrown => rfl
  | transformed content =>
    rw [hs] at hstep
    cases hstep
    exact ⟨_, rfl, rfl⟩
  | deleted content =>
    rw [hs] at hstep
    cases hstep
    exact ⟨_, rfl, rfl⟩
  | opened content file =>
    rw [hs] at hstep
    cases hstep
    refine ⟨_, rfl, ?_⟩
    show some (batch.files.writeAt file 0 content, Task.completed) = _
    rw [writeAt_zero]
    rfl
  | ended => rw [hs] at hstep; cases hstep
  | failed thrown => rw [hs] at hstep; cases hstep

/-- A step of the batch is one of the application. -/
theorem Matches.step (h : Matches inputs batch st)
    (hstep : application.step order parent batch f = some batch') :
    ∃ st', st.step order plain parent (.advance f) = some st' ∧ Matches inputs batch' st' := by
  have hf : f ∈ inputs := by
    by_contra hno
    rw [application.step, h.others f hno] at hstep
    cases hstep
  obtain ⟨stage, hstage, hnext⟩ := next_of_batch_step hstep
  refine ⟨{ st with files := batch'.files, task := Function.update st.task f stage.task }, ?_, ?_⟩
  · show st.setTask f _ = _
    rw [App.setTask, if_pos (List.contains_iff_mem.mpr (h.submitted ▸ hf)), h.files, h.task f hf,
      hnext, Option.map_some]
  · refine ⟨rfl, h.submitted, ?_, ?_⟩
    · intro g hg
      rw [hstage]
      by_cases hgf : g = f
      · rw [hgf, Function.update_self]
        exact Function.update_self ..
      · rw [Function.update_of_ne hgf]
        exact (Function.update_of_ne hgf ..).trans (h.task g hg)
    · intro g hg
      have hne : g ≠ f := by
        rintro rfl
        exact hg hf
      rw [hstage, Function.update_of_ne hne]
      exact h.others g hg

/-- The main thread can submit the whole walk before any task goes on. -/
theorem exec_visits (files : Files Text Char) (rest : List (Text × Bool)) (submitted : List Text)
    (task : Text → Task) :
    exec (App.step order plain parent) ⟨files, .walking rest, submitted, task⟩
        (List.replicate rest.length .visit) =
      some ⟨files, .walking [], submitted ++ regularFiles rest, task⟩ := by
  induction rest generalizing submitted with
  | nil =>
    show some _ = _
    rw [regularFiles, List.filter_nil, List.map_nil, List.append_nil]
  | cons entry rest ih =>
    obtain ⟨path, regular⟩ := entry
    rw [List.length_cons, List.replicate_succ, exec, List.foldlM_cons]
    show exec (App.step order plain parent) ⟨files, .walking rest, _, task⟩ _ = _
    rw [ih]
    cases regular with
    | true =>
      show some (App.mk _ _ ((submitted ++ [path]) ++ regularFiles rest) _) = _
      rw [List.append_assoc]
      rfl
    | false => rfl

/-- Every run of the batch is one of the application, with the same files at its end. -/
theorem every_batch_is_a_run (files : Files Text Char) (walk : Walk) {schedule : List Text}
    (hrun : exec (application.step order parent) (start files walk.inputs) schedule = some batch) :
    ∃ st, exec (App.step order plain parent) (App.start files walk)
        (List.replicate walk.entries.length .visit ++ schedule.map .advance) = some st ∧
      Matches walk.inputs batch st := by
  rw [exec_append, App.start, exec_visits]
  show ∃ st, exec _ _ _ = some st ∧ _
  have hstart : Matches walk.inputs (start files walk.inputs)
      ⟨files, .walking [], [] ++ regularFiles walk.entries, fun _ => .queued⟩ := by
    refine ⟨rfl, rfl, ?_, ?_⟩
    · intro f hf
      simp only [start, if_pos hf, Stage.task]
    · intro f hf
      simp only [start, if_neg hf]
  generalize start files walk.inputs = first at hrun hstart
  generalize App.mk _ _ _ _ = now at hstart ⊢
  unfold exec at hrun ⊢
  induction schedule generalizing first now with
  | nil =>
    cases hrun
    exact ⟨now, rfl, hstart⟩
  | cons f schedule ih =>
    rw [List.foldlM_cons] at hrun
    obtain ⟨mid, hmid, hrun⟩ := Option.bind_eq_some_iff.mp hrun
    obtain ⟨now', hnow, hmatches⟩ := hstart.step hmid
    obtain ⟨st, hst, hend⟩ := ih mid hrun now' hmatches
    refine ⟨st, ?_, hend⟩
    rw [List.map_cons, List.foldlM_cons, hnow]
    exact hst

/-- Every run of a batch goes on to one in which all processors have ended, and
that is a run of the application which leaves the same files. -/
theorem every_batch_goes_on_to_a_run (walk : Walk) {files : Files Text Char}
    (hsep : Separate order parent files walk.inputs)
    (hfiles : ∀ f ∈ walk.inputs, (files.content f).isSome) {schedule : List Text}
    (hrun : exec (application.step order parent) (start files walk.inputs) schedule = some batch) :
    ∃ more batch' st, exec (application.step order parent) (start files walk.inputs)
        (schedule ++ more) = some batch' ∧
      (∀ f ∈ walk.inputs, (batch'.stage f).Ended) ∧
      exec (App.step order plain parent) (App.start files walk)
        (List.replicate walk.entries.length .visit ++ (schedule ++ more).map .advance) = some st ∧
      Matches walk.inputs batch' st := by
  obtain ⟨more, batch', hmore, hended⟩ := every_run_can_end hsep hfiles hrun
  obtain ⟨st, hst, hmatches⟩ := every_batch_is_a_run files walk hmore
  exact ⟨more, batch', st, hmore, hended, hst, hmatches⟩

end

/-- The folder with two files. -/
def twoWalk : Walk :=
  ⟨[(inputPath parentFolder, false), (aCnf, true), (bCnf, true)], by decide +kernel⟩

theorem independent_two (files : Files Text Char) :
    Independent .insertion plain parentFolder files twoWalk.inputs := separate_two files

/-- One of two processors has read its file, the other one has ended. -/
theorem a_batch_of_two_goes_on_to_a_run :
    ∃ batch, exec (step .insertion parentFolder)
        (start (twoFiles aCnf bCnf positive negative) twoWalk.inputs)
        [bCnf, aCnf, bCnf, bCnf, bCnf] = some batch ∧
    ∃ more batch' st, exec (step .insertion parentFolder)
        (start (twoFiles aCnf bCnf positive negative) twoWalk.inputs)
        ([bCnf, aCnf, bCnf, bCnf, bCnf] ++ more) = some batch' ∧
      (∀ f ∈ twoWalk.inputs, (batch'.stage f).Ended) ∧
      exec (App.step .insertion plain parentFolder)
        (App.start (twoFiles aCnf bCnf positive negative) twoWalk)
        (List.replicate twoWalk.entries.length .visit ++
          ([bCnf, aCnf, bCnf, bCnf, bCnf] ++ more).map .advance) = some st ∧
      Matches twoWalk.inputs batch' st := by
  have hrun : (exec (step .insertion parentFolder)
      (start (twoFiles aCnf bCnf positive negative) twoWalk.inputs)
      [bCnf, aCnf, bCnf, bCnf, bCnf]).isSome := by decide +kernel
  have hfiles : ∀ f ∈ twoWalk.inputs,
      ((twoFiles aCnf bCnf positive negative).content f).isSome := by decide +kernel
  obtain ⟨batch, hbatch⟩ := Option.isSome_iff_exists.mp hrun
  exact ⟨batch, hbatch, every_batch_goes_on_to_a_run twoWalk (separate_two _) hfiles hbatch⟩

end reductor.application
