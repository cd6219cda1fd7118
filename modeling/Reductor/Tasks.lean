-- The tasks of the application: whatever the order of the steps, and whatever
-- calls fail, each task ends as its `DimacsProcessor.run` would end alone.
import Reductor.Application

open reductor.java reductor.dimacs reductor.transformer reductor.files

namespace reductor.application

variable {β : Type}

/-! ## What a task has done -/

/-- What the stage of a task says about its output file. That of an input that
does not convert may be the output file of one that does. -/
def TaskHolds (order : Order) (charset : Charset β) (parent : Text) (files now : Files Text β)
    (f : Text) : Task → Prop
  | .queued => ∀ text, Gives order charset files f text →
      now.dir (outputFile parent f) = files.dir (outputFile parent f)
  | .transformed text => Gives order charset files f text ∧
      now.dir (outputFile parent f) = files.dir (outputFile parent f)
  | .deleted text => Gives order charset files f text ∧ now.dir (outputFile parent f) = none
  | .opened text i flushed => Gives order charset files f text ∧
      now.dir (outputFile parent f) = some i ∧ files.next ≤ i ∧
      flushed ≤ (charset.encode text).length ∧ now.data i = (charset.encode text).take flushed
  | .completed => ∃ text, Gives order charset files f text ∧
      now.content (outputFile parent f) = some (charset.encode text)
  | .failed fault failure => ∃ alone,
      outcome (DimacsProcessor.run order charset fault f (outputFile parent f)) files =
        (.error failure, alone) ∧
      ∀ text, Gives order charset files f text →
        now.content (outputFile parent f) = alone.content (outputFile parent f)

/-- What every run keeps: the files of the start are as they were, names that
are no output of a file that converts are too, and a file made since has one name. -/
structure AppInv (order : Order) (charset : Charset β) (parent : Text) (files : Files Text β)
    (inputs : List Text) (st : App β) : Prop where
  next : files.next ≤ st.files.next
  data : ∀ i < files.next, st.files.data i = files.data i
  dir : ∀ p, (∀ f ∈ inputs, ∀ t, Gives order charset files f t → p ≠ outputFile parent f) →
    st.files.dir p = files.dir p
  single : ∀ p q i, files.next ≤ i → st.files.dir p = some i → st.files.dir q = some i → p = q
  tasks : ∀ f ∈ inputs, TaskHolds order charset parent files st.files f (st.task f)

/-- Nothing but the file at one path changes, and a new file has a number of its own. -/
structure Frame (path : Text) (now now' : Files Text β) : Prop where
  next : now.next ≤ now'.next
  dir : ∀ p, p ≠ path → now'.dir p = now.dir p
  data : ∀ i < now.next, now.dir path ≠ some i → now'.data i = now.data i
  named : ∀ i, now'.dir path = some i → now.dir path = some i ∨ now.next ≤ i

section

variable {order : Order} {charset : Charset β} {parent : Text} {files : Files Text β}
  {inputs : List Text} {f : Text}

theorem frame_delete (now : Files Text β) (path : Text) : Frame path now (now.delete path) where
  next := Nat.le_refl _
  dir := fun _ hp => Files.dir_delete_of_ne hp
  data := fun _ _ _ => rfl
  named := by
    intro i hi
    rw [Files.dir_delete_self] at hi
    cases hi

theorem frame_create (now : Files Text β) (path : Text) : Frame path now (now.create path) where
  next := Nat.le_succ _
  dir := fun _ hp => Files.dir_create_of_ne hp
  data := fun _ hi _ => Files.data_create_of_ne (Nat.ne_of_lt hi)
  named := by
    intro i hi
    rw [Files.dir_create_self, Option.some.injEq] at hi
    exact .inr (Nat.le_of_eq hi)

theorem frame_writeAt [Inhabited β] {now : Files Text β} {path : Text} {i : Nat}
    (h : now.dir path = some i) (offset : Nat) (new : List β) :
    Frame path now (now.writeAt i offset new) where
  next := Nat.le_refl _
  dir := fun _ _ => rfl
  data := by
    intro j _ hj
    apply Files.data_writeAt_of_ne
    rintro rfl
    exact hj h
  named := fun _ hj => .inl hj

/-- What a stage says stays true as long as nothing touches the output file. -/
theorem TaskHolds.frame {now now' : Files Text β} {task : Task}
    (h : TaskHolds order charset parent files now f task)
    (hframe : ∀ text, Gives order charset files f text →
      now'.dir (outputFile parent f) = now.dir (outputFile parent f) ∧
      ∀ i, now.dir (outputFile parent f) = some i → now'.data i = now.data i) :
    TaskHolds order charset parent files now' f task := by
  have hcontent : ∀ text, Gives order charset files f text →
      now'.content (outputFile parent f) = now.content (outputFile parent f) := by
    intro text hgives
    obtain ⟨hdir, hdata⟩ := hframe text hgives
    unfold Files.content
    rw [hdir]
    cases hi : now.dir (outputFile parent f) with
    | none => rfl
    | some i => rw [Option.map_some, Option.map_some, hdata i hi]
  cases task with
  | queued => exact fun text hgives => (hframe text hgives).1.trans (h text hgives)
  | transformed text => exact ⟨h.1, (hframe text h.1).1.trans h.2⟩
  | deleted text => exact ⟨h.1, (hframe text h.1).1.trans h.2⟩
  | opened text i flushed =>
    obtain ⟨hgives, hd, hi, hle, hsame⟩ := h
    obtain ⟨hdir, hdata⟩ := hframe text hgives
    exact ⟨hgives, hdir.trans hd, hi, hle, (hdata i hd).trans hsame⟩
  | completed =>
    obtain ⟨text, hgives, hout⟩ := h
    exact ⟨text, hgives, (hcontent text hgives).trans hout⟩
  | failed fault failure =>
    obtain ⟨alone, halone, hout⟩ := h
    exact ⟨alone, halone, fun text hgives => (hcontent text hgives).trans (hout text hgives)⟩

/-! ## The invariant -/

theorem appInv_start (files : Files Text β) (walk : Walk) :
    AppInv order charset parent files walk.inputs (App.start files walk) where
  next := Nat.le_refl _
  data := fun _ _ => rfl
  dir := fun _ _ => rfl
  single := by
    intro p q i hi hp _
    exact absurd (files.fresh p i hp) (Nat.not_lt_of_le hi)
  tasks := fun _ _ _ _ => rfl

/-- A name that stands for the file of the start has its content. -/
theorem AppInv.content_of_dir {st : App β} (h : AppInv order charset parent files inputs st)
    {p : Text} (hdir : st.files.dir p = files.dir p) : st.files.content p = files.content p := by
  unfold Files.content
  rw [hdir]
  cases hi : files.dir p with
  | none => rfl
  | some i => rw [Option.map_some, Option.map_some, h.data i (files.fresh p i hi)]

/-- The input files stay as they were. -/
theorem AppInv.content {st : App β} (h : AppInv order charset parent files inputs st)
    (hind : Independent order charset parent files inputs) (hf : f ∈ inputs) :
    st.files.content f = files.content f := by
  apply h.content_of_dir
  exact h.dir f fun g hg t ht he => hind.outside g hg f hf t ht he.symm

/-- A task whose file converts goes on, and touches nothing but its output file. -/
theorem appInv_touched {st : App β} (h : AppInv order charset parent files inputs st)
    (hind : Independent order charset parent files inputs) (hf : f ∈ inputs) {text : Text}
    (hgives : Gives order charset files f text) {now : Files Text β} {task : Task}
    (hframe : Frame (outputFile parent f) st.files now)
    (hdata : ∀ i < files.next, now.data i = files.data i)
    (htask : TaskHolds order charset parent files now f task) :
    AppInv order charset parent files inputs
      { st with files := now, task := Function.update st.task f task } where
  next := Nat.le_trans h.next hframe.next
  data := hdata
  dir := fun p hp => (hframe.dir p (hp f hf text hgives)).trans (h.dir p hp)
  single := by
    -- The new name of a file is the output path, unless the path had the file before.
    have hother : ∀ q i, q ≠ outputFile parent f → files.next ≤ i →
        now.dir (outputFile parent f) = some i → now.dir q = some i → False := by
      intro q i hq hi hp hqi
      rw [hframe.dir q hq] at hqi
      rcases hframe.named i hp with hold | hnew
      · exact hq (h.single q _ i hi hqi hold)
      · exact absurd (st.files.fresh q i hqi) (Nat.not_lt_of_le hnew)
    intro p q i hi hp hq
    by_cases hpf : p = outputFile parent f
    · by_contra hne
      exact hother q i (fun hqf => hne (hpf.trans hqf.symm)) hi (hpf ▸ hp) hq
    · by_cases hqf : q = outputFile parent f
      · exact absurd (hother p i hpf hi (hqf ▸ hq) hp) not_false
      · rw [hframe.dir p hpf] at hp
        rw [hframe.dir q hqf] at hq
        exact h.single p q i hi hp hq
  tasks := by
    intro g hg
    show TaskHolds order charset parent files now g (Function.update st.task f task g)
    by_cases hgf : g = f
    · subst hgf
      rw [Function.update_self]
      exact htask
    · rw [Function.update_of_ne hgf]
      refine (h.tasks g hg).frame fun text' hgives' => ?_
      have hapart := hind.apart g hg f hf hgf text' text hgives' hgives
      refine ⟨hframe.dir _ hapart, fun i hi => ?_⟩
      rcases Nat.lt_or_ge i files.next with hold | hnew
      · rw [hdata i hold, h.data i hold]
      · refine hframe.data i (st.files.fresh _ i hi) ?_
        intro hfi
        exact hapart (h.single _ _ i hnew hi hfi)

/-- A task goes on without a change to the files. -/
theorem appInv_unchanged {st : App β} (h : AppInv order charset parent files inputs st)
    {task : Task} (htask : TaskHolds order charset parent files st.files f task) :
    AppInv order charset parent files inputs
      { st with task := Function.update st.task f task } where
  next := h.next
  data := h.data
  dir := h.dir
  single := h.single
  tasks := by
    intro g hg
    show TaskHolds order charset parent files st.files g (Function.update st.task f task g)
    by_cases hgf : g = f
    · subst hgf
      rw [Function.update_self]
      exact htask
    · rw [Function.update_of_ne hgf]
      exact h.tasks g hg

/-! ## A task goes on -/

/-- A run whose data does not pass ends with the exception of the library. -/
theorem run_of_thrown {units : List β} {thrown : Thrown} (hunits : files.content f = some units)
    (h : process order (reductor.dimacs.read (charset.decode units)) = .error thrown)
    (outputFile : Text) :
    outcome (DimacsProcessor.run order charset none f outputFile) files =
      (.error (.library thrown), files) := by
  have hfault : none ≠ some Fault.reading := by decide
  unfold process at h
  cases hd : deserialize (reductor.dimacs.read (charset.decode units)) with
  | error thrown' =>
    rw [hd] at h
    cases h
    apply outcome_bind_error
    rw [outcome_deserialize hunits hfault, outcome_lifted_error hd]
  | ok dimacs =>
    rw [hd] at h
    have htransform : transformDimacs order dimacs = .error thrown := h
    have hdeserialize : outcome (DimacsTransformer.deserialize charset none f) files =
        (.ok dimacs, files) := by
      rw [outcome_deserialize hunits hfault, outcome_lifted_ok hd]
    rw [DimacsProcessor.run, outcome_bind_ok hdeserialize,
      outcome_bind_error (outcome_lifted_error htransform files)]

/-- A run that cannot read its file ends with the exception of the reader. -/
theorem run_of_unread {fault : Option Fault} (h : files.content f = none ∨ fault = some .reading)
    (outputFile : Text) :
    outcome (DimacsProcessor.run order charset fault f outputFile) files =
      (.error (.dimacsException (message "leer".toList f)), files) :=
  outcome_bind_error (outcome_bind_error (read_error h))

section

variable [Inhabited β] {st : App β} {now : Files Text β} {task : Task}

theorem appInv_next (h : AppInv order charset parent files inputs st)
    (hind : Independent order charset parent files inputs) (hf : f ∈ inputs)
    (hnext : (st.task f).next order charset f (outputFile parent f) st.files = some (now, task)) :
    AppInv order charset parent files inputs
      { st with files := now, task := Function.update st.task f task } := by
  have hholds := h.tasks f hf
  cases hs : st.task f with
  | queued =>
    rw [hs] at hnext hholds
    unfold Task.next at hnext
    dsimp only at hnext
    rw [h.content hind hf] at hnext
    cases hunits : files.content f with
    | none =>
      rw [hunits] at hnext
      cases hnext
      exact appInv_unchanged h ⟨files, run_of_unread (.inl hunits) _,
        fun text hgives => h.content_of_dir (hholds text hgives)⟩
    | some units =>
      rw [hunits] at hnext
      cases hnext
      cases hp : process order (reductor.dimacs.read (charset.decode units)) with
      | ok text =>
        have hgives : Gives order charset files f text := ⟨units, hunits, hp⟩
        exact appInv_unchanged h ⟨hgives, hholds text hgives⟩
      | error thrown =>
        exact appInv_unchanged h ⟨files, run_of_thrown hunits hp _,
          fun text hgives => h.content_of_dir (hholds text hgives)⟩
  | transformed text =>
    rw [hs] at hnext hholds
    cases hnext
    exact appInv_touched h hind hf hholds.1 (frame_delete ..) h.data
      ⟨hholds.1, Files.dir_delete_self⟩
  | deleted text =>
    rw [hs] at hnext hholds
    obtain ⟨hgives, hnone⟩ := hholds
    unfold Task.next at hnext
    dsimp only at hnext
    rw [Files.openWriter_of_none hnone] at hnext
    cases hnext
    have hnew : ∀ i < files.next, i ≠ st.files.next := fun i hi =>
      Nat.ne_of_lt (Nat.lt_of_lt_of_le hi h.next)
    refine appInv_touched h hind hf hgives (frame_create ..) ?_ ?_
    · intro i hi
      exact (Files.data_create_of_ne (hnew i hi)).trans (h.data i hi)
    · exact ⟨hgives, Files.dir_create_self, h.next, Nat.zero_le _, Files.data_create_self⟩
  | opened text i flushed =>
    rw [hs] at hnext hholds
    obtain ⟨hgives, hdir, hi, hlength, hdata⟩ := hholds
    cases hnext
    have hend : (st.files.data i).length = flushed := by
      rw [hdata, List.length_take]
      omega
    refine appInv_touched h hind hf hgives (frame_writeAt hdir ..) ?_ ?_
    · intro j hj
      exact (Files.data_writeAt_of_ne (by omega)).trans (h.data j hj)
    · refine ⟨text, hgives, Files.content_eq_some.mpr ⟨i, hdir, ?_⟩⟩
      rw [Files.data_writeAt_end hend, hdata, List.take_append_drop]
  | completed =>
    rw [hs] at hnext
    cases hnext
  | failed fault failure =>
    rw [hs] at hnext
    cases hnext

theorem appInv_flush (h : AppInv order charset parent files inputs st)
    (hind : Independent order charset parent files inputs) (hf : f ∈ inputs) {count : Nat}
    (hflush : (st.task f).flush charset count st.files = some (now, task)) :
    AppInv order charset parent files inputs
      { st with files := now, task := Function.update st.task f task } := by
  have hholds := h.tasks f hf
  cases hs : st.task f with
  | opened text i flushed =>
    rw [hs] at hflush hholds
    obtain ⟨hgives, hdir, hi, hlength, hdata⟩ := hholds
    obtain ⟨⟨-, hcount⟩, hflush⟩ := Option.ite_none_right_eq_some.mp hflush
    cases hflush
    have hend : (st.files.data i).length = flushed := by
      rw [hdata, List.length_take]
      omega
    refine appInv_touched h hind hf hgives (frame_writeAt hdir ..) ?_ ?_
    · intro j hj
      exact (Files.data_writeAt_of_ne (by omega)).trans (h.data j hj)
    · refine ⟨hgives, hdir, hi, hcount, ?_⟩
      rw [Files.data_writeAt_end hend, hdata, List.take_add]
  | queued => rw [hs] at hflush; cases hflush
  | transformed text => rw [hs] at hflush; cases hflush
  | deleted text => rw [hs] at hflush; cases hflush
  | completed => rw [hs] at hflush; cases hflush
  | failed fault failure => rw [hs] at hflush; cases hflush

end

/-- A call that fails leaves what a run on its own leaves that fails there. -/
theorem appInv_fail {st : App β} (h : AppInv order charset parent files inputs st)
    (hf : f ∈ inputs) {fault : Fault} {failure : Failure}
    (hfail : (st.task f).failure? f (outputFile parent f) fault = some failure) :
    AppInv order charset parent files inputs
      { st with task := Function.update st.task f (.failed (some fault) failure) } := by
  have hholds := h.tasks f hf
  apply appInv_unchanged h
  cases hs : st.task f with
  | queued =>
    rw [hs] at hfail hholds
    obtain ⟨rfl, hfail⟩ := Option.ite_none_right_eq_some.mp hfail
    cases hfail
    exact ⟨files, run_of_unread (.inr rfl) _,
      fun text hgives => h.content_of_dir (hholds text hgives)⟩
  | transformed text =>
    rw [hs] at hfail hholds
    obtain ⟨rfl, hfail⟩ := Option.ite_none_right_eq_some.mp hfail
    cases hfail
    exact ⟨files, (run_of_gives hholds.1 (by decide)).trans (serialize_deleting text),
      fun _ _ => h.content_of_dir hholds.2⟩
  | deleted text =>
    rw [hs] at hfail hholds
    obtain ⟨rfl, hfail⟩ := Option.ite_none_right_eq_some.mp hfail
    cases hfail
    refine ⟨_, (run_of_gives hholds.1 (by decide)).trans (serialize_opening text), fun _ _ => ?_⟩
    rw [Files.content_delete_self, Files.content, hholds.2, Option.map_none]
  | opened text i flushed =>
    rw [hs] at hfail hholds
    obtain ⟨hgives, hdir, -, -, hdata⟩ := hholds
    obtain ⟨hflushed, hfail⟩ := Option.ite_none_right_eq_some.mp hfail
    cases hfail
    have hreading : some fault ≠ some .reading := by
      rintro he
      cases he
      cases hflushed
    refine ⟨_, (run_of_gives hgives hreading).trans (serialize_flushed hflushed text),
      fun _ _ => ?_⟩
    rw [Files.content_put_self]
    exact Files.content_eq_some.mpr ⟨i, hdir, hdata⟩
  | completed => rw [hs] at hfail; cases hfail
  | failed fault failure => rw [hs] at hfail; cases hfail

theorem appInv_task [Inhabited β] {st : App β} (h : AppInv order charset parent files inputs st)
    (hind : Independent order charset parent files inputs) (hf : f ∈ inputs) {now : Files Text β}
    {task : Task} (hstep : TaskStep order charset parent st f now task) :
    AppInv order charset parent files inputs
      { st with files := now, task := Function.update st.task f task } := by
  cases hstep with
  | advance hnext => exact appInv_next h hind hf hnext
  | flush hflush => exact appInv_flush h hind hf hflush
  | fail hfail => exact appInv_fail h hf hfail

theorem appInv_main {st st' : App β} (h : AppInv order charset parent files inputs st)
    (hstep : MainStep st st') : AppInv order charset parent files inputs st' := by
  cases hstep <;> exact ⟨h.next, h.data, h.dir, h.single, h.tasks⟩

end

/-! ## What the main thread has submitted -/

/-- The files of the walk in order, up to the one that the main thread has got to. -/
def Submitted (walk : Walk) (submitted : List Text) : MainThread → Prop
  | .walking rest => submitted ++ regularFiles rest = walk.inputs
  | .awaiting => submitted = walk.inputs
  | .returned .terminated => submitted = walk.inputs
  | .returned .timedOut => submitted = walk.inputs
  | .returned .walkFailed => submitted <+: walk.inputs

/-- The executor has the tasks that the main thread has given it, and no
others; the wait is over when these have ended. -/
structure MainInv (walk : Walk) (st : App β) : Prop where
  submitted : Submitted walk st.submitted st.main
  queued : ∀ f, f ∉ st.submitted → st.task f = .queued
  ended : st.main = .returned .terminated → ∀ f ∈ st.submitted, (st.task f).Ended

section

variable {walk : Walk} {st st' : App β} {f : Text}

theorem Submitted.start_of_walk {submitted : List Text} {main : MainThread}
    (h : Submitted walk submitted main) : submitted <+: walk.inputs := by
  cases main with
  | walking rest => exact ⟨_, h⟩
  | awaiting =>
    have he : submitted = walk.inputs := h
    exact he ▸ List.prefix_rfl
  | returned how =>
    cases how with
    | terminated =>
      have he : submitted = walk.inputs := h
      exact he ▸ List.prefix_rfl
    | timedOut =>
      have he : submitted = walk.inputs := h
      exact he ▸ List.prefix_rfl
    | walkFailed => exact h

theorem MainInv.mem (h : MainInv walk st) (hf : f ∈ st.submitted) : f ∈ walk.inputs :=
  h.submitted.start_of_walk.subset hf

/-- Each regular file is submitted once. -/
theorem MainInv.nodup (h : MainInv walk st) : st.submitted.Nodup := by
  have hinputs : walk.inputs.Nodup := by
    unfold Walk.inputs regularFiles
    exact (List.filter_sublist.map _).nodup walk.nodup
  exact h.submitted.start_of_walk.sublist.nodup hinputs

theorem mainInv_start (files : Files Text β) (walk : Walk) :
    MainInv walk (App.start files walk) where
  submitted := List.nil_append _
  queued := fun _ _ => rfl
  ended := by
    intro h
    cases h

theorem mainInv_main (h : MainInv walk st) (hstep : MainStep st st') : MainInv walk st' := by
  have hsubmitted := h.submitted
  cases hstep with
  | @submit path rest hmain =>
    rw [hmain] at hsubmitted
    refine ⟨?_, ?_, ?_⟩
    · show (st.submitted ++ [path]) ++ regularFiles rest = walk.inputs
      rw [List.append_assoc]
      exact hsubmitted
    · intro f hf
      exact h.queued f fun hmem => hf (List.mem_append_left _ hmem)
    · intro he
      cases he
  | skip hmain =>
    rw [hmain] at hsubmitted
    refine ⟨hsubmitted, h.queued, ?_⟩
    intro he
    cases he
  | walkFails hmain =>
    refine ⟨h.submitted.start_of_walk, h.queued, ?_⟩
    intro he
    cases he
  | shutdown hmain =>
    rw [hmain] at hsubmitted
    refine ⟨(List.append_nil _).symm.trans hsubmitted, h.queued, ?_⟩
    intro he
    cases he
  | terminate hmain hended =>
    rw [hmain] at hsubmitted
    exact ⟨hsubmitted, h.queued, fun _ => hended⟩
  | timeOut hmain =>
    rw [hmain] at hsubmitted
    refine ⟨hsubmitted, h.queued, ?_⟩
    intro he
    cases he

variable [Inhabited β] {order : Order} {charset : Charset β} {parent : Text}
  {now : Files Text β} {task : Task}

/-- A task that has ended makes no step. -/
theorem TaskStep.not_ended (h : TaskStep order charset parent st f now task) :
    (st.task f).Ended = false := by
  cases hs : st.task f with
  | queued => rfl
  | transformed text => rfl
  | deleted text => rfl
  | opened text i flushed => rfl
  | completed =>
    cases h with
    | advance h => rw [hs] at h; cases h
    | flush h => rw [hs] at h; cases h
    | fail h => rw [hs] at h; cases h
  | failed fault failure =>
    cases h with
    | advance h => rw [hs] at h; cases h
    | flush h => rw [hs] at h; cases h
    | fail h => rw [hs] at h; cases h

theorem mainInv_task (h : MainInv walk st) (hf : f ∈ st.submitted)
    (hstep : TaskStep order charset parent st f now task) :
    MainInv walk { st with files := now, task := Function.update st.task f task } where
  submitted := h.submitted
  queued := by
    intro g hg
    have hne : g ≠ f := by
      rintro rfl
      exact hg hf
    exact (Function.update_of_ne hne ..).trans (h.queued g hg)
  ended := by
    intro hmain
    have hended := h.ended hmain f hf
    rw [hstep.not_ended] at hended
    cases hended

/-! ## Every step, every run -/

theorem mainInv_step (st : App β) (a : Action) (st' : App β) (h : MainInv walk st)
    (hstep : st.step order charset parent a = some st') : MainInv walk st' := by
  rcases step_cases hstep with hstep | ⟨f, hf, now, task, htask, rfl⟩
  · exact mainInv_main h hstep
  · exact mainInv_task h hf htask

variable {files : Files Text β}

theorem inv_app_step (hind : Independent order charset parent files walk.inputs) (st : App β)
    (a : Action) (st' : App β)
    (h : AppInv order charset parent files walk.inputs st ∧ MainInv walk st)
    (hstep : st.step order charset parent a = some st') :
    AppInv order charset parent files walk.inputs st' ∧ MainInv walk st' := by
  obtain ⟨happ, hmain⟩ := h
  refine ⟨?_, mainInv_step st a st' hmain hstep⟩
  rcases step_cases hstep with hstep | ⟨f, hf, now, task, htask, rfl⟩
  · exact appInv_main happ hstep
  · exact appInv_task happ hind (hmain.mem hf) htask

/-- What every run of the application keeps. -/
theorem inv_app_run (hind : Independent order charset parent files walk.inputs)
    {schedule : List Action}
    (hrun : exec (App.step order charset parent) (App.start files walk) schedule = some st) :
    AppInv order charset parent files walk.inputs st ∧ MainInv walk st :=
  exec_induction (inv_app_step hind) ⟨appInv_start files walk, mainInv_start files walk⟩ hrun

/-- In every run the executor has been given the regular files of the walk, in
its order, up to where the main thread has got, each of them once; no other
task runs, and when the wait ends because the executor has terminated, the
tasks of all regular files have ended. -/
theorem each_regular_file_is_submitted_once {schedule : List Action}
    (hrun : exec (App.step order charset parent) (App.start files walk) schedule = some st) :
    Submitted walk st.submitted st.main ∧ st.submitted.Nodup ∧
      (∀ f, f ∉ st.submitted → st.task f = .queued) ∧
      (st.main = .returned .terminated → ∀ f ∈ walk.inputs, (st.task f).Ended) := by
  have hinv : MainInv walk st := exec_induction mainInv_step (mainInv_start files walk) hrun
  refine ⟨hinv.submitted, hinv.nodup, hinv.queued, ?_⟩
  intro hmain f hf
  have hall := hinv.submitted
  rw [hmain] at hall
  have he : st.submitted = walk.inputs := hall
  exact hinv.ended hmain f (he ▸ hf)

end

/-! ## A task beside others and a run alone -/

section

variable {order : Order} {charset : Charset β} {parent : Text} {files : Files Text β}
  {inputs : List Text} {st : App β} {f : Text}

/-- No other input that converts has the output file of this one. -/
def OwnOutput (order : Order) (charset : Charset β) (parent : Text) (files : Files Text β)
    (inputs : List Text) (f : Text) : Prop :=
  ∀ g ∈ inputs, g ≠ f → ∀ text, Gives order charset files g text →
    outputFile parent g ≠ outputFile parent f

/-- The result is that of a run of `DimacsProcessor.run` alone, and an output
file that the task has for its own is as that run leaves it. -/
def LeftAsAlone (order : Order) (charset : Charset β) (parent : Text) (files : Files Text β)
    (inputs : List Text) (now : Files Text β) (f : Text) (fault : Option Fault)
    (result : Except Failure Unit) : Prop :=
  ∃ alone, outcome (DimacsProcessor.run order charset fault f (outputFile parent f)) files =
      (result, alone) ∧
    (OwnOutput order charset parent files inputs f →
      now.content (outputFile parent f) = alone.content (outputFile parent f))

/-- The output file at each stage of a task, as it is when the task runs
alone on the files of the start. -/
def AsAlone (order : Order) (charset : Charset β) (parent : Text) (files : Files Text β)
    (inputs : List Text) (now : Files Text β) (f : Text) : Task → Prop
  | .queued => OwnOutput order charset parent files inputs f →
      now.content (outputFile parent f) = files.content (outputFile parent f)
  | .transformed text => Gives order charset files f text ∧
      now.content (outputFile parent f) = files.content (outputFile parent f)
  | .deleted text => Gives order charset files f text ∧ now.content (outputFile parent f) = none
  | .opened text _ flushed => Gives order charset files f text ∧
      now.content (outputFile parent f) = some ((charset.encode text).take flushed)
  | .completed => LeftAsAlone order charset parent files inputs now f none (.ok ())
  | .failed fault failure =>
    LeftAsAlone order charset parent files inputs now f fault (.error failure)

/-- Whoever converts has an output file of its own. -/
theorem Independent.ownOutput (h : Independent order charset parent files inputs) (hf : f ∈ inputs)
    {text : Text} (hgives : Gives order charset files f text) :
    OwnOutput order charset parent files inputs f :=
  fun g hg hne text' hgives' => h.apart g hg f hf hne text' text hgives' hgives

/-- Nobody touches the output file of an input that does not convert and has it for its own. -/
theorem AppInv.content_of_own (h : AppInv order charset parent files inputs st)
    (hown : OwnOutput order charset parent files inputs f)
    (hno : ∀ text, ¬ Gives order charset files f text) :
    st.files.content (outputFile parent f) = files.content (outputFile parent f) := by
  refine h.content_of_dir (h.dir _ fun g hg text hgives he => ?_)
  by_cases hgf : g = f
  · exact hno text (hgf ▸ hgives)
  · exact hown g hg hgf text hgives he.symm

theorem AppInv.asAlone (h : AppInv order charset parent files inputs st) (hf : f ∈ inputs) :
    AsAlone order charset parent files inputs st.files f (st.task f) := by
  have hholds := h.tasks f hf
  cases hs : st.task f with
  | queued =>
    rw [hs] at hholds
    intro hown
    by_cases hgives : ∃ text, Gives order charset files f text
    · obtain ⟨text, hgives⟩ := hgives
      exact h.content_of_dir (hholds text hgives)
    · exact h.content_of_own hown (not_exists.mp hgives)
  | transformed text =>
    rw [hs] at hholds
    exact ⟨hholds.1, h.content_of_dir hholds.2⟩
  | deleted text =>
    rw [hs] at hholds
    refine ⟨hholds.1, ?_⟩
    rw [Files.content, hholds.2, Option.map_none]
  | opened text i flushed =>
    rw [hs] at hholds
    obtain ⟨hgives, hdir, -, -, hdata⟩ := hholds
    exact ⟨hgives, Files.content_eq_some.mpr ⟨i, hdir, hdata⟩⟩
  | completed =>
    rw [hs] at hholds
    obtain ⟨text, hgives, hout⟩ := hholds
    refine ⟨_, (run_of_gives hgives (by decide)).trans (serialize_complete text), fun _ => ?_⟩
    rw [hout, Files.content_put_self]
  | failed fault failure =>
    rw [hs] at hholds
    obtain ⟨alone, halone, hout⟩ := hholds
    refine ⟨alone, halone, fun hown => ?_⟩
    by_cases hgives : ∃ text, Gives order charset files f text
    · obtain ⟨text, hgives⟩ := hgives
      exact hout text hgives
    · -- A run that does not get to a text leaves the files as they are.
      have hno := not_exists.mp hgives
      have hstart : (∀ text, ¬ Gives order charset files f text) ∨ fault = some .reading := .inl hno
      obtain ⟨failure', hrun⟩ := run_of_not_gives (outputFile parent f) hstart
      rw [halone] at hrun
      cases hrun
      exact h.content_of_own hown hno

/-- Whatever the order of the steps, and whatever calls fail, every task is at
each of its stages where it would be alone, it ends with the result and the
output file that it would leave alone, and nothing else changes. -/
theorem every_task_goes_as_it_would_alone [Inhabited β] {walk : Walk}
    (hind : Independent order charset parent files walk.inputs) {schedule : List Action}
    (hrun : exec (App.step order charset parent) (App.start files walk) schedule = some st) :
    (∀ f ∈ walk.inputs, st.files.content f = files.content f ∧
      AsAlone order charset parent files walk.inputs st.files f (st.task f)) ∧
    ∀ p, (∀ f ∈ walk.inputs, ∀ text, Gives order charset files f text → p ≠ outputFile parent f) →
      st.files.content p = files.content p := by
  obtain ⟨hinv, -⟩ := inv_app_run hind hrun
  constructor
  · intro f hf
    exact ⟨hinv.content hind hf, hinv.asAlone hf⟩
  · intro p hp
    exact hinv.content_of_dir (hinv.dir p hp)

end

/-- The writer of one task fails when it is closed, while the other task runs,
which goes on when the time of the wait is over. -/
def mixedRun : List Action :=
  [.visit, .visit, .advance aCnf, .visit, .advance bCnf, .advance aCnf, .advance bCnf,
    .advance aCnf, .flush aCnf 5, .advance bCnf, .fail aCnf (.closing 5), .shutdown, .timeOut,
    .advance bCnf]

theorem mixedRun_isSome :
    (exec (App.step .insertion plain parentFolder)
      (App.start (twoFiles aCnf bCnf positive negative) twoWalk) mixedRun).isSome := by
  decide +kernel

theorem a_task_fails_beside_another :
    ∃ st, exec (App.step .insertion plain parentFolder)
        (App.start (twoFiles aCnf bCnf positive negative) twoWalk) mixedRun = some st ∧
      (∀ f ∈ twoWalk.inputs,
        st.files.content f = (twoFiles aCnf bCnf positive negative).content f ∧
        AsAlone .insertion plain parentFolder (twoFiles aCnf bCnf positive negative)
          twoWalk.inputs st.files f (st.task f)) ∧
      ∀ p, (∀ f ∈ twoWalk.inputs, ∀ text,
          Gives .insertion plain (twoFiles aCnf bCnf positive negative) f text →
          p ≠ outputFile parentFolder f) →
        st.files.content p = (twoFiles aCnf bCnf positive negative).content p := by
  obtain ⟨st, hst⟩ := Option.isSome_iff_exists.mp mixedRun_isSome
  exact ⟨st, hst, every_task_goes_as_it_would_alone (independent_two _) hst⟩

theorem the_two_files_are_submitted_once :
    ∃ st, exec (App.step .insertion plain parentFolder)
        (App.start (twoFiles aCnf bCnf positive negative) twoWalk) mixedRun = some st ∧
      Submitted twoWalk st.submitted st.main ∧ st.submitted.Nodup ∧
      (∀ f, f ∉ st.submitted → st.task f = .queued) ∧
      (st.main = .returned .terminated → ∀ f ∈ twoWalk.inputs, (st.task f).Ended) := by
  obtain ⟨st, hst⟩ := Option.isSome_iff_exists.mp mixedRun_isSome
  exact ⟨st, hst, each_regular_file_is_submitted_once hst⟩

end reductor.application
