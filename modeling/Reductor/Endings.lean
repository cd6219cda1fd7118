-- The end of the application: its runs are finite, none of its threads waits
-- for ever, and it returns with every task ended unless the time is over or
-- the walk fails.
import Reductor.Tasks

open reductor.java reductor.dimacs reductor.transformer reductor.files

namespace reductor.application

variable {β : Type}

/-! ## What is left to do -/

/-- The units that the writer has to bring to the output file of an input. -/
def outputLength (order : Order) (charset : Charset β) (files : Files Text β) (f : Text) : Nat :=
  match files.content f with
  | some units =>
    match process order (reductor.dimacs.read (charset.decode units)) with
    | .ok text => (charset.encode text).length
    | .error _ => 0
  | none => 0

/-- The steps that a task has before it at most. -/
def Task.left (order : Order) (charset : Charset β) (files : Files Text β) (f : Text) : Task → Nat
  | .queued => 4 + outputLength order charset files f
  | .transformed text => 3 + (charset.encode text).length
  | .deleted text => 2 + (charset.encode text).length
  | .opened text _ flushed => 1 + ((charset.encode text).length - flushed)
  | .completed => 0
  | .failed _ _ => 0

def MainThread.left : MainThread → Nat
  | .walking rest => rest.length + 2
  | .awaiting => 1
  | .returned _ => 0

def App.left (order : Order) (charset : Charset β) (files : Files Text β) (walk : Walk)
    (st : App β) : Nat :=
  st.main.left + (walk.inputs.map fun f => (st.task f).left order charset files f).sum

/-- The steps that a run can have. -/
def stepBound (order : Order) (charset : Charset β) (files : Files Text β) (walk : Walk) : Nat :=
  walk.entries.length + 2 +
    (walk.inputs.map fun f => 4 + outputLength order charset files f).sum

section

variable {order : Order} {charset : Charset β} {parent : Text} {files : Files Text β}
  {walk : Walk} {st st' : App β} {f : Text} {now : Files Text β} {task : Task}

theorem outputLength_of_gives {text : Text} (h : Gives order charset files f text) :
    outputLength order charset files f = (charset.encode text).length := by
  obtain ⟨units, hunits, hprocess⟩ := h
  simp only [outputLength, hunits, hprocess]

theorem Task.left_pos (h : task.Ended = false) : 0 < task.left order charset files f := by
  cases task with
  | completed => cases h
  | failed fault failure => cases h
  | queued => exact Nat.lt_of_lt_of_le (by decide : 0 < 4) (Nat.le_add_right _ _)
  | transformed text => exact Nat.lt_of_lt_of_le (by decide : 0 < 3) (Nat.le_add_right _ _)
  | deleted text => exact Nat.lt_of_lt_of_le (by decide : 0 < 2) (Nat.le_add_right _ _)
  | opened text i flushed => exact Nat.lt_of_lt_of_le (by decide : 0 < 1) (Nat.le_add_right _ _)

variable [Inhabited β]

theorem left_next (hcontent : st.files.content f = files.content f)
    (h : (st.task f).next order charset f (outputFile parent f) st.files = some (now, task)) :
    task.left order charset files f < (st.task f).left order charset files f := by
  cases hs : st.task f with
  | queued =>
    rw [hs] at h
    unfold Task.next at h
    dsimp only at h
    rw [hcontent] at h
    cases hunits : files.content f with
    | none =>
      rw [hunits] at h
      cases h
      exact Task.left_pos rfl
    | some units =>
      rw [hunits] at h
      cases h
      cases hp : process order (reductor.dimacs.read (charset.decode units)) with
      | ok text =>
        have hlength := outputLength_of_gives ⟨units, hunits, hp⟩
        simp only [Task.left, transformedTask, hlength]
        omega
      | error thrown => exact Task.left_pos rfl
  | transformed text =>
    rw [hs] at h
    cases h
    simp only [Task.left]
    omega
  | deleted text =>
    rw [hs] at h
    cases h
    simp only [Task.left]
    omega
  | opened text i flushed =>
    rw [hs] at h
    cases h
    exact Task.left_pos rfl
  | completed => rw [hs] at h; cases h
  | failed fault failure => rw [hs] at h; cases h

theorem left_flush {count : Nat}
    (h : (st.task f).flush charset count st.files = some (now, task)) :
    task.left order charset files f < (st.task f).left order charset files f := by
  cases hs : st.task f with
  | opened text i flushed =>
    rw [hs] at h
    obtain ⟨⟨hpos, hcount⟩, h⟩ := Option.ite_none_right_eq_some.mp h
    cases h
    simp only [Task.left]
    omega
  | queued => rw [hs] at h; cases h
  | transformed text => rw [hs] at h; cases h
  | deleted text => rw [hs] at h; cases h
  | completed => rw [hs] at h; cases h
  | failed fault failure => rw [hs] at h; cases h

theorem TaskStep.left (hcontent : st.files.content f = files.content f)
    (h : TaskStep order charset parent st f now task) :
    task.left order charset files f < (st.task f).left order charset files f := by
  have hgoing := h.not_ended
  cases h with
  | advance hnext => exact left_next hcontent hnext
  | flush hflush => exact left_flush hflush
  | fail hfail => exact Task.left_pos hgoing

omit [Inhabited β] in
theorem MainStep.left (h : MainStep st st') :
    st'.left order charset files walk < st.left order charset files walk := by
  have hmain : st'.main.left < st.main.left ∧ st'.task = st.task := by
    cases h with
    | submit hmain => exact ⟨hmain ▸ Nat.lt_succ_self _, rfl⟩
    | skip hmain => exact ⟨hmain ▸ Nat.lt_succ_self _, rfl⟩
    | walkFails hmain => exact ⟨hmain ▸ Nat.succ_pos _, rfl⟩
    | shutdown hmain => exact ⟨hmain ▸ Nat.lt_succ_self _, rfl⟩
    | terminate hmain _ => exact ⟨hmain ▸ Nat.succ_pos _, rfl⟩
    | timeOut hmain => exact ⟨hmain ▸ Nat.succ_pos _, rfl⟩
  unfold App.left
  rw [hmain.2]
  exact Nat.add_lt_add_right hmain.1 _

/-- Every step, also one that fails, uses up some of what is left. -/
theorem left_step (hind : Independent order charset parent files walk.inputs) (st : App β)
    (a : Action) (st' : App β)
    (h : AppInv order charset parent files walk.inputs st ∧ MainInv walk st)
    (hstep : st.step order charset parent a = some st') :
    (AppInv order charset parent files walk.inputs st' ∧ MainInv walk st') ∧
      st'.left order charset files walk < st.left order charset files walk := by
  refine ⟨inv_app_step hind st a st' h hstep, ?_⟩
  obtain ⟨happ, hmain⟩ := h
  rcases step_cases hstep with hstep | ⟨f, hf, now, task, htask, rfl⟩
  · exact hstep.left
  · have hmem := hmain.mem hf
    have hless : task.left order charset files f < (st.task f).left order charset files f :=
      htask.left (happ.content hind hmem)
    apply Nat.add_lt_add_left
    refine List.sum_lt_sum _ _ (fun g _ => ?_) ⟨f, hmem, ?_⟩ <;> dsimp only
    · by_cases hg : g = f
      · rw [hg, Function.update_self]
        exact Nat.le_of_lt hless
      · rw [Function.update_of_ne hg]
    · rw [Function.update_self]
      exact hless

/-! ## A step is left -/

end

/-- Steps of which none fails and none gives up. -/
def Action.Proper : Action → Bool
  | .visit => true
  | .shutdown => true
  | .terminate => true
  | .advance _ => true
  | .walkFails => false
  | .timeOut => false
  | .fail _ _ => false
  | .flush _ _ => false

/-- The main thread has returned, and so have the threads of the executor. -/
structure App.Done (st : App β) : Prop where
  returned : ∃ how, st.main = .returned how
  ended : ∀ f ∈ st.submitted, (st.task f).Ended

section

variable [Inhabited β] {order : Order} {charset : Charset β} {parent : Text}
  {files : Files Text β} {walk : Walk} {st : App β} {f : Text}

theorem exists_next (h : (st.task f).Ended = false) :
    ∃ now task, (st.task f).next order charset f (outputFile parent f) st.files =
      some (now, task) := by
  cases hs : st.task f with
  | queued =>
    unfold Task.next
    cases st.files.content f with
    | some units => exact ⟨_, _, rfl⟩
    | none => exact ⟨_, _, rfl⟩
  | transformed text => exact ⟨_, _, rfl⟩
  | deleted text => exact ⟨_, _, rfl⟩
  | opened text i flushed => exact ⟨_, _, rfl⟩
  | completed => rw [hs] at h; cases h
  | failed fault failure => rw [hs] at h; cases h

/-- No task waits for another one. -/
theorem exists_advance (hf : f ∈ st.submitted) (h : (st.task f).Ended = false) :
    ∃ st', st.step order charset parent (.advance f) = some st' := by
  obtain ⟨now, task, hnext⟩ := exists_next h
  refine ⟨{ st with files := now, task := Function.update st.task f task }, ?_⟩
  show st.setTask f _ = _
  rw [App.setTask, if_pos (List.contains_iff_mem.mpr hf), hnext, Option.map_some]

theorem exists_proper_step (order : Order) (charset : Charset β) (parent : Text) (h : ¬ st.Done) :
    ∃ a st', a.Proper ∧ st.step order charset parent a = some st' := by
  by_cases hended : ∀ f ∈ st.submitted, (st.task f).Ended
  · cases hmain : st.main with
    | walking rest =>
      rcases rest with _ | ⟨⟨path, regular⟩, rest⟩
      · refine ⟨.shutdown, { st with main := .awaiting }, rfl, ?_⟩
        exact if_pos hmain
      · refine ⟨.visit, { st with
          main := .walking rest
          submitted := if regular then st.submitted ++ [path] else st.submitted }, rfl, ?_⟩
        unfold App.step
        dsimp only
        rw [hmain]
    | awaiting =>
      refine ⟨.terminate, { st with main := .returned .terminated }, rfl, ?_⟩
      exact if_pos ⟨hmain, hended⟩
    | returned how => exact absurd ⟨⟨how, hmain⟩, hended⟩ h
  · push Not at hended
    obtain ⟨f, hf, hgoing⟩ := hended
    obtain ⟨st', hstep⟩ := exists_advance hf (Bool.eq_false_iff.mpr hgoing)
    exact ⟨.advance f, st', rfl, hstep⟩

/-- No run has more steps than the walk, the calls and the units to write ask
for. A run that cannot go on properly is done, and every run, whatever has
failed in it, goes on properly to its end. -/
theorem every_run_is_finite_and_can_be_done
    (hind : Independent order charset parent files walk.inputs) {schedule : List Action}
    (hrun : exec (App.step order charset parent) (App.start files walk) schedule = some st) :
    schedule.length ≤ stepBound order charset files walk ∧
      ((∀ a, a.Proper → st.step order charset parent a = none) → st.Done) ∧
      ∃ more st', exec (App.step order charset parent) st more = some st' ∧
        (∀ a ∈ more, a.Proper) ∧ st'.Done := by
  have hinv := inv_app_run hind hrun
  refine ⟨?_, ?_, ?_⟩
  · have hlength := exec_length_le (left_step hind)
      ⟨appInv_start files walk, mainInv_start files walk⟩ hrun
    exact Nat.le_of_add_right_le hlength
  · intro hstuck
    by_contra hdone
    obtain ⟨a, st', hproper, hstep⟩ := exists_proper_step order charset parent hdone
    rw [hstuck a hproper] at hstep
    cases hstep
  · exact exists_exec_end (left_step hind)
      (fun s _ hs => exists_proper_step order charset parent hs) hinv

end

theorem the_mixed_run_can_be_done :
    ∃ st, exec (App.step .insertion plain parentFolder)
        (App.start (twoFiles aCnf bCnf positive negative) twoWalk) mixedRun = some st ∧
      mixedRun.length ≤
        stepBound .insertion plain (twoFiles aCnf bCnf positive negative) twoWalk ∧
      ((∀ a, a.Proper → st.step .insertion plain parentFolder a = none) → st.Done) ∧
      ∃ more st', exec (App.step .insertion plain parentFolder) st more = some st' ∧
        (∀ a ∈ more, a.Proper) ∧ st'.Done := by
  obtain ⟨st, hst⟩ := Option.isSome_iff_exists.mp mixedRun_isSome
  exact ⟨st, hst, every_run_is_finite_and_can_be_done (independent_two _) hst⟩

end reductor.application
