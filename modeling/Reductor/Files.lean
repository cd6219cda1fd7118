-- A file system as programs see it through paths, and runs of steps. A
-- directory names files by number: a file that is open is still written when
-- its name is gone or names another one.
import Mathlib.Logic.Function.Basic

namespace reductor.files

/-! ## Files -/

/-- Every number from `next` on is one that no file has had yet. -/
structure Files (π β : Type) where
  dir : π → Option Nat
  data : Nat → List β
  next : Nat
  fresh : ∀ p i, dir p = some i → i < next

namespace Files

variable {π β : Type} {fs : Files π β} {p q : π} {i j : Nat} {new : List β}

/-- The content of the file at a path. -/
def content (fs : Files π β) (p : π) : Option (List β) := (fs.dir p).map fs.data

def setData (fs : Files π β) (i : Nat) (new : List β) : Files π β where
  dir := fs.dir
  data := Function.update fs.data i new
  next := fs.next
  fresh := fs.fresh

/-- A write from the start of a file leaves what stands behind it. -/
def write (fs : Files π β) (i : Nat) (new : List β) : Files π β :=
  fs.setData i (new ++ (fs.data i).drop new.length)

/-- A write at a place in a file: a hole between the end and the place is filled. -/
def writeAt [Inhabited β] (fs : Files π β) (i offset : Nat) (new : List β) : Files π β :=
  fs.setData i ((fs.data i).take offset ++ List.replicate (offset - (fs.data i).length) default ++
    new ++ (fs.data i).drop (offset + new.length))

theorem content_eq_some : fs.content p = some new ↔ ∃ i, fs.dir p = some i ∧ fs.data i = new :=
  Option.map_eq_some_iff

theorem data_write_self (h : fs.data i = []) : (fs.write i new).data i = new := by
  rw [write, setData, h]
  simp

theorem data_write_of_ne (h : j ≠ i) : (fs.write i new).data j = fs.data j :=
  Function.update_of_ne h ..

/-- A write at the end of a file makes it longer. -/
theorem data_writeAt_end [Inhabited β] {offset : Nat} (h : (fs.data i).length = offset) :
    (fs.writeAt i offset new).data i = fs.data i ++ new := by
  refine (Function.update_self ..).trans ?_
  rw [List.take_of_length_le (Nat.le_of_eq h), h, Nat.sub_self, List.drop_of_length_le (by omega)]
  simp

theorem data_writeAt_of_ne [Inhabited β] {offset : Nat} (h : j ≠ i) :
    (fs.writeAt i offset new).data j = fs.data j := Function.update_of_ne h ..

/-! ## Files deleted and created -/

variable [DecidableEq π]

/-- The name goes, and the file stays for those that have it open. -/
def delete (fs : Files π β) (p : π) : Files π β where
  dir := Function.update fs.dir p none
  data := fs.data
  next := fs.next
  fresh := by
    intro q i h
    by_cases hq : q = p
    · rw [hq, Function.update_self] at h
      cases h
    · rw [Function.update_of_ne hq] at h
      exact fs.fresh q i h

/-- A new file, with nothing in it. -/
def create (fs : Files π β) (p : π) : Files π β where
  dir := Function.update fs.dir p (some fs.next)
  data := Function.update fs.data fs.next []
  next := fs.next + 1
  fresh := by
    intro q i h
    by_cases hq : q = p
    · rw [hq, Function.update_self] at h
      cases h
      exact Nat.lt_succ_self _
    · rw [Function.update_of_ne hq] at h
      exact Nat.lt_succ_of_lt (fs.fresh q i h)

/-- The file that a writer at a path writes to: the one that is there, cut to
nothing, or a new one. -/
def openWriter (fs : Files π β) (p : π) : Files π β × Nat :=
  match fs.dir p with
  | some i => (fs.setData i [], i)
  | none => (fs.create p, fs.next)

@[simp] theorem dir_delete_self : (fs.delete p).dir p = none := Function.update_self ..

theorem dir_delete_of_ne (h : q ≠ p) : (fs.delete p).dir q = fs.dir q :=
  Function.update_of_ne h ..

theorem dir_delete_eq_some (h : (fs.delete p).dir q = some i) : fs.dir q = some i := by
  have hne : q ≠ p := by
    rintro rfl
    rw [dir_delete_self] at h
    cases h
  rwa [dir_delete_of_ne hne] at h

@[simp] theorem dir_create_self : (fs.create p).dir p = some fs.next := Function.update_self ..

theorem dir_create_of_ne (h : q ≠ p) : (fs.create p).dir q = fs.dir q :=
  Function.update_of_ne h ..

/-- The number of a new file is one that no other name has. -/
theorem dir_create_eq_some (h : (fs.create p).dir q = some i) :
    (q = p ∧ i = fs.next) ∨ (i ≠ fs.next ∧ fs.dir q = some i) := by
  by_cases hq : q = p
  · rw [hq, dir_create_self, Option.some.injEq] at h
    exact .inl ⟨hq, h.symm⟩
  · rw [dir_create_of_ne hq] at h
    exact .inr ⟨Nat.ne_of_lt (fs.fresh q i h), h⟩

@[simp] theorem data_create_self : (fs.create p).data fs.next = [] := Function.update_self ..

theorem data_create_of_ne (h : i ≠ fs.next) : (fs.create p).data i = fs.data i :=
  Function.update_of_ne h ..

theorem openWriter_of_none (h : fs.dir p = none) : fs.openWriter p = (fs.create p, fs.next) := by
  rw [openWriter, h]

theorem content_delete_self : (fs.delete p).content p = none := by
  rw [content, dir_delete_self, Option.map_none]

theorem content_delete_of_ne (h : q ≠ p) : (fs.delete p).content q = fs.content q := by
  rw [content, content, dir_delete_of_ne h]
  rfl

/-- A new file, and what is written to it at once. -/
def put (fs : Files π β) (p : π) (new : List β) : Files π β := (fs.create p).write fs.next new

theorem content_put_self : (fs.put p new).content p = some new :=
  content_eq_some.mpr ⟨fs.next, dir_create_self, data_write_self data_create_self⟩

/-- No other name has the new file. -/
theorem content_put_of_ne (h : q ≠ p) : (fs.put p new).content q = fs.content q := by
  have hdir : (fs.put p new).dir q = fs.dir q := dir_create_of_ne h
  rw [content, content, hdir]
  cases hi : fs.dir q with
  | none => rfl
  | some i =>
    have hne : i ≠ fs.next := Nat.ne_of_lt (fs.fresh q i hi)
    rw [Option.map_some, Option.map_some, put, data_write_of_ne hne, data_create_of_ne hne]

end Files

/-! ## Runs -/

variable {σ α : Type}

/-- The state after steps in the given order, if each of them is possible. -/
def exec (step : σ → α → Option σ) (s : σ) (schedule : List α) : Option σ := schedule.foldlM step s

theorem exec_append (step : σ → α → Option σ) (s : σ) (first second : List α) :
    exec step s (first ++ second) = (exec step s first).bind fun t => exec step t second :=
  List.foldlM_append

/-- What holds at first and is kept by every step holds after every run. -/
theorem exec_induction {step : σ → α → Option σ} {P : σ → Prop}
    (hstep : ∀ s a s', P s → step s a = some s' → P s') {schedule : List α} {s s' : σ} (h : P s)
    (hrun : exec step s schedule = some s') : P s' := by
  unfold exec at hrun
  induction schedule generalizing s with
  | nil =>
    cases hrun
    exact h
  | cons a schedule ih =>
    rw [List.foldlM_cons] at hrun
    obtain ⟨t, ht, hrun⟩ := Option.bind_eq_some_iff.mp hrun
    exact ih (hstep s a t h ht) hrun

/-- A run is as long as the measure that its steps use up allows. -/
theorem exec_length_le {step : σ → α → Option σ} {P : σ → Prop} {left : σ → Nat}
    (hstep : ∀ s a s', P s → step s a = some s' → P s' ∧ left s' < left s) {schedule : List α}
    {s s' : σ} (h : P s) (hrun : exec step s schedule = some s') :
    schedule.length + left s' ≤ left s := by
  unfold exec at hrun
  induction schedule generalizing s with
  | nil =>
    cases hrun
    exact Nat.le_of_eq (Nat.zero_add _)
  | cons a schedule ih =>
    rw [List.foldlM_cons] at hrun
    obtain ⟨t, ht, hrun⟩ := Option.bind_eq_some_iff.mp hrun
    obtain ⟨hP, hless⟩ := hstep s a t h ht
    have hrest := ih hP hrun
    rw [List.length_cons]
    omega

/-- Where a good step is left as long as the end is not there, good steps lead to the end. -/
theorem exists_exec_end {step : σ → α → Option σ} {P : σ → Prop} {left : σ → Nat}
    {good : α → Prop} {done : σ → Prop}
    (hstep : ∀ s a s', P s → step s a = some s' → P s' ∧ left s' < left s)
    (hgo : ∀ s, P s → ¬ done s → ∃ a s', good a ∧ step s a = some s') {s : σ} (h : P s) :
    ∃ more s', exec step s more = some s' ∧ (∀ a ∈ more, good a) ∧ done s' := by
  induction hn : left s using Nat.strongRecOn generalizing s with
  | _ n ih =>
    by_cases hdone : done s
    · exact ⟨[], s, rfl, fun _ ha => absurd ha List.not_mem_nil, hdone⟩
    · obtain ⟨a, t, hgood, ht⟩ := hgo s h hdone
      obtain ⟨hP, hless⟩ := hstep s a t h ht
      obtain ⟨more, s', hrun, hall, hend⟩ := ih (left t) (hn ▸ hless) hP rfl
      refine ⟨a :: more, s', ?_, List.forall_mem_cons.mpr ⟨hgood, hall⟩, hend⟩
      rw [exec, List.foldlM_cons, ht]
      exact hrun

end reductor.files
