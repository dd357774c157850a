import AsyncTaskEngine.BlockingMonitor

/-!
# TaskQueue: the unbounded blocking FIFO queue

A model of `task_queue.hpp`.  The critical sections of the source are given to
`BlockingMonitor`, which supplies the mutex, the condition variable and the
stop tokens.  Tasks are of an arbitrary type.
-/

namespace AsyncTaskEngine
namespace TaskQueue

open BlockingMonitor (Sections)

universe u

variable {τ : Type u}

/-- `tasks_` and `shutdown_`. -/
structure Contents (τ : Type u) where
  tasks : List τ
  shutdown : Bool

/-- The locked part of `push`. -/
def push (task : τ) (q : Contents τ) : Option (Contents τ) :=
  if q.shutdown then none else some { q with tasks := q.tasks ++ [task] }

/-- `try_pop`. -/
def tryPop (q : Contents τ) : Contents τ × Option τ :=
  match q.tasks with
  | [] => (q, none)
  | task :: tasks => ({ q with tasks := tasks }, some task)

/-- The predicate of `wait_and_pop`. -/
def ready (q : Contents τ) : Bool :=
  !q.tasks.isEmpty || q.shutdown

/-- What `wait_and_pop` does after the wait. -/
def afterWait (gotWork : Bool) (q : Contents τ) : Contents τ × Option τ :=
  if !gotWork || q.tasks.isEmpty then (q, none)
  else
    match q.tasks with
    | [] => (q, none)
    | task :: tasks => ({ q with tasks := tasks }, some task)

/-- The locked part of `shutdown`. -/
def shutdown (q : Contents τ) : Contents τ :=
  { q with shutdown := true }

/-- The critical sections of `TaskQueue`. -/
def sections (τ : Type u) : Sections (Contents τ) τ τ where
  init := { tasks := [], shutdown := false }
  push := push
  tryPop := tryPop
  ready := ready
  afterWait := afterWait
  shutdown := shutdown
  closed := fun q => q.shutdown
  size := fun q => q.tasks.length

theorem push_eq_some {q q' : Contents τ} {task : τ} :
    push task q = some q' ↔
      q.shutdown = false ∧ { q with tasks := q.tasks ++ [task] } = q' := by
  unfold push
  split <;> simp_all

theorem tryPop_nil {q : Contents τ} (h : q.tasks = []) : tryPop q = (q, none) := by
  simp [tryPop, h]

theorem tryPop_cons {q : Contents τ} {task : τ} {tasks : List τ}
    (h : q.tasks = task :: tasks) :
    tryPop q = ({ q with tasks := tasks }, some task) := by
  simp [tryPop, h]

/-- The test of `got_work` is redundant: the wait returns its predicate. -/
theorem afterWait_ready (q : Contents τ) : afterWait (ready q) q = tryPop q := by
  cases h : q.tasks with
  | nil => simp [afterWait, tryPop, h]
  | cons task tasks => simp [afterWait, tryPop, ready, h]

theorem lawful : (sections τ).Lawful where
  size_init := rfl
  closed_init := rfl
  ready_iff q := by
    show ready q = true ↔ 0 < q.tasks.length ∨ q.shutdown = true
    cases h : q.tasks <;> simp [ready, h]
  push_eq_none task q := by
    show push task q = none ↔ q.shutdown = true
    simp [push]
  size_push task q q' h := by
    simp only [sections, push] at h ⊢
    split at h
    · cases h
    · cases h
      simp
  closed_push task q q' h := by
    simp only [sections, push] at h ⊢
    split at h
    · cases h
    · cases h
      rfl
  size_tryPop q := by
    show (tryPop q).1.tasks.length = q.tasks.length - 1
    cases h : q.tasks with
    | nil => simp [tryPop_nil h, h]
    | cons task tasks => simp [tryPop_cons h]
  closed_tryPop q := by
    show (tryPop q).1.shutdown = q.shutdown
    cases h : q.tasks with
    | nil => rw [tryPop_nil h]
    | cons task tasks => rw [tryPop_cons h]
  tryPop_eq_none q := by
    show (tryPop q).2 = none ↔ q.tasks.length = 0
    cases h : q.tasks with
    | nil => simp [tryPop_nil h]
    | cons task tasks => simp [tryPop_cons h]
  tryPop_none q := by
    show (tryPop q).2 = none → (tryPop q).1 = q
    cases h : q.tasks with
    | nil => simp [tryPop_nil h]
    | cons task tasks => simp [tryPop_cons h]
  afterWait_ready := afterWait_ready
  size_shutdown _ := rfl
  closed_shutdown _ := rfl

end TaskQueue
end AsyncTaskEngine
