import AsyncTaskEngine.ThreadPoolProgress

/-!
# The order in which the pool executes

With several workers, tasks need not start in the order in which they were
accepted: a worker may be delayed between its pop and its call.  The pool is
still first come, first served up to the tasks that the other workers have in
hand: `nearly_fifo`.

A worker leaves the queue alone only if it is executing a task or the queue is
empty.  So when the code of the pool has nothing left to do, as many tasks are
under way as there are workers to execute them: `work_conserving`.
-/

namespace AsyncTaskEngine
namespace ThreadPool

universe u v w

variable {N : Nat} {ι : Type u} {π : Type v} {ℓ : Type w}

/-- The tasks of a list that have not been finished. -/
def unfinishedTasks (tr : List (Event N ι π ℓ)) (tasks : List (Task π)) : List (Task π) :=
  tasks.filter fun task => timesIn task.id (finishedTasks tr) = 0

/-- The worker has popped the task and not finished it. -/
def InHand (tr : List (Event N ι π ℓ)) (w : Fin N) (task : Task π) : Prop :=
  .popped w task ∈ tr ∧ .finished w task ∉ tr

/-- The number of tasks that the thread is executing, one or none. -/
def Ctrl.executions (c : Ctrl π) : Nat :=
  c.executing.length

theorem Ctrl.holds_length_le (c : Ctrl π) : c.holds.length ≤ 1 := by
  cases c <;> simp [Ctrl.holds, Ctrl.taken, Ctrl.executing]

theorem Ctrl.holds_unique {c : Ctrl π} {x y : Task π} (hx : x ∈ c.holds) (hy : y ∈ c.holds) :
    x = y := by
  cases c <;> simp_all [Ctrl.holds, Ctrl.taken, Ctrl.executing]

@[simp] theorem unfinishedTasks_append (tr : List (Event N ι π ℓ)) (l₁ l₂ : List (Task π)) :
    unfinishedTasks tr (l₁ ++ l₂) = unfinishedTasks tr l₁ ++ unfinishedTasks tr l₂ := by
  simp [unfinishedTasks]

/-- All tasks of a list are unfinished. -/
theorem unfinishedTasks_eq_self {tr : List (Event N ι π ℓ)} {tasks : List (Task π)}
    (h : ∀ task ∈ tasks, timesIn task.id (finishedTasks tr) = 0) :
    unfinishedTasks tr tasks = tasks := by
  rw [unfinishedTasks, List.filter_eq_self]
  intro task hmem
  exact decide_eq_true (h task hmem)

/-- All tasks of a list are finished. -/
theorem unfinishedTasks_finished (tr : List (Event N ι π ℓ)) :
    unfinishedTasks tr (finishedTasks tr) = [] := by
  rw [unfinishedTasks, List.filter_eq_nil_iff]
  intro task hmem
  have hpos := timesIn_pos hmem
  rw [decide_eq_true_eq]
  omega

variable [DecidableEq ι] [Fintype ι]

/-- The number of workers that are executing a task. -/
def State.executions (s : State N ι π) : Nat :=
  total Ctrl.executions fun w : Fin N => s.ctrl (.inl w)

section Order

variable {s : State N ι π} {tr : List (Event N ι π ℓ)}

/-- The unfinished tasks among those that have been popped are in some worker's hand. -/
theorem unfinished_popped (hr : (pool N ι π ℓ).Reach s tr) :
    (unfinishedTasks tr (poppedTasks tr)).length =
      total (fun c => c.holds.length) fun w : Fin N => s.ctrl (.inl w) := by
  have hcount := popped_count hr fun task => decide (timesIn task.id (finishedTasks tr) = 0)
  have hfinished := congrArg List.length (unfinishedTasks_finished tr)
  rw [unfinishedTasks, ← List.countP_eq_length_filter] at hfinished
  rw [hfinished, List.length_nil, Nat.zero_add] at hcount
  rw [unfinishedTasks, ← List.countP_eq_length_filter, hcount]
  refine total_congr fun w => ?_
  rw [List.countP_eq_length]
  intro task hmem
  exact decide_eq_true (held_unfinished hr hmem)

/-- The unfinished tasks: those in hand and those in the queue. -/
theorem unfinished_accepted (hr : (pool N ι π ℓ).Reach s tr) :
    (unfinishedTasks tr (acceptedTasks tr)).length =
      (total (fun c => c.holds.length) fun w : Fin N => s.ctrl (.inl w)) +
        s.queue.contents.tasks.length := by
  rw [accepted_eq_popped_append hr, unfinishedTasks_append, List.length_append,
    unfinished_popped hr, unfinishedTasks_eq_self fun task => queued_unfinished hr]

omit [DecidableEq ι] [Fintype ι] in
/-- The workers have at most `N` tasks in their hands. -/
theorem holds_le (s : State N ι π) :
    (total (fun c => c.holds.length) fun w : Fin N => s.ctrl (.inl w)) ≤ N := by
  have hle := total_mono (g := fun c : Ctrl π => c.holds.length) (h := fun _ => 1)
    (f := fun w : Fin N => s.ctrl (.inl w)) (k := fun w : Fin N => s.ctrl (.inl w))
    fun w => Ctrl.holds_length_le _
  simpa [total] using hle

/--
First come, first served, up to `N - 1`: when a task starts, every task that was
accepted before it has been finished or is in the hands of another worker, and
each of these is in the hands of a worker of its own.
-/
theorem nearly_fifo (hr : (pool N ι π ℓ).Reach s tr) {pre post : List (Event N ι π ℓ)}
    {w : Fin N} {task : Task π} (htr : tr = pre ++ .started w task :: post) :
    ∃ earlier later, acceptedTasks pre = earlier ++ task :: later ∧
      (unfinishedTasks pre earlier).length + 1 ≤ N ∧
      ∃ ws : List (Fin N), (w :: ws).Nodup ∧
        List.Forall₂ (InHand pre) ws (unfinishedTasks pre earlier) := by
  obtain ⟨s₀, s₁, hr₀, heff⟩ := emitted_effect hr htr
  cases heff with
  | @started _ _ drained hw hctrl hs =>
      have hheld : task ∈ (s₀.ctrl (.inl w)).holds := by
        rw [hw]
        exact List.mem_singleton_self _
      obtain ⟨earlier, rest, hpopped⟩ := List.append_of_mem (popped_of_held hr₀ hheld)
      have hacc := accepted_eq_popped_append hr₀
      rw [hpopped, List.append_assoc, List.cons_append] at hacc
      have hnodup := accepted_nodup hr₀
      rw [hacc] at hnodup
      obtain ⟨hearlier, _, hapart⟩ := List.nodup_append.mp hnodup
      -- every unfinished task before this one is in the hands of some worker
      have hholder : ∀ x, x ∈ unfinishedTasks pre earlier →
          ∃ u, .popped u x ∈ pre ∧ x ∈ (s₀.ctrl (.inl u)).holds := by
        intro x hx
        obtain ⟨hmem, hzero⟩ := List.mem_filter.mp hx
        obtain ⟨u, hu⟩ := mem_poppedTasks.mp (hpopped ▸ List.mem_append_left _ hmem)
        refine ⟨u, hu, held_of_pop hr₀ hu fun hfin => ?_⟩
        have := timesIn_pos hfin
        have := of_decide_eq_true hzero
        omega
      have : Nonempty (Fin N) := ⟨w⟩
      choose! holder hpop hhold using hholder
      have hws : (w :: (unfinishedTasks pre earlier).map holder).Nodup := by
        refine List.nodup_cons.mpr ⟨?_, ?_⟩
        · intro hmem
          obtain ⟨x, hx, heq⟩ := List.mem_map.mp hmem
          have hsame := Ctrl.holds_unique (heq ▸ hhold x hx) hheld
          exact hapart x (List.mem_of_mem_filter hx) task List.mem_cons_self hsame
        · refine List.Nodup.map_on (fun x hx y hy heq => ?_) (hearlier.filter _)
          exact Ctrl.holds_unique (hhold x hx) (heq ▸ hhold y hy)
      refine ⟨earlier, rest ++ s₀.queue.contents.tasks, hacc, ?_, _, hws, ?_⟩
      · have hlen := hws.length_le_card
        rwa [List.length_cons, List.length_map, Fintype.card_fin] at hlen
      · rw [List.forall₂_map_left_iff, List.forall₂_same]
        intro x hx
        refine ⟨hpop x hx, fun hfin => ?_⟩
        have hzero := held_unfinished hr₀ (hhold x hx)
        have := timesIn_pos (mem_finishedTasks.mpr ⟨_, hfin⟩)
        omega

/-- The second task starts first: the worker that has popped the first one is delayed. -/
theorem nearly_fifo_delayedWorker :
    ∃ (pre : List (Event 2 Unit Nat Empty)) (earlier later : List (Task Nat)) (ws : List (Fin 2)),
      startedTasks pre = [] ∧ acceptedTasks pre = earlier ++ ⟨1, 8⟩ :: later ∧
        (unfinishedTasks pre earlier).length + 1 ≤ 2 ∧ (1 :: ws).Nodup ∧
          List.Forall₂ (InHand pre) ws (unfinishedTasks pre earlier) := by
  have hr := Machine.reach_of_exec (M := pool 2 Unit Nat Empty)
    [.submit (.inr ()) 7, .advance (.inr ()), .notify (.inr ()) none,
      .submit (.inr ()) 8, .advance (.inr ()), .notify (.inr ()) none,
      .test 0, .test 1, .advance (.inl 0), .advance (.inl 1), .start 1] rfl
  have htr := (rfl : _ = ([.submitCalled (.inr ()) ⟨0, 7⟩, .accepted (.inr ()) ⟨0, 7⟩,
      .submitReturned (.inr ()) ⟨0, 7⟩, .submitCalled (.inr ()) ⟨1, 8⟩,
      .accepted (.inr ()) ⟨1, 8⟩, .submitReturned (.inr ()) ⟨1, 8⟩, .popped 0 ⟨0, 7⟩,
      .popped 1 ⟨1, 8⟩] : List (Event 2 Unit Nat Empty)) ++ .started 1 ⟨1, 8⟩ :: [])
  obtain ⟨earlier, later, hacc, hle, ws, hnodup, hhands⟩ := nearly_fifo hr htr
  exact ⟨_, earlier, later, ws, rfl, hacc, hle, hnodup, hhands⟩

/-- In a quiescent pool a worker executes what it holds. -/
theorem Quiescent.holds (hq : Quiescent ℓ s) (hr : (pool N ι π ℓ).Reach s tr) :
    (total (fun c => c.holds.length) fun w : Fin N => s.ctrl (.inl w)) = s.executions := by
  refine total_congr fun w => ?_
  rcases hq.worker (agrees_reach hr) w with hret | ⟨hwait, _⟩ | ⟨task, drained, hrun⟩
  · rw [hret]
    rfl
  · rw [hwait]
    rfl
  · rw [hrun]
    rfl

/--
The pool conserves work: when its code cannot move, the workers execute all
unfinished tasks, or every worker executes one.
-/
theorem work_conserving (hr : (pool N ι π ℓ).Reach s tr) (hq : Quiescent ℓ s) :
    s.executions = min N (unfinishedTasks tr (acceptedTasks tr)).length := by
  have haccepted := unfinished_accepted hr
  have hle := holds_le s
  rw [hq.holds hr] at haccepted hle
  by_cases htasks : s.queue.contents.tasks = []
  · rw [haccepted, htasks, List.length_nil, Nat.add_zero, Nat.min_eq_right hle]
  · have hall : s.executions = N := by
      calc s.executions
          = total (fun _ : Ctrl π => 1) fun w : Fin N => s.ctrl (.inl w) := by
            refine total_congr fun w => ?_
            obtain ⟨task, drained, hrun⟩ := hq.all_running hr htasks w
            rw [hrun]
            rfl
        _ = N := by simp [total]
    rw [haccepted, hall, Nat.min_eq_left (Nat.le_add_right _ _)]

/-- One worker and two tasks: one is being executed, the other one waits. -/
theorem work_conserving_busyWorker :
    ∃ (s : State 1 Unit Nat) (tr : List (Event 1 Unit Nat Empty)),
      acceptedTasks tr = [⟨0, 7⟩, ⟨1, 8⟩] ∧
        s.executions = min 1 (unfinishedTasks tr (acceptedTasks tr)).length := by
  obtain ⟨s, tr, hr, hp⟩ := Machine.exists_reach_of_exec (M := pool 1 Unit Nat Empty)
    [.submit (.inr ()) 7, .advance (.inr ()), .notify (.inr ()) none,
      .submit (.inr ()) 8, .advance (.inr ()), .notify (.inr ()) none,
      .test 0, .advance (.inl 0), .start 0]
    (p := fun r => decide (acceptedTasks r.2 = [⟨0, 7⟩, ⟨1, 8⟩] ∧
      (∀ t, (step (ℓ := Empty) r.1 (.advance t)).isNone = true) ∧
      (∀ t, (step (ℓ := Empty) r.1 (.notify t none)).isNone = true) ∧
      (∀ t u, (step (ℓ := Empty) r.1 (.notify t (some u))).isNone = true) ∧
      (∀ t, (step (ℓ := Empty) r.1 (.requestStop t)).isNone = true) ∧
      (∀ w, (step (ℓ := Empty) r.1 (.test w)).isNone = true) ∧
      (∀ w, (step (ℓ := Empty) r.1 (.drain w)).isNone = true) ∧
      ∀ w, (step (ℓ := Empty) r.1 (.start w)).isNone = true))
    (by decide)
  obtain ⟨hacc, hadvance, hnone, hsome, hrequest, htest, hdrain, hstart⟩ :=
    of_decide_eq_true hp
  refine ⟨s, tr, hacc, work_conserving hr fun a ha => ?_⟩
  rw [← Option.isNone_iff_eq_none]
  cases a with
  | advance t => exact hadvance t
  | notify t pick =>
      cases pick with
      | none => exact hnone t
      | some u => exact hsome t u
  | requestStop t => exact hrequest t
  | test w => exact htest w
  | drain w => exact hdrain w
  | start w => exact hstart w
  | _ => cases ha

end Order

end ThreadPool
end AsyncTaskEngine
