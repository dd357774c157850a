import AsyncTaskEngine.ThreadPoolProgress

/-!
# Shutting down ends

Once a call of `shutdown()` has returned, every worker has been asked to stop
and the queue accepts nothing.  What the code of the pool still has to do is
then finite: `State.todo` adds up the steps that the threads have before them,
with five for each task that is still queued.  Every step of the pool's own code
lowers it, and user code raises it only by calling `submit` or `shutdown` again.

The main result, `shutdown_terminates`, bounds the length of every schedule that
continues such a run, and says where a schedule ends that cannot be continued:
all `worker_loop`s have returned and every accepted task has been executed.
-/

namespace AsyncTaskEngine
namespace ThreadPool

open BlockingMonitor (Call Inner finishPop advance_inner notify_inner spurious_inner)

universe u v w

variable {N : Nat} {ι : Type u} {π : Type v} {ℓ : Type w}

/-- The steps that a call of user code still has before it, on a closed queue. -/
def UserPc.todo (N : Nat) : UserPc π → Nat
  | .code => 0
  | .submitting _ => 1
  | .notifying _ => 1
  | .shutting => N + 3
  | .waking => N + 2
  | .stopping i => N - i + 1

/-- The steps that a thread still has before it, on a closed queue without tasks. -/
def Ctrl.todo (N : Nat) : Ctrl π → Nat
  | .test => 3
  | .waiting => 4
  | .got _ drained => if drained then 4 else 5
  | .running _ drained u => (if drained then 3 else 4) + u.todo N
  | .drain => 2
  | .draining => 1
  | .returned => 0
  | .outside u => u.todo N

/-- What an action adds to the steps that lie ahead, its own included. -/
def Act.calls (N : Nat) : Act N ι π ℓ → Nat
  | .submit _ _ => 2
  | .shutdown _ => N + 4
  | .user _ _ => 1
  | .spurious _ => 1
  | _ => 0

/-- The task of a worker ends. -/
def Act.isFinish : Act N ι π ℓ → Bool
  | .finish _ => true
  | _ => false

/-- User code that moves on changes its thread's share by its own. -/
theorem Ctrl.todo_setUser {c : Ctrl π} {u : UserPc π} (hu : c.user? = some u)
    (v : UserPc π) : (c.setUser v).todo N + u.todo N = c.todo N + v.todo N := by
  cases c with
  | running task drained u' =>
      cases hu
      simp only [Ctrl.setUser, Ctrl.todo]
      omega
  | outside u' =>
      cases hu
      simp only [Ctrl.setUser, Ctrl.todo]
      omega
  | _ => cases hu

variable [DecidableEq ι] [Fintype ι]

/-- The steps that lie ahead of a pool that has been shut down. -/
def State.todo (s : State N ι π) : Nat :=
  5 * s.queue.contents.tasks.length + total (Ctrl.todo N) s.ctrl

section Steps

variable {s s' : State N ι π} {t : Tid N ι} {c : Ctrl π} {k : Nat}

/-- A step of one thread that leaves the tasks in the queue. -/
theorem todo_of_ctrl (hctrl : s'.ctrl = Function.update s.ctrl t c)
    (htasks : s'.queue.contents.tasks = s.queue.contents.tasks)
    (hle : c.todo N + 1 ≤ (s.ctrl t).todo N + k) : s'.todo + 1 ≤ s.todo + k := by
  have hupdate := total_update (Ctrl.todo N) s.ctrl t c
  rw [State.todo, State.todo, hctrl, htasks]
  omega

/-- A step of user code. -/
theorem todo_of_user {u v : UserPc π} (hu : (s.ctrl t).user? = some u)
    (hctrl : s'.ctrl = Function.update s.ctrl t ((s.ctrl t).setUser v))
    (htasks : s'.queue.contents.tasks = s.queue.contents.tasks)
    (hle : v.todo N + 1 ≤ u.todo N + k) : s'.todo + 1 ≤ s.todo + k := by
  have hset := Ctrl.todo_setUser (N := N) hu v
  refine todo_of_ctrl hctrl htasks ?_
  omega

/-- A worker takes a task from the queue. -/
theorem todo_of_pop {w : Fin N} {task : Task π} {tasks : List (Task π)} (drained : Bool)
    (hw : s.ctrl (.inl w) = if drained then .draining else .waiting)
    (hctrl : s'.ctrl = Function.update s.ctrl (.inl w) (.got task drained))
    (htasks : s.queue.contents.tasks = task :: tasks)
    (htasks' : s'.queue.contents.tasks = tasks) : s'.todo + 1 ≤ s.todo := by
  have hupdate := total_update (Ctrl.todo N) s.ctrl (.inl w) (.got task drained)
  rw [State.todo, State.todo, hctrl, htasks, htasks', List.length_cons]
  rw [hw] at hupdate
  cases drained <;> simp only [Ctrl.todo, if_true, Bool.false_eq_true, if_false] at hupdate <;>
    omega

/-- A step inside a call to the queue, when every worker has been asked to stop. -/
theorem todo_inner (hag : Agrees s) {q : QueueState N ι π}
    {es : List (BlockingMonitor.Event (Tid N ι) (Fin N) (Task π) (Task π))}
    (hclosed : s.queue.contents.shutdown = true) (hstop : ∀ w, s.queue.stopped w = true)
    (h : Inner (TaskQueue.sections (Task π)) s.queue q es)
    (hspur : ∀ t k, s.queue.call t ≠ .asleep k) :
    (deliverAll (ℓ := ℓ) (s.setQueue q) es).1.todo + 1 ≤ s.todo := by
  cases h with
  | @reject t task hc hp =>
      have hu := Ctrl.agrees_push (hc ▸ hag t)
      exact todo_of_user (k := 0) hu rfl rfl (Nat.le_refl _)
  | @accept t task c hc hp =>
      obtain ⟨hopen, _⟩ := TaskQueue.push_eq_some.mp hp
      rw [hclosed] at hopen
      cases hopen
  | @tryPop t hc =>
      obtain ⟨hctrl, w, rfl⟩ := Ctrl.agrees_tryPop (hc ▸ hag t)
      have hpop : (TaskQueue.sections (Task π)).tryPop s.queue.contents =
        TaskQueue.tryPop s.queue.contents := rfl
      rw [hpop]
      cases htasks : s.queue.contents.tasks with
      | nil =>
          rw [TaskQueue.tryPop_nil htasks]
          exact todo_of_ctrl (k := 0) (t := .inl w) (c := .returned) rfl rfl
            (by rw [hctrl]; exact Nat.le_refl _)
      | cons task tasks =>
          rw [TaskQueue.tryPop_cons htasks]
          simp only [finishPop]
          rw [deliverAll_popped true hctrl]
          exact todo_of_pop true hctrl rfl htasks rfl
  | @leave t k hc hr =>
      obtain ⟨hctrl, rfl⟩ := Ctrl.agrees_wait (hag t) (hc.imp_right .inr)
      have hpop : (TaskQueue.sections (Task π)).tryPop s.queue.contents =
        TaskQueue.tryPop s.queue.contents := rfl
      rw [hpop]
      cases htasks : s.queue.contents.tasks with
      | nil =>
          rw [TaskQueue.tryPop_nil htasks]
          exact todo_of_ctrl (k := 0) (t := .inl k) (c := .test) rfl rfl
            (by rw [hctrl]; exact Nat.le_refl _)
      | cons task tasks =>
          rw [TaskQueue.tryPop_cons htasks]
          simp only [finishPop]
          rw [deliverAll_popped false hctrl]
          exact todo_of_pop false hctrl rfl htasks rfl
  | @sleep t k hc hr hk =>
      rw [hstop k] at hk
      cases hk
  | @close t hc =>
      have hu := Ctrl.agrees_shutdown (hc ▸ hag t)
      exact todo_of_user (k := 0) hu rfl rfl (Nat.le_refl _)
  | @notifyAll t hc =>
      have hu := Ctrl.agrees_notifyAll (hc ▸ hag t)
      exact todo_of_user (k := 0) (v := .stopping 0) hu rfl rfl (Nat.le_refl _)
  | @size t hc => exact (Ctrl.not_agrees_size (hc ▸ hag t)).elim
  | @notifyNone t hc hno =>
      obtain ⟨task, hu⟩ := Ctrl.agrees_notifyOne (hc ▸ hag t)
      rw [deliverAll_pushReturned hu]
      exact todo_of_user (k := 0) hu rfl rfl (Nat.le_refl _)
  | @notifyOne t u k hc hk => exact (hspur u k hk).elim
  | @spurious t k hc => exact (hspur t k hc).elim

/-- A call of user code enters the queue. -/
theorem queueStep_inner {a : BlockingMonitor.Act (Tid N ι) (Fin N) (Task π)}
    {es : List (Event N ι π ℓ)} (hag : Agrees s)
    (hclosed : s.queue.contents.shutdown = true) (hstop : ∀ w, s.queue.stopped w = true)
    (hspur : ∀ t k, s.queue.call t ≠ .asleep k)
    (hinner : ∀ {q qes}, BlockingMonitor.step (TaskQueue.sections (Task π)) s.queue a =
      some (q, qes) → Inner (TaskQueue.sections (Task π)) s.queue q qes)
    (h : queueStep s a = some (s', es)) : s'.todo + 1 ≤ s.todo := by
  obtain ⟨⟨q, qes⟩, hq, heq⟩ := Option.map_eq_some_iff.mp h
  have hle := todo_inner (ℓ := ℓ) hag hclosed hstop (hinner hq) hspur
  rw [heq] at hle
  exact hle

/-- Every step lowers what lies ahead, unless user code makes a call. -/
theorem todo_step (hag : Agrees s) {a : Act N ι π ℓ} {es : List (Event N ι π ℓ)}
    (hclosed : s.queue.contents.shutdown = true) (hstop : ∀ w, s.queue.stopped w = true)
    (hspur : ∀ t k, s.queue.call t ≠ .asleep k)
    (h : step s a = some (s', es)) : s'.todo + 1 ≤ s.todo + a.calls N := by
  cases a with
  | advance t =>
      exact queueStep_inner (a := .advance t) hag hclosed hstop hspur
        (advance_inner TaskQueue.lawful) h
  | notify t pick =>
      exact queueStep_inner (a := .notify t pick) hag hclosed hstop hspur notify_inner h
  | spurious t =>
      exact Nat.le_trans (queueStep_inner hag hclosed hstop hspur spurious_inner h)
        (Nat.le_add_right _ _)
  | test w =>
      simp only [step] at h
      split at h
      case h_1 hw =>
        obtain ⟨rfl, rfl⟩ := by simpa [hstop w] using h
        exact todo_of_ctrl (k := 0) rfl rfl (by rw [hw]; exact Nat.le_refl _)
      case h_2 => cases h
  | drain w =>
      simp only [step] at h
      split at h
      case h_1 hw =>
        have hidle := hag.idle hw fun _ hc => hc.2
        rw [queueStep_enter (c := .tryPop) (t := .inl w) (by
          simp [BlockingMonitor.step, State.setCtrl, hidle])] at h
        obtain ⟨rfl, rfl⟩ := by simpa using h
        exact todo_of_ctrl (k := 0) (t := .inl w) (c := .draining) rfl rfl
          (by rw [hw]; exact Nat.le_refl _)
      case h_2 => cases h
  | start w =>
      simp only [step] at h
      split at h
      case h_1 task drained hw =>
        obtain ⟨rfl, rfl⟩ := by simpa using h
        refine todo_of_ctrl (k := 0) rfl rfl ?_
        rw [hw]
        cases drained <;> exact Nat.le_refl _
      case h_2 => cases h
  | requestStop t =>
      simp only [step] at h
      split at h
      case h_1 i hu =>
        split at h
        · next hi =>
            obtain ⟨rfl, rfl⟩ := by
              simpa [queueStep, BlockingMonitor.step, deliverAll, deliver] using h
            refine todo_of_user (k := 0) hu rfl rfl ?_
            simp only [UserPc.todo]
            omega
        · next hi =>
            obtain ⟨rfl, rfl⟩ := by simpa using h
            refine todo_of_user (k := 0) hu rfl rfl ?_
            simp only [UserPc.todo]
            omega
      case h_2 => cases h
  | finish w =>
      simp only [step] at h
      split at h
      case h_1 task drained hw =>
        obtain ⟨rfl, rfl⟩ := by simpa using h
        refine todo_of_ctrl (k := 0) rfl rfl ?_
        rw [hw]
        cases drained <;> exact Nat.le_refl _
      case h_2 => cases h
  | submit t body =>
      simp only [step] at h
      split at h
      case h_1 hu =>
        have hidle := Ctrl.agrees_idle (hag t) hu (.inl rfl)
        rw [queueStep_enter (c := .push ⟨s.nextId, body⟩) (t := t) (by
          simp [BlockingMonitor.step, State.setCtrl, hidle])] at h
        obtain ⟨rfl, rfl⟩ := by simpa using h
        exact todo_of_user (v := .submitting ⟨s.nextId, body⟩) hu rfl rfl (Nat.le_refl _)
      case h_2 => cases h
  | shutdown t =>
      simp only [step] at h
      split at h
      case h_1 hu =>
        have hidle := Ctrl.agrees_idle (hag t) hu (.inl rfl)
        rw [queueStep_enter (c := .shutdown) (t := t) (by
          simp [BlockingMonitor.step, State.setCtrl, hidle])] at h
        obtain ⟨rfl, rfl⟩ := by simpa using h
        refine todo_of_user (v := .shutting) hu rfl rfl ?_
        simp only [UserPc.todo, Act.calls]
        omega
      case h_2 => cases h
  | user t label =>
      simp only [step] at h
      split at h
      case h_1 hu =>
        obtain ⟨rfl, rfl⟩ := by simpa using h
        exact Nat.le_refl _
      case h_2 => cases h

end Steps

section Stopping

variable {s s' : State N ι π} {tr es : List (Event N ι π ℓ)}

/-- The workers that a call of `shutdown` has asked to stop. -/
structure Asked (s : State N ι π) (tr : List (Event N ι π ℓ)) : Prop where
  loop : ∀ t i, (s.ctrl t).user? = some (.stopping i) →
    ∀ w : Fin N, w.val < i → s.queue.stopped w = true
  returned : ∀ t, .shutdownReturned t ∈ tr → ∀ w, s.queue.stopped w = true

omit [Fintype ι] in
/-- Where the loop of `shutdown` stands after a step. -/
theorem Effect.stopping_inv (h : Effect s s' es) {t : Tid N ι} {i : Nat}
    (hu : (s'.ctrl t).user? = some (.stopping i)) :
    (s.ctrl t).user? = some (.stopping i) ∨ i = 0 ∨
      ∃ j, ∃ hj : j < N, (s.ctrl t).user? = some (.stopping j) ∧ i = j + 1 ∧
        s'.queue.stopped = Function.update s.queue.stopped ⟨j, hj⟩ true := by
  -- a thread that has not moved, or has moved on to `c`
  have hmoved : ∀ {t' : Tid N ι} {c : Ctrl π} {P : Prop},
      s'.ctrl = Function.update s.ctrl t' c →
        (t' = t → c.user? = some (.stopping i) → P) →
          (s.ctrl t).user? = some (.stopping i) ∨ P := by
    intro t' c P hctrl hc
    rcases ctrl_moved hctrl t with heq | ⟨ht, heq⟩
    · exact .inl (heq ▸ hu)
    · exact .inr (hc ht (heq ▸ hu))
  have hset : ∀ {t' : Tid N ι} {x v : UserPc π}, (s.ctrl t').user? = some x →
      ((s.ctrl t').setUser v).user? = some (.stopping i) → v = .stopping i := by
    intro t' x v hx hv
    rw [Ctrl.user?_setUser hx] at hv
    exact Option.some.inj hv
  cases h with
  | silent hctrl hs => exact .inl (hctrl ▸ hu)
  | user label hu' hs => exact .inl (hs ▸ hu)
  | control hmove hctrl hs =>
      refine hmoved hctrl fun ht hc => ?_
      cases hmove with
      | shut hx => cases hset hx hc
      | loop hx =>
          cases hset hx hc
          exact .inl rfl
      | _ => cases hc
  | stopRequested hi hx hctrl hcont hst hn =>
      refine hmoved hctrl fun ht hc => ?_
      cases hset hx hc
      exact .inr ⟨_, hi, ht ▸ hx, rfl, hst⟩
  | submitCalled body hx hctrl | accepted hx hctrl | rejected hx hctrl
  | submitReturned hx hctrl | closed hx hctrl | shutdownReturned hi hx hctrl =>
      exact hmoved hctrl fun ht hc => by cases hset hx hc
  | started hv hctrl | popped drained hv htasks hctrl | exited hv htasks hctrl =>
      exact hmoved hctrl fun ht hc => by cases hc
  | @finished _ _ drained hv hctrl =>
      exact hmoved hctrl fun ht hc => by cases drained <;> cases hc

omit [Fintype ι] in
/-- `shutdown` returns at the end of its loop. -/
theorem Effect.shutdownReturned_inv (h : Effect s s' es) {t : Tid N ι}
    (hmem : .shutdownReturned t ∈ es) :
    ∃ i, ¬ i < N ∧ (s.ctrl t).user? = some (.stopping i) := by
  cases h with
  | shutdownReturned hi hu hctrl hs =>
      cases List.mem_singleton.mp hmem
      exact ⟨_, hi, hu⟩
  | _ => simp at hmem

omit [Fintype ι] in
theorem Asked.step (inv : Asked s tr) (h : Effect s s' es) : Asked s' (tr ++ es) where
  loop t i hu w hw := by
    rcases h.stopping_inv hu with hsame | rfl | ⟨j, hj, hprev, rfl, hst⟩
    · exact (h.stopped_inv w).1 (inv.loop t i hsame w hw)
    · exact absurd hw (Nat.not_lt_zero _)
    · rw [hst, Function.update_apply]
      split
      · rfl
      · next hne =>
          refine inv.loop t j hprev w (lt_of_le_of_ne (Nat.le_of_lt_succ hw) ?_)
          exact fun heq => hne (Fin.ext heq)
  returned t hmem w := by
    refine (h.stopped_inv w).1 ?_
    rcases List.mem_append.mp hmem with hmem | hmem
    · exact inv.returned t hmem w
    · obtain ⟨i, hi, hu⟩ := h.shutdownReturned_inv hmem
      exact inv.loop t i hu w (lt_of_lt_of_le w.isLt (Nat.not_lt.mp hi))

theorem asked_init : Asked (pool N ι π ℓ).init ([] : List (Event N ι π ℓ)) := by
  constructor
  · rintro (w | e) i hu <;> cases hu
  · intro t hmem
    cases hmem

/-- A call of `shutdown` that has returned has asked every worker to stop. -/
theorem asked_reach (hr : (pool N ι π ℓ).Reach s tr) : Asked s tr :=
  reach_induction hr asked_init fun _ inv h => inv.step h

/-- With every worker asked to stop, nobody sleeps in the queue. -/
theorem awake_of_stopped (hr : (pool N ι π ℓ).Reach s tr)
    (hstop : ∀ w, s.queue.stopped w = true) (t : Tid N ι) (k : Fin N) :
    s.queue.call t ≠ .asleep k := by
  intro hsleep
  obtain ⟨qtr, hqr⟩ := queue_reach hr
  have inv := BlockingMonitor.wakeupInv_reach TaskQueue.lawful hqr
  have hno := inv.stopping t k hsleep
  rw [hstop k] at hno
  cases hno

end Stopping

section Termination

variable {s : State N ι π} {tr : List (Event N ι π ℓ)}

/-- What is left to happen to a pool that has been shut down. -/
structure Terminates (s : State N ι π) (tr : List (Event N ι π ℓ)) : Prop where
  /-- No schedule takes more than `s.todo` steps, and what `Act.calls` adds to them. -/
  bounded : ∀ {as : List (Act N ι π ℓ)} {s' es},
    (pool N ι π ℓ).exec s as = some (s', es) →
      as.length + s'.todo ≤ s.todo + (as.map (Act.calls N)).sum
  /-- A schedule in which every callable ends stops when every worker has returned. -/
  joined : ∀ {as : List (Act N ι π ℓ)} {s' es},
    (pool N ι π ℓ).exec s as = some (s', es) →
      (∀ a : Act N ι π ℓ, a.owed = true ∨ a.isFinish = true → step s' a = none) →
        (∀ w, s'.ctrl (.inl w) = .returned) ∧
          (finishedTasks (tr ++ es)).Perm (acceptedTasks tr)

/-- Nothing is accepted after `shutdown` has returned. -/
theorem accepts_nothing (hr : (pool N ι π ℓ).Reach s tr) {es : List (Event N ι π ℓ)}
    (hclosed : s.queue.contents.shutdown = true) {s' : State N ι π}
    (hr' : (pool N ι π ℓ).Reach s' (tr ++ es)) : acceptedTasks es = [] := by
  obtain ⟨u, hmem⟩ := (shutdown_iff_closed hr).mp hclosed
  rw [List.eq_nil_iff_forall_not_mem]
  intro task htask
  obtain ⟨t, hacc⟩ := mem_acceptedTasks.mp htask
  obtain ⟨pre, post, rfl⟩ := List.append_of_mem hacc
  exact accepted_before_closed hr' (List.append_assoc _ _ _).symm u
    (List.mem_append_left _ hmem)

/-- A worker that cannot move has returned. -/
theorem returned_of_stuck (hr : (pool N ι π ℓ).Reach s tr)
    (hclosed : s.queue.contents.shutdown = true)
    (hstuck : ∀ a : Act N ι π ℓ, a.owed = true ∨ a.isFinish = true → step s a = none)
    (w : Fin N) : s.ctrl (.inl w) = .returned := by
  have hq : Quiescent ℓ s := fun a ha => hstuck a (.inl ha)
  rcases hq.closed hr hclosed w with hret | ⟨task, drained, hrun⟩
  · exact hret
  · have hfinish := hstuck (.finish w) (.inr rfl)
    rw [step, hrun] at hfinish
    cases hfinish

/--
Once `shutdown` has returned, `~ThreadPool` need not wait forever if the tasks
end: the workers take a bounded number of steps, and the joins come back when
all accepted tasks have been executed.
-/
theorem shutdown_terminates (hN : 0 < N) (hr : (pool N ι π ℓ).Reach s tr) {t : Tid N ι}
    (hret : .shutdownReturned t ∈ tr) : Terminates s tr where
  bounded he := by
    refine Machine.exec_amortized (M := pool N ι π ℓ) State.todo (Act.calls N)
      (I := fun s tr => (pool N ι π ℓ).Reach s tr ∧ .shutdownReturned t ∈ tr)
      (B := fun _ => True) (fun _ _ _ => trivial) ?_ ?_ ⟨hr, hret⟩ he trivial
    · rintro s tr a s' es ⟨hr, hret⟩ hs
      exact ⟨.step hr hs, List.mem_append_left _ hret⟩
    · rintro s tr a s' es ⟨hr, hret⟩ _ hs
      have hstop := (asked_reach hr).returned t hret
      exact todo_step (agrees_reach hr) ((phases_reach hr).stops ⟨0, hN⟩ (hstop _)) hstop
        (awake_of_stopped hr hstop) hs
  joined he hstuck := by
    have hr' := hr.exec he
    have hclosed := (phases_reach hr).stops ⟨0, hN⟩ ((asked_reach hr).returned t hret _)
    have hstop' := (asked_reach hr').returned t (List.mem_append_left _ hret)
    have hall := returned_of_stuck hr' ((phases_reach hr').stops ⟨0, hN⟩ (hstop' _)) hstuck
    refine ⟨hall, ?_⟩
    have hpopped := accepted_eq_popped_append hr'
    rw [(phases_reach hr').exits ⟨0, hN⟩ (hall _), List.append_nil, acceptedTasks_append,
      accepts_nothing hr hclosed hr', List.append_nil] at hpopped
    rw [hpopped]
    exact ((finished_subperm_started hr').trans (started_subperm_popped hr')).antisymm
      (popped_subperm_finished hr' hall)

/-- Two tasks are queued when `shutdown` returns; the worker has yet to see them. -/
theorem shutdown_terminates_queuedTasks :
    ∃ (s : State 1 Unit Nat) (tr : List (Event 1 Unit Nat Empty)),
      acceptedTasks tr = [⟨0, 7⟩, ⟨1, 8⟩] ∧ startedTasks tr = [] ∧ s.todo = 13 ∧
        Terminates s tr := by
  obtain ⟨s, tr, hr, hp⟩ := Machine.exists_reach_of_exec (M := pool 1 Unit Nat Empty)
    [.submit (.inr ()) 7, .advance (.inr ()), .notify (.inr ()) none,
      .submit (.inr ()) 8, .advance (.inr ()), .notify (.inr ()) none,
      .shutdown (.inr ()), .advance (.inr ()), .advance (.inr ()), .requestStop (.inr ()),
      .requestStop (.inr ())]
    (p := fun r => decide (acceptedTasks r.2 = [⟨0, 7⟩, ⟨1, 8⟩] ∧ startedTasks r.2 = [] ∧
      r.1.todo = 13 ∧ .shutdownReturned (.inr ()) ∈ r.2))
    (by decide)
  obtain ⟨hacc, hstarted, htodo, hret⟩ := of_decide_eq_true hp
  exact ⟨s, tr, hacc, hstarted, htodo, shutdown_terminates (by decide) hr hret⟩

end Termination

end ThreadPool
end AsyncTaskEngine
