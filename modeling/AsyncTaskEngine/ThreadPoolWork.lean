import AsyncTaskEngine.ThreadPoolProgress
import Mathlib.Data.Fintype.BigOperators

/-!
# The workers do not spin, but for one window

The steps of a pool are paid for by the calls of its users: a `submit` pays for
its own two steps, for the worker it wakes, and for the execution of its task; a
`shutdown` pays for the workers it wakes and stops.  `State.credit` is what has
been paid and not yet used.  A worker that finds nothing to do goes to sleep, so
that waiting costs nothing.

There is one exception.  Between `queue_.shutdown()` and the `request_stop` of a
worker, `wait_and_pop` comes back at once without a task, and the test of
`worker_loop` sends the worker back to it.  The main result, `work_paid`, counts
these steps apart, and shows that they are taken only while some thread is inside
`shutdown()`; `spin_repeats` shows that nothing else bounds them.
-/

namespace AsyncTaskEngine
namespace ThreadPool

open BlockingMonitor (Call Inner finishPop advance_inner notify_inner spurious_inner)

universe u v w

variable {N : Nat} {ι : Type u} {π : Type v} {ℓ : Type w}

/-- What has been paid for the steps of user code inside a call. -/
def UserPc.credit (N : Nat) : UserPc π → Nat
  | .code => 0
  | .submitting _ => 7
  | .notifying _ => 2
  | .shutting => 7 * N + 3
  | .waking => 7 * N + 2
  | .stopping i => 6 * (N - i) + 1

/-- A thread, whether it has been asked to stop, and whether it sleeps. -/
structure View (π : Type v) where
  ctrl : Ctrl π
  stopped : Bool
  asleep : Bool

/-- What has been paid for the steps of a thread. -/
def View.credit (N : Nat) (x : View π) : Nat :=
  match x.ctrl with
  | .test => if x.stopped then 3 else 2
  | .waiting => if x.stopped then 4 else if x.asleep then 0 else 1
  | .got _ drained => if drained then 4 else if x.stopped then 5 else 4
  | .running _ drained u =>
      (if drained then 3 else if x.stopped then 4 else 3) + u.credit N
  | .drain => 2
  | .draining => 1
  | .returned => 0
  | .outside u => u.credit N

/-- What an action pays, its own step included. -/
def Act.price (N : Nat) : Act N ι π ℓ → Nat
  | .submit _ _ => 8
  | .shutdown _ => 7 * N + 4
  | .user _ _ => 1
  | .spurious _ => 2
  | _ => 0

/-- The control state is in the loop of `shutdown`, with `request_stop` due on `w`. -/
def Ctrl.willStop (c : Ctrl π) (w : Fin N) : Bool :=
  match c.user? with
  | some .waking => true
  | some (.stopping i) => decide (i ≤ w.val)
  | _ => false

/-- Whether the thread has been asked to stop. -/
def State.stoppedAt (s : State N ι π) : Tid N ι → Bool
  | .inl w => s.queue.stopped w
  | .inr _ => false

def State.view (s : State N ι π) (t : Tid N ι) : View π where
  ctrl := s.ctrl t
  stopped := s.stoppedAt t
  asleep := (s.queue.call t).isAsleep

/-- `wait_and_pop` returns without a task to a worker that has not been asked to stop. -/
def State.spins (s : State N ι π) : Act N ι π ℓ → Bool
  | .advance (.inl w) =>
      match s.ctrl (.inl w) with
      | .waiting =>
          s.queue.contents.tasks.isEmpty && s.queue.contents.shutdown && !s.queue.stopped w
      | _ => false
  | _ => false

variable [DecidableEq ι] [Fintype ι]

/-- What has been paid and not yet used. -/
def State.credit (s : State N ι π) : Nat :=
  4 * s.queue.contents.tasks.length + total (View.credit N) s.view

section Credit

variable {s s' : State N ι π} {t : Tid N ι} {c : Ctrl π} {k : Nat}

/-- A step of one thread, during which others are woken or asked to stop. -/
theorem credit_of_rise (r : Tid N ι → Nat)
    (hrise : ∀ u, u ≠ t → (s'.view u).credit N ≤ (s.view u).credit N + r u)
    (hle : 4 * s'.queue.contents.tasks.length + (s'.view t).credit N + Finset.univ.sum r + 1 ≤
      4 * s.queue.contents.tasks.length + (s.view t).credit N + k) :
    s'.credit + 1 ≤ s.credit + k := by
  have htotal := total_le_of_rise (View.credit N) t r hrise
  rw [State.credit, State.credit]
  omega

/-- A step of one thread that does not concern the others. -/
theorem credit_of_move {x : Call (Fin N) (Task π)}
    (hctrl : s'.ctrl = Function.update s.ctrl t c)
    (hcall : s'.queue.call = Function.update s.queue.call t x)
    (hst : s'.queue.stopped = s.queue.stopped)
    (hle : 4 * s'.queue.contents.tasks.length +
        View.credit N ⟨c, s.stoppedAt t, x.isAsleep⟩ + 1 ≤
      4 * s.queue.contents.tasks.length + (s.view t).credit N + k) :
    s'.credit + 1 ≤ s.credit + k := by
  have hstopped : ∀ u, s'.stoppedAt u = s.stoppedAt u := by
    rintro (w | e)
    · exact congrFun hst w
    · rfl
  refine credit_of_rise (t := t) (fun _ => 0) ?_ ?_
  · intro u hu
    simp only [State.view, hctrl, hcall, hstopped, Function.update_of_ne hu]
    exact Nat.le_refl _
  · have hview : s'.view t = ⟨c, s.stoppedAt t, x.isAsleep⟩ := by
      simp only [State.view, hctrl, hcall, hstopped, Function.update_self]
    rw [hview, Finset.sum_const_zero]
    omega

omit [DecidableEq ι] [Fintype ι] in
theorem view_of_eq (hctrl : s'.ctrl t = s.ctrl t) (hcall : s'.queue.call t = s.queue.call t)
    (hst : s'.queue.stopped = s.queue.stopped) : s'.view t = s.view t := by
  have hstopped : s'.stoppedAt t = s.stoppedAt t := by
    cases t with
    | inl w => exact congrFun hst w
    | inr e => rfl
  rw [State.view, State.view, hctrl, hcall, hstopped]

omit [DecidableEq ι] [Fintype ι] in
/-- User code that moves on uses or gets its own credit. -/
theorem View.credit_setUser {u : UserPc π} (hu : c.user? = some u) (v : UserPc π)
    (b d d' : Bool) :
    View.credit N ⟨c.setUser v, b, d⟩ + u.credit N = View.credit N ⟨c, b, d'⟩ + v.credit N := by
  cases c with
  | running task drained u' =>
      cases hu
      simp only [Ctrl.setUser, View.credit]
      omega
  | outside u' =>
      cases hu
      simp only [Ctrl.setUser, View.credit]
      omega
  | _ => cases hu

/-- A step of one thread that leaves the tasks in the queue. -/
theorem credit_of_quiet {x : Call (Fin N) (Task π)}
    (hctrl : s'.ctrl = Function.update s.ctrl t c)
    (hcall : s'.queue.call = Function.update s.queue.call t x)
    (hst : s'.queue.stopped = s.queue.stopped)
    (htasks : s'.queue.contents.tasks = s.queue.contents.tasks)
    (hle : View.credit N ⟨c, s.stoppedAt t, x.isAsleep⟩ + 1 ≤
      View.credit N ⟨s.ctrl t, s.stoppedAt t, (s.queue.call t).isAsleep⟩ + k) :
    s'.credit + 1 ≤ s.credit + k := by
  refine credit_of_move hctrl hcall hst ?_
  rw [htasks, State.view]
  omega

/-- A step of user code. -/
theorem credit_of_user {u v : UserPc π} {x : Call (Fin N) (Task π)}
    (hu : (s.ctrl t).user? = some u)
    (hctrl : s'.ctrl = Function.update s.ctrl t ((s.ctrl t).setUser v))
    (hcall : s'.queue.call = Function.update s.queue.call t x)
    (hst : s'.queue.stopped = s.queue.stopped)
    (htasks : s'.queue.contents.tasks = s.queue.contents.tasks)
    (hle : v.credit N + 1 ≤ u.credit N + k) : s'.credit + 1 ≤ s.credit + k := by
  have hset := View.credit_setUser (N := N) hu v (s.stoppedAt t) x.isAsleep
    (s.queue.call t).isAsleep
  refine credit_of_quiet hctrl hcall hst htasks ?_
  omega

omit [DecidableEq ι] [Fintype ι] in
/-- Waking a thread pays for one step at most. -/
theorem View.credit_wake (c : Ctrl π) (b d d' : Bool) :
    View.credit N ⟨c, b, d'⟩ ≤ View.credit N ⟨c, b, d⟩ + 1 := by
  cases c with
  | waiting => cases b <;> cases d <;> cases d' <;> simp [View.credit]
  | _ => exact Nat.le_succ _

omit [DecidableEq ι] [Fintype ι] in
/-- Only workers sleep. -/
theorem View.credit_outside {e : ι} {x : Call (Fin N) (Task π)}
    (hag : c.agrees (.inr e) x) (b d d' : Bool) :
    View.credit N ⟨c, b, d'⟩ = View.credit N ⟨c, b, d⟩ := by
  cases c with
  | waiting =>
      obtain ⟨w, hw, _⟩ := hag
      cases hw
  | _ => rfl

omit [DecidableEq ι] [Fintype ι] in
/-- A stop request pays for four steps at most, -/
theorem View.credit_stop (c : Ctrl π) (b d d' : Bool) :
    View.credit N ⟨c, true, d'⟩ ≤ View.credit N ⟨c, b, d⟩ + 4 := by
  cases c with
  | waiting => cases b <;> cases d <;> simp [View.credit]
  | got task drained | running task drained u =>
      cases b <;> cases drained <;> simp only [View.credit] <;> simp <;> omega
  | test => cases b <;> simp [View.credit]
  | _ => exact Nat.le_add_right _ _

omit [DecidableEq ι] [Fintype ι] in
/-- and for one if the worker is executing a task. -/
theorem View.credit_stopSelf {u : UserPc π} (hu : c.user? = some u) (b d d' : Bool) :
    View.credit N ⟨c, true, d'⟩ ≤ View.credit N ⟨c, b, d⟩ + 1 := by
  cases c with
  | running task drained u' =>
      cases b <;> cases drained <;> simp only [View.credit] <;> simp
      omega
  | outside u' => exact Nat.le_succ _
  | _ => cases hu

omit [DecidableEq ι] in
/-- One step for each worker. -/
theorem sum_workers :
    (Finset.univ.sum fun t : Tid N ι => if t.isLeft = true then 1 else 0) = N := by
  rw [Fintype.sum_sum_type]
  simp only [Sum.isLeft_inl, Sum.isLeft_inr, if_true, Bool.false_eq_true, if_false,
    Finset.sum_const, Finset.card_univ, Fintype.card_fin]
  show N * 1 + _ * 0 = N
  omega

end Credit

section Steps

variable {s s' : State N ι π} {t : Tid N ι} {q : QueueState N ι π}
variable {qes : List (BlockingMonitor.Event (Tid N ι) (Fin N) (Task π) (Task π))}

/-- The critical section of `push`. -/
theorem credit_push {task : Task π} (hag : Agrees s) (hc : s.queue.call t = .push task)
    (h : BlockingMonitor.advance (TaskQueue.sections (Task π)) s.queue t = some (q, qes)) :
    (deliverAll (ℓ := ℓ) (s.setQueue q) qes).1.credit + 1 ≤ s.credit := by
  have hu := Ctrl.agrees_push (hc ▸ hag t)
  simp only [BlockingMonitor.advance, hc] at h
  split at h
  · next hp =>
      obtain ⟨rfl, rfl⟩ := by simpa using h
      exact credit_of_user (k := 0) (v := .code) hu rfl rfl rfl rfl (by simp [UserPc.credit])
  · next contents hp =>
      obtain ⟨hopen, rfl⟩ := TaskQueue.push_eq_some.mp hp
      obtain ⟨rfl, rfl⟩ := by simpa using h
      have hset := View.credit_setUser (N := N) hu (.notifying task) (s.stoppedAt t) false
        (s.queue.call t).isAsleep
      refine credit_of_move (k := 0) (t := t) (c := (s.ctrl t).setUser (.notifying task))
        (x := .notifyOne) rfl rfl rfl ?_
      have hlen : (s.queue.contents.tasks ++ [task]).length =
        s.queue.contents.tasks.length + 1 := List.length_append
      show 4 * (s.queue.contents.tasks ++ [task]).length +
        View.credit N ⟨_, s.stoppedAt t, false⟩ + 1 ≤ _
      rw [hlen, State.view]
      simp only [UserPc.credit] at hset
      omega

/-- A worker takes a task out of the queue. -/
theorem credit_pop {w : Fin N} {task : Task π} {tasks : List (Task π)} (drained : Bool)
    (hw : s.ctrl (.inl w) = if drained then .draining else .waiting)
    (hasleep : (s.queue.call (.inl w)).isAsleep = false)
    (hctrl : s'.ctrl = Function.update s.ctrl (.inl w) (.got task drained))
    (hcall : s'.queue.call = Function.update s.queue.call (.inl w) .idle)
    (hst : s'.queue.stopped = s.queue.stopped)
    (htasks : s.queue.contents.tasks = task :: tasks)
    (htasks' : s'.queue.contents.tasks = tasks) : s'.credit + 1 ≤ s.credit := by
  refine credit_of_move (k := 0) hctrl hcall hst ?_
  rw [htasks, htasks', State.view, hw, hasleep]
  cases drained <;> cases s.stoppedAt (.inl w) <;> simp [View.credit] <;> omega

/-- The critical section of `try_pop`. -/
theorem credit_tryPop (hag : Agrees s) (hc : s.queue.call t = .tryPop)
    (h : BlockingMonitor.advance (TaskQueue.sections (Task π)) s.queue t = some (q, qes)) :
    (deliverAll (ℓ := ℓ) (s.setQueue q) qes).1.credit + 1 ≤ s.credit := by
  obtain ⟨hctrl, w, rfl⟩ := Ctrl.agrees_tryPop (hc ▸ hag t)
  simp only [BlockingMonitor.advance, hc] at h
  have hpop : (TaskQueue.sections (Task π)).tryPop s.queue.contents =
    TaskQueue.tryPop s.queue.contents := rfl
  rw [hpop] at h
  cases htasks : s.queue.contents.tasks with
  | nil =>
      rw [TaskQueue.tryPop_nil htasks] at h
      obtain ⟨rfl, rfl⟩ := Prod.mk.inj (Option.some.inj h)
      refine credit_of_quiet (k := 0) (t := .inl w) (c := .returned) (x := .idle)
        rfl rfl rfl rfl ?_
      rw [hctrl]
      exact Nat.le_refl _
  | cons task tasks =>
      rw [TaskQueue.tryPop_cons htasks] at h
      obtain ⟨rfl, rfl⟩ := Prod.mk.inj (Option.some.inj h)
      rw [deliverAll_popped true hctrl]
      exact credit_pop true hctrl (by rw [hc]; rfl) rfl rfl rfl htasks rfl

/-- The predicate of `wait_and_pop` is evaluated. -/
theorem credit_wait {w : Fin N} (hag : Agrees s) (hc : (s.queue.call t).checks w)
    (h : BlockingMonitor.check (TaskQueue.sections (Task π)) s.queue t w = (q, qes)) :
    (deliverAll (ℓ := ℓ) (s.setQueue q) qes).1.credit + 1 ≤
      s.credit + 2 * (s.spins (ℓ := ℓ) (.advance t)).toNat := by
  obtain ⟨hctrl, rfl⟩ := Ctrl.agrees_wait (hag t) (hc.imp_right .inr)
  have hawake : (s.queue.call (.inl w)).isAsleep = false := by
    rcases hc with hc | hc <;> rw [hc] <;> rfl
  have hready : ∀ q : TaskQueue.Contents (Task π), (TaskQueue.sections (Task π)).afterWait
      ((TaskQueue.sections (Task π)).ready q) q = TaskQueue.tryPop q :=
    TaskQueue.lawful.afterWait_ready
  simp only [BlockingMonitor.check, hready] at h
  split at h
  · next hend =>
      cases htasks : s.queue.contents.tasks with
      | nil =>
          rw [TaskQueue.tryPop_nil htasks] at h
          obtain ⟨rfl, rfl⟩ := Prod.mk.inj h
          refine credit_of_quiet (t := .inl w) (c := .test) (x := .idle) rfl rfl rfl rfl ?_
          rw [hctrl, hawake]
          cases hst : s.queue.stopped w with
          | true => simp [State.stoppedAt, hst, View.credit]
          | false =>
              -- without a stop request it was the shutdown that ended the wait
              have hspin : s.spins (ℓ := ℓ) (.advance (.inl w)) = true := by
                have hshut : s.queue.contents.shutdown = true := by
                  have hor := (Bool.or_eq_true_iff.mp hend).resolve_right (by simp [hst])
                  rcases (TaskQueue.lawful.ready_iff _).mp hor with hpos | hclosed
                  · exact absurd hpos (by simp [TaskQueue.sections, htasks])
                  · exact hclosed
                simp [State.spins, hctrl, htasks, hshut, hst]
              simp [State.stoppedAt, hst, View.credit, hspin]
      | cons task tasks =>
          rw [TaskQueue.tryPop_cons htasks] at h
          obtain ⟨rfl, rfl⟩ := Prod.mk.inj h
          rw [deliverAll_popped false hctrl]
          exact Nat.le_add_right_of_le
            (credit_pop false hctrl hawake rfl rfl rfl htasks rfl)
  · next hend =>
      obtain ⟨rfl, rfl⟩ := Prod.mk.inj h
      have hst : s.queue.stopped w = false := by
        by_contra hst
        exact hend (by simp [Bool.not_eq_false] at hst; simp [hst])
      refine Nat.le_add_right_of_le ?_
      refine credit_of_quiet (k := 0) (t := .inl w) (c := s.ctrl (.inl w)) (x := .asleep w)
        (Function.update_eq_self _ _).symm rfl rfl rfl ?_
      rw [hctrl, hawake]
      simp [State.stoppedAt, hst, View.credit, Call.isAsleep]

omit [DecidableEq ι] [Fintype ι] in
/-- Only the calls of workers can be asleep. -/
theorem rise_of_wake (hag : Agrees s) (hctrl : s'.ctrl t = s.ctrl t)
    (hst : s'.stoppedAt t = s.stoppedAt t) :
    (s'.view t).credit N ≤ (s.view t).credit N + if t.isLeft = true then 1 else 0 := by
  rw [State.view, State.view, hctrl, hst]
  cases t with
  | inl w => exact View.credit_wake _ _ _ _
  | inr e => exact Nat.le_of_eq (View.credit_outside (hag _) _ _ _)

/-- A step of user code that wakes others. -/
theorem credit_of_notify {u v : UserPc π} {x : Call (Fin N) (Task π)} {k : Nat}
    (r : Tid N ι → Nat) (hu : (s.ctrl t).user? = some u)
    (hctrl : s'.ctrl = Function.update s.ctrl t ((s.ctrl t).setUser v))
    (hcall : s'.queue.call t = x)
    (hst : s'.queue.stopped = s.queue.stopped)
    (htasks : s'.queue.contents.tasks = s.queue.contents.tasks)
    (hrise : ∀ u, u ≠ t → (s'.view u).credit N ≤ (s.view u).credit N + r u)
    (hle : v.credit N + Finset.univ.sum r + 1 ≤ u.credit N + k) :
    s'.credit + 1 ≤ s.credit + k := by
  have hset := View.credit_setUser (N := N) hu v (s.stoppedAt t) x.isAsleep
    (s.queue.call t).isAsleep
  have hstopped : s'.stoppedAt t = s.stoppedAt t := by
    cases t with
    | inl w => exact congrFun hst w
    | inr e => rfl
  refine credit_of_rise r hrise ?_
  rw [htasks, State.view, State.view, hctrl, hcall, hstopped, Function.update_self]
  omega

/-- The two steps of `queue_.shutdown()`: its critical section, -/
theorem credit_close (hag : Agrees s) (hc : s.queue.call t = .shutdown)
    (h : BlockingMonitor.advance (TaskQueue.sections (Task π)) s.queue t = some (q, qes)) :
    (deliverAll (ℓ := ℓ) (s.setQueue q) qes).1.credit + 1 ≤ s.credit := by
  have hu := Ctrl.agrees_shutdown (hc ▸ hag t)
  simp only [BlockingMonitor.advance, hc] at h
  obtain ⟨rfl, rfl⟩ := by simpa using h
  exact credit_of_user (k := 0) (v := .waking) hu rfl rfl rfl rfl (Nat.le_refl _)

/-- and its `notify_all`, which wakes every worker at most. -/
theorem credit_notifyAll (hag : Agrees s) (hc : s.queue.call t = .notifyAll)
    (h : BlockingMonitor.advance (TaskQueue.sections (Task π)) s.queue t = some (q, qes)) :
    (deliverAll (ℓ := ℓ) (s.setQueue q) qes).1.credit + 1 ≤ s.credit := by
  have hu := Ctrl.agrees_notifyAll (hc ▸ hag t)
  simp only [BlockingMonitor.advance, hc] at h
  obtain ⟨rfl, rfl⟩ := by simpa using h
  exact credit_of_notify (k := 0) (x := .idle) (fun u => if u.isLeft = true then 1 else 0)
    hu rfl
    (by
      show Function.update (fun u => (s.queue.call u).wake) t .idle t = .idle
      exact Function.update_self _ _ _)
    rfl rfl (fun u hne => rise_of_wake hag (Function.update_of_ne hne _ _) rfl)
    (by rw [sum_workers]; simp only [UserPc.credit]; omega)

/-- `notify_one`. -/
theorem credit_notify (hag : Agrees s) {pick : Option (Tid N ι)}
    (h : BlockingMonitor.notify s.queue t pick = some (q, qes)) :
    (deliverAll (ℓ := ℓ) (s.setQueue q) qes).1.credit + 1 ≤ s.credit := by
  simp only [BlockingMonitor.notify] at h
  split at h
  case h_2 => cases h
  case h_1 hc =>
    obtain ⟨task, hu⟩ := Ctrl.agrees_notifyOne (hc ▸ hag t)
    split at h
    · split at h
      case isFalse => cases h
      case isTrue hno =>
        obtain ⟨rfl, rfl⟩ := by simpa using h
        rw [deliverAll_pushReturned hu]
        exact credit_of_user (k := 0) (v := .code) hu rfl rfl rfl rfl (by simp [UserPc.credit])
    · next u =>
        split at h
        case isFalse => cases h
        case isTrue hasleep =>
          obtain ⟨rfl, rfl⟩ := by simpa using h
          rw [deliverAll_pushReturned hu]
          refine credit_of_notify (k := 0) (x := .idle) (fun v => if v = u then 1 else 0)
            hu rfl (Function.update_self _ _ _) rfl rfl ?_ ?_
          · intro v hne
            by_cases hvu : v = u
            · rw [if_pos hvu]
              exact Nat.le_trans (rise_of_wake hag (Function.update_of_ne hne _ _) rfl)
                (by split <;> omega)
            · rw [if_neg hvu]
              refine Nat.le_of_eq (congrArg (View.credit N) ?_)
              refine view_of_eq (Function.update_of_ne hne _ _) ?_ rfl
              show Function.update (Function.update s.queue.call u _) t _ v = s.queue.call v
              rw [Function.update_of_ne hne, Function.update_of_ne hvu]
          · simp [UserPc.credit]

/-- A step inside a call to the queue. -/
theorem credit_advance (hag : Agrees s) {es : List (Event N ι π ℓ)}
    (h : queueStep s (.advance t) = some (s', es)) :
    s'.credit + 1 ≤ s.credit + 2 * (s.spins (ℓ := ℓ) (.advance t)).toNat := by
  obtain ⟨⟨q, qes⟩, hq, heq⟩ := Option.map_eq_some_iff.mp h
  obtain ⟨rfl, rfl⟩ := Prod.mk.inj heq
  replace hq : BlockingMonitor.advance (TaskQueue.sections (Task π)) s.queue t =
    some (q, qes) := hq
  cases hc : s.queue.call t with
  | push task => exact Nat.le_add_right_of_le (credit_push hag hc hq)
  | tryPop => exact Nat.le_add_right_of_le (credit_tryPop hag hc hq)
  | wait w | woken w =>
      refine credit_wait hag (w := w) (by simp [Call.checks, hc]) ?_
      simpa [BlockingMonitor.advance, hc] using hq
  | shutdown => exact Nat.le_add_right_of_le (credit_close hag hc hq)
  | notifyAll => exact Nat.le_add_right_of_le (credit_notifyAll hag hc hq)
  | size => exact (Ctrl.not_agrees_size (hc ▸ hag t)).elim
  | _ => simp [BlockingMonitor.advance, hc] at hq

/-- A spurious wakeup. -/
theorem credit_spurious {es : List (Event N ι π ℓ)}
    (h : queueStep s (.spurious t) = some (s', es)) : s'.credit + 1 ≤ s.credit + 2 := by
  obtain ⟨⟨q, qes⟩, hq, heq⟩ := Option.map_eq_some_iff.mp h
  obtain ⟨rfl, rfl⟩ := Prod.mk.inj heq
  simp only [BlockingMonitor.step] at hq
  split at hq
  case isFalse => cases hq
  case isTrue hasleep =>
    obtain ⟨rfl, rfl⟩ := by simpa using hq
    refine credit_of_quiet (t := t) (c := s.ctrl t) (Function.update_eq_self _ _).symm rfl
      rfl rfl ?_
    exact Nat.succ_le_succ (View.credit_wake _ _ _ _)

omit [DecidableEq ι] [Fintype ι] in
/-- A stop request wakes the worker that it is for. -/
theorem wakeOn_of_ne {w : Fin N} {x : Call (Fin N) (Task π)} (hag : (s.ctrl t).agrees t x)
    (ht : t ≠ .inl w) : x.wakeOn w = x := by
  cases x with
  | asleep k =>
      obtain ⟨_, rfl⟩ := Ctrl.agrees_wait hag (.inr (.inl rfl))
      exact if_neg fun hk => ht (congrArg Sum.inl hk)
  | _ => rfl

omit [DecidableEq ι] [Fintype ι] in
theorem stoppedAt_of_ne {w : Fin N}
    (hst : s'.queue.stopped = Function.update s.queue.stopped w true) (ht : t ≠ .inl w) :
    s'.stoppedAt t = s.stoppedAt t := by
  cases t with
  | inl v =>
      rw [State.stoppedAt, State.stoppedAt, hst]
      exact Function.update_of_ne (fun hv => ht (congrArg Sum.inl hv)) _ _
  | inr e => rfl

/-- The loop of `shutdown` asks a worker to stop. -/
theorem credit_requestStop (hag : Agrees s) {i : Nat} (hi : i < N)
    (hu : (s.ctrl t).user? = some (.stopping i))
    {es : List (Event N ι π ℓ)}
    (h : queueStep (s.setCtrl t ((s.ctrl t).setUser (.stopping (i + 1))))
      (.requestStop ⟨i, hi⟩) = some (s', es)) : s'.credit + 1 ≤ s.credit := by
  obtain ⟨hctrl, hcall, hst, hcontents⟩ :
      s'.ctrl = Function.update s.ctrl t ((s.ctrl t).setUser (.stopping (i + 1))) ∧
        (∀ u, s'.queue.call u = (s.queue.call u).wakeOn ⟨i, hi⟩) ∧
          s'.queue.stopped = Function.update s.queue.stopped ⟨i, hi⟩ true ∧
            s'.queue.contents = s.queue.contents := by
    obtain ⟨rfl, rfl⟩ := by
      simpa [queueStep, BlockingMonitor.step, deliverAll, deliver] using h
    exact ⟨rfl, fun _ => rfl, rfl, rfl⟩
  refine credit_of_rise (k := 0) (t := t) (fun v => if v = .inl ⟨i, hi⟩ then 4 else 0) ?_ ?_
  · intro v hne
    rw [State.view, State.view, hctrl, Function.update_of_ne hne, hcall]
    by_cases hv : v = .inl ⟨i, hi⟩
    · have hstopped : s'.stoppedAt v = true := by
        rw [hv, State.stoppedAt, hst, Function.update_self]
      rw [if_pos hv, hstopped]
      exact View.credit_stop _ _ _ _
    · rw [if_neg hv, wakeOn_of_ne (hag v) hv, stoppedAt_of_ne hst hv]
      exact Nat.le_refl _
  · have hset := View.credit_setUser (N := N) hu (.stopping (i + 1)) (s'.stoppedAt t)
      (s'.queue.call t).isAsleep (s.queue.call t).isAsleep
    have hself : View.credit N ⟨s.ctrl t, s'.stoppedAt t, (s.queue.call t).isAsleep⟩ ≤
        View.credit N ⟨s.ctrl t, s.stoppedAt t, (s.queue.call t).isAsleep⟩ + 1 := by
      by_cases ht : t = .inl ⟨i, hi⟩
      · have hstopped : s'.stoppedAt t = true := by
          rw [ht, State.stoppedAt, hst, Function.update_self]
        rw [hstopped]
        exact View.credit_stopSelf hu _ _ _
      · rw [stoppedAt_of_ne hst ht]
        exact Nat.le_succ _
    rw [Finset.sum_ite_eq' Finset.univ, if_pos (Finset.mem_univ _), hcontents, State.view,
      State.view, hctrl, Function.update_self]
    simp only [UserPc.credit] at hset
    omega

/-- Every step uses what has been paid. -/
theorem credit_step (hag : Agrees s) {a : Act N ι π ℓ} {es : List (Event N ι π ℓ)}
    (h : step s a = some (s', es)) :
    s'.credit + 1 ≤ s.credit + (a.price N + 2 * (s.spins a).toNat) := by
  cases a with
  | advance t => exact (Nat.zero_add _).symm ▸ credit_advance hag h
  | notify t pick =>
      obtain ⟨⟨q, qes⟩, hq, heq⟩ := Option.map_eq_some_iff.mp h
      obtain ⟨rfl, rfl⟩ := Prod.mk.inj heq
      exact credit_notify hag hq
  | spurious t => exact credit_spurious h
  | test w =>
      simp only [step] at h
      split at h
      case h_1 hw =>
        split at h
        case isTrue hstop =>
          obtain ⟨rfl, rfl⟩ := by simpa using h
          refine credit_of_quiet (t := .inl w) (c := .drain) rfl
            (Function.update_eq_self _ _).symm rfl rfl ?_
          rw [hw]
          simp [State.stoppedAt, hstop, View.credit]
        case isFalse hstop =>
          have hidle := hag.idle hw fun _ hc => hc.2
          rw [queueStep_enter (c := .wait w) (t := .inl w) (by
            simp [BlockingMonitor.step, State.setCtrl, hidle])] at h
          obtain ⟨rfl, rfl⟩ := by simpa using h
          refine credit_of_quiet (t := .inl w) (c := .waiting) (x := .wait w) rfl rfl rfl rfl ?_
          rw [hw]
          simp [State.stoppedAt, hstop, View.credit, Call.isAsleep]
      case h_2 => cases h
  | drain w =>
      simp only [step] at h
      split at h
      case h_1 hw =>
        have hidle := hag.idle hw fun _ hc => hc.2
        rw [queueStep_enter (c := .tryPop) (t := .inl w) (by
          simp [BlockingMonitor.step, State.setCtrl, hidle])] at h
        obtain ⟨rfl, rfl⟩ := by simpa using h
        refine credit_of_quiet (t := .inl w) (c := .draining) (x := .tryPop) rfl rfl rfl rfl ?_
        rw [hw]
        exact Nat.le_refl _
      case h_2 => cases h
  | start w =>
      simp only [step] at h
      split at h
      case h_1 task drained hw =>
        obtain ⟨rfl, rfl⟩ := by simpa using h
        refine credit_of_quiet (t := .inl w) (c := .running task drained .code) rfl
          (Function.update_eq_self _ _).symm rfl rfl ?_
        rw [hw]
        cases drained <;> cases s.stoppedAt (.inl w) <;> simp [View.credit, UserPc.credit]
      case h_2 => cases h
  | requestStop t =>
      simp only [step] at h
      split at h
      case h_1 i hu =>
        split at h
        · next hi => exact credit_requestStop hag hi hu h
        · next hi =>
            obtain ⟨rfl, rfl⟩ := by simpa using h
            exact credit_of_user (v := .code) hu rfl (Function.update_eq_self _ _).symm rfl rfl
              (by simp only [UserPc.credit]; omega)
      case h_2 => cases h
  | finish w =>
      simp only [step] at h
      split at h
      case h_1 task drained hw =>
        obtain ⟨rfl, rfl⟩ := by simpa using h
        refine credit_of_quiet (t := .inl w) (c := if drained then .drain else .test) rfl
          (Function.update_eq_self _ _).symm rfl rfl ?_
        rw [hw]
        cases drained <;> cases s.stoppedAt (.inl w) <;> simp [View.credit, UserPc.credit]
      case h_2 => cases h
  | submit t body =>
      simp only [step] at h
      split at h
      case h_1 hu =>
        have hidle := Ctrl.agrees_idle (hag t) hu (.inl rfl)
        rw [queueStep_enter (c := .push ⟨s.nextId, body⟩) (t := t) (by
          simp [BlockingMonitor.step, State.setCtrl, hidle])] at h
        obtain ⟨rfl, rfl⟩ := by simpa using h
        exact credit_of_user (v := .submitting ⟨s.nextId, body⟩) hu rfl rfl rfl rfl
          (by simp [UserPc.credit, Act.price, State.spins])
      case h_2 => cases h
  | shutdown t =>
      simp only [step] at h
      split at h
      case h_1 hu =>
        have hidle := Ctrl.agrees_idle (hag t) hu (.inl rfl)
        rw [queueStep_enter (c := .shutdown) (t := t) (by
          simp [BlockingMonitor.step, State.setCtrl, hidle])] at h
        obtain ⟨rfl, rfl⟩ := by simpa using h
        exact credit_of_user (v := .shutting) hu rfl rfl rfl rfl
          (by simp [UserPc.credit, Act.price, State.spins])
      case h_2 => cases h
  | user t label =>
      simp only [step] at h
      split at h
      case h_1 hu =>
        obtain ⟨rfl, rfl⟩ := by simpa using h
        exact Nat.le_refl _
      case h_2 => cases h

end Steps

section Window

variable {s s' : State N ι π} {tr es : List (Event N ι π ℓ)}

omit [DecidableEq ι] [Fintype ι] in
theorem Ctrl.willStop_setUser {c : Ctrl π} {u : UserPc π} (hu : c.user? = some u)
    (v : UserPc π) (w : Fin N) :
    (c.setUser v).willStop w = (Ctrl.outside (π := π) v).willStop w := by
  rw [Ctrl.willStop, Ctrl.user?_setUser hu]
  rfl

omit [DecidableEq ι] [Fintype ι] in
theorem Ctrl.willStop_of_user {c : Ctrl π} {u : UserPc π} (hu : c.user? = some u) (w : Fin N) :
    c.willStop w = (Ctrl.outside (π := π) u).willStop w := by
  rw [Ctrl.willStop, hu]
  rfl

omit [Fintype ι] in
/-- A thread that is going to stop a worker goes on to do so. -/
theorem Effect.willStop_stays (h : Effect s s' es) {t : Tid N ι} {w : Fin N}
    (ht : (s.ctrl t).willStop w = true) :
    (s'.ctrl t).willStop w = true ∨ s'.queue.stopped w = true := by
  -- only a thread that is inside the loop moves on with stop requests ahead of it
  have hmoved : ∀ {t' : Tid N ι} {c : Ctrl π}, s'.ctrl = Function.update s.ctrl t' c →
      ((s.ctrl t').willStop w = true → c.willStop w = true ∨ s'.queue.stopped w = true) →
        (s'.ctrl t).willStop w = true ∨ s'.queue.stopped w = true := by
    intro t' c hctrl hc
    rcases ctrl_moved hctrl t with heq | ⟨rfl, heq⟩
    · exact .inl (heq ▸ ht)
    · rw [heq]
      exact hc ht
  have huser : ∀ {t' : Tid N ι} {u : UserPc π} {P : Prop}, (s.ctrl t').user? = some u →
      (Ctrl.outside (π := π) u).willStop w = false → (s.ctrl t').willStop w = true → P := by
    intro t' u P hu hno hw
    rw [Ctrl.willStop_of_user hu, hno] at hw
    cases hw
  cases h with
  | silent hctrl hs => exact .inl (hctrl ▸ ht)
  | user label hu hs => exact .inl (hs ▸ ht)
  | control hmove hctrl hs =>
      refine hmoved hctrl fun hw => ?_
      cases hmove with
      | stop hv | wait hv | drain hv | retry hv =>
          rw [hv] at hw
          cases hw
      | shut hu => exact huser hu rfl hw
      | loop hu =>
          rw [Ctrl.willStop_setUser hu]
          exact .inl (by simp [Ctrl.willStop, Ctrl.user?])
  | submitCalled body hu hctrl | accepted hu hctrl | rejected hu hctrl
  | submitReturned hu hctrl | closed hu hctrl => exact hmoved hctrl (huser hu rfl)
  | popped drained hv htasks hctrl =>
      refine hmoved hctrl fun hw => ?_
      rw [hv] at hw
      cases drained <;> cases hw
  | exited hv htasks hctrl | started hv hctrl =>
      refine hmoved hctrl fun hw => ?_
      rw [hv] at hw
      cases hw
  | finished hv hctrl =>
      refine hmoved hctrl fun hw => ?_
      rw [hv] at hw
      cases hw
  | stopRequested hi hu hctrl hc hst =>
      refine hmoved hctrl fun hw => ?_
      rw [Ctrl.willStop_of_user hu] at hw
      rw [Ctrl.willStop_setUser hu, hst]
      rcases Nat.eq_or_lt_of_le (of_decide_eq_true hw) with rfl | hlt
      · exact .inr (Function.update_self _ _ _)
      · exact .inl (decide_eq_true hlt)
  | shutdownReturned hi hu hctrl hs =>
      refine hmoved hctrl fun hw => ?_
      rw [Ctrl.willStop_of_user hu] at hw
      exact absurd (lt_of_le_of_lt (of_decide_eq_true hw) w.isLt) hi

omit [Fintype ι] in
/-- The queue is shut down inside `shutdown`. -/
theorem Effect.shutdown_inv (h : Effect s s' es)
    (hclosed : s'.queue.contents.shutdown = true) (w : Fin N) :
    s.queue.contents.shutdown = true ∨ ∃ t, (s'.ctrl t).willStop w = true := by
  cases h with
  | @closed t hu hctrl hc =>
      refine .inr ⟨t, ?_⟩
      rw [hctrl, Function.update_self, Ctrl.willStop_setUser hu]
      rfl
  | silent hctrl hs | control hmove hctrl hs | rejected hu hctrl hcl hs
  | submitReturned hu hctrl hs | exited hw htasks hctrl hs | started hw hctrl hs
  | finished hw hctrl hs | shutdownReturned hi hu hctrl hs =>
      rw [hs.contents] at hclosed
      exact .inl hclosed
  | submitCalled body hu hctrl hc | stopRequested hi hu hctrl hc =>
      rw [hc] at hclosed
      exact .inl hclosed
  | accepted hu hctrl hopen hc | popped drained hw htasks hctrl hc =>
      rw [hc] at hclosed
      exact .inl hclosed
  | user label hu hs =>
      subst hs
      exact .inl hclosed

/-- A worker that has not been asked to stop by the time the queue is shut down is going
to be asked. -/
theorem willStop_reach (hr : (pool N ι π ℓ).Reach s tr)
    (hclosed : s.queue.contents.shutdown = true) (w : Fin N) :
    s.queue.stopped w = true ∨ ∃ t, (s.ctrl t).willStop w = true := by
  refine reach_induction (P := fun s _ => s.queue.contents.shutdown = true →
    s.queue.stopped w = true ∨ ∃ t, (s.ctrl t).willStop w = true) hr ?_ ?_ hclosed
  · intro hinit
    cases hinit
  · intro s tr s' es _ ih h hclosed
    rcases h.shutdown_inv hclosed w with hbefore | hnew
    · rcases ih hbefore with hst | ⟨t, ht⟩
      · exact .inl ((h.stopped_inv w).1 hst)
      · rcases h.willStop_stays ht with hstays | hst
        · exact .inr ⟨t, hstays⟩
        · exact .inl hst
    · exact .inr hnew

end Window

/-- What the steps of a schedule are paid by. -/
structure WorkPaid (as : List (Act N ι π ℓ)) : Prop where
  /-- The calls of the users, and the spurious wakeups, pay for all steps but the spins. -/
  paid : as.length ≤ 2 * N + (as.map (Act.price N)).sum +
    2 * (pool N ι π ℓ).countSteps State.spins (pool N ι π ℓ).init as
  /-- A worker spins only while a thread inside `shutdown` is still to stop it. -/
  window : ∀ pre w post s tr, as = pre ++ .advance (.inl w) :: post →
    (pool N ι π ℓ).exec (pool N ι π ℓ).init pre = some (s, tr) →
      s.spins (ℓ := ℓ) (.advance (.inl w)) = true → ∃ t, (s.ctrl t).willStop w = true

/-- Nothing has been paid before the first call, but for the workers' way to their sleep. -/
theorem credit_init : (pool N ι π ℓ).init.credit = 2 * N := by
  have hworker : ∀ w : Fin N, View.credit N ((pool N ι π ℓ).init.view (.inl w)) = 2 :=
    fun _ => rfl
  have houtside : ∀ e : ι, View.credit N ((pool N ι π ℓ).init.view (.inr e)) = 0 :=
    fun _ => rfl
  rw [State.credit, total, Fintype.sum_sum_type]
  simp only [hworker, houtside, Finset.sum_const, Finset.card_univ, Fintype.card_fin]
  show 4 * 0 + (N * 2 + _ * 0) = 2 * N
  omega

/--
The pool does not wait by spinning, whatever its threads do: the number of its
steps is bounded by the calls that have been made, except for the spins of
workers during a call of `shutdown`.
-/
theorem work_paid {as : List (Act N ι π ℓ)} {s : State N ι π} {tr : List (Event N ι π ℓ)}
    (he : (pool N ι π ℓ).exec (pool N ι π ℓ).init as = some (s, tr)) : WorkPaid as where
  paid := by
    have hle := Machine.exec_amortized_but (M := pool N ι π ℓ) State.credit (Act.price N)
      State.spins 2 (I := fun s => ∃ tr, (pool N ι π ℓ).Reach s tr)
      (fun ⟨tr, hr⟩ hs => ⟨_, .step hr hs⟩)
      (fun ⟨tr, hr⟩ hs => credit_step (agrees_reach hr) hs) ⟨[], .init⟩ he
    rw [credit_init] at hle
    omega
  window pre w post s tr _ hpre hspin := by
    have hr := Machine.reach_of_exec pre hpre
    simp only [State.spins] at hspin
    split at hspin
    · obtain ⟨⟨_, hclosed⟩, hst⟩ := by simpa [Bool.and_eq_true] using hspin
      exact (willStop_reach hr hclosed w).resolve_left (by simp [hst])
    · cases hspin

/-- The worker spins twice between `queue_.shutdown()` and its `request_stop`. -/
theorem work_paid_spinning :
    ∃ as : List (Act 1 Unit Nat Empty),
      (pool 1 Unit Nat Empty).countSteps State.spins (pool 1 Unit Nat Empty).init as = 2 ∧
        WorkPaid as := by
  have hexec : ((pool 1 Unit Nat Empty).exec (pool 1 Unit Nat Empty).init
      [.shutdown (.inr ()), .advance (.inr ()), .test 0, .advance (.inl 0), .test 0,
        .advance (.inl 0)]).isSome = true := by decide
  obtain ⟨⟨s, tr⟩, he⟩ := Option.isSome_iff_exists.mp hexec
  exact ⟨_, by decide, work_paid he⟩

/-- A worker that spins comes back to where it was, and the rest of the pool is unchanged. -/
theorem spin_repeats {s : State N ι π} {w : Fin N} (hc : s.queue.call (.inl w) = .wait w)
    (hspin : s.spins (ℓ := ℓ) (.advance (.inl w)) = true) :
    (pool N ι π ℓ).exec s [.advance (.inl w), .test w] = some (s, []) := by
  simp only [State.spins] at hspin
  split at hspin
  case h_2 => cases hspin
  case h_1 hw =>
    obtain ⟨⟨htasks, hclosed⟩, hst⟩ := by simpa [Bool.and_eq_true] using hspin
    -- the wait comes back empty, since the queue is shut down
    have hleave : step (ℓ := ℓ) s (.advance (.inl w)) =
        some ((s.setQueue (s.queue.setCall (.inl w) .idle)).setCtrl (.inl w) .test, []) := by
      simp [step, queueStep, BlockingMonitor.step, BlockingMonitor.advance, hc,
        BlockingMonitor.check, TaskQueue.sections, TaskQueue.ready, TaskQueue.afterWait, htasks,
        hclosed, finishPop, deliverAll, deliver]
      rfl
    -- and the stop has not been requested
    have htest : step (ℓ := ℓ)
        ((s.setQueue (s.queue.setCall (.inl w) .idle)).setCtrl (.inl w) .test) (.test w) =
          some (s, []) := by
      have hctrl : Function.update s.ctrl (.inl w) .waiting = s.ctrl := by
        rw [← hw, Function.update_eq_self]
      have hcall : Function.update s.queue.call (.inl w) (.wait w) = s.queue.call := by
        rw [← hc, Function.update_eq_self]
      simp [step, State.setCtrl, State.setQueue, hst, queueStep, BlockingMonitor.step,
        BlockingMonitor.State.setCall, deliverAll, hctrl, hcall]
    simp [Machine.exec, pool, hleave, htest]

end ThreadPool
end AsyncTaskEngine
