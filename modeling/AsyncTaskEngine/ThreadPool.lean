import AsyncTaskEngine.TaskQueue
import Mathlib.Data.Fintype.Sum

/-!
# ThreadPool: the workers around a TaskQueue

A model of `thread_pool.cpp` and of `ThreadPool::submit`.  The threads are the
`N` workers and any number of outside threads.  The queue is the monitor of
`TaskQueue`, with one stop token for each worker; around it every thread has a
control state, which says where it stands in `worker_loop`, or what the code it
runs is doing: executing, inside `submit`, inside `queue_.shutdown()`, or in the
loop of `request_stop` calls of `shutdown`.

What a task does while it runs is left open: the thread that runs it may submit
further tasks, shut the pool down, take local steps that are visible to a client
by their label, and end the task.  Clients of the pool restrict these choices.
-/

namespace AsyncTaskEngine
namespace ThreadPool

open BlockingMonitor (Call Inner finishPop advance_inner notify_inner
  spurious_inner)

universe u v w x

/-- The number of workers that the constructor starts. -/
def threadCount (numThreads hardwareConcurrency : Nat) : Nat :=
  if numThreads = 0 then max 1 hardwareConcurrency else numThreads

theorem threadCount_pos (n h : Nat) : 0 < threadCount n h := by
  unfold threadCount
  split <;> omega

/-- A packaged task, with the number of the `submit` call that created it. -/
structure Task (π : Type v) where
  id : Nat
  body : π
deriving DecidableEq

/-- What user code is doing. -/
inductive UserPc (π : Type v) where
  | code
  /-- In `queue_.push`, before its critical section. -/
  | submitting (task : Task π)
  /-- In `queue_.push`, with the task accepted and the notification pending. -/
  | notifying (task : Task π)
  /-- In `queue_.shutdown()`, before its critical section. -/
  | shutting
  /-- In `queue_.shutdown()`, with `notify_all` pending. -/
  | waking
  /-- In the loop of `shutdown`, with `request_stop` due on this worker. -/
  | stopping (worker : Nat)
deriving DecidableEq

/-- The control state of a thread; `drained` tells the two loops apart. -/
inductive Ctrl (π : Type v) where
  | test
  | waiting
  | got (task : Task π) (drained : Bool)
  | running (task : Task π) (drained : Bool) (u : UserPc π)
  | drain
  | draining
  | returned
  | outside (u : UserPc π)
deriving DecidableEq

/-- The threads: `N` workers and the threads outside the pool. -/
abbrev Tid (N : Nat) (ι : Type u) :=
  Fin N ⊕ ι

/-- The state of the queue's monitor. -/
abbrev QueueState (N : Nat) (ι : Type u) (π : Type v) :=
  BlockingMonitor.State (TaskQueue.Contents (Task π)) (Tid N ι) (Fin N) (Task π)

/-- The queue, the control states, and the number of the next `submit` call. -/
structure State (N : Nat) (ι : Type u) (π : Type v) where
  queue : QueueState N ι π
  ctrl : Tid N ι → Ctrl π
  nextId : Nat

/-- The worker of a pool with one worker. -/
def solo : Fin 1 :=
  Fin.last 0

/-- The steps of the threads; the last four are up to the code being run. -/
inductive Act (N : Nat) (ι : Type u) (π : Type v) (ℓ : Type w) where
  | advance (t : Tid N ι)
  | notify (t : Tid N ι) (pick : Option (Tid N ι))
  | spurious (t : Tid N ι)
  | test (w : Fin N)
  | drain (w : Fin N)
  | start (w : Fin N)
  | requestStop (t : Tid N ι)
  | finish (w : Fin N)
  | submit (t : Tid N ι) (body : π)
  | shutdown (t : Tid N ι)
  | user (t : Tid N ι) (label : ℓ)

/-- What an observer records. -/
inductive Event (N : Nat) (ι : Type u) (π : Type v) (ℓ : Type w) where
  | submitCalled (t : Tid N ι) (task : Task π)
  | accepted (t : Tid N ι) (task : Task π)
  /-- `submit` throws. -/
  | rejected (t : Tid N ι) (task : Task π)
  /-- `submit` returns a future. -/
  | submitReturned (t : Tid N ι) (task : Task π)
  | popped (w : Fin N) (task : Task π)
  | started (w : Fin N) (task : Task π)
  | finished (w : Fin N) (task : Task π)
  /-- `worker_loop` returns. -/
  | exited (w : Fin N)
  | closed (t : Tid N ι)
  | stopRequested (w : Fin N)
  | shutdownReturned (t : Tid N ι)
  | user (t : Tid N ι) (label : ℓ)
deriving DecidableEq

/-- The user code a thread is executing. -/
@[grind] def Ctrl.user? {π : Type v} : Ctrl π → Option (UserPc π)
  | .running _ _ u => some u
  | .outside u => some u
  | _ => none

/-- Move the user code a thread is executing. -/
@[grind] def Ctrl.setUser {π : Type v} (u : UserPc π) : Ctrl π → Ctrl π
  | .running task drained _ => .running task drained u
  | .outside _ => .outside u
  | c => c

variable {N : Nat} {ι : Type u} {π : Type v} {ℓ : Type w} [DecidableEq ι] [Fintype ι]

/-- Move the control state of a thread. -/
def State.setCtrl (s : State N ι π) (t : Tid N ι) (c : Ctrl π) : State N ι π :=
  { s with ctrl := Function.update s.ctrl t c }

/-- Replace the state of the queue. -/
def State.setQueue (s : State N ι π) (q : QueueState N ι π) : State N ι π :=
  { s with queue := q }

/-- What the return from a critical section of the queue means for its caller. -/
def deliver (s : State N ι π) :
    BlockingMonitor.Event (Tid N ι) (Fin N) (Task π) (Task π) →
      State N ι π × List (Event N ι π ℓ)
  | .pushAccepted t task =>
      (s.setCtrl t ((s.ctrl t).setUser (.notifying task)), [.accepted t task])
  | .pushRejected t task =>
      (s.setCtrl t ((s.ctrl t).setUser .code), [.rejected t task])
  | .pushReturned t =>
      match (s.ctrl t).user? with
      | some (.notifying task) =>
          (s.setCtrl t ((s.ctrl t).setUser .code), [.submitReturned t task])
      | _ => (s, [])
  | .popped (.inl w) task =>
      match s.ctrl (.inl w) with
      | .draining => (s.setCtrl (.inl w) (.got task true), [.popped w task])
      | _ => (s.setCtrl (.inl w) (.got task false), [.popped w task])
  | .tryEmpty (.inl w) => (s.setCtrl (.inl w) .returned, [.exited w])
  | .waitEmpty t _ => (s.setCtrl t .test, [])
  | .closed t => (s.setCtrl t ((s.ctrl t).setUser .waking), [.closed t])
  | .shutdownReturned t => (s.setCtrl t ((s.ctrl t).setUser (.stopping 0)), [])
  | .stopRequested w => (s, [.stopRequested w])
  | _ => (s, [])

/-- Deliver the events of one step of the queue. -/
def deliverAll (s : State N ι π) :
    List (BlockingMonitor.Event (Tid N ι) (Fin N) (Task π) (Task π)) →
      State N ι π × List (Event N ι π ℓ)
  | [] => (s, [])
  | e :: es =>
      let r := deliver s e
      let r' := deliverAll r.1 es
      (r'.1, r.2 ++ r'.2)

/-- A step of the queue's monitor. -/
def queueStep (s : State N ι π) (a : BlockingMonitor.Act (Tid N ι) (Fin N) (Task π)) :
    Option (State N ι π × List (Event N ι π ℓ)) :=
  (BlockingMonitor.step (TaskQueue.sections (Task π)) s.queue a).map fun r =>
    deliverAll (s.setQueue r.1) r.2

/-- One step of the pool. -/
def step (s : State N ι π) :
    Act N ι π ℓ → Option (State N ι π × List (Event N ι π ℓ))
  | .advance t => queueStep s (.advance t)
  | .notify t pick => queueStep s (.notify t pick)
  | .spurious t => queueStep s (.spurious t)
  | .test w =>
      match s.ctrl (.inl w) with
      | .test =>
          if s.queue.stopped w then some (s.setCtrl (.inl w) .drain, [])
          else queueStep (s.setCtrl (.inl w) .waiting) (.waitAndPop (.inl w) w)
      | _ => none
  | .drain w =>
      match s.ctrl (.inl w) with
      | .drain => queueStep (s.setCtrl (.inl w) .draining) (.tryPop (.inl w))
      | _ => none
  | .start w =>
      match s.ctrl (.inl w) with
      | .got task drained =>
          some (s.setCtrl (.inl w) (.running task drained .code), [.started w task])
      | _ => none
  | .requestStop t =>
      match (s.ctrl t).user? with
      | some (.stopping i) =>
          if h : i < N then
            queueStep (s.setCtrl t ((s.ctrl t).setUser (.stopping (i + 1))))
              (.requestStop ⟨i, h⟩)
          else some (s.setCtrl t ((s.ctrl t).setUser .code), [.shutdownReturned t])
      | _ => none
  | .finish w =>
      match s.ctrl (.inl w) with
      | .running task drained .code =>
          some (s.setCtrl (.inl w) (if drained then .drain else .test),
            [.finished w task])
      | _ => none
  | .submit t body =>
      match (s.ctrl t).user? with
      | some .code =>
          let task : Task π := { id := s.nextId, body := body }
          let s' := s.setCtrl t ((s.ctrl t).setUser (.submitting task))
          (queueStep { s' with nextId := s.nextId + 1 } (.push t task)).map fun r =>
            (r.1, .submitCalled t task :: r.2)
      | _ => none
  | .shutdown t =>
      match (s.ctrl t).user? with
      | some .code =>
          queueStep (s.setCtrl t ((s.ctrl t).setUser .shutting)) (.shutdown t)
      | _ => none
  | .user t label =>
      match (s.ctrl t).user? with
      | some .code => some (s, [.user t label])
      | _ => none

variable (N ι π ℓ) in
/-- The pool after its constructor: every worker is about to enter its loop. -/
def pool : Machine (State N ι π) (Act N ι π ℓ) (Event N ι π ℓ) where
  init :=
    { queue :=
        { contents := { tasks := [], shutdown := false }
          stopped := fun _ => false
          call := fun _ => .idle }
      ctrl := fun t =>
        match t with
        | .inl _ => .test
        | .inr _ => .outside .code
      nextId := 0 }
  step := step

/-- The call to the queue that goes with what user code is doing. -/
def UserPc.agrees {κ : Type} : UserPc π → Call κ (Task π) → Prop
  | .submitting task, c => c = .push task
  | .notifying _, c => c = .notifyOne
  | .shutting, c => c = .shutdown
  | .waking, c => c = .notifyAll
  | _, c => c = .idle

/-- The control state of a thread fits its call to the queue. -/
def Ctrl.agrees (t : Tid N ι) : Ctrl π → Call (Fin N) (Task π) → Prop
  | .waiting, c => ∃ w, t = .inl w ∧ (c = .wait w ∨ c = .asleep w ∨ c = .woken w)
  | .draining, c => (∃ w, t = .inl w) ∧ c = .tryPop
  | .running _ _ u, c => (∃ w, t = .inl w) ∧ u.agrees c
  | .outside u, c => (∃ e, t = .inr e) ∧ u.agrees c
  | _, c => (∃ w, t = .inl w) ∧ c = .idle

/-- Every thread's control state fits its call to the queue. -/
def Agrees (s : State N ι π) : Prop :=
  ∀ t, (s.ctrl t).agrees t (s.queue.call t)

/-- A step changes neither the contents nor the stop requests. -/
structure Same (s s' : State N ι π) : Prop where
  contents : s'.queue.contents = s.queue.contents
  stopped : s'.queue.stopped = s.queue.stopped
  nextId : s'.nextId = s.nextId

/-- The moves of a thread that nobody observes. -/
inductive Control (s : State N ι π) : Tid N ι → Ctrl π → Prop
  | stop {w : Fin N} (hw : s.ctrl (.inl w) = .test) (hst : s.queue.stopped w = true) :
      Control s (.inl w) .drain
  | wait {w : Fin N} (hw : s.ctrl (.inl w) = .test) : Control s (.inl w) .waiting
  | drain {w : Fin N} (hw : s.ctrl (.inl w) = .drain) : Control s (.inl w) .draining
  | retry {w : Fin N} (hw : s.ctrl (.inl w) = .waiting) : Control s (.inl w) .test
  | shut {t : Tid N ι} (hu : (s.ctrl t).user? = some .code) :
      Control s t ((s.ctrl t).setUser .shutting)
  | loop {t : Tid N ι} (hu : (s.ctrl t).user? = some .waking) :
      Control s t ((s.ctrl t).setUser (.stopping 0))

/-- What a step of the pool does, apart from the calls to the queue. -/
inductive Effect (s s' : State N ι π) : List (Event N ι π ℓ) → Prop
  | silent (hctrl : s'.ctrl = s.ctrl) (hs : Same s s') : Effect s s' []
  | control {t : Tid N ι} {c : Ctrl π} (hmove : Control s t c)
      (hctrl : s'.ctrl = Function.update s.ctrl t c) (hs : Same s s') : Effect s s' []
  | submitCalled {t : Tid N ι} (body : π) (hu : (s.ctrl t).user? = some .code)
      (hctrl : s'.ctrl = Function.update s.ctrl t
        ((s.ctrl t).setUser (.submitting ⟨s.nextId, body⟩)))
      (hc : s'.queue.contents = s.queue.contents)
      (hst : s'.queue.stopped = s.queue.stopped) (hn : s'.nextId = s.nextId + 1) :
      Effect s s' [.submitCalled t ⟨s.nextId, body⟩]
  | accepted {t : Tid N ι} {task : Task π}
      (hu : (s.ctrl t).user? = some (.submitting task))
      (hctrl : s'.ctrl = Function.update s.ctrl t ((s.ctrl t).setUser (.notifying task)))
      (hopen : s.queue.contents.shutdown = false)
      (hc : s'.queue.contents =
        { s.queue.contents with tasks := s.queue.contents.tasks ++ [task] })
      (hst : s'.queue.stopped = s.queue.stopped) (hn : s'.nextId = s.nextId) :
      Effect s s' [.accepted t task]
  | rejected {t : Tid N ι} {task : Task π}
      (hu : (s.ctrl t).user? = some (.submitting task))
      (hctrl : s'.ctrl = Function.update s.ctrl t ((s.ctrl t).setUser .code))
      (hclosed : s.queue.contents.shutdown = true) (hs : Same s s') :
      Effect s s' [.rejected t task]
  | submitReturned {t : Tid N ι} {task : Task π}
      (hu : (s.ctrl t).user? = some (.notifying task))
      (hctrl : s'.ctrl = Function.update s.ctrl t ((s.ctrl t).setUser .code))
      (hs : Same s s') : Effect s s' [.submitReturned t task]
  | popped {w : Fin N} {task : Task π} {tasks : List (Task π)} (drained : Bool)
      (hw : s.ctrl (.inl w) = if drained then .draining else .waiting)
      (htasks : s.queue.contents.tasks = task :: tasks)
      (hctrl : s'.ctrl = Function.update s.ctrl (.inl w) (.got task drained))
      (hc : s'.queue.contents = { s.queue.contents with tasks := tasks })
      (hst : s'.queue.stopped = s.queue.stopped) (hn : s'.nextId = s.nextId) :
      Effect s s' [.popped w task]
  | exited {w : Fin N} (hw : s.ctrl (.inl w) = .draining)
      (htasks : s.queue.contents.tasks = [])
      (hctrl : s'.ctrl = Function.update s.ctrl (.inl w) .returned) (hs : Same s s') :
      Effect s s' [.exited w]
  | started {w : Fin N} {task : Task π} {drained : Bool}
      (hw : s.ctrl (.inl w) = .got task drained)
      (hctrl : s'.ctrl = Function.update s.ctrl (.inl w) (.running task drained .code))
      (hs : Same s s') : Effect s s' [.started w task]
  | finished {w : Fin N} {task : Task π} {drained : Bool}
      (hw : s.ctrl (.inl w) = .running task drained .code)
      (hctrl : s'.ctrl =
        Function.update s.ctrl (.inl w) (if drained then .drain else .test))
      (hs : Same s s') : Effect s s' [.finished w task]
  | closed {t : Tid N ι} (hu : (s.ctrl t).user? = some .shutting)
      (hctrl : s'.ctrl = Function.update s.ctrl t ((s.ctrl t).setUser .waking))
      (hc : s'.queue.contents = { s.queue.contents with shutdown := true })
      (hst : s'.queue.stopped = s.queue.stopped) (hn : s'.nextId = s.nextId) :
      Effect s s' [.closed t]
  | stopRequested {t : Tid N ι} {i : Nat} (hi : i < N)
      (hu : (s.ctrl t).user? = some (.stopping i))
      (hctrl : s'.ctrl = Function.update s.ctrl t ((s.ctrl t).setUser (.stopping (i + 1))))
      (hc : s'.queue.contents = s.queue.contents)
      (hst : s'.queue.stopped = Function.update s.queue.stopped ⟨i, hi⟩ true)
      (hn : s'.nextId = s.nextId) : Effect s s' [.stopRequested ⟨i, hi⟩]
  | shutdownReturned {t : Tid N ι} {i : Nat} (hi : ¬ i < N)
      (hu : (s.ctrl t).user? = some (.stopping i))
      (hctrl : s'.ctrl = Function.update s.ctrl t ((s.ctrl t).setUser .code))
      (hs : Same s s') : Effect s s' [.shutdownReturned t]
  | user {t : Tid N ι} (label : ℓ) (hu : (s.ctrl t).user? = some .code) (hs : s' = s) :
      Effect s s' [.user t label]

section Agreement

variable {s s' : State N ι π} {t : Tid N ι} {c : Ctrl π}

omit [DecidableEq ι] [Fintype ι] in
@[grind =] theorem Ctrl.user?_setUser_eq (c : Ctrl π) (v : UserPc π) :
    (c.setUser v).user? = c.user?.map fun _ => v := by
  cases c <;> rfl

omit [DecidableEq ι] [Fintype ι] in
theorem Ctrl.user?_setUser {u v : UserPc π} (h : c.user? = some u) :
    (c.setUser v).user? = some v := by
  rw [Ctrl.user?_setUser_eq, h]
  rfl

omit [DecidableEq ι] [Fintype ι] in
/-- User code moves on together with its call to the queue. -/
theorem Ctrl.agrees_setUser {u v : UserPc π} {x y : Call (Fin N) (Task π)}
    (hc : c.agrees t x) (hu : c.user? = some u) (hv : v.agrees y) :
    (c.setUser v).agrees t y := by
  cases c with
  | running task d u' => exact ⟨hc.1, hv⟩
  | outside u' => exact ⟨hc.1, hv⟩
  | _ => cases hu

omit [DecidableEq ι] [Fintype ι] in
theorem Ctrl.agrees_user {u : UserPc π} {x : Call (Fin N) (Task π)}
    (hc : c.agrees t x) (hu : c.user? = some u) : u.agrees x := by
  cases c with
  | running task d u' => cases hu; exact hc.2
  | outside u' => cases hu; exact hc.2
  | _ => cases hu

omit [DecidableEq ι] [Fintype ι] in
/-- A pending push belongs to a submission. -/
theorem Ctrl.agrees_push {task : Task π} (hc : c.agrees t (.push task)) :
    c.user? = some (.submitting task) := by
  cases c with
  | running _ _ u => cases u <;> simp_all [Ctrl.agrees, UserPc.agrees, Ctrl.user?]
  | outside u => cases u <;> simp_all [Ctrl.agrees, UserPc.agrees, Ctrl.user?]
  | _ => simp [Ctrl.agrees] at hc

omit [DecidableEq ι] [Fintype ι] in
theorem Ctrl.agrees_notifyOne (hc : c.agrees t .notifyOne) :
    ∃ task, c.user? = some (.notifying task) := by
  cases c with
  | running _ _ u => cases u <;> simp_all [Ctrl.agrees, UserPc.agrees, Ctrl.user?]
  | outside u => cases u <;> simp_all [Ctrl.agrees, UserPc.agrees, Ctrl.user?]
  | _ => simp [Ctrl.agrees] at hc

omit [DecidableEq ι] [Fintype ι] in
theorem Ctrl.agrees_shutdown (hc : c.agrees t .shutdown) : c.user? = some .shutting := by
  cases c with
  | running _ _ u => cases u <;> simp_all [Ctrl.agrees, UserPc.agrees, Ctrl.user?]
  | outside u => cases u <;> simp_all [Ctrl.agrees, UserPc.agrees, Ctrl.user?]
  | _ => simp [Ctrl.agrees] at hc

omit [DecidableEq ι] [Fintype ι] in
theorem Ctrl.agrees_notifyAll (hc : c.agrees t .notifyAll) : c.user? = some .waking := by
  cases c with
  | running _ _ u => cases u <;> simp_all [Ctrl.agrees, UserPc.agrees, Ctrl.user?]
  | outside u => cases u <;> simp_all [Ctrl.agrees, UserPc.agrees, Ctrl.user?]
  | _ => simp [Ctrl.agrees] at hc

omit [DecidableEq ι] [Fintype ι] in
/-- Only a draining worker is inside `try_pop`. -/
theorem Ctrl.agrees_tryPop (hc : c.agrees t .tryPop) :
    c = .draining ∧ ∃ w, t = .inl w := by
  cases c with
  | draining => exact ⟨rfl, hc.1⟩
  | running _ _ u => cases u <;> simp [Ctrl.agrees, UserPc.agrees] at hc
  | outside u => cases u <;> simp [Ctrl.agrees, UserPc.agrees] at hc
  | _ => simp [Ctrl.agrees] at hc

omit [DecidableEq ι] [Fintype ι] in
/-- Only a waiting worker is inside `wait_and_pop`, with its own token. -/
theorem Ctrl.agrees_wait {k : Fin N} {x : Call (Fin N) (Task π)} (hc : c.agrees t x)
    (hx : x = .wait k ∨ x = .asleep k ∨ x = .woken k) : c = .waiting ∧ t = .inl k := by
  cases c with
  | waiting =>
      obtain ⟨w, rfl, hw⟩ := hc
      refine ⟨rfl, ?_⟩
      rcases hx with rfl | rfl | rfl <;> rcases hw with hw | hw | hw <;> cases hw <;> rfl
  | running _ _ u =>
      rcases hx with rfl | rfl | rfl <;> cases u <;>
        simp [Ctrl.agrees, UserPc.agrees] at hc
  | outside u =>
      rcases hx with rfl | rfl | rfl <;> cases u <;>
        simp [Ctrl.agrees, UserPc.agrees] at hc
  | _ => rcases hx with rfl | rfl | rfl <;> simp [Ctrl.agrees] at hc

omit [DecidableEq ι] [Fintype ι] in
theorem Ctrl.not_agrees_size : ¬ c.agrees t .size := by
  cases c with
  | running _ _ u => cases u <;> simp [Ctrl.agrees, UserPc.agrees]
  | outside u => cases u <;> simp [Ctrl.agrees, UserPc.agrees]
  | _ => simp [Ctrl.agrees]

omit [DecidableEq ι] [Fintype ι] in
/-- Waking a thread does not concern its control state. -/
theorem Ctrl.agrees_wake {x : Call (Fin N) (Task π)} (hc : c.agrees t x) :
    c.agrees t x.wake := by
  cases x with
  | asleep k =>
      obtain ⟨rfl, rfl⟩ := Ctrl.agrees_wait hc (.inr (.inl rfl))
      exact ⟨k, rfl, .inr (.inr rfl)⟩
  | _ => exact hc

omit [DecidableEq ι] [Fintype ι] in
theorem Ctrl.agrees_wakeOn {x : Call (Fin N) (Task π)} (k : Fin N)
    (hc : c.agrees t x) : c.agrees t (x.wakeOn k) := by
  cases x with
  | asleep j =>
      simp only [Call.wakeOn]
      split
      · exact Ctrl.agrees_wake hc
      · exact hc
  | _ => exact hc

omit [Fintype ι] in
/-- One thread moves in its control state and in its call to the queue. -/
theorem Agrees.update (hag : Agrees s) {x : Call (Fin N) (Task π)}
    (hctrl : s'.ctrl = Function.update s.ctrl t c)
    (hcall : s'.queue.call = Function.update s.queue.call t x) (hnew : c.agrees t x) :
    Agrees s' := by
  intro u
  rw [hctrl, hcall]
  by_cases hut : u = t
  · subst hut
    simpa using hnew
  · rw [Function.update_of_ne hut, Function.update_of_ne hut]
    exact hag u

end Agreement

section StepEffect

variable {s s' : State N ι π}

omit [DecidableEq ι] [Fintype ι] in
/-- Threads are woken by a notification of the queue. -/
theorem Agrees.wake (hag : Agrees s) {q : QueueState N ι π}
    (hcall : ∀ t, q.call t = s.queue.call t ∨ q.call t = (s.queue.call t).wake) :
    Agrees (s.setQueue q) := by
  intro t
  rcases hcall t with h | h
  · show (s.ctrl t).agrees t (q.call t)
    rw [h]
    exact hag t
  · show (s.ctrl t).agrees t (q.call t)
    rw [h]
    exact Ctrl.agrees_wake (hag t)

omit [Fintype ι] in
theorem deliverAll_pushReturned {t : Tid N ι} {task : Task π}
    (hu : (s.ctrl t).user? = some (.notifying task)) (q : QueueState N ι π) :
    deliverAll (ℓ := ℓ) (s.setQueue q) [.pushReturned t] =
      ((s.setQueue q).setCtrl t ((s.ctrl t).setUser .code), [.submitReturned t task]) := by
  simp [deliverAll, deliver, State.setQueue, hu]

omit [Fintype ι] in
/-- A pop hands the task to the loop that its worker is in. -/
theorem deliverAll_popped {w : Fin N} (drained : Bool)
    (hw : s.ctrl (.inl w) = if drained then .draining else .waiting) (task : Task π)
    (q : QueueState N ι π) :
    deliverAll (ℓ := ℓ) (s.setQueue q) [.popped (.inl w) task] =
      ((s.setQueue q).setCtrl (.inl w) (.got task drained), [.popped w task]) := by
  cases drained <;> simp_all [deliverAll, deliver, State.setQueue]

omit [Fintype ι] in
/-- The caller of a critical section of the queue moves on with its event. -/
theorem inner_effect (hag : Agrees s) {q : QueueState N ι π}
    {es : List (BlockingMonitor.Event (Tid N ι) (Fin N) (Task π) (Task π))}
    (h : Inner (TaskQueue.sections (Task π)) s.queue q es) :
    Effect s (deliverAll (ℓ := ℓ) (s.setQueue q) es).1
        (deliverAll (ℓ := ℓ) (s.setQueue q) es).2 ∧
      Agrees (deliverAll (ℓ := ℓ) (s.setQueue q) es).1 := by
  cases h with
  | @reject t task hc hp =>
      have hu := Ctrl.agrees_push (hc ▸ hag t)
      refine ⟨.rejected hu rfl ?_ ⟨rfl, rfl, rfl⟩, ?_⟩
      · exact (TaskQueue.lawful.push_eq_none task _).mp hp
      · exact hag.update rfl rfl (Ctrl.agrees_setUser (hag t) hu rfl)
  | @accept t task c hc hp =>
      have hu := Ctrl.agrees_push (hc ▸ hag t)
      obtain ⟨hopen, rfl⟩ := TaskQueue.push_eq_some.mp hp
      exact ⟨.accepted hu rfl hopen rfl rfl rfl,
        hag.update rfl rfl (Ctrl.agrees_setUser (hag t) hu rfl)⟩
  | @tryPop t hc =>
      obtain ⟨hctrl, w, rfl⟩ := Ctrl.agrees_tryPop (hc ▸ hag t)
      have hpop : (TaskQueue.sections (Task π)).tryPop s.queue.contents =
        TaskQueue.tryPop s.queue.contents := rfl
      rw [hpop]
      cases htasks : s.queue.contents.tasks with
      | nil =>
          rw [TaskQueue.tryPop_nil htasks]
          exact ⟨.exited hctrl htasks rfl ⟨rfl, rfl, rfl⟩,
            hag.update rfl rfl ⟨⟨w, rfl⟩, rfl⟩⟩
      | cons task tasks =>
          rw [TaskQueue.tryPop_cons htasks]
          simp only [finishPop]
          rw [deliverAll_popped true hctrl]
          exact ⟨.popped true hctrl htasks rfl rfl rfl rfl,
            hag.update rfl rfl ⟨⟨w, rfl⟩, rfl⟩⟩
  | @leave t k hc hr =>
      obtain ⟨hctrl, rfl⟩ := Ctrl.agrees_wait (hag t) (hc.imp_right .inr)
      have hpop : (TaskQueue.sections (Task π)).tryPop s.queue.contents =
        TaskQueue.tryPop s.queue.contents := rfl
      rw [hpop]
      cases htasks : s.queue.contents.tasks with
      | nil =>
          rw [TaskQueue.tryPop_nil htasks]
          exact ⟨.control (.retry hctrl) rfl ⟨rfl, rfl, rfl⟩,
            hag.update rfl rfl ⟨⟨k, rfl⟩, rfl⟩⟩
      | cons task tasks =>
          rw [TaskQueue.tryPop_cons htasks]
          simp only [finishPop]
          rw [deliverAll_popped false hctrl]
          exact ⟨.popped false hctrl htasks rfl rfl rfl rfl,
            hag.update rfl rfl ⟨⟨k, rfl⟩, rfl⟩⟩
  | @sleep t k hc hr hk =>
      obtain ⟨hctrl, rfl⟩ := Ctrl.agrees_wait (hag t) (hc.imp_right .inr)
      refine ⟨.silent rfl ⟨rfl, rfl, rfl⟩, hag.update (t := .inl k) (c := .waiting) ?_ rfl
        ⟨k, rfl, .inr (.inl rfl)⟩⟩
      exact (Function.update_eq_self_iff.mpr hctrl.symm).symm
  | @close t hc =>
      have hu := Ctrl.agrees_shutdown (hc ▸ hag t)
      exact ⟨.closed hu rfl rfl rfl rfl,
        hag.update rfl rfl (Ctrl.agrees_setUser (hag t) hu rfl)⟩
  | @notifyAll t hc =>
      have hu := Ctrl.agrees_notifyAll (hc ▸ hag t)
      refine ⟨.control (.loop hu) rfl ⟨rfl, rfl, rfl⟩, ?_⟩
      have hwoken : Agrees (s.setQueue
          { s.queue with call := fun u => (s.queue.call u).wake }) :=
        hag.wake fun u => .inr rfl
      exact hwoken.update rfl rfl (Ctrl.agrees_setUser (hag t) hu rfl)
  | @size t hc => exact (Ctrl.not_agrees_size (hc ▸ hag t)).elim
  | @notifyNone t hc hno =>
      obtain ⟨task, hu⟩ := Ctrl.agrees_notifyOne (hc ▸ hag t)
      rw [deliverAll_pushReturned hu]
      exact ⟨.submitReturned hu rfl ⟨rfl, rfl, rfl⟩,
        hag.update rfl rfl (Ctrl.agrees_setUser (hag t) hu rfl)⟩
  | @notifyOne t u k hc hk =>
      obtain ⟨task, hu⟩ := Ctrl.agrees_notifyOne (hc ▸ hag t)
      rw [deliverAll_pushReturned hu]
      have hwoken : Agrees (s.setQueue (s.queue.setCall u (.woken k))) := by
        refine hag.wake fun v => ?_
        by_cases hvu : v = u
        · subst hvu
          simp [hk, Call.wake]
        · exact .inl (Function.update_of_ne hvu _ _)
      exact ⟨.submitReturned hu rfl ⟨rfl, rfl, rfl⟩,
        hwoken.update rfl rfl (Ctrl.agrees_setUser (hag t) hu rfl)⟩
  | @spurious t k hc =>
      refine ⟨.silent rfl ⟨rfl, rfl, rfl⟩, hag.wake fun v => ?_⟩
      by_cases hvt : v = t
      · subst hvt
        simp [hc, Call.wake]
      · exact .inl (Function.update_of_ne hvt _ _)

omit [DecidableEq ι] [Fintype ι] in
theorem Ctrl.agrees_idle {u : UserPc π} {t : Tid N ι} {c : Ctrl π}
    {x : Call (Fin N) (Task π)} (hc : c.agrees t x) (hu : c.user? = some u)
    (hidle : u = .code ∨ ∃ i, u = .stopping i) : x = .idle := by
  have := Ctrl.agrees_user hc hu
  rcases hidle with rfl | ⟨i, rfl⟩ <;> exact this

omit [DecidableEq ι] [Fintype ι] in
theorem Agrees.idle (hag : Agrees s) {t : Tid N ι} {c : Ctrl π} (ht : s.ctrl t = c)
    (hc : ∀ x, c.agrees t x → x = .idle) : s.queue.call t = .idle :=
  hc _ (ht ▸ hag t)

omit [Fintype ι] in
/-- A thread outside the queue moves in its control state. -/
theorem Agrees.move (hag : Agrees s) {t : Tid N ι} {c : Ctrl π}
    (hidle : s.queue.call t = .idle) (hctrl : s'.ctrl = Function.update s.ctrl t c)
    (hcall : s'.queue.call = s.queue.call) (hnew : c.agrees t .idle) : Agrees s' := by
  refine hag.update (x := .idle) hctrl ?_ hnew
  rw [hcall, Function.update_eq_self_iff.mpr hidle.symm]

/-- The entry into a call to the queue. -/
theorem queueStep_enter {t : Tid N ι} {c : Call (Fin N) (Task π)}
    {a : BlockingMonitor.Act (Tid N ι) (Fin N) (Task π)}
    (h : BlockingMonitor.step (TaskQueue.sections (Task π)) s.queue a =
      some (s.queue.setCall t c, [])) :
    queueStep (ℓ := ℓ) s a = some (s.setQueue (s.queue.setCall t c), []) := by
  simp [queueStep, h, deliverAll]

/-- A step inside a call to the queue. -/
theorem queueStep_effect (hag : Agrees s) {es : List (Event N ι π ℓ)}
    {a : BlockingMonitor.Act (Tid N ι) (Fin N) (Task π)}
    (hinner : ∀ {q qes}, BlockingMonitor.step (TaskQueue.sections (Task π)) s.queue a =
      some (q, qes) → Inner (TaskQueue.sections (Task π)) s.queue q qes)
    (h : queueStep s a = some (s', es)) : Effect s s' es ∧ Agrees s' := by
  obtain ⟨⟨q, qes⟩, hq, heq⟩ := Option.map_eq_some_iff.mp h
  have := inner_effect (ℓ := ℓ) hag (hinner hq)
  rw [heq] at this
  exact this

/-- Every step of the pool has one of the effects, and control stays in agreement. -/
theorem step_effect (hag : Agrees s) {a : Act N ι π ℓ} {es : List (Event N ι π ℓ)}
    (h : step s a = some (s', es)) : Effect s s' es ∧ Agrees s' := by
  cases a with
  | advance t =>
      exact queueStep_effect (a := .advance t) hag (advance_inner TaskQueue.lawful) h
  | notify t pick => exact queueStep_effect (a := .notify t pick) hag notify_inner h
  | spurious t => exact queueStep_effect hag spurious_inner h
  | test w =>
      simp only [step] at h
      split at h
      case h_1 hw =>
        have hidle := hag.idle hw fun _ hc => hc.2
        split at h
        · next hst =>
            obtain ⟨rfl, rfl⟩ := by simpa using h
            refine ⟨.control (.stop hw hst) rfl ⟨rfl, rfl, rfl⟩, ?_⟩
            exact hag.move hidle rfl rfl ⟨⟨w, rfl⟩, rfl⟩
        · rw [queueStep_enter (c := .wait w) (t := .inl w) (by
            simp [BlockingMonitor.step, State.setCtrl, hidle])] at h
          obtain ⟨rfl, rfl⟩ := by simpa using h
          exact ⟨.control (.wait hw) rfl ⟨rfl, rfl, rfl⟩,
            hag.update rfl rfl ⟨w, rfl, .inl rfl⟩⟩
      case h_2 => cases h
  | drain w =>
      simp only [step] at h
      split at h
      case h_1 hw =>
        have hidle := hag.idle hw fun _ hc => hc.2
        rw [queueStep_enter (c := .tryPop) (t := .inl w) (by
          simp [BlockingMonitor.step, State.setCtrl, hidle])] at h
        obtain ⟨rfl, rfl⟩ := by simpa using h
        exact ⟨.control (.drain hw) rfl ⟨rfl, rfl, rfl⟩,
          hag.update rfl rfl ⟨⟨w, rfl⟩, rfl⟩⟩
      case h_2 => cases h
  | start w =>
      simp only [step] at h
      split at h
      case h_1 task drained hw =>
        have hidle := hag.idle hw fun _ hc => hc.2
        obtain ⟨rfl, rfl⟩ := by simpa using h
        refine ⟨.started hw rfl ⟨rfl, rfl, rfl⟩, ?_⟩
        exact hag.move hidle rfl rfl ⟨⟨w, rfl⟩, rfl⟩
      case h_2 => cases h
  | requestStop t =>
      simp only [step] at h
      split at h
      case h_1 i hu =>
        have hidle := Ctrl.agrees_idle (hag t) hu (.inr ⟨i, rfl⟩)
        split at h
        · next hi =>
            obtain ⟨rfl, rfl⟩ := by
              simpa [queueStep, BlockingMonitor.step, deliverAll, deliver] using h
            refine ⟨.stopRequested hi hu rfl rfl rfl rfl, ?_⟩
            have hwoken : Agrees (s.setQueue { s.queue with
                call := fun u => (s.queue.call u).wakeOn ⟨i, hi⟩ }) :=
              fun u => Ctrl.agrees_wakeOn _ (hag u)
            refine hwoken.move (t := t) ?_ rfl rfl (Ctrl.agrees_setUser (hag t) hu rfl)
            show (s.queue.call t).wakeOn _ = .idle
            rw [hidle]
            rfl
        · next hi =>
            obtain ⟨rfl, rfl⟩ := by simpa using h
            refine ⟨.shutdownReturned hi hu rfl ⟨rfl, rfl, rfl⟩, ?_⟩
            exact hag.move hidle rfl rfl (Ctrl.agrees_setUser (hag t) hu rfl)
      case h_2 => cases h
  | finish w =>
      simp only [step] at h
      split at h
      case h_1 task drained hw =>
        have hidle := hag.idle hw fun _ hc => hc.2
        obtain ⟨rfl, rfl⟩ := by simpa using h
        refine ⟨.finished hw rfl ⟨rfl, rfl, rfl⟩, ?_⟩
        refine hag.move hidle rfl rfl ?_
        cases drained <;> exact ⟨⟨w, rfl⟩, rfl⟩
      case h_2 => cases h
  | submit t body =>
      simp only [step] at h
      split at h
      case h_1 hu =>
        have hidle := Ctrl.agrees_idle (hag t) hu (.inl rfl)
        rw [queueStep_enter (c := .push ⟨s.nextId, body⟩) (t := t) (by
          simp [BlockingMonitor.step, State.setCtrl, hidle])] at h
        obtain ⟨rfl, rfl⟩ := by simpa using h
        exact ⟨.submitCalled body hu rfl rfl rfl rfl,
          hag.update rfl rfl (Ctrl.agrees_setUser (hag t) hu rfl)⟩
      case h_2 => cases h
  | shutdown t =>
      simp only [step] at h
      split at h
      case h_1 hu =>
        have hidle := Ctrl.agrees_idle (hag t) hu (.inl rfl)
        rw [queueStep_enter (c := .shutdown) (t := t) (by
          simp [BlockingMonitor.step, State.setCtrl, hidle])] at h
        obtain ⟨rfl, rfl⟩ := by simpa using h
        exact ⟨.control (.shut hu) rfl ⟨rfl, rfl, rfl⟩,
          hag.update rfl rfl (Ctrl.agrees_setUser (hag t) hu rfl)⟩
      case h_2 => cases h
  | user t label =>
      simp only [step] at h
      split at h
      case h_1 hu =>
        obtain ⟨rfl, rfl⟩ := by simpa using h
        exact ⟨.user label hu rfl, hag⟩
      case h_2 => cases h

end StepEffect

section Reachable

variable {s s' : State N ι π} {tr es : List (Event N ι π ℓ)}

omit [Fintype ι] in
@[simp] theorem deliver_queue (s : State N ι π)
    (e : BlockingMonitor.Event (Tid N ι) (Fin N) (Task π) (Task π)) :
    (deliver (ℓ := ℓ) s e).1.queue = s.queue := by
  unfold deliver
  repeat' split
  all_goals rfl

omit [Fintype ι] in
@[simp] theorem deliverAll_queue (s : State N ι π)
    (es : List (BlockingMonitor.Event (Tid N ι) (Fin N) (Task π) (Task π))) :
    (deliverAll (ℓ := ℓ) s es).1.queue = s.queue := by
  induction es generalizing s with
  | nil => rfl
  | cons e es ih =>
      simp only [deliverAll]
      rw [ih, deliver_queue]

/-- A call to the queue is a step of the queue's monitor. -/
theorem queueStep_queue {a : BlockingMonitor.Act (Tid N ι) (Fin N) (Task π)}
    {s₀ : State N ι π} (h : queueStep s₀ a = some (s', es))
    (h₀ : s₀.queue = s.queue) :
    s'.queue = s.queue ∨ ∃ b qes,
      BlockingMonitor.step (TaskQueue.sections (Task π)) s.queue b =
        some (s'.queue, qes) := by
  obtain ⟨⟨q, qes⟩, hq, heq⟩ := Option.map_eq_some_iff.mp h
  have hs' : s' = (deliverAll (ℓ := ℓ) (s₀.setQueue q) qes).1 := by rw [heq]
  refine .inr ⟨a, qes, ?_⟩
  rw [hs', deliverAll_queue, ← h₀, hq]
  rfl

/-- A step of the pool is a step of its queue, or leaves the queue alone. -/
theorem step_queue {a : Act N ι π ℓ} (h : step s a = some (s', es)) :
    s'.queue = s.queue ∨ ∃ b qes,
      BlockingMonitor.step (TaskQueue.sections (Task π)) s.queue b =
        some (s'.queue, qes) := by
  cases a with
  | advance t => exact queueStep_queue h rfl
  | notify t pick => exact queueStep_queue h rfl
  | spurious t => exact queueStep_queue h rfl
  | test w =>
      simp only [step] at h
      split at h
      · split at h
        · cases h
          exact .inl rfl
        · exact queueStep_queue h rfl
      · cases h
  | drain w =>
      simp only [step] at h
      split at h
      · exact queueStep_queue h rfl
      · cases h
  | requestStop t =>
      simp only [step] at h
      split at h
      · split at h
        · exact queueStep_queue h rfl
        · cases h
          exact .inl rfl
      · cases h
  | submit t body =>
      simp only [step] at h
      split at h
      · obtain ⟨r, hr, heq⟩ := Option.map_eq_some_iff.mp h
        cases heq
        exact queueStep_queue hr rfl
      · cases h
  | shutdown t =>
      simp only [step] at h
      split at h
      · exact queueStep_queue h rfl
      · cases h
  | start w | finish w | user t label =>
      simp only [step] at h
      split at h
      · cases h
        exact .inl rfl
      · cases h

/-- The queue of a reachable pool is a reachable queue. -/
theorem queue_reach (hr : (pool N ι π ℓ).Reach s tr) :
    ∃ qtr, (BlockingMonitor.monitor (TaskQueue.sections (Task π))).Reach s.queue qtr := by
  induction hr with
  | init => exact ⟨[], .init⟩
  | step _ hs ih =>
      obtain ⟨qtr, hq⟩ := ih
      rcases step_queue hs with heq | ⟨b, qes, hstep⟩
      · rw [heq]
        exact ⟨qtr, hq⟩
      · exact ⟨qtr ++ qes, .step hq hstep⟩

theorem agrees_init : Agrees (pool N ι π ℓ).init := by
  rintro (w | e)
  · exact ⟨⟨w, rfl⟩, rfl⟩
  · exact ⟨⟨e, rfl⟩, rfl⟩

/-- Control and calls agree in every reachable state. -/
theorem agrees_reach (hr : (pool N ι π ℓ).Reach s tr) :
    Agrees s :=
  hr.invariant (P := fun s _ => Agrees s) agrees_init
    fun _ hag hs => (step_effect hag hs).2

omit [Fintype ι] in
/-- A step records at most one event. -/
theorem Effect.length_le_one (h : Effect s s' es) : es.length ≤ 1 := by
  cases h <;> simp

omit [Fintype ι] in
theorem Effect.alone {es₀ es₁ : List (Event N ι π ℓ)} {e : Event N ι π ℓ}
    (h : Effect s s' (es₀ ++ e :: es₁)) : es₀ = [] ∧ es₁ = [] := by
  have hone := h.length_le_one
  rw [List.length_append, List.length_cons] at hone
  exact ⟨List.eq_nil_of_length_eq_zero (by omega),
    List.eq_nil_of_length_eq_zero (by omega)⟩

omit [Fintype ι] in
theorem Effect.head_alone {e : Event N ι π ℓ} (h : Effect s s' (e :: es)) : es = [] := by
  have hone := h.length_le_one
  rw [List.length_cons] at hone
  exact List.eq_nil_of_length_eq_zero (by omega)

/-- What holds initially and is preserved by every effect holds of every run. -/
theorem reach_induction {P : State N ι π → List (Event N ι π ℓ) → Prop}
    (hr : (pool N ι π ℓ).Reach s tr)
    (h0 : P (pool N ι π ℓ).init [])
    (heff : ∀ {s s' tr es}, Agrees s → P s tr → Effect s s' es → P s' (tr ++ es)) :
    P s tr :=
  hr.invariant h0 fun hr hp hs =>
    heff (agrees_reach hr) hp (step_effect (agrees_reach hr) hs).1

/-- Every event of a run is recorded by an effect of its own. -/
theorem emitted_effect (hr : (pool N ι π ℓ).Reach s tr) {pre post : List (Event N ι π ℓ)}
    {e : Event N ι π ℓ} (htr : tr = pre ++ e :: post) :
    ∃ s₀ s₁, (pool N ι π ℓ).Reach s₀ pre ∧ Effect s₀ s₁ [e] := by
  obtain ⟨s₀, tr₀, a, s₁, es₀, es₁, hr₀, hs, rfl⟩ := hr.emitted htr
  have heff := (step_effect (agrees_reach hr₀) hs).1
  obtain ⟨rfl, rfl⟩ := heff.alone
  rw [List.append_nil]
  exact ⟨s₀, s₁, hr₀, heff⟩

end Reachable

section Clients

variable {s s' : State N ι π} {tr es : List (Event N ι π ℓ)}

/-- The action behind an event that is up to the code being run. -/
def Event.cause : Event N ι π ℓ → Option (Act N ι π ℓ)
  | .submitCalled t task => some (.submit t task.body)
  | .finished w _ => some (.finish w)
  | .user t label => some (.user t label)
  | _ => none

omit [Fintype ι] in
/-- The events that the queue gives rise to are none of the user's choices. -/
theorem deliverAll_cause (s : State N ι π)
    (es : List (BlockingMonitor.Event (Tid N ι) (Fin N) (Task π) (Task π))) :
    ∀ e ∈ (deliverAll (ℓ := ℓ) s es).2, e.cause = none := by
  induction es generalizing s with
  | nil => simp [deliverAll]
  | cons e es ih =>
      have hone : ∀ e' ∈ (deliver (ℓ := ℓ) s e).2, e'.cause = none := by
        unfold deliver
        repeat' split
        all_goals simp [Event.cause]
      intro e' he
      simp only [deliverAll, List.mem_append] at he
      rcases he with he | he
      · exact hone e' he
      · exact ih _ e' he

theorem queueStep_cause {a : BlockingMonitor.Act (Tid N ι) (Fin N) (Task π)}
    (h : queueStep s a = some (s', es)) : ∀ e ∈ es, e.cause = none := by
  obtain ⟨r, _, heq⟩ := Option.map_eq_some_iff.mp h
  have := deliverAll_cause (ℓ := ℓ) (s.setQueue r.1) r.2
  rw [heq] at this
  exact this

/-- The user's choices are recorded by the step that makes them. -/
theorem step_cause {a : Act N ι π ℓ} (h : step s a = some (s', es)) :
    ∀ e ∈ es, ∀ b, e.cause = some b → a = b := by
  have hqueue : ∀ {s₀ : State N ι π} {qa}, queueStep s₀ qa = some (s', es) →
      ∀ e ∈ es, ∀ b, e.cause = some b → a = b := by
    intro s₀ qa hq e he b hb
    rw [queueStep_cause hq e he] at hb
    cases hb
  cases a with
  | advance t => exact hqueue h
  | notify t pick => exact hqueue h
  | spurious t => exact hqueue h
  | test w =>
      simp only [step] at h
      split at h
      · split at h
        · cases h
          simp
        · exact hqueue h
      · cases h
  | drain w =>
      simp only [step] at h
      split at h
      · exact hqueue h
      · cases h
  | requestStop t =>
      simp only [step] at h
      split at h
      · split at h
        · exact hqueue h
        · cases h
          simp [Event.cause]
      · cases h
  | submit t body =>
      simp only [step] at h
      split at h
      · obtain ⟨r, hr, heq⟩ := Option.map_eq_some_iff.mp h
        cases heq
        intro e he b hb
        rcases List.mem_cons.mp he with rfl | he
        · cases hb
          rfl
        · rw [queueStep_cause hr e he] at hb
          cases hb
      · cases h
  | shutdown t =>
      simp only [step] at h
      split at h
      · exact hqueue h
      · cases h
  | start w | finish w | user t label =>
      simp only [step] at h
      split at h
      · cases h
        simp [Event.cause]
      · cases h

/--
The invariant rule for a client of the pool: every effect, with the client's
permission for the choices of the user.
-/
theorem guard_induction {κ : Type x} {k₀ : κ}
    {allowed : κ → State N ι π → Act N ι π ℓ → Bool} {observe : κ → Event N ι π ℓ → κ}
    {P : State N ι π → κ → List (Event N ι π ℓ) → Prop} {q : State N ι π × κ}
    (hr : ((pool N ι π ℓ).guard k₀ allowed observe).Reach q tr)
    (h0 : P (pool N ι π ℓ).init k₀ [])
    (hstep : ∀ {s s' k tr es}, (pool N ι π ℓ).Reach s tr → P s k tr → Effect s s' es →
      (∀ e ∈ es, ∀ b, e.cause = some b → allowed k s b = true) →
      P s' (es.foldl observe k) (tr ++ es)) :
    P q.1 q.2 tr := by
  refine hr.invariant (P := fun q tr => P q.1 q.2 tr) h0 ?_
  intro q tr a q' es hr ih hs
  obtain ⟨hallowed, hpool, hobs⟩ := Machine.guard_step_iff.mp hs
  rw [hobs]
  refine hstep hr.of_guard ih (step_effect (agrees_reach hr.of_guard) hpool).1 ?_
  intro e he b hb
  rw [← step_cause hpool e he b hb]
  exact hallowed

end Clients

end ThreadPool
end AsyncTaskEngine
