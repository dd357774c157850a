import AsyncTaskEngine.ThreadPool
import Mathlib.Algebra.BigOperators.Group.Finset.Piecewise

/-!
# Every accepted task is executed exactly once

The accounting of a run of the pool.  Each effect of the pool conserves the
tasks: what is accepted is queued, what is queued is popped, what a worker has
popped it starts, and what it has started it finishes.  Added up over a run, and
with what is known about the phases of a shutdown, these laws say what has
happened once all workers have returned.

The number of a `submit` call identifies the callable that was passed to it.
-/

namespace AsyncTaskEngine
namespace ThreadPool

universe u v w

variable {N : Nat} {ι : Type u} {π : Type v} {ℓ : Type w}

section Observations

/-- The task of a call of `submit`. -/
@[simp] def Event.called? : Event N ι π ℓ → Option (Task π)
  | .submitCalled _ task => some task
  | _ => none

/-- The task of an acceptance. -/
@[simp, grind] def Event.accepted? : Event N ι π ℓ → Option (Task π)
  | .accepted _ task => some task
  | _ => none

/-- The task of a rejection. -/
@[simp] def Event.rejected? : Event N ι π ℓ → Option (Task π)
  | .rejected _ task => some task
  | _ => none

/-- The worker and the task of a pop. -/
@[simp] def Event.popped? : Event N ι π ℓ → Option (Fin N × Task π)
  | .popped w task => some (w, task)
  | _ => none

/-- The worker and the task of the start of an execution. -/
@[simp] def Event.started? : Event N ι π ℓ → Option (Fin N × Task π)
  | .started w task => some (w, task)
  | _ => none

/-- The worker and the task of the end of an execution. -/
@[simp] def Event.finished? : Event N ι π ℓ → Option (Fin N × Task π)
  | .finished w task => some (w, task)
  | _ => none

/-- The tasks that `submit` has been called with. -/
def calledTasks (tr : List (Event N ι π ℓ)) : List (Task π) :=
  tr.filterMap Event.called?

/-- The accepted tasks, in the order of their acceptance. -/
def acceptedTasks (tr : List (Event N ι π ℓ)) : List (Task π) :=
  tr.filterMap Event.accepted?

/-- The rejected tasks. -/
def rejectedTasks (tr : List (Event N ι π ℓ)) : List (Task π) :=
  tr.filterMap Event.rejected?

/-- The tasks that workers have popped, in the order of the pops. -/
def poppedTasks (tr : List (Event N ι π ℓ)) : List (Task π) :=
  (tr.filterMap Event.popped?).map Prod.snd

/-- The tasks whose execution has started, in the order of the starts. -/
def startedTasks (tr : List (Event N ι π ℓ)) : List (Task π) :=
  (tr.filterMap Event.started?).map Prod.snd

/-- The tasks whose execution has ended. -/
def finishedTasks (tr : List (Event N ι π ℓ)) : List (Task π) :=
  (tr.filterMap Event.finished?).map Prod.snd

/-- How often the callable of a `submit` call occurs in a list of tasks. -/
def timesIn (n : Nat) (tasks : List (Task π)) : Nat :=
  tasks.countP fun task => task.id = n

/-- The part of a list of tasks that belongs to one worker. -/
def ofWorker (w : Fin N) (log : List (Fin N × Task π)) : List (Fin N × Task π) :=
  log.filter fun e => e.1 = w

@[simp] theorem filterMap_singleton {α : Type u} {β : Type v} (f : α → Option β) (e : α) :
    [e].filterMap f = (f e).toList := by
  cases h : f e <;> simp [h]

@[simp] theorem calledTasks_append (tr es : List (Event N ι π ℓ)) :
    calledTasks (tr ++ es) = calledTasks tr ++ calledTasks es := by
  simp [calledTasks]

@[simp, grind =] theorem acceptedTasks_append (tr es : List (Event N ι π ℓ)) :
    acceptedTasks (tr ++ es) = acceptedTasks tr ++ acceptedTasks es := by
  simp [acceptedTasks]

@[simp] theorem rejectedTasks_append (tr es : List (Event N ι π ℓ)) :
    rejectedTasks (tr ++ es) = rejectedTasks tr ++ rejectedTasks es := by
  simp [rejectedTasks]

@[simp] theorem poppedTasks_append (tr es : List (Event N ι π ℓ)) :
    poppedTasks (tr ++ es) = poppedTasks tr ++ poppedTasks es := by
  simp [poppedTasks]

@[simp] theorem startedTasks_append (tr es : List (Event N ι π ℓ)) :
    startedTasks (tr ++ es) = startedTasks tr ++ startedTasks es := by
  simp [startedTasks]

@[simp] theorem finishedTasks_append (tr es : List (Event N ι π ℓ)) :
    finishedTasks (tr ++ es) = finishedTasks tr ++ finishedTasks es := by
  simp [finishedTasks]

@[simp] theorem timesIn_append (n : Nat) (l₁ l₂ : List (Task π)) :
    timesIn n (l₁ ++ l₂) = timesIn n l₁ + timesIn n l₂ :=
  List.countP_append

@[simp] theorem ofWorker_append (w : Fin N) (l₁ l₂ : List (Fin N × Task π)) :
    ofWorker w (l₁ ++ l₂) = ofWorker w l₁ ++ ofWorker w l₂ := by
  simp [ofWorker]

theorem mem_acceptedTasks {tr : List (Event N ι π ℓ)} {task : Task π} :
    task ∈ acceptedTasks tr ↔ ∃ t, .accepted t task ∈ tr := by
  simp only [acceptedTasks, List.mem_filterMap]
  constructor
  · rintro ⟨e, he, h⟩
    cases e <;> cases h
    exact ⟨_, he⟩
  · rintro ⟨t, ht⟩
    exact ⟨_, ht, rfl⟩

theorem mem_rejectedTasks {tr : List (Event N ι π ℓ)} {task : Task π} :
    task ∈ rejectedTasks tr ↔ ∃ t, .rejected t task ∈ tr := by
  simp only [rejectedTasks, List.mem_filterMap]
  constructor
  · rintro ⟨e, he, h⟩
    cases e <;> cases h
    exact ⟨_, he⟩
  · rintro ⟨t, ht⟩
    exact ⟨_, ht, rfl⟩

theorem mem_calledTasks {tr : List (Event N ι π ℓ)} {task : Task π} :
    task ∈ calledTasks tr ↔ ∃ t, .submitCalled t task ∈ tr := by
  simp only [calledTasks, List.mem_filterMap]
  constructor
  · rintro ⟨e, he, h⟩
    cases e <;> cases h
    exact ⟨_, he⟩
  · rintro ⟨t, ht⟩
    exact ⟨_, ht, rfl⟩

theorem mem_poppedTasks {tr : List (Event N ι π ℓ)} {task : Task π} :
    task ∈ poppedTasks tr ↔ ∃ w, .popped w task ∈ tr := by
  simp only [poppedTasks, List.mem_map, List.mem_filterMap]
  constructor
  · rintro ⟨r, ⟨e, he, h⟩, rfl⟩
    cases e <;> cases h
    exact ⟨_, he⟩
  · rintro ⟨w, hw⟩
    exact ⟨(w, task), ⟨_, hw, rfl⟩, rfl⟩

theorem mem_finishedTasks {tr : List (Event N ι π ℓ)} {task : Task π} :
    task ∈ finishedTasks tr ↔ ∃ w, .finished w task ∈ tr := by
  simp only [finishedTasks, List.mem_map, List.mem_filterMap]
  constructor
  · rintro ⟨r, ⟨e, he, h⟩, rfl⟩
    cases e <;> cases h
    exact ⟨_, he⟩
  · rintro ⟨w, hw⟩
    exact ⟨(w, task), ⟨_, hw, rfl⟩, rfl⟩

end Observations

section Conservation

/-- The task that a worker has popped but not yet started. -/
def Ctrl.taken : Ctrl π → List (Task π)
  | .got task _ => [task]
  | _ => []

/-- The task that a worker is executing. -/
def Ctrl.executing : Ctrl π → List (Task π)
  | .running task _ _ => [task]
  | _ => []

/-- The tasks that a worker holds, popped or in execution. -/
def Ctrl.holds (c : Ctrl π) : List (Task π) :=
  c.taken ++ c.executing

/-- The thread is inside a `submit` call of this kind, before its decision. -/
def Ctrl.submits (q : Task π → Bool) (c : Ctrl π) : Nat :=
  match c.user? with
  | some (.submitting task) => if q task then 1 else 0
  | _ => 0

@[simp] theorem Ctrl.taken_setUser (c : Ctrl π) (u : UserPc π) :
    (c.setUser u).taken = c.taken := by
  cases c <;> rfl

@[simp] theorem Ctrl.executing_setUser (c : Ctrl π) (u : UserPc π) :
    (c.setUser u).executing = c.executing := by
  cases c <;> rfl

theorem Ctrl.submits_setUser {c : Ctrl π} {u : UserPc π} (h : c.user? = some u)
    (v : UserPc π) (q : Task π → Bool) :
    (c.setUser v).submits q =
      match v with
      | .submitting task => if q task then 1 else 0
      | _ => 0 := by
  rw [Ctrl.submits, Ctrl.user?_setUser h]
  cases v <;> rfl

variable [DecidableEq ι] {s s' : State N ι π} {es : List (Event N ι π ℓ)}

/-- Accepted tasks go through the queue in order. -/
theorem Effect.conserve_queue (h : Effect s s' es) :
    s.queue.contents.tasks ++ acceptedTasks es =
      poppedTasks es ++ s'.queue.contents.tasks := by
  cases h with
  | user label hu hs => simp [hs, acceptedTasks, poppedTasks]
  | popped drained hw htasks hctrl hc hst hn =>
      simp [hc, htasks, acceptedTasks, poppedTasks]
  | submitCalled body hu hctrl hc hst hn | closed hu hctrl hc hst hn
  | stopRequested hi hu hctrl hc hst hn | accepted hu hctrl hopen hc hst hn =>
      simp [hc, acceptedTasks, poppedTasks]
  | _ =>
      rename_i hs
      simp [hs.contents, acceptedTasks, poppedTasks]

/-- One thread moves, and only its own entries are added to the logs. -/
theorem conserve_update {g : Ctrl π → List (Task π)} {f : Tid N ι → Ctrl π}
    {t : Tid N ι} {c : Ctrl π} {new old : List (Fin N × Task π)}
    (hmove : ∀ w, t = .inl w →
      (g (f t)).map (Prod.mk w) ++ new = old ++ (g c).map (Prod.mk w))
    (hown : ∀ e ∈ new ++ old, t = .inl e.1) (w : Fin N) :
    (g (f (.inl w))).map (Prod.mk w) ++ ofWorker w new =
      ofWorker w old ++ (g (Function.update f t c (.inl w))).map (Prod.mk w) := by
  by_cases hw : t = .inl w
  · have hall : ∀ e ∈ new ++ old, e.1 = w := by
      intro e he
      have := hown e he
      rw [hw] at this
      exact (Sum.inl.inj this).symm
    have hnew : ofWorker w new = new :=
      List.filter_eq_self.mpr fun e he => by simp [hall e (List.mem_append_left _ he)]
    have hold : ofWorker w old = old :=
      List.filter_eq_self.mpr fun e he => by simp [hall e (List.mem_append_right _ he)]
    rw [hnew, hold, ← hw, Function.update_self]
    exact hmove w hw
  · have hnone : ∀ e ∈ new ++ old, ¬ e.1 = w := by
      rintro e he rfl
      exact hw (hown e he)
    have hnew : ofWorker w new = [] :=
      List.filter_eq_nil_iff.mpr fun e he => by simp [hnone e (List.mem_append_left _ he)]
    have hold : ofWorker w old = [] :=
      List.filter_eq_nil_iff.mpr fun e he => by simp [hnone e (List.mem_append_right _ he)]
    rw [hnew, hold, Function.update_of_ne (Ne.symm hw)]
    simp

omit [DecidableEq ι] in
theorem Control.keeps {t : Tid N ι} {c : Ctrl π} (h : Control s t c) :
    c.taken = (s.ctrl t).taken ∧ c.executing = (s.ctrl t).executing ∧
      ∀ q, c.submits q = (s.ctrl t).submits q := by
  cases h with
  | shut hu | loop hu =>
      refine ⟨Ctrl.taken_setUser _ _, Ctrl.executing_setUser _ _, fun q => ?_⟩
      rw [Ctrl.submits_setUser hu, Ctrl.submits, hu]
  | stop hw hst => rw [hw]; exact ⟨rfl, rfl, fun _ => rfl⟩
  | wait hw | drain hw | retry hw => rw [hw]; exact ⟨rfl, rfl, fun _ => rfl⟩

/--
A worker starts the tasks that it has popped, and finishes those that it has started,
in that order.
-/
theorem Effect.conserve_hands (h : Effect s s' es) (w : Fin N) :
    (s.ctrl (.inl w)).taken.map (Prod.mk w) ++ ofWorker w (es.filterMap Event.popped?) =
        ofWorker w (es.filterMap Event.started?) ++
          (s'.ctrl (.inl w)).taken.map (Prod.mk w) ∧
      (s.ctrl (.inl w)).executing.map (Prod.mk w) ++
          ofWorker w (es.filterMap Event.started?) =
        ofWorker w (es.filterMap Event.finished?) ++
          (s'.ctrl (.inl w)).executing.map (Prod.mk w) := by
  cases h with
  | silent hctrl hs => simp [hctrl, ofWorker]
  | user label hu hs => simp [hs, ofWorker]
  | control hmove hctrl hs =>
      rw [hctrl]
      exact ⟨conserve_update (by simp [hmove.keeps.1]) (by simp) w,
        conserve_update (by simp [hmove.keeps.2.1]) (by simp) w⟩
  | popped drained hw htasks hctrl hc hst hn =>
      rw [hctrl]
      refine ⟨conserve_update ?_ (by simp) w, conserve_update ?_ (by simp) w⟩
      · cases drained <;> simp_all [Ctrl.taken]
      · cases drained <;> simp_all [Ctrl.executing]
  | started hw hctrl hs =>
      rw [hctrl]
      exact ⟨conserve_update (by simp [hw, Ctrl.taken]) (by simp) w,
        conserve_update (by simp [hw, Ctrl.executing]) (by simp) w⟩
  | exited hw htasks hctrl hs =>
      rw [hctrl]
      exact ⟨conserve_update (by simp [hw, Ctrl.taken]) (by simp) w,
        conserve_update (by simp [hw, Ctrl.executing]) (by simp) w⟩
  | @finished w' task drained hw hctrl hs =>
      rw [hctrl]
      refine ⟨conserve_update ?_ (by simp) w, conserve_update ?_ (by simp) w⟩
      · cases drained <;> simp [hw, Ctrl.taken]
      · cases drained <;> simp [hw, Ctrl.executing]
  | submitCalled body hu hctrl | accepted hu hctrl | rejected hu hctrl
  | submitReturned hu hctrl | closed hu hctrl | stopRequested hi hu hctrl
  | shutdownReturned hi hu hctrl =>
      rw [hctrl]
      exact ⟨conserve_update (by simp) (by simp) w, conserve_update (by simp) (by simp) w⟩

/-- A worker leaves when it finds the queue empty. -/
theorem Effect.exited_inv (h : Effect s s' es) {es₀ es₁ : List (Event N ι π ℓ)}
    {w : Fin N} (hes : es = es₀ ++ .exited w :: es₁) :
    es₀ = [] ∧ es₁ = [] ∧ s.ctrl (.inl w) = .draining ∧ s.queue.contents.tasks = [] ∧
      s'.queue.contents = s.queue.contents := by
  cases h with
  | silent hctrl hs | control hmove hctrl hs => simp at hes
  | exited hw htasks hctrl hs =>
      cases es₀ with
      | nil =>
          simp only [List.nil_append, List.cons.injEq, Event.exited.injEq] at hes
          obtain ⟨rfl, rfl⟩ := hes
          exact ⟨rfl, rfl, hw, htasks, hs.contents⟩
      | cons e es₀ => simp at hes
  | _ => cases es₀ <;> simp at hes

/-- A closed queue stays closed and accepts nothing. -/
theorem Effect.closed_stays (h : Effect s s' es)
    (hclosed : s.queue.contents.shutdown = true) :
    acceptedTasks es = [] ∧ s'.queue.contents.shutdown = true := by
  cases h with
  | accepted hu hctrl hopen hc hst hn => simp [hopen] at hclosed
  | user label hu hs => exact ⟨rfl, hs ▸ hclosed⟩
  | submitCalled body hu hctrl hc hst hn | popped drained hw htasks hctrl hc hst hn
  | closed hu hctrl hc hst hn | stopRequested hi hu hctrl hc hst hn =>
      simp [acceptedTasks, hc, hclosed]
  | _ =>
      rename_i hs
      simp [acceptedTasks, hs.contents, hclosed]

variable [Fintype ι]

/-- A `submit` call that has begun is still inside, or was accepted, or rejected. -/
theorem Effect.conserve_calls (h : Effect s s' es) (q : Task π → Bool) :
    (acceptedTasks es).countP q + (rejectedTasks es).countP q +
        total (Ctrl.submits q) s'.ctrl =
      total (Ctrl.submits q) s.ctrl + (calledTasks es).countP q := by
  have hmoved : ∀ {t c}, s'.ctrl = Function.update s.ctrl t c →
      total (Ctrl.submits q) s'.ctrl + (s.ctrl t).submits q =
        total (Ctrl.submits q) s.ctrl + c.submits q := by
    intro t c hctrl
    rw [hctrl]
    exact total_update _ _ _ _
  cases h with
  | silent hctrl hs => simp [hctrl, acceptedTasks, rejectedTasks, calledTasks]
  | user label hu hs => simp [hs, acceptedTasks, rejectedTasks, calledTasks]
  | control hmove hctrl hs =>
      have := hmoved hctrl
      rw [hmove.keeps.2.2 q] at this
      simp [acceptedTasks, rejectedTasks, calledTasks]
      omega
  | popped drained hw htasks hctrl hc hst hn =>
      have := hmoved hctrl
      rw [Ctrl.submits, Ctrl.submits, hw] at this
      cases drained <;> simpa [Ctrl.user?, acceptedTasks, rejectedTasks, calledTasks] using this
  | exited hw htasks hctrl hs | started hw hctrl hs =>
      have := hmoved hctrl
      rw [Ctrl.submits, Ctrl.submits, hw] at this
      simpa [Ctrl.user?, acceptedTasks, rejectedTasks, calledTasks] using this
  | @finished w task drained hw hctrl hs =>
      have := hmoved hctrl
      rw [Ctrl.submits, Ctrl.submits, hw] at this
      cases drained <;> simpa [Ctrl.user?, acceptedTasks, rejectedTasks, calledTasks] using this
  | submitCalled body hu hctrl | accepted hu hctrl | rejected hu hctrl
  | submitReturned hu hctrl | closed hu hctrl | stopRequested hi hu hctrl
  | shutdownReturned hi hu hctrl =>
      have := hmoved hctrl
      rw [Ctrl.submits_setUser hu, Ctrl.submits, hu] at this
      simp [acceptedTasks, rejectedTasks, calledTasks, List.countP_singleton] at this ⊢
      omega

omit [Fintype ι] in
/-- The calls of `submit` are numbered consecutively. -/
theorem Effect.number_calls (h : Effect s s' es) :
    List.range s'.nextId = List.range s.nextId ++ (calledTasks es).map Task.id := by
  cases h with
  | submitCalled body hu hctrl hc hst hn =>
      rw [hn, List.range_succ]
      simp [calledTasks]
  | user label hu hs => simp [hs, calledTasks]
  | accepted hu hctrl hopen hc hst hn | popped drained hw htasks hctrl hc hst hn
  | closed hu hctrl hc hst hn | stopRequested hi hu hctrl hc hst hn =>
      simp [hn, calledTasks]
  | _ =>
      rename_i hs
      simp [hs.nextId, calledTasks]

end Conservation

section Phases

/-- The worker has left the main loop. -/
@[grind] def Ctrl.drains : Ctrl π → Bool
  | .got _ drained => drained
  | .running _ drained _ => drained
  | .drain => true
  | .draining => true
  | .returned => true
  | _ => false

/-- The thread is past the critical section of `queue_.shutdown()`. -/
@[grind] def UserPc.hasClosed : UserPc π → Bool
  | .waking => true
  | .stopping _ => true
  | _ => false

@[simp, grind =] theorem Ctrl.drains_setUser (c : Ctrl π) (u : UserPc π) :
    (c.setUser u).drains = c.drains := by
  cases c <;> rfl

variable [DecidableEq ι] {s s' : State N ι π} {tr es : List (Event N ι π ℓ)}

/-- What is known in each phase of a shutdown, and of a submission. -/
structure Phases (s : State N ι π) (tr : List (Event N ι π ℓ)) : Prop where
  drains : ∀ w, (s.ctrl (.inl w)).drains = true → s.queue.stopped w = true
  stops : ∀ w, s.queue.stopped w = true → s.queue.contents.shutdown = true
  closes : ∀ t u, (s.ctrl t).user? = some u → u.hasClosed = true →
    s.queue.contents.shutdown = true
  exits : ∀ w, s.ctrl (.inl w) = .returned → s.queue.contents.tasks = []
  notifies : ∀ t task, (s.ctrl t).user? = some (.notifying task) →
    task ∈ acceptedTasks tr
  returns : ∀ t task, .submitReturned t task ∈ tr → task ∈ acceptedTasks tr

/-- A step moves one thread, or none. -/
theorem ctrl_moved {f f' : Tid N ι → Ctrl π} {t : Tid N ι} {c : Ctrl π}
    (h : f' = Function.update f t c) (u : Tid N ι) : f' u = f u ∨ (t = u ∧ f' u = c) := by
  rw [h, Function.update_apply]
  split
  · next hut => exact .inr ⟨hut.symm, rfl⟩
  · exact .inl rfl

/-- A worker leaves the main loop after a stop request. -/
theorem Effect.drains_inv (h : Effect s s' es) {w : Fin N}
    (hw : (s'.ctrl (.inl w)).drains = true) :
    (s.ctrl (.inl w)).drains = true ∨ s.queue.stopped w = true := by
  cases h with
  | silent hctrl hs => exact .inl (hctrl ▸ hw)
  | user label hu hs => exact .inl (hs ▸ hw)
  | control hmove hctrl hs =>
      rcases ctrl_moved hctrl (.inl w) with heq | ⟨ht, heq⟩
      · exact .inl (heq ▸ hw)
      · rw [heq] at hw
        cases hmove with
        | stop hv hst => exact .inr (Sum.inl.inj ht ▸ hst)
        | wait hv | retry hv => cases hw
        | drain hv => exact .inl (by rw [← ht, hv]; rfl)
        | shut hu | loop hu => exact .inl (by rwa [← ht, ← Ctrl.drains_setUser])
  | submitCalled body hu hctrl | accepted hu hctrl | rejected hu hctrl
  | submitReturned hu hctrl | closed hu hctrl | stopRequested hi hu hctrl
  | shutdownReturned hi hu hctrl =>
      rcases ctrl_moved hctrl (.inl w) with heq | ⟨ht, heq⟩
      · exact .inl (heq ▸ hw)
      · rw [heq, Ctrl.drains_setUser, ht] at hw
        exact .inl hw
  | exited hv htasks hctrl | started hv hctrl =>
      rcases ctrl_moved hctrl (.inl w) with heq | ⟨ht, heq⟩
      · exact .inl (heq ▸ hw)
      · rw [heq] at hw
        rw [← ht, hv]
        exact .inl hw
  | popped drained hv htasks hctrl | @finished _ _ drained hv hctrl =>
      rcases ctrl_moved hctrl (.inl w) with heq | ⟨ht, heq⟩
      · exact .inl (heq ▸ hw)
      · rw [heq] at hw
        rw [← ht, hv]
        cases drained <;> exact .inl hw

/-- Stop requests are made after the queue has been closed, and stay. -/
theorem Effect.stopped_inv (h : Effect s s' es) (w : Fin N) :
    (s.queue.stopped w = true → s'.queue.stopped w = true) ∧
      (s'.queue.stopped w = true → s.queue.stopped w = true ∨
        ∃ t i, (s.ctrl t).user? = some (.stopping i)) := by
  cases h with
  | stopRequested hi hu hctrl hc hst hn =>
      rw [hst, Function.update_apply]
      exact ⟨fun hw => by simp [hw], fun _ => .inr ⟨_, _, hu⟩⟩
  | user label hu hs =>
      rw [hs]
      exact ⟨id, .inl⟩
  | submitCalled body hu hctrl hc hst hn | accepted hu hctrl hopen hc hst hn
  | popped drained hw htasks hctrl hc hst hn | closed hu hctrl hc hst hn =>
      rw [hst]
      exact ⟨id, .inl⟩
  | _ =>
      rename_i hs
      rw [hs.stopped]
      exact ⟨id, .inl⟩

theorem Effect.hasClosed_inv (h : Effect s s' es) {t : Tid N ι} {u : UserPc π}
    (hu : (s'.ctrl t).user? = some u) (hclosed : u.hasClosed = true) :
    (∃ v, (s.ctrl t).user? = some v ∧ v.hasClosed = true) ∨
      s'.queue.contents.shutdown = true := by
  -- a thread that moves on to `u`, or to code that is not in user code
  have hmoved : ∀ {t' : Tid N ι} {c : Ctrl π}, s'.ctrl = Function.update s.ctrl t' c →
      (t' = t → c.user? = some u → ∃ v, (s.ctrl t).user? = some v ∧ v.hasClosed = true) →
        ∃ v, (s.ctrl t).user? = some v ∧ v.hasClosed = true := by
    intro t' c hctrl hc
    rcases ctrl_moved hctrl t with heq | ⟨ht, heq⟩
    · exact ⟨u, heq ▸ hu, hclosed⟩
    · exact hc ht (heq ▸ hu)
  have hset : ∀ {t' : Tid N ι} {x v : UserPc π}, (s.ctrl t').user? = some x →
      ((s.ctrl t').setUser v).user? = some u → v = u := by
    intro t' x v hx hv
    rw [Ctrl.user?_setUser hx] at hv
    exact Option.some.inj hv
  cases h with
  | silent hctrl hs => exact .inl ⟨u, hctrl ▸ hu, hclosed⟩
  | user label hu' hs => exact .inl ⟨u, hs ▸ hu, hclosed⟩
  | closed hu' hctrl hc => exact .inr (by rw [hc])
  | control hmove hctrl hs =>
      refine .inl (hmoved hctrl fun ht hc => ?_)
      cases hmove with
      | shut hx =>
          obtain rfl := hset hx hc
          cases hclosed
      | loop hx => exact ⟨_, ht ▸ hx, rfl⟩
      | _ => cases hc
  | submitCalled body hx hctrl | accepted hx hctrl | rejected hx hctrl
  | submitReturned hx hctrl | shutdownReturned hi hx hctrl =>
      refine .inl (hmoved hctrl fun ht hc => ?_)
      obtain rfl := hset hx hc
      cases hclosed
  | stopRequested hi hx hctrl =>
      exact .inl (hmoved hctrl fun ht hc => ⟨_, ht ▸ hx, rfl⟩)
  | popped drained hv htasks hctrl | exited hv htasks hctrl =>
      exact .inl (hmoved hctrl fun ht hc => by cases hc)
  | started hv hctrl =>
      refine .inl (hmoved hctrl fun ht hc => ?_)
      obtain rfl := Option.some.inj hc
      cases hclosed
  | @finished _ _ drained hv hctrl =>
      exact .inl (hmoved hctrl fun ht hc => by cases drained <;> cases hc)

/-- A worker returns from an empty queue. -/
theorem Effect.returned_inv (h : Effect s s' es) {w : Fin N}
    (hw : s'.ctrl (.inl w) = .returned) :
    s.ctrl (.inl w) = .returned ∨ s'.queue.contents.tasks = [] := by
  have hset : ∀ {c : Ctrl π} {u v : UserPc π}, c.user? = some u → c.setUser v ≠ .returned := by
    intro c u v hu hv
    cases c <;> cases hu <;> cases hv
  cases h with
  | silent hctrl hs => exact .inl (hctrl ▸ hw)
  | user label hu hs => exact .inl (hs ▸ hw)
  | exited hv htasks hctrl hs => exact .inr (by rw [hs.contents, htasks])
  | control hmove hctrl hs =>
      rcases ctrl_moved hctrl (.inl w) with heq | ⟨_, heq⟩
      · exact .inl (heq ▸ hw)
      · rw [heq] at hw
        cases hmove with
        | shut hu | loop hu => exact (hset hu hw).elim
        | _ => cases hw
  | submitCalled body hu hctrl | accepted hu hctrl | rejected hu hctrl
  | submitReturned hu hctrl | closed hu hctrl | stopRequested hi hu hctrl
  | shutdownReturned hi hu hctrl =>
      rcases ctrl_moved hctrl (.inl w) with heq | ⟨_, heq⟩
      · exact .inl (heq ▸ hw)
      · exact (hset hu (heq ▸ hw)).elim
  | popped drained hv htasks hctrl | started hv hctrl =>
      rcases ctrl_moved hctrl (.inl w) with heq | ⟨_, heq⟩
      · exact .inl (heq ▸ hw)
      · rw [heq] at hw
        cases hw
  | @finished _ _ drained hv hctrl =>
      rcases ctrl_moved hctrl (.inl w) with heq | ⟨_, heq⟩
      · exact .inl (heq ▸ hw)
      · rw [heq] at hw
        cases drained <;> cases hw

/-- An empty closed queue stays empty. -/
theorem Effect.empty_stays (h : Effect s s' es)
    (hclosed : s.queue.contents.shutdown = true) (htasks : s.queue.contents.tasks = []) :
    s'.queue.contents.tasks = [] := by
  have hqueue := h.conserve_queue
  rw [htasks, (h.closed_stays hclosed).1, List.append_nil] at hqueue
  exact (List.append_eq_nil_iff.mp hqueue.symm).2

/-- User code that has moved on was moved by this step. -/
theorem Effect.user_inv (h : Effect s s' es) {t : Tid N ι} {u : UserPc π}
    (hu : (s'.ctrl t).user? = some u) :
    (s.ctrl t).user? = some u ∨
      match u with
      | .submitting task => es = [.submitCalled t task]
      | .notifying task => es = [.accepted t task]
      | _ => True := by
  have hmoved : ∀ {t' : Tid N ι} {c : Ctrl π} {P : Prop},
      s'.ctrl = Function.update s.ctrl t' c →
        (t' = t → c.user? = some u → P) → (s.ctrl t).user? = some u ∨ P := by
    intro t' c P hctrl hc
    rcases ctrl_moved hctrl t with heq | ⟨ht, heq⟩
    · exact .inl (heq ▸ hu)
    · exact .inr (hc ht (heq ▸ hu))
  have hset : ∀ {t' : Tid N ι} {x v : UserPc π}, (s.ctrl t').user? = some x →
      ((s.ctrl t').setUser v).user? = some u → v = u := by
    intro t' x v hx hv
    rw [Ctrl.user?_setUser hx] at hv
    exact Option.some.inj hv
  cases h with
  | silent hctrl hs => exact .inl (hctrl ▸ hu)
  | user label hu' hs => exact .inl (hs ▸ hu)
  | control hmove hctrl hs =>
      refine hmoved hctrl fun ht hc => ?_
      cases hmove with
      | shut hx | loop hx =>
          obtain rfl := hset hx hc
          trivial
      | _ => cases hc
  | submitCalled body hx hctrl | accepted hx hctrl =>
      refine hmoved hctrl fun ht hc => ?_
      obtain rfl := hset hx hc
      subst ht
      rfl
  | rejected hx hctrl | submitReturned hx hctrl | closed hx hctrl | stopRequested hi hx hctrl
  | shutdownReturned hi hx hctrl =>
      refine hmoved hctrl fun ht hc => ?_
      obtain rfl := hset hx hc
      trivial
  | started hv hctrl =>
      refine hmoved hctrl fun ht hc => ?_
      obtain rfl := Option.some.inj hc
      trivial
  | popped drained hv htasks hctrl | exited hv htasks hctrl =>
      exact hmoved hctrl fun ht hc => by cases hc
  | @finished _ _ drained hv hctrl =>
      exact hmoved hctrl fun ht hc => by cases drained <;> cases hc

/-- `submit` returns what it was about to notify of. -/
theorem Effect.submitReturned_inv (h : Effect s s' es) {t : Tid N ι} {task : Task π}
    (hmem : .submitReturned t task ∈ es) : (s.ctrl t).user? = some (.notifying task) := by
  cases h with
  | submitReturned hu hctrl hs =>
      cases List.mem_singleton.mp hmem
      exact hu
  | _ => simp at hmem

theorem Phases.step (inv : Phases s tr) (h : Effect s s' es) : Phases s' (tr ++ es) where
  drains w hw := by
    refine (h.stopped_inv w).1 ?_
    rcases h.drains_inv hw with hw | hst
    · exact inv.drains w hw
    · exact hst
  stops w hw := by
    refine (h.closed_stays ?_).2
    rcases (h.stopped_inv w).2 hw with hw | ⟨t, i, hu⟩
    · exact inv.stops w hw
    · exact inv.closes t _ hu rfl
  closes t u hu hclosed := by
    rcases h.hasClosed_inv hu hclosed with ⟨v, hv, hvc⟩ | hclosed'
    · exact (h.closed_stays (inv.closes t v hv hvc)).2
    · exact hclosed'
  exits w hw := by
    rcases h.returned_inv hw with hw | htasks
    · exact h.empty_stays (inv.stops w (inv.drains w (by rw [hw]; rfl))) (inv.exits w hw)
    · exact htasks
  notifies t task hu := by
    rw [acceptedTasks_append, List.mem_append]
    rcases h.user_inv hu with hu | rfl
    · exact .inl (inv.notifies t task hu)
    · exact .inr (mem_acceptedTasks.mpr ⟨t, List.mem_singleton_self _⟩)
  returns t task hmem := by
    rw [acceptedTasks_append, List.mem_append]
    rcases List.mem_append.mp hmem with hmem | hmem
    · exact .inl (inv.returns t task hmem)
    · exact .inl (inv.notifies t task (h.submitReturned_inv hmem))

end Phases

section Runs

variable [DecidableEq ι] [Fintype ι] {s : State N ι π} {tr : List (Event N ι π ℓ)}

theorem phases_init : Phases (pool N ι π ℓ).init ([] : List (Event N ι π ℓ)) := by
  constructor
  case closes =>
    rintro (w | e) u hu hclosed
    · cases hu
    · cases hu
      cases hclosed
  case notifies => rintro (w | e) task hu <;> cases hu
  all_goals simp [pool, Ctrl.drains]

theorem phases_reach (hr : (pool N ι π ℓ).Reach s tr) : Phases s tr :=
  reach_induction hr phases_init fun _ inv h => inv.step h

/-- What has been accepted has been popped, or is still queued. -/
theorem accepted_eq_popped_append (hr : (pool N ι π ℓ).Reach s tr) :
    acceptedTasks tr = poppedTasks tr ++ s.queue.contents.tasks := by
  refine reach_induction hr (P := fun s tr =>
    acceptedTasks tr = poppedTasks tr ++ s.queue.contents.tasks) rfl ?_
  intro s s' tr es _ ih h
  rw [acceptedTasks_append, poppedTasks_append, ih, List.append_assoc, h.conserve_queue,
    List.append_assoc]

/-- What a worker has popped it has started, or holds. -/
theorem popped_eq_started_append (hr : (pool N ι π ℓ).Reach s tr) (w : Fin N) :
    ofWorker w (tr.filterMap Event.popped?) = ofWorker w (tr.filterMap Event.started?) ++
      (s.ctrl (.inl w)).taken.map (Prod.mk w) := by
  refine reach_induction hr (P := fun s tr =>
    ofWorker w (tr.filterMap Event.popped?) = ofWorker w (tr.filterMap Event.started?) ++
      (s.ctrl (.inl w)).taken.map (Prod.mk w)) rfl ?_
  intro s s' tr es _ ih h
  rw [List.filterMap_append, List.filterMap_append, ofWorker_append, ofWorker_append, ih,
    List.append_assoc, (h.conserve_hands w).1, List.append_assoc]

/-- What a worker has started it has finished, or is executing. -/
theorem started_eq_finished_append (hr : (pool N ι π ℓ).Reach s tr) (w : Fin N) :
    ofWorker w (tr.filterMap Event.started?) =
      ofWorker w (tr.filterMap Event.finished?) ++
        (s.ctrl (.inl w)).executing.map (Prod.mk w) := by
  refine reach_induction hr (P := fun s tr =>
    ofWorker w (tr.filterMap Event.started?) =
      ofWorker w (tr.filterMap Event.finished?) ++
        (s.ctrl (.inl w)).executing.map (Prod.mk w)) rfl ?_
  intro s s' tr es _ ih h
  rw [List.filterMap_append, List.filterMap_append, ofWorker_append, ofWorker_append, ih,
    List.append_assoc, (h.conserve_hands w).2, List.append_assoc]

/-- A `submit` call that has begun is still inside, or was accepted, or rejected. -/
theorem calls_decided (hr : (pool N ι π ℓ).Reach s tr) (q : Task π → Bool) :
    (acceptedTasks tr).countP q + (rejectedTasks tr).countP q +
      total (Ctrl.submits q) s.ctrl = (calledTasks tr).countP q := by
  refine reach_induction hr (P := fun s tr =>
    (acceptedTasks tr).countP q + (rejectedTasks tr).countP q +
      total (Ctrl.submits q) s.ctrl = (calledTasks tr).countP q) ?_ ?_
  · have hzero : total (Ctrl.submits q) (pool N ι π ℓ).init.ctrl = 0 := by
      refine total_eq_zero_iff.mpr ?_
      rintro (w | e) <;> rfl
    rw [hzero]
    rfl
  · intro s s' tr es _ ih h
    have := h.conserve_calls q
    simp only [acceptedTasks_append, rejectedTasks_append, calledTasks_append,
      List.countP_append]
    omega

/-- The task of a pending `submit` has been called, and so has every accepted one. -/
theorem called_of_submitting (hr : (pool N ι π ℓ).Reach s tr) {t : Tid N ι}
    {task : Task π} (hu : (s.ctrl t).user? = some (.submitting task)) :
    task ∈ calledTasks tr := by
  classical
  have hsum := calls_decided hr fun x => decide (x = task)
  have hone := le_total (Ctrl.submits fun x => decide (x = task)) s.ctrl t
  rw [Ctrl.submits, hu] at hone
  simp only [decide_true, if_true] at hone
  have hpos : 0 < (calledTasks tr).countP fun x => decide (x = task) := by omega
  obtain ⟨x, hx, heq⟩ := List.countP_pos_iff.mp hpos
  rwa [← of_decide_eq_true heq]

theorem called_of_decided (hr : (pool N ι π ℓ).Reach s tr) {task : Task π}
    (hmem : task ∈ acceptedTasks tr ++ rejectedTasks tr) : task ∈ calledTasks tr := by
  classical
  have hsum := calls_decided hr fun x => decide (x = task)
  have hone : 0 < (acceptedTasks tr ++ rejectedTasks tr).countP fun x => decide (x = task) :=
    List.countP_pos_iff.mpr ⟨task, hmem, by simp⟩
  rw [List.countP_append] at hone
  have hpos : 0 < (calledTasks tr).countP fun x => decide (x = task) := by omega
  obtain ⟨x, hx, heq⟩ := List.countP_pos_iff.mp hpos
  rwa [← of_decide_eq_true heq]

theorem called_of_accepted (hr : (pool N ι π ℓ).Reach s tr) {task : Task π}
    (hacc : task ∈ acceptedTasks tr) : task ∈ calledTasks tr :=
  called_of_decided hr (List.mem_append_left _ hacc)

theorem called_of_rejected (hr : (pool N ι π ℓ).Reach s tr) {task : Task π}
    (hrej : task ∈ rejectedTasks tr) : task ∈ calledTasks tr :=
  called_of_decided hr (List.mem_append_right _ hrej)

/-- The calls of `submit` are numbered consecutively. -/
theorem calls_numbered (hr : (pool N ι π ℓ).Reach s tr) :
    (calledTasks tr).map Task.id = List.range s.nextId := by
  refine reach_induction hr (P := fun s tr =>
    (calledTasks tr).map Task.id = List.range s.nextId) rfl ?_
  intro s s' tr es _ ih h
  rw [calledTasks_append, List.map_append, ih, h.number_calls]

/-- The number of a call identifies it. -/
theorem timesIn_calledTasks_le_one (hr : (pool N ι π ℓ).Reach s tr) (n : Nat) :
    timesIn n (calledTasks tr) ≤ 1 := by
  have hnodup : ((calledTasks tr).map Task.id).Nodup := by
    rw [calls_numbered hr]
    exact List.nodup_range
  have := List.nodup_iff_count_le_one.mp hnodup n
  rwa [List.count, List.countP_map] at this

theorem task_unique (hr : (pool N ι π ℓ).Reach s tr) {x y : Task π}
    (hx : x ∈ calledTasks tr) (hy : y ∈ calledTasks tr) (hid : x.id = y.id) : x = y := by
  refine List.inj_on_of_nodup_map ?_ hx hy hid
  rw [calls_numbered hr]
  exact List.nodup_range

/-- A pending `submit` has been neither accepted nor rejected. -/
theorem submitting_undecided (hr : (pool N ι π ℓ).Reach s tr) {t : Tid N ι}
    {task : Task π} (hu : (s.ctrl t).user? = some (.submitting task)) :
    task ∉ acceptedTasks tr ∧ task ∉ rejectedTasks tr := by
  have hsum := calls_decided hr fun x => decide (x.id = task.id)
  have hone := le_total (Ctrl.submits fun x => decide (x.id = task.id)) s.ctrl t
  rw [Ctrl.submits, hu] at hone
  simp only [decide_true, if_true] at hone
  have honce := timesIn_calledTasks_le_one hr task.id
  simp only [timesIn] at honce
  constructor
  · intro hmem
    have : 0 < (acceptedTasks tr).countP fun x => decide (x.id = task.id) :=
      List.countP_pos_iff.mpr ⟨task, hmem, by simp⟩
    omega
  · intro hmem
    have : 0 < (rejectedTasks tr).countP fun x => decide (x.id = task.id) :=
      List.countP_pos_iff.mpr ⟨task, hmem, by simp⟩
    omega

/-- A worker leaves with the queue empty, and nothing is accepted any more. -/
theorem exited_last (hr : (pool N ι π ℓ).Reach s tr) {pre post : List (Event N ι π ℓ)}
    {w : Fin N} (htr : tr = pre ++ .exited w :: post) :
    acceptedTasks pre = poppedTasks pre ∧ acceptedTasks post = [] ∧
      s.queue.contents.shutdown = true := by
  induction hr generalizing post with
  | init => simp at htr
  | @step s s' tr es a hr hs ih =>
      have heff := (step_effect (agrees_reach hr) hs).1
      rcases Machine.event_split htr with ⟨es₀, rfl, hes⟩ | ⟨post₀, rfl, rfl⟩
      · -- The worker leaves in this step.
        obtain ⟨rfl, rfl, hw, htasks, hc⟩ := heff.exited_inv hes
        refine ⟨?_, rfl, ?_⟩
        · rw [List.append_nil, accepted_eq_popped_append hr, htasks, List.append_nil]
        · rw [hc]
          have hph := phases_reach hr
          exact hph.stops w (hph.drains w (by rw [hw]; rfl))
      · obtain ⟨hpre, hpost, hclosed⟩ := ih rfl
        obtain ⟨hnone, hclosed'⟩ := heff.closed_stays hclosed
        refine ⟨hpre, ?_, hclosed'⟩
        rw [acceptedTasks_append, hpost, hnone, List.append_nil]

/-- The queue is closed from the critical section of the first shutdown on. -/
theorem shutdown_iff_closed (hr : (pool N ι π ℓ).Reach s tr) :
    s.queue.contents.shutdown = true ↔ ∃ t, .closed t ∈ tr := by
  refine reach_induction hr (P := fun s tr =>
    s.queue.contents.shutdown = true ↔ ∃ t, .closed t ∈ tr) (by simp [pool]) ?_
  intro s s' tr es _ ih h
  by_cases hclosed : s.queue.contents.shutdown = true
  · obtain ⟨t, ht⟩ := ih.mp hclosed
    exact iff_of_true (h.closed_stays hclosed).2 ⟨t, List.mem_append_left _ ht⟩
  · have hno : ∀ t, Event.closed t ∉ tr := fun t ht => hclosed (ih.mpr ⟨t, ht⟩)
    cases h with
    | closed hu hctrl hc hst hn => simp [hc]
    | user label hu hs => simpa [hs, hno] using hclosed
    | submitCalled body hu hctrl hc hst hn | accepted hu hctrl hopen hc hst hn
    | popped drained hw htasks hctrl hc hst hn | stopRequested hi hu hctrl hc hst hn =>
        simpa [hc, hno] using hclosed
    | _ =>
        rename_i hs
        simpa [hs.contents, hno] using hclosed

/-- `submit` throws after a shutdown only. -/
theorem closed_before_rejected (hr : (pool N ι π ℓ).Reach s tr)
    {pre post : List (Event N ι π ℓ)} {t : Tid N ι} {task : Task π}
    (htr : tr = pre ++ .rejected t task :: post) : ∃ u, .closed u ∈ pre := by
  obtain ⟨s₀, s₁, hr₀, heff⟩ := emitted_effect hr htr
  cases heff with
  | rejected hu hctrl hclosed hs => exact (shutdown_iff_closed hr₀).mp hclosed

/-- `submit` accepts before a shutdown only. -/
theorem accepted_before_closed (hr : (pool N ι π ℓ).Reach s tr)
    {pre post : List (Event N ι π ℓ)} {t : Tid N ι} {task : Task π}
    (htr : tr = pre ++ .accepted t task :: post) (u : Tid N ι) : .closed u ∉ pre := by
  obtain ⟨s₀, s₁, hr₀, heff⟩ := emitted_effect hr htr
  intro hmem
  cases heff with
  | accepted hu hctrl hopen hc hst hn =>
      rw [(shutdown_iff_closed hr₀).mpr ⟨u, hmem⟩] at hopen
      cases hopen

end Runs

section Logs

theorem ofWorker_eq_self [Subsingleton (Fin N)] (w : Fin N) (log : List (Fin N × Task π)) :
    ofWorker w log = log :=
  List.filter_eq_self.mpr fun e _ => by simp [Subsingleton.elim e.1 w]

/-- Logs are compared worker by worker. -/
theorem subperm_of_ofWorker {l₁ l₂ : List (Fin N × Task π)}
    (h : ∀ w, ofWorker w l₁ <+: ofWorker w l₂) : l₁.Subperm l₂ := by
  classical
  have hcount : ∀ (e : Fin N × Task π) (l : List (Fin N × Task π)),
      (ofWorker e.1 l).count e = l.count e :=
    fun e l => List.count_filter (by simp)
  refine List.subperm_ext_iff.mpr fun e _ => ?_
  calc l₁.count e = (ofWorker e.1 l₁).count e := (hcount e l₁).symm
    _ ≤ (ofWorker e.1 l₂).count e := (h e.1).sublist.count_le e
    _ = l₂.count e := hcount e l₂

/-- The entries of a log are counted worker by worker. -/
theorem total_ofWorker (q : Task π → Bool) (log : List (Fin N × Task π)) :
    total (fun l => (l.map Prod.snd).countP q) (fun w => ofWorker w log) =
      (log.map Prod.snd).countP q := by
  induction log with
  | nil => exact total_eq_zero_iff.mpr fun _ => rfl
  | cons e log ih =>
      have hone : ∀ w, ((ofWorker w (e :: log)).map Prod.snd).countP q =
          ((ofWorker w log).map Prod.snd).countP q +
            if w = e.1 then (if q e.2 then 1 else 0) else 0 := by
        intro w
        by_cases hw : e.1 = w
        · simp [ofWorker, hw, List.countP_cons]
        · simp [ofWorker, hw, Ne.symm hw]
      simp only [total] at ih ⊢
      simp only [hone, Finset.sum_add_distrib, ih, List.map_cons, List.countP_cons,
        Finset.sum_ite_eq', Finset.mem_univ, if_true]

theorem subperm_map {α : Type u} {β : Type v} (f : α → β) {l₁ l₂ : List α}
    (h : l₁.Subperm l₂) : (l₁.map f).Subperm (l₂.map f) := by
  obtain ⟨l, hperm, hsub⟩ := h
  exact ⟨l.map f, hperm.map f, hsub.map f⟩

theorem timesIn_le {l₁ l₂ : List (Task π)} (h : l₁.Subperm l₂) (n : Nat) :
    timesIn n l₁ ≤ timesIn n l₂ :=
  h.countP_le _

theorem timesIn_pos {tasks : List (Task π)} {task : Task π} (h : task ∈ tasks) :
    0 < timesIn task.id tasks :=
  List.countP_pos_iff.mpr ⟨task, h, by simp⟩

end Logs

section ExactlyOnce

variable [DecidableEq ι] [Fintype ι] {s : State N ι π} {tr : List (Event N ι π ℓ)}

theorem started_subperm_popped (hr : (pool N ι π ℓ).Reach s tr) :
    (startedTasks tr).Subperm (poppedTasks tr) := by
  refine subperm_map _ (subperm_of_ofWorker fun w => ?_)
  exact ⟨_, (popped_eq_started_append hr w).symm⟩

theorem finished_subperm_started (hr : (pool N ι π ℓ).Reach s tr) :
    (finishedTasks tr).Subperm (startedTasks tr) := by
  refine subperm_map _ (subperm_of_ofWorker fun w => ?_)
  exact ⟨_, (started_eq_finished_append hr w).symm⟩

/-- What has been popped has been finished, or is held by a worker. -/
theorem popped_eq_finished_append (hr : (pool N ι π ℓ).Reach s tr) (w : Fin N) :
    ofWorker w (tr.filterMap Event.popped?) = ofWorker w (tr.filterMap Event.finished?) ++
      ((s.ctrl (.inl w)).executing ++ (s.ctrl (.inl w)).taken).map (Prod.mk w) := by
  rw [popped_eq_started_append hr, started_eq_finished_append hr, List.append_assoc,
    List.map_append]

theorem popped_count (hr : (pool N ι π ℓ).Reach s tr) (q : Task π → Bool) :
    (poppedTasks tr).countP q = (finishedTasks tr).countP q +
      total (fun c => c.holds.countP q) fun w => s.ctrl (.inl w) := by
  have hw : ∀ w, ((ofWorker w (tr.filterMap Event.popped?)).map Prod.snd).countP q =
      ((ofWorker w (tr.filterMap Event.finished?)).map Prod.snd).countP q +
        (s.ctrl (.inl w)).holds.countP q := by
    intro w
    rw [popped_eq_finished_append hr, List.map_append, List.countP_append]
    simp [Ctrl.holds, Function.comp_def, Nat.add_comm]
  rw [poppedTasks, finishedTasks, ← total_ofWorker, ← total_ofWorker]
  simp only [total, hw, Finset.sum_add_distrib]

theorem popped_prefix_accepted (hr : (pool N ι π ℓ).Reach s tr) :
    poppedTasks tr <+: acceptedTasks tr :=
  ⟨_, (accepted_eq_popped_append hr).symm⟩

/-- Only accepted tasks are executed, and none of them more often than accepted. -/
theorem started_subperm_accepted (hr : (pool N ι π ℓ).Reach s tr) :
    (startedTasks tr).Subperm (acceptedTasks tr) :=
  (started_subperm_popped hr).trans (popped_prefix_accepted hr).sublist.subperm

/-- A `submit` call is decided at most once. -/
theorem accepted_once (hr : (pool N ι π ℓ).Reach s tr) (n : Nat) :
    timesIn n (acceptedTasks tr) + timesIn n (rejectedTasks tr) ≤ 1 := by
  refine Nat.le_trans ?_ (timesIn_calledTasks_le_one hr n)
  rw [timesIn, timesIn, timesIn, ← calls_decided hr]
  exact Nat.le_add_right _ _

/-- No task is accepted twice. -/
theorem accepted_nodup (hr : (pool N ι π ℓ).Reach s tr) : (acceptedTasks tr).Nodup := by
  classical
  refine List.nodup_iff_count_le_one.mpr fun task => ?_
  have hone := accepted_once hr task.id
  have hle : (acceptedTasks tr).count task ≤ timesIn task.id (acceptedTasks tr) := by
    refine List.countP_mono_left fun x _ hx => ?_
    rw [eq_of_beq hx]
    exact decide_eq_true rfl
  omega

theorem started_of_executing (hr : (pool N ι π ℓ).Reach s tr) {w : Fin N} {task : Task π}
    (hw : task ∈ (s.ctrl (.inl w)).executing) : task ∈ startedTasks tr := by
  have hlog : (w, task) ∈ ofWorker w (tr.filterMap Event.started?) := by
    rw [started_eq_finished_append hr]
    exact List.mem_append_right _ (List.mem_map_of_mem hw)
  exact List.mem_map_of_mem (f := Prod.snd) (List.mem_of_mem_filter hlog)

/-- A worker holds every task that it has popped and that has not been finished. -/
theorem held_of_pop (hr : (pool N ι π ℓ).Reach s tr) {w : Fin N} {task : Task π}
    (hpop : .popped w task ∈ tr) (hfin : task ∉ finishedTasks tr) :
    task ∈ (s.ctrl (.inl w)).holds := by
  have hlog : (w, task) ∈ ofWorker w (tr.filterMap Event.popped?) :=
    List.mem_filter.mpr ⟨List.mem_filterMap.mpr ⟨_, hpop, rfl⟩, by simp⟩
  rw [popped_eq_finished_append hr] at hlog
  rcases List.mem_append.mp hlog with hlog | hlog
  · exact absurd (List.mem_map_of_mem (f := Prod.snd) (List.mem_of_mem_filter hlog)) hfin
  · simpa [Ctrl.holds, or_comm] using hlog

/-- A worker holds every task that has been popped but not finished. -/
theorem held_of_popped (hr : (pool N ι π ℓ).Reach s tr) {task : Task π}
    (hpop : task ∈ poppedTasks tr) (hfin : task ∉ finishedTasks tr) :
    ∃ w, task ∈ (s.ctrl (.inl w)).holds := by
  obtain ⟨w, hw⟩ := mem_poppedTasks.mp hpop
  exact ⟨w, held_of_pop hr hw hfin⟩

theorem started_once (hr : (pool N ι π ℓ).Reach s tr) (n : Nat) :
    timesIn n (startedTasks tr) ≤ 1 :=
  (timesIn_le (started_subperm_accepted hr) n).trans
    ((Nat.le_add_right _ _).trans (accepted_once hr n))

/-- A task that a worker holds has been popped. -/
theorem popped_of_held (hr : (pool N ι π ℓ).Reach s tr) {w : Fin N} {task : Task π}
    (hw : task ∈ (s.ctrl (.inl w)).holds) : task ∈ poppedTasks tr := by
  have hlog : (w, task) ∈ ofWorker w (tr.filterMap Event.popped?) := by
    rw [popped_eq_finished_append hr]
    refine List.mem_append_right _ (List.mem_map_of_mem ?_)
    simpa [Ctrl.holds, or_comm] using hw
  exact List.mem_map_of_mem (f := Prod.snd) (List.mem_of_mem_filter hlog)

/-- A task that a worker holds has not been finished. -/
theorem held_unfinished (hr : (pool N ι π ℓ).Reach s tr) {w : Fin N} {task : Task π}
    (hw : task ∈ (s.ctrl (.inl w)).holds) : timesIn task.id (finishedTasks tr) = 0 := by
  have hone : timesIn task.id (poppedTasks tr) ≤ 1 :=
    (timesIn_le (popped_prefix_accepted hr).sublist.subperm task.id).trans
      ((Nat.le_add_right _ _).trans (accepted_once hr task.id))
  have hheld : 1 ≤ total (fun c => timesIn task.id c.holds) fun w => s.ctrl (.inl w) :=
    Nat.le_trans (timesIn_pos hw)
      (le_total (fun c : Ctrl π => timesIn task.id c.holds) (fun w => s.ctrl (.inl w)) w)
  have hcount := popped_count hr fun x => decide (x.id = task.id)
  simp only [timesIn] at hone hheld ⊢
  omega

/-- A task that is queued has not been finished. -/
theorem queued_unfinished (hr : (pool N ι π ℓ).Reach s tr) {task : Task π}
    (hx : task ∈ s.queue.contents.tasks) : timesIn task.id (finishedTasks tr) = 0 := by
  have hone := accepted_once hr task.id
  rw [accepted_eq_popped_append hr, timesIn_append] at hone
  have hpopped := timesIn_le
    ((finished_subperm_started hr).trans (started_subperm_popped hr)) task.id
  have := timesIn_pos hx
  omega

/-- A single worker executes the tasks in the order of the pops. -/
theorem started_prefix_popped {s : State 1 ι π} {tr : List (Event 1 ι π ℓ)}
    (hr : (pool 1 ι π ℓ).Reach s tr) : startedTasks tr <+: poppedTasks tr := by
  have h := popped_eq_started_append hr 0
  rw [ofWorker_eq_self, ofWorker_eq_self] at h
  rw [poppedTasks, h, List.map_append]
  exact List.prefix_append _ _

/-- When no worker holds a task, every popped task has been executed to its end. -/
theorem popped_subperm_finished (hr : (pool N ι π ℓ).Reach s tr)
    (hall : ∀ w, s.ctrl (.inl w) = .returned) :
    (poppedTasks tr).Subperm (finishedTasks tr) := by
  refine subperm_map _ (subperm_of_ofWorker fun w => ?_)
  rw [popped_eq_started_append hr w, started_eq_finished_append hr w, hall w]
  simp [Ctrl.taken, Ctrl.executing]

/-- What the pool guarantees for the callables that are submitted to it. -/
structure ExactlyOnce (s : State N ι π) (tr : List (Event N ι π ℓ)) : Prop where
  /-- Nothing is executed twice. -/
  once : ∀ n, timesIn n (startedTasks tr) ≤ 1
  /-- When all workers have returned, all accepted tasks have been executed. -/
  executed : (∀ w, s.ctrl (.inl w) = .returned) →
    (startedTasks tr).Perm (acceptedTasks tr) ∧
      (finishedTasks tr).Perm (acceptedTasks tr)
  /-- Among them are the callables whose `submit` returned a future. -/
  returned : (∀ w, s.ctrl (.inl w) = .returned) →
    ∀ t task, .submitReturned t task ∈ tr → task ∈ startedTasks tr ∧
      timesIn task.id (startedTasks tr) = 1 ∧ timesIn task.id (finishedTasks tr) = 1
  /-- A callable whose `submit` threw is never executed. -/
  rejected : ∀ t task, .rejected t task ∈ tr → timesIn task.id (startedTasks tr) = 0
  /-- When a worker leaves, the queue is empty, and no later push is accepted. -/
  exits : ∀ pre post w, tr = pre ++ .exited w :: post →
    acceptedTasks pre = poppedTasks pre ∧ acceptedTasks post = []
  drained : ∀ w, s.ctrl (.inl w) = .returned →
    s.queue.contents.tasks = [] ∧ s.queue.contents.shutdown = true
  /-- A single worker executes in the order of acceptance. -/
  ordered : N = 1 → startedTasks tr <+: acceptedTasks tr

/-- Every accepted task is executed exactly once, across a shutdown. -/
theorem runs_accepted_once (hN : 0 < N) (hr : (pool N ι π ℓ).Reach s tr) :
    ExactlyOnce s tr := by
  have hph := phases_reach hr
  have hdrained : ∀ w, s.ctrl (.inl w) = .returned →
      s.queue.contents.tasks = [] ∧ s.queue.contents.shutdown = true := fun w hw =>
    ⟨hph.exits w hw, hph.stops w (hph.drains w (by rw [hw]; rfl))⟩
  have hperm : (∀ w, s.ctrl (.inl w) = .returned) →
      (startedTasks tr).Perm (acceptedTasks tr) ∧
        (finishedTasks tr).Perm (acceptedTasks tr) := by
    intro hall
    have hpopped : acceptedTasks tr = poppedTasks tr := by
      rw [accepted_eq_popped_append hr, (hdrained ⟨0, hN⟩ (hall _)).1, List.append_nil]
    have hfin := popped_subperm_finished hr hall
    rw [hpopped]
    exact ⟨(started_subperm_popped hr).antisymm (hfin.trans (finished_subperm_started hr)),
      ((finished_subperm_started hr).trans (started_subperm_popped hr)).antisymm hfin⟩
  have honce : ∀ n, timesIn n (acceptedTasks tr) ≤ 1 := fun n =>
    (Nat.le_add_right _ _).trans (accepted_once hr n)
  refine ⟨started_once hr, hperm, ?_, ?_, ?_, hdrained, ?_⟩
  · intro hall t task hmem
    obtain ⟨hstarted, hfinished⟩ := hperm hall
    have hacc := hph.returns t task hmem
    have hone : timesIn task.id (acceptedTasks tr) = 1 :=
      Nat.le_antisymm (honce _) (timesIn_pos hacc)
    refine ⟨hstarted.mem_iff.mpr hacc, ?_, ?_⟩
    · rw [← hone]
      exact hstarted.countP_eq _
    · rw [← hone]
      exact hfinished.countP_eq _
  · intro t task hmem
    have hrej := timesIn_pos (mem_rejectedTasks.mpr ⟨t, hmem⟩)
    have := accepted_once hr task.id
    have := timesIn_le (started_subperm_accepted hr) task.id
    omega
  · intro pre post w htr
    obtain ⟨hpre, hpost, _⟩ := exited_last hr htr
    exact ⟨hpre, hpost⟩
  · rintro rfl
    exact (started_prefix_popped hr).trans (popped_prefix_accepted hr)

/-- One worker, and a task submitted before the shutdown. -/
theorem runs_accepted_once_submitThenShutdown :
    ∃ (s : State 1 Unit Nat) (tr : List (Event 1 Unit Nat Empty)),
      (pool 1 Unit Nat Empty).Reach s tr ∧ (∀ w, s.ctrl (.inl w) = .returned) ∧
        startedTasks tr = [⟨0, 7⟩] ∧ ExactlyOnce s tr := by
  obtain ⟨s, tr, hr, hp⟩ := Machine.exists_reach_of_exec
    (M := pool 1 Unit Nat Empty)
    [.submit (.inr ()) 7, .advance (.inr ()), .test 0, .notify (.inr ()) none,
      .shutdown (.inr ()), .advance (.inr ()), .advance (.inr ()), .requestStop (.inr ()),
      .requestStop (.inr ()), .advance (.inl 0), .start 0, .finish 0, .test 0, .drain 0,
      .advance (.inl 0)]
    (p := fun r => decide ((∀ w, r.1.ctrl (.inl w) = .returned) ∧
      startedTasks r.2 = [⟨0, 7⟩]))
    (by decide)
  obtain ⟨hall, hstarted⟩ := of_decide_eq_true hp
  exact ⟨s, tr, hr, hall, hstarted, runs_accepted_once (by decide) hr⟩

end ExactlyOnce

end ThreadPool
end AsyncTaskEngine
