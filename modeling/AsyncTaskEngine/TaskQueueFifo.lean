import AsyncTaskEngine.BlockingContainers

/-!
# TaskQueue is a FIFO queue over whole runs

Pops, blocking or not, return the accepted tasks in the order of their pushes,
each of them once, and what has not been popped is in the queue.  A refusal
names its reason: a push is rejected after a `shutdown` and only then, a
`try_pop` returns `std::nullopt` when every accepted task has been popped, and a
`wait_and_pop` moreover only when the queue has been shut down or its own token
has been stopped.  `size_approx` returns the exact number of waiting tasks at
the moment of its critical section.
-/

namespace AsyncTaskEngine

namespace BlockingMonitor

universe u v w x y

variable {σ : Type u} {β : Type v} {γ : Type w} {κ : Type x} {ι : Type y}
variable [DecidableEq ι] [DecidableEq κ] {sec : Sections σ β γ} {s s' : State σ ι κ β}
variable {tr pre post es : List (Event ι κ β γ)} {e : Event ι κ β γ}

/-- A step records one event at most. -/
theorem Move.length_le (hm : Move sec s s' es) : es.length ≤ 1 := by
  cases hm with
  | enter c hc hentry => exact Nat.zero_le _
  | stop k => exact Nat.le_refl _
  | inner h =>
      cases h with
      | tryPop hc | leave hc hr =>
          dsimp only [finishPop]
          split <;> exact Nat.le_refl _
      | sleep hc hr hk | spurious hc => exact Nat.zero_le _
      | _ => exact Nat.le_refl _

/-- The state in which an event was recorded, and the step that recorded it. -/
theorem emitted_alone [Fintype ι] (law : sec.Lawful) (hr : (monitor sec).Reach s tr)
    (htr : tr = pre ++ e :: post) :
    ∃ s₀ s₁, (monitor sec).Reach s₀ pre ∧ Move sec s₀ s₁ [e] := by
  obtain ⟨s₀, tr₀, a, s₁, es₀, es₁, hr₀, hs, rfl⟩ := hr.emitted htr
  have hm := step_move law hs
  have hlen := hm.length_le
  rw [List.length_append, List.length_cons] at hlen
  obtain rfl : es₀ = [] := List.length_eq_zero_iff.mp (by omega)
  obtain rfl : es₁ = [] := List.length_eq_zero_iff.mp (by omega)
  exact ⟨s₀, s₁, by rwa [List.append_nil], hm⟩

/-- The size that is returned is that of the contents. -/
theorem Move.size_eq {t : ι} {n : Nat} (hm : Move sec s s' [.sizeReturned t n]) :
    n = sec.size s.contents := by
  generalize hes : [Event.sizeReturned t n] = es at hm
  cases hm with
  | enter c hc hentry => cases hes
  | stop k => cases hes
  | inner h =>
      cases h with
      | size hc =>
          cases hes
          rfl
      | tryPop hc | leave hc hr =>
          dsimp only [finishPop] at hes
          split at hes <;> cases hes
      | _ => cases hes

end BlockingMonitor

namespace TaskQueue

open BlockingMonitor (Event Effect emitted_alone step_move)

universe u v w

variable {τ : Type w} {ι : Type u} {κ : Type v}

/-- The task of a successful push. -/
def accepted? : Event ι κ τ τ → Option τ
  | .pushAccepted _ task => some task
  | _ => none

/-- The task that a pop has returned. -/
def popped? : Event ι κ τ τ → Option τ
  | .popped _ task => some task
  | _ => none

/-- The tasks of the successful pushes, in order. -/
def acceptedTasks (tr : List (Event ι κ τ τ)) : List τ :=
  tr.filterMap accepted?

/-- The tasks that have been returned, in order. -/
def poppedTasks (tr : List (Event ι κ τ τ)) : List τ :=
  tr.filterMap popped?

theorem acceptedTasks_append (tr es : List (Event ι κ τ τ)) :
    acceptedTasks (tr ++ es) = acceptedTasks tr ++ acceptedTasks es :=
  List.filterMap_append

theorem poppedTasks_append (tr es : List (Event ι κ τ τ)) :
    poppedTasks (tr ++ es) = poppedTasks tr ++ poppedTasks es :=
  List.filterMap_append

/-- What the trace says about the state. -/
structure Recorded (s : BlockingMonitor.State (Contents τ) ι κ τ)
    (tr : List (Event ι κ τ τ)) : Prop where
  order : acceptedTasks tr = poppedTasks tr ++ s.contents.tasks
  shutdown : s.contents.shutdown = true ↔ ∃ t, .closed t ∈ tr
  tokens : ∀ k, s.stopped k = true ↔ .stopRequested k ∈ tr

section Recorded

variable [DecidableEq κ] {s s' : BlockingMonitor.State (Contents τ) ι κ τ}
variable {tr es : List (Event ι κ τ τ)}

omit [DecidableEq κ] in
/-- The tasks stay as long as none is pushed or popped. -/
theorem Recorded.order_keep (h : Recorded s tr) (hc : s'.contents.tasks = s.contents.tasks)
    (hacc : acceptedTasks es = []) (hpop : poppedTasks es = []) :
    acceptedTasks (tr ++ es) = poppedTasks (tr ++ es) ++ s'.contents.tasks := by
  rw [acceptedTasks_append, poppedTasks_append, hacc, hpop, List.append_nil, List.append_nil, hc]
  exact h.order

omit [DecidableEq κ] in
/-- Nothing that matters here has happened. -/
theorem Recorded.keep (h : Recorded s tr) (hc : s'.contents = s.contents)
    (hs : s'.stopped = s.stopped) (hacc : acceptedTasks es = []) (hpop : poppedTasks es = [])
    (hclosed : ∀ t, .closed t ∉ es) (hstop : ∀ k, .stopRequested k ∉ es) :
    Recorded s' (tr ++ es) where
  order := h.order_keep (by rw [hc]) hacc hpop
  shutdown := by
    rw [hc, h.shutdown]
    simp [hclosed]
  tokens k := by
    rw [hs, h.tokens]
    simp [hstop]

theorem Recorded.step (h : Recorded s tr) (heff : Effect (sections τ) s s' es) :
    Recorded s' (tr ++ es) := by
  cases heff with
  | quiet hc hs hes =>
      refine h.keep hc hs ?_ ?_ (fun t hmem => hes _ hmem) fun k hmem => hes _ hmem
      · exact List.filterMap_eq_nil_iff.mpr fun e he => by
          have := hes e he
          cases e <;> first | rfl | exact this.elim
      · exact List.filterMap_eq_nil_iff.mpr fun e he => by
          have := hes e he
          cases e <;> first | rfl | exact this.elim
  | rejected t task hc hs hp => exact h.keep hc hs rfl rfl (by simp) (by simp)
  | tryEmpty t hc hs hsize => exact h.keep hc hs rfl rfl (by simp) (by simp)
  | waitEmpty t k hc hs hsize hend => exact h.keep hc hs rfl rfl (by simp) (by simp)
  | accepted t task hs hp =>
      obtain ⟨hopen, hc⟩ := push_eq_some.mp hp
      refine ⟨?_, ?_, ?_⟩
      · rw [acceptedTasks_append, poppedTasks_append, h.order, ← hc, List.append_assoc,
          List.append_assoc]
        rfl
      · rw [← hc, h.shutdown]
        simp
      · intro k
        rw [hs, h.tokens]
        simp
  | popped t task hs hp =>
      have hp : tryPop s.contents = (s'.contents, some task) := hp
      cases htasks : s.contents.tasks with
      | nil =>
          rw [tryPop_nil htasks] at hp
          have hnone := (Prod.mk.inj hp).2
          cases hnone
      | cons first rest =>
          rw [tryPop_cons htasks] at hp
          obtain ⟨hc, hx⟩ := Prod.mk.inj hp
          have hx := Option.some.inj hx
          refine ⟨?_, ?_, ?_⟩
          · rw [acceptedTasks_append, poppedTasks_append, h.order, htasks, ← hc, hx,
              List.append_assoc, List.append_assoc]
            exact congrArg (poppedTasks tr ++ ·) (List.append_nil _)
          · rw [← hc, h.shutdown]
            simp
          · intro k
            rw [hs, h.tokens]
            simp
  | closed t hc hs =>
      refine ⟨?_, ?_, ?_⟩
      · exact h.order_keep (by rw [hc]; rfl) rfl rfl
      · rw [hc]
        simp [sections, TaskQueue.shutdown]
      · intro k
        rw [hs, h.tokens]
        simp
  | stopRequested k hc hs =>
      refine ⟨?_, ?_, ?_⟩
      · exact h.order_keep (by rw [hc]) rfl rfl
      · rw [hc, h.shutdown]
        simp
      · intro j
        rw [hs]
        by_cases hjk : j = k
        · subst hjk
          simp
        · rw [Function.update_of_ne hjk, h.tokens]
          simp [hjk]

end Recorded

/-- A run of `TaskQueue` is a run of a FIFO queue, with its refusals. -/
structure FifoRun (s : BlockingMonitor.State (Contents τ) ι κ τ)
    (tr : List (Event ι κ τ τ)) : Prop where
  /-- No task is lost, doubled or overtaken. -/
  order : acceptedTasks tr = poppedTasks tr ++ s.contents.tasks
  oldest : ∀ pre post t task, tr = pre ++ .popped t task :: post →
    ∃ later, acceptedTasks pre = poppedTasks pre ++ task :: later
  acceptedOpen : ∀ pre post t task, tr = pre ++ .pushAccepted t task :: post →
    ∀ u, .closed u ∉ pre
  rejectedClosed : ∀ pre post t task, tr = pre ++ .pushRejected t task :: post →
    ∃ u, .closed u ∈ pre
  tryEmpty : ∀ pre post t, tr = pre ++ .tryEmpty t :: post →
    acceptedTasks pre = poppedTasks pre
  waitEmpty : ∀ pre post t k, tr = pre ++ .waitEmpty t k :: post →
    acceptedTasks pre = poppedTasks pre ∧
      ((∃ u, .closed u ∈ pre) ∨ .stopRequested k ∈ pre)
  size : ∀ pre post t n, tr = pre ++ .sizeReturned t n :: post →
    (acceptedTasks pre).length = (poppedTasks pre).length + n

section Runs

variable [DecidableEq ι] [Fintype ι] [DecidableEq κ]
variable {s : BlockingMonitor.State (Contents τ) ι κ τ} {tr : List (Event ι κ τ τ)}

theorem recorded_reach (hr : (taskQueue τ).Reach s tr) : Recorded s tr := by
  refine hr.invariant ⟨rfl, ?_, ?_⟩ fun _ h hs => h.step ((step_move lawful hs).effect lawful)
  · simp [BlockingMonitor.monitor, sections]
  · simp [BlockingMonitor.monitor]

omit [DecidableEq ι] [Fintype ι] [DecidableEq κ] in
/-- An empty queue has popped everything it accepted. -/
theorem Recorded.empty (h : Recorded s tr) (hsize : (sections τ).size s.contents = 0) :
    acceptedTasks tr = poppedTasks tr := by
  rw [h.order, List.length_eq_zero_iff.mp hsize, List.append_nil]

/-- `TaskQueue` is a FIFO queue over whole runs, whatever its threads do. -/
theorem fifo_over_runs (hr : (taskQueue τ).Reach s tr) : FifoRun s tr := by
  refine ⟨(recorded_reach hr).order, ?_, ?_, ?_, ?_, ?_, ?_⟩
  · intro pre post t task htr
    obtain ⟨s₀, s₁, hr₀, hm⟩ := emitted_alone lawful hr htr
    have h := recorded_reach hr₀
    have h₁ := h.step (hm.effect lawful)
    refine ⟨s₁.contents.tasks, ?_⟩
    calc acceptedTasks pre
        = acceptedTasks (pre ++ [.popped t task]) := by
          rw [acceptedTasks_append]
          exact (List.append_nil _).symm
      _ = poppedTasks (pre ++ [.popped t task]) ++ s₁.contents.tasks := h₁.order
      _ = poppedTasks pre ++ task :: s₁.contents.tasks := by
          rw [poppedTasks_append, List.append_assoc]
          rfl
  · intro pre post t task htr u hu
    obtain ⟨s₀, s₁, hr₀, hm⟩ := emitted_alone lawful hr htr
    have hclosed := (recorded_reach hr₀).shutdown.mpr ⟨u, hu⟩
    cases hm.effect lawful with
    | accepted _ _ hs hp =>
        rw [(push_eq_some.mp hp).1] at hclosed
        cases hclosed
    | quiet hc hs hq => exact hq _ (List.mem_singleton_self _)
  · intro pre post t task htr
    obtain ⟨s₀, s₁, hr₀, hm⟩ := emitted_alone lawful hr htr
    cases hm.effect lawful with
    | rejected _ _ hc hs hp =>
        exact (recorded_reach hr₀).shutdown.mp ((lawful.push_eq_none _ _).mp hp)
    | quiet hc hs hq => exact (hq _ (List.mem_singleton_self _)).elim
  · intro pre post t htr
    obtain ⟨s₀, s₁, hr₀, hm⟩ := emitted_alone lawful hr htr
    cases hm.effect lawful with
    | tryEmpty _ hc hs hsize => exact (recorded_reach hr₀).empty hsize
    | quiet hc hs hq => exact (hq _ (List.mem_singleton_self _)).elim
  · intro pre post t k htr
    obtain ⟨s₀, s₁, hr₀, hm⟩ := emitted_alone lawful hr htr
    have h := recorded_reach hr₀
    cases hm.effect lawful with
    | waitEmpty _ _ hc hs hsize hend =>
        exact ⟨h.empty hsize, hend.imp h.shutdown.mp (h.tokens k).mp⟩
    | quiet hc hs hq => exact (hq _ (List.mem_singleton_self _)).elim
  · intro pre post t n htr
    obtain ⟨s₀, s₁, hr₀, hm⟩ := emitted_alone lawful hr htr
    rw [(recorded_reach hr₀).order, List.length_append, hm.size_eq]
    rfl

/-- Two tasks, a consumer that waits, a shutdown, and a refusal of each kind. -/
theorem fifo_over_runs_refusals :
    ∃ (s : BlockingMonitor.State (Contents Nat) Bool Unit Nat)
      (tr : List (Event Bool Unit Nat Nat)), poppedTasks tr = [7, 8] ∧
        .pushRejected true 9 ∈ tr ∧ .waitEmpty false () ∈ tr ∧ FifoRun s tr := by
  obtain ⟨s, tr, hr, hp⟩ := Machine.exists_reach_of_exec
    (M := taskQueue (ι := Bool) (κ := Unit) Nat)
    [.waitAndPop false (), .advance false, .push true 7, .advance true,
      .notify true (some false), .push true 8, .advance true, .notify true none,
      .advance false, .shutdown true, .advance true, .advance true, .push true 9,
      .advance true, .tryPop false, .advance false, .waitAndPop false (), .advance false]
    (p := fun r => decide (poppedTasks r.2 = [7, 8] ∧ Event.pushRejected true 9 ∈ r.2 ∧
      Event.waitEmpty false () ∈ r.2))
    (by decide)
  obtain ⟨hpopped, hrejected, hempty⟩ := of_decide_eq_true hp
  exact ⟨s, tr, hpopped, hrejected, hempty, fifo_over_runs hr⟩

end Runs

end TaskQueue
end AsyncTaskEngine
