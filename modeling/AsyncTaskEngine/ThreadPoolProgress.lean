import AsyncTaskEngine.ThreadPoolAccounting

/-!
# What can stop the pool

The steps that the code of the pool owes are those that no user code has to ask
for: the steps inside its calls to the queue, the two loops of the workers, and
the loop of `shutdown`.  When none of them is possible, every thread is in user
code, has returned, or sleeps in `wait_and_pop`; and tasks are left in the queue
only if every worker is executing one.
-/

namespace AsyncTaskEngine
namespace ThreadPool

open BlockingMonitor (Call)

universe u v w

variable {N : Nat} {ι : Type u} {π : Type v} {ℓ : Type w}

/-- The steps that the code of the pool takes by itself. -/
def Act.owed : Act N ι π ℓ → Bool
  | .advance _ => true
  | .notify _ _ => true
  | .test _ => true
  | .drain _ => true
  | .start _ => true
  | .requestStop _ => true
  | _ => false

/-- The worker is on its way to its next pop. -/
def Ctrl.free : Ctrl π → Bool
  | .test => true
  | .waiting => true
  | .drain => true
  | .draining => true
  | _ => false

/-- The thread is asleep in `wait_and_pop`. -/
def State.sleeps (s : State N ι π) (w : Fin N) : Prop :=
  s.ctrl (.inl w) = .waiting ∧ s.queue.call (.inl w) = .asleep w

variable [DecidableEq ι] [Fintype ι]

/-- The code of the pool cannot move. -/
def Quiescent (ℓ : Type w) (s : State N ι π) : Prop :=
  ∀ a : Act N ι π ℓ, a.owed = true → step s a = none

section Enabled

variable {s : State N ι π} {t : Tid N ι}

theorem queueStep_isSome {a : BlockingMonitor.Act (Tid N ι) (Fin N) (Task π)} :
    (queueStep (ℓ := ℓ) s a).isSome =
      (BlockingMonitor.step (TaskQueue.sections (Task π)) s.queue a).isSome := by
  simp [queueStep]

/-- A thread inside a call to the queue can move, unless it sleeps. -/
theorem call_enabled (hbusy : s.queue.call t ≠ .idle)
    (hawake : (s.queue.call t).isAsleep = false) :
    ∃ a : Act N ι π ℓ, a.owed = true ∧ (step s a).isSome = true := by
  cases hc : s.queue.call t with
  | idle => exact absurd hc hbusy
  | asleep k => simp [hc, Call.isAsleep] at hawake
  | notifyOne =>
      by_cases hsleep : ∃ u, (s.queue.call u).isAsleep = true
      · obtain ⟨u, hu⟩ := hsleep
        refine ⟨.notify t (some u), rfl, ?_⟩
        rw [step, queueStep_isSome]
        simp [BlockingMonitor.step, BlockingMonitor.notify, hc, hu]
      · refine ⟨.notify t none, rfl, ?_⟩
        have hno : ∀ u, (s.queue.call u).isAsleep = false := by
          intro u
          by_contra hu
          exact hsleep ⟨u, by simpa using hu⟩
        rw [step, queueStep_isSome]
        simp only [BlockingMonitor.step, BlockingMonitor.notify, hc, if_pos hno]
        rfl
  | push task =>
      refine ⟨.advance t, rfl, ?_⟩
      rw [step, queueStep_isSome]
      simp only [BlockingMonitor.step, BlockingMonitor.advance, hc]
      split <;> rfl
  | _ =>
      refine ⟨.advance t, rfl, ?_⟩
      rw [step, queueStep_isSome]
      simp [BlockingMonitor.step, BlockingMonitor.advance, hc]

/-- In a quiescent pool every call to the queue is asleep. -/
theorem Quiescent.call (hq : Quiescent ℓ s) (t : Tid N ι) :
    s.queue.call t = .idle ∨ ∃ k, s.queue.call t = .asleep k := by
  by_cases hidle : s.queue.call t = .idle
  · exact .inl hidle
  · by_cases hsleep : (s.queue.call t).isAsleep = true
    · exact .inr (BlockingMonitor.Call.exists_asleep hsleep)
    · obtain ⟨a, howed, ha⟩ := call_enabled (ℓ := ℓ) hidle (by simpa using hsleep)
      rw [hq a howed] at ha
      cases ha

/-- What user code is doing when the pool is quiescent. -/
theorem Quiescent.user (hq : Quiescent ℓ s) (hag : Agrees s) {u : UserPc π}
    (hu : (s.ctrl t).user? = some u) : u = .code := by
  have hagree := Ctrl.agrees_user (hag t) hu
  cases u with
  | code => rfl
  | stopping i =>
      have := hq (.requestStop t) rfl
      simp only [step, hu] at this
      split at this
      · simp [queueStep, BlockingMonitor.step] at this
      · cases this
  | _ =>
      exfalso
      rcases hq.call t with hc | ⟨k, hc⟩ <;>
        (rw [hc] at hagree; simp [UserPc.agrees] at hagree)

/-- Where the threads are when the pool is quiescent. -/
theorem Quiescent.worker (hq : Quiescent ℓ s) (hag : Agrees s) (w : Fin N) :
    s.ctrl (.inl w) = .returned ∨ s.sleeps w ∨
      ∃ task drained, s.ctrl (.inl w) = .running task drained .code := by
  have hagree := hag (.inl w)
  have hcall := hq.call (.inl w)
  cases hc : s.ctrl (.inl w) with
  | returned => exact .inl rfl
  | running task drained u =>
      have hu : (s.ctrl (.inl w)).user? = some u := by
        rw [hc]
        rfl
      rw [hq.user hag hu]
      exact .inr (.inr ⟨task, drained, rfl⟩)
  | outside u =>
      rw [hc] at hagree
      obtain ⟨⟨e, he⟩, _⟩ := hagree
      cases he
  | waiting =>
      rw [hc] at hagree
      obtain ⟨k, hk, hwait⟩ := hagree
      cases hk
      rcases hcall with hcall | ⟨j, hcall⟩
      · rw [hcall] at hwait
        simp at hwait
      · refine .inr (.inl ⟨hc, ?_⟩)
        rw [hcall] at hwait ⊢
        simpa using hwait
  | draining =>
      rw [hc] at hagree
      rcases hcall with hcall | ⟨j, hcall⟩ <;>
        (rw [hcall] at hagree; cases hagree.2)
  | got task drained =>
      have := hq (.start w) rfl
      simp [step, hc] at this
  | drain =>
      have := hq (.drain w) rfl
      have hidle := hag.idle hc fun _ h => h.2
      simp [step, hc, queueStep, BlockingMonitor.step, State.setCtrl, hidle] at this
  | test =>
      have := hq (.test w) rfl
      have hidle := hag.idle hc fun _ h => h.2
      simp only [step, hc] at this
      split at this
      · cases this
      · simp [queueStep, BlockingMonitor.step, State.setCtrl, hidle] at this

end Enabled

section Quiescence

variable {s : State N ι π} {tr : List (Event N ι π ℓ)}

/-- In a quiescent pool nobody sleeps while there is work, or after a shutdown. -/
theorem Quiescent.no_sleeper (hq : Quiescent ℓ s) (hr : (pool N ι π ℓ).Reach s tr)
    (hwork : s.queue.contents.tasks ≠ [] ∨ s.queue.contents.shutdown = true)
    (w : Fin N) : ¬ s.sleeps w := by
  rintro ⟨_, hsleep⟩
  obtain ⟨qtr, hqr⟩ := queue_reach hr
  have inv := BlockingMonitor.wakeupInv_reach TaskQueue.lawful hqr
  have hasleep : (s.queue.call (.inl w)).isAsleep = true := by rw [hsleep]; rfl
  rcases hwork with htasks | hclosed
  · have hcount := inv.counting ⟨.inl w, hasleep⟩
    have hzero : s.queue.wokenThreads = 0 ∧ s.queue.pendingNotifies = 0 := by
      constructor <;>
        (refine total_eq_zero_iff.mpr fun t => ?_
         rcases hq.call t with hc | ⟨k, hc⟩ <;> (rw [hc]; rfl))
    have hlen : (TaskQueue.sections (Task π)).size s.queue.contents =
        s.queue.contents.tasks.length := rfl
    rw [hlen, hzero.1, hzero.2] at hcount
    exact htasks (List.eq_nil_of_length_eq_zero (Nat.le_zero.mp hcount))
  · obtain ⟨u, hu⟩ := inv.closing hclosed _ hasleep
    rcases hq.call u with hc | ⟨k, hc⟩ <;> (rw [hc] at hu; cases hu)

/-- Work is left in a quiescent pool only if every worker is executing. -/
theorem Quiescent.all_running (hq : Quiescent ℓ s) (hr : (pool N ι π ℓ).Reach s tr)
    (htasks : s.queue.contents.tasks ≠ []) (w : Fin N) :
    ∃ task drained, s.ctrl (.inl w) = .running task drained .code := by
  rcases hq.worker (agrees_reach hr) w with hret | hsleep | hrun
  · exact absurd ((phases_reach hr).exits w hret) htasks
  · exact absurd hsleep (hq.no_sleeper hr (.inl htasks) w)
  · exact hrun

/-- After a shutdown the workers of a quiescent pool have returned, or execute. -/
theorem Quiescent.closed (hq : Quiescent ℓ s) (hr : (pool N ι π ℓ).Reach s tr)
    (hclosed : s.queue.contents.shutdown = true) (w : Fin N) :
    s.ctrl (.inl w) = .returned ∨
      ∃ task drained, s.ctrl (.inl w) = .running task drained .code := by
  rcases hq.worker (agrees_reach hr) w with hret | hsleep | hrun
  · exact .inl hret
  · exact absurd hsleep (hq.no_sleeper hr (.inr hclosed) w)
  · exact .inr hrun

/-- With tasks in the queue, a worker that is not free holds a task. -/
theorem free_or_holds (hr : (pool N ι π ℓ).Reach s tr)
    (htasks : s.queue.contents.tasks ≠ []) (w : Fin N) :
    (s.ctrl (.inl w)).free = true ∨ ∃ task, (s.ctrl (.inl w)).holds = [task] := by
  cases hc : s.ctrl (.inl w) with
  | got task drained => exact .inr ⟨task, rfl⟩
  | running task drained u => exact .inr ⟨task, rfl⟩
  | returned => exact absurd ((phases_reach hr).exits w hc) htasks
  | outside u =>
      have hag := agrees_reach hr (.inl w)
      rw [hc] at hag
      obtain ⟨⟨e, he⟩, _⟩ := hag
      cases he
  | _ => exact .inl rfl

/-- If every worker holds a task of some kind, at least `N` of these were popped. -/
theorem le_popped_of_held (hr : (pool N ι π ℓ).Reach s tr) (kind : Task π → Bool)
    (hheld : ∀ w, ∃ task ∈ (s.ctrl (.inl w)).holds, kind task = true) :
    N ≤ (poppedTasks tr).countP kind := by
  have hbusy : ∀ w, 1 ≤ (s.ctrl (.inl w)).holds.countP kind := fun w =>
    List.countP_pos_iff.mpr (hheld w)
  have hN : N ≤ total (fun c => c.holds.countP kind) fun w => s.ctrl (.inl w) := by
    calc N = total (fun _ : Ctrl π => 1) fun w : Fin N => s.ctrl (.inl w) := by simp [total]
      _ ≤ _ := total_mono hbusy
  have hpopped := popped_count hr kind
  omega

/-- If all workers hold tasks of some kind, at least `N` of these were accepted. -/
theorem exists_free (hr : (pool N ι π ℓ).Reach s tr) (kind : Task π → Bool)
    (hfew : (acceptedTasks tr).countP kind < N) (htasks : s.queue.contents.tasks ≠ [])
    (hheld : ∀ w, ∀ task ∈ (s.ctrl (.inl w)).holds, kind task = true) :
    ∃ w, (s.ctrl (.inl w)).free = true := by
  by_contra hno
  have hN := le_popped_of_held hr kind fun w => by
    rcases free_or_holds hr htasks w with hfree | ⟨task, hholds⟩
    · exact absurd ⟨w, hfree⟩ hno
    · have hmem : task ∈ (s.ctrl (.inl w)).holds := by
        rw [hholds]
        exact List.mem_singleton_self _
      exact ⟨task, hmem, hheld w task hmem⟩
  have hacc := (popped_prefix_accepted hr).sublist.countP_le (p := kind)
  omega

end Quiescence

end ThreadPool
end AsyncTaskEngine
