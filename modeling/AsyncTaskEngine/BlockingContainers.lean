import AsyncTaskEngine.BlockingLockstep
import AsyncTaskEngine.TaskQueue
import AsyncTaskEngine.Scheduler

/-!
# What the blocking containers have in common

`TaskQueue` and `PriorityScheduler` are the same monitor around different
critical sections.  The results of `BlockingMonitor` are stated here for both.

* `no_lost_wakeup`: neither container loses a wakeup;
* `one_priority_is_taskQueue`: with a single priority the scheduler is the queue.
-/

namespace AsyncTaskEngine

open BlockingMonitor (NoLostWakeup noLostWakeup_reach pushCalls)
open PriorityScheduler (PriorityTask TaskPriority scheduler)

universe u v w x

variable {ι : Type u} {κ : Type v} [DecidableEq ι] [Fintype ι] [DecidableEq κ]

/-- `TaskQueue` used by the threads `ι` with stop tokens `κ`. -/
abbrev taskQueue (τ : Type w) : Machine
    (BlockingMonitor.State (TaskQueue.Contents τ) ι κ τ) (BlockingMonitor.Act ι κ τ)
    (BlockingMonitor.Event ι κ τ τ) :=
  BlockingMonitor.monitor (TaskQueue.sections τ)

/-- Neither container loses a wakeup, whatever its threads do. -/
theorem no_lost_wakeup {τ : Type w} {φ : Type w} {H : Type x}
    (heap : MaxHeap H (PriorityTask φ) PriorityTask.less) :
    (∀ (s : BlockingMonitor.State (TaskQueue.Contents τ) ι κ τ) tr,
      (taskQueue τ).Reach s tr → NoLostWakeup (TaskQueue.sections τ) s tr) ∧
    ∀ (s : BlockingMonitor.State (PriorityScheduler.Contents H) ι κ (φ × TaskPriority))
      tr, (scheduler heap).Reach s tr →
        NoLostWakeup (PriorityScheduler.sections heap) s tr :=
  ⟨fun _ _ hr => noLostWakeup_reach TaskQueue.lawful hr,
    fun _ _ hr => noLostWakeup_reach (PriorityScheduler.lawful heap) hr⟩

/-- A consumer sleeps while the notification of a push is pending. -/
theorem no_lost_wakeup_pending_notify :
    ∃ (s : BlockingMonitor.State (TaskQueue.Contents Nat) Bool Unit Nat) (tr : _),
      (taskQueue Nat).Reach s tr ∧ s.contents.tasks = [7] ∧
        (s.call false).isAsleep = true ∧ NoLostWakeup (TaskQueue.sections Nat) s tr := by
  obtain ⟨s, tr, hr, hp⟩ := Machine.exists_reach_of_exec
    (M := taskQueue (ι := Bool) (κ := Unit) Nat)
    [.waitAndPop false (), .advance false, .push true 7, .advance true]
    (p := fun r => decide (r.1.contents.tasks = [7] ∧ (r.1.call false).isAsleep = true))
    (by decide)
  obtain ⟨htasks, hasleep⟩ := of_decide_eq_true hp
  exact ⟨s, tr, hr, htasks, hasleep,
    (no_lost_wakeup (φ := Nat) (sortedListHeap PriorityTask.less)).1 s tr hr⟩

section OnePriority

variable {φ : Type w} {H : Type x}

/--
The contents of both containers after `n` accepted pushes at priority `p`: the
heap holds the tasks of the queue, stamped in their order.
-/
structure SamePriority (heap : MaxHeap H (PriorityTask φ) PriorityTask.less)
    (p : TaskPriority) (n : Nat) (q : TaskQueue.Contents φ)
    (c : PriorityScheduler.Contents H) : Prop where
  held : ∃ held : List (PriorityTask φ), heap.elems c.queue = held ∧
    held.map PriorityTask.func = q.tasks.map some ∧
    (∀ task ∈ held, task.priority = p ∧ task.sequence.toNat < n) ∧
    held.Pairwise fun a b => a.sequence.toNat < b.sequence.toNat
  nextSeq : c.nextSeq = BitVec.ofNat 64 n
  stopped : c.stopped = q.shutdown

variable {heap : MaxHeap H (PriorityTask φ) PriorityTask.less} {p : TaskPriority}
variable {n : Nat} {q : TaskQueue.Contents φ} {c : PriorityScheduler.Contents H}

theorem SamePriority.size (h : SamePriority heap p n q c) :
    q.tasks.length = heap.size c.queue := by
  obtain ⟨held, helems, hfuncs, _, _⟩ := h.held
  rw [heap.size_eq, helems, Multiset.coe_card]
  simpa using (congrArg List.length hfuncs).symm

/-- The new task is stamped later than all tasks of the heap. -/
theorem SamePriority.push (h : SamePriority heap p n q c) (hn : n < 2 ^ 64) (f : φ) :
    Option.Rel (SamePriority heap p (n + 1)) (TaskQueue.push f q)
      (PriorityScheduler.push heap (f, p) c) := by
  unfold TaskQueue.push PriorityScheduler.push
  rw [h.stopped]
  split
  · exact .none
  obtain ⟨held, helems, hfuncs, hheld, hsorted⟩ := h.held
  have hnext : c.nextSeq.toNat = n := by
    rw [h.nextSeq, BitVec.toNat_ofNat, Nat.mod_eq_of_lt hn]
  refine .some ⟨⟨held ++ [⟨some f, p, c.nextSeq⟩], ?_, ?_, ?_, ?_⟩, ?_, rfl⟩
  · rw [heap.elems_push, helems, Multiset.cons_coe, Multiset.coe_eq_coe]
    exact (List.perm_append_singleton _ _).symm
  · simp [hfuncs]
  · intro task htask
    rcases List.mem_append.mp htask with htask | htask
    · exact ⟨(hheld task htask).1, Nat.lt_succ_of_lt (hheld task htask).2⟩
    · obtain rfl := List.mem_singleton.mp htask
      exact ⟨rfl, by rw [hnext]; exact Nat.lt_succ_self n⟩
  · refine List.pairwise_append.mpr ⟨hsorted, List.pairwise_singleton _ _, ?_⟩
    intro a ha b hb
    obtain rfl := List.mem_singleton.mp hb
    rw [hnext]
    exact (hheld a ha).2
  · rw [BitVec.ofNat_add]
    show c.nextSeq + 1 = _
    rw [h.nextSeq]
    rfl

/-- The top of the heap is the task with the lowest stamp. -/
theorem SamePriority.tryPop (h : SamePriority heap p n q c) :
    SamePriority heap p n (TaskQueue.tryPop q).1 (PriorityScheduler.tryPop heap c).1 ∧
      (TaskQueue.tryPop q).2.map (fun f => (some f, p)) =
        (PriorityScheduler.tryPop heap c).2.map fun task => (task.func, task.priority) := by
  have hsize := h.size
  obtain ⟨held, helems, hfuncs, hheld, hsorted⟩ := h.held
  cases htasks : q.tasks with
  | nil =>
      have htop : heap.top c.queue = none := by
        rw [heap.top_eq_none_iff_size, ← hsize, htasks, List.length_nil]
      rw [TaskQueue.tryPop_nil htasks, PriorityScheduler.tryPop_none htop]
      exact ⟨h, rfl⟩
  | cons f tasks =>
      rw [htasks] at hfuncs
      obtain ⟨first, rest, rfl, hfirst, hrest⟩ := List.map_eq_cons_iff.mp hfuncs
      obtain ⟨hearlier, hlater⟩ := List.pairwise_cons.mp hsorted
      have hmem : ∀ {task}, heap.top c.queue = some task → task = first := by
        intro task htop
        have htask := heap.top_mem _ _ htop
        rw [helems, Multiset.mem_coe] at htask
        rcases List.mem_cons.mp htask with heq | htask
        · exact heq
        · -- a later task of the same priority is below the first one
          have hnot := heap.top_max _ _ htop first (by rw [helems]; simp)
          have hprio := (hheld task (List.mem_cons_of_mem _ htask)).1
          have hprio' := (hheld first List.mem_cons_self).1
          rw [PriorityTask.less, hprio, hprio', if_neg (by simp)] at hnot
          exact (hnot (hearlier task htask)).elim
      cases htop : heap.top c.queue with
      | none =>
          rw [heap.top_eq_none, helems] at htop
          simp at htop
      | some task =>
          obtain rfl := hmem htop
          rw [TaskQueue.tryPop_cons htasks, PriorityScheduler.tryPop_some htop]
          obtain ⟨h₁, h₂⟩ := PriorityScheduler.moved_equivalent task
          have hpop := heap.elems_pop _ _ _ htop h₁ h₂
          rw [helems, ← Multiset.cons_coe] at hpop
          refine ⟨⟨⟨rest, (Multiset.cons_inj_right task).mp hpop, hrest, ?_, hlater⟩,
            h.nextSeq, h.stopped⟩, ?_⟩
          · exact fun a ha => hheld a (List.mem_cons_of_mem _ ha)
          · simp [hfirst, (hheld task List.mem_cons_self).1]

variable (heap p) in
/-- The critical sections of both containers answer alike. -/
theorem samePriority_lockstep :
    BlockingMonitor.Lockstep (TaskQueue.sections φ) (PriorityScheduler.sections heap)
      (fun f => (f, p)) (fun f => (some f, p)) (fun task => (task.func, task.priority))
      (2 ^ 64) (SamePriority heap p) where
  init := ⟨⟨[], heap.elems_empty, rfl, by simp, .nil⟩, rfl, rfl⟩
  push h hn f := h.push hn f
  tryPop h := h.tryPop
  shutdown h := ⟨h.held, h.nextSeq, rfl⟩
  size h := h.size
  closed h := h.stopped.symm

/--
Runs of both containers under one schedule: the calls returned the same results,
the same threads sleep, and the sizes agree.
-/
structure SameRun (heap : MaxHeap H (PriorityTask φ) PriorityTask.less)
    (p : TaskPriority)
    (r : BlockingMonitor.State (TaskQueue.Contents φ) ι κ φ ×
      List (BlockingMonitor.Event ι κ φ φ))
    (r' : BlockingMonitor.State (PriorityScheduler.Contents H) ι κ (φ × TaskPriority) ×
      List (BlockingMonitor.Event ι κ (φ × TaskPriority) (PriorityTask φ))) : Prop where
  results :
    r.2.map (BlockingMonitor.Event.map (fun f => (f, p)) fun f => (some f, p)) =
      r'.2.map (BlockingMonitor.Event.map id fun task => (task.func, task.priority))
  calls : ∀ t, r'.1.call t = (r.1.call t).map fun f => (f, p)
  stops : ∀ k, r'.1.stopped k = r.1.stopped k
  sizes : r.1.contents.tasks.length = heap.size r'.1.contents.queue
  closed : r'.1.contents.stopped = r.1.contents.shutdown

/--
`PriorityScheduler` restricted to one priority is `TaskQueue`: under every
schedule with fewer than `2 ^ 64` pushes both are stuck or both have the same run.
-/
theorem one_priority_is_taskQueue (heap : MaxHeap H (PriorityTask φ) PriorityTask.less)
    (p : TaskPriority) (as : List (BlockingMonitor.Act ι κ φ))
    (hpushes : pushCalls as < 2 ^ 64) :
    Option.Rel (SameRun heap p)
      ((taskQueue φ).exec (taskQueue φ).init as)
      ((scheduler heap).exec (scheduler heap).init (as.map (.map fun f => (f, p)))) := by
  refine Machine.rel_mono (BlockingMonitor.monitor_lockstep (samePriority_lockstep heap p)
    TaskQueue.lawful (PriorityScheduler.lawful heap) hpushes.le) ?_
  rintro r r' ⟨hagree, hresults⟩
  obtain ⟨n, hsame, _⟩ := hagree.contents
  exact ⟨hresults, fun t => by rw [hagree.calls], fun k => by rw [hagree.stopped],
    hsame.size, hsame.stopped⟩

/-- A consumer is woken by a push, another finds the container closed and drained. -/
def wakeAndClose : List (BlockingMonitor.Act Bool Unit Nat) :=
  [.waitAndPop false (), .advance false, .push true 1, .advance true,
    .notify true (some false), .push true 2, .advance true, .notify true none,
    .advance false, .tryPop false, .advance false, .shutdown true, .advance true,
    .advance true, .waitAndPop false (), .advance false]

theorem one_priority_is_taskQueue_wakeAndClose :
    ((taskQueue Nat).exec (taskQueue Nat).init wakeAndClose).isSome = true ∧
      Option.Rel (SameRun (sortedListHeap PriorityTask.less) .high)
        ((taskQueue Nat).exec (taskQueue Nat).init wakeAndClose)
        ((scheduler (sortedListHeap PriorityTask.less)).exec
          (scheduler (sortedListHeap PriorityTask.less)).init
          (wakeAndClose.map (.map fun f => (f, TaskPriority.high)))) :=
  ⟨by decide, one_priority_is_taskQueue _ _ _ (by decide)⟩

end OnePriority

end AsyncTaskEngine
