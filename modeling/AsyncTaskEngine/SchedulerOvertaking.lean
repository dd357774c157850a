import AsyncTaskEngine.Scheduler

/-!
# How many tasks overtake a waiting one

A task of the scheduler waits as long as there are others above it in the heap:
tasks of a higher priority, and earlier ones of its own.  A pop that does not
return it returns one of these, and a push adds to them only if its priority is
higher.  `bounded_overtaking` adds this up over a schedule: a task is overtaken by
what was above it in the beginning and by what is more urgent and comes later, and
by nothing else.
-/

namespace AsyncTaskEngine
namespace PriorityScheduler

open BlockingMonitor (Event Effect)

universe u v w x

variable {φ : Type u} {H : Type v} {ι : Type w} {κ : Type x}
variable {heap : MaxHeap H (PriorityTask φ) PriorityTask.less}

/-- The number of pushes with a higher priority. -/
def urgent (p : TaskPriority) (args : List (φ × TaskPriority)) : Nat :=
  args.countP fun arg => decide (p.toNat < arg.2.toNat)

/-- Tasks with different numbers are comparable. -/
theorem less_of_not_less {a b : PriorityTask φ} (hseq : a.sequence ≠ b.sequence)
    (h : ¬ b.less a) : a.less b := by
  have hne : a.sequence.toNat ≠ b.sequence.toNat := fun heq => hseq (BitVec.eq_of_toNat_eq heq)
  have ha := a.sequence.isLt
  have hb := b.sequence.isLt
  rw [PriorityTask.less_iff] at h ⊢
  unfold PriorityTask.key at h ⊢
  omega

/-- A later task is above an earlier one only if it is more urgent. -/
theorem less_of_later {a b : PriorityTask φ} (hseq : a.sequence.toNat < b.sequence.toNat) :
    a.less b ↔ a.priority.toNat < b.priority.toNat := by
  have ha := a.sequence.isLt
  have hb := b.sequence.isLt
  rw [PriorityTask.less_iff]
  unfold PriorityTask.key
  omega

/-- A pop returns the top of the heap. -/
theorem top_of_tryPop {q q' : Contents H} {x : PriorityTask φ}
    (h : tryPop heap q = (q', some x)) : heap.top q.queue = some x ∧
      q'.queue = heap.pop (heap.setTop { x with func := none } q.queue) := by
  cases htop : heap.top q.queue with
  | none =>
      rw [tryPop_none htop] at h
      cases h
  | some a =>
      rw [tryPop_some htop] at h
      cases h
      exact ⟨rfl, rfl⟩

variable [DecidableEq ι] [Fintype ι] [DecidableEq κ]
variable {s s' : BlockingMonitor.State (Contents H) ι κ (φ × TaskPriority)}
variable {tr es : List (Event ι κ (φ × TaskPriority) (PriorityTask φ))} {task : PriorityTask φ}

/-- What has happened to the others while the task waits. -/
structure Overtaken (heap : MaxHeap H (PriorityTask φ) PriorityTask.less) (task : PriorityTask φ)
    (s s' : BlockingMonitor.State (Contents H) ι κ (φ × TaskPriority))
    (es : List (Event ι κ (φ × TaskPriority) (PriorityTask φ))) : Prop where
  waits : task ∈ heap.elems s'.contents.queue
  above : ∀ x ∈ poppedTasks es, task.less x
  bounded : (poppedTasks es).length + heap.rank task s'.contents.queue ≤
    heap.rank task s.contents.queue + urgent task.priority (accepted es)

omit [DecidableEq ι] [Fintype ι] in
/-- One step, which does not return the task. -/
theorem overtaken_step (inv : RunInv heap s tr) (hbound : (accepted tr).length < 2 ^ 64)
    (heff : Effect (sections heap) s s' es) (hheld : task ∈ heap.elems s.contents.queue)
    (hwait : task ∉ poppedTasks es) : Overtaken heap task s s' es := by
  have hsame : s'.contents.queue = s.contents.queue → poppedTasks es = [] →
      Overtaken heap task s s' es := by
    intro hq hpop
    refine ⟨by rw [hq]; exact hheld, by simp [hpop], ?_⟩
    rw [hq, hpop]
    simp
  obtain ⟨held, hinv⟩ := inv.held
  have hmem : task ∈ held := by
    rw [hinv.elems, Multiset.mem_coe] at hheld
    exact hheld
  cases heff with
  | quiet hc hs hes =>
      refine hsame (by rw [hc]) ?_
      simp only [poppedTasks, List.filterMap_eq_nil_iff]
      intro e he
      have := hes e he
      cases e <;> first | rfl | exact this.elim
  | rejected t arg hc | tryEmpty t hc | waitEmpty t k hc | stopRequested k hc =>
      exact hsame (by rw [hc]) rfl
  | closed t hc => exact hsame (by rw [hc]; rfl) rfl
  | accepted t arg hs hp =>
      have hnext : s.contents.nextSeq.toNat = (accepted tr).length := by
        rw [hinv.nextSeq, BitVec.toNat_ofNat, Nat.mod_eq_of_lt hbound]
      have hlater := (hinv.stamped task (List.mem_append_left _ hmem)).lt_length
      have hpush : push heap arg s.contents = some s'.contents := hp
      unfold push at hpush
      split at hpush
      · cases hpush
      generalize hx : (⟨some arg.1, arg.2, s.contents.nextSeq⟩ : PriorityTask φ) = x at hpush
      have hq : s'.contents.queue = heap.push x s.contents.queue := by
        rw [← Option.some.inj hpush]
      have hless : task.less x ↔ task.priority.toNat < arg.2.toNat := by
        subst hx
        exact less_of_later (by rw [hnext]; exact hlater)
      refine ⟨?_, by simp [poppedTasks], ?_⟩
      · rw [hq, heap.elems_push]
        exact Multiset.mem_cons_of_mem hheld
      · rw [hq, heap.rank_push]
        simp only [hless]
        simp [poppedTasks, accepted, urgent, List.countP_cons]
  | popped t x hs hp =>
      obtain ⟨htop, hq⟩ := top_of_tryPop hp
      have hne : task ≠ x := by
        rintro rfl
        exact hwait (by simp [poppedTasks])
      have hxmem : x ∈ held := by
        have := heap.top_mem _ _ htop
        rwa [hinv.elems, Multiset.mem_coe] at this
      -- the numbers of the tasks in the heap are different
      have hseq : task.sequence ≠ x.sequence := fun heq =>
        hne (List.inj_on_of_nodup_map hinv.fresh (List.mem_append_left _ hmem)
          (List.mem_append_left _ hxmem) heq)
      have hless := less_of_not_less hseq (heap.top_max _ _ htop task hheld)
      obtain ⟨h₁, h₂⟩ := moved_equivalent x
      have hrank := heap.rank_pop htop h₁ h₂ hless
      refine ⟨?_, ?_, ?_⟩
      · rw [hq]
        exact heap.mem_pop htop h₁ h₂ hheld hne
      · intro y hy
        obtain rfl : y = x := by simpa [poppedTasks] using hy
        exact hless
      · rw [hq]
        have hlen : (poppedTasks [(.popped t x : Event ι κ (φ × TaskPriority)
          (PriorityTask φ))]).length = 1 := rfl
        omega

/--
As long as a task waits, every pop returns a task above it, and there are no more
of these pops than tasks that were above it in the beginning, and pushes of a
higher priority since.
-/
theorem bounded_overtaking (heap : MaxHeap H (PriorityTask φ) PriorityTask.less)
    (hr : (scheduler heap).Reach s tr) (hheld : task ∈ heap.elems s.contents.queue)
    {as : List (BlockingMonitor.Act ι κ (φ × TaskPriority))}
    (he : (scheduler heap).exec s as = some (s', es))
    (hbound : (accepted (tr ++ es)).length < 2 ^ 64) (hwait : task ∉ poppedTasks es) :
    Overtaken heap task s s' es := by
  have hrun := Machine.exec_invariant (M := scheduler heap) (P := fun s' es =>
    (scheduler heap).Reach s' (tr ++ es) ∧ ((accepted (tr ++ es)).length < 2 ^ 64 →
      task ∉ poppedTasks es → Overtaken heap task s s' es)) he ?_ ?_
  · exact hrun.2 hbound hwait
  · refine ⟨by rwa [List.append_nil], fun _ _ => ⟨hheld, by simp [poppedTasks], ?_⟩⟩
    simp [poppedTasks, accepted, urgent]
  · rintro s₁ es a s₂ fs _ ⟨hr, ih⟩ hs
    rw [← List.append_assoc]
    refine ⟨hr.step hs, fun hbound hwait => ?_⟩
    have hshort : (accepted (tr ++ es)).length < 2 ^ 64 := by
      rw [accepted_append, List.length_append] at hbound
      omega
    rw [poppedTasks_append, List.mem_append, not_or] at hwait
    have hbefore := ih hshort hwait.1
    have hone := overtaken_step (runInv_reach hr hshort) hshort
      ((BlockingMonitor.step_move (lawful heap) hs).effect (lawful heap)) hbefore.waits hwait.2
    refine ⟨hone.waits, fun x hx => ?_, ?_⟩
    · rw [poppedTasks_append, List.mem_append] at hx
      exact hx.elim (hbefore.above x) (hone.above x)
    · have h₁ := hbefore.bounded
      have h₂ := hone.bounded
      have hurgent : urgent task.priority (accepted (es ++ fs)) =
          urgent task.priority (accepted es) + urgent task.priority (accepted fs) := by
        rw [accepted_append, urgent, List.countP_append]
        rfl
      rw [poppedTasks_append, List.length_append, hurgent]
      omega

/-- A task of high priority, and the task that is going to wait. -/
def untilWaiting : List (BlockingMonitor.Act Bool Unit (Nat × TaskPriority)) :=
  [.push true (1, .high), .advance true, .notify true none,
    .push true (2, .normal), .advance true, .notify true none]

/-- The waiting task is overtaken by the one before it, and by one that comes later. -/
theorem bounded_overtaking_twoPops :
    ∃ (s s' : _) (es : List (Event Bool Unit (Nat × TaskPriority) (PriorityTask Nat))),
      (sortedListHeap PriorityTask.less).rank ⟨some 2, .normal, 1⟩ s.contents.queue = 1 ∧
        urgent .normal (accepted es) = 1 ∧ (poppedTasks es).length = 2 ∧
          Overtaken (sortedListHeap PriorityTask.less) ⟨some 2, .normal, 1⟩ s s' es := by
  have hr := Machine.reach_of_exec (M := listScheduler) untilWaiting rfl
  refine ⟨_, _, _, ?_, ?_, ?_, bounded_overtaking (sortedListHeap PriorityTask.less) hr ?_
    (show listScheduler.exec _ [.push true (3, .high), .advance true, .notify true none,
      .push true (4, .low), .advance true, .notify true none, .tryPop false, .advance false,
      .tryPop false, .advance false] = some (_, _) from rfl) ?_ ?_⟩
  all_goals decide

end PriorityScheduler
end AsyncTaskEngine
