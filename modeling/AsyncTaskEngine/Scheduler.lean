import AsyncTaskEngine.BlockingMonitor
import AsyncTaskEngine.MaxHeap

/-!
# PriorityScheduler: the blocking priority queue

A model of `scheduler.hpp`.  `std::priority_queue` is a `MaxHeap` for the
comparison `PriorityTask::operator<`, which is shown to be a strict weak order
on all tasks; the critical sections of the source run on it and are given to
`BlockingMonitor`.  A callable is `none` once it has been moved from.
-/

namespace AsyncTaskEngine
namespace PriorityScheduler

open BlockingMonitor (Sections Event)

universe u v w x

/-- `TaskPriority`. -/
inductive TaskPriority where
  | low
  | normal
  | high
  | critical
deriving DecidableEq

/-- The underlying value of the enumerator. -/
def TaskPriority.toNat : TaskPriority → Nat
  | .low => 0
  | .normal => 1
  | .high => 2
  | .critical => 3

theorem TaskPriority.toNat_inj {p q : TaskPriority} (h : p.toNat = q.toNat) : p = q := by
  cases p <;> cases q <;> first | rfl | cases h

instance : LT TaskPriority where
  lt p q := p.toNat < q.toNat

theorem TaskPriority.lt_def {p q : TaskPriority} : p < q ↔ p.toNat < q.toNat := Iff.rfl

/-- `PriorityTask`. -/
structure PriorityTask (φ : Type u) where
  func : Option φ
  priority : TaskPriority
  sequence : BitVec 64
deriving DecidableEq

variable {φ : Type u}

/-- `PriorityTask::operator<`. -/
def PriorityTask.less (a b : PriorityTask φ) : Prop :=
  if a.priority ≠ b.priority then a.priority.toNat < b.priority.toNat
  else a.sequence > b.sequence

instance : DecidableRel (PriorityTask.less (φ := φ)) := fun a b =>
  inferInstanceAs (Decidable (if a.priority ≠ b.priority then
    a.priority.toNat < b.priority.toNat else a.sequence > b.sequence))

/-- The number that `operator<` compares. -/
def PriorityTask.key (a : PriorityTask φ) : Nat :=
  a.priority.toNat * 2 ^ 64 + (2 ^ 64 - 1 - a.sequence.toNat)

theorem PriorityTask.less_iff {a b : PriorityTask φ} : a.less b ↔ a.key < b.key := by
  have ha := a.sequence.isLt
  have hb := b.sequence.isLt
  unfold PriorityTask.less PriorityTask.key
  split
  · next hne =>
      have : a.priority.toNat ≠ b.priority.toNat := fun h => hne (TaskPriority.toNat_inj h)
      omega
  · next heq =>
      rw [ne_eq, not_not] at heq
      rw [heq, gt_iff_lt, BitVec.lt_def]
      omega

/-- `operator<` is a strict weak order. -/
instance : IsStrictWeakOrder (PriorityTask φ) PriorityTask.less where
  irrefl a := by simp [PriorityTask.less_iff]
  trans a b c := by
    simp only [PriorityTask.less_iff]
    omega
  incomp_trans a b c := by
    simp only [PriorityTask.less_iff]
    omega

/-- `queue_`, `next_seq_` and `stopped_`. -/
structure Contents (H : Type v) where
  queue : H
  nextSeq : BitVec 64
  stopped : Bool

variable {H : Type v} (heap : MaxHeap H (PriorityTask φ) PriorityTask.less)

/-- The locked part of `push`. -/
def push (arg : φ × TaskPriority) (q : Contents H) : Option (Contents H) :=
  if q.stopped then none
  else some { q with
    queue := heap.push
      { func := some arg.1, priority := arg.2, sequence := q.nextSeq } q.queue
    nextSeq := q.nextSeq + 1 }

/-- `try_pop`: the top is moved out of the heap before the heap pops it. -/
def tryPop (q : Contents H) : Contents H × Option (PriorityTask φ) :=
  match heap.top q.queue with
  | none => (q, none)
  | some task =>
      ({ q with queue := heap.pop (heap.setTop { task with func := none } q.queue) },
        some task)

/-- The predicate of `wait_and_pop`. -/
def ready (q : Contents H) : Bool :=
  decide (heap.size q.queue ≠ 0) || q.stopped

/-- What `wait_and_pop` does after the wait, whose result it ignores. -/
def afterWait (_ : Bool) (q : Contents H) : Contents H × Option (PriorityTask φ) :=
  match heap.top q.queue with
  | none => (q, none)
  | some task =>
      ({ q with queue := heap.pop (heap.setTop { task with func := none } q.queue) },
        some task)

/-- The locked part of `shutdown`. -/
def shutdown (q : Contents H) : Contents H :=
  { q with stopped := true }

/-- The critical sections of `PriorityScheduler`. -/
def sections : Sections (Contents H) (φ × TaskPriority) (PriorityTask φ) where
  init := { queue := heap.empty, nextSeq := 0, stopped := false }
  push := push heap
  tryPop := tryPop heap
  ready := ready heap
  afterWait := afterWait heap
  shutdown := shutdown
  closed := fun q => q.stopped
  size := fun q => heap.size q.queue

variable {heap}

/-- Moving the callable out does not change how a task compares. -/
theorem moved_equivalent (task : PriorityTask φ) :
    ¬ task.less { task with func := none } ∧
      ¬ PriorityTask.less { task with func := none } task := by
  simp [PriorityTask.less_iff, PriorityTask.key]

theorem tryPop_none {q : Contents H} (h : heap.top q.queue = none) :
    tryPop heap q = (q, none) := by
  simp [tryPop, h]

theorem tryPop_some {q : Contents H} {task : PriorityTask φ}
    (h : heap.top q.queue = some task) :
    tryPop heap q =
      ({ q with queue := heap.pop (heap.setTop { task with func := none } q.queue) },
        some task) := by
  simp [tryPop, h]

variable (heap) in
theorem lawful : (sections heap).Lawful where
  size_init := heap.size_empty
  closed_init := rfl
  ready_iff q := by
    show ready heap q = true ↔ 0 < heap.size q.queue ∨ q.stopped = true
    simp [ready, Nat.pos_iff_ne_zero]
  push_eq_none arg q := by
    show push heap arg q = none ↔ q.stopped = true
    simp [push]
  size_push arg q q' h := by
    simp only [sections, push] at h ⊢
    split at h
    · cases h
    · cases h
      exact heap.size_push _ _
  closed_push arg q q' h := by
    simp only [sections, push] at h ⊢
    split at h
    · cases h
    · cases h
      rfl
  size_tryPop q := by
    show heap.size (tryPop heap q).1.queue = heap.size q.queue - 1
    cases h : heap.top q.queue with
    | none =>
        rw [tryPop_none h, (heap.top_eq_none_iff_size _).mp h]
    | some task =>
        obtain ⟨h₁, h₂⟩ := moved_equivalent task
        have hsize := heap.size_pop h h₁ h₂
        rw [tryPop_some h]
        show heap.size (heap.pop (heap.setTop { task with func := none } q.queue)) = _
        omega
  closed_tryPop q := by
    show (tryPop heap q).1.stopped = q.stopped
    cases h : heap.top q.queue with
    | none => rw [tryPop_none h]
    | some task => rw [tryPop_some h]
  tryPop_eq_none q := by
    show (tryPop heap q).2 = none ↔ heap.size q.queue = 0
    rw [← heap.top_eq_none_iff_size]
    cases h : heap.top q.queue with
    | none => simp [tryPop_none h]
    | some task => simp [tryPop_some h]
  tryPop_none q := by
    show (tryPop heap q).2 = none → (tryPop heap q).1 = q
    cases h : heap.top q.queue with
    | none => simp [tryPop_none h]
    | some task => simp [tryPop_some h]
  afterWait_ready _ := rfl
  size_shutdown _ := rfl
  closed_shutdown _ := rfl

variable {ι : Type w} {κ : Type x}

/-- The arguments of the accepted pushes, in the order of acceptance. -/
def accepted (tr : List (Event ι κ (φ × TaskPriority) (PriorityTask φ))) :
    List (φ × TaskPriority) :=
  tr.filterMap fun
    | .pushAccepted _ arg => some arg
    | _ => none

/-- The tasks returned by pops, in order. -/
def poppedTasks (tr : List (Event ι κ (φ × TaskPriority) (PriorityTask φ))) :
    List (PriorityTask φ) :=
  tr.filterMap fun
    | .popped _ task => some task
    | _ => none

/-- The accepted pushes and the pops, in the order of their critical sections. -/
def operations (tr : List (Event ι κ (φ × TaskPriority) (PriorityTask φ))) :
    List (PriorityOp (Option φ) TaskPriority) :=
  tr.filterMap fun
    | .pushAccepted _ arg => some (.push (some arg.1) arg.2)
    | .popped _ task => some (.pop task.func task.priority)
    | _ => none

section Projections

variable (tr es : List (Event ι κ (φ × TaskPriority) (PriorityTask φ)))

@[simp] theorem accepted_append : accepted (tr ++ es) = accepted tr ++ accepted es :=
  List.filterMap_append

@[simp] theorem poppedTasks_append :
    poppedTasks (tr ++ es) = poppedTasks tr ++ poppedTasks es :=
  List.filterMap_append

@[simp] theorem operations_append :
    operations (tr ++ es) = operations tr ++ operations es :=
  List.filterMap_append

end Projections

/-- The task is the one whose push was accepted as number `task.sequence`. -/
def Stamped (tr : List (Event ι κ (φ × TaskPriority) (PriorityTask φ)))
    (task : PriorityTask φ) : Prop :=
  ∃ f, task.func = some f ∧
    (accepted tr)[task.sequence.toNat]? = some (f, task.priority)

/-- What a run says about the heap, which holds the tasks `held`, earliest first. -/
structure HeldInv (heap : MaxHeap H (PriorityTask φ) PriorityTask.less)
    (q : Contents H) (tr : List (Event ι κ (φ × TaskPriority) (PriorityTask φ)))
    (held : List (PriorityTask φ)) : Prop where
  elems : heap.elems q.queue = held
  sorted : held.Pairwise fun a b => a.sequence.toNat < b.sequence.toNat
  history : StableHistory (operations tr) (held.map fun task => (task.func, task.priority))
  nextSeq : q.nextSeq = BitVec.ofNat 64 (accepted tr).length
  stamped : ∀ task ∈ held ++ poppedTasks tr, Stamped tr task
  fresh : ((held ++ poppedTasks tr).map PriorityTask.sequence).Nodup

section HeldInv

variable {q q' : Contents H} {held : List (PriorityTask φ)}
variable {tr es : List (Event ι κ (φ × TaskPriority) (PriorityTask φ))}

theorem Stamped.append {task : PriorityTask φ} (h : Stamped tr task) :
    Stamped (tr ++ es) task := by
  obtain ⟨f, hf, hget⟩ := h
  refine ⟨f, hf, ?_⟩
  rw [accepted_append, List.getElem?_append_left (List.getElem?_eq_some_iff.mp hget).1]
  exact hget

/-- A task is stamped with the number of pushes accepted before it. -/
theorem Stamped.lt_length {task : PriorityTask φ} (h : Stamped tr task) :
    task.sequence.toNat < (accepted tr).length := by
  obtain ⟨f, _, hget⟩ := h
  exact (List.getElem?_eq_some_iff.mp hget).1

/-- Events that are neither an accepted push nor a pop change nothing. -/
theorem HeldInv.quiet (inv : HeldInv heap q tr held) (hq : q'.queue = q.queue)
    (hseq : q'.nextSeq = q.nextSeq) (hacc : accepted es = []) (hpop : poppedTasks es = [])
    (hops : operations es = []) : HeldInv heap q' (tr ++ es) held := by
  refine ⟨by rw [hq]; exact inv.elems, inv.sorted, ?_, ?_, ?_, ?_⟩
  · rw [operations_append, hops, List.append_nil]
    exact inv.history
  · rw [hseq, accepted_append, hacc, List.append_nil]
    exact inv.nextSeq
  · intro task hmem
    rw [poppedTasks_append, hpop, List.append_nil] at hmem
    exact (inv.stamped task hmem).append
  · rw [poppedTasks_append, hpop, List.append_nil]
    exact inv.fresh

/-- An accepted push is stamped later than everything before it. -/
theorem HeldInv.push {t : ι} {arg : φ × TaskPriority} (inv : HeldInv heap q tr held)
    (hbound : (accepted tr).length < 2 ^ 64) (hp : push heap arg q = some q') :
    HeldInv heap q' (tr ++ [.pushAccepted t arg])
      (held ++ [{ func := some arg.1, priority := arg.2, sequence := q.nextSeq }]) := by
  have hnext : q.nextSeq.toNat = (accepted tr).length := by
    rw [inv.nextSeq, BitVec.toNat_ofNat, Nat.mod_eq_of_lt hbound]
  have hacc : accepted (tr ++ [Event.pushAccepted (κ := κ) (γ := PriorityTask φ) t arg]) =
      accepted tr ++ [arg] := by
    rw [accepted_append]
    rfl
  have hpop : poppedTasks (tr ++ [.pushAccepted t arg]) = poppedTasks tr := by
    rw [poppedTasks_append]
    exact List.append_nil _
  unfold PriorityScheduler.push at hp
  split at hp
  · cases hp
  obtain rfl := Option.some.inj hp
  refine ⟨?_, ?_, ?_, ?_, ?_, ?_⟩
  · rw [heap.elems_push, inv.elems, Multiset.cons_coe, Multiset.coe_eq_coe]
    exact (List.perm_append_singleton _ _).symm
  · refine List.pairwise_append.mpr ⟨inv.sorted, List.pairwise_singleton _ _, ?_⟩
    intro a ha b hb
    obtain rfl := List.mem_singleton.mp hb
    rw [hnext]
    exact (inv.stamped a (List.mem_append_left _ ha)).lt_length
  · rw [operations_append, List.map_append]
    exact .push _ _ inv.history
  · rw [hacc, List.length_append, List.length_singleton, BitVec.ofNat_add]
    show q.nextSeq + 1 = _
    rw [inv.nextSeq]
    rfl
  · intro task hmem
    rw [hpop, List.append_assoc, List.mem_append, List.mem_append, List.mem_singleton] at hmem
    rcases hmem with hmem | rfl | hmem
    · exact (inv.stamped task (List.mem_append_left _ hmem)).append
    · refine ⟨arg.1, rfl, ?_⟩
      show (accepted _)[q.nextSeq.toNat]? = some arg
      rw [hacc, hnext, List.getElem?_concat_length]
    · exact (inv.stamped task (List.mem_append_right _ hmem)).append
  · rw [hpop]
    have hperm : ∀ x : PriorityTask φ,
        (held ++ [x] ++ poppedTasks tr).Perm (x :: (held ++ poppedTasks tr)) := by
      intro x
      rw [List.append_assoc]
      exact List.perm_middle
    refine ((hperm _).map _).nodup_iff.mpr ?_
    rw [List.map_cons, List.nodup_cons]
    refine ⟨?_, inv.fresh⟩
    intro hmem
    obtain ⟨task, htask, hseq⟩ := List.mem_map.mp hmem
    have hlt := (inv.stamped task htask).lt_length
    rw [hseq, hnext] at hlt
    exact Nat.lt_irrefl _ hlt

/-- A pop takes the earliest held task of the highest priority. -/
theorem HeldInv.pop {t : ι} {task : PriorityTask φ} (inv : HeldInv heap q tr held)
    (hp : tryPop heap q = (q', some task)) :
    ∃ held', HeldInv heap q' (tr ++ [.popped t task]) held' := by
  have htop : heap.top q.queue = some task := by
    cases h : heap.top q.queue with
    | none => rw [tryPop_none h] at hp; cases hp
    | some a => rw [tryPop_some h] at hp; cases hp; rfl
  rw [tryPop_some htop] at hp
  obtain rfl := (Prod.mk.inj hp).1
  have hmem := heap.top_mem _ _ htop
  have hmax := heap.top_max _ _ htop
  rw [inv.elems, Multiset.mem_coe] at hmem
  obtain ⟨pre, post, rfl⟩ := List.append_of_mem hmem
  obtain ⟨hpre, hrest, hcross⟩ := List.pairwise_append.mp inv.sorted
  obtain ⟨hhead, hpost⟩ := List.pairwise_cons.mp hrest
  have hpop : poppedTasks (tr ++ [Event.popped (κ := κ) (β := φ × TaskPriority) t task]) =
      poppedTasks tr ++ [task] := by
    rw [poppedTasks_append]
    rfl
  have hacc : accepted (tr ++ [.popped t task]) = accepted tr := by
    rw [accepted_append]
    exact List.append_nil _
  have hperm : (pre ++ post ++ (poppedTasks tr ++ [task])).Perm
      (pre ++ task :: post ++ poppedTasks tr) := by
    rw [← List.append_assoc]
    refine (List.perm_append_singleton _ _).trans ?_
    exact List.Perm.append_right _ List.perm_middle.symm
  refine ⟨pre ++ post, ?_, ?_, ?_, ?_, ?_, ?_⟩
  · obtain ⟨h₁, h₂⟩ := moved_equivalent task
    have helems := heap.elems_pop _ _ _ htop h₁ h₂
    rw [inv.elems, ← Multiset.coe_eq_coe.mpr List.perm_middle.symm,
      ← Multiset.cons_coe] at helems
    exact (Multiset.cons_inj_right task).mp helems
  · exact List.pairwise_append.mpr ⟨hpre, hpost, fun a ha b hb =>
      hcross a ha b (List.mem_cons_of_mem _ hb)⟩
  · have hhist := inv.history
    rw [List.map_append, List.map_cons] at hhist
    rw [operations_append, List.map_append]
    refine .pop _ _ hhist ?_ ?_
    · intro e he
      obtain ⟨a, ha, rfl⟩ := List.mem_map.mp he
      have hold := hcross a ha task List.mem_cons_self
      have hnot := hmax a (by
        rw [inv.elems, Multiset.mem_coe]
        exact List.mem_append_left _ ha)
      -- an earlier task of equal priority would have been preferred
      rw [PriorityTask.less] at hnot
      split at hnot
      · next hne =>
          have : task.priority.toNat ≠ a.priority.toNat :=
            fun h => hne (TaskPriority.toNat_inj h)
          show a.priority.toNat < task.priority.toNat
          omega
      · exact (hnot hold).elim
    · intro e he
      obtain ⟨a, ha, rfl⟩ := List.mem_map.mp he
      have hnot := hmax a (by
        rw [inv.elems, Multiset.mem_coe]
        exact List.mem_append_right _ (List.mem_cons_of_mem _ ha))
      rw [PriorityTask.less] at hnot
      show ¬ task.priority.toNat < a.priority.toNat
      split at hnot
      · exact hnot
      · next heq =>
          rw [ne_eq, not_not] at heq
          rw [heq]
          exact Nat.lt_irrefl _
  · rw [hacc]
    exact inv.nextSeq
  · intro a ha
    rw [hpop] at ha
    exact (inv.stamped a (hperm.mem_iff.mp ha)).append
  · rw [hpop]
    exact (hperm.map _).nodup_iff.mpr inv.fresh

end HeldInv

variable (heap) in
/-- `PriorityScheduler` used by the threads `ι` with stop tokens `κ`. -/
abbrev scheduler [DecidableEq ι] [Fintype ι] [DecidableEq κ] :
    Machine (BlockingMonitor.State (Contents H) ι κ (φ × TaskPriority))
      (BlockingMonitor.Act ι κ (φ × TaskPriority))
      (Event ι κ (φ × TaskPriority) (PriorityTask φ)) :=
  BlockingMonitor.monitor (sections heap)

section Runs

open BlockingMonitor (Effect)

variable [DecidableEq ι] [Fintype ι] [DecidableEq κ]
variable {s s' : BlockingMonitor.State (Contents H) ι κ (φ × TaskPriority)}
variable {tr es : List (Event ι κ (φ × TaskPriority) (PriorityTask φ))}

/-- What a run says about the state of the scheduler. -/
structure RunInv (heap : MaxHeap H (PriorityTask φ) PriorityTask.less)
    (s : BlockingMonitor.State (Contents H) ι κ (φ × TaskPriority))
    (tr : List (Event ι κ (φ × TaskPriority) (PriorityTask φ))) : Prop where
  held : ∃ held, HeldInv heap s.contents tr held
  stopped : s.contents.stopped = true ↔ ∃ t, .closed t ∈ tr
  tokens : ∀ k, s.stopped k = true ↔ .stopRequested k ∈ tr

omit [DecidableEq ι] [Fintype ι] in
/-- Every step keeps what the run says. -/
theorem RunInv.step (inv : RunInv heap s tr)
    (hbound : (accepted (tr ++ es)).length < 2 ^ 64)
    (heff : Effect (sections heap) s s' es) : RunInv heap s' (tr ++ es) := by
  obtain ⟨held, hheld⟩ := inv.held
  have hflag := inv.stopped
  have htokens := inv.tokens
  rw [accepted_append, List.length_append] at hbound
  cases heff with
  | quiet hc hs hes =>
      have hnil : accepted es = [] ∧ poppedTasks es = [] ∧ operations es = [] := by
        simp only [accepted, poppedTasks, operations, List.filterMap_eq_nil_iff]
        refine ⟨?_, ?_, ?_⟩ <;> intro e he <;> have := hes e he <;>
          cases e <;> first | rfl | exact this.elim
      have hnone : (∀ t, .closed t ∉ es) ∧ ∀ k, .stopRequested k ∉ es :=
        ⟨fun t h => hes _ h, fun k h => hes _ h⟩
      refine ⟨⟨held, hheld.quiet (by rw [hc]) (by rw [hc]) hnil.1 hnil.2.1 hnil.2.2⟩,
        ?_, ?_⟩
      · simp [hc, hflag, hnone.1]
      · simp [hs, htokens, hnone.2]
  | rejected t arg hc hs hp =>
      refine ⟨⟨held, hheld.quiet (by rw [hc]) (by rw [hc]) rfl rfl rfl⟩, ?_, ?_⟩
      · simp [hc, hflag]
      · simp [hs, htokens]
  | accepted t arg hs hp =>
      refine ⟨⟨_, hheld.push (by omega) hp⟩, ?_, ?_⟩
      · have hclosed := (lawful heap).closed_push _ _ _ hp
        simp only [sections] at hclosed
        simp [hclosed, hflag]
      · simp [hs, htokens]
  | popped t x hs hp =>
      refine ⟨hheld.pop hp, ?_, ?_⟩
      · have hclosed := (lawful heap).closed_tryPop s.contents
        rw [hp] at hclosed
        simp only [sections] at hclosed
        simp [hclosed, hflag]
      · simp [hs, htokens]
  | tryEmpty t hc hs hsize =>
      refine ⟨⟨held, hheld.quiet (by rw [hc]) (by rw [hc]) rfl rfl rfl⟩, ?_, ?_⟩
      · simp [hc, hflag]
      · simp [hs, htokens]
  | waitEmpty t k hc hs hsize hend =>
      refine ⟨⟨held, hheld.quiet (by rw [hc]) (by rw [hc]) rfl rfl rfl⟩, ?_, ?_⟩
      · simp [hc, hflag]
      · simp [hs, htokens]
  | closed t hc hs =>
      refine ⟨⟨held, hheld.quiet (by rw [hc]; rfl) (by rw [hc]; rfl) rfl rfl rfl⟩, ?_, ?_⟩
      · have hnow : s'.contents.stopped = true := by
          rw [hc]
          rfl
        exact ⟨fun _ => ⟨t, by simp⟩, fun _ => hnow⟩
      · simp [hs, htokens]
  | stopRequested k hc hs =>
      refine ⟨⟨held, hheld.quiet (by rw [hc]) (by rw [hc]) rfl rfl rfl⟩, ?_, ?_⟩
      · simp [hc, hflag]
      · intro j
        rw [hs]
        by_cases hjk : j = k
        · subst hjk
          simp
        · rw [Function.update_of_ne hjk, htokens]
          simp [hjk]

/-- The empty heap and the empty trace. -/
theorem runInv_init :
    RunInv heap (scheduler (ι := ι) (κ := κ) heap).init [] where
  held := ⟨[], heap.elems_empty, List.Pairwise.nil, .nil, rfl, by simp [poppedTasks],
    List.nodup_nil⟩
  stopped := by simp [BlockingMonitor.monitor, sections]
  tokens := by simp [BlockingMonitor.monitor]

theorem runInv_reach (hr : (scheduler heap).Reach s tr)
    (hbound : (accepted tr).length < 2 ^ 64) : RunInv heap s tr := by
  revert hbound
  refine hr.invariant (P := fun s tr => (accepted tr).length < 2 ^ 64 → RunInv heap s tr)
    (fun _ => runInv_init) ?_
  intro s tr a s' es _ ih hs hbound
  have hprefix : (accepted tr).length < 2 ^ 64 := by
    rw [accepted_append, List.length_append] at hbound
    omega
  exact (ih hprefix).step hbound ((BlockingMonitor.step_move (lawful heap) hs).effect (lawful heap))

/-- The step that emitted an event, with what the run says before it. -/
theorem emitted_effect (hr : (scheduler heap).Reach s tr)
    (hbound : (accepted tr).length < 2 ^ 64)
    {pre post : List (Event ι κ (φ × TaskPriority) (PriorityTask φ))}
    {e : Event ι κ (φ × TaskPriority) (PriorityTask φ)} (htr : tr = pre ++ e :: post) :
    ∃ s₀ tr₀ s₁ es₀ es₁, RunInv heap s₀ tr₀ ∧
      Effect (sections heap) s₀ s₁ (es₀ ++ e :: es₁) ∧ pre = tr₀ ++ es₀ := by
  obtain ⟨s₀, tr₀, a, s₁, es₀, es₁, hr₀, hs, hpre⟩ := hr.emitted htr
  have hbound₀ : (accepted tr₀).length < 2 ^ 64 := by
    rw [htr, hpre] at hbound
    simp only [accepted_append, List.length_append] at hbound
    omega
  exact ⟨s₀, tr₀, s₁, es₀, es₁, runInv_reach hr₀ hbound₀,
    (BlockingMonitor.step_move (lawful heap) hs).effect (lawful heap), hpre⟩

omit [DecidableEq ι] [Fintype ι] [DecidableEq κ] in
/-- An empty heap has popped everything it accepted. -/
theorem RunInv.empty (inv : RunInv heap s tr)
    (hsize : (sections heap).size s.contents = 0) :
    StableHistory (operations tr) [] := by
  obtain ⟨held, hheld⟩ := inv.held
  have hnil : held = [] := by
    have hcard : heap.size s.contents.queue = 0 := hsize
    rw [heap.size_eq, hheld.elems, Multiset.coe_card] at hcard
    exact List.eq_nil_of_length_eq_zero hcard
  have hhist := hheld.history
  rw [hnil] at hhist
  exact hhist

/--
A run of the scheduler is a run of a stable priority queue: pops return the
earliest accepted task of the highest priority, with its own callable.
-/
structure PriorityRun (heap : MaxHeap H (PriorityTask φ) PriorityTask.less)
    (s : BlockingMonitor.State (Contents H) ι κ (φ × TaskPriority))
    (tr : List (Event ι κ (φ × TaskPriority) (PriorityTask φ))) : Prop where
  legal : ∃ q, StableHistory (operations tr) q ∧ q.length = heap.size s.contents.queue
  intact : ∀ t task, .popped t task ∈ tr → Stamped tr task
  /-- No accepted task is returned twice. -/
  once : ((poppedTasks tr).map PriorityTask.sequence).Nodup
  acceptedOpen : ∀ pre post t arg, tr = pre ++ .pushAccepted t arg :: post →
    ∀ u, .closed u ∉ pre
  rejectedClosed : ∀ pre post t arg, tr = pre ++ .pushRejected t arg :: post →
    ∃ u, .closed u ∈ pre
  tryEmpty : ∀ pre post t, tr = pre ++ .tryEmpty t :: post →
    StableHistory (operations pre) []
  waitEmpty : ∀ pre post t k, tr = pre ++ .waitEmpty t k :: post →
    StableHistory (operations pre) [] ∧
      ((∃ u, .closed u ∈ pre) ∨ .stopRequested k ∈ pre)

/--
`PriorityScheduler` is a stable priority queue over whole runs, for any heap
that is correct for strict weak orders and fewer than `2 ^ 64` accepted pushes.
-/
theorem stable_priority_queue (heap : MaxHeap H (PriorityTask φ) PriorityTask.less)
    (hr : (scheduler heap).Reach s tr) (hbound : (accepted tr).length < 2 ^ 64) :
    PriorityRun heap s tr := by
  obtain ⟨held, hheld⟩ := (runInv_reach hr hbound).held
  refine ⟨?_, ?_, ?_, ?_, ?_, ?_, ?_⟩
  · refine ⟨_, hheld.history, ?_⟩
    rw [List.length_map, heap.size_eq, hheld.elems, Multiset.coe_card]
  · intro t task hmem
    refine hheld.stamped task (List.mem_append_right _ ?_)
    exact List.mem_filterMap.mpr ⟨_, hmem, rfl⟩
  · have hfresh := hheld.fresh
    rw [List.map_append] at hfresh
    exact (List.nodup_append.mp hfresh).2.1
  · intro pre post t arg htr u hu
    obtain ⟨s₀, tr₀, s₁, es₀, es₁, inv, heff, rfl⟩ := emitted_effect hr hbound htr
    generalize hes : es₀ ++ Event.pushAccepted t arg :: es₁ = es at heff
    cases heff with
    | accepted t' arg' hs hp =>
        obtain ⟨rfl, _⟩ := List.append_eq_singleton_iff.mp hes |>.resolve_right (by simp)
        rw [List.append_nil] at hu
        have hclosed := inv.stopped.mpr ⟨u, hu⟩
        rw [((lawful heap).push_eq_none arg' s₀.contents).mpr hclosed] at hp
        cases hp
    | quiet hc hs hq => exact hq (.pushAccepted t arg) (by rw [← hes]; simp)
    | _ => cases es₀ <;> simp at hes
  · intro pre post t arg htr
    obtain ⟨s₀, tr₀, s₁, es₀, es₁, inv, heff, rfl⟩ := emitted_effect hr hbound htr
    generalize hes : es₀ ++ Event.pushRejected t arg :: es₁ = es at heff
    cases heff with
    | rejected t' arg' hc hs hp =>
        obtain ⟨rfl, _⟩ := List.append_eq_singleton_iff.mp hes |>.resolve_right (by simp)
        obtain ⟨u, hu⟩ := inv.stopped.mp (((lawful heap).push_eq_none _ _).mp hp)
        exact ⟨u, List.mem_append_left _ hu⟩
    | quiet hc hs hq => exact (hq (.pushRejected t arg) (by rw [← hes]; simp)).elim
    | _ => cases es₀ <;> simp at hes
  · intro pre post t htr
    obtain ⟨s₀, tr₀, s₁, es₀, es₁, inv, heff, rfl⟩ := emitted_effect hr hbound htr
    generalize hes : es₀ ++ Event.tryEmpty t :: es₁ = es at heff
    cases heff with
    | tryEmpty t' hc hs hsize =>
        obtain ⟨rfl, _⟩ := List.append_eq_singleton_iff.mp hes |>.resolve_right (by simp)
        rw [List.append_nil]
        exact inv.empty hsize
    | quiet hc hs hq => exact (hq (.tryEmpty t) (by rw [← hes]; simp)).elim
    | _ => cases es₀ <;> simp at hes
  · intro pre post t k htr
    obtain ⟨s₀, tr₀, s₁, es₀, es₁, inv, heff, rfl⟩ := emitted_effect hr hbound htr
    generalize hes : es₀ ++ Event.waitEmpty t k :: es₁ = es at heff
    cases heff with
    | waitEmpty t' k' hc hs hsize hend =>
        obtain ⟨rfl, htail⟩ :=
          List.append_eq_singleton_iff.mp hes |>.resolve_right (by simp)
        obtain ⟨⟨rfl, rfl⟩, _⟩ := by simpa using htail
        rw [List.append_nil]
        exact ⟨inv.empty hsize, hend.imp inv.stopped.mp (inv.tokens k).mp⟩
    | quiet hc hs hq => exact (hq (.waitEmpty t k) (by rw [← hes]; simp)).elim
    | _ => cases es₀ <;> simp at hes

/-- The scheduler on a heap kept in a sorted list. -/
abbrev listScheduler : Machine (BlockingMonitor.State
      (Contents (SortedList (PriorityTask.less (φ := Nat)))) Bool Unit
        (Nat × TaskPriority))
    (BlockingMonitor.Act Bool Unit (Nat × TaskPriority))
    (Event Bool Unit (Nat × TaskPriority) (PriorityTask Nat)) :=
  scheduler (sortedListHeap PriorityTask.less)

/-- Three pushes of two priorities, and two pops. -/
def threePushes : List (BlockingMonitor.Act Bool Unit (Nat × TaskPriority)) :=
  [.push true (1, .low), .advance true, .notify true none,
    .push true (2, .high), .advance true, .notify true none,
    .push true (3, .high), .advance true, .notify true none,
    .tryPop false, .advance false, .waitAndPop false (), .advance false]

theorem stable_priority_queue_threePushes :
    ∃ s tr, listScheduler.Reach s tr ∧
      poppedTasks tr = [⟨some 2, .high, 1⟩, ⟨some 3, .high, 2⟩] ∧
      PriorityRun (sortedListHeap PriorityTask.less) s tr := by
  obtain ⟨s, tr, hr, hp⟩ := Machine.exists_reach_of_exec (M := listScheduler) threePushes
    (p := fun r => decide (poppedTasks r.2 = [⟨some 2, .high, 1⟩, ⟨some 3, .high, 2⟩] ∧
      (accepted r.2).length < 2 ^ 64))
    (by decide)
  obtain ⟨hpopped, hbound⟩ := of_decide_eq_true hp
  exact ⟨s, tr, hr, hpopped, stable_priority_queue _ hr hbound⟩

end Runs

end PriorityScheduler
end AsyncTaskEngine
