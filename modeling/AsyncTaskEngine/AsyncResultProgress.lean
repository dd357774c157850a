import AsyncTaskEngine.AsyncResult

/-!
# Continuations cannot deadlock the pool

A continuation blocks its worker until the predecessor has finished.  The queue
is FIFO, and a predecessor is accepted before its continuation; so the first
accepted task that is unfinished never waits.  Either a worker holds it, or all
popped ordinary tasks are finished, and then some worker is free, since fewer
than `N` tasks never finish.
-/

namespace AsyncTaskEngine
namespace ThreadPool
namespace AsyncResult

universe u v w

variable {N K : Nat} {ι : Type u} {V : Type v} {E : Type w}

/-- A worker executes an ordinary task whose predecessor is finished, or is free to
pop from a queue with tasks. -/
def CanMove (s : State N ι (Body V E)) (tr : List (Event N ι (Body V E) Label)) : Prop :=
  ∃ w, (∃ task ∈ (s.ctrl (.inl w)).holds, task.body.ordinary = true ∧
      HasPred (finishedTasks tr) task) ∨
    (s.queue.contents.tasks ≠ [] ∧ (s.ctrl (.inl w)).free = true)

/-- The steps that need no decision of the user: those of the pool, and those of
callables, which do not block. -/
def internal : Act N ι (Body V E) Label → Bool
  | .finish _ => true
  | .user _ (.invoke _) => true
  | a => a.owed

variable [DecidableEq ι] [Fintype ι]
variable {q : State N ι (Body V E) × Client V E} {s : State N ι (Body V E)}
variable {tr : List (Event N ι (Body V E) Label)}

omit [DecidableEq ι] [Fintype ι] in
/-- The first task of a list with some property. -/
theorem exists_first {α : Type u} {l : List α} (p : α → Prop) (h : ∃ x ∈ l, p x) :
    ∃ pre x post, l = pre ++ x :: post ∧ p x ∧ ∀ y ∈ pre, ¬ p y := by
  classical
  obtain ⟨x, hx, hp⟩ := h
  obtain ⟨y, pre, post, hpre, hy, hl, _⟩ :=
    List.exists_of_eraseP (p := fun a => decide (p a)) hx (decide_eq_true hp)
  exact ⟨pre, y, post, hl, of_decide_eq_true hy, fun z hz hpz => hpre z hz (decide_eq_true hpz)⟩

/-- The argument on the first unfinished task. -/
theorem canMove (hK : K < N) (hr : (chains N ι V E K).Reach q tr)
    (h : ∃ x ∈ acceptedTasks tr, x.body.ordinary = true ∧ x ∉ finishedTasks tr) :
    CanMove q.1 tr := by
  have hpool := hr.of_guard
  have hlink := linked_reach hr
  obtain ⟨pre, x, post, hsplit, ⟨hord, hun⟩, hpre⟩ := exists_first _ h
  have hdone : ∀ y ∈ pre, y.body.ordinary = true → y ∈ finishedTasks tr := by
    intro y hy hyord
    by_contra hyun
    exact hpre y hy ⟨hyord, hyun⟩
  have hqueue := accepted_eq_popped_append hpool
  rw [hsplit] at hqueue
  rcases Machine.event_split hqueue.symm with ⟨es₀, rfl, hes⟩ | ⟨post₀, hpopped, _⟩
  · -- The task is still queued, so that all ordinary popped tasks are finished.
    have htasks : q.1.queue.contents.tasks ≠ [] := by
      rw [hes]
      simp
    have hheld : ∀ w, ∀ task ∈ (q.1.ctrl (.inl w)).holds,
        (!task.body.ordinary) = true := by
      intro w task hw
      by_contra htask
      have hfin := hdone task
        (List.mem_append_left _ (popped_of_held hpool hw)) (by simpa using htask)
      have := held_unfinished hpool hw
      have := timesIn_pos hfin
      omega
    have hfew : (acceptedTasks tr).countP (fun x => !x.body.ordinary) < N := by
      have hcalls := calls_decided hpool fun x => !x.body.ordinary
      have hcounted := hlink.counted
      have hbounded := hlink.bounded
      omega
    obtain ⟨w, hw⟩ := exists_free hpool _ hfew htasks hheld
    exact ⟨w, .inr ⟨htasks, hw⟩⟩
  · -- A worker holds the task, and what it waits for is finished.
    have hpop : x ∈ poppedTasks tr := by
      rw [hpopped]
      exact List.mem_append_right _ (List.mem_cons_self)
    obtain ⟨w, hw⟩ := held_of_popped hpool hpop hun
    refine ⟨w, .inl ⟨x, hw, hord, ?_⟩⟩
    intro pred stage hbody
    obtain ⟨y, hy, hid, hyord⟩ := hlink.ordered pre x post hsplit pred stage hbody
    exact ⟨y, hdone y hy hyord, hid, hyord⟩

omit [DecidableEq ι] [Fintype ι] in
/-- With a finished predecessor, a task can enter its callable or come to its end. -/
theorem can_invoke_or_finish {k : Client V E} (inv : Outcomes k tr)
    {task : Task (Body V E)} (hord : task.body.ordinary = true)
    (hpred : HasPred (finishedTasks tr) task) :
    k.mayFinish task = true ∨ (k.invoked task.id = false ∧ k.ready task.body = true) := by
  unfold Client.mayFinish
  cases hbody : task.body with
  | call func =>
      cases hinv : k.invoked task.id with
      | true => exact .inl rfl
      | false => exact .inr ⟨rfl, rfl⟩
  | after pred stage =>
      obtain ⟨y, hy, rfl, _⟩ := hpred pred stage hbody
      obtain ⟨hout, hmay⟩ := inv.finished y hy
      obtain ⟨r, hres⟩ := Client.result_isSome hmay
      rw [hres] at hout
      cases r with
      | error e => exact .inl (by simp [hout])
      | ok v =>
          cases hinv : k.invoked task.id with
          | true => exact .inl (by simp [hout])
          | false => exact .inr ⟨rfl, by simp [Client.ready, hout]⟩
  | forever =>
      rw [hbody] at hord
      cases hord

omit [DecidableEq ι] [Fintype ι] in
theorem internal_of_owed {a : Act N ι (Body V E) Label} (ha : a.owed = true) :
    internal a = true := by
  cases a with
  | finish w => rfl
  | user t label => cases ha
  | _ => exact ha

/-- A system in which no step of its own is possible has no worker that can move. -/
theorem not_canMove (hr : (chains N ι V E K).Reach q tr)
    (hstuck : ∀ a, internal a = true → (chains N ι V E K).step q a = none) :
    ¬ CanMove q.1 tr := by
  have hpool := hr.of_guard
  have hq : Quiescent Label q.1 := by
    intro a ha
    refine Machine.guard_none ?_ (hstuck a (internal_of_owed ha))
    cases a <;> first | rfl | cases ha
  rintro ⟨w, ⟨task, hheld, hord, hpred⟩ | ⟨htasks, hfree⟩⟩
  · rcases hq.worker (agrees_reach hpool) w with hret | hsleep | ⟨task', drained, hrun⟩
    · rw [hret] at hheld
      cases hheld
    · rw [hsleep.1] at hheld
      cases hheld
    · rw [hrun] at hheld
      obtain rfl := List.mem_singleton.mp hheld
      rcases can_invoke_or_finish (outcomes_reach hr) hord hpred with
        hfin | ⟨hnew, hready⟩
      · have := Machine.guard_none (by simp [allowed, hrun, hfin]) (hstuck (.finish w) rfl)
        simp [pool, step, hrun] at this
      · have := Machine.guard_none (by simp [allowed, hrun, hnew, hready])
          (hstuck (.user (.inl w) (.invoke task.id)) rfl)
        simp [pool, step, hrun, Ctrl.user?] at this
  · obtain ⟨task, drained, hrun⟩ := hq.all_running hpool htasks w
    rw [hrun] at hfree
    cases hfree

/-- Chains of continuations cannot deadlock the pool. -/
theorem chains_cannot_deadlock (hK : K < N) (hr : (chains N ι V E K).Reach q tr)
    (h : ∃ x ∈ acceptedTasks tr, x.body.ordinary = true ∧ x ∉ finishedTasks tr) :
    CanMove q.1 tr ∧
      ∃ a, internal a = true ∧ ((chains N ι V E K).step q a).isSome = true := by
  have hmove := canMove hK hr h
  refine ⟨hmove, ?_⟩
  by_contra hno
  refine not_canMove hr (fun a ha => ?_) hmove
  by_contra hsome
  exact hno ⟨a, ha, Option.isSome_iff_ne_none.mpr hsome⟩

/-- A chain of two stages beside a worker that is occupied for good. -/
theorem chains_cannot_deadlock_besideForever :
    ∃ (q : State 2 Unit (Body Nat String) × Client Nat String) (tr : _) (a : _),
      (chains 2 Unit Nat String 1).Reach q tr ∧ CanMove q.1 tr ∧
        ((chains 2 Unit Nat String 1).step q a).isSome = true := by
  obtain ⟨q, tr, hr, hp⟩ := Machine.exists_reach_of_exec
    (M := chains 2 Unit Nat String 1)
    [.submit (.inr ()) .forever, .advance (.inr ()), .notify (.inr ()) none, .test 0,
      .advance (.inl 0), .start 0, .user (.inl 0) (.invoke 0),
      .submit (.inr ()) (.call (.ok 5)), .advance (.inr ()), .notify (.inr ()) none,
      .submit (.inr ()) (.after 1 (.value fun x => .ok (2 * x))), .advance (.inr ())]
    (p := fun r => (acceptedTasks r.2).any fun x => x.body.ordinary &&
      (finishedTasks r.2).all fun y => y.id != x.id)
    (by decide)
  obtain ⟨x, hx, hp⟩ := List.any_eq_true.mp hp
  obtain ⟨hord, hfin⟩ := by simpa using hp
  obtain ⟨hmove, a, _, ha⟩ := chains_cannot_deadlock (by decide) hr
    ⟨x, hx, hord, fun hmem => hfin x hmem rfl⟩
  exact ⟨q, tr, a, hr, hmove, ha⟩

end AsyncResult
end ThreadPool
end AsyncTaskEngine
