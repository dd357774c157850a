import AsyncTaskEngine.ThreadPoolAccounting

/-!
# The constructor of the pool

A model of `ThreadPool::ThreadPool`, which creates the workers one by one; those
that exist run their loops while it is still creating the others.  When the
creation of a thread throws, the destructor of `workers_` asks each worker that
exists to stop and joins it, in an order that is not specified, and the exception
leaves the constructor.  Nobody has closed the queue then.

`constructed_iff` connects the constructor to the model of the pool in which all
workers are there from the beginning.  `construction_unwinds` says that after a
failure the joins come back: no worker keeps sleeping, and none has anything left
to do.
-/

namespace AsyncTaskEngine
namespace ThreadPool
namespace Construction

universe u v w

/-- Where the constructor stands. -/
inductive Phase (N : Nat) where
  | creating
  /-- The constructor has returned. -/
  | constructed
  /-- The creation of a thread has thrown, and these workers are left in `workers_`. -/
  | unwinding (rest : List (Fin N))
  /-- In the `~jthread` of the worker, after `request_stop()`. -/
  | joining (w : Fin N) (rest : List (Fin N))
  /-- The exception has left the constructor. -/
  | failed
deriving DecidableEq

/-- The pool, the number of the workers that have been created, and the constructor. -/
structure Building (N : Nat) (ι : Type u) (π : Type v) where
  pool : State N ι π
  created : Nat
  phase : Phase N

/-- A step of the pool, or of the thread that constructs it. -/
inductive Act (N : Nat) (ι : Type u) (π : Type v) (ℓ : Type w) where
  | pool (a : ThreadPool.Act N ι π ℓ)
  | create
  | throws
  | return
  | requestStop (w : Fin N)
  | join
  | rethrow

variable {N : Nat} {ι : Type u} {π : Type v} {ℓ : Type w}

/-- The thread that takes the step. -/
def thread : ThreadPool.Act N ι π ℓ → Tid N ι
  | .advance t => t
  | .notify t _ => t
  | .spurious t => t
  | .test w => .inl w
  | .drain w => .inl w
  | .start w => .inl w
  | .requestStop t => t
  | .finish w => .inl w
  | .submit t _ => t
  | .shutdown t => t
  | .user t _ => t

/-- Before the constructor has returned, only the workers know the pool. -/
def Building.admits (b : Building N ι π) (a : ThreadPool.Act N ι π ℓ) : Bool :=
  match b.phase with
  | .constructed => true
  | _ =>
      match thread a with
      | .inl w => decide (w.val < b.created)
      | .inr _ => false

/-- The constructor has thrown, or is about to. -/
def Phase.thrown : Phase N → Bool
  | .unwinding _ => true
  | .joining _ _ => true
  | .failed => true
  | _ => false

variable [DecidableEq ι] [Fintype ι]

/-- One step of the pool or of its constructor. -/
def step (b : Building N ι π) :
    Act N ι π ℓ → Option (Building N ι π × List (Event N ι π ℓ))
  | .pool a =>
      if b.admits a then
        (ThreadPool.step b.pool a).map fun r => ({ b with pool := r.1 }, r.2)
      else none
  | .create =>
      if b.phase = .creating ∧ b.created < N then some ({ b with created := b.created + 1 }, [])
      else none
  | .throws =>
      if b.phase = .creating ∧ b.created < N then
        some ({ b with
          phase := .unwinding ((List.finRange N).filter fun w => w.val < b.created) }, [])
      else none
  | .return =>
      if b.phase = .creating ∧ ¬ b.created < N then some ({ b with phase := .constructed }, [])
      else none
  | .requestStop w =>
      match b.phase with
      | .unwinding rest =>
          if w ∈ rest then
            (queueStep b.pool (.requestStop w)).map fun r =>
              ({ b with pool := r.1, phase := .joining w (rest.erase w) }, r.2)
          else none
      | _ => none
  | .join =>
      match b.phase with
      | .joining w rest =>
          match b.pool.ctrl (.inl w) with
          | .returned => some ({ b with phase := .unwinding rest }, [])
          | _ => none
      | _ => none
  | .rethrow =>
      if b.phase = .unwinding [] then some ({ b with phase := .failed }, []) else none

variable (N ι π ℓ) in
/-- A pool whose constructor is about to create the first worker. -/
def construction : Machine (Building N ι π) (Act N ι π ℓ) (Event N ι π ℓ) where
  init := { pool := (pool N ι π ℓ).init, created := 0, phase := .creating }
  step := step

section Inversion

variable {b b' : Building N ι π} {es : List (Event N ι π ℓ)}

/-- `request_stop()` on the token of a worker. -/
def stop (s : State N ι π) (w : Fin N) : State N ι π :=
  s.setQueue { s.queue with
    stopped := Function.update s.queue.stopped w true
    call := fun u => (s.queue.call u).wakeOn w }

/-- What a step can do, one constructor for each way. -/
inductive Move (b : Building N ι π) :
    Act N ι π ℓ → Building N ι π → List (Event N ι π ℓ) → Prop
  | pool {a : ThreadPool.Act N ι π ℓ} {s : State N ι π} {es : List (Event N ι π ℓ)}
      (hallow : b.admits a = true) (hs : ThreadPool.step b.pool a = some (s, es)) :
      Move b (.pool a) { b with pool := s } es
  | create (hp : b.phase = .creating) (hlt : b.created < N) :
      Move b .create { b with created := b.created + 1 } []
  | throws (hp : b.phase = .creating) (hlt : b.created < N) :
      Move b .throws { b with
        phase := .unwinding ((List.finRange N).filter fun w => w.val < b.created) } []
  | return (hp : b.phase = .creating) (hle : ¬ b.created < N) :
      Move b .return { b with phase := .constructed } []
  | requestStop {w : Fin N} {rest : List (Fin N)} (hp : b.phase = .unwinding rest)
      (hw : w ∈ rest) :
      Move b (.requestStop w)
        { b with pool := stop b.pool w, phase := .joining w (rest.erase w) } [.stopRequested w]
  | join {w : Fin N} {rest : List (Fin N)} (hp : b.phase = .joining w rest)
      (hw : b.pool.ctrl (.inl w) = .returned) :
      Move b .join { b with phase := .unwinding rest } []
  | rethrow (hp : b.phase = .unwinding []) : Move b .rethrow { b with phase := .failed } []

theorem step_inv {a : Act N ι π ℓ} (h : step b a = some (b', es)) : Move b a b' es := by
  cases a with
  | pool a =>
      simp only [step] at h
      split at h
      · next hallow =>
          obtain ⟨⟨s, fs⟩, hs, heq⟩ := Option.map_eq_some_iff.mp h
          obtain ⟨rfl, rfl⟩ := Prod.mk.inj heq
          exact .pool hallow hs
      · cases h
  | create =>
      simp only [step] at h
      split at h
      · next hp =>
          obtain ⟨rfl, rfl⟩ := Prod.mk.inj (Option.some.inj h)
          exact .create hp.1 hp.2
      · cases h
  | throws =>
      simp only [step] at h
      split at h
      · next hp =>
          obtain ⟨rfl, rfl⟩ := Prod.mk.inj (Option.some.inj h)
          exact .throws hp.1 hp.2
      · cases h
  | «return» =>
      simp only [step] at h
      split at h
      · next hp =>
          obtain ⟨rfl, rfl⟩ := Prod.mk.inj (Option.some.inj h)
          exact .return hp.1 hp.2
      · cases h
  | requestStop w =>
      simp only [step] at h
      split at h
      · next rest hp =>
          split at h
          · next hw =>
              obtain ⟨rfl, rfl⟩ := by
                simpa [queueStep, BlockingMonitor.step, deliverAll, deliver] using h
              exact .requestStop hp hw
          · cases h
      · cases h
  | join =>
      simp only [step] at h
      split at h
      · next w rest hp =>
          split at h
          · next hw =>
              obtain ⟨rfl, rfl⟩ := Prod.mk.inj (Option.some.inj h)
              exact .join hp hw
          · cases h
      · cases h
  | rethrow =>
      simp only [step] at h
      split at h
      · next hp =>
          obtain ⟨rfl, rfl⟩ := Prod.mk.inj (Option.some.inj h)
          exact .rethrow hp
      · cases h

end Inversion

section Refinement

variable {b : Building N ι π} {s : State N ι π} {tr : List (Event N ι π ℓ)}

/-- As long as the constructor does not throw, the pool is one that had all workers before. -/
theorem pool_reach (hr : (construction N ι π ℓ).Reach b tr) (hp : b.phase.thrown = false) :
    (pool N ι π ℓ).Reach b.pool tr := by
  refine hr.invariant (P := fun b tr => b.phase.thrown = false → (pool N ι π ℓ).Reach b.pool tr)
    (fun _ => .init) ?_ hp
  intro b tr a b' es _ ih hs hp
  cases step_inv hs with
  | pool hallow hs => exact (ih hp).step hs
  | create hp' hlt | «return» hp' hle =>
      rw [List.append_nil]
      exact ih (by rw [hp']; rfl)
  | throws | requestStop | join | rethrow => cases hp

/-- The constructor creates the workers before any of them takes a step. -/
theorem create_all : ∃ as, (construction N ι π ℓ).exec (construction N ι π ℓ).init as =
    some ({ pool := (pool N ι π ℓ).init, created := N, phase := .constructed }, []) := by
  have hcreate : ∀ n ≤ N, (construction N ι π ℓ).exec (construction N ι π ℓ).init
      (List.replicate n .create) =
        some ({ pool := (pool N ι π ℓ).init, created := n, phase := .creating }, []) := by
    intro n hn
    induction n with
    | zero => rfl
    | succ n ih =>
        have hnext : (construction N ι π ℓ).exec
            { pool := (pool N ι π ℓ).init, created := n, phase := .creating } [.create] =
              some ({ pool := (pool N ι π ℓ).init, created := n + 1, phase := .creating }, []) := by
          rw [Machine.exec_single]
          simp only [construction, step]
          exact if_pos ⟨trivial, hn⟩
        rw [List.replicate_succ']
        exact Machine.exec_append (ih (by omega)) hnext
  have hreturn : (construction N ι π ℓ).exec
      { pool := (pool N ι π ℓ).init, created := N, phase := .creating } [.return] =
        some ({ pool := (pool N ι π ℓ).init, created := N, phase := .constructed }, []) := by
    rw [Machine.exec_single]
    simp only [construction, step]
    exact if_pos ⟨trivial, Nat.lt_irrefl N⟩
  exact ⟨List.replicate N .create ++ [.return],
    Machine.exec_append (hcreate N (Nat.le_refl N)) hreturn⟩

/--
The runs of a pool whose constructor has returned are those of the pool in which
all workers are there from the beginning.
-/
theorem constructed_iff : (pool N ι π ℓ).Reach s tr ↔
    (construction N ι π ℓ).Reach { pool := s, created := N, phase := .constructed } tr := by
  constructor
  · intro hr
    refine hr.invariant (P := fun s tr => (construction N ι π ℓ).Reach
      { pool := s, created := N, phase := .constructed } tr) ?_ ?_
    · obtain ⟨as, has⟩ := create_all (N := N) (ι := ι) (π := π) (ℓ := ℓ)
      exact Machine.reach_of_exec as has
    · intro s tr a s' es _ ih hs
      refine ih.step (a := .pool a) ?_
      have hs' : ThreadPool.step s a = some (s', es) := hs
      simp [construction, step, Building.admits, hs']
  · intro hr
    exact pool_reach hr rfl

end Refinement

section Workers

/-- Where a worker is that has not found a task, and what is known of its stop token. -/
inductive Fresh (s : State N ι π) (w : Fin N) : Prop
  | test (hctrl : s.ctrl (.inl w) = .test) (hcall : s.queue.call (.inl w) = .idle)
  | check (hctrl : s.ctrl (.inl w) = .waiting) (hcall : (s.queue.call (.inl w)).checks w)
  | asleep (hctrl : s.ctrl (.inl w) = .waiting) (hcall : s.queue.call (.inl w) = .asleep w)
      (hstop : s.queue.stopped w = false)
  | drain (hctrl : s.ctrl (.inl w) = .drain) (hcall : s.queue.call (.inl w) = .idle)
  | draining (hctrl : s.ctrl (.inl w) = .draining) (hcall : s.queue.call (.inl w) = .tryPop)
  | returned (hctrl : s.ctrl (.inl w) = .returned) (hcall : s.queue.call (.inl w) = .idle)

/-- The steps that lie before a worker, given whether it is asked to stop, and whether it sleeps. -/
def ahead (stopped asleep : Bool) : Ctrl π → Nat
  | .test => if stopped then 3 else 2
  | .waiting => if stopped then 4 else if asleep then 0 else 1
  | .drain => 2
  | .draining => 1
  | _ => 0

/-- The steps that a worker still takes by itself when the queue stays empty. -/
def State.ahead (s : State N ι π) (w : Fin N) : Nat :=
  Construction.ahead (s.queue.stopped w) (s.queue.call (.inl w)).isAsleep (s.ctrl (.inl w))

/-- A spurious wakeup, and the step that goes back to sleep. -/
def cost : ThreadPool.Act N ι π ℓ → Nat
  | .spurious _ => 2
  | _ => 0

/-- What a worker does while the queue is empty, at this cost. -/
structure Alone (s s' : State N ι π) (w : Fin N) (es : List (Event N ι π ℓ)) (k : Nat) :
    Prop where
  contents : s'.queue.contents = s.queue.contents
  stopped : s'.queue.stopped = s.queue.stopped
  others : ∀ t, t ≠ .inl w → s'.ctrl t = s.ctrl t ∧ s'.queue.call t = s.queue.call t
  moves : s.ctrl (.inl w) ≠ .returned
  fresh : Fresh s' w
  lowers : State.ahead s' w + 1 ≤ State.ahead s w + k
  events : startedTasks es = []

variable {s s' : State N ι π} {w : Fin N} {es : List (Event N ι π ℓ)} {k : Nat}

omit [Fintype ι] in
/-- A worker moves in its control state and in its call. -/
theorem alone_of_move {c : Ctrl π} {x : BlockingMonitor.Call (Fin N) (Task π)}
    (hctrl : s'.ctrl = Function.update s.ctrl (.inl w) c)
    (hqueue : s'.queue = s.queue.setCall (.inl w) x) (hold : s.ctrl (.inl w) ≠ .returned)
    (hfresh : s'.ctrl (.inl w) = c → s'.queue.call (.inl w) = x → Fresh s' w)
    (hle : ahead (s.queue.stopped w) x.isAsleep c + 1 ≤ State.ahead s w + k)
    (hes : startedTasks es = []) : Alone s s' w es k := by
  have hcall : s'.queue.call = Function.update s.queue.call (.inl w) x := by rw [hqueue]; rfl
  have hself : s'.ctrl (.inl w) = c ∧ s'.queue.call (.inl w) = x := by
    rw [hctrl, hcall]
    exact ⟨Function.update_self _ _ _, Function.update_self _ _ _⟩
  have hstop : s'.queue.stopped = s.queue.stopped := by rw [hqueue]; rfl
  refine ⟨by rw [hqueue]; rfl, hstop, fun t ht => ?_, hold, hfresh hself.1 hself.2, ?_, hes⟩
  · rw [hctrl, hcall]
    exact ⟨Function.update_of_ne ht _ _, Function.update_of_ne ht _ _⟩
  · rw [State.ahead, hself.1, hself.2, hstop]
    exact hle

omit [Fintype ι] in
/-- The evaluation of the predicate on an empty and open queue. -/
theorem check_empty (hempty : s.queue.contents = { tasks := [], shutdown := false }) :
    BlockingMonitor.check (TaskQueue.sections (Task π)) s.queue (.inl w) w =
      if s.queue.stopped w then (s.queue.setCall (.inl w) .idle, [.waitEmpty (.inl w) w])
      else (s.queue.setCall (.inl w) (.asleep w), []) := by
  generalize s.queue = q at hempty ⊢
  obtain ⟨contents, stopped, call⟩ := q
  obtain rfl := hempty
  cases h : stopped w <;>
    simp [BlockingMonitor.check, TaskQueue.sections, TaskQueue.ready, TaskQueue.afterWait,
      BlockingMonitor.finishPop, BlockingMonitor.State.setContents, h]

/-- A step of a worker inside a call to the queue. -/
theorem fresh_advance (hf : Fresh s w)
    (hempty : s.queue.contents = { tasks := [], shutdown := false })
    (h : queueStep s (.advance (.inl w)) = some (s', es)) : Alone s s' w es 0 := by
  cases hf with
  | test hctrl hcall | drain hctrl hcall | returned hctrl hcall | asleep hctrl hcall =>
      simp [queueStep, BlockingMonitor.step, BlockingMonitor.advance, hcall] at h
  | check hctrl hcall =>
      have hadvance : queueStep (ℓ := ℓ) s (.advance (.inl w)) =
          some (deliverAll (s.setQueue (BlockingMonitor.check (γ := Task π)
            (TaskQueue.sections (Task π)) s.queue (.inl w) w).1)
            (BlockingMonitor.check (TaskQueue.sections (Task π)) s.queue (.inl w) w).2) := by
        rcases hcall with hcall | hcall <;>
          simp [queueStep, BlockingMonitor.step, BlockingMonitor.advance, hcall]
      have hawake : (s.queue.call (.inl w)).isAsleep = false := by
        rcases hcall with hcall | hcall <;> rw [hcall] <;> rfl
      rw [hadvance, check_empty hempty] at h
      cases hst : s.queue.stopped w with
      | true =>
          rw [if_pos hst] at h
          obtain ⟨rfl, rfl⟩ := Prod.mk.inj (Option.some.inj h)
          refine alone_of_move (c := .test) (x := .idle) rfl rfl (by simp [hctrl]) .test ?_ rfl
          simp [State.ahead, ahead, hst, hctrl]
      | false =>
          rw [if_neg (by simp [hst])] at h
          obtain ⟨rfl, rfl⟩ := Prod.mk.inj (Option.some.inj h)
          refine alone_of_move (c := .waiting) (x := .asleep w) ?_ rfl (by simp [hctrl])
            (fun hc hx => .asleep hc hx hst) ?_ rfl
          · rw [← hctrl, Function.update_eq_self]
            rfl
          · have hasleep : (BlockingMonitor.Call.asleep w :
                BlockingMonitor.Call (Fin N) (Task π)).isAsleep = true := rfl
            simp [State.ahead, ahead, hst, hctrl, hawake, hasleep]
  | draining hctrl hcall =>
      have hadvance : queueStep (ℓ := ℓ) s (.advance (.inl w)) =
          some ((s.setQueue (s.queue.setCall (.inl w) .idle)).setCtrl (.inl w) .returned,
            [.exited w]) := by
        have hpop : (TaskQueue.sections (Task π)).tryPop s.queue.contents =
            (s.queue.contents, none) := TaskQueue.tryPop_nil (by rw [hempty])
        simp [queueStep, BlockingMonitor.step, BlockingMonitor.advance, hcall, hpop,
          BlockingMonitor.finishPop, deliverAll, deliver, BlockingMonitor.State.setContents]
      rw [hadvance] at h
      obtain ⟨rfl, rfl⟩ := Prod.mk.inj (Option.some.inj h)
      refine alone_of_move (c := .returned) (x := .idle) rfl rfl (by simp [hctrl]) .returned
        ?_ rfl
      simp [State.ahead, ahead, hctrl]

/-- What a worker does while the queue is empty and open. -/
theorem fresh_step {a : ThreadPool.Act N ι π ℓ} (ha : thread a = .inl w) (hf : Fresh s w)
    (hempty : s.queue.contents = { tasks := [], shutdown := false })
    (h : ThreadPool.step s a = some (s', es)) : Alone s s' w es (cost a) := by
  have hnever : (s.ctrl (.inl w)).user? = none := by
    cases hf with
    | test hctrl | check hctrl | asleep hctrl | drain hctrl | draining hctrl | returned hctrl =>
        rw [hctrl]
        rfl
  cases a with
  | advance t =>
      cases ha
      exact fresh_advance hf hempty h
  | notify t pick =>
      cases ha
      cases hf with
      | check hctrl hcall =>
          rcases hcall with hcall | hcall <;>
            simp [ThreadPool.step, queueStep, BlockingMonitor.step, BlockingMonitor.notify,
              hcall] at h
      | test hctrl hcall | asleep hctrl hcall | drain hctrl hcall | draining hctrl hcall
      | returned hctrl hcall =>
          simp [ThreadPool.step, queueStep, BlockingMonitor.step, BlockingMonitor.notify,
            hcall] at h
  | spurious t =>
      cases ha
      cases hf with
      | asleep hctrl hcall hstop =>
          obtain ⟨rfl, rfl⟩ := by
            simpa [ThreadPool.step, queueStep, BlockingMonitor.step, hcall,
              BlockingMonitor.Call.isAsleep, BlockingMonitor.Call.wake, deliverAll] using h
          refine alone_of_move (c := .waiting) (x := .woken w) ?_ rfl (by simp [hctrl])
            (fun hc hx => .check hc (.inr hx)) ?_ rfl
          · rw [← hctrl, Function.update_eq_self]
            rfl
          · simp [State.ahead, ahead, hstop, hctrl, hcall, cost, BlockingMonitor.Call.isAsleep]
      | check hctrl hcall =>
          rcases hcall with hcall | hcall <;>
            simp [ThreadPool.step, queueStep, BlockingMonitor.step, hcall,
              BlockingMonitor.Call.isAsleep] at h
      | test hctrl hcall | drain hctrl hcall | draining hctrl hcall | returned hctrl hcall =>
          simp [ThreadPool.step, queueStep, BlockingMonitor.step, hcall,
            BlockingMonitor.Call.isAsleep] at h
  | test w' =>
      cases ha
      simp only [ThreadPool.step] at h
      split at h
      case h_1 hctrl =>
        have hcall : s.queue.call (.inl w) = .idle := by
          cases hf <;> simp_all
        cases hst : s.queue.stopped w with
        | true =>
            rw [if_pos hst] at h
            obtain ⟨rfl, rfl⟩ := Prod.mk.inj (Option.some.inj h)
            refine alone_of_move (c := .drain) (x := .idle) rfl ?_ (by simp [hctrl]) .drain
              ?_ rfl
            · rw [BlockingMonitor.State.setCall, ← hcall, Function.update_eq_self]
              rfl
            · simp [State.ahead, ahead, hst, hctrl]
        | false =>
            rw [if_neg (by simp [hst]), queueStep_enter (c := .wait w) (t := .inl w) (by
              simp [BlockingMonitor.step, State.setCtrl, hcall])] at h
            obtain ⟨rfl, rfl⟩ := Prod.mk.inj (Option.some.inj h)
            refine alone_of_move (c := .waiting) (x := .wait w) rfl rfl (by simp [hctrl])
              (fun hc hx => .check hc (.inl hx)) ?_ rfl
            simp [State.ahead, ahead, hst, hctrl, BlockingMonitor.Call.isAsleep]
      case h_2 => cases h
  | drain w' =>
      cases ha
      simp only [ThreadPool.step] at h
      split at h
      case h_1 hctrl =>
        have hcall : s.queue.call (.inl w) = .idle := by
          cases hf <;> simp_all
        rw [queueStep_enter (c := .tryPop) (t := .inl w) (by
          simp [BlockingMonitor.step, State.setCtrl, hcall])] at h
        obtain ⟨rfl, rfl⟩ := Prod.mk.inj (Option.some.inj h)
        refine alone_of_move (c := .draining) (x := .tryPop) rfl rfl (by simp [hctrl]) .draining
          ?_ rfl
        simp [State.ahead, ahead, hctrl]
      case h_2 => cases h
  | start w' =>
      cases ha
      cases hf <;> simp_all [ThreadPool.step]
  | finish w' =>
      cases ha
      cases hf <;> simp_all [ThreadPool.step]
  | requestStop t | submit t body | shutdown t | user t label =>
      cases ha
      simp [ThreadPool.step, hnever] at h

omit [DecidableEq ι] [Fintype ι] in
/-- A worker that is asked to stop has at most four steps more before it. -/
theorem fresh_stop (hf : Fresh s w) :
    Fresh (stop s w) w ∧ State.ahead (stop s w) w ≤ State.ahead s w + 4 := by
  have hstopped : (stop s w).queue.stopped w = true := Function.update_self _ _ _
  have hcall : (stop s w).queue.call (.inl w) = (s.queue.call (.inl w)).wakeOn w := rfl
  have hctrl : (stop s w).ctrl = s.ctrl := rfl
  constructor
  · cases hf with
    | test h hc => exact .test h (by rw [hcall, hc]; rfl)
    | check h hc => exact .check h (hc.imp (fun h => by rw [hcall, h]; rfl) fun h => by
        rw [hcall, h]; rfl)
    | asleep h hc => exact .check h (.inr (by
        rw [hcall, hc]
        exact if_pos rfl))
    | drain h hc => exact .drain h (by rw [hcall, hc]; rfl)
    | draining h hc => exact .draining h (by rw [hcall, hc]; rfl)
    | returned h hc => exact .returned h (by rw [hcall, hc]; rfl)
  · rw [State.ahead, State.ahead, hctrl, hstopped]
    cases s.ctrl (.inl w) <;> simp [ahead]

omit [DecidableEq ι] [Fintype ι] in
/-- Nothing has happened to the worker. -/
theorem fresh_congr (hf : Fresh s w) (hctrl : s'.ctrl (.inl w) = s.ctrl (.inl w))
    (hcall : s'.queue.call (.inl w) = s.queue.call (.inl w))
    (hst : s'.queue.stopped w = s.queue.stopped w) :
    Fresh s' w ∧ State.ahead s' w = State.ahead s w := by
  constructor
  · cases hf with
    | test h hc => exact .test (hctrl.trans h) (hcall.trans hc)
    | check h hc => exact .check (hctrl.trans h) (hcall ▸ hc)
    | asleep h hc hno => exact .asleep (hctrl.trans h) (hcall.trans hc) (hst.trans hno)
    | drain h hc => exact .drain (hctrl.trans h) (hcall.trans hc)
    | draining h hc => exact .draining (hctrl.trans h) (hcall.trans hc)
    | returned h hc => exact .returned (hctrl.trans h) (hcall.trans hc)
  · rw [State.ahead, State.ahead, hctrl, hcall, hst]

omit [DecidableEq ι] [Fintype ι] in
/-- The other workers do not notice. -/
theorem stop_other {v : Fin N} (hf : Fresh s v) (hne : v ≠ w) :
    Fresh (stop s w) v ∧ State.ahead (stop s w) v = State.ahead s v := by
  have hstopped : (stop s w).queue.stopped v = s.queue.stopped v := Function.update_of_ne hne _ _
  have hcall : (stop s w).queue.call (.inl v) = s.queue.call (.inl v) := by
    show (s.queue.call (.inl v)).wakeOn w = s.queue.call (.inl v)
    cases hf with
    | asleep h hc =>
        rw [hc]
        exact if_neg hne
    | check h hc => rcases hc with hc | hc <;> (rw [hc]; rfl)
    | test h hc | drain h hc | draining h hc | returned h hc =>
        rw [hc]
        rfl
  exact fresh_congr hf rfl hcall hstopped

/-- A worker that has been asked to stop moves on until it returns. -/
theorem fresh_enabled (hf : Fresh s w) (hst : s.queue.stopped w = true)
    (hret : s.ctrl (.inl w) ≠ .returned) :
    ∃ a : ThreadPool.Act N ι π ℓ, thread a = .inl w ∧ cost a = 0 ∧
      (ThreadPool.step s a).isSome = true := by
  cases hf with
  | test hctrl hcall => exact ⟨.test w, rfl, rfl, by simp [ThreadPool.step, hctrl, hst]⟩
  | check hctrl hcall =>
      refine ⟨.advance (.inl w), rfl, rfl, ?_⟩
      rcases hcall with hcall | hcall <;>
        simp [ThreadPool.step, queueStep, BlockingMonitor.step, BlockingMonitor.advance, hcall]
  | asleep hctrl hcall hno =>
      rw [hst] at hno
      cases hno
  | drain hctrl hcall =>
      refine ⟨.drain w, rfl, rfl, ?_⟩
      simp [ThreadPool.step, hctrl, queueStep, BlockingMonitor.step, State.setCtrl, hcall]
  | draining hctrl hcall =>
      refine ⟨.advance (.inl w), rfl, rfl, ?_⟩
      simp [ThreadPool.step, queueStep, BlockingMonitor.step, BlockingMonitor.advance, hcall]
  | returned hctrl hcall => exact (hret hctrl).elim

end Workers

section Failure

variable {b b' : Building N ι π} {tr es : List (Event N ι π ℓ)}

/-- The workers whose `~jthread` has not begun. -/
def Phase.rest : Phase N → List (Fin N)
  | .unwinding rest => rest
  | .joining _ rest => rest
  | .failed => []
  | _ => List.finRange N

/-- The pool of a constructor that has not returned. -/
structure Unfinished (b : Building N ι π) (tr : List (Event N ι π ℓ)) : Prop where
  empty : b.pool.queue.contents = { tasks := [], shutdown := false }
  fresh : ∀ w, Fresh b.pool w
  asked : ∀ w : Fin N, w.val < b.created → w ∉ b.phase.rest → b.pool.queue.stopped w = true
  joined : ∀ w : Fin N, w.val < b.created → w ∉ b.phase.rest →
    (∀ rest, b.phase ≠ .joining w rest) → b.pool.ctrl (.inl w) = .returned
  members : b.phase.thrown = true → ∀ w ∈ b.phase.rest, w.val < b.created
  current : ∀ w rest, b.phase = .joining w rest →
    w.val < b.created ∧ b.pool.queue.stopped w = true
  idle : startedTasks tr = []

theorem unfinished_init :
    Unfinished (construction N ι π ℓ).init ([] : List (Event N ι π ℓ)) where
  empty := rfl
  fresh _ := .test rfl rfl
  asked _ hw _ := absurd hw (Nat.not_lt_zero _)
  joined _ hw _ _ := absurd hw (Nat.not_lt_zero _)
  members h := by cases h
  current _ _ h := by cases h
  idle := rfl

omit [DecidableEq ι] [Fintype ι] in
/-- A worker moves before the constructor has returned. -/
theorem Building.admits_worker {a : ThreadPool.Act N ι π ℓ} (h : b.admits a = true)
    (hp : b.phase ≠ .constructed) : ∃ w, thread a = .inl w ∧ w.val < b.created := by
  unfold Building.admits at h
  split at h
  · next heq => exact (hp heq).elim
  · split at h
    · next w hw => exact ⟨w, hw, of_decide_eq_true h⟩
    · cases h

theorem Unfinished.pool {a : ThreadPool.Act N ι π ℓ} {s : State N ι π} (h : Unfinished b tr)
    (hallow : b.admits a = true) (hp : b.phase ≠ .constructed)
    (hs : ThreadPool.step b.pool a = some (s, es)) :
    ∃ w, w.val < b.created ∧ Alone b.pool s w es (cost a) ∧
      Unfinished { b with pool := s } (tr ++ es) := by
  obtain ⟨w, ha, hw⟩ := Building.admits_worker hallow hp
  have hal := fresh_step ha (h.fresh w) h.empty hs
  refine ⟨w, hw, hal, ⟨hal.contents.trans h.empty, fun v => ?_, ?_, ?_, h.members, ?_, ?_⟩⟩
  · by_cases hv : v = w
    · exact hv ▸ hal.fresh
    · obtain ⟨hctrl, hcall⟩ := hal.others (.inl v) (by simpa using hv)
      exact (fresh_congr (h.fresh v) hctrl hcall (by rw [hal.stopped])).1
  · intro v hv hrest
    show s.queue.stopped v = true
    rw [hal.stopped]
    exact h.asked v hv hrest
  · intro v hv hrest hcur
    have hret := h.joined v hv hrest hcur
    have hne : v ≠ w := fun heq => hal.moves (heq ▸ hret)
    exact (hal.others (.inl v) (by simpa using hne)).1.trans hret
  · intro v rest hcur
    show v.val < b.created ∧ s.queue.stopped v = true
    rw [hal.stopped]
    exact h.current v rest hcur
  · rw [startedTasks_append, h.idle, hal.events]
    rfl

theorem Unfinished.step {a : Act N ι π ℓ} (h : Unfinished b tr) (hm : Move b a b' es)
    (hp : b'.phase ≠ .constructed) : Unfinished b' (tr ++ es) := by
  cases hm with
  | pool hallow hs =>
      obtain ⟨w, _, _, hnext⟩ := h.pool hallow hp hs
      exact hnext
  | create hp' hlt =>
      rw [List.append_nil]
      refine ⟨h.empty, h.fresh, fun w _ hw => ?_, fun w _ hw _ => ?_, fun hthrown => ?_,
        fun w rest hcur => ?_, h.idle⟩
      case refine_3 =>
        rw [show b.phase = .creating from hp'] at hthrown
        cases hthrown
      case refine_4 =>
        rw [show b.phase = .creating from hp'] at hcur
        cases hcur
      all_goals
        have hrest : w ∉ b.phase.rest := hw
        rw [hp'] at hrest
        exact (hrest (List.mem_finRange w)).elim
  | throws hp' hlt =>
      rw [List.append_nil]
      refine ⟨h.empty, h.fresh, fun w hlt hw => ?_, fun w hlt hw _ => ?_,
        (fun _ w hw => by simpa [Phase.rest] using hw), (fun w rest hcur => by cases hcur), h.idle⟩
      all_goals exact (hw (by simpa [Phase.rest] using hlt)).elim
  | «return» hp' hle => exact (hp rfl).elim
  | @requestStop w rest hp' hw =>
      have hrest : ∀ v, v ≠ w → v ∉ rest.erase w → v ∉ b.phase.rest := by
        intro v hne hv hmem
        rw [hp'] at hmem
        exact hv ((List.mem_erase_of_ne hne).mpr hmem)
      have hmember : ∀ v ∈ rest, v.val < b.created := by
        have := h.members (by rw [hp']; rfl)
        rwa [hp'] at this
      refine ⟨h.empty, fun v => ?_, fun v hlt hv => ?_, fun v hlt hv hcur => ?_,
        fun _ v hv => hmember v (List.mem_of_mem_erase hv), fun v rest' hcur => ?_, ?_⟩
      · by_cases hne : v = w
        · exact hne ▸ (fresh_stop (h.fresh w)).1
        · exact (stop_other (h.fresh v) hne).1
      · show Function.update b.pool.queue.stopped w true v = true
        rw [Function.update_apply]
        split
        · rfl
        · next hne => exact h.asked v hlt (hrest v hne hv)
      · have hne : v ≠ w := fun heq => hcur _ (by rw [heq])
        exact h.joined v hlt (hrest v hne hv) (by simp [hp'])
      · cases hcur
        exact ⟨hmember w hw, Function.update_self _ _ _⟩
      · rw [startedTasks_append, h.idle]
        rfl
  | @join w rest hp' hret =>
      rw [List.append_nil]
      refine ⟨h.empty, h.fresh, fun v hlt hv => ?_, fun v hlt hv _ => ?_, fun _ => ?_,
        (fun v rest' hcur => by cases hcur), h.idle⟩
      · exact h.asked v hlt (by rw [hp']; exact hv)
      · by_cases hne : v = w
        · exact hne ▸ hret
        · refine h.joined v hlt (by rw [hp']; exact hv) fun rest' heq => ?_
          rw [hp'] at heq
          cases heq
          exact hne rfl
      · have hmember := h.members (by rw [hp']; rfl)
        rwa [hp'] at hmember
  | rethrow hp' =>
      rw [List.append_nil]
      refine ⟨h.empty, h.fresh, fun v hlt hv => ?_, fun v hlt hv _ => ?_,
        (fun _ v hv => by cases hv), (fun v rest' hcur => by cases hcur), h.idle⟩
      · exact h.asked v hlt (by rw [hp']; exact hv)
      · exact h.joined v hlt (by rw [hp']; exact hv) (by simp [hp'])

theorem unfinished_reach (hr : (construction N ι π ℓ).Reach b tr) (hp : b.phase ≠ .constructed) :
    Unfinished b tr := by
  refine hr.invariant (P := fun b tr => b.phase ≠ .constructed → Unfinished b tr)
    (fun _ => unfinished_init) ?_ hp
  intro b tr a b' es _ ih hs hp
  have hm := step_inv hs
  refine Unfinished.step (ih fun hold => ?_) hm hp
  cases hm with
  | pool hallow hs => exact hp hold
  | create hp' | throws hp' | «return» hp' | requestStop hp' | join hp' | rethrow hp' =>
      rw [hold] at hp'
      cases hp'

/-- The steps that the constructor still takes after a failure, with those of the workers. -/
def Phase.todo : Phase N → Nat
  | .unwinding rest => 6 * rest.length + 1
  | .joining _ rest => 6 * rest.length + 2
  | _ => 0

/-- The steps that lie before the workers that exist. -/
def Building.ahead (b : Building N ι π) (w : Fin N) : Nat :=
  if w.val < b.created then State.ahead b.pool w else 0

/-- The steps that lie ahead of a constructor that has failed. -/
def Building.todo (b : Building N ι π) : Nat :=
  total id b.ahead + b.phase.todo

/-- What an action adds to the steps that lie ahead, its own included. -/
def Act.cost : Act N ι π ℓ → Nat
  | .pool a => Construction.cost a
  | _ => 0

omit [DecidableEq ι] [Fintype ι] in
/-- A step that concerns one worker. -/
theorem total_ahead {c : Building N ι π} {w : Fin N} (hother : ∀ v, v ≠ w → c.ahead v = b.ahead v) :
    total id c.ahead + b.ahead w = total id b.ahead + c.ahead w := by
  have hupdate : c.ahead = Function.update b.ahead w (c.ahead w) := by
    funext v
    rw [Function.update_apply]
    split
    · next heq => rw [heq]
    · next hne => exact hother v hne
  rw [hupdate, Function.update_self]
  exact total_update id b.ahead w _

/-- After a failure, every step but a spurious wakeup lowers what lies ahead. -/
theorem todo_step {a : Act N ι π ℓ} (h : Unfinished b tr) (hthrown : b.phase.thrown = true)
    (hm : Move b a b' es) : b'.todo + 1 ≤ b.todo + a.cost := by
  have hp : b.phase ≠ .constructed := by
    intro heq
    rw [heq] at hthrown
    cases hthrown
  cases hm with
  | @pool a s _ hallow hs =>
      obtain ⟨w, hw, hal, _⟩ := h.pool hallow hp hs
      have htotal := total_ahead (b := b) (c := { b with pool := s }) (w := w) fun v hv => by
        obtain ⟨hctrl, hcall⟩ := hal.others (.inl v) (by simpa using hv)
        have hsame := (fresh_congr (h.fresh v) hctrl hcall (by rw [hal.stopped])).2
        simp only [Building.ahead, hsame]
      have hlowers := hal.lowers
      simp only [Building.ahead, if_pos hw] at htotal
      simp only [Building.todo, Act.cost]
      omega
  | create hp' | throws hp' | «return» hp' =>
      rw [hp'] at hthrown
      cases hthrown
  | @requestStop w rest hp' hw =>
      have htotal := total_ahead (b := b) (c := { b with
          pool := stop b.pool w
          phase := .joining w (rest.erase w) }) (w := w) fun v hv => by
        simp only [Building.ahead, (stop_other (h.fresh v) hv).2]
      have hstop := (fresh_stop (h.fresh w)).2
      have hlen := List.length_erase_of_mem hw
      have hpos := List.length_pos_of_mem hw
      have hahead : Building.ahead { b with
          pool := stop b.pool w
          phase := .joining w (rest.erase w) } w ≤ b.ahead w + 4 := by
        simp only [Building.ahead]
        split <;> omega
      simp only [Building.todo, hp', Phase.todo]
      omega
  | @join w rest hp' hret =>
      simp only [Building.todo, hp', Phase.todo]
      exact Nat.le_of_eq rfl
  | rethrow hp' =>
      simp only [Building.todo, hp', Phase.todo]
      exact Nat.le_of_eq rfl

omit [Fintype ι] in
theorem Phase.thrown_ne {p : Phase N} (h : p.thrown = true) : p ≠ .constructed := by
  intro heq
  rw [heq] at h
  cases h

/-- A constructor that has failed does not recover. -/
theorem thrown_step {a : Act N ι π ℓ} (hm : Move b a b' es) (hthrown : b.phase.thrown = true) :
    b'.phase.thrown = true := by
  cases hm with
  | pool hallow hs => exact hthrown
  | create hp' | «return» hp' =>
      rw [hp'] at hthrown
      cases hthrown
  | throws | requestStop | join | rethrow => rfl

/-- A constructor that has failed is stuck only when its exception has left it. -/
theorem failed_of_stuck (h : Unfinished b tr) (hthrown : b.phase.thrown = true)
    (hstuck : ∀ a : Act N ι π ℓ, a.cost = 0 → step b a = none) : b.phase = .failed := by
  cases hp : b.phase with
  | failed => rfl
  | unwinding rest =>
      cases rest with
      | nil =>
          have hnone := hstuck .rethrow rfl
          simp [step, hp] at hnone
      | cons w rest =>
          have hnone := hstuck (.requestStop w) rfl
          simp [step, hp, queueStep, BlockingMonitor.step] at hnone
  | joining w rest =>
      obtain ⟨hlt, hst⟩ := h.current w rest hp
      by_cases hret : b.pool.ctrl (.inl w) = .returned
      · have hnone := hstuck .join rfl
        simp [step, hp, hret] at hnone
      · obtain ⟨a, ha, hcost, hsome⟩ := fresh_enabled (ℓ := ℓ) (h.fresh w) hst hret
        have hnone := hstuck (.pool a) hcost
        have hallow : b.admits a = true := by simp [Building.admits, hp, ha, hlt]
        simp only [step, if_pos hallow, Option.map_eq_none_iff] at hnone
        rw [hnone] at hsome
        cases hsome
  | creating | constructed =>
      rw [hp] at hthrown
      cases hthrown

/-- What is left to happen to a constructor that has failed. -/
structure Unwinds (b : Building N ι π) (tr : List (Event N ι π ℓ)) : Prop where
  /-- No schedule takes more than `b.todo` steps, and two for each spurious wakeup. -/
  bounded : ∀ {as : List (Act N ι π ℓ)} {b' es},
    (construction N ι π ℓ).exec b as = some (b', es) →
      as.length + b'.todo ≤ b.todo + (as.map Act.cost).sum
  /-- A schedule stops when the exception has left the constructor. -/
  rethrown : ∀ {as : List (Act N ι π ℓ)} {b' es},
    (construction N ι π ℓ).exec b as = some (b', es) →
      (∀ a : Act N ι π ℓ, a.cost = 0 → step b' a = none) → b'.phase = .failed
  /-- By then every worker that was created has returned, and none has executed a task. -/
  joined : ∀ {as : List (Act N ι π ℓ)} {b' es},
    (construction N ι π ℓ).exec b as = some (b', es) → b'.phase = .failed →
      (∀ w : Fin N, w.val < b'.created → b'.pool.ctrl (.inl w) = .returned) ∧
        startedTasks (tr ++ es) = []

/--
When the creation of a thread throws, the constructor joins the workers that
exist and rethrows, although nobody has shut the queue down: the stop requests
alone wake the workers and lead them out of their loops.
-/
theorem construction_unwinds (hr : (construction N ι π ℓ).Reach b tr)
    (hthrown : b.phase.thrown = true) : Unwinds b tr where
  bounded he := by
    refine Machine.exec_amortized (M := construction N ι π ℓ) Building.todo Act.cost
      (I := fun b tr => (construction N ι π ℓ).Reach b tr ∧ b.phase.thrown = true)
      (B := fun _ => True) (fun _ _ _ => trivial) ?_ ?_ ⟨hr, hthrown⟩ he trivial
    · rintro b tr a b' es ⟨hr, hthrown⟩ hs
      exact ⟨.step hr hs, thrown_step (step_inv hs) hthrown⟩
    · rintro b tr a b' es ⟨hr, hthrown⟩ _ hs
      exact todo_step (unfinished_reach hr (Phase.thrown_ne hthrown)) hthrown (step_inv hs)
  rethrown he hstuck := by
    have hthrown' := Machine.exec_invariant (P := fun b _ => b.phase.thrown = true) he hthrown
      fun _ hthrown hs => thrown_step (step_inv hs) hthrown
    exact failed_of_stuck (unfinished_reach (hr.exec he) (Phase.thrown_ne hthrown')) hthrown'
      hstuck
  joined he hfailed := by
    have h := unfinished_reach (hr.exec he) (by rw [hfailed]; simp)
    refine ⟨fun w hw => h.joined w hw ?_ (by simp [hfailed]), h.idle⟩
    rw [hfailed]
    exact List.not_mem_nil

/-- The first of two workers is asleep when the creation of the second one throws. -/
theorem construction_unwinds_sleeper :
    ∃ (b : Building 2 Unit Nat) (tr : List (Event 2 Unit Nat Empty)),
      b.phase = .unwinding [0] ∧ (b.pool.queue.call (.inl 0)).isAsleep = true ∧ b.todo = 7 ∧
        Unwinds b tr := by
  obtain ⟨b, tr, hr, hp⟩ := Machine.exists_reach_of_exec (M := construction 2 Unit Nat Empty)
    [.create, .pool (.test 0), .pool (.advance (.inl 0)), .throws]
    (p := fun r => decide (r.1.phase = .unwinding [0] ∧
      (r.1.pool.queue.call (.inl 0)).isAsleep = true ∧ r.1.todo = 7))
    (by decide)
  obtain ⟨hphase, hasleep, htodo⟩ := of_decide_eq_true hp
  exact ⟨b, tr, hphase, hasleep, htodo, construction_unwinds hr (by rw [hphase]; rfl)⟩

end Failure

end Construction
end ThreadPool
end AsyncTaskEngine
