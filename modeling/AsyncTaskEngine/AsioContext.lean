import AsyncTaskEngine.ThreadPoolClients

/-!
# AsioContext: io_contexts on the workers of a pool

A model of `asio_context.hpp`.  The constructor of an `AsioContext` submits
`io_ctx_.run()` to the pool once for each io thread; the destructor resets the work
guard, stops the `io_context`, waits for the futures of these tasks, and destroys
the `io_context`.  When `submit` throws in the constructor, the members are
destroyed and the destructor does not run.  There are any number of contexts, each
constructed and destroyed by some thread, also inside a task or a callable.

`async_after` and `post` create a promise that is shared by the call itself and by
the handler that it leaves with the `io_context`.  Of the library this model has
what the code relies on: a worker inside `run()` invokes the handlers that are
ready, each at most once; `run()` returns once its context is stopped, or when
there is no work left and nothing guards the context; the destruction of an
`io_context` destroys the handlers that have not been invoked; and a promise whose
last owner is gone is broken.
-/

namespace AsyncTaskEngine
namespace ThreadPool
namespace AsioContext

universe u v w

/-- What is submitted to the pool. -/
inductive Body where
  /-- The lambda of the constructor: `io_ctx_.run()` of this context. -/
  | run (context : Nat)
  | other
deriving DecidableEq

/-- Where an `AsioContext` stands, and in the hands of which thread. -/
inductive Phase (τ : Type u) where
  | absent
  | constructing (t : τ)
  /-- `submit` has thrown in the constructor. -/
  | unwinding (t : τ)
  /-- The same, after the destruction of `work_guard_`. -/
  | unguarded (t : τ)
  /-- The constructor has exited by the exception. -/
  | failed
  | alive
  /-- In the destructor, after `work_guard_.reset()`. -/
  | stopping (t : τ)
  /-- After `io_ctx_.stop()`, at the wait for the future with this index. -/
  | waiting (t : τ) (index : Nat)
  /-- In the destruction of `io_ctx_`. -/
  | dying (t : τ)
  | destroyed
deriving DecidableEq

/-- An `AsioContext`, with the numbers of the tasks behind `io_futures_`. -/
structure Context (τ : Type u) where
  ioThreads : Nat
  futures : List Nat
  phase : Phase τ

/-- Where the handler of an operation is. -/
inductive Handler (τ : Type u) where
  /-- In `async_wait`. -/
  | timer
  /-- Ready to be invoked, with an error or not. -/
  | queued (error : Bool)
  /-- Invoked, before the test of `ec`. -/
  | entered (t : τ) (error : Bool)
  /-- In the callable. -/
  | calling (t : τ)
  /-- The callable has returned or thrown. -/
  | called (t : τ)
  | settled (t : τ)
  /-- Destroyed, after its invocation or without. -/
  | gone
deriving DecidableEq

/-- What a future holds. -/
inductive Outcome (V : Type v) (E : Type w) where
  | value (v : V)
  | exception (e : E)
  | timerError
  | brokenPromise
deriving DecidableEq

/-- A call of `async_after` or `post`. -/
structure Operation (τ : Type u) (V : Type v) (E : Type w) where
  context : Nat
  /-- What the callable returns or throws. -/
  func : Except E V
  handler : Handler τ
  /-- The thread that is still inside the call, and owns the promise as well. -/
  caller : Option τ
  result : Option (Outcome V E)
  /-- How often the future has become ready. -/
  settlements : Nat

/-- The steps of the owners, of the callers, and of the io threads. -/
inductive Label (V : Type v) (E : Type w) where
  | construct (ioThreads : Nat)
  | constructed (context : Nat)
  | destroyGuard (context : Nat)
  | destroyIoContext (context : Nat)
  | resetGuard (context : Nat)
  | stop (context : Nat)
  /-- The wait for the next future returns. -/
  | waited (context : Nat)
  | ioContextDestroyed (context : Nat)
  | asyncAfter (context : Nat) (func : Except E V)
  | post (context : Nat) (func : Except E V)
  | callReturned (op : Nat)
  /-- The timer expires, or reports an error. -/
  | expire (op : Nat) (error : Bool)
  | invoke (op : Nat)
  | callable (op : Nat)
  | callableEnded (op : Nat)
  /-- `set_value` or `set_exception`. -/
  | settle (op : Nat)
  | dispose (op : Nat)
  | discard (op : Nat)

/-- The contexts and the operations, each numbered in the order of creation. -/
structure Client (N : Nat) (ι : Type u) (V : Type v) (E : Type w) where
  begun : Nat
  contexts : Nat → Context (Tid N ι)
  operations : List (Operation (Tid N ι) V E)
  /-- The future of the task with this number is ready. -/
  ready : Nat → Bool

variable {N : Nat} {ι : Type u} {V : Type v} {E : Type w}

/-- The thread inside the constructor or the destructor. -/
def Phase.thread? {τ : Type u} : Phase τ → Option τ
  | .constructing t => some t
  | .unwinding t => some t
  | .unguarded t => some t
  | .stopping t => some t
  | .waiting t _ => some t
  | .dying t => some t
  | _ => none

/-- The work guard is held. -/
def Phase.guarded {τ : Type u} : Phase τ → Bool
  | .constructing _ => true
  | .unwinding _ => true
  | .alive => true
  | _ => false

/-- `io_ctx_.stop()` has been called. -/
def Phase.stopped {τ : Type u} : Phase τ → Bool
  | .waiting _ _ => true
  | .dying _ => true
  | .destroyed => true
  | _ => false

/-- The thread that executes the handler. -/
def Handler.thread? {τ : Type u} : Handler τ → Option τ
  | .entered t _ => some t
  | .calling t => some t
  | .called t => some t
  | .settled t => some t
  | _ => none

/-- A handler that is ready to be invoked, with an error or not. -/
def Handler.error? {τ : Type u} : Handler τ → Option Bool
  | .queued error => some error
  | _ => none

/-- The handler has not been invoked. -/
def Handler.uninvoked {τ : Type u} : Handler τ → Bool
  | .timer => true
  | .queued _ => true
  | _ => false

/-- What the callable makes of the future. -/
def Outcome.ofExcept : Except E V → Outcome V E
  | .ok v => .value v
  | .error e => .exception e

/-- A promise that nobody owns any more is broken. -/
def Operation.released {τ : Type u} [DecidableEq τ] (o : Operation τ V E) : Operation τ V E :=
  if o.handler = .gone ∧ o.caller.isNone ∧ o.result.isNone then
    { o with result := some .brokenPromise, settlements := o.settlements + 1 }
  else o

section Released

variable {τ : Type u} [DecidableEq τ] (o : Operation τ V E)

@[simp] theorem released_context : o.released.context = o.context := by
  unfold Operation.released
  split <;> rfl

@[simp] theorem released_handler : o.released.handler = o.handler := by
  unfold Operation.released
  split <;> rfl

@[simp] theorem released_caller : o.released.caller = o.caller := by
  unfold Operation.released
  split <;> rfl

end Released

/-- The handler with its promise is destroyed. -/
def Operation.drop {τ : Type u} [DecidableEq τ] (o : Operation τ V E) : Operation τ V E :=
  { o with handler := .gone }.released

/-- `set_exception` with the error of the timer, or with the outcome of the callable. -/
def Operation.settle {τ : Type u} (o : Operation τ V E) (t : τ) : Operation τ V E :=
  let r : Outcome V E :=
    match o.handler with
    | .entered _ _ => .timerError
    | _ => .ofExcept o.func
  { o with handler := .settled t, result := some r, settlements := o.settlements + 1 }

/-- Move a context to another phase. -/
def Client.setPhase (k : Client N ι V E) (c : Nat) (p : Phase (Tid N ι)) : Client N ι V E :=
  { k with contexts := Function.update k.contexts c { k.contexts c with phase := p } }

/-- Change an operation. -/
def Client.modify (k : Client N ι V E) (i : Nat)
    (f : Operation (Tid N ι) V E → Operation (Tid N ι) V E) : Client N ι V E :=
  { k with operations := k.operations.modify i f }

/-- Begin a call of `async_after` or `post`, with its handler. -/
def Client.issue (k : Client N ι V E) (c : Nat) (func : Except E V) (h : Handler (Tid N ι))
    (t : Tid N ι) : Client N ι V E :=
  { k with
    operations := k.operations ++
      [{ context := c, func := func, handler := h, caller := some t, result := none,
         settlements := 0 }] }

section Machine

variable [DecidableEq ι]

/-- The worker is inside `run()` of the context. -/
def runsContext (s : State N ι Body) (t : Tid N ι) (c : Nat) : Bool :=
  match s.ctrl t with
  | .running ⟨_, .run c'⟩ _ _ => decide (c' = c)
  | _ => false

/-- The thread is not inside `async_after` or `post`. -/
def Client.outsideCalls (k : Client N ι V E) (t : Tid N ι) : Bool :=
  decide (∀ o ∈ k.operations, o.caller ≠ some t)

/-- The thread executes no handler. -/
def Client.outsideHandlers (k : Client N ι V E) (t : Tid N ι) : Bool :=
  decide (∀ o ∈ k.operations, o.handler.thread? ≠ some t)

/-- The thread is not inside a constructor or a destructor. -/
def Client.outsideOwners (k : Client N ι V E) (t : Tid N ι) : Bool :=
  decide (∀ c < k.begun, (k.contexts c).phase.thread? ≠ some t)

/-- The thread is executing code of the user. -/
def inUserCode (k : Client N ι V E) (s : State N ι Body) (t : Tid N ι) : Bool :=
  k.outsideCalls t && k.outsideOwners t &&
    match s.ctrl t with
    | .running ⟨_, .other⟩ _ _ => true
    | .running ⟨_, .run _⟩ _ _ => decide (∃ o ∈ k.operations, o.handler = .calling t)
    | .outside _ => true
    | _ => false

/-- A context may be used until its destruction begins; its io threads may go on. -/
def mayUse (k : Client N ι V E) (s : State N ι Body) (t : Tid N ι) (c : Nat) : Bool :=
  match (k.contexts c).phase with
  | .alive => true
  | .stopping _ => runsContext s t c
  | .waiting _ _ => runsContext s t c
  | _ => false

/-- `run()` may return. -/
def Client.mayReturn (k : Client N ι V E) (c : Nat) : Bool :=
  (k.contexts c).phase.stopped ||
    (!(k.contexts c).phase.guarded &&
      decide (∀ o ∈ k.operations, o.context = c → o.handler = .gone))

/-- The steps of owners, callers and io threads that are possible. -/
def labelAllowed (k : Client N ι V E) (s : State N ι Body) (t : Tid N ι) : Label V E → Bool
  | .construct _ => inUserCode k s t
  | .constructed c =>
      decide ((k.contexts c).phase = .constructing t ∧
        (k.contexts c).ioThreads ≤ (k.contexts c).futures.length)
  | .destroyGuard c => decide ((k.contexts c).phase = .unwinding t)
  | .destroyIoContext c =>
      match (k.contexts c).phase with
      | .unguarded t' => decide (t' = t)
      | .waiting t' j => decide (t' = t ∧ (k.contexts c).futures.length ≤ j)
      | _ => false
  | .resetGuard c =>
      inUserCode k s t && decide ((k.contexts c).phase = .alive ∧
        ∀ o ∈ k.operations, o.context = c → ∀ t' ∈ o.caller, runsContext s t' c = true)
  | .stop c => decide ((k.contexts c).phase = .stopping t)
  | .waited c =>
      match (k.contexts c).phase with
      | .waiting t' j =>
          decide (t' = t ∧ ∃ id ∈ (k.contexts c).futures[j]?, k.ready id = true)
      | _ => false
  | .ioContextDestroyed c =>
      decide ((k.contexts c).phase = .dying t ∧
        ∀ o ∈ k.operations, o.context = c → o.handler.uninvoked = false)
  | .asyncAfter c _ => inUserCode k s t && mayUse k s t c
  | .post c _ => inUserCode k s t && mayUse k s t c
  | .callReturned i => decide (∃ o ∈ k.operations[i]?, o.caller = some t)
  | .expire i _ => decide (∃ o ∈ k.operations[i]?, o.handler = .timer)
  | .invoke i =>
      k.outsideHandlers t && decide (∃ o ∈ k.operations[i]?,
        runsContext s t o.context = true ∧ o.handler.error?.isSome)
  | .callable i => decide (∃ o ∈ k.operations[i]?, o.handler = .entered t false)
  | .callableEnded i =>
      k.outsideCalls t && k.outsideOwners t &&
        decide (∃ o ∈ k.operations[i]?, o.handler = .calling t)
  | .settle i =>
      decide (∃ o ∈ k.operations[i]?, o.handler = .called t ∨ o.handler = .entered t true)
  | .dispose i => decide (∃ o ∈ k.operations[i]?, o.handler = .settled t)
  | .discard i =>
      decide (∃ o ∈ k.operations[i]?,
        o.handler.uninvoked = true ∧ (k.contexts o.context).phase = .dying t)

/-- The choices of the user code that are possible. -/
def allowed (k : Client N ι V E) (s : State N ι Body) : Act N ι Body (Label V E) → Bool
  | .submit t (.run c) =>
      decide ((k.contexts c).phase = .constructing t ∧
        (k.contexts c).futures.length < (k.contexts c).ioThreads)
  | .submit t .other => inUserCode k s t
  | .shutdown t => inUserCode k s t
  | .finish w =>
      k.outsideCalls (.inl w) && k.outsideOwners (.inl w) &&
        match s.ctrl (.inl w) with
        | .running ⟨_, .run c⟩ _ _ => k.outsideHandlers (.inl w) && k.mayReturn c
        | _ => true
  | .user t label => labelAllowed k s t label
  | _ => true

/-- The effect of a step of an owner, of a caller, or of an io thread. -/
def observeLabel (k : Client N ι V E) (t : Tid N ι) : Label V E → Client N ι V E
  | .construct ioThreads =>
      { k with
        begun := k.begun + 1
        contexts := Function.update k.contexts k.begun
          { ioThreads := ioThreads, futures := [], phase := .constructing t } }
  | .constructed c => k.setPhase c .alive
  | .destroyGuard c => k.setPhase c (.unguarded t)
  | .destroyIoContext c =>
      match (k.contexts c).phase with
      | .unguarded _ => k.setPhase c .failed
      | _ => k.setPhase c (.dying t)
  | .resetGuard c => k.setPhase c (.stopping t)
  | .stop c => k.setPhase c (.waiting t 0)
  | .waited c =>
      match (k.contexts c).phase with
      | .waiting _ j => k.setPhase c (.waiting t (j + 1))
      | _ => k
  | .ioContextDestroyed c => k.setPhase c .destroyed
  | .asyncAfter c func => k.issue c func .timer t
  | .post c func => k.issue c func (.queued false) t
  | .callReturned i => k.modify i fun o => { o with caller := none }.released
  | .expire i error => k.modify i fun o => { o with handler := .queued error }
  | .invoke i =>
      k.modify i fun o => { o with handler := .entered t (o.handler.error?.getD false) }
  | .callable i => k.modify i fun o => { o with handler := .calling t }
  | .callableEnded i => k.modify i fun o => { o with handler := .called t }
  | .settle i => k.modify i fun o => o.settle t
  | .dispose i => k.modify i Operation.drop
  | .discard i => k.modify i Operation.drop

/-- How the contexts and the operations follow the events. -/
def observe (k : Client N ι V E) : Event N ι Body (Label V E) → Client N ι V E
  | .submitReturned _ task =>
      match task.body with
      | .run c =>
          { k with
            contexts := Function.update k.contexts c
              { k.contexts c with futures := (k.contexts c).futures ++ [task.id] } }
      | .other => k
  | .rejected t task =>
      match task.body with
      | .run c => k.setPhase c (.unwinding t)
      | .other => k
  | .finished _ task => { k with ready := Function.update k.ready task.id true }
  | .user t label => observeLabel k t label
  | _ => k

/-- Nothing has been constructed. -/
def Client.init : Client N ι V E where
  begun := 0
  contexts := fun _ => { ioThreads := 0, futures := [], phase := .absent }
  operations := []
  ready := fun _ => false

variable [Fintype ι]

variable (N ι V E) in
/-- The pool and the contexts on it. -/
def asio : Machine (State N ι Body × Client N ι V E) (Act N ι Body (Label V E))
    (Event N ι Body (Label V E)) :=
  (pool N ι Body (Label V E)).guard Client.init allowed observe

end Machine

section Steps

variable [DecidableEq ι]

/-- The event concerns none of the contexts. -/
def quiet : Event N ι Body (Label V E) → Bool
  | .submitCalled _ ⟨_, .run _⟩ => false
  | .submitReturned _ ⟨_, .run _⟩ => false
  | .rejected _ ⟨_, .run _⟩ => false
  | .finished _ _ => false
  | .user _ _ => false
  | _ => true

/-- How a context moves from one phase to the next. -/
inductive PhaseMove (s : State N ι Body) (k : Client N ι V E) (t : Tid N ι) (c : Nat) :
    Label V E → Phase (Tid N ι) → Prop
  | constructed (hp : (k.contexts c).phase = .constructing t)
      (hlen : (k.contexts c).ioThreads ≤ (k.contexts c).futures.length) :
      PhaseMove s k t c (.constructed c) .alive
  | destroyGuard (hp : (k.contexts c).phase = .unwinding t) :
      PhaseMove s k t c (.destroyGuard c) (.unguarded t)
  | fail (hp : (k.contexts c).phase = .unguarded t) :
      PhaseMove s k t c (.destroyIoContext c) .failed
  | resetGuard (hp : (k.contexts c).phase = .alive) (hcode : inUserCode k s t = true)
      (hunused : ∀ o ∈ k.operations, o.context = c →
        ∀ t' ∈ o.caller, runsContext s t' c = true) :
      PhaseMove s k t c (.resetGuard c) (.stopping t)
  | stop (hp : (k.contexts c).phase = .stopping t) :
      PhaseMove s k t c (.stop c) (.waiting t 0)
  | waited {j id : Nat} (hp : (k.contexts c).phase = .waiting t j)
      (hid : (k.contexts c).futures[j]? = some id) (hready : k.ready id = true) :
      PhaseMove s k t c (.waited c) (.waiting t (j + 1))
  | destroyIoContext {j : Nat} (hp : (k.contexts c).phase = .waiting t j)
      (hlen : (k.contexts c).futures.length ≤ j) :
      PhaseMove s k t c (.destroyIoContext c) (.dying t)
  | ioContextDestroyed (hp : (k.contexts c).phase = .dying t)
      (hnone : ∀ o ∈ k.operations, o.context = c → o.handler.uninvoked = false) :
      PhaseMove s k t c (.ioContextDestroyed c) .destroyed

/-- How an operation moves on. -/
inductive OpMove (s : State N ι Body) (k : Client N ι V E) (t : Tid N ι) (i : Nat)
    (o : Operation (Tid N ι) V E) : Label V E → Operation (Tid N ι) V E → Prop
  | callReturned (hc : o.caller = some t) :
      OpMove s k t i o (.callReturned i) { o with caller := none }.released
  | expire {error : Bool} (hh : o.handler = .timer) :
      OpMove s k t i o (.expire i error) { o with handler := .queued error }
  | invoke {error : Bool} (hfree : k.outsideHandlers t = true)
      (hruns : runsContext s t o.context = true) (hh : o.handler = .queued error) :
      OpMove s k t i o (.invoke i) { o with handler := .entered t error }
  | callable (hh : o.handler = .entered t false) :
      OpMove s k t i o (.callable i) { o with handler := .calling t }
  | callableEnded (hh : o.handler = .calling t) (hcalls : k.outsideCalls t = true) :
      OpMove s k t i o (.callableEnded i) { o with handler := .called t }
  | settleCallable (hh : o.handler = .called t) :
      OpMove s k t i o (.settle i)
        { o with handler := .settled t, result := some (.ofExcept o.func),
                 settlements := o.settlements + 1 }
  | settleError (hh : o.handler = .entered t true) :
      OpMove s k t i o (.settle i)
        { o with handler := .settled t, result := some .timerError,
                 settlements := o.settlements + 1 }
  | dispose (hh : o.handler = .settled t) : OpMove s k t i o (.dispose i) o.drop
  | discard (hh : o.handler.uninvoked = true)
      (hp : (k.contexts o.context).phase = .dying t) : OpMove s k t i o (.discard i) o.drop

/-- What an event does to the contexts and the operations. -/
inductive Step (s : State N ι Body) (k : Client N ι V E) :
    Event N ι Body (Label V E) → Client N ι V E → Prop
  | quiet {e : Event N ι Body (Label V E)} (he : quiet e = true) : Step s k e k
  | submitRun {t : Tid N ι} {id c : Nat} (hp : (k.contexts c).phase = .constructing t)
      (hlen : (k.contexts c).futures.length < (k.contexts c).ioThreads) :
      Step s k (.submitCalled t ⟨id, .run c⟩) k
  | saveFuture {t : Tid N ι} {id c : Nat} :
      Step s k (.submitReturned t ⟨id, .run c⟩)
        { k with
          contexts := Function.update k.contexts c
            { k.contexts c with futures := (k.contexts c).futures ++ [id] } }
  | unwind {t : Tid N ι} {id c : Nat} :
      Step s k (.rejected t ⟨id, .run c⟩) (k.setPhase c (.unwinding t))
  | runReturns {w : Fin N} {id c : Nat} (hcalls : k.outsideCalls (.inl w) = true)
      (hfree : k.outsideHandlers (.inl w) = true) (hmay : k.mayReturn c = true) :
      Step s k (.finished w ⟨id, .run c⟩)
        { k with ready := Function.update k.ready id true }
  | taskReturns {w : Fin N} {id : Nat} (hcalls : k.outsideCalls (.inl w) = true) :
      Step s k (.finished w ⟨id, .other⟩)
        { k with ready := Function.update k.ready id true }
  | construct {t : Tid N ι} {ioThreads : Nat} (hcode : inUserCode k s t = true) :
      Step s k (.user t (.construct ioThreads))
        { k with
          begun := k.begun + 1
          contexts := Function.update k.contexts k.begun
            { ioThreads := ioThreads, futures := [], phase := .constructing t } }
  | phase {t : Tid N ι} {label : Label V E} {c : Nat} {p : Phase (Tid N ι)}
      (hm : PhaseMove s k t c label p) : Step s k (.user t label) (k.setPhase c p)
  | asyncAfter {t : Tid N ι} {c : Nat} {func : Except E V} (hcode : inUserCode k s t = true)
      (huse : mayUse k s t c = true) :
      Step s k (.user t (.asyncAfter c func)) (k.issue c func .timer t)
  | post {t : Tid N ι} {c : Nat} {func : Except E V} (hcode : inUserCode k s t = true)
      (huse : mayUse k s t c = true) :
      Step s k (.user t (.post c func)) (k.issue c func (.queued false) t)
  | operation {t : Tid N ι} {label : Label V E} {i : Nat} {o o' : Operation (Tid N ι) V E}
      (ho : k.operations[i]? = some o) (hm : OpMove s k t i o label o') :
      Step s k (.user t label) { k with operations := k.operations.set i o' }

omit [DecidableEq ι] in
/-- Changing one operation is setting it. -/
theorem modify_eq {k : Client N ι V E} {i : Nat} {o : Operation (Tid N ι) V E}
    (ho : k.operations[i]? = some o)
    (f : Operation (Tid N ι) V E → Operation (Tid N ι) V E) :
    k.modify i f = { k with operations := k.operations.set i (f o) } := by
  obtain ⟨hlt, ho'⟩ := List.getElem?_eq_some_iff.mp ho
  have hset : k.operations.modify i f = k.operations.set i (f o) := by
    refine List.ext_getElem? fun j => ?_
    rw [List.getElem?_modify, List.getElem?_set]
    by_cases hij : i = j
    · subst hij
      simp [ho', hlt]
    · simp [hij]
  rw [Client.modify, hset]

/-- Inversion of a step of an owner, of a caller, or of an io thread. -/
theorem label_step {s : State N ι Body} {k : Client N ι V E} {t : Tid N ι} {label : Label V E}
    (h : labelAllowed k s t label = true) : Step s k (.user t label) (observeLabel k t label) := by
  cases label with
  | construct ioThreads => exact .construct h
  | constructed c =>
      obtain ⟨hp, hlen⟩ := of_decide_eq_true h
      exact .phase (.constructed hp hlen)
  | destroyGuard c => exact .phase (.destroyGuard (of_decide_eq_true h))
  | destroyIoContext c =>
      simp only [labelAllowed] at h
      split at h
      · next t' hp =>
          obtain rfl := of_decide_eq_true h
          simp only [observeLabel, hp]
          exact .phase (.fail hp)
      · next t' j hp =>
          obtain ⟨rfl, hlen⟩ := of_decide_eq_true h
          simp only [observeLabel, hp]
          exact .phase (.destroyIoContext hp hlen)
      · cases h
  | resetGuard c =>
      simp only [labelAllowed, Bool.and_eq_true] at h
      obtain ⟨hcode, h⟩ := h
      obtain ⟨hp, hunused⟩ := of_decide_eq_true h
      exact .phase (.resetGuard hp hcode hunused)
  | stop c => exact .phase (.stop (of_decide_eq_true h))
  | waited c =>
      simp only [labelAllowed] at h
      split at h
      · next t' j hp =>
          obtain ⟨rfl, id, hid, hready⟩ := of_decide_eq_true h
          simp only [observeLabel, hp]
          exact .phase (.waited hp hid hready)
      · cases h
  | ioContextDestroyed c =>
      obtain ⟨hp, hnone⟩ := of_decide_eq_true h
      exact .phase (.ioContextDestroyed hp hnone)
  | asyncAfter c func =>
      simp only [labelAllowed, Bool.and_eq_true] at h
      exact .asyncAfter h.1 h.2
  | post c func =>
      simp only [labelAllowed, Bool.and_eq_true] at h
      exact .post h.1 h.2
  | callReturned i =>
      obtain ⟨o, ho, hc⟩ := of_decide_eq_true h
      rw [observeLabel, modify_eq ho]
      exact .operation ho (.callReturned hc)
  | expire i error =>
      obtain ⟨o, ho, hh⟩ := of_decide_eq_true h
      rw [observeLabel, modify_eq ho]
      exact .operation ho (.expire hh)
  | invoke i =>
      simp only [labelAllowed, Bool.and_eq_true] at h
      obtain ⟨hfree, h⟩ := h
      obtain ⟨o, ho, hruns, hsome⟩ := of_decide_eq_true h
      rw [observeLabel, modify_eq ho]
      cases hh : o.handler with
      | queued error => exact .operation ho (.invoke hfree hruns hh)
      | _ => simp [hh, Handler.error?] at hsome
  | callable i =>
      obtain ⟨o, ho, hh⟩ := of_decide_eq_true h
      rw [observeLabel, modify_eq ho]
      exact .operation ho (.callable hh)
  | callableEnded i =>
      simp only [labelAllowed, Bool.and_eq_true] at h
      obtain ⟨o, ho, hh⟩ := of_decide_eq_true h.2
      rw [observeLabel, modify_eq ho]
      exact .operation ho (.callableEnded hh h.1.1)
  | settle i =>
      obtain ⟨o, ho, hh | hh⟩ := of_decide_eq_true h
      · rw [observeLabel, modify_eq ho, Operation.settle, hh]
        exact .operation ho (.settleCallable hh)
      · rw [observeLabel, modify_eq ho, Operation.settle, hh]
        exact .operation ho (.settleError hh)
  | dispose i =>
      obtain ⟨o, ho, hh⟩ := of_decide_eq_true h
      rw [observeLabel, modify_eq ho]
      exact .operation ho (.dispose hh)
  | discard i =>
      obtain ⟨o, ho, hh, hp⟩ := of_decide_eq_true h
      rw [observeLabel, modify_eq ho]
      exact .operation ho (.discard hh hp)

/-- Inversion of an effect of the pool, as the contexts see it. -/
theorem event_step {s s' : State N ι Body} {k : Client N ι V E}
    {e : Event N ι Body (Label V E)} (heff : Effect s s' [e])
    (hallow : ∀ b, e.cause = some b → allowed k s b = true) : Step s k e (observe k e) := by
  cases e with
  | submitCalled t task =>
      obtain ⟨id, body⟩ := task
      cases body with
      | other => exact .quiet rfl
      | run c =>
          obtain ⟨hp, hlen⟩ := of_decide_eq_true (hallow _ rfl)
          exact .submitRun hp hlen
  | submitReturned t task =>
      obtain ⟨id, body⟩ := task
      cases body with
      | other => exact .quiet rfl
      | run c => exact .saveFuture
  | rejected t task =>
      obtain ⟨id, body⟩ := task
      cases body with
      | other => exact .quiet rfl
      | run c => exact .unwind
  | finished w task =>
      obtain ⟨id, body⟩ := task
      have h := hallow _ rfl
      cases heff with
      | finished hw =>
          simp only [allowed, hw, Bool.and_eq_true] at h
          cases body with
          | other => exact .taskReturns h.1.1
          | run c =>
              obtain ⟨hfree, hmay⟩ := (Bool.and_eq_true _ _).mp h.2
              exact .runReturns h.1.1 hfree hmay
  | user t label => exact label_step (hallow _ rfl)
  | _ => exact .quiet rfl

omit [DecidableEq ι] in
theorem setPhase_phase (k : Client N ι V E) (c c' : Nat) (p : Phase (Tid N ι)) :
    ((k.setPhase c p).contexts c').phase = if c' = c then p else (k.contexts c').phase := by
  simp only [Client.setPhase, Function.update_apply]
  split <;> rfl

omit [DecidableEq ι] in
@[simp] theorem setPhase_futures (k : Client N ι V E) (c c' : Nat) (p : Phase (Tid N ι)) :
    ((k.setPhase c p).contexts c').futures = (k.contexts c').futures := by
  simp only [Client.setPhase, Function.update_apply]
  split
  · next h => rw [h]
  · rfl

/-- How the phase of a context can change. -/
inductive PhaseChange (s : State N ι Body) (k : Client N ι V E) (c : Nat) :
    Event N ι Body (Label V E) → Phase (Tid N ι) → Prop
  | construct {t : Tid N ι} {ioThreads : Nat} (hc : c = k.begun) :
      PhaseChange s k c (.user t (.construct ioThreads)) (.constructing t)
  | unwind {t : Tid N ι} {id : Nat} :
      PhaseChange s k c (.rejected t ⟨id, .run c⟩) (.unwinding t)
  | move {t : Tid N ι} {label : Label V E} {p : Phase (Tid N ι)}
      (hm : PhaseMove s k t c label p) : PhaseChange s k c (.user t label) p

section Inversion

variable {s : State N ι Body} {k k' : Client N ι V E} {e : Event N ι Body (Label V E)}

theorem Step.phase_inv (h : Step s k e k') (c : Nat) :
    (k'.contexts c).phase = (k.contexts c).phase ∨
      ∃ p, (k'.contexts c).phase = p ∧ PhaseChange s k c e p := by
  cases h with
  | @saveFuture t id c' =>
      refine .inl ?_
      dsimp only
      rw [Function.update_apply]
      split
      · next hc => rw [hc]
      · rfl
  | @unwind t id c' =>
      rw [setPhase_phase]
      split
      · next hc =>
          subst hc
          exact .inr ⟨_, rfl, .unwind⟩
      · exact .inl rfl
  | construct hcode =>
      dsimp only
      rw [Function.update_apply]
      split
      · next hc => exact .inr ⟨_, rfl, .construct hc⟩
      · exact .inl rfl
  | @phase t label c' p hm =>
      rw [setPhase_phase]
      split
      · next hc =>
          subst hc
          exact .inr ⟨_, rfl, .move hm⟩
      · exact .inl rfl
  | _ => exact .inl rfl

theorem Step.begun_inv (h : Step s k e k') :
    k'.begun = k.begun ∨
      k'.begun = k.begun + 1 ∧ ∃ t ioThreads, e = .user t (.construct ioThreads) := by
  cases h with
  | construct hcode => exact .inr ⟨rfl, _, _, rfl⟩
  | _ => exact .inl rfl

/-- The futures are those of the `submit` calls that have returned. -/
theorem Step.futures_inv (h : Step s k e k') (c : Nat) :
    (k'.contexts c).futures = (k.contexts c).futures ∨
      (∃ t id, e = .submitReturned t ⟨id, .run c⟩ ∧
        (k'.contexts c).futures = (k.contexts c).futures ++ [id]) ∨
      (c = k.begun ∧ (k'.contexts c).futures = []) := by
  cases h with
  | @saveFuture t id c' =>
      dsimp only
      rw [Function.update_apply]
      split
      · next hc =>
          subst hc
          exact .inr (.inl ⟨t, id, rfl, rfl⟩)
      · exact .inl rfl
  | construct hcode =>
      dsimp only
      rw [Function.update_apply]
      split
      · next hc => exact .inr (.inr ⟨hc, rfl⟩)
      · exact .inl rfl
  | unwind => exact .inl (setPhase_futures k _ c _)
  | phase hm => exact .inl (setPhase_futures k _ c _)
  | _ => exact .inl rfl

/-- The operation that a step is about. -/
def Label.op? : Label V E → Option Nat
  | .callReturned i => some i
  | .expire i _ => some i
  | .invoke i => some i
  | .callable i => some i
  | .callableEnded i => some i
  | .settle i => some i
  | .dispose i => some i
  | .discard i => some i
  | _ => none

/-- How the operation with this number comes to what it is after a step. -/
inductive OpChange (s : State N ι Body) (k : Client N ι V E) (i : Nat) :
    Event N ι Body (Label V E) → Operation (Tid N ι) V E → Prop
  | keep {e : Event N ι Body (Label V E)} {o : Operation (Tid N ι) V E}
      (ho : k.operations[i]? = some o)
      (he : ∀ t label, e = .user t label → label.op? ≠ some i) : OpChange s k i e o
  | issue {t : Tid N ι} {label : Label V E} {c : Nat} {func : Except E V}
      {h : Handler (Tid N ι)} (hlabel : label = .asyncAfter c func ∨ label = .post c func)
      (hh : h = .timer ∨ h = .queued false) (hi : i = k.operations.length)
      (huse : mayUse k s t c = true) :
      OpChange s k i (.user t label)
        { context := c, func := func, handler := h, caller := some t, result := none,
          settlements := 0 }
  | move {t : Tid N ι} {label : Label V E} {o o' : Operation (Tid N ι) V E}
      (ho : k.operations[i]? = some o) (hm : OpMove s k t i o label o') :
      OpChange s k i (.user t label) o'

theorem Step.operation_inv (h : Step s k e k') {i : Nat} {o : Operation (Tid N ι) V E}
    (ho : k'.operations[i]? = some o) : OpChange s k i e o := by
  have hnew : ∀ {t : Tid N ι} {label : Label V E} {c : Nat} {func : Except E V}
      {h : Handler (Tid N ι)}, label = .asyncAfter c func ∨ label = .post c func →
        (h = .timer ∨ h = .queued false) → mayUse k s t c = true →
          (k.issue c func h t).operations[i]? = some o → OpChange s k i (.user t label) o := by
    intro t label c func h hlabel hh huse ho
    rw [Client.issue, List.getElem?_append] at ho
    split at ho
    · refine .keep ho fun t' label' he => ?_
      cases he
      rcases hlabel with rfl | rfl <;> simp [Label.op?]
    · next hlt =>
        rw [List.getElem?_singleton] at ho
        split at ho
        · cases ho
          exact .issue hlabel hh (by omega) huse
        · cases ho
  cases h with
  | quiet he => exact .keep ho fun t label h => by subst h; cases he
  | asyncAfter hcode huse => exact hnew (.inl rfl) (.inl rfl) huse ho
  | post hcode huse => exact hnew (.inr rfl) (.inr rfl) huse ho
  | construct hcode => exact .keep ho fun t label h => by cases h; simp [Label.op?]
  | phase hm => exact .keep ho fun t label h => by cases h; cases hm <;> simp [Label.op?]
  | @operation t label j oj oj' hoj hm =>
      rw [List.getElem?_set] at ho
      split at ho
      · next hji =>
          subst hji
          split at ho
          · cases ho
            exact .move hoj hm
          · cases ho
      · next hji =>
          refine .keep ho fun t' label' h => ?_
          cases h
          cases hm <;> simpa [Label.op?] using hji
  | _ => exact .keep ho fun t label h => by cases h

end Inversion

variable [Fintype ι]

/-- The invariant rule for contexts on the pool. -/
theorem asio_induction
    {D : Client N ι V E → List (Event N ι Body (Label V E)) → Tid N ι → Label V E → Prop}
    {P : State N ι Body → Client N ι V E → List (Event N ι Body (Label V E)) → Prop}
    {q : State N ι Body × Client N ι V E} {tr : List (Event N ι Body (Label V E))}
    (hr : (asio N ι V E).ReachWhen (UserWhen D) q tr)
    (h0 : P (pool N ι Body (Label V E)).init Client.init [])
    (hstep : ∀ {s s' k k' tr es}, (pool N ι Body (Label V E)).Reach s tr → P s k tr →
      Joint Step D s s' k k' tr es → P s' k' (tr ++ es)) : P q.1 q.2 tr :=
  client_induction (R := Step) (P := P) (fun heff hallow => event_step heff hallow) hr h0 hstep

end Steps

end AsioContext
end ThreadPool
end AsyncTaskEngine
