import AsyncTaskEngine.AsioContext
import AsyncTaskEngine.CoroTask

/-!
# Delays of a coroutine on an AsioContext

A model of `DelayAwaiter` and of `AsioContext::delay`.  The body of the coroutine
awaits `pool.schedule()` and `asio.delay(d)` in any order.  The coroutine and its
owner are those of `CoroTask`, and the phases of the context those of
`AsioContext`; a task that is neither a resumption nor the user's is the `run()` of
the context.

`await_suspend` of a delay leaves a handler with the timer, which holds nothing but
the raw handle.  When the timer expires, or reports an error, an io thread invokes
the handler, which resumes the coroutine: the io thread executes its segments up to
the next suspension.  The destruction of the `io_context` destroys the handlers that
have not been invoked, and does not call them.
-/

namespace AsyncTaskEngine
namespace ThreadPool
namespace CoroDelay

open CoroTask (Frame After OwnerPc Body)
open AsioContext (Phase Context)

universe u v w

/-- A `co_await` expression of the body. -/
inductive Await where
  | schedule
  | delay
deriving DecidableEq

/-- A coroutine and its owner. -/
structure Config (ι : Type u) (V : Type v) (E : Type w) where
  owner : ι
  /-- The `co_await` expressions before the end of the body. -/
  awaits : List Await
  /-- What the last segment returns or throws. -/
  result : Except E V
  /-- The exception of a `submit` on a pool that has been shut down. -/
  rejection : E
  /-- What is left of a moved-from value. -/
  moved : V → V

/-- Where the handler of a delay is. -/
inductive Handler (τ : Type u) where
  | absent
  /-- In `async_wait`. -/
  | timer
  /-- Ready to be invoked, with an error or not. -/
  | queued
  /-- Invoked, before `h.resume()`. -/
  | entered (t : τ)
  /-- In `h.resume()`. -/
  | resuming (t : τ)
  | done
  /-- Destroyed without an invocation. -/
  | discarded
deriving DecidableEq

/-- The steps of the coroutine and its owner, of the context, and of the timers. -/
inductive Label where
  | coro (label : CoroTask.Label)
  /-- `timer->async_wait` in the suspension with this number. -/
  | asyncWait (point : Nat)
  | expire (point : Nat)
  | invoke (point : Nat)
  | resume (point : Nat)
  | handlerEnded (point : Nat)
  | construct (ioThreads : Nat)
  | constructed
  | destroyGuard
  | destroyIoContext
  | resetGuard
  | stop
  /-- The wait for the next future returns. -/
  | waited
  | discard (point : Nat)
  | ioContextDestroyed
deriving DecidableEq

/-- The coroutine with its owner, and the context with the handlers of the delays. -/
structure Client (N : Nat) (ι : Type u) (V : Type v) (E : Type w) where
  coro : CoroTask.Client N ι V E
  context : Context (Tid N ι)
  /-- The task with this number is an `io_ctx_.run()`. -/
  runs : Nat → Bool
  /-- The future of the task with this number is ready. -/
  ready : Nat → Bool
  handlers : Nat → Handler (Tid N ι)

variable {N : Nat} {ι : Type u} {V : Type v} {E : Type w}

/-- The coroutine as a `CoroTask`, whose suspensions are not told apart. -/
def Config.task (cfg : Config ι V E) : CoroTask.Config ι V E where
  owner := cfg.owner
  hops := cfg.awaits.length
  result := cfg.result
  rejection := cfg.rejection
  moved := cfg.moved

/-- The awaiter at a suspension point; point `0` is the initial suspension. -/
def Config.await? (cfg : Config ι V E) : Nat → Option Await
  | 0 => none
  | n + 1 => cfg.awaits[n]?

/-- The thread that executes the handler. -/
def Handler.thread? {τ : Type u} : Handler τ → Option τ
  | .entered t => some t
  | .resuming t => some t
  | _ => none

/-- The handler has not been invoked. -/
def Handler.uninvoked {τ : Type u} : Handler τ → Bool
  | .timer => true
  | .queued => true
  | _ => false

/-- The handler is going to resume the coroutine, unless it is destroyed before. -/
def Handler.pending {τ : Type u} : Handler τ → Bool
  | .timer => true
  | .queued => true
  | .entered _ => true
  | _ => false

/-- `io_ctx_` has been constructed, and its destruction has not begun. -/
def usable {τ : Type u} : Phase τ → Bool
  | .alive => true
  | .stopping _ => true
  | .waiting _ _ => true
  | _ => false

/-- Move the context to another phase. -/
def Client.setPhase (k : Client N ι V E) (p : Phase (Tid N ι)) : Client N ι V E :=
  { k with context := { k.context with phase := p } }

/-- Move the handler of a delay. -/
def Client.setHandler (k : Client N ι V E) (point : Nat) (h : Handler (Tid N ι)) :
    Client N ι V E :=
  { k with handlers := Function.update k.handlers point h }

/-- Move the coroutine. -/
def Client.setFrame (k : Client N ι V E) (f : Frame (Tid N ι)) : Client N ι V E :=
  { k with coro := { k.coro with frame := f } }

section Machine

variable [DecidableEq ι] (cfg : Config ι V E)

/-- The thread is not inside the constructor or the destructor of the context. -/
def Client.outsideOwners (k : Client N ι V E) (t : Tid N ι) : Bool :=
  decide (k.context.phase.thread? ≠ some t)

/-- The thread executes no handler. -/
def Client.outsideHandlers (k : Client N ι V E) (t : Tid N ι) : Bool :=
  decide (∀ point < cfg.awaits.length + 1, (k.handlers point).thread? ≠ some t)

/-- The worker is inside `io_ctx_.run()`. -/
def Client.runsContext (k : Client N ι V E) : Ctrl Body → Bool
  | .running ⟨id, .other⟩ _ _ => k.runs id
  | _ => false

/-- The thread is executing code of the user, or of the body of the coroutine. -/
def inUserCode (k : Client N ι V E) (t : Tid N ι) (c : Ctrl Body) : Bool :=
  k.outsideOwners t &&
    if k.runsContext c then
      match k.coro.frame with
      | .running t' _ => decide (t' = t)
      | _ => false
    else CoroTask.inUserCode cfg.task k.coro t c

/-- `run()` may return. -/
def Client.mayReturn (k : Client N ι V E) : Bool :=
  k.context.phase.stopped || (!k.context.phase.guarded &&
    decide (∀ point < cfg.awaits.length + 1, (k.handlers point).uninvoked = false ∧
      (k.handlers point).thread? = none))

/-- The steps of the coroutine, of the context and of the timers that are possible. -/
def labelAllowed (k : Client N ι V E) (s : State N ι Body) (t : Tid N ι) : Label → Bool
  | .coro label => k.outsideOwners t && CoroTask.labelAllowed cfg.task k.coro s t label
  | .asyncWait point =>
      usable k.context.phase && decide (cfg.await? point = some .delay) &&
        match k.coro.frame with
        | .awaiting t' n => decide (t' = t) && decide (point = n + 1)
        | _ => false
  | .expire point => decide (k.handlers point = .timer)
  | .invoke point =>
      k.outsideHandlers cfg t && k.runsContext (s.ctrl t) && decide (k.handlers point = .queued)
  | .resume point => decide (k.handlers point = .entered t)
  | .handlerEnded point =>
      decide (k.handlers point = .resuming t) && decide (k.coro.frame.thread? ≠ some t)
  | .construct _ => inUserCode cfg k t (s.ctrl t) && decide (k.context.phase = .absent)
  | .constructed =>
      decide (k.context.phase = .constructing t ∧
        k.context.ioThreads ≤ k.context.futures.length)
  | .destroyGuard => decide (k.context.phase = .unwinding t)
  | .destroyIoContext =>
      match k.context.phase with
      | .unguarded t' => decide (t' = t)
      | .waiting t' j => decide (t' = t ∧ k.context.futures.length ≤ j)
      | _ => false
  | .resetGuard => inUserCode cfg k t (s.ctrl t) && decide (k.context.phase = .alive)
  | .stop => decide (k.context.phase = .stopping t)
  | .waited =>
      match k.context.phase with
      | .waiting t' j =>
          decide (t' = t ∧ ∃ id ∈ k.context.futures[j]?, k.ready id = true)
      | _ => false
  | .discard point =>
      decide (k.context.phase = .dying t) && (k.handlers point).uninvoked
  | .ioContextDestroyed =>
      decide (k.context.phase = .dying t ∧
        ∀ point < cfg.awaits.length + 1, (k.handlers point).uninvoked = false)

/-- The choices of the user code that are possible. -/
def allowed (k : Client N ι V E) (s : State N ι Body) : Act N ι Body Label → Bool
  | .submit t (.resume point) =>
      CoroTask.allowed cfg.task k.coro s (.submit t (.resume point)) &&
        decide (cfg.await? point = some .schedule)
  | .submit t .other =>
      inUserCode cfg k t (s.ctrl t) ||
        decide (k.context.phase = .constructing t ∧
          k.context.futures.length < k.context.ioThreads)
  | .shutdown t => inUserCode cfg k t (s.ctrl t)
  | .finish w =>
      k.outsideOwners (.inl w) &&
        if k.runsContext (s.ctrl (.inl w)) then
          k.outsideHandlers cfg (.inl w) && k.mayReturn cfg
        else CoroTask.allowed cfg.task k.coro s (.finish w)
  | .user t label => labelAllowed cfg k s t label
  | _ => true

/-- The effect of a step of the coroutine, of the context, or of a timer. -/
def observeLabel (k : Client N ι V E) (t : Tid N ι) : Label → Client N ι V E
  | .coro label => { k with coro := CoroTask.observeLabel cfg.task k.coro t label }
  | .asyncWait point => (k.setHandler point .timer).setFrame (.suspended point)
  | .expire point => k.setHandler point .queued
  | .invoke point => k.setHandler point (.entered t)
  | .resume point =>
      -- `[h](const boost::system::error_code&) { h.resume(); }`: the error is not looked at.
      (k.setHandler point (.resuming t)).setFrame (k.coro.frame.resume t)
  | .handlerEnded point => k.setHandler point .done
  | .construct ioThreads =>
      { k with context := { ioThreads := ioThreads, futures := [], phase := .constructing t } }
  | .constructed => k.setPhase .alive
  | .destroyGuard => k.setPhase (.unguarded t)
  | .destroyIoContext =>
      match k.context.phase with
      | .unguarded _ => k.setPhase .failed
      | _ => k.setPhase (.dying t)
  | .resetGuard => k.setPhase (.stopping t)
  | .stop => k.setPhase (.waiting t 0)
  | .waited =>
      match k.context.phase with
      | .waiting _ j => k.setPhase (.waiting t (j + 1))
      | _ => k
  | .discard point => k.setHandler point .discarded
  | .ioContextDestroyed => k.setPhase .destroyed

/-- How the coroutine and the context follow the events. -/
def observe (k : Client N ι V E) : Event N ι Body Label → Client N ι V E
  | .submitCalled t ⟨id, .resume point⟩ =>
      { k with coro := CoroTask.observe cfg.task k.coro (.submitCalled t ⟨id, .resume point⟩) }
  | .submitCalled t ⟨id, .other⟩ =>
      if k.context.phase = .constructing t then
        { k with runs := Function.update k.runs id true }
      else k
  | .submitReturned t ⟨id, .other⟩ =>
      if k.context.phase = .constructing t then
        { k with context := { k.context with futures := k.context.futures ++ [id] } }
      else k
  | .rejected t ⟨id, .resume point⟩ =>
      { k with coro := CoroTask.observe cfg.task k.coro (.rejected t ⟨id, .resume point⟩) }
  | .rejected t ⟨_, .other⟩ =>
      if k.context.phase = .constructing t then k.setPhase (.unwinding t) else k
  | .finished _ task => { k with ready := Function.update k.ready task.id true }
  | .user t label => observeLabel cfg k t label
  | _ => k

/-- A coroutine that has never been resumed, and no context. -/
def Client.init : Client N ι V E where
  coro := CoroTask.Client.init
  context := { ioThreads := 0, futures := [], phase := .absent }
  runs := fun _ => false
  ready := fun _ => false
  handlers := fun _ => .absent

variable [Fintype ι]

variable (N) in
/-- The pool, a coroutine with its owner, and a context. -/
def delayed : Machine (State N ι Body × Client N ι V E) (Act N ι Body Label)
    (Event N ι Body Label) :=
  (pool N ι Body Label).guard Client.init (allowed cfg) (observe cfg)

end Machine

/-- A call of `get()` has resumed the coroutine, and waits for its end or is about to. -/
def awaited : OwnerPc → Bool
  | .inside .wait => true
  | .waiting => true
  | _ => false

section Steps

variable [DecidableEq ι] {cfg : Config ι V E}

/-- The destruction of `io_ctx_` has begun. -/
def ended {τ : Type u} : Phase τ → Bool
  | .dying _ => true
  | .destroyed => true
  | _ => false

/-- How a label moves the phase of the context. -/
inductive PhaseMove (cfg : Config ι V E) (k : Client N ι V E) (t : Tid N ι) :
    Label → Phase (Tid N ι) → Prop
  | before {label : Label} {p : Phase (Tid N ι)} (hold : ended k.context.phase = false)
      (hnew : ended p = false) : PhaseMove cfg k t label p
  | die {j : Nat} (hp : k.context.phase = .waiting t j)
      (hlen : k.context.futures.length ≤ j) : PhaseMove cfg k t .destroyIoContext (.dying t)
  | destroyed (hp : k.context.phase = .dying t)
      (hnone : ∀ point < cfg.awaits.length + 1, (k.handlers point).uninvoked = false) :
      PhaseMove cfg k t .ioContextDestroyed .destroyed

/-- How a label moves the handler of a delay, apart from the start of its timer. -/
inductive HandlerMove (k : Client N ι V E) (t : Tid N ι) (point : Nat) :
    Label → Handler (Tid N ι) → Prop
  | expire (hh : k.handlers point = .timer) : HandlerMove k t point (.expire point) .queued
  | invoke (hh : k.handlers point = .queued) :
      HandlerMove k t point (.invoke point) (.entered t)
  | ended (hh : k.handlers point = .resuming t) (hoff : k.coro.frame.thread? ≠ some t) :
      HandlerMove k t point (.handlerEnded point) .done
  | discard (hp : k.context.phase = .dying t) (hh : (k.handlers point).uninvoked = true) :
      HandlerMove k t point (.discard point) .discarded

/-- What an event does to the coroutine, to the phase of the context, and to the handlers. -/
inductive Step (cfg : Config ι V E) (s : State N ι Body) (k k' : Client N ι V E) :
    Event N ι Body Label → Prop
  | quiet {e : Event N ι Body Label} (hcoro : k'.coro = k.coro)
      (hphase : k'.context.phase = k.context.phase) (hhandlers : k'.handlers = k.handlers) :
      Step cfg s k k' e
  | suspend {t : Tid N ι} {id n : Nat} (hf : k.coro.frame = .awaiting t n)
      (hawait : cfg.await? (n + 1) = some .schedule)
      (hk : k' = k.setFrame (.suspended (n + 1))) :
      Step cfg s k k' (.submitCalled t ⟨id, .resume (n + 1)⟩)
  | rejected {t : Tid N ι} {id point : Nat} {f : Frame (Tid N ι)}
      (hf : f = .rethrowing t ∨ f = .undefined) (hk : k' = k.setFrame f) :
      Step cfg s k k' (.rejected t ⟨id, .resume point⟩)
  | coro {t : Tid N ι} {label : CoroTask.Label}
      (hs : CoroTask.Step cfg.task s k.coro (.user t label) k'.coro)
      (hphase : k'.context.phase = k.context.phase) (hhandlers : k'.handlers = k.handlers) :
      Step cfg s k k' (.user t (.coro label))
  | asyncWait {t : Tid N ι} {n : Nat} (huse : usable k.context.phase = true)
      (hawait : cfg.await? (n + 1) = some .delay) (hf : k.coro.frame = .awaiting t n)
      (hk : k' = (k.setHandler (n + 1) .timer).setFrame (.suspended (n + 1))) :
      Step cfg s k k' (.user t (.asyncWait (n + 1)))
  | handler {t : Tid N ι} {label : Label} {point : Nat} {h : Handler (Tid N ι)}
      (hm : HandlerMove k t point label h) (hk : k' = k.setHandler point h) :
      Step cfg s k k' (.user t label)
  | resume {t : Tid N ι} {point : Nat} (hh : k.handlers point = .entered t)
      (hk : k' = (k.setHandler point (.resuming t)).setFrame (k.coro.frame.resume t)) :
      Step cfg s k k' (.user t (.resume point))
  | construct {t : Tid N ι} {ioThreads : Nat} (hp : k.context.phase = .absent)
      (hk : k' = { k with
        context := { ioThreads := ioThreads, futures := [], phase := .constructing t } }) :
      Step cfg s k k' (.user t (.construct ioThreads))
  | unwind {t : Tid N ι} {id : Nat} (hp : k.context.phase = .constructing t)
      (hk : k' = k.setPhase (.unwinding t)) : Step cfg s k k' (.rejected t ⟨id, .other⟩)
  | phase {t : Tid N ι} {label : Label} {p : Phase (Tid N ι)} (hm : PhaseMove cfg k t label p)
      (hk : k' = k.setPhase p) : Step cfg s k k' (.user t label)

/-- Inversion of a step of the coroutine, of the context, or of a timer. -/
theorem label_step {s : State N ι Body} {k : Client N ι V E} {t : Tid N ι} {label : Label}
    (h : labelAllowed cfg k s t label = true) :
    Step cfg s k (observeLabel cfg k t label) (.user t label) := by
  cases label with
  | coro label =>
      simp only [labelAllowed, Bool.and_eq_true] at h
      exact .coro (CoroTask.label_step h.2) rfl rfl
  | asyncWait point =>
      simp only [labelAllowed, Bool.and_eq_true, decide_eq_true_eq] at h
      obtain ⟨⟨huse, hawait⟩, hf⟩ := h
      split at hf
      · next t' n hf' =>
          simp only [Bool.and_eq_true, decide_eq_true_eq] at hf
          obtain ⟨rfl, rfl⟩ := hf
          exact .asyncWait huse hawait hf' rfl
      · cases hf
  | expire point => exact .handler (.expire (of_decide_eq_true h)) rfl
  | invoke point =>
      simp only [labelAllowed, Bool.and_eq_true, decide_eq_true_eq] at h
      exact .handler (.invoke h.2) rfl
  | resume point => exact .resume (of_decide_eq_true h) rfl
  | handlerEnded point =>
      simp only [labelAllowed, Bool.and_eq_true, decide_eq_true_eq] at h
      exact .handler (.ended h.1 h.2) rfl
  | construct ioThreads =>
      simp only [labelAllowed, Bool.and_eq_true, decide_eq_true_eq] at h
      exact .construct h.2 rfl
  | constructed =>
      obtain ⟨hp, _⟩ := of_decide_eq_true h
      exact .phase (.before (by rw [hp]; rfl) rfl) rfl
  | destroyGuard =>
      have hp := of_decide_eq_true h
      exact .phase (.before (by rw [hp]; rfl) rfl) rfl
  | destroyIoContext =>
      simp only [labelAllowed] at h
      split at h
      · next t' hp =>
          simp only [observeLabel, hp]
          exact .phase (.before (by rw [hp]; rfl) rfl) rfl
      · next t' j hp =>
          obtain ⟨rfl, hlen⟩ := of_decide_eq_true h
          simp only [observeLabel, hp]
          exact .phase (.die hp hlen) rfl
      · cases h
  | resetGuard =>
      simp only [labelAllowed, Bool.and_eq_true, decide_eq_true_eq] at h
      exact .phase (.before (by rw [h.2]; rfl) rfl) rfl
  | stop =>
      have hp := of_decide_eq_true h
      exact .phase (.before (by rw [hp]; rfl) rfl) rfl
  | waited =>
      simp only [labelAllowed] at h
      split at h
      · next t' j hp =>
          simp only [observeLabel, hp]
          exact .phase (.before (by rw [hp]; rfl) rfl) rfl
      · cases h
  | discard point =>
      simp only [labelAllowed, Bool.and_eq_true, decide_eq_true_eq] at h
      exact .handler (.discard h.1 h.2) rfl
  | ioContextDestroyed =>
      obtain ⟨hp, hnone⟩ := of_decide_eq_true h
      exact .phase (.destroyed hp hnone) rfl

/-- Inversion of an effect of the pool, as the coroutine and the context see it. -/
theorem event_step {s : State N ι Body} {k : Client N ι V E} {e : Event N ι Body Label}
    (hallow : ∀ b, e.cause = some b → allowed cfg k s b = true) :
    Step cfg s k (observe cfg k e) e := by
  cases e with
  | submitCalled t task =>
      obtain ⟨id, body⟩ := task
      cases body with
      | other =>
          simp only [observe]
          split <;> exact .quiet rfl rfl rfl
      | resume point =>
          have h := hallow _ rfl
          simp only [allowed, CoroTask.allowed, Bool.and_eq_true, decide_eq_true_eq] at h
          obtain ⟨h, hawait⟩ := h
          split at h
          · next t' n hf =>
              simp only [Bool.and_eq_true, decide_eq_true_eq] at h
              obtain ⟨rfl, rfl⟩ := h
              exact .suspend hf hawait rfl
          · cases h
  | submitReturned t task =>
      obtain ⟨id, body⟩ := task
      cases body with
      | resume point => exact .quiet rfl rfl rfl
      | other =>
          simp only [observe]
          split <;> exact .quiet rfl rfl rfl
  | rejected t task =>
      obtain ⟨id, body⟩ := task
      cases body with
      | other =>
          simp only [observe]
          split
          · next hp => exact .unwind hp rfl
          · exact .quiet rfl rfl rfl
      | resume point =>
          by_cases hf : k.coro.frame = .suspended point
          · exact .rejected (f := .rethrowing t) (.inl rfl) (by simp [observe, CoroTask.observe,
              Client.setFrame, hf])
          · exact .rejected (f := .undefined) (.inr rfl) (by simp [observe, CoroTask.observe,
              Client.setFrame, hf])
  | finished w task => exact .quiet rfl rfl rfl
  | user t label => exact label_step (hallow _ rfl)
  | _ => exact .quiet rfl rfl rfl

omit [DecidableEq ι] in
theorem call_awaited (k : CoroTask.Client N ι V E) (c : CoroTask.OwnerCall) :
    ((k.call c).frame = k.frame ∨ (k.call c).frame = k.frame.destroy) ∧
      (awaited (k.call c).owner = true → awaited k.owner = true) := by
  cases c with
  | resume i =>
      simp only [CoroTask.Client.call]
      split
      · exact ⟨.inl rfl, fun h => by cases h⟩
      · exact ⟨.inl rfl, id⟩
  | get i =>
      refine ⟨.inl rfl, fun h => ?_⟩
      simp only [CoroTask.Client.call] at h
      split at h <;> cases h
  | assign j i =>
      simp only [CoroTask.Client.call]
      split
      · exact ⟨.inl rfl, id⟩
      · split
        · exact ⟨.inl rfl, id⟩
        · split
          · exact ⟨.inr rfl, id⟩
          · exact ⟨.inl rfl, id⟩
  | destroy i =>
      simp only [CoroTask.Client.call]
      split
      · exact ⟨.inr rfl, id⟩
      · exact ⟨.inl rfl, id⟩

omit [DecidableEq ι] in
/-- A step of the coroutine or of its owner never leads to a suspension. -/
theorem coro_suspended {s : State N ι Body} {k k' : CoroTask.Client N ι V E}
    {task : CoroTask.Config ι V E} {t : Tid N ι} {label : CoroTask.Label}
    (h : CoroTask.Step task s k (.user t label) k') {point : Nat}
    (hf : k'.frame = .suspended point) :
    k.frame = .suspended point ∧ (awaited k'.owner = true → awaited k.owner = true) := by
  have hresume : ∀ {u : Tid N ι}, k.frame.resume u ≠ .suspended point := by
    intro u
    cases k.frame <;> simp [Frame.resume]
  cases h with
  | quiet he => cases he
  | resumeTask hctrl hnew => exact (hresume hf).elim
  | resumeOwner hpc => exact (hresume hf).elim
  | segment hf' hn | lastSegment hf' hn => cases hf
  | unhandledException hf' | readNull hf' hext | readPromise hf' hext | fulfil hf' => cases hf
  | @call c hpc =>
      have hdestroy : k.frame.destroy ≠ .suspended point := by
        cases k.frame <;> simp [Frame.destroy]
      obtain ⟨hframe, howner⟩ := call_awaited k c
      rcases hframe with hframe | hframe
      · exact ⟨hframe ▸ hf, howner⟩
      · exact (hdestroy (hframe ▸ hf)).elim
  | getDone hpc =>
      refine ⟨hf, fun h => ?_⟩
      dsimp only at h
      split at h <;> cases h
  | @testDone a hpc =>
      refine ⟨hf, fun h => ?_⟩
      dsimp only at hf h
      rw [hf] at h
      cases a <;> cases h
  | attach hpc => exact ⟨hf, fun h => by cases h⟩
  | @leave a hpc hoff =>
      refine ⟨hf, fun h => ?_⟩
      rw [hpc]
      cases a with
      | «return» => cases h
      | wait => rfl
  | getResult hpc | getValue hpc hsome => exact ⟨hf, fun h => by cases h⟩

end Steps

end CoroDelay
end ThreadPool
end AsyncTaskEngine
