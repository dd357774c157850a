import AsyncTaskEngine.ThreadPoolClients

/-!
# CoroTask: a coroutine between its owner and the pool

A model of `coro_task.hpp`.  The body of the coroutine is a sequence of segments
separated by `co_await pool.schedule()`; the segment that ends it returns a value
or throws.  The frame says where the coroutine stands, and which thread executes
it.  `await_suspend` submits a task that resumes the frame: the coroutine is
suspended from the call of `submit` on, and when `submit` throws, the exception
is rethrown inside the coroutine.

The owner is a thread outside the pool.  It calls `resume`, `get`, move
assignment and the destructor on its `CoroTask` objects, one of which holds the
handle.  The test of `done()`, the attachment of the promise, the resumption, and
each step of the final awaiter are steps of their own.  Resuming a coroutine that
is not suspended, or destroying the frame under a thread that executes it, is
undefined behaviour; nothing is said about the frame afterwards.
-/

namespace AsyncTaskEngine
namespace ThreadPool
namespace CoroTask

universe u v w

/-- A coroutine and its owner. -/
structure Config (ι : Type u) (V : Type v) (E : Type w) where
  owner : ι
  /-- The number of `co_await` expressions before the end of the body. -/
  hops : Nat
  /-- What the last segment returns or throws. -/
  result : Except E V
  /-- The exception of a `submit` on a pool that has been shut down. -/
  rejection : E
  /-- What is left of a moved-from value. -/
  moved : V → V

/-- What is submitted to the pool. -/
inductive Body where
  /-- The lambda of `await_suspend`, from the suspension point with this number. -/
  | resume (point : Nat)
  | other
deriving DecidableEq

/-- Where the coroutine stands; point `0` is its initial suspension. -/
inductive Frame (τ : Type u) where
  | suspended (point : Nat)
  | running (t : τ) (segment : Nat)
  /-- In `co_await`, before the call of `submit`. -/
  | awaiting (t : τ) (segment : Nat)
  /-- The exception of `submit` has been rethrown in the coroutine. -/
  | rethrowing (t : τ)
  /-- At the final suspension, before the awaiter reads the pointer to the promise. -/
  | final (t : τ)
  | fulfilling (t : τ)
  /-- At the final suspension, after its awaiter. -/
  | finished
  | destroyed
  | undefined
deriving DecidableEq

/-- What follows `resume()`: its return to the caller, or the rest of `get()`. -/
inductive After where
  | return
  | wait
deriving DecidableEq

/-- Where the owner stands. -/
inductive OwnerPc where
  | idle
  /-- In `get()`, before the test of `done()`. -/
  | getDone
  | getResult
  | attach
  /-- In `resume()`, before the test of `done()`. -/
  | testDone (k : After)
  | resume (k : After)
  | inside (k : After)
  /-- In `fut.get()`. -/
  | waiting
  /-- After a call of `get()` on an object without a handle. -/
  | crashed
deriving DecidableEq

/-- The calls of the owner, with the objects that they are made on. -/
inductive OwnerCall where
  | resume (i : Nat)
  | get (i : Nat)
  /-- `j = std::move(i)`. -/
  | assign (j i : Nat)
  | destroy (i : Nat)
deriving DecidableEq

/-- The steps of the owner, and those of the threads that execute the coroutine. -/
inductive Label where
  | call (c : OwnerCall)
  | test
  | attach
  /-- The handle is resumed, by a task or by the owner, at a suspension point or not. -/
  | resume (task : Option Nat) (point : Option Nat)
  | segment (n : Nat)
  | unhandledException
  | readPromise
  | fulfil
  | leave
  | getReturned
deriving DecidableEq

/-- The coroutine, its promise object, and its owner. -/
structure Client (N : Nat) (ι : Type u) (V : Type v) (E : Type w) where
  frame : Frame (Tid N ι)
  /-- `result_` or `exception_`. -/
  stored : Option (Except E V)
  /-- `external_promise_` has been set. -/
  external : Bool
  /-- The shared state of the promise in `get()`. -/
  promise : Option (Except E V)
  /-- The object that holds the handle. -/
  holder : Option Nat
  owner : OwnerPc
  /-- The task with this number has called `h.resume()`. -/
  resumed : Nat → Bool

variable {N : Nat} {ι : Type u} {V : Type v} {E : Type w}

/-- `handle_.done()`. -/
def Frame.done {τ : Type u} : Frame τ → Bool
  | .final _ => true
  | .fulfilling _ => true
  | .finished => true
  | _ => false

/-- The suspension point at which the coroutine can be resumed. -/
def Frame.point? {τ : Type u} : Frame τ → Option Nat
  | .suspended point => some point
  | _ => none

/-- The thread that executes the coroutine. -/
def Frame.thread? {τ : Type u} : Frame τ → Option τ
  | .running t _ => some t
  | .awaiting t _ => some t
  | .rethrowing t => some t
  | .final t => some t
  | .fulfilling t => some t
  | _ => none

/-- `handle_.resume()`. -/
def Frame.resume {τ : Type u} (t : τ) : Frame τ → Frame τ
  | .suspended point => .running t point
  | _ => .undefined

/-- `handle_.destroy()`. -/
def Frame.destroy {τ : Type u} : Frame τ → Frame τ
  | .suspended _ => .destroyed
  | .finished => .destroyed
  | _ => .undefined

/-- Where the owner is after `resume()`. -/
def After.pc : After → OwnerPc
  | .return => .idle
  | .wait => .waiting

/-- Destroy the frame that an object holds. -/
def Client.destroyFrame (k : Client N ι V E) : Client N ι V E :=
  { k with frame := k.frame.destroy, holder := none }

/-- The entry into a call of the owner. -/
def Client.call (k : Client N ι V E) : OwnerCall → Client N ι V E
  | .resume i => if k.holder = some i then { k with owner := .testDone .return } else k
  | .get i => { k with owner := if k.holder = some i then .getDone else .crashed }
  | .assign j i =>
      if i = j then k
      else if k.holder = some i then { k with holder := some j }
      else if k.holder = some j then k.destroyFrame
      else k
  | .destroy i => if k.holder = some i then k.destroyFrame else k

section Machine

variable [DecidableEq ι] (cfg : Config ι V E)

/-- The thread is executing code of the user, or of the body of the coroutine. -/
def inUserCode (k : Client N ι V E) (t : Tid N ι) : Ctrl Body → Bool
  | .running ⟨_, .other⟩ _ _ => true
  | .running ⟨_, .resume _⟩ _ _ =>
      match k.frame with
      | .running t' _ => decide (t' = t)
      | _ => false
  | .outside _ =>
      decide (t ≠ .inr cfg.owner) || decide (k.owner = .idle) ||
        match k.frame with
        | .running t' _ => decide (t' = t)
        | _ => false
  | _ => false

/-- The steps of the owner and of the coroutine that are possible. -/
def labelAllowed (k : Client N ι V E) (s : State N ι Body) (t : Tid N ι) : Label → Bool
  | .call _ => decide (t = .inr cfg.owner) && decide (k.owner = .idle)
  | .test =>
      decide (t = .inr cfg.owner) &&
        match k.owner with
        | .getDone => true
        | .testDone _ => true
        | _ => false
  | .attach => decide (t = .inr cfg.owner) && decide (k.owner = .attach)
  | .resume none point =>
      decide (t = .inr cfg.owner) && decide (point = k.frame.point?) &&
        match k.owner with
        | .resume _ => true
        | _ => false
  | .resume (some id) point =>
      decide (point = k.frame.point?) &&
        match s.ctrl t with
        | .running ⟨id', .resume _⟩ _ _ => decide (id' = id) && !k.resumed id
        | _ => false
  | .segment n => decide (k.frame = .running t n)
  | .unhandledException => decide (k.frame = .rethrowing t)
  | .readPromise => decide (k.frame = .final t)
  | .fulfil => decide (k.frame = .fulfilling t)
  | .leave =>
      decide (t = .inr cfg.owner) && decide (k.frame.thread? ≠ some t) &&
        match k.owner with
        | .inside _ => true
        | _ => false
  | .getReturned =>
      decide (t = .inr cfg.owner) &&
        match k.owner with
        | .getResult => true
        | .waiting => k.promise.isSome
        | _ => false

/-- The choices of the user code that are possible. -/
def allowed (k : Client N ι V E) (s : State N ι Body) : Act N ι Body Label → Bool
  | .submit t (.resume point) =>
      match k.frame with
      | .awaiting t' n => decide (t' = t) && decide (point = n + 1)
      | _ => false
  | .submit t .other => inUserCode cfg k t (s.ctrl t)
  | .shutdown t => inUserCode cfg k t (s.ctrl t)
  | .finish w =>
      match s.ctrl (.inl w) with
      | .running ⟨_, .other⟩ _ _ => true
      | .running ⟨id, .resume _⟩ _ _ =>
          k.resumed id && decide (k.frame.thread? ≠ some (.inl w))
      | _ => false
  | .user t label => labelAllowed cfg k s t label
  | _ => true

/-- The effect of a step of the owner or of the coroutine. -/
def observeLabel (k : Client N ι V E) (t : Tid N ι) : Label → Client N ι V E
  | .call c => k.call c
  | .test =>
      match k.owner with
      | .getDone => { k with owner := if k.frame.done then .getResult else .attach }
      | .testDone a => { k with owner := if k.frame.done then a.pc else .resume a }
      | _ => k
  | .attach => { k with external := true, promise := none, owner := .testDone .wait }
  | .resume none _ =>
      match k.owner with
      | .resume a => { k with frame := k.frame.resume t, owner := .inside a }
      | _ => k
  | .resume (some id) _ =>
      { k with frame := k.frame.resume t, resumed := Function.update k.resumed id true }
  | .segment n =>
      if n < cfg.hops then { k with frame := .awaiting t n }
      else { k with frame := .final t, stored := some cfg.result }
  | .unhandledException => { k with frame := .final t, stored := some (.error cfg.rejection) }
  | .readPromise => { k with frame := if k.external then .fulfilling t else .finished }
  | .fulfil =>
      { k with
        frame := .finished
        promise := k.stored
        stored := k.stored.map fun r => r.map cfg.moved }
  | .leave =>
      match k.owner with
      | .inside a => { k with owner := a.pc }
      | _ => k
  | .getReturned =>
      match k.owner with
      | .getResult =>
          { k with owner := .idle, stored := k.stored.map fun r => r.map cfg.moved }
      | _ => { k with owner := .idle }

/-- How the coroutine and its owner follow the events. -/
def observe (k : Client N ι V E) : Event N ι Body Label → Client N ι V E
  | .submitCalled _ task =>
      match task.body with
      | .resume point => { k with frame := .suspended point }
      | .other => k
  | .rejected t task =>
      match task.body with
      | .resume point =>
          { k with frame := if k.frame = .suspended point then .rethrowing t else .undefined }
      | .other => k
  | .user t label => observeLabel cfg k t label
  | _ => k

/-- A coroutine that has never been resumed, held by the object `0`. -/
def Client.init : Client N ι V E where
  frame := .suspended 0
  stored := none
  external := false
  promise := none
  holder := some 0
  owner := .idle
  resumed := fun _ => false

variable [Fintype ι]

variable (N) in
/-- The pool, a coroutine and its owner. -/
def coro : Machine (State N ι Body × Client N ι V E) (Act N ι Body Label)
    (Event N ι Body Label) :=
  (pool N ι Body Label).guard Client.init (allowed cfg) (observe cfg)

end Machine

section Steps

variable [DecidableEq ι] {cfg : Config ι V E}

/-- The event concerns neither the coroutine nor its owner. -/
def quiet : Event N ι Body Label → Bool
  | .submitCalled _ ⟨_, .resume _⟩ => false
  | .rejected _ ⟨_, .resume _⟩ => false
  | .finished _ ⟨_, .resume _⟩ => false
  | .user _ _ => false
  | _ => true

/-- What an event does to the coroutine and its owner. -/
inductive Step (cfg : Config ι V E) (s : State N ι Body) (k : Client N ι V E) :
    Event N ι Body Label → Client N ι V E → Prop
  | quiet {e : Event N ι Body Label} (he : quiet e = true) : Step cfg s k e k
  | suspend {t : Tid N ι} {id n : Nat} (hf : k.frame = .awaiting t n) :
      Step cfg s k (.submitCalled t ⟨id, .resume (n + 1)⟩)
        { k with frame := .suspended (n + 1) }
  | rethrow {t : Tid N ι} {id point : Nat} (hf : k.frame = .suspended point) :
      Step cfg s k (.rejected t ⟨id, .resume point⟩) { k with frame := .rethrowing t }
  | rejectedLate {t : Tid N ι} {id point : Nat} (hf : k.frame ≠ .suspended point) :
      Step cfg s k (.rejected t ⟨id, .resume point⟩) { k with frame := .undefined }
  | taskDone {w : Fin N} {id point : Nat} (hres : k.resumed id = true)
      (hoff : k.frame.thread? ≠ some (.inl w)) :
      Step cfg s k (.finished w ⟨id, .resume point⟩) k
  | resumeTask {t : Tid N ι} {id point : Nat} {drained : Bool} {u : UserPc Body}
      (hctrl : s.ctrl t = .running ⟨id, .resume point⟩ drained u)
      (hnew : k.resumed id = false) :
      Step cfg s k (.user t (.resume (some id) k.frame.point?))
        { k with frame := k.frame.resume t, resumed := Function.update k.resumed id true }
  | resumeOwner {a : After} (hpc : k.owner = .resume a) :
      Step cfg s k (.user (.inr cfg.owner) (.resume none k.frame.point?))
        { k with frame := k.frame.resume (.inr cfg.owner), owner := .inside a }
  | segment {t : Tid N ι} {n : Nat} (hf : k.frame = .running t n) (hn : n < cfg.hops) :
      Step cfg s k (.user t (.segment n)) { k with frame := .awaiting t n }
  | lastSegment {t : Tid N ι} {n : Nat} (hf : k.frame = .running t n)
      (hn : ¬ n < cfg.hops) :
      Step cfg s k (.user t (.segment n))
        { k with frame := .final t, stored := some cfg.result }
  | unhandledException {t : Tid N ι} (hf : k.frame = .rethrowing t) :
      Step cfg s k (.user t .unhandledException)
        { k with frame := .final t, stored := some (.error cfg.rejection) }
  | readNull {t : Tid N ι} (hf : k.frame = .final t) (hext : k.external = false) :
      Step cfg s k (.user t .readPromise) { k with frame := .finished }
  | readPromise {t : Tid N ι} (hf : k.frame = .final t) (hext : k.external = true) :
      Step cfg s k (.user t .readPromise) { k with frame := .fulfilling t }
  | fulfil {t : Tid N ι} (hf : k.frame = .fulfilling t) :
      Step cfg s k (.user t .fulfil)
        { k with
          frame := .finished
          promise := k.stored
          stored := k.stored.map fun r => r.map cfg.moved }
  | call {c : OwnerCall} (hpc : k.owner = .idle) :
      Step cfg s k (.user (.inr cfg.owner) (.call c)) (k.call c)
  | getDone (hpc : k.owner = .getDone) :
      Step cfg s k (.user (.inr cfg.owner) .test)
        { k with owner := if k.frame.done then .getResult else .attach }
  | testDone {a : After} (hpc : k.owner = .testDone a) :
      Step cfg s k (.user (.inr cfg.owner) .test)
        { k with owner := if k.frame.done then a.pc else .resume a }
  | attach (hpc : k.owner = .attach) :
      Step cfg s k (.user (.inr cfg.owner) .attach)
        { k with external := true, promise := none, owner := .testDone .wait }
  | leave {a : After} (hpc : k.owner = .inside a)
      (hoff : k.frame.thread? ≠ some (.inr cfg.owner)) :
      Step cfg s k (.user (.inr cfg.owner) .leave) { k with owner := a.pc }
  | getResult (hpc : k.owner = .getResult) :
      Step cfg s k (.user (.inr cfg.owner) .getReturned)
        { k with owner := .idle, stored := k.stored.map fun r => r.map cfg.moved }
  | getValue (hpc : k.owner = .waiting) (hsome : k.promise.isSome = true) :
      Step cfg s k (.user (.inr cfg.owner) .getReturned) { k with owner := .idle }

/-- Inversion of a step of the owner or of the coroutine. -/
theorem label_step {s : State N ι Body} {k : Client N ι V E} {t : Tid N ι} {label : Label}
    (h : labelAllowed cfg k s t label = true) :
    Step cfg s k (.user t label) (observeLabel cfg k t label) := by
  cases label with
  | call c =>
      simp only [labelAllowed, Bool.and_eq_true, decide_eq_true_eq] at h
      obtain ⟨rfl, hpc⟩ := h
      exact .call hpc
  | test =>
      simp only [labelAllowed, Bool.and_eq_true, decide_eq_true_eq] at h
      obtain ⟨rfl, hpc⟩ := h
      split at hpc
      · next ho =>
          simp only [observeLabel, ho]
          exact .getDone ho
      · next a ho =>
          simp only [observeLabel, ho]
          exact .testDone ho
      · cases hpc
  | attach =>
      simp only [labelAllowed, Bool.and_eq_true, decide_eq_true_eq] at h
      obtain ⟨rfl, hpc⟩ := h
      exact .attach hpc
  | resume task point =>
      cases task with
      | none =>
          simp only [labelAllowed, Bool.and_eq_true, decide_eq_true_eq] at h
          obtain ⟨⟨rfl, rfl⟩, hpc⟩ := h
          split at hpc
          · next a ho =>
              simp only [observeLabel, ho]
              exact .resumeOwner ho
          · cases hpc
      | some id =>
          simp only [labelAllowed, Bool.and_eq_true, decide_eq_true_eq] at h
          obtain ⟨rfl, hpc⟩ := h
          split at hpc
          · next id' p drained u hc =>
              simp only [Bool.and_eq_true, decide_eq_true_eq, Bool.not_eq_true'] at hpc
              obtain ⟨rfl, hnew⟩ := hpc
              exact .resumeTask hc hnew
          · cases hpc
  | segment n =>
      have hf : k.frame = .running t n := by simpa [labelAllowed] using h
      by_cases hn : n < cfg.hops
      · simp only [observeLabel, hn, if_true]
        exact .segment hf hn
      · simp only [observeLabel, hn, if_false]
        exact .lastSegment hf hn
  | unhandledException => exact .unhandledException (by simpa [labelAllowed] using h)
  | readPromise =>
      have hf : k.frame = .final t := by simpa [labelAllowed] using h
      by_cases hext : k.external = true
      · simp only [observeLabel, if_pos hext]
        exact .readPromise hf hext
      · simp only [observeLabel, if_neg hext]
        exact .readNull hf (by simpa using hext)
  | fulfil => exact .fulfil (by simpa [labelAllowed] using h)
  | leave =>
      simp only [labelAllowed, Bool.and_eq_true, decide_eq_true_eq] at h
      obtain ⟨⟨rfl, hoff⟩, hpc⟩ := h
      split at hpc
      · next a ho =>
          simp only [observeLabel, ho]
          exact .leave ho hoff
      · cases hpc
  | getReturned =>
      simp only [labelAllowed, Bool.and_eq_true, decide_eq_true_eq] at h
      obtain ⟨rfl, hpc⟩ := h
      split at hpc
      · next ho =>
          simp only [observeLabel, ho]
          exact .getResult ho
      · next ho =>
          simp only [observeLabel, ho]
          exact .getValue ho hpc
      · cases hpc

/-- Inversion of an effect of the pool, as the coroutine and its owner see it. -/
theorem event_step {s s' : State N ι Body} {k : Client N ι V E} {e : Event N ι Body Label}
    (heff : Effect s s' [e]) (hallow : ∀ b, e.cause = some b → allowed cfg k s b = true) :
    Step cfg s k e (observe cfg k e) := by
  cases e with
  | submitCalled t task =>
      obtain ⟨id, body⟩ := task
      cases body with
      | other => exact .quiet rfl
      | resume point =>
          have h := hallow _ rfl
          simp only [allowed] at h
          split at h
          · next t' n hf =>
              simp only [Bool.and_eq_true, decide_eq_true_eq] at h
              obtain ⟨rfl, rfl⟩ := h
              exact .suspend hf
          · cases h
  | rejected t task =>
      obtain ⟨id, body⟩ := task
      cases body with
      | other => exact .quiet rfl
      | resume point =>
          by_cases hf : k.frame = .suspended point
          · simp only [observe, hf, if_true]
            exact .rethrow hf
          · simp only [observe, hf, if_false]
            exact .rejectedLate hf
  | finished w task =>
      obtain ⟨id, body⟩ := task
      cases body with
      | other => exact .quiet rfl
      | resume point =>
          have h := hallow _ rfl
          cases heff with
          | finished hw =>
              simp only [allowed, hw, Bool.and_eq_true, decide_eq_true_eq] at h
              exact .taskDone h.1 h.2
  | user t label => exact label_step (hallow _ rfl)
  | _ => exact .quiet rfl

end Steps

section Runs

variable [DecidableEq ι] [Fintype ι] {cfg : Config ι V E}

/-- The invariant rule for a coroutine on the pool. -/
theorem coro_induction
    {D : Client N ι V E → List (Event N ι Body Label) → Tid N ι → Label → Prop}
    {P : State N ι Body → Client N ι V E → List (Event N ι Body Label) → Prop}
    {q : State N ι Body × Client N ι V E} {tr : List (Event N ι Body Label)}
    (hr : (coro N cfg).ReachWhen (UserWhen D) q tr)
    (h0 : P (pool N ι Body Label).init Client.init [])
    (hstep : ∀ {s s' k k' tr es}, (pool N ι Body Label).Reach s tr → P s k tr →
      Joint (Step cfg) D s s' k k' tr es → P s' k' (tr ++ es)) : P q.1 q.2 tr :=
  client_induction (R := Step cfg) (P := P) (fun heff hallow => event_step heff hallow) hr h0 hstep

end Runs

end CoroTask
end ThreadPool
end AsyncTaskEngine
