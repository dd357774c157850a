import AsyncTaskEngine.Machine
import AsyncTaskEngine.ThreadTotal

/-!
# Blocking containers: a mutex, a condition variable and stop tokens

A blocking container protects its contents by a mutex and lets consumers sleep
in a condition variable.  `Sections` lists what the container does while it
holds the mutex; everything else is common to all such containers and is
modelled here:

* a push notifies one waiter after it has released the mutex, a shutdown
  notifies all of them;
* `wait(lock, token, predicate)` evaluates the predicate under the mutex and
  returns when it holds or when a stop is requested on its token; otherwise it
  releases the mutex and falls asleep in one step;
* a sleeper is woken by a notification, by a stop request on its token, or
  spuriously, and then has to reacquire the mutex and evaluate the predicate
  again.

The main result is `wakeupInv_reach`: in every reachable state with a sleeper
there are at most as many queued elements as woken threads and pending
notifications.
-/

namespace AsyncTaskEngine
namespace BlockingMonitor

universe u v w x y

/--
The critical sections of a blocking container with contents `σ`, arguments `β`
of a push and results `γ` of a pop.
-/
structure Sections (σ : Type u) (β : Type v) (γ : Type w) where
  init : σ
  /-- `none` when the push is rejected. -/
  push : β → σ → Option σ
  tryPop : σ → σ × Option γ
  /-- The predicate of the wait. -/
  ready : σ → Bool
  /-- What follows the wait, given the truth value it returned. -/
  afterWait : Bool → σ → σ × Option γ
  shutdown : σ → σ
  closed : σ → Bool
  size : σ → Nat

/-- The critical sections respect the number of elements and the closing flag. -/
structure Sections.Lawful {σ : Type u} {β : Type v} {γ : Type w}
    (sec : Sections σ β γ) : Prop where
  size_init : sec.size sec.init = 0
  closed_init : sec.closed sec.init = false
  ready_iff : ∀ c, sec.ready c = true ↔ 0 < sec.size c ∨ sec.closed c = true
  push_eq_none : ∀ b c, sec.push b c = none ↔ sec.closed c = true
  size_push : ∀ b c c', sec.push b c = some c' → sec.size c' = sec.size c + 1
  closed_push : ∀ b c c', sec.push b c = some c' → sec.closed c' = sec.closed c
  size_tryPop : ∀ c, sec.size (sec.tryPop c).1 = sec.size c - 1
  closed_tryPop : ∀ c, sec.closed (sec.tryPop c).1 = sec.closed c
  tryPop_eq_none : ∀ c, (sec.tryPop c).2 = none ↔ sec.size c = 0
  tryPop_none : ∀ c, (sec.tryPop c).2 = none → (sec.tryPop c).1 = c
  afterWait_ready : ∀ c, sec.afterWait (sec.ready c) c = sec.tryPop c
  size_shutdown : ∀ c, sec.size (sec.shutdown c) = sec.size c
  closed_shutdown : ∀ c, sec.closed (sec.shutdown c) = true

/-- The call a thread is executing; `κ` is the type of stop tokens. -/
inductive Call (κ : Type x) (β : Type v) where
  | idle
  | push (arg : β)
  | notifyOne
  | tryPop
  | wait (k : κ)
  | asleep (k : κ)
  | woken (k : κ)
  | shutdown
  | notifyAll
  | size
deriving DecidableEq

/-- The contents, the stop requests made so far, and the calls of the threads. -/
structure State (σ : Type u) (ι : Type y) (κ : Type x) (β : Type v) where
  contents : σ
  stopped : κ → Bool
  call : ι → Call κ β

/-- Calls, the steps inside a call, and what the environment does. -/
inductive Act (ι : Type y) (κ : Type x) (β : Type v) where
  | push (t : ι) (arg : β)
  | tryPop (t : ι)
  | waitAndPop (t : ι) (k : κ)
  | shutdown (t : ι)
  | size (t : ι)
  | advance (t : ι)
  /-- `notify_one`, waking the chosen sleeper if there is one. -/
  | notify (t : ι) (pick : Option ι)
  | spurious (t : ι)
  | requestStop (k : κ)

/-- What an observer records. -/
inductive Event (ι : Type y) (κ : Type x) (β : Type v) (γ : Type w) where
  | pushAccepted (t : ι) (arg : β)
  | pushRejected (t : ι) (arg : β)
  | pushReturned (t : ι)
  | popped (t : ι) (result : γ)
  | tryEmpty (t : ι)
  | waitEmpty (t : ι) (k : κ)
  | closed (t : ι)
  | shutdownReturned (t : ι)
  | sizeReturned (t : ι) (size : Nat)
  | stopRequested (k : κ)
deriving DecidableEq

/-- The thread sleeps in the condition variable. -/
def Call.isAsleep {κ : Type x} {β : Type v} : Call κ β → Bool
  | .asleep _ => true
  | _ => false

/-- The effect of `notify_all` on one thread. -/
def Call.wake {κ : Type x} {β : Type v} : Call κ β → Call κ β
  | .asleep k => .woken k
  | c => c

/-- The effect of a stop request on one thread. -/
def Call.wakeOn {κ : Type x} {β : Type v} [DecidableEq κ] (k : κ) :
    Call κ β → Call κ β
  | .asleep j => if j = k then .woken j else .asleep j
  | c => c

variable {σ : Type u} {β : Type v} {γ : Type w} {κ : Type x} {ι : Type y}
variable [DecidableEq ι] [DecidableEq κ]

/-- Move the call of a thread. -/
def State.setCall (s : State σ ι κ β) (t : ι) (c : Call κ β) : State σ ι κ β :=
  { s with call := Function.update s.call t c }

/-- Replace the contents. -/
def State.setContents (s : State σ ι κ β) (c : σ) : State σ ι κ β :=
  { s with contents := c }

section StateLemmas

variable (s : State σ ι κ β) (t : ι) (c : Call κ β) (d : σ)

omit [DecidableEq κ] in
@[simp] theorem setCall_contents : (s.setCall t c).contents = s.contents := rfl

omit [DecidableEq κ] in
@[simp] theorem setCall_call :
    (s.setCall t c).call = Function.update s.call t c := rfl

omit [DecidableEq ι] [DecidableEq κ] in
@[simp] theorem setContents_contents : (s.setContents d).contents = d := rfl

omit [DecidableEq ι] [DecidableEq κ] in
@[simp] theorem setContents_call : (s.setContents d).call = s.call := rfl

end StateLemmas

/-- The end of a pop by `t`, with the event for an empty container. -/
def finishPop (s : State σ ι κ β) (t : ι) (empty : Event ι κ β γ) (r : σ × Option γ) :
    State σ ι κ β × List (Event ι κ β γ) :=
  ((s.setContents r.1).setCall t .idle,
    match r.2 with
    | none => [empty]
    | some result => [.popped t result])

/-- The loop of the wait: evaluate the predicate under the mutex. -/
def check (sec : Sections σ β γ) (s : State σ ι κ β) (t : ι) (k : κ) :
    State σ ι κ β × List (Event ι κ β γ) :=
  let gotWork := sec.ready s.contents
  if gotWork || s.stopped k then
    finishPop s t (.waitEmpty t k) (sec.afterWait gotWork s.contents)
  else (s.setCall t (.asleep k), [])

/-- The next step of a call. -/
def advance (sec : Sections σ β γ) (s : State σ ι κ β) (t : ι) :
    Option (State σ ι κ β × List (Event ι κ β γ)) :=
  match s.call t with
  | .push arg =>
      match sec.push arg s.contents with
      | none => some (s.setCall t .idle, [.pushRejected t arg])
      | some c => some ((s.setContents c).setCall t .notifyOne, [.pushAccepted t arg])
  | .tryPop => some (finishPop s t (.tryEmpty t) (sec.tryPop s.contents))
  | .wait k => some (check sec s t k)
  | .woken k => some (check sec s t k)
  | .shutdown =>
      some ((s.setContents (sec.shutdown s.contents)).setCall t .notifyAll, [.closed t])
  | .notifyAll =>
      some ({ s with call := Function.update (fun u => (s.call u).wake) t .idle },
        [.shutdownReturned t])
  | .size => some (s.setCall t .idle, [.sizeReturned t (sec.size s.contents)])
  | _ => none

variable [Fintype ι]

/-- `notify_one` by `t`, which then returns from its push. -/
def notify (s : State σ ι κ β) (t : ι) (pick : Option ι) :
    Option (State σ ι κ β × List (Event ι κ β γ)) :=
  match s.call t with
  | .notifyOne =>
      match pick with
      | none =>
          if ∀ u, (s.call u).isAsleep = false then
            some (s.setCall t .idle, [.pushReturned t])
          else none
      | some u =>
          if (s.call u).isAsleep then
            some ((s.setCall u (s.call u).wake).setCall t .idle, [.pushReturned t])
          else none
  | _ => none

/-- One step of the container. -/
def step (sec : Sections σ β γ) (s : State σ ι κ β) :
    Act ι κ β → Option (State σ ι κ β × List (Event ι κ β γ))
  | .push t arg =>
      match s.call t with
      | .idle => some (s.setCall t (.push arg), [])
      | _ => none
  | .tryPop t =>
      match s.call t with
      | .idle => some (s.setCall t .tryPop, [])
      | _ => none
  | .waitAndPop t k =>
      match s.call t with
      | .idle => some (s.setCall t (.wait k), [])
      | _ => none
  | .shutdown t =>
      match s.call t with
      | .idle => some (s.setCall t .shutdown, [])
      | _ => none
  | .size t =>
      match s.call t with
      | .idle => some (s.setCall t .size, [])
      | _ => none
  | .advance t => advance sec s t
  | .notify t pick => notify s t pick
  | .spurious t =>
      if (s.call t).isAsleep then some (s.setCall t (s.call t).wake, []) else none
  | .requestStop k =>
      some ({ s with
        stopped := Function.update s.stopped k true
        call := fun u => (s.call u).wakeOn k }, [.stopRequested k])

/-- The container, initially empty and without calls. -/
def monitor (sec : Sections σ β γ) :
    Machine (State σ ι κ β) (Act ι κ β) (Event ι κ β γ) where
  init := { contents := sec.init, stopped := fun _ => false, call := fun _ => .idle }
  step := step sec

/-- The state of a thread that has just called an operation. -/
def Call.isEntry : Call κ β → Bool
  | .push _ => true
  | .tryPop => true
  | .wait _ => true
  | .shutdown => true
  | .size => true
  | _ => false

/-- The thread is about to evaluate the predicate of its wait. -/
def Call.checks (c : Call κ β) (k : κ) : Prop :=
  c = .wait k ∨ c = .woken k

/-- What a step inside a call can do, one constructor for each way through. -/
inductive Inner (sec : Sections σ β γ) (s : State σ ι κ β) :
    State σ ι κ β → List (Event ι κ β γ) → Prop
  | reject {t : ι} {arg : β} (hc : s.call t = .push arg)
      (hp : sec.push arg s.contents = none) :
      Inner sec s (s.setCall t .idle) [.pushRejected t arg]
  | accept {t : ι} {arg : β} {c : σ} (hc : s.call t = .push arg)
      (hp : sec.push arg s.contents = some c) :
      Inner sec s ((s.setContents c).setCall t .notifyOne) [.pushAccepted t arg]
  | tryPop {t : ι} (hc : s.call t = .tryPop) :
      Inner sec s (finishPop s t (.tryEmpty t) (sec.tryPop s.contents)).1
        (finishPop s t (.tryEmpty t) (sec.tryPop s.contents)).2
  | leave {t : ι} {k : κ} (hc : (s.call t).checks k)
      (hr : sec.ready s.contents = true ∨ s.stopped k = true) :
      Inner sec s (finishPop s t (.waitEmpty t k) (sec.tryPop s.contents)).1
        (finishPop s t (.waitEmpty t k) (sec.tryPop s.contents)).2
  | sleep {t : ι} {k : κ} (hc : (s.call t).checks k)
      (hr : sec.ready s.contents = false) (hk : s.stopped k = false) :
      Inner sec s (s.setCall t (.asleep k)) []
  | close {t : ι} (hc : s.call t = .shutdown) :
      Inner sec s ((s.setContents (sec.shutdown s.contents)).setCall t .notifyAll)
        [.closed t]
  | notifyAll {t : ι} (hc : s.call t = .notifyAll) :
      Inner sec s { s with call := Function.update (fun u => (s.call u).wake) t .idle }
        [.shutdownReturned t]
  | size {t : ι} (hc : s.call t = .size) :
      Inner sec s (s.setCall t .idle) [.sizeReturned t (sec.size s.contents)]
  | notifyNone {t : ι} (hc : s.call t = .notifyOne)
      (hno : ∀ u, (s.call u).isAsleep = false) :
      Inner sec s (s.setCall t .idle) [.pushReturned t]
  | notifyOne {t u : ι} {k : κ} (hc : s.call t = .notifyOne)
      (hu : s.call u = .asleep k) :
      Inner sec s ((s.setCall u (.woken k)).setCall t .idle) [.pushReturned t]
  | spurious {t : ι} {k : κ} (hc : s.call t = .asleep k) :
      Inner sec s (s.setCall t (.woken k)) []

/-- What a step can do: a call begins, a call moves on, or a stop is requested. -/
inductive Move (sec : Sections σ β γ) (s : State σ ι κ β) :
    State σ ι κ β → List (Event ι κ β γ) → Prop
  | enter {t : ι} (c : Call κ β) (hc : s.call t = .idle) (hentry : c.isEntry = true) :
      Move sec s (s.setCall t c) []
  | inner {s' : State σ ι κ β} {es : List (Event ι κ β γ)} (h : Inner sec s s' es) :
      Move sec s s' es
  | stop (k : κ) :
      Move sec s
        { s with
          stopped := Function.update s.stopped k true
          call := fun u => (s.call u).wakeOn k } [.stopRequested k]

omit [DecidableEq ι] [DecidableEq κ] [Fintype ι] in
theorem Call.exists_asleep {c : Call κ β} (h : c.isAsleep = true) :
    ∃ k, c = .asleep k := by
  cases c <;> simp_all [Call.isAsleep]

omit [DecidableEq κ] [Fintype ι] in
/-- The evaluation of the predicate either ends the wait or goes to sleep. -/
theorem check_inner {sec : Sections σ β γ} (law : sec.Lawful) {s : State σ ι κ β}
    {t : ι} {k : κ} (hc : (s.call t).checks k) :
    Inner sec s (check sec s t k).1 (check (γ := γ) sec s t k).2 := by
  simp only [check]
  rw [law.afterWait_ready]
  by_cases hr : sec.ready s.contents = true
  · rw [if_pos (by simp [hr])]
    exact .leave hc (.inl hr)
  · by_cases hk : s.stopped k = true
    · rw [if_pos (by simp [hk])]
      exact .leave hc (.inr hk)
    · rw [if_neg (by simp [hr, hk])]
      exact .sleep hc (by simpa using hr) (by simpa using hk)

omit [Fintype ι] [DecidableEq κ] in
theorem advance_inner {sec : Sections σ β γ} (law : sec.Lawful)
    {s s' : State σ ι κ β} {t : ι} {es : List (Event ι κ β γ)}
    (h : advance sec s t = some (s', es)) : Inner sec s s' es := by
  unfold advance at h
  split at h
  case h_1 arg hc =>
      split at h
      · next hp =>
          obtain ⟨rfl, rfl⟩ := by simpa using h
          exact .reject hc hp
      · next c hp =>
          obtain ⟨rfl, rfl⟩ := by simpa using h
          exact .accept hc hp
  case h_2 hc =>
      simp only [Option.some.injEq] at h
      have hm : Inner sec s (finishPop s t (.tryEmpty t) (sec.tryPop s.contents)).1
          (finishPop s t (.tryEmpty t) (sec.tryPop s.contents)).2 := .tryPop hc
      rw [h] at hm
      exact hm
  case h_3 k hc =>
      simp only [Option.some.injEq] at h
      have hm := check_inner law (.inl hc : (s.call t).checks k)
      rw [h] at hm
      exact hm
  case h_4 k hc =>
      simp only [Option.some.injEq] at h
      have hm := check_inner law (.inr hc : (s.call t).checks k)
      rw [h] at hm
      exact hm
  case h_5 hc =>
      obtain ⟨rfl, rfl⟩ := by simpa using h
      exact .close hc
  case h_6 hc =>
      obtain ⟨rfl, rfl⟩ := by simpa using h
      exact .notifyAll hc
  case h_7 hc =>
      obtain ⟨rfl, rfl⟩ := by simpa using h
      exact .size hc
  case h_8 => simp at h

omit [DecidableEq κ] in
theorem notify_inner {sec : Sections σ β γ} {s s' : State σ ι κ β} {t : ι}
    {pick : Option ι} {es : List (Event ι κ β γ)}
    (h : notify s t pick = some (s', es)) : Inner sec s s' es := by
  unfold notify at h
  split at h
  · next hc =>
      split at h
      · split at h
        · next hno =>
            obtain ⟨rfl, rfl⟩ := by simpa using h
            exact .notifyNone hc hno
        · simp at h
      · next u =>
          split at h
          · next hu =>
              obtain ⟨k, hk⟩ := Call.exists_asleep hu
              rw [hk] at h
              obtain ⟨rfl, rfl⟩ := by simpa [Call.wake] using h
              exact .notifyOne hc hk
          · simp at h
  · simp at h

/-- Inversion of a spurious wakeup. -/
theorem spurious_inner {sec : Sections σ β γ} {s s' : State σ ι κ β} {t : ι}
    {es : List (Event ι κ β γ)} (h : step sec s (.spurious t) = some (s', es)) :
    Inner sec s s' es := by
  simp only [step] at h
  split at h
  · next hu =>
      obtain ⟨k, hk⟩ := Call.exists_asleep hu
      rw [hk] at h
      obtain ⟨rfl, rfl⟩ := by simpa [Call.wake] using h
      exact .spurious hk
  · simp at h

/-- Inversion of a step; every later argument starts from this lemma. -/
theorem step_move {sec : Sections σ β γ} (law : sec.Lawful)
    {s s' : State σ ι κ β} {a : Act ι κ β} {es : List (Event ι κ β γ)}
    (h : step sec s a = some (s', es)) : Move sec s s' es := by
  cases a with
  | push t arg =>
      simp only [step] at h
      split at h
      · next hc =>
          obtain ⟨rfl, rfl⟩ := by simpa using h
          exact .enter _ hc rfl
      · simp at h
  | tryPop t =>
      simp only [step] at h
      split at h
      · next hc =>
          obtain ⟨rfl, rfl⟩ := by simpa using h
          exact .enter _ hc rfl
      · simp at h
  | waitAndPop t k =>
      simp only [step] at h
      split at h
      · next hc =>
          obtain ⟨rfl, rfl⟩ := by simpa using h
          exact .enter _ hc rfl
      · simp at h
  | shutdown t =>
      simp only [step] at h
      split at h
      · next hc =>
          obtain ⟨rfl, rfl⟩ := by simpa using h
          exact .enter _ hc rfl
      · simp at h
  | size t =>
      simp only [step] at h
      split at h
      · next hc =>
          obtain ⟨rfl, rfl⟩ := by simpa using h
          exact .enter _ hc rfl
      · simp at h
  | advance t => exact .inner (advance_inner law h)
  | notify t pick => exact .inner (notify_inner h)
  | spurious t => exact .inner (spurious_inner h)
  | requestStop k =>
      obtain ⟨rfl, rfl⟩ := by simpa [step] using h
      exact .stop k

/-- Events that say nothing about the contents or the stop requests. -/
def Event.isQuiet : Event ι κ β γ → Prop
  | .pushReturned _ => True
  | .shutdownReturned _ => True
  | .sizeReturned _ _ => True
  | _ => False

/-- What a step does to the contents and to the stop requests. -/
inductive Effect (sec : Sections σ β γ) (s s' : State σ ι κ β) :
    List (Event ι κ β γ) → Prop
  | quiet {es : List (Event ι κ β γ)} (hc : s'.contents = s.contents)
      (hs : s'.stopped = s.stopped) (hes : ∀ e ∈ es, e.isQuiet) : Effect sec s s' es
  | rejected (t : ι) (arg : β) (hc : s'.contents = s.contents)
      (hs : s'.stopped = s.stopped) (hp : sec.push arg s.contents = none) :
      Effect sec s s' [.pushRejected t arg]
  | accepted (t : ι) (arg : β) (hs : s'.stopped = s.stopped)
      (hp : sec.push arg s.contents = some s'.contents) :
      Effect sec s s' [.pushAccepted t arg]
  | popped (t : ι) (x : γ) (hs : s'.stopped = s.stopped)
      (hp : sec.tryPop s.contents = (s'.contents, some x)) :
      Effect sec s s' [.popped t x]
  | tryEmpty (t : ι) (hc : s'.contents = s.contents) (hs : s'.stopped = s.stopped)
      (hsize : sec.size s.contents = 0) : Effect sec s s' [.tryEmpty t]
  | waitEmpty (t : ι) (k : κ) (hc : s'.contents = s.contents)
      (hs : s'.stopped = s.stopped) (hsize : sec.size s.contents = 0)
      (hend : sec.closed s.contents = true ∨ s.stopped k = true) :
      Effect sec s s' [.waitEmpty t k]
  | closed (t : ι) (hc : s'.contents = sec.shutdown s.contents)
      (hs : s'.stopped = s.stopped) : Effect sec s s' [.closed t]
  | stopRequested (k : κ) (hc : s'.contents = s.contents)
      (hs : s'.stopped = Function.update s.stopped k true) :
      Effect sec s s' [.stopRequested k]

omit [DecidableEq κ] [Fintype ι] in
/-- A pop either returns an element or finds the container empty. -/
theorem finishPop_cases {sec : Sections σ β γ} (law : sec.Lawful)
    (s : State σ ι κ β) (t : ι) (e : Event ι κ β γ) :
    (∃ x, sec.tryPop s.contents =
        ((finishPop s t e (sec.tryPop s.contents)).1.contents, some x) ∧
        (finishPop s t e (sec.tryPop s.contents)).2 = [.popped t x]) ∨
      (finishPop s t e (sec.tryPop s.contents)).1.contents = s.contents ∧
        sec.size s.contents = 0 ∧ (finishPop s t e (sec.tryPop s.contents)).2 = [e] := by
  cases hr : sec.tryPop s.contents with
  | mk c x =>
      cases x with
      | none =>
          have hnone : (sec.tryPop s.contents).2 = none := by rw [hr]
          have hcontents := law.tryPop_none _ hnone
          rw [hr] at hcontents
          exact .inr ⟨hcontents, (law.tryPop_eq_none _).mp hnone, rfl⟩
      | some x => exact .inl ⟨x, rfl, rfl⟩

omit [Fintype ι] in
/-- Every step has one of these effects. -/
theorem Move.effect {sec : Sections σ β γ} (law : sec.Lawful)
    {s s' : State σ ι κ β} {es : List (Event ι κ β γ)} (hm : Move sec s s' es) :
    Effect sec s s' es := by
  rcases hm with ⟨c, hc, hentry⟩ | hm | ⟨k⟩
  · exact .quiet rfl rfl (by simp)
  swap
  · exact .stopRequested k rfl rfl
  cases hm with
  | reject hc hp => exact .rejected _ _ rfl rfl hp
  | accept hc hp => exact .accepted _ _ rfl hp
  | @tryPop t hc =>
      rcases finishPop_cases law s t (.tryEmpty t) with ⟨x, hp, hes⟩ | ⟨hc, hsize, hes⟩
      · rw [hes]
        exact .popped t x rfl hp
      · rw [hes]
        exact .tryEmpty t hc rfl hsize
  | @leave t k hc hr =>
      rcases finishPop_cases law s t (.waitEmpty t k) with
        ⟨x, hp, hes⟩ | ⟨hc, hsize, hes⟩
      · rw [hes]
        exact .popped t x rfl hp
      · rw [hes]
        refine .waitEmpty t k hc rfl hsize ?_
        rw [law.ready_iff, hsize] at hr
        simpa using hr
  | sleep hc hr hk => exact .quiet rfl rfl (by simp)
  | close hc => exact .closed _ rfl rfl
  | notifyAll hc => exact .quiet rfl rfl (by simp [Event.isQuiet])
  | size hc => exact .quiet rfl rfl (by simp [Event.isQuiet])
  | notifyNone hc hno => exact .quiet rfl rfl (by simp [Event.isQuiet])
  | notifyOne hc hu => exact .quiet rfl rfl (by simp [Event.isQuiet])
  | spurious hc => exact .quiet rfl rfl (by simp)

/-- One for a woken thread that has not evaluated its predicate yet. -/
def Call.wokenWeight : Call κ β → Nat
  | .woken _ => 1
  | _ => 0

/-- One for a push whose `notify_one` is pending. -/
def Call.notifyWeight : Call κ β → Nat
  | .notifyOne => 1
  | _ => 0

/-- The number of woken threads that have not rechecked the predicate. -/
def State.wokenThreads (s : State σ ι κ β) : Nat :=
  total Call.wokenWeight s.call

/-- The number of push calls whose `notify_one` is still pending. -/
def State.pendingNotifies (s : State σ ι κ β) : Nat :=
  total Call.notifyWeight s.call

/-- No wakeup is lost. -/
structure WakeupInv (sec : Sections σ β γ) (s : State σ ι κ β)
    (tr : List (Event ι κ β γ)) : Prop where
  /-- A sleeper misses no element: somebody else is on the way to each of them. -/
  counting : (∃ t, (s.call t).isAsleep = true) →
    sec.size s.contents ≤ s.wokenThreads + s.pendingNotifies
  /-- Nobody sleeps through a stop request on its token. -/
  stopping : ∀ t k, s.call t = .asleep k → s.stopped k = false
  /-- Nobody sleeps in a closed container, unless it is about to be notified. -/
  closing : sec.closed s.contents = true → ∀ t, (s.call t).isAsleep = true →
    ∃ u, s.call u = .notifyAll
  notifier : ∀ t, s.call t = .notifyAll → sec.closed s.contents = true
  returned : ∀ t, .shutdownReturned t ∈ tr →
    sec.closed s.contents = true ∧ ∀ u, (s.call u).isAsleep = false

section Invariant

variable {sec : Sections σ β γ} {s : State σ ι κ β} {tr : List (Event ι κ β γ)}

omit [DecidableEq κ] in
/-- How one thread's step changes the two counts. -/
theorem counts_update (f : ι → Call κ β) (t : ι) (c : Call κ β) :
    total Call.wokenWeight (Function.update f t c) + (f t).wokenWeight =
        total Call.wokenWeight f + c.wokenWeight ∧
      total Call.notifyWeight (Function.update f t c) + (f t).notifyWeight =
        total Call.notifyWeight f + c.notifyWeight :=
  ⟨total_update _ _ _ _, total_update _ _ _ _⟩

omit [DecidableEq ι] [DecidableEq κ] in
/-- What a step in which no thread falls asleep has to respect. -/
theorem WakeupInv.preserve {s' : State σ ι κ β} {es : List (Event ι κ β γ)}
    (inv : WakeupInv sec s tr)
    (hasleep : ∀ u k, s'.call u = .asleep k →
      s.call u = .asleep k ∧ s'.stopped k = s.stopped k)
    (hcount : (∃ u, (s'.call u).isAsleep = true) →
      sec.size s.contents ≤ s.wokenThreads + s.pendingNotifies →
        sec.size s'.contents ≤ s'.wokenThreads + s'.pendingNotifies)
    (hclosed : sec.closed s.contents = true → sec.closed s'.contents = true)
    (hopen : sec.closed s'.contents = true →
      sec.closed s.contents = true ∨ ∃ u, s'.call u = .notifyAll)
    (hnotifier : ∀ u, s'.call u = .notifyAll → sec.closed s'.contents = true)
    (hkeep : ∀ u, s.call u = .notifyAll → (∃ w, (s'.call w).isAsleep = true) →
      s'.call u = .notifyAll)
    (hes : ∀ u, .shutdownReturned u ∈ es →
      sec.closed s'.contents = true ∧ ∀ w, (s'.call w).isAsleep = false) :
    WakeupInv sec s' (tr ++ es) := by
  have hold : ∀ u, (s'.call u).isAsleep = true → (s.call u).isAsleep = true := by
    intro u hu
    obtain ⟨k, hk⟩ := Call.exists_asleep hu
    rw [(hasleep u k hk).1]
    rfl
  refine ⟨?_, ?_, ?_, hnotifier, ?_⟩
  · rintro ⟨u, hu⟩
    exact hcount ⟨u, hu⟩ (inv.counting ⟨u, hold u hu⟩)
  · intro u k hu
    obtain ⟨hk, hs⟩ := hasleep u k hu
    rw [hs]
    exact inv.stopping u k hk
  · intro hc u hu
    rcases hopen hc with hc | hnew
    · obtain ⟨w, hw⟩ := inv.closing hc u (hold u hu)
      exact ⟨w, hkeep w hw ⟨u, hu⟩⟩
    · exact hnew
  · intro u hmem
    rcases List.mem_append.mp hmem with hmem | hmem
    · obtain ⟨hc, hno⟩ := inv.returned u hmem
      refine ⟨hclosed hc, ?_⟩
      intro w
      by_contra hw
      have := hold w (by simpa using hw)
      rw [hno w] at this
      cases this
    · exact hes u hmem

omit [DecidableEq κ] in
/-- A thread that is not asleep and sends no notification moves to `c`. -/
theorem WakeupInv.move {t : ι} {c : Call κ β} {d : σ} {es : List (Event ι κ β γ)}
    (inv : WakeupInv sec s tr) (hsleep : c.isAsleep = false)
    (hcount : (∃ u, (s.call u).isAsleep = true) → sec.size d ≠ 0 →
      sec.size d + (s.call t).wokenWeight + (s.call t).notifyWeight ≤
        sec.size s.contents + c.wokenWeight + c.notifyWeight)
    (hclosed : sec.closed d = true ↔ sec.closed s.contents = true ∨ c = .notifyAll)
    (hold : s.call t ≠ .notifyAll) (hes : ∀ u, .shutdownReturned u ∉ es) :
    WakeupInv sec ((s.setContents d).setCall t c) (tr ++ es) := by
  have hother : ∀ u k, Function.update s.call t c u = .asleep k →
      s.call u = .asleep k := by
    intro u k hu
    by_cases hut : u = t
    · subst hut
      rw [Function.update_self] at hu
      rw [hu] at hsleep
      cases hsleep
    · rwa [Function.update_of_ne hut] at hu
  refine inv.preserve (fun u k hu => ⟨hother u k hu, rfl⟩) ?_ ?_ ?_ ?_ ?_ ?_
  · rintro ⟨u, hu⟩ hle
    obtain ⟨k, hk⟩ := Call.exists_asleep hu
    obtain ⟨hw, hn⟩ := counts_update s.call t c
    by_cases hzero : sec.size d = 0
    · simp [hzero]
    · have := hcount ⟨u, by rw [hother u k hk]; rfl⟩ hzero
      simp only [State.wokenThreads, State.pendingNotifies, setCall_call,
        setCall_contents, setContents_contents, setContents_call] at hle ⊢
      omega
  · exact fun hc => hclosed.mpr (.inl hc)
  · intro hc
    rcases hclosed.mp hc with hc | rfl
    · exact .inl hc
    · exact .inr ⟨t, by simp⟩
  · intro u hu
    by_cases hut : u = t
    · subst hut
      rw [setCall_call, Function.update_self] at hu
      exact hclosed.mpr (.inr hu)
    · rw [setCall_call, Function.update_of_ne hut] at hu
      exact hclosed.mpr (.inl (inv.notifier u hu))
  · intro u hu _
    have hut : u ≠ t := by
      rintro rfl
      exact hold hu
    rwa [setCall_call, Function.update_of_ne hut]
  · exact fun u hmem => (hes u hmem).elim

omit [DecidableEq κ] in
/-- A pop leaves the mutex with one element less, or with none. -/
theorem WakeupInv.pop (law : sec.Lawful) {t : ι} {e : Event ι κ β γ}
    (inv : WakeupInv sec s tr)
    (hweight : (s.call t).wokenWeight + (s.call t).notifyWeight ≤ 1)
    (hold : s.call t ≠ .notifyAll) (he : ∀ u, e ≠ .shutdownReturned u) :
    WakeupInv sec (finishPop s t e (sec.tryPop s.contents)).1
      (tr ++ (finishPop s t e (sec.tryPop s.contents)).2) := by
  refine inv.move rfl ?_ ?_ hold ?_
  · intro _ hne
    rw [law.size_tryPop] at hne ⊢
    show _ ≤ sec.size s.contents + 0 + 0
    omega
  · simp [law.closed_tryPop]
  · intro u hmem
    simp only [finishPop] at hmem
    cases hr : (sec.tryPop s.contents).2 with
    | none =>
        rw [hr, List.mem_singleton] at hmem
        exact he u hmem.symm
    | some x =>
        rw [hr, List.mem_singleton] at hmem
        cases hmem

omit [DecidableEq κ] in
/-- A thread falls asleep after it found the container empty and open. -/
theorem WakeupInv.sleep (law : sec.Lawful) {t : ι} {k : κ}
    (inv : WakeupInv sec s tr) (hc : (s.call t).checks k)
    (hr : sec.ready s.contents = false) (hk : s.stopped k = false) :
    WakeupInv sec (s.setCall t (.asleep k)) (tr ++ []) := by
  have hready : ¬ (0 < sec.size s.contents ∨ sec.closed s.contents = true) := by
    rw [← law.ready_iff, hr]
    simp
  have hopen : sec.closed s.contents = false := by
    simpa using fun h => hready (.inr h)
  rw [List.append_nil]
  refine ⟨?_, ?_, ?_, ?_, ?_⟩
  · rintro -
    rw [setCall_contents]
    omega
  · intro u j hu
    by_cases hut : u = t
    · subst hut
      rw [setCall_call, Function.update_self] at hu
      injection hu with hu
      rw [← hu]
      exact hk
    · rw [setCall_call, Function.update_of_ne hut] at hu
      exact inv.stopping u j hu
  · intro hclosed
    rw [setCall_contents, hopen] at hclosed
    cases hclosed
  · intro u hu
    by_cases hut : u = t
    · subst hut
      rw [setCall_call, Function.update_self] at hu
      cases hu
    · rw [setCall_call, Function.update_of_ne hut] at hu
      exact inv.notifier u hu
  · intro u hmem
    have := (inv.returned u hmem).1
    rw [hopen] at this
    cases this

omit [DecidableEq ι] [DecidableEq κ] [Fintype ι] in
theorem Call.wake_ne_asleep (c : Call κ β) (k : κ) : c.wake ≠ .asleep k := by
  cases c <;> simp [Call.wake]

omit [DecidableEq ι] [Fintype ι] in
/-- A stop request on `k` leaves only sleepers on other tokens. -/
theorem Call.wakeOn_eq_asleep {c : Call κ β} {j k : κ}
    (h : c.wakeOn k = .asleep j) : c = .asleep j ∧ j ≠ k := by
  cases c with
  | asleep i =>
      simp only [Call.wakeOn] at h
      split at h
      · cases h
      · next hne =>
          injection h with h
          subst h
          exact ⟨rfl, hne⟩
  | _ => simp [Call.wakeOn] at h

omit [DecidableEq ι] [Fintype ι] in
theorem Call.wakeOn_eq_notifyAll {c : Call κ β} {k : κ} :
    c.wakeOn k = .notifyAll ↔ c = .notifyAll := by
  cases c with
  | asleep i =>
      simp only [Call.wakeOn]
      split <;> simp
  | _ => simp [Call.wakeOn]

omit [DecidableEq κ] in
/-- Every step inside a call keeps the wakeup invariant. -/
theorem WakeupInv.inner (law : sec.Lawful) {s' : State σ ι κ β}
    {es : List (Event ι κ β γ)} (inv : WakeupInv sec s tr) (hm : Inner sec s s' es) :
    WakeupInv sec s' (tr ++ es) := by
  cases hm with
  | @reject t arg hc hp =>
      refine inv.move (d := s.contents) rfl ?_ (by simp) (by rw [hc]; simp) (by simp)
      simp [hc, Call.wokenWeight, Call.notifyWeight]
  | @accept t arg d hc hp =>
      refine inv.move rfl ?_ ?_ (by rw [hc]; simp) (by simp)
      · intro _ _
        rw [law.size_push _ _ _ hp, hc]
        simp [Call.wokenWeight, Call.notifyWeight]
      · simp [law.closed_push _ _ _ hp]
  | @tryPop t hc =>
      exact inv.pop law (by simp [hc, Call.wokenWeight, Call.notifyWeight])
        (by rw [hc]; simp) (by simp)
  | @leave t k hc hr =>
      refine inv.pop law ?_ ?_ (by simp)
      · rcases hc with hc | hc <;> simp [hc, Call.wokenWeight, Call.notifyWeight]
      · rcases hc with hc | hc <;> simp [hc]
  | sleep hc hr hk => exact inv.sleep law hc hr hk
  | @close t hc =>
      refine inv.move rfl ?_ ?_ (by rw [hc]; simp) (by simp)
      · simp [hc, law.size_shutdown, Call.wokenWeight, Call.notifyWeight]
      · simp [law.closed_shutdown]
  | @notifyAll t hc =>
      have hno : ∀ u, (Function.update (fun u => (s.call u).wake) t .idle u).isAsleep =
          false := by
        intro u
        by_contra hu
        obtain ⟨k, hk⟩ := Call.exists_asleep (by simpa using hu)
        by_cases hut : u = t
        · subst hut
          rw [Function.update_self] at hk
          cases hk
        · rw [Function.update_of_ne hut] at hk
          exact Call.wake_ne_asleep _ _ hk
      refine inv.preserve ?_ ?_ id .inl ?_ ?_ ?_
      · intro u k hu
        have hk : Function.update (fun u => (s.call u).wake) t .idle u = .asleep k := hu
        have := hno u
        rw [hk] at this
        cases this
      · rintro ⟨u, hu⟩
        rw [hno u] at hu
        cases hu
      · exact fun _ _ => inv.notifier t hc
      · rintro u - ⟨w, hw⟩
        rw [hno w] at hw
        cases hw
      · exact fun _ _ => ⟨inv.notifier t hc, hno⟩
  | @size t hc =>
      refine inv.move (d := s.contents) rfl ?_ (by simp) (by rw [hc]; simp) (by simp)
      simp [hc, Call.wokenWeight, Call.notifyWeight]
  | @notifyNone t hc hno =>
      refine inv.move (d := s.contents) rfl ?_ (by simp) (by rw [hc]; simp) (by simp)
      rintro ⟨u, hu⟩
      rw [hno u] at hu
      cases hu
  | @notifyOne t u k hc hu =>
      have hut : t ≠ u := by
        rintro rfl
        rw [hc] at hu
        cases hu
      have hcall : ∀ w, Function.update (Function.update s.call u (.woken k)) t .idle w =
          if w = t then .idle else if w = u then .woken k else s.call w := by
        intro w
        by_cases hwt : w = t
        · simp [hwt]
        · rw [Function.update_of_ne hwt, if_neg hwt, Function.update_apply]
      refine inv.preserve ?_ ?_ id .inl ?_ ?_ (by simp)
      · intro w j hw
        simp only [setCall_call, hcall] at hw
        refine ⟨?_, rfl⟩
        split at hw
        · cases hw
        · split at hw
          · cases hw
          · exact hw
      · intro _ hle
        obtain ⟨h₁, h₂⟩ := counts_update s.call u (.woken k)
        obtain ⟨h₃, h₄⟩ := counts_update (Function.update s.call u (.woken k)) t .idle
        rw [Function.update_of_ne hut, hc] at h₃ h₄
        rw [hu] at h₁ h₂
        simp only [State.wokenThreads, State.pendingNotifies, setCall_call,
          setCall_contents, Call.wokenWeight, Call.notifyWeight] at *
        omega
      · intro w hw
        simp only [setCall_call, hcall] at hw
        split at hw
        · cases hw
        · split at hw
          · cases hw
          · exact inv.notifier w hw
      · intro w hw _
        simp only [setCall_call, hcall]
        rw [if_neg (by rintro rfl; rw [hc] at hw; cases hw),
          if_neg (by rintro rfl; rw [hu] at hw; cases hw)]
        exact hw
  | @spurious t k hc =>
      refine inv.move (d := s.contents) rfl ?_ (by simp) (by rw [hc]; simp) (by simp)
      simp [hc, Call.wokenWeight, Call.notifyWeight]

omit [DecidableEq ι] in
/-- A stop request wakes threads and puts none to sleep. -/
theorem WakeupInv.stop (inv : WakeupInv sec s tr) (k : κ) :
    WakeupInv sec
      { s with
        stopped := Function.update s.stopped k true
        call := fun u => (s.call u).wakeOn k } (tr ++ [.stopRequested k]) := by
  refine inv.preserve ?_ ?_ id .inl ?_ ?_ (by simp)
  · intro u j hu
    obtain ⟨hold, hne⟩ := Call.wakeOn_eq_asleep hu
    exact ⟨hold, Function.update_of_ne hne _ _⟩
  · intro _ hle
    have hw : s.wokenThreads ≤ total Call.wokenWeight fun u => (s.call u).wakeOn k := by
      refine total_mono fun u => ?_
      cases hcase : s.call u with
      | asleep j => exact Nat.zero_le _
      | _ => exact Nat.le_refl _
    have hn : s.pendingNotifies ≤
        total Call.notifyWeight fun u => (s.call u).wakeOn k := by
      refine total_mono fun u => ?_
      cases hcase : s.call u with
      | asleep j => exact Nat.zero_le _
      | _ => exact Nat.le_refl _
    simp only [State.wokenThreads, State.pendingNotifies] at *
    omega
  · exact fun u hu => inv.notifier u (Call.wakeOn_eq_notifyAll.mp hu)
  · exact fun u hu _ => Call.wakeOn_eq_notifyAll.mpr hu

/-- Every step keeps the wakeup invariant. -/
theorem WakeupInv.step (law : sec.Lawful) {s' : State σ ι κ β}
    {es : List (Event ι κ β γ)} (inv : WakeupInv sec s tr) (hm : Move sec s s' es) :
    WakeupInv sec s' (tr ++ es) := by
  rcases hm with @⟨t, c, hc, hentry⟩ | hm | ⟨k⟩
  · refine inv.move (d := s.contents) ?_ ?_ ?_ (by rw [hc]; simp) (by simp)
    · cases c <;> simp_all [Call.isEntry, Call.isAsleep]
    · simp [hc, Call.wokenWeight, Call.notifyWeight]
      omega
    · cases c <;> simp_all [Call.isEntry]
  · exact inv.inner law hm
  · exact inv.stop k

/-- In the empty container nobody sleeps. -/
theorem wakeupInv_init :
    WakeupInv sec (monitor sec : Machine (State σ ι κ β) _ _).init [] where
  counting := by simp [monitor, Call.isAsleep]
  stopping := by simp [monitor]
  closing := by simp [monitor, Call.isAsleep]
  notifier := by simp [monitor]
  returned := by simp

/-- The wakeup invariant holds in every reachable state. -/
theorem wakeupInv_reach (law : sec.Lawful) (hr : (monitor sec).Reach s tr) :
    WakeupInv sec s tr := by
  refine hr.invariant (P := WakeupInv sec) wakeupInv_init ?_
  intro s tr a s' es _ inv hs
  exact inv.step law (step_move law hs)

/-- What clients rely on. -/
structure NoLostWakeup (sec : Sections σ β γ) (s : State σ ι κ β)
    (tr : List (Event ι κ β γ)) : Prop where
  counting : (∀ t, (s.call t).isAsleep = false) ∨
    sec.size s.contents ≤ s.wokenThreads + s.pendingNotifies
  /-- With no notification pending, somebody awake is on the way to an element. -/
  awake : (∀ t, s.call t ≠ .notifyOne) → 0 < sec.size s.contents →
    (∃ t, (s.call t).isAsleep = true) → ∃ t k, s.call t = .woken k
  shutdown : (∃ t, .shutdownReturned t ∈ tr) → ∀ t, (s.call t).isAsleep = false

/-- No wakeup is lost in any reachable state. -/
theorem noLostWakeup_reach (law : sec.Lawful) (hr : (monitor sec).Reach s tr) :
    NoLostWakeup sec s tr := by
  have inv := wakeupInv_reach law hr
  refine ⟨?_, ?_, ?_⟩
  · by_cases hsleep : ∃ t, (s.call t).isAsleep = true
    · exact .inr (inv.counting hsleep)
    · exact .inl fun t => by simpa using fun h => hsleep ⟨t, h⟩
  · intro hpending hsize hsleep
    have hcount := inv.counting hsleep
    have hzero : s.pendingNotifies = 0 := by
      refine total_eq_zero_iff.mpr fun t => ?_
      have := hpending t
      cases hc : s.call t <;> simp_all [Call.notifyWeight]
    obtain ⟨t, ht⟩ := exists_of_total_pos (g := Call.wokenWeight) (f := s.call) (by
      simp only [State.wokenThreads] at hcount
      omega)
    cases hc : s.call t with
    | woken k => exact ⟨t, k, hc⟩
    | _ => rw [hc] at ht; exact absurd ht (Nat.lt_irrefl 0)
  · rintro ⟨t, hmem⟩
    exact (inv.returned t hmem).2

end Invariant

end BlockingMonitor
end AsyncTaskEngine
