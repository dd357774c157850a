import AsyncTaskEngine.Machine
import Mathlib.Algebra.GroupWithZero.Nat
import Mathlib.Data.Fintype.Basic
import Mathlib.Logic.Function.Basic

/-!
# Logger: the asynchronous logger

A model of `logger.hpp`.  Every access to an atomic, every section under the
mutex, every call of the sink and the generation update is a step of its own.
A call of `log` runs through `load → push → notify` and can be made by a client
or, from inside the sink, by the drain thread.  The drain thread waits with a
timeout, so it may leave the wait at any moment; a flushing thread sleeps until
it is notified or wakes spuriously.

The destructor is called by one thread, when no other call is in progress.
-/

namespace AsyncTaskEngine
namespace Logger

universe u

/-- `LogLevel`. -/
inductive LogLevel where
  | trace
  | debug
  | info
  | warn
  | error
  | fatal
deriving DecidableEq

/-- The underlying value of the enumerator. -/
def LogLevel.toNat : LogLevel → Nat
  | .trace => 0
  | .debug => 1
  | .info => 2
  | .warn => 3
  | .error => 4
  | .fatal => 5

/-- A thread that logs: a client, or the drain thread from inside the sink. -/
inductive Caller (ι : Type u) where
  | client (t : ι)
  | drain
deriving DecidableEq

/-- `LogEntry`. -/
structure LogEntry (ι : Type u) where
  level : LogLevel
  message : String
  timestamp : Nat
  threadId : Caller ι
deriving DecidableEq

/-- `std::uint64_t`. -/
abbrev Word := BitVec 64

/-- Where a call of `log` stands. -/
inductive LogCall (ι : Type u) where
  | load (level : LogLevel) (message : String)
  | push (entry : LogEntry ι)
  | notify
deriving DecidableEq

/-- Where a call of `flush` stands. -/
inductive FlushCall where
  | ticket
  | notify (target : Word)
  | check (target : Word)
  | asleep (target : Word)
deriving DecidableEq

/-- What follows a flush: the return of the call, or the rest of the destructor. -/
inductive After where
  | return
  | destroy
deriving DecidableEq

/-- Where a client stands. -/
inductive Call (ι : Type u) where
  | idle
  | log (c : LogCall ι)
  | setLevel (level : LogLevel)
  | flush (c : FlushCall) (k : After)
  | stop
  | stopNotify
  | join
deriving DecidableEq

/-- Where the drain thread stands, with its local variables. -/
inductive Drain (ι : Type u) where
  | testRunning
  | testEmpty
  | wait
  | write (batch : List (LogEntry ι)) (pending : Word)
  | inSink (batch : List (LogEntry ι)) (pending : Word) (c : Option (LogCall ι))
  | notifyAll
  | exited
deriving DecidableEq

/-- The members of the logger, and its threads. -/
structure State (ι : Type u) where
  minLevel : LogLevel
  running : Bool
  queue : List (LogEntry ι)
  flushGenPending : Word
  flushGenDone : Word
  call : ι → Call ι
  drain : Drain ι
  /-- The destructor has been called. -/
  destroying : Bool

/-- What an observer records. -/
inductive Event (ι : Type u) where
  /-- A call of `log` for the entry read the minimal level. -/
  | levelRead (who : Caller ι) (entry : LogEntry ι) (minLevel : LogLevel)
  | pushed (who : Caller ι) (entry : LogEntry ι)
  | delivered (entry : LogEntry ι)
  | flushTicket (t : ι) (target : Word)
  | flushReturned (t : ι)
  | destroyed (t : ι)
deriving DecidableEq

/-- Calls, and the steps inside calls; `now` is the time that `log` reads. -/
inductive Act (ι : Type u) where
  | callLog (t : ι) (level : LogLevel) (message : String)
  | callSetLevel (t : ι) (level : LogLevel)
  | callFlush (t : ι)
  | destroy (t : ι)
  | sinkLog (level : LogLevel) (message : String)
  | log (who : Caller ι) (now : Nat)
  | go (t : ι)
  | spurious (t : ι)
  | drain

variable {ι : Type u}

/-- The batch that the drain thread has taken and not delivered yet. -/
def Drain.batch : Drain ι → List (LogEntry ι)
  | .write batch _ => batch
  | .inSink batch _ _ => batch
  | _ => []

/-- The call of `log` that a thread is executing. -/
def State.logCall? (s : State ι) : Caller ι → Option (LogCall ι)
  | .client t =>
      match s.call t with
      | .log c => some c
      | _ => none
  | .drain =>
      match s.drain with
      | .inSink _ _ c => c
      | _ => none

/-- The effect of `flush_cv_.notify_all()` on one client. -/
def Call.wake : Call ι → Call ι
  | .flush (.asleep target) k => .flush (.check target) k
  | c => c

variable [DecidableEq ι]

/-- Move a client. -/
def State.setCall (s : State ι) (t : ι) (c : Call ι) : State ι :=
  { s with call := Function.update s.call t c }

/-- Move the call of `log` that a thread is executing. -/
def State.setLog (s : State ι) (who : Caller ι) (c : Option (LogCall ι)) : State ι :=
  match who with
  | .client t =>
      match c with
      | none => s.setCall t .idle
      | some c => s.setCall t (.log c)
  | .drain =>
      match s.drain with
      | .inSink batch pending _ => { s with drain := .inSink batch pending c }
      | _ => s

/-- The next step of `log`. -/
def logStep (s : State ι) (who : Caller ι) (now : Nat) :
    Option (State ι × List (Event ι)) :=
  match s.logCall? who with
  | none => none
  | some (.load level message) =>
      let entry : LogEntry ι :=
        { level := level, message := message, timestamp := now, threadId := who }
      if level.toNat < s.minLevel.toNat then
        some (s.setLog who none, [.levelRead who entry s.minLevel])
      else some (s.setLog who (some (.push entry)), [.levelRead who entry s.minLevel])
  | some (.push entry) =>
      some ({ s.setLog who (some .notify) with queue := s.queue ++ [entry] },
        [.pushed who entry])
  | some .notify => some (s.setLog who none, [])

/-- What a thread does after `flush`. -/
def After.call : After → Call ι
  | .return => .idle
  | .destroy => .stop

/-- The next step of a client that is not in `log`. -/
def goStep (s : State ι) (t : ι) : Option (State ι × List (Event ι)) :=
  match s.call t with
  | .setLevel level => some ({ s.setCall t .idle with minLevel := level }, [])
  | .flush .ticket k =>
      let target := s.flushGenPending + 1
      some ({ s.setCall t (.flush (.notify target) k) with flushGenPending := target },
        [.flushTicket t target])
  | .flush (.notify target) k => some (s.setCall t (.flush (.check target) k), [])
  | .flush (.check target) k =>
      if target ≤ s.flushGenDone then some (s.setCall t k.call, [.flushReturned t])
      else some (s.setCall t (.flush (.asleep target) k), [])
  | .stop => some ({ s.setCall t .stopNotify with running := false }, [])
  | .stopNotify => some (s.setCall t .join, [])
  | .join =>
      match s.drain with
      | .exited => some (s.setCall t .idle, [.destroyed t])
      | _ => none
  | _ => none

/-- The next step of `drain_loop`. -/
def drainStep (s : State ι) : Option (State ι × List (Event ι)) :=
  match s.drain with
  | .testRunning =>
      if s.running then some ({ s with drain := .wait }, [])
      else some ({ s with drain := .testEmpty }, [])
  | .testEmpty =>
      if s.queue = [] then some ({ s with drain := .exited }, [])
      else some ({ s with drain := .wait }, [])
  | .wait =>
      some ({ s with drain := .write s.queue s.flushGenPending, queue := [] }, [])
  | .write (entry :: batch) pending =>
      some ({ s with drain := .inSink batch pending none }, [.delivered entry])
  | .inSink batch pending none => some ({ s with drain := .write batch pending }, [])
  | .write [] pending => some ({ s with drain := .notifyAll, flushGenDone := pending }, [])
  | .notifyAll =>
      some ({ s with drain := .testRunning, call := fun t => (s.call t).wake }, [])
  | _ => none

variable [Fintype ι]

/-- One step of the logger. -/
def step (s : State ι) : Act ι → Option (State ι × List (Event ι))
  | .callLog t level message =>
      if s.call t = .idle ∧ s.destroying = false then
        some (s.setCall t (.log (.load level message)), [])
      else none
  | .callSetLevel t level =>
      if s.call t = .idle ∧ s.destroying = false then
        some (s.setCall t (.setLevel level), [])
      else none
  | .callFlush t =>
      if s.call t = .idle ∧ s.destroying = false then
        some (s.setCall t (.flush .ticket .return), [])
      else none
  | .destroy t =>
      if (∀ u, s.call u = .idle) ∧ s.destroying = false then
        some ({ s.setCall t (.flush .ticket .destroy) with destroying := true }, [])
      else none
  | .sinkLog level message =>
      match s.drain with
      | .inSink batch pending none =>
          some ({ s with drain := .inSink batch pending (some (.load level message)) }, [])
      | _ => none
  | .log who now => logStep s who now
  | .go t => goStep s t
  | .spurious t =>
      match s.call t with
      | .flush (.asleep target) k => some (s.setCall t (.flush (.check target) k), [])
      | _ => none
  | .drain => drainStep s

/-- A constructed logger whose drain thread has been started. -/
def logger (minLevel : LogLevel) : Machine (State ι) (Act ι) (Event ι) where
  init :=
    { minLevel := minLevel
      running := true
      queue := []
      flushGenPending := 0
      flushGenDone := 0
      call := fun _ => .idle
      drain := .testRunning
      destroying := false }
  step := step

/-- The state of a client that has just called an operation. -/
def Call.isEntry : Call ι → Bool
  | .log (.load _ _) => true
  | .setLevel _ => true
  | .flush .ticket .return => true
  | _ => false

/-- What a step can do, one constructor for each way through the source. -/
inductive Move (s : State ι) : State ι → List (Event ι) → Prop
  | enter {t : ι} {c : Call ι} (hidle : s.call t = .idle) (hopen : s.destroying = false)
      (hc : c.isEntry = true) : Move s (s.setCall t c) []
  | destroy {t : ι} (hidle : ∀ u, s.call u = .idle) (hopen : s.destroying = false) :
      Move s { s.setCall t (.flush .ticket .destroy) with destroying := true } []
  | sinkLog {batch : List (LogEntry ι)} {pending : Word} {level : LogLevel}
      {message : String} (hd : s.drain = .inSink batch pending none) :
      Move s { s with drain := .inSink batch pending (some (.load level message)) } []
  | discard {who : Caller ι} {level : LogLevel} {message : String} {now : Nat}
      (hc : s.logCall? who = some (.load level message))
      (hlevel : level.toNat < s.minLevel.toNat) :
      Move s (s.setLog who none)
        [.levelRead who { level, message, timestamp := now, threadId := who } s.minLevel]
  | record {who : Caller ι} {level : LogLevel} {message : String} {now : Nat}
      (hc : s.logCall? who = some (.load level message))
      (hlevel : ¬ level.toNat < s.minLevel.toNat) :
      Move s
        (s.setLog who (some (.push { level, message, timestamp := now, threadId := who })))
        [.levelRead who { level, message, timestamp := now, threadId := who } s.minLevel]
  | push {who : Caller ι} {entry : LogEntry ι} (hc : s.logCall? who = some (.push entry)) :
      Move s { s.setLog who (some .notify) with queue := s.queue ++ [entry] }
        [.pushed who entry]
  | logReturn {who : Caller ι} (hc : s.logCall? who = some .notify) :
      Move s (s.setLog who none) []
  | setLevel {t : ι} {level : LogLevel} (hc : s.call t = .setLevel level) :
      Move s { s.setCall t .idle with minLevel := level } []
  | ticket {t : ι} {k : After} (hc : s.call t = .flush .ticket k) :
      Move s
        { s.setCall t (.flush (.notify (s.flushGenPending + 1)) k) with
          flushGenPending := s.flushGenPending + 1 }
        [.flushTicket t (s.flushGenPending + 1)]
  | flushNotify {t : ι} {target : Word} {k : After}
      (hc : s.call t = .flush (.notify target) k) :
      Move s (s.setCall t (.flush (.check target) k)) []
  | flushReturn {t : ι} {target : Word} {k : After}
      (hc : s.call t = .flush (.check target) k) (hdone : target ≤ s.flushGenDone) :
      Move s (s.setCall t k.call) [.flushReturned t]
  | flushSleep {t : ι} {target : Word} {k : After}
      (hc : s.call t = .flush (.check target) k) (hwait : ¬ target ≤ s.flushGenDone) :
      Move s (s.setCall t (.flush (.asleep target) k)) []
  | spurious {t : ι} {target : Word} {k : After}
      (hc : s.call t = .flush (.asleep target) k) :
      Move s (s.setCall t (.flush (.check target) k)) []
  | stop {t : ι} (hc : s.call t = .stop) :
      Move s { s.setCall t .stopNotify with running := false } []
  | stopNotify {t : ι} (hc : s.call t = .stopNotify) : Move s (s.setCall t .join) []
  | join {t : ι} (hc : s.call t = .join) (hd : s.drain = .exited) :
      Move s (s.setCall t .idle) [.destroyed t]
  | goOn (hd : s.drain = .testRunning) (hr : s.running = true) :
      Move s { s with drain := .wait } []
  | stopping (hd : s.drain = .testRunning) (hr : s.running = false) :
      Move s { s with drain := .testEmpty } []
  | exit (hd : s.drain = .testEmpty) (hq : s.queue = []) :
      Move s { s with drain := .exited } []
  | again (hd : s.drain = .testEmpty) : Move s { s with drain := .wait } []
  | swap (hd : s.drain = .wait) :
      Move s { s with drain := .write s.queue s.flushGenPending, queue := [] } []
  | deliver {entry : LogEntry ι} {batch : List (LogEntry ι)} {pending : Word}
      (hd : s.drain = .write (entry :: batch) pending) :
      Move s { s with drain := .inSink batch pending none } [.delivered entry]
  | sinkReturn {batch : List (LogEntry ι)} {pending : Word}
      (hd : s.drain = .inSink batch pending none) :
      Move s { s with drain := .write batch pending } []
  | publish {pending : Word} (hd : s.drain = .write [] pending) :
      Move s { s with drain := .notifyAll, flushGenDone := pending } []
  | notifyAll (hd : s.drain = .notifyAll) :
      Move s { s with drain := .testRunning, call := fun t => (s.call t).wake } []

omit [Fintype ι] in
theorem logStep_move {s s' : State ι} {who : Caller ι} {now : Nat} {es : List (Event ι)}
    (h : logStep s who now = some (s', es)) : Move s s' es := by
  unfold logStep at h
  split at h
  · cases h
  · next level message hc =>
      dsimp only at h
      split at h
      · next hlevel =>
          obtain ⟨rfl, rfl⟩ := by simpa using h
          exact .discard hc hlevel
      · next hlevel =>
          obtain ⟨rfl, rfl⟩ := by simpa using h
          exact .record hc hlevel
  · next entry hc =>
      obtain ⟨rfl, rfl⟩ := by simpa using h
      exact .push hc
  · next hc =>
      obtain ⟨rfl, rfl⟩ := by simpa using h
      exact .logReturn hc

omit [Fintype ι] in
theorem goStep_move {s s' : State ι} {t : ι} {es : List (Event ι)}
    (h : goStep s t = some (s', es)) : Move s s' es := by
  unfold goStep at h
  split at h
  · next level hc =>
      obtain ⟨rfl, rfl⟩ := by simpa using h
      exact .setLevel hc
  · next k hc =>
      obtain ⟨rfl, rfl⟩ := by simpa using h
      exact .ticket hc
  · next target k hc =>
      obtain ⟨rfl, rfl⟩ := by simpa using h
      exact .flushNotify hc
  · next target k hc =>
      split at h
      · next hdone =>
          obtain ⟨rfl, rfl⟩ := by simpa using h
          exact .flushReturn hc hdone
      · next hwait =>
          obtain ⟨rfl, rfl⟩ := by simpa using h
          exact .flushSleep hc hwait
  · next hc =>
      obtain ⟨rfl, rfl⟩ := by simpa using h
      exact .stop hc
  · next hc =>
      obtain ⟨rfl, rfl⟩ := by simpa using h
      exact .stopNotify hc
  · next hc =>
      split at h
      · next hd =>
          obtain ⟨rfl, rfl⟩ := by simpa using h
          exact .join hc hd
      · cases h
  · cases h

omit [Fintype ι] [DecidableEq ι] in
theorem drainStep_move [DecidableEq ι] {s s' : State ι} {es : List (Event ι)}
    (h : drainStep s = some (s', es)) : Move s s' es := by
  unfold drainStep at h
  split at h
  · next hd =>
      split at h
      · next hr =>
          obtain ⟨rfl, rfl⟩ := by simpa using h
          exact .goOn hd hr
      · next hr =>
          obtain ⟨rfl, rfl⟩ := by simpa using h
          exact .stopping hd (by simpa using hr)
  · next hd =>
      split at h
      · next hq =>
          obtain ⟨rfl, rfl⟩ := by simpa using h
          exact .exit hd hq
      · obtain ⟨rfl, rfl⟩ := by simpa using h
        exact .again hd
  · next hd =>
      obtain ⟨rfl, rfl⟩ := by simpa using h
      exact .swap hd
  · next entry batch pending hd =>
      obtain ⟨rfl, rfl⟩ := by simpa using h
      exact .deliver hd
  · next batch pending hd =>
      obtain ⟨rfl, rfl⟩ := by simpa using h
      exact .sinkReturn hd
  · next pending hd =>
      obtain ⟨rfl, rfl⟩ := by simpa using h
      exact .publish hd
  · next hd =>
      obtain ⟨rfl, rfl⟩ := by simpa using h
      exact .notifyAll hd
  · cases h

/-- Inversion of a step; every later argument starts from this lemma. -/
theorem step_move {s s' : State ι} {a : Act ι} {es : List (Event ι)}
    (h : step s a = some (s', es)) : Move s s' es := by
  cases a with
  | callLog t level message =>
      simp only [step] at h
      split at h
      · next hc =>
          obtain ⟨rfl, rfl⟩ := by simpa using h
          exact .enter hc.1 hc.2 rfl
      · cases h
  | callSetLevel t level =>
      simp only [step] at h
      split at h
      · next hc =>
          obtain ⟨rfl, rfl⟩ := by simpa using h
          exact .enter hc.1 hc.2 rfl
      · cases h
  | callFlush t =>
      simp only [step] at h
      split at h
      · next hc =>
          obtain ⟨rfl, rfl⟩ := by simpa using h
          exact .enter hc.1 hc.2 rfl
      · cases h
  | destroy t =>
      simp only [step] at h
      split at h
      · next hc =>
          obtain ⟨rfl, rfl⟩ := by simpa using h
          exact .destroy hc.1 hc.2
      · cases h
  | sinkLog level message =>
      simp only [step] at h
      split at h
      · next batch pending hd =>
          obtain ⟨rfl, rfl⟩ := by simpa using h
          exact .sinkLog hd
      · cases h
  | log who now => exact logStep_move h
  | go t => exact goStep_move h
  | spurious t =>
      simp only [step] at h
      split at h
      · next target k hc =>
          obtain ⟨rfl, rfl⟩ := by simpa using h
          exact .spurious hc
      · cases h
  | drain => exact drainStep_move h

end Logger
end AsyncTaskEngine
