import AsyncTaskEngine.Machine
import Mathlib.Logic.Function.Basic

/-!
# The atomic bounded FIFO object

The object that a concurrent bounded queue is meant to implement.  A call of a
thread takes effect in one internal step between its invocation and its
response: a push appends its element, or fails when `cap` elements are held; a
pop removes the oldest element, or fails when none is held.

A history of invocations and responses is `Linearizable` when the object can
produce it.
-/

namespace AsyncTaskEngine
namespace FifoObject

universe u v

/-- The call of a thread, before and after it has taken effect. -/
inductive Call (α : Type v) where
  | idle
  | pushing (value : α)
  | pushed (ok : Bool)
  | popping
  | popped (result : Option α)

/-- The elements held, oldest first, and the calls in progress. -/
structure State (ι : Type u) (α : Type v) where
  queue : List α
  call : ι → Call α

/-- An invocation, the internal step of a call, or its response. -/
inductive Act (ι : Type u) (α : Type v) where
  | push (t : ι) (value : α)
  | pop (t : ι)
  | effect (t : ι)
  | respond (t : ι)

/-- Invocations and responses. -/
inductive Event (ι : Type u) (α : Type v) where
  | pushCalled (t : ι) (value : α)
  | pushReturned (t : ι) (ok : Bool)
  | popCalled (t : ι)
  | popReturned (t : ι) (result : Option α)

variable {ι : Type u} {α : Type v} [DecidableEq ι]

/-- Move the call of a thread. -/
def State.setCall (a : State ι α) (t : ι) (c : Call α) : State ι α :=
  { a with call := Function.update a.call t c }

section SetCall

variable (a : State ι α) (t : ι) (c : Call α)

@[simp] theorem setCall_self : (a.setCall t c).call t = c := by
  simp [State.setCall]

@[simp] theorem setCall_setCall (d : Call α) :
    (a.setCall t c).setCall t d = a.setCall t d := by
  simp [State.setCall]

theorem setCall_ne {u : ι} (h : u ≠ t) : (a.setCall t c).call u = a.call u := by
  simp [State.setCall, h]

end SetCall

/-- One step of the object holding at most `cap` elements. -/
def step (cap : Nat) (a : State ι α) :
    Act ι α → Option (State ι α × List (Event ι α))
  | .push t value =>
      match a.call t with
      | .idle => some (a.setCall t (.pushing value), [.pushCalled t value])
      | _ => none
  | .pop t =>
      match a.call t with
      | .idle => some (a.setCall t .popping, [.popCalled t])
      | _ => none
  | .effect t =>
      match a.call t with
      | .pushing value =>
          if a.queue.length < cap then
            some ({ a.setCall t (.pushed true) with queue := a.queue ++ [value] }, [])
          else some (a.setCall t (.pushed false), [])
      | .popping =>
          match a.queue with
          | [] => some (a.setCall t (.popped none), [])
          | value :: queue =>
              some ({ a.setCall t (.popped (some value)) with queue := queue }, [])
      | _ => none
  | .respond t =>
      match a.call t with
      | .pushed ok => some (a.setCall t .idle, [.pushReturned t ok])
      | .popped result => some (a.setCall t .idle, [.popReturned t result])
      | _ => none

/-- The object, initially empty. -/
def object (cap : Nat) : Machine (State ι α) (Act ι α) (Event ι α) where
  init := { queue := [], call := fun _ => .idle }
  step := step cap

/-- The history is one of the atomic bounded FIFO object. -/
def Linearizable (cap : Nat) (history : List (Event ι α)) : Prop :=
  ∃ a, (object cap).Reach a history

section Steps

variable {cap : Nat} {a : State ι α} {t : ι}

theorem step_push {value : α} (h : a.call t = .idle) :
    step cap a (.push t value) =
      some (a.setCall t (.pushing value), [.pushCalled t value]) := by
  simp [step, h]

theorem step_pop (h : a.call t = .idle) :
    step cap a (.pop t) = some (a.setCall t .popping, [.popCalled t]) := by
  simp [step, h]

theorem step_effect_push {value : α} (h : a.call t = .pushing value)
    (room : a.queue.length < cap) :
    step cap a (.effect t) =
      some ({ a.setCall t (.pushed true) with queue := a.queue ++ [value] }, []) := by
  simp [step, h, room]

theorem step_effect_full {value : α} (h : a.call t = .pushing value)
    (full : cap ≤ a.queue.length) :
    step cap a (.effect t) = some (a.setCall t (.pushed false), []) := by
  simp [step, h, Nat.not_lt.mpr full]

theorem step_effect_pop {value : α} {queue : List α} (h : a.call t = .popping)
    (hq : a.queue = value :: queue) :
    step cap a (.effect t) =
      some ({ a.setCall t (.popped (some value)) with queue := queue }, []) := by
  simp [step, h, hq]

theorem step_effect_empty (cap : Nat) (h : a.call t = .popping) (hq : a.queue = []) :
    step cap a (.effect t) = some (a.setCall t (.popped none), []) := by
  simp [step, h, hq]

theorem step_respond_push (cap : Nat) {ok : Bool} (h : a.call t = .pushed ok) :
    step cap a (.respond t) =
      some (a.setCall t .idle, [.pushReturned t ok]) := by
  simp [step, h]

theorem step_respond_pop (cap : Nat) {result : Option α} (h : a.call t = .popped result) :
    step cap a (.respond t) =
      some (a.setCall t .idle, [.popReturned t result]) := by
  simp [step, h]

/-- A push that finds the object full takes effect and responds. -/
theorem exec_full {value : α} (h : a.call t = .pushing value)
    (full : cap ≤ a.queue.length) :
    (object cap).exec a [.effect t, .respond t] =
      some (a.setCall t .idle, [.pushReturned t false]) := by
  have heffect := step_effect_full h full
  have hrespond := step_respond_push cap (setCall_self a t (.pushed false))
  rw [setCall_setCall] at hrespond
  simp [Machine.exec, object, heffect, hrespond]

/-- A pop that finds the object empty takes effect and responds. -/
theorem exec_empty (h : a.call t = .popping) (hq : a.queue = []) :
    (object cap).exec a [.effect t, .respond t] =
      some (a.setCall t .idle, [.popReturned t none]) := by
  have heffect := step_effect_empty cap h hq
  have hrespond := step_respond_pop cap (setCall_self a t (.popped none))
  rw [setCall_setCall] at hrespond
  simp [Machine.exec, object, heffect, hrespond]

end Steps

end FifoObject
end AsyncTaskEngine
