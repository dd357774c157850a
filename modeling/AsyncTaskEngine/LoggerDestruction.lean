import AsyncTaskEngine.LoggerDelivery
import AsyncTaskEngine.ThreadTotal

/-!
# The destructor of the logger returns

When the flush of the destructor has returned, `running_` becomes `false`, and
the drain thread empties the queue and leaves its loop.  `State.todo` adds up
the steps that it and the thread of the destructor still have before them, with
seven for each entry in the queue.  Every step lowers it, unless the sink calls
`log`: a sink that logs whenever it is called keeps `~Logger` from returning.

The main result is `destructor_terminates`.
-/

namespace AsyncTaskEngine
namespace Logger

universe u

variable {ι : Type u}

/-- The steps that a call of `log` inside the sink has before it, and those for its entry. -/
def LogCall.todo : LogCall ι → Nat
  | .load _ _ => 10
  | .push _ => 9
  | .notify => 1

/-- The steps of the drain thread, once `running_` is `false`, for a queue of this length. -/
def Drain.todo (queued : Nat) : Drain ι → Nat
  | .testRunning => 7 * queued + 2
  | .testEmpty => 7 * queued + 1
  | .wait => 2 * queued + 5
  | .write batch _ => 7 * queued + 2 * batch.length + 4
  | .inSink batch _ c => 7 * queued + 2 * batch.length + 5 + (c.map LogCall.todo).getD 0
  | .notifyAll => 7 * queued + 3
  | .exited => 0

/-- The steps of the thread that executes the destructor. -/
def Call.todo : Call ι → Nat
  | .stopNotify => 2
  | .join => 1
  | _ => 0

/-- What an action adds to the steps that lie ahead, its own included. -/
def Act.cost : Act ι → Nat
  | .sinkLog _ _ => 11
  | _ => 0

theorem wake_todo (c : Call ι) : c.wake.todo = c.todo := by
  cases c with
  | flush f k => cases f <;> rfl
  | _ => rfl

variable [Fintype ι]

/-- The steps that lie ahead of a logger that is not running any more. -/
def State.todo (s : State ι) : Nat :=
  s.drain.todo s.queue.length + total Call.todo s.call

variable [DecidableEq ι] {minLevel : LogLevel} {s s' : State ι} {tr es : List (Event ι)}

/-- A step of the thread that executes the destructor. -/
theorem todo_of_client {t : ι} {c : Call ι} (hle : c.todo + 1 ≤ (s.call t).todo) :
    (s.setCall t c).todo + 1 ≤ s.todo := by
  have hupdate := total_update Call.todo s.call t c
  simp only [State.todo, State.setCall]
  omega

omit [DecidableEq ι] in
/-- A step of the drain thread. -/
theorem todo_of_drain {k : Nat} (hcall : s'.call = s.call)
    (hle : s'.drain.todo s'.queue.length + 1 ≤ s.drain.todo s.queue.length + k) :
    s'.todo + 1 ≤ s.todo + k := by
  rw [State.todo, State.todo, hcall]
  omega

/-- A step of a call of `log` that the sink makes. -/
theorem todo_log {now : Nat} {who : Caller ι} (hstop : ∀ t, (s.call t).stopped = true)
    (h : logStep s who now = some (s', es)) : s'.todo + 1 ≤ s.todo := by
  cases who with
  | client t =>
      have hnone : s.logCall? (.client t) = none := by
        have ht := hstop t
        cases hc : s.call t with
        | log c =>
            rw [hc] at ht
            cases ht
        | _ => simp [State.logCall?, hc]
      simp [logStep, hnone] at h
  | drain =>
      cases hd : s.drain with
      | inSink batch pending c =>
          cases c with
          | none => simp [logStep, State.logCall?, hd] at h
          | some c =>
              cases c with
              | load level message =>
                  simp only [logStep, State.logCall?, State.setLog, hd] at h
                  split at h <;>
                    (obtain ⟨rfl, rfl⟩ := by simpa using h
                     refine todo_of_drain (k := 0) rfl ?_
                     simp [hd, Drain.todo, LogCall.todo])
              | push entry =>
                  simp only [logStep, State.logCall?, State.setLog, hd] at h
                  obtain ⟨rfl, rfl⟩ := by simpa using h
                  refine todo_of_drain (k := 0) rfl ?_
                  simp only [hd, Drain.todo, LogCall.todo, List.length_append,
                    List.length_singleton, Option.map_some, Option.getD_some]
                  omega
              | notify =>
                  simp only [logStep, State.logCall?, State.setLog, hd] at h
                  obtain ⟨rfl, rfl⟩ := by simpa using h
                  refine todo_of_drain (k := 0) rfl ?_
                  simp [hd, Drain.todo, LogCall.todo]
      | _ => simp [logStep, State.logCall?, hd] at h

/-- A step of the thread that executes the destructor. -/
theorem todo_go {t : ι} (hstop : ∀ t, (s.call t).stopped = true)
    (h : goStep s t = some (s', es)) : s'.todo + 1 ≤ s.todo := by
  have ht := hstop t
  cases hc : s.call t with
  | stopNotify =>
      rw [goStep, hc] at h
      obtain ⟨rfl, rfl⟩ := by simpa using h
      exact todo_of_client (by rw [hc]; exact Nat.le_refl _)
  | join =>
      simp only [goStep, hc] at h
      split at h
      · obtain ⟨rfl, rfl⟩ := by simpa using h
        exact todo_of_client (by rw [hc]; exact Nat.le_refl _)
      · cases h
  | idle => simp [goStep, hc] at h
  | _ =>
      rw [hc] at ht
      cases ht

omit [DecidableEq ι] in
/-- A step of `drain_loop`. -/
theorem todo_drainStep (hrun : s.running = false) (h : drainStep s = some (s', es)) :
    s'.todo + 1 ≤ s.todo := by
  unfold drainStep at h
  split at h
  case h_1 hd =>
    rw [hrun] at h
    obtain ⟨rfl, rfl⟩ := by simpa using h
    exact todo_of_drain (k := 0) rfl (by rw [hd]; exact Nat.le_refl _)
  case h_2 hd =>
    split at h
    · next hq =>
        obtain ⟨rfl, rfl⟩ := by simpa using h
        refine todo_of_drain (k := 0) rfl ?_
        rw [hd]
        simp only [Drain.todo]
        omega
    · next hq =>
        have hpos := List.length_pos_iff.mpr hq
        obtain ⟨rfl, rfl⟩ := by simpa using h
        refine todo_of_drain (k := 0) rfl ?_
        rw [hd]
        simp only [Drain.todo]
        omega
  case h_3 hd =>
    obtain ⟨rfl, rfl⟩ := by simpa using h
    refine todo_of_drain (k := 0) rfl ?_
    rw [hd]
    simp [Drain.todo]
  case h_4 entry batch pending hd =>
    obtain ⟨rfl, rfl⟩ := by simpa using h
    refine todo_of_drain (k := 0) rfl ?_
    rw [hd]
    simp only [Drain.todo, List.length_cons, Option.map_none, Option.getD_none]
    omega
  case h_5 batch pending hd =>
    obtain ⟨rfl, rfl⟩ := by simpa using h
    exact todo_of_drain (k := 0) rfl (by rw [hd]; exact Nat.le_refl _)
  case h_6 pending hd =>
    obtain ⟨rfl, rfl⟩ := by simpa using h
    exact todo_of_drain (k := 0) rfl (by rw [hd]; exact Nat.le_refl _)
  case h_7 hd =>
    obtain ⟨rfl, rfl⟩ := by simpa using h
    have hsame : total Call.todo (fun t => (s.call t).wake) = total Call.todo s.call :=
      total_congr fun t => wake_todo (s.call t)
    simp only [State.todo, hsame, hd, Drain.todo]
    omega
  case h_8 => cases h

/-- Every step lowers what lies ahead, unless the sink calls `log`. -/
theorem todo_step {a : Act ι} (hclose : s.destroying = true) (hrun : s.running = false)
    (hstop : ∀ t, (s.call t).stopped = true) (h : step s a = some (s', es)) :
    s'.todo + 1 ≤ s.todo + a.cost := by
  cases a with
  | callLog t level message => simp [step, hclose] at h
  | callSetLevel t level => simp [step, hclose] at h
  | callFlush t => simp [step, hclose] at h
  | destroy t => simp [step, hclose] at h
  | sinkLog level message =>
      simp only [step] at h
      split at h
      · next batch pending hd =>
          obtain ⟨rfl, rfl⟩ := by simpa using h
          refine todo_of_drain rfl ?_
          rw [hd]
          exact Nat.le_refl _
      · cases h
  | log who now => exact todo_log hstop h
  | go t => exact todo_go hstop h
  | spurious t =>
      have ht := hstop t
      simp only [step] at h
      split at h
      · next target k hc =>
          rw [hc] at ht
          cases ht
      · cases h
  | drain => exact todo_drainStep hrun h

/-- A drain thread that cannot move has left its loop. -/
theorem exited_of_stuck (hdrain : step s .drain = none)
    (hlog : ∀ now, step s (.log .drain now) = none) : s.drain = .exited := by
  simp only [step, drainStep] at hdrain
  cases hd : s.drain with
  | exited => rfl
  | testRunning =>
      rw [hd] at hdrain
      dsimp only at hdrain
      split at hdrain <;> cases hdrain
  | testEmpty =>
      rw [hd] at hdrain
      dsimp only at hdrain
      split at hdrain <;> cases hdrain
  | write batch pending =>
      rw [hd] at hdrain
      cases batch <;> cases hdrain
  | inSink batch pending c =>
      rw [hd] at hdrain
      cases c with
      | none => cases hdrain
      | some c =>
          have hstep := hlog 0
          simp only [step, logStep, State.logCall?, hd] at hstep
          cases c with
          | load level message =>
              dsimp only at hstep
              split at hstep <;> cases hstep
          | push entry => cases hstep
          | notify => cases hstep
  | _ =>
      rw [hd] at hdrain
      cases hdrain

/-- With the drain thread gone, a thread of the destructor that cannot move has returned. -/
theorem idle_of_stuck {t : ι} (hexited : s.drain = .exited) (hstop : (s.call t).stopped = true)
    (hgo : step s (.go t) = none) : s.call t = .idle := by
  simp only [step, goStep] at hgo
  cases hc : s.call t with
  | idle => rfl
  | stopNotify =>
      rw [hc] at hgo
      cases hgo
  | join =>
      rw [hc, hexited] at hgo
      cases hgo
  | _ =>
      rw [hc] at hstop
      cases hstop

/-- `running_` is never set again. -/
theorem stays_stopped (hrun : s.running = false) {a : Act ι} (h : step s a = some (s', es)) :
    s'.running = false := by
  cases step_move h with
  | discard hc hlevel => rw [setLog_running, hrun]
  | record hc hlevel => rw [setLog_running, hrun]
  | push hc => exact (setLog_running ..).trans hrun
  | logReturn hc => rw [setLog_running, hrun]
  | stop hc => rfl
  | _ => exact hrun

/-- What is left to happen to a logger that is not running any more. -/
structure Terminates (minLevel : LogLevel) (s : State ι) (tr : List (Event ι)) : Prop where
  /-- A schedule in which the sink does not log has at most `s.todo` steps. -/
  bounded : ∀ {as : List (Act ι)} {s' es}, (logger minLevel).exec s as = some (s', es) →
    as.length + s'.todo ≤ s.todo + (as.map Act.cost).sum
  /-- It stops when `~Logger` has returned and everything has been delivered. -/
  joined : ∀ {as : List (Act ι)} {s' es}, (logger minLevel).exec s as = some (s', es) →
    step s' .drain = none → (∀ now, step s' (.log .drain now) = none) →
      (∀ t, step s' (.go t) = none) →
        (∀ t, s'.call t = .idle) ∧ delivered (tr ++ es) = pushed (tr ++ es)

/--
Once `running_` is `false`, the destructor returns after a bounded number of
steps, to which every call of `log` from inside the sink adds at most eleven.
-/
theorem destructor_terminates (hr : (logger minLevel : Machine (State ι) _ _).Reach s tr)
    (hrun : s.running = false) : Terminates minLevel s tr where
  bounded he := by
    refine Machine.exec_amortized (M := logger minLevel) State.todo Act.cost
      (I := fun s tr => (logger minLevel).Reach s tr ∧ s.running = false)
      (B := fun _ => True) (fun _ _ _ => trivial) ?_ ?_ ⟨hr, hrun⟩ he trivial
    · rintro s tr a s' es ⟨hr, hrun⟩ hs
      exact ⟨.step hr hs, stays_stopped hrun hs⟩
    · rintro s tr a s' es ⟨hr, hrun⟩ _ hs
      obtain ⟨hclose, hstop⟩ := (reach_closing hr).stopping hrun
      exact todo_step hclose hrun hstop hs
  joined he hdrain hlog hgo := by
    have hr' := hr.exec he
    have hrun' := Machine.exec_invariant (P := fun s' _ => s'.running = false) he hrun
      fun _ hp hs => stays_stopped hp hs
    have hexited := exited_of_stuck hdrain hlog
    have hclosing := reach_closing hr'
    refine ⟨fun t => idle_of_stuck hexited ((hclosing.stopping hrun').2 t) (hgo t), ?_⟩
    have hflow := reach_flow hr'
    rw [Flow, hexited, (hclosing.exited hexited).2] at hflow
    simpa [Drain.batch] using hflow.symm

/-- The destructor stops the drain thread when the sink has just logged an entry. -/
theorem destructor_terminates_sinkLogs :
    ∃ (s : State (Fin 2)) (tr : List (Event (Fin 2))),
      s.queue.map LogEntry.message = ["inner"] ∧ s.todo = 12 ∧
        Terminates .info s tr := by
  obtain ⟨s, tr, hr, h⟩ :=
    Machine.exists_reach_of_exec (M := (logger .info : Machine (State (Fin 2)) _ _))
      ([.callLog 0 .info "outer", .log (.client 0) 1, .log (.client 0) 0, .log (.client 0) 0,
        .destroy 1, .go 1, .drain, .drain, .drain, .sinkLog .warn "inner", .log .drain 2,
        .log .drain 0, .log .drain 0, .drain, .drain, .go 1, .go 1, .go 1] :
          List (Act (Fin 2)))
      (p := fun r => decide (r.1.queue.map LogEntry.message = ["inner"] ∧ r.1.todo = 12 ∧
        r.1.running = false))
      (by decide)
  obtain ⟨hqueue, htodo, hrun⟩ := of_decide_eq_true h
  exact ⟨s, tr, hqueue, htodo, destructor_terminates hr hrun⟩

end Logger
end AsyncTaskEngine
