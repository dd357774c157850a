import AsyncTaskEngine.CoroDelay
import AsyncTaskEngine.CoroTaskOwnership
import Mathlib.Logic.Function.Iterate

/-!
# A coroutine that awaits schedules and delays is resumed once at each of them

At a `co_await pool.schedule()` the right to resume the coroutine passes to the
task that is submitted, and at a `co_await asio.delay(d)` to the handler of the
timer.  `Rights` is the invariant: there is never more than one of these, and the
coroutine is suspended at the point that it belongs to.

As long as the owner resumes the coroutine only at its initial suspension, and
destroys it only there or after the awaiter at its end, the segments of the body
are executed once each and in order, whichever threads of the pool and of the
context execute them, and also across a shutdown of the pool and the destruction
of the context, and what the coroutine stores is the result of the body or the
exception of the first `submit` that threw: `mixed_resumed_once`.
-/

namespace AsyncTaskEngine
namespace ThreadPool
namespace CoroDelay

open CoroTask (Frame Body Stage Ended segments resumptions rejections)

universe u v w

variable {N : Nat} {ι : Type u} {V : Type v} {E : Type w}

/-- An event as one of a `CoroTask`; a handler resumes the frame as an owner does. -/
def coroEvent : Event N ι Body Label → Option (Event N ι Body CoroTask.Label)
  | .user t (.coro label) => some (.user t label)
  | .user t (.resume point) => some (.user t (.resume none (some point)))
  | .rejected t task => some (.rejected t task)
  | _ => none

/-- What happens to the coroutine in a run. -/
def coroTrace (tr : List (Event N ι Body Label)) : List (Event N ι Body CoroTask.Label) :=
  tr.filterMap coroEvent

@[simp] theorem coroTrace_append (tr es : List (Event N ι Body Label)) :
    coroTrace (tr ++ es) = coroTrace tr ++ coroTrace es :=
  List.filterMap_append

/--
The owner resumes the coroutine only at its initial suspension, and destroys it
only there or after the awaiter at its end.
-/
def Kept (k : Client N ι V E) (_ : List (Event N ι Body Label)) (_ : Tid N ι) : Label → Prop
  | .coro (.resume none _) => k.coro.frame = .suspended 0
  | .coro (.call c) =>
      k.coro.destroys c = true → k.coro.frame = .suspended 0 ∨ k.coro.frame = .finished
  | _ => True

instance (k : Client N ι V E) [DecidableEq ι] (tr : List (Event N ι Body Label)) (t : Tid N ι)
    (label : Label) : Decidable (Kept k tr t label) :=
  match label with
  | .coro (.resume none _) => inferInstanceAs (Decidable (k.coro.frame = .suspended 0))
  | .coro (.call c) =>
      inferInstanceAs
        (Decidable (k.coro.destroys c = true →
          k.coro.frame = .suspended 0 ∨ k.coro.frame = .finished))
  | .coro (.resume (some _) _) | .coro .test | .coro .attach | .coro (.segment _)
  | .coro .unhandledException | .coro .readPromise | .coro .fulfil | .coro .leave
  | .coro .getReturned | .asyncWait _ | .expire _ | .invoke _ | .resume _ | .handlerEnded _
  | .construct _ | .constructed | .destroyGuard | .destroyIoContext | .resetGuard | .stop
  | .waited | .discard _ | .ioContextDestroyed => isTrue trivial

/-- The task has the right to resume the coroutine. -/
structure Outstanding (k : Client N ι V E) (tr : List (Event N ι Body Label))
    (x : Task Body) : Prop where
  called : x ∈ calledTasks tr
  isResume : x.body ≠ .other
  notResumed : k.coro.resumed x.id = false
  notRejected : x ∉ rejectedTasks tr

/-- Who may resume the coroutine: a task, or the handler of a delay. -/
structure Rights (cfg : Config ι V E) (k : Client N ι V E)
    (tr : List (Event N ι Body Label)) : Prop where
  started : ∀ id, k.coro.resumed id = true → ∃ x ∈ startedTasks tr, x.id = id
  task : ∀ x, Outstanding k tr x → ∃ n, x.body = .resume (n + 1) ∧
    k.coro.frame = .suspended (n + 1) ∧ cfg.await? (n + 1) = some .schedule
  unique : ∀ x y, Outstanding k tr x → Outstanding k tr y → x = y
  handler : ∀ point, (k.handlers point).pending = true →
    k.coro.frame = .suspended point ∧ cfg.await? point = some .delay

section Rights

variable {cfg : Config ι V E} {k k' : Client N ι V E} {tr es : List (Event N ι Body Label)}

/-- Tasks that are neither submitted nor rejected keep their rights. -/
theorem outstanding_of_append {x : Task Body} (hx : Outstanding k' (tr ++ es) x)
    (hcalled : ∀ x ∈ calledTasks es, x.body = .other)
    (hres : ∀ id, k.coro.resumed id = true → k'.coro.resumed id = true) :
    Outstanding k tr x := by
  obtain ⟨hcall, hbody, hnew, hnot⟩ := hx
  rw [calledTasks_append, List.mem_append] at hcall
  rw [rejectedTasks_append, List.mem_append, not_or] at hnot
  refine ⟨hcall.resolve_right fun h => hbody (hcalled x h), hbody, ?_, hnot.1⟩
  by_contra hold
  rw [hres x.id (by simpa using hold)] at hnew
  cases hnew

theorem started_append (h : ∀ id, k.coro.resumed id = true → ∃ x ∈ startedTasks tr, x.id = id)
    (id : Nat) (hid : k.coro.resumed id = true) : ∃ x ∈ startedTasks (tr ++ es), x.id = id := by
  obtain ⟨x, hx, hxid⟩ := h id hid
  refine ⟨x, ?_, hxid⟩
  rw [startedTasks_append]
  exact List.mem_append_left _ hx

/-- A step that leaves the coroutine alone; handlers may lose their rights. -/
theorem Rights.frame (h : Rights cfg k tr) (hcalled : ∀ x ∈ calledTasks es, x.body = .other)
    (hres : k'.coro.resumed = k.coro.resumed)
    (hf : ∀ n, k.coro.frame = .suspended (n + 1) → k'.coro.frame = .suspended (n + 1))
    (hpend : ∀ point, (k'.handlers point).pending = true →
      (k.handlers point).pending = true) : Rights cfg k' (tr ++ es) where
  started id hid := started_append h.started id (hres ▸ hid)
  task x hx := by
    obtain ⟨n, hbody, hframe, hawait⟩ :=
      h.task x (outstanding_of_append hx hcalled fun id hid => by rw [hres]; exact hid)
    exact ⟨n, hbody, hf n hframe, hawait⟩
  unique x y hx hy :=
    h.unique x y (outstanding_of_append hx hcalled fun id hid => by rw [hres]; exact hid)
      (outstanding_of_append hy hcalled fun id hid => by rw [hres]; exact hid)
  handler point hp := by
    obtain ⟨hframe, hawait⟩ := h.handler point (hpend point hp)
    cases point with
    | zero => cases hawait
    | succ n => exact ⟨hf n hframe, hawait⟩

/-- A state in which nobody has the right to resume the coroutine. -/
theorem Rights.nobody
    (hstarted : ∀ id, k'.coro.resumed id = true → ∃ x ∈ startedTasks tr, x.id = id)
    (htask : ∀ x, ¬ Outstanding k' tr x) (hpend : ∀ point, (k'.handlers point).pending = false) :
    Rights cfg k' tr where
  started := hstarted
  task x hx := (htask x hx).elim
  unique x y hx _ := (htask x hx).elim
  handler point hp := by
    rw [hpend point] at hp
    cases hp

/-- Only a coroutine that is suspended past its beginning can be resumed by right. -/
theorem Rights.free (h : Rights cfg k tr) (hf : ∀ n, k.coro.frame ≠ .suspended (n + 1)) :
    (∀ x, ¬ Outstanding k tr x) ∧ ∀ point, (k.handlers point).pending = false := by
  refine ⟨fun x hx => ?_, fun point => ?_⟩
  · obtain ⟨n, _, hframe, _⟩ := h.task x hx
    exact hf n hframe
  · by_contra hp
    obtain ⟨hframe, hawait⟩ := h.handler point (by simpa using hp)
    cases point with
    | zero => cases hawait
    | succ n => exact hf n hframe

/-- While a task has the right to resume the coroutine, no handler does. -/
theorem Rights.not_pending (h : Rights cfg k tr) {x : Task Body} (hx : Outstanding k tr x)
    (point : Nat) : (k.handlers point).pending = false := by
  by_contra hp
  obtain ⟨n, _, hframe, hschedule⟩ := h.task x hx
  obtain ⟨hframe', hdelay⟩ := h.handler point (by simpa using hp)
  rw [hframe] at hframe'
  obtain rfl := Frame.suspended.inj hframe'
  rw [hschedule] at hdelay
  cases hdelay

/-- While a handler has the right to resume the coroutine, no task does. -/
theorem Rights.not_outstanding (h : Rights cfg k tr) {point : Nat}
    (hp : (k.handlers point).pending = true) (x : Task Body) : ¬ Outstanding k tr x := by
  intro hx
  rw [h.not_pending hx point] at hp
  cases hp

/-- The exception of `submit` takes the right to resume back. -/
theorem Rights.rethrow (h : Rights cfg k tr) {t : Tid N ι} {id point : Nat}
    (hout : Outstanding k tr ⟨id, .resume point⟩) :
    Rights cfg (k.setFrame (.rethrowing t)) (tr ++ [.rejected t ⟨id, .resume point⟩]) := by
  refine .nobody (started_append h.started) ?_ (h.not_pending hout)
  intro x hx
  have hold := outstanding_of_append (k := k) hx (by simp [calledTasks]) fun _ hid => hid
  obtain rfl := h.unique x _ hold hout
  refine hx.notRejected ?_
  rw [rejectedTasks_append]
  exact List.mem_append_right _ (by simp [rejectedTasks])

/-- A task uses its right to resume. -/
theorem Rights.resumeTask (h : Rights cfg k tr) {id point : Nat}
    (hstarted : (⟨id, .resume point⟩ : Task Body) ∈ startedTasks tr)
    (hout : Outstanding k tr ⟨id, .resume point⟩) (hcalled : calledTasks es = [])
    (hres : k'.coro.resumed = Function.update k.coro.resumed id true)
    (hhandlers : k'.handlers = k.handlers) : Rights cfg k' (tr ++ es) := by
  have hmono : ∀ i, k.coro.resumed i = true → k'.coro.resumed i = true := by
    intro i hi
    rw [hres, Function.update_apply]
    split
    · rfl
    · exact hi
  refine .nobody ?_ (fun x hx => ?_) (by rw [hhandlers]; exact h.not_pending hout)
  · refine started_append (k := k') fun i hi => ?_
    rw [hres, Function.update_apply] at hi
    split at hi
    · next heq => exact ⟨_, hstarted, heq.symm⟩
    · exact h.started i hi
  · have hold := outstanding_of_append (k := k) hx (by simp [hcalled]) hmono
    obtain rfl := h.unique x _ hold hout
    have hnew := hx.notResumed
    rw [hres, Function.update_self] at hnew
    cases hnew

/-- `await_suspend` of a schedule passes the right on to the task that it submits. -/
theorem Rights.suspend (h : Rights cfg k tr) {s : State N ι Body} {t t' : Tid N ι} {n : Nat}
    (hf : k.coro.frame = .awaiting t' n) (hawait : cfg.await? (n + 1) = some .schedule) :
    Rights cfg (k.setFrame (.suspended (n + 1)))
      (tr ++ [.submitCalled t ⟨s.nextId, .resume (n + 1)⟩]) := by
  obtain ⟨hnone, hpend⟩ := h.free (by simp [hf])
  have hcalled : calledTasks (tr ++ [.submitCalled t ⟨s.nextId, .resume (n + 1)⟩]) =
      calledTasks tr ++ [⟨s.nextId, .resume (n + 1)⟩] := by simp [calledTasks]
  have hrej : rejectedTasks (tr ++ [.submitCalled t ⟨s.nextId, .resume (n + 1)⟩]) =
      rejectedTasks tr := by simp [rejectedTasks]
  have honly : ∀ x, Outstanding (k.setFrame (.suspended (n + 1)))
      (tr ++ [.submitCalled t ⟨s.nextId, .resume (n + 1)⟩]) x →
        x = ⟨s.nextId, .resume (n + 1)⟩ := by
    rintro x ⟨hx, hbody, hnew, hnot⟩
    rw [hcalled, List.mem_append, List.mem_singleton] at hx
    rw [hrej] at hnot
    exact hx.resolve_left fun hx => hnone x ⟨hx, hbody, hnew, hnot⟩
  exact
    { started := started_append h.started
      task := fun x hx => ⟨n, by rw [honly x hx], rfl, hawait⟩
      unique := fun x y hx hy => (honly x hx).trans (honly y hy).symm
      handler := fun point hp => by
        rw [show (k.setFrame (.suspended (n + 1))).handlers = k.handlers from rfl,
          hpend point] at hp
        cases hp }

variable [DecidableEq ι] [Fintype ι] {s s' : State N ι Body}

/-- A task in execution that has not resumed the coroutine has the right to do so. -/
theorem outstanding_of_running (hr : (pool N ι Body Label).Reach s tr) {t : Tid N ι}
    {id point : Nat} {drained : Bool} {u : UserPc Body}
    (hctrl : s.ctrl t = .running ⟨id, .resume point⟩ drained u)
    (hnew : k.coro.resumed id = false) :
    (⟨id, .resume point⟩ : Task Body) ∈ startedTasks tr ∧
      Outstanding k tr ⟨id, .resume point⟩ := by
  obtain ⟨w, rfl⟩ := worker_of_running hr hctrl
  have hstarted : (⟨id, .resume point⟩ : Task Body) ∈ startedTasks tr :=
    started_of_executing hr (w := w) (by simp [hctrl, Ctrl.executing])
  have hacc := (started_subperm_accepted hr).subset hstarted
  refine ⟨hstarted, called_of_accepted hr hacc, by simp, hnew, fun hrej => ?_⟩
  have hone := accepted_once hr id
  have : 0 < timesIn id (acceptedTasks tr) := timesIn_pos hacc
  have : 0 < timesIn id (rejectedTasks tr) := timesIn_pos hrej
  omega

/-- A task that is being submitted has the right to resume the coroutine. -/
theorem Rights.submitting (hr : (pool N ι Body Label).Reach s tr) (h : Rights cfg k tr)
    {t : Tid N ι} {id point : Nat}
    (hu : (s.ctrl t).user? = some (.submitting ⟨id, .resume point⟩)) :
    Outstanding k tr ⟨id, .resume point⟩ := by
  have hcalled := called_of_submitting hr hu
  obtain ⟨hacc, hrej⟩ := submitting_undecided hr hu
  refine ⟨hcalled, by simp, ?_, hrej⟩
  by_contra hres
  obtain ⟨x, hx, hid⟩ := h.started id (by simpa using hres)
  have hxacc := (started_subperm_accepted hr).subset hx
  rw [task_unique hr (called_of_accepted hr hxacc) hcalled hid] at hxacc
  exact hacc hxacc

end Rights

section Stages

variable {task : CoroTask.Config ι V E} {tr : List (Event N ι Body CoroTask.Label)}

/-- A resumption at a suspension point is the next one. -/
theorem stage_resume {point : Nat} (h : Stage task tr (.suspended point)) (t u : Tid N ι)
    (id : Option Nat) :
    Stage task (tr ++ [.user u (.resume id (some point))]) (.running t point) := by
  obtain ⟨hle, ⟨hseg, hres⟩, hrej⟩ := h
  refine ⟨hle, ⟨?_, ?_⟩, ?_⟩
  · simpa [segments] using hseg
  · rw [CoroTask.resumptions_append, hres, List.range_succ, List.map_append]
    rfl
  · simpa [rejections] using hrej

/-- A segment that is not the last one leads to the next `co_await`. -/
theorem stage_segment {t : Tid N ι} {n : Nat} (h : Stage task tr (.running t n))
    (hn : n < task.hops) : Stage task (tr ++ [.user t (.segment n)]) (.awaiting t n) := by
  obtain ⟨_, ⟨hseg, hres⟩, hrej⟩ := h
  refine ⟨hn, ⟨?_, ?_⟩, ?_⟩
  · rw [CoroTask.segments_append, hseg, List.range_succ]
    rfl
  · simpa [resumptions] using hres
  · simpa [rejections] using hrej

/-- The exception of `submit` is rethrown at the suspension that has called it. -/
theorem stage_rethrow {n : Nat} (h : Stage task tr (.suspended (n + 1))) (t : Tid N ι)
    (id : Nat) :
    Stage task (tr ++ [.rejected t ⟨id, .resume (n + 1)⟩]) (.rethrowing t) := by
  obtain ⟨hlt, ⟨hseg, hres⟩, hrej⟩ := h
  refine ⟨n, hlt, ⟨?_, ?_⟩, ?_⟩
  · simpa [segments] using hseg
  · simpa [resumptions] using hres
  · simp [rejections] at hrej ⊢
    exact hrej

end Stages

/-- The invariant of a coroutine whose owner leaves it to the pool and the context. -/
structure Followed (cfg : Config ι V E) (k : Client N ι V E)
    (tr : List (Event N ι Body Label)) : Prop where
  rights : Rights cfg k tr
  stage : Stage cfg.task (coroTrace tr) k.coro.frame
  defined : k.coro.frame ≠ .undefined

section Steps

variable [DecidableEq ι] {cfg : Config ι V E} {s s' : State N ι Body}
variable {k k' : Client N ι V E} {tr es : List (Event N ι Body Label)}

omit [DecidableEq ι] in
/-- A step that does not concern the coroutine. -/
theorem Followed.quiet (h : Followed cfg k tr) (hcalled : ∀ x ∈ calledTasks es, x.body = .other)
    (htrace : segments (coroTrace es) = [] ∧ resumptions (coroTrace es) = [] ∧
      rejections (coroTrace es) = [])
    (hres : k'.coro.resumed = k.coro.resumed) (hf : k'.coro.frame = k.coro.frame)
    (hpend : ∀ point, (k'.handlers point).pending = true →
      (k.handlers point).pending = true) : Followed cfg k' (tr ++ es) where
  rights := h.rights.frame hcalled hres (fun n hn => hf.trans hn) hpend
  stage := by
    rw [coroTrace_append, hf]
    exact h.stage.silent htrace.1 htrace.2.1 htrace.2.2
  defined := by
    rw [hf]
    exact h.defined

omit [DecidableEq ι] in
/-- A step that moves a coroutine which nobody has the right to resume, before or after. -/
theorem Followed.move (h : Followed cfg k tr) (hcalled : ∀ x ∈ calledTasks es, x.body = .other)
    (hres : k'.coro.resumed = k.coro.resumed) (hhandlers : k'.handlers = k.handlers)
    (hf : ∀ n, k.coro.frame ≠ .suspended (n + 1))
    (hstage : Stage cfg.task (coroTrace tr ++ coroTrace es) k'.coro.frame)
    (hdefined : k'.coro.frame ≠ .undefined) : Followed cfg k' (tr ++ es) where
  rights := h.rights.frame hcalled hres (fun n hn => (hf n hn).elim)
    fun point hp => by rwa [hhandlers] at hp
  stage := by
    rw [coroTrace_append]
    exact hstage
  defined := hdefined

variable [Fintype ι]

/-- A step of the coroutine or of its owner. -/
theorem Followed.coro (hr : (pool N ι Body Label).Reach s tr) (h : Followed cfg k tr)
    {t : Tid N ι} {label : CoroTask.Label} {c : CoroTask.Client N ι V E}
    (hs : CoroTask.Step cfg.task s k.coro (.user t label) c) (hc : k'.coro = c)
    (hhandlers : k'.handlers = k.handlers) (hkept : Kept k tr t (.coro label)) :
    Followed cfg k' (tr ++ [.user t (.coro label)]) := by
  have hcalled : ∀ x ∈ calledTasks [(.user t (.coro label) : Event N ι Body Label)],
      x.body = .other := by simp [calledTasks]
  have hpend : ∀ point, (k'.handlers point).pending = true →
      (k.handlers point).pending = true := fun point hp => by rwa [hhandlers] at hp
  subst hc
  generalize hk : k'.coro = c at hs
  have hstage := h.stage
  cases hs with
  | quiet he => cases he
  | @resumeTask _ id point drained u hctrl hnew =>
      obtain ⟨hstarted, hout⟩ := outstanding_of_running hr hctrl hnew
      obtain ⟨n, _, hframe, _⟩ := h.rights.task _ hout
      rw [hframe] at hstage
      refine ⟨h.rights.resumeTask hstarted hout rfl (by rw [hk]) hhandlers, ?_, ?_⟩
      · rw [coroTrace_append, hk, hframe]
        exact stage_resume hstage _ _ _
      · rw [hk, hframe]
        simp [Frame.resume]
  | resumeOwner hpc =>
      have hframe : k.coro.frame = .suspended 0 := hkept
      rw [hframe] at hstage
      refine h.move hcalled (by rw [hk]) hhandlers (by simp [hframe]) ?_ ?_
      · rw [hk, hframe]
        exact stage_resume hstage _ _ _
      · rw [hk, hframe]
        simp [Frame.resume]
  | segment hf hn =>
      rw [hf] at hstage
      refine h.move hcalled (by rw [hk]) hhandlers (by simp [hf]) ?_ (by simp [hk])
      rw [hk]
      exact stage_segment hstage hn
  | lastSegment hf hn =>
      rw [hf] at hstage
      refine h.move hcalled (by rw [hk]) hhandlers (by simp [hf]) ?_ (by simp [hk])
      rw [hk]
      exact ⟨_, CoroTask.ended_of_last hstage hn⟩
  | unhandledException hf =>
      rw [hf] at hstage
      refine h.move hcalled (by rw [hk]) hhandlers (by simp [hf]) ?_ (by simp [hk])
      rw [hk]
      exact ⟨_, CoroTask.ended_of_rethrowing hstage⟩
  | readNull hf hext | readPromise hf hext | fulfil hf =>
      rw [hf] at hstage
      refine h.move hcalled (by rw [hk]) hhandlers (by simp [hf]) ?_ (by simp [hk])
      rw [hk]
      exact Stage.silent (f := .finished) hstage rfl rfl rfl
  | @call c hpc =>
      have hdestroyed : k.coro.destroys c = true →
          k.coro.frame = .suspended 0 ∨ k.coro.frame = .finished := hkept
      have hframe := CoroTask.call_frame k.coro c
      by_cases hd : k.coro.destroys c = true
      · rw [if_pos hd] at hframe
        refine h.move hcalled (by rw [hk, CoroTask.call_resumed]) hhandlers ?_ ?_ ?_
        · rcases hdestroyed hd with hf | hf <;> simp [hf]
        · rw [hk, hframe]
          exact hstage.destroy.silent rfl rfl rfl
        · rw [hk, hframe]
          rcases hdestroyed hd with hf | hf <;> simp [hf, Frame.destroy]
      · rw [if_neg hd] at hframe
        exact h.quiet hcalled ⟨rfl, rfl, rfl⟩ (by rw [hk, CoroTask.call_resumed])
          (by rw [hk, hframe]) hpend
  | getDone hpc | testDone hpc | attach hpc | leave hpc hoff | getResult hpc
  | getValue hpc hsome =>
      exact h.quiet hcalled ⟨rfl, rfl, rfl⟩ (by rw [hk]) (by rw [hk]) hpend

omit [DecidableEq ι] [Fintype ι] in
/-- `await_suspend` of a delay passes the right on to the handler of the timer. -/
theorem Followed.asyncWait (h : Followed cfg k tr) {t : Tid N ι} {n : Nat}
    (hawait : cfg.await? (n + 1) = some .delay) (hf : k.coro.frame = .awaiting t n) :
    Followed cfg ((k.setHandler (n + 1) .timer).setFrame (.suspended (n + 1)))
      (tr ++ [.user t (.asyncWait (n + 1))]) := by
  obtain ⟨hnone, hpend⟩ := h.rights.free (by simp [hf])
  have hstage := h.stage
  rw [hf] at hstage
  have hnobody : ∀ x, ¬ Outstanding ((k.setHandler (n + 1) .timer).setFrame
      (.suspended (n + 1))) (tr ++ [.user t (.asyncWait (n + 1))]) x := fun x hx =>
    hnone x (outstanding_of_append (k := k) hx (by simp [calledTasks]) fun _ hid => hid)
  refine ⟨?_, ?_, by simp [Client.setFrame]⟩
  · refine ⟨started_append h.rights.started, fun x hx => (hnobody x hx).elim,
      fun x _ hx _ => (hnobody x hx).elim, fun point hp => ?_⟩
    by_cases hpoint : point = n + 1
    · subst hpoint
      exact ⟨rfl, hawait⟩
    · have hsame : ((k.setHandler (n + 1) .timer).setFrame (.suspended (n + 1))).handlers point =
          k.handlers point := Function.update_of_ne hpoint _ _
      rw [hsame, hpend point] at hp
      cases hp
  · rw [coroTrace_append]
    exact Stage.silent (f := .suspended (n + 1)) hstage rfl rfl rfl

omit [DecidableEq ι] [Fintype ι] in
/-- The handler of a delay uses its right to resume. -/
theorem Followed.resume (h : Followed cfg k tr) {t : Tid N ι} {point : Nat}
    (hh : k.handlers point = .entered t) :
    Followed cfg ((k.setHandler point (.resuming t)).setFrame (k.coro.frame.resume t))
      (tr ++ [.user t (.resume point)]) := by
  have hp : (k.handlers point).pending = true := by
    rw [hh]
    rfl
  obtain ⟨hframe, _⟩ := h.rights.handler point hp
  have hstage := h.stage
  rw [hframe] at hstage ⊢
  refine ⟨.nobody (started_append h.rights.started) ?_ ?_, ?_, by simp [Client.setFrame,
    Frame.resume]⟩
  · intro x hx
    exact h.rights.not_outstanding hp x
      (outstanding_of_append (k := k) hx (by simp [calledTasks]) fun _ hid => hid)
  · intro point'
    by_cases hpoint : point' = point
    · subst hpoint
      simp [Client.setFrame, Client.setHandler, Handler.pending]
    · have hsame : ((k.setHandler point (.resuming t)).setFrame
          ((Frame.suspended point).resume t)).handlers point' = k.handlers point' :=
        Function.update_of_ne hpoint _ _
      rw [hsame]
      by_contra hpend
      obtain ⟨hframe', _⟩ := h.rights.handler point' (by simpa using hpend)
      rw [hframe] at hframe'
      exact hpoint (Frame.suspended.inj hframe').symm
  · rw [coroTrace_append]
    exact stage_resume hstage _ _ _

omit [DecidableEq ι] [Fintype ι] in
/-- A handler moves on without touching the coroutine. -/
theorem Followed.setHandler (h : Followed cfg k tr) {t : Tid N ι} {label : Label}
    {point : Nat} {h' : Handler (Tid N ι)}
    (hevent : coroEvent (.user t label : Event N ι Body Label) = none)
    (hpend : h'.pending = true → (k.handlers point).pending = true) :
    Followed cfg (k.setHandler point h') (tr ++ [.user t label]) := by
  have hnone : coroTrace [(.user t label : Event N ι Body Label)] = [] :=
    List.filterMap_cons_none hevent
  refine h.quiet (by simp [calledTasks]) (by rw [hnone]; exact ⟨rfl, rfl, rfl⟩) rfl rfl ?_
  intro point' hp
  by_cases hpoint : point' = point
  · subst hpoint
    have hself : (k.setHandler point' h').handlers point' = h' := Function.update_self _ _ _
    rw [hself] at hp
    exact hpend hp
  · have hsame : (k.setHandler point h').handlers point' = k.handlers point' :=
      Function.update_of_ne hpoint _ _
    rwa [hsame] at hp

/-- A step of the coroutine, of its owner, of the context, or of a timer. -/
theorem Followed.label (hr : (pool N ι Body Label).Reach s tr) (h : Followed cfg k tr)
    {t : Tid N ι} {label : Label} (hallow : labelAllowed cfg k s t label = true)
    (hkept : Kept k tr t label) :
    Followed cfg (observeLabel cfg k t label) (tr ++ [.user t label]) := by
  -- a label that only moves the context
  have hphase : ∀ {k' : Client N ι V E}, k'.coro = k.coro → k'.handlers = k.handlers →
      coroEvent (.user t label : Event N ι Body Label) = none →
        Followed cfg k' (tr ++ [.user t label]) := by
    intro k' hcoro hhandlers hevent
    have hnone : coroTrace [(.user t label : Event N ι Body Label)] = [] :=
      List.filterMap_cons_none hevent
    exact h.quiet (by simp [calledTasks]) (by rw [hnone]; exact ⟨rfl, rfl, rfl⟩) (by rw [hcoro])
      (by rw [hcoro]) fun point hp => by rwa [hhandlers] at hp
  cases label with
  | coro label =>
      simp only [labelAllowed, Bool.and_eq_true] at hallow
      exact h.coro hr (CoroTask.label_step hallow.2) rfl rfl hkept
  | asyncWait point =>
      simp only [labelAllowed, Bool.and_eq_true, decide_eq_true_eq] at hallow
      obtain ⟨⟨_, hawait⟩, hf⟩ := hallow
      split at hf
      · next t' n hf' =>
          simp only [Bool.and_eq_true, decide_eq_true_eq] at hf
          obtain ⟨rfl, rfl⟩ := hf
          exact h.asyncWait hawait hf'
      · cases hf
  | resume point => exact h.resume (of_decide_eq_true hallow)
  | expire point =>
      refine h.setHandler rfl fun _ => ?_
      rw [of_decide_eq_true hallow]
      rfl
  | invoke point =>
      simp only [labelAllowed, Bool.and_eq_true, decide_eq_true_eq] at hallow
      refine h.setHandler rfl fun _ => ?_
      rw [hallow.2]
      rfl
  | handlerEnded point => exact h.setHandler rfl fun hp => by cases hp
  | discard point => exact h.setHandler rfl fun hp => by cases hp
  | destroyIoContext =>
      simp only [observeLabel]
      split <;> exact hphase rfl rfl rfl
  | waited =>
      simp only [observeLabel]
      split <;> exact hphase rfl rfl rfl
  | _ => exact hphase rfl rfl rfl

omit [DecidableEq ι] [Fintype ι] in
/-- `await_suspend` of a schedule passes the right on to the task that it submits. -/
theorem Followed.suspend (h : Followed cfg k tr) {t t' : Tid N ι} {n : Nat}
    (hawait : cfg.await? (n + 1) = some .schedule) (hf : k.coro.frame = .awaiting t' n) :
    Followed cfg (k.setFrame (.suspended (n + 1)))
      (tr ++ [.submitCalled t ⟨s.nextId, .resume (n + 1)⟩]) := by
  have hstage := h.stage
  rw [hf] at hstage
  refine ⟨h.rights.suspend hf hawait, ?_, by simp [Client.setFrame]⟩
  rw [coroTrace_append]
  exact Stage.silent (f := .suspended (n + 1)) hstage rfl rfl rfl

/-- The exception of `submit` is rethrown inside the coroutine. -/
theorem Followed.rethrow (hr : (pool N ι Body Label).Reach s tr) (h : Followed cfg k tr)
    {t : Tid N ι} {id point : Nat}
    (hu : (s.ctrl t).user? = some (.submitting ⟨id, .resume point⟩)) :
    k.coro.frame = .suspended point ∧
      Followed cfg (k.setFrame (.rethrowing t)) (tr ++ [.rejected t ⟨id, .resume point⟩]) := by
  have hout := h.rights.submitting hr hu
  obtain ⟨n, hbody, hframe, _⟩ := h.rights.task _ hout
  cases hbody
  have hstage := h.stage
  rw [hframe] at hstage
  refine ⟨hframe, h.rights.rethrow hout, ?_, by simp [Client.setFrame]⟩
  rw [coroTrace_append]
  exact stage_rethrow hstage t id

/-- The client follows an effect of the pool by a choice that is possible. -/
def Observed (cfg : Config ι V E) (s : State N ι Body) (k : Client N ι V E)
    (e : Event N ι Body Label) (k' : Client N ι V E) : Prop :=
  k' = observe cfg k e ∧ ∀ b, e.cause = some b → allowed cfg k s b = true

theorem Followed.step (hr : (pool N ι Body Label).Reach s tr) (h : Followed cfg k tr)
    (hj : Joint (Observed cfg) Kept s s' k k' tr es) : Followed cfg k' (tr ++ es) := by
  rcases hj.step with ⟨rfl, rfl⟩ | ⟨e, rfl, rfl, hallow⟩
  · rwa [List.append_nil]
  have heff := hj.effect
  cases e with
  | submitCalled t task =>
      obtain ⟨id, body⟩ := task
      cases body with
      | other =>
          simp only [observe]
          split <;>
            exact h.quiet (by simp [calledTasks]) ⟨rfl, rfl, rfl⟩ rfl rfl fun _ hp => hp
      | resume point =>
          have hmay := hallow _ rfl
          simp only [allowed, CoroTask.allowed, Bool.and_eq_true, decide_eq_true_eq] at hmay
          obtain ⟨hmay, hawait⟩ := hmay
          split at hmay
          · next t' n hf =>
              simp only [Bool.and_eq_true, decide_eq_true_eq] at hmay
              obtain ⟨rfl, rfl⟩ := hmay
              cases heff with
              | submitCalled body hu hctrl hc hst hn => exact h.suspend hawait hf
          · cases hmay
  | submitReturned t task =>
      obtain ⟨id, body⟩ := task
      cases body with
      | resume point =>
          exact h.quiet (by simp [calledTasks]) ⟨rfl, rfl, rfl⟩ rfl rfl fun _ hp => hp
      | other =>
          simp only [observe]
          split <;>
            exact h.quiet (by simp [calledTasks]) ⟨rfl, rfl, rfl⟩ rfl rfl fun _ hp => hp
  | rejected t task =>
      obtain ⟨id, body⟩ := task
      cases body with
      | other =>
          simp only [observe]
          split <;>
            exact h.quiet (by simp [calledTasks]) ⟨rfl, rfl, rfl⟩ rfl rfl fun _ hp => hp
      | resume point =>
          cases heff with
          | rejected hu hctrl hclosed hsame =>
              obtain ⟨hframe, hnext⟩ := h.rethrow hr hu
              have hk : observe cfg k (.rejected t ⟨id, .resume point⟩) =
                  k.setFrame (.rethrowing t) := by
                simp [observe, CoroTask.observe, Client.setFrame, hframe]
              rw [hk]
              exact hnext
  | user t label => exact h.label hr (hallow _ rfl) (hj.condition t label rfl)
  | _ => exact h.quiet (by simp [calledTasks]) ⟨rfl, rfl, rfl⟩ rfl rfl fun _ hp => hp

end Steps

/-- How often the result has been moved on, into the promise or to a caller of `get()`. -/
def handovers (tr : List (Event N ι Body CoroTask.Label)) : Nat :=
  tr.countP fun
    | .user _ .fulfil => true
    | .user _ .getReturned => true
    | _ => false

@[simp] theorem handovers_append (tr es : List (Event N ι Body CoroTask.Label)) :
    handovers (tr ++ es) = handovers tr + handovers es :=
  List.countP_append

/--
The coroutine has ended with `r`.  The stored result is `r` until it is moved on
for the first time, and the promise holds what was stored when it was fulfilled.
-/
structure Resulted (task : CoroTask.Config ι V E) (k : CoroTask.Client N ι V E)
    (tr : List (Event N ι Body CoroTask.Label)) (r : Except E V) : Prop where
  ended : Ended task tr r
  stored : ∃ n ≤ handovers tr, k.stored = some ((Except.map task.moved)^[n] r)
  promise : ∀ x, k.promise = some x → ∃ n < handovers tr, x = (Except.map task.moved)^[n] r

/-- The result of a coroutine that has ended, and the promise of one that has not. -/
structure Results (task : CoroTask.Config ι V E) (k : CoroTask.Client N ι V E)
    (tr : List (Event N ι Body CoroTask.Label)) : Prop where
  before : k.frame.done = false → k.frame ≠ .destroyed → k.promise = none
  after : k.frame.done = true → ∃ r, Resulted task k tr r

section Results

variable {task : CoroTask.Config ι V E} {k k' : CoroTask.Client N ι V E}
variable {tr es : List (Event N ι Body CoroTask.Label)}

/-- A step that moves neither the coroutine towards its end nor its result. -/
theorem Results.keep (h : Results task k tr) (hseg : segments es = [])
    (hres : resumptions es = []) (hrej : rejections es = []) (hdone : k'.frame.done = k.frame.done)
    (hdestroyed : k.frame = .destroyed → k'.frame = .destroyed)
    (hstored : k'.stored = k.stored) (hpromise : k'.promise = k.promise ∨ k'.promise = none) :
    Results task k' (tr ++ es) where
  before hd hf := by
    have hnone := h.before (hdone ▸ hd) fun hold => hf (hdestroyed hold)
    rcases hpromise with hp | hp
    · rw [hp, hnone]
    · exact hp
  after hd := by
    obtain ⟨r, hended, ⟨n, hn, hr⟩, hp⟩ := h.after (hdone ▸ hd)
    refine ⟨r, hended.silent hseg hres hrej, ⟨n, ?_, hstored.trans hr⟩, fun x hx => ?_⟩
    · rw [handovers_append]
      omega
    · rcases hpromise with hsame | hnone
      · obtain ⟨m, hm, rfl⟩ := hp x (hsame ▸ hx)
        exact ⟨m, by rw [handovers_append]; omega, rfl⟩
      · rw [hnone] at hx
        cases hx

/-- A step of a coroutine that has not ended, and does not end. -/
theorem Results.move (h : Results task k tr) (hdone : k.frame.done = false)
    (hlives : k.frame ≠ .destroyed) (hdone' : k'.frame.done = false)
    (hpromise : k'.promise = k.promise) {tr' : List (Event N ι Body CoroTask.Label)} :
    Results task k' tr' where
  before _ _ := hpromise.trans (h.before hdone hlives)
  after hd := by
    rw [hdone'] at hd
    cases hd

theorem Results.destroy (hf : k'.frame = .destroyed) : Results task k' tr where
  before _ hne := (hne hf).elim
  after hd := by
    rw [hf] at hd
    cases hd

/-- The body ends, and stores its result. -/
theorem Results.final (h : Results task k tr) (hdone : k.frame.done = false)
    (hlives : k.frame ≠ .destroyed) {r : Except E V} (hdone' : k'.frame.done = true)
    (hpromise : k'.promise = k.promise) (hstored : k'.stored = some r)
    (hended : Ended task (tr ++ es) r) : Results task k' (tr ++ es) where
  before hd := by
    rw [hdone'] at hd
    cases hd
  after _ := by
    refine ⟨r, hended, ⟨0, Nat.zero_le _, hstored⟩, fun x hx => ?_⟩
    rw [hpromise, h.before hdone hlives] at hx
    cases hx

/-- What has been moved on `n` times is moved on once more. -/
theorem stored_moved {n : Nat} {r : Except E V}
    (h : k.stored = some ((Except.map task.moved)^[n] r)) :
    (k.stored.map fun x => x.map task.moved) = some ((Except.map task.moved)^[n + 1] r) := by
  rw [h, Function.iterate_succ_apply']
  rfl

/-- The final awaiter moves the result into the promise. -/
theorem Results.fulfil (h : Results task k tr) {t : Tid N ι} (hdone : k.frame.done = true)
    (hdone' : k'.frame.done = true) (hpromise : k'.promise = k.stored)
    (hstored : k'.stored = k.stored.map fun x => x.map task.moved) :
    Results task k' (tr ++ [.user t .fulfil]) where
  before hd := by
    rw [hdone'] at hd
    cases hd
  after _ := by
    obtain ⟨r, hended, ⟨n, hn, hr⟩, _⟩ := h.after hdone
    have hone : handovers (tr ++ [.user t .fulfil]) = handovers tr + 1 := by
      rw [handovers_append]
      rfl
    refine ⟨r, hended.silent rfl rfl rfl, ⟨n + 1, by omega, ?_⟩, fun x hx => ⟨n, by omega, ?_⟩⟩
    · rw [hstored, stored_moved hr]
    · rw [hpromise, hr] at hx
      exact (Option.some.inj hx).symm

/-- A `get()` returns the stored result. -/
theorem Results.getResult (h : Results task k tr) {t : Tid N ι} (hf : k'.frame = k.frame)
    (hpromise : k'.promise = k.promise)
    (hstored : k'.stored = k.stored.map fun x => x.map task.moved) :
    Results task k' (tr ++ [.user t .getReturned]) where
  before hd hne := hpromise.trans (h.before (hf ▸ hd) (hf ▸ hne))
  after hd := by
    obtain ⟨r, hended, ⟨n, hn, hr⟩, hp⟩ := h.after (hf ▸ hd)
    have hone : handovers (tr ++ [.user t .getReturned]) = handovers tr + 1 := by
      rw [handovers_append]
      rfl
    refine ⟨r, hended.silent rfl rfl rfl, ⟨n + 1, by omega, ?_⟩, fun x hx => ?_⟩
    · rw [hstored, stored_moved hr]
    · obtain ⟨m, hm, hx⟩ := hp x (hpromise ▸ hx)
      exact ⟨m, by omega, hx⟩

/-- A step of the coroutine or of its owner. -/
theorem Results.step (h : Results task k tr) (hstage : Stage task tr k.frame)
    (hdefined : k'.frame ≠ .undefined) {s : State N ι Body} {t : Tid N ι}
    {label : CoroTask.Label} (hs : CoroTask.Step task s k (.user t label) k') :
    Results task k' (tr ++ [.user t label]) := by
  -- only a suspended coroutine can be resumed
  have hresume : ∀ u : Tid N ι, k.frame.resume u ≠ .undefined →
      k.frame.done = false ∧ k.frame ≠ .destroyed ∧ (k.frame.resume u).done = false := by
    intro u hu
    cases hf : k.frame with
    | suspended point => exact ⟨rfl, by simp, rfl⟩
    | _ => rw [hf] at hu; exact (hu rfl).elim
  cases hs with
  | quiet he => cases he
  | resumeTask hctrl hnew =>
      obtain ⟨hdone, hlives, hdone'⟩ := hresume _ hdefined
      refine h.move hdone hlives ?_ ?_
      · exact hdone'
      · rfl
  | resumeOwner hpc =>
      obtain ⟨hdone, hlives, hdone'⟩ := hresume _ hdefined
      refine h.move hdone hlives ?_ ?_
      · exact hdone'
      · rfl
  | segment hf hn =>
      refine h.move (by rw [hf]; rfl) (by simp [hf]) ?_ ?_
      · rfl
      · rfl
  | lastSegment hf hn =>
      rw [hf] at hstage
      exact h.final (by rw [hf]; rfl) (by simp [hf]) rfl rfl rfl
        (CoroTask.ended_of_last hstage hn)
  | unhandledException hf =>
      rw [hf] at hstage
      exact h.final (by rw [hf]; rfl) (by simp [hf]) rfl rfl rfl
        (CoroTask.ended_of_rethrowing hstage)
  | readNull hf hext | readPromise hf hext =>
      exact h.keep rfl rfl rfl (by rw [hf]; rfl) (by simp [hf]) rfl (.inl rfl)
  | fulfil hf => exact h.fulfil (by rw [hf]; rfl) rfl rfl rfl
  | @call c hpc =>
      have hframe := CoroTask.call_frame k c
      by_cases hd : k.destroys c = true
      · rw [if_pos hd] at hframe
        refine .destroy ?_
        rw [hframe] at hdefined ⊢
        cases hf : k.frame with
        | suspended point => rfl
        | finished => rfl
        | _ => rw [hf] at hdefined; exact (hdefined rfl).elim
      · rw [if_neg hd] at hframe
        exact h.keep rfl rfl rfl (by rw [hframe]) (fun hold => hframe.trans hold)
          (CoroTask.call_stored k c) (.inl (CoroTask.call_promise k c))
  | getDone hpc | testDone hpc | leave hpc hoff | getValue hpc hsome =>
      exact h.keep rfl rfl rfl rfl id rfl (.inl rfl)
  | attach hpc => exact h.keep rfl rfl rfl rfl id rfl (.inr rfl)
  | getResult hpc => exact h.getResult rfl rfl rfl

end Results

section Joint

variable [DecidableEq ι] {cfg : Config ι V E} {s s' : State N ι Body}
variable {k k' : Client N ι V E} {tr es : List (Event N ι Body Label)}

/-- What the pool, the context and the timers do leaves the result alone. -/
theorem Results.joint (h : Results cfg.task k.coro (coroTrace tr)) (hf : Followed cfg k tr)
    (hf' : Followed cfg k' (tr ++ es)) (hj : Joint (Observed cfg) Kept s s' k k' tr es) :
    Results cfg.task k'.coro (coroTrace (tr ++ es)) := by
  have hquiet : k'.coro = k.coro → segments (coroTrace es) = [] →
      resumptions (coroTrace es) = [] → rejections (coroTrace es) = [] →
        Results cfg.task k'.coro (coroTrace (tr ++ es)) := by
    intro hcoro hseg hres hrej
    rw [coroTrace_append]
    exact h.keep hseg hres hrej (by rw [hcoro]) (by rw [hcoro]; exact id) (by rw [hcoro])
      (.inl (by rw [hcoro]))
  rcases hj.step with ⟨rfl, rfl⟩ | ⟨e, rfl, rfl, hallow⟩
  · rwa [List.append_nil]
  have hdefined := hf'.defined
  cases e with
  | submitCalled t task =>
      obtain ⟨id, body⟩ := task
      cases body with
      | other =>
          refine hquiet ?_ rfl rfl rfl
          simp only [observe]
          split <;> rfl
      | resume point =>
          have hmay := hallow _ rfl
          simp only [allowed, CoroTask.allowed, Bool.and_eq_true] at hmay
          have hawait := hmay.1
          split at hawait
          · next t' n hframe =>
              refine h.move (by rw [hframe]; rfl) (by simp [hframe]) ?_ ?_
              · rfl
              · rfl
          · cases hawait
  | submitReturned t task =>
      obtain ⟨id, body⟩ := task
      refine hquiet ?_ rfl rfl rfl
      cases body with
      | resume point => rfl
      | other =>
          simp only [observe]
          split <;> rfl
  | rejected t task =>
      obtain ⟨id, body⟩ := task
      cases body with
      | other =>
          refine hquiet ?_ rfl rfl rfl
          simp only [observe]
          split <;> rfl
      | resume point =>
          simp only [observe, CoroTask.observe] at hdefined ⊢
          split at hdefined
          · next hframe =>
              refine h.move (by rw [hframe]; rfl) (by simp [hframe]) ?_ ?_
              · rw [if_pos hframe]
                rfl
              · rfl
          · exact (hdefined rfl).elim
  | user t label =>
      have hlabel := hallow _ rfl
      cases label with
      | coro label =>
          simp only [allowed, labelAllowed, Bool.and_eq_true] at hlabel
          rw [coroTrace_append]
          exact h.step hf.stage hdefined (CoroTask.label_step hlabel.2)
      | asyncWait point =>
          simp only [allowed, labelAllowed, Bool.and_eq_true] at hlabel
          have hawait := hlabel.2
          split at hawait
          · next t' n hframe =>
              refine h.move (by rw [hframe]; rfl) (by simp [hframe]) ?_ ?_
              · rfl
              · rfl
          · cases hawait
      | resume point =>
          have hh : k.handlers point = .entered t := of_decide_eq_true hlabel
          obtain ⟨hframe, _⟩ := hf.rights.handler point (by rw [hh]; rfl)
          refine h.move (by rw [hframe]; rfl) (by simp [hframe]) ?_ ?_
          · simp [observe, observeLabel, Client.setFrame, hframe, Frame.resume, Frame.done]
          · rfl
      | destroyIoContext =>
          refine hquiet ?_ rfl rfl rfl
          simp only [observe, observeLabel]
          split <;> rfl
      | waited =>
          refine hquiet ?_ rfl rfl rfl
          simp only [observe, observeLabel]
          split <;> rfl
      | _ => exact hquiet rfl rfl rfl rfl
  | _ => exact hquiet rfl rfl rfl rfl

end Joint

section Runs

variable [DecidableEq ι] [Fintype ι] {cfg : Config ι V E}
variable {q : State N ι Body × Client N ι V E} {tr : List (Event N ι Body Label)}

omit [DecidableEq ι] [Fintype ι] in
theorem followed_init :
    Followed cfg Client.init ([] : List (Event N ι Body Label)) where
  rights := .nobody (fun id h => by cases h) (fun x hx => by simpa [calledTasks] using hx.called)
    fun point => rfl
  stage := ⟨Nat.zero_le _, ⟨rfl, rfl⟩, rfl⟩
  defined := by simp [Client.init, CoroTask.Client.init]

omit [DecidableEq ι] [Fintype ι] in
theorem results_init :
    Results cfg.task (Client.init : Client N ι V E).coro (coroTrace []) where
  before _ _ := rfl
  after hd := by cases hd

theorem followed_reach (hr : (delayed N cfg).ReachWhen (UserWhen Kept) q tr) :
    Followed cfg q.2 tr :=
  client_induction (R := Observed cfg) (P := fun _ k tr => Followed cfg k tr)
    (fun _ hallow => ⟨rfl, hallow⟩) hr followed_init fun hr h hj => h.step hr hj

theorem results_reach (hr : (delayed N cfg).ReachWhen (UserWhen Kept) q tr) :
    Results cfg.task q.2.coro (coroTrace tr) := by
  have hboth : Followed cfg q.2 tr ∧ Results cfg.task q.2.coro (coroTrace tr) := by
    refine client_induction (R := Observed cfg)
      (P := fun _ k tr => Followed cfg k tr ∧ Results cfg.task k.coro (coroTrace tr))
      (fun _ hallow => ⟨rfl, hallow⟩) hr ⟨followed_init, results_init⟩ ?_
    rintro s s' k k' tr es hr ⟨h, hres⟩ hj
    have h' := h.step hr hj
    exact ⟨h', hres.joint h h' hj⟩
  exact hboth.2

omit [Fintype ι] in
/-- The step that destroys the frame executes no segment of the body. -/
theorem segments_step {s s' : State N ι Body} {k k' : Client N ι V E}
    {es : List (Event N ι Body Label)} (h' : Followed cfg k' (tr ++ es))
    (hj : Joint (Observed cfg) Kept s s' k k' tr es)
    (hseg : ∃ n, segments (coroTrace tr) = List.range n) :
    ∃ n, segments (coroTrace (tr ++ es)) = List.range n := by
  by_cases hframe : k'.coro.frame = .destroyed
  · have hnone : segments (coroTrace es) = [] := by
      rcases hj.step with ⟨rfl, rfl⟩ | ⟨e, rfl, rfl, _⟩
      · rfl
      · cases e with
        | user t label =>
            cases label with
            | coro label =>
                cases label with
                | segment n =>
                    simp only [observe, observeLabel, CoroTask.observeLabel] at hframe
                    split at hframe <;> cases hframe
                | _ => rfl
            | _ => rfl
        | _ => rfl
    obtain ⟨n, hn⟩ := hseg
    exact ⟨n, by rw [coroTrace_append, CoroTask.segments_append, hnone, List.append_nil, hn]⟩
  · obtain ⟨n, _, hn, _⟩ := h'.stage.passed ⟨hframe, h'.defined⟩
    exact ⟨n, hn⟩

/--
As long as the owner resumes the coroutine only at its initial suspension, and
destroys it only there or after the awaiter at its end, nobody touches a
coroutine that is not suspended: the segments of the body are executed once each
and in order, each suspension point is resumed at most once, in order and while
the coroutine is suspended there, and what the coroutine stores when it ends is
the result of its body, or the exception of the first `submit` that threw.
-/
theorem mixed_resumed_once (hr : (delayed N cfg).ReachWhen (UserWhen Kept) q tr) :
    q.2.coro.frame ≠ .undefined ∧
      (∃ n, segments (coroTrace tr) = List.range n) ∧
      (∃ m, resumptions (coroTrace tr) = (List.range m).map some) ∧
      (q.2.coro.frame.done = true → ∃ r, Resulted cfg.task q.2.coro (coroTrace tr) r) := by
  have h := followed_reach hr
  refine ⟨h.defined, ?_, h.stage.inOrder, (results_reach hr).after⟩
  have hsegs : Followed cfg q.2 tr ∧ ∃ n, segments (coroTrace tr) = List.range n := by
    refine client_induction (R := Observed cfg)
      (P := fun _ k tr => Followed cfg k tr ∧ ∃ n, segments (coroTrace tr) = List.range n)
      (fun _ hallow => ⟨rfl, hallow⟩) hr ⟨followed_init, 0, rfl⟩ ?_
    rintro s s' k k' tr es hr ⟨h, hseg⟩ hj
    have h' := h.step hr hj
    exact ⟨h', segments_step h' hj hseg⟩
  exact hsegs.2

/-- `co_await asio.delay(d); co_await pool.schedule(); co_return 7;` -/
def delayThenSchedule : Config Bool Nat String where
  owner := false
  awaits := [.delay, .schedule]
  result := .ok 7
  rejection := "rejected"
  moved := id

/-- One worker runs the context and resumes the delay, the other one ends the coroutine. -/
def acrossThreads : List (Act 2 Bool Body Label) :=
  [.user (.inr true) (.construct 1), .submit (.inr true) .other, .advance (.inr true),
    .notify (.inr true) none, .user (.inr true) .constructed, .test 0, .advance (.inl 0),
    .start 0, .user (.inr false) (.coro (.call (.resume 0))), .user (.inr false) (.coro .test),
    .user (.inr false) (.coro (.resume none (some 0))), .user (.inr false) (.coro (.segment 0)),
    .user (.inr false) (.asyncWait 1), .user (.inr false) (.coro .leave),
    .user (.inr true) (.expire 1), .user (.inl 0) (.invoke 1), .user (.inl 0) (.resume 1),
    .user (.inl 0) (.coro (.segment 1)), .submit (.inl 0) (.resume 2), .advance (.inl 0),
    .notify (.inl 0) none, .user (.inl 0) (.handlerEnded 1), .test 1, .advance (.inl 1),
    .start 1, .user (.inl 1) (.coro (.resume (some 1) (some 2))),
    .user (.inl 1) (.coro (.segment 2)), .user (.inl 1) (.coro .readPromise), .finish 1]

theorem mixed_resumed_once_acrossThreads :
    ∃ (q : State 2 Bool Body × Client 2 Bool Nat String) (tr : List (Event 2 Bool Body Label)),
      (delayed 2 delayThenSchedule).ReachWhen (UserWhen Kept) q tr ∧
        segments (coroTrace tr) = [0, 1, 2] ∧
        resumptions (coroTrace tr) = [some 0, some 1, some 2] ∧
        Resulted delayThenSchedule.task q.2.coro (coroTrace tr) (.ok 7) := by
  obtain ⟨q, tr, hr, h⟩ := Machine.exists_reachWhen_of_exec (M := delayed 2 delayThenSchedule)
    (C := UserWhen Kept) acrossThreads
    (p := fun r => decide (segments (coroTrace r.2) = [0, 1, 2] ∧
      resumptions (coroTrace r.2) = [some 0, some 1, some 2] ∧ r.1.2.coro.frame.done = true ∧
        rejections (coroTrace r.2) = []))
    (by decide)
  obtain ⟨hseg, hres, hdone, hrej⟩ := of_decide_eq_true h
  refine ⟨q, tr, hr, hseg, hres, ?_⟩
  obtain ⟨r, hended⟩ := (mixed_resumed_once hr).2.2.2 hdone
  rcases hended.ended with ⟨rfl, _⟩ | ⟨n, _, _, _, hone⟩
  · exact hended
  · rw [hrej] at hone
    cases hone

end Runs

end CoroDelay
end ThreadPool
end AsyncTaskEngine
