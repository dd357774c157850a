import AsyncTaskEngine.CoroTaskGet

/-!
# A single get() is answered

A thread that executes the coroutine can always go on: the owner is a thread
outside the pool, and a worker executes a task that resumed the coroutine, which
does not end before the coroutine has left the worker.  While the coroutine is
suspended, its token is a task that some worker has taken or can take.  So in a
state in which nobody can move, the promise of a single `get()` is fulfilled.
-/

namespace AsyncTaskEngine
namespace ThreadPool
namespace CoroTask

universe u v w

variable {N : Nat} {ι : Type u} {V : Type v} {E : Type w}

/-- The worker executes a task that resumes the coroutine. -/
def hosts : Ctrl Body → Bool
  | .running task _ _ => decide (task.body ≠ .other)
  | _ => false

/-- The coroutine is executed, or submitted, by a task that resumed it. -/
def Hosted (s : State N ι Body) (k : Client N ι V E) : Prop :=
  ∀ w, (k.frame.thread? = some (.inl w) ∨
    ∃ id point, (s.ctrl (.inl w)).user? = some (.submitting ⟨id, .resume point⟩)) →
      hosts (s.ctrl (.inl w)) = true

section Hosting

variable [DecidableEq ι] {cfg : Config ι V E} {s s' : State N ι Body} {k k' : Client N ι V E}
variable {tr es : List (Event N ι Body Label)} {e : Event N ι Body Label}

/-- A worker stays with its task until the task ends. -/
theorem hosts_stays (h : Effect s s' es) {w : Fin N} (hw : hosts (s.ctrl (.inl w)) = true) :
    hosts (s'.ctrl (.inl w)) = true ∨ ∃ id point, es = [.finished w ⟨id, .resume point⟩] := by
  cases hc : s.ctrl (.inl w) with
  | running task drained u =>
      rcases h.running_stays hc with ⟨v, hv⟩ | rfl
      · rw [hv]
        exact .inl (by simpa [hc, hosts] using hw)
      · obtain ⟨id, body⟩ := task
        cases body with
        | resume point => exact .inr ⟨id, point, rfl⟩
        | other => simp [hc, hosts] at hw
  | _ => simp [hc, hosts] at hw

variable [Fintype ι]

omit [DecidableEq ι] [Fintype ι] in
/-- A thread takes over the coroutine as its owner, as a task, or after a rejection. -/
theorem Step.thread_inv (h : Step cfg s k e k') {t : Tid N ι}
    (ht : k'.frame.thread? = some t) :
    k.frame.thread? = some t ∨ t = .inr cfg.owner ∨ hosts (s.ctrl t) = true ∨
      ∃ id point, e = .rejected t ⟨id, .resume point⟩ := by
  have hresume : ∀ {u : Tid N ι}, (k.frame.resume u).thread? = some t → u = t := by
    intro u hu
    cases hf : k.frame <;> simp [hf, Frame.resume, Frame.thread?] at hu
    exact hu
  cases h with
  | suspend hf | rejectedLate hf | readNull hf hext | fulfil hf => cases ht
  | rethrow hf =>
      cases ht
      exact .inr (.inr (.inr ⟨_, _, rfl⟩))
  | resumeTask hctrl hnew =>
      obtain rfl := hresume ht
      exact .inr (.inr (.inl (by simp [hctrl, hosts])))
  | resumeOwner hpc => exact .inr (.inl (hresume ht).symm)
  | segment hf hn | lastSegment hf hn | unhandledException hf | readPromise hf hext =>
      rw [hf]
      exact .inl ht
  | call hpc =>
      rw [call_frame] at ht
      split at ht
      · cases hf : k.frame <;> simp [hf, Frame.destroy, Frame.thread?] at ht
      · exact .inl ht
  | _ => exact .inl ht

omit [Fintype ι] in
theorem Hosted.step (h : Hosted s k)
    {D : Client N ι V E → List (Event N ι Body Label) → Tid N ι → Label → Prop}
    (hj : Joint (Step cfg) D s s' k k' tr es) : Hosted s' k' := by
  intro w hw
  have heff := hj.effect
  rcases hj.step with ⟨rfl, rfl⟩ | ⟨e, rfl, hs⟩
  · have hbefore : hosts (s.ctrl (.inl w)) = true := by
      refine h w (hw.imp_right ?_)
      rintro ⟨id, point, hu⟩
      exact ⟨id, point, (heff.user_inv hu).resolve_right (by simp)⟩
    exact (hosts_stays heff hbefore).resolve_right (by simp)
  · have hbefore : hosts (s.ctrl (.inl w)) = true := by
      rcases hw with ht | ⟨id, point, hu⟩
      · rcases hs.thread_inv ht with ht | ht | ht | ⟨id, point, rfl⟩
        · exact h w (.inl ht)
        · cases ht
        · exact ht
        · cases heff with
          | rejected hu hctrl hclosed hsame => exact h w (.inr ⟨id, point, hu⟩)
      · rcases heff.user_inv hu with hu | he
        · exact h w (.inr ⟨id, point, hu⟩)
        · cases he
          cases hs with
          | quiet he => cases he
          | suspend hf => exact h w (.inl (by rw [hf]; rfl))
    refine (hosts_stays heff hbefore).resolve_right ?_
    rintro ⟨id, point, he⟩
    cases he
    cases hs with
    | quiet he => cases he
    | taskDone hres hoff =>
        rcases hw with ht | ⟨id', point', hu⟩
        · exact hoff ht
        · rcases heff.user_inv hu with hu | he
          · cases heff with
            | finished hctrl => simp [hctrl, Ctrl.user?] at hu
          · cases he

end Hosting

section Progress

variable [DecidableEq ι] [Fintype ι] {cfg : Config ι V E}
variable {q : State N ι Body × Client N ι V E} {tr : List (Event N ι Body Label)}

theorem single_reach (hr : (coro N cfg).ReachWhen (UserWhen SingleGet) q tr) :
    Single cfg q.2 tr :=
  coro_induction (P := fun _ k tr => Single cfg k tr) hr single_init fun hr h hj => h.step hr hj

theorem hosted_reach {D : Client N ι V E → List (Event N ι Body Label) → Tid N ι → Label → Prop}
    (hr : (coro N cfg).ReachWhen (UserWhen D) q tr) : Hosted q.1 q.2 := by
  refine coro_induction (P := fun s k _ => Hosted s k) hr ?_ fun _ h hj => h.step hj
  rintro w (ht | ⟨id, point, hu⟩)
  · cases ht
  · cases hu

omit [DecidableEq ι] [Fintype ι] in
theorem internal_of_owed {a : Act N ι Body Label} (ha : a.owed = true) : internal a = true := by
  cases a <;> first | rfl | cases ha

/-- No step is possible that the user does not have to decide on. -/
def Stuck (cfg : Config ι V E) (q : State N ι Body × Client N ι V E) : Prop :=
  ∀ a, internal a = true → (coro N cfg).step q a = none

namespace Stuck

theorem quiescent (h : Stuck cfg q) : Quiescent Label q.1 := by
  intro a ha
  refine Machine.guard_none ?_ (h a (internal_of_owed ha))
  cases a <;> first | rfl | cases ha

/-- A thread in user code can take every step of the coroutine that is allowed. -/
theorem label (h : Stuck cfg q) (t : Tid N ι) (label : Label)
    (hint : internal (.user t label : Act N ι Body Label) = true)
    (hu : (q.1.ctrl t).user? = some .code) : labelAllowed cfg q.2 q.1 t label = false := by
  by_contra hallow
  have := Machine.guard_none (by simpa [allowed] using hallow) (h (.user t label) hint)
  simp [pool, step, hu] at this

/-- The thread that executes the coroutine is in user code. -/
theorem thread (h : Stuck cfg q) (hag : Agrees q.1) (hhost : Hosted q.1 q.2) {t : Tid N ι}
    (ht : q.2.frame.thread? = some t) : (q.1.ctrl t).user? = some .code := by
  obtain ⟨u, hu⟩ : ∃ u, (q.1.ctrl t).user? = some u := by
    cases t with
    | inl w =>
        have hw := hhost w (.inl ht)
        cases hc : q.1.ctrl (.inl w) with
        | running task drained u => exact ⟨u, rfl⟩
        | _ => simp [hc, hosts] at hw
    | inr i =>
        have := hag (.inr i)
        cases hc : q.1.ctrl (.inr i) with
        | outside u => exact ⟨u, rfl⟩
        | _ => simp [hc, Ctrl.agrees] at this
  rw [hu, h.quiescent.user hag hu]

/-- While the coroutine is suspended, every task can go on. -/
theorem no_task (h : Stuck cfg q) {point : Nat} (hf : q.2.frame = .suspended point) (w : Fin N)
    (task : Task Body) (drained : Bool) :
    q.1.ctrl (.inl w) ≠ .running task drained .code := by
  intro hc
  have hfinish : allowed cfg q.2 q.1 (.finish w) = false := by
    by_contra hallow
    have := Machine.guard_none (by simpa using hallow) (h (.finish w) rfl)
    simp [pool, step, hc] at this
  obtain ⟨id, body⟩ := task
  cases body with
  | other => simp [allowed, hc] at hfinish
  | resume p =>
      have hnew : q.2.resumed id = false := by
        simpa [allowed, hc, hf, Frame.thread?] using hfinish
      have := h.label (.inl w) (.resume (some id) q.2.frame.point?) rfl
        (by simp [hc, Ctrl.user?])
      simp [labelAllowed, hc, hnew] at this

/-- A coroutine that waits for the pool can go on. -/
theorem not_suspended (h : Stuck cfg q) (hN : 0 < N) (hr : (pool N ι Body Label).Reach q.1 tr)
    (hctl : Controlled cfg q.2 tr) (n : Nat) : q.2.frame ≠ .suspended (n + 1) := by
  intro hf
  obtain ⟨x, hcalled, hbody, hnew, hrej⟩ := hctl.token.owed n hf
  have hq := h.quiescent
  have hacc : x ∈ acceptedTasks tr := by
    by_contra hacc
    have hsum := calls_decided hr fun y => decide (y = x)
    have hone : 0 < (calledTasks tr).countP fun y => decide (y = x) :=
      List.countP_pos_iff.mpr ⟨x, hcalled, by simp⟩
    have hzero : ((acceptedTasks tr).countP fun y => decide (y = x)) = 0 ∧
        ((rejectedTasks tr).countP fun y => decide (y = x)) = 0 := by
      constructor <;> refine List.countP_eq_zero.mpr fun y hy => ?_
      · simpa using fun hyx : y = x => hacc (hyx ▸ hy)
      · simpa using fun hyx : y = x => hrej (hyx ▸ hy)
    have hpending : total (Ctrl.submits fun y => decide (y = x)) q.1.ctrl ≠ 0 := by omega
    refine hpending (total_eq_zero_iff.mpr fun t => ?_)
    unfold Ctrl.submits
    split
    · next task hu =>
        have := hq.user (agrees_reach hr) hu
        cases this
    · rfl
  rw [accepted_eq_popped_append hr, List.mem_append] at hacc
  rcases hacc with hpop | hqueue
  · -- A worker holds the task, and has to execute it.
    have hfin : x ∉ finishedTasks tr := by
      intro hfin
      obtain ⟨id, body⟩ := x
      cases body with
      | other => exact hbody rfl
      | resume point =>
          have := hctl.tasks.finished _ hfin point rfl
          rw [hnew] at this
          cases this
    obtain ⟨w, hw⟩ := held_of_popped hr hpop hfin
    rcases hq.worker (agrees_reach hr) w with hret | hsleep | ⟨task, drained, hrun⟩
    · rw [hret] at hw
      cases hw
    · rw [hsleep.1] at hw
      cases hw
    · exact h.no_task hf w task drained hrun
  · -- The task is queued, so that every worker executes some task.
    obtain ⟨task, drained, hrun⟩ :=
      hq.all_running hr (List.ne_nil_of_mem hqueue) ⟨0, hN⟩
    exact h.no_task hf ⟨0, hN⟩ task drained hrun

/-- Where the owner and the coroutine are when nobody can move. -/
theorem ended (h : Stuck cfg q) (hN : 0 < N) (hr : (pool N ι Body Label).Reach q.1 tr)
    (hinv : Single cfg q.2 tr) (hhost : Hosted q.1 q.2) (hcalls : calls tr ≠ []) :
    q.2.frame = .finished := by
  have hag := agrees_reach hr
  have howner : (q.1.ctrl (.inr cfg.owner)).user? = some .code := by
    have hagree := hag (.inr cfg.owner)
    cases hc : q.1.ctrl (.inr cfg.owner) with
    | outside u =>
        have hu : (q.1.ctrl (.inr cfg.owner)).user? = some u := by
          rw [hc]
          rfl
        rw [← hc, hu, h.quiescent.user hag hu]
    | _ => simp [hc, Ctrl.agrees] at hagree
  have hstep : ∀ label : Label,
      internal (.user (.inr cfg.owner) label : Act N ι Body Label) = true →
        labelAllowed cfg q.2 q.1 (.inr cfg.owner) label = false :=
    fun label hint => h.label _ label hint howner
  cases hinv.position with
  | fresh hpc hno => exact (hcalls hno).elim
  | returned hpc hc hf => exact hf
  | before hpc =>
      rcases hpc with hpc | hpc
      · have := hstep .test rfl
        simp [labelAllowed, hpc] at this
      · have := hstep .attach rfl
        simp [labelAllowed, hpc] at this
  | tested hpc =>
      rcases hpc with hpc | hpc
      · have := hstep .test rfl
        simp [labelAllowed, hpc] at this
      · have := hstep (.resume none q.2.frame.point?) rfl
        simp [labelAllowed, hpc] at this
  | started hpc hc hf₀ hext =>
      have hon : ∀ (t : Tid N ι) (label : Label), q.2.frame.thread? = some t →
          internal (.user t label : Act N ι Body Label) = true →
            labelAllowed cfg q.2 q.1 t label = false :=
        fun t label ht hint => h.label t label hint (h.thread hag hhost ht)
      cases hf : q.2.frame with
      | suspended point =>
          cases point with
          | zero => exact (hf₀ hf).elim
          | succ n => exact (h.not_suspended hN hr hinv.controlled n hf).elim
      | running t n =>
          have := hon t (.segment n) (by rw [hf]; rfl) rfl
          simp [labelAllowed, hf] at this
      | awaiting t n =>
          have hu := h.thread hag hhost (t := t) (by rw [hf]; rfl)
          have hidle : q.1.queue.call t = .idle := Ctrl.agrees_user (hag t) hu
          have := Machine.guard_none (by simp [allowed, hf]) (h (.submit t (.resume (n + 1))) rfl)
          simp [pool, step, hu, queueStep, BlockingMonitor.step, State.setCtrl, hidle] at this
      | rethrowing t =>
          have := hon t .unhandledException (by rw [hf]; rfl) rfl
          simp [labelAllowed, hf] at this
      | final t =>
          have := hon t .readPromise (by rw [hf]; rfl) rfl
          simp [labelAllowed, hf] at this
      | fulfilling t =>
          have := hon t .fulfil (by rw [hf]; rfl) rfl
          simp [labelAllowed, hf] at this
      | finished => rfl
      | destroyed => exact (hinv.outcome.lives.1 hf).elim
      | undefined => exact (hinv.outcome.lives.2 hf).elim

end Stuck

/-- What a single `get()` on a coroutine that has never been resumed brings about. -/
structure Completes (cfg : Config ι V E) (q : State N ι Body × Client N ι V E)
    (tr : List (Event N ι Body Label)) : Prop where
  once : fulfilments tr ≤ 1
  inOrder : ∃ m, segments tr = List.range m
  outcome : ∀ r, q.2.promise = some r → Ended cfg tr r
  /-- `submit` throws after a shutdown, and only then. -/
  rejected : ∀ pre t x post, tr = pre ++ .rejected t x :: post → ∃ u, .closed u ∈ pre
  accepted : ∀ pre t x post, tr = pre ++ .accepted t x :: post → ∀ u, .closed u ∉ pre
  answered : calls tr ≠ [] → Stuck cfg q → ∃ r, q.2.promise = some r ∧ Ended cfg tr r

/--
A single `get()` has its promise fulfilled at most once, and in every run without
a further step: with the result of the body, or with the exception of the first
`submit` after a shutdown.
-/
theorem get_completes (hN : 0 < N) (hr : (coro N cfg).ReachWhen (UserWhen SingleGet) q tr) :
    Completes cfg q tr := by
  have hpool := hr.reach.of_guard
  have hinv := single_reach hr
  refine ⟨?_, ?_, fun r hsome => ?_, fun _ _ _ _ => closed_before_rejected hpool,
    fun _ _ _ _ => accepted_before_closed hpool, fun hcalls hstuck => ?_⟩
  · by_cases hf : q.2.frame = .finished
    · rw [(hinv.outcome.settled hf).2]
    · rw [(hinv.outcome.pending hf).2]
      exact Nat.zero_le 1
  · obtain ⟨m, _, hseg, _⟩ := hinv.controlled.stage.passed hinv.outcome.lives
    exact ⟨m, hseg⟩
  · by_cases hf : q.2.frame = .finished
    · obtain ⟨⟨r', hr', hended⟩, _⟩ := hinv.outcome.settled hf
      rw [hr'] at hsome
      cases hsome
      exact hended
    · rw [(hinv.outcome.pending hf).1] at hsome
      cases hsome
  · exact (hinv.outcome.settled
      (hstuck.ended hN hpool hinv (hosted_reach hr) hcalls)).1

/-- The pool is shut down before `get()`, which ends with the exception of `submit`. -/
theorem get_completes_afterShutdown :
    ∃ (q : State 1 Unit Body × Client 1 Unit Nat String) (tr : _),
      (coro 1 oneHop).ReachWhen (UserWhen SingleGet) q tr ∧
        q.2.promise.bind Except.toOption = none ∧ q.2.promise.isSome = true ∧
          Completes oneHop q tr := by
  obtain ⟨q, tr, hr, h⟩ := Machine.exists_reachWhen_of_exec (M := coro 1 oneHop)
    (C := UserWhen SingleGet)
    [.shutdown (.inr ()), .advance (.inr ()), .advance (.inr ()), .requestStop (.inr ()),
      .requestStop (.inr ()), .user (.inr ()) (.call (.get 0)), .user (.inr ()) .test,
      .user (.inr ()) .attach, .user (.inr ()) .test,
      .user (.inr ()) (.resume none (some 0)), .user (.inr ()) (.segment 0),
      .submit (.inr ()) (.resume 1), .advance (.inr ()),
      .user (.inr ()) .unhandledException, .user (.inr ()) .readPromise,
      .user (.inr ()) .fulfil, .user (.inr ()) .leave, .user (.inr ()) .getReturned]
    (p := fun r => (r.1.2.promise.bind Except.toOption).isNone && r.1.2.promise.isSome)
    (by decide)
  simp only [Bool.and_eq_true, Option.isNone_iff_eq_none] at h
  exact ⟨q, tr, hr, h.1, h.2, get_completes (by decide) hr⟩

end Progress

end CoroTask
end ThreadPool
end AsyncTaskEngine
