import AsyncTaskEngine.AsioFutures

/-!
# Posted work at the destruction of an AsioContext

The destructor resets the work guard and then stops the `io_context`.  Once it is
stopped, `run()` dispatches no further handler, also none that was posted before:
`UntilStop` is this assumption.  Hence a posted callable has run when the destructor
has waited for its io threads if and only if one of them had taken its handler
before `io_ctx_.stop()`: `posted_run_before_stop`.

`PostLog` is the invariant: it says for each posted handler whether it has been
invoked, and that an invocation comes before the stop of its context.
-/

namespace AsyncTaskEngine
namespace ThreadPool
namespace AsioContext

universe u v w

variable {N : Nat} {ι : Type u} {V : Type v} {E : Type w}

/-- The calls of `async_after` and `post` in the trace. -/
def issues (tr : List (Event N ι Body (Label V E))) : Nat :=
  tr.countP fun
    | .user _ (.asyncAfter _ _) => true
    | .user _ (.post _ _) => true
    | _ => false

/-- The operation with this number was issued by a call of `post`. -/
def Posted (tr : List (Event N ι Body (Label V E))) (i : Nat) : Prop :=
  ∃ pre t c func post, tr = pre ++ .user t (.post c func) :: post ∧ issues pre = i

/-- An io thread has taken the handler of the operation. -/
def Invoked (tr : List (Event N ι Body (Label V E))) (i : Nat) : Prop :=
  ∃ t, .user t (.invoke i) ∈ tr

/-- An io thread has taken the handler before `io_ctx_.stop()`. -/
def InvokedBeforeStop (tr : List (Event N ι Body (Label V E))) (c i : Nat) : Prop :=
  ∃ pre t post, tr = pre ++ .user t (.stop c) :: post ∧ Invoked pre i

/-- `run()` stops dispatching handlers once its context is stopped. -/
def UntilStop (k : Client N ι V E) (_ : List (Event N ι Body (Label V E))) (_ : Tid N ι) :
    Label V E → Prop
  | .invoke i => ∀ o ∈ k.operations[i]?, (k.contexts o.context).phase.stopped = false
  | _ => True

instance (k : Client N ι V E) (tr : List (Event N ι Body (Label V E))) (t : Tid N ι)
    (label : Label V E) : Decidable (UntilStop k tr t label) :=
  match label with
  | .invoke i => inferInstanceAs (Decidable (∀ o ∈ k.operations[i]?, _ = false))
  | .construct _ | .constructed _ | .destroyGuard _ | .destroyIoContext _ | .resetGuard _
  | .stop _ | .waited _ | .ioContextDestroyed _ | .asyncAfter _ _ | .post _ _
  | .callReturned _ | .expire _ _ | .callable _ | .callableEnded _ | .settle _
  | .dispose _ | .discard _ => isTrue trivial

/-- The destructor has waited for all futures. -/
def Client.waitOver (k : Client N ι V E) (c : Nat) : Prop :=
  match (k.contexts c).phase with
  | .waiting _ j => (k.contexts c).futures.length ≤ j
  | .dying _ => True
  | .destroyed => True
  | _ => False

/-- What has happened to a posted operation, by the place where its handler is. -/
def PostState (tr : List (Event N ι Body (Label V E))) (i : Nat)
    (o : Operation (Tid N ι) V E) : Prop :=
  match o.handler with
  | .timer => False
  | .queued error => error = false ∧ ¬ Invoked tr i
  | .entered _ error => error = false ∧ Invoked tr i
  | .calling _ => Invoked tr i
  | .called _ => Invoked tr i
  | .settled _ => Invoked tr i
  | .gone => Invoked tr i ↔ ¬ Discarded tr i

/-- The posted operations, and the invocations before the stop of each context. -/
structure PostLog (k : Client N ι V E) (tr : List (Event N ι Body (Label V E))) : Prop where
  length : k.operations.length = issues tr
  unborn : ∀ i, k.operations.length ≤ i → ¬ Invoked tr i
  posted : ∀ i o, k.operations[i]? = some o → Posted tr i → PostState tr i o ∧ ¬ TimerFailed tr i
  stopped : ∀ c, (k.contexts c).phase.stopped = true →
    ∃ pre t post, tr = pre ++ .user t (.stop c) :: post ∧
      ∀ i o, k.operations[i]? = some o → o.context = c → Invoked tr i → Invoked pre i

variable {tr es : List (Event N ι Body (Label V E))} {e : Event N ι Body (Label V E)} {i : Nat}

theorem invoked_append :
    Invoked (tr ++ [e]) i ↔ Invoked tr i ∨ ∃ t, e = .user t (.invoke i) := by
  simp only [Invoked, List.mem_append, List.mem_singleton, exists_or, eq_comm]

theorem issues_append (tr es : List (Event N ι Body (Label V E))) :
    issues (tr ++ es) = issues tr + issues es :=
  List.countP_append

theorem posted_of_getElem {n : Nat} {t : Tid N ι} {c : Nat} {func : Except E V}
    (h : tr[n]? = some (.user t (.post c func))) : Posted tr (issues (tr.take n)) := by
  obtain ⟨hlt, hn⟩ := List.getElem?_eq_some_iff.mp h
  refine ⟨tr.take n, t, c, func, tr.drop (n + 1), ?_, rfl⟩
  rw [← hn, List.getElem_cons_drop, List.take_append_drop]

theorem Posted.lt (h : Posted tr i) : i < issues tr := by
  obtain ⟨pre, t, c, func, post, rfl, rfl⟩ := h
  rw [issues_append, issues, issues, List.countP_cons]
  simp

/-- The last event is a `post`, or the operation was posted before. -/
theorem posted_append (h : Posted (tr ++ [e]) i) :
    Posted tr i ∨ issues tr = i ∧ ∃ t c func, e = .user t (.post c func) := by
  obtain ⟨pre, t, c, func, post, htr, hi⟩ := h
  rcases Machine.event_split htr with ⟨es₀, rfl, hes⟩ | ⟨post₀, rfl, rfl⟩
  · have hnil : es₀ = [] := by
      cases es₀ with
      | nil => rfl
      | cons e' es₀ => simp at hes
    subst hnil
    rw [List.append_nil] at hi
    exact .inr ⟨hi, t, c, func, List.head_eq_of_cons_eq hes⟩
  · exact .inl ⟨pre, t, c, func, post₀, rfl, hi⟩

/-- The event neither takes nor discards the handler, nor fails the timer. -/
structure Aside (e : Event N ι Body (Label V E)) (i : Nat) : Prop where
  invoke : ∀ t, e ≠ .user t (.invoke i)
  discard : ∀ t, e ≠ .user t (.discard i)
  expire : ∀ t, e ≠ .user t (.expire i true)

theorem aside_of_op (he : ∀ t label, e = .user t label → label.op? ≠ some i) : Aside e i :=
  ⟨fun t h => he t _ h rfl, fun t h => he t _ h rfl, fun t h => he t _ h rfl⟩

theorem Aside.invoked (he : Aside e i) : Invoked (tr ++ [e]) i ↔ Invoked tr i := by
  rw [invoked_append, or_iff_left]
  rintro ⟨t, h⟩
  exact he.invoke t h

theorem Aside.discarded (he : Aside e i) : Discarded (tr ++ [e]) i ↔ Discarded tr i := by
  rw [discarded_append, or_iff_left]
  rintro ⟨t, h⟩
  exact he.discard t h

theorem Aside.timerFailed (he : Aside e i) : TimerFailed (tr ++ [e]) i ↔ TimerFailed tr i := by
  rw [timerFailed_append, or_iff_left]
  rintro ⟨t, h⟩
  exact he.expire t h

theorem PostState.keep {o : Operation (Tid N ι) V E} (h : PostState tr i o) (he : Aside e i) :
    PostState (tr ++ [e]) i o := by
  unfold PostState at h ⊢
  rwa [he.invoked, he.discarded]

section Steps

variable [DecidableEq ι] {s s' : State N ι Body} {k k' : Client N ι V E}

/-- A call of `post` leaves a handler that is ready. -/
theorem Step.post_inv {t : Tid N ι} {c : Nat} {func : Except E V}
    (hs : Step s k (.user t (.post c func)) k') : k' = k.issue c func (.queued false) t := by
  cases hs with
  | quiet he => cases he
  | phase hm => cases hm
  | post hcode huse => rfl
  | operation ho hm => cases hm

omit [DecidableEq ι] in
theorem PostState.of_handler {o o' : Operation (Tid N ι) V E} (h : PostState tr i o)
    (hh : o'.handler = o.handler) : PostState tr i o' := by
  unfold PostState at h ⊢
  rwa [hh]

omit [DecidableEq ι] in
/-- A handler that has settled its promise has not been discarded. -/
theorem Finished.not_discarded {o : Operation (Tid N ι) V E} (h : Finished tr i o) :
    ¬ Discarded tr i := by
  rcases h with ⟨htold, _⟩ | ⟨htold, _⟩ <;> simp [htold.discarded]

/-- A step of a posted operation; its timer cannot fail, because it has none. -/
theorem PostState.move {t : Tid N ι} {label : Label V E} {o o' : Operation (Tid N ι) V E}
    (h : PostState tr i o) (hist : History tr i o) (hm : OpMove s k t i o label o') :
    PostState (tr ++ [.user t label]) i o' ∧ ∀ error, label ≠ .expire i error := by
  cases hm with
  | callReturned hc =>
      have haside : Aside (.user t (.callReturned i) : Event N ι Body (Label V E)) i :=
        ⟨by simp, by simp, by simp⟩
      exact ⟨(h.keep haside).of_handler (by simp), by simp⟩
  | expire hh => simp [PostState, hh] at h
  | invoke hfree hruns hh =>
      simp only [PostState, hh] at h
      exact ⟨⟨h.1, invoked_append.mpr (.inr ⟨t, rfl⟩)⟩, by simp⟩
  | callable hh =>
      simp only [PostState, hh] at h
      exact ⟨invoked_append.mpr (.inl h.2), by simp⟩
  | callableEnded hh hcalls =>
      simp only [PostState, hh] at h
      exact ⟨invoked_append.mpr (.inl h), by simp⟩
  | settleCallable hh =>
      simp only [PostState, hh] at h
      exact ⟨invoked_append.mpr (.inl h), by simp⟩
  | settleError hh => simp [PostState, hh] at h
  | dispose hh =>
      simp only [PostState, hh] at h
      simp only [History, hh] at hist
      have hkept : Invoked (tr ++ [.user t (.dispose i)]) i ↔
          ¬ Discarded (tr ++ [.user t (.dispose i)]) i := by
        simp [invoked_append, discarded_append, h, hist.not_discarded]
      refine ⟨?_, by simp⟩
      simpa [PostState, Operation.drop] using hkept
  | discard hh hp =>
      have hkept : Invoked (tr ++ [.user t (.discard i)]) i ↔
          ¬ Discarded (tr ++ [.user t (.discard i)]) i := by
        cases hg : o.handler with
        | queued error =>
            simp only [PostState, hg] at h
            simp [invoked_append, discarded_append, h.2]
        | timer => simp [PostState, hg] at h
        | _ => simp [hg, Handler.uninvoked] at hh
      refine ⟨?_, by simp⟩
      simpa [PostState, Operation.drop] using hkept

/-- Nothing happens to an operation that is not issued yet. -/
theorem Step.aside_of_unborn (hs : Step s k e k') (hi : k.operations.length ≤ i) :
    Aside e i := by
  refine aside_of_op fun t label he hop => ?_
  have := hs.op_issued he hop
  omega

/-- A context is stopped by `io_ctx_.stop()`. -/
theorem Step.stopped_inv (hs : Step s k e k') {c : Nat}
    (h : (k'.contexts c).phase.stopped = true) :
    (k.contexts c).phase.stopped = true ∨ ∃ t, e = .user t (.stop c) := by
  rcases hs.phase_inv c with heq | ⟨p, hp', hchange⟩
  · exact .inl (heq ▸ h)
  · rw [hp'] at h
    cases hchange with
    | move hm =>
        cases hm with
        | stop hp => exact .inr ⟨_, rfl⟩
        | waited hp hid hready => exact .inl (by rw [hp]; rfl)
        | destroyIoContext hp hlen => exact .inl (by rw [hp]; rfl)
        | ioContextDestroyed hp hnone => exact .inl (by rw [hp]; rfl)
        | _ => cases h
    | _ => cases h

/-- An operation that has been invoked existed before the step, unless it is invoked by it. -/
theorem Step.invoked_inv (hs : Step s k e k') (hunborn : ∀ i, k.operations.length ≤ i →
    ¬ Invoked tr i) {o : Operation (Tid N ι) V E} (ho : k'.operations[i]? = some o)
    (h : Invoked (tr ++ [e]) i) :
    ∃ o₀, k.operations[i]? = some o₀ ∧ o₀.context = o.context ∧
      (Invoked tr i ∨ ∃ t, e = .user t (.invoke i)) := by
  have hcase := invoked_append.mp h
  cases hs.operation_inv ho with
  | keep ho he => exact ⟨o, ho, rfl, hcase⟩
  | issue hlabel hh hi huse =>
      have haside := hs.aside_of_unborn hi.ge
      exact (hunborn i hi.ge (haside.invoked.mp h)).elim
  | move ho hm => exact ⟨_, ho, hm.context_eq.symm, hcase⟩

namespace PostLog

/-- The numbers of the operations are given in the order of the calls. -/
theorem length_step (h : PostLog k tr) (hs : Step s k e k') :
    k'.operations.length = issues (tr ++ [e]) := by
  have hlength := h.length
  rw [issues_append, ← hlength]
  cases hs with
  | quiet he => cases e <;> first | rfl | cases he
  | phase hm => cases hm <;> rfl
  | operation ho hm => cases hm <;> simp [issues]
  | asyncAfter hcode huse => simp [Client.issue, issues]
  | post hcode huse => simp [Client.issue, issues]
  | _ => rfl

theorem posted_step (h : PostLog k tr) (hrec : Recorded k tr) (hs : Step s k e k')
    {o : Operation (Tid N ι) V E} (ho : k'.operations[i]? = some o)
    (hpost : Posted (tr ++ [e]) i) :
    PostState (tr ++ [e]) i o ∧ ¬ TimerFailed (tr ++ [e]) i := by
  rcases posted_append hpost with hold | ⟨hi, t, c, func, rfl⟩
  · clear hpost
    cases hs.operation_inv ho with
    | keep ho he =>
        obtain ⟨hstate, hno⟩ := h.posted i o ho hold
        exact ⟨hstate.keep (aside_of_op he), (aside_of_op he).timerFailed.not.mpr hno⟩
    | issue hlabel hh hi huse =>
        have hlt := hold.lt
        rw [← h.length, hi] at hlt
        exact (Nat.lt_irrefl _ hlt).elim
    | move ho hm =>
        obtain ⟨hstate, hno⟩ := h.posted i _ ho hold
        obtain ⟨hstate', hlabel⟩ := hstate.move (hrec.issued i _ ho) hm
        refine ⟨hstate', fun hfailed => ?_⟩
        rcases timerFailed_append.mp hfailed with hfailed | ⟨t', he⟩
        · exact hno hfailed
        · cases he
          exact hlabel true rfl
  · -- the operation is the new one
    obtain rfl := hs.post_inv
    rw [← h.length] at hi
    have haside : Aside (.user t (.post c func) : Event N ι Body (Label V E)) i :=
      hs.aside_of_unborn hi.le
    rw [Client.issue, List.getElem?_append_right hi.le, ← hi, Nat.sub_self] at ho
    obtain rfl := Option.some.inj ho
    refine ⟨⟨rfl, haside.invoked.not.mpr (h.unborn i hi.le)⟩, haside.timerFailed.not.mpr ?_⟩
    rw [(hrec.unborn i hi.le).failed]
    simp

theorem stopped_step (h : PostLog k tr) (hs : Step s k e k')
    (hcond : ∀ t label, e = .user t label → UntilStop k tr t label) {c : Nat}
    (hp : (k'.contexts c).phase.stopped = true) :
    ∃ pre t post, tr ++ [e] = pre ++ .user t (.stop c) :: post ∧
      ∀ i o, k'.operations[i]? = some o → o.context = c → Invoked (tr ++ [e]) i →
        Invoked pre i := by
  rcases hs.stopped_inv hp with hold | ⟨t, rfl⟩
  · obtain ⟨pre, t, post, rfl, hbefore⟩ := h.stopped c hold
    refine ⟨pre, t, post ++ [e], by simp, fun i o ho hc hinv => ?_⟩
    obtain ⟨o₀, ho₀, hc₀, hinv | ⟨t', rfl⟩⟩ := hs.invoked_inv h.unborn ho hinv
    · exact hbefore i o₀ ho₀ (hc₀.trans hc) hinv
    · -- no handler is dispatched after the stop
      have hrunning := hcond t' _ rfl o₀ ho₀
      rw [hc₀, hc, hold] at hrunning
      cases hrunning
  · refine ⟨tr, t, [], rfl, fun i o _ _ hinv => ?_⟩
    have haside : Aside (.user t (.stop c) : Event N ι Body (Label V E)) i :=
      ⟨by simp, by simp, by simp⟩
    exact haside.invoked.mp hinv

theorem step (h : PostLog k tr) (hrec : Recorded k tr) (hs : Step s k e k')
    (hcond : ∀ t label, e = .user t label → UntilStop k tr t label) :
    PostLog k' (tr ++ [e]) where
  length := h.length_step hs
  unborn i hi := by
    have hi' := hs.length_mono.trans hi
    exact (hs.aside_of_unborn hi').invoked.not.mpr (h.unborn i hi')
  posted i o ho hpost := h.posted_step hrec hs ho hpost
  stopped c hp := h.stopped_step hs hcond hp

end PostLog

omit [DecidableEq ι] in
theorem postLog_init : PostLog (Client.init : Client N ι V E) [] where
  length := rfl
  unborn i _ h := by
    obtain ⟨t, ht⟩ := h
    cases ht
  posted i o ho := by cases ho
  stopped c hp := by cases hp

variable [Fintype ι] {q : State N ι Body × Client N ι V E}

theorem postLog_reach (hr : (asio N ι V E).ReachWhen (UserWhen UntilStop) q tr) :
    PostLog q.2 tr := by
  have hinv := asio_induction (P := fun _ k tr => Recorded k tr ∧ PostLog k tr) hr
    ⟨recorded_init, postLog_init⟩ fun _ h hj => ?_
  · exact hinv.2
  · rcases hj.step with ⟨rfl, rfl⟩ | ⟨e, rfl, hs⟩
    · rw [List.append_nil]
      exact h
    · refine ⟨h.1.step hs, h.2.step h.1 hs fun t label he => ?_⟩
      exact hj.condition t label (by rw [he])

/-- When the wait is over, nobody executes a handler of the context. -/
theorem Orderly.idle_of_waitOver (h : Orderly q.1 q.2 tr)
    (hr : (pool N ι Body (Label V E)).Reach q.1 tr) {o : Operation (Tid N ι) V E}
    (ho : o ∈ q.2.operations) (hover : q.2.waitOver o.context) : o.handler.thread? = none := by
  unfold Client.waitOver at hover
  cases hp : (q.2.contexts o.context).phase with
  | waiting t j =>
      simp only [hp] at hover
      have hready := h.waited.waiting o.context t j hp
      rw [List.take_of_length_le hover] at hready
      have hnone := h.noRun_of_ready hr hready (by simp [hp])
      exact (h.idle_of_noRun hr ho hnone (by simp [hp])).1
  | dying t => exact (h.idle hr ho (by rw [hp]; rfl)).1
  | destroyed => exact (h.idle hr ho (by rw [hp]; rfl)).1
  | _ => simp [hp] at hover

omit [DecidableEq ι] [Fintype ι] in
theorem Client.waitOver.stopped {k : Client N ι V E} {c : Nat} (h : k.waitOver c) :
    (k.contexts c).phase.stopped = true := by
  unfold Client.waitOver at h
  cases hp : (k.contexts c).phase <;> simp_all [Phase.stopped]

/--
When the destructor has waited for its io threads, a posted callable has run exactly
once if one of them had taken it before `io_ctx_.stop()`, and not at all otherwise.
-/
theorem posted_run_before_stop (hr : (asio N ι V E).ReachWhen (UserWhen UntilStop) q tr)
    {o : Operation (Tid N ι) V E} (ho : q.2.operations[i]? = some o) (hpost : Posted tr i)
    (hover : q.2.waitOver o.context) :
    callableRuns tr i = 1 ↔ InvokedBeforeStop tr o.context i := by
  have log := postLog_reach hr
  have hist := (recorded_reach hr.reach).issued i o ho
  have hidle := (orderly_reach hr.reach).idle_of_waitOver hr.reach.of_guard
    (List.mem_of_getElem? ho) hover
  obtain ⟨hstate, hno⟩ := log.posted i o ho hpost
  have hbefore : InvokedBeforeStop tr o.context i ↔ Invoked tr i := by
    constructor
    · rintro ⟨pre, t, post, rfl, t', hmem⟩
      exact ⟨t', List.mem_append_left _ hmem⟩
    · intro hinv
      obtain ⟨pre, t, post, htr, hpre⟩ := log.stopped o.context hover.stopped
      exact ⟨pre, t, post, htr, hpre i o ho rfl hinv⟩
  rw [hbefore]
  cases hh : o.handler with
  | timer => simp [PostState, hh] at hstate
  | queued error =>
      simp only [PostState, hh] at hstate
      simp only [History, hh] at hist
      simp [hist.1.runs, hstate.2]
  | gone =>
      simp only [PostState, hh] at hstate
      simp only [History, hh] at hist
      rw [hstate]
      rcases hist with (⟨htold, _⟩ | ⟨htold, _⟩) | ⟨failed, htold, _⟩
      · simp [htold.runs, htold.discarded]
      · exact (hno (htold.failed.mpr rfl)).elim
      · simp [htold.runs, htold.discarded]
  | entered t error | calling t | called t | settled t =>
      rw [hh] at hidle
      cases hidle

/-- Two posted callables, of which one is taken before the stop. -/
theorem posted_run_before_stop_oneOfTwo :
    ∃ (q : State 1 Unit Body × Client 1 Unit Nat String) (tr : _),
      (asio 1 Unit Nat String).ReachWhen (UserWhen UntilStop) q tr ∧ q.2.waitOver 0 ∧
        (callableRuns tr 0 = 1 ↔ InvokedBeforeStop tr 0 0) ∧
          (callableRuns tr 1 = 1 ↔ InvokedBeforeStop tr 0 1) := by
  have hr := Machine.ReachWhen.exec (M := asio 1 Unit Nat String) (C := UserWhen UntilStop)
    (c := fun q tr a => decide (UserWhen UntilStop q tr a)) (fun _ _ _ => of_decide_eq_true) .init
    [.user (.inr ()) (.construct 1), .submit (.inr ()) (.run 0), .advance (.inr ()),
      .notify (.inr ()) none, .user (.inr ()) (.constructed 0), .test 0, .advance (.inl 0),
      .start 0, .user (.inr ()) (.post 0 (.ok 1)), .user (.inr ()) (.callReturned 0),
      .user (.inr ()) (.post 0 (.ok 2)), .user (.inr ()) (.callReturned 1),
      .user (.inl 0) (.invoke 0), .user (.inr ()) (.resetGuard 0), .user (.inr ()) (.stop 0),
      .user (.inl 0) (.callable 0), .user (.inl 0) (.callableEnded 0),
      .user (.inl 0) (.settle 0), .user (.inl 0) (.dispose 0), .finish 0,
      .user (.inr ()) (.waited 0)]
    rfl
  exact ⟨_, _, hr, Nat.le_refl 1,
    posted_run_before_stop hr (i := 0) rfl (posted_of_getElem (n := 7) rfl) (Nat.le_refl 1),
    posted_run_before_stop hr (i := 1) rfl (posted_of_getElem (n := 9) rfl) (Nat.le_refl 1)⟩

/-- A callable that was posted before the destruction of its context began never runs. -/
theorem post_lost_at_stop :
    ∃ (q : State 1 Unit Body × Client 1 Unit Nat String) (tr : _),
      (asio 1 Unit Nat String).ReachWhen (UserWhen UntilStop) q tr ∧ Posted tr 0 ∧
        (∃ n t, tr[n]? = some (.user t (.resetGuard 0)) ∧
          .user t (.callReturned 0) ∈ tr.take n) ∧
        q.2.waitOver 0 ∧ callableRuns tr 0 = 0 := by
  have hr := Machine.ReachWhen.exec (M := asio 1 Unit Nat String) (C := UserWhen UntilStop)
    (c := fun q tr a => decide (UserWhen UntilStop q tr a)) (fun _ _ _ => of_decide_eq_true) .init
    [.user (.inr ()) (.construct 1), .submit (.inr ()) (.run 0), .advance (.inr ()),
      .notify (.inr ()) none, .user (.inr ()) (.constructed 0), .user (.inr ()) (.post 0 (.ok 1)),
      .user (.inr ()) (.callReturned 0), .user (.inr ()) (.resetGuard 0),
      .user (.inr ()) (.stop 0), .test 0, .advance (.inl 0), .start 0, .finish 0,
      .user (.inr ()) (.waited 0)]
    rfl
  exact ⟨_, _, hr, posted_of_getElem (n := 5) rfl,
    ⟨7, .inr (), rfl, List.mem_of_getElem? (i := 6) rfl⟩, Nat.le_refl 1, rfl⟩

end Steps

end AsioContext
end ThreadPool
end AsyncTaskEngine
