import AsyncTaskEngine.AsioQuiescence

/-!
# The futures of an AsioContext

A future becomes ready when its handler settles the promise, or when the last owner
of the promise is gone.  `History` says, for each place where a handler can be, what
has happened to it and to its promise: in particular a callable runs only between
its invocation and its settlement, and a discarded handler breaks the promise unless
the call of `async_after` or `post` still owns it.  At the end of the destruction all
handlers of the context are gone and all calls have returned, so that every future is
ready.
-/

namespace AsyncTaskEngine
namespace ThreadPool
namespace AsioContext

universe u v w

variable {N : Nat} {ι : Type u} {V : Type v} {E : Type w}

/-- How often the callable of the operation has been entered. -/
def callableRuns (tr : List (Event N ι Body (Label V E))) (i : Nat) : Nat :=
  tr.countP fun
    | .user _ (.callable j) => decide (j = i)
    | _ => false

/-- The timer of the operation has reported an error. -/
def TimerFailed (tr : List (Event N ι Body (Label V E))) (i : Nat) : Prop :=
  ∃ t, .user t (.expire i true) ∈ tr

/-- The handler of the operation has been destroyed without an invocation. -/
def Discarded (tr : List (Event N ι Body (Label V E))) (i : Nat) : Prop :=
  ∃ t, .user t (.discard i) ∈ tr

/-- What has happened to an operation: a run of its callable, a timer error, a discard. -/
structure Told (tr : List (Event N ι Body (Label V E))) (i : Nat)
    (ran failed discarded : Bool) : Prop where
  runs : callableRuns tr i = ran.toNat
  failed : TimerFailed tr i ↔ failed = true
  discarded : Discarded tr i ↔ discarded = true

variable {tr es : List (Event N ι Body (Label V E))} {e : Event N ι Body (Label V E)}
variable {i : Nat} {ran failed discarded : Bool}

theorem callableRuns_append (tr es : List (Event N ι Body (Label V E))) (i : Nat) :
    callableRuns (tr ++ es) i = callableRuns tr i + callableRuns es i :=
  List.countP_append

theorem timerFailed_append :
    TimerFailed (tr ++ [e]) i ↔ TimerFailed tr i ∨ ∃ t, e = .user t (.expire i true) := by
  simp only [TimerFailed, List.mem_append, List.mem_singleton, exists_or, eq_comm]

theorem discarded_append :
    Discarded (tr ++ [e]) i ↔ Discarded tr i ∨ ∃ t, e = .user t (.discard i) := by
  simp only [Discarded, List.mem_append, List.mem_singleton, exists_or, eq_comm]

theorem Told.append (h : Told tr i ran failed discarded) {ran' failed' discarded' : Bool}
    (hruns : ran'.toNat = ran.toNat + callableRuns [e] i)
    (hfailed : failed' = true ↔ failed = true ∨ ∃ t, e = .user t (.expire i true))
    (hdiscarded : discarded' = true ↔ discarded = true ∨ ∃ t, e = .user t (.discard i)) :
    Told (tr ++ [e]) i ran' failed' discarded' where
  runs := by rw [callableRuns_append, h.runs, hruns]
  failed := by rw [timerFailed_append, h.failed, hfailed]
  discarded := by rw [discarded_append, h.discarded, hdiscarded]

/-- The event neither runs the callable nor fails the timer nor discards the handler. -/
def Silent (e : Event N ι Body (Label V E)) (i : Nat) : Prop :=
  ∀ t, e ≠ .user t (.callable i) ∧ e ≠ .user t (.expire i true) ∧ e ≠ .user t (.discard i)

theorem Told.keep (h : Told tr i ran failed discarded) (he : Silent e i) :
    Told (tr ++ [e]) i ran failed discarded := by
  refine h.append ?_ ?_ ?_
  · have hzero : callableRuns [e] i = 0 := by
      refine List.countP_eq_zero.mpr fun e' he' => ?_
      obtain rfl := List.mem_singleton.mp he'
      split
      · next t j =>
          have := (he t).1
          simpa using this
      · simp
    rw [hzero, Nat.add_zero]
  · simp [fun t => (he t).2.1]
  · simp [fun t => (he t).2.2]

theorem Told.callable {t : Tid N ι} (h : Told tr i false failed discarded) :
    Told (tr ++ [.user t (.callable i)]) i true failed discarded :=
  h.append (by simp [callableRuns]) (by simp) (by simp)

theorem Told.expire {t : Tid N ι} {error : Bool} (h : Told tr i ran false discarded) :
    Told (tr ++ [.user t (.expire i error)]) i ran error discarded :=
  h.append (by simp [callableRuns]) (by simp) (by simp)

theorem Told.discard {t : Tid N ι} (h : Told tr i ran failed false) :
    Told (tr ++ [.user t (.discard i)]) i ran failed true :=
  h.append (by simp [callableRuns]) (by simp) (by simp)

/-- The future is not ready. -/
def Operation.Unsettled {τ : Type u} (o : Operation τ V E) : Prop :=
  o.result = none ∧ o.settlements = 0

/-- The future has become ready once, with this outcome. -/
def Operation.SettledWith {τ : Type u} (o : Operation τ V E) (r : Outcome V E) : Prop :=
  o.result = some r ∧ o.settlements = 1

/-- The handler has settled the promise. -/
def Finished (tr : List (Event N ι Body (Label V E))) (i : Nat)
    (o : Operation (Tid N ι) V E) : Prop :=
  (Told tr i true false false ∧ o.SettledWith (.ofExcept o.func)) ∨
    (Told tr i false true false ∧ o.SettledWith .timerError)

/-- The promise of a discarded handler is broken when its last owner is gone. -/
def Abandoned (tr : List (Event N ι Body (Label V E))) (i : Nat)
    (o : Operation (Tid N ι) V E) : Prop :=
  ∃ failed, Told tr i false failed true ∧
    if o.caller.isSome then o.Unsettled else o.SettledWith .brokenPromise

/-- What has happened to an operation, by the place where its handler is. -/
def History (tr : List (Event N ι Body (Label V E))) (i : Nat)
    (o : Operation (Tid N ι) V E) : Prop :=
  match o.handler with
  | .timer => Told tr i false false false ∧ o.Unsettled
  | .queued error => Told tr i false error false ∧ o.Unsettled
  | .entered _ error => Told tr i false error false ∧ o.Unsettled
  | .calling _ => Told tr i true false false ∧ o.Unsettled
  | .called _ => Told tr i true false false ∧ o.Unsettled
  | .settled _ => Finished tr i o
  | .gone => Finished tr i o ∨ Abandoned tr i o

theorem Finished.keep {o : Operation (Tid N ι) V E} (h : Finished tr i o) (he : Silent e i) :
    Finished (tr ++ [e]) i o :=
  h.imp (fun h => ⟨h.1.keep he, h.2⟩) fun h => ⟨h.1.keep he, h.2⟩

theorem Finished.result {o : Operation (Tid N ι) V E} (h : Finished tr i o) :
    o.result ≠ none := by
  rcases h with ⟨_, hset⟩ | ⟨_, hset⟩ <;> simp [hset.1]

theorem Abandoned.keep {o : Operation (Tid N ι) V E} (h : Abandoned tr i o) (he : Silent e i) :
    Abandoned (tr ++ [e]) i o := by
  obtain ⟨failed, htold, hset⟩ := h
  exact ⟨failed, htold.keep he, hset⟩

/-- An event about something else leaves the history as it is. -/
theorem History.keep {o : Operation (Tid N ι) V E} (h : History tr i o) (he : Silent e i) :
    History (tr ++ [e]) i o := by
  unfold History at h ⊢
  cases hh : o.handler <;> simp only [hh] at h ⊢
  case settled => exact h.keep he
  case gone => exact h.imp (fun h => h.keep he) fun h => h.keep he
  all_goals exact ⟨h.1.keep he, h.2⟩

section Operations

variable [DecidableEq ι]

omit [DecidableEq ι] in
theorem released_of_ne [DecidableEq (Tid N ι)] {o : Operation (Tid N ι) V E}
    (h : o.handler ≠ .gone) : o.released = o :=
  if_neg fun hc => h hc.1

omit [DecidableEq ι] in
theorem released_of_result [DecidableEq (Tid N ι)] {o : Operation (Tid N ι) V E}
    (h : o.result ≠ none) : o.released = o :=
  if_neg fun hc => h (Option.isNone_iff_eq_none.mp hc.2.2)

omit [DecidableEq ι] in
/-- The last owner is gone. -/
theorem released_of_last [DecidableEq (Tid N ι)] {o : Operation (Tid N ι) V E}
    (hh : o.handler = .gone) (hc : o.caller = none) (hset : o.Unsettled) :
    o.released = { o with result := some .brokenPromise, settlements := 1 } := by
  rw [Operation.released, if_pos ⟨hh, by simp [hc], by simp [hset.1]⟩, hset.2]

/-- The call returns, and lets go of its share of the promise. -/
theorem History.callReturned {o : Operation (Tid N ι) V E} {t : Tid N ι}
    (h : History tr i o) (hc : o.caller = some t) :
    History tr i { o with caller := none }.released := by
  by_cases hh : o.handler = .gone
  · unfold History at h
    simp only [hh] at h
    rcases h with h | ⟨failed, htold, hset⟩
    · rw [released_of_result (o := { o with caller := none }) h.result]
      unfold History
      simp only [hh]
      exact .inl h
    · rw [if_pos (by simp [hc])] at hset
      rw [released_of_last (o := { o with caller := none }) hh rfl hset]
      unfold History
      simp only [hh]
      exact .inr ⟨failed, htold, rfl, rfl⟩
  · rw [released_of_ne (o := { o with caller := none }) hh]
    unfold History at h ⊢
    cases hg : o.handler <;> simp only [hg] at h ⊢
    case settled => exact h
    case gone => exact (hh hg).elim
    all_goals exact h

/-- The handler is destroyed after it has settled the promise. -/
theorem Finished.dispose {o : Operation (Tid N ι) V E} (h : Finished tr i o) :
    History tr i o.drop := by
  rw [Operation.drop, released_of_result (o := { o with handler := .gone }) h.result]
  exact .inl h

/-- The handler is destroyed before its invocation. -/
theorem History.discard {o : Operation (Tid N ι) V E} {t : Tid N ι} (h : History tr i o)
    (hh : o.handler.uninvoked = true) :
    History (tr ++ [.user t (.discard i)]) i o.drop := by
  obtain ⟨failed, htold, hset⟩ : ∃ failed, Told tr i false failed false ∧ o.Unsettled := by
    unfold History at h
    cases hg : o.handler <;> simp only [hg] at h hh
    case timer | queued => exact ⟨_, h⟩
    all_goals cases hh
  rw [Operation.drop]
  by_cases hc : o.caller = none
  · rw [released_of_last (o := { o with handler := .gone }) rfl hc hset]
    refine .inr ⟨failed, htold.discard, ?_⟩
    rw [if_neg (by simp [hc])]
    exact ⟨rfl, rfl⟩
  · rw [Operation.released, if_neg (by simp [hc])]
    refine .inr ⟨failed, htold.discard, ?_⟩
    rw [if_pos (Option.isSome_iff_ne_none.mpr hc)]
    exact hset

/-- A step of the operation. -/
theorem History.move {s : State N ι Body} {k : Client N ι V E} {t : Tid N ι}
    {label : Label V E} {o o' : Operation (Tid N ι) V E} (h : History tr i o)
    (hm : OpMove s k t i o label o') : History (tr ++ [.user t label]) i o' := by
  cases hm with
  | callReturned hc => exact (h.callReturned hc).keep (by simp [Silent])
  | expire hh =>
      simp only [History, hh] at h
      exact ⟨h.1.expire, h.2⟩
  | invoke hfree hruns hh =>
      simp only [History, hh] at h
      exact ⟨h.1.keep (by simp [Silent]), h.2⟩
  | callable hh =>
      simp only [History, hh] at h
      exact ⟨h.1.callable, h.2⟩
  | callableEnded hh hcalls =>
      simp only [History, hh] at h
      exact ⟨h.1.keep (by simp [Silent]), h.2⟩
  | settleCallable hh =>
      simp only [History, hh] at h
      exact .inl ⟨h.1.keep (by simp [Silent]), rfl, by simp [h.2.2]⟩
  | settleError hh =>
      simp only [History, hh] at h
      exact .inr ⟨h.1.keep (by simp [Silent]), rfl, by simp [h.2.2]⟩
  | dispose hh =>
      simp only [History, hh] at h
      exact h.dispose.keep (by simp [Silent])
  | discard hh hp => exact h.discard hh

/-- Every operation has its history, and nothing has happened to those to come. -/
structure Recorded (k : Client N ι V E) (tr : List (Event N ι Body (Label V E))) : Prop where
  issued : ∀ i o, k.operations[i]? = some o → History tr i o
  unborn : ∀ i, k.operations.length ≤ i → Told tr i false false false

omit [DecidableEq ι] in
/-- An event about another operation, or about none. -/
theorem silent_of_op (he : ∀ t label, e = .user t label → label.op? ≠ some i) : Silent e i :=
  fun t => ⟨fun h => he t _ h rfl, fun h => he t _ h rfl, fun h => he t _ h rfl⟩

variable {s s' : State N ι Body} {k k' : Client N ι V E}

/-- Steps are about operations that have been issued. -/
theorem Step.op_issued (hs : Step s k e k') {t : Tid N ι} {label : Label V E}
    (he : e = .user t label) (hop : label.op? = some i) : i < k.operations.length := by
  cases hs with
  | quiet hq =>
      subst he
      cases hq
  | construct hcode | asyncAfter hcode huse | post hcode huse =>
      cases he
      cases hop
  | phase hm => cases he; cases hm <;> cases hop
  | operation ho hm =>
      cases he
      have hlt := (List.getElem?_eq_some_iff.mp ho).1
      cases hm <;> (cases hop; exact hlt)
  | _ => cases he

theorem Step.length_mono (hs : Step s k e k') : k.operations.length ≤ k'.operations.length := by
  cases hs with
  | asyncAfter hcode huse | post hcode huse => simp [Client.issue]
  | operation ho hm => simp
  | _ => exact Nat.le_refl _

theorem Recorded.step (h : Recorded k tr) (hs : Step s k e k') : Recorded k' (tr ++ [e]) where
  issued i o ho := by
    cases hs.operation_inv ho with
    | keep ho he => exact (h.issued i o ho).keep (silent_of_op he)
    | @issue t label c func handler hlabel hh hi huse =>
        have hsilent : Silent (.user t label) i := by
          refine silent_of_op fun t' label' he => ?_
          cases he
          rcases hlabel with rfl | rfl <;> simp [Label.op?]
        have htold := (h.unborn i hi.ge).keep hsilent
        rcases hh with rfl | rfl <;> exact ⟨htold, rfl, rfl⟩
    | move ho hm => exact (h.issued i _ ho).move hm
  unborn i hi := by
    refine (h.unborn i (hs.length_mono.trans hi)).keep (silent_of_op fun t label he hop => ?_)
    have := hs.op_issued he hop
    have := hs.length_mono
    omega

omit [DecidableEq ι] in
/-- When all owners of the promise are gone, the future is ready. -/
theorem History.ready {o : Operation (Tid N ι) V E} (h : History tr i o)
    (hh : o.handler = .gone) (hc : o.caller = none) : o.settlements = 1 := by
  simp only [History, hh] at h
  rcases h with (⟨_, hset⟩ | ⟨_, hset⟩) | ⟨failed, _, hset⟩
  · exact hset.2
  · exact hset.2
  · rw [if_neg (by simp [hc])] at hset
    exact hset.2

omit [DecidableEq ι] in
theorem recorded_init : Recorded (Client.init : Client N ι V E) [] where
  issued i o ho := by cases ho
  unborn i _ := ⟨rfl, by simp [TimerFailed], by simp [Discarded]⟩

variable [Fintype ι] {q : State N ι Body × Client N ι V E}

theorem recorded_reach (hr : (asio N ι V E).Reach q tr) : Recorded q.2 tr := by
  refine asio_induction (P := fun _ k tr => Recorded k tr) (D := fun _ _ _ _ => True)
    (hr.reachWhen.mono fun _ _ _ _ _ _ _ => trivial) recorded_init fun _ h hj => ?_
  rcases hj.step with ⟨rfl, rfl⟩ | ⟨e, rfl, hs⟩
  · rwa [List.append_nil]
  · exact h.step hs

end Operations

end AsioContext
end ThreadPool
end AsyncTaskEngine
