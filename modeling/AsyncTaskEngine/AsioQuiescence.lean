import AsyncTaskEngine.AsioConstruction

/-!
# The end of an AsioContext

The destructor waits for the futures of all run tasks before it destroys the
`io_context`: when it comes to that, no task of the context is queued or running,
nobody executes a handler of the context, and nobody is inside a call on it.  While
the `io_context` is destroyed, so are the handlers that have not been invoked.
-/

namespace AsyncTaskEngine
namespace ThreadPool
namespace AsioContext

universe u v w

variable {N : Nat} {ι : Type u} {V : Type v} {E : Type w}

/-- The destructor has waited for all futures. -/
def Phase.ended {τ : Type u} : Phase τ → Bool
  | .dying _ => true
  | .destroyed => true
  | _ => false

/-- The futures that the destructor has waited for are ready, and their tasks finished. -/
structure Waited (k : Client N ι V E) (tr : List (Event N ι Body (Label V E))) : Prop where
  finished : ∀ id, k.ready id = true → ∃ x ∈ finishedTasks tr, x.id = id
  waiting : ∀ c t j, (k.contexts c).phase = .waiting t j →
    ∀ id ∈ (k.contexts c).futures.take j, k.ready id = true
  ended : ∀ c, (k.contexts c).phase.ended = true →
    ∀ id ∈ (k.contexts c).futures, k.ready id = true

variable [DecidableEq ι]
variable {s s' : State N ι Body} {k k' : Client N ι V E}
variable {tr es : List (Event N ι Body (Label V E))} {e : Event N ι Body (Label V E)}

theorem Step.ready_inv (hs : Step s k e k') {id : Nat} (h : k'.ready id = true) :
    k.ready id = true ∨ ∃ w x, e = .finished w x ∧ x.id = id := by
  cases hs with
  | @runReturns w id' c hcalls hfree hmay =>
      dsimp only at h
      rw [Function.update_apply] at h
      split at h
      · next hid => exact .inr ⟨w, _, rfl, hid.symm⟩
      · exact .inl h
  | @taskReturns w id' hcalls =>
      dsimp only at h
      rw [Function.update_apply] at h
      split at h
      · next hid => exact .inr ⟨w, _, rfl, hid.symm⟩
      · exact .inl h
  | _ => exact .inl h

/-- A future that is ready stays so. -/
theorem Step.ready_stays (hs : Step s k e k') {id : Nat} (h : k.ready id = true) :
    k'.ready id = true := by
  cases hs with
  | runReturns hcalls hfree hmay | taskReturns hcalls =>
      dsimp only
      rw [Function.update_apply]
      split
      · rfl
      · exact h
  | _ => exact h

/-- After the constructor, the futures of a context stay as they are. -/
theorem Accounted.futures_stay (h : Accounted s k tr) (heff : Effect s s' [e])
    (hs : Step s k e k') {c : Nat} (hbegun : (k.contexts c).phase ≠ .absent)
    (hover : ∀ t, (k.contexts c).phase ≠ .constructing t) :
    (k'.contexts c).futures = (k.contexts c).futures := by
  rcases hs.futures_inv c with heq | ⟨t, id, rfl, _⟩ | ⟨hc, _⟩
  · exact heq
  · exact (hover t (h.constructing heff (.inr (.inr rfl)) rfl)).elim
  · exact (hbegun (h.fresh c hc.ge).1).elim

/-- Where a context comes from whose destructor has waited for all futures. -/
theorem Step.ended_inv (hs : Step s k e k') {c : Nat}
    (h : (k'.contexts c).phase.ended = true) :
    (k.contexts c).phase.ended = true ∨
      ∃ t j, (k.contexts c).phase = .waiting t j ∧ (k.contexts c).futures.length ≤ j := by
  rcases hs.phase_inv c with heq | ⟨p, hp', hchange⟩
  · exact .inl (heq ▸ h)
  · rw [hp'] at h
    cases hchange with
    | move hm =>
        cases hm with
        | destroyIoContext hp hlen => exact .inr ⟨_, _, hp, hlen⟩
        | ioContextDestroyed hp hnone => exact .inl (by rw [hp]; rfl)
        | _ => cases h
    | _ => cases h

theorem Waited.step (h : Waited k tr) (hacc : Accounted s k tr) (heff : Effect s s' [e])
    (hs : Step s k e k') : Waited k' (tr ++ [e]) where
  finished id hid := by
    rw [finishedTasks_append]
    rcases hs.ready_inv hid with hid | ⟨w, x, rfl, hx⟩
    · obtain ⟨x, hx, hxid⟩ := h.finished id hid
      exact ⟨x, List.mem_append_left _ hx, hxid⟩
    · refine ⟨x, List.mem_append_right _ ?_, hx⟩
      exact mem_finishedTasks.mpr ⟨w, List.mem_singleton_self _⟩
  waiting c t j hp id hid := by
    rcases hs.phase_inv c with heq | ⟨p, hp', hchange⟩
    · rw [heq] at hp
      rw [hacc.futures_stay heff hs (by simp [hp]) (by simp [hp])] at hid
      exact hs.ready_stays (h.waiting c t j hp id hid)
    · rw [hp] at hp'
      subst hp'
      cases hchange with
      | move hm =>
          cases hm with
          | stop hp' =>
              rw [List.take_zero] at hid
              cases hid
          | waited hp' hid' hready =>
              rw [hacc.futures_stay heff hs (by simp [hp']) (by simp [hp']), List.take_add_one,
                hid', List.mem_append] at hid
              rcases hid with hid | hid
              · exact hs.ready_stays (h.waiting c t _ hp' id hid)
              · obtain rfl := List.mem_singleton.mp hid
                exact hs.ready_stays hready
  ended c hp id hid := by
    rcases hs.ended_inv hp with hp' | ⟨t, j, hp', hlen⟩
    · rw [hacc.futures_stay heff hs (by rintro h0; simp [h0, Phase.ended] at hp')
        (by rintro t h0; simp [h0, Phase.ended] at hp')] at hid
      exact hs.ready_stays (h.ended c hp' id hid)
    · rw [hacc.futures_stay heff hs (by simp [hp']) (by simp [hp'])] at hid
      refine hs.ready_stays (h.waiting c t j hp' id ?_)
      rwa [List.take_of_length_le hlen]

/-- The worker goes on with `run()`, or returns from it. -/
theorem runsContext_stays [Fintype ι] (hr : (pool N ι Body (Label V E)).Reach s tr)
    (heff : Effect s s' es) {t : Tid N ι} {c : Nat} (h : runsContext s t c = true) :
    runsContext s' t c = true ∨ ∃ w id, t = .inl w ∧ es = [.finished w ⟨id, .run c⟩] := by
  unfold runsContext at h
  split at h
  · next id c' drained u hctrl =>
      obtain rfl := of_decide_eq_true h
      obtain ⟨w, rfl⟩ := worker_of_running hr hctrl
      rcases heff.running_stays hctrl with ⟨v, hv⟩ | he
      · exact .inl (by simp [runsContext, hv])
      · exact .inr ⟨w, id, rfl, he⟩
  · cases h

/-- Who executes a handler, or is inside a call, while the context may be destroyed. -/
structure Hosted (s : State N ι Body) (k : Client N ι V E) : Prop where
  handler : ∀ o ∈ k.operations, ∀ t, o.handler.thread? = some t →
    runsContext s t o.context = true
  caller : ∀ o ∈ k.operations, ∀ t, o.caller = some t →
    (k.contexts o.context).phase = .alive ∨ runsContext s t o.context = true

/-- A context stays alive until its destructor resets the work guard. -/
theorem Accounted.alive_stays (h : Accounted s k tr) (heff : Effect s s' [e])
    (hs : Step s k e k') {c : Nat} (hp : (k.contexts c).phase = .alive) :
    (k'.contexts c).phase = .alive ∨
      (∃ t, e = .user t (.resetGuard c)) ∧ ∀ o ∈ k.operations, o.context = c →
        ∀ t' ∈ o.caller, runsContext s t' c = true := by
  rcases hs.phase_inv c with heq | ⟨p, _, hchange⟩
  · exact .inl (heq.trans hp)
  · cases hchange with
    | construct hbegun =>
        rw [(h.fresh c hbegun.ge).1] at hp
        cases hp
    | unwind =>
        rw [h.constructing heff (.inr (.inl rfl)) rfl] at hp
        cases hp
    | move hm =>
        cases hm with
        | resetGuard hp' hcode hunused => exact .inr ⟨⟨_, rfl⟩, hunused⟩
        | constructed hp' | destroyGuard hp' | fail hp' | stop hp' | waited hp'
        | destroyIoContext hp' | ioContextDestroyed hp' =>
            rw [hp] at hp'
            cases hp'

omit [DecidableEq ι] in
theorem mayUse_inv {t : Tid N ι} {c : Nat} (h : mayUse k s t c = true) :
    (k.contexts c).phase = .alive ∨ runsContext s t c = true := by
  unfold mayUse at h
  split at h
  · next hp => exact .inl hp
  · exact .inr h
  · exact .inr h
  · cases h

section Moves

variable {t : Tid N ι} {label : Label V E} {i : Nat} {o o' : Operation (Tid N ι) V E}

theorem OpMove.context_eq (hm : OpMove s k t i o label o') : o'.context = o.context := by
  cases hm with
  | callReturned hc => exact released_context _
  | dispose hh | discard hh hp => exact released_context _
  | _ => rfl

/-- A caller has been inside its call before. -/
theorem OpMove.caller_inv {u : Tid N ι} (hm : OpMove s k t i o label o')
    (hu : o'.caller = some u) : o.caller = some u := by
  cases hm with
  | callReturned hc =>
      rw [released_caller] at hu
      cases hu
  | dispose hh | discard hh hp => rwa [Operation.drop, released_caller] at hu
  | _ => exact hu

/-- A handler that has been invoked or destroyed does not come back. -/
theorem OpMove.uninvoked_stays (hm : OpMove s k t i o label o')
    (h : o.handler.uninvoked = false) : o'.handler.uninvoked = false := by
  cases hm with
  | callReturned hc => rwa [released_handler]
  | expire hh =>
      rw [hh] at h
      cases h
  | dispose hh | discard hh hp =>
      rw [Operation.drop, released_handler]
      rfl
  | _ => rfl

end Moves

namespace Hosted

variable [Fintype ι]

/-- `run()` does not return while its worker executes a handler or is inside a call. -/
theorem runs_on (hr : (pool N ι Body (Label V E)).Reach s tr) (heff : Effect s s' [e])
    (hs : Step s k e k') {t : Tid N ι} {c : Nat} (hruns : runsContext s t c = true)
    (hbusy : ∃ o ∈ k.operations, o.handler.thread? = some t ∨ o.caller = some t) :
    runsContext s' t c = true := by
  rcases runsContext_stays hr heff hruns with hruns' | ⟨w, id, rfl, he⟩
  · exact hruns'
  · obtain ⟨o, ho, hbusy⟩ := hbusy
    cases (List.cons.inj he).1
    cases hs with
    | quiet hq => cases hq
    | runReturns hcalls hfree hmay =>
        rcases hbusy with hh | hc
        · exact (of_decide_eq_true hfree o ho hh).elim
        · exact (of_decide_eq_true hcalls o ho hc).elim

theorem handler_step (h : Hosted s k) (hr : (pool N ι Body (Label V E)).Reach s tr)
    (heff : Effect s s' [e]) (hs : Step s k e k') {i : Nat} {o : Operation (Tid N ι) V E}
    (ho : k'.operations[i]? = some o) {t : Tid N ι} (ht : o.handler.thread? = some t) :
    runsContext s' t o.context = true := by
  cases hs.operation_inv ho with
  | keep ho he =>
      have hmem := List.mem_of_getElem? ho
      exact runs_on hr heff hs (h.handler o hmem t ht) ⟨o, hmem, .inl ht⟩
  | issue hlabel hh hi huse => rcases hh with rfl | rfl <;> cases ht
  | @move t' label o o' ho hm =>
      have hmem := List.mem_of_getElem? ho
      have hstays : ∀ {u : Tid N ι}, runsContext s u o.context = true →
          runsContext s' u o.context = true :=
        fun hu => (runsContext_stays hr heff hu).resolve_right (by simp)
      cases hm with
      | callReturned hc =>
          rw [released_context]
          exact hstays (h.handler o hmem t (by rwa [released_handler] at ht))
      | expire hh => cases ht
      | invoke hfree hruns hh =>
          cases ht
          exact hstays hruns
      | callable hh | callableEnded hh | settleCallable hh | settleError hh =>
          cases ht
          exact hstays (h.handler o hmem _ (by rw [hh]; rfl))
      | dispose hh | discard hh =>
          rw [Operation.drop, released_handler] at ht
          cases ht

theorem caller_step (h : Hosted s k) (hacc : Accounted s k tr)
    (hr : (pool N ι Body (Label V E)).Reach s tr) (heff : Effect s s' [e]) (hs : Step s k e k')
    {i : Nat} {o : Operation (Tid N ι) V E} (ho : k'.operations[i]? = some o) {t : Tid N ι}
    (ht : o.caller = some t) :
    (k'.contexts o.context).phase = .alive ∨ runsContext s' t o.context = true := by
  cases hs.operation_inv ho with
  | keep ho he =>
      have hmem := List.mem_of_getElem? ho
      have hbusy : ∃ o ∈ k.operations, o.handler.thread? = some t ∨ o.caller = some t :=
        ⟨o, hmem, .inr ht⟩
      rcases h.caller o hmem t ht with halive | hruns
      · rcases hacc.alive_stays heff hs halive with halive' | ⟨_, hunused⟩
        · exact .inl halive'
        · exact .inr (runs_on hr heff hs (hunused o hmem rfl t ht) hbusy)
      · exact .inr (runs_on hr heff hs hruns hbusy)
  | issue hlabel hh hi huse =>
      cases ht
      rcases mayUse_inv huse with halive | hruns
      · rcases hacc.alive_stays heff hs halive with halive' | ⟨⟨u, he⟩, _⟩
        · exact .inl halive'
        · cases he
          rcases hlabel with hlabel | hlabel <;> cases hlabel
      · exact .inr ((runsContext_stays hr heff hruns).resolve_right (by simp))
  | @move _ _ o o' ho hm =>
      have hmem := List.mem_of_getElem? ho
      rw [hm.context_eq]
      rcases h.caller o hmem t (hm.caller_inv ht) with halive | hruns
      · rcases hacc.alive_stays heff hs halive with halive' | ⟨⟨u, he⟩, _⟩
        · exact .inl halive'
        · cases he
          cases hm
      · exact .inr ((runsContext_stays hr heff hruns).resolve_right (by simp))

theorem step {D : Client N ι V E → List (Event N ι Body (Label V E)) → Tid N ι → Label V E → Prop}
    (h : Hosted s k) (hacc : Accounted s k tr) (hr : (pool N ι Body (Label V E)).Reach s tr)
    (hj : Joint Step D s s' k k' tr es) : Hosted s' k' := by
  rcases hj.step with ⟨rfl, rfl⟩ | ⟨e, rfl, hs⟩
  · have hstays : ∀ {t : Tid N ι} {c : Nat}, runsContext s t c = true →
        runsContext s' t c = true :=
      fun hruns => (runsContext_stays hr hj.effect hruns).resolve_right (by simp)
    exact ⟨fun o ho t ht => hstays (h.handler o ho t ht),
      fun o ho t ht => (h.caller o ho t ht).imp_right hstays⟩
  · constructor
    · intro o ho t ht
      obtain ⟨i, hi⟩ := List.mem_iff_getElem?.mp ho
      exact h.handler_step hr hj.effect hs hi ht
    · intro o ho t ht
      obtain ⟨i, hi⟩ := List.mem_iff_getElem?.mp ho
      exact h.caller_step hacc hr hj.effect hs hi ht

end Hosted

/-- The handlers that have not been invoked are destroyed with the `io_context`. -/
def Swept (k : Client N ι V E) : Prop :=
  ∀ c, (k.contexts c).phase = .destroyed →
    ∀ o ∈ k.operations, o.context = c → o.handler.uninvoked = false

/-- No handler is left to be invoked, and none is added. -/
theorem Swept.step (h : Swept k) (hs : Step s k e k') : Swept k' := by
  intro c hp o ho hc
  obtain ⟨i, hi⟩ := List.mem_iff_getElem?.mp ho
  rcases hs.phase_inv c with heq | ⟨p, hp', hchange⟩
  · rw [heq] at hp
    cases hs.operation_inv hi with
    | keep ho he => exact h c hp o (List.mem_of_getElem? ho) hc
    | issue hlabel hh hi huse =>
        subst hc
        simp [mayUse, hp] at huse
    | move ho hm =>
        refine hm.uninvoked_stays (h c hp _ (List.mem_of_getElem? ho) ?_)
        rw [← hm.context_eq, hc]
  · rw [hp] at hp'
    subst hp'
    cases hchange with
    | move hm =>
        cases hm with
        | ioContextDestroyed hp' hnone =>
            cases hs.operation_inv hi with
            | keep ho he => exact hnone o (List.mem_of_getElem? ho) hc
            | issue hlabel hh hi huse => rcases hlabel with hlabel | hlabel <;> cases hlabel
            | move ho hm => cases hm

variable [Fintype ι] {q : State N ι Body × Client N ι V E}

/-- What holds of the contexts in every reachable state. -/
structure Orderly (s : State N ι Body) (k : Client N ι V E)
    (tr : List (Event N ι Body (Label V E))) : Prop where
  accounted : Accounted s k tr
  waited : Waited k tr
  hosted : Hosted s k
  swept : Swept k

theorem Orderly.step
    {D : Client N ι V E → List (Event N ι Body (Label V E)) → Tid N ι → Label V E → Prop}
    (h : Orderly s k tr) (hr : (pool N ι Body (Label V E)).Reach s tr)
    (hj : Joint Step D s s' k k' tr es) : Orderly s' k' (tr ++ es) where
  accounted := h.accounted.step hr hj
  waited := by
    rcases hj.step with ⟨rfl, rfl⟩ | ⟨e, rfl, hs⟩
    · rw [List.append_nil]
      exact h.waited
    · exact h.waited.step h.accounted hj.effect hs
  hosted := h.hosted.step h.accounted hr hj
  swept := by
    rcases hj.step with ⟨_, rfl⟩ | ⟨_, _, hs⟩
    · exact h.swept
    · exact h.swept.step hs

theorem orderly_init :
    Orderly (pool N ι Body (Label V E)).init (Client.init : Client N ι V E) [] where
  accounted := accounted_init
  waited :=
    { finished := fun id h => by cases h
      waiting := fun c t j h => by cases h
      ended := fun c h => by cases h }
  hosted :=
    { handler := fun o ho => by cases ho
      caller := fun o ho => by cases ho }
  swept c h := by cases h

theorem orderly_reach (hr : (asio N ι V E).Reach q tr) : Orderly q.1 q.2 tr :=
  asio_induction (P := Orderly) (D := fun _ _ _ _ => True)
    (hr.reachWhen.mono fun _ _ _ _ _ _ _ => trivial) orderly_init fun hr h hj => h.step hr hj

/-- When all futures are ready, no task of the context is queued or running. -/
theorem Orderly.noRun_of_ready (h : Orderly s k tr)
    (hr : (pool N ι Body (Label V E)).Reach s tr) {c : Nat}
    (hready : ∀ id ∈ (k.contexts c).futures, k.ready id = true)
    (hbuilt : ∀ t, (k.contexts c).phase ≠ .constructing t) : NoRun s c := by
  have hfinished : ∀ x ∈ acceptedTasks tr, x.body = .run c →
      timesIn x.id (finishedTasks tr) ≠ 0 := by
    intro x hx hbody
    have hid := h.accounted.saved_of_accepted hr hx hbody hbuilt
    obtain ⟨y, hy, hyid⟩ := h.waited.finished _ (hready _ hid)
    have := timesIn_pos hy
    rw [hyid] at this
    omega
  constructor
  · intro x hx hbody
    refine hfinished x ?_ hbody (queued_unfinished hr hx)
    rw [accepted_eq_popped_append hr]
    exact List.mem_append_right _ hx
  · intro w x hx hbody
    exact hfinished x ((popped_prefix_accepted hr).subset (popped_of_held hr hx)) hbody
      (held_unfinished hr hx)

/-- After the wait, no task of the context is queued or running. -/
theorem Orderly.noRun (h : Orderly s k tr) (hr : (pool N ι Body (Label V E)).Reach s tr)
    {c : Nat} (hover : (k.contexts c).phase.ended = true) : NoRun s c :=
  h.noRun_of_ready hr (h.waited.ended c hover)
    (by rintro t h0; simp [h0, Phase.ended] at hover)

/-- Without its tasks, a context that is not alive has nobody in its handlers and calls. -/
theorem Orderly.idle_of_noRun (h : Orderly s k tr)
    (hr : (pool N ι Body (Label V E)).Reach s tr) {o : Operation (Tid N ι) V E}
    (ho : o ∈ k.operations) (hnone : NoRun s o.context)
    (hover : (k.contexts o.context).phase ≠ .alive) :
    o.handler.thread? = none ∧ o.caller = none := by
  have hfree : ∀ t, runsContext s t o.context ≠ true := by
    intro t hruns
    unfold runsContext at hruns
    split at hruns
    · next id c' drained u hctrl =>
        obtain ⟨w, rfl⟩ := worker_of_running hr hctrl
        refine hnone.held w ⟨id, .run c'⟩ ?_ (by rw [of_decide_eq_true hruns])
        simp [hctrl, Ctrl.holds, Ctrl.taken, Ctrl.executing]
    · cases hruns
  constructor
  · refine Option.eq_none_iff_forall_ne_some.mpr fun t ht => ?_
    exact hfree t (h.hosted.handler o ho t ht)
  · refine Option.eq_none_iff_forall_ne_some.mpr fun t ht => ?_
    rcases h.hosted.caller o ho t ht with halive | hruns
    · exact hover halive
    · exact hfree t hruns

/-- A handler that is executed, or a call, belongs to a context that is not destroyed yet. -/
theorem Orderly.idle (h : Orderly s k tr) (hr : (pool N ι Body (Label V E)).Reach s tr)
    {o : Operation (Tid N ι) V E} (ho : o ∈ k.operations)
    (hover : (k.contexts o.context).phase.ended = true) :
    o.handler.thread? = none ∧ o.caller = none :=
  h.idle_of_noRun hr ho (h.noRun hr hover) (by rintro h0; simp [h0, Phase.ended] at hover)

end AsioContext
end ThreadPool
end AsyncTaskEngine
