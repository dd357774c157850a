import AsyncTaskEngine.ThreadPoolProgress

/-!
# Clients of the pool

A client restricts the choices of the code that the threads of the pool run, and
follows the events.  This module has what the clients share: conditions on the
steps that a client labels, an invariant rule in terms of the client's own step
relation, and the fact that a worker stays with its task until the task ends.
-/

namespace AsyncTaskEngine
namespace ThreadPool

universe u v w x

variable {N : Nat} {ι : Type u} {π : Type v} {ℓ : Type w} {κ : Type x}

/-- The task of the `submit` call that the thread is in. -/
def Ctrl.inSubmit? (c : Ctrl π) : Option (Task π) :=
  match c.user? with
  | some (.submitting task) => some task
  | some (.notifying task) => some task
  | _ => none

theorem Ctrl.inSubmit?_eq_some {c : Ctrl π} {task : Task π} :
    c.inSubmit? = some task ↔
      c.user? = some (.submitting task) ∨ c.user? = some (.notifying task) := by
  unfold Ctrl.inSubmit?
  split
  · next h => simp [h]
  · next h => simp [h]
  · next h₁ h₂ =>
      constructor
      · intro h
        cases h
      · rintro (h | h)
        · exact (h₁ _ h).elim
        · exact (h₂ _ h).elim

/-- A condition on the steps that the client labels. -/
def UserWhen (D : κ → List (Event N ι π ℓ) → Tid N ι → ℓ → Prop) (q : State N ι π × κ)
    (tr : List (Event N ι π ℓ)) (a : Act N ι π ℓ) : Prop :=
  ∀ t label, a = .user t label → D q.2 tr t label

instance instDecidableUserWhen {D : κ → List (Event N ι π ℓ) → Tid N ι → ℓ → Prop}
    [∀ k tr t label, Decidable (D k tr t label)] (q : State N ι π × κ)
    (tr : List (Event N ι π ℓ)) (a : Act N ι π ℓ) : Decidable (UserWhen D q tr a) :=
  match a with
  | .user t label =>
      decidable_of_iff (D q.2 tr t label)
        ⟨fun h t' label' heq => by cases heq; exact h, fun h => h t label rfl⟩
  | .advance _ | .notify _ _ | .spurious _ | .test _ | .drain _ | .start _ | .requestStop _
  | .finish _ | .submit _ _ | .shutdown _ => isTrue fun _ _ heq => by cases heq

variable [DecidableEq ι]

/-- An effect on the pool together with the step of its client. -/
structure Joint (R : State N ι π → κ → Event N ι π ℓ → κ → Prop)
    (D : κ → List (Event N ι π ℓ) → Tid N ι → ℓ → Prop) (s s' : State N ι π) (k k' : κ)
    (tr es : List (Event N ι π ℓ)) : Prop where
  effect : Effect s s' es
  step : (es = [] ∧ k' = k) ∨ ∃ e, es = [e] ∧ R s k e k'
  condition : ∀ t label, es = [.user t label] → D k tr t label

/-- A worker stays with its task until the task ends. -/
theorem Effect.running_stays {s s' : State N ι π} {es : List (Event N ι π ℓ)}
    (h : Effect s s' es) {w : Fin N} {task : Task π} {drained : Bool} {u : UserPc π}
    (hw : s.ctrl (.inl w) = .running task drained u) :
    (∃ v, s'.ctrl (.inl w) = .running task drained v) ∨ es = [.finished w task] := by
  have hset : ∀ {t : Tid N ι} {v : UserPc π},
      s'.ctrl = Function.update s.ctrl t ((s.ctrl t).setUser v) →
        ∃ v, s'.ctrl (.inl w) = .running task drained v := by
    intro t v hctrl
    rcases ctrl_moved hctrl (.inl w) with heq | ⟨rfl, heq⟩
    · exact ⟨u, heq.trans hw⟩
    · exact ⟨v, by rw [heq, hw]; rfl⟩
  have hother : ∀ {v : Fin N} {c : Ctrl π}, s'.ctrl = Function.update s.ctrl (.inl v) c →
      s.ctrl (.inl v) ≠ s.ctrl (.inl w) → ∃ v, s'.ctrl (.inl w) = .running task drained v := by
    intro v c hctrl hne
    rcases ctrl_moved hctrl (.inl w) with heq | ⟨heq, _⟩
    · exact ⟨u, heq.trans hw⟩
    · exact (hne (by rw [heq])).elim
  cases h with
  | silent hctrl hs => exact .inl ⟨u, by rw [hctrl, hw]⟩
  | user label hu hs => exact .inl ⟨u, by rw [hs, hw]⟩
  | control hmove hctrl hs =>
      cases hmove with
      | shut hu | loop hu => exact .inl (hset hctrl)
      | stop hv hst | wait hv | drain hv | retry hv =>
          exact .inl (hother hctrl (by simp [hv, hw]))
  | submitCalled body hu hctrl | accepted hu hctrl | rejected hu hctrl
  | submitReturned hu hctrl | closed hu hctrl | stopRequested hi hu hctrl
  | shutdownReturned hi hu hctrl => exact .inl (hset hctrl)
  | popped drained hv htasks hctrl =>
      exact .inl (hother hctrl (by cases drained <;> simp [hv, hw]))
  | exited hv htasks hctrl | started hv hctrl => exact .inl (hother hctrl (by simp [hv, hw]))
  | @finished v task' drained' hv hctrl hs =>
      by_cases hvw : v = w
      · subst hvw
        rw [hv] at hw
        cases hw
        exact .inr rfl
      · refine .inl ?_
        rcases ctrl_moved hctrl (.inl w) with heq | ⟨heq, _⟩
        · exact ⟨u, heq.trans hw⟩
        · exact (hvw (Sum.inl.inj heq)).elim

/-- A `submit` call goes on until it is decided, and then until it returns. -/
theorem Effect.user_next {s s' : State N ι π} {es : List (Event N ι π ℓ)} (h : Effect s s' es)
    {t : Tid N ι} {u : UserPc π} (hu : (s.ctrl t).user? = some u) :
    (s'.ctrl t).user? = some u ∨
      match u with
      | .submitting task =>
          (es = [.accepted t task] ∧ (s'.ctrl t).user? = some (.notifying task)) ∨
            es = [.rejected t task]
      | .notifying task => es = [.submitReturned t task]
      | _ => True := by
  have hmoved : ∀ {t' : Tid N ι} {c : Ctrl π} {P : Prop},
      s'.ctrl = Function.update s.ctrl t' c →
        (t' = t → s'.ctrl t = c → P) → (s'.ctrl t).user? = some u ∨ P := by
    intro t' c P hctrl hc
    rcases ctrl_moved hctrl t with heq | ⟨ht, heq⟩
    · exact .inl (by rw [heq, hu])
    · exact .inr (hc ht heq)
  cases h with
  | silent hctrl hs => exact .inl (by rw [hctrl, hu])
  | user label hu' hs => exact .inl (by rw [hs, hu])
  | control hmove hctrl hs =>
      refine hmoved hctrl fun ht _ => ?_
      subst ht
      cases hmove with
      | shut hu' | loop hu' =>
          obtain rfl := Option.some.inj (hu.symm.trans hu')
          trivial
      | stop hv hst | wait hv | drain hv | retry hv =>
          rw [hv] at hu
          cases hu
  | accepted hu' hctrl =>
      refine hmoved hctrl fun ht heq => ?_
      subst ht
      obtain rfl := Option.some.inj (hu.symm.trans hu')
      exact .inl ⟨rfl, by rw [heq, Ctrl.user?_setUser hu]⟩
  | rejected hu' hctrl =>
      refine hmoved hctrl fun ht _ => ?_
      subst ht
      obtain rfl := Option.some.inj (hu.symm.trans hu')
      exact .inr rfl
  | submitReturned hu' hctrl =>
      refine hmoved hctrl fun ht _ => ?_
      subst ht
      obtain rfl := Option.some.inj (hu.symm.trans hu')
      rfl
  | submitCalled body hu' hctrl | closed hu' hctrl | stopRequested hi hu' hctrl
  | shutdownReturned hi hu' hctrl =>
      refine hmoved hctrl fun ht _ => ?_
      subst ht
      obtain rfl := Option.some.inj (hu.symm.trans hu')
      trivial
  | exited hv htasks hctrl | started hv hctrl =>
      refine hmoved hctrl fun ht _ => ?_
      rw [← ht, hv] at hu
      cases hu
  | popped drained hv htasks hctrl =>
      refine hmoved hctrl fun ht _ => ?_
      rw [← ht, hv] at hu
      cases drained <;> cases hu
  | finished hv hctrl =>
      refine hmoved hctrl fun ht _ => ?_
      rw [← ht, hv] at hu
      cases hu
      trivial

/-- A thread is inside a `submit` call from its beginning on. -/
theorem Effect.inSubmit_inv {s s' : State N ι π} {es : List (Event N ι π ℓ)}
    (h : Effect s s' es) {t : Tid N ι} {task : Task π}
    (ht : (s'.ctrl t).inSubmit? = some task) :
    (s.ctrl t).inSubmit? = some task ∨ (es = [.submitCalled t task] ∧ task.id = s.nextId) := by
  rcases Ctrl.inSubmit?_eq_some.mp ht with hu | hu
  · rcases h.user_inv hu with hu | rfl
    · exact .inl (Ctrl.inSubmit?_eq_some.mpr (.inl hu))
    · refine .inr ⟨rfl, ?_⟩
      cases h
      rfl
  · refine .inl (Ctrl.inSubmit?_eq_some.mpr ?_)
    rcases h.user_inv hu with hu | rfl
    · exact .inr hu
    · cases h with
      | accepted hu => exact .inl hu

/-- A `submit` call ends with its exception, or with its return. -/
theorem Effect.inSubmit_next {s s' : State N ι π} {es : List (Event N ι π ℓ)}
    (h : Effect s s' es) {t : Tid N ι} {task : Task π}
    (ht : (s.ctrl t).inSubmit? = some task) :
    (s'.ctrl t).inSubmit? = some task ∨
      es = [.rejected t task] ∨ es = [.submitReturned t task] := by
  rcases Ctrl.inSubmit?_eq_some.mp ht with hu | hu
  · rcases h.user_next hu with hu | ⟨_, hu⟩ | hes
    · exact .inl (Ctrl.inSubmit?_eq_some.mpr (.inl hu))
    · exact .inl (Ctrl.inSubmit?_eq_some.mpr (.inr hu))
    · exact .inr (.inl hes)
  · rcases h.user_next hu with hu | hes
    · exact .inl (Ctrl.inSubmit?_eq_some.mpr (.inr hu))
    · exact .inr (.inr hes)

variable [Fintype ι]

/-- The `submit` calls in progress have begun, and their numbers differ. -/
theorem inSubmit_reach {s : State N ι π} {tr : List (Event N ι π ℓ)}
    (hr : (pool N ι π ℓ).Reach s tr) {t : Tid N ι} {task : Task π}
    (ht : (s.ctrl t).inSubmit? = some task) :
    task ∈ calledTasks tr ∧
      ∀ u task', (s.ctrl u).inSubmit? = some task' → task'.id = task.id → u = t := by
  refine hr.invariant (P := fun s tr => ∀ t task, (s.ctrl t).inSubmit? = some task →
    task ∈ calledTasks tr ∧
      ∀ u task', (s.ctrl u).inSubmit? = some task' → task'.id = task.id → u = t) ?_ ?_ t task ht
  · rintro (w | e) task ht <;> cases ht
  · intro s tr a s' es hr ih hs t task ht
    have h := (step_effect (agrees_reach hr) hs).1
    have hold : ∀ {u : Tid N ι} {x : Task π}, (s.ctrl u).inSubmit? = some x →
        x.id < s.nextId := by
      intro u x hx
      have hid := List.mem_map_of_mem (f := Task.id) (ih u x hx).1
      rw [calls_numbered hr] at hid
      exact List.mem_range.mp hid
    rw [calledTasks_append]
    rcases h.inSubmit_inv ht with hin | ⟨rfl, hid⟩
    · refine ⟨List.mem_append_left _ (ih t task hin).1, fun u task' hu hsame => ?_⟩
      rcases h.inSubmit_inv hu with hu | ⟨_, hid'⟩
      · exact (ih t task hin).2 u task' hu hsame
      · have := hold hin
        omega
    · refine ⟨List.mem_append_right _ (List.mem_singleton_self _), fun u task' hu hsame => ?_⟩
      rcases h.inSubmit_inv hu with hu | ⟨hes, _⟩
      · have := hold hu
        omega
      · cases hes
        rfl

/-- Only workers execute tasks. -/
theorem worker_of_running {s : State N ι π} {tr : List (Event N ι π ℓ)}
    (hr : (pool N ι π ℓ).Reach s tr) {t : Tid N ι} {task : Task π} {drained : Bool}
    {u : UserPc π} (hc : s.ctrl t = .running task drained u) : ∃ w, t = .inl w := by
  have hag := agrees_reach hr t
  rw [hc] at hag
  exact hag.1

/-- A step of a client, in terms of its step relation. -/
theorem client_joint {k₀ : κ} {allowed : κ → State N ι π → Act N ι π ℓ → Bool}
    {observe : κ → Event N ι π ℓ → κ} {R : State N ι π → κ → Event N ι π ℓ → κ → Prop}
    (hevent : ∀ {s s' k e}, Effect s s' [e] →
      (∀ b, e.cause = some b → allowed k s b = true) → R s k e (observe k e))
    {D : κ → List (Event N ι π ℓ) → Tid N ι → ℓ → Prop} {q q' : State N ι π × κ}
    {tr es : List (Event N ι π ℓ)} {a : Act N ι π ℓ} (hreach : (pool N ι π ℓ).Reach q.1 tr)
    (hc : UserWhen D q tr a)
    (hs : ((pool N ι π ℓ).guard k₀ allowed observe).step q a = some (q', es)) :
    Joint R D q.1 q'.1 q.2 q'.2 tr es := by
  obtain ⟨hallowed, hpool, hobs⟩ := Machine.guard_step_iff.mp hs
  have heff := (step_effect (agrees_reach hreach) hpool).1
  rw [hobs]
  refine ⟨heff, ?_, fun t label hes => ?_⟩
  · rcases es with _ | ⟨e, es⟩
    · exact .inl ⟨rfl, rfl⟩
    · obtain rfl := heff.head_alone
      refine .inr ⟨e, rfl, hevent heff fun b hb => ?_⟩
      rw [← step_cause hpool e (List.mem_singleton_self e) b hb]
      exact hallowed
  · have hmem : Event.user t label ∈ es := by
      rw [hes]
      exact List.mem_singleton_self _
    exact hc t label (step_cause hpool (.user t label) hmem (.user t label) rfl)

/-- The invariant rule for a client, in terms of its step relation. -/
theorem client_induction {k₀ : κ} {allowed : κ → State N ι π → Act N ι π ℓ → Bool}
    {observe : κ → Event N ι π ℓ → κ} {R : State N ι π → κ → Event N ι π ℓ → κ → Prop}
    (hevent : ∀ {s s' k e}, Effect s s' [e] →
      (∀ b, e.cause = some b → allowed k s b = true) → R s k e (observe k e))
    {D : κ → List (Event N ι π ℓ) → Tid N ι → ℓ → Prop}
    {P : State N ι π → κ → List (Event N ι π ℓ) → Prop} {q : State N ι π × κ}
    {tr : List (Event N ι π ℓ)}
    (hr : ((pool N ι π ℓ).guard k₀ allowed observe).ReachWhen (UserWhen D) q tr)
    (h0 : P (pool N ι π ℓ).init k₀ [])
    (hstep : ∀ {s s' k k' tr es}, (pool N ι π ℓ).Reach s tr → P s k tr →
      Joint R D s s' k k' tr es → P s' k' (tr ++ es)) : P q.1 q.2 tr := by
  refine hr.invariant (P := fun q tr => P q.1 q.2 tr) h0 ?_
  intro q tr a q' es hr ih hc hs
  exact hstep hr.reach.of_guard ih (client_joint (R := R) hevent hr.reach.of_guard hc hs)

end ThreadPool
end AsyncTaskEngine
