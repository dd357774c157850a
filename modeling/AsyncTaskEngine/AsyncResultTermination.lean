import AsyncTaskEngine.AsyncResultProgress
import AsyncTaskEngine.ThreadPoolWork

/-!
# Chains of continuations terminate

`chains_cannot_deadlock` says that some worker can move as long as an accepted
ordinary task is unfinished.  Here it is joined with the bound of
`ThreadPoolWork`: the invocations of the callables are paid for by the calls of
`submit`, one for each, so that a schedule without new calls comes to its end.
Where it cannot be continued, every accepted task has stored its result.
-/

namespace AsyncTaskEngine
namespace ThreadPool

universe u v w

variable {N : Nat} {ι : Type u}

section Numbering

variable {π : Type v} {ℓ : Type w}

/-- The number of `submit` calls that an action begins. -/
def Act.submits : Act N ι π ℓ → Nat
  | .submit _ _ => 1
  | _ => 0

/-- The event is a step of user code. -/
def Event.isUser : Event N ι π ℓ → Bool
  | .user _ _ => true
  | _ => false

/-- The action is a step of user code. -/
def Act.isUser : Act N ι π ℓ → Bool
  | .user _ _ => true
  | _ => false

variable [DecidableEq ι] [Fintype ι] {s s' : State N ι π} {es : List (Event N ι π ℓ)}

omit [Fintype ι] in
/-- A return from the queue submits nothing, and is no step of user code. -/
theorem deliver_inert (s : State N ι π)
    (e : BlockingMonitor.Event (Tid N ι) (Fin N) (Task π) (Task π)) :
    (deliver (ℓ := ℓ) s e).1.nextId = s.nextId ∧
      ∀ e' ∈ (deliver (ℓ := ℓ) s e).2, e'.isUser = false := by
  cases e with
  | popped t task =>
      cases t with
      | inl w =>
          simp only [deliver]
          split <;> exact ⟨rfl, by simp [Event.isUser]⟩
      | inr e => exact ⟨rfl, by simp [deliver]⟩
  | tryEmpty t => cases t <;> exact ⟨rfl, by simp [deliver, Event.isUser]⟩
  | pushReturned t =>
      simp only [deliver]
      split <;> exact ⟨rfl, by simp [Event.isUser]⟩
  | _ => exact ⟨rfl, by simp [deliver, Event.isUser]⟩

omit [Fintype ι] in
theorem deliverAll_inert (s : State N ι π)
    (qes : List (BlockingMonitor.Event (Tid N ι) (Fin N) (Task π) (Task π))) :
    (deliverAll (ℓ := ℓ) s qes).1.nextId = s.nextId ∧
      ∀ e' ∈ (deliverAll (ℓ := ℓ) s qes).2, e'.isUser = false := by
  induction qes generalizing s with
  | nil => exact ⟨rfl, by simp [deliverAll]⟩
  | cons e qes ih =>
      obtain ⟨hid, huser⟩ := deliver_inert (ℓ := ℓ) s e
      obtain ⟨hids, husers⟩ := ih (deliver (ℓ := ℓ) s e).1
      refine ⟨hids.trans hid, fun e' he => ?_⟩
      rcases List.mem_append.mp he with he | he
      · exact huser e' he
      · exact husers e' he

theorem queueStep_inert {a : BlockingMonitor.Act (Tid N ι) (Fin N) (Task π)}
    (h : queueStep s a = some (s', es)) :
    s'.nextId = s.nextId ∧ ∀ e ∈ es, e.isUser = false := by
  obtain ⟨⟨q, qes⟩, hq, heq⟩ := Option.map_eq_some_iff.mp h
  have hinert := deliverAll_inert (ℓ := ℓ) (s.setQueue q) qes
  rw [heq] at hinert
  exact hinert

/-- The calls of `submit` are numbered, and only user code takes steps of user code. -/
theorem step_inert {a : Act N ι π ℓ} (h : step s a = some (s', es)) :
    s'.nextId = s.nextId + a.submits ∧ (a.isUser = false → ∀ e ∈ es, e.isUser = false) := by
  cases a with
  | advance t | notify t pick | spurious t =>
      obtain ⟨hid, huser⟩ := queueStep_inert h
      exact ⟨hid, fun _ => huser⟩
  | test w =>
      simp only [step] at h
      split at h
      case h_1 =>
        split at h
        · obtain ⟨rfl, rfl⟩ := by simpa using h
          exact ⟨rfl, by simp⟩
        · obtain ⟨hid, huser⟩ := queueStep_inert h
          exact ⟨hid, fun _ => huser⟩
      case h_2 => cases h
  | drain w =>
      simp only [step] at h
      split at h
      case h_1 =>
        obtain ⟨hid, huser⟩ := queueStep_inert h
        exact ⟨hid, fun _ => huser⟩
      case h_2 => cases h
  | start w | finish w =>
      simp only [step] at h
      split at h
      case h_1 =>
        obtain ⟨rfl, rfl⟩ := by simpa using h
        exact ⟨rfl, by simp [Event.isUser]⟩
      case h_2 => cases h
  | requestStop t =>
      simp only [step] at h
      split at h
      case h_1 =>
        split at h
        · obtain ⟨hid, huser⟩ := queueStep_inert h
          exact ⟨hid, fun _ => huser⟩
        · obtain ⟨rfl, rfl⟩ := by simpa using h
          exact ⟨rfl, by simp [Event.isUser]⟩
      case h_2 => cases h
  | submit t body =>
      simp only [step] at h
      split at h
      case h_1 =>
        obtain ⟨⟨s₁, es₁⟩, hq, heq⟩ := Option.map_eq_some_iff.mp h
        obtain ⟨rfl, rfl⟩ := Prod.mk.inj heq
        obtain ⟨hid, huser⟩ := queueStep_inert hq
        refine ⟨hid, fun _ e he => ?_⟩
        rcases List.mem_cons.mp he with rfl | he
        · rfl
        · exact huser e he
      case h_2 => cases h
  | shutdown t =>
      simp only [step] at h
      split at h
      case h_1 =>
        obtain ⟨hid, huser⟩ := queueStep_inert h
        exact ⟨hid, fun _ => huser⟩
      case h_2 => cases h
  | user t label =>
      simp only [step] at h
      split at h
      case h_1 =>
        obtain ⟨rfl, rfl⟩ := by simpa using h
        exact ⟨rfl, fun hno => by cases hno⟩
      case h_2 => cases h

end Numbering

namespace AsyncResult

variable {K : Nat} {V : Type v} {E : Type w}

/-- What an action adds to the length of a run, its own step included. -/
def charge (N : Nat) : Act N ι (Body V E) Label → Nat
  | .submit _ _ => 9
  | .user _ (.invoke _) => 0
  | a => a.price N

/-- The `submit` calls whose callables have not been invoked. -/
def fresh (q : State N ι (Body V E) × Client V E) : Nat :=
  (List.range q.1.nextId).countP fun id => !q.2.invoked id

/-- The credit of the pool, and that of the invocations. -/
def credit [DecidableEq ι] [Fintype ι] (q : State N ι (Body V E) × Client V E) : Nat :=
  q.1.credit + fresh q

section Fresh

variable {q q' : State N ι (Body V E) × Client V E}

/-- A new call has not been invoked. -/
theorem fresh_le {n : Nat} (hinv : q'.2.invoked = q.2.invoked)
    (hid : q'.1.nextId = q.1.nextId + n) : fresh q' ≤ fresh q + n := by
  rw [fresh, fresh, hid, hinv, List.range_add, List.countP_append]
  refine Nat.add_le_add_left (Nat.le_trans List.countP_le_length ?_) _
  simp

/-- An invocation uses its credit. -/
theorem fresh_invoke {id : Nat} (hlt : id < q.1.nextId) (hnew : q.2.invoked id = false)
    (hinv : q'.2.invoked = Function.update q.2.invoked id true)
    (hid : q'.1.nextId = q.1.nextId) : fresh q' + 1 ≤ fresh q := by
  have hmono : ∀ l : List Nat, (l.countP fun id => !q'.2.invoked id) ≤
      l.countP fun id => !q.2.invoked id := by
    intro l
    refine List.countP_mono_left fun j _ hj => ?_
    by_cases hji : j = id
    · subst hji
      simp [hnew]
    · rwa [hinv, Function.update_of_ne hji] at hj
  obtain ⟨pre, post, hsplit⟩ := List.append_of_mem (List.mem_range.mpr hlt)
  have hpre := hmono pre
  have hpost := hmono post
  rw [fresh, fresh, hid, hsplit, List.countP_append, List.countP_append, List.countP_cons,
    List.countP_cons]
  simp only [hinv, Function.update_self, hnew] at hpre hpost ⊢
  simp only [Bool.not_true, Bool.not_false, Bool.false_eq_true, if_false, if_true]
  omega

end Fresh

variable [DecidableEq ι] [Fintype ι]
variable {q q' : State N ι (Body V E) × Client V E}
variable {tr es : List (Event N ι (Body V E) Label)}

omit [DecidableEq ι] [Fintype ι] in
/-- Only an invocation is noted as one. -/
theorem invoked_foldl (k : Client V E) (h : ∀ e ∈ es, e.isUser = false) :
    (es.foldl observe k).invoked = k.invoked := by
  induction es generalizing k with
  | nil => rfl
  | cons e es ih =>
      rw [List.foldl_cons, ih _ fun e' he => h e' (List.mem_cons_of_mem _ he)]
      have he := h e List.mem_cons_self
      cases e with
      | submitCalled t task =>
          simp only [observe]
          split <;> rfl
      | rejected t task | submitReturned t task =>
          simp only [observe]
          split <;> rfl
      | user t label => cases he
      | _ => rfl

/-- The callable that is entered is that of a call which has not been invoked yet. -/
theorem invoke_new {k : Client V E} {s : State N ι (Body V E)} {t : Tid N ι} {id : Nat}
    (hr : (pool N ι (Body V E) Label).Reach s tr)
    (h : allowed K k s (.user t (.invoke id)) = true) :
    id < s.nextId ∧ k.invoked id = false := by
  simp only [allowed] at h
  split at h
  case h_2 => cases h
  case h_1 task drained u hrun =>
    obtain ⟨⟨hid, hnew⟩, _⟩ := by simpa [Bool.and_eq_true] using h
    subst hid
    have hag := agrees_reach hr t
    rw [hrun] at hag
    obtain ⟨⟨w, rfl⟩, _⟩ := hag
    have hheld : task ∈ (s.ctrl (.inl w)).holds := by
      rw [hrun]
      exact List.mem_singleton_self _
    have hcalled := called_of_accepted hr
      ((popped_prefix_accepted hr).subset (popped_of_held hr hheld))
    have hnumber : task.id ∈ List.range s.nextId := by
      rw [← calls_numbered hr]
      exact List.mem_map_of_mem hcalled
    exact ⟨List.mem_range.mp hnumber, hnew⟩

/-- Every step of the program uses what has been paid. -/
theorem credit_chains (hr : (chains N ι V E K).Reach q tr) {a : Act N ι (Body V E) Label}
    (hs : (chains N ι V E K).step q a = some (q', es)) :
    credit q' + 1 ≤ credit q + (charge N a + 2 * (q.1.spins a).toNat) := by
  obtain ⟨hallowed, hstep, hobs⟩ := Machine.guard_step_iff.mp hs
  have hpool := hr.of_guard
  have hpaid := credit_step (agrees_reach hpool) hstep
  obtain ⟨hid, hinert⟩ := step_inert hstep
  by_cases huser : a.isUser = false
  · have hfresh : fresh q' ≤ fresh q + a.submits :=
      fresh_le (by rw [hobs, invoked_foldl _ (hinert huser)]) hid
    have hcharge : a.price N + a.submits ≤ charge N a := by
      cases a <;> first | exact Nat.le_refl _ | cases huser
    rw [credit, credit]
    omega
  · cases a with
    | user t label =>
        simp only [pool, step] at hstep
        split at hstep
        case h_2 => cases hstep
        case h_1 =>
          obtain ⟨hsame, rfl⟩ := Prod.mk.inj (Option.some.inj hstep)
          rw [credit, credit, ← hsame]
          -- an invocation has been paid for by its `submit`, a `get` pays for itself
          cases label with
          | invoke id =>
              obtain ⟨hlt, hnew⟩ := invoke_new hpool hallowed
              have hused := fresh_invoke hlt hnew (congrArg Client.invoked hobs)
                (congrArg State.nextId hsame.symm)
              omega
          | get id =>
              have hinv : q'.2.invoked = q.2.invoked := by
                rw [hobs]
                rfl
              have hfresh : fresh q' ≤ fresh q + 0 :=
                fresh_le hinv (congrArg State.nextId hsame.symm)
              simp only [charge, Act.price]
              omega
    | _ => exact absurd rfl huser

/-- What becomes of the chains of a program. -/
structure ChainsEnd (K : Nat) (as : List (Act N ι (Body V E) Label))
    (q : State N ι (Body V E) × Client V E) (tr : List (Event N ι (Body V E) Label)) :
    Prop where
  /-- The calls pay for all steps, those of the callables included. -/
  bounded : as.length ≤ 2 * N + (as.map (charge N)).sum +
    2 * (chains N ι V E K).countSteps (fun q a => q.1.spins a) (chains N ι V E K).init as
  /-- When nothing can move, every accepted task has stored the result of its chain. -/
  finished : (∀ a, internal a = true → (chains N ι V E K).step q a = none) →
    ∀ x ∈ acceptedTasks tr, x.body.ordinary = true →
      x ∈ finishedTasks tr ∧ ∃ r, q.2.outcome x.id = some r ∧ q.2.result x.body = some r

/--
Chains of continuations terminate: without further calls of `submit` and
`shutdown` a schedule comes to its end, and then every task of every chain has
been executed.
-/
theorem chains_end (hK : K < N) {as : List (Act N ι (Body V E) Label)}
    (he : (chains N ι V E K).exec (chains N ι V E K).init as = some (q, tr)) :
    ChainsEnd K as q tr where
  bounded := by
    have hle := Machine.exec_amortized_but (M := chains N ι V E K) credit (charge N)
      (fun q a => q.1.spins a) 2 (I := fun q => ∃ tr, (chains N ι V E K).Reach q tr)
      (fun ⟨tr, hr⟩ hs => ⟨_, .step hr hs⟩)
      (fun ⟨tr, hr⟩ hs => credit_chains hr hs) ⟨[], .init⟩ he
    have hinit : credit (chains N ι V E K).init = 2 * N := credit_init (ℓ := Label)
    rw [hinit] at hle
    omega
  finished hstuck x hx hord := by
    have hr := Machine.reach_of_exec as he
    have hfin : x ∈ finishedTasks tr := by
      by_contra hun
      exact not_canMove hr hstuck (canMove hK hr ⟨x, hx, hord, hun⟩)
    obtain ⟨hout, hmay⟩ := (outcomes_reach hr).finished x hfin
    obtain ⟨r, hres⟩ := Client.result_isSome hmay
    exact ⟨hfin, r, hout.trans hres, hres⟩

/-- A chain of two stages, executed to its end by the only worker. -/
def chainRun : List (Act 1 Unit (Body Nat String) Label) :=
  [.submit (.inr ()) (.call (.ok 5)), .advance (.inr ()), .notify (.inr ()) none,
    .submit (.inr ()) (.after 0 (.value fun x => .ok (2 * x))), .advance (.inr ()),
    .notify (.inr ()) none, .test 0, .advance (.inl 0), .start 0,
    .user (.inl 0) (.invoke 0), .finish 0, .test 0, .advance (.inl 0), .start 0,
    .user (.inl 0) (.invoke 1), .finish 0]

theorem chains_end_twoStages :
    ∃ (q : State 1 Unit (Body Nat String) × Client Nat String) (tr : _),
      (finishedTasks tr).map Task.id = [0, 1] ∧ ChainsEnd 0 chainRun q tr := by
  have hrun : ((chains 1 Unit Nat String 0).exec (chains 1 Unit Nat String 0).init chainRun).any
      (fun r => decide ((finishedTasks r.2).map Task.id = [0, 1])) = true := by decide
  obtain ⟨⟨q, tr⟩, he, hp⟩ := (Option.any_eq_true _ _).mp hrun
  exact ⟨q, tr, of_decide_eq_true hp, chains_end (by decide) he⟩

end AsyncResult
end ThreadPool
end AsyncTaskEngine
