import AsyncTaskEngine.ThreadPoolProgress

/-!
# AsyncResult: continuations on the pool

A model of `async_result.hpp` and of `ThreadPool::submit_async`.  The tasks of the
pool are callables, continuations, and tasks that never finish.  A continuation is
the lambda that `then` submits: it waits for its predecessor in `shared->get()` and
passes the value to the user's callable, or lets the exception out.  The promise
of a packaged task is set when the task finishes, and never changes afterwards.

`Client` is what the program around the pool shares: the promises, which callables
have been invoked, and which results can still be consumed.  It decides what user
code may do: the callables do not block, `then` consumes its result, and at most
`K` of the tasks given to the pool never finish.
-/

namespace AsyncTaskEngine
namespace ThreadPool
namespace AsyncResult

universe u v w

/-- A continuation of a value stage, or of a void stage. -/
inductive Stage (V : Type v) (E : Type w) where
  | value (cont : V → Except E V)
  | void (cont : Except E V)

/-- What is submitted to the pool. -/
inductive Body (V : Type v) (E : Type w) where
  /-- The callable of `submit` or `submit_async`. -/
  | call (func : Except E V)
  /-- The lambda of `then` on the result of the given `submit` call. -/
  | after (pred : Nat) (stage : Stage V E)
  | forever

/-- The visible steps of user code. -/
inductive Label where
  /-- The worker enters the user's callable. -/
  | invoke (id : Nat)
  /-- `get()` returns, with the value or the exception of its promise. -/
  | get (id : Nat)
deriving DecidableEq

/-- What the program around the pool shares. -/
structure Client (V : Type v) (E : Type w) where
  outcome : Nat → Option (Except E V)
  invoked : Nat → Bool
  /-- The result can still be consumed by `then` or `get`. -/
  held : Nat → Bool
  /-- The tasks that never finish, not counting those that were rejected. -/
  forevers : Nat

variable {N : Nat} {ι : Type u} {V : Type v} {E : Type w}

/-- Invoke the continuation with the value of its predecessor. -/
def Stage.invoke : Stage V E → V → Except E V
  | .value cont, val => cont val
  | .void cont, _ => cont

/-- The task finishes. -/
def Body.ordinary : Body V E → Bool
  | .forever => false
  | _ => true

/-- The user's callable can be entered: `shared->get()` has returned a value. -/
def Client.ready (k : Client V E) : Body V E → Bool
  | .after pred _ =>
      match k.outcome pred with
      | some (.ok _) => true
      | _ => false
  | _ => true

/-- What the packaged task stores: the returned value, or the exception. -/
def Client.result (k : Client V E) : Body V E → Option (Except E V)
  | .call func => some func
  | .after pred stage => (k.outcome pred).map fun r => r.bind stage.invoke
  | .forever => none

/-- The packaged task has come to its end. -/
def Client.mayFinish (k : Client V E) (task : Task (Body V E)) : Bool :=
  match task.body with
  | .call _ => k.invoked task.id
  | .after pred _ =>
      match k.outcome pred with
      | some (.ok _) => k.invoked task.id
      | some (.error _) => true
      | none => false
  | .forever => false

/-- The thread is executing code of the user. -/
def Client.inUserCode (k : Client V E) : Ctrl (Body V E) → Bool
  | .running task _ _ => k.invoked task.id
  | .outside _ => true
  | _ => false

/-- The user may submit this: `then` needs a result to consume. -/
def Client.maySubmit (K : Nat) (k : Client V E) : Body V E → Bool
  | .call _ => true
  | .after pred _ => k.held pred
  | .forever => decide (k.forevers < K)

/-- The choices of the user that the program makes. -/
def allowed (K : Nat) (k : Client V E) (s : State N ι (Body V E)) :
    Act N ι (Body V E) Label → Bool
  | .submit t body => k.inUserCode (s.ctrl t) && k.maySubmit K body
  | .shutdown t => k.inUserCode (s.ctrl t)
  | .finish w =>
      match s.ctrl (.inl w) with
      | .running task _ _ => k.mayFinish task
      | _ => false
  | .user t (.invoke id) =>
      match s.ctrl t with
      | .running task _ _ => task.id == id && !k.invoked id && k.ready task.body
      | _ => false
  | .user t (.get id) =>
      match s.ctrl t with
      | .outside _ => k.held id && (k.outcome id).isSome
      | _ => false
  | _ => true

/-- How the shared state follows the events. -/
def observe (k : Client V E) : Event N ι (Body V E) Label → Client V E
  | .submitCalled _ task =>
      match task.body with
      | .call _ => k
      | .after pred _ => { k with held := Function.update k.held pred false }
      | .forever => { k with forevers := k.forevers + 1 }
  | .rejected _ task =>
      if task.body.ordinary then k else { k with forevers := k.forevers - 1 }
  | .submitReturned _ task =>
      if task.body.ordinary then { k with held := Function.update k.held task.id true }
      else k
  | .finished _ task =>
      { k with outcome := Function.update k.outcome task.id (k.result task.body) }
  | .user _ (.invoke id) => { k with invoked := Function.update k.invoked id true }
  | .user _ (.get id) => { k with held := Function.update k.held id false }
  | _ => k

/-- Nothing has been submitted. -/
def Client.init : Client V E where
  outcome := fun _ => none
  invoked := fun _ => false
  held := fun _ => false
  forevers := 0

variable [DecidableEq ι] [Fintype ι]

variable (N ι V E) in
/-- The pool under a program in which at most `K` tasks never finish. -/
def chains (K : Nat) :
    Machine (State N ι (Body V E) × Client V E) (Act N ι (Body V E) Label)
      (Event N ι (Body V E) Label) :=
  (pool N ι (Body V E) Label).guard Client.init (allowed K) observe

/-- The calls of the user's callables, in order. -/
def invocations (tr : List (Event N ι (Body V E) Label)) : List Nat :=
  tr.filterMap fun e =>
    match e with
    | .user _ (.invoke id) => some id
    | _ => none

section Precedence

variable {K : Nat} {s s' : State N ι (Body V E)} {k : Client V E}
variable {tr es : List (Event N ι (Body V E) Label)} {x : Task (Body V E)}

/-- The predecessor of a continuation is an ordinary task of the list. -/
def HasPred (tasks : List (Task (Body V E))) (x : Task (Body V E)) : Prop :=
  ∀ pred stage, x.body = .after pred stage →
    ∃ y ∈ tasks, y.id = pred ∧ y.body.ordinary = true

theorem HasPred.mono {l l' : List (Task (Body V E))} (h : HasPred l x)
    (hsub : ∀ y ∈ l, y ∈ l') : HasPred l' x := by
  intro pred stage hx
  obtain ⟨y, hy, hid, hord⟩ := h pred stage hx
  exact ⟨y, hsub y hy, hid, hord⟩

/-- A predecessor has been accepted before `then` is called on its result. -/
structure Linked (K : Nat) (k : Client V E) (tr : List (Event N ι (Body V E) Label)) :
    Prop where
  held : ∀ id, k.held id = true → ∃ y ∈ acceptedTasks tr, y.id = id ∧
    y.body.ordinary = true
  called : ∀ x ∈ calledTasks tr, HasPred (acceptedTasks tr) x
  ordered : ∀ pre x post, acceptedTasks tr = pre ++ x :: post → HasPred pre x
  numbered : ∀ x ∈ calledTasks tr, ∀ pred stage, x.body = .after pred stage → pred < x.id
  counted : k.forevers + (rejectedTasks tr).countP (fun x => !x.body.ordinary) =
    (calledTasks tr).countP fun x => !x.body.ordinary
  bounded : k.forevers ≤ K

omit [DecidableEq ι] [Fintype ι] in
/-- Steps that neither call nor accept leave the precedence alone. -/
theorem Linked.frame (inv : Linked K k tr) {k' : Client V E}
    (hacc : acceptedTasks es = []) (hcalled : calledTasks es = [])
    (hrej : rejectedTasks es = [])
    (hheld : ∀ id, k'.held id = true → k.held id = true ∨ ∃ y ∈ acceptedTasks tr,
      y.id = id ∧ y.body.ordinary = true)
    (hfor : k'.forevers = k.forevers) : Linked K k' (tr ++ es) := by
  obtain ⟨h1, h2, h3, h4, h5, h6⟩ := inv
  constructor
  · intro id hid
    rw [acceptedTasks_append, hacc, List.append_nil]
    rcases hheld id hid with hid | hid
    · exact h1 id hid
    · exact hid
  · rw [calledTasks_append, acceptedTasks_append, hacc, hcalled, List.append_nil,
      List.append_nil]
    exact h2
  · rw [acceptedTasks_append, hacc, List.append_nil]
    exact h3
  · rw [calledTasks_append, hcalled, List.append_nil]
    exact h4
  · rw [calledTasks_append, rejectedTasks_append, hcalled, hrej, List.append_nil,
      List.append_nil, hfor, h5]
  · rw [hfor]
    exact h6

omit [DecidableEq ι] [Fintype ι] in
/-- A call of `then` is on the result of an accepted task. -/
theorem Linked.call (inv : Linked K k tr) {t : Tid N ι} {body : Body V E} {n : Nat}
    (hn : ∀ y ∈ acceptedTasks tr, y.id < n) (hmay : k.maySubmit K body = true) :
    Linked K (observe k (.submitCalled t ⟨n, body⟩))
      (tr ++ [.submitCalled t ⟨n, body⟩]) := by
  have hacc : acceptedTasks (tr ++ [.submitCalled t ⟨n, body⟩]) = acceptedTasks tr := by
    simp [acceptedTasks]
  have hcalled : calledTasks (tr ++ [.submitCalled t ⟨n, body⟩]) =
      calledTasks tr ++ [⟨n, body⟩] := by simp [calledTasks]
  have hrej : rejectedTasks (tr ++ [.submitCalled t ⟨n, body⟩]) = rejectedTasks tr := by
    simp [rejectedTasks]
  have hpred : HasPred (acceptedTasks tr) ⟨n, body⟩ := by
    rintro pred stage hbody
    dsimp only at hbody
    rw [hbody] at hmay
    exact inv.held pred hmay
  constructor
  · intro id hid
    rw [hacc]
    refine inv.held id ?_
    cases body with
    | after pred stage =>
        simp only [observe, Function.update_apply] at hid
        split at hid
        · cases hid
        · exact hid
    | _ => exact hid
  · rw [hcalled, hacc]
    intro x hx
    rcases List.mem_append.mp hx with hx | hx
    · exact inv.called x hx
    · rw [List.mem_singleton.mp hx]
      exact hpred
  · rw [hacc]
    exact inv.ordered
  · rw [hcalled]
    intro x hx pred stage hbody
    rcases List.mem_append.mp hx with hx | hx
    · exact inv.numbered x hx pred stage hbody
    · rw [List.mem_singleton.mp hx] at hbody ⊢
      obtain ⟨y, hy, rfl, _⟩ := hpred pred stage hbody
      exact hn y hy
  · rw [hcalled, hrej, List.countP_append, ← inv.counted]
    cases body <;> simp [observe, Body.ordinary, Nat.add_right_comm]
  · cases body with
    | forever => exact of_decide_eq_true hmay
    | _ => exact inv.bounded

omit [DecidableEq ι] [Fintype ι] in
/-- The predecessor of an accepted task was accepted earlier. -/
theorem Linked.accept (inv : Linked K k tr) {t : Tid N ι}
    (hx : x ∈ calledTasks tr) : Linked K k (tr ++ [.accepted t x]) := by
  have hacc : acceptedTasks (tr ++ [.accepted t x]) = acceptedTasks tr ++ [x] := by
    simp [acceptedTasks]
  have hcalled : calledTasks (tr ++ [.accepted t x]) = calledTasks tr := by
    simp [calledTasks]
  have hrej : rejectedTasks (tr ++ [.accepted t x]) = rejectedTasks tr := by
    simp [rejectedTasks]
  have hgrow : ∀ y ∈ acceptedTasks tr, y ∈ acceptedTasks tr ++ [x] :=
    fun y hy => List.mem_append_left _ hy
  constructor
  · intro id hid
    obtain ⟨y, hy, h⟩ := inv.held id hid
    exact ⟨y, hacc ▸ hgrow y hy, h⟩
  · rw [hcalled, hacc]
    exact fun y hy => (inv.called y hy).mono hgrow
  · intro pre y post hsplit
    rw [hacc] at hsplit
    rcases Machine.event_split hsplit with ⟨es₀, rfl, hes⟩ | ⟨post₀, htr, rfl⟩
    · cases es₀ with
      | nil =>
          obtain ⟨rfl, _⟩ := List.cons.inj hes
          rw [List.append_nil]
          exact inv.called x hx
      | cons e es₀ => simp at hes
    · exact inv.ordered pre y post₀ htr
  · rw [hcalled]
    exact inv.numbered
  · rw [hcalled, hrej]
    exact inv.counted
  · exact inv.bounded

/-- A rejected task does not occupy a worker. -/
theorem Linked.reject (hr : (pool N ι (Body V E) Label).Reach s tr) (inv : Linked K k tr)
    {t : Tid N ι} (hu : (s.ctrl t).user? = some (.submitting x)) :
    Linked K (observe k (.rejected t x)) (tr ++ [.rejected t x]) := by
  have hacc : acceptedTasks (tr ++ [.rejected t x]) = acceptedTasks tr := by
    simp [acceptedTasks]
  have hcalled : calledTasks (tr ++ [.rejected t x]) = calledTasks tr := by
    simp [calledTasks]
  have hheld : (observe k (.rejected t x)).held = k.held := by
    simp only [observe]
    split <;> rfl
  have hpending : x.body.ordinary = false → 1 ≤ k.forevers := by
    intro hx
    have hdecided := calls_decided hr fun x => !x.body.ordinary
    have hone := le_total (Ctrl.submits fun x => !x.body.ordinary) s.ctrl t
    rw [Ctrl.submits, hu] at hone
    simp only [hx, Bool.not_false, if_true] at hone
    have := inv.counted
    omega
  constructor
  · rw [hheld, hacc]
    exact inv.held
  · rw [hcalled, hacc]
    exact inv.called
  · rw [hacc]
    exact inv.ordered
  · rw [hcalled]
    exact inv.numbered
  · rw [hcalled, rejectedTasks_append, List.countP_append, ← inv.counted]
    cases hx : x.body.ordinary with
    | true => simp [observe, hx, rejectedTasks]
    | false =>
        have := hpending hx
        simp [observe, hx, rejectedTasks]
        omega
  · refine Nat.le_trans ?_ inv.bounded
    simp only [observe]
    split
    · exact Nat.le_refl _
    · exact Nat.sub_le _ _

theorem Linked.step (hr : (pool N ι (Body V E) Label).Reach s tr) (inv : Linked K k tr)
    (h : Effect s s' es)
    (hallow : ∀ e ∈ es, ∀ b, e.cause = some b → allowed K k s b = true) :
    Linked K (es.foldl observe k) (tr ++ es) := by
  cases h with
  | @submitCalled t body hu hctrl hc hst hn =>
      have hmay := hallow _ (List.mem_singleton_self _) _ rfl
      simp only [allowed, Bool.and_eq_true] at hmay
      refine inv.call (fun y hy => ?_) hmay.2
      have hid := List.mem_map_of_mem (f := Task.id) (called_of_accepted hr hy)
      rw [calls_numbered hr] at hid
      exact List.mem_range.mp hid
  | accepted hu hctrl hopen hc hst hn => exact inv.accept (called_of_submitting hr hu)
  | rejected hu hctrl hclosed hs => exact inv.reject hr hu
  | @submitReturned t task hu hctrl hs =>
      have hacc := (phases_reach hr).notifies t task hu
      refine inv.frame rfl rfl rfl ?_ ?_
      · intro id hid
        simp only [List.foldl_cons, List.foldl_nil, observe] at hid
        split at hid
        · next hord =>
            simp only [Function.update_apply] at hid
            split at hid
            · next hid' => exact .inr ⟨task, hacc, hid'.symm, hord⟩
            · exact .inl hid
        · exact .inl hid
      · simp only [List.foldl_cons, List.foldl_nil, observe]
        split <;> rfl
  | @user t label hu hs =>
      cases label with
      | invoke id => exact inv.frame rfl rfl rfl (fun _ => .inl) rfl
      | get id =>
          refine inv.frame rfl rfl rfl (fun id' hid => .inl ?_) rfl
          simp only [List.foldl_cons, List.foldl_nil, observe, Function.update_apply] at hid
          split at hid
          · cases hid
          · exact hid
  | _ => exact inv.frame rfl rfl rfl (fun _ => .inl) rfl

omit [DecidableEq ι] [Fintype ι] in
theorem linked_init : Linked K (Client.init : Client V E)
    ([] : List (Event N ι (Body V E) Label)) where
  held := by simp [Client.init]
  called := by simp [calledTasks]
  ordered := by simp [acceptedTasks]
  numbered := by simp [calledTasks]
  counted := rfl
  bounded := Nat.zero_le K

theorem linked_reach {q : State N ι (Body V E) × Client V E}
    (hr : (chains N ι V E K).Reach q tr) : Linked K q.2 tr :=
  guard_induction (P := fun _ k tr => Linked K k tr) hr linked_init
    fun hr inv h hallow => inv.step hr h hallow

end Precedence

section Outcomes

variable {K : Nat} {s s' : State N ι (Body V E)} {k k' : Client V E}
variable {tr es : List (Event N ι (Body V E) Label)} {body : Body V E}

/-- Promises that are set, and callables that are invoked, stay so. -/
structure Client.Extends (k k' : Client V E) : Prop where
  outcome : ∀ id r, k.outcome id = some r → k'.outcome id = some r
  invoked : ∀ id, k.invoked id = true → k'.invoked id = true

theorem Client.Extends.ready (h : k.Extends k') (hk : k.ready body = true) :
    k'.ready body = true := by
  cases body with
  | after pred stage =>
      simp only [Client.ready] at hk ⊢
      split at hk
      · next v hv => rw [h.outcome _ _ hv]
      · cases hk
  | _ => rfl

theorem Client.Extends.result (h : k.Extends k') {r : Except E V}
    (hk : k.result body = some r) : k'.result body = some r := by
  cases body with
  | after pred stage =>
      obtain ⟨rp, hrp, rfl⟩ := Option.map_eq_some_iff.mp hk
      simp [Client.result, h.outcome _ _ hrp]
  | _ => exact hk

theorem Client.Extends.mayFinish (h : k.Extends k') {task : Task (Body V E)}
    (hk : k.mayFinish task = true) : k'.mayFinish task = true := by
  unfold Client.mayFinish at hk ⊢
  split at hk
  · next hbody => exact h.invoked _ hk
  · next pred stage hbody =>
      split at hk
      · next v hv =>
          simp only [h.outcome _ _ hv]
          exact h.invoked _ hk
      · next e he => simp only [h.outcome _ _ he]
      · cases hk
  · cases hk

/-- A task that finishes leaves a result. -/
theorem Client.result_isSome {task : Task (Body V E)} (h : k.mayFinish task = true) :
    ∃ r, k.result task.body = some r := by
  unfold Client.mayFinish at h
  split at h
  · next func hbody => exact ⟨func, by rw [hbody]; rfl⟩
  · next pred stage hbody =>
      rw [hbody]
      split at h
      · next v hv => exact ⟨_, by rw [Client.result, hv]; rfl⟩
      · next e he => exact ⟨_, by rw [Client.result, he]; rfl⟩
      · cases h
  · cases h

omit [DecidableEq ι] [Fintype ι] in
@[simp] theorem invocations_append (tr es : List (Event N ι (Body V E) Label)) :
    invocations (tr ++ es) = invocations tr ++ invocations es := by
  simp [invocations]

/-- What the promises and the invocations say about the tasks. -/
structure Outcomes (k : Client V E) (tr : List (Event N ι (Body V E) Label)) : Prop where
  finished : ∀ y ∈ finishedTasks tr, k.outcome y.id = k.result y.body ∧
    k.mayFinish y = true
  settled : ∀ id, (k.outcome id).isSome = true → 0 < timesIn id (finishedTasks tr)
  invoked : ∀ id, k.invoked id = true →
    ∃ y ∈ startedTasks tr, y.id = id ∧ k.ready y.body = true
  logged : ∀ id, id ∈ invocations tr ↔ k.invoked id = true
  once : (invocations tr).Nodup
  ordered : ∀ pre id post, invocations tr = pre ++ id :: post →
    ∃ y ∈ startedTasks tr, y.id = id ∧ ∀ pred stage, y.body = .after pred stage →
      pred ∈ pre

omit [DecidableEq ι] [Fintype ι] in
theorem Outcomes.frame (inv : Outcomes k tr) (hout : k'.outcome = k.outcome)
    (hinv : k'.invoked = k.invoked) (hfin : finishedTasks es = [])
    (hlog : invocations es = []) : Outcomes k' (tr ++ es) := by
  obtain ⟨o, i, h, f⟩ := k
  obtain ⟨o', i', h', f'⟩ := k'
  dsimp only at hout hinv
  subst hout hinv
  have hfin' : finishedTasks (tr ++ es) = finishedTasks tr := by
    rw [finishedTasks_append, hfin, List.append_nil]
  constructor
  · rw [hfin']
    exact inv.finished
  · rw [hfin']
    exact inv.settled
  · intro id hid
    obtain ⟨y, hy, hyid, hready⟩ := inv.invoked id hid
    exact ⟨y, by rw [startedTasks_append]; exact List.mem_append_left _ hy, hyid, hready⟩
  · rw [invocations_append, hlog, List.append_nil]
    exact inv.logged
  · rw [invocations_append, hlog, List.append_nil]
    exact inv.once
  · rw [invocations_append, hlog, List.append_nil]
    intro pre id post hsplit
    obtain ⟨y, hy, h⟩ := inv.ordered pre id post hsplit
    exact ⟨y, by rw [startedTasks_append]; exact List.mem_append_left _ hy, h⟩

omit [DecidableEq ι] [Fintype ι] in
/-- The promise of an unfinished task is not set, and setting it changes no other. -/
theorem Outcomes.extends_finished (inv : Outcomes k tr) (w : Fin N)
    {task : Task (Body V E)} (hfresh : timesIn task.id (finishedTasks tr) = 0) :
    k.Extends (observe k (.finished w task : Event N ι (Body V E) Label)) := by
  have hnone : k.outcome task.id = none := by
    by_contra hsome
    have := inv.settled task.id (Option.isSome_iff_ne_none.mpr hsome)
    omega
  refine ⟨?_, fun _ h => h⟩
  intro id r hr
  have hne : id ≠ task.id := by
    rintro rfl
    rw [hnone] at hr
    cases hr
  exact (Function.update_of_ne hne _ _).trans hr

omit [DecidableEq ι] [Fintype ι] in
/-- A task stores its result in a promise that was not set before. -/
theorem Outcomes.finish (inv : Outcomes k tr) {w : Fin N} {task : Task (Body V E)}
    (hfresh : timesIn task.id (finishedTasks tr) = 0) (hmay : k.mayFinish task = true) :
    Outcomes (observe k (.finished w task : Event N ι (Body V E) Label))
      (tr ++ [.finished w task]) := by
  have hext := inv.extends_finished (ι := ι) w hfresh
  have hfin : finishedTasks (tr ++ [.finished w task]) = finishedTasks tr ++ [task] := by
    simp [finishedTasks]
  have hlog : invocations (tr ++ [.finished w task]) = invocations tr := by
    simp [invocations]
  constructor
  · rw [hfin]
    intro y hy
    rcases List.mem_append.mp hy with hy | hy
    · obtain ⟨hout, hmayy⟩ := inv.finished y hy
      obtain ⟨r, hr⟩ := Client.result_isSome hmayy
      rw [hext.result hr, hext.outcome _ r (by rw [hout, hr])]
      exact ⟨rfl, hext.mayFinish hmayy⟩
    · obtain ⟨r, hr⟩ := Client.result_isSome hmay
      rw [List.mem_singleton.mp hy, hext.result hr]
      exact ⟨(Function.update_self _ _ _).trans hr, hext.mayFinish hmay⟩
  · rw [hfin]
    intro id hid
    rw [timesIn_append]
    by_cases heq : id = task.id
    · subst heq
      exact Nat.lt_of_lt_of_le (timesIn_pos (List.mem_singleton_self _))
        (Nat.le_add_left _ _)
    · have hold : k.outcome id = Function.update k.outcome task.id _ id :=
        (Function.update_of_ne heq (k.result task.body) k.outcome).symm
      have := inv.settled id (hold ▸ hid)
      omega
  · intro id hid
    obtain ⟨y, hy, hyid, hready⟩ := inv.invoked id hid
    exact ⟨y, by rw [startedTasks_append]; exact List.mem_append_left _ hy, hyid,
      hext.ready hready⟩
  · rw [hlog]
    exact inv.logged
  · rw [hlog]
    exact inv.once
  · rw [hlog]
    intro pre id post hsplit
    obtain ⟨y, hy, h⟩ := inv.ordered pre id post hsplit
    exact ⟨y, by rw [startedTasks_append]; exact List.mem_append_left _ hy, h⟩

omit [DecidableEq ι] [Fintype ι] in
/-- A callable that is entered leaves the promises alone. -/
theorem Client.extends_invoke (k : Client V E) (t : Tid N ι) (id : Nat) :
    k.Extends (observe k (.user t (.invoke id) : Event N ι (Body V E) Label)) := by
  refine ⟨fun _ _ h => h, fun id' hid => ?_⟩
  by_cases heq : id' = id
  · subst heq
    exact Function.update_self _ _ _
  · exact (Function.update_of_ne heq _ _).trans hid

omit [DecidableEq ι] [Fintype ι] in
/-- A task that returned a value has run its callable. -/
theorem Outcomes.invoked_of_ok (inv : Outcomes k tr) {y : Task (Body V E)} {v : V}
    (hy : y ∈ finishedTasks tr) (hok : k.outcome y.id = some (.ok v)) :
    k.invoked y.id = true := by
  obtain ⟨hout, hmay⟩ := inv.finished y hy
  rw [hok] at hout
  unfold Client.mayFinish at hmay
  split at hmay
  · exact hmay
  · next pred stage hbody =>
      rw [hbody] at hout
      split at hmay
      · exact hmay
      · next e he =>
          rw [Client.result, he] at hout
          cases hout
      · cases hmay
  · cases hmay

omit [DecidableEq ι] [Fintype ι] in
/-- A continuation is entered after the callable of its predecessor. -/
theorem Outcomes.pred_invoked (inv : Outcomes k tr) {task : Task (Body V E)} {pred : Nat}
    {stage : Stage V E} (hbody : task.body = .after pred stage)
    (hready : k.ready task.body = true) : pred ∈ invocations tr := by
  rw [hbody, Client.ready] at hready
  split at hready
  · next v hv =>
      obtain ⟨z, hz, hid⟩ :=
        List.countP_pos_iff.mp (inv.settled pred (by rw [hv]; rfl))
      obtain rfl := of_decide_eq_true hid
      exact (inv.logged _).mpr (inv.invoked_of_ok hz hv)
  · cases hready

omit [DecidableEq ι] [Fintype ι] in
/-- A worker enters the callable of a task that it has started. -/
theorem Outcomes.invoke (inv : Outcomes k tr) {t : Tid N ι} {task : Task (Body V E)}
    (hstarted : task ∈ startedTasks tr) (hnew : k.invoked task.id = false)
    (hready : k.ready task.body = true) :
    Outcomes (observe k (.user t (.invoke task.id) : Event N ι (Body V E) Label))
      (tr ++ [.user t (.invoke task.id)]) := by
  have hext := k.extends_invoke t task.id
  have hfin : finishedTasks (tr ++ [.user t (.invoke task.id)]) = finishedTasks tr := by
    simp [finishedTasks]
  have hlog : invocations (tr ++ [.user t (.invoke task.id)] :
      List (Event N ι (Body V E) Label)) = invocations tr ++ [task.id] := by
    simp [invocations]
  constructor
  · rw [hfin]
    intro y hy
    obtain ⟨hout, hmay⟩ := inv.finished y hy
    exact ⟨hout, hext.mayFinish hmay⟩
  · rw [hfin]
    exact inv.settled
  · intro id hid
    rw [startedTasks_append]
    by_cases heq : id = task.id
    · exact ⟨task, List.mem_append_left _ hstarted, heq.symm, hext.ready hready⟩
    · have hold : Function.update k.invoked task.id true id = true := hid
      rw [Function.update_of_ne heq] at hold
      obtain ⟨y, hy, hyid, hr⟩ := inv.invoked id hold
      exact ⟨y, List.mem_append_left _ hy, hyid, hext.ready hr⟩
  · intro id
    rw [hlog, List.mem_append, List.mem_singleton, inv.logged]
    by_cases heq : id = task.id
    · subst heq
      simp [observe]
    · simp [observe, heq]
  · rw [hlog, List.nodup_append]
    refine ⟨inv.once, List.nodup_singleton _, ?_⟩
    intro id hid id' hid'
    rw [List.mem_singleton.mp hid']
    rintro rfl
    rw [inv.logged, hnew] at hid
    cases hid
  · intro pre id post hsplit
    rw [startedTasks_append]
    rw [hlog] at hsplit
    rcases Machine.event_split hsplit with ⟨es₀, rfl, hes⟩ | ⟨post₀, htr, _⟩
    · cases es₀ with
      | cons e es₀ => simp at hes
      | nil =>
          obtain ⟨rfl, _⟩ := List.cons.inj hes
          refine ⟨task, List.mem_append_left _ hstarted, rfl, fun pred stage hbody => ?_⟩
          rw [List.append_nil]
          exact inv.pred_invoked hbody hready
    · obtain ⟨y, hy, h⟩ := inv.ordered pre id post₀ htr
      exact ⟨y, List.mem_append_left _ hy, h⟩

theorem Outcomes.step (hr : (pool N ι (Body V E) Label).Reach s tr) (inv : Outcomes k tr)
    (h : Effect s s' es)
    (hallow : ∀ e ∈ es, ∀ b, e.cause = some b → allowed K k s b = true) :
    Outcomes (es.foldl observe k) (tr ++ es) := by
  cases h with
  | @finished w task drained hw hctrl hs =>
      have hmay := hallow _ (List.mem_singleton_self _) _ rfl
      simp only [allowed, hw] at hmay
      have hexec : task ∈ (s.ctrl (.inl w)).executing := by
        rw [hw]
        exact List.mem_singleton_self _
      exact inv.finish (held_unfinished hr (List.mem_append_right _ hexec)) hmay
  | @user t label hu hs =>
      have hmay := hallow _ (List.mem_singleton_self _) _ rfl
      cases label with
      | get id => exact inv.frame rfl rfl rfl rfl
      | invoke id =>
          simp only [allowed] at hmay
          split at hmay
          · next task drained u ht =>
              simp only [Bool.and_eq_true, beq_iff_eq, Bool.not_eq_true'] at hmay
              obtain ⟨⟨rfl, hnew⟩, hready⟩ := hmay
              have hag := agrees_reach hr t
              rw [ht] at hag
              obtain ⟨⟨w, rfl⟩, _⟩ := hag
              have hexec : task ∈ (s.ctrl (.inl w)).executing := by
                rw [ht]
                exact List.mem_singleton_self _
              exact inv.invoke (started_of_executing hr hexec) hnew hready
          · cases hmay
  | @submitCalled t body =>
      refine inv.frame ?_ ?_ rfl rfl <;> (cases body <;> rfl)
  | @submitReturned t task | @rejected t task =>
      refine inv.frame ?_ ?_ rfl rfl <;>
        (simp only [List.foldl_cons, List.foldl_nil, observe]; split <;> rfl)
  | _ => exact inv.frame rfl rfl rfl rfl

/-- Promises that are set and callables that are entered stay so in every step. -/
theorem Outcomes.extends_step (hr : (pool N ι (Body V E) Label).Reach s tr)
    (inv : Outcomes k tr) (h : Effect s s' es) : k.Extends (es.foldl observe k) := by
  have hsame : ∀ {k' : Client V E}, k'.outcome = k.outcome → k'.invoked = k.invoked →
      k.Extends k' := by
    intro k' hout hinv
    exact ⟨fun id r h => by rw [hout, h], fun id h => by rw [hinv, h]⟩
  cases h with
  | @finished w task drained hw hctrl hs =>
      have hheld : task ∈ (s.ctrl (.inl w)).holds := by
        rw [hw]
        exact List.mem_singleton_self _
      exact inv.extends_finished w (held_unfinished hr hheld)
  | @user t label hu hs =>
      cases label with
      | get id => exact hsame rfl rfl
      | invoke id => exact k.extends_invoke t id
  | @submitCalled t body => exact hsame (by cases body <;> rfl) (by cases body <;> rfl)
  | @submitReturned t task | @rejected t task =>
      refine hsame ?_ ?_ <;>
        (simp only [List.foldl_cons, List.foldl_nil, observe]; split <;> rfl)
  | _ => exact hsame rfl rfl

omit [DecidableEq ι] [Fintype ι] in
theorem outcomes_init : Outcomes (Client.init : Client V E)
    ([] : List (Event N ι (Body V E) Label)) where
  finished := by simp [finishedTasks]
  settled := by simp [Client.init]
  invoked := by simp [Client.init]
  logged := by simp [Client.init, invocations]
  once := List.nodup_nil
  ordered := by simp [invocations]

theorem outcomes_reach {q : State N ι (Body V E) × Client V E}
    (hr : (chains N ι V E K).Reach q tr) : Outcomes q.2 tr :=
  guard_induction (P := fun _ k tr => Outcomes k tr) hr outcomes_init
    fun hr inv h hallow => inv.step hr h hallow

theorem Client.Extends.trans {k'' : Client V E} (h : k.Extends k') (h' : k'.Extends k'') :
    k.Extends k'' :=
  ⟨fun id r hr => h'.outcome id r (h.outcome id r hr),
    fun id hid => h'.invoked id (h.invoked id hid)⟩

/-- The promises at any earlier point of a run have kept their results. -/
theorem extends_of_earlier {q : State N ι (Body V E) × Client V E}
    (hr : (chains N ι V E K).Reach q tr) {pre post : List (Event N ι (Body V E) Label)}
    (htr : tr = pre ++ post) : (pre.foldl observe Client.init).Extends q.2 := by
  have hrefl : ∀ k : Client V E, k.Extends k := fun _ => ⟨fun _ _ h => h, fun _ h => h⟩
  have hall := guard_induction (P := fun _ k tr => Outcomes k tr ∧
      k = tr.foldl observe Client.init ∧
      ∀ pre post, tr = pre ++ post → (pre.foldl observe Client.init).Extends k) hr
    ⟨outcomes_init, rfl, ?_⟩ ?_
  · exact hall.2.2 pre post htr
  · rintro pre post htr
    obtain ⟨rfl, rfl⟩ := List.append_eq_nil_iff.mp htr.symm
    exact hrefl _
  · rintro s s' k tr es hr ⟨inv, hk, ih⟩ h hallow
    refine ⟨inv.step hr h hallow, by rw [hk, List.foldl_append], ?_⟩
    intro pre post hsplit
    have hext := inv.extends_step hr h
    rcases List.append_eq_append_iff.mp hsplit with ⟨new, rfl, hes⟩ | ⟨old, rfl, _⟩
    · cases new with
      | nil =>
          rw [List.append_nil, ← hk]
          exact hext
      | cons e new =>
          rw [hes, ← List.nil_append (e :: new ++ post), List.cons_append] at h
          obtain ⟨_, hnil⟩ := h.alone
          obtain ⟨rfl, rfl⟩ := List.append_eq_nil_iff.mp hnil
          rw [List.foldl_append, ← hk, hes]
          exact hrefl _
    · exact (ih _ _ rfl).trans hext

/-- `get()` returns the result of a promise, which it keeps. -/
theorem outcome_of_get {q : State N ι (Body V E) × Client V E}
    (hr : (chains N ι V E K).Reach q tr) {pre post : List (Event N ι (Body V E) Label)}
    {t : Tid N ι} {id : Nat} (htr : tr = pre ++ .user t (.get id) :: post) :
    ∃ r, (pre.foldl observe Client.init).outcome id = some r ∧
      q.2.outcome id = some r := by
  obtain ⟨q₀, tr₀, a, q₁, es₀, es₁, hr₀, hs, rfl⟩ := hr.emitted htr
  obtain ⟨hmay, hpool, _⟩ := Machine.guard_step_iff.mp hs
  obtain ⟨rfl, rfl⟩ := (step_effect (agrees_reach hr₀.of_guard) hpool).1.alone
  obtain rfl := step_cause hpool _ (List.mem_singleton_self _) _ rfl
  have hsome : (q₀.2.outcome id).isSome = true := by
    simp only [allowed] at hmay
    split at hmay
    · exact (Bool.and_eq_true _ _ ▸ hmay).2
    · cases hmay
  obtain ⟨r, hr'⟩ := Option.isSome_iff_exists.mp hsome
  rw [hr₀.guard_observed] at hr'
  rw [List.append_nil] at htr ⊢
  exact ⟨r, hr', (extends_of_earlier hr htr).outcome id r hr'⟩

end Outcomes

end AsyncResult
end ThreadPool
end AsyncTaskEngine
