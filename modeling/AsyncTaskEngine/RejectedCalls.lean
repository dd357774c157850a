import AsyncTaskEngine.AsyncResultProgress
import AsyncTaskEngine.Pipeline
import AsyncTaskEngine.ThreadPoolClients

/-!
# Calls that the pool rejects

`then` of an `AsyncResult` and `run` of a `Pipeline` move what their object holds
into a closure before they call `submit`, which throws once the pool has been shut
down.  The closure goes away with the exception, and what it has captured with it.

A result is consumed at most once, whether the call that consumes it returns or
throws: after a rejected `then` its outcome is lost, although its task was accepted
and is executed.  `programs` adds the pipelines of a program to the pool.  There, a
rejected `run` leaves its object as a `run` that returns does.
-/

namespace AsyncTaskEngine
namespace ThreadPool
namespace AsyncResult

universe u v w

variable {N K : Nat} {ι : Type u} {V : Type v} {E : Type w}

section Consumption

/-- The result that is consumed: `then` moves from it, or `get()` returns. -/
def consumed? : Event N ι (Body V E) Label → Option Nat
  | .submitCalled _ ⟨_, .after pred _⟩ => some pred
  | .user _ (.get id) => some id
  | _ => none

/-- The results that have been consumed, in order. -/
def consumptions (tr : List (Event N ι (Body V E) Label)) : List Nat :=
  tr.filterMap consumed?

/-- A result is consumed at most once, and after `submit` has returned it. -/
structure Consumed (s : State N ι (Body V E)) (k : Client V E)
    (tr : List (Event N ι (Body V E) Label)) : Prop where
  once : (consumptions tr).Nodup
  accepted : ∀ id ∈ consumptions tr, ∃ y ∈ acceptedTasks tr, y.id = id
  held : ∀ id, k.held id = true → id ∉ consumptions tr
  inside : ∀ t task, (s.ctrl t).inSubmit? = some task →
    k.held task.id = false ∧ task.id ∉ consumptions tr

variable {s s' : State N ι (Body V E)} {k : Client V E} {e : Event N ι (Body V E) Label}
variable {tr es : List (Event N ι (Body V E) Label)} {id : Nat}

@[simp] theorem consumptions_append (tr es : List (Event N ι (Body V E) Label)) :
    consumptions (tr ++ es) = consumptions tr ++ consumptions es := by
  simp [consumptions]

theorem consumptions_singleton (e : Event N ι (Body V E) Label) :
    consumptions [e] = (consumed? e).toList := by
  cases h : consumed? e <;> simp [consumptions, h]

theorem consumed?_then {t : Tid N ι} {task : Task (Body V E)} {pred : Nat} {stage : Stage V E}
    (hbody : task.body = .after pred stage) :
    consumed? (.submitCalled t task : Event N ι (Body V E) Label) = some pred := by
  obtain ⟨n, body⟩ := task
  obtain rfl : body = .after pred stage := hbody
  rfl

/-- After an event, a result is valid if it was before, or is returned by `submit`. -/
theorem held_observe (h : (observe k e).held id = true) :
    consumed? e ≠ some id ∧
      (k.held id = true ∨ ∃ t task, e = .submitReturned t task ∧ task.id = id) := by
  cases e with
  | submitCalled t task =>
      obtain ⟨n, body⟩ := task
      cases body with
      | after pred stage =>
          simp only [observe, Function.update_apply] at h
          split at h
          · cases h
          · next hne => exact ⟨fun hc => hne (Option.some.inj hc).symm, .inl h⟩
      | call func | forever => exact ⟨by simp [consumed?], .inl h⟩
  | rejected t task =>
      refine ⟨by simp [consumed?], .inl ?_⟩
      simp only [observe] at h
      split at h <;> exact h
  | submitReturned t task =>
      refine ⟨by simp [consumed?], ?_⟩
      simp only [observe] at h
      split at h
      · simp only [Function.update_apply] at h
        split at h
        · next heq => exact .inr ⟨t, task, rfl, heq.symm⟩
        · exact .inl h
      · exact .inl h
  | user t label =>
      cases label with
      | invoke id' => exact ⟨by simp [consumed?], .inl h⟩
      | get id' =>
          simp only [observe, Function.update_apply] at h
          split at h
          · cases h
          · next hne => exact ⟨fun hc => hne (Option.some.inj hc).symm, .inl h⟩
  | _ => exact ⟨by simp [consumed?], .inl h⟩

/-- Two events never consume the same result. -/
theorem consumed_by_one (h : (consumptions tr).Nodup) {e' : Event N ι (Body V E) Label}
    (he : e ∈ tr) (he' : e' ∈ tr) (hc : consumed? e = some id) (hc' : consumed? e' = some id) :
    e' = e := by
  obtain ⟨pre, post, rfl⟩ := List.append_of_mem he
  have hsplit : consumptions (pre ++ e :: post) = consumptions pre ++ id :: consumptions post := by
    simp [consumptions, hc]
  rw [hsplit] at h
  have hone := List.nodup_middle.mp h
  have hno : ∀ {l : List (Event N ι (Body V E) Label)}, e' ∈ l → id ∈ consumptions l := fun hl =>
    List.mem_filterMap.mpr ⟨e', hl, hc'⟩
  rcases List.mem_append.mp he' with hl | hl
  · exact ((List.nodup_cons.mp hone).1 (List.mem_append_left _ (hno hl))).elim
  · rcases List.mem_cons.mp hl with rfl | hl
    · rfl
    · exact ((List.nodup_cons.mp hone).1 (List.mem_append_right _ (hno hl))).elim

/-- Only a valid result is consumed. -/
theorem held_of_consumed (hc : consumed? e = some id)
    (hallow : ∀ b, e.cause = some b → allowed K k s b = true) : k.held id = true := by
  cases e with
  | submitCalled t task =>
      obtain ⟨n, body⟩ := task
      cases body with
      | after pred stage =>
          obtain rfl := Option.some.inj hc
          have hmay := hallow _ rfl
          simp only [allowed, Bool.and_eq_true] at hmay
          exact hmay.2
      | call func | forever => cases hc
  | user t label =>
      cases label with
      | invoke id' => cases hc
      | get id' =>
          obtain rfl := Option.some.inj hc
          have hmay := hallow _ rfl
          simp only [allowed] at hmay
          split at hmay
          · exact (Bool.and_eq_true _ _ ▸ hmay).1
          · cases hmay
  | _ => cases hc

variable [DecidableEq ι] [Fintype ι]

/-- One event consumes at most one result, which was valid. -/
theorem Consumed.step (hr : (pool N ι (Body V E) Label).Reach s tr) (inv : Consumed s k tr)
    (link : Linked K k tr) (h : Effect s s' es)
    (hallow : ∀ e ∈ es, ∀ b, e.cause = some b → allowed K k s b = true) :
    Consumed s' (es.foldl observe k) (tr ++ es) := by
  have hnew : ∀ {x : Task (Body V E)}, x ∈ acceptedTasks tr → x.id < s.nextId := by
    intro x hx
    have hid := List.mem_map_of_mem (f := Task.id) (called_of_accepted hr hx)
    rw [calls_numbered hr] at hid
    exact List.mem_range.mp hid
  rcases es with _ | ⟨e, es⟩
  · rw [List.append_nil]
    refine ⟨inv.once, inv.accepted, inv.held, fun t task ht => ?_⟩
    rcases h.inSubmit_inv ht with ht | ⟨hes, _⟩
    · exact inv.inside t task ht
    · cases hes
  · obtain rfl := h.head_alone
    have hvalid : ∀ {id}, consumed? e = some id → k.held id = true := fun hc =>
      held_of_consumed hc (hallow e (List.mem_singleton_self e))
    have hmem : ∀ {id}, id ∈ consumptions (tr ++ [e]) →
        id ∈ consumptions tr ∨ consumed? e = some id := by
      intro id hid
      rw [consumptions_append, consumptions_singleton, List.mem_append] at hid
      exact hid.imp_right fun hid => Option.mem_toList.mp hid
    constructor
    · rw [consumptions_append, consumptions_singleton]
      refine List.Nodup.append inv.once ?_ fun id hold hid => ?_
      · cases consumed? e <;> simp
      · exact inv.held id (hvalid (Option.mem_toList.mp hid)) hold
    · intro id hid
      rw [acceptedTasks_append]
      rcases hmem hid with hid | hc
      · obtain ⟨y, hy, hyid⟩ := inv.accepted id hid
        exact ⟨y, List.mem_append_left _ hy, hyid⟩
      · obtain ⟨y, hy, hyid, _⟩ := link.held id (hvalid hc)
        exact ⟨y, List.mem_append_left _ hy, hyid⟩
    · intro id hid hcons
      obtain ⟨hne, hheld⟩ := held_observe hid
      rcases hmem hcons with hold | hc
      · rcases hheld with hheld | ⟨t, task, rfl, rfl⟩
        · exact inv.held id hheld hold
        · have hu := h.submitReturned_inv (List.mem_singleton_self _)
          exact (inv.inside t task (Ctrl.inSubmit?_eq_some.mpr (.inr hu))).2 hold
      · exact hne hc
    · intro t task ht
      -- Neither a call in progress nor a new one has a result that was valid before.
      have hfresh : k.held task.id = false ∧ task.id ∉ consumptions tr := by
        rcases h.inSubmit_inv ht with ht | ⟨_, hid⟩
        · exact inv.inside t task ht
        · constructor
          · by_contra hheld
            obtain ⟨y, hy, hyid, _⟩ := link.held task.id (by simpa using hheld)
            have := hnew hy
            omega
          · intro hold
            obtain ⟨y, hy, hyid⟩ := inv.accepted _ hold
            have := hnew hy
            omega
      constructor
      · by_contra hheld
        rcases (held_observe (by simpa using hheld)).2 with hold | ⟨u, x, rfl, hid⟩
        · rw [hfresh.1] at hold
          cases hold
        · have hux := h.submitReturned_inv (List.mem_singleton_self _)
          rcases h.inSubmit_inv ht with hin | ⟨hes, _⟩
          · obtain rfl := (inSubmit_reach hr hin).2 u x (Ctrl.inSubmit?_eq_some.mpr (.inr hux)) hid
            cases h with
            | submitReturned hu hctrl hs =>
                rw [hctrl, Function.update_self, Ctrl.inSubmit?, Ctrl.user?_setUser hu] at ht
                cases ht
          · cases hes
      · intro hcons
        rcases hmem hcons with hold | hc
        · exact hfresh.2 hold
        · have hheld := hvalid hc
          rw [hfresh.1] at hheld
          cases hheld

theorem consumed_reach {q : State N ι (Body V E) × Client V E}
    (hr : (chains N ι V E K).Reach q tr) : Consumed q.1 q.2 tr := by
  refine (guard_induction (P := fun s k tr => Linked K k tr ∧ Consumed s k tr) hr
    ⟨linked_init, ?_⟩ ?_).2
  · refine ⟨List.nodup_nil, by simp [consumptions], by simp [consumptions], ?_⟩
    rintro (w | e) task ht <;> cases ht
  · rintro s s' k tr es hr ⟨link, inv⟩ h hallow
    exact ⟨link.step hr h hallow, inv.step hr link h hallow⟩

/-- What becomes of the result on which a rejected `then` was called. -/
structure ResultLost (K : Nat) (q : State N ι (Body V E) × Client V E)
    (tr : List (Event N ι (Body V E) Label)) (task : Task (Body V E)) (pred : Nat) : Prop where
  /-- It was valid when `then` was called. -/
  valid : ∃ pre t post, tr = pre ++ .submitCalled t task :: post ∧
    (pre.foldl observe Client.init).held pred = true
  invalid : q.2.held pred = false
  /-- Nobody gets the outcome of its task. -/
  unread : ∀ t, .user t (.get pred) ∉ tr
  /-- Its task was accepted, and is finished when no step is possible without the user. -/
  executed : ∃ y ∈ acceptedTasks tr, y.id = pred ∧
    ((∀ a, internal a = true → (chains N ι V E K).step q a = none) →
      y ∈ finishedTasks tr ∧ (q.2.outcome pred).isSome = true)

/-- A rejected `then` consumes the result as one that returns does. -/
theorem result_lost (hK : K < N) {q : State N ι (Body V E) × Client V E}
    (hr : (chains N ι V E K).Reach q tr) {task : Task (Body V E)} {pred : Nat}
    {stage : Stage V E} (hrej : task ∈ rejectedTasks tr) (hbody : task.body = .after pred stage) :
    ResultLost K q tr task pred := by
  have hcalled := called_of_rejected hr.of_guard hrej
  have inv := consumed_reach hr
  obtain ⟨t, hmem⟩ := mem_calledTasks.mp hcalled
  have hc := consumed?_then (t := t) hbody
  have hcons : pred ∈ consumptions tr := List.mem_filterMap.mpr ⟨_, hmem, hc⟩
  constructor
  · obtain ⟨pre, post, rfl⟩ := List.append_of_mem hmem
    obtain ⟨q₀, tr₀, a, q₁, es₀, es₁, hr₀, hs, rfl⟩ := hr.emitted rfl
    obtain ⟨hmay, hpool, _⟩ := Machine.guard_step_iff.mp hs
    obtain ⟨rfl, rfl⟩ := (step_effect (agrees_reach hr₀.of_guard) hpool).1.alone
    refine ⟨_, t, post, rfl, ?_⟩
    rw [List.append_nil, ← hr₀.guard_observed]
    refine held_of_consumed (K := K) (s := q₀.1) hc fun b hb => ?_
    rw [← step_cause hpool _ (List.mem_singleton_self _) b hb]
    exact hmay
  · by_contra hheld
    exact inv.held pred (by simpa using hheld) hcons
  · intro u hget
    cases consumed_by_one inv.once hmem hget hc rfl
  · obtain ⟨y, hy, hyid, hord⟩ := (linked_reach hr).called task hcalled pred stage hbody
    refine ⟨y, hy, hyid, fun hstuck => ?_⟩
    have hfin : y ∈ finishedTasks tr := by
      by_contra hun
      exact not_canMove hr hstuck (canMove hK hr ⟨y, hy, hord, hun⟩)
    obtain ⟨hout, hmay⟩ := (outcomes_reach hr).finished y hfin
    obtain ⟨r, hres⟩ := Client.result_isSome hmay
    rw [← hyid, hout, hres]
    exact ⟨hfin, rfl⟩

end Consumption

section Programs

/-- The pipelines of a program, and the calls of `run` on them. -/
structure Pipelines (N : Nat) (ι : Type u) (V : Type v) (E : Type w) where
  objects : List (Pipeline V E)
  /-- The object whose `run` the thread is in, and what it was when it was called. -/
  running : Tid N ι → Option (Nat × Pipeline V E)

/-- The steps of the pool, and the calls on pipelines. -/
inductive ProgramAct (N : Nat) (ι : Type u) (V : Type v) (E : Type w) where
  | pool (a : Act N ι (Body V E) Label)
  | create (initial : V)
  | thenFunc (i : Nat) (f : Func V E)
  | run (t : Tid N ι) (i : Nat)

variable [DecidableEq ι] [Fintype ι]

/-- A call of `run` on the object is in progress. -/
def Pipelines.busy (p : Pipelines N ι V E) (i : Nat) : Bool :=
  decide (∃ t, (p.running t).any (fun call => call.1 == i) = true)

/-- A call of `run` ends with its `submit`. -/
def Pipelines.observe (p : Pipelines N ι V E) : Event N ι (Body V E) Label → Pipelines N ι V E
  | .rejected t _ => { p with running := Function.update p.running t none }
  | .submitReturned t _ => { p with running := Function.update p.running t none }
  | _ => p

variable (N ι V E) in
/--
The pool under a program that also uses pipelines.  A pipeline is used by one
thread at a time; concurrent calls on it are a data race.
-/
def programs (K : Nat) (moved : V → V) :
    Machine ((State N ι (Body V E) × Client V E) × Pipelines N ι V E) (ProgramAct N ι V E)
      (Event N ι (Body V E) Label) where
  init := ((chains N ι V E K).init, { objects := [], running := fun _ => none })
  step q
    | .pool a =>
        ((chains N ι V E K).step q.1 a).map fun r =>
          ((r.1, r.2.foldl Pipelines.observe q.2), r.2)
    | .create initial =>
        some ((q.1, { q.2 with objects := q.2.objects ++ [Pipeline.create initial] }), [])
    | .thenFunc i f =>
        match q.2.objects[i]? with
        | none => none
        | some p =>
            if q.2.busy i then none
            else
              some ((q.1, { q.2 with
                objects := q.2.objects.set i (p.thenFunc moved f).2 ++ [(p.thenFunc moved f).1] }),
                [])
    | .run t i =>
        match q.2.objects[i]? with
        | none => none
        | some p =>
            if q.2.busy i then none
            else
              -- `auto chain = std::move(chain_); return pool_.submit(std::move(chain));`
              ((chains N ι V E K).step q.1 (.submit t (.call (p.run moved).1.1))).map fun r =>
                ((r.1, {
                  objects := q.2.objects.set i (p.run moved).2
                  running := Function.update q.2.running t (some (i, p)) }), r.2)

variable {moved : V → V} {P P' : (State N ι (Body V E) × Client V E) × Pipelines N ι V E}
variable {tr es : List (Event N ι (Body V E) Label)} {a : ProgramAct N ι V E}

omit [Fintype ι] in
@[simp] theorem Pipelines.objects_observe (p : Pipelines N ι V E)
    (es : List (Event N ι (Body V E) Label)) :
    (es.foldl Pipelines.observe p).objects = p.objects := by
  induction es generalizing p with
  | nil => rfl
  | cons e es ih =>
      rw [List.foldl_cons, ih]
      cases e <;> rfl

omit [Fintype ι] in
theorem Pipelines.running_observe {p : Pipelines N ι V E} {e : Event N ι (Body V E) Label}
    {t : Tid N ι} {call : Nat × Pipeline V E} (h : (p.observe e).running t = some call) :
    p.running t = some call ∧ ∀ task, e ≠ .rejected t task ∧ e ≠ .submitReturned t task := by
  cases e with
  | rejected u task | submitReturned u task =>
      simp only [Pipelines.observe, Function.update_apply] at h
      split at h
      · cases h
      · next hne =>
          refine ⟨h, fun task' => ⟨?_, ?_⟩⟩
          all_goals
            intro heq
            cases heq
            try exact hne rfl
  | _ => exact ⟨h, fun task => ⟨by simp, by simp⟩⟩

omit [Fintype ι] in
/-- A call that is still in progress has neither thrown nor returned. -/
theorem Pipelines.running_foldl {p : Pipelines N ι V E} {t : Tid N ι}
    {call : Nat × Pipeline V E} (h : (es.foldl Pipelines.observe p).running t = some call) :
    p.running t = some call ∧ ∀ task, .rejected t task ∉ es ∧ .submitReturned t task ∉ es := by
  induction es generalizing p with
  | nil => exact ⟨h, by simp⟩
  | cons e es ih =>
      obtain ⟨hmid, hes⟩ := ih h
      obtain ⟨hold, he⟩ := Pipelines.running_observe hmid
      refine ⟨hold, fun task => ⟨?_, ?_⟩⟩
      · intro hmem
        rcases List.mem_cons.mp hmem with heq | hmem
        · exact (he task).1 heq.symm
        · exact (hes task).1 hmem
      · intro hmem
        rcases List.mem_cons.mp hmem with heq | hmem
        · exact (he task).2 heq.symm
        · exact (hes task).2 hmem

omit [DecidableEq ι] in
theorem Pipelines.busy_of_running {p : Pipelines N ι V E} {t : Tid N ι} {i : Nat}
    {before : Pipeline V E} (h : p.running t = some (i, before)) : p.busy i = true :=
  decide_eq_true ⟨t, by simp [h]⟩

/-- A step of a program: of the pool, of a call on a pipeline, or of `run`. -/
inductive ProgramStep (K : Nat) (moved : V → V)
    (P P' : (State N ι (Body V E) × Client V E) × Pipelines N ι V E)
    (es : List (Event N ι (Body V E) Label)) : Prop
  | pool {b : Act N ι (Body V E) Label}
      (hs : (chains N ι V E K).step P.1 b = some (P'.1, es))
      (hpipes : P'.2 = es.foldl Pipelines.observe P.2)
  | pipeline (hpool : P'.1 = P.1) (hes : es = []) (hrunning : P'.2.running = P.2.running)
      (hbusy : ∀ i p, P.2.objects[i]? = some p → P.2.busy i = true → P'.2.objects[i]? = some p)
  | run {t : Tid N ι} {i : Nat} {p : Pipeline V E} (hp : P.2.objects[i]? = some p)
      (hfree : P.2.busy i = false)
      (hs : (chains N ι V E K).step P.1 (.submit t (.call (p.run moved).1.1)) =
        some (P'.1, es))
      (hpipes : P'.2 =
        { objects := P.2.objects.set i (p.run moved).2
          running := Function.update P.2.running t (some (i, p)) })

theorem program_step (hs : (programs N ι V E K moved).step P a = some (P', es)) :
    ProgramStep K moved P P' es := by
  cases a with
  | pool b =>
      obtain ⟨⟨q', es'⟩, hq, heq⟩ := Option.map_eq_some_iff.mp hs
      obtain ⟨rfl, rfl⟩ := Prod.mk.inj heq
      exact .pool hq rfl
  | create initial =>
      obtain ⟨rfl, rfl⟩ := Prod.mk.inj (Option.some.inj hs)
      refine .pipeline rfl rfl rfl fun i p hp _ => ?_
      rw [List.getElem?_append_left (List.getElem?_eq_some_iff.mp hp).1, hp]
  | thenFunc i f =>
      simp only [programs] at hs
      split at hs
      · cases hs
      · next p hp =>
          split at hs
          · cases hs
          · next hfree =>
              obtain ⟨rfl, rfl⟩ := Prod.mk.inj (Option.some.inj hs)
              refine .pipeline rfl rfl rfl fun j p' hj hbusy => ?_
              have hlen := (List.getElem?_eq_some_iff.mp hj).1
              have hne : i ≠ j := by
                rintro rfl
                exact hfree hbusy
              rw [List.getElem?_append_left (by simpa using hlen), List.getElem?_set_ne hne, hj]
  | run t i =>
      simp only [programs] at hs
      split at hs
      · cases hs
      · next p hp =>
          split at hs
          · cases hs
          · next hfree =>
              obtain ⟨⟨q', es'⟩, hq, heq⟩ := Option.map_eq_some_iff.mp hs
              obtain ⟨rfl, rfl⟩ := Prod.mk.inj heq
              exact .run hp (by simpa using hfree) hq rfl

/-- A run of a program is a run of the pool. -/
theorem chains_of_programs (hr : (programs N ι V E K moved).Reach P tr) :
    (chains N ι V E K).Reach P.1 tr := by
  induction hr with
  | init => exact .init
  | @step P P' tr es a _ hs ih =>
      cases program_step hs with
      | pool hs hpipes => exact .step ih hs
      | pipeline hpool hes hrunning hbusy =>
          rw [hpool, hes, List.append_nil]
          exact ih
      | run hp hfree hs hpipes => exact .step ih hs

/-- The calls of `run` in progress, each on an object of its own. -/
structure Running (moved : V → V)
    (P : (State N ι (Body V E) × Client V E) × Pipelines N ι V E) : Prop where
  /-- The object has been moved from, and the thread is in `submit`. -/
  left : ∀ t i p, P.2.running t = some (i, p) → P.2.objects[i]? = some (p.run moved).2 ∧
    ∃ task, (P.1.1.ctrl t).inSubmit? = some task ∧ task.body = .call (p.run moved).1.1
  sole : ∀ t u i p p', P.2.running t = some (i, p) → P.2.running u = some (i, p') → u = t

theorem submit_effect {q q' : State N ι (Body V E) × Client V E} {t : Tid N ι} {body : Body V E}
    (hr : (chains N ι V E K).Reach q tr)
    (hs : (chains N ι V E K).step q (.submit t body) = some (q', es)) :
    Effect q.1 q'.1 es ∧ es = [.submitCalled t ⟨q.1.nextId, body⟩] := by
  obtain ⟨_, hguarded, _⟩ := Machine.guard_step_iff.mp hs
  have hpool : step q.1 (.submit t body) = some (q'.1, es) := hguarded
  have heff := (step_effect (agrees_reach hr.of_guard) hpool).1
  refine ⟨heff, ?_⟩
  simp only [step] at hpool
  split at hpool
  · obtain ⟨r, _, heq⟩ := Option.map_eq_some_iff.mp hpool
    obtain ⟨_, rfl⟩ := Prod.mk.inj heq
    rw [heff.head_alone]
  · cases hpool

theorem Running.step (hr : (chains N ι V E K).Reach P.1 tr) (inv : Running moved P)
    (hs : ProgramStep K moved P P' es) : Running moved P' := by
  obtain ⟨q', pipes'⟩ := P'
  cases hs with
  | @pool b hs hpipes =>
      have heff := (step_effect (agrees_reach hr.of_guard) (Machine.guard_step_iff.mp hs).2.1).1
      obtain rfl : pipes' = _ := hpipes
      constructor
      · intro t i p hrun
        obtain ⟨hold, hgoes⟩ := Pipelines.running_foldl hrun
        obtain ⟨hleft, task, hin, hbody⟩ := inv.left t i p hold
        refine ⟨by rw [Pipelines.objects_observe, hleft], task, ?_, hbody⟩
        rcases heff.inSubmit_next hin with hin | rfl | rfl
        · exact hin
        · exact ((hgoes task).1 (List.mem_singleton_self _)).elim
        · exact ((hgoes task).2 (List.mem_singleton_self _)).elim
      · intro t u i p p' ht hu
        exact inv.sole t u i p p' (Pipelines.running_foldl ht).1 (Pipelines.running_foldl hu).1
  | pipeline hpool hes hrunning hbusy =>
      obtain rfl : q' = P.1 := hpool
      constructor
      · intro t i p hrun
        rw [hrunning] at hrun
        obtain ⟨hleft, hin⟩ := inv.left t i p hrun
        exact ⟨hbusy i _ hleft (Pipelines.busy_of_running hrun), hin⟩
      · rw [hrunning]
        exact inv.sole
  | @run t i p hp hfree hs hpipes =>
      obtain ⟨heff, hes⟩ := submit_effect hr hs
      have hother : ∀ u p', P.2.running u ≠ some (i, p') := by
        intro u p' hu
        rw [Pipelines.busy_of_running hu] at hfree
        cases hfree
      obtain rfl : pipes' = _ := hpipes
      constructor
      · intro u j p' hrun
        simp only [Function.update_apply] at hrun
        split at hrun
        · next hut =>
            subst hut
            obtain ⟨rfl, rfl⟩ := Prod.mk.inj (Option.some.inj hrun)
            refine ⟨List.getElem?_set_self (List.getElem?_eq_some_iff.mp hp).1, ?_⟩
            rw [hes] at heff
            cases heff with
            | submitCalled body hu hctrl hc hst hn =>
                refine ⟨⟨P.1.1.nextId, .call (p.run moved).1.1⟩, ?_, rfl⟩
                rw [hctrl, Function.update_self, Ctrl.inSubmit?, Ctrl.user?_setUser hu]
        · obtain ⟨hleft, task, hin, hbody⟩ := inv.left u j p' hrun
          have hne : i ≠ j := by
            rintro rfl
            exact hother u p' hrun
          refine ⟨(List.getElem?_set_ne hne).trans hleft, task, ?_, hbody⟩
          rcases heff.inSubmit_next hin with hin | heq | heq
          · exact hin
          · rw [heq] at hes
            cases hes
          · rw [heq] at hes
            cases hes
      · intro u u' j p' p'' hu hu'
        simp only [Function.update_apply] at hu hu'
        split at hu <;> split at hu'
        · next h h' => rw [h, h']
        · obtain ⟨rfl, _⟩ := Prod.mk.inj (Option.some.inj hu)
          exact (hother u' p'' hu').elim
        · obtain ⟨rfl, _⟩ := Prod.mk.inj (Option.some.inj hu')
          exact (hother u p' hu).elim
        · exact inv.sole u u' j p' p'' hu hu'

theorem running_reach (hr : (programs N ι V E K moved).Reach P tr) : Running moved P := by
  induction hr with
  | init =>
      constructor
      · intro t i p h
        cases h
      · intro t u i p p' h
        cases h
  | step hr hs ih => exact ih.step (chains_of_programs hr) (program_step hs)

/-- What becomes of the pipeline on which a rejected `run` was called. -/
structure PipelineLost (moved : V → V)
    (P' : (State N ι (Body V E) × Client V E) × Pipelines N ι V E) (task : Task (Body V E))
    (i : Nat) (p : Pipeline V E) : Prop where
  /-- The rejected task had the chain, or without stages the initial value. -/
  submitted : task.body = .call (p.run moved).1.1
  /-- The object is as after a `run` that returns, and has no stages. -/
  left : P'.2.objects[i]? = some (p.run moved).2
  unstaged : (p.run moved).2.chain = .empty
  intact : P'.2.objects[i]? = some p ↔ p.chain = .empty ∧ moved p.initial = p.initial

theorem run_eq_self {p : Pipeline V E} :
    (p.run moved).2 = p ↔ p.chain = .empty ∧ moved p.initial = p.initial := by
  constructor
  · intro h
    have hchain : p.chain = .empty := by
      rw [← h]
      exact Pipeline.chain_of_run
    refine ⟨hchain, ?_⟩
    have hinitial := congrArg Pipeline.initial h
    rwa [Pipeline.run, hchain] at hinitial
  · rintro ⟨hchain, hmoved⟩
    obtain ⟨initial, chain⟩ := p
    obtain rfl : chain = .empty := hchain
    simp only [Pipeline.run, ChainFn.call]
    rw [hmoved]

theorem pipeline_lost (hr : (programs N ι V E K moved).Reach P tr)
    (hs : (programs N ι V E K moved).step P a = some (P', es)) {t : Tid N ι}
    {task : Task (Body V E)} (hrej : .rejected t task ∈ es) {i : Nat} {p : Pipeline V E}
    (hrun : P.2.running t = some (i, p)) : PipelineLost moved P' task i p := by
  obtain ⟨hleft, task', hin, hbody⟩ := (running_reach hr).left t i p hrun
  have hchains := chains_of_programs hr
  cases program_step hs with
  | pool hs hpipes =>
      have heff := (step_effect (agrees_reach hchains.of_guard)
        (Machine.guard_step_iff.mp hs).2.1).1
      have hleft' : P'.2.objects[i]? = some (p.run moved).2 := by
        rw [hpipes, Pipelines.objects_observe, hleft]
      obtain rfl : task' = task := by
        cases heff with
        | rejected hu hctrl hclosed hsame =>
            cases List.mem_singleton.mp hrej
            rw [Ctrl.inSubmit?_eq_some.mpr (.inl hu)] at hin
            exact (Option.some.inj hin).symm
        | _ => simp at hrej
      refine ⟨hbody, hleft', Pipeline.chain_of_run, ?_⟩
      rw [hleft', Option.some.injEq]
      exact run_eq_self
  | pipeline hpool hes hrunning hbusy =>
      rw [hes] at hrej
      cases hrej
  | run hp hfree hs hpipes =>
      rw [(submit_effect hchains hs).2] at hrej
      cases List.mem_singleton.mp hrej

/--
A call that the pool rejects leaves its object as a call that returns does: the
result is consumed, though its task is executed, and the pipeline is moved from.
-/
theorem rejected_calls_consume (hK : K < N) :
    (∀ (P : (State N ι (Body V E) × Client V E) × Pipelines N ι V E)
      (tr : List (Event N ι (Body V E) Label)), (programs N ι V E K moved).Reach P tr →
        ∀ task ∈ rejectedTasks tr, ∀ pred stage, task.body = .after pred stage →
          ResultLost K P.1 tr task pred) ∧
    ∀ (P P' : (State N ι (Body V E) × Client V E) × Pipelines N ι V E)
      (tr es : List (Event N ι (Body V E) Label)) (a : ProgramAct N ι V E),
      (programs N ι V E K moved).Reach P tr →
        (programs N ι V E K moved).step P a = some (P', es) →
          ∀ t task i p, .rejected t task ∈ es → P.2.running t = some (i, p) →
            PipelineLost moved P' task i p := by
  constructor
  · intro P tr hr task hrej pred stage hbody
    exact result_lost hK (chains_of_programs hr) hrej hbody
  · intro P P' tr es a hr hs t task i p hrej hrun
    exact pipeline_lost hr hs hrej hrun

/-- `pool.shutdown()` comes between `submit_async` and `then`. -/
theorem then_rejected_run :
    ∃ (P P' : (State 1 Bool (Body Nat String) × Client Nat String) × Pipelines 1 Bool Nat String)
      (tr es : List (Event 1 Bool (Body Nat String) Label)) (a : ProgramAct 1 Bool Nat String)
      (task : Task (Body Nat String)) (stage : Stage Nat String),
      (programs 1 Bool Nat String 0 id).Reach P tr ∧
        (programs 1 Bool Nat String 0 id).step P a = some (P', es) ∧
          .rejected (.inr false) task ∈ es ∧ task.body = .after 0 stage ∧
            P'.1.2.held 0 = false :=
  ⟨_, _, _, _, .pool (.advance (.inr false)), ⟨1, .after 0 (.value fun x => .ok (2 * x))⟩, _,
    Machine.reach_of_exec
      [.pool (.submit (.inr false) (.call (.ok 5))), .pool (.advance (.inr false)),
        .pool (.notify (.inr false) none), .pool (.shutdown (.inr true)),
        .pool (.advance (.inr true)),
        .pool (.submit (.inr false) (.after 0 (.value fun x => .ok (2 * x))))] rfl,
    rfl, List.mem_singleton_self _, rfl, rfl⟩

/-- `pool.shutdown()` comes between `then` and `run`. -/
theorem run_rejected_run :
    ∃ (P P' : (State 1 Bool (Body Nat String) × Client Nat String) × Pipelines 1 Bool Nat String)
      (tr es : List (Event 1 Bool (Body Nat String) Label)) (a : ProgramAct 1 Bool Nat String)
      (task : Task (Body Nat String)) (p : Pipeline Nat String),
      (programs 1 Bool Nat String 0 id).Reach P tr ∧
        (programs 1 Bool Nat String 0 id).step P a = some (P', es) ∧
          .rejected (.inr false) task ∈ es ∧ P.2.running (.inr false) = some (1, p) ∧
            p.chain ≠ .empty ∧ P'.2.objects[1]? = some ⟨0, .empty⟩ :=
  ⟨_, _, _, _, .pool (.advance (.inr false)), ⟨0, .call (.ok 10)⟩, _,
    Machine.reach_of_exec
      [.create 5, .thenFunc 0 { invoke := fun x => .ok (2 * x), zero := 0 },
        .pool (.shutdown (.inr true)), .pool (.advance (.inr true)), .run (.inr false) 1] rfl,
    rfl, List.mem_singleton_self _, rfl, by simp [Pipeline.thenFunc], rfl⟩

/-- A rejected `then` on a value of `submit_async`, and a rejected `run` with one stage. -/
theorem rejected_calls_consume_afterShutdown :
    (∃ (P : (State 1 Bool (Body Nat String) × Client Nat String) × Pipelines 1 Bool Nat String)
      (tr : List (Event 1 Bool (Body Nat String) Label)) (task : Task (Body Nat String)),
      (programs 1 Bool Nat String 0 id).Reach P tr ∧ ResultLost 0 P.1 tr task 0) ∧
    ∃ (P : (State 1 Bool (Body Nat String) × Client Nat String) × Pipelines 1 Bool Nat String)
      (task : Task (Body Nat String)) (p : Pipeline Nat String),
      p.chain ≠ .empty ∧ PipelineLost id P task 1 p := by
  constructor
  · obtain ⟨P, P', tr, es, a, task, stage, hr, hs, hrej, hbody, _⟩ := then_rejected_run
    have hr' := Machine.Reach.step hr hs
    exact ⟨P', tr ++ es, task, hr', (rejected_calls_consume Nat.one_pos).1 P' _ hr' task
      (mem_rejectedTasks.mpr ⟨_, List.mem_append_right _ hrej⟩) 0 stage hbody⟩
  · obtain ⟨P, P', tr, es, a, task, p, hr, hs, hrej, hrun, hchain, _⟩ := run_rejected_run
    exact ⟨P', task, p, hchain,
      (rejected_calls_consume Nat.one_pos).2 P P' tr es a hr hs _ task 1 p hrej hrun⟩

/-- Neither a result nor a pipeline is as it was before the rejected call. -/
theorem rejected_calls_change :
    (¬ ∀ (P P' : (State 1 Bool (Body Nat String) × Client Nat String) × Pipelines 1 Bool Nat String)
      (tr es : List (Event 1 Bool (Body Nat String) Label)) (a : ProgramAct 1 Bool Nat String),
      (programs 1 Bool Nat String 0 id).Reach P tr →
        (programs 1 Bool Nat String 0 id).step P a = some (P', es) →
          ∀ t task pred stage, .rejected t task ∈ es → task.body = .after pred stage →
            P'.1.2.held pred = true) ∧
    ¬ ∀ (P P' : (State 1 Bool (Body Nat String) × Client Nat String) × Pipelines 1 Bool Nat String)
      (tr es : List (Event 1 Bool (Body Nat String) Label)) (a : ProgramAct 1 Bool Nat String),
      (programs 1 Bool Nat String 0 id).Reach P tr →
        (programs 1 Bool Nat String 0 id).step P a = some (P', es) →
          ∀ t task i p, .rejected t task ∈ es → P.2.running t = some (i, p) →
            P'.2.objects[i]? = some p := by
  constructor
  · intro h
    obtain ⟨P, P', tr, es, a, task, stage, hr, hs, hrej, hbody, hheld⟩ := then_rejected_run
    rw [h P P' tr es a hr hs _ task 0 stage hrej hbody] at hheld
    cases hheld
  · intro h
    obtain ⟨P, P', tr, es, a, task, p, hr, hs, hrej, hrun, hchain, hobj⟩ := run_rejected_run
    rw [h P P' tr es a hr hs _ task 1 p hrej hrun, Option.some.injEq] at hobj
    rw [hobj] at hchain
    exact hchain rfl

end Programs

end AsyncResult
end ThreadPool
end AsyncTaskEngine
