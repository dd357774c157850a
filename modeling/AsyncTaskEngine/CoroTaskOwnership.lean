import AsyncTaskEngine.CoroTask

/-!
# Who may resume a coroutine

At each `co_await pool.schedule()` the right to resume the coroutine passes from
the thread that executes it to the task that `await_suspend` submits.  `Token`
says that there is one such task exactly while the coroutine is suspended at a
later point than the initial one.  The owner has no part in this: its `resume()`
and `get()` test only whether the coroutine is done, and its destructor tests
nothing.  As long as it resumes a coroutine only at the initial suspension, and
destroys it only there or at the end, every suspension point is resumed once and
in order; otherwise the queued task resumes a frame that is not suspended.
-/

namespace AsyncTaskEngine
namespace ThreadPool
namespace CoroTask

universe u v w

variable {N : Nat} {ι : Type u} {V : Type v} {E : Type w}

/-- The suspension points at which the handle was resumed; `none` where it was not suspended. -/
def resumptions (tr : List (Event N ι Body Label)) : List (Option Nat) :=
  tr.filterMap fun
    | .user _ (.resume _ point) => some point
    | _ => none

/-- The segments of the body that have been executed. -/
def segments (tr : List (Event N ι Body Label)) : List Nat :=
  tr.filterMap fun
    | .user _ (.segment n) => some n
    | _ => none

/-- The suspension points from which `submit` threw. -/
def rejections (tr : List (Event N ι Body Label)) : List Nat :=
  tr.filterMap fun
    | .rejected _ ⟨_, .resume point⟩ => some point
    | _ => none

section Projections

variable (tr es : List (Event N ι Body Label))

@[simp] theorem resumptions_append :
    resumptions (tr ++ es) = resumptions tr ++ resumptions es :=
  List.filterMap_append

@[simp] theorem segments_append : segments (tr ++ es) = segments tr ++ segments es :=
  List.filterMap_append

@[simp] theorem rejections_append :
    rejections (tr ++ es) = rejections tr ++ rejections es :=
  List.filterMap_append

end Projections

/-- The call destroys the frame. -/
def Client.destroys (k : Client N ι V E) : OwnerCall → Bool
  | .assign j i => decide (i ≠ j ∧ k.holder ≠ some i ∧ k.holder = some j)
  | .destroy i => decide (k.holder = some i)
  | _ => false

/--
The owner resumes the coroutine only at its initial suspension, and destroys it
only there or at its end.
-/
def Owned (k : Client N ι V E) (_ : List (Event N ι Body Label)) (_ : Tid N ι) : Label → Prop
  | .resume none _ => k.frame = .suspended 0
  | .call c => k.destroys c = true → k.frame = .suspended 0 ∨ k.frame.done = true
  | _ => True

instance (k : Client N ι V E) [DecidableEq ι] (tr : List (Event N ι Body Label)) (t : Tid N ι)
    (label : Label) : Decidable (Owned k tr t label) :=
  match label with
  | .resume none _ => inferInstanceAs (Decidable (k.frame = .suspended 0))
  | .call c =>
      inferInstanceAs
        (Decidable (k.destroys c = true → k.frame = .suspended 0 ∨ k.frame.done = true))
  | .resume (some _) _ | .test | .attach | .segment _ | .unhandledException | .readPromise
  | .fulfil | .leave | .getReturned => isTrue trivial

theorem call_frame (k : Client N ι V E) (c : OwnerCall) :
    (k.call c).frame = if k.destroys c then k.frame.destroy else k.frame := by
  cases c with
  | resume i =>
      simp only [Client.call, Client.destroys]
      split <;> rfl
  | get i => rfl
  | destroy i =>
      by_cases h : k.holder = some i <;> simp [Client.call, Client.destroys, h, Client.destroyFrame]
  | assign j i =>
      by_cases hij : i = j
      · simp [Client.call, Client.destroys, hij]
      · by_cases hi : k.holder = some i
        · simp [Client.call, Client.destroys, hij, hi]
        · have hji : j ≠ i := fun h => hij h.symm
          by_cases hj : k.holder = some j <;>
            simp [Client.call, Client.destroys, hij, hji, hi, hj, Client.destroyFrame]

@[simp] theorem call_resumed (k : Client N ι V E) (c : OwnerCall) :
    (k.call c).resumed = k.resumed := by
  cases c <;> simp only [Client.call] <;> repeat' split
  all_goals rfl

@[simp] theorem call_stored (k : Client N ι V E) (c : OwnerCall) :
    (k.call c).stored = k.stored := by
  cases c <;> simp only [Client.call] <;> repeat' split
  all_goals rfl

@[simp] theorem call_promise (k : Client N ι V E) (c : OwnerCall) :
    (k.call c).promise = k.promise := by
  cases c <;> simp only [Client.call] <;> repeat' split
  all_goals rfl

/-- A destroyed frame is not suspended. -/
theorem destroy_point? {τ : Type u} (f : Frame τ) : f.destroy.point? = none := by
  cases f <;> rfl

section Tokens

/-- The tasks of the coroutine: a started one may have resumed it, a finished one has. -/
structure Tasks (k : Client N ι V E) (tr : List (Event N ι Body Label)) : Prop where
  resumed : ∀ id, k.resumed id = true → ∃ x ∈ startedTasks tr, x.id = id
  finished : ∀ x ∈ finishedTasks tr, ∀ point, x.body = .resume point → k.resumed x.id = true

/-- The task has the right to resume the coroutine. -/
structure Outstanding (k : Client N ι V E) (tr : List (Event N ι Body Label))
    (x : Task Body) : Prop where
  called : x ∈ calledTasks tr
  isResume : x.body ≠ .other
  notResumed : k.resumed x.id = false
  notRejected : x ∉ rejectedTasks tr

/-- One task has the right to resume a coroutine that waits for the pool, and none otherwise. -/
structure Token (k : Client N ι V E) (tr : List (Event N ι Body Label)) : Prop where
  live : ∀ x, Outstanding k tr x → ∃ n, x.body = .resume (n + 1) ∧ k.frame = .suspended (n + 1)
  unique : ∀ x y, Outstanding k tr x → Outstanding k tr y → x = y
  owed : ∀ n, k.frame = .suspended (n + 1) → ∃ x, Outstanding k tr x

variable [DecidableEq ι] {cfg : Config ι V E} {s s' : State N ι Body} {k k' : Client N ι V E}
variable {tr es : List (Event N ι Body Label)} {e : Event N ι Body Label}

omit [DecidableEq ι] in
theorem outstanding_congr (hcalled : ∀ x ∈ calledTasks es, x.body = .other)
    (hrej : ∀ x ∈ rejectedTasks es, x.body = .other) (hres : k'.resumed = k.resumed)
    (x : Task Body) : Outstanding k' (tr ++ es) x ↔ Outstanding k tr x := by
  constructor
  · rintro ⟨hx, hbody, hnew, hnot⟩
    rw [calledTasks_append, List.mem_append] at hx
    rw [rejectedTasks_append, List.mem_append, not_or] at hnot
    rw [hres] at hnew
    exact ⟨hx.resolve_right fun h => hbody (hcalled x h), hbody, hnew, hnot.1⟩
  · rintro ⟨hx, hbody, hnew, hnot⟩
    refine ⟨?_, hbody, by rwa [hres], ?_⟩
    · rw [calledTasks_append]
      exact List.mem_append_left _ hx
    · rw [rejectedTasks_append, List.mem_append, not_or]
      exact ⟨hnot, fun h => hbody (hrej x h)⟩

omit [DecidableEq ι] in
/-- A step that neither passes the right on nor uses it. -/
theorem Token.frame (h : Token k tr) (hcalled : ∀ x ∈ calledTasks es, x.body = .other)
    (hrej : ∀ x ∈ rejectedTasks es, x.body = .other) (hres : k'.resumed = k.resumed)
    (hf : ∀ n, k'.frame = .suspended (n + 1) ↔ k.frame = .suspended (n + 1)) :
    Token k' (tr ++ es) where
  live x hx := by
    obtain ⟨n, hbody, hframe⟩ := h.live x ((outstanding_congr hcalled hrej hres x).mp hx)
    exact ⟨n, hbody, (hf n).mpr hframe⟩
  unique x y hx hy :=
    h.unique x y ((outstanding_congr hcalled hrej hres x).mp hx)
      ((outstanding_congr hcalled hrej hres y).mp hy)
  owed n hn := by
    obtain ⟨x, hx⟩ := h.owed n ((hf n).mp hn)
    exact ⟨x, (outstanding_congr hcalled hrej hres x).mpr hx⟩

omit [DecidableEq ι] in
theorem Step.resumed_of (h : Step cfg s k e k') {id : Nat} (hid : k.resumed id = true) :
    k'.resumed id = true := by
  cases h with
  | resumeTask hctrl hnew =>
      simp only [Function.update_apply]
      split
      · rfl
      · exact hid
  | call hpc => rwa [call_resumed]
  | _ => exact hid

omit [DecidableEq ι] in
/-- Only a task in execution marks itself as resumed. -/
theorem Step.resumed_inv (h : Step cfg s k e k') {id : Nat} (hid : k'.resumed id = true) :
    k.resumed id = true ∨ ∃ t point drained u,
      s.ctrl t = .running ⟨id, .resume point⟩ drained u := by
  cases h with
  | resumeTask hctrl hnew =>
      simp only [Function.update_apply] at hid
      split at hid
      · next heq => exact .inr ⟨_, _, _, _, heq ▸ hctrl⟩
      · exact .inl hid
  | call hpc => exact .inl (by rwa [call_resumed] at hid)
  | _ => exact .inl hid

variable [Fintype ι] {D : Client N ι V E → List (Event N ι Body Label) → Tid N ι → Label → Prop}

theorem Tasks.step (hr : (pool N ι Body Label).Reach s tr) (h : Tasks k tr)
    (hj : Joint (Step cfg) D s s' k k' tr es) : Tasks k' (tr ++ es) := by
  rcases hj.step with ⟨rfl, rfl⟩ | ⟨e, rfl, hs⟩
  · rwa [List.append_nil]
  · refine ⟨fun id hid => ?_, fun x hx point hbody => ?_⟩
    · have hstarted : ∃ x ∈ startedTasks tr, x.id = id := by
        rcases hs.resumed_inv hid with hid | ⟨t, point, drained, u, hctrl⟩
        · exact h.resumed id hid
        · obtain ⟨w, rfl⟩ := worker_of_running hr hctrl
          exact ⟨⟨id, .resume point⟩,
            started_of_executing hr (w := w) (by simp [hctrl, Ctrl.executing]), rfl⟩
      obtain ⟨x, hx, hid⟩ := hstarted
      exact ⟨x, by rw [startedTasks_append]; exact List.mem_append_left _ hx, hid⟩
    · rw [finishedTasks_append, List.mem_append] at hx
      rcases hx with hx | hx
      · exact hs.resumed_of (h.finished x hx point hbody)
      · obtain ⟨w, hw⟩ := mem_finishedTasks.mp hx
        obtain rfl := List.mem_singleton.mp hw
        obtain ⟨id, body⟩ := x
        dsimp only at hbody
        subst hbody
        cases hs with
        | quiet he => cases he
        | taskDone hres hoff => exact hres

/-- A task in execution that has not resumed the coroutine has the right to do so. -/
theorem outstanding_of_running (hr : (pool N ι Body Label).Reach s tr) {t : Tid N ι}
    {id point : Nat} {drained : Bool} {u : UserPc Body}
    (hctrl : s.ctrl t = .running ⟨id, .resume point⟩ drained u) (hnew : k.resumed id = false) :
    Outstanding k tr ⟨id, .resume point⟩ := by
  obtain ⟨w, rfl⟩ := worker_of_running hr hctrl
  have hstarted : (⟨id, .resume point⟩ : Task Body) ∈ startedTasks tr :=
    started_of_executing hr (w := w) (by simp [hctrl, Ctrl.executing])
  have hacc := (started_subperm_accepted hr).subset hstarted
  refine ⟨called_of_accepted hr hacc, by simp, hnew, fun hrej => ?_⟩
  have hone := accepted_once hr id
  have : 0 < timesIn id (acceptedTasks tr) := timesIn_pos hacc
  have : 0 < timesIn id (rejectedTasks tr) := timesIn_pos hrej
  omega

/-- A task that is being submitted has the right to resume the coroutine. -/
theorem outstanding_of_submitting (hr : (pool N ι Body Label).Reach s tr) (h : Tasks k tr)
    {t : Tid N ι} {id point : Nat}
    (hu : (s.ctrl t).user? = some (.submitting ⟨id, .resume point⟩)) :
    Outstanding k tr ⟨id, .resume point⟩ := by
  have hcalled := called_of_submitting hr hu
  obtain ⟨hacc, hrej⟩ := submitting_undecided hr hu
  refine ⟨hcalled, by simp, ?_, hrej⟩
  by_contra hres
  obtain ⟨x, hx, hid⟩ := h.resumed id (by simpa using hres)
  have hxacc := (started_subperm_accepted hr).subset hx
  rw [task_unique hr (called_of_accepted hr hxacc) hcalled hid] at hxacc
  exact hacc hxacc

/-- A rejected task finds the coroutine in the suspension that has submitted it. -/
theorem Token.suspended_of_rejected (hr : (pool N ι Body Label).Reach s tr) (htasks : Tasks k tr)
    (h : Token k tr) {t : Tid N ι} {id point : Nat}
    (heff : Effect s s' [(.rejected t ⟨id, .resume point⟩ : Event N ι Body Label)]) :
    ∃ n, point = n + 1 ∧ k.frame = .suspended point := by
  cases heff with
  | rejected hu hctrl hclosed hsame =>
      obtain ⟨n, hbody, hframe⟩ := h.live _ (outstanding_of_submitting hr htasks hu)
      cases hbody
      exact ⟨n, rfl, hframe⟩

/-- `await_suspend` passes the right to resume on to the task that it submits. -/
theorem Token.suspend (hr : (pool N ι Body Label).Reach s tr) (htasks : Tasks k tr)
    (h : Token k tr) {t t' : Tid N ι} {n : Nat} (hf : k.frame = .awaiting t' n) :
    Token { k with frame := .suspended (n + 1) }
      (tr ++ [.submitCalled t ⟨s.nextId, .resume (n + 1)⟩]) := by
  have hcalled : calledTasks (tr ++ [.submitCalled t ⟨s.nextId, .resume (n + 1)⟩]) =
      calledTasks tr ++ [⟨s.nextId, .resume (n + 1)⟩] := by simp [calledTasks]
  have hrej : rejectedTasks (tr ++ [.submitCalled t ⟨s.nextId, .resume (n + 1)⟩]) =
      rejectedTasks tr := by simp [rejectedTasks]
  have hbelow : ∀ x ∈ calledTasks tr, x.id < s.nextId := by
    intro x hx
    have hid := List.mem_map_of_mem (f := Task.id) hx
    rw [calls_numbered hr] at hid
    exact List.mem_range.mp hid
  have hnone : ∀ x, ¬ Outstanding k tr x := by
    intro x hx
    obtain ⟨m, _, hframe⟩ := h.live x hx
    rw [hf] at hframe
    cases hframe
  have honly : ∀ x, Outstanding { k with frame := .suspended (n + 1) }
      (tr ++ [.submitCalled t ⟨s.nextId, .resume (n + 1)⟩]) x →
        x = ⟨s.nextId, .resume (n + 1)⟩ := by
    rintro x ⟨hx, hbody, hnew, hnot⟩
    rw [hcalled, List.mem_append, List.mem_singleton] at hx
    rw [hrej] at hnot
    exact hx.resolve_left fun hx => hnone x ⟨hx, hbody, hnew, hnot⟩
  refine ⟨fun x hx => ?_, fun x y hx hy => (honly x hx).trans (honly y hy).symm, fun m hm => ?_⟩
  · exact ⟨n, by rw [honly x hx], rfl⟩
  · refine ⟨⟨s.nextId, .resume (n + 1)⟩, by rw [hcalled]; simp, by simp, ?_, fun hmem => ?_⟩
    · by_contra hres
      obtain ⟨x, hx, hid⟩ := htasks.resumed s.nextId (by simpa using hres)
      have := hbelow x (called_of_accepted hr ((started_subperm_accepted hr).subset hx))
      omega
    · rw [hrej] at hmem
      exact Nat.lt_irrefl _ (hbelow _ (called_of_rejected hr hmem))

omit [DecidableEq ι] [Fintype ι] in
/-- The exception of `submit` takes the right to resume back. -/
theorem Token.rethrow (h : Token k tr) {t : Tid N ι} {id n : Nat}
    (hout : Outstanding k tr ⟨id, .resume n⟩) :
    Token { k with frame := .rethrowing t } (tr ++ [.rejected t ⟨id, .resume n⟩]) := by
  have hnone : ∀ x, ¬ Outstanding { k with frame := .rethrowing t }
      (tr ++ [.rejected t ⟨id, .resume n⟩]) x := by
    rintro x ⟨hx, hbody, hnew, hnot⟩
    rw [calledTasks_append, List.mem_append] at hx
    rw [rejectedTasks_append, List.mem_append, not_or] at hnot
    have hx' : x ∈ calledTasks tr := hx.resolve_right (by simp [calledTasks])
    obtain rfl := h.unique x _ ⟨hx', hbody, hnew, hnot.1⟩ hout
    exact hnot.2 (by simp [rejectedTasks])
  exact ⟨fun x hx => (hnone x hx).elim, fun x y hx _ => (hnone x hx).elim, fun m hm => by cases hm⟩

omit [DecidableEq ι] [Fintype ι] in
/-- The task uses its right to resume. -/
theorem Token.resume (h : Token k tr) {t u : Tid N ι} {id n point : Nat}
    {point' : Option Nat} (hout : Outstanding k tr ⟨id, .resume n⟩) :
    Token { k with frame := .running t point, resumed := Function.update k.resumed id true }
      (tr ++ [.user u (.resume (some id) point')]) := by
  have hnone : ∀ x, ¬ Outstanding
      { k with frame := .running t point, resumed := Function.update k.resumed id true }
      (tr ++ [.user u (.resume (some id) point')]) x := by
    rintro x ⟨hx, hbody, hnew, hnot⟩
    rw [calledTasks_append, List.mem_append] at hx
    rw [rejectedTasks_append, List.mem_append, not_or] at hnot
    have hx' : x ∈ calledTasks tr := hx.resolve_right (by simp [calledTasks])
    by_cases hid : x.id = id
    · simp [hid] at hnew
    · simp only [Function.update_of_ne hid] at hnew
      exact hid (congrArg Task.id (h.unique x _ ⟨hx', hbody, hnew, hnot.1⟩ hout))
  exact ⟨fun x hx => (hnone x hx).elim, fun x y hx _ => (hnone x hx).elim, fun m hm => by cases hm⟩

omit [DecidableEq ι] [Fintype ι] in
/-- The other events of the pool concern other tasks. -/
theorem quiet_other (he : quiet e = true) :
    (∀ x ∈ calledTasks [e], x.body = .other) ∧ ∀ x ∈ rejectedTasks [e], x.body = .other := by
  constructor
  · intro x hx
    obtain ⟨t, ht⟩ := mem_calledTasks.mp hx
    obtain rfl := List.mem_singleton.mp ht
    obtain ⟨id, body⟩ := x
    cases body with
    | resume point => cases he
    | other => rfl
  · intro x hx
    obtain ⟨t, ht⟩ := mem_rejectedTasks.mp hx
    obtain rfl := List.mem_singleton.mp ht
    obtain ⟨id, body⟩ := x
    cases body with
    | resume point => cases he
    | other => rfl

theorem Token.step (hr : (pool N ι Body Label).Reach s tr) (htasks : Tasks k tr)
    (h : Token k tr) (hj : Joint (Step cfg) D s s' k k' tr es)
    (hown : ∀ t label, es = [.user t label] → Owned k tr t label) : Token k' (tr ++ es) := by
  rcases hj.step with ⟨rfl, rfl⟩ | ⟨e, rfl, hs⟩
  · rwa [List.append_nil]
  · have hplain : ∀ t label, e = .user t label → (∀ x ∈ calledTasks [e], x.body = .other) ∧
        ∀ x ∈ rejectedTasks [e], x.body = .other := by
      rintro t label rfl
      exact ⟨by simp [calledTasks], by simp [rejectedTasks]⟩
    have heff := hj.effect
    cases hs with
    | quiet he =>
        obtain ⟨hcalled, hrej⟩ := quiet_other he
        exact h.frame hcalled hrej rfl fun _ => Iff.rfl
    | taskDone hres hoff =>
        exact h.frame (by simp [calledTasks]) (by simp [rejectedTasks]) rfl fun _ => Iff.rfl
    | suspend hf =>
        cases heff with
        | submitCalled body hu hctrl hc hst hn => exact h.suspend hr htasks hf
    | rethrow hf =>
        cases heff with
        | rejected hu hctrl hclosed hsame =>
            exact h.rethrow (outstanding_of_submitting hr htasks hu)
    | rejectedLate hf =>
        obtain ⟨_, _, hframe⟩ := h.suspended_of_rejected hr htasks heff
        exact (hf hframe).elim
    | resumeTask hctrl hnew =>
        have hout := outstanding_of_running hr hctrl hnew
        obtain ⟨n, _, hframe⟩ := h.live _ hout
        simp only [hframe, Frame.resume]
        exact h.resume hout
    | resumeOwner hpc =>
        have hframe : k.frame = .suspended 0 := hown _ _ rfl
        refine h.frame (hplain _ _ rfl).1 (hplain _ _ rfl).2 rfl fun n => ?_
        simp [hframe, Frame.resume]
    | @call c hpc =>
        have hquiet : k.destroys c = true → k.frame = .suspended 0 ∨ k.frame.done = true :=
          hown _ _ rfl
        refine h.frame (hplain _ _ rfl).1 (hplain _ _ rfl).2 (call_resumed k c) fun n => ?_
        rw [call_frame]
        split
        · next hd =>
            constructor
            · intro hf
              have := destroy_point? k.frame
              rw [hf] at this
              cases this
            · intro hf
              rcases hquiet hd with h0 | hdone
              · rw [hf] at h0
                cases h0
              · rw [hf] at hdone
                cases hdone
        · exact Iff.rfl
    | segment hf hn | lastSegment hf hn | unhandledException hf | readNull hf hext
    | readPromise hf hext | fulfil hf =>
        exact h.frame (hplain _ _ rfl).1 (hplain _ _ rfl).2 rfl fun n => by simp [hf]
    | getDone hpc | testDone hpc | attach hpc | leave hpc hoff | getResult hpc
    | getValue hpc hsome =>
        exact h.frame (hplain _ _ rfl).1 (hplain _ _ rfl).2 rfl fun _ => Iff.rfl

end Tokens

section Stages

/-- The first segments have been executed, and the first suspension points resumed, in order. -/
def Passed (tr : List (Event N ι Body Label)) (segs points : Nat) : Prop :=
  segments tr = List.range segs ∧ resumptions tr = (List.range points).map some

/--
The coroutine has ended with the result of its body, or with the exception of the
first `submit` that threw.
-/
def Ended (cfg : Config ι V E) (tr : List (Event N ι Body Label)) (r : Except E V) : Prop :=
  (r = cfg.result ∧ Passed tr (cfg.hops + 1) (cfg.hops + 1) ∧ rejections tr = []) ∨
    ∃ n, n < cfg.hops ∧ r = .error cfg.rejection ∧ Passed tr (n + 1) (n + 1) ∧
      rejections tr = [n + 1]

/-- How far the coroutine has come. -/
def Stage (cfg : Config ι V E) (tr : List (Event N ι Body Label)) :
    Frame (Tid N ι) → Prop
  | .suspended point => point ≤ cfg.hops ∧ Passed tr point point ∧ rejections tr = []
  | .running _ n => n ≤ cfg.hops ∧ Passed tr n (n + 1) ∧ rejections tr = []
  | .awaiting _ n => n < cfg.hops ∧ Passed tr (n + 1) (n + 1) ∧ rejections tr = []
  | .rethrowing _ =>
      ∃ n, n < cfg.hops ∧ Passed tr (n + 1) (n + 1) ∧ rejections tr = [n + 1]
  | .final _ => ∃ r, Ended cfg tr r
  | .fulfilling _ => ∃ r, Ended cfg tr r
  | .finished => ∃ r, Ended cfg tr r
  | .destroyed => ∃ m, resumptions tr = (List.range m).map some
  | .undefined => ∃ m, resumptions tr = (List.range m).map some

variable {cfg : Config ι V E} {s s' : State N ι Body} {k k' : Client N ι V E}
variable {tr es : List (Event N ι Body Label)}

/-- How far a coroutine has come whose frame is still there. -/
theorem Stage.passed {f : Frame (Tid N ι)} (h : Stage cfg tr f)
    (hlives : f ≠ .destroyed ∧ f ≠ .undefined) : ∃ segs points, Passed tr segs points := by
  have hended : (∃ r, Ended cfg tr r) → ∃ segs points, Passed tr segs points := by
    rintro ⟨r, ⟨_, hp, _⟩ | ⟨n, _, _, hp, _⟩⟩
    · exact ⟨_, _, hp⟩
    · exact ⟨_, _, hp⟩
  cases f with
  | suspended point => exact ⟨_, _, h.2.1⟩
  | running t n => exact ⟨_, _, h.2.1⟩
  | awaiting t n => exact ⟨_, _, h.2.1⟩
  | rethrowing t =>
      obtain ⟨n, _, hp, _⟩ := h
      exact ⟨_, _, hp⟩
  | final t => exact hended h
  | fulfilling t => exact hended h
  | finished => exact hended h
  | destroyed => exact (hlives.1 rfl).elim
  | undefined => exact (hlives.2 rfl).elim

/-- The suspension points have been resumed once each and in order. -/
theorem Stage.inOrder {f : Frame (Tid N ι)} (h : Stage cfg tr f) :
    ∃ m, resumptions tr = (List.range m).map some := by
  by_cases hlives : f ≠ .destroyed ∧ f ≠ .undefined
  · obtain ⟨_, m, _, hres⟩ := h.passed hlives
    exact ⟨m, hres⟩
  · cases f with
    | destroyed => exact h
    | undefined => exact h
    | _ => exact (hlives ⟨by simp, by simp⟩).elim

/-- Events that concern neither the segments nor the suspension points. -/
theorem Ended.silent {r : Except E V} (h : Ended cfg tr r) (hseg : segments es = [])
    (hres : resumptions es = []) (hrej : rejections es = []) : Ended cfg (tr ++ es) r := by
  simpa [Ended, Passed, hseg, hres, hrej] using h

theorem quiet_silent {e : Event N ι Body Label} (he : quiet e = true) :
    segments [e] = [] ∧ resumptions [e] = [] ∧ rejections [e] = [] := by
  refine ⟨?_, ?_, ?_⟩
  · cases e <;> first | rfl | cases he
  · cases e <;> first | rfl | cases he
  · cases e with
    | rejected t task =>
        obtain ⟨id, body⟩ := task
        cases body <;> first | rfl | cases he
    | _ => rfl

theorem Stage.silent {f : Frame (Tid N ι)} (h : Stage cfg tr f) (hseg : segments es = [])
    (hres : resumptions es = []) (hrej : rejections es = []) : Stage cfg (tr ++ es) f := by
  cases f <;> simpa [Stage, Ended, Passed, hseg, hres, hrej] using h

/-- Destroying a frame at its initial suspension or at its end. -/
theorem Stage.destroy {f : Frame (Tid N ι)} (h : Stage cfg tr f) : Stage cfg tr f.destroy := by
  have := h.inOrder
  cases f <;> exact this

/-- The last segment ends the coroutine with the result of its body. -/
theorem ended_of_last {t : Tid N ι} {n : Nat} (h : Stage cfg tr (.running t n))
    (hn : ¬ n < cfg.hops) : Ended cfg (tr ++ [.user t (.segment n)]) cfg.result := by
  obtain ⟨hle, ⟨hseg, hres⟩, hrej⟩ := h
  obtain rfl : n = cfg.hops := by omega
  refine .inl ⟨rfl, ⟨?_, ?_⟩, ?_⟩
  · rw [segments_append, hseg, List.range_succ]
    rfl
  · rw [resumptions_append, hres]
    simp [resumptions]
  · rw [rejections_append, hrej]
    rfl

/-- A rethrown exception ends the coroutine. -/
theorem ended_of_rethrowing {t : Tid N ι} (h : Stage cfg tr (.rethrowing t)) :
    Ended cfg (tr ++ [.user t .unhandledException]) (.error cfg.rejection) := by
  obtain ⟨n, hn, ⟨hseg, hres⟩, hrej⟩ := h
  refine .inr ⟨n, hn, rfl, ⟨?_, ?_⟩, ?_⟩
  · simpa [segments] using hseg
  · simpa [resumptions] using hres
  · simpa [rejections] using hrej

variable [DecidableEq ι] [Fintype ι]
variable {D : Client N ι V E → List (Event N ι Body Label) → Tid N ι → Label → Prop}

theorem Stage.step (hr : (pool N ι Body Label).Reach s tr) (htasks : Tasks k tr)
    (htoken : Token k tr) (h : Stage cfg tr k.frame) (hj : Joint (Step cfg) D s s' k k' tr es)
    (hown : ∀ t label, es = [.user t label] → Owned k tr t label) :
    Stage cfg (tr ++ es) k'.frame := by
  rcases hj.step with ⟨rfl, rfl⟩ | ⟨e, rfl, hs⟩
  · rwa [List.append_nil]
  · have heff := hj.effect
    -- a resumption at a suspension point is the next one
    have hresume : ∀ {t u : Tid N ι} {task : Option Nat} {point : Nat},
        k.frame = .suspended point →
          Stage cfg (tr ++ [.user u (.resume task k.frame.point?)]) (k.frame.resume t) := by
      intro t u task point hf
      rw [hf] at h ⊢
      obtain ⟨hle, ⟨hseg, hres⟩, hrej⟩ := h
      refine ⟨hle, ⟨?_, ?_⟩, ?_⟩
      · simpa [segments] using hseg
      · rw [resumptions_append, hres, List.range_succ, List.map_append]
        rfl
      · simpa [rejections] using hrej
    cases hs with
    | quiet he =>
        obtain ⟨hseg, hres, hrej⟩ := quiet_silent he
        exact h.silent hseg hres hrej
    | taskDone hres hoff => exact h.silent rfl rfl rfl
    | suspend hf =>
        rw [hf] at h
        obtain ⟨hlt, ⟨hseg, hres⟩, hrej⟩ := h
        refine ⟨hlt, ⟨?_, ?_⟩, ?_⟩
        · simpa [segments] using hseg
        · simpa [resumptions] using hres
        · simpa [rejections] using hrej
    | @rethrow t id point hf =>
        obtain ⟨n, rfl, _⟩ := htoken.suspended_of_rejected hr htasks heff
        rw [hf] at h
        obtain ⟨hlt, ⟨hseg, hres⟩, hrej⟩ := h
        refine ⟨n, hlt, ⟨?_, ?_⟩, ?_⟩
        · simpa [segments] using hseg
        · simpa [resumptions] using hres
        · simp [rejections] at hrej ⊢
          exact hrej
    | rejectedLate hf =>
        obtain ⟨_, _, hframe⟩ := htoken.suspended_of_rejected hr htasks heff
        exact (hf hframe).elim
    | resumeTask hctrl hnew =>
        obtain ⟨n, _, hframe⟩ := htoken.live _ (outstanding_of_running hr hctrl hnew)
        exact hresume hframe
    | resumeOwner hpc => exact hresume (hown _ _ rfl)
    | segment hf hn =>
        rw [hf] at h
        obtain ⟨hle, ⟨hseg, hres⟩, hrej⟩ := h
        refine ⟨hn, ⟨?_, ?_⟩, ?_⟩
        · rw [segments_append, hseg, List.range_succ]
          rfl
        · simpa [resumptions] using hres
        · simpa [rejections] using hrej
    | lastSegment hf hn =>
        rw [hf] at h
        exact ⟨_, ended_of_last h hn⟩
    | unhandledException hf =>
        rw [hf] at h
        exact ⟨_, ended_of_rethrowing h⟩
    | readNull hf hext | readPromise hf hext | fulfil hf =>
        rw [hf] at h
        exact Stage.silent (f := .finished) h rfl rfl rfl
    | call hpc =>
        rw [call_frame]
        split
        · exact h.destroy.silent rfl rfl rfl
        · exact h.silent rfl rfl rfl
    | getDone hpc | testDone hpc | attach hpc | leave hpc hoff | getResult hpc
    | getValue hpc hsome => exact h.silent rfl rfl rfl

end Stages

section Ownership

variable [DecidableEq ι] [Fintype ι] {cfg : Config ι V E}
variable {q : State N ι Body × Client N ι V E} {tr : List (Event N ι Body Label)}

/-- The invariant of a coroutine whose owner leaves it to the pool. -/
structure Controlled (cfg : Config ι V E) (k : Client N ι V E)
    (tr : List (Event N ι Body Label)) : Prop where
  tasks : Tasks k tr
  token : Token k tr
  stage : Stage cfg tr k.frame

omit [DecidableEq ι] [Fintype ι] in
theorem controlled_init :
    Controlled cfg Client.init ([] : List (Event N ι Body Label)) where
  tasks := ⟨fun id h => by simp [Client.init] at h, by simp [finishedTasks]⟩
  token :=
    { live := fun x hx => by simpa [calledTasks] using hx.called
      unique := fun x y hx _ => by simpa [calledTasks] using hx.called
      owed := fun n h => by cases h }
  stage := ⟨Nat.zero_le _, ⟨rfl, rfl⟩, rfl⟩

theorem Controlled.step {s s' : State N ι Body} {k k' : Client N ι V E}
    {es : List (Event N ι Body Label)}
    {D : Client N ι V E → List (Event N ι Body Label) → Tid N ι → Label → Prop}
    (hr : (pool N ι Body Label).Reach s tr) (h : Controlled cfg k tr)
    (hj : Joint (Step cfg) D s s' k k' tr es)
    (hown : ∀ t label, es = [.user t label] → Owned k tr t label) :
    Controlled cfg k' (tr ++ es) where
  tasks := h.tasks.step hr hj
  token := h.token.step hr h.tasks hj hown
  stage := h.stage.step hr h.tasks h.token hj hown

/-- No resumption is performed on a coroutine that is not suspended, and none twice. -/
structure ResumedOnce (tr : List (Event N ι Body Label)) : Prop where
  live : ∀ point ∈ resumptions tr, point.isSome = true
  once : (resumptions tr).Nodup

/--
As long as the owner resumes the coroutine only at its initial suspension, and
destroys it only there or at its end, each suspension point is resumed at most
once and only while the coroutine is suspended there.
-/
theorem resumed_once_while_live (hr : (coro N cfg).ReachWhen (UserWhen Owned) q tr) :
    ResumedOnce tr := by
  have hinv := coro_induction (P := fun _ k tr => Controlled cfg k tr) hr controlled_init
    fun hr h hj => h.step hr hj hj.condition
  obtain ⟨m, hm⟩ := hinv.stage.inOrder
  refine ⟨fun point hp => ?_, ?_⟩
  · rw [hm] at hp
    obtain ⟨n, _, rfl⟩ := List.mem_map.mp hp
    rfl
  · rw [hm]
    exact List.nodup_range.map (Option.some_injective _)

end Ownership

section Runs

/-- A coroutine with one `co_await`, owned by the only outside thread. -/
def oneHop : Config Unit Nat String where
  owner := ()
  hops := 1
  result := .ok 42
  rejection := "pool is shut down"
  moved := id

/-- The owner resumes the coroutine, and the worker takes its task. -/
def resumeOnce : List (Act 1 Unit Body Label) :=
  [.user (.inr ()) (.call (.resume 0)), .user (.inr ()) .test,
    .user (.inr ()) (.resume none (some 0)), .user (.inr ()) (.segment 0),
    .submit (.inr ()) (.resume 1), .advance (.inr ()), .notify (.inr ()) none,
    .user (.inr ()) .leave, .test solo, .advance (.inl solo), .start solo]

/-- The worker ends the coroutine, and the owner destroys it. -/
theorem resumed_once_while_live_destroyed :
    ∃ (q : State 1 Unit Body × Client 1 Unit Nat String) (tr : _),
      (coro 1 oneHop).ReachWhen (UserWhen Owned) q tr ∧
        resumptions tr = [some 0, some 1] ∧ q.2.frame = .destroyed ∧ ResumedOnce tr := by
  obtain ⟨q, tr, hr, h⟩ := Machine.exists_reachWhen_of_exec (M := coro 1 oneHop)
    (C := UserWhen Owned)
    (resumeOnce ++ [.user (.inl 0) (.resume (some 0) (some 1)), .user (.inl 0) (.segment 1),
      .user (.inl 0) .readPromise, .finish 0, .user (.inr ()) (.call (.destroy 0))])
    (p := fun r => decide (resumptions r.2 = [some 0, some 1] ∧ r.1.2.frame = .destroyed))
    (by decide)
  obtain ⟨hres, hframe⟩ := of_decide_eq_true h
  exact ⟨q, tr, hr, hres, hframe, resumed_once_while_live hr⟩

/-- The owner resumes the coroutine while its task is queued; the task resumes it at its end. -/
theorem owner_resumes_queued :
    ¬ ∀ (q : State 1 Unit Body × Client 1 Unit Nat String) (tr : _),
      (coro 1 oneHop).Reach q tr → ResumedOnce tr := by
  intro h
  obtain ⟨q, tr, hr, hp⟩ := Machine.exists_reach_of_exec (M := coro 1 oneHop)
    (resumeOnce ++ [.user (.inr ()) (.call (.resume 0)), .user (.inr ()) .test,
      .user (.inr ()) (.resume none (some 1)), .user (.inr ()) (.segment 1),
      .user (.inr ()) .readPromise, .user (.inr ()) .leave,
      .user (.inl 0) (.resume (some 0) none)])
    (p := fun r => decide (none ∈ resumptions r.2)) (by decide)
  exact absurd ((h q tr hr).live none (of_decide_eq_true hp)) (by simp)

end Runs

end CoroTask
end ThreadPool
end AsyncTaskEngine
