import AsyncTaskEngine.AsyncResultProgress
import AsyncTaskEngine.StageLog

/-!
# A chain computes the composition of its stages

`submit_async(f0).then(f1)...then(fn)` is a sequence of tasks, each one a
continuation of the one before.  Whatever the schedule, the promise of the last
task receives the composition of the stages, in which an exception skips all later
stages; and the callables that run are those up to the first that throws, once each
and in order.
-/

namespace AsyncTaskEngine
namespace ThreadPool
namespace AsyncResult

universe u v w

variable {N K : Nat} {ι : Type u} {V : Type v} {E : Type w}

/-- The exception-aware composition. -/
def composition (func : Except E V) (stages : List (Stage V E)) : Except E V :=
  stages.foldl (fun r stage => r.bind stage.invoke) func

/-- How many callables run: those up to the first that throws. -/
def stagesRun : Except E V → List (Stage V E) → Nat
  | _, [] => 1
  | .error _, _ :: _ => 1
  | .ok v, stage :: stages => 1 + stagesRun (stage.invoke v) stages

/-- The tasks continue the given task, with the given stages. -/
def Follows : Task (Body V E) → List (Stage V E) → List (Task (Body V E)) → Prop
  | _, [], [] => True
  | x, stage :: stages, y :: ys => y.body = .after x.id stage ∧ Follows y stages ys
  | _, _, _ => False

/-- The tasks of a chain, from the call of `submit_async` to the last `then`. -/
structure Chain (func : Except E V) (stages : List (Stage V E))
    (tr : List (Event N ι (Body V E) Label)) where
  first : Task (Body V E)
  rest : List (Task (Body V E))
  starts : first.body = .call func
  follows : Follows first stages rest
  accepted : ∀ y ∈ first :: rest, y ∈ acceptedTasks tr

variable {func : Except E V} {stages : List (Stage V E)}
variable {tr : List (Event N ι (Body V E) Label)}

/-- The numbers of the tasks of a chain. -/
def Chain.ids (c : Chain func stages tr) : List Nat :=
  (c.first :: c.rest).map Task.id

/-- The number of the last task. -/
def Chain.last (c : Chain func stages tr) : Nat :=
  c.ids.getLast (by simp [Chain.ids])

section Composition

variable {k : Client V E} {x : Task (Body V E)} {ys : List (Task (Body V E))}

theorem stagesRun_pos (r : Except E V) (stages : List (Stage V E)) :
    0 < stagesRun r stages := by
  cases stages with
  | nil => exact Nat.one_pos
  | cons stage stages =>
      cases r with
      | error e => exact Nat.one_pos
      | ok v => exact Nat.lt_of_lt_of_le Nat.one_pos (Nat.le_add_right _ _)

/-- When the last task has a result, so has the first, and the results compose. -/
theorem outcome_compose (inv : Outcomes k tr) (hfol : Follows x stages ys)
    (hfin : ∀ y ∈ ys, (k.outcome y.id).isSome = true → y ∈ finishedTasks tr)
    {r : Except E V}
    (hlast : k.outcome (((x :: ys).map Task.id).getLast (by simp)) = some r) :
    ∃ r₀, k.outcome x.id = some r₀ ∧ r = composition r₀ stages ∧
      ∀ j (h : j < ys.length), j + 1 < stagesRun r₀ stages → k.invoked ys[j].id = true := by
  induction stages generalizing x ys with
  | nil =>
      cases ys with
      | nil => exact ⟨r, hlast, rfl, by simp⟩
      | cons y ys => cases hfol
  | cons stage stages ih =>
      cases ys with
      | nil => cases hfol
      | cons y ys =>
          obtain ⟨hbody, hfol⟩ := hfol
          obtain ⟨r₁, hy, hr, hrun⟩ := ih hfol
            (fun z hz => hfin z (List.mem_cons_of_mem _ hz)) (by simpa using hlast)
          have hyfin := hfin y (List.mem_cons_self) (by rw [hy]; rfl)
          obtain ⟨hout, hmay⟩ := inv.finished y hyfin
          rw [hy, hbody] at hout
          obtain ⟨r₀, hx, hr₁⟩ := Option.map_eq_some_iff.mp hout.symm
          refine ⟨r₀, hx, ?_, ?_⟩
          · rw [hr, ← hr₁]
            rfl
          · intro j hj hlt
            cases r₀ with
            | error e => simp [stagesRun] at hlt
            | ok v =>
                have hr₁' : stage.invoke v = r₁ := hr₁
                rw [stagesRun, hr₁'] at hlt
                cases j with
                | zero =>
                    simp only [Client.mayFinish, hbody, hx] at hmay
                    exact hmay
                | succ j => exact hrun j (by simpa using hj) (by omega)

/-- A stage that runs comes before the first one that is skipped. -/
theorem invoked_lt_stagesRun (inv : Outcomes k tr) (hfol : Follows x stages ys)
    (hfin : ∀ y ∈ x :: ys, (k.outcome y.id).isSome = true → y ∈ finishedTasks tr)
    (hready : ∀ y ∈ ys, k.invoked y.id = true → k.ready y.body = true)
    {j : Nat} (hj : j < ys.length) (hinv : k.invoked ys[j].id = true) :
    ∃ v, k.outcome x.id = some (.ok v) ∧ j + 1 < stagesRun (.ok v) stages := by
  induction stages generalizing x ys j with
  | nil =>
      cases ys with
      | nil => simp at hj
      | cons y ys => cases hfol
  | cons stage stages ih =>
      cases ys with
      | nil => cases hfol
      | cons y ys =>
          obtain ⟨hbody, hfol⟩ := hfol
          cases j with
          | zero =>
              have hr := hready y (List.mem_cons_self) hinv
              rw [hbody, Client.ready] at hr
              split at hr
              · next v hv =>
                  refine ⟨v, hv, ?_⟩
                  have := stagesRun_pos (stage.invoke v) stages
                  rw [stagesRun]
                  omega
              · cases hr
          | succ j =>
              obtain ⟨v₁, hy, hlt⟩ := ih hfol
                (fun z hz => hfin z (List.mem_cons_of_mem _ hz))
                (fun z hz => hready z (List.mem_cons_of_mem _ hz))
                (by simpa using hj) hinv
              have hyfin := hfin y (by simp) (by rw [hy]; rfl)
              have hout := (inv.finished y hyfin).1
              rw [hy, hbody] at hout
              obtain ⟨r₀, hx, hr₁⟩ := Option.map_eq_some_iff.mp hout.symm
              cases r₀ with
              | error e => cases hr₁
              | ok v =>
                  have hr₁' : stage.invoke v = .ok v₁ := hr₁
                  refine ⟨v, hx, ?_⟩
                  rw [stagesRun, hr₁']
                  omega

/-- Each task of a chain continues the one before. -/
theorem follows_getElem (hfol : Follows x stages ys) {j : Nat} (hj : j < ys.length) :
    ∃ stage, ys[j].body = .after ((x :: ys).get ⟨j, Nat.lt_succ_of_lt hj⟩).id stage := by
  induction stages generalizing x ys j with
  | nil =>
      cases ys with
      | nil => simp at hj
      | cons y ys => cases hfol
  | cons stage stages ih =>
      cases ys with
      | nil => cases hfol
      | cons y ys =>
          obtain ⟨hbody, hfol⟩ := hfol
          cases j with
          | zero => exact ⟨stage, hbody⟩
          | succ j => exact ih hfol (by simpa using hj)

/-- The numbers increase along a chain. -/
theorem follows_increasing (hfol : Follows x stages ys)
    (hnum : ∀ y ∈ ys, ∀ pred stage, y.body = .after pred stage → pred < y.id) :
    ((x :: ys).map Task.id).IsChain (· < ·) := by
  induction stages generalizing x ys with
  | nil =>
      cases ys with
      | nil => simp
      | cons y ys => cases hfol
  | cons stage stages ih =>
      cases ys with
      | nil => cases hfol
      | cons y ys =>
          obtain ⟨hbody, hfol⟩ := hfol
          simp only [List.map_cons, List.isChain_cons_cons]
          exact ⟨hnum y List.mem_cons_self _ _ hbody,
            ih hfol fun z hz => hnum z (List.mem_cons_of_mem _ hz)⟩

end Composition

section Chains

variable [DecidableEq ι] [Fintype ι] {q : State N ι (Body V E) × Client V E}

/-- A task that has a result is finished. -/
theorem finished_of_outcome (hr : (chains N ι V E K).Reach q tr) {y : Task (Body V E)}
    (hy : y ∈ acceptedTasks tr) (hout : (q.2.outcome y.id).isSome = true) :
    y ∈ finishedTasks tr := by
  have hpool := hr.of_guard
  obtain ⟨z, hz, hid⟩ := List.countP_pos_iff.mp ((outcomes_reach hr).settled y.id hout)
  have hacc := (started_subperm_accepted hpool).subset
    ((finished_subperm_started hpool).subset hz)
  rwa [← task_unique hpool (called_of_accepted hpool hacc) (called_of_accepted hpool hy)
    (of_decide_eq_true hid)]

/-- A task whose callable was entered had a value from its predecessor. -/
theorem ready_of_invoked (hr : (chains N ι V E K).Reach q tr) {y : Task (Body V E)}
    (hy : y ∈ acceptedTasks tr) (hinv : q.2.invoked y.id = true) :
    q.2.ready y.body = true := by
  have hpool := hr.of_guard
  obtain ⟨z, hz, hid, hready⟩ := (outcomes_reach hr).invoked y.id hinv
  have hacc := (started_subperm_accepted hpool).subset hz
  rwa [← task_unique hpool (called_of_accepted hpool hacc) (called_of_accepted hpool hy) hid]

theorem Chain.ids_nodup (c : Chain func stages tr) (hr : (chains N ι V E K).Reach q tr) :
    c.ids.Nodup := by
  have hchain := follows_increasing c.follows fun y hy =>
    (linked_reach hr).numbered y
      (called_of_accepted hr.of_guard (c.accepted y (List.mem_cons_of_mem _ hy)))
  exact (List.isChain_iff_pairwise.mp hchain).imp fun h => Nat.ne_of_lt h

/-- A stage is entered only after the stage before it. -/
theorem Chain.inOrder (c : Chain func stages tr) (hr : (chains N ι V E K).Reach q tr) :
    StagesInOrder c.ids (invocations tr) := by
  intro j hj pre post hlog
  have hpool := hr.of_guard
  have hlen : j < c.rest.length := by simpa [Chain.ids] using hj
  obtain ⟨y, hy, hid, hpred⟩ := (outcomes_reach hr).ordered pre _ post hlog
  have hacc := (started_subperm_accepted hpool).subset hy
  have hmem := c.accepted c.rest[j] (List.mem_cons_of_mem _ (List.getElem_mem hlen))
  have hid : y.id = c.rest[j].id := by simpa [Chain.ids] using hid
  obtain rfl := task_unique hpool (called_of_accepted hpool hacc)
    (called_of_accepted hpool hmem) hid
  obtain ⟨stage, hbody⟩ := follows_getElem c.follows hlen
  show ((c.first :: c.rest).map Task.id).get ⟨j, by simp; omega⟩ ∈ pre
  rw [List.get_eq_getElem, List.getElem_map]
  exact hpred _ stage hbody

/-- The stages that run are among the first `stagesRun`. -/
theorem Chain.lt_of_mem (c : Chain func stages tr) (hr : (chains N ι V E K).Reach q tr)
    {j : Nat} (hj : j < c.ids.length) (hmem : c.ids[j] ∈ invocations tr) :
    j < stagesRun func stages := by
  have hout := outcomes_reach hr
  cases j with
  | zero => exact stagesRun_pos func stages
  | succ j =>
      have hlen : j < c.rest.length := by simpa [Chain.ids] using hj
      have hinv : q.2.invoked c.rest[j].id = true :=
        (hout.logged _).mp (by simpa [Chain.ids] using hmem)
      obtain ⟨v, hv, hlt⟩ := invoked_lt_stagesRun hout c.follows
        (fun y hy => finished_of_outcome hr (c.accepted y hy))
        (fun y hy => ready_of_invoked hr (c.accepted y (List.mem_cons_of_mem _ hy)))
        hlen hinv
      have hfin := finished_of_outcome hr (c.accepted c.first List.mem_cons_self)
        (by rw [hv]; rfl)
      have hres := (hout.finished _ hfin).1
      rw [hv, c.starts] at hres
      rwa [Option.some.inj hres] at hlt

/-- What is known once the last promise is set. -/
theorem Chain.result_of_last (c : Chain func stages tr)
    (hr : (chains N ι V E K).Reach q tr) {r : Except E V}
    (hlast : q.2.outcome c.last = some r) :
    r = composition func stages ∧
      recorded c.ids (invocations tr) = c.ids.take (stagesRun func stages) := by
  have hout := outcomes_reach hr
  obtain ⟨r₀, hfirst, hcomp, hrun⟩ := outcome_compose hout c.follows
    (fun y hy => finished_of_outcome hr (c.accepted y (List.mem_cons_of_mem _ hy))) hlast
  have hfin := finished_of_outcome hr (c.accepted c.first List.mem_cons_self)
    (by rw [hfirst]; rfl)
  obtain ⟨hres, hmay⟩ := hout.finished _ hfin
  rw [hfirst, c.starts] at hres
  obtain rfl := Option.some.inj hres
  refine ⟨hcomp, recorded_eq_take (c.ids_nodup hr) hout.once (c.inOrder hr) ?_⟩
  intro j hj
  refine ⟨c.lt_of_mem hr hj, fun hlt => (hout.logged _).mpr ?_⟩
  cases j with
  | zero =>
      simp only [Client.mayFinish, c.starts] at hmay
      exact hmay
  | succ j =>
      have hlen : j < c.rest.length := by simpa [Chain.ids] using hj
      simpa [Chain.ids] using hrun j hlen hlt

/-- The last promise of a chain is set when no step is possible without the user. -/
theorem Chain.last_isSome (c : Chain func stages tr) (hK : K < N)
    (hr : (chains N ι V E K).Reach q tr)
    (hstuck : ∀ a, internal a = true → (chains N ι V E K).step q a = none) :
    (q.2.outcome c.last).isSome = true := by
  have hall : ∀ y ∈ c.first :: c.rest, (q.2.outcome y.id).isSome = true := by
    intro y hy
    have hord : y.body.ordinary = true := by
      rcases List.mem_cons.mp hy with rfl | hy
      · rw [c.starts]
        rfl
      · obtain ⟨j, hj, rfl⟩ := List.getElem_of_mem hy
        obtain ⟨stage, hbody⟩ := follows_getElem c.follows hj
        rw [hbody]
        rfl
    by_contra hnone
    refine not_canMove hr hstuck (canMove hK hr ⟨y, c.accepted y hy, hord, fun hfin => ?_⟩)
    obtain ⟨hres, hmay⟩ := (outcomes_reach hr).finished y hfin
    obtain ⟨r, hr'⟩ := Client.result_isSome hmay
    rw [hres, hr'] at hnone
    exact hnone rfl
  have hmem : c.last ∈ c.ids := List.getLast_mem _
  obtain ⟨y, hy, hid⟩ := List.mem_map.mp hmem
  rw [← hid]
  exact hall y hy

end Chains

section Run

end Run

end AsyncResult
end ThreadPool
end AsyncTaskEngine
