import AsyncTaskEngine.AsyncResultComposition
import AsyncTaskEngine.Pipeline

/-!
# A pipeline and a chain of continuations agree

`Pipeline::create(pool, x).then(f1)...then(fn).run()` is one task, in which each
stage is a closure around the stages before it.  The chain
`submit_async([]{return x;}).then(f1)...then(fn)` is `n + 1` tasks of the pool.
Both invoke the same stages with the same arguments, up to the first that throws,
and their futures become ready with the same value or exception, under every
schedule of the pool.
-/

namespace AsyncTaskEngine

/-- The stage as a continuation of an `AsyncResult`. -/
def Func.stage {V E} (f : Func V E) : ThreadPool.AsyncResult.Stage V E :=
  .value f.invoke

namespace ThreadPool
namespace AsyncResult

universe u v w

variable {N K : Nat} {ι : Type u} {V : Type v} {E : Type w}

/-- The stages that are invoked, with their arguments. -/
def callsOf : Except E V → List (Stage V E) → List (Stage V E × V)
  | _, [] => []
  | .error _, _ :: _ => []
  | .ok v, stage :: stages => (stage, v) :: callsOf (stage.invoke v) stages

/-- The stage that the lambda of `then` invokes, with its argument. -/
def Client.call? (k : Client V E) (y : Task (Body V E)) : Option (Stage V E × V) :=
  match y.body with
  | .after pred stage =>
      match k.outcome pred with
      | some (.ok v) => some (stage, v)
      | _ => none
  | _ => none

/-- The stages of the given tasks in the order of their invocations, with their arguments. -/
def stageCalls (k : Client V E) (ys : List (Task (Body V E)))
    (tr : List (Event N ι (Body V E) Label)) : List (Stage V E × V) :=
  (invocations tr).filterMap fun id => (ys.find? fun y => decide (y.id = id)).bind k.call?

theorem callsOf_error (e : E) (stages : List (Stage V E)) :
    callsOf (.error e) stages = [] := by
  cases stages <;> rfl

theorem length_callsOf (r : Except E V) (stages : List (Stage V E)) :
    (callsOf r stages).length + 1 = stagesRun r stages := by
  induction stages generalizing r with
  | nil => cases r <;> rfl
  | cons stage stages ih =>
      cases r with
      | error e => rfl
      | ok v =>
          rw [callsOf, stagesRun, List.length_cons, ih]
          omega

section Pipeline

variable {moved : V → V} {x : V} {path : List (Func V E)}

/-- What `run` submits at the end of a pipeline used in fluent style. -/
def fluentBody (moved : V → V) (x : V) (path : List (Func V E)) : Body V E :=
  .call ((Pipeline.fluent moved x path).run moved).1.1

/-- The stages that this task invokes whenever it is executed, with their arguments. -/
def fluentCalls (moved : V → V) (x : V) (path : List (Func V E)) : List (Stage V E × V) :=
  ((Pipeline.fluent moved x path).run moved).1.2.map fun c => (c.1.stage, c.2)

theorem composition_stage (v : V) (path : List (Func V E)) :
    composition (.ok v) (path.map Func.stage) = Pipeline.composition v path := by
  rw [composition, Pipeline.composition, List.foldl_map]
  rfl

theorem foldl_invoke (r : Except E V) (calls : List (Func V E × V)) (path : List (Func V E)) :
    (path.foldl Computation.invoke (r, calls)).2.map (fun c => (c.1.stage, c.2)) =
      calls.map (fun c => (c.1.stage, c.2)) ++ callsOf r (path.map Func.stage) := by
  induction path generalizing r calls with
  | nil => simp [callsOf]
  | cons f path ih =>
      cases r with
      | error e =>
          rw [List.foldl_cons]
          exact (ih (.error e) calls).trans (by rw [callsOf_error, List.map_cons, callsOf_error])
      | ok v =>
          rw [List.foldl_cons]
          refine (ih (f.invoke v) (calls ++ [(f, v)])).trans ?_
          rw [List.map_append, List.append_assoc]
          rfl

theorem fluentBody_eq :
    fluentBody moved x path = .call (composition (.ok x) (path.map Func.stage)) := by
  rw [fluentBody, Pipeline.run_fluent, Pipeline.evaluate_fst, composition_stage]

theorem fluentCalls_eq : fluentCalls moved x path = callsOf (.ok x) (path.map Func.stage) := by
  rw [fluentCalls, Pipeline.run_fluent, evaluate, foldl_invoke]
  rfl

end Pipeline

section Calls

variable {k : Client V E} {tr : List (Event N ι (Body V E) Label)}
variable {x : Task (Body V E)} {ys : List (Task (Body V E))} {stages : List (Stage V E)}

/-- The stages entered so far have the arguments of the composition. -/
theorem calls_take (inv : Outcomes k tr) (hfol : Follows x stages ys)
    (hfin : ∀ y ∈ ys, (k.outcome y.id).isSome = true → y ∈ finishedTasks tr)
    (hready : ∀ y ∈ ys, k.invoked y.id = true → k.ready y.body = true)
    {r₀ : Except E V} (hfirst : ∀ r, k.outcome x.id = some r → r = r₀) {n : Nat}
    (hn : ∀ j (h : j < ys.length), j < n → k.invoked ys[j].id = true) :
    (ys.take n).filterMap k.call? = (callsOf r₀ stages).take n := by
  induction stages generalizing x ys r₀ n with
  | nil =>
      cases ys with
      | nil => cases r₀ <;> simp [callsOf]
      | cons y ys => cases hfol
  | cons stage stages ih =>
      cases ys with
      | nil => cases hfol
      | cons y ys =>
          obtain ⟨hbody, hfol⟩ := hfol
          cases n with
          | zero => simp
          | succ n =>
              have hr := hready y List.mem_cons_self (hn 0 (Nat.succ_pos _) (Nat.succ_pos _))
              rw [hbody, Client.ready] at hr
              split at hr
              · next v hv =>
                  obtain rfl := hfirst _ hv
                  have hcall : k.call? y = some (stage, v) := by
                    rw [Client.call?, hbody]
                    simp only [hv]
                  rw [List.take_succ_cons, List.filterMap_cons_some hcall, callsOf,
                    List.take_succ_cons]
                  congr 1
                  refine ih hfol (fun z hz => hfin z (List.mem_cons_of_mem _ hz))
                    (fun z hz => hready z (List.mem_cons_of_mem _ hz)) (fun r hy => ?_)
                    fun j hj hlt => hn (j + 1) (Nat.succ_lt_succ hj) (Nat.succ_lt_succ hlt)
                  have hout := (inv.finished y (hfin y List.mem_cons_self (by rw [hy]; rfl))).1
                  rw [hy, hbody] at hout
                  obtain ⟨r₁, hx, hr₁⟩ := Option.map_eq_some_iff.mp hout.symm
                  obtain rfl := Option.some.inj (hv.symm.trans hx)
                  exact hr₁.symm
              · cases hr

omit k tr x stages in
/-- A task is found by its number. -/
theorem find?_id (hnodup : (ys.map Task.id).Nodup) {y : Task (Body V E)} (hy : y ∈ ys) :
    (ys.find? fun z => decide (z.id = y.id)) = some y := by
  induction ys with
  | nil => cases hy
  | cons z ys ih =>
      rw [List.map_cons, List.nodup_cons] at hnodup
      rcases List.mem_cons.mp hy with rfl | hy
      · simp
      · have hne : z.id ≠ y.id := fun heq => hnodup.1 (heq ▸ List.mem_map_of_mem hy)
        rw [List.find?_cons_of_neg (by simpa using hne)]
        exact ih hnodup.2 hy

/-- Only the invocations of the given tasks count. -/
theorem stageCalls_eq (hnodup : (x.id :: ys.map Task.id).Nodup) {m : Nat}
    (hrec : recorded (x.id :: ys.map Task.id) (invocations tr) =
      (x.id :: ys.map Task.id).take m) :
    stageCalls k ys tr = (ys.take (m - 1)).filterMap k.call? := by
  have hnone : ∀ id, id ∉ ys.map Task.id →
      ((ys.find? fun y => decide (y.id = id)).bind k.call?) = none := by
    intro id hid
    rw [List.find?_eq_none.mpr, Option.bind_none]
    intro y hy heq
    exact hid (of_decide_eq_true heq ▸ List.mem_map_of_mem hy)
  have hfilter : stageCalls k ys tr =
      (recorded (x.id :: ys.map Task.id) (invocations tr)).filterMap fun id =>
        (ys.find? fun y => decide (y.id = id)).bind k.call? := by
    rw [stageCalls, recorded, List.filterMap_filter]
    refine List.filterMap_congr fun id _ => ?_
    by_cases hid : id ∈ x.id :: ys.map Task.id
    · simp [hid]
    · rw [hnone id fun h => hid (List.mem_cons_of_mem _ h)]
      simp
  rw [hfilter, hrec]
  cases m with
  | zero => simp
  | succ m =>
      rw [List.take_succ_cons, List.filterMap_cons]
      simp only [hnone _ (List.nodup_cons.mp hnodup).1]
      rw [← List.map_take, List.filterMap_map, Nat.add_sub_cancel]
      refine List.filterMap_congr fun y hy => ?_
      show (ys.find? fun z => decide (z.id = y.id)).bind k.call? = k.call? y
      rw [find?_id (List.nodup_cons.mp hnodup).2 (List.mem_of_mem_take hy), Option.bind_some]

end Calls

section Agreement

variable [DecidableEq ι] [Fintype ι] {q : State N ι (Body V E) × Client V E}
variable {tr : List (Event N ι (Body V E) Label)}

/-- The stages invoked by a chain are those of its composition, as far as it has come. -/
theorem Chain.stageCalls_eq {func : Except E V} {stages : List (Stage V E)}
    (c : Chain func stages tr) (hr : (chains N ι V E K).Reach q tr) {m : Nat}
    (hm : recorded c.ids (invocations tr) = c.ids.take m) :
    stageCalls q.2 c.rest tr = (callsOf func stages).take (m - 1) := by
  have hnodup : (c.first.id :: c.rest.map Task.id).Nodup := c.ids_nodup hr
  rw [AsyncResult.stageCalls_eq hnodup hm]
  have hout := outcomes_reach hr
  refine calls_take hout c.follows
    (fun y hy => finished_of_outcome hr (c.accepted y (List.mem_cons_of_mem _ hy)))
    (fun y hy => ready_of_invoked hr (c.accepted y (List.mem_cons_of_mem _ hy)))
    (fun r hr' => ?_) fun j hj hlt => ?_
  · have hfin := finished_of_outcome hr (c.accepted c.first List.mem_cons_self)
      (by rw [hr']; rfl)
    have hres := (hout.finished _ hfin).1
    rw [hr', c.starts] at hres
    exact Option.some.inj hres
  · refine (hout.logged _).mp ?_
    have hlen : j + 1 < c.ids.length := by simpa [Chain.ids] using hj
    have hmem : c.ids[j + 1] ∈ invocations tr :=
      (getElem_mem_iff_of_recorded hnodup hm _).mpr (by omega)
    simpa [Chain.ids] using hmem

/-- The single task of a pipeline, as a chain without continuations. -/
def singleTask {func : Except E V} {p : Task (Body V E)} (hp : p ∈ acceptedTasks tr)
    (hbody : p.body = .call func) : Chain func [] tr where
  first := p
  rest := []
  starts := hbody
  follows := trivial
  accepted _ hy := List.mem_singleton.mp hy ▸ hp

/-- A pipeline and a chain of the same stages in one run of the pool. -/
structure Agreement (K : Nat) (moved : V → V) (x : V) (path : List (Func V E))
    (p : Task (Body V E)) (c : Chain (.ok x) (path.map Func.stage) tr)
    (q : State N ι (Body V E) × Client V E) : Prop where
  /-- The closure of the pipeline is entered at most once. -/
  once : (invocations tr).count p.id ≤ 1
  /-- At every moment the chain has invoked a prefix of the stages of the pipeline. -/
  calls : stageCalls q.2 c.rest tr <+: fluentCalls moved x path
  /-- With its result, it has invoked the same stages with the same arguments. -/
  allCalls : (q.2.outcome c.last).isSome = true →
    stageCalls q.2 c.rest tr = fluentCalls moved x path
  /-- The futures hold the same value or exception. -/
  outcome : ∀ r r', q.2.outcome p.id = some r → q.2.outcome c.last = some r' → r = r'
  /-- `get()` on either returns the composition of the stages, or throws its exception. -/
  get : ∀ pre t post id, tr = pre ++ .user t (.get id) :: post → id = p.id ∨ id = c.last →
    (pre.foldl observe Client.init).outcome id = some (Pipeline.composition x path)
  /-- Both become ready, with the same outcome. -/
  progress : (∀ a, internal a = true → (chains N ι V E K).step q a = none) →
    q.2.outcome p.id = some (Pipeline.composition x path) ∧
      q.2.outcome c.last = some (Pipeline.composition x path)

/-- A pipeline used once in fluent style and the chain of its stages agree. -/
theorem pipeline_agrees (hK : K < N) (hr : (chains N ι V E K).Reach q tr) (moved : V → V)
    (x : V) (path : List (Func V E)) (c : Chain (.ok x) (path.map Func.stage) tr)
    {p : Task (Body V E)} (hp : p ∈ acceptedTasks tr) (hbody : p.body = fluentBody moved x path) :
    Agreement K moved x path p c q := by
  rw [fluentBody_eq] at hbody
  let single : Chain (composition (.ok x) (path.map Func.stage)) [] tr := singleTask hp hbody
  have hresult : ∀ {r}, q.2.outcome p.id = some r → r = Pipeline.composition x path := by
    intro r hr'
    rw [(single.result_of_last hr hr').1, ← composition_stage]
    rfl
  have hlast : ∀ {r}, q.2.outcome c.last = some r → r = Pipeline.composition x path := by
    intro r hr'
    rw [(c.result_of_last hr hr').1, composition_stage]
  refine ⟨?_, ?_, fun hsome => ?_, fun r r' hr₁ hr₂ => ?_, ?_, fun hstuck => ⟨?_, ?_⟩⟩
  · exact List.nodup_iff_count_le_one.mp (outcomes_reach hr).once p.id
  · obtain ⟨m, hm⟩ := exists_recorded_eq_take (c.ids_nodup hr) (outcomes_reach hr).once
      (c.inOrder hr)
    rw [c.stageCalls_eq hr hm, fluentCalls_eq]
    exact List.take_prefix _ _
  · obtain ⟨r, hr'⟩ := Option.isSome_iff_exists.mp hsome
    rw [c.stageCalls_eq hr (c.result_of_last hr hr').2, fluentCalls_eq, ← length_callsOf,
      Nat.add_sub_cancel, List.take_length]
  · rw [hresult hr₁, hlast hr₂]
  · rintro pre t post id htr hid
    obtain ⟨r, hpre, hout⟩ := outcome_of_get hr htr
    rw [hpre]
    rcases hid with rfl | rfl
    · rw [hresult hout]
    · rw [hlast hout]
  · obtain ⟨r, hr'⟩ := Option.isSome_iff_exists.mp (single.last_isSome hK hr hstuck)
    exact hr'.trans (congrArg some (hresult hr'))
  · obtain ⟨r, hr'⟩ := Option.isSome_iff_exists.mp (c.last_isSome hK hr hstuck)
    rw [hr', hlast hr']

end Agreement

section Run

/-- Two stages, of which the second one throws. -/
def twoStages : List (Func Nat String) :=
  [⟨fun x => .ok (2 * x), 0⟩, ⟨fun x => if x = 10 then .error "boom" else .ok x, 0⟩]

/-- One outside thread runs the pipeline and builds the chain, for one worker. -/
def twoStagesRun : List (Act 1 Unit (Body Nat String) Label) :=
  [.submit (.inr ()) (fluentBody id 5 twoStages), .advance (.inr ()), .notify (.inr ()) none,
    .submit (.inr ()) (.call (.ok 5)), .advance (.inr ()), .notify (.inr ()) none,
    .submit (.inr ()) (.after 1 (twoStages[0]).stage), .advance (.inr ()),
    .notify (.inr ()) none,
    .submit (.inr ()) (.after 2 (twoStages[1]).stage), .advance (.inr ()),
    .notify (.inr ()) none,
    .test solo, .advance (.inl solo), .start solo, .user (.inl solo) (.invoke 0), .finish solo,
    .test solo, .advance (.inl solo), .start solo, .user (.inl solo) (.invoke 1), .finish solo,
    .test solo, .advance (.inl solo), .start solo, .user (.inl solo) (.invoke 2), .finish solo,
    .test solo, .advance (.inl solo), .start solo, .user (.inl solo) (.invoke 3), .finish solo]

/-- Both throw the exception of the second stage. -/
theorem pipeline_agrees_throwing :
    ∃ (q : State 1 Unit (Body Nat String) × Client Nat String) (tr : _)
      (p : Task (Body Nat String)) (c : Chain (.ok 5) (twoStages.map Func.stage) tr),
      (chains 1 Unit Nat String 0).Reach q tr ∧ Agreement 0 id 5 twoStages p c q ∧
        q.2.outcome p.id = some (.error "boom") ∧ q.2.outcome c.last = some (.error "boom") := by
  obtain ⟨q, tr, hr, hacc, hp, hlast⟩ : ∃ q tr, (chains 1 Unit Nat String 0).Reach q tr ∧
      acceptedTasks tr = [⟨0, fluentBody id 5 twoStages⟩, ⟨1, .call (.ok 5)⟩,
        ⟨2, .after 1 (twoStages[0]).stage⟩, ⟨3, .after 2 (twoStages[1]).stage⟩] ∧
      q.2.outcome 0 = some (.error "boom") ∧ q.2.outcome 3 = some (.error "boom") := by
    have hexec : ∃ r, (chains 1 Unit Nat String 0).exec (chains 1 Unit Nat String 0).init
        twoStagesRun = some r ∧ acceptedTasks r.2 = _ ∧ r.1.2.outcome 0 = _ ∧
          r.1.2.outcome 3 = _ := ⟨_, rfl, rfl, rfl, rfl⟩
    obtain ⟨r, hr, hacc, hp, hlast⟩ := hexec
    exact ⟨r.1, r.2, by simpa using Machine.Reach.init.exec hr, hacc, hp, hlast⟩
  let c : Chain (.ok 5) (twoStages.map Func.stage) tr :=
    { first := ⟨1, .call (.ok 5)⟩
      rest := [⟨2, .after 1 (twoStages[0]).stage⟩, ⟨3, .after 2 (twoStages[1]).stage⟩]
      starts := rfl
      follows := ⟨rfl, rfl, trivial⟩
      accepted := by rw [hacc]; exact fun y hy => List.mem_cons_of_mem _ hy }
  refine ⟨q, tr, ⟨0, fluentBody id 5 twoStages⟩, c, hr, ?_, hp, hlast⟩
  exact pipeline_agrees (by decide) hr id 5 twoStages c (by rw [hacc]; simp) rfl

end Run

end AsyncResult
end ThreadPool
end AsyncTaskEngine
