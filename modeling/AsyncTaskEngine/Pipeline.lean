import AsyncTaskEngine.Machine
import Mathlib.Data.List.Induction
import Mathlib.Logic.Function.Iterate

/-!
# Pipeline: stages nested in one closure

A model of `pipeline.hpp`.  `then` moves the chain and the initial value of a
pipeline into the captures of a lambda, which becomes the chain of the next
pipeline; `run` moves the chain, or without a chain the initial value, into the
task that it submits.  The pipeline itself stays callable.  Its chain is empty
then, and what its initial value is after the move is up to the type: `moved v`
is what a moved-from `v` holds.

`objects` is a program that calls `then` and `run` on pipelines in any order.
It remembers for each pipeline the initial value and the stages on its path, and
whether anything on that path has been moved away.
-/

namespace AsyncTaskEngine

universe u v

/-- A stage, with the value of a value-initialised member of its result type. -/
structure Func (V : Type u) (E : Type v) where
  invoke : V → Except E V
  zero : V

/-- `std::move_only_function<T()>`: empty, or the lambda of `then` with its captures. -/
inductive ChainFn (V : Type u) (E : Type v) where
  | empty
  | lambda (prevChain : ChainFn V E) (prevInitial : V) (f : Func V E)

/-- The members of a pipeline, without the reference to the pool. -/
structure Pipeline (V : Type u) (E : Type v) where
  initial : V
  chain : ChainFn V E

/-- What a task computes, with the stages that it invokes and their arguments. -/
abbrev Computation (V : Type u) (E : Type v) := Except E V × List (Func V E × V)

variable {V : Type u} {E : Type v}

/-- Invoke one more stage, unless an exception has been thrown. -/
def Computation.invoke (c : Computation V E) (f : Func V E) : Computation V E :=
  match c with
  | (.ok intermediate, calls) => (f.invoke intermediate, calls ++ [(f, intermediate)])
  | (.error e, calls) => (.error e, calls)

/-- All stages, one after the other. -/
def evaluate (v : V) (path : List (Func V E)) : Computation V E :=
  path.foldl Computation.invoke (.ok v, [])

/-- Call a chain; an empty one cannot be called. -/
def ChainFn.call : ChainFn V E → Option (Computation V E)
  | .empty => none
  | .lambda prevChain prevInitial f =>
      -- `if (prev_chain) intermediate = prev_chain(); else ...`
      match prevChain.call with
      | some c => some (c.invoke f)
      | none => some (Computation.invoke (.ok prevInitial, []) f)

namespace Pipeline

/-- `Pipeline::create`. -/
def create (initial : V) : Pipeline V E where
  initial := initial
  chain := .empty

section Operations

variable (moved : V → V)

/-- `then`: the next pipeline, and what is left of this one. -/
def thenFunc (p : Pipeline V E) (f : Func V E) : Pipeline V E × Pipeline V E :=
  ({ initial := f.zero, chain := .lambda p.chain p.initial f },
    { initial := moved p.initial, chain := .empty })

/-- `run`: what the submitted task computes, and what is left of this pipeline. -/
def run (p : Pipeline V E) : Computation V E × Pipeline V E :=
  match p.chain.call with
  | some c => (c, { p with chain := .empty })
  | none => ((.ok p.initial, []), { p with initial := moved p.initial })

/-- `Pipeline::create(pool, x).then(f1)...then(fn)`. -/
def fluent (x : V) (path : List (Func V E)) : Pipeline V E :=
  path.foldl (fun p f => (p.thenFunc moved f).1) (create x)

variable {moved} {p : Pipeline V E} {f : Func V E}

/-- The task of the next pipeline invokes one more stage. -/
theorem run_thenFunc :
    ((p.thenFunc moved f).1.run moved).1 = (p.run moved).1.invoke f := by
  simp only [thenFunc, run, ChainFn.call]
  cases p.chain.call <;> rfl

/-- A pipeline that has been used is callable, and has no stages. -/
theorem chain_of_thenFunc : (p.thenFunc moved f).2.chain = .empty := rfl

theorem chain_of_run : (p.run moved).2.chain = .empty := by
  cases hc : p.chain with
  | empty => simp [run, hc, ChainFn.call]
  | lambda prevChain prevInitial g =>
      cases hp : prevChain.call <;> simp [run, hc, ChainFn.call, hp]

/-- The task of a pipeline without a chain returns the initial value. -/
theorem run_of_empty (h : p.chain = .empty) : (p.run moved).1 = (.ok p.initial, []) := by
  simp [run, h, ChainFn.call]

theorem evaluate_concat (v : V) (path : List (Func V E)) :
    evaluate v (path ++ [f]) = (evaluate v path).invoke f := by
  simp [evaluate]

/-- Used in fluent style, a pipeline evaluates all its stages. -/
theorem run_fluent (x : V) (path : List (Func V E)) :
    ((fluent moved x path).run moved).1 = evaluate x path := by
  induction path using List.reverseRecOn with
  | nil => rfl
  | append_singleton path f ih =>
      rw [evaluate_concat, ← ih, ← run_thenFunc]
      simp [fluent]

end Operations

/-- The composition of the stages. -/
def composition (v : V) (path : List (Func V E)) : Except E V :=
  path.foldl (fun r f => r.bind f.invoke) (.ok v)

theorem evaluate_fst (v : V) (path : List (Func V E)) :
    (evaluate v path).1 = composition v path := by
  induction path using List.reverseRecOn with
  | nil => rfl
  | append_singleton path f ih =>
      rw [evaluate_concat, composition, List.foldl_append, ← composition, ← ih]
      obtain ⟨r, calls⟩ := evaluate v path
      cases r <;> rfl

/-- A pipeline object of a program. -/
structure Object (V : Type u) (E : Type v) where
  pipe : Pipeline V E
  /-- The initial value given to `create`. -/
  origin : V
  /-- The stages attached on the path to this object. -/
  path : List (Func V E)
  /-- Nothing on the path has been moved away. -/
  intact : Bool

/-- The calls of a program. -/
inductive Act (V : Type u) (E : Type v) where
  | create (initial : V)
  | thenFunc (i : Nat) (f : Func V E)
  | run (i : Nat)

/-- A future returned by `run`, with what its task computes. -/
structure Event (V : Type u) (E : Type v) where
  object : Nat
  future : Computation V E

variable (moved : V → V)

/-- What `then` leaves of an object. -/
def Object.afterThen (o : Object V E) (f : Func V E) : Object V E :=
  { o with pipe := (o.pipe.thenFunc moved f).2, intact := false }

/-- The object that `then` returns. -/
def Object.next (o : Object V E) (f : Func V E) : Object V E :=
  { o with pipe := (o.pipe.thenFunc moved f).1, path := o.path ++ [f] }

/-- What `run` leaves of an object. -/
def Object.afterRun (o : Object V E) : Object V E :=
  { o with pipe := (o.pipe.run moved).2, intact := false }

/-- A program over pipelines. -/
def objects : Machine (List (Object V E)) (Act V E) (Event V E) where
  init := []
  step s
    | .create initial =>
        some (s ++ [{ pipe := Pipeline.create initial, origin := initial, path := [],
                      intact := true }], [])
    | .thenFunc i f =>
        match s[i]? with
        | none => none
        | some o => some (s.set i (o.afterThen moved f) ++ [o.next moved f], [])
    | .run i =>
        match s[i]? with
        | none => none
        | some o => some (s.set i (o.afterRun moved), [⟨i, (o.pipe.run moved).1⟩])

/-- The initial value of a pipeline after the given stages, before any move. -/
def leftBy (origin : V) (path : List (Func V E)) : V :=
  match path.getLast? with
  | none => origin
  | some f => f.zero

/--
What the next `run` of an object evaluates: the stages `rest` at the end of its
path, from the `k` times moved initial value of the pipeline before them.
-/
structure Object.Evaluates (o : Object V E) (pre rest : List (Func V E)) (k : Nat) : Prop where
  path : o.path = pre ++ rest
  run : (o.pipe.run moved).1 = evaluate (moved^[k] (leftBy o.origin pre)) rest
  intact : o.intact = true ↔ pre = [] ∧ k = 0

/-- An object of a program, whatever has been moved out of it. -/
structure Object.Traced (o : Object V E) : Prop where
  initial : ∃ j, o.pipe.initial = moved^[j] (leftBy o.origin o.path)
  staged : o.path = [] → o.pipe.chain = .empty
  evaluates : ∃ pre rest k, o.Evaluates moved pre rest k

variable {moved} {o : Object V E} {f : Func V E}

/-- An emptied object returns its initial value, as if it had no stages. -/
theorem Object.Traced.emptied {o' : Object V E} {j : Nat} (hpath : o'.path = o.path)
    (horigin : o'.origin = o.origin) (hchain : o'.pipe.chain = .empty)
    (hinitial : o'.pipe.initial = moved^[j] (leftBy o.origin o.path))
    (hintact : o'.intact = false) (hlost : o.path = [] → 0 < j) : o'.Traced moved where
  initial := ⟨j, by rw [hpath, horigin, hinitial]⟩
  staged _ := hchain
  evaluates := by
    refine ⟨o.path, [], j, by simp [hpath], ?_, ?_⟩
    · rw [run_of_empty hchain, hinitial, horigin]
      rfl
    · simp only [hintact, Bool.false_eq_true, false_iff, not_and]
      exact fun hnil => Nat.ne_of_gt (hlost hnil)

theorem Object.Traced.afterThen (h : o.Traced moved) : (o.afterThen moved f).Traced moved := by
  obtain ⟨j, hj⟩ := h.initial
  refine .emptied (o := o) (j := j + 1) rfl rfl rfl ?_ rfl fun _ => Nat.succ_pos j
  rw [Function.iterate_succ_apply', ← hj]
  rfl

theorem Object.Traced.afterRun (h : o.Traced moved) : (o.afterRun moved).Traced moved := by
  obtain ⟨j, hj⟩ := h.initial
  cases hc : o.pipe.chain.call with
  | none =>
      refine .emptied (o := o) (j := j + 1) rfl rfl chain_of_run ?_ rfl fun _ => Nat.succ_pos j
      rw [Function.iterate_succ_apply', ← hj]
      simp [Object.afterRun, Pipeline.run, hc]
  | some c =>
      refine .emptied (o := o) (j := j) rfl rfl chain_of_run ?_ rfl fun hnil => ?_
      · rw [← hj]
        simp [Object.afterRun, Pipeline.run, hc]
      · simp [h.staged hnil, ChainFn.call] at hc

theorem Object.Traced.next (h : o.Traced moved) : (o.next moved f).Traced moved where
  initial := ⟨0, by simp [Object.next, thenFunc, leftBy]⟩
  staged hnil := by simp [Object.next] at hnil
  evaluates := by
    obtain ⟨pre, rest, k, hpath, hrun, hintact⟩ := h.evaluates
    refine ⟨pre, rest ++ [f], k, by simp [Object.next, hpath], ?_, hintact⟩
    rw [evaluate_concat]
    show _ = (evaluate (moved^[k] (leftBy o.origin pre)) rest).invoke f
    rw [← hrun]
    exact run_thenFunc

theorem traced_create (initial : V) :
    Object.Traced (E := E) moved ⟨create initial, initial, [], true⟩ where
  initial := ⟨0, rfl⟩
  staged _ := rfl
  evaluates := ⟨[], [], 0, rfl, rfl, by simp⟩

section Programs

variable {s s' : List (Object V E)} {tr es : List (Event V E)}

/-- The objects stay where they are, on the same path. -/
def Keeps (s s' : List (Object V E)) : Prop :=
  ∀ (i : Nat) (o : Object V E), s[i]? = some o →
    ∃ o', s'[i]? = some o' ∧ o'.origin = o.origin ∧ o'.path = o.path

theorem Keeps.set {i : Nat} {o' : Object V E} {new : List (Object V E)} (hi : s[i]? = some o)
    (horigin : o'.origin = o.origin) (hpath : o'.path = o.path) :
    Keeps s (s.set i o' ++ new) := by
  intro j oj hj
  have hlen : j < s.length := (List.getElem?_eq_some_iff.mp hj).1
  rw [List.getElem?_append_left (by simpa using hlen)]
  by_cases hij : i = j
  · subst hij
    obtain rfl := Option.some.inj (hi.symm.trans hj)
    exact ⟨o', List.getElem?_set_self hlen, horigin, hpath⟩
  · exact ⟨oj, by rw [List.getElem?_set_ne hij, hj], rfl, rfl⟩

/-- What a call of the program does. -/
theorem step_cases {a : Act V E} (h : (objects moved).step s a = some (s', es)) :
    (∃ initial, s' = s ++ [⟨create initial, initial, [], true⟩] ∧ es = []) ∨
    (∃ i f o, s[i]? = some o ∧ s' = s.set i (o.afterThen moved f) ++ [o.next moved f] ∧
      es = []) ∨
    ∃ i o, a = .run i ∧ s[i]? = some o ∧ s' = s.set i (o.afterRun moved) ∧
      es = [⟨i, (o.pipe.run moved).1⟩] := by
  cases a with
  | create initial =>
      obtain ⟨rfl, rfl⟩ := by simpa [objects] using h
      exact .inl ⟨initial, rfl, rfl⟩
  | thenFunc i f =>
      simp only [objects] at h
      split at h
      · cases h
      · next o ho =>
          obtain ⟨rfl, rfl⟩ := by simpa using h
          exact .inr (.inl ⟨i, f, o, ho, rfl, rfl⟩)
  | run i =>
      simp only [objects] at h
      split at h
      · cases h
      · next o ho =>
          obtain ⟨rfl, rfl⟩ := by simpa using h
          exact .inr (.inr ⟨i, o, rfl, ho, rfl, rfl⟩)

theorem step_keeps {a : Act V E} (h : (objects moved).step s a = some (s', es)) :
    Keeps s s' := by
  rcases step_cases h with ⟨initial, rfl, _⟩ | ⟨i, f, o, ho, rfl, _⟩ | ⟨i, o, _, ho, rfl, _⟩
  · intro i o ho
    have hlen := (List.getElem?_eq_some_iff.mp ho).1
    exact ⟨o, by rw [List.getElem?_append_left hlen, ho], rfl, rfl⟩
  · exact .set ho rfl rfl
  · have hset : Keeps s (s.set i (o.afterRun moved) ++ []) := .set ho rfl rfl
    rwa [List.append_nil] at hset

/-- Every object of every program evaluates the end of its path. -/
theorem traced_reach (hr : (objects moved).Reach s tr) : ∀ o ∈ s, o.Traced moved := by
  refine hr.invariant (P := fun s _ => ∀ o ∈ s, o.Traced moved) (by simp [objects]) ?_
  intro s tr a s' es _ ih hs o' ho'
  rcases step_cases hs with ⟨initial, rfl, _⟩ | ⟨i, f, o, ho, rfl, _⟩ | ⟨i, o, _, ho, rfl, _⟩
  · rcases List.mem_append.mp ho' with ho' | ho'
    · exact ih o' ho'
    · rw [List.mem_singleton.mp ho']
      exact traced_create initial
  · have hold := ih o (List.mem_of_getElem? ho)
    rcases List.mem_append.mp ho' with ho' | ho'
    · rcases List.mem_or_eq_of_mem_set ho' with ho' | rfl
      · exact ih o' ho'
      · exact hold.afterThen
    · rw [List.mem_singleton.mp ho']
      exact hold.next
  · rcases List.mem_or_eq_of_mem_set ho' with ho' | rfl
    · exact ih o' ho'
    · exact (ih o (List.mem_of_getElem? ho)).afterRun

/-- `run` is called on pipelines from whose path nothing has been moved away. -/
def RunsIntact (s : List (Object V E)) (_ : List (Event V E)) (a : Act V E) : Prop :=
  ∀ i o, a = .run i → s[i]? = some o → o.intact = true

/-- The future yields the composition of the stages on the path of its pipeline. -/
def Delivers (s : List (Object V E)) (e : Event V E) : Prop :=
  ∃ o, s[e.object]? = some o ∧ e.future = evaluate o.origin o.path ∧
    e.future.1 = composition o.origin o.path

theorem Delivers.keep {e : Event V E} (h : Delivers s e) (hk : Keeps s s') : Delivers s' e := by
  obtain ⟨o, ho, heval, hcomp⟩ := h
  obtain ⟨o', ho', horigin, hpath⟩ := hk _ o ho
  exact ⟨o', ho', by rw [horigin, hpath, heval], by rw [horigin, hpath, hcomp]⟩

/--
In a program that calls `run` on intact pipelines only, every future yields the
composition of all stages on its path, applied to the original initial value.
-/
theorem run_delivers (hr : (objects moved).ReachWhen RunsIntact s tr) :
    ∀ e ∈ tr, Delivers s e := by
  refine hr.invariant (P := fun s tr => ∀ e ∈ tr, Delivers s e) (by simp) ?_
  intro s tr a s' es hr ih hc hs e he
  have hkeep := step_keeps hs
  rcases List.mem_append.mp he with he | he
  · exact (ih e he).keep hkeep
  · rcases step_cases hs with ⟨_, _, rfl⟩ | ⟨_, _, _, _, _, rfl⟩ | ⟨i, o, rfl, ho, _, rfl⟩
    · cases he
    · cases he
    · obtain rfl := List.mem_singleton.mp he
      refine Delivers.keep ⟨o, ho, ?_⟩ hkeep
      obtain ⟨pre, rest, k, hpath, hrun, hintact⟩ :=
        (traced_reach hr.reach o (List.mem_of_getElem? ho)).evaluates
      obtain ⟨rfl, rfl⟩ := hintact.mp (hc i o rfl ho)
      rw [List.nil_append] at hpath
      have heval : (o.pipe.run moved).1 = evaluate o.origin o.path := by
        rw [hpath]
        exact hrun
      exact ⟨heval, by rw [heval, evaluate_fst]⟩

/-- A stage on integers, whose result type is value-initialised to zero. -/
def double : Func Nat String where
  invoke x := .ok (2 * x)
  zero := 0

/-- Two stages attached one after the other, and a run at the end. -/
theorem run_delivers_twoStages :
    ∃ (s : List (Object Nat String)) (tr : List (Event Nat String)),
      (objects id).ReachWhen RunsIntact s tr ∧ tr.map (fun e => e.future.1.toOption) = [some 20] ∧
        ∀ e ∈ tr, Delivers s e := by
  have hr : ∃ s tr, (objects id).ReachWhen RunsIntact s tr ∧
      tr.map (fun e : Event Nat String => e.future.1.toOption) = [some 20] := by
    refine ⟨_, _, .step (a := .run 2) (.step (a := .thenFunc 1 double)
      (.step (a := .thenFunc 0 double) (.step (a := .create 5) .init ?_ rfl) ?_ rfl) ?_ rfl)
      ?_ rfl, rfl⟩
    · simp [RunsIntact]
    · simp [RunsIntact]
    · simp [RunsIntact]
    · rintro i o h ho
      cases h
      cases ho
      rfl
  obtain ⟨s, tr, hr, htr⟩ := hr
  exact ⟨s, tr, hr, htr, run_delivers hr⟩

/-- A second `run` of the same pipeline silently returns a default value. -/
theorem second_run_returns_default :
    ¬ ∀ (s : List (Object Nat String)) (tr : List (Event Nat String)),
      (objects id).Reach s tr → ∀ e ∈ tr, ∃ o, s[e.object]? = some o ∧
        (e.future.1 = composition o.origin o.path ∨ ∃ err, e.future.1 = .error err) := by
  intro h
  have hexec : ∃ r o, (objects id).exec (objects id).init
      ([.create 5, .thenFunc 0 double, .run 1, .run 1] : List (Act Nat String)) = some r ∧
        ⟨1, (.ok 0, [])⟩ ∈ r.2 ∧ r.1[1]? = some o ∧ composition o.origin o.path = .ok 10 :=
    ⟨_, _, rfl, by simp [Object.afterRun, Object.next, Pipeline.run, thenFunc, create,
      ChainFn.call, double], rfl, rfl⟩
  obtain ⟨⟨s, tr⟩, o, hexec, hmem, ho, hcomp⟩ := hexec
  obtain ⟨o', ho', hres⟩ := h s ([] ++ tr) (Machine.Reach.init.exec hexec) _ hmem
  obtain rfl := Option.some.inj (ho.symm.trans ho')
  rcases hres with hres | ⟨err, hres⟩
  · rw [hcomp] at hres
    cases hres
  · cases hres

end Programs

end Pipeline
end AsyncTaskEngine
