import Mathlib.Algebra.GroupWithZero.Nat
import Mathlib.Data.List.Basic

/-!
# Machines with observable events

The components of the development are all presented in the same way: a
deterministic step function takes a state and an action chosen by the
environment (which thread moves, and how an internal choice falls), and
returns the next state together with the events that an observer records.
An action that is not possible in a state has no successor.

This module is independent of any particular component.  It provides

* `Machine.Reach`: the reachable pairs of state and recorded trace;
* `Machine.ReachWhen`: the same, for runs all of whose steps meet a condition;
* `Machine.exec`: execution of a finite schedule;
* `Machine.Reach.emitted`: the step at which an event of a trace was emitted;
* `Machine.exec_counted`, `Machine.exec_amortized`, `Machine.exec_amortized_but`: the length
  of a schedule, by a potential;
* `Machine.simulation`: forward simulation, relating traces as well as states;
* `Machine.exec_lockstep`: two machines that answer every schedule alike;
* `Machine.guard`: a machine driven by a client that observes its events and
  restricts its actions;
* `Machine.watch`: a machine with a history variable.
-/

namespace AsyncTaskEngine

universe u v w x y z

/-- A machine with states `σ`, actions `α` and observable events `ε`. -/
structure Machine (σ : Type u) (α : Type v) (ε : Type w) where
  init : σ
  step : σ → α → Option (σ × List ε)

namespace Machine

variable {σ : Type u} {α : Type v} {ε : Type w}

/-- Reachability along steps that all satisfy the condition `C`. -/
inductive ReachWhen (M : Machine σ α ε) (C : σ → List ε → α → Prop) :
    σ → List ε → Prop
  | init : ReachWhen M C M.init []
  | step {s s' : σ} {tr es : List ε} {a : α}
      (hr : ReachWhen M C s tr)
      (hc : C s tr a)
      (hs : M.step s a = some (s', es)) :
      ReachWhen M C s' (tr ++ es)

/-- Reachability of a state together with the trace recorded so far. -/
inductive Reach (M : Machine σ α ε) : σ → List ε → Prop
  | init : Reach M M.init []
  | step {s s' : σ} {tr es : List ε} {a : α}
      (hr : Reach M s tr)
      (hs : M.step s a = some (s', es)) :
      Reach M s' (tr ++ es)

/-- Execution of a schedule, collecting the events. -/
def exec (M : Machine σ α ε) : σ → List α → Option (σ × List ε)
  | s, [] => some (s, [])
  | s, a :: as =>
      match M.step s a with
      | none => none
      | some (s', es) =>
          (M.exec s' as).map fun r => (r.1, es ++ r.2)

variable {M : Machine σ α ε}

theorem ReachWhen.reach {C : σ → List ε → α → Prop} {s : σ} {tr : List ε}
    (h : M.ReachWhen C s tr) : M.Reach s tr := by
  induction h with
  | init => exact .init
  | step _ _ hs ih => exact .step ih hs

theorem ReachWhen.mono {C D : σ → List ε → α → Prop} {s : σ} {tr : List ε}
    (hCD : ∀ s tr a, C s tr a → D s tr a)
    (h : M.ReachWhen C s tr) : M.ReachWhen D s tr := by
  induction h with
  | init => exact .init
  | step _ hc hs ih => exact .step ih (hCD _ _ _ hc) hs

/-- What holds initially and is preserved by every step holds of every run. -/
theorem Reach.invariant {P : σ → List ε → Prop} {s : σ} {tr : List ε}
    (h : M.Reach s tr)
    (h0 : P M.init [])
    (hstep : ∀ {s tr a s' es},
      M.Reach s tr → P s tr → M.step s a = some (s', es) → P s' (tr ++ es)) :
    P s tr := by
  induction h with
  | init => exact h0
  | step hr hs ih => exact hstep hr ih hs

/-- The invariant rule for runs whose steps meet a condition. -/
theorem ReachWhen.invariant {C : σ → List ε → α → Prop}
    {P : σ → List ε → Prop} {s : σ} {tr : List ε}
    (h : M.ReachWhen C s tr)
    (h0 : P M.init [])
    (hstep : ∀ {s tr a s' es},
      M.ReachWhen C s tr → P s tr → C s tr a →
        M.step s a = some (s', es) → P s' (tr ++ es)) :
    P s tr := by
  induction h with
  | init => exact h0
  | step hr hc hs ih => exact hstep hr ih hc hs

/-- An event of an extended trace is new, or was there before. -/
theorem event_split {tr es pre post : List ε} {e : ε}
    (h : tr ++ es = pre ++ e :: post) :
    (∃ es₀, pre = tr ++ es₀ ∧ es = es₀ ++ e :: post) ∨
      ∃ post₀, tr = pre ++ e :: post₀ ∧ post = post₀ ++ es := by
  rcases List.append_eq_append_iff.mp h with ⟨es₀, hpre, hes⟩ | ⟨bs, htr, hbs⟩
  · exact .inl ⟨es₀, hpre, hes⟩
  · cases bs with
    | nil => exact .inl ⟨[], by simpa using htr.symm, by simpa using hbs.symm⟩
    | cons b bs =>
        obtain ⟨rfl, rfl⟩ := List.cons.inj hbs
        exact .inr ⟨bs, htr, rfl⟩

/-- Two events of a trace that do not occur after each other stand in one place. -/
theorem last_split {pre pre' post post' : List ε} {e e' : ε}
    (h : pre ++ e :: post = pre' ++ e' :: post') (he : e ∉ post') (he' : e' ∉ post) :
    pre' = pre := by
  rcases List.append_eq_append_iff.mp h with ⟨as, hpre, hpost⟩ | ⟨as, hpre, hpost⟩
  · cases as with
    | nil => simpa using hpre
    | cons a as =>
        obtain ⟨_, hpost⟩ := List.cons.inj hpost
        exact (he' (hpost ▸ by simp)).elim
  · cases as with
    | nil => simpa using hpre.symm
    | cons a as =>
        obtain ⟨_, hpost⟩ := List.cons.inj hpost
        exact (he (hpost ▸ by simp)).elim

/-- The step that emitted an event met the condition of the run. -/
theorem ReachWhen.emitted {C : σ → List ε → α → Prop} {s : σ}
    {tr pre post : List ε} {e : ε} (h : M.ReachWhen C s tr)
    (htr : tr = pre ++ e :: post) :
    ∃ s₀ tr₀ a s₁ es₀ es₁, M.ReachWhen C s₀ tr₀ ∧ C s₀ tr₀ a ∧
      M.step s₀ a = some (s₁, es₀ ++ e :: es₁) ∧ pre = tr₀ ++ es₀ := by
  induction h generalizing post with
  | init => simp at htr
  | @step s s' tr es a hr hc hs ih =>
      rcases event_split htr with ⟨es₀, rfl, hes⟩ | ⟨post₀, rfl, rfl⟩
      · exact ⟨s, tr, a, s', es₀, post, hr, hc, by rw [hs, hes], rfl⟩
      · exact ih rfl

/-- Every run is one whose steps meet the trivial condition. -/
theorem Reach.reachWhen {s : σ} {tr : List ε} (h : M.Reach s tr) :
    M.ReachWhen (fun _ _ _ => True) s tr := by
  induction h with
  | init => exact .init
  | step _ hs ih => exact .step ih trivial hs

/-- Every event of a trace was emitted by a step of the run. -/
theorem Reach.emitted {s : σ} {tr pre post : List ε} {e : ε}
    (h : M.Reach s tr) (htr : tr = pre ++ e :: post) :
    ∃ s₀ tr₀ a s₁ es₀ es₁, M.Reach s₀ tr₀ ∧
      M.step s₀ a = some (s₁, es₀ ++ e :: es₁) ∧ pre = tr₀ ++ es₀ := by
  obtain ⟨s₀, tr₀, a, s₁, es₀, es₁, hr, _, hs, hpre⟩ := h.reachWhen.emitted htr
  exact ⟨s₀, tr₀, a, s₁, es₀, es₁, hr.reach, hs, hpre⟩

section Exec

@[simp] theorem exec_nil (s : σ) : M.exec s [] = some (s, []) := rfl

theorem exec_cons {s : σ} {a : α} {as : List α} {r : σ × List ε}
    (hs : M.step s a = some r) :
    M.exec s (a :: as) = (M.exec r.1 as).map fun q => (q.1, r.2 ++ q.2) := by
  simp [exec, hs]

/-- A schedule of one action. -/
theorem exec_single (s : σ) (a : α) :
    M.exec s [a] = M.step s a := by
  cases hs : M.step s a with
  | none => simp [exec, hs]
  | some r => simp [exec, hs]

theorem exec_append_eq (s : σ) (as bs : List α) :
    M.exec s (as ++ bs) =
      (M.exec s as).bind fun r =>
        (M.exec r.1 bs).map fun q => (q.1, r.2 ++ q.2) := by
  induction as generalizing s with
  | nil => simp
  | cons a as ih =>
      cases hs : M.step s a with
      | none => simp [exec, hs]
      | some r =>
          simp only [List.cons_append, exec, hs, ih]
          cases M.exec r.1 as with
          | none => rfl
          | some q =>
              simp [Function.comp_def, List.append_assoc]

theorem exec_append {s s' s'' : σ} {as bs : List α} {es fs : List ε}
    (h₁ : M.exec s as = some (s', es))
    (h₂ : M.exec s' bs = some (s'', fs)) :
    M.exec s (as ++ bs) = some (s'', es ++ fs) := by
  simp [exec_append_eq, h₁, h₂]

theorem Reach.exec {s s' : σ} {tr es : List ε} {as : List α}
    (h : M.Reach s tr) (he : M.exec s as = some (s', es)) :
    M.Reach s' (tr ++ es) := by
  induction as generalizing s tr es with
  | nil =>
      simp only [exec_nil, Option.some.injEq, Prod.mk.injEq] at he
      obtain ⟨rfl, rfl⟩ := he
      simpa using h
  | cons a as ih =>
      cases hs : M.step s a with
      | none => simp [Machine.exec, hs] at he
      | some r =>
          rw [exec_cons hs] at he
          obtain ⟨⟨q, fs⟩, hq, heq⟩ := Option.map_eq_some_iff.mp he
          simp only [Prod.mk.injEq] at heq
          obtain ⟨rfl, rfl⟩ := heq
          have := ih (.step h hs) hq
          simpa [List.append_assoc] using this

/-- A schedule that can be executed from the start is a run. -/
theorem reach_of_exec (as : List α) {s : σ} {tr : List ε} (h : M.exec M.init as = some (s, tr)) :
    M.Reach s tr := by
  simpa using Reach.init.exec h

/-- What every step of a schedule preserves holds after the schedule. -/
theorem exec_invariant {P : σ → List ε → Prop} {as : List α} {s s' : σ} {es : List ε}
    (he : M.exec s as = some (s', es)) (h0 : P s [])
    (hstep : ∀ {s tr a s' es}, a ∈ as → P s tr → M.step s a = some (s', es) →
      P s' (tr ++ es)) : P s' es := by
  suffices h : ∀ tr, P s tr → P s' (tr ++ es) from h [] h0
  clear h0
  induction as generalizing s es with
  | nil =>
      obtain ⟨rfl, rfl⟩ := Prod.mk.inj (Option.some.inj he)
      intro tr h
      rw [List.append_nil]
      exact h
  | cons a as ih =>
      cases hs : M.step s a with
      | none => simp [Machine.exec, hs] at he
      | some r =>
          rw [exec_cons hs] at he
          obtain ⟨⟨s'', fs⟩, hq, heq⟩ := Option.map_eq_some_iff.mp he
          obtain ⟨rfl, rfl⟩ := Prod.mk.inj heq
          intro tr h
          rw [← List.append_assoc]
          exact ih hq (fun hmem => hstep (List.mem_cons_of_mem _ hmem)) _
            (hstep List.mem_cons_self h hs)

/--
Amortized number of the actions of one kind.  Every action that keeps to the
invariant `I` and to the bound `B` on traces lowers the potential `Φ` by one if it
is of this kind, up to the cost of the action.
-/
theorem exec_counted (Φ : σ → Nat) (p : α → Bool) (cost : α → Nat) {I : σ → List ε → Prop}
    {B : List ε → Prop} (hB : ∀ tr es, B (tr ++ es) → B tr)
    (hI : ∀ {s tr a s' es}, I s tr → M.step s a = some (s', es) → I s' (tr ++ es))
    (hstep : ∀ {s tr a s' es}, I s tr → B (tr ++ es) →
      M.step s a = some (s', es) → Φ s' + (if p a then 1 else 0) ≤ Φ s + cost a)
    {as : List α} {s s' : σ} {tr es : List ε} (hs : I s tr)
    (he : M.exec s as = some (s', es)) (hb : B (tr ++ es)) :
    as.countP p + Φ s' ≤ Φ s + (as.map cost).sum := by
  induction as generalizing s tr es with
  | nil =>
      obtain ⟨rfl, rfl⟩ := Prod.mk.inj (Option.some.inj he)
      simp
  | cons a as ih =>
      cases hr : M.step s a with
      | none => simp [Machine.exec, hr] at he
      | some r =>
          rw [exec_cons hr] at he
          obtain ⟨⟨s'', fs⟩, hq, heq⟩ := Option.map_eq_some_iff.mp he
          obtain ⟨rfl, rfl⟩ := Prod.mk.inj heq
          dsimp only at hb
          rw [← List.append_assoc] at hb
          have hone := hstep hs (hB _ _ hb) hr
          have hrest := ih (hI hs hr) hq hb
          dsimp only at hone hrest ⊢
          simp only [List.countP_cons, List.map_cons, List.sum_cons]
          omega

/-- Amortized length of a schedule: every action lowers the potential. -/
theorem exec_amortized (Φ : σ → Nat) (cost : α → Nat) {I : σ → List ε → Prop}
    {B : List ε → Prop} (hB : ∀ tr es, B (tr ++ es) → B tr)
    (hI : ∀ {s tr a s' es}, I s tr → M.step s a = some (s', es) → I s' (tr ++ es))
    (hstep : ∀ {s tr a s' es}, I s tr → B (tr ++ es) →
      M.step s a = some (s', es) → Φ s' + 1 ≤ Φ s + cost a)
    {as : List α} {s s' : σ} {tr es : List ε} (hs : I s tr)
    (he : M.exec s as = some (s', es)) (hb : B (tr ++ es)) :
    as.length + Φ s' ≤ Φ s + (as.map cost).sum := by
  have hcount := exec_counted Φ (fun _ => true) cost hB hI
    (fun hi hb hs => hstep hi hb hs) hs he hb
  rwa [List.countP_true] at hcount

/-- The number of the steps of a schedule that are taken in a state of some kind. -/
def countSteps (M : Machine σ α ε) (p : σ → α → Bool) : σ → List α → Nat
  | _, [] => 0
  | s, a :: as =>
      (p s a).toNat +
        match M.step s a with
        | none => 0
        | some (s', _) => M.countSteps p s' as

/-- Amortized length of a schedule some of whose steps are paid for from outside. -/
theorem exec_amortized_but (Φ : σ → Nat) (cost : α → Nat) (p : σ → α → Bool) (m : Nat)
    {I : σ → Prop}
    (hI : ∀ {s a s' es}, I s → M.step s a = some (s', es) → I s')
    (hstep : ∀ {s a s' es}, I s → M.step s a = some (s', es) →
      Φ s' + 1 ≤ Φ s + (cost a + m * (p s a).toNat))
    {as : List α} {s s' : σ} {es : List ε} (hs : I s) (he : M.exec s as = some (s', es)) :
    as.length + Φ s' ≤ Φ s + (as.map cost).sum + m * M.countSteps p s as := by
  induction as generalizing s es with
  | nil =>
      obtain ⟨rfl, rfl⟩ := Prod.mk.inj (Option.some.inj he)
      simp
  | cons a as ih =>
      cases hr : M.step s a with
      | none => simp [Machine.exec, hr] at he
      | some r =>
          rw [exec_cons hr] at he
          obtain ⟨⟨s'', fs⟩, hq, heq⟩ := Option.map_eq_some_iff.mp he
          obtain ⟨rfl, rfl⟩ := Prod.mk.inj heq
          have hone := hstep hs hr
          have hrest := ih (hI hs hr) hq
          dsimp only at hone hrest ⊢
          simp only [countSteps, hr, List.length_cons, List.map_cons, List.sum_cons, Nat.mul_add]
          omega

/-- A schedule of allowed actions continues a run. -/
theorem ReachWhen.exec_allowed {C : σ → List ε → α → Prop} {s s' : σ} {tr es : List ε}
    {as : List α} (h : M.ReachWhen C s tr) (he : M.exec s as = some (s', es))
    (hC : ∀ a ∈ as, ∀ s tr, C s tr a) : M.ReachWhen C s' (tr ++ es) := by
  refine exec_invariant (P := fun s' es => M.ReachWhen C s' (tr ++ es)) he ?_ ?_
  · rw [List.append_nil]
    exact h
  · intro s₁ tr₁ a s₂ es₂ hmem hr hs
    rw [← List.append_assoc]
    exact .step hr (hC a hmem _ _) hs

/-- A schedule whose outcome passes a test exhibits a run that does. -/
theorem exists_reach_of_exec (as : List α) {p : σ × List ε → Bool}
    (h : (M.exec M.init as).any p = true) :
    ∃ s tr, M.Reach s tr ∧ p (s, tr) = true := by
  cases he : M.exec M.init as with
  | none => simp [he] at h
  | some r =>
      exact ⟨r.1, r.2, reach_of_exec as he, by simpa [he] using h⟩

/-- Execution of a schedule all of whose steps pass a test. -/
def execWhen (M : Machine σ α ε) (c : σ → List ε → α → Bool) :
    σ → List ε → List α → Option (σ × List ε)
  | s, tr, [] => some (s, tr)
  | s, tr, a :: as =>
      if c s tr a then
        match M.step s a with
        | none => none
        | some (s', es) => M.execWhen c s' (tr ++ es) as
      else none

theorem ReachWhen.exec {C : σ → List ε → α → Prop} {c : σ → List ε → α → Bool}
    (hc : ∀ s tr a, c s tr a = true → C s tr a) {s : σ} {tr : List ε}
    (h : M.ReachWhen C s tr) (as : List α) {r : σ × List ε}
    (he : M.execWhen c s tr as = some r) : M.ReachWhen C r.1 r.2 := by
  induction as generalizing s tr with
  | nil =>
      obtain rfl := Option.some.inj he
      exact h
  | cons a as ih =>
      rw [execWhen] at he
      split at he
      · next hpass =>
          split at he
          · cases he
          · next s' es hs => exact ih (.step h (hc _ _ _ hpass) hs) he
      · cases he

/-- A schedule whose steps meet the condition, and whose outcome passes a test. -/
theorem exists_reachWhen_of_exec {C : σ → List ε → α → Prop}
    [∀ s tr a, Decidable (C s tr a)] (as : List α) {p : σ × List ε → Bool}
    (h : (M.execWhen (fun s tr a => decide (C s tr a)) M.init [] as).any p = true) :
    ∃ s tr, M.ReachWhen C s tr ∧ p (s, tr) = true := by
  cases he : M.execWhen (fun s tr a => decide (C s tr a)) M.init [] as with
  | none => simp [he] at h
  | some r =>
      refine ⟨r.1, r.2, ?_, by simpa [he] using h⟩
      exact ReachWhen.exec (fun _ _ _ => of_decide_eq_true) .init as he

end Exec

section Simulation

variable {σ' : Type x} {α' : Type y} {ε' : Type z}

/--
Forward simulation.  Each step of `M` is answered by a schedule of `A`; the
relation `R` may speak about both states and both traces.
-/
theorem simulation {A : Machine σ' α' ε'} {C : σ → List ε → α → Prop}
    {R : σ → List ε → σ' → List ε' → Prop}
    (h0 : R M.init [] A.init [])
    (hstep : ∀ {s tr a s' es r h},
      M.ReachWhen C s tr → C s tr a → A.Reach r h → R s tr r h →
        M.step s a = some (s', es) →
        ∃ as r' fs, A.exec r as = some (r', fs) ∧ R s' (tr ++ es) r' (h ++ fs))
    {s : σ} {tr : List ε} (hr : M.ReachWhen C s tr) :
    ∃ r h, A.Reach r h ∧ R s tr r h := by
  induction hr with
  | init => exact ⟨A.init, [], .init, h0⟩
  | step hr hc hs ih =>
      obtain ⟨r, h, hrA, hR⟩ := ih
      obtain ⟨as, r', fs, he, hR'⟩ := hstep hr hc hrA hR hs
      exact ⟨r', h ++ fs, hrA.exec he, hR'⟩

end Simulation

section Lockstep

variable {σ' : Type x} {α' : Type y} {ε' : Type z} {δ : Type w}

/-- Related options stay related under related continuations. -/
theorem rel_bind {α₁ : Type u} {β₁ : Type v} {α₂ : Type x} {β₂ : Type y} {P : α₁ → α₂ → Prop}
    {Q : β₁ → β₂ → Prop} {o : Option α₁} {o' : Option α₂} {f : α₁ → Option β₁}
    {f' : α₂ → Option β₂} (h : Option.Rel P o o')
    (hf : ∀ a a', P a a' → Option.Rel Q (f a) (f' a')) :
    Option.Rel Q (o.bind f) (o'.bind f') := by
  cases h with
  | none => exact .none
  | some ha => exact hf _ _ ha

theorem rel_mono {α₁ : Type u} {α₂ : Type v} {P Q : α₁ → α₂ → Prop} {o : Option α₁}
    {o' : Option α₂} (h : Option.Rel P o o') (hPQ : ∀ a a', P a a' → Q a a') :
    Option.Rel Q o o' := by
  cases h with
  | none => exact .none
  | some ha => exact .some (hPQ _ _ ha)

theorem exec_cons_eq (s : σ) (a : α) (as : List α) :
    M.exec s (a :: as) = (M.step s a).bind fun r =>
      (M.exec r.1 as).bind fun q => some (q.1, r.2 ++ q.2) := by
  cases hs : M.step s a with
  | none => simp [exec, hs]
  | some r =>
      rw [exec_cons hs, Option.bind_some]
      cases M.exec r.1 as <;> rfl

/--
Two machines in lockstep.  The relation `R` may depend on the actions that are
still to come, of which each machine sees its own version.
-/
theorem exec_lockstep {M' : Machine σ' α' ε'} {f : α → α'} {g : ε → δ} {g' : ε' → δ}
    {R : List α → σ → σ' → Prop}
    (hstep : ∀ {a as s s'}, R (a :: as) s s' →
      Option.Rel (fun r r' => R as r.1 r'.1 ∧ r.2.map g = r'.2.map g')
        (M.step s a) (M'.step s' (f a)))
    {as : List α} {s : σ} {s' : σ'} (h : R as s s') :
    Option.Rel (fun r r' => R [] r.1 r'.1 ∧ r.2.map g = r'.2.map g')
      (M.exec s as) (M'.exec s' (as.map f)) := by
  induction as generalizing s s' with
  | nil => exact .some ⟨h, rfl⟩
  | cons a as ih =>
      rw [List.map_cons, exec_cons_eq, exec_cons_eq]
      refine rel_bind (hstep h) fun r r' hr => ?_
      refine rel_bind (ih hr.1) fun q q' hq => .some ⟨hq.1, ?_⟩
      rw [List.map_append, List.map_append, hr.2, hq.2]

end Lockstep

section Guard

variable {κ : Type x}

/--
The machine `M` driven by a client with state `κ`.  The client permits an
action by looking at both states, and updates its own state from the events.
-/
def guard (M : Machine σ α ε) (k₀ : κ) (allowed : κ → σ → α → Bool)
    (observe : κ → ε → κ) : Machine (σ × κ) α ε where
  init := (M.init, k₀)
  step q a :=
    if allowed q.2 q.1 a then
      (M.step q.1 a).map fun r => ((r.1, r.2.foldl observe q.2), r.2)
    else none

variable {k₀ : κ} {allowed : κ → σ → α → Bool} {observe : κ → ε → κ}

/-- A guarded step is a permitted step of the underlying machine. -/
theorem guard_step_iff {q q' : σ × κ} {a : α} {es : List ε} :
    (M.guard k₀ allowed observe).step q a = some (q', es) ↔
      allowed q.2 q.1 a = true ∧ M.step q.1 a = some (q'.1, es) ∧
        q'.2 = es.foldl observe q.2 := by
  obtain ⟨s', k'⟩ := q'
  by_cases h : allowed q.2 q.1 a = true
  · simp only [guard, h, if_true, true_and, Option.map_eq_some_iff,
      Prod.mk.injEq, Prod.exists]
    constructor
    · rintro ⟨s₁, fs, hs, ⟨rfl, rfl⟩, rfl⟩
      exact ⟨hs, rfl⟩
    · rintro ⟨hs, rfl⟩
      exact ⟨s', es, hs, ⟨rfl, rfl⟩, rfl⟩
  · simp [guard, h]

/-- A permitted action is possible if it is possible for the underlying machine. -/
theorem guard_none {q : σ × κ} {a : α} (ha : allowed q.2 q.1 a = true)
    (h : (M.guard k₀ allowed observe).step q a = none) : M.step q.1 a = none := by
  simpa [guard, ha] using h

/-- A run of the guarded machine is a run of the underlying machine. -/
theorem Reach.of_guard {q : σ × κ} {tr : List ε}
    (h : (M.guard k₀ allowed observe).Reach q tr) :
    M.Reach q.1 tr := by
  induction h with
  | init => exact .init
  | step _ hs ih => exact .step ih (guard_step_iff.mp hs).2.1

/-- The client state is determined by the observed trace. -/
theorem Reach.guard_observed {q : σ × κ} {tr : List ε}
    (h : (M.guard k₀ allowed observe).Reach q tr) :
    q.2 = tr.foldl observe k₀ := by
  induction h with
  | init => rfl
  | step _ hs ih =>
      rw [(guard_step_iff.mp hs).2.2, ih, List.foldl_append]

end Guard

section Watch

variable {γ : Type x}

/--
The machine `M` with a history variable, which records what every step has done
and restricts none.
-/
def watch (M : Machine σ α ε) (g₀ : γ) (record : σ → γ → σ → List ε → γ) :
    Machine (σ × γ) α ε where
  init := (M.init, g₀)
  step q a := (M.step q.1 a).map fun r => ((r.1, record q.1 q.2 r.1 r.2), r.2)

variable {g₀ : γ} {record : σ → γ → σ → List ε → γ}

theorem watch_step_iff {q q' : σ × γ} {a : α} {es : List ε} :
    (M.watch g₀ record).step q a = some (q', es) ↔
      M.step q.1 a = some (q'.1, es) ∧ q'.2 = record q.1 q.2 q'.1 es := by
  obtain ⟨s', g'⟩ := q'
  simp only [watch, Option.map_eq_some_iff, Prod.mk.injEq, Prod.exists]
  constructor
  · rintro ⟨s₁, fs, hs, ⟨rfl, rfl⟩, rfl⟩
    exact ⟨hs, rfl⟩
  · rintro ⟨hs, rfl⟩
    exact ⟨s', es, hs, ⟨rfl, rfl⟩, rfl⟩

/-- A watched run is a run. -/
theorem ReachWhen.of_watch {C : σ → List ε → α → Prop} {q : σ × γ} {tr : List ε}
    (h : (M.watch g₀ record).ReachWhen (fun q tr a => C q.1 tr a) q tr) :
    M.ReachWhen C q.1 tr := by
  induction h with
  | init => exact .init
  | step _ hc hs ih => exact .step ih hc (watch_step_iff.mp hs).1

/-- Every run can be watched. -/
theorem ReachWhen.watch {C : σ → List ε → α → Prop} {s : σ} {tr : List ε}
    (h : M.ReachWhen C s tr) (g₀ : γ) (record : σ → γ → σ → List ε → γ) :
    ∃ g, (M.watch g₀ record).ReachWhen (fun q tr a => C q.1 tr a) (s, g) tr := by
  induction h with
  | init => exact ⟨g₀, .init⟩
  | @step s s' tr es a _ hc hs ih =>
      obtain ⟨g, hg⟩ := ih
      have hs' : (M.watch g₀ record).step (s, g) a = some ((s', record s g s' es), es) :=
        watch_step_iff.mpr ⟨hs, rfl⟩
      exact ⟨_, .step hg hc hs'⟩

end Watch

end Machine

end AsyncTaskEngine
