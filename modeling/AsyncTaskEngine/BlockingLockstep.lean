import AsyncTaskEngine.BlockingMonitor

/-!
# Blocking containers in lockstep

Two containers whose critical sections answer alike cannot be told apart by
their callers: under the same schedule the same calls return the same results
and the same threads sleep.  The sections may answer alike only for a bounded
number of pushes; `Lockstep` relates their contents after each number of
accepted pushes, and `monitor_lockstep` is the result about whole schedules.
-/

namespace AsyncTaskEngine
namespace BlockingMonitor

universe u v w x y z

variable {σ : Type u} {σ' : Type z} {β β' : Type v} {γ γ' δ : Type w} {κ : Type x} {ι : Type y}

/-- The same call with another type of arguments. -/
def Call.map (f : β → β') : Call κ β → Call κ β'
  | .idle => .idle
  | .push arg => .push (f arg)
  | .notifyOne => .notifyOne
  | .tryPop => .tryPop
  | .wait k => .wait k
  | .asleep k => .asleep k
  | .woken k => .woken k
  | .shutdown => .shutdown
  | .notifyAll => .notifyAll
  | .size => .size

/-- The same action with another type of arguments. -/
def Act.map (f : β → β') : Act ι κ β → Act ι κ β'
  | .push t arg => .push t (f arg)
  | .tryPop t => .tryPop t
  | .waitAndPop t k => .waitAndPop t k
  | .shutdown t => .shutdown t
  | .size t => .size t
  | .advance t => .advance t
  | .notify t pick => .notify t pick
  | .spurious t => .spurious t
  | .requestStop k => .requestStop k

/-- The same event with other types of arguments and results. -/
def Event.map (f : β → β') (g : γ → γ') : Event ι κ β γ → Event ι κ β' γ'
  | .pushAccepted t arg => .pushAccepted t (f arg)
  | .pushRejected t arg => .pushRejected t (f arg)
  | .pushReturned t => .pushReturned t
  | .popped t result => .popped t (g result)
  | .tryEmpty t => .tryEmpty t
  | .waitEmpty t k => .waitEmpty t k
  | .closed t => .closed t
  | .shutdownReturned t => .shutdownReturned t
  | .sizeReturned t size => .sizeReturned t size
  | .stopRequested k => .stopRequested k

/-- One for the call of a push. -/
def Act.pushWeight : Act ι κ β → Nat
  | .push _ _ => 1
  | _ => 0

/-- One for a push that has not entered its critical section. -/
def Call.pushWeight : Call κ β → Nat
  | .push _ => 1
  | _ => 0

/-- The number of push calls in a schedule. -/
def pushCalls (as : List (Act ι κ β)) : Nat :=
  (as.map Act.pushWeight).sum

section CallLemmas

variable (f : β → β') (c : Call κ β)

@[simp] theorem Call.isAsleep_map : (c.map f).isAsleep = c.isAsleep := by
  cases c <;> rfl

@[simp] theorem Call.wake_map : (c.map f).wake = c.wake.map f := by
  cases c <;> rfl

@[simp] theorem Call.pushWeight_wake : c.wake.pushWeight = c.pushWeight := by
  cases c <;> rfl

@[simp] theorem Call.wakeOn_map [DecidableEq κ] (k : κ) :
    (c.map f).wakeOn k = (c.wakeOn k).map f := by
  cases c with
  | asleep j =>
      simp only [Call.map, Call.wakeOn]
      split <;> rfl
  | _ => rfl

@[simp] theorem Call.pushWeight_wakeOn [DecidableEq κ] (k : κ) :
    (c.wakeOn k).pushWeight = c.pushWeight := by
  cases c with
  | asleep j =>
      simp only [Call.wakeOn]
      split <;> rfl
  | _ => rfl

end CallLemmas

/--
The critical sections answer alike: `R n` relates the contents after `n`
accepted pushes, of which `bound` are covered.
-/
structure Lockstep (sec : Sections σ β γ) (sec' : Sections σ' β' γ') (f : β → β')
    (g : γ → δ) (g' : γ' → δ) (bound : Nat) (R : Nat → σ → σ' → Prop) : Prop where
  init : R 0 sec.init sec'.init
  push : ∀ {n c c'}, R n c c' → n < bound → ∀ b,
    Option.Rel (R (n + 1)) (sec.push b c) (sec'.push (f b) c')
  tryPop : ∀ {n c c'}, R n c c' →
    R n (sec.tryPop c).1 (sec'.tryPop c').1 ∧
      (sec.tryPop c).2.map g = (sec'.tryPop c').2.map g'
  shutdown : ∀ {n c c'}, R n c c' → R n (sec.shutdown c) (sec'.shutdown c')
  size : ∀ {n c c'}, R n c c' → sec.size c = sec'.size c'
  closed : ∀ {n c c'}, R n c c' → sec.closed c = sec'.closed c'

/--
Two states that agree, when `k` more pushes may be called: the calls of the
threads, the stop requests and, up to `R`, the contents.
-/
structure Agree [Fintype ι] (f : β → β') (bound : Nat) (R : Nat → σ → σ' → Prop)
    (k : Nat) (s : State σ ι κ β) (s' : State σ' ι κ β') : Prop where
  contents : ∃ n, R n s.contents s'.contents ∧ n + total Call.pushWeight s.call + k ≤ bound
  calls : s'.call = fun t => (s.call t).map f
  stopped : s'.stopped = s.stopped

section Steps

variable [DecidableEq ι] [DecidableEq κ] [Fintype ι]
variable {sec : Sections σ β γ} {sec' : Sections σ' β' γ'} {f : β → β'}
variable {g : γ → δ} {g' : γ' → δ} {bound : Nat} {R : Nat → σ → σ' → Prop}
variable {k : Nat} {s : State σ ι κ β} {s' : State σ' ι κ β'}

omit [DecidableEq κ] in
/-- A thread moves in both, and both contents are replaced. -/
theorem Agree.move (h : Agree f bound R k s s') {t : ι} {c : Call κ β} {j : Nat}
    {d : σ} {d' : σ'}
    (hd : ∀ n, R n s.contents s'.contents →
      n + total Call.pushWeight s.call + k ≤ bound →
        ∃ m, R m d d' ∧ m + c.pushWeight + j ≤ n + (s.call t).pushWeight + k) :
    Agree f bound R j ((s.setContents d).setCall t c)
      ((s'.setContents d').setCall t (c.map f)) := by
  obtain ⟨n, hR, hn⟩ := h.contents
  obtain ⟨m, hm, hle⟩ := hd n hR hn
  have htotal := total_update Call.pushWeight s.call t c
  refine ⟨⟨m, hm, ?_⟩, ?_, h.stopped⟩
  · simp only [setCall_call, setContents_call]
    omega
  · simp only [setCall_call, setContents_call, h.calls]
    funext u
    by_cases hu : u = t
    · subst hu
      simp
    · simp [Function.update_of_ne hu]

omit [DecidableEq κ] in
/-- A thread moves in both, and the contents stay. -/
theorem Agree.keep (h : Agree f bound R k s s') {t : ι} {c : Call κ β} {j : Nat}
    (hc : c.pushWeight + j ≤ (s.call t).pushWeight + k) :
    Agree f bound R j (s.setCall t c) (s'.setCall t (c.map f)) :=
  Agree.move (d := s.contents) h fun n hn _ => ⟨n, hn, by omega⟩

/-- What a step has to preserve. -/
abbrev Alike (f : β → β') (g : γ → δ) (g' : γ' → δ) (bound : Nat)
    (R : Nat → σ → σ' → Prop) (k : Nat)
    (r : State σ ι κ β × List (Event ι κ β γ))
    (r' : State σ' ι κ β' × List (Event ι κ β' γ')) : Prop :=
  Agree f bound R k r.1 r'.1 ∧ r.2.map (Event.map f g) = r'.2.map (Event.map id g')

omit [DecidableEq κ] in
/-- Both pops end alike. -/
theorem Agree.finishPop (hl : Lockstep sec sec' f g g' bound R)
    (h : Agree f bound R k s s') (t : ι) {e : Event ι κ β γ} {e' : Event ι κ β' γ'}
    (he : e.map f g = e'.map id g') :
    Alike f g g' bound R k (finishPop s t e (sec.tryPop s.contents))
      (finishPop s' t e' (sec'.tryPop s'.contents)) := by
  refine ⟨h.move (c := .idle) fun n hn _ => ⟨n, (hl.tryPop hn).1, ?_⟩, ?_⟩
  · simp only [Call.pushWeight]
    omega
  · obtain ⟨n, hn, _⟩ := h.contents
    have hres := (hl.tryPop hn).2
    simp only [BlockingMonitor.finishPop]
    cases hr : (sec.tryPop s.contents).2 with
    | none =>
        cases hr' : (sec'.tryPop s'.contents).2 with
        | none => simp [he]
        | some x' => simp [hr, hr'] at hres
    | some x =>
        cases hr' : (sec'.tryPop s'.contents).2 with
        | none => simp [hr, hr'] at hres
        | some x' => simpa [hr, hr', Event.map] using hres

omit [DecidableEq κ] in
/-- Both waits evaluate their predicates alike. -/
theorem Agree.check (hl : Lockstep sec sec' f g g' bound R) (law : sec.Lawful)
    (law' : sec'.Lawful) (h : Agree f bound R k s s') (t : ι) (j : κ) :
    Alike f g g' bound R k (check sec s t j) (check sec' s' t j) := by
  obtain ⟨n, hn, _⟩ := h.contents
  have hready : sec'.ready s'.contents = sec.ready s.contents := by
    rw [Bool.eq_iff_iff, law.ready_iff, law'.ready_iff, hl.size hn, hl.closed hn]
  simp only [BlockingMonitor.check]
  rw [law.afterWait_ready, law'.afterWait_ready, hready, h.stopped]
  split
  · exact h.finishPop hl t rfl
  · exact ⟨h.keep (c := .asleep j) (by simp [Call.pushWeight]), rfl⟩

omit [DecidableEq κ] in
/-- A call begins alike in both. -/
theorem Agree.enter (h : Agree f bound R k s s') {t : ι} {c : Call κ β} {j : Nat}
    (hc : c.pushWeight + j ≤ k) :
    Option.Rel (Alike f g g' bound R j)
      (match s.call t with
        | .idle => some (s.setCall t c, [])
        | _ => none)
      (match s'.call t with
        | .idle => some (s'.setCall t (c.map f), [])
        | _ => none) := by
  have hcall' : s'.call t = (s.call t).map f := by rw [h.calls]
  rw [hcall']
  cases hcall : s.call t with
  | idle => exact .some ⟨h.keep (by omega), rfl⟩
  | _ => exact .none

omit [DecidableEq κ] in
/-- A call moves on alike in both. -/
theorem Agree.advance (hl : Lockstep sec sec' f g g' bound R) (law : sec.Lawful)
    (law' : sec'.Lawful) (h : Agree f bound R k s s') (t : ι) :
    Option.Rel (Alike f g g' bound R k) (advance sec s t) (advance sec' s' t) := by
  have hcall' : s'.call t = (s.call t).map f := by rw [h.calls]
  unfold BlockingMonitor.advance
  rw [hcall']
  cases hcall : s.call t with
  | push arg =>
      obtain ⟨n, hn, hle⟩ := h.contents
      have hone : 1 ≤ total Call.pushWeight s.call := by
        have := le_total Call.pushWeight s.call t
        rwa [hcall] at this
      have hrel := hl.push hn (by omega) arg
      simp only [Call.map]
      cases hp : sec.push arg s.contents with
      | none =>
          cases hp' : sec'.push (f arg) s'.contents with
          | none => exact .some ⟨h.keep (c := .idle) (by simp [Call.pushWeight]), rfl⟩
          | some d' => rw [hp, hp'] at hrel; cases hrel
      | some d =>
          cases hp' : sec'.push (f arg) s'.contents with
          | none => rw [hp, hp'] at hrel; cases hrel
          | some d' =>
              -- the push that was pending becomes the accepted one
              refine .some ⟨h.move (c := .notifyOne) fun m hm hlem => ?_, rfl⟩
              have hrel := hl.push hm (by omega) arg
              rw [hp, hp'] at hrel
              refine ⟨m + 1, by cases hrel with | some h => exact h, ?_⟩
              rw [hcall]
              simp only [Call.pushWeight]
              omega
  | tryPop => exact .some (h.finishPop hl t rfl)
  | wait j => exact .some (h.check hl law law' t j)
  | woken j => exact .some (h.check hl law law' t j)
  | shutdown =>
      refine .some ⟨h.move (c := .notifyAll) fun n hn _ => ⟨n, hl.shutdown hn, ?_⟩, rfl⟩
      simp [Call.pushWeight]
  | notifyAll =>
      refine .some ⟨⟨?_, ?_, h.stopped⟩, rfl⟩
      · obtain ⟨n, hn, hle⟩ := h.contents
        have htotal := total_update Call.pushWeight (fun u => (s.call u).wake) t .idle
        have hwake : total Call.pushWeight (fun u => (s.call u).wake) =
            total Call.pushWeight s.call := by
          simp [total]
        simp only [hwake, Call.pushWeight] at htotal
        refine ⟨n, hn, ?_⟩
        show n + total Call.pushWeight (Function.update _ t .idle) + k ≤ bound
        omega
      · show Function.update (fun u => (s'.call u).wake) t .idle = _
        funext u
        by_cases hu : u = t
        · subst hu
          simp [Call.map]
        · simp [Function.update_of_ne hu, h.calls]
  | size =>
      obtain ⟨n, hn, _⟩ := h.contents
      refine .some ⟨h.keep (c := .idle) (by simp [Call.pushWeight]), ?_⟩
      simp [Event.map, hl.size hn]
  | idle => exact .none
  | notifyOne => exact .none
  | asleep j => exact .none

omit [DecidableEq κ] in
/-- A notification wakes the same sleeper in both. -/
theorem Agree.notify (h : Agree f bound R k s s') (t : ι) (pick : Option ι) :
    Option.Rel (Alike f g g' bound R k) (notify s t pick) (notify s' t pick) := by
  have hcalls : ∀ u, s'.call u = (s.call u).map f := fun u => by rw [h.calls]
  unfold BlockingMonitor.notify
  rw [hcalls t]
  cases hcall : s.call t with
  | notifyOne =>
      have hmap : Call.map f (.notifyOne : Call κ β) = .notifyOne := rfl
      have hidle : ∀ {q : State σ ι κ β} {q' : State σ' ι κ β'}, Agree f bound R k q q' →
          Agree f bound R k (q.setCall t .idle) (q'.setCall t .idle) :=
        fun hq => hq.keep (c := .idle) (by simp [Call.pushWeight])
      cases pick with
      | none =>
          simp only [hmap, hcalls, Call.isAsleep_map]
          split
          · exact .some ⟨hidle h, rfl⟩
          · exact .none
      | some u =>
          simp only [hmap, hcalls, Call.isAsleep_map, Call.wake_map]
          split
          · refine .some ⟨hidle (h.keep ?_), rfl⟩
            simp
          · exact .none
  | _ => exact .none

/-- One step keeps the two containers alike. -/
theorem Agree.step (hl : Lockstep sec sec' f g g' bound R) (law : sec.Lawful)
    (law' : sec'.Lawful) {a : Act ι κ β} (h : Agree f bound R (a.pushWeight + k) s s') :
    Option.Rel (Alike f g g' bound R k) (step sec s a) (step sec' s' (a.map f)) := by
  cases a with
  | push t arg => exact h.enter (c := .push arg) (Nat.le_refl _)
  | tryPop t => exact h.enter (c := .tryPop) (Nat.le_refl _)
  | waitAndPop t j => exact h.enter (c := .wait j) (Nat.le_refl _)
  | shutdown t => exact h.enter (c := .shutdown) (Nat.le_refl _)
  | size t => exact h.enter (c := .size) (Nat.le_refl _)
  | advance t =>
      simp only [Act.pushWeight, Nat.zero_add] at h
      exact h.advance hl law law' t
  | notify t pick =>
      simp only [Act.pushWeight, Nat.zero_add] at h
      exact h.notify t pick
  | spurious t =>
      have hcall' : s'.call t = (s.call t).map f := by rw [h.calls]
      simp only [BlockingMonitor.step, Act.map, hcall', Call.isAsleep_map, Call.wake_map]
      split
      · refine .some ⟨h.keep ?_, rfl⟩
        simp [Act.pushWeight]
      · exact .none
  | requestStop j =>
      obtain ⟨n, hn, hle⟩ := h.contents
      refine .some ⟨⟨⟨n, hn, ?_⟩, ?_, ?_⟩, rfl⟩
      · have hwake : total Call.pushWeight (fun u => (s.call u).wakeOn j) =
            total Call.pushWeight s.call := by
          simp [total]
        show n + total Call.pushWeight (fun u => (s.call u).wakeOn j) + k ≤ bound
        simp only [Act.pushWeight] at hle
        omega
      · funext u
        simp [h.calls]
      · simp only [h.stopped]

/-- Two containers with the same answers behave alike under every schedule. -/
theorem monitor_lockstep (hl : Lockstep sec sec' f g g' bound R) (law : sec.Lawful)
    (law' : sec'.Lawful) {as : List (Act ι κ β)} (has : pushCalls as ≤ bound) :
    Option.Rel (Alike f g g' bound R 0)
      ((monitor sec).exec (monitor sec).init as)
      ((monitor sec').exec (monitor sec').init (as.map (Act.map f))) := by
  refine Machine.exec_lockstep (R := fun as => Agree f bound R (pushCalls as)) ?_ ?_
  · intro a as s s' h
    exact h.step hl law law'
  · refine ⟨⟨0, hl.init, ?_⟩, rfl, rfl⟩
    have hzero : total Call.pushWeight (monitor (κ := κ) (ι := ι) sec).init.call = 0 := by
      simp [total, monitor, Call.pushWeight]
    omega

end Steps

end BlockingMonitor
end AsyncTaskEngine
