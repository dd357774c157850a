import AsyncTaskEngine.CoroTaskOwnership

/-!
# The completion of a coroutine reaches get()

`get()` learns of the completion through a pointer that it sets after its own test
of `done()`, and the final awaiter reads that pointer once.  If the owner resumed
the coroutine before, a worker can end it between the test and the attachment:
the awaiter finds no promise, and `get()` waits for one that nobody fulfils.  As
long as the promise is attached before the awaiter has read the pointer, `get()`
cannot miss the completion.
-/

namespace AsyncTaskEngine
namespace ThreadPool
namespace CoroTask

universe u v w

variable {N : Nat} {ι : Type u} {V : Type v} {E : Type w}

section Signal

variable {cfg : Config ι V E} {s s' : State N ι Body} {k k' : Client N ι V E}
variable {tr es : List (Event N ι Body Label)} {e : Event N ι Body Label}

/-- The promise is attached before the final awaiter has read the pointer to it. -/
def AttachedInTime (k : Client N ι V E) (_ : List (Event N ι Body Label)) (_ : Tid N ι)
    (label : Label) : Prop :=
  label = .attach → k.frame ≠ .finished

instance [DecidableEq ι] (k : Client N ι V E) (tr : List (Event N ι Body Label)) (t : Tid N ι)
    (label : Label) : Decidable (AttachedInTime k tr t label) :=
  inferInstanceAs (Decidable (label = .attach → k.frame ≠ .finished))

/-- The owner is in `get()`, after the attachment of its promise. -/
def OwnerPc.attached : OwnerPc → Bool
  | .testDone .wait => true
  | .resume .wait => true
  | .inside .wait => true
  | .waiting => true
  | _ => false

/-- The coroutine has ended, and `get()` waits for a promise that is not fulfilled. -/
def Missed (k : Client N ι V E) : Prop :=
  k.frame = .finished ∧ k.owner = .waiting ∧ k.promise = none

/-- A call does not begin with an attached promise. -/
theorem call_attached (k : Client N ι V E) (c : OwnerCall) (hpc : k.owner = .idle) :
    (k.call c).owner.attached = false := by
  cases c <;> simp only [Client.call] <;> repeat' split
  all_goals simp [hpc, OwnerPc.attached, Client.destroyFrame]

theorem destroy_done {τ : Type u} (f : Frame τ) : f.destroy.done = false := by
  cases f <;> rfl

/-- An attached promise is fulfilled when the coroutine has ended, or by its awaiter. -/
structure Signals (k : Client N ι V E) : Prop where
  stored : k.frame.done = true → k.frame ≠ .finished → k.stored.isSome = true
  external : k.owner.attached = true → k.external = true
  fulfilled : k.owner.attached = true → k.frame = .finished → k.promise.isSome = true

namespace Signals

/-- The coroutine moves on, and does not end. -/
theorem move (h : Signals k) (hf : k'.frame.done = false) (hext : k'.external = k.external)
    (hpc : k'.owner.attached = true → k.owner.attached = true) : Signals k' where
  stored hdone := by rw [hf] at hdone; cases hdone
  external ho := hext.trans (h.external (hpc ho))
  fulfilled _ hfin := by rw [hfin] at hf; cases hf

/-- The owner moves on. -/
theorem owner (h : Signals k) (hf : k'.frame = k.frame)
    (hstored : k'.stored.isSome = k.stored.isSome) (hext : k'.external = k.external)
    (hpromise : k'.promise = k.promise)
    (hpc : k'.owner.attached = true → k.owner.attached = true) : Signals k' where
  stored hdone hne := by
    rw [hstored]
    exact h.stored (hf ▸ hdone) (hf ▸ hne)
  external ho := hext.trans (h.external (hpc ho))
  fulfilled ho hfin := by
    rw [hpromise]
    exact h.fulfilled (hpc ho) (hf ▸ hfin)

theorem resume_done {τ : Type u} (f : Frame τ) (t : τ) : (f.resume t).done = false := by
  cases f <;> rfl

theorem step (h : Signals k) (hs : Step cfg s k e k')
    (htime : ∀ t label, e = .user t label → AttachedInTime k tr t label) : Signals k' := by
  cases hs with
  | quiet he => exact h
  | taskDone hres hoff => exact h
  | suspend hf => exact h.move rfl rfl id
  | rethrow hf => exact h.move rfl rfl id
  | rejectedLate hf => exact h.move rfl rfl id
  | resumeTask hctrl hnew => exact h.move (resume_done _ _) rfl id
  | @resumeOwner a hpc =>
      refine h.move (resume_done _ _) rfl ?_
      cases a <;> simp [hpc, OwnerPc.attached]
  | segment hf hn => exact h.move rfl rfl id
  | lastSegment hf hn => exact ⟨fun _ _ => rfl, h.external, fun _ hfin => by cases hfin⟩
  | unhandledException hf => exact ⟨fun _ _ => rfl, h.external, fun _ hfin => by cases hfin⟩
  | readNull hf hext =>
      refine ⟨fun _ hne => (hne rfl).elim, h.external, fun ho _ => ?_⟩
      rw [h.external ho] at hext
      cases hext
  | readPromise hf hext =>
      exact ⟨fun _ _ => h.stored (by rw [hf]; rfl) (by simp [hf]), h.external,
        fun _ hfin => by cases hfin⟩
  | fulfil hf =>
      exact ⟨fun _ hne => (hne rfl).elim, h.external,
        fun _ _ => h.stored (by rw [hf]; rfl) (by simp [hf])⟩
  | @call c hpc =>
      have hnot := call_attached k c hpc
      refine ⟨fun hdone hne => ?_, fun ho => ?_, fun ho => ?_⟩
      · rw [call_frame] at hdone hne
        rw [call_stored]
        split at hdone
        · rw [destroy_done] at hdone
          cases hdone
        · next hd => exact h.stored hdone (by simpa [hd] using hne)
      · rw [hnot] at ho
        cases ho
      · rw [hnot] at ho
        cases ho
  | getDone hpc =>
      refine h.owner rfl rfl rfl rfl ?_
      cases k.frame.done <;> simp [OwnerPc.attached]
  | @testDone a hpc =>
      refine h.owner rfl rfl rfl rfl ?_
      cases a <;> cases k.frame.done <;> simp [hpc, OwnerPc.attached, After.pc]
  | attach hpc =>
      refine ⟨h.stored, fun _ => rfl, fun _ hfin => ?_⟩
      exact (htime _ _ rfl rfl hfin).elim
  | @leave a hpc hoff =>
      refine h.owner rfl rfl rfl rfl ?_
      cases a <;> simp [hpc, OwnerPc.attached, After.pc]
  | getResult hpc => exact h.owner rfl (by simp) rfl rfl (by simp [OwnerPc.attached])
  | getValue hpc hsome => exact h.owner rfl rfl rfl rfl (by simp [OwnerPc.attached])

end Signals

theorem signals_init : Signals (Client.init : Client N ι V E) where
  stored h := by cases h
  external h := by cases h
  fulfilled h := by cases h

/--
A promise that is attached before the final awaiter has read the pointer is not
missed: `get()` does not wait for a coroutine that has ended, and as long as the
awaiter is at work, it has the promise to fulfil.
-/
theorem get_never_misses [DecidableEq ι] [Fintype ι] {q : State N ι Body × Client N ι V E}
    (hr : (coro N cfg).ReachWhen (UserWhen AttachedInTime) q tr) :
    ¬ Missed q.2 ∧ (q.2.frame.done = true → q.2.owner = .waiting → q.2.promise = none →
      q.2.external = true ∧ q.2.stored.isSome = true) := by
  have hinv : Signals q.2 := by
    refine coro_induction (P := fun _ k _ => Signals k) hr signals_init fun _ h hj => ?_
    rcases hj.step with ⟨_, rfl⟩ | ⟨e, rfl, hs⟩
    · exact h
    · exact h.step hs fun t label he => hj.condition t label (by rw [he])
  have hfulfilled : q.2.owner = .waiting → q.2.frame = .finished → q.2.promise.isSome = true :=
    fun ho hfin => hinv.fulfilled (by rw [ho]; rfl) hfin
  refine ⟨?_, fun hdone ho hnone => ⟨hinv.external (by rw [ho]; rfl), hinv.stored hdone ?_⟩⟩
  · rintro ⟨hfin, ho, hnone⟩
    have := hfulfilled ho hfin
    rw [hnone] at this
    cases this
  · intro hfin
    have := hfulfilled ho hfin
    rw [hnone] at this
    cases this

/-- The owner attaches the promise while the worker executes the last segment. -/
theorem get_never_misses_attachedInTime :
    ∃ (q : State 1 Unit Body × Client 1 Unit Nat String) (tr : _),
      (coro 1 oneHop).ReachWhen (UserWhen AttachedInTime) q tr ∧
        q.2.owner = .waiting ∧ q.2.frame = .finished ∧ q.2.promise.isSome = true ∧
          ¬ Missed q.2 := by
  obtain ⟨q, tr, hr, h⟩ := Machine.exists_reachWhen_of_exec (M := coro 1 oneHop)
    (C := UserWhen AttachedInTime)
    (resumeOnce ++ [.user (.inr ()) (.call (.get 0)), .user (.inr ()) .test,
      .user (.inl 0) (.resume (some 0) (some 1)), .user (.inr ()) .attach,
      .user (.inl 0) (.segment 1), .user (.inr ()) .test, .user (.inl 0) .readPromise,
      .user (.inl 0) .fulfil])
    (p := fun r => decide (r.1.2.owner = .waiting ∧ r.1.2.frame = .finished ∧
      r.1.2.promise.isSome = true))
    (by decide)
  obtain ⟨howner, hframe, hsome⟩ := of_decide_eq_true h
  exact ⟨q, tr, hr, howner, hframe, hsome, (get_never_misses hr).1⟩

/-- The worker ends the coroutine between the test of `done()` and the attachment. -/
theorem get_misses_completion :
    ¬ ∀ (q : State 1 Unit Body × Client 1 Unit Nat String) (tr : _),
      (coro 1 oneHop).Reach q tr → ¬ Missed q.2 := by
  intro h
  obtain ⟨q, tr, hr, hp⟩ := Machine.exists_reach_of_exec (M := coro 1 oneHop)
    (resumeOnce ++ [.user (.inr ()) (.call (.get 0)), .user (.inr ()) .test,
      .user (.inl 0) (.resume (some 0) (some 1)), .user (.inl 0) (.segment 1),
      .user (.inl 0) .readPromise, .finish 0, .user (.inr ()) .attach, .user (.inr ()) .test])
    (p := fun r => decide (r.1.2.frame = .finished ∧ r.1.2.owner = .waiting) &&
      r.1.2.promise.isNone)
    (by decide)
  simp only [Bool.and_eq_true, decide_eq_true_eq, Option.isNone_iff_eq_none] at hp
  exact h q tr hr ⟨hp.1.1, hp.1.2, hp.2⟩

end Signal

end CoroTask
end ThreadPool
end AsyncTaskEngine
