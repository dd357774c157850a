import AsyncTaskEngine.CoroTaskCompletion

/-!
# A single get() on a fresh coroutine

The owner calls `get()` once on a coroutine that has never been resumed, and
nothing else.  The promise is attached before the body starts; from then on the
coroutine moves between the owner and the workers, and every hop is a task of the
pool that some worker executes, or is rejected after a shutdown.  `Single` is the
invariant: who may resume the coroutine, where the owner stands, and what the
promise holds.
-/

namespace AsyncTaskEngine
namespace ThreadPool
namespace CoroTask

universe u v w

variable {N : Nat} {ι : Type u} {V : Type v} {E : Type w}

/-- The calls of the owner. -/
def calls (tr : List (Event N ι Body Label)) : List OwnerCall :=
  tr.filterMap fun
    | .user _ (.call c) => some c
    | _ => none

/-- How often the promise has been fulfilled. -/
def fulfilments (tr : List (Event N ι Body Label)) : Nat :=
  tr.countP fun
    | .user _ .fulfil => true
    | _ => false

@[simp] theorem calls_append (tr es : List (Event N ι Body Label)) :
    calls (tr ++ es) = calls tr ++ calls es :=
  List.filterMap_append

@[simp] theorem fulfilments_append (tr es : List (Event N ι Body Label)) :
    fulfilments (tr ++ es) = fulfilments tr + fulfilments es :=
  List.countP_append

/-- The call is `get()`, on the object that holds the coroutine. -/
def Client.gets (k : Client N ι V E) : OwnerCall → Bool
  | .get i => decide (k.holder = some i)
  | _ => false

/-- The owner calls `get()` once and nothing else. -/
def SingleGet (k : Client N ι V E) (tr : List (Event N ι Body Label)) (_ : Tid N ι) :
    Label → Prop
  | .call c => k.gets c = true ∧ calls tr = []
  | _ => True

instance (k : Client N ι V E) (tr : List (Event N ι Body Label)) (t : Tid N ι) (label : Label) :
    Decidable (SingleGet k tr t label) :=
  match label with
  | .call c => inferInstanceAs (Decidable (k.gets c = true ∧ calls tr = []))
  | .test | .attach | .resume _ _ | .segment _ | .unhandledException | .readPromise | .fulfil
  | .leave | .getReturned => isTrue trivial

/-- The steps that need no decision of the user: tasks and segments do not block. -/
def internal : Act N ι Body Label → Bool
  | .finish _ => true
  | .submit _ (.resume _) => true
  | .user _ (.call _) => false
  | .user _ _ => true
  | a => a.owed

/-- Where the owner of a coroutine stands that calls `get()` only. -/
inductive Position (k : Client N ι V E) (tr : List (Event N ι Body Label)) : Prop
  | fresh (hpc : k.owner = .idle) (hcalls : calls tr = []) (hf : k.frame = .suspended 0)
  | before (hpc : k.owner = .getDone ∨ k.owner = .attach) (hcalls : calls tr ≠ [])
      (hf : k.frame = .suspended 0)
  | tested (hpc : k.owner = .testDone .wait ∨ k.owner = .resume .wait) (hcalls : calls tr ≠ [])
      (hf : k.frame = .suspended 0) (hext : k.external = true)
  | started (hpc : k.owner = .inside .wait ∨ k.owner = .waiting) (hcalls : calls tr ≠ [])
      (hf : k.frame ≠ .suspended 0) (hext : k.external = true)
  | returned (hpc : k.owner = .idle) (hcalls : calls tr ≠ []) (hf : k.frame = .finished)

/-- The promise, and what it will be fulfilled with. -/
structure Outcome (cfg : Config ι V E) (k : Client N ι V E)
    (tr : List (Event N ι Body Label)) : Prop where
  lives : k.frame ≠ .destroyed ∧ k.frame ≠ .undefined
  pending : k.frame ≠ .finished → k.promise = none ∧ fulfilments tr = 0
  stored : k.frame.done = true → k.frame ≠ .finished →
    ∃ r, k.stored = some r ∧ Ended cfg tr r
  settled : k.frame = .finished →
    (∃ r, k.promise = some r ∧ Ended cfg tr r) ∧ fulfilments tr = 1

/-- The invariant of a single `get()`. -/
structure Single (cfg : Config ι V E) (k : Client N ι V E)
    (tr : List (Event N ι Body Label)) : Prop where
  controlled : Controlled cfg k tr
  position : Position k tr
  outcome : Outcome cfg k tr

variable {cfg : Config ι V E} {s s' : State N ι Body} {k k' : Client N ι V E}
variable {tr es : List (Event N ι Body Label)} {e : Event N ι Body Label}

/-- The owner leaves the coroutine to the pool. -/
theorem Position.owned (h : Position k tr) (hs : Step cfg s k e k')
    (hget : ∀ t label, e = .user t label → SingleGet k tr t label) :
    ∀ t label, e = .user t label → Owned k tr t label := by
  rintro t label rfl
  cases label with
  | resume task point =>
      cases task with
      | some id => trivial
      | none =>
          cases hs with
          | quiet he => cases he
          | resumeOwner hpc =>
              cases h with
              | fresh hpc' | returned hpc' => simp [hpc] at hpc'
              | before hpc' | started hpc' => simp [hpc] at hpc'
              | tested hpc' hcalls hf => exact hf
  | call c =>
      intro hd
      have hgets := (hget _ _ rfl).1
      cases c with
      | get i => cases hd
      | _ => cases hgets
  | _ => trivial

/-- The coroutine moves on after its initial suspension, and not at its end. -/
theorem Position.move (h : Position k tr) (hes : calls es = [])
    (hpc : k'.owner = k.owner) (hext : k'.external = k.external)
    (hf : k.frame ≠ .suspended 0) (hfin : k.frame ≠ .finished)
    (hf' : k'.frame ≠ .suspended 0) : Position k' (tr ++ es) := by
  cases h with
  | fresh hpc₀ hcalls hf₀ => exact (hf hf₀).elim
  | before hpc₀ hcalls hf₀ => exact (hf hf₀).elim
  | tested hpc₀ hcalls hf₀ hext₀ => exact (hf hf₀).elim
  | returned hpc₀ hcalls hf₀ => exact (hfin hf₀).elim
  | started hpc₀ hcalls _ hext₀ =>
      refine .started (by rwa [hpc]) ?_ hf' (hext.trans hext₀)
      rwa [calls_append, hes, List.append_nil]

/-- Nothing changes for the owner. -/
theorem Position.silent (h : Position k tr) (hes : calls es = []) : Position k (tr ++ es) := by
  have hcalls' : calls (tr ++ es) = calls tr := by rw [calls_append, hes, List.append_nil]
  cases h with
  | fresh hpc hcalls hf => exact .fresh hpc (hcalls'.trans hcalls) hf
  | before hpc hcalls hf => exact .before hpc (hcalls' ▸ hcalls) hf
  | tested hpc hcalls hf hext => exact .tested hpc (hcalls' ▸ hcalls) hf hext
  | started hpc hcalls hf hext => exact .started hpc (hcalls' ▸ hcalls) hf hext
  | returned hpc hcalls hf => exact .returned hpc (hcalls' ▸ hcalls) hf

variable [DecidableEq ι] [Fintype ι]
variable {D : Client N ι V E → List (Event N ι Body Label) → Tid N ι → Label → Prop}

theorem Position.step (hr : (pool N ι Body Label).Reach s tr) (htasks : Tasks k tr)
    (htoken : Token k tr) (hout : Outcome cfg k tr) (h : Position k tr)
    (heff : Effect s s' [e]) (hs : Step cfg s k e k')
    (hget : ∀ t label, e = .user t label → SingleGet k tr t label) :
    Position k' (tr ++ [e]) := by
  have hnoCall : ∀ {t : Tid N ι} {label : Label}, (∀ c, label ≠ .call c) →
      calls (tr ++ [.user t label]) = calls tr := by
    intro t label hlabel
    cases label with
    | call c => exact (hlabel c rfl).elim
    | _ => simp [calls]
  cases hs with
  | quiet he => exact h.silent (by cases e <;> first | rfl | cases he)
  | taskDone hres hoff => exact h.silent rfl
  | suspend hf => exact h.move rfl rfl rfl (by simp [hf]) (by simp [hf]) (by simp)
  | rethrow hf =>
      obtain ⟨n, rfl, _⟩ := htoken.suspended_of_rejected hr htasks heff
      exact h.move rfl rfl rfl (by simp [hf]) (by simp [hf]) (by simp)
  | rejectedLate hf =>
      obtain ⟨_, _, hframe⟩ := htoken.suspended_of_rejected hr htasks heff
      exact (hf hframe).elim
  | resumeTask hctrl hnew =>
      obtain ⟨n, _, hframe⟩ := htoken.live _ (outstanding_of_running hr hctrl hnew)
      exact h.move rfl rfl rfl (by simp [hframe]) (by simp [hframe])
        (by simp [hframe, Frame.resume])
  | segment hf hn => exact h.move rfl rfl rfl (by simp [hf]) (by simp [hf]) (by simp)
  | lastSegment hf hn => exact h.move rfl rfl rfl (by simp [hf]) (by simp [hf]) (by simp)
  | unhandledException hf => exact h.move rfl rfl rfl (by simp [hf]) (by simp [hf]) (by simp)
  | readNull hf hext => exact h.move rfl rfl rfl (by simp [hf]) (by simp [hf]) (by simp)
  | readPromise hf hext => exact h.move rfl rfl rfl (by simp [hf]) (by simp [hf]) (by simp)
  | fulfil hf => exact h.move rfl rfl rfl (by simp [hf]) (by simp [hf]) (by simp)
  | @call c hpc =>
      obtain ⟨hgets, hcalls⟩ := hget _ _ rfl
      cases h with
      | fresh hpc₀ hcalls₀ hf =>
          cases c with
          | get i =>
              have hholder : k.holder = some i := by simpa [Client.gets] using hgets
              exact .before (.inl (by simp [Client.call, hholder])) (by simp [calls]) hf
          | _ => cases hgets
      | returned hpc₀ hcalls₀ hf => exact (hcalls₀ hcalls).elim
      | before hpc₀ | tested hpc₀ | started hpc₀ => simp [hpc] at hpc₀
  | getDone hpc =>
      cases h with
      | before hpc₀ hcalls hf =>
          exact .before (.inr (by simp [hf, Frame.done])) (by rwa [hnoCall (by simp)]) hf
      | fresh hpc₀ | returned hpc₀ => simp [hpc] at hpc₀
      | tested hpc₀ | started hpc₀ => simp [hpc] at hpc₀
  | attach hpc =>
      cases h with
      | before hpc₀ hcalls hf =>
          exact .tested (.inl rfl) (by rwa [hnoCall (by simp)]) hf rfl
      | fresh hpc₀ | returned hpc₀ => simp [hpc] at hpc₀
      | tested hpc₀ | started hpc₀ => simp [hpc] at hpc₀
  | @testDone a hpc =>
      cases h with
      | tested hpc₀ hcalls hf hext =>
          obtain rfl : a = .wait := by simpa [hpc] using hpc₀
          exact .tested (.inr (by simp [hf, Frame.done])) (by rwa [hnoCall (by simp)]) hf hext
      | fresh hpc₀ | returned hpc₀ => simp [hpc] at hpc₀
      | before hpc₀ | started hpc₀ => simp [hpc] at hpc₀
  | @resumeOwner a hpc =>
      cases h with
      | tested hpc₀ hcalls hf hext =>
          obtain rfl : a = .wait := by simpa [hpc] using hpc₀
          exact .started (.inl rfl) (by rwa [hnoCall (by simp)]) (by simp [hf, Frame.resume]) hext
      | fresh hpc₀ | returned hpc₀ => simp [hpc] at hpc₀
      | before hpc₀ | started hpc₀ => simp [hpc] at hpc₀
  | @leave a hpc hoff =>
      cases h with
      | started hpc₀ hcalls hf hext =>
          obtain rfl : a = .wait := by simpa [hpc] using hpc₀
          exact .started (.inr rfl) (by rwa [hnoCall (by simp)]) hf hext
      | fresh hpc₀ | returned hpc₀ => simp [hpc] at hpc₀
      | before hpc₀ | tested hpc₀ => simp [hpc] at hpc₀
  | getResult hpc =>
      cases h with
      | fresh hpc₀ | returned hpc₀ => simp [hpc] at hpc₀
      | before hpc₀ | tested hpc₀ | started hpc₀ => simp [hpc] at hpc₀
  | getValue hpc hsome =>
      cases h with
      | started hpc₀ hcalls hf hext =>
          refine .returned rfl (by rwa [hnoCall (by simp)]) ?_
          by_contra hfin
          rw [(hout.pending hfin).1] at hsome
          cases hsome
      | fresh hpc₀ | returned hpc₀ => simp [hpc] at hpc₀
      | before hpc₀ | tested hpc₀ => simp [hpc] at hpc₀

omit [DecidableEq ι] [Fintype ι] in
/-- The coroutine moves on, and does not end. -/
theorem Outcome.move (h : Outcome cfg k tr) (hes : fulfilments es = 0)
    (hpromise : k'.promise = k.promise) (hf : k.frame ≠ .finished)
    (hdone : k'.frame.done = false)
    (hlives : k'.frame ≠ .destroyed ∧ k'.frame ≠ .undefined) : Outcome cfg k' (tr ++ es) where
  lives := hlives
  pending _ := by
    rw [hpromise, fulfilments_append, hes]
    exact h.pending hf
  stored h' := by rw [hdone] at h'; cases h'
  settled h' := by rw [h'] at hdone; cases hdone

omit [DecidableEq ι] [Fintype ι] in
/-- The coroutine stays where it is. -/
theorem Outcome.silent (h : Outcome cfg k tr) (hes : fulfilments es = 0)
    (hend : ∀ r, Ended cfg tr r → Ended cfg (tr ++ es) r) (hf : k'.frame = k.frame)
    (hpromise : k'.promise = k.promise) (hstored : k'.stored = k.stored) :
    Outcome cfg k' (tr ++ es) where
  lives := hf ▸ h.lives
  pending hne := by
    rw [hpromise, fulfilments_append, hes]
    exact h.pending (hf ▸ hne)
  stored hdone hne := by
    obtain ⟨r, hr, hended⟩ := h.stored (hf ▸ hdone) (hf ▸ hne)
    exact ⟨r, hstored.trans hr, hend r hended⟩
  settled hfin := by
    obtain ⟨⟨r, hr, hended⟩, hone⟩ := h.settled (hf ▸ hfin)
    refine ⟨⟨r, hpromise.trans hr, hend r hended⟩, ?_⟩
    rw [fulfilments_append, hes, hone]

omit [DecidableEq ι] [Fintype ι] in
/-- The body has ended; its result waits for the final awaiter. -/
theorem Outcome.final (h : Outcome cfg k tr) (hes : fulfilments es = 0) {t : Tid N ι}
    {r : Except E V} (hpromise : k'.promise = k.promise) (hf : k.frame ≠ .finished)
    (hf' : k'.frame = .final t ∨ k'.frame = .fulfilling t) (hstored : k'.stored = some r)
    (hended : Ended cfg (tr ++ es) r) : Outcome cfg k' (tr ++ es) where
  lives := by rcases hf' with hf' | hf' <;> simp [hf']
  pending _ := by
    rw [hpromise, fulfilments_append, hes]
    exact h.pending hf
  stored _ _ := ⟨r, hstored, hended⟩
  settled hfin := by rcases hf' with hf' | hf' <;> simp [hf'] at hfin

theorem Outcome.step (hr : (pool N ι Body Label).Reach s tr) (hctl : Controlled cfg k tr)
    (hpos : Position k tr) (h : Outcome cfg k tr) (heff : Effect s s' [e])
    (hs : Step cfg s k e k') (hget : ∀ t label, e = .user t label → SingleGet k tr t label) :
    Outcome cfg k' (tr ++ [e]) := by
  have hstage := hctl.stage
  cases hs with
  | quiet he =>
      obtain ⟨hseg, hres, hrej⟩ := quiet_silent he
      exact h.silent (by cases e <;> first | rfl | cases he)
        (fun _ hr => hr.silent hseg hres hrej) rfl rfl rfl
  | taskDone hres hoff =>
      exact h.silent rfl (fun _ hr => hr.silent rfl rfl rfl) rfl rfl rfl
  | suspend hf => exact h.move rfl rfl (by simp [hf]) rfl (by simp)
  | rethrow hf => exact h.move rfl rfl (by simp [hf]) rfl (by simp)
  | rejectedLate hf =>
      obtain ⟨_, _, hframe⟩ := hctl.token.suspended_of_rejected hr hctl.tasks heff
      exact (hf hframe).elim
  | resumeTask hctrl hnew =>
      obtain ⟨n, _, hframe⟩ := hctl.token.live _ (outstanding_of_running hr hctrl hnew)
      exact h.move rfl rfl (by simp [hframe]) (by simp [hframe, Frame.resume, Frame.done])
        (by simp [hframe, Frame.resume])
  | resumeOwner hpc =>
      have hframe : k.frame = .suspended 0 :=
        hpos.owned (s := s) (.resumeOwner hpc) hget _ _ rfl
      exact h.move rfl rfl (by simp [hframe]) (by simp [hframe, Frame.resume, Frame.done])
        (by simp [hframe, Frame.resume])
  | segment hf hn => exact h.move rfl rfl (by simp [hf]) rfl (by simp)
  | lastSegment hf hn =>
      rw [hf] at hstage
      exact h.final rfl rfl (by simp [hf]) (.inl rfl) rfl (ended_of_last hstage hn)
  | unhandledException hf =>
      rw [hf] at hstage
      exact h.final rfl rfl (by simp [hf]) (.inl rfl) rfl (ended_of_rethrowing hstage)
  | readNull hf hext =>
      cases hpos with
      | fresh hpc hcalls hf₀ | before hpc hcalls hf₀ => simp [hf] at hf₀
      | tested hpc hcalls hf₀ hext₀ => simp [hf] at hf₀
      | started hpc hcalls hf₀ hext₀ => simp [hext] at hext₀
      | returned hpc hcalls hf₀ => simp [hf] at hf₀
  | readPromise hf hext =>
      obtain ⟨r, hr, hended⟩ := h.stored (by rw [hf]; rfl) (by simp [hf])
      exact h.final rfl rfl (by simp [hf]) (.inr rfl) hr (hended.silent rfl rfl rfl)
  | fulfil hf =>
      obtain ⟨r, hr, hended⟩ := h.stored (by rw [hf]; rfl) (by simp [hf])
      have hnone := (h.pending (by simp [hf])).2
      refine ⟨by simp, fun hne => (hne rfl).elim, fun _ hne => (hne rfl).elim, fun _ => ?_⟩
      refine ⟨⟨r, hr, hended.silent rfl rfl rfl⟩, ?_⟩
      rw [fulfilments_append, hnone]
      rfl
  | @call c hpc =>
      obtain ⟨hgets, _⟩ := hget _ _ rfl
      cases c with
      | get i => exact h.silent rfl (fun _ hr => hr.silent rfl rfl rfl) rfl rfl rfl
      | _ => cases hgets
  | attach hpc =>
      cases hpos with
      | before hpc₀ hcalls hf =>
          refine ⟨h.lives, fun hne => ⟨rfl, ?_⟩, fun hdone => ?_, fun hfin => ?_⟩
          · rw [fulfilments_append, (h.pending hne).2]
            rfl
          · simp [hf, Frame.done] at hdone
          · simp [hf] at hfin
      | fresh hpc₀ | returned hpc₀ => simp [hpc] at hpc₀
      | tested hpc₀ | started hpc₀ => simp [hpc] at hpc₀
  | getResult hpc =>
      cases hpos with
      | fresh hpc₀ | returned hpc₀ => simp [hpc] at hpc₀
      | before hpc₀ | tested hpc₀ | started hpc₀ => simp [hpc] at hpc₀
  | getDone hpc | testDone hpc | leave hpc hoff | getValue hpc hsome =>
      exact h.silent rfl (fun _ hr => hr.silent rfl rfl rfl) rfl rfl rfl

omit [DecidableEq ι] [Fintype ι] in
theorem single_init : Single cfg Client.init ([] : List (Event N ι Body Label)) where
  controlled := controlled_init
  position := .fresh rfl rfl rfl
  outcome :=
    { lives := ⟨by simp [Client.init], by simp [Client.init]⟩
      pending := fun _ => ⟨rfl, rfl⟩
      stored := fun h => by cases h
      settled := fun h => by cases h }

theorem Single.step (hr : (pool N ι Body Label).Reach s tr) (h : Single cfg k tr)
    (hj : Joint (Step cfg) SingleGet s s' k k' tr es) : Single cfg k' (tr ++ es) := by
  rcases hj.step with ⟨rfl, rfl⟩ | ⟨e, rfl, hs⟩
  · rwa [List.append_nil]
  · have hget : ∀ t label, e = .user t label → SingleGet k tr t label :=
      fun t label he => hj.condition t label (by rw [he])
    refine ⟨h.controlled.step hr hj fun t label he => ?_, ?_, ?_⟩
    · exact h.position.owned hs hget t label (by simpa using he)
    · exact h.position.step hr h.controlled.tasks h.controlled.token h.outcome hj.effect hs hget
    · exact h.outcome.step hr h.controlled h.position hj.effect hs hget

end CoroTask
end ThreadPool
end AsyncTaskEngine
