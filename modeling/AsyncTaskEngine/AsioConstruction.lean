import AsyncTaskEngine.AsioContext

/-!
# The constructor of an AsioContext

Each run task that a context has submitted is behind one of its futures, was
rejected, or its `submit` call is under way in the constructor.  A constructor
whose first `submit` is rejected leaves no task behind.  When a later one is
rejected, the tasks submitted before are queued or inside `run()`, and the members
are destroyed without stopping the `io_context` or waiting for the tasks.
-/

namespace AsyncTaskEngine
namespace ThreadPool
namespace AsioContext

universe u v w

variable {N : Nat} {ι : Type u} {V : Type v} {E : Type w}

/-- The constructor has been left by an exception. -/
def Phase.unwound {τ : Type u} : Phase τ → Bool
  | .unwinding _ => true
  | .unguarded _ => true
  | .failed => true
  | _ => false

/-- The thread is inside the `submit` call of the task. -/
def Pending (s : State N ι Body) (t : Tid N ι) (x : Task Body) : Prop :=
  (s.ctrl t).user? = some (.submitting x) ∨ (s.ctrl t).user? = some (.notifying x)

/-- The run tasks of all contexts are accounted for. -/
structure Accounted (s : State N ι Body) (k : Client N ι V E)
    (tr : List (Event N ι Body (Label V E))) : Prop where
  fresh : ∀ c, k.begun ≤ c → (k.contexts c).phase = .absent ∧ (k.contexts c).futures = []
  inside : ∀ t x, Pending s t x → ∀ c, x.body = .run c →
    (k.contexts c).phase = .constructing t
  tracked : ∀ x ∈ calledTasks tr, ∀ c, x.body = .run c →
    x.id ∈ (k.contexts c).futures ∨ x ∈ rejectedTasks tr ∨ ∃ t, Pending s t x
  saved : ∀ c, ∀ id ∈ (k.contexts c).futures,
    ∃ x ∈ acceptedTasks tr, x.id = id ∧ x.body = .run c
  unwound : ∀ x ∈ rejectedTasks tr, ∀ c, x.body = .run c →
    (k.contexts c).phase.unwound = true

variable [DecidableEq ι] [Fintype ι]
variable {s s' : State N ι Body} {k k' : Client N ι V E}
variable {tr es : List (Event N ι Body (Label V E))} {e : Event N ι Body (Label V E)}

omit [Fintype ι] in
/-- A call of `submit` is called before it goes on. -/
theorem Pending.before (heff : Effect s s' es) {t : Tid N ι} {x : Task Body}
    (h : Pending s' t x) : Pending s t x ∨ es = [.submitCalled t x] := by
  rcases h with hu | hu
  · exact (heff.user_inv hu).imp_left .inl
  · rcases heff.user_inv hu with hu | rfl
    · exact .inl (.inr hu)
    · cases heff with
      | accepted hu hctrl hopen hc hst hn => exact .inl (.inl hu)

namespace Accounted

omit [DecidableEq ι] [Fintype ι] in
/-- Only a context that has been begun has tasks. -/
theorem begun_of_called (h : Accounted s k tr) {x : Task Body} {c : Nat}
    (hx : x ∈ calledTasks tr) (hc : x.body = .run c) : c < k.begun := by
  by_contra hlt
  obtain ⟨habsent, hfutures⟩ := h.fresh c (Nat.le_of_not_lt hlt)
  rcases h.tracked x hx c hc with hid | hrej | ⟨t, ht⟩
  · rw [hfutures] at hid
    cases hid
  · have := h.unwound x hrej c hc
    rw [habsent] at this
    cases this
  · rw [h.inside t x ht c hc] at habsent
    cases habsent

omit [Fintype ι] in
/-- Only the constructor of a context deals with `submit` calls for its run tasks. -/
theorem constructing (h : Accounted s k tr) (heff : Effect s s' [e]) {t : Tid N ι} {x : Task Body}
    {c : Nat} (he : e = .accepted t x ∨ e = .rejected t x ∨ e = .submitReturned t x)
    (hc : x.body = .run c) : (k.contexts c).phase = .constructing t := by
  rcases he with rfl | rfl | rfl
  · cases heff with
    | accepted hu => exact h.inside t x (.inl hu) c hc
  · cases heff with
    | rejected hu => exact h.inside t x (.inl hu) c hc
  · cases heff with
    | submitReturned hu => exact h.inside t x (.inr hu) c hc

omit [Fintype ι] in
theorem fresh_step (h : Accounted s k tr) (heff : Effect s s' [e]) (hs : Step s k e k')
    {c : Nat} (hc : k'.begun ≤ c) :
    (k'.contexts c).phase = .absent ∧ (k'.contexts c).futures = [] := by
  have hle : k.begun ≤ c := by
    rcases hs.begun_inv with heq | ⟨heq, _⟩ <;> omega
  obtain ⟨habsent, hfutures⟩ := h.fresh c hle
  constructor
  · rcases hs.phase_inv c with heq | ⟨p, _, hchange⟩
    · rw [heq, habsent]
    · cases hchange with
      | construct hbegun =>
          rcases hs.begun_inv with heq | ⟨heq, _⟩
          · cases hs with
            | construct hcode => simp at heq
            | phase hm => cases hm
            | operation ho hm => cases hm
            | quiet he => cases he
          · omega
      | unwind =>
          rw [h.constructing heff (.inr (.inl rfl)) rfl] at habsent
          cases habsent
      | move hm => cases hm <;> simp_all
  · rcases hs.futures_inv c with heq | ⟨t, id, rfl, _⟩ | ⟨_, heq⟩
    · rw [heq, hfutures]
    · rw [h.constructing heff (.inr (.inr rfl)) rfl] at habsent
      cases habsent
    · exact heq

omit [Fintype ι] in
/-- A context that has been left by an exception stays so. -/
theorem unwound_stays (h : Accounted s k tr) (hs : Step s k e k') {c : Nat}
    (hc : (k.contexts c).phase.unwound = true) : (k'.contexts c).phase.unwound = true := by
  rcases hs.phase_inv c with heq | ⟨p, hp', hchange⟩
  · rw [heq, hc]
  · rw [hp']
    cases hchange with
    | construct hbegun =>
        rw [(h.fresh c (Nat.le_of_eq hbegun.symm)).1] at hc
        cases hc
    | unwind => rfl
    | move hm =>
        cases hm with
        | destroyGuard hp => rfl
        | fail hp => rfl
        | constructed hp | resetGuard hp | stop hp | waited hp | destroyIoContext hp
        | ioContextDestroyed hp =>
            rw [hp] at hc
            cases hc

omit [Fintype ι] in
theorem unwound_step (h : Accounted s k tr) (hs : Step s k e k') {x : Task Body} {c : Nat}
    (hx : x ∈ rejectedTasks (tr ++ [e])) (hc : x.body = .run c) :
    (k'.contexts c).phase.unwound = true := by
  rw [rejectedTasks_append, List.mem_append] at hx
  rcases hx with hx | hx
  · exact h.unwound_stays hs (h.unwound x hx c hc)
  · obtain ⟨t, ht⟩ := mem_rejectedTasks.mp hx
    obtain rfl := List.mem_singleton.mp ht
    obtain ⟨id, body⟩ := x
    dsimp only at hc
    subst hc
    cases hs with
    | quiet he => cases he
    | unwind =>
        rw [setPhase_phase, if_pos rfl]
        rfl

theorem saved_step (h : Accounted s k tr) (hr : (pool N ι Body (Label V E)).Reach s tr)
    (heff : Effect s s' [e]) (hs : Step s k e k') {c id : Nat}
    (hid : id ∈ (k'.contexts c).futures) :
    ∃ x ∈ acceptedTasks (tr ++ [e]), x.id = id ∧ x.body = .run c := by
  have hold : id ∈ (k.contexts c).futures →
      ∃ x ∈ acceptedTasks (tr ++ [e]), x.id = id ∧ x.body = .run c := by
    intro hid
    obtain ⟨x, hx, hxid⟩ := h.saved c id hid
    refine ⟨x, ?_, hxid⟩
    rw [acceptedTasks_append]
    exact List.mem_append_left _ hx
  rcases hs.futures_inv c with heq | ⟨t, id', rfl, heq⟩ | ⟨_, heq⟩
  · exact hold (heq ▸ hid)
  · rw [heq, List.mem_append, List.mem_singleton] at hid
    rcases hid with hid | rfl
    · exact hold hid
    · cases heff with
      | submitReturned hu hctrl hsame =>
          refine ⟨⟨id, .run c⟩, ?_, rfl, rfl⟩
          rw [acceptedTasks_append]
          exact List.mem_append_left _ ((phases_reach hr).notifies _ _ hu)
  · rw [heq] at hid
    cases hid

omit [Fintype ι] in
/-- A constructor does not move while it is inside `submit`. -/
theorem inside_step (h : Accounted s k tr) (heff : Effect s s' [e]) (hs : Step s k e k')
    {t : Tid N ι} {x : Task Body} (hx : Pending s' t x) {c : Nat} (hbody : x.body = .run c) :
    (k'.contexts c).phase = .constructing t := by
  rcases hx.before heff with hbefore | he
  · have hp := h.inside t x hbefore c hbody
    rcases hs.phase_inv c with heq | ⟨p, _, hchange⟩
    · rw [heq, hp]
    · cases hchange with
      | construct hbegun =>
          rw [(h.fresh c (Nat.le_of_eq hbegun.symm)).1] at hp
          cases hp
      | @unwind t' id =>
          cases heff with
          | rejected hu hctrl hclosed hsame =>
              have hp' := h.inside t' _ (.inl hu) c rfl
              rw [hp] at hp'
              cases hp'
              rcases hx with hx | hx <;>
                (rw [hctrl, Function.update_self, Ctrl.user?_setUser hu] at hx; cases hx)
      | move hm =>
          cases heff with
          | user label hcode hsame =>
              cases hm with
              | constructed hp' =>
                  rw [hp] at hp'
                  cases hp'
                  rcases hbefore with hu | hu <;> (rw [hcode] at hu; cases hu)
              | destroyGuard hp' | fail hp' | resetGuard hp' | stop hp' | waited hp'
              | destroyIoContext hp' | ioContextDestroyed hp' =>
                  rw [hp] at hp'
                  cases hp'
  · obtain ⟨id, body⟩ := x
    dsimp only at hbody
    subst hbody
    cases (List.cons.inj he).1
    cases hs with
    | quiet he => cases he
    | submitRun hp hlen => exact hp

omit [Fintype ι] in
theorem tracked_step (h : Accounted s k tr) (heff : Effect s s' [e]) (hs : Step s k e k')
    {x : Task Body} {c : Nat} (hx : x ∈ calledTasks (tr ++ [e])) (hbody : x.body = .run c) :
    x.id ∈ (k'.contexts c).futures ∨ x ∈ rejectedTasks (tr ++ [e]) ∨ ∃ t, Pending s' t x := by
  have hrejected : ∀ {t : Tid N ι}, [e] = [.rejected t x] → x ∈ rejectedTasks (tr ++ [e]) := by
    intro t he
    rw [he, rejectedTasks_append, List.mem_append]
    exact .inr (mem_rejectedTasks.mpr ⟨t, List.mem_singleton_self _⟩)
  rw [calledTasks_append, List.mem_append] at hx
  rcases hx with hx | hx
  · rcases h.tracked x hx c hbody with hid | hrej | ⟨t, hu | hu⟩
    · refine .inl ?_
      rcases hs.futures_inv c with heq | ⟨_, _, _, heq⟩ | ⟨hbegun, _⟩
      · rwa [heq]
      · rw [heq]
        exact List.mem_append_left _ hid
      · have := h.begun_of_called hx hbody
        omega
    · refine .inr (.inl ?_)
      rw [rejectedTasks_append]
      exact List.mem_append_left _ hrej
    · rcases heff.user_next hu with hu' | ⟨_, hu'⟩ | he
      · exact .inr (.inr ⟨t, .inl hu'⟩)
      · exact .inr (.inr ⟨t, .inr hu'⟩)
      · exact .inr (.inl (hrejected he))
    · rcases heff.user_next hu with hu' | he
      · exact .inr (.inr ⟨t, .inr hu'⟩)
      · obtain ⟨id, body⟩ := x
        dsimp only at hbody
        subst hbody
        cases (List.cons.inj he).1
        cases hs with
        | quiet he => cases he
        | saveFuture => exact .inl (by simp)
  · obtain ⟨t, ht⟩ := mem_calledTasks.mp hx
    cases List.mem_singleton.mp ht
    cases heff with
    | submitCalled body hu hctrl hc hst hn =>
        refine .inr (.inr ⟨t, .inl ?_⟩)
        rw [hctrl, Function.update_self, Ctrl.user?_setUser hu]

theorem step {D : Client N ι V E → List (Event N ι Body (Label V E)) → Tid N ι → Label V E → Prop}
    (h : Accounted s k tr) (hr : (pool N ι Body (Label V E)).Reach s tr)
    (hj : Joint Step D s s' k k' tr es) : Accounted s' k' (tr ++ es) := by
  rcases hj.step with ⟨rfl, rfl⟩ | ⟨e, rfl, hs⟩
  · rw [List.append_nil]
    refine ⟨h.fresh, fun t x hx => ?_, fun x hx c hc => ?_, h.saved, h.unwound⟩
    · exact h.inside t x ((hx.before hj.effect).resolve_right (by simp))
    · rcases h.tracked x hx c hc with hid | hrej | ⟨t, hu | hu⟩
      · exact .inl hid
      · exact .inr (.inl hrej)
      · exact .inr (.inr ⟨t, .inl ((hj.effect.user_next hu).resolve_right (by simp))⟩)
      · exact .inr (.inr ⟨t, .inr ((hj.effect.user_next hu).resolve_right (by simp))⟩)
  · exact ⟨fun c hc => h.fresh_step hj.effect hs hc,
      fun t x hx c hc => h.inside_step hj.effect hs hx hc,
      fun x hx c hc => h.tracked_step hj.effect hs hx hc,
      fun c id hid => h.saved_step hr hj.effect hs hid,
      fun x hx c hc => h.unwound_step hs hx hc⟩

end Accounted

theorem accounted_init :
    Accounted (pool N ι Body (Label V E)).init (Client.init : Client N ι V E) [] where
  fresh _ _ := ⟨rfl, rfl⟩
  inside t x hx := by rcases t with w | i <;> rcases hx with hu | hu <;> cases hu
  tracked x hx := by simp [calledTasks] at hx
  saved c id hid := by cases hid
  unwound x hx := by simp [rejectedTasks] at hx

variable {D : Client N ι V E → List (Event N ι Body (Label V E)) → Tid N ι → Label V E → Prop}
variable {q : State N ι Body × Client N ι V E}

theorem accounted_reach (hr : (asio N ι V E).ReachWhen (UserWhen D) q tr) :
    Accounted q.1 q.2 tr :=
  asio_induction (P := Accounted) hr accounted_init fun hr h hj => h.step hr hj

/-- No task of the context is queued, or in the hands of a worker. -/
structure NoRun (s : State N ι Body) (c : Nat) : Prop where
  queued : ∀ x ∈ s.queue.contents.tasks, x.body ≠ .run c
  held : ∀ w, ∀ x ∈ (s.ctrl (.inl w)).holds, x.body ≠ .run c

/-- The tasks of a context whose constructor is over are behind its futures. -/
theorem Accounted.saved_of_accepted (h : Accounted s k tr)
    (hr : (pool N ι Body (Label V E)).Reach s tr) {c : Nat} {x : Task Body}
    (hx : x ∈ acceptedTasks tr) (hbody : x.body = .run c)
    (hover : ∀ t, (k.contexts c).phase ≠ .constructing t) : x.id ∈ (k.contexts c).futures := by
  rcases h.tracked x (called_of_accepted hr hx) c hbody with hid | hrej | ⟨t, ht⟩
  · exact hid
  · have hone := accepted_once hr x.id
    have := timesIn_pos hx
    have := timesIn_pos hrej
    omega
  · exact (hover t (h.inside t x ht c hbody)).elim

/-- A context that has no futures has no task queued or running. -/
theorem Accounted.noRun_of_nil (h : Accounted s k tr)
    (hr : (pool N ι Body (Label V E)).Reach s tr) {c : Nat}
    (hover : ∀ t, (k.contexts c).phase ≠ .constructing t)
    (hnil : (k.contexts c).futures = []) : NoRun s c := by
  have hnone : ∀ x ∈ acceptedTasks tr, x.body ≠ .run c := by
    intro x hx hbody
    have hid := h.saved_of_accepted hr hx hbody hover
    rw [hnil] at hid
    cases hid
  constructor
  · intro x hx
    refine hnone x ?_
    rw [accepted_eq_popped_append hr]
    exact List.mem_append_right _ hx
  · intro w x hx
    exact hnone x ((popped_prefix_accepted hr).subset (popped_of_held hr hx))

omit [Fintype ι] in
/-- A context with tasks that is guarded has been guarded before. -/
theorem Accounted.guarded_before (h : Accounted s k tr) (heff : Effect s s' [e])
    (hs : Step s k e k') {x : Task Body} {c : Nat} (hx : x ∈ calledTasks tr)
    (hbody : x.body = .run c) (hguarded : (k'.contexts c).phase.guarded = true) :
    (k.contexts c).phase.guarded = true := by
  rcases hs.phase_inv c with heq | ⟨p, hp', hchange⟩
  · rwa [← heq]
  · rw [hp'] at hguarded
    cases hchange with
    | construct hbegun =>
        have := h.begun_of_called hx hbody
        omega
    | unwind =>
        rw [h.constructing heff (.inr (.inl rfl)) rfl]
        rfl
    | move hm =>
        cases hm with
        | constructed hp hlen =>
            rw [hp]
            rfl
        | _ => cases hguarded

/-- `run()` does not return while its context is guarded. -/
def Guarded (k : Client N ι V E) (tr : List (Event N ι Body (Label V E))) : Prop :=
  ∀ x ∈ finishedTasks tr, ∀ c, x.body = .run c → (k.contexts c).phase.guarded = false

theorem Guarded.step (h : Guarded k tr) (hacc : Accounted s k tr)
    (hr : (pool N ι Body (Label V E)).Reach s tr) (heff : Effect s s' [e])
    (hs : Step s k e k') : Guarded k' (tr ++ [e]) := by
  intro x hx c hbody
  rw [finishedTasks_append, List.mem_append] at hx
  rcases hx with hx | hx
  · refine Bool.eq_false_iff.mpr fun hguarded => ?_
    have hcalled : x ∈ calledTasks tr := by
      refine called_of_accepted hr ?_
      exact (started_subperm_accepted hr).subset ((finished_subperm_started hr).subset hx)
    have hbefore := hacc.guarded_before heff hs hcalled hbody hguarded
    rw [h x hx c hbody] at hbefore
    cases hbefore
  · obtain ⟨w, hw⟩ := mem_finishedTasks.mp hx
    obtain rfl := List.mem_singleton.mp hw
    obtain ⟨id, body⟩ := x
    dsimp only at hbody
    subst hbody
    cases hs with
    | quiet he => cases he
    | runReturns hcalls hfree hmay =>
        show (k.contexts c).phase.guarded = false
        unfold Client.mayReturn at hmay
        cases hp : (k.contexts c).phase <;> simp [hp, Phase.stopped, Phase.guarded] at hmay ⊢

theorem guarded_reach (hr : (asio N ι V E).ReachWhen (UserWhen D) q tr) : Guarded q.2 tr := by
  refine (asio_induction (P := fun s k tr => Accounted s k tr ∧ Guarded k tr) hr
    ⟨accounted_init, fun x hx => ?_⟩ fun hr h hj => ⟨h.1.step hr hj, ?_⟩).2
  · simp [finishedTasks] at hx
  · rcases hj.step with ⟨rfl, rfl⟩ | ⟨e, rfl, hs⟩
    · rw [List.append_nil]
      exact h.2
    · exact h.2.step h.1 hr hj.effect hs

/--
When the exception begins to destroy the members, the tasks that were accepted are
all queued or in the hands of workers.
-/
theorem noRun_iff_rejectedFirst (hr : (asio N ι V E).ReachWhen (UserWhen D) q tr) {c : Nat}
    {t : Tid N ι} (hp : (q.2.contexts c).phase = .unwinding t) :
    NoRun q.1 c ↔ (q.2.contexts c).futures = [] := by
  have hpool := hr.reach.of_guard
  have hacc := accounted_reach hr
  constructor
  · intro hnone
    refine List.eq_nil_iff_forall_not_mem.mpr fun id hid => ?_
    obtain ⟨x, hx, _, hbody⟩ := hacc.saved c id hid
    rw [accepted_eq_popped_append hpool, List.mem_append] at hx
    rcases hx with hx | hx
    · have hrunning : x ∉ finishedTasks tr := by
        intro hfin
        have := guarded_reach hr x hfin c hbody
        rw [hp] at this
        cases this
      obtain ⟨w, hw⟩ := held_of_popped hpool hx hrunning
      exact hnone.held w x hw hbody
    · exact hnone.queued x hx hbody
  · intro hnil
    exact hacc.noRun_of_nil hpool (by simp [hp]) hnil

/-- When `submit` throws in a constructor, it is the first `submit` of the constructor. -/
def RejectedFirst (k : Client N ι V E) (_ : List (Event N ι Body (Label V E))) (_ : Tid N ι) :
    Label V E → Prop
  | .destroyGuard c => (k.contexts c).futures = []
  | _ => True

instance (k : Client N ι V E) (tr : List (Event N ι Body (Label V E))) (t : Tid N ι)
    (label : Label V E) : Decidable (RejectedFirst k tr t label) :=
  match label with
  | .destroyGuard c => inferInstanceAs (Decidable ((k.contexts c).futures = []))
  | .construct _ | .constructed _ | .destroyIoContext _ | .resetGuard _ | .stop _ | .waited _
  | .ioContextDestroyed _ | .asyncAfter _ _ | .post _ _ | .callReturned _ | .expire _ _
  | .invoke _ | .callable _ | .callableEnded _ | .settle _ | .dispose _ | .discard _ =>
      isTrue trivial

/-- A constructor that has failed has no task behind a future. -/
def Empty (k : Client N ι V E) : Prop :=
  ∀ c t, (k.contexts c).phase = .unguarded t → (k.contexts c).futures = []

omit [Fintype ι] in
theorem Empty.step (h : Empty k) (hacc : Accounted s k tr)
    (hj : Joint Step RejectedFirst s s' k k' tr es) : Empty k' := by
  rcases hj.step with ⟨rfl, rfl⟩ | ⟨e, rfl, hs⟩
  · exact h
  · intro c t hp
    have hfutures : (k.contexts c).futures = [] := by
      rcases hs.phase_inv c with heq | ⟨p, hp', hchange⟩
      · exact h c t (heq ▸ hp)
      · rw [hp] at hp'
        subst hp'
        cases hchange with
        | move hm =>
            cases hm with
            | destroyGuard hp => exact hj.condition _ _ rfl
    rcases hs.futures_inv c with heq | ⟨u, id, rfl, heq⟩ | ⟨_, heq⟩
    · rw [heq, hfutures]
    · -- The constructor would still be at work.
      have hp' := hacc.constructing hj.effect (.inr (.inr rfl)) rfl
      cases hs with
      | quiet he => cases he
      | saveFuture => simp [hp'] at hp
    · exact heq

/-- The exception that has left the constructor destroys `io_ctx_` in this step. -/
def FailsIn (q : State N ι Body × Client N ι V E) (c : Nat)
    (a : Act N ι Body (Label V E)) : Prop :=
  ∃ t, a = .user t (.destroyIoContext c) ∧ (q.2.contexts c).phase = .unguarded t ∧
    ((asio N ι V E).step q a).isSome = true

/--
If every constructor that fails does so in its first `submit`, no task of the
context is queued or running when the exception destroys `io_ctx_`.
-/
theorem construction_all_or_nothing {c : Nat} {a : Act N ι Body (Label V E)}
    (hr : (asio N ι V E).ReachWhen (UserWhen RejectedFirst) q tr) (ha : FailsIn q c a) :
    NoRun q.1 c := by
  have hpool := hr.reach.of_guard
  have hinv := asio_induction (P := fun s k tr => Accounted s k tr ∧ Empty k) hr
    ⟨accounted_init, fun c t hp => by cases hp⟩
    fun hr h hj => ⟨h.1.step hr hj, h.2.step h.1 hj⟩
  obtain ⟨hacc, hempty⟩ := hinv
  obtain ⟨t, _, hp, _⟩ := ha
  exact hacc.noRun_of_nil hpool (by simp [hp]) (hempty c t hp)

/-- The pool is shut down before the constructor. -/
theorem construction_all_or_nothing_firstRejected :
    ∃ (q : State 1 Unit Body × Client 1 Unit Nat String) (tr : _) (a : _),
      (asio 1 Unit Nat String).ReachWhen (UserWhen RejectedFirst) q tr ∧
        FailsIn q 0 a ∧ NoRun q.1 0 := by
  obtain ⟨q, tr, hr, h⟩ := Machine.exists_reachWhen_of_exec (M := asio 1 Unit Nat String)
    (C := UserWhen RejectedFirst)
    [.shutdown (.inr ()), .advance (.inr ()), .advance (.inr ()), .requestStop (.inr ()),
      .requestStop (.inr ()), .user (.inr ()) (.construct 2), .submit (.inr ()) (.run 0),
      .advance (.inr ()), .user (.inr ()) (.destroyGuard 0)]
    (p := fun r => decide ((r.1.2.contexts 0).phase = .unguarded (.inr ())) &&
      ((asio 1 Unit Nat String).step r.1 (.user (.inr ()) (.destroyIoContext 0))).isSome)
    (by decide)
  obtain ⟨hp, hs⟩ := (Bool.and_eq_true _ _).mp h
  have ha : FailsIn q 0 (.user (.inr ()) (.destroyIoContext 0)) :=
    ⟨_, rfl, of_decide_eq_true hp, hs⟩
  exact ⟨q, tr, _, hr, ha, construction_all_or_nothing hr ha⟩

/-- The pool is shut down between the two `submit` calls of a constructor. -/
theorem failed_construction_leaves_run :
    ¬ ∀ (q : State 1 Bool Body × Client 1 Bool Nat String) (tr : _) (c : Nat) (a : _),
      (asio 1 Bool Nat String).Reach q tr → FailsIn q c a → NoRun q.1 c := by
  intro h
  obtain ⟨q, tr, hr, hp⟩ := Machine.exists_reach_of_exec (M := asio 1 Bool Nat String)
    [.user (.inr true) (.construct 2), .submit (.inr true) (.run 0), .advance (.inr true),
      .notify (.inr true) none, .shutdown (.inr false), .advance (.inr false),
      .submit (.inr true) (.run 0), .advance (.inr true), .user (.inr true) (.destroyGuard 0)]
    (p := fun r => decide ((r.1.2.contexts 0).phase = .unguarded (.inr true)) &&
      ((asio 1 Bool Nat String).step r.1 (.user (.inr true) (.destroyIoContext 0))).isSome &&
        r.1.1.queue.contents.tasks.any fun x => decide (x.body = .run 0))
    (by decide)
  simp only [Bool.and_eq_true, decide_eq_true_eq, List.any_eq_true] at hp
  obtain ⟨⟨hphase, hs⟩, x, hx, hbody⟩ := hp
  exact (h q tr 0 _ hr ⟨_, rfl, hphase, hs⟩).queued x hx hbody

end AsioContext
end ThreadPool
end AsyncTaskEngine
