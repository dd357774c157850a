import AsyncTaskEngine.AsioConstruction

/-!
# The destructor of an AsioContext

The destructor stops its own `io_context` and then waits for the futures of all its
run tasks, also of those that no worker has taken yet.  The queue is FIFO and the
run tasks of the other contexts do not return; so the wait can end exactly when
fewer than `N` of these are ahead of each queued task of this context.
-/

namespace AsyncTaskEngine
namespace ThreadPool
namespace AsioContext

universe u v w

variable {N : Nat} {ι : Type u} {V : Type v} {E : Type w}

/-- The task is inside `run()` for good, once a worker has taken it. -/
def Client.occupies (k : Client N ι V E) (x : Task Body) : Bool :=
  match x.body with
  | .run c => (k.contexts c).phase.guarded
  | .other => false

/--
Ahead of each task of the context that is still queued, fewer than `N` run tasks of
contexts that are not being destroyed have been accepted.
-/
def RoomFor (k : Client N ι V E) (tr : List (Event N ι Body (Label V E))) (c : Nat) : Prop :=
  ∀ j (h : j < (acceptedTasks tr).length), (acceptedTasks tr)[j].body = .run c →
    (acceptedTasks tr)[j] ∉ poppedTasks tr → ((acceptedTasks tr).take j).countP k.occupies < N

instance (k : Client N ι V E) (tr : List (Event N ι Body (Label V E))) (c : Nat) :
    Decidable (RoomFor k tr c) :=
  inferInstanceAs (Decidable (∀ j (h : j < (acceptedTasks tr).length),
    (acceptedTasks tr)[j].body = .run c → (acceptedTasks tr)[j] ∉ poppedTasks tr →
      ((acceptedTasks tr).take j).countP k.occupies < N))

/-- A context is stopped only when its queued tasks have room. -/
def RoomAtStop (k : Client N ι V E) (tr : List (Event N ι Body (Label V E))) (_ : Tid N ι) :
    Label V E → Prop
  | .stop c => RoomFor k tr c
  | _ => True

instance (k : Client N ι V E) (tr : List (Event N ι Body (Label V E))) (t : Tid N ι)
    (label : Label V E) : Decidable (RoomAtStop k tr t label) :=
  match label with
  | .stop c => inferInstanceAs (Decidable (RoomFor k tr c))
  | .construct _ | .constructed _ | .destroyGuard _ | .destroyIoContext _ | .resetGuard _
  | .waited _ | .ioContextDestroyed _ | .asyncAfter _ _ | .post _ _ | .callReturned _
  | .expire _ _ | .invoke _ | .callable _ | .callableEnded _ | .settle _ | .dispose _
  | .discard _ => isTrue trivial

/--
A destructor waits while one of its run tasks is queued, and every worker is held
inside `run()` of another context that is not being stopped.
-/
def Jammed (q : State N ι Body × Client N ι V E) : Prop :=
  ∃ c t j, (q.2.contexts c).phase = .waiting t j ∧
    (∃ x ∈ q.1.queue.contents.tasks, x.body = .run c) ∧
      ∀ w, ∃ id c' drained u, q.1.ctrl (.inl w) = .running ⟨id, .run c'⟩ drained u ∧
        c' ≠ c ∧ (q.2.contexts c').phase.guarded = true

variable [DecidableEq ι] [Fintype ι]
variable {s s' : State N ι Body} {k k' : Client N ι V E}
variable {tr es : List (Event N ι Body (Label V E))} {e : Event N ι Body (Label V E)}

/-- A context with tasks that is guarded has been guarded before. -/
theorem occupies_mono (h : Accounted s k tr) (hr : (pool N ι Body (Label V E)).Reach s tr)
    (heff : Effect s s' [e]) (hs : Step s k e k') {x : Task Body} (hx : x ∈ acceptedTasks tr)
    (hocc : k'.occupies x = true) : k.occupies x = true := by
  obtain ⟨id, body⟩ := x
  cases body with
  | other => cases hocc
  | run c => exact h.guarded_before heff hs (called_of_accepted hr hx) rfl hocc

/-- The queued tasks of every context that is waited for have room. -/
def Room (k : Client N ι V E) (tr : List (Event N ι Body (Label V E))) : Prop :=
  ∀ c t j, (k.contexts c).phase = .waiting t j → RoomFor k tr c

omit [Fintype ι] in
/-- Where a destructor that waits comes from. -/
theorem Step.waiting_inv (hs : Step s k e k') {c j : Nat} {t : Tid N ι}
    (hw : (k'.contexts c).phase = .waiting t j) :
    (∃ i, (k.contexts c).phase = .waiting t i) ∨
      ((k.contexts c).phase = .stopping t ∧ e = .user t (.stop c)) := by
  rcases hs.phase_inv c with heq | ⟨p, hp', hchange⟩
  · exact .inl ⟨j, heq ▸ hw⟩
  · rw [hw] at hp'
    subst hp'
    cases hchange with
    | move hm =>
        cases hm with
        | stop hp => exact .inr ⟨hp, rfl⟩
        | waited hp hid hready => exact .inl ⟨_, hp⟩

theorem Room.step (h : Room k tr) (hacc : Accounted s k tr)
    (hr : (pool N ι Body (Label V E)).Reach s tr) (hj : Joint Step RoomAtStop s s' k k' tr es) :
    Room k' (tr ++ es) := by
  rcases hj.step with ⟨rfl, rfl⟩ | ⟨e, rfl, hs⟩
  · rwa [List.append_nil]
  · intro c t i hp j hlen hbody hqueued
    have hbefore : RoomFor k tr c ∧ ∀ t', (k.contexts c).phase ≠ .constructing t' := by
      rcases hs.waiting_inv hp with ⟨i', hp'⟩ | ⟨hp', rfl⟩
      · exact ⟨h c t i' hp', by simp [hp']⟩
      · exact ⟨hj.condition _ _ rfl, by simp [hp']⟩
    obtain ⟨hroom, hover⟩ := hbefore
    have happ : acceptedTasks (tr ++ [e]) = acceptedTasks tr ++ acceptedTasks [e] :=
      acceptedTasks_append ..
    by_cases hold : j < (acceptedTasks tr).length
    · -- The task was accepted before this step.
      simp only [happ, List.getElem_append_left hold] at hbody hqueued
      rw [happ, List.take_append_of_le_length hold.le]
      refine Nat.lt_of_le_of_lt (List.countP_mono_left fun x hx hocc => ?_)
        (hroom j hold hbody fun hpop => hqueued ?_)
      · exact occupies_mono hacc hr hj.effect hs (List.mem_of_mem_take hx) hocc
      · rw [poppedTasks_append]
        exact List.mem_append_left _ hpop
    · -- A task is accepted only while the constructor is at work.
      have hmem : (acceptedTasks (tr ++ [e]))[j] ∈ acceptedTasks [e] := by
        simp only [happ, List.getElem_append_right (Nat.le_of_not_lt hold)]
        exact List.getElem_mem _
      obtain ⟨u, hu⟩ := mem_acceptedTasks.mp hmem
      obtain ⟨id, hx⟩ : ∃ id, (acceptedTasks (tr ++ [e]))[j] = ⟨id, .run c⟩ :=
        ⟨_, by rw [← hbody]⟩
      rw [hx] at hu
      obtain rfl := List.mem_singleton.mp hu
      exact (hover _ (hacc.constructing hj.effect (.inl rfl) rfl)).elim

variable {q : State N ι Body × Client N ι V E}

/--
If no context is stopped before its queued run tasks have room, no destructor gets
stuck behind the run tasks of other contexts.
-/
theorem destruction_not_jammed (hr : (asio N ι V E).ReachWhen (UserWhen RoomAtStop) q tr) :
    ¬ Jammed q := by
  have hpool := hr.reach.of_guard
  have hinv := asio_induction (P := fun s k tr => Accounted s k tr ∧ Room k tr) hr
    ⟨accounted_init, fun c t j hp => by cases hp⟩
    fun hr h hj => ⟨h.1.step hr hj, h.2.step h.1 hr hj⟩
  rintro ⟨c, t, i, hp, ⟨x, hx, hbody⟩, hheld⟩
  have hpopped : N ≤ (poppedTasks tr).countP q.2.occupies := by
    refine le_popped_of_held hpool _ fun w => ?_
    obtain ⟨id, c', drained, u, hctrl, _, hguarded⟩ := hheld w
    exact ⟨⟨id, .run c'⟩, by simp [hctrl, Ctrl.holds, Ctrl.taken, Ctrl.executing], hguarded⟩
  have hsplit := accepted_eq_popped_append hpool
  obtain ⟨m, hm, hget⟩ := List.getElem_of_mem hx
  have hlen : (poppedTasks tr).length + m < (acceptedTasks tr).length := by
    rw [hsplit, List.length_append]
    omega
  have hxj : (acceptedTasks tr)[(poppedTasks tr).length + m] = x := by
    simp [hsplit, hget]
  have hnot : x ∉ poppedTasks tr := by
    intro hpop
    have hone := accepted_once hpool x.id
    have htwo : timesIn x.id (acceptedTasks tr) =
        timesIn x.id (poppedTasks tr) + timesIn x.id q.1.queue.contents.tasks := by
      rw [hsplit, timesIn, List.countP_append, timesIn, timesIn]
    have := timesIn_pos hpop
    have := timesIn_pos hx
    omega
  have hroom := hinv.2 c t i hp _ hlen (by rw [hxj, hbody]) (by rwa [hxj])
  rw [hsplit, List.take_length_add_append, List.countP_append] at hroom
  omega

/-- Two contexts with an io thread each; the second one is destroyed first. -/
def nested (N : Nat) (h : 0 < N) : List (Act N Unit Body (Label Nat String)) :=
  [.user (.inr ()) (.construct 1), .submit (.inr ()) (.run 0), .advance (.inr ()),
    .notify (.inr ()) none, .user (.inr ()) (.constructed 0), .test ⟨0, h⟩,
    .advance (.inl ⟨0, h⟩), .start ⟨0, h⟩, .user (.inr ()) (.construct 1),
    .submit (.inr ()) (.run 1), .advance (.inr ()), .notify (.inr ()) none,
    .user (.inr ()) (.constructed 1), .user (.inr ()) (.resetGuard 1),
    .user (.inr ()) (.stop 1)]

/-- With two workers there is room for the second context. -/
theorem destruction_not_jammed_twoWorkers :
    ∃ (q : State 2 Unit Body × Client 2 Unit Nat String) (tr : _),
      (asio 2 Unit Nat String).ReachWhen (UserWhen RoomAtStop) q tr ∧
        (q.2.contexts 1).phase = .waiting (.inr ()) 0 ∧
          q.1.queue.contents.tasks = [⟨1, .run 1⟩] ∧ ¬ Jammed q := by
  obtain ⟨q, tr, hr, h⟩ := Machine.exists_reachWhen_of_exec (M := asio 2 Unit Nat String)
    (C := UserWhen RoomAtStop) (nested 2 (by decide))
    (p := fun r => decide ((r.1.2.contexts 1).phase = .waiting (.inr ()) 0 ∧
      r.1.1.queue.contents.tasks = [⟨1, .run 1⟩]))
    (by decide)
  obtain ⟨hp, htasks⟩ := of_decide_eq_true h
  exact ⟨q, tr, hr, hp, htasks, destruction_not_jammed hr⟩

/-- The only worker is inside `run()` of the context that is destroyed last. -/
theorem destruction_behind_run :
    ¬ ∀ (q : State 1 Unit Body × Client 1 Unit Nat String) (tr : _),
      (asio 1 Unit Nat String).Reach q tr → ¬ Jammed q := by
  intro h
  obtain ⟨q, tr, hr, hp⟩ := Machine.exists_reach_of_exec (M := asio 1 Unit Nat String)
    (nested 1 (by decide))
    (p := fun r => decide ((r.1.2.contexts 1).phase = .waiting (.inr ()) 0 ∧
      r.1.1.queue.contents.tasks = [⟨1, .run 1⟩] ∧
        r.1.1.ctrl (.inl 0) = .running ⟨0, .run 0⟩ false .code ∧
          (r.1.2.contexts 0).phase.guarded = true))
    (by decide)
  obtain ⟨hphase, htasks, hctrl, hguarded⟩ := of_decide_eq_true hp
  have hmem : (⟨1, .run 1⟩ : Task Body) ∈ q.1.queue.contents.tasks := by
    rw [htasks]
    exact List.mem_singleton_self _
  refine h q tr hr ⟨1, .inr (), 0, hphase, ⟨_, hmem, rfl⟩, fun w => ?_⟩
  obtain rfl := Subsingleton.elim w 0
  exact ⟨0, 0, false, .code, hctrl, by decide, hguarded⟩

end AsioContext
end ThreadPool
end AsyncTaskEngine
