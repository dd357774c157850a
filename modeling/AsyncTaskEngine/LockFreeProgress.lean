import AsyncTaskEngine.LockFreeRetries
import AsyncTaskEngine.ThreadTotal
import Mathlib.Tactic.Ring

/-!
# The lock-free queue is lock-free

`LockFreeRetries` is about single calls, which others can delay for ever.  Here
the steps of all threads are counted together.  A potential adds up, over the
threads, the steps that their calls still need if nobody overtakes them; a
successful compare-exchange costs every other thread at most two steps, and for
these the call has provided when it began.

Hence a run of `n` threads has at most `2 n + 6` steps for each call, up to
spurious failures, while fewer than `2 ^ 64` tickets of pushes are drawn.  Since
at most `n` calls are in progress, calls then keep returning as long as any
thread takes steps: `lock_free`.  After that a push can spin for ever, as
`aged_pop_blocks_push` shows.
-/

namespace AsyncTaskEngine
namespace LockFreeQueue

universe u v

variable {ι : Type u} {α : Type v}

/-- The steps a call still needs, and two for each of `n` threads that its own
claim will send back to the start of their loops. -/
def Pc.weight (n : Nat) (enq deq : Word) : Pc α → Nat
  | .idle => 0
  | .pushLoad _ => 2 * n + 5
  | .pushSeq _ pos => 2 * n + if pos = enq then 4 else 6
  | .pushCas _ pos => 2 * n + if pos = enq then 3 else 5
  | .pushData _ _ => 2
  | .pushStore _ => 1
  | .popLoad => 2 * n + 5
  | .popSeq pos => 2 * n + if pos = deq then 4 else 6
  | .popCas pos => 2 * n + if pos = deq then 3 else 5
  | .popData _ => 2
  | .popStore _ _ => 1
  | .sizeLoadEnq => 2
  | .sizeLoadDeq _ => 1

/-- What an action may add to the potential, its own step included. -/
def Act.cost (n : Nat) : Act ι α → Nat
  | .tryPush _ _ => 2 * n + 6
  | .tryPop _ => 2 * n + 6
  | .sizeApprox _ => 2 * n + 6
  | .go _ => 0
  | .spurious _ => 2

/-- The action starts a call. -/
def Act.isCall : Act ι α → Bool
  | .tryPush _ _ => true
  | .tryPop _ => true
  | .sizeApprox _ => true
  | _ => false

/-- The action is a spurious failure. -/
def Act.isSpurious : Act ι α → Bool
  | .spurious _ => true
  | _ => false

/-- The event is the return of a call. -/
def Event.isReturn : Event ι α → Bool
  | .pushReturned _ _ => true
  | .pushFailed _ => true
  | .popReturned _ _ _ => true
  | .popFailed _ => true
  | .sizeReturned _ _ => true
  | _ => false

/-- One for a thread inside a call. -/
def Pc.active : Pc α → Nat
  | .idle => 0
  | _ => 1

section Threads

variable [Fintype ι]

/-- The potential of a state. -/
def State.work (s : State ι α) : Nat :=
  total (Pc.weight (Fintype.card ι) s.enqueuePos s.dequeuePos) s.pc

/-- The number of calls in progress. -/
def State.inProgress (s : State ι α) : Nat :=
  total Pc.active s.pc

/-- At most one call of each thread is in progress. -/
theorem inProgress_le (s : State ι α) : s.inProgress ≤ Fintype.card ι := by
  have hle := total_mono (g := Pc.active) (h := fun _ => 1) (f := s.pc) (k := s.pc)
    fun t => by cases s.pc t <;> simp [Pc.active]
  simpa [total, State.inProgress] using hle

/-- A claim of a push costs another thread two steps. -/
theorem weight_enq_le (n : Nat) (enq enq' deq : Word) (pc : Pc α) :
    pc.weight n enq' deq ≤ pc.weight n enq deq + 2 := by
  cases pc with
  | pushSeq v pos => simp only [Pc.weight]; split <;> split <;> omega
  | pushCas v pos => simp only [Pc.weight]; split <;> split <;> omega
  | _ => simp [Pc.weight]

/-- A claim of a pop costs another thread two steps. -/
theorem weight_deq_le (n : Nat) (enq deq deq' : Word) (pc : Pc α) :
    pc.weight n enq deq' ≤ pc.weight n enq deq + 2 := by
  cases pc with
  | popSeq pos => simp only [Pc.weight]; split <;> split <;> omega
  | popCas pos => simp only [Pc.weight]; split <;> split <;> omega
  | _ => simp [Pc.weight]

variable [DecidableEq ι] {cfg : Config} {s s' : State ι α} {t : ι} {pc' : Pc α}

/-- The potential after a step that changes no position. -/
theorem work_of_pc {c : Nat} (henq : s'.enqueuePos = s.enqueuePos)
    (hdeq : s'.dequeuePos = s.dequeuePos) (hpc : s'.pc = Function.update s.pc t pc')
    (hle : pc'.weight (Fintype.card ι) s.enqueuePos s.dequeuePos + 1 ≤
      (s.pc t).weight (Fintype.card ι) s.enqueuePos s.dequeuePos + c) :
    s'.work + 1 ≤ s.work + c := by
  have hupdate := total_update
    (Pc.weight (Fintype.card ι) s.enqueuePos s.dequeuePos) s.pc t pc'
  rw [State.work, State.work, henq, hdeq, hpc]
  omega

/-- The potential after a claim, which every other thread may have to pay for. -/
theorem work_of_claim (hpc : s'.pc = Function.update s.pc t pc')
    (hothers : ∀ pc : Pc α, pc.weight (Fintype.card ι) s'.enqueuePos s'.dequeuePos ≤
      pc.weight (Fintype.card ι) s.enqueuePos s.dequeuePos + 2)
    (hle : pc'.weight (Fintype.card ι) s.enqueuePos s.dequeuePos + 2 * Fintype.card ι + 1 ≤
      (s.pc t).weight (Fintype.card ι) s.enqueuePos s.dequeuePos) :
    s'.work + 1 ≤ s.work := by
  have hupdate := total_update
    (Pc.weight (Fintype.card ι) s.enqueuePos s.dequeuePos) s.pc t pc'
  have hmono : total (Pc.weight (Fintype.card ι) s'.enqueuePos s'.dequeuePos) s'.pc ≤
      total (fun pc => pc.weight (Fintype.card ι) s.enqueuePos s.dequeuePos + 2) s'.pc :=
    total_mono fun u => hothers (s'.pc u)
  have hsum : total (fun pc : Pc α =>
      pc.weight (Fintype.card ι) s.enqueuePos s.dequeuePos + 2) s'.pc =
        total (Pc.weight (Fintype.card ι) s.enqueuePos s.dequeuePos) s'.pc +
          2 * Fintype.card ι := by
    simp [total, Finset.sum_add_distrib, Nat.mul_comm]
  rw [hsum, hpc] at hmono
  rw [State.work, State.work, hpc]
  omega

omit [Fintype ι] in
/-- A thread that leaves `idle` has started a call. -/
theorem cost_of_idle {a : Act ι α} {es : List (Event ι α)} (n : Nat)
    (hs : step cfg s a = some (s', es)) (hidle : s.pc t = .idle) (hcall : s'.pc t ≠ .idle) :
    a.isCall = true ∧ a.cost n = 2 * n + 6 := by
  have hta : a.thread = t := thread_of_pc_ne hs (by rw [hidle]; exact hcall)
  subst hta
  cases a with
  | tryPush u v => exact ⟨rfl, rfl⟩
  | tryPop u => exact ⟨rfl, rfl⟩
  | sizeApprox u => exact ⟨rfl, rfl⟩
  | go u =>
      simp only [Act.thread] at hidle
      simp [step, goStep, hidle] at hs
  | spurious u =>
      simp only [Act.thread] at hidle
      simp [step, hidle] at hs

omit [Fintype ι] in
/-- A thread that is inside a call does not start one. -/
theorem not_call_of_active {a : Act ι α} {es : List (Event ι α)}
    (hs : step cfg s a = some (s', es)) (hactive : s.pc t ≠ .idle)
    (hmove : s'.pc t ≠ s.pc t) : a.isCall = false := by
  have hta : a.thread = t := thread_of_pc_ne hs hmove
  rcases act_of_call hs hta hactive with rfl | rfl <;> rfl

omit [Fintype ι] in
/--
What a step does to the thread that takes it.  A claim takes effect on the
others: it costs each of them two steps, and the thread has put these aside.
-/
theorem weight_step {a : Act ι α} {es : List (Event ι α)} (n : Nat)
    (hs : step cfg s a = some (s', es)) (hpush : PushHead cfg s) (hpop : PopHead cfg s) :
    ∃ t pc', s'.pc = Function.update s.pc t pc' ∧
      ((s'.enqueuePos = s.enqueuePos ∧ s'.dequeuePos = s.dequeuePos ∧
          pc'.weight n s.enqueuePos s.dequeuePos + 1 ≤
            (s.pc t).weight n s.enqueuePos s.dequeuePos + a.cost n) ∨
        ((∀ pc : Pc α, pc.weight n s'.enqueuePos s'.dequeuePos ≤
            pc.weight n s.enqueuePos s.dequeuePos + 2) ∧
          ∀ enq deq, pc'.weight n enq deq + 2 * n + 1 ≤
            (s.pc t).weight n s.enqueuePos s.dequeuePos)) := by
  cases step_move hs with
  | @pushCall t v hpc =>
      obtain ⟨_, hcost⟩ := cost_of_idle n hs hpc (by simp)
      refine ⟨t, _, rfl, .inl ⟨rfl, rfl, ?_⟩⟩
      rw [hpc, hcost]
      simp only [Pc.weight]
      omega
  | @pushLoad t v hpc =>
      refine ⟨t, _, rfl, .inl ⟨rfl, rfl, ?_⟩⟩
      rw [hpc]
      simp only [Pc.weight, if_true]
      omega
  | @pushReady t v pos hpc hd =>
      refine ⟨t, _, rfl, .inl ⟨rfl, rfl, ?_⟩⟩
      rw [hpc]
      simp only [Pc.weight]
      split <;> omega
  | @pushFull t v pos hpc hd =>
      refine ⟨t, _, rfl, .inl ⟨rfl, rfl, ?_⟩⟩
      rw [hpc]
      simp only [Pc.weight]
      split <;> omega
  | @pushStale t v pos hpc hd =>
      -- a slot is never ahead of the current position
      have hne : pos ≠ s.enqueuePos := by
        rintro rfl
        exact absurd hpush (Int.not_le.mpr hd)
      refine ⟨t, _, rfl, .inl ⟨rfl, rfl, ?_⟩⟩
      rw [hpc]
      simp only [Pc.weight, if_neg hne]
      omega
  | @pushRetry t v pos hpc =>
      refine ⟨t, _, rfl, .inl ⟨rfl, rfl, ?_⟩⟩
      rw [hpc]
      by_cases hspur : ∃ u, a = .spurious u
      · obtain ⟨u, rfl⟩ := hspur
        simp only [Pc.weight, Act.cost, if_true]
        split <;> omega
      · have hne := push_retry_ne hpc hs (setPc_self _ _ _) fun u hu => hspur ⟨u, hu⟩
        simp only [Pc.weight, if_true, if_neg (Ne.symm hne)]
        omega
  | @pushClaim t v pos hpc hcas =>
      refine ⟨t, _, rfl, .inr ⟨weight_enq_le _ _ _ _, fun _ _ => ?_⟩⟩
      rw [hpc]
      simp only [Pc.weight, hcas, if_true]
      omega
  | @pushMove t v pos hpc =>
      refine ⟨t, _, rfl, .inl ⟨rfl, rfl, ?_⟩⟩
      rw [hpc]
      simp only [Pc.weight]
      omega
  | @pushPublish t pos hpc =>
      refine ⟨t, _, rfl, .inl ⟨rfl, rfl, ?_⟩⟩
      rw [hpc]
      simp only [Pc.weight]
      omega
  | @popCall t hpc =>
      obtain ⟨_, hcost⟩ := cost_of_idle n hs hpc (by simp)
      refine ⟨t, _, rfl, .inl ⟨rfl, rfl, ?_⟩⟩
      rw [hpc, hcost]
      simp only [Pc.weight]
      omega
  | @popLoad t hpc =>
      refine ⟨t, _, rfl, .inl ⟨rfl, rfl, ?_⟩⟩
      rw [hpc]
      simp only [Pc.weight, if_true]
      omega
  | @popReady t pos hpc hd =>
      refine ⟨t, _, rfl, .inl ⟨rfl, rfl, ?_⟩⟩
      rw [hpc]
      simp only [Pc.weight]
      split <;> omega
  | @popEmpty t pos hpc hd =>
      refine ⟨t, _, rfl, .inl ⟨rfl, rfl, ?_⟩⟩
      rw [hpc]
      simp only [Pc.weight]
      split <;> omega
  | @popStale t pos hpc hd =>
      have hne : pos ≠ s.dequeuePos := by
        rintro rfl
        exact absurd hpop (Int.not_le.mpr hd)
      refine ⟨t, _, rfl, .inl ⟨rfl, rfl, ?_⟩⟩
      rw [hpc]
      simp only [Pc.weight, if_neg hne]
      omega
  | @popRetry t pos hpc =>
      refine ⟨t, _, rfl, .inl ⟨rfl, rfl, ?_⟩⟩
      rw [hpc]
      by_cases hspur : ∃ u, a = .spurious u
      · obtain ⟨u, rfl⟩ := hspur
        simp only [Pc.weight, Act.cost, if_true]
        split <;> omega
      · have hne := pop_retry_ne hpc hs (setPc_self _ _ _) fun u hu => hspur ⟨u, hu⟩
        simp only [Pc.weight, if_true, if_neg (Ne.symm hne)]
        omega
  | @popClaim t pos hpc hcas =>
      refine ⟨t, _, rfl, .inr ⟨weight_deq_le _ _ _ _, fun _ _ => ?_⟩⟩
      rw [hpc]
      simp only [Pc.weight, hcas, if_true]
      omega
  | @popMove t pos hpc =>
      refine ⟨t, _, rfl, .inl ⟨rfl, rfl, ?_⟩⟩
      rw [hpc]
      simp only [Pc.weight]
      omega
  | @popPublish t pos res hpc =>
      refine ⟨t, _, rfl, .inl ⟨rfl, rfl, ?_⟩⟩
      rw [hpc]
      simp only [Pc.weight]
      omega
  | @sizeCall t hpc =>
      obtain ⟨_, hcost⟩ := cost_of_idle n hs hpc (by simp)
      refine ⟨t, _, rfl, .inl ⟨rfl, rfl, ?_⟩⟩
      rw [hpc, hcost]
      simp only [Pc.weight]
      omega
  | @sizeEnq t hpc =>
      refine ⟨t, _, rfl, .inl ⟨rfl, rfl, ?_⟩⟩
      rw [hpc]
      simp only [Pc.weight]
      omega
  | @sizeDeq t enq hpc =>
      refine ⟨t, _, rfl, .inl ⟨rfl, rfl, ?_⟩⟩
      rw [hpc]
      simp only [Pc.weight]
      omega

/-- Every step lowers the potential by one, unless it starts a call or fails spuriously. -/
theorem work_step {a : Act ι α} {es : List (Event ι α)} (hs : step cfg s a = some (s', es))
    (hpush : PushHead cfg s) (hpop : PopHead cfg s) :
    s'.work + 1 ≤ s.work + a.cost (Fintype.card ι) := by
  obtain ⟨t, pc', hpc, ⟨henq, hdeq, hle⟩ | ⟨hothers, hle⟩⟩ :=
    weight_step (Fintype.card ι) hs hpush hpop
  · exact work_of_pc henq hdeq hpc hle
  · exact Nat.le_trans (work_of_claim hpc hothers (hle _ _)) (Nat.le_add_right _ _)

/-- A step of a thread inside a call, which goes on or returns. -/
theorem inProgress_of_active {a : Act ι α} {es : List (Event ι α)}
    (hs : step cfg s a = some (s', es)) (hpc : s'.pc = Function.update s.pc t pc')
    (hactive : s.pc t ≠ .idle) (hmove : pc' ≠ s.pc t)
    (hes : pc'.active + es.countP Event.isReturn = 1) :
    s'.inProgress + es.countP Event.isReturn = s.inProgress + [a].countP Act.isCall := by
  have hupdate := total_update Pc.active s.pc t pc'
  have hcall := not_call_of_active hs hactive (by rw [hpc, Function.update_self]; exact hmove)
  have hone : (s.pc t).active = 1 := by
    cases hold : s.pc t with
    | idle => exact (hactive hold).elim
    | _ => rfl
  rw [State.inProgress, State.inProgress, hpc, List.countP_singleton, hcall]
  simp only [Bool.false_eq_true, if_false]
  omega

/-- The start of a call. -/
theorem inProgress_of_idle {a : Act ι α} {es : List (Event ι α)}
    (hs : step cfg s a = some (s', es)) (hpc : s'.pc = Function.update s.pc t pc')
    (hidle : s.pc t = .idle) (hmove : pc' ≠ .idle) (hes : es.countP Event.isReturn = 0) :
    s'.inProgress + es.countP Event.isReturn = s.inProgress + [a].countP Act.isCall := by
  have hupdate := total_update Pc.active s.pc t pc'
  obtain ⟨hcall, _⟩ := cost_of_idle 0 hs hidle (by rw [hpc, Function.update_self]; exact hmove)
  have hone : pc'.active = 1 := by
    cases pc' with
    | idle => exact (hmove rfl).elim
    | _ => rfl
  rw [hidle] at hupdate
  rw [State.inProgress, State.inProgress, hpc, List.countP_singleton, hcall, hes]
  simp only [Pc.active, if_true] at hupdate ⊢
  omega

/-- The calls in progress are those that have started and not returned. -/
theorem inProgress_step {a : Act ι α} {es : List (Event ι α)}
    (hs : step cfg s a = some (s', es)) :
    s'.inProgress + es.countP Event.isReturn = s.inProgress + [a].countP Act.isCall := by
  cases step_move hs with
  | pushCall v hpc => exact inProgress_of_idle hs rfl hpc (by simp) rfl
  | popCall hpc => exact inProgress_of_idle hs rfl hpc (by simp) rfl
  | sizeCall hpc => exact inProgress_of_idle hs rfl hpc (by simp) rfl
  | pushLoad hpc => exact inProgress_of_active hs rfl (by simp [hpc]) (by simp [hpc]) rfl
  | pushReady hpc => exact inProgress_of_active hs rfl (by simp [hpc]) (by simp [hpc]) rfl
  | pushFull hpc => exact inProgress_of_active hs rfl (by simp [hpc]) (by simp [hpc]) rfl
  | pushStale hpc => exact inProgress_of_active hs rfl (by simp [hpc]) (by simp [hpc]) rfl
  | pushRetry hpc => exact inProgress_of_active hs rfl (by simp [hpc]) (by simp [hpc]) rfl
  | pushClaim hpc => exact inProgress_of_active hs rfl (by simp [hpc]) (by simp [hpc]) rfl
  | pushMove hpc => exact inProgress_of_active hs rfl (by simp [hpc]) (by simp [hpc]) rfl
  | pushPublish hpc => exact inProgress_of_active hs rfl (by simp [hpc]) (by simp [hpc]) rfl
  | popLoad hpc => exact inProgress_of_active hs rfl (by simp [hpc]) (by simp [hpc]) rfl
  | popReady hpc => exact inProgress_of_active hs rfl (by simp [hpc]) (by simp [hpc]) rfl
  | popEmpty hpc => exact inProgress_of_active hs rfl (by simp [hpc]) (by simp [hpc]) rfl
  | popStale hpc => exact inProgress_of_active hs rfl (by simp [hpc]) (by simp [hpc]) rfl
  | popRetry hpc => exact inProgress_of_active hs rfl (by simp [hpc]) (by simp [hpc]) rfl
  | popClaim hpc => exact inProgress_of_active hs rfl (by simp [hpc]) (by simp [hpc]) rfl
  | popMove hpc => exact inProgress_of_active hs rfl (by simp [hpc]) (by simp [hpc]) rfl
  | popPublish hpc => exact inProgress_of_active hs rfl (by simp [hpc]) (by simp [hpc]) rfl
  | sizeEnq hpc => exact inProgress_of_active hs rfl (by simp [hpc]) (by simp [hpc]) rfl
  | sizeDeq hpc => exact inProgress_of_active hs rfl (by simp [hpc]) (by simp [hpc]) rfl

/-- Over a schedule, too. -/
theorem inProgress_exec {as : List (Act ι α)} {es : List (Event ι α)}
    (he : (queue cfg).exec s as = some (s', es)) :
    s'.inProgress + es.countP Event.isReturn = s.inProgress + as.countP Act.isCall := by
  induction as generalizing s es with
  | nil =>
      obtain ⟨rfl, rfl⟩ := Prod.mk.inj (Option.some.inj he)
      rfl
  | cons a as ih =>
      cases hs : (queue cfg).step s a with
      | none => simp [Machine.exec, hs] at he
      | some r =>
          rw [Machine.exec_cons hs] at he
          obtain ⟨⟨s'', fs⟩, hq, heq⟩ := Option.map_eq_some_iff.mp he
          obtain ⟨rfl, rfl⟩ := Prod.mk.inj heq
          have hone := inProgress_step hs
          have hrest := ih hq
          have hcons : (a :: as).countP Act.isCall =
              [a].countP Act.isCall + as.countP Act.isCall := by
            rw [← List.countP_append, List.singleton_append]
          rw [List.countP_append, hcons]
          dsimp only at hone hrest ⊢
          omega

omit [Fintype ι] [DecidableEq ι] in
/-- The costs of a schedule. -/
theorem sum_cost (n : Nat) (as : List (Act ι α)) :
    (as.map (Act.cost n)).sum =
      (2 * n + 6) * as.countP Act.isCall + 2 * as.countP Act.isSpurious := by
  induction as with
  | nil => rfl
  | cons a as ih =>
      rw [List.map_cons, List.sum_cons, ih, List.countP_cons, List.countP_cons]
      cases a <;> simp only [Act.cost, Act.isCall, Act.isSpurious, if_true, Bool.false_eq_true,
        if_false] <;> ring

/--
The steps of a run, counted over all threads: calls that have not returned are
in progress, at most one for each thread, and the number of steps is linear in
the number of calls.
-/
structure StepsPaid (as : List (Act ι α)) (s : State ι α) (tr : List (Event ι α)) : Prop where
  calls : as.countP Act.isCall = tr.countP Event.isReturn + s.inProgress
  threads : s.inProgress ≤ Fintype.card ι
  steps : as.length ≤ (2 * Fintype.card ι + 6) * as.countP Act.isCall +
    2 * as.countP Act.isSpurious

/--
The queue is lock-free before its positions wrap: a run of `n` threads with `k`
returned calls has at most `(2 n + 6) (k + n)` steps, up to spurious failures,
whatever the schedule.
-/
theorem lock_free (cfg : Config) {as : List (Act ι α)} {s : State ι α}
    {tr : List (Event ι α)} (he : (queue cfg).exec (queue cfg).init as = some (s, tr))
    (hb : (pushClaims tr).length < 2 ^ 64) : StepsPaid as s tr := by
  have hcalls := inProgress_exec he
  have hzero : (queue cfg : Machine (State ι α) _ _).init.inProgress = 0 :=
    total_eq_zero_iff.mpr fun _ => rfl
  have hpaid := Machine.exec_amortized (M := queue cfg) State.work
    (Act.cost (Fintype.card ι)) (I := (queue cfg).Reach)
    (B := fun tr => (pushClaims tr).length < 2 ^ 64)
    (by
      intro tr es hb
      rw [pushClaims_append, List.length_append] at hb
      omega)
    (fun hr hs => .step hr hs)
    (by
      intro s tr a s' es hr hb hs
      rw [pushClaims_append, List.length_append] at hb
      obtain ⟨r, h, hring, ⟨pos, sim⟩, _⟩ := refines_of_bound hr (by omega)
      have inv := TicketRing.ringInv_reach (cap_pos cfg) hring
      exact work_step hs (sim.push_head inv) (sim.pop_head inv))
    .init he hb
  have hwork : (queue cfg : Machine (State ι α) _ _).init.work = 0 :=
    total_eq_zero_iff.mpr fun _ => rfl
  rw [sum_cost, hwork] at hpaid
  exact ⟨by omega, inProgress_le s, by omega⟩

end Threads

/-- A push and a pop that overlap, with a spurious failure: both have returned. -/
theorem lock_free_overlapping :
    ∃ (s : State Bool Nat) (tr : List (Event Bool Nat)), tr.countP Event.isReturn = 2 ∧
      overlapping.countP Act.isSpurious = 1 ∧ StepsPaid overlapping s tr := by
  have he : (queue twoSlots).exec (queue twoSlots).init overlapping = some (_, _) := rfl
  exact ⟨_, _, rfl, rfl, lock_free twoSlots he (by decide)⟩

end LockFreeQueue
end AsyncTaskEngine
