import AsyncTaskEngine.LockFreeRetries
import Mathlib.Data.Fintype.Basic

/-!
# One push and one pop at a time

A queue between one producer and one consumer, or between producers that share a
lock and consumers that share another one: `serial` permits a `try_push` only
while no other one is in progress, and likewise a `try_pop`.

A local position is then always current, no claim can overtake a call, and
neither loop goes round again.  `serial_wait_free` draws the conclusion: a call
returns after a fixed number of steps of its own thread, in runs of any length
and wherever the other threads have stopped.
-/

namespace AsyncTaskEngine
namespace LockFreeQueue

universe u v

variable {ι : Type u} {α : Type v}

/-- The thread is inside `try_push`. -/
def Pc.inPush : Pc α → Bool
  | .pushLoad _ => true
  | .pushSeq _ _ => true
  | .pushCas _ _ => true
  | .pushData _ _ => true
  | .pushStore _ => true
  | _ => false

/-- The thread is inside `try_pop`. -/
def Pc.inPop : Pc α → Bool
  | .popLoad => true
  | .popSeq _ => true
  | .popCas _ => true
  | .popData _ => true
  | .popStore _ _ => true
  | _ => false

/-- A call waits for its turn. -/
def State.inTurn [Fintype ι] (s : State ι α) : Act ι α → Bool
  | .tryPush _ _ => decide (∀ u, (s.pc u).inPush = false)
  | .tryPop _ => decide (∀ u, (s.pc u).inPop = false)
  | _ => true

/-- The queue between clients that take turns. -/
def serial [DecidableEq ι] [Fintype ι] (cfg : Config) :
    Machine (State ι α × Unit) (Act ι α) (Event ι α) :=
  (queue cfg).guard () (fun _ s a => s.inTurn a) fun _ _ => ()

/-- At most one thread is in each of the two operations, and its position is current. -/
structure Alone (s : State ι α) : Prop where
  push : ∀ t u, (s.pc t).inPush = true → (s.pc u).inPush = true → t = u
  pop : ∀ t u, (s.pc t).inPop = true → (s.pc u).inPop = true → t = u
  pushPos : ∀ t w, (s.pc t).pushPos? = some w → w = s.enqueuePos
  popPos : ∀ t w, (s.pc t).popPos? = some w → w = s.dequeuePos

section Alone

variable {cfg : Config} {s s' : State ι α} {es : List (Event ι α)} {t : ι}

theorem inPush_of_pushPos {pc : Pc α} {w : Word} (h : pc.pushPos? = some w) :
    pc.inPush = true := by
  cases pc <;> first | rfl | cases h

theorem inPop_of_popPos {pc : Pc α} {w : Word} (h : pc.popPos? = some w) :
    pc.inPop = true := by
  cases pc <;> first | rfl | cases h

variable [DecidableEq ι]

/-- A thread that enters an operation finds it empty. -/
theorem eq_of_update {f : Pc α → Bool} {pc : ι → Pc α} {pc' : Pc α}
    (h : ∀ t u, f (pc t) = true → f (pc u) = true → t = u)
    (hnew : f pc' = true → f (pc t) = true ∨ ∀ u, f (pc u) = false) (x y : ι)
    (hx : f (Function.update pc t pc' x) = true)
    (hy : f (Function.update pc t pc' y) = true) : x = y := by
  by_cases hxt : x = t
  · by_cases hyt : y = t
    · rw [hxt, hyt]
    · rw [hxt, Function.update_self] at hx
      rw [Function.update_of_ne hyt] at hy
      rcases hnew hx with ht | hnone
      · rw [hxt]
        exact h t y ht hy
      · rw [hnone y] at hy
        cases hy
  · rw [Function.update_of_ne hxt] at hx
    by_cases hyt : y = t
    · rw [hyt, Function.update_self] at hy
      rcases hnew hy with ht | hnone
      · rw [hyt]
        exact h x t hx ht
      · rw [hnone x] at hx
        cases hx
    · rw [Function.update_of_ne hyt] at hy
      exact h x y hx hy

/-- A thread moves, and no counter does. -/
theorem Alone.setPc {pc' : Pc α} (h : Alone s) (hpc : s'.pc = Function.update s.pc t pc')
    (henq : s'.enqueuePos = s.enqueuePos) (hdeq : s'.dequeuePos = s.dequeuePos)
    (hpush : pc'.inPush = true → (s.pc t).inPush = true ∨ ∀ u, (s.pc u).inPush = false)
    (hpop : pc'.inPop = true → (s.pc t).inPop = true ∨ ∀ u, (s.pc u).inPop = false)
    (hpushPos : ∀ w, pc'.pushPos? = some w → w = s.enqueuePos)
    (hpopPos : ∀ w, pc'.popPos? = some w → w = s.dequeuePos) : Alone s' where
  push x y hx hy := by
    rw [hpc] at hx hy
    exact eq_of_update h.push hpush x y hx hy
  pop x y hx hy := by
    rw [hpc] at hx hy
    exact eq_of_update h.pop hpop x y hx hy
  pushPos u w hw := by
    rw [henq]
    rw [hpc] at hw
    by_cases hut : u = t
    · rw [hut, Function.update_self] at hw
      exact hpushPos w hw
    · rw [Function.update_of_ne hut] at hw
      exact h.pushPos u w hw
  popPos u w hw := by
    rw [hdeq]
    rw [hpc] at hw
    by_cases hut : u = t
    · rw [hut, Function.update_self] at hw
      exact hpopPos w hw
    · rw [Function.update_of_ne hut] at hw
      exact h.popPos u w hw

/-- The thread that moves a counter is the only one that could have read it. -/
theorem Alone.pushClaim {value : α} {pos : Word} (h : Alone s)
    (hpc : s.pc t = .pushCas value pos) :
    Alone { s.setPc t (.pushData value pos) with enqueuePos := pos + 1 } := by
  have hin : (s.pc t).inPush = true := by rw [hpc]; rfl
  refine ⟨?_, ?_, ?_, ?_⟩
  · exact eq_of_update h.push fun _ => .inl hin
  · exact eq_of_update h.pop fun hnew => by cases hnew
  · intro u w hw
    by_cases hut : u = t
    · rw [hut] at hw
      simp [Pc.pushPos?] at hw
    · have hold : (s.pc u).pushPos? = some w := by
        rwa [show ({ s.setPc t (.pushData value pos) with enqueuePos := pos + 1 } :
          State ι α).pc u = s.pc u from setPc_ne _ _ _ hut] at hw
      exact (hut (h.push u t (inPush_of_pushPos hold) hin)).elim
  · intro u w hw
    by_cases hut : u = t
    · rw [hut] at hw
      simp [Pc.popPos?] at hw
    · rw [show ({ s.setPc t (.pushData value pos) with enqueuePos := pos + 1 } :
        State ι α).pc u = s.pc u from setPc_ne _ _ _ hut] at hw
      exact h.popPos u w hw

theorem Alone.popClaim {pos : Word} (h : Alone s) (hpc : s.pc t = .popCas pos) :
    Alone { s.setPc t (.popData pos) with dequeuePos := pos + 1 } := by
  have hin : (s.pc t).inPop = true := by rw [hpc]; rfl
  refine ⟨?_, ?_, ?_, ?_⟩
  · exact eq_of_update h.push fun hnew => by cases hnew
  · exact eq_of_update h.pop fun _ => .inl hin
  · intro u w hw
    by_cases hut : u = t
    · rw [hut] at hw
      simp [Pc.pushPos?] at hw
    · rw [show ({ s.setPc t (.popData pos) with dequeuePos := pos + 1 } :
        State ι α).pc u = s.pc u from setPc_ne _ _ _ hut] at hw
      exact h.pushPos u w hw
  · intro u w hw
    by_cases hut : u = t
    · rw [hut] at hw
      simp [Pc.popPos?] at hw
    · have hold : (s.pc u).popPos? = some w := by
        rwa [show ({ s.setPc t (.popData pos) with dequeuePos := pos + 1 } :
          State ι α).pc u = s.pc u from setPc_ne _ _ _ hut] at hw
      exact (hut (h.pop u t (inPop_of_popPos hold) hin)).elim

/-- A call that has been started in its turn found its operation empty. -/
theorem called_inTurn [Fintype ι] {a : Act ι α} (hturn : s.inTurn a = true)
    (hs : step cfg s a = some (s', es)) :
    (∀ t v, .pushCalled t v ∈ es → ∀ u, (s.pc u).inPush = false) ∧
      ∀ t, .popCalled t ∈ es → ∀ u, (s.pc u).inPop = false := by
  cases a with
  | tryPush u value =>
      have hnone := of_decide_eq_true hturn
      simp only [step] at hs
      grind
  | tryPop u =>
      have hnone := of_decide_eq_true hturn
      simp only [step] at hs
      grind
  | go u =>
      simp only [step] at hs
      unfold goStep at hs
      grind
  | sizeApprox u => simp only [step] at hs; grind
  | spurious u => simp only [step] at hs; grind

/-- Taking turns keeps the clients alone in their operations. -/
theorem Alone.step [Fintype ι] {a : Act ι α} (h : Alone s) (hturn : s.inTurn a = true)
    (hs : step cfg s a = some (s', es)) : Alone s' := by
  obtain ⟨hpush, hpop⟩ := called_inTurn hturn hs
  cases step_move hs with
  | @pushCall t value hpc =>
      refine h.setPc rfl rfl rfl (fun _ => .inr ?_) ?_ ?_ ?_
      · exact hpush t value (List.mem_singleton_self _)
      all_goals simp [Pc.inPop, Pc.pushPos?, Pc.popPos?]
  | @popCall t hpc =>
      refine h.setPc rfl rfl rfl ?_ (fun _ => .inr ?_) ?_ ?_
      · simp [Pc.inPush]
      · exact hpop t (List.mem_singleton_self _)
      all_goals simp [Pc.pushPos?, Pc.popPos?]
  | pushClaim hpc hcas => exact h.pushClaim hpc
  | popClaim hpc hcas => exact h.popClaim hpc
  | @pushReady t value pos hpc hd =>
      have hpos := h.pushPos t pos (by rw [hpc]; rfl)
      exact h.setPc rfl rfl rfl (by simp [hpc, Pc.inPush]) (by simp [Pc.inPop])
        (by simp [Pc.pushPos?, hpos]) (by simp [Pc.popPos?])
  | @popReady t pos hpc hd =>
      have hpos := h.popPos t pos (by rw [hpc]; rfl)
      exact h.setPc rfl rfl rfl (by simp [Pc.inPush]) (by simp [hpc, Pc.inPop])
        (by simp [Pc.pushPos?]) (by simp [Pc.popPos?, hpos])
  | pushLoad hpc | pushFull hpc | pushStale hpc | pushRetry hpc | pushMove hpc
  | pushPublish hpc | popLoad hpc | popEmpty hpc | popStale hpc | popRetry hpc
  | popMove hpc | popPublish hpc | sizeCall hpc | sizeEnq hpc | sizeDeq hpc =>
      exact h.setPc rfl rfl rfl (by simp [hpc, Pc.inPush]) (by simp [hpc, Pc.inPop])
        (by simp [Pc.pushPos?]) (by simp [Pc.popPos?])

/-- A claim leaves every position that is still held behind. -/
theorem Alone.unlapped (alone : Alone s) (a : Act ι α) : Unlapped cfg s a := by
  intro s' es hs
  obtain ⟨hpush, hpop⟩ := claimed_word (step_move hs)
  have hne : ∀ w : Word, w + 1 ≠ w := fun w heq => by bv_omega
  refine ⟨fun t w v hmem u hpos => ?_, fun t w hmem u hpos => ?_⟩
  · exact hne w ((alone.pushPos u _ hpos).trans (hpush t w v hmem).symm)
  · exact hne w ((alone.popPos u _ hpos).trans (hpop t w hmem).symm)

end Alone

section Runs

variable [DecidableEq ι] [Fintype ι] {cfg : Config} {q : State ι α × Unit}
variable {tr : List (Event ι α)}

theorem alone_reach (hr : (serial cfg).Reach q tr) : Alone q.1 := by
  refine hr.invariant (P := fun q _ => Alone q.1) ?_ ?_
  · refine ⟨?_, ?_, ?_, ?_⟩
    all_goals intro t u h
    all_goals cases h
  · intro q tr a q' es _ h hs
    obtain ⟨hturn, hs, _⟩ := Machine.guard_step_iff.mp hs
    exact h.step hturn hs

/-- No claim overtakes a call, however long the run is. -/
theorem serial_unlapped (hr : (serial cfg).Reach q tr) :
    (queue cfg).ReachWhen (fun s _ a => Unlapped cfg s a) q.1 tr := by
  induction hr with
  | init => exact .init
  | step hr hs ih => exact .step ih ((alone_reach hr).unlapped _) (Machine.guard_step_iff.mp hs).2.1

end Runs

/-- How many steps of its own a call has left when no compare-exchange fails. -/
def Pc.left : Pc α → Nat
  | .idle => 0
  | .pushLoad _ => 5
  | .pushSeq _ _ => 4
  | .pushCas _ _ => 3
  | .pushData _ _ => 2
  | .pushStore _ => 1
  | .popLoad => 5
  | .popSeq _ => 4
  | .popCas _ => 3
  | .popData _ => 2
  | .popStore _ _ => 1
  | .sizeLoadEnq => 2
  | .sizeLoadDeq _ => 1

section WaitFree

variable [DecidableEq ι]

/-- A step of the thread `t` inside a call. -/
def Act.own (t : ι) : Act ι α → Bool
  | .go u => u = t
  | .spurious u => u = t
  | _ => false

/-- What an action adds to the steps that `t` has left. -/
def Act.charge (t : ι) : Act ι α → Nat
  | .tryPush u _ => if u = t then 5 else 0
  | .tryPop u => if u = t then 5 else 0
  | .sizeApprox u => if u = t then 2 else 0
  | .spurious u => if u = t then 2 else 0
  | .go _ => 0

variable {cfg : Config} {s s' : State ι α} {es : List (Event ι α)} {t : ι}

/-- A step inside a call brings the call nearer to its end. -/
theorem left_go (alone : Alone s) (hpush : PushHead cfg s) (hpop : PopHead cfg s)
    (hs : goStep cfg s t = some (s', es)) : (s'.pc t).left + 1 ≤ (s.pc t).left := by
  cases hpc : s.pc t with
  | pushSeq v pos =>
      obtain rfl := alone.pushPos t pos (by rw [hpc]; rfl)
      simp only [goStep, hpc] at hs
      split at hs
      · obtain ⟨rfl, rfl⟩ := by simpa using hs
        simp [Pc.left]
      · split at hs
        · obtain ⟨rfl, rfl⟩ := by simpa using hs
          simp [Pc.left]
        · next hne hge =>
            -- the slot of the current position is never ahead
            have hle : diff (s.buffer (s.enqueuePos &&& cfg.mask)).sequence s.enqueuePos ≤ 0 :=
              hpush
            omega
  | popSeq pos =>
      obtain rfl := alone.popPos t pos (by rw [hpc]; rfl)
      simp only [goStep, hpc] at hs
      split at hs
      · obtain ⟨rfl, rfl⟩ := by simpa using hs
        simp [Pc.left]
      · split at hs
        · obtain ⟨rfl, rfl⟩ := by simpa using hs
          simp [Pc.left]
        · next hne hge =>
            have hle : diff (s.buffer (s.dequeuePos &&& cfg.mask)).sequence
                (s.dequeuePos + 1) ≤ 0 := hpop
            omega
  | pushCas v pos =>
      obtain rfl := alone.pushPos t pos (by rw [hpc]; rfl)
      simp only [goStep, hpc, if_true, Option.some.injEq, Prod.mk.injEq] at hs
      obtain ⟨rfl, rfl⟩ := hs
      simp [Pc.left]
  | popCas pos =>
      obtain rfl := alone.popPos t pos (by rw [hpc]; rfl)
      simp only [goStep, hpc, if_true, Option.some.injEq, Prod.mk.injEq] at hs
      obtain ⟨rfl, rfl⟩ := hs
      simp [Pc.left]
  | idle =>
      simp only [goStep, hpc] at hs
      cases hs
  | _ =>
      simp only [goStep, hpc, Option.some.injEq, Prod.mk.injEq] at hs
      obtain ⟨rfl, rfl⟩ := hs
      simp [Pc.left]

/-- A step of the queue, as the thread `t` counts it. -/
theorem left_step (alone : Alone s) (hpush : PushHead cfg s) (hpop : PopHead cfg s)
    {a : Act ι α} (hs : step cfg s a = some (s', es)) :
    (s'.pc t).left + (if a.own t then 1 else 0) ≤ (s.pc t).left + a.charge t := by
  by_cases hta : a.thread = t
  · subst hta
    cases a with
    | tryPush u v | tryPop u | sizeApprox u =>
        simp only [step] at hs
        split at hs
        · obtain ⟨rfl, rfl⟩ := by simpa using hs
          simp [Act.own, Act.charge, Act.thread, Pc.left]
        · cases hs
    | go u =>
        have hle := left_go alone hpush hpop hs
        simpa [Act.own, Act.charge, Act.thread] using hle
    | spurious u =>
        -- a failed compare-exchange goes round the loop once more
        simp only [step] at hs
        split at hs
        · next hpc =>
            obtain ⟨rfl, rfl⟩ := by simpa using hs
            simp [Act.own, Act.charge, Act.thread, Pc.left, hpc]
        · next hpc =>
            obtain ⟨rfl, rfl⟩ := by simpa using hs
            simp [Act.own, Act.charge, Act.thread, Pc.left, hpc]
        · cases hs
  · have hpc : s'.pc t = s.pc t := by
      by_contra hne
      exact hta (thread_of_pc_ne hs hne)
    have hown : a.own t = false := by
      cases a <;> simp_all [Act.own, Act.thread]
    rw [hpc, hown]
    exact Nat.le_add_right _ _

/-- A call that is not over has a next step. -/
theorem go_enabled (cfg : Config) (hcall : s.pc t ≠ .idle) : (goStep cfg s t).isSome = true := by
  cases hpc : s.pc t with
  | idle => exact (hcall hpc).elim
  | pushSeq v pos | popSeq pos | pushCas v pos | popCas pos =>
      simp only [goStep, hpc]
      repeat' split
      all_goals rfl
  | _ => simp only [goStep, hpc, Option.isSome_some]

variable [Fintype ι] {q : State ι α × Unit} {tr : List (Event ι α)}

/-- The slots of the current positions are never ahead. -/
theorem heads_reach (hr : (serial cfg).Reach q tr) : PushHead cfg q.1 ∧ PopHead cfg q.1 := by
  obtain ⟨r, h, hring, ⟨pos, sim⟩, _⟩ := refines_unlapped (serial_unlapped hr)
  have inv := TicketRing.ringInv_reach (cap_pos cfg) hring
  exact ⟨sim.push_head inv, sim.pop_head inv⟩

/-- The calls of `t` end after a bounded number of its own steps. -/
structure WaitFree (cfg : Config) (t : ι) (q : State ι α × Unit) : Prop where
  /-- At most five steps for each call, and two for each spurious failure. -/
  bounded : ∀ {as : List (Act ι α)} {q' es}, (serial cfg).exec q as = some (q', es) →
    as.countP (Act.own t) + (q'.1.pc t).left ≤ (q.1.pc t).left + (as.map (Act.charge t)).sum
  /-- As long as a call has not returned, its next step is possible. -/
  enabled : ∀ {as : List (Act ι α)} {q' es}, (serial cfg).exec q as = some (q', es) →
    q'.1.pc t ≠ .idle → ((serial cfg).step q' (.go t)).isSome = true

/--
Between clients that take turns the queue is wait-free: a call returns after at
most five steps of its own thread, whatever the other threads do and wherever they
have stopped.
-/
theorem serial_wait_free (cfg : Config) {q : State ι α × Unit} {tr : List (Event ι α)}
    (hr : (serial cfg).Reach q tr) (t : ι) : WaitFree cfg t q where
  bounded he := by
    refine Machine.exec_counted (M := serial cfg) (fun q => (q.1.pc t).left) (Act.own t)
      (Act.charge t) (I := (serial cfg).Reach) (B := fun _ => True) (fun _ _ _ => trivial)
      (fun hr hs => .step hr hs) ?_ hr he trivial
    intro q tr a q' es hr _ hs
    obtain ⟨hpush, hpop⟩ := heads_reach hr
    exact left_step (alone_reach hr) hpush hpop (Machine.guard_step_iff.mp hs).2.1
  enabled := by
    intro as q' es _ hcall
    have hgo := go_enabled cfg hcall
    cases hs : (serial cfg).step q' (.go t) with
    | some r => rfl
    | none =>
        have hnone : goStep cfg q'.1 t = none := Machine.guard_none rfl hs
        rw [hnone] at hgo
        cases hgo

/-- A consumer that is stalled before its release store, while the queue is full. -/
def stalledConsumer : List (Act Bool Nat) :=
  [.tryPush true 1, .go true, .go true, .go true, .go true, .go true,
    .tryPush true 2, .go true, .go true, .go true, .go true, .go true,
    .tryPop false, .go false, .go false, .go false, .go false, .tryPush true 3, .go true, .go true]

/-- The producer is on its way while the consumer has stopped before its release store. -/
theorem serial_wait_free_stalledConsumer :
    ∃ (q : State Bool Nat × Unit) (tr : List (Event Bool Nat)),
      q.1.pc false = .popStore 0 (some 1) ∧ .pushFailed true ∈ tr ∧ (q.1.pc true).left = 5 ∧
        WaitFree twoSlots true q := by
  obtain ⟨q, tr, hr, hp⟩ := Machine.exists_reach_of_exec (M := serial twoSlots)
    (stalledConsumer ++ [.tryPush true 4])
    (p := fun r => decide (r.1.1.pc false = .popStore 0 (some 1) ∧
      Event.pushFailed true ∈ r.2 ∧ (r.1.1.pc true).left = 5))
    (by decide)
  obtain ⟨hpc, hfailed, hleft⟩ := of_decide_eq_true hp
  exact ⟨q, tr, hpc, hfailed, hleft, serial_wait_free twoSlots hr true⟩

end WaitFree

end LockFreeQueue
end AsyncTaskEngine
