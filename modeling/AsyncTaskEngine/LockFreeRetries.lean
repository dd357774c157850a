import AsyncTaskEngine.LockFreeTickets

/-!
# Who pays for the retries of the lock-free queue

The loops of `try_push` and `try_pop` have no bound in the source.  `retried`
counts, for the latest call of each thread, how often its loop has gone round
again and how many successful compare-exchanges of other threads on the same
counter it has seen.  `retries_paid` says that the first number never exceeds
the second, and that a thread which is left alone goes round at most once more.

Both need the ticket of the local position: going round again means that the
counter has moved on.  Without a bound on the age of a local position they are
false: `aged_pop_blocks_push` has a claim of a ticket that is a whole turn old,
after which a push spins for ever.
-/

namespace AsyncTaskEngine
namespace LockFreeQueue

open TicketRing (Phase PhaseOk RingInv ticket_gap)

universe u v

variable {ι : Type u} {α : Type v}

/-- A thread starts a `try_push` or a `try_pop`. -/
def Pc.begins : Pc α → Pc α → Bool
  | .idle, .pushLoad _ => true
  | .idle, .popLoad => true
  | _, _ => false

/-- The loop of a call goes round again. -/
def Pc.again : Pc α → Pc α → Bool
  | .pushSeq _ _, .pushLoad _ => true
  | .pushCas _ _, .pushSeq _ _ => true
  | .popSeq _, .popLoad => true
  | .popCas _, .popSeq _ => true
  | _, _ => false

/-- A thread loads its local position. -/
def Pc.loads : Pc α → Pc α → Bool
  | .pushLoad _, .pushSeq _ _ => true
  | .pushCas _ _, .pushSeq _ _ => true
  | .popLoad, .popSeq _ => true
  | .popCas _, .popSeq _ => true
  | _, _ => false

/-- The successful compare-exchanges among the events on the counter of a call. -/
def Pc.claimsSeen (es : List (Event ι α)) : Pc α → Nat
  | .pushLoad _ => (pushClaims es).length
  | .pushSeq _ _ => (pushClaims es).length
  | .pushCas _ _ => (pushClaims es).length
  | .pushData _ _ => (pushClaims es).length
  | .pushStore _ => (pushClaims es).length
  | .popLoad => (popClaims es).length
  | .popSeq _ => (popClaims es).length
  | .popCas _ => (popClaims es).length
  | .popData _ => (popClaims es).length
  | .popStore _ _ => (popClaims es).length
  | _ => 0

/-- For the latest call of each thread: how often its loop has gone round again, and the
successful compare-exchanges of other threads on its counter since it began. -/
structure Effort (ι : Type u) where
  rounds : ι → Nat
  rivals : ι → Nat

def Effort.init : Effort ι where
  rounds _ := 0
  rivals _ := 0

/-- A call that is still in its loop has been overtaken once for every round. -/
def Paid (enq deq pos rounds rivals : Nat) : Pc α → Prop
  | .pushLoad _ => rounds ≤ rivals ∧ (rounds = 0 ∨ pos < enq)
  | .pushSeq _ _ => rounds + (enq - pos) ≤ rivals
  | .pushCas _ _ => rounds + (enq - pos) ≤ rivals
  | .popLoad => rounds ≤ rivals ∧ (rounds = 0 ∨ pos < deq)
  | .popSeq _ => rounds + (deq - pos) ≤ rivals
  | .popCas _ => rounds + (deq - pos) ≤ rivals
  | _ => rounds ≤ rivals

variable [DecidableEq ι]

/-- What a step does to the counts. -/
def Effort.record (q : State ι α × Tickets ι) (e : Effort ι) (q' : State ι α × Tickets ι)
    (es : List (Event ι α)) : Effort ι where
  rounds u :=
    if (q.1.pc u).begins (q'.1.pc u) then 0
    else if (q.1.pc u).again (q'.1.pc u) then e.rounds u + 1
    else e.rounds u
  rivals u :=
    if (q.1.pc u).begins (q'.1.pc u) then 0
    else e.rivals u + (q.1.pc u).claimsSeen (es.filter fun f => f.thread ≠ u)

/-- The queue with its tickets and the effort of its calls. -/
def retried (cfg : Config) :
    Machine ((State ι α × Tickets ι) × Effort ι) (Act ι α) (Event ι α) :=
  (ticketed cfg).watch Effort.init Effort.record

/-- No spurious failure, and no claim that overtakes a call by a whole turn. -/
def Steady (cfg : Config) (s : State ι α) (a : Act ι α) : Prop :=
  (∀ u, a ≠ .spurious u) ∧ Unlapped cfg s a

section Heads

variable {cfg : Config} {s s' : State ι α} {g : Tickets ι} {r : TicketRing.State ι α}
variable {h : List (FifoOp α)} {es : List (Event ι α)} {t u : ι}

omit [DecidableEq ι] in
/-- The slot of the next ticket to be drawn is never ahead. -/
theorem Sim.push_head {pos : ι → Nat} (sim : Sim cfg s r pos) (inv : RingInv cfg.cap r h) :
    diff (s.buffer (s.enqueuePos &&& cfg.mask)).sequence s.enqueuePos ≤ 0 := by
  have hi := Nat.mod_lt r.enq (cap_pos cfg)
  have hphase := inv.phase _ hi
  have hnear := ticket_near inv hi
  have hbounds := inv.bounds
  have hticket := ticket_le inv hbounds.1
  have hcap := two_le_cap cfg
  have hmax := cap_le cfg
  have hseq := seq_cases (r.phase (r.enq % cfg.cap))
  -- only a cell whose ticket has been drawn shows more than its ticket
  have hle : (r.phase (r.enq % cfg.cap)).seq ≤ r.enq := by
    cases hp : r.phase (r.enq % cfg.cap) with
    | free q =>
        rw [hp] at hticket
        exact hticket
    | writing q t v =>
        rw [hp] at hphase
        simp only [PhaseOk, Phase.seq] at hphase ⊢
        omega
    | full q v =>
        rw [hp] at hphase
        simp only [PhaseOk, Phase.seq] at hphase ⊢
        omega
    | reading q t v =>
        rw [hp] at hphase
        simp only [PhaseOk, Phase.seq] at hphase ⊢
        omega
  rw [sim.enq, sim.sequence_at, diff_word (by omega) (by omega)]
  omega

omit [DecidableEq ι] in
/-- The slot of the next ticket to be taken is never ahead of its publication. -/
theorem Sim.pop_head {pos : ι → Nat} (sim : Sim cfg s r pos) (inv : RingInv cfg.cap r h) :
    diff (s.buffer (s.dequeuePos &&& cfg.mask)).sequence (s.dequeuePos + 1) ≤ 0 := by
  have hi := Nat.mod_lt r.deq (cap_pos cfg)
  have hbehind := (seq_near inv hi).1
  have hticket := ticket_le inv (Nat.le_refl r.deq)
  have hseq := seq_cases (r.phase (r.deq % cfg.cap))
  have hmax := cap_le cfg
  rw [sim.deq, sim.sequence_at, word_succ, diff_word (by omega) (by omega)]
  omega

/-- A thread in the middle of a call only goes on with it. -/
theorem act_of_call {a : Act ι α} (hs : step cfg s a = some (s', es)) (hta : a.thread = t)
    (hcall : s.pc t ≠ .idle) : a = .go t ∨ a = .spurious t := by
  cases a with
  | go u => obtain rfl : u = t := hta; exact .inl rfl
  | tryPush u v => obtain rfl : u = t := hta; simp [step] at hs
  | tryPop u => obtain rfl : u = t := hta; simp [step] at hs
  | sizeApprox u => obtain rfl : u = t := hta; simp [step] at hs
  | spurious u => obtain rfl : u = t := hta; exact .inr rfl

/-- A compare-exchange of a push that fails has found another position. -/
theorem push_retry_ne {a : Act ι α} {v v' : α} {pos pos' : Word}
    (hpc : s.pc t = .pushCas v pos) (hs : step cfg s a = some (s', es))
    (hpc' : s'.pc t = .pushSeq v' pos')
    (hno : ∀ u, a ≠ .spurious u) : s.enqueuePos ≠ pos := by
  have hta : a.thread = t := thread_of_pc_ne hs (by simp [hpc, hpc'])
  obtain rfl | rfl := act_of_call hs hta (by simp [hpc])
  · intro heq
    simp only [step, goStep, hpc, if_pos heq, Option.some.injEq, Prod.mk.injEq] at hs
    obtain ⟨rfl, _⟩ := hs
    simp at hpc'
  · exact (hno t rfl).elim

/-- A compare-exchange of a pop that fails has found another position. -/
theorem pop_retry_ne {a : Act ι α} {pos pos' : Word} (hpc : s.pc t = .popCas pos)
    (hs : step cfg s a = some (s', es)) (hpc' : s'.pc t = .popSeq pos')
    (hno : ∀ u, a ≠ .spurious u) : s.dequeuePos ≠ pos := by
  have hta : a.thread = t := thread_of_pc_ne hs (by simp [hpc, hpc'])
  obtain rfl | rfl := act_of_call hs hta (by simp [hpc])
  · intro heq
    simp only [step, goStep, hpc, if_pos heq, Option.some.injEq, Prod.mk.injEq] at hs
    obtain ⟨rfl, _⟩ := hs
    simp at hpc'
  · exact (hno t rfl).elim

omit [DecidableEq ι] in
/-- The local positions are the words of the tickets. -/
theorem Tracks.position (track : Tracks cfg s g r) {w : Word}
    (hpos : (s.pc t).pushPos? = some w ∨ (s.pc t).popPos? = some w) : w = word (g.pos t) := by
  have hok := track.sim.thread t
  cases hpc : s.pc t with
  | pushSeq v w' => simp_all [Pc.pushPos?, Pc.popPos?, ThreadOk]
  | pushCas v w' => simp_all [Pc.pushPos?, Pc.popPos?, ThreadOk]
  | popSeq w' => simp_all [Pc.pushPos?, Pc.popPos?, ThreadOk]
  | popCas w' => simp_all [Pc.pushPos?, Pc.popPos?, ThreadOk]
  | _ => simp [hpc, Pc.pushPos?, Pc.popPos?] at hpos

theorem lt_of_word_ne {m n : Nat} (hle : m ≤ n) (hne : word n ≠ word m) : m < n :=
  Nat.lt_of_le_of_ne hle fun heq => hne (by rw [heq])

omit [DecidableEq ι] in
/-- A push whose position is not the current one has an older ticket. -/
theorem Tracks.push_behind (track : Tracks cfg s g r) {w : Word}
    (hpos : (s.pc t).pushPos? = some w) (hne : s.enqueuePos ≠ w) : g.pos t < g.enq := by
  have hok := track.sim.thread t
  rw [← track.enq]
  rw [track.sim.enq, track.position (.inl hpos)] at hne
  cases hpc : s.pc t with
  | pushSeq v w' => rw [hpc] at hok; exact lt_of_word_ne hok.2.1 hne
  | pushCas v w' => rw [hpc] at hok; exact lt_of_word_ne hok.2.1 hne
  | _ => rw [hpc] at hpos; cases hpos

omit [DecidableEq ι] in
/-- A pop whose position is not the current one has an older ticket. -/
theorem Tracks.pop_behind (track : Tracks cfg s g r) {w : Word}
    (hpos : (s.pc t).popPos? = some w) (hne : s.dequeuePos ≠ w) : g.pos t < g.deq := by
  have hok := track.sim.thread t
  rw [← track.deq]
  rw [track.sim.deq, track.position (.inr hpos)] at hne
  cases hpc : s.pc t with
  | popSeq w' => rw [hpc] at hok; exact lt_of_word_ne hok.2.1 hne
  | popCas w' => rw [hpc] at hok; exact lt_of_word_ne hok.2.1 hne
  | _ => rw [hpc] at hpos; cases hpos

end Heads

section Effort

variable {cfg : Config} {s s' : State ι α} {g : Tickets ι} {e : Effort ι}
variable {r : TicketRing.State ι α} {h : List (FifoOp α)} {es : List (Event ι α)} {t : ι}

omit [DecidableEq ι] in
/-- A thread that does not move is overtaken by the claims of the one that does. -/
theorem Paid.overtaken {enq deq pos rounds rivals : Nat} {pc : Pc α}
    (hp : Paid enq deq pos rounds rivals pc) :
    Paid (enq + (pushClaims es).length) (deq + (popClaims es).length) pos rounds
      (rivals + pc.claimsSeen es) pc := by
  cases pc <;> simp only [Paid, Pc.claimsSeen] at hp ⊢ <;> omega

omit [DecidableEq ι] in
theorem begins_self (pc : Pc α) : pc.begins pc = false := by
  cases pc <;> rfl

omit [DecidableEq ι] in
theorem again_self (pc : Pc α) : pc.again pc = false := by
  cases pc <;> rfl

/-- It is enough to look at the thread that moves. -/
theorem paid_of_self {pc' : Pc α}
    (paid : ∀ u, Paid g.enq g.deq (g.pos u) (e.rounds u) (e.rivals u) (s.pc u))
    (hpc : s'.pc = Function.update s.pc t pc') (hmine : ∀ f ∈ es, f.thread = t)
    (hself : Paid g.enq g.deq (g.pos t) (e.rounds t) (e.rivals t) (s.pc t) →
      Paid (g.enq + (pushClaims es).length) (g.deq + (popClaims es).length)
      (Pc.ticketAfter g.enq g.deq (g.pos t) (s.pc t) pc')
      (if (s.pc t).begins pc' then 0 else if (s.pc t).again pc' then e.rounds t + 1
        else e.rounds t)
      (if (s.pc t).begins pc' then 0 else e.rivals t) pc') (u : ι) :
    Paid (Tickets.record cfg s g s' es).enq (Tickets.record cfg s g s' es).deq
      ((Tickets.record cfg s g s' es).pos u)
      ((Effort.record (s, g) e (s', Tickets.record cfg s g s' es) es).rounds u)
      ((Effort.record (s, g) e (s', Tickets.record cfg s g s' es) es).rivals u) (s'.pc u) := by
  simp only [Tickets.record, Effort.record]
  by_cases hut : u = t
  · subst hut
    have hnone : (es.filter fun f => f.thread ≠ u) = [] := by
      rw [List.filter_eq_nil_iff]
      intro f hf
      simp [hmine f hf]
    have hzero : (s.pc u).claimsSeen ([] : List (Event ι α)) = 0 := by
      cases s.pc u <;> rfl
    rw [hpc, Function.update_self, hnone, hzero]
    exact hself (paid u)
  · have hall : (es.filter fun f => f.thread ≠ u) = es := by
      rw [List.filter_eq_self]
      intro f hf
      simpa [hmine f hf] using Ne.symm hut
    rw [hpc, Function.update_of_ne hut, hall, begins_self, again_self, ticketAfter_self]
    exact (paid u).overtaken

/-- A call pays for every round with a claim of another thread. -/
theorem Paid.step {a : Act ι α} (track : Tracks cfg s g r) (inv : RingInv cfg.cap r h)
    (paid : ∀ u, Paid g.enq g.deq (g.pos u) (e.rounds u) (e.rivals u) (s.pc u))
    (hno : ∀ u, a ≠ .spurious u) (hs : step cfg s a = some (s', es)) (u : ι) :
    Paid (Tickets.record cfg s g s' es).enq (Tickets.record cfg s g s' es).deq
      ((Tickets.record cfg s g s' es).pos u)
      ((Effort.record (s, g) e (s', Tickets.record cfg s g s' es) es).rounds u)
      ((Effort.record (s, g) e (s', Tickets.record cfg s g s' es) es).rivals u) (s'.pc u) := by
  have hm := step_move hs
  cases hm with
  | @pushStale t v w hpc hd =>
      -- a sequence ahead of the position: the counter has moved on
      have hlt := track.push_behind (w := w) (by rw [hpc]; rfl) fun heq => by
        have hhead := track.sim.push_head inv
        rw [heq] at hhead
        omega
      refine paid_of_self paid rfl (by simp) (fun hp => ?_) u
      rw [hpc] at hp ⊢
      simp only [Pc.begins, Pc.again, Pc.ticketAfter, Paid] at hp ⊢
      simp
      omega
  | @pushRetry t v w hpc =>
      have hlt := track.push_behind (by rw [hpc]; rfl)
        (push_retry_ne hpc hs (setPc_self _ _ _) hno)
      refine paid_of_self paid rfl (by simp) (fun hp => ?_) u
      rw [hpc] at hp ⊢
      simp only [Pc.begins, Pc.again, Pc.ticketAfter, Paid] at hp ⊢
      simp [pushClaims]
      omega
  | @popStale t w hpc hd =>
      have hlt := track.pop_behind (w := w) (by rw [hpc]; rfl) fun heq => by
        have hhead := track.sim.pop_head inv
        rw [heq] at hhead
        omega
      refine paid_of_self paid rfl (by simp) (fun hp => ?_) u
      rw [hpc] at hp ⊢
      simp only [Pc.begins, Pc.again, Pc.ticketAfter, Paid] at hp ⊢
      simp
      omega
  | @popRetry t w hpc =>
      have hlt := track.pop_behind (by rw [hpc]; rfl)
        (pop_retry_ne hpc hs (setPc_self _ _ _) hno)
      refine paid_of_self paid rfl (by simp) (fun hp => ?_) u
      rw [hpc] at hp ⊢
      simp only [Pc.begins, Pc.again, Pc.ticketAfter, Paid] at hp ⊢
      simp [popClaims]
      omega
  | _ =>
      refine paid_of_self paid rfl (by simp [Event.thread]) (fun hp => ?_) u
      clear paid
      simp_all [Pc.begins, Pc.again, Pc.ticketAfter, Paid, pushClaims, popClaims] <;> omega

end Effort

section Solo

/-- A push at the current position is not told to go round again. -/
def PushHead (cfg : Config) (s : State ι α) : Prop :=
  diff (s.buffer (s.enqueuePos &&& cfg.mask)).sequence s.enqueuePos ≤ 0

/-- A pop at the current position is not told to go round again. -/
def PopHead (cfg : Config) (s : State ι α) : Prop :=
  diff (s.buffer (s.dequeuePos &&& cfg.mask)).sequence (s.dequeuePos + 1) ≤ 0

variable {cfg : Config} {t : ι} {k m : Nat} {q : (State ι α × Tickets ι) × Effort ι}

/-- Running alone, the thread returns within `k` steps and goes round `m` times at most. -/
def Finishes (cfg : Config) (t : ι) (k m : Nat)
    (q : (State ι α × Tickets ι) × Effort ι) : Prop :=
  ∃ n ≤ k, ∃ q' es res, (retried cfg).exec q (List.replicate n (.go t)) = some (q', es) ∧
    q'.1.1.pc t = .idle ∧ q'.2.rounds t ≤ q.2.rounds t + m ∧
      es.filterMap Event.result? = [res]

theorem retried_go {s' : State ι α} {es : List (Event ι α)}
    (hs : goStep cfg q.1.1 t = some (s', es)) (hcall : q.1.1.pc t ≠ .idle) :
    ∃ q₁, (retried cfg).step q (.go t) = some (q₁, es) ∧ q₁.1.1 = s' ∧
      q₁.2.rounds t =
        if (q.1.1.pc t).again (s'.pc t) then q.2.rounds t + 1 else q.2.rounds t := by
  have hbegins : (q.1.1.pc t).begins (s'.pc t) = false := by
    cases hpc : q.1.1.pc t <;> first | rfl | exact (hcall hpc).elim
  have hticketed : (ticketed cfg).step q.1 (.go t) =
      some ((s', Tickets.record cfg q.1.1 q.1.2 s' es), es) :=
    Machine.watch_step_iff.mpr ⟨hs, rfl⟩
  have hretried : (retried cfg).step q (.go t) =
      some (((s', Tickets.record cfg q.1.1 q.1.2 s' es),
        Effort.record q.1 q.2 (s', Tickets.record cfg q.1.1 q.1.2 s' es) es), es) :=
    Machine.watch_step_iff.mpr ⟨hticketed, rfl⟩
  refine ⟨_, hretried, rfl, ?_⟩
  simp [Effort.record, hbegins]

/-- One step of a thread that runs alone. -/
theorem Finishes.step (m' : Nat) (hcall : q.1.1.pc t ≠ .idle)
    (hnext : ∃ s' es, goStep cfg q.1.1 t = some (s', es) ∧ es.filterMap Event.result? = [] ∧
      (if (q.1.1.pc t).again (s'.pc t) then 1 else 0) + m' ≤ m ∧
      ∀ q₁ : (State ι α × Tickets ι) × Effort ι, q₁.1.1 = s' → Finishes cfg t k m' q₁) :
    Finishes cfg t (k + 1) m q := by
  obtain ⟨s', es, hs, hres, hm, hf⟩ := hnext
  obtain ⟨q₁, hs₁, hq₁, hrounds⟩ := retried_go hs hcall
  obtain ⟨n, hn, q', fs, res, he, hidle, hle, hresult⟩ := hf q₁ hq₁
  refine ⟨n + 1, by omega, q', es ++ fs, res, ?_, hidle, ?_, ?_⟩
  · rw [List.replicate_succ, Machine.exec_cons hs₁, he]
    rfl
  · rw [hrounds] at hle
    split at hle <;> simp_all <;> omega
  · rw [List.filterMap_append, hres, hresult]
    rfl

/-- The step with which a call returns. -/
theorem Finishes.last (hcall : q.1.1.pc t ≠ .idle)
    (hnext : ∃ s' es res, goStep cfg q.1.1 t = some (s', es) ∧ s'.pc t = .idle ∧
      es.filterMap Event.result? = [res]) : Finishes cfg t 1 0 q := by
  obtain ⟨s', es, res, hs, hidle, hres⟩ := hnext
  obtain ⟨q₁, hs₁, rfl, hrounds⟩ := retried_go hs hcall
  have hagain : (q.1.1.pc t).again (q₁.1.1.pc t) = false := by
    rw [hidle]
    cases q.1.1.pc t <;> rfl
  rw [hagain] at hrounds
  exact ⟨1, le_refl _, q₁, es, res, (Machine.exec_single _ _).trans hs₁, hidle,
    le_of_eq hrounds, hres⟩

theorem Finishes.mono {k' m' : Nat} (hf : Finishes cfg t k m q) (hk : k ≤ k') (hm : m ≤ m') :
    Finishes cfg t k' m' q := by
  obtain ⟨n, hn, q', es, res, he, hidle, hle, hres⟩ := hf
  exact ⟨n, by omega, q', es, res, he, hidle, by omega, hres⟩

theorem finishes_pushStore {pos : Word} (hpc : q.1.1.pc t = .pushStore pos) :
    Finishes cfg t 1 0 q := by
  refine .last (by simp [hpc]) ⟨_, _, .pushed, by simp only [goStep, hpc]; rfl, ?_, rfl⟩
  exact setPc_self _ _ _

theorem finishes_pushData {v : α} {pos : Word} (hpc : q.1.1.pc t = .pushData v pos) :
    Finishes cfg t 2 0 q := by
  refine .step 0 (by simp [hpc]) ⟨_, _, by simp only [goStep, hpc]; rfl, rfl, ?_, ?_⟩
  · simp [hpc, Pc.again]
  · intro q₁ hq₁
    exact finishes_pushStore (by rw [hq₁]; exact setPc_self _ _ _)

/-- A push that finds its position current claims the ticket. -/
theorem finishes_pushCas_current {v : α} {pos : Word} (hpc : q.1.1.pc t = .pushCas v pos)
    (hcur : q.1.1.enqueuePos = pos) : Finishes cfg t 3 0 q := by
  refine .step 0 (by simp [hpc]) ⟨_, _, by simp only [goStep, hpc, if_pos hcur]; rfl, rfl, ?_, ?_⟩
  · simp [hpc, Pc.again]
  · intro q₁ hq₁
    exact finishes_pushData (by rw [hq₁]; exact setPc_self _ _ _)

/-- A push whose position is current goes round no more. -/
theorem finishes_pushSeq_current {v : α} (hpc : q.1.1.pc t = .pushSeq v q.1.1.enqueuePos)
    (hhead : PushHead cfg q.1.1) : Finishes cfg t 4 0 q := by
  rcases Int.lt_or_eq_of_le hhead with hd | hd
  · refine Finishes.mono (.last (by simp [hpc]) ⟨_, _, .full,
      by simp only [goStep, hpc, if_neg hd.ne, if_pos hd]; rfl, ?_, rfl⟩) (by omega) (le_refl _)
    exact setPc_self _ _ _
  · refine .step 0 (by simp [hpc])
      ⟨_, _, by simp only [goStep, hpc, if_pos hd]; rfl, rfl, ?_, ?_⟩
    · simp [hpc, Pc.again]
    · intro q₁ hq₁
      exact finishes_pushCas_current (by rw [hq₁]; exact setPc_self _ _ _) (by rw [hq₁]; rfl)

theorem finishes_pushLoad {v : α} (hpc : q.1.1.pc t = .pushLoad v)
    (hhead : PushHead cfg q.1.1) : Finishes cfg t 5 0 q := by
  refine .step 0 (by simp [hpc]) ⟨_, _, by simp only [goStep, hpc]; rfl, rfl, ?_, ?_⟩
  · simp [hpc, Pc.again]
  · intro q₁ hq₁
    exact finishes_pushSeq_current (by rw [hq₁]; exact setPc_self _ _ _) (by rw [hq₁]; exact hhead)

theorem finishes_pushCas {v : α} {pos : Word} (hpc : q.1.1.pc t = .pushCas v pos)
    (hhead : PushHead cfg q.1.1) : Finishes cfg t 5 1 q := by
  by_cases hcur : q.1.1.enqueuePos = pos
  · exact (finishes_pushCas_current hpc hcur).mono (by omega) (by omega)
  · refine .step 0 (by simp [hpc])
      ⟨_, _, by simp only [goStep, hpc, if_neg hcur]; rfl, rfl, ?_, ?_⟩
    · simp [hpc, Pc.again]
    · intro q₁ hq₁
      exact finishes_pushSeq_current (by rw [hq₁]; exact setPc_self _ _ _)
        (by rw [hq₁]; exact hhead)

/-- A push with a stale position goes round once. -/
theorem finishes_pushSeq {v : α} {pos : Word} (hpc : q.1.1.pc t = .pushSeq v pos)
    (hhead : PushHead cfg q.1.1) : Finishes cfg t 6 1 q := by
  rcases Int.lt_trichotomy (diff (q.1.1.buffer (pos &&& cfg.mask)).sequence pos) 0
    with hd | hd | hd
  · refine Finishes.mono (.last (by simp [hpc]) ⟨_, _, .full,
      by simp only [goStep, hpc, if_neg hd.ne, if_pos hd]; rfl, ?_, rfl⟩) (by omega) (by omega)
    exact setPc_self _ _ _
  · refine .step 1 (by simp [hpc])
      ⟨_, _, by simp only [goStep, hpc, if_pos hd]; rfl, rfl, ?_, ?_⟩
    · simp [hpc, Pc.again]
    · intro q₁ hq₁
      exact finishes_pushCas (by rw [hq₁]; exact setPc_self _ _ _) (by rw [hq₁]; exact hhead)
  · refine .step 0 (by simp [hpc])
      ⟨_, _, by simp only [goStep, hpc, if_neg hd.ne', if_neg hd.not_gt]; rfl, rfl, ?_, ?_⟩
    · simp [hpc, Pc.again]
    · intro q₁ hq₁
      exact finishes_pushLoad (by rw [hq₁]; exact setPc_self _ _ _) (by rw [hq₁]; exact hhead)

theorem finishes_popStore {pos : Word} {data : Option α} (hpc : q.1.1.pc t = .popStore pos data) :
    Finishes cfg t 1 0 q := by
  refine .last (by simp [hpc]) ⟨_, _, .popped data, by simp only [goStep, hpc]; rfl, ?_, rfl⟩
  exact setPc_self _ _ _

theorem finishes_popData {pos : Word} (hpc : q.1.1.pc t = .popData pos) :
    Finishes cfg t 2 0 q := by
  refine .step 0 (by simp [hpc]) ⟨_, _, by simp only [goStep, hpc]; rfl, rfl, ?_, ?_⟩
  · simp [hpc, Pc.again]
  · intro q₁ hq₁
    exact finishes_popStore (by rw [hq₁]; exact setPc_self _ _ _)

/-- A pop that finds its position current claims the ticket. -/
theorem finishes_popCas_current {pos : Word} (hpc : q.1.1.pc t = .popCas pos)
    (hcur : q.1.1.dequeuePos = pos) : Finishes cfg t 3 0 q := by
  refine .step 0 (by simp [hpc]) ⟨_, _, by simp only [goStep, hpc, if_pos hcur]; rfl, rfl, ?_, ?_⟩
  · simp [hpc, Pc.again]
  · intro q₁ hq₁
    exact finishes_popData (by rw [hq₁]; exact setPc_self _ _ _)

/-- A pop whose position is current goes round no more. -/
theorem finishes_popSeq_current (hpc : q.1.1.pc t = .popSeq q.1.1.dequeuePos)
    (hhead : PopHead cfg q.1.1) : Finishes cfg t 4 0 q := by
  rcases Int.lt_or_eq_of_le hhead with hd | hd
  · refine Finishes.mono (.last (by simp [hpc]) ⟨_, _, .empty,
      by simp only [goStep, hpc, if_neg hd.ne, if_pos hd]; rfl, ?_, rfl⟩) (by omega) (le_refl _)
    exact setPc_self _ _ _
  · refine .step 0 (by simp [hpc])
      ⟨_, _, by simp only [goStep, hpc, if_pos hd]; rfl, rfl, ?_, ?_⟩
    · simp [hpc, Pc.again]
    · intro q₁ hq₁
      exact finishes_popCas_current (by rw [hq₁]; exact setPc_self _ _ _) (by rw [hq₁]; rfl)

theorem finishes_popLoad (hpc : q.1.1.pc t = .popLoad)
    (hhead : PopHead cfg q.1.1) : Finishes cfg t 5 0 q := by
  refine .step 0 (by simp [hpc]) ⟨_, _, by simp only [goStep, hpc]; rfl, rfl, ?_, ?_⟩
  · simp [hpc, Pc.again]
  · intro q₁ hq₁
    exact finishes_popSeq_current (by rw [hq₁]; exact setPc_self _ _ _) (by rw [hq₁]; exact hhead)

theorem finishes_popCas {pos : Word} (hpc : q.1.1.pc t = .popCas pos)
    (hhead : PopHead cfg q.1.1) : Finishes cfg t 5 1 q := by
  by_cases hcur : q.1.1.dequeuePos = pos
  · exact (finishes_popCas_current hpc hcur).mono (by omega) (by omega)
  · refine .step 0 (by simp [hpc])
      ⟨_, _, by simp only [goStep, hpc, if_neg hcur]; rfl, rfl, ?_, ?_⟩
    · simp [hpc, Pc.again]
    · intro q₁ hq₁
      exact finishes_popSeq_current (by rw [hq₁]; exact setPc_self _ _ _)
        (by rw [hq₁]; exact hhead)

/-- A pop with a stale position goes round once. -/
theorem finishes_popSeq {pos : Word} (hpc : q.1.1.pc t = .popSeq pos)
    (hhead : PopHead cfg q.1.1) : Finishes cfg t 6 1 q := by
  rcases Int.lt_trichotomy (diff (q.1.1.buffer (pos &&& cfg.mask)).sequence (pos + 1)) 0
    with hd | hd | hd
  · refine Finishes.mono (.last (by simp [hpc]) ⟨_, _, .empty,
      by simp only [goStep, hpc, if_neg hd.ne, if_pos hd]; rfl, ?_, rfl⟩) (by omega) (by omega)
    exact setPc_self _ _ _
  · refine .step 1 (by simp [hpc])
      ⟨_, _, by simp only [goStep, hpc, if_pos hd]; rfl, rfl, ?_, ?_⟩
    · simp [hpc, Pc.again]
    · intro q₁ hq₁
      exact finishes_popCas (by rw [hq₁]; exact setPc_self _ _ _) (by rw [hq₁]; exact hhead)
  · refine .step 0 (by simp [hpc])
      ⟨_, _, by simp only [goStep, hpc, if_neg hd.ne', if_neg hd.not_gt]; rfl, rfl, ?_, ?_⟩
    · simp [hpc, Pc.again]
    · intro q₁ hq₁
      exact finishes_popLoad (by rw [hq₁]; exact setPc_self _ _ _) (by rw [hq₁]; exact hhead)

end Solo

/-- The thread is inside `try_push` or `try_pop`. -/
def Pc.calling : Pc α → Bool
  | .idle => false
  | .sizeLoadEnq => false
  | .sizeLoadDeq _ => false
  | _ => true

/-- What the retries of the calls cost, and that they end. -/
structure RetriesPaid (cfg : Config) (q : (State ι α × Tickets ι) × Effort ι) : Prop where
  /-- The local position is the word of a ticket. -/
  position : ∀ t w, (q.1.1.pc t).pushPos? = some w ∨ (q.1.1.pc t).popPos? = some w →
    w = word (q.1.2.pos t)
  /-- Every load of the local position but the first one finds a later ticket. -/
  later : ∀ a q' es, (retried cfg).step q a = some (q', es) → Steady cfg q.1.1 a →
    ∀ t, (q.1.1.pc t).loads (q'.1.1.pc t) → q'.2.rounds t ≠ 0 → q.1.2.pos t < q'.1.2.pos t
  /-- A call goes round again at most as often as other threads have claimed a ticket. -/
  paid : ∀ t, q.2.rounds t ≤ q.2.rivals t
  /-- A thread that runs alone returns, and goes round again at most once. -/
  alone : ∀ t, (q.1.1.pc t).calling → ∃ n ≤ 6, ∃ q' es res,
    (retried cfg).exec q (List.replicate n (.go t)) = some (q', es) ∧
      q'.1.1.pc t = .idle ∧ q'.2.rounds t ≤ q.2.rounds t + 1 ∧
        es.filterMap Event.result? = [res]

section Runs

variable {cfg : Config} {q : (State ι α × Tickets ι) × Effort ι} {tr : List (Event ι α)}

theorem retried_tracked
    (hr : (retried cfg).ReachWhen (fun q _ a => Steady cfg q.1.1 a) q tr) :
    ∃ r h, (TicketRing.ring cfg.cap).Reach r h ∧ Tracks cfg q.1.1 q.1.2 r := by
  refine tracked (Machine.ReachWhen.of_watch
    (C := fun q _ a => Unlapped cfg q.1 a) (hr.mono fun _ _ _ hc => hc.2))

/-- Every call has paid for its rounds. -/
theorem paid_reach (hr : (retried cfg).ReachWhen (fun q _ a => Steady cfg q.1.1 a) q tr)
    (u : ι) :
    Paid q.1.2.enq q.1.2.deq (q.1.2.pos u) (q.2.rounds u) (q.2.rivals u) (q.1.1.pc u) := by
  revert u
  refine hr.invariant (P := fun q _ => ∀ u, Paid q.1.2.enq q.1.2.deq (q.1.2.pos u)
    (q.2.rounds u) (q.2.rivals u) (q.1.1.pc u)) (fun _ => le_refl 0) ?_
  rintro q tr a ⟨⟨s', g'⟩, e'⟩ es hr paid hc hs u
  obtain ⟨r, h, hring, track⟩ := retried_tracked hr
  have inv := TicketRing.ringInv_reach (cap_pos cfg) hring
  obtain ⟨hticketed, he⟩ := Machine.watch_step_iff.mp hs
  obtain ⟨hstep, hg⟩ := Machine.watch_step_iff.mp hticketed
  dsimp only at hstep hg he paid ⊢
  subst hg
  subst he
  exact Paid.step track inv paid hc.1 hstep u

omit [DecidableEq ι] in
theorem Paid.rounds_le {enq deq pos rounds rivals : Nat} {pc : Pc α}
    (hp : Paid enq deq pos rounds rivals pc) : rounds ≤ rivals := by
  cases pc <;> simp only [Paid] at hp <;> omega

/-- A load of the local position, other than the first one, finds a later ticket. -/
theorem load_later {a : Act ι α} {q' : (State ι α × Tickets ι) × Effort ι}
    {es : List (Event ι α)} {t : ι}
    (hr : (retried cfg).ReachWhen (fun q _ a => Steady cfg q.1.1 a) q tr)
    (hs : (retried cfg).step q a = some (q', es)) (hc : Steady cfg q.1.1 a)
    (hload : (q.1.1.pc t).loads (q'.1.1.pc t)) (hrounds : q'.2.rounds t ≠ 0) :
    q.1.2.pos t < q'.1.2.pos t := by
  obtain ⟨r, h, hring, track⟩ := retried_tracked hr
  have paid := paid_reach hr t
  obtain ⟨hticketed, he⟩ := Machine.watch_step_iff.mp hs
  obtain ⟨hstep, hg⟩ := Machine.watch_step_iff.mp hticketed
  rw [he] at hrounds
  rw [hg]
  simp only [Tickets.record, Effort.record] at hrounds ⊢
  cases hpc : q.1.1.pc t with
  | pushLoad v =>
      cases hpc' : q'.1.1.pc t with
      | pushSeq v' w' =>
          simp only [hpc, hpc', Pc.begins, Pc.again, Bool.false_eq_true, if_false] at hrounds
          rw [hpc] at paid
          exact paid.2.resolve_left hrounds
      | _ => rw [hpc, hpc'] at hload; cases hload
  | pushCas v w =>
      cases hpc' : q'.1.1.pc t with
      | pushSeq v' w' =>
          exact track.push_behind (by rw [hpc]; rfl) (push_retry_ne hpc hstep hpc' hc.1)
      | _ => rw [hpc, hpc'] at hload; cases hload
  | popLoad =>
      cases hpc' : q'.1.1.pc t with
      | popSeq w' =>
          simp only [hpc, hpc', Pc.begins, Pc.again, Bool.false_eq_true, if_false] at hrounds
          rw [hpc] at paid
          exact paid.2.resolve_left hrounds
      | _ => rw [hpc, hpc'] at hload; cases hload
  | popCas w =>
      cases hpc' : q'.1.1.pc t with
      | popSeq w' =>
          exact track.pop_behind (by rw [hpc]; rfl) (pop_retry_ne hpc hstep hpc' hc.1)
      | _ => rw [hpc, hpc'] at hload; cases hload
  | _ => rw [hpc] at hload; cases hload

/-- Every call finishes if its thread is left alone. -/
theorem finishes_calling {t : ι} (hcall : (q.1.1.pc t).calling)
    (hpush : PushHead cfg q.1.1) (hpop : PopHead cfg q.1.1) : Finishes cfg t 6 1 q := by
  cases hpc : q.1.1.pc t with
  | pushLoad v => exact (finishes_pushLoad hpc hpush).mono (by omega) (by omega)
  | pushSeq v w => exact finishes_pushSeq hpc hpush
  | pushCas v w => exact (finishes_pushCas hpc hpush).mono (by omega) (le_refl _)
  | pushData v w => exact (finishes_pushData hpc).mono (by omega) (by omega)
  | pushStore w => exact (finishes_pushStore hpc).mono (by omega) (by omega)
  | popLoad => exact (finishes_popLoad hpc hpop).mono (by omega) (by omega)
  | popSeq w => exact finishes_popSeq hpc hpop
  | popCas w => exact (finishes_popCas hpc hpop).mono (by omega) (le_refl _)
  | popData w => exact (finishes_popData hpc).mono (by omega) (by omega)
  | popStore w data => exact (finishes_popStore hpc).mono (by omega) (by omega)
  | _ => rw [hpc] at hcall; cases hcall

end Runs

/--
Retries are paid for by the progress of other threads, and end as soon as the
thread is left alone, in every run without spurious failures in which no claim
overtakes a call by a whole turn of the words.
-/
theorem retries_paid (cfg : Config) {q : (State ι α × Tickets ι) × Effort ι}
    {tr : List (Event ι α)}
    (hr : (retried cfg).ReachWhen (fun q _ a => Steady cfg q.1.1 a) q tr) :
    RetriesPaid cfg q := by
  obtain ⟨r, h, hring, track⟩ := retried_tracked hr
  have inv := TicketRing.ringInv_reach (cap_pos cfg) hring
  refine ⟨?_, fun a q' es hs hc t => load_later hr hs hc, fun t => (paid_reach hr t).rounds_le,
    fun t hcall => ?_⟩
  · intro t w hpos
    exact track.position hpos
  · exact finishes_calling hcall (track.sim.push_head inv) (track.sim.pop_head inv)

/-- Two pushes that compete for ticket `0`, of which thread `false` loses. -/
def contested : List (Act Bool Nat) :=
  [.tryPush true 7, .go true, .go true, .tryPush false 8, .go false, .go false,
    .go true, .go false]

/-- The loser goes round once, for the claim that the winner has made. -/
theorem retries_paid_contested :
    ∃ q : (State Bool Nat × Tickets Bool) × Effort Bool,
      q.1.1.pc false = .pushSeq 8 1 ∧ RetriesPaid twoSlots q := by
  have he : (queue twoSlots).exec (queue twoSlots).init contested = some (_, _) := rfl
  have hno : ∀ a ∈ contested, ∀ u, a ≠ .spurious u := by simp [contested]
  have hr := Machine.ReachWhen.init.exec_allowed
    (C := fun _ _ a => ∀ u, a ≠ .spurious u) he fun a ha _ _ => hno a ha
  obtain ⟨g, hg⟩ := (unlapped_of_bound hr (by decide)).watch Tickets.init
    (Tickets.record twoSlots)
  obtain ⟨e, he⟩ := hg.watch Effort.init Effort.record
  exact ⟨_, rfl, retries_paid twoSlots he⟩

section Aged

variable {s : State Bool Nat}

/-- A push that finds its slot ahead of the current position goes round for ever. -/
theorem spins (hpc : s.pc true = .pushLoad 5 ∨ s.pc true = .pushSeq 5 s.enqueuePos)
    (hd : 0 < diff (s.buffer (s.enqueuePos &&& twoSlots.mask)).sequence s.enqueuePos)
    (n : Nat) :
    ∃ s', (queue twoSlots).exec s (List.replicate n (.go true)) = some (s', []) ∧
      s'.enqueuePos = s.enqueuePos ∧
      (s'.pc true = .pushLoad 5 ∨ s'.pc true = .pushSeq 5 s.enqueuePos) := by
  induction n generalizing s with
  | zero => exact ⟨s, rfl, rfl, hpc⟩
  | succ n ih =>
      have hstep : ∃ pc, (queue twoSlots).step s (.go true) = some (s.setPc true pc, []) ∧
          (pc = .pushLoad 5 ∨ pc = .pushSeq 5 s.enqueuePos) := by
        rcases hpc with hload | hseq
        · exact ⟨_, by simp only [queue, step, goStep, hload], .inr rfl⟩
        · exact ⟨_, by simp only [queue, step, goStep, hseq, if_neg hd.ne', if_neg hd.not_gt],
            .inl rfl⟩
      obtain ⟨pc, hs, hnext⟩ := hstep
      obtain ⟨s', he, henq, hpc'⟩ := ih (s := s.setPc true pc)
        (by rw [setPc_self]; exact hnext) hd
      refine ⟨s', ?_, henq, hpc'⟩
      rw [List.replicate_succ, Machine.exec_cons hs, he]
      rfl

/-- Thread `false` is about to claim ticket `0` with the only element of the queue. -/
theorem exec_aged (h : Holds twoSlots s 0 [7]) (hidle : s.pc false = .idle) :
    (queue twoSlots).exec s [.tryPop false, .go false, .go false] =
      some (s.setPc false (.popCas 0), [.popCalled false]) := by
  have hslot := h.oldest
  have hdeq : s.dequeuePos = 0 := h.deq
  rw [hdeq] at hslot
  have hd : diff (s.buffer ((0 : Word) &&& twoSlots.mask)).sequence (0 + 1) = 0 := by
    rw [hslot]
    exact diff_eq_zero.mpr rfl
  simp [Machine.exec, queue, step, goStep, hidle, hdeq] at hd ⊢
  simp [hd]

/-- The claim of ticket `0` on an empty queue whose counters have turned. -/
theorem exec_turned (h : Holds twoSlots s (2 ^ 64) []) (hpc : s.pc false = .popCas 0)
    (hidle : s.pc true = .idle) :
    ∃ s' es, (queue twoSlots).exec s [.go false, .go false, .go false, .tryPush true 5] =
      some (s', es) ∧ s'.pc false = .idle ∧ s'.pc true = .pushLoad 5 ∧
        s'.enqueuePos = 0 ∧ (s'.buffer 0).sequence = 2 := by
  have hdeq : s.dequeuePos = 0 := h.deq
  cases he : (queue twoSlots).exec s [.go false, .go false, .go false, .tryPush true 5] with
  | none => simp [Machine.exec, queue, step, goStep, hpc, hdeq, hidle, setPc_ne] at he
  | some r =>
      obtain ⟨s', es⟩ := r
      simp [Machine.exec, queue, step, goStep, hpc, hdeq, hidle, setPc_ne] at he
      obtain ⟨rfl, rfl⟩ := he
      refine ⟨_, _, rfl, by simp [setPc_ne], by simp, h.enq, ?_⟩
      simp
      rfl

end Aged

/-- A pop whose local position is a whole turn old claims a ticket of the empty queue, and
the next push spins for ever, with no other thread running and no spurious failure. -/
theorem aged_pop_blocks_push :
    ∃ (s : State Bool Nat) (tr : List (Event Bool Nat)),
      (queue twoSlots).ReachWhen (fun _ _ a => ∀ u, a ≠ .spurious u) s tr ∧
        s.pc false = .idle ∧ s.pc true = .pushLoad 5 ∧
        ∀ n, ∃ s', (queue twoSlots).exec s (List.replicate n (.go true)) = some (s', []) ∧
          s'.enqueuePos = s.enqueuePos ∧ s'.pc true ≠ .idle := by
  have h₀ : Holds twoSlots (queue twoSlots : Machine (State Bool Nat) _ _).init 0 [] := holds_init
  have hpush := exec_push (t := true) 7 rfl (h₀.room (cap_pos _))
  have h₁ := h₀.pushed (cap_pos _) 7
  have haged := exec_aged h₁ rfl
  have h₂ : Holds twoSlots (State.setPc _ false (.popCas 0)) _ _ := h₁.setPc
  have hpop := exec_pop (t := true) (s := State.setPc _ false (.popCas 0)) rfl
    (by rw [h₂.oldest])
  obtain ⟨as, s, es, hno, he, h, hpc⟩ := h₂.popped.laps (t := true) rfl 7 (2 ^ 64 - 1)
  obtain ⟨s', es', hturned, hfalse, htrue, henq, hslot⟩ :=
    exec_turned h (by rw [hpc]; rfl) (by rw [hpc]; rfl)
  have hahead : 0 < diff (s'.buffer (s'.enqueuePos &&& twoSlots.mask)).sequence
      s'.enqueuePos := by
    rw [henq, show (0 : Word) &&& twoSlots.mask = 0 by decide, hslot]
    decide
  have hr := ((((Machine.ReachWhen.init.exec_allowed (C := fun _ _ a => ∀ u, a ≠ .spurious u)
    hpush (by simp)).exec_allowed haged (by simp)).exec_allowed hpop (by simp)).exec_allowed he
      (fun a ha _ _ => hno a ha)).exec_allowed hturned (by simp)
  refine ⟨s', _, hr, hfalse, htrue, fun n => ?_⟩
  obtain ⟨s'', hspin, henq', hpc'⟩ := spins (.inl htrue) hahead n
  refine ⟨s'', hspin, henq', ?_⟩
  rcases hpc' with h | h <;> simp [h]

end LockFreeQueue
end AsyncTaskEngine
