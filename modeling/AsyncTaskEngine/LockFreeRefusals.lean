import AsyncTaskEngine.LockFreeSequential

/-!
# What a refused call has seen

A call that returns `false` or `std::nullopt` has read one sequence and one
position.  As long as its local position is not half a turn of the words
behind, the position was current when the sequence was read, and the sequence
names the reason: the queue is full or empty, or the one call that holds the
ticket in question has not finished.  `refusals` states this for every run, and
`half_turn_refusal` shows what a position that is half a turn old leads to.

A consumer that pops until it is refused, while no push is in progress, has
therefore seen every element.
-/

namespace AsyncTaskEngine
namespace LockFreeQueue

open TicketRing (RingInv)

universe u v

variable {ι : Type u} {α : Type v} [DecidableEq ι]

/-- The meaning of a refusal that is returned by the next step of a thread. -/
structure Refusals (cfg : Config) (s : State ι α) (tr : List (Event ι α)) : Prop where
  /-- The queue is full, or the pop of the last ticket of this slot has not finished. -/
  full : ∀ t v pos s', s.pc t = .pushSeq v pos → lag cfg s (s.pc t) ≤ 2 ^ 63 →
    step cfg s (.go t) = some (s', [.pushFailed t]) →
      pos = s.enqueuePos ∧ (s.buffer (pos &&& cfg.mask)).sequence ≠ pos ∧
        (s.enqueuePos - s.dequeuePos = cfg.capacity ∨
          ∃ u, (s.pc u).popTicket? = some (pos - cfg.capacity))
  /-- The queue is empty, or the push of the head ticket has not finished. -/
  empty : ∀ t pos s', s.pc t = .popSeq pos → lag cfg s (s.pc t) ≤ 2 ^ 63 →
    step cfg s (.go t) = some (s', [.popFailed t]) →
      pos = s.dequeuePos ∧ (s.buffer (pos &&& cfg.mask)).sequence ≠ pos + 1 ∧
        (s.enqueuePos = s.dequeuePos ∨ ∃ u, (s.pc u).pushTicket? = some pos)
  /-- With no push in progress every ticket that was pushed has been claimed by a pop. -/
  drained : ∀ t pos s', s.pc t = .popSeq pos → lag cfg s (s.pc t) ≤ 2 ^ 63 →
    step cfg s (.go t) = some (s', [.popFailed t]) →
      (∀ u, (s.pc u).pushTicket? = none) → popClaims tr = (pushClaims tr).map Prod.fst

section Refusals

variable {cfg : Config} {s s' : State ι α} {tr : List (Event ι α)} {t : ι}
variable {r : TicketRing.State ι α} {h : List (FifoOp α)} {p : ι → Nat} {pos : Word}

theorem diff_of_pushFailed {v : α} (hpc : s.pc t = .pushSeq v pos)
    (hs : step cfg s (.go t) = some (s', [.pushFailed t])) :
    diff (s.buffer (pos &&& cfg.mask)).sequence pos < 0 := by
  obtain ⟨_, _, v', pos', hpc', hd⟩ := pushFailed_step hs List.mem_cons_self
  rw [hpc] at hpc'
  cases hpc'
  exact hd

theorem diff_of_popFailed (hpc : s.pc t = .popSeq pos)
    (hs : step cfg s (.go t) = some (s', [.popFailed t])) :
    diff (s.buffer (pos &&& cfg.mask)).sequence (pos + 1) < 0 := by
  obtain ⟨_, _, pos', hpc', hd⟩ := popFailed_step hs List.mem_cons_self
  rw [hpc] at hpc'
  cases hpc'
  exact hd

omit [DecidableEq ι] in
/-- When the counters meet, the tickets of the pops are those of the pushes. -/
theorem tickets_of_counters (inv : RingInv cfg.cap r h) (ok : TraceOk cfg.cap tr r h)
    (heq : r.deq = r.enq) : popClaims tr = (pushClaims tr).map Prod.fst := by
  rw [ok.pops, ok.pushes, map_fst_tickets, inv.pushes, heq]

end Refusals

/--
Refusals of the queue mean what they say, in every run in which no claim
overtakes a call by a whole turn of the words.
-/
theorem refusals (cfg : Config) {s : State ι α} {tr : List (Event ι α)}
    (hr : (queue cfg).ReachWhen (fun s _ a => Unlapped cfg s a) s tr) :
    Refusals cfg s tr := by
  obtain ⟨r, h, hring, ⟨p, sim⟩, ok⟩ := refines_unlapped hr
  have inv := TicketRing.ringInv_reach (cap_pos cfg) hring
  refine ⟨?_, ?_, ?_⟩
  · intro t v pos s' hpc hlag hs
    have hd := diff_of_pushFailed hpc hs
    rw [hpc] at hlag
    obtain ⟨hpos, hcase⟩ := push_refused sim inv hpc hlag hd
    refine ⟨hpos, fun hseq => hd.ne (diff_eq_zero.mpr hseq), hcase.imp_left fun hfull => ?_⟩
    rw [sim.enq, sim.deq, hfull, ← word_add, BitVec.add_comm, BitVec.add_sub_cancel,
      capacity_word]
  · intro t pos s' hpc hlag hs
    have hd := diff_of_popFailed hpc hs
    rw [hpc] at hlag
    obtain ⟨hpos, hcase⟩ := pop_refused sim inv hpc hlag hd
    refine ⟨hpos, fun hseq => hd.ne (diff_eq_zero.mpr hseq), hcase.imp_left fun hempty => ?_⟩
    rw [sim.enq, sim.deq, hempty]
  · intro t pos s' hpc hlag hs hno
    have hd := diff_of_popFailed hpc hs
    rw [hpc] at hlag
    obtain ⟨_, hempty | ⟨u, hu⟩⟩ := pop_refused sim inv hpc hlag hd
    · exact tickets_of_counters inv ok hempty
    · rw [hno u] at hu
      cases hu

/--
Thread `0` has the pop of ticket `0` in hand and thread `1` the push of ticket
`1`; thread `2` is about to push ticket `2`, and thread `3` to pop ticket `1`.
-/
def refusedByStalled : List (Act (Fin 4) Nat) :=
  [.tryPush 0 7, .go 0, .go 0, .go 0, .go 0, .go 0, .tryPop 0, .go 0, .go 0, .go 0,
    .tryPush 1 8, .go 1, .go 1, .go 1, .tryPush 2 9, .go 2, .tryPop 3, .go 3]

/--
Thread `0` has filled the queue while thread `1` was stalled before its
compare-exchange, and thread `2` is about to push.
-/
def refusedByFull : List (Act (Fin 4) Nat) :=
  [.tryPush 1 6, .go 1, .go 1, .tryPush 0 7, .go 0, .go 0, .go 0, .go 0, .go 0,
    .tryPush 0 8, .go 0, .go 0, .go 0, .go 0, .go 0, .tryPush 2 9, .go 2]

/-- Thread `1` has the only element in hand, and thread `2` is about to pop. -/
def refusedByEmpty : List (Act (Fin 4) Nat) :=
  [.tryPush 0 7, .go 0, .go 0, .go 0, .go 0, .go 0, .tryPop 1, .go 1, .go 1, .go 1,
    .tryPop 2, .go 2]

/-- A step is known by its events. -/
theorem exists_step_of_events {cfg : Config} {s : State ι α} {a : Act ι α}
    {es : List (Event ι α)} (h : (step cfg s a).map Prod.snd = some es) :
    ∃ s', step cfg s a = some (s', es) := by
  obtain ⟨⟨s', fs⟩, hs, rfl⟩ := Option.map_eq_some_iff.mp h
  exact ⟨s', hs⟩

theorem refusals_stalled :
    (∃ (s : State (Fin 4) Nat) (tr : List (Event (Fin 4) Nat)), Refusals twoSlots s tr ∧
      (s.pc 2 = .pushSeq 9 2 ∧ lag twoSlots s (s.pc 2) ≤ 2 ^ 63 ∧
        (∃ s', step twoSlots s (.go 2) = some (s', [.pushFailed 2])) ∧
        ∃ u, (s.pc u).popTicket? = some 0) ∧
      s.pc 3 = .popSeq 1 ∧ lag twoSlots s (s.pc 3) ≤ 2 ^ 63 ∧
        (∃ s', step twoSlots s (.go 3) = some (s', [.popFailed 3])) ∧
        ∃ u, (s.pc u).pushTicket? = some 1) ∧
    (∃ (s : State (Fin 4) Nat) (tr : List (Event (Fin 4) Nat)), Refusals twoSlots s tr ∧
      s.pc 2 = .pushSeq 9 2 ∧ lag twoSlots s (s.pc 2) ≤ 2 ^ 63 ∧
        (∃ s', step twoSlots s (.go 2) = some (s', [.pushFailed 2])) ∧
        s.enqueuePos - s.dequeuePos = twoSlots.capacity) ∧
    ∃ (s : State (Fin 4) Nat) (tr : List (Event (Fin 4) Nat)), Refusals twoSlots s tr ∧
      s.pc 2 = .popSeq 1 ∧ lag twoSlots s (s.pc 2) ≤ 2 ^ 63 ∧
        (∃ s', step twoSlots s (.go 2) = some (s', [.popFailed 2])) ∧
        (∀ u, (s.pc u).pushTicket? = none) ∧ popClaims tr = (pushClaims tr).map Prod.fst := by
  refine ⟨?_, ?_, ?_⟩
  · obtain ⟨s, tr, hr, hp⟩ := Machine.exists_reach_of_exec (M := queue twoSlots)
      refusedByStalled
      (p := fun r => decide ((pushClaims r.2).length < 2 ^ 64 ∧
        r.1.pc 2 = .pushSeq 9 2 ∧ lag twoSlots r.1 (r.1.pc 2) ≤ 2 ^ 63 ∧
        (step twoSlots r.1 (.go 2)).map Prod.snd = some [.pushFailed 2] ∧
        r.1.enqueuePos - r.1.dequeuePos ≠ twoSlots.capacity ∧
        r.1.pc 3 = .popSeq 1 ∧ lag twoSlots r.1 (r.1.pc 3) ≤ 2 ^ 63 ∧
        (step twoSlots r.1 (.go 3)).map Prod.snd = some [.popFailed 3] ∧
        r.1.enqueuePos ≠ r.1.dequeuePos))
      (by decide)
    obtain ⟨hb, hpush, hlag, hfail, hroom, hpop, hlag', hfail', hsome⟩ := of_decide_eq_true hp
    have href := refusals twoSlots (reachWhen_unlapped hr hb)
    obtain ⟨s₁, hs₁⟩ := exists_step_of_events hfail
    obtain ⟨s₂, hs₂⟩ := exists_step_of_events hfail'
    have hholder := ((href.full 2 9 2 s₁ hpush hlag hs₁).2.2).resolve_left hroom
    have hholder' := ((href.empty 3 1 s₂ hpop hlag' hs₂).2.2).resolve_left hsome
    exact ⟨s, tr, href, ⟨hpush, hlag, ⟨s₁, hs₁⟩, hholder⟩, hpop, hlag', ⟨s₂, hs₂⟩, hholder'⟩
  · obtain ⟨s, tr, hr, hp⟩ := Machine.exists_reach_of_exec (M := queue twoSlots) refusedByFull
      (p := fun r => decide ((pushClaims r.2).length < 2 ^ 64 ∧
        r.1.pc 2 = .pushSeq 9 2 ∧ lag twoSlots r.1 (r.1.pc 2) ≤ 2 ^ 63 ∧
        (step twoSlots r.1 (.go 2)).map Prod.snd = some [.pushFailed 2] ∧
        ∀ u, (r.1.pc u).popTicket? = none))
      (by decide)
    obtain ⟨hb, hpush, hlag, hfail, hnone⟩ := of_decide_eq_true hp
    have href := refusals twoSlots (reachWhen_unlapped hr hb)
    obtain ⟨s₁, hs₁⟩ := exists_step_of_events hfail
    refine ⟨s, tr, href, hpush, hlag, ⟨s₁, hs₁⟩, ?_⟩
    refine ((href.full 2 9 2 s₁ hpush hlag hs₁).2.2).resolve_right ?_
    rintro ⟨u, hu⟩
    rw [hnone u] at hu
    cases hu
  · obtain ⟨s, tr, hr, hp⟩ := Machine.exists_reach_of_exec (M := queue twoSlots) refusedByEmpty
      (p := fun r => decide ((pushClaims r.2).length < 2 ^ 64 ∧
        r.1.pc 2 = .popSeq 1 ∧ lag twoSlots r.1 (r.1.pc 2) ≤ 2 ^ 63 ∧
        (step twoSlots r.1 (.go 2)).map Prod.snd = some [.popFailed 2] ∧
        ∀ u, (r.1.pc u).pushTicket? = none))
      (by decide)
    obtain ⟨hb, hpop, hlag, hfail, hnone⟩ := of_decide_eq_true hp
    have href := refusals twoSlots (reachWhen_unlapped hr hb)
    obtain ⟨s₁, hs₁⟩ := exists_step_of_events hfail
    exact ⟨s, tr, href, hpop, hlag, ⟨s₁, hs₁⟩, hnone,
      href.drained 2 1 s₁ hpop hlag hs₁ hnone⟩

/-- A `try_push` that has read its position and is delayed for half a turn is refused
by an empty queue. -/
theorem half_turn_refusal :
    ∃ (s s' : State Bool Nat) (tr : List (Event Bool Nat)),
      (queue twoSlots).Reach s tr ∧ s.pc false = .pushSeq 5 0 ∧
        step twoSlots s (.go false) = some (s', [.pushFailed false]) ∧
        s.enqueuePos ≠ 0 ∧ s.enqueuePos = s.dequeuePos ∧
        ∀ u, (s.pc u).popTicket? = none := by
  have hstart : (queue twoSlots).exec (queue twoSlots).init
      [Act.tryPush false 5, .go false] = some (_, _) := rfl
  obtain ⟨as, s, es, _, he, h, hpc⟩ := (holds_init.setPc.setPc :
    Holds twoSlots (((queue twoSlots).init.setPc false (.pushLoad 5)).setPc false
      (.pushSeq 5 0)) 0 []).laps (t := true) rfl 7 (2 ^ 63)
  have hstale : s.pc false = .pushSeq 5 0 := by rw [hpc]; rfl
  have hseq : (s.buffer ((0 : Word) &&& twoSlots.mask)).sequence = word (2 ^ 63) := by
    have hfree := h.free 0 (le_refl _) (cap_pos _)
    rwa [Nat.zero_add, Nat.add_zero, twoSlots_mask] at hfree
  have hd : diff (word (2 ^ 63)) 0 < 0 := by decide
  refine ⟨s, s.setPc false .idle, _, (Machine.Reach.init.exec hstart).exec he, hstale, ?_,
    ?_, ?_, ?_⟩
  · simp only [step, goStep, hstale, hseq, if_neg hd.ne, if_pos hd]
  · rw [h.enq]
    decide
  · rw [h.enq, h.deq]
    rfl
  · intro u
    rw [hpc]
    cases u <;> rfl

end LockFreeQueue
end AsyncTaskEngine
