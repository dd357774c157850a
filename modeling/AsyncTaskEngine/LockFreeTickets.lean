import AsyncTaskEngine.LockFreeSequential

/-!
# The tickets behind the words

The positions and sequences of the queue are words.  `ticketed` runs the queue
next to the same instructions on natural numbers, the tickets, which never wrap
around; `tracked` says that the words are the tickets modulo `2 ^ 64`, and that
the tickets are those of the ticket ring, in every run in which no claim
overtakes a call by a whole turn.

The first use is the subtraction of the source, whose operands are converted to
signed numbers before they are subtracted.  `signed_reads` says exactly when it
does what it is meant to do: when no odd multiple of `2 ^ 63` lies between the
two tickets.  A queue that is full at position `2 ^ 63` is a case where it
overflows.
-/

namespace AsyncTaskEngine
namespace LockFreeQueue

open TicketRing (Phase RingInv setPhase_ne setPhase_self)

universe u v

variable {ι : Type u} {α : Type v}

/-- The counters, the sequences and the local positions, without wrap-around. -/
structure Tickets (ι : Type u) where
  enq : Nat
  deq : Nat
  seq : Nat → Nat
  pos : ι → Nat

/-- The tickets of a constructed queue. -/
def Tickets.init : Tickets ι where
  enq := 0
  deq := 0
  seq i := i
  pos _ := 0

/-- The sequence of slot `i` after the release stores among the events. -/
def Tickets.stored (cfg : Config) (g : Tickets ι) (i : Nat) : List (Event ι α) → Nat
  | [.pushReturned t _] => if i = g.pos t % cfg.cap then g.pos t + 1 else g.seq i
  | [.popReturned t _ _] => if i = g.pos t % cfg.cap then g.pos t + cfg.cap else g.seq i
  | _ => g.seq i

/-- What a step of the queue does to the tickets. -/
def Tickets.record (cfg : Config) (s : State ι α) (g : Tickets ι) (s' : State ι α)
    (es : List (Event ι α)) : Tickets ι where
  enq := g.enq + (pushClaims es).length
  deq := g.deq + (popClaims es).length
  seq i := g.stored cfg i es
  pos u := Pc.ticketAfter g.enq g.deq (g.pos u) (s.pc u) (s'.pc u)

/-- The words stand for the tickets, and the ring `r` has drawn them. -/
structure Tracks (cfg : Config) (s : State ι α) (g : Tickets ι)
    (r : TicketRing.State ι α) : Prop where
  enq : r.enq = g.enq
  deq : r.deq = g.deq
  seq : ∀ i < cfg.cap, (r.phase i).seq = g.seq i
  sim : Sim cfg s r g.pos

section Tracks

variable {cfg : Config} {s s' : State ι α} {g : Tickets ι} {r r' : TicketRing.State ι α}
variable {h : List (FifoOp α)} {es : List (Event ι α)} {fs : List (FifoOp α)}

theorem stored_of_quiet (hq : ∀ e ∈ es, e.isQuiet) (i : Nat) : g.stored cfg i es = g.seq i := by
  unfold Tickets.stored
  split
  · exact (hq _ List.mem_cons_self).elim
  · exact (hq _ List.mem_cons_self).elim
  · rfl

/-- The counters of the ring move with the claims. -/
theorem Matches.counters (hm : Matches cfg.cap r r' es fs) :
    r'.enq = r.enq + (pushClaims es).length ∧ r'.deq = r.deq + (popClaims es).length := by
  cases hm with
  | quiet hr hq =>
      obtain ⟨_, hpush, hpop, _⟩ := projections_quiet hq
      rw [hr, hpush, hpop]
      exact ⟨rfl, rfl⟩
  | _ => simp_all [pushClaims, popClaims, Event.pushClaim?, Event.popClaim?]

/-- The sequences of the ring are stored by those who hold the tickets. -/
theorem Tracks.stored (track : Tracks cfg s g r) (hm : Matches cfg.cap r r' es fs) {i : Nat}
    (hi : i < cfg.cap) : (r'.phase i).seq = g.stored cfg i es := by
  have hold := track.seq i hi
  cases hm with
  | quiet hr hq => rw [hr, stored_of_quiet hq, hold]
  | push t v hf hr =>
      rw [hr]
      show _ = g.seq i
      by_cases hic : i = r.enq % cfg.cap
      · subst hic
        rw [← hold, hf]
        simp [Phase.seq]
      · simp only [setPhase_ne _ _ _ _ hic, hold]
  | pop t v hf hr =>
      rw [hr]
      show _ = g.seq i
      by_cases hic : i = r.deq % cfg.cap
      · subst hic
        rw [← hold, hf]
        simp [Phase.seq]
      · simp only [setPhase_ne _ _ _ _ hic, hold]
  | pushed t q v hw hr =>
      have hq := (track.sim.writer _ (Nat.mod_lt q (cap_pos cfg)) q t v hw).1
      rw [hr]
      show _ = if i = g.pos t % cfg.cap then g.pos t + 1 else g.seq i
      by_cases hic : i = q % cfg.cap
      · subst hic
        simp [hq, Phase.seq]
      · rw [setPhase_ne _ _ _ _ hic, hq, if_neg hic, hold]
  | popped t q v hw hr =>
      have hq := (track.sim.reader _ (Nat.mod_lt q (cap_pos cfg)) q t v hw).1
      rw [hr]
      show _ = if i = g.pos t % cfg.cap then g.pos t + cfg.cap else g.seq i
      by_cases hic : i = q % cfg.cap
      · subst hic
        simp [hq, Phase.seq]
      · rw [setPhase_ne _ _ _ _ hic, hq, if_neg hic, hold]

variable [DecidableEq ι]

theorem Tracks.step {a : Act ι α} (track : Tracks cfg s g r) (inv : RingInv cfg.cap r h)
    (hlap : NoLap s es) (hs : step cfg s a = some (s', es)) :
    ∃ as r' fs, (TicketRing.ring cfg.cap).exec r as = some (r', fs) ∧
      Tracks cfg s' (Tickets.record cfg s g s' es) r' := by
  obtain ⟨as, r', fs, he, hm, pos', hpos, sim'⟩ :=
    track.sim.answer inv hlap (step_move hs)
  obtain ⟨henq, hdeq⟩ := hm.counters
  have hpos' : pos' = (Tickets.record cfg s g s' es).pos := by
    funext u
    rw [hpos u, track.enq, track.deq]
    rfl
  refine ⟨as, r', fs, he, ?_, ?_, fun i hi => track.stored hm hi, hpos' ▸ sim'⟩
  · rw [henq, track.enq]
    rfl
  · rw [hdeq, track.deq]
    rfl

end Tracks

section Runs

variable [DecidableEq ι] {cfg : Config}

/-- The queue together with its tickets. -/
def ticketed (cfg : Config) : Machine (State ι α × Tickets ι) (Act ι α) (Event ι α) :=
  (queue cfg).watch Tickets.init (Tickets.record cfg)

/-- In every run without overtaking the words stand for the tickets. -/
theorem tracked {q : State ι α × Tickets ι} {tr : List (Event ι α)}
    (hr : (ticketed cfg).ReachWhen (fun q _ a => Unlapped cfg q.1 a) q tr) :
    ∃ r h, (TicketRing.ring cfg.cap).Reach r h ∧ Tracks cfg q.1 q.2 r := by
  refine Machine.simulation (A := TicketRing.ring cfg.cap)
    (R := fun q _ r _ => Tracks cfg q.1 q.2 r) ⟨rfl, rfl, fun _ _ => rfl, sim_init⟩ ?_ hr
  intro q tr a q' es r h _ hc hring track hs
  obtain ⟨hstep, hg⟩ := Machine.watch_step_iff.mp hs
  have inv := TicketRing.ringInv_reach (cap_pos cfg) hring
  obtain ⟨as, r', fs, he, track'⟩ := track.step inv (hc _ _ hstep) hstep
  exact ⟨as, r', fs, he, hg ▸ track'⟩

end Runs

/-- The signed turn of the words in which a ticket lies. -/
def turn (n : Nat) : Nat :=
  (n + 2 ^ 63) / 2 ^ 64

/-- `static_cast<ptrdiff_t>(seq) - static_cast<ptrdiff_t>(pos)` does not overflow, and
has the sign of the difference of the tickets `q` and `p`. -/
structure ExactDiff (seq pos : Word) (q p : Nat) : Prop where
  representable : BitVec.ssubOverflow seq pos = false
  /-- The subtraction is then the one of the words. -/
  words : diff seq pos = seq.toInt - pos.toInt
  sign : (seq.toInt - pos.toInt).sign = ((q : Int) - p).sign

section Signed

theorem toInt_word (n : Nat) : (word n).toInt = (n : Int) - 2 ^ 64 * turn n := by
  rw [word, BitVec.toInt_ofNat', Int.bmod_def, turn]
  split <;> omega

/-- Without overflow the subtraction is the one of the words. -/
theorem diff_of_representable {seq pos : Word} (h : BitVec.ssubOverflow seq pos = false) :
    diff seq pos = seq.toInt - pos.toInt :=
  BitVec.toInt_sub_of_not_ssubOverflow (by simp [h])

/-- Where the sequence is less than a turn ahead, the subtraction is exact if and only
if the tickets lie in one turn, half a turn apart at most. -/
theorem exactDiff_iff {q p : Nat} (h₁ : q < p + 2 ^ 64) (h₂ : p ≤ q + 2 ^ 63) :
    ExactDiff (word q) (word p) q p ↔ turn q = turn p ∧ q < p + 2 ^ 63 := by
  have hq := toInt_word q
  have hp := toInt_word p
  constructor
  · intro h
    have hfit := h.representable
    have hsign := h.sign
    simp only [BitVec.ssubOverflow, Bool.or_eq_false_iff, decide_eq_false_iff_not] at hfit
    rcases Nat.lt_or_ge q (p + 2 ^ 63) with hnear | hfar
    · -- a difference of turns shifts the subtraction by `2 ^ 64`
      exact ⟨by omega, hnear⟩
    · -- the sequence is ahead, and the subtraction says that it is behind
      rw [Int.sign_eq_one_of_pos (show (0 : Int) < q - p by omega),
        Int.sign_eq_one_iff_pos] at hsign
      omega
  · rintro ⟨hturn, hnear⟩
    have hsame : (word q).toInt - (word p).toInt = (q : Int) - p := by
      rw [hq, hp, hturn]
      omega
    have hfit : BitVec.ssubOverflow (word q) (word p) = false := by
      simp only [BitVec.ssubOverflow, Bool.or_eq_false_iff, decide_eq_false_iff_not, hsame]
      omega
    exact ⟨hfit, diff_of_representable hfit, by rw [hsame]⟩

end Signed

/-- The tickets `q` and `p` lie in one signed turn, less than half a turn apart. -/
def SameTurn (q p : Nat) : Prop :=
  turn q = turn p ∧ q < p + 2 ^ 63

/-- The reads of a sequence by a call that is not a whole turn behind: exactly when the
subtraction that follows is the intended one. -/
structure SignedReads (cfg : Config) (s : State ι α) (g : Tickets ι) : Prop where
  push : ∀ t v pos, s.pc t = .pushSeq v pos → lag cfg s (s.pc t) < 2 ^ 64 →
    (ExactDiff (s.buffer (pos &&& cfg.mask)).sequence pos
      (g.seq (g.pos t % cfg.cap)) (g.pos t) ↔
        SameTurn (g.seq (g.pos t % cfg.cap)) (g.pos t))
  pop : ∀ t pos, s.pc t = .popSeq pos → lag cfg s (s.pc t) < 2 ^ 64 →
    (ExactDiff (s.buffer (pos &&& cfg.mask)).sequence (pos + 1)
      (g.seq (g.pos t % cfg.cap)) (g.pos t + 1) ↔
        SameTurn (g.seq (g.pos t % cfg.cap)) (g.pos t + 1))

section Reads

variable {cfg : Config} {s : State ι α} {g : Tickets ι} {r : TicketRing.State ι α}
variable {h : List (FifoOp α)}

/-- The words and tickets that a push reads. -/
theorem Tracks.pushSeq_near (track : Tracks cfg s g r) (inv : RingInv cfg.cap r h) {t : ι}
    {v : α} {pos : Word} (hpc : s.pc t = .pushSeq v pos) (hlag : lag cfg s (s.pc t) < 2 ^ 64) :
    pos = word (g.pos t) ∧
      (s.buffer (pos &&& cfg.mask)).sequence = word (g.seq (g.pos t % cfg.cap)) ∧
      g.seq (g.pos t % cfg.cap) < g.pos t + 2 ^ 64 ∧
      g.pos t ≤ g.seq (g.pos t % cfg.cap) + 2 ^ 63 := by
  have hi := Nat.mod_lt (g.pos t) (cap_pos cfg)
  have hok := track.sim.thread t
  rw [hpc] at hok hlag
  obtain ⟨rfl, hle, hnear⟩ := hok
  simp only [lag] at hlag
  rw [track.sim.enq, toNat_word_sub hle hnear, capacity_toNat] at hlag
  have hcell := ticket_near inv hi
  have hahead := (seq_near inv hi).2
  have hseq := seq_cases (r.phase (g.pos t % cfg.cap))
  have hmax := cap_le cfg
  rw [track.sim.sequence_at]
  rw [track.seq _ hi] at hahead hseq ⊢
  exact ⟨rfl, rfl, by omega, by omega⟩

/-- The words and tickets that a pop reads. -/
theorem Tracks.popSeq_near (track : Tracks cfg s g r) (inv : RingInv cfg.cap r h) {t : ι}
    {pos : Word} (hpc : s.pc t = .popSeq pos) (hlag : lag cfg s (s.pc t) < 2 ^ 64) :
    pos = word (g.pos t) ∧
      (s.buffer (pos &&& cfg.mask)).sequence = word (g.seq (g.pos t % cfg.cap)) ∧
      g.seq (g.pos t % cfg.cap) < g.pos t + 1 + 2 ^ 64 ∧
      g.pos t + 1 ≤ g.seq (g.pos t % cfg.cap) + 2 ^ 63 := by
  have hi := Nat.mod_lt (g.pos t) (cap_pos cfg)
  have hok := track.sim.thread t
  rw [hpc] at hok hlag
  obtain ⟨rfl, hle, hnear⟩ := hok
  simp only [lag] at hlag
  rw [track.sim.deq, toNat_word_sub hle hnear, capacity_toNat] at hlag
  have hcell := ticket_near inv hi
  have hbehind := (seq_near inv hi).1
  have hseq := seq_cases (r.phase (g.pos t % cfg.cap))
  have hmax := cap_le cfg
  rw [track.sim.sequence_at]
  rw [track.seq _ hi] at hbehind hseq ⊢
  exact ⟨rfl, rfl, by omega, by omega⟩

end Reads

/--
The signed subtractions are exact if and only if the two tickets lie in the same
signed turn of the words, at the reads of every run without overtaking.
-/
theorem signed_reads [DecidableEq ι] (cfg : Config) {s : State ι α} {g : Tickets ι}
    {tr : List (Event ι α)}
    (hr : (ticketed cfg).ReachWhen (fun q _ a => Unlapped cfg q.1 a) (s, g) tr) :
    SignedReads cfg s g := by
  obtain ⟨r, h, hring, track⟩ := tracked hr
  have inv := TicketRing.ringInv_reach (cap_pos cfg) hring
  constructor
  · intro t v pos hpc hlag
    obtain ⟨rfl, hseq, h₁, h₂⟩ := track.pushSeq_near inv hpc hlag
    rw [hseq]
    exact exactDiff_iff h₁ h₂
  · intro t pos hpc hlag
    obtain ⟨rfl, hseq, h₁, h₂⟩ := track.popSeq_near inv hpc hlag
    rw [hseq, word_succ]
    exact exactDiff_iff h₁ h₂

/--
Thread `false` is about to read slot `0` for a position that thread `true` has
used in the meantime, and thread `true` is about to pop ticket `1`.
-/
def staleRead : List (Act Bool Nat) :=
  [.tryPush false 5, .go false,
    .tryPush true 7, .go true, .go true, .go true, .go true, .go true,
    .tryPop true, .go true, .go true, .go true, .go true, .go true,
    .tryPush true 8, .go true, .go true, .go true, .go true, .go true,
    .tryPop true, .go true]

theorem signed_reads_staleRead :
    ∃ (s : State Bool Nat) (g : Tickets Bool), SignedReads twoSlots s g ∧
      (s.pc false = .pushSeq 5 0 ∧ s.enqueuePos = 2 ∧ lag twoSlots s (s.pc false) < 2 ^ 64) ∧
      s.pc true = .popSeq 1 ∧ s.dequeuePos = 1 ∧ lag twoSlots s (s.pc true) < 2 ^ 64 := by
  obtain ⟨s, tr, hr, hp⟩ := Machine.exists_reach_of_exec (M := queue twoSlots) staleRead
    (p := fun r => decide ((pushClaims r.2).length < 2 ^ 64 ∧
      (r.1.pc false = .pushSeq 5 0 ∧ r.1.enqueuePos = 2 ∧
        lag twoSlots r.1 (r.1.pc false) < 2 ^ 64) ∧
      r.1.pc true = .popSeq 1 ∧ r.1.dequeuePos = 1 ∧ lag twoSlots r.1 (r.1.pc true) < 2 ^ 64))
    (by decide)
  obtain ⟨hb, hreads⟩ := of_decide_eq_true hp
  obtain ⟨g, hg⟩ := (reachWhen_unlapped hr hb).watch Tickets.init (Tickets.record twoSlots)
  exact ⟨s, g, signed_reads twoSlots hg, hreads⟩

/-- A push on a full queue whose position has reached `2 ^ 63` overflows. -/
theorem full_queue_overflows :
    ∃ (s : State Bool Nat) (tr : List (Event Bool Nat)) (pos : Word),
      (queue twoSlots).Reach s tr ∧ s.pc false = .pushSeq 9 pos ∧ s.enqueuePos = pos ∧
        BitVec.ssubOverflow (s.buffer (pos &&& twoSlots.mask)).sequence pos = true := by
  obtain ⟨as, s, es, _, he, h, hpc⟩ := (holds_init :
    Holds twoSlots (queue twoSlots : Machine (State Bool Nat) _ _).init 0 []).laps
      (t := true) rfl 7 (2 ^ 63 - 2)
  have hidle : ∀ u, s.pc u = .idle := by
    intro u
    rw [hpc]
    rfl
  have h₁ := h.pushed (cap_pos _) 7
  have h₂ := h₁.pushed (by decide) 8
  have hrun := ((Machine.Reach.init.exec he).exec
    (exec_push (t := true) 7 (hidle true) (h.room (cap_pos _)))).exec
      (exec_push (t := true) 8 (hidle true) (h₁.room (by decide)))
  have hread : (queue twoSlots).exec (pushed twoSlots (pushed twoSlots s 7) 8)
      [.tryPush false 9, .go false] =
        some ((pushed twoSlots (pushed twoSlots s 7) 8).setPc false
          (.pushSeq 9 (word (2 ^ 63))), [.pushCalled false 9]) := by
    have hload : (pushed twoSlots (pushed twoSlots s 7) 8).pc false = .idle := hidle false
    have hword : (pushed twoSlots (pushed twoSlots s 7) 8).enqueuePos = word (2 ^ 63) := h₂.enq
    simp [Machine.exec, queue, step, goStep, hload, hword]
  refine ⟨_, _, word (2 ^ 63), hrun.exec hread, setPc_self _ _ _, h₂.enq, ?_⟩
  -- the slot still holds the oldest element, of ticket `2 ^ 63 - 2`
  have hslot := h₂.held 0 7 rfl
  have hround := slot_round twoSlots (2 ^ 63 - 2)
  rw [setPc_buffer, show word (2 ^ 63) &&& twoSlots.mask = _ from hround]
  rw [Nat.add_zero, Nat.zero_add] at hslot
  rw [hslot]
  decide

end LockFreeQueue
end AsyncTaskEngine
