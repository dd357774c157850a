import AsyncTaskEngine.LockFreeSimulation
import Mathlib.Data.List.Range
import Mathlib.Data.List.Forall2
import Mathlib.Data.List.Nodup

/-!
# Successful operations of the lock-free queue form a bounded FIFO history

The simulation of `LockFreeSimulation` is carried along whole runs, together
with what the recorded trace says: which tickets have been claimed, in which
order, and which of them have been completed.  The main theorem,
`successful_calls_fifo`, orders the successful calls by their compare-exchange
and shows that they form a legal history of a FIFO queue of size `capacity()`:
a call succeeds only with a ticket of its own, and what a push has stored stays
in its slot until the pop of its ticket.
-/

namespace AsyncTaskEngine
namespace LockFreeQueue

open TicketRing (Phase RingInv)

universe u v

variable {ι : Type u} {α : Type v}

/-- A successful compare-exchange. -/
inductive Claim (α : Type v) where
  | push (pos : Word) (value : α)
  | pop (pos : Word)

/-- The claim an event makes, if any. -/
def Event.claim? : Event ι α → Option (Claim α)
  | .pushClaimed _ pos v => some (.push pos v)
  | .popClaimed _ pos => some (.pop pos)
  | _ => none

/-- The position and value of a successful push claim. -/
def Event.pushClaim? : Event ι α → Option (Word × α)
  | .pushClaimed _ pos v => some (pos, v)
  | _ => none

/-- The position of a successful pop claim. -/
def Event.popClaim? : Event ι α → Option Word
  | .popClaimed _ pos => some pos
  | _ => none

/-- The position of a `try_push` that returned `true`. -/
def Event.pushReturn? : Event ι α → Option Word
  | .pushReturned _ pos => some pos
  | _ => none

/-- The position of a `try_pop` that returned a value. -/
def Event.popReturn? : Event ι α → Option Word
  | .popReturned _ pos _ => some pos
  | _ => none

/-- The claims of a run, in the order of their CAS. -/
def claims (tr : List (Event ι α)) : List (Claim α) :=
  tr.filterMap Event.claim?

/-- The push claims of a run. -/
def pushClaims (tr : List (Event ι α)) : List (Word × α) :=
  tr.filterMap Event.pushClaim?

/-- The pop claims of a run. -/
def popClaims (tr : List (Event ι α)) : List Word :=
  tr.filterMap Event.popClaim?

/-- The tickets of the pushes that have returned. -/
def pushReturns (tr : List (Event ι α)) : List Word :=
  tr.filterMap Event.pushReturn?

/-- The tickets of the pops that have returned. -/
def popReturns (tr : List (Event ι α)) : List Word :=
  tr.filterMap Event.popReturn?

section Projections

variable (tr es : List (Event ι α))

@[simp] theorem claims_append : claims (tr ++ es) = claims tr ++ claims es :=
  List.filterMap_append

@[simp] theorem pushClaims_append :
    pushClaims (tr ++ es) = pushClaims tr ++ pushClaims es :=
  List.filterMap_append

@[simp] theorem popClaims_append :
    popClaims (tr ++ es) = popClaims tr ++ popClaims es :=
  List.filterMap_append

@[simp] theorem pushReturns_append :
    pushReturns (tr ++ es) = pushReturns tr ++ pushReturns es :=
  List.filterMap_append

@[simp] theorem popReturns_append :
    popReturns (tr ++ es) = popReturns tr ++ popReturns es :=
  List.filterMap_append

variable {es}

/-- Quiet events contribute to none of the projections. -/
theorem projections_quiet (hq : ∀ e ∈ es, e.isQuiet) :
    claims es = [] ∧ pushClaims es = [] ∧ popClaims es = [] ∧
      pushReturns es = [] ∧ popReturns es = [] := by
  simp only [claims, pushClaims, popClaims, pushReturns, popReturns,
    List.filterMap_eq_nil_iff]
  refine ⟨?_, ?_, ?_, ?_, ?_⟩ <;> intro e he <;> have := hq e he <;>
    cases e <;> first | rfl | exact False.elim this

end Projections

/-- A published ticket is that of a push that has returned. -/
theorem exists_pushReturned {tr : List (Event ι α)} {pos : Word}
    (h : pos ∈ pushReturns tr) : ∃ t, .pushReturned t pos ∈ tr := by
  obtain ⟨e, he, hpos⟩ := List.mem_filterMap.mp h
  cases e with
  | pushReturned t w =>
      obtain rfl : w = pos := Option.some.inj hpos
      exact ⟨t, he⟩
  | _ => cases hpos

/-- The operation `o` is what claim `c` does, given the values pushed so far. -/
def Performed (vs : List α) : Claim α → FifoOp α → Prop
  | .push _ v, .enq v' => v' = v
  | .pop pos, .deq v => ∃ q, pos = word q ∧ vs[q]? = some v
  | _, _ => False

/-- The words `ws` stand for distinct tickets below `bound` that are `done`. -/
def Completed (ws : List Word) (bound : Nat) (done : Nat → Prop) : Prop :=
  ∃ qs : List Nat, ws = qs.map word ∧ qs.Nodup ∧ ∀ q ∈ qs, q < bound ∧ done q

theorem Completed.mono {ws : List Word} {b b' : Nat} {done done' : Nat → Prop}
    (hc : Completed ws b done) (hb : b ≤ b') (hd : ∀ q, done q → done' q) :
    Completed ws b' done' := by
  obtain ⟨qs, hqs, hnd, hall⟩ := hc
  refine ⟨qs, hqs, hnd, ?_⟩
  intro q hq
  exact ⟨Nat.lt_of_lt_of_le (hall q hq).1 hb, hd q (hall q hq).2⟩

/-- A ticket that was not done before is new to the list. -/
theorem Completed.snoc {ws : List Word} {b q : Nat} {done done' : Nat → Prop}
    (hc : Completed ws b done) (hd : ∀ q, done q → done' q)
    (hq : q < b) (hnot : ¬ done q) (hnow : done' q) :
    Completed (ws ++ [word q]) b done' := by
  obtain ⟨qs, hqs, hnd, hall⟩ := hc
  refine ⟨qs ++ [q], by simp [hqs], ?_, ?_⟩
  · rw [List.nodup_append]
    refine ⟨hnd, by simp, ?_⟩
    intro q' hq' x hx
    obtain rfl := List.mem_singleton.mp hx
    rintro rfl
    exact hnot (hall q' hq').2
  · intro q' hq'
    rcases List.mem_append.mp hq' with hq' | hq'
    · exact ⟨(hall q' hq').1, hd q' (hall q' hq').2⟩
    · obtain rfl := List.mem_singleton.mp hq'
      exact ⟨hq, hnow⟩

/-- Ticket `q` has been published. -/
def Published (cap : Nat) (r : TicketRing.State ι α) (q : Nat) : Prop :=
  q + 1 ≤ (r.phase (q % cap)).seq

/-- The slot of ticket `q` has been released for the next round. -/
def Released (cap : Nat) (r : TicketRing.State ι α) (q : Nat) : Prop :=
  q + cap ≤ (r.phase (q % cap)).seq

/-- What the trace of a run says about the ring that answers it. -/
structure TraceOk (cap : Nat) (tr : List (Event ι α)) (r : TicketRing.State ι α)
    (h : List (FifoOp α)) : Prop where
  pushes : pushClaims tr = (enqueued h).mapIdx fun i v => (word i, v)
  pops : popClaims tr = (List.range r.deq).map word
  order : List.Forall₂ (Performed (enqueued h)) (claims tr) h
  pushed : Completed (pushReturns tr) r.enq (Published cap r)
  published : ∀ q < r.enq, Published cap r q → word q ∈ pushReturns tr
  popped : Completed (popReturns tr) r.deq (Released cap r)
  values : ∀ t pos res, Event.popReturned t pos res ∈ tr →
    ∃ q v, pos = word q ∧ q < r.deq ∧ res = some v ∧ (enqueued h)[q]? = some v

section Trace

variable {cap : Nat} {tr es : List (Event ι α)} {r r' : TicketRing.State ι α}
variable {h fs : List (FifoOp α)}

theorem getElem?_append_some {vs ws : List α} {q : Nat} {v : α}
    (h : vs[q]? = some v) : (vs ++ ws)[q]? = some v := by
  rw [List.getElem?_append_left (List.getElem?_eq_some_iff.mp h).1]
  exact h

theorem Performed.mono {vs ws : List α} {c : Claim α} {o : FifoOp α}
    (hp : Performed vs c o) : Performed (vs ++ ws) c o := by
  cases c with
  | push pos v => cases o <;> exact hp
  | pop pos =>
      cases o with
      | enq v => exact hp
      | deq v =>
          obtain ⟨q, hq, hv⟩ := hp
          exact ⟨q, hq, getElem?_append_some hv⟩

theorem traceOk_init :
    TraceOk cap [] (TicketRing.ring cap : Machine (TicketRing.State ι α) _ _).init
      [] where
  pushes := rfl
  pops := rfl
  order := .nil
  pushed := ⟨[], rfl, List.nodup_nil, by simp⟩
  published q hq _ := absurd hq (Nat.not_lt_zero q)
  popped := ⟨[], rfl, List.nodup_nil, by simp⟩
  values := by simp

/-- The cell of a published ticket that no pop has drawn is full. -/
theorem Published.full {q : Nat} (hp : Published cap r q) (hcap : 0 < cap)
    (inv : RingInv cap r h) (hlow : r.deq ≤ q) (hhigh : q < r.enq) :
    ∃ v, r.phase (q % cap) = .full q v := by
  rcases inv.outstanding hcap hlow hhigh with ⟨t, v, hw⟩ | hf
  · -- a ticket that is still being written has not been published
    rw [Published, hw] at hp
    exact (Nat.not_succ_le_self q hp).elim
  · exact hf

/-- A ticket that is published after a step was so before, or is by its event. -/
theorem Matches.published (hm : Matches cap r r' es fs) {q : Nat} (hq : q < r'.enq)
    (hp : Published cap r' q) :
    q < r.enq ∧ Published cap r q ∨ word q ∈ pushReturns es := by
  cases hm with
  | quiet hr hquiet =>
      subst hr
      exact .inl ⟨hq, hp⟩
  | push t v hf hr =>
      have hseq : (r'.phase (q % cap)).seq = (r.phase (q % cap)).seq := by
        rw [hr]
        exact TicketRing.setPhase_seq r cap _ _ (by rw [hf]; rfl) _
      rw [Published, hseq] at hp
      have hlt : q ≠ r.enq := by
        rintro rfl
        rw [hf] at hp
        exact Nat.not_succ_le_self _ hp
      have henq : r'.enq = r.enq + 1 := by rw [hr]
      exact .inl ⟨by omega, hp⟩
  | pop t v hf hr =>
      have hseq : (r'.phase (q % cap)).seq = (r.phase (q % cap)).seq := by
        rw [hr]
        exact TicketRing.setPhase_seq r cap _ _ (by rw [hf]; rfl) _
      rw [Published, hseq] at hp
      exact .inl ⟨by rw [hr] at hq; exact hq, hp⟩
  | pushed t p v hw hr =>
      rw [hr] at hq
      by_cases hi : q % cap = p % cap
      · rw [Published, hi, hr] at hp
        simp only [TicketRing.setPhase_self, Phase.seq] at hp
        by_cases hqp : q = p
        · exact .inr (by simp [pushReturns, Event.pushReturn?, hqp])
        · refine .inl ⟨hq, ?_⟩
          rw [Published, hi, hw]
          simp only [Phase.seq]
          omega
      · rw [Published, hr, TicketRing.setPhase_ne _ _ _ _ hi] at hp
        exact .inl ⟨hq, hp⟩
  | popped t p v hw hr =>
      rw [hr] at hq
      by_cases hi : q % cap = p % cap
      · rw [Published, hi, hr] at hp
        simp only [TicketRing.setPhase_self, Phase.seq] at hp
        have hle : q ≤ p := by
          by_contra hgt
          have := TicketRing.ticket_gap hi.symm (Nat.lt_of_not_le hgt)
          omega
        refine .inl ⟨hq, ?_⟩
        rw [Published, hi, hw]
        exact Nat.succ_le_succ hle
      · rw [Published, hr, TicketRing.setPhase_ne _ _ _ _ hi] at hp
        exact .inl ⟨hq, hp⟩

/-- The trace facts are preserved by every answered step. -/
theorem TraceOk.step (hcap : 2 ≤ cap) (ok : TraceOk cap tr r h)
    (inv : RingInv cap r h) (hm : Matches cap r r' es fs)
    (hmono : ∀ i, (r.phase i).seq ≤ (r'.phase i).seq)
    (hdeq : r'.deq = r.deq + (dequeued fs).length)
    (henq : r'.enq = r.enq + (enqueued fs).length) :
    TraceOk cap (tr ++ es) r' (h ++ fs) := by
  have hpub : ∀ q, Published cap r q → Published cap r' q :=
    fun q hq => le_trans hq (hmono _)
  have hrel : ∀ q, Released cap r q → Released cap r' q :=
    fun q hq => le_trans hq (hmono _)
  have hvals : ∀ t pos res, Event.popReturned t pos res ∈ tr →
      ∃ q v, pos = word q ∧ q < r'.deq ∧ res = some v ∧
        (enqueued (h ++ fs))[q]? = some v := by
    intro t pos res hmem
    obtain ⟨q, v, hpos, hq, hres, hv⟩ := ok.values t pos res hmem
    refine ⟨q, v, hpos, by omega, hres, ?_⟩
    rw [enqueued_append]
    exact getElem?_append_some hv
  have hpushed : pushReturns es = [] →
      Completed (pushReturns (tr ++ es)) r'.enq (Published cap r') := by
    intro hnil
    rw [pushReturns_append, hnil, List.append_nil]
    exact ok.pushed.mono (by omega) hpub
  have hpopped : popReturns es = [] →
      Completed (popReturns (tr ++ es)) r'.deq (Released cap r') := by
    intro hnil
    rw [popReturns_append, hnil, List.append_nil]
    exact ok.popped.mono (by omega) hrel
  have hdone : ∀ q < r'.enq, Published cap r' q → word q ∈ pushReturns (tr ++ es) := by
    intro q hq hp
    rw [pushReturns_append, List.mem_append]
    rcases hm.published hq hp with ⟨hq', hp'⟩ | hnew
    · exact .inl (ok.published q hq' hp')
    · exact .inr hnew
  have hquiet : claims es = [] →
      List.Forall₂ (Performed (enqueued h)) (claims (tr ++ es)) h := by
    intro hnil
    rw [claims_append, hnil, List.append_nil]
    exact ok.order
  cases hm with
  | quiet hr hq =>
      subst hr
      obtain ⟨h₁, h₂, h₃, h₄, h₅⟩ := projections_quiet hq
      rw [List.append_nil] at hvals ⊢
      refine ⟨by simp [h₂, ok.pushes], by simp [h₃, ok.pops], hquiet h₁,
        hpushed h₄, hdone, hpopped h₅, ?_⟩
      intro t pos res hmem
      rcases List.mem_append.mp hmem with hmem | hmem
      · exact hvals t pos res hmem
      · exact (hq _ hmem).elim
  | push t v hf hr =>
      have hnew : enqueued (h ++ [.enq v]) = enqueued h ++ [v] := by
        simp [enqueued]
      refine ⟨?_, ?_, ?_, hpushed rfl, hdone, hpopped rfl, ?_⟩
      · rw [hnew, List.mapIdx_append, ← ok.pushes, inv.pushes, pushClaims_append]
        simp [pushClaims, Event.pushClaim?]
      · rw [popClaims_append, ok.pops, hdeq]
        simp [popClaims, Event.popClaim?, dequeued]
      · rw [hnew, claims_append]
        refine List.rel_append (ok.order.imp fun _ _ hp => hp.mono) ?_
        exact .cons rfl .nil
      · intro t' pos res hmem
        exact hvals t' pos res (by simpa using hmem)
  | pop t v hf hr =>
      have hval := inv.value _ (Nat.mod_lt r.deq (by omega)) v (by rw [hf]; rfl)
      rw [hf] at hval
      have hnew : enqueued (h ++ [.deq v]) = enqueued h := by
        simp [enqueued]
      refine ⟨?_, ?_, ?_, hpushed rfl, hdone, hpopped rfl, ?_⟩
      · rw [hnew, pushClaims_append, ok.pushes]
        simp [pushClaims, Event.pushClaim?]
      · rw [hr, popClaims_append, ok.pops]
        simp [List.range_succ, popClaims, Event.popClaim?]
      · rw [hnew, claims_append]
        refine List.rel_append ok.order ?_
        exact .cons ⟨r.deq, rfl, hval⟩ .nil
      · intro t' pos res hmem
        exact hvals t' pos res (by simpa using hmem)
  | pushed t q v hw hr =>
      have hi := Nat.mod_lt q (show 0 < cap by omega)
      have hok := inv.phase _ hi
      rw [hw] at hok
      have hseq : (r.phase (q % cap)).seq = q := by rw [hw]; rfl
      have hseq' : (r'.phase (q % cap)).seq = q + 1 := by rw [hr]; simp [Phase.seq]
      have hlast : Completed (pushReturns tr ++ [word q]) r'.enq (Published cap r') :=
        (ok.pushed.mono (by omega) fun _ hq => hq).snoc hpub
          (by rw [henq]; exact Nat.lt_of_lt_of_le hok.2 (Nat.le_add_right _ _))
          (by simp [Published, hseq]) (by simp [Published, hseq'])
      rw [List.append_nil] at hvals ⊢
      refine ⟨?_, ?_, ?_, by rw [pushReturns_append]; exact hlast, hdone,
        hpopped rfl, ?_⟩
      · rw [pushClaims_append, ok.pushes]
        simp [pushClaims, Event.pushClaim?]
      · rw [popClaims_append, ok.pops, hdeq]
        simp [popClaims, Event.popClaim?, dequeued]
      · exact hquiet rfl
      · intro t' pos res hmem
        exact hvals t' pos res (by simpa using hmem)
  | popped t q v hw hr =>
      have hi := Nat.mod_lt q (show 0 < cap by omega)
      have hok := inv.phase _ hi
      have hval := inv.value _ hi v (by rw [hw]; rfl)
      rw [hw] at hok hval
      have hseq : (r.phase (q % cap)).seq = q + 1 := by rw [hw]; rfl
      have hseq' : (r'.phase (q % cap)).seq = q + cap := by rw [hr]; simp [Phase.seq]
      have hlt : q < r'.deq := by
        rw [hdeq]
        exact Nat.lt_of_lt_of_le hok.1 (Nat.le_add_right _ _)
      have hlast : Completed (popReturns tr ++ [word q]) r'.deq (Released cap r') :=
        (ok.popped.mono (by omega) fun _ hq => hq).snoc hrel hlt
          (by simp only [Released, hseq]; omega) (by simp [Released, hseq'])
      rw [List.append_nil] at hvals ⊢
      refine ⟨?_, ?_, ?_, hpushed rfl, hdone,
        by rw [popReturns_append]; exact hlast, ?_⟩
      · rw [pushClaims_append, ok.pushes]
        simp [pushClaims, Event.pushClaim?]
      · rw [popClaims_append, ok.pops, hdeq]
        simp [popClaims, Event.popClaim?, dequeued]
      · exact hquiet rfl
      · intro t' pos res hmem
        rcases List.mem_append.mp hmem with hmem | hmem
        · exact hvals t' pos res hmem
        · simp only [List.mem_singleton, Event.popReturned.injEq] at hmem
          obtain ⟨rfl, rfl, rfl⟩ := hmem
          exact ⟨q, v, rfl, hlt, rfl, hval⟩

end Trace

section Runs

variable [DecidableEq ι] {cfg : Config} {s : State ι α} {tr : List (Event ι α)}

/-- A configuration of the queue answered by ring state `r` with history `h`. -/
structure Refined (cfg : Config) (s : State ι α) (tr : List (Event ι α))
    (r : TicketRing.State ι α) (h : List (FifoOp α)) : Prop where
  sim : ∃ pos, Sim cfg s r pos
  trace : TraceOk cfg.cap tr r h

/-- No local position is stale by `b` tickets, a round included. -/
def FreshRing (b : Nat) (cfg : Config) (s : State ι α)
    (r : TicketRing.State ι α) (pos : ι → Nat) : Prop :=
  ∀ u, LagLt b cfg r (pos u) (s.pc u)

theorem sim_init :
    Sim cfg (queue cfg : Machine (State ι α) _ _).init
      (TicketRing.ring cfg.cap : Machine (TicketRing.State ι α) _ _).init
      (fun _ => 0) where
  enq := rfl
  deq := rfl
  slot i _ := rfl
  data i _ q v hfull := by simp [TicketRing.ring] at hfull
  thread t := trivial
  writer i _ q t v hw := by simp [TicketRing.ring] at hw
  reader i _ q t v hw := by simp [TicketRing.ring] at hw

/-- A claim that is about to be made draws the ticket of its counter. -/
theorem claimed_word {s' : State ι α} {es : List (Event ι α)}
    (hm : Move cfg s s' es) :
    (∀ t w v, .pushClaimed t w v ∈ es → w = s.enqueuePos) ∧
      ∀ t w, .popClaimed t w ∈ es → w = s.dequeuePos := by
  cases hm with
  | pushClaim hpc hcas =>
      refine ⟨?_, by simp⟩
      intro t w v hmem
      simp only [List.mem_singleton, Event.pushClaimed.injEq] at hmem
      exact hmem.2.1.trans hcas.symm
  | popClaim hpc hcas =>
      refine ⟨by simp, ?_⟩
      intro t w hmem
      simp only [List.mem_singleton, Event.popClaimed.injEq] at hmem
      exact hmem.2.trans hcas.symm
  | _ => simp

/-- A pop claims a ticket that has been drawn by a push. -/
theorem Sim.popClaimed_lt {r : TicketRing.State ι α} {pos : ι → Nat} {s' : State ι α}
    {h : List (FifoOp α)} {es : List (Event ι α)} (sim : Sim cfg s r pos)
    (inv : RingInv cfg.cap r h) (hm : Move cfg s s' es) {t : ι} {w : Word}
    (hmem : .popClaimed t w ∈ es) : r.deq < r.enq := by
  cases hm with
  | @popClaim u w' hpc hcas =>
      have hok := sim.thread u
      rw [hpc] at hok
      obtain ⟨rfl, hle, hnear, hfull⟩ := hok
      have hp : pos u = r.deq := word_inj (hcas.symm.trans sim.deq) (by omega) (by omega)
      obtain ⟨v, hphase⟩ := hfull hp
      have hcell := inv.phase _ (Nat.mod_lt (pos u) (cap_pos cfg))
      rw [hphase] at hcell
      exact hp ▸ hcell.2
  | _ => simp at hmem

/-- Claims overtake no call while every local ticket stays within a turn. -/
theorem Sim.noLap {r : TicketRing.State ι α} {pos : ι → Nat} {s' : State ι α}
    {h : List (FifoOp α)} {es : List (Event ι α)} (sim : Sim cfg s r pos)
    (inv : RingInv cfg.cap r h) (hm : Move cfg s s' es)
    (hpush : pushClaims es ≠ [] → ∀ u w, (s.pc u).pushPos? = some w →
      r.enq + 1 < pos u + 2 ^ 64)
    (hpop : r.deq < r.enq → ∀ u w, (s.pc u).popPos? = some w →
      r.deq + 1 < pos u + 2 ^ 64) : NoLap s es := by
  constructor
  · intro t w v hmem u hpos
    have hlt := hpush (List.ne_nil_of_mem (List.mem_filterMap.mpr ⟨_, hmem, rfl⟩)) u _ hpos
    rw [(claimed_word hm).1 t w v hmem, sim.enq, word_succ] at hpos
    have hok := sim.thread u
    cases hpc : s.pc u with
    | pushSeq v' w' =>
        rw [hpc] at hok hpos
        obtain ⟨hw, hle, _⟩ := hok
        have heq := word_inj ((Option.some.inj hpos).symm.trans hw) (by omega) (by omega)
        omega
    | pushCas v' w' =>
        rw [hpc] at hok hpos
        obtain ⟨hw, hle, _, _⟩ := hok
        have heq := word_inj ((Option.some.inj hpos).symm.trans hw) (by omega) (by omega)
        omega
    | _ => rw [hpc] at hpos; cases hpos
  · intro t w hmem u hpos
    have hlt := hpop (sim.popClaimed_lt inv hm hmem) u _ hpos
    rw [(claimed_word hm).2 t w hmem, sim.deq, word_succ] at hpos
    have hok := sim.thread u
    cases hpc : s.pc u with
    | popSeq w' =>
        rw [hpc] at hok hpos
        obtain ⟨hw, hle, _⟩ := hok
        have heq := word_inj ((Option.some.inj hpos).symm.trans hw) (by omega) (by omega)
        omega
    | popCas w' =>
        rw [hpc] at hok hpos
        obtain ⟨hw, hle, _, _⟩ := hok
        have heq := word_inj ((Option.some.inj hpos).symm.trans hw) (by omega) (by omega)
        omega
    | _ => rw [hpc] at hpos; cases hpos

/-- Fresh local positions are not overtaken. -/
theorem FreshRing.noLap {r : TicketRing.State ι α} {pos : ι → Nat} {s' : State ι α}
    {h : List (FifoOp α)} {es : List (Event ι α)}
    (hfresh : FreshRing (2 ^ 64) cfg s r pos) (sim : Sim cfg s r pos)
    (inv : RingInv cfg.cap r h) (hm : Move cfg s s' es) : NoLap s es := by
  have hcap := two_le_cap cfg
  refine sim.noLap inv hm (fun _ u w hpos => ?_) fun _ u w hpos => ?_
  · have hlag := hfresh u
    cases hpc : s.pc u with
    | pushSeq v' w' => rw [hpc] at hlag; simp only [LagLt] at hlag; omega
    | pushCas v' w' => rw [hpc] at hlag; simp only [LagLt] at hlag; omega
    | _ => rw [hpc] at hpos; cases hpos
  · have hlag := hfresh u
    cases hpc : s.pc u with
    | popSeq w' => rw [hpc] at hlag; simp only [LagLt] at hlag; omega
    | popCas w' => rw [hpc] at hlag; simp only [LagLt] at hlag; omega
    | _ => rw [hpc] at hpos; cases hpos

/-- One step of the queue is answered by the ring, with the trace kept up. -/
theorem Refined.step {r : TicketRing.State ι α} {h : List (FifoOp α)}
    {pos : ι → Nat} {s' : State ι α} {es : List (Event ι α)} {a : Act ι α}
    (hring : (TicketRing.ring cfg.cap).Reach r h)
    (sim : Sim cfg s r pos) (ok : TraceOk cfg.cap tr r h) (hlap : NoLap s es)
    (hs : (queue cfg).step s a = some (s', es)) :
    ∃ as r' fs, (TicketRing.ring cfg.cap).exec r as = some (r', fs) ∧
      Matches cfg.cap r r' es fs ∧ Refined cfg s' (tr ++ es) r' (h ++ fs) := by
  have hpos := cap_pos cfg
  have inv := TicketRing.ringInv_reach hpos hring
  obtain ⟨as, r', fs, he, hm, pos', _, sim'⟩ := sim.answer inv hlap (step_move hs)
  have inv' := TicketRing.ringInv_reach hpos (hring.exec he)
  refine ⟨as, r', fs, he, hm, ⟨pos', sim'⟩, ?_⟩
  have henq := inv'.pushes
  have hdeq := inv'.pops
  rw [enqueued_append, List.length_append, inv.pushes] at henq
  rw [dequeued_append, List.length_append, inv.pops] at hdeq
  exact ok.step (two_le_cap cfg) inv hm (TicketRing.exec_seq_mono hpos he)
    hdeq.symm henq.symm

/-- Runs whose claims overtake no call refine the ticket ring. -/
theorem refines {C : State ι α → List (Event ι α) → Act ι α → Prop}
    (hC : ∀ {s tr a r h pos s' es}, C s tr a → RingInv cfg.cap r h →
      Sim cfg s r pos → TraceOk cfg.cap tr r h →
        step cfg s a = some (s', es) → NoLap s es)
    (hr : (queue cfg).ReachWhen C s tr) :
    ∃ r h, (TicketRing.ring cfg.cap).Reach r h ∧ Refined cfg s tr r h := by
  refine Machine.simulation (A := TicketRing.ring cfg.cap)
    (R := fun s tr r h => Refined cfg s tr r h) ⟨⟨_, sim_init⟩, traceOk_init⟩ ?_ hr
  intro s tr a s' es r h _ hc hring href hs
  obtain ⟨⟨pos, sim⟩, ok⟩ := href
  have inv := TicketRing.ringInv_reach (cap_pos cfg) hring
  obtain ⟨as, r', fs, he, _, href'⟩ :=
    Refined.step hring sim ok (hC hc inv sim ok hs) hs
  exact ⟨as, r', fs, he, href'⟩

omit [DecidableEq ι] in
/-- The ring's counters are the numbers of claims made so far. -/
theorem TraceOk.enq_eq {r : TicketRing.State ι α} {h : List (FifoOp α)}
    {cap : Nat} (ok : TraceOk cap tr r h) (inv : RingInv cap r h) :
    (pushClaims tr).length = r.enq := by
  rw [ok.pushes, List.length_mapIdx, inv.pushes]

/-- The next step brings no counter round to a position that a call still holds. -/
def Unlapped (cfg : Config) (s : State ι α) (a : Act ι α) : Prop :=
  ∀ s' es, step cfg s a = some (s', es) → NoLap s es

theorem refines_unlapped (hr : (queue cfg).ReachWhen (fun s _ a => Unlapped cfg s a) s tr) :
    ∃ r h, (TicketRing.ring cfg.cap).Reach r h ∧ Refined cfg s tr r h :=
  refines (fun hc _ _ _ hs => hc _ _ hs) hr

/-- As long as the counters have not turned, no call can be overtaken. -/
theorem unlapped_of_bound {C : State ι α → List (Event ι α) → Act ι α → Prop}
    (hr : (queue cfg).ReachWhen C s tr) (hb : (pushClaims tr).length < 2 ^ 64) :
    (queue cfg).ReachWhen (fun s tr a => C s tr a ∧ Unlapped cfg s a) s tr := by
  revert hb
  refine hr.invariant (P := fun s tr => (pushClaims tr).length < 2 ^ 64 →
    (queue cfg).ReachWhen (fun s tr a => C s tr a ∧ Unlapped cfg s a) s tr)
    (fun _ => .init) ?_
  intro s tr a s' es _ ih hc hs hb
  rw [pushClaims_append, List.length_append] at hb
  have hwhen := ih (by omega)
  refine .step hwhen ⟨hc, ?_⟩ hs
  intro s₁ es₁ hs₁
  obtain ⟨rfl, rfl⟩ := Prod.mk.inj (Option.some.inj (hs.symm.trans hs₁))
  obtain ⟨r, h, hring, ⟨pos, sim⟩, ok⟩ := refines_unlapped (hwhen.mono fun _ _ _ h => h.2)
  have inv := TicketRing.ringInv_reach (cap_pos cfg) hring
  have henq := ok.enq_eq inv
  have hle := inv.bounds.1
  refine sim.noLap inv (step_move hs) (fun hne u _ _ => ?_) fun hdeq u _ _ => by omega
  have := List.length_pos_iff.mpr hne
  omega

theorem reachWhen_unlapped (hr : (queue cfg).Reach s tr)
    (hb : (pushClaims tr).length < 2 ^ 64) :
    (queue cfg).ReachWhen (fun s _ a => Unlapped cfg s a) s tr :=
  (unlapped_of_bound hr.reachWhen hb).mono fun _ _ _ h => h.2

/-- A run with fewer than `2 ^ 64` pushes refines the ticket ring. -/
theorem refines_of_bound (hr : (queue cfg).Reach s tr)
    (hb : (pushClaims tr).length < 2 ^ 64) :
    ∃ r h, (TicketRing.ring cfg.cap).Reach r h ∧ Refined cfg s tr r h :=
  refines_unlapped (reachWhen_unlapped hr hb)

/-- An owner of a ticket has recorded the claim of that ticket. -/
def OwnerRecorded (tr : List (Event ι α)) (t : ι) : Pc α → Prop
  | .pushData v pos => .pushClaimed t pos v ∈ tr
  | .pushStore pos => ∃ v, .pushClaimed t pos v ∈ tr
  | .popData pos => .popClaimed t pos ∈ tr
  | .popStore pos _ => .popClaimed t pos ∈ tr
  | _ => True

omit [DecidableEq ι] in
theorem OwnerRecorded.append {es : List (Event ι α)} {t : ι} {pc : Pc α}
    (ho : OwnerRecorded tr t pc) : OwnerRecorded (tr ++ es) t pc := by
  cases pc with
  | pushData v pos => exact List.mem_append_left _ ho
  | pushStore pos =>
      obtain ⟨v, hv⟩ := ho
      exact ⟨v, List.mem_append_left _ hv⟩
  | popData pos => exact List.mem_append_left _ ho
  | popStore pos res => exact List.mem_append_left _ ho
  | _ => trivial

/-- Every owner of a ticket has claimed it by a recorded CAS. -/
theorem ownerRecorded (hr : (queue cfg).Reach s tr) (t : ι) :
    OwnerRecorded tr t (s.pc t) := by
  revert t
  refine hr.invariant (P := fun s tr => ∀ t, OwnerRecorded tr t (s.pc t)) ?_ ?_
  · intro t
    trivial
  · intro s tr a s' es _ ih hs t
    -- a thread other than the moving one keeps its program counter
    have hkeep : ∀ u pc', (s'.pc = Function.update s.pc u pc') →
        OwnerRecorded (tr ++ es) u pc' → OwnerRecorded (tr ++ es) t (s'.pc t) := by
      intro u pc' hpc hnew
      rw [hpc]
      by_cases htu : t = u
      · subst htu
        simpa using hnew
      · rw [Function.update_of_ne htu]
        exact (ih t).append
    cases step_move hs with
    | pushClaim hpc hcas => exact hkeep _ _ rfl (by simp [OwnerRecorded])
    | popClaim hpc hcas => exact hkeep _ _ rfl (by simp [OwnerRecorded])
    | @pushMove u v pos hpc =>
        have hold := ih u
        rw [hpc] at hold
        exact hkeep _ _ rfl ⟨v, List.mem_append_left _ hold⟩
    | @popMove u pos hpc =>
        have hold := ih u
        rw [hpc] at hold
        exact hkeep _ _ rfl (List.mem_append_left _ hold)
    | _ => exact hkeep _ _ rfl trivial

/-- A pop that returns a value has claimed its ticket. -/
theorem popReturned_claimed (hr : (queue cfg).Reach s tr) {t : ι} {pos : Word}
    {res : Option α} (hmem : .popReturned t pos res ∈ tr) :
    .popClaimed t pos ∈ tr := by
  obtain ⟨pre, post, htr⟩ := List.append_of_mem hmem
  obtain ⟨s₀, tr₀, a, s₁, es₀, es₁, hr₀, hs, hpre⟩ := hr.emitted htr
  have hclaimed : .popClaimed t pos ∈ tr₀ := by
    generalize hes : es₀ ++ Event.popReturned t pos res :: es₁ = es at hs
    cases step_move hs with
    | @popPublish u w res' hpc =>
        have hold := ownerRecorded hr₀ u
        rw [hpc] at hold
        cases es₀ with
        | nil =>
            simp only [List.nil_append, List.cons.injEq,
              Event.popReturned.injEq] at hes
            obtain ⟨⟨rfl, rfl, rfl⟩, _⟩ := hes
            exact hold
        | cons e es₀ => simp at hes
    | _ => cases es₀ <;> simp at hes
  rw [htr, hpre, List.append_assoc]
  exact List.mem_append_left _ hclaimed

/-- A push that returns `true` has claimed the ticket it publishes. -/
theorem claim_precedes_return (hr : (queue cfg).Reach s tr) {pre post : List (Event ι α)}
    {t : ι} {pos : Word} (htr : tr = pre ++ .pushReturned t pos :: post) :
    ∃ v, .pushClaimed t pos v ∈ pre := by
  obtain ⟨s₀, tr₀, a, s₁, es₀, es₁, hr₀, hs, rfl⟩ := hr.emitted htr
  generalize hes : es₀ ++ Event.pushReturned t pos :: es₁ = es at hs
  cases step_move hs with
  | @pushPublish u w hpc =>
      have hold := ownerRecorded hr₀ u
      rw [hpc] at hold
      obtain ⟨v, hv⟩ := hold
      cases es₀ with
      | nil =>
          simp only [List.nil_append, List.cons.injEq, Event.pushReturned.injEq] at hes
          obtain ⟨⟨rfl, rfl⟩, _⟩ := hes
          exact ⟨v, by simpa using hv⟩
      | cons e es₀ => simp at hes
  | _ => cases es₀ <;> simp at hes

theorem pushReturned_claimed (hr : (queue cfg).Reach s tr) {t : ι} {pos : Word}
    (hmem : .pushReturned t pos ∈ tr) : ∃ v, .pushClaimed t pos v ∈ tr := by
  obtain ⟨pre, post, htr⟩ := List.append_of_mem hmem
  obtain ⟨v, hv⟩ := claim_precedes_return hr htr
  exact ⟨v, by rw [htr]; exact List.mem_append_left _ hv⟩

omit [DecidableEq ι] in
/-- The tickets of a list of pushes numbered from `0`. -/
theorem map_fst_tickets (vs : List α) :
    (vs.mapIdx fun i v => (word i, v)).map Prod.fst =
      (List.range vs.length).map word := by
  apply List.ext_getElem
  · simp
  · intro i _ _
    simp

/-- The operation `o` is the successful call behind claim `c`: a pop returns
the value of `o` whenever it has returned. -/
def Returns (tr : List (Event ι α)) : Claim α → FifoOp α → Prop
  | .push _ v, .enq v' => v' = v
  | .pop pos, .deq v => ∀ t res, .popReturned t pos res ∈ tr → res = some v
  | _, _ => False

/--
The successful calls of a run, in the order `h` of their compare-exchanges,
are a legal history of a FIFO queue of size `capacity()`.
-/
structure FifoRun (cfg : Config) (s : State ι α) (tr : List (Event ι α))
    (h : List (FifoOp α)) : Prop where
  legal : ∃ q, FifoHistory cfg.capacity.toNat h q ∧
    q.length = s.enqueuePos.toNat - s.dequeuePos.toNat
  order : List.Forall₂ (Returns tr) (claims tr) h
  /-- Pushes draw the tickets `0, 1, 2, ...` in this order. -/
  pushTickets : (pushClaims tr).map Prod.fst =
    (List.range s.enqueuePos.toNat).map word
  /-- Pops draw the tickets `0, 1, 2, ...`, so that none is skipped. -/
  popTickets : popClaims tr = (List.range s.dequeuePos.toNat).map word
  /-- A push returns `true` only after its CAS. -/
  claimed : ∀ pre post t pos, tr = pre ++ .pushReturned t pos :: post →
    ∃ v, .pushClaimed t pos v ∈ pre
  /-- No ticket is published twice. -/
  pushOnce : (pushReturns tr).Nodup
  /-- What a returned push has stored stays in its slot until a pop claims it. -/
  stored : ∀ t pos v, .pushClaimed t pos v ∈ tr → pos ∈ pushReturns tr →
    pos ∉ popClaims tr →
      (s.buffer (pos &&& cfg.mask)).sequence = pos + 1 ∧
        (s.buffer (pos &&& cfg.mask)).data = some v
  /-- A pop returns the value moved in by the push of the ticket it claimed. -/
  returned : ∀ t pos res, .popReturned t pos res ∈ tr →
    .popClaimed t pos ∈ tr ∧ ∃ u v, res = some v ∧ .pushClaimed u pos v ∈ tr
  /-- No ticket is returned twice. -/
  once : (popReturns tr).Nodup
  /-- The CAS and the store of a push precede the CAS of the pop with the same ticket. -/
  pushFirst : ∀ pre post t pos, tr = pre ++ .popClaimed t pos :: post →
    ∃ u v, .pushClaimed u pos v ∈ pre ∧ .pushReturned u pos ∈ pre
  bounds : s.dequeuePos.toNat ≤ s.enqueuePos.toNat ∧
    s.enqueuePos.toNat ≤ s.dequeuePos.toNat + cfg.capacity.toNat

omit [DecidableEq ι] in
/-- The push of ticket `q` is recorded with the value that the history gives it. -/
theorem TraceOk.pushClaimed_mem {cap : Nat} {r : TicketRing.State ι α}
    {h : List (FifoOp α)} (ok : TraceOk cap tr r h) {q : Nat} {v : α}
    (hv : (enqueued h)[q]? = some v) : ∃ u, .pushClaimed u (word q) v ∈ tr := by
  have hmem : (word q, v) ∈ pushClaims tr := by
    rw [ok.pushes]
    obtain ⟨hlt, hget⟩ := List.getElem?_eq_some_iff.mp hv
    exact List.mem_mapIdx.mpr ⟨q, hlt, by rw [hget]⟩
  obtain ⟨e, he, hclaim⟩ := List.mem_filterMap.mp hmem
  cases e with
  | pushClaimed u pos w =>
      simp only [Event.pushClaim?, Option.some.injEq, Prod.mk.injEq] at hclaim
      obtain ⟨rfl, rfl⟩ := hclaim
      exact ⟨u, he⟩
  | _ => simp [Event.pushClaim?] at hclaim

omit [DecidableEq ι] in
/-- The words of completed tickets are distinct while the counters have not turned. -/
theorem Completed.nodup {ws : List Word} {b : Nat} {done : Nat → Prop}
    (hc : Completed ws b done) (hb : b ≤ 2 ^ 64) : ws.Nodup := by
  obtain ⟨qs, hqs, hnd, hall⟩ := hc
  rw [hqs]
  refine List.Nodup.map_on ?_ hnd
  intro q hq q' hq' heq
  have := (hall q hq).1
  have := (hall q' hq').1
  exact word_inj heq (by omega) (by omega)

omit [DecidableEq ι] in
/-- The element of a returned push lies in its slot as long as no pop has claimed it. -/
theorem Refined.stored {r : TicketRing.State ι α} {h : List (FifoOp α)}
    (href : Refined cfg s tr r h) (inv : RingInv cfg.cap r h) (hb : r.enq ≤ 2 ^ 64)
    {t : ι} {pos : Word} {v : α} (hclaim : .pushClaimed t pos v ∈ tr)
    (hret : pos ∈ pushReturns tr) (hpop : pos ∉ popClaims tr) :
    (s.buffer (pos &&& cfg.mask)).sequence = pos + 1 ∧
      (s.buffer (pos &&& cfg.mask)).data = some v := by
  obtain ⟨⟨p, sim⟩, ok⟩ := href
  obtain ⟨qs, hqs, _, hall⟩ := ok.pushed
  rw [hqs] at hret
  obtain ⟨q, hq, rfl⟩ := List.mem_map.mp hret
  obtain ⟨henq, hpublished⟩ := hall q hq
  have hdeq : r.deq ≤ q := by
    by_contra hlt
    refine hpop ?_
    rw [ok.pops]
    exact List.mem_map.mpr ⟨q, List.mem_range.mpr (by omega), rfl⟩
  have hi := Nat.mod_lt q (cap_pos cfg)
  obtain ⟨v', hf⟩ := hpublished.full (cap_pos cfg) inv hdeq henq
  -- the history knows one value for the ticket
  have hval := inv.value _ hi v' (by rw [hf]; rfl)
  have hmem : (word q, v) ∈ pushClaims tr := List.mem_filterMap.mpr ⟨_, hclaim, rfl⟩
  rw [ok.pushes] at hmem
  obtain ⟨i, hlt, heq⟩ := List.mem_mapIdx.mp hmem
  obtain ⟨hword, hv⟩ := Prod.mk.inj heq
  have hlen := inv.pushes
  obtain rfl := word_inj hword (by omega) (by omega)
  rw [hf] at hval
  obtain rfl : v = v' := by
    rw [← hv]
    exact Option.some.inj ((List.getElem?_eq_getElem hlt).symm.trans hval)
  refine ⟨?_, ?_⟩
  · rw [sim.sequence_at, hf, word_succ]
    rfl
  · rw [word_and_mask]
    exact sim.data _ hi i v hf

/-- Every claim of a pop was preceded by the push it answers. -/
theorem push_precedes_pop (hr : (queue cfg).Reach s tr)
    (hb : (pushClaims tr).length < 2 ^ 63) {pre post : List (Event ι α)}
    {t : ι} {pos : Word} (htr : tr = pre ++ .popClaimed t pos :: post) :
    ∃ u v, .pushClaimed u pos v ∈ pre ∧ .pushReturned u pos ∈ pre := by
  obtain ⟨s₀, tr₀, a, s₁, es₀, es₁, hr₀, hs, rfl⟩ := hr.emitted htr
  have hb₀ : (pushClaims tr₀).length < 2 ^ 63 := by
    rw [htr] at hb
    simp only [pushClaims_append, List.length_append] at hb
    omega
  obtain ⟨r, h, hring, ⟨p, sim⟩, ok⟩ := refines_of_bound hr₀ (by omega)
  have inv := TicketRing.ringInv_reach (cap_pos cfg) hring
  generalize hes : es₀ ++ Event.popClaimed t pos :: es₁ = es at hs
  cases step_move hs with
  | @popClaim u w hpc hcas =>
      have hes₀ : es₀ = [] ∧ u = t ∧ w = pos := by
        cases es₀ with
        | nil => simp only [List.nil_append, List.cons.injEq, Event.popClaimed.injEq] at hes
                 exact ⟨rfl, hes.1.1.symm, hes.1.2.symm⟩
        | cons e es₀ => simp at hes
      obtain ⟨rfl, rfl, rfl⟩ := hes₀
      have hok := sim.thread u
      rw [hpc] at hok
      obtain ⟨rfl, hle, _, hfull⟩ := hok
      have hlen := ok.enq_eq inv
      have hbounds := inv.bounds
      have hp : p u = r.deq :=
        word_inj (hcas.symm.trans sim.deq) (by omega) (by omega)
      obtain ⟨v, hphase⟩ := hfull hp
      have hcell := inv.phase _ (Nat.mod_lt (p u) (cap_pos cfg))
      rw [hphase] at hcell
      have hdone : Published cfg.cap r (p u) := by
        rw [Published, hphase]
        exact Nat.le_refl _
      obtain ⟨u', hret⟩ := exists_pushReturned (ok.published (p u) hcell.2 hdone)
      obtain ⟨v', hclaim⟩ := pushReturned_claimed hr₀ hret
      exact ⟨u', v', by simpa using hclaim, by simpa using hret⟩
  | _ => cases es₀ <;> simp at hes

/-- The history of the ring is the history of the successful calls. -/
theorem exists_fifoRun (hr : (queue cfg).Reach s tr)
    (hb : (pushClaims tr).length < 2 ^ 63) : ∃ h, FifoRun cfg s tr h := by
  obtain ⟨r, h, hring, href⟩ := refines_of_bound hr (by omega)
  obtain ⟨⟨p, sim⟩, ok⟩ := id href
  have inv := TicketRing.ringInv_reach (cap_pos cfg) hring
  have hlen := ok.enq_eq inv
  obtain ⟨hle, hcap⟩ := inv.bounds
  have henq : s.enqueuePos.toNat = r.enq := by
    rw [sim.enq, toNat_word_of_lt (by omega)]
  have hdeq : s.dequeuePos.toNat = r.deq := by
    rw [sim.deq, toNat_word_of_lt (by omega)]
  have hcapacity : cfg.capacity.toNat = cfg.cap := cfg.capacity_eq
  refine ⟨h, ?_, ?_, ?_, ?_, ?_, ?_, ?_, ?_, ?_, ?_, ?_⟩
  · obtain ⟨q, hist, hq⟩ := TicketRing.ring_history (cap_pos cfg) hring
    exact ⟨q, by rw [hcapacity]; exact hist, by rw [henq, hdeq]; exact hq⟩
  · refine ok.order.imp ?_
    intro c o hp
    cases c with
    | push pos v => cases o <;> exact hp
    | pop pos =>
        cases o with
        | enq v => exact hp
        | deq v =>
            obtain ⟨q, rfl, hv⟩ := hp
            intro t res hmem
            obtain ⟨q', v', hpos, hq', rfl, hv'⟩ := ok.values t _ res hmem
            have hlt := (List.getElem?_eq_some_iff.mp hv).1
            rw [inv.pushes] at hlt
            obtain rfl := word_inj hpos (by omega) (by omega)
            rw [hv] at hv'
            exact hv'.symm
  · rw [ok.pushes, henq, ← inv.pushes]
    exact map_fst_tickets _
  · rw [ok.pops, hdeq]
  · intro pre post t pos htr
    exact claim_precedes_return hr htr
  · exact ok.pushed.nodup (by omega)
  · intro t pos v hclaim hret hpop
    exact href.stored inv (by omega) hclaim hret hpop
  · intro t pos res hmem
    obtain ⟨q, v, rfl, hq, rfl, hv⟩ := ok.values t pos res hmem
    obtain ⟨u, hu⟩ := ok.pushClaimed_mem hv
    exact ⟨popReturned_claimed hr hmem, u, v, rfl, hu⟩
  · exact ok.popped.nodup (by omega)
  · intro pre post t pos htr
    exact push_precedes_pop hr hb htr
  · rw [henq, hdeq, hcapacity]
    exact ⟨hle, hcap⟩

/-- The smallest queue the constructor produces, with two slots. -/
def twoSlots : Config where
  capacity := 2
  mask := 1
  bits := 1
  one_le_bits := le_refl 1
  bits_le := by omega
  capacity_eq := rfl
  mask_eq := rfl

/-- A push and a pop that overlap: the pop is called before the push returns. -/
def overlapping : List (Act Bool Nat) :=
  [.tryPush true 7, .go true, .go true, .tryPop false, .spurious true, .go true,
    .go true, .go true, .go true, .go false, .go false, .go false, .go false,
    .go false]

end Runs

end LockFreeQueue
end AsyncTaskEngine
