import AsyncTaskEngine.LockFreeVerdicts

/-!
# Exclusive ownership of the slots

A thread owns a slot of the lock-free queue from its successful compare-exchange
to its release store.  Nothing but the arithmetic of tickets keeps two threads
from owning one slot: the main result, `owners_exclusive`, says that it does, as
long as no local position has been left behind by a whole turn of the 64-bit
words.  `wrapped_ticket_shares_slot` shows that the proviso is needed.
-/

namespace AsyncTaskEngine
namespace LockFreeQueue

open TicketRing (Phase PhaseOk RingInv ticket_gap setPhase_ne setPhase_self)

universe u v

variable {ι : Type u} {α : Type v}

/-- The slot that a thread owns. -/
def Pc.slot? (cfg : Config) : Pc α → Option Word
  | .pushData _ pos => some (pos &&& cfg.mask)
  | .pushStore pos => some (pos &&& cfg.mask)
  | .popData pos => some (pos &&& cfg.mask)
  | .popStore pos _ => some (pos &&& cfg.mask)
  | _ => none

/-- No local position lags behind its counter by a whole turn of the words. -/
def Fresh (cfg : Config) (s : State ι α) : Prop :=
  ∀ u, lag cfg s (s.pc u) < 2 ^ 64

/-- What the phase of a slot says about its data when no value is in it. -/
def Vacant (s : State ι α) (data : Option α) : Phase ι α → Prop
  | .free _ => data = none
  | .writing q t _ => ∀ v, s.pc t = .pushData v (word q) → data = none
  | .full _ _ => True
  | .reading q t _ => ∀ res, s.pc t = .popStore (word q) res → data = none

/-- Slots without a value hold a value-initialised or moved-from object. -/
def VacantInv (cfg : Config) (s : State ι α) (r : TicketRing.State ι α) : Prop :=
  ∀ i < cfg.cap, Vacant s (s.buffer (word i)).data (r.phase i)

section Vacant

variable {cfg : Config} {s s' : State ι α} {r r' : TicketRing.State ι α}
variable {pos : ι → Nat} {h : List (FifoOp α)} {tr es : List (Event ι α)}
variable {fs : List (FifoOp α)}

/-- A slot stays vacant when its owner does not move. -/
theorem Vacant.keep {data : Option α} {p : Phase ι α} (hv : Vacant s data p)
    (hpc : ∀ t, OwnedBy t p → s'.pc t = s.pc t) : Vacant s' data p := by
  cases p with
  | free q => exact hv
  | full q v => trivial
  | writing q t v =>
      intro v' h'
      rw [hpc t rfl] at h'
      exact hv v' h'
  | reading q t v =>
      intro res h'
      rw [hpc t rfl] at h'
      exact hv res h'

/-- A thread that owns no slot moves without claiming one. -/
theorem VacantInv.setPc [DecidableEq ι] {t : ι} {pc' : Pc α} (hv : VacantInv cfg s r)
    (sim : Sim cfg s r pos) (hno : ¬ (s.pc t).owns) :
    VacantInv cfg (s.setPc t pc') r := by
  intro i hi
  refine (hv i hi).keep fun u hu => setPc_ne s t pc' ?_
  rintro rfl
  exact hno (sim.owns_of_ownedBy hi hu).1

/-- The owner of the slot of ticket `p` moves; the other slots are untouched. -/
theorem VacantInv.owner [DecidableEq ι] {t : ι} {p : Nat} {pc' : Pc α} {slot : Slot α}
    {ph : Phase ι α} (hv : VacantInv cfg s r) (sim : Sim cfg s r pos)
    (inv : RingInv cfg.cap r h) (hp : pos t = p)
    (hr : ∀ i < cfg.cap, i ≠ p % cfg.cap → r'.phase i = r.phase i)
    (hph : r'.phase (p % cfg.cap) = ph)
    (hnew : Vacant ((s.setSlot (word p &&& cfg.mask) slot).setPc t pc') slot.data ph) :
    VacantInv cfg ((s.setSlot (word p &&& cfg.mask) slot).setPc t pc') r' := by
  have hmine := Nat.mod_lt p (cap_pos cfg)
  intro i hi
  by_cases hcell : i = p % cfg.cap
  · subst hcell
    rw [hph, setPc_buffer, ← word_and_mask, setSlot_self]
    exact hnew
  · have hword : word i ≠ word p &&& cfg.mask := by
      rw [word_and_mask]
      exact fun heq => hcell (word_cell_inj cfg hi hmine heq)
    rw [hr i hi hcell, setPc_buffer, setSlot_ne _ _ _ hword]
    refine (hv i hi).keep fun u hu => ?_
    rw [setPc_ne, setSlot_pc]
    rintro rfl
    exact hcell (by rw [← hp]; exact sim.ownedBy_cell inv hi hu)

/-- A claim leaves the data of all slots alone and changes the phase of one. -/
theorem VacantInv.claim [DecidableEq ι] {t : ι} {c : Nat} {pc' : Pc α}
    (hv : VacantInv cfg s r) (sim : Sim cfg s r pos) (hno : ¬ (s.pc t).owns)
    (hc : c < cfg.cap) (hbuf : s'.buffer = s.buffer)
    (hpc : s'.pc = Function.update s.pc t pc')
    (hr : ∀ i < cfg.cap, i ≠ c → r'.phase i = r.phase i)
    (hnew : Vacant s' (s.buffer (word c)).data (r'.phase c)) : VacantInv cfg s' r' := by
  intro i hi
  rw [hbuf]
  by_cases hic : i = c
  · subst hic
    exact hnew
  · rw [hr i hi hic]
    refine (hv i hi).keep fun u hu => ?_
    rw [hpc, Function.update_of_ne]
    rintro rfl
    exact hno (sim.owns_of_ownedBy hi hu).1

/-- Every answered step keeps the slots without a value vacant. -/
theorem VacantInv.step [DecidableEq ι] (hv : VacantInv cfg s r) (sim : Sim cfg s r pos)
    (inv : RingInv cfg.cap r h) (hs : Move cfg s s' es)
    (hm : Matches cfg.cap r r' es fs) : VacantInv cfg s' r' := by
  -- a step that is not a claim or a store leaves the ring as it is
  have hquiet : (∀ e ∈ es, e.isQuiet) → r' = r := by
    intro hq
    cases hm with
    | quiet hr _ => exact hr
    | _ => exact (hq _ List.mem_cons_self).elim
  have hmove : ∀ {t : ι} {pc' : Pc α}, ¬ (s.pc t).owns → (∀ e ∈ es, e.isQuiet) →
      VacantInv cfg (s.setPc t pc') r' := by
    intro t pc' hno hq
    rw [hquiet hq]
    exact hv.setPc sim hno
  cases hs with
  | pushClaim hpc hcas =>
      cases hm with
      | quiet _ hq => exact (hq _ List.mem_cons_self).elim
      | push t v hf hr =>
          have hc := Nat.mod_lt r.enq (cap_pos cfg)
          refine hv.claim sim (by simp [hpc, Pc.owns]) hc rfl rfl
            (fun i _ hic => by rw [hr]; exact setPhase_ne _ _ _ _ hic) ?_
          have hold := hv _ hc
          rw [hf] at hold
          rw [hr]
          simp only [setPhase_self]
          exact fun _ _ => hold
  | popClaim hpc hcas =>
      cases hm with
      | quiet _ hq => exact (hq _ List.mem_cons_self).elim
      | pop t v hf hr =>
          have hc := Nat.mod_lt r.deq (cap_pos cfg)
          refine hv.claim sim (by simp [hpc, Pc.owns]) hc rfl rfl
            (fun i _ hic => by rw [hr]; exact setPhase_ne _ _ _ _ hic) ?_
          rw [hr]
          simp only [setPhase_self]
          -- the new owner has not moved the value out
          intro res hres
          simp at hres
  | @pushMove t v w hpc =>
      obtain rfl := hquiet (by simp)
      have hok := sim.thread t
      rw [hpc] at hok
      obtain ⟨rfl, hphase⟩ := hok
      refine hv.owner sim inv rfl (fun _ _ _ => rfl) hphase ?_
      intro v' hv'
      simp at hv'
  | @popMove t w hpc =>
      obtain rfl := hquiet (by simp)
      have hok := sim.thread t
      rw [hpc] at hok
      obtain ⟨rfl, v, hphase, _⟩ := hok
      exact hv.owner sim inv rfl (fun _ _ _ => rfl) hphase fun _ _ => rfl
  | @pushPublish t w hpc =>
      cases hm with
      | quiet _ hq => exact (hq _ List.mem_cons_self).elim
      | pushed t q v hw hr =>
          have hi := Nat.mod_lt q (cap_pos cfg)
          have hfull : r'.phase (q % cfg.cap) = .full q v := by rw [hr, setPhase_self]
          exact hv.owner sim inv (sim.writer _ hi q t v hw).1
            (fun i _ hic => by rw [hr]; exact setPhase_ne _ _ _ _ hic) hfull trivial
  | @popPublish t w res hpc =>
      cases hm with
      | quiet _ hq => exact (hq _ List.mem_cons_self).elim
      | popped t q v hw hr =>
          have hi := Nat.mod_lt q (cap_pos cfg)
          refine hv.owner sim inv (sim.reader _ hi q t v hw).1
            (fun i _ hic => by rw [hr]; exact setPhase_ne _ _ _ _ hic)
            (by rw [hr, setPhase_self]) ?_
          have hold := hv _ hi
          rw [hw] at hold
          show (s.buffer (word q &&& cfg.mask)).data = none
          rw [word_and_mask]
          exact hold _ hpc
  | pushCall value hpc => exact hmove (by simp [hpc, Pc.owns]) (by simp [Event.isQuiet])
  | pushFull hpc hd => exact hmove (by simp [hpc, Pc.owns]) (by simp [Event.isQuiet])
  | popCall hpc => exact hmove (by simp [hpc, Pc.owns]) (by simp [Event.isQuiet])
  | popEmpty hpc hd => exact hmove (by simp [hpc, Pc.owns]) (by simp [Event.isQuiet])
  | sizeDeq hpc => exact hmove (by simp [hpc, Pc.owns]) (by simp [Event.isQuiet])
  | pushLoad hpc => exact hmove (by simp [hpc, Pc.owns]) (by simp)
  | pushReady hpc hd => exact hmove (by simp [hpc, Pc.owns]) (by simp)
  | pushStale hpc hd => exact hmove (by simp [hpc, Pc.owns]) (by simp)
  | pushRetry hpc => exact hmove (by simp [hpc, Pc.owns]) (by simp)
  | popLoad hpc => exact hmove (by simp [hpc, Pc.owns]) (by simp)
  | popReady hpc hd => exact hmove (by simp [hpc, Pc.owns]) (by simp)
  | popStale hpc hd => exact hmove (by simp [hpc, Pc.owns]) (by simp)
  | popRetry hpc => exact hmove (by simp [hpc, Pc.owns]) (by simp)
  | sizeCall hpc => exact hmove (by simp [hpc, Pc.owns]) (by simp)
  | sizeEnq hpc => exact hmove (by simp [hpc, Pc.owns]) (by simp)

end Vacant

section Runs

variable [DecidableEq ι] {cfg : Config} {s : State ι α} {tr : List (Event ι α)}

/-- Fresh runs refine the ticket ring, with their empty slots vacant. -/
theorem refines_vacant (hr : (queue cfg).ReachWhen (fun s _ _ => Fresh cfg s) s tr) :
    ∃ r h, (TicketRing.ring cfg.cap).Reach r h ∧
      Refined cfg s tr r h ∧ VacantInv cfg s r := by
  refine Machine.simulation (A := TicketRing.ring cfg.cap)
    (R := fun s tr r h => Refined cfg s tr r h ∧ VacantInv cfg s r)
    ⟨⟨⟨_, sim_init⟩, traceOk_init⟩, fun i _ => rfl⟩ ?_ hr
  rintro s tr a s' es r h _ hfresh hring ⟨⟨⟨pos, sim⟩, ok⟩, hv⟩ hs
  have inv := TicketRing.ringInv_reach (cap_pos cfg) hring
  obtain ⟨as, r', fs, he, hm, href⟩ :=
    Refined.step hring sim ok ((freshRing_of_lag sim hfresh).noLap sim inv (step_move hs)) hs
  exact ⟨as, r', fs, he, href, hv.step sim inv (step_move hs) hm⟩

/-- As long as the counters have not turned, no local position can be stale. -/
theorem reachWhen_fresh (hr : (queue cfg).Reach s tr)
    (hb : (pushClaims tr).length + cfg.capacity.toNat < 2 ^ 64) :
    (queue cfg).ReachWhen (fun s _ _ => Fresh cfg s) s tr := by
  revert hb
  refine hr.invariant (P := fun s tr => (pushClaims tr).length + cfg.capacity.toNat < 2 ^ 64 →
    (queue cfg).ReachWhen (fun s _ _ => Fresh cfg s) s tr) (fun _ => .init) ?_
  intro s tr a s' es _ ih hs hb
  rw [pushClaims_append, List.length_append, capacity_toNat] at hb
  have hwhen := ih (by rw [capacity_toNat]; omega)
  refine .step hwhen (fun u => ?_) hs
  obtain ⟨r, h, hring, ⟨⟨pos, sim⟩, ok⟩, _⟩ := refines_vacant hwhen
  have inv := TicketRing.ringInv_reach (cap_pos cfg) hring
  have henq := ok.enq_eq inv
  have hle := inv.bounds.1
  have hok := sim.thread u
  cases hpc : s.pc u with
  | pushSeq v w =>
      rw [hpc] at hok
      obtain ⟨rfl, hp, _⟩ := hok
      rw [lag, sim.enq, toNat_word_sub hp (by omega), capacity_toNat]
      omega
  | pushCas v w =>
      rw [hpc] at hok
      obtain ⟨rfl, hp, _⟩ := hok
      rw [lag, sim.enq, toNat_word_sub hp (by omega), capacity_toNat]
      omega
  | popSeq w =>
      rw [hpc] at hok
      obtain ⟨rfl, hp, _⟩ := hok
      rw [lag, sim.deq, toNat_word_sub hp (by omega), capacity_toNat]
      omega
  | popCas w =>
      rw [hpc] at hok
      obtain ⟨rfl, hp, _⟩ := hok
      rw [lag, sim.deq, toNat_word_sub hp (by omega), capacity_toNat]
      omega
  | _ => exact Nat.two_pow_pos 64

omit [DecidableEq ι] in
/-- The slot a thread owns is the cell of its ticket, which names the thread. -/
theorem Sim.slot?_cell {r : TicketRing.State ι α} {pos : ι → Nat} (sim : Sim cfg s r pos)
    {t : ι} {i : Word} (hi : (s.pc t).slot? cfg = some i) :
    i = word (pos t % cfg.cap) ∧ OwnedBy t (r.phase (pos t % cfg.cap)) := by
  have hok := sim.thread t
  cases hpc : s.pc t with
  | pushData v w =>
      rw [hpc] at hok hi
      obtain ⟨rfl, hphase⟩ := hok
      rw [hphase]
      exact ⟨by rw [← word_and_mask]; exact (Option.some.inj hi).symm, rfl⟩
  | pushStore w =>
      rw [hpc] at hok hi
      obtain ⟨rfl, v, hphase, _⟩ := hok
      rw [hphase]
      exact ⟨by rw [← word_and_mask]; exact (Option.some.inj hi).symm, rfl⟩
  | popData w =>
      rw [hpc] at hok hi
      obtain ⟨rfl, v, hphase, _⟩ := hok
      rw [hphase]
      exact ⟨by rw [← word_and_mask]; exact (Option.some.inj hi).symm, rfl⟩
  | popStore w res =>
      rw [hpc] at hok hi
      obtain ⟨rfl, v, hphase, _⟩ := hok
      rw [hphase]
      exact ⟨by rw [← word_and_mask]; exact (Option.some.inj hi).symm, rfl⟩
  | _ => rw [hpc] at hi; cases hi

omit [DecidableEq ι] in
/-- Two owners of one slot are the same thread. -/
theorem Sim.slot?_inj {r : TicketRing.State ι α} {pos : ι → Nat} (sim : Sim cfg s r pos)
    {t u : ι} {i : Word} (ht : (s.pc t).slot? cfg = some i)
    (hu : (s.pc u).slot? cfg = some i) : t = u := by
  obtain ⟨rfl, hown⟩ := sim.slot?_cell ht
  obtain ⟨heq, hown'⟩ := sim.slot?_cell hu
  have hcell := word_cell_inj cfg (Nat.mod_lt _ (cap_pos cfg))
    (Nat.mod_lt _ (cap_pos cfg)) heq
  rw [hcell] at hown
  cases hp : r.phase (pos u % cfg.cap) with
  | writing q t' v =>
      rw [hp] at hown hown'
      exact hown.symm.trans hown'
  | reading q t' v =>
      rw [hp] at hown hown'
      exact hown.symm.trans hown'
  | free q => rw [hp] at hown; exact hown.elim
  | full q v => rw [hp] at hown; exact hown.elim

/-- Only the release stores change a sequence. -/
theorem sequence_step {s' : State ι α} {a : Act ι α} {es : List (Event ι α)}
    (h : step cfg s a = some (s', es)) (i : Word) :
    (s'.buffer i).sequence = (s.buffer i).sequence ∨
      (∃ t pos, s.pc t = .pushStore pos ∧ i = pos &&& cfg.mask ∧
        (s'.buffer i).sequence = pos + 1) ∨
      ∃ t pos res, s.pc t = .popStore pos res ∧ i = pos &&& cfg.mask ∧
        (s'.buffer i).sequence = pos + cfg.capacity := by
  cases step_move h with
  | @pushPublish t pos hpc =>
      by_cases hi : i = pos &&& cfg.mask
      · subst hi
        exact .inr (.inl ⟨t, pos, hpc, rfl, by simp⟩)
      · exact .inl (by simp [setSlot_ne _ _ _ hi])
  | @popPublish t pos res hpc =>
      by_cases hi : i = pos &&& cfg.mask
      · subst hi
        exact .inr (.inr ⟨t, pos, res, hpc, rfl, by simp⟩)
      · exact .inl (by simp [setSlot_ne _ _ _ hi])
  | @pushMove t v pos hpc =>
      by_cases hi : i = pos &&& cfg.mask
      · subst hi
        exact .inl (by simp)
      · exact .inl (by simp [setSlot_ne _ _ _ hi])
  | @popMove t pos hpc =>
      by_cases hi : i = pos &&& cfg.mask
      · subst hi
        exact .inl (by simp)
      · exact .inl (by simp [setSlot_ne _ _ _ hi])
  | _ => exact .inl rfl

omit [DecidableEq ι] in
/-- The ticket of a thread that is about to publish. -/
theorem Sim.pushStore_ticket {r : TicketRing.State ι α} {pos : ι → Nat}
    {h : List (FifoOp α)} (sim : Sim cfg s r pos) (inv : RingInv cfg.cap r h) {t : ι}
    {w : Word} (hpc : s.pc t = .pushStore w) :
    w = word (pos t) ∧ (s.buffer (w &&& cfg.mask)).sequence = word (pos t) ∧
      pos t < r.enq := by
  have hok := sim.thread t
  rw [hpc] at hok
  obtain ⟨rfl, v, hphase, _⟩ := hok
  have hbound := inv.phase _ (Nat.mod_lt (pos t) (cap_pos cfg))
  rw [hphase] at hbound
  exact ⟨rfl, by rw [sim.sequence_at, hphase]; rfl, hbound.2⟩

omit [DecidableEq ι] in
/-- The ticket of a thread that is about to release its slot. -/
theorem Sim.popStore_ticket {r : TicketRing.State ι α} {pos : ι → Nat}
    {h : List (FifoOp α)} (sim : Sim cfg s r pos) (inv : RingInv cfg.cap r h) {t : ι}
    {w : Word} {res : Option α} (hpc : s.pc t = .popStore w res) :
    w = word (pos t) ∧ (s.buffer (w &&& cfg.mask)).sequence = word (pos t + 1) ∧
      pos t < r.deq := by
  have hok := sim.thread t
  rw [hpc] at hok
  obtain ⟨rfl, v, hphase, _⟩ := hok
  have hbound := inv.phase _ (Nat.mod_lt (pos t) (cap_pos cfg))
  rw [hphase] at hbound
  exact ⟨rfl, by rw [sim.sequence_at, hphase]; rfl, hbound.1⟩

/-- What holds of the slots, their owners and the next step. -/
structure ExclusiveSlots (cfg : Config) (s : State ι α) (tr : List (Event ι α)) : Prop where
  exclusive : ∀ t u i, (s.pc t).slot? cfg = some i → (s.pc u).slot? cfg = some i → t = u
  /-- A push overwrites an initial or moved-from object only. -/
  vacant : ∀ t v pos, s.pc t = .pushData v pos → (s.buffer (pos &&& cfg.mask)).data = none
  /-- A pop moves out what the push of the same ticket has stored. -/
  stored : ∀ t pos, s.pc t = .popData pos → ∃ k v, (popClaims tr)[k]? = some pos ∧
    (pushClaims tr)[k]? = some (pos, v) ∧
    (pushClaims tr).length ≤ k + cfg.capacity.toNat ∧
    (s.buffer (pos &&& cfg.mask)).data = some v
  /-- The sequence of a slot moves forward, as a word. -/
  forward : ∀ a s' es, step cfg s a = some (s', es) → ∀ i,
    (s'.buffer i).sequence = (s.buffer i).sequence ∨
      (s'.buffer i).sequence = (s.buffer i).sequence + 1 ∨
      (s'.buffer i).sequence + 1 = (s.buffer i).sequence + cfg.capacity
  /-- It does not decrease before the words turn. -/
  increasing : (pushClaims tr).length + cfg.capacity.toNat ≤ 2 ^ 64 →
    ∀ a s' es, step cfg s a = some (s', es) → ∀ i,
      (s.buffer i).sequence.toNat ≤ (s'.buffer i).sequence.toNat

/--
Slot ownership is exclusive in every run in which no local position lags a whole
turn of the words behind.
-/
theorem owners_exclusive (cfg : Config) {s : State ι α} {tr : List (Event ι α)}
    (hr : (queue cfg).ReachWhen (fun s _ _ => Fresh cfg s) s tr) :
    ExclusiveSlots cfg s tr := by
  obtain ⟨r, h, hring, ⟨⟨p, sim⟩, ok⟩, hv⟩ := refines_vacant hr
  have inv := TicketRing.ringInv_reach (cap_pos cfg) hring
  refine ⟨fun t u i ht hu => sim.slot?_inj ht hu, ?_, ?_, ?_, ?_⟩
  · intro t v pos hpc
    have hok := sim.thread t
    rw [hpc] at hok
    obtain ⟨rfl, hphase⟩ := hok
    have hvacant := hv _ (Nat.mod_lt (p t) (cap_pos cfg))
    rw [hphase] at hvacant
    rw [word_and_mask]
    exact hvacant v hpc
  · intro t pos hpc
    have hok := sim.thread t
    rw [hpc] at hok
    obtain ⟨rfl, v, hphase, hdata⟩ := hok
    have hi := Nat.mod_lt (p t) (cap_pos cfg)
    have hbound := inv.phase _ hi
    have hval := inv.value _ hi v (by rw [hphase]; rfl)
    rw [hphase] at hbound hval
    refine ⟨p t, v, ?_, ?_, ?_, by rw [word_and_mask]; exact hdata⟩
    · rw [ok.pops, List.getElem?_map, List.getElem?_range hbound.1]
      rfl
    · rw [ok.pushes, List.getElem?_mapIdx]
      show ((enqueued h)[p t]?).map _ = _
      rw [show (enqueued h)[p t]? = some v from hval]
      rfl
    · rw [ok.enq_eq inv, capacity_toNat]
      exact hbound.2
  · intro a s' es hs i
    rcases sequence_step hs i with heq | ⟨t, w, hpc, rfl, hseq⟩ | ⟨t, w, res, hpc, rfl, hseq⟩
    · exact .inl heq
    · obtain ⟨rfl, hold, _⟩ := sim.pushStore_ticket inv hpc
      exact .inr (.inl (by rw [hseq, hold]))
    · obtain ⟨rfl, hold, _⟩ := sim.popStore_ticket inv hpc
      refine .inr (.inr ?_)
      rw [hseq, hold, ← word_succ, BitVec.add_assoc, BitVec.add_assoc,
        BitVec.add_comm cfg.capacity]
  · intro hb a s' es hs i
    rw [ok.enq_eq inv, capacity_toNat] at hb
    have hdeq := inv.bounds.1
    have hcap := two_le_cap cfg
    rcases sequence_step hs i with heq | ⟨t, w, hpc, rfl, hseq⟩ | ⟨t, w, res, hpc, rfl, hseq⟩
    · exact le_of_eq (congrArg BitVec.toNat heq.symm)
    · obtain ⟨rfl, hold, hlt⟩ := sim.pushStore_ticket inv hpc
      rw [hseq, hold, word_succ, toNat_word_of_lt (by omega), toNat_word_of_lt (by omega)]
      omega
    · obtain ⟨rfl, hold, hlt⟩ := sim.popStore_ticket inv hpc
      rw [hseq, hold, capacity_word, word_add, toNat_word_of_lt (by omega),
        toNat_word_of_lt (by omega)]
      omega

/-- Thread `true` has claimed the pop of ticket `0`, and thread `false` the push of ticket `1`. -/
def twoOwners : List (Act Bool Nat) :=
  [.tryPush true 7, .go true, .go true, .go true, .go true, .go true,
    .tryPop true, .go true, .go true, .go true, .tryPush false 8, .go false, .go false, .go false]

theorem owners_exclusive_twoOwners :
    ∃ (s : State Bool Nat) (tr : List (Event Bool Nat)),
      (queue twoSlots).ReachWhen (fun s _ _ => Fresh twoSlots s) s tr ∧
        s.pc true = .popData 0 ∧ s.pc false = .pushData 8 1 ∧
          ExclusiveSlots twoSlots s tr := by
  obtain ⟨s, tr, hr, hp⟩ := Machine.exists_reach_of_exec (M := queue twoSlots) twoOwners
    (p := fun r => decide (r.1.pc true = .popData 0 ∧ r.1.pc false = .pushData 8 1 ∧
      (pushClaims r.2).length + twoSlots.capacity.toNat < 2 ^ 64))
    (by decide)
  obtain ⟨hpop, hpush, hb⟩ := of_decide_eq_true hp
  have hfresh := reachWhen_fresh hr hb
  exact ⟨s, tr, hfresh, hpop, hpush, owners_exclusive twoSlots hfresh⟩

end Runs

section Undisturbed

variable [DecidableEq ι] {cfg : Config}

/-- The queue after an undisturbed `try_push`. -/
def pushed (cfg : Config) (s : State ι α) (v : α) : State ι α :=
  { s with
    enqueuePos := s.enqueuePos + 1
    buffer := Function.update s.buffer (s.enqueuePos &&& cfg.mask)
      { sequence := s.enqueuePos + 1, data := some v } }

/-- The queue after an undisturbed `try_pop`. -/
def popped (cfg : Config) (s : State ι α) : State ι α :=
  { s with
    dequeuePos := s.dequeuePos + 1
    buffer := Function.update s.buffer (s.dequeuePos &&& cfg.mask)
      { sequence := s.dequeuePos + cfg.capacity, data := none } }

theorem exec_push {s : State ι α} {t : ι} (v : α) (hidle : s.pc t = .idle)
    (hseq : (s.buffer (s.enqueuePos &&& cfg.mask)).sequence = s.enqueuePos) :
    (queue cfg).exec s [.tryPush t v, .go t, .go t, .go t, .go t, .go t] =
      some (pushed cfg s v, [.pushCalled t v, .pushClaimed t s.enqueuePos v,
        .pushReturned t s.enqueuePos]) := by
  have hd := diff_eq_zero.mpr hseq
  have hpc : Function.update s.pc t .idle = s.pc := by rw [← hidle, Function.update_eq_self]
  simp [Machine.exec, queue, step, goStep, hidle, hd, State.setPc, State.setSlot, pushed, hpc]

theorem exec_pop {s : State ι α} {t : ι} (hidle : s.pc t = .idle)
    (hseq : (s.buffer (s.dequeuePos &&& cfg.mask)).sequence = s.dequeuePos + 1) :
    (queue cfg).exec s [.tryPop t, .go t, .go t, .go t, .go t, .go t] =
      some (popped cfg s, [.popCalled t, .popClaimed t s.dequeuePos,
        .popReturned t s.dequeuePos (s.buffer (s.dequeuePos &&& cfg.mask)).data]) := by
  have hd : diff (s.buffer (s.dequeuePos &&& cfg.mask)).sequence (s.dequeuePos + 1#64) = 0 :=
    diff_eq_zero.mpr hseq
  have hpc : Function.update s.pc t .idle = s.pc := by rw [← hidle, Function.update_eq_self]
  simp [Machine.exec, queue, step, goStep, hidle, hd, State.setPc, State.setSlot, popped, hpc]

/-- The queue while thread `t` holds the ticket of an undisturbed `try_pop`. -/
def popping (s : State ι α) (t : ι) : State ι α :=
  { s with
    dequeuePos := s.dequeuePos + 1
    pc := Function.update s.pc t (.popData s.dequeuePos) }

theorem exec_popClaim {s : State ι α} {t : ι} (hidle : s.pc t = .idle)
    (hseq : (s.buffer (s.dequeuePos &&& cfg.mask)).sequence = s.dequeuePos + 1) :
    (queue cfg).exec s [.tryPop t, .go t, .go t, .go t] =
      some (popping s t, [.popCalled t, .popClaimed t s.dequeuePos]) := by
  have hd : diff (s.buffer (s.dequeuePos &&& cfg.mask)).sequence (s.dequeuePos + 1#64) = 0 :=
    diff_eq_zero.mpr hseq
  simp [Machine.exec, queue, step, goStep, hidle, hd, State.setPc, popping]

end Undisturbed

/-- Thread `0` is about to claim ticket `0` of a queue that has come to ticket `p`. -/
structure Delayed (p : Nat) (s : State (Fin 3) Nat) : Prop where
  enq : s.enqueuePos = word p
  deq : s.dequeuePos = word p
  current : (s.buffer (word (p % 2))).sequence = word p
  next : (s.buffer (word ((p + 1) % 2))).sequence = word (p + 1)
  stale : s.pc 0 = .pushCas 5 0
  idle : ∀ t, t ≠ 0 → s.pc t = .idle

theorem twoSlots_mask (p : Nat) : word p &&& twoSlots.mask = word (p % 2) :=
  word_and_mask twoSlots p

theorem word_cell_succ_ne (p : Nat) : word ((p + 1) % 2) ≠ word (p % 2) := by
  intro h
  have := word_inj h (by omega) (by omega)
  omega

theorem Delayed.push {p : Nat} {s : State (Fin 3) Nat} (h : Delayed p s) :
    ∃ es, (queue twoSlots).exec s [.tryPush 1 7, .go 1, .go 1, .go 1, .go 1, .go 1] =
      some (pushed twoSlots s 7, es) := by
  refine ⟨_, exec_push 7 (h.idle 1 (by decide)) ?_⟩
  rw [h.enq, twoSlots_mask]
  exact h.current

/-- Thread `1` pushes and pops while thread `0` is delayed. -/
theorem Delayed.lap {p : Nat} {s : State (Fin 3) Nat} (h : Delayed p s) :
    ∃ as s' es, (queue twoSlots).exec s as = some (s', es) ∧ Delayed (p + 1) s' := by
  obtain ⟨es, hpush⟩ := h.push
  have hseq : ((pushed twoSlots s 7).buffer
      ((pushed twoSlots s 7).dequeuePos &&& twoSlots.mask)).sequence =
        (pushed twoSlots s 7).dequeuePos + 1 := by simp [pushed, h.enq, h.deq]
  have hpop := exec_pop (s := pushed twoSlots s 7) (t := 1) (h.idle 1 (by decide)) hseq
  have hne := word_cell_succ_ne p
  have hback : (p + 1 + 1) % 2 = p % 2 := by omega
  refine ⟨_, _, _, Machine.exec_append hpush hpop, ?_, ?_, ?_, ?_, h.stale, h.idle⟩
  · show s.enqueuePos + 1 = _
    rw [h.enq, word_succ]
  · show s.dequeuePos + 1 = _
    rw [h.deq, word_succ]
  · simp only [popped, pushed, h.enq, h.deq, twoSlots_mask]
    rw [Function.update_of_ne hne, Function.update_of_ne hne]
    exact h.next
  · simp only [popped, pushed, h.enq, h.deq, twoSlots_mask, hback]
    rw [Function.update_self]
    exact word_add p 2

theorem exists_delayed (p : Nat) :
    ∃ s tr, (queue twoSlots).Reach s tr ∧ Delayed p s := by
  induction p with
  | zero =>
      have he : (queue twoSlots).exec (queue twoSlots).init
          [Act.tryPush (0 : Fin 3) 5, .go 0, .go 0] = some (_, _) := rfl
      exact ⟨_, _, Machine.Reach.init.exec he, rfl, rfl, rfl, rfl, rfl,
        fun t ht => by simp [State.setPc, Function.update_of_ne ht, queue]⟩
  | succ p ih =>
      obtain ⟨s, tr, hr, h⟩ := ih
      obtain ⟨as, s', es, he, h'⟩ := h.lap
      exact ⟨s', _, hr.exec he, h'⟩

/-- Thread `2` holds the last ticket before the words turn. -/
theorem exists_last_ticket :
    ∃ s tr, (queue twoSlots).Reach s tr ∧ Delayed (2 ^ 64 - 2) s ∧
      ∃ tr', (queue twoSlots).Reach (popping (pushed twoSlots s 7) 2) tr' := by
  obtain ⟨s, tr, hr, h⟩ := exists_delayed (2 ^ 64 - 2)
  obtain ⟨es, hpush⟩ := h.push
  refine ⟨s, tr, hr, h, _, (hr.exec hpush).exec (exec_popClaim (h.idle 2 (by decide)) ?_)⟩
  simp [pushed, h.enq, h.deq]

theorem wrapped_ticket_shares_slot :
    (∃ s tr, (queue twoSlots : Machine (State (Fin 3) Nat) _ _).Reach s tr ∧
      (s.pc 0).slot? twoSlots = some 0 ∧ (s.pc 2).slot? twoSlots = some 0) ∧
    ∃ s tr a s' es, (queue twoSlots : Machine (State (Fin 3) Nat) _ _).Reach s tr ∧
      step twoSlots s a = some (s', es) ∧
      (s'.buffer 0).sequence.toNat < (s.buffer 0).sequence.toNat := by
  obtain ⟨s, tr, _, h, tr', hr⟩ := exists_last_ticket
  constructor
  · have hseq : ((popping (pushed twoSlots s 7) 2).buffer
        ((popping (pushed twoSlots s 7) 2).enqueuePos &&& twoSlots.mask)).sequence =
          (popping (pushed twoSlots s 7) 2).enqueuePos := by
      simp only [popping, pushed, h.enq, word_succ, twoSlots_mask]
      rw [Function.update_of_ne (word_cell_succ_ne _)]
      exact h.next
    have hpush := exec_push (t := 1) 8 (by simp [popping, pushed, h.idle 1]) hseq
    have hstale : (pushed twoSlots (popping (pushed twoSlots s 7) 2) 8).pc 0 = .pushCas 5 0 := by
      simp [pushed, popping, h.stale]
    have hturn : (pushed twoSlots (popping (pushed twoSlots s 7) 2) 8).enqueuePos = 0 := by
      simp only [pushed, popping, h.enq, word_succ]
      rfl
    have hcas : (queue twoSlots).step (pushed twoSlots (popping (pushed twoSlots s 7) 2) 8)
        (.go 0) = some ({ (pushed twoSlots (popping (pushed twoSlots s 7) 2) 8).setPc 0
          (.pushData 5 0) with enqueuePos := 0 + 1 }, [.pushClaimed 0 0 5]) := by
      simp [queue, step, goStep, hstale, hturn]
    refine ⟨_, _, .step (hr.exec hpush) hcas, ?_, ?_⟩
    · simp [State.setPc, Pc.slot?]
    · simp [State.setPc, pushed, popping, h.deq, Pc.slot?]
      decide
  · have hslot : word ((2 ^ 64 - 2) % 2) = 0 := by decide
    have hpc : (popping (pushed twoSlots s 7) 2).pc 2 = .popData (word (2 ^ 64 - 2)) := by
      simp [popping, pushed, h.deq]
    have hmove : ∃ s₁ res, (queue twoSlots).step (popping (pushed twoSlots s 7) 2) (.go 2) =
        some (s₁, []) ∧ s₁.pc 2 = .popStore (word (2 ^ 64 - 2)) res ∧
          (s₁.buffer 0).sequence = word (2 ^ 64 - 1) := by
      refine ⟨_, _, by simp only [queue, step, goStep, hpc]; rfl, setPc_self _ _ _, ?_⟩
      rw [setPc_buffer, twoSlots_mask, hslot, setSlot_self]
      simp only [popping, pushed, h.enq, twoSlots_mask, hslot, Function.update_self]
      exact word_succ _
    obtain ⟨s₁, res, hs₁, hstore, hseq⟩ := hmove
    refine ⟨s₁, _, .go 2, _, _, .step hr hs₁, by simp only [step, goStep, hstore]; rfl, ?_⟩
    rw [setPc_buffer, twoSlots_mask, hslot, setSlot_self, hseq]
    show (word (2 ^ 64 - 2) + 2).toNat < _
    decide

end LockFreeQueue
end AsyncTaskEngine
