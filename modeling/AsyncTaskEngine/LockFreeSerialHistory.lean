import AsyncTaskEngine.LockFreeLinearization
import AsyncTaskEngine.LockFreeSerial

/-!
# Clients that take turns see a bounded FIFO queue

In general the lock-free queue is linearizable under conditions on the age of
local positions and on the calls that are stalled; `Settled` collects them.
Between clients that take turns none of them is needed.  A call takes effect in
the atomic object at its last step, which for a successful one is its release
store, and the verdicts full and empty are then right: whoever could mislead a
refused call is itself still in progress.
-/

namespace AsyncTaskEngine
namespace LockFreeQueue

open TicketRing (Phase PhaseOk RingInv setPhase_ne setPhase_self)

universe u v

variable {ι : Type u} {α : Type v}

section Tickets

variable {cfg : Config} {s : State ι α} {r : TicketRing.State ι α} {h : List (FifoOp α)}
variable {pos : ι → Nat} {m n : Nat} {t : ι}

/-- While a push has not claimed its ticket, no ticket is being pushed. -/
theorem Alone.no_writer (alone : Alone s) (sim : Sim cfg s r pos)
    (hin : (s.pc t).inPush = true) (hown : ¬ (s.pc t).owns) {i : Nat} (hi : i < cfg.cap)
    (q : Nat) (u : ι) (v : α) : r.phase i ≠ .writing q u v := by
  intro hw
  have hu : (s.pc u).inPush = true ∧ (s.pc u).owns := by
    rcases (sim.writer i hi q u v hw).2 with hpc | hpc <;> rw [hpc] <;> exact ⟨rfl, trivial⟩
  rw [alone.push t u hin hu.1] at hown
  exact hown hu.2

theorem Alone.no_reader (alone : Alone s) (sim : Sim cfg s r pos)
    (hin : (s.pc t).inPop = true) (hown : ¬ (s.pc t).owns) {i : Nat} (hi : i < cfg.cap)
    (q : Nat) (u : ι) (v : α) : r.phase i ≠ .reading q u v := by
  intro hr
  have hu : (s.pc u).inPop = true ∧ (s.pc u).owns := by
    rcases (sim.reader i hi q u v hr).2 with hpc | ⟨res, hpc⟩ <;> rw [hpc] <;>
      exact ⟨rfl, trivial⟩
  rw [alone.pop t u hin hu.1] at hown
  exact hown hu.2

/-- The tickets below `n` have been published and those below `m` released; at most
one ticket is being pushed, and at most one popped. -/
structure Counted (cfg : Config) (r : TicketRing.State ι α) (m n : Nat) : Prop where
  lower : m ≤ r.deq
  taken : r.deq ≤ m + 1
  middle : r.deq ≤ n
  upper : n ≤ r.enq
  reader : m < r.deq → ∃ u v, r.phase (m % cfg.cap) = .reading m u v
  full : ∀ i < cfg.cap, ∀ q v, r.phase i = .full q v → q < n
  writing : ∀ i < cfg.cap, ∀ q u v, r.phase i = .writing q u v → q = n
  reading : ∀ i < cfg.cap, ∀ q u v, r.phase i = .reading q u v → q = m

theorem Counted.all_published (c : Counted cfg r m n) (inv : RingInv cfg.cap r h)
    (hno : ∀ i < cfg.cap, ∀ q u v, r.phase i ≠ .writing q u v) : n = r.enq := by
  by_contra hne
  have hi := Nat.mod_lt n (cap_pos cfg)
  have hlt : n < r.enq := by
    have := c.upper
    omega
  rcases inv.outstanding (cap_pos cfg) c.middle hlt with ⟨t, v, hw⟩ | ⟨v, hf⟩
  · exact hno _ hi _ _ _ hw
  · exact Nat.lt_irrefl n (c.full _ hi _ _ hf)

theorem Counted.all_released (c : Counted cfg r m n)
    (hno : ∀ i < cfg.cap, ∀ q u v, r.phase i ≠ .reading q u v) : m = r.deq := by
  by_contra hne
  have hlt : m < r.deq := by
    have := c.lower
    omega
  obtain ⟨u, v, hr⟩ := c.reader hlt
  exact hno _ (Nat.mod_lt m (cap_pos cfg)) _ _ _ hr

/-- The phase of a cell after a write to one cell. -/
theorem phase_setPhase {q i : Nat} {p x : Phase ι α}
    (hx : (r.setPhase cfg.cap q p).phase i = x) :
    p = x ∨ i ≠ q % cfg.cap ∧ r.phase i = x := by
  by_cases heq : i = q % cfg.cap
  · subst heq
    rw [setPhase_self] at hx
    exact .inl hx
  · rw [setPhase_ne _ _ _ _ heq] at hx
    exact .inr ⟨heq, hx⟩

/-- The ticket that is being popped is not in a cell of another kind. -/
theorem Counted.reader_setPhase {q : Nat} (c : Counted cfg r m n) (p : Phase ι α)
    (hq : ∀ u v, r.phase (q % cfg.cap) ≠ .reading m u v) (hm : m < r.deq) :
    ∃ u v, (r.setPhase cfg.cap q p).phase (m % cfg.cap) = .reading m u v := by
  obtain ⟨u, v, hr⟩ := c.reader hm
  have hne : m % cfg.cap ≠ q % cfg.cap := by
    intro heq
    rw [heq] at hr
    exact hq u v hr
  exact ⟨u, v, (setPhase_ne r _ _ _ hne).trans hr⟩

/-- A ticket is drawn by the only push. -/
theorem Counted.drawPush (c : Counted cfg r m n) (inv : RingInv cfg.cap r h) (t : ι) (v : α)
    (hfree : r.phase (r.enq % cfg.cap) = .free r.enq)
    (hno : ∀ i < cfg.cap, ∀ q u v, r.phase i ≠ .writing q u v) :
    Counted cfg { r.setPhase cfg.cap r.enq (.writing r.enq t v) with enq := r.enq + 1 } m n := by
  have hn := c.all_published inv hno
  refine ⟨c.lower, c.taken, c.middle, Nat.le_succ_of_le c.upper, ?_, ?_, ?_, ?_⟩
  · refine c.reader_setPhase _ fun u v' hr => ?_
    rw [hfree] at hr
    cases hr
  · intro i hi q v' hf
    rcases phase_setPhase hf with heq | ⟨_, hf⟩
    · cases heq
    · exact c.full i hi q v' hf
  · intro i hi q u v' hw
    rcases phase_setPhase hw with heq | ⟨_, hw⟩
    · cases heq
      exact hn.symm
    · exact (hno i hi q u v' hw).elim
  · intro i hi q u v' hr
    rcases phase_setPhase hr with heq | ⟨_, hr⟩
    · cases heq
    · exact c.reading i hi q u v' hr

/-- The only push publishes its ticket. -/
theorem Counted.publish (c : Counted cfg r m n) (inv : RingInv cfg.cap r h) {q : Nat} {v : α}
    (hw : r.phase (q % cfg.cap) = .writing q t v) :
    q = n ∧ Counted cfg (r.setPhase cfg.cap q (.full q v)) m (n + 1) := by
  have hi := Nat.mod_lt q (cap_pos cfg)
  have hphase := inv.phase _ hi
  rw [hw] at hphase
  obtain rfl := c.writing _ hi _ _ _ hw
  refine ⟨rfl, c.lower, c.taken, Nat.le_succ_of_le c.middle, hphase.2, ?_, ?_, ?_, ?_⟩
  · refine c.reader_setPhase _ fun u v' hr => ?_
    rw [hw] at hr
    cases hr
  · intro i hi' q' v' hf
    rcases phase_setPhase hf with heq | ⟨_, hf⟩
    · cases heq
      exact Nat.lt_succ_self q
    · exact Nat.lt_succ_of_lt (c.full i hi' q' v' hf)
  · intro i hi' q' u v' hw'
    rcases phase_setPhase hw' with heq | ⟨hne, hw'⟩
    · cases heq
    · -- two cells would be writing the same ticket
      have hq := c.writing i hi' q' u v' hw'
      have hcell := inv.cell i hi'
      rw [hw'] at hcell
      simp only [Phase.ticket, hq] at hcell
      exact (hne hcell.symm).elim
  · intro i hi' q' u v' hr
    rcases phase_setPhase hr with heq | ⟨_, hr⟩
    · cases heq
    · exact c.reading i hi' q' u v' hr

/-- The only pop draws a ticket. -/
theorem Counted.drawPop (c : Counted cfg r m n) (t : ι) (v : α)
    (hfull : r.phase (r.deq % cfg.cap) = .full r.deq v)
    (hno : ∀ i < cfg.cap, ∀ q u v, r.phase i ≠ .reading q u v) :
    Counted cfg { r.setPhase cfg.cap r.deq (.reading r.deq t v) with deq := r.deq + 1 } m n := by
  have hi := Nat.mod_lt r.deq (cap_pos cfg)
  obtain rfl := c.all_released hno
  have hlt := c.full _ hi _ _ hfull
  refine ⟨Nat.le_succ _, Nat.le_refl _, hlt, c.upper, ?_, ?_, ?_, ?_⟩
  · intro _
    exact ⟨t, v, setPhase_self _ _ _ _⟩
  · intro i hi' q v' hf
    rcases phase_setPhase hf with heq | ⟨_, hf⟩
    · cases heq
    · exact c.full i hi' q v' hf
  · intro i hi' q u v' hw
    rcases phase_setPhase hw with heq | ⟨_, hw⟩
    · cases heq
    · exact c.writing i hi' q u v' hw
  · intro i hi' q u v' hr
    rcases phase_setPhase hr with heq | ⟨_, hr⟩
    · cases heq
      rfl
    · exact c.reading i hi' q u v' hr

/-- The only pop releases its ticket. -/
theorem Counted.release (c : Counted cfg r m n) (inv : RingInv cfg.cap r h) {q : Nat} {v : α}
    (hr : r.phase (q % cfg.cap) = .reading q t v) :
    q = m ∧ m < n ∧ Counted cfg (r.setPhase cfg.cap q (.free (q + cfg.cap))) (m + 1) n := by
  have hi := Nat.mod_lt q (cap_pos cfg)
  have hphase := inv.phase _ hi
  rw [hr] at hphase
  obtain rfl := c.reading _ hi _ _ _ hr
  have hlt : q + 1 ≤ r.deq := hphase.1
  refine ⟨rfl, Nat.lt_of_lt_of_le hlt c.middle, hlt, Nat.le_succ_of_le c.taken, c.middle, c.upper,
    ?_, ?_, ?_, ?_⟩
  · intro hm
    exact (Nat.lt_irrefl _ (Nat.lt_of_lt_of_le hm c.taken)).elim
  · intro i hi' q' v' hf
    rcases phase_setPhase hf with heq | ⟨_, hf⟩
    · cases heq
    · exact c.full i hi' q' v' hf
  · intro i hi' q' u v' hw
    rcases phase_setPhase hw with heq | ⟨_, hw⟩
    · cases heq
    · exact c.writing i hi' q' u v' hw
  · intro i hi' q' u v' hr'
    rcases phase_setPhase hr' with heq | ⟨hne, hr'⟩
    · cases heq
    · -- two cells would be reading the same ticket
      have hq := c.reading i hi' q' u v' hr'
      have hcell := inv.cell i hi'
      rw [hr'] at hcell
      simp only [Phase.ticket, hq] at hcell
      exact (hne hcell.symm).elim

/-- There is room for the ticket that is being pushed, until the pop has released its slot. -/
theorem Counted.room (c : Counted cfg r m n) (inv : RingInv cfg.cap r h) {v : α}
    (hw : r.phase (n % cfg.cap) = .writing n t v) : n < m + cfg.cap := by
  have hphase := inv.phase _ (Nat.mod_lt n (cap_pos cfg))
  rw [hw] at hphase
  have hlt := hphase.2
  have hbounds := inv.bounds.2
  have htaken := c.taken
  by_contra hge
  have heq : n = m + cfg.cap := by omega
  obtain ⟨u, v', hr⟩ := c.reader (by omega)
  rw [heq, Nat.add_mod_right] at hw
  rw [hr] at hw
  cases hw

/-- A refused push has found `cap` elements. -/
theorem Counted.full_queue (c : Counted cfg r m n) (inv : RingInv cfg.cap r h)
    (sim : Sim cfg s r pos)
    (hno : ∀ i < cfg.cap, ∀ q u v, r.phase i ≠ .writing q u v)
    (hcase : r.enq = r.deq + cfg.cap ∨
      ∃ u, (s.pc u).popTicket? = some (s.enqueuePos - cfg.capacity)) : n = m + cfg.cap := by
  have hn := c.all_published inv hno
  have hlower := c.lower
  have hcap := cap_pos cfg
  have hmax := cap_le cfg
  have hmiddle := c.middle
  rcases hcase with heq | ⟨u, hu⟩
  · by_contra hne
    have htaken := c.taken
    obtain ⟨u, v, hr⟩ := c.reader (by omega)
    rcases inv.outstanding hcap (q := m + cfg.cap) (by omega) (by omega) with
      ⟨t, v', hw⟩ | ⟨v', hf⟩
    · rw [Nat.add_mod_right, hr] at hw
      cases hw
    · rw [Nat.add_mod_right, hr] at hf
      cases hf
  · have hok := sim.thread u
    have hword : s.enqueuePos - cfg.capacity = word (pos u) ∧
        ∃ v, r.phase (pos u % cfg.cap) = .reading (pos u) u v := by
      cases hpc : s.pc u with
      | popData p =>
          rw [hpc] at hu hok
          obtain ⟨rfl, v, hr, _⟩ := hok
          exact ⟨(Option.some.inj hu).symm, v, hr⟩
      | popStore p res =>
          rw [hpc] at hu hok
          obtain ⟨rfl, v, hr, _⟩ := hok
          exact ⟨(Option.some.inj hu).symm, v, hr⟩
      | _ => rw [hpc] at hu; cases hu
    obtain ⟨hw, v, hr⟩ := hword
    have hi := Nat.mod_lt (pos u) hcap
    have hphase := inv.phase _ hi
    rw [hr] at hphase
    have hpos := c.reading _ hi _ _ _ hr
    have hnear := hphase.2
    have hsame : word n = word (m + cfg.cap) := by
      rw [hn, ← sim.enq, ← word_add, ← capacity_word, ← hpos, ← hw, BitVec.sub_add_cancel]
    exact word_inj hsame (by omega) (by omega)

/-- A refused pop has found no element. -/
theorem Counted.empty_queue (c : Counted cfg r m n) (inv : RingInv cfg.cap r h)
    (sim : Sim cfg s r pos)
    (hno : ∀ i < cfg.cap, ∀ q u v, r.phase i ≠ .reading q u v)
    (hcase : r.deq = r.enq ∨ ∃ u, (s.pc u).pushTicket? = some s.dequeuePos) : n = m := by
  have hm := c.all_released hno
  have hmiddle := c.middle
  have hupper := c.upper
  rcases hcase with heq | ⟨u, hu⟩
  · omega
  · have hok := sim.thread u
    have hword : s.dequeuePos = word (pos u) ∧
        ∃ v, r.phase (pos u % cfg.cap) = .writing (pos u) u v := by
      cases hpc : s.pc u with
      | pushData v p =>
          rw [hpc] at hu hok
          exact ⟨(Option.some.inj hu).symm.trans hok.1, v, hok.2⟩
      | pushStore p =>
          rw [hpc] at hu hok
          obtain ⟨rfl, v, hw, _⟩ := hok
          exact ⟨(Option.some.inj hu).symm, v, hw⟩
      | _ => rw [hpc] at hu; cases hu
    obtain ⟨hw, v, hwriting⟩ := hword
    have hi := Nat.mod_lt (pos u) (cap_pos cfg)
    have hphase := inv.phase _ hi
    rw [hwriting] at hphase
    have hpos := c.writing _ hi _ _ _ hwriting
    have hlt := hphase.2
    have hbounds := inv.bounds.2
    have hmax := cap_le cfg
    have hsame : word n = word m := by
      rw [hm, ← sim.deq, hw, hpos]
    exact word_inj hsame (by omega) (by omega)

end Tickets

/-- The elements of the tickets from `m` up to `n`. -/
def elements (h : List (FifoOp α)) (m n : Nat) : List (Option α) :=
  (((enqueued h).drop m).take (n - m)).map some

section Contents

variable {h : List (FifoOp α)} {m n : Nat} {v : α}

theorem length_elements (hn : n ≤ (enqueued h).length) : (elements h m n).length = n - m := by
  rw [elements, List.length_map, List.length_take, List.length_drop]
  omega

/-- Later claims do not change the tickets below `n`. -/
theorem elements_append (fs : List (FifoOp α)) (hmn : m ≤ n) (hn : n ≤ (enqueued h).length) :
    elements (h ++ fs) m n = elements h m n := by
  rw [elements, elements, enqueued_append, List.drop_append_of_le_length (by omega),
    List.take_append_of_le_length (by rw [List.length_drop]; omega)]

theorem elements_push (hmn : m ≤ n) (hv : (enqueued h)[n]? = some v) :
    elements h m (n + 1) = elements h m n ++ [some v] := by
  have hget : ((enqueued h).drop m)[n - m]? = some v := by
    rw [List.getElem?_drop, Nat.add_sub_cancel' hmn, hv]
  rw [elements, elements, show n + 1 - m = n - m + 1 by omega, List.take_add_one, hget]
  simp

theorem elements_pop (hmn : m < n) (hv : (enqueued h)[m]? = some v) :
    elements h m n = some v :: elements h (m + 1) n := by
  obtain ⟨hlen, hget⟩ := List.getElem?_eq_some_iff.mp hv
  rw [elements, elements, List.drop_eq_getElem_cons hlen, hget,
    show n - m = n - (m + 1) + 1 by omega]
  rfl

end Contents

/-- The owner of a cell, and its call in the object. -/
def ownerCall? : Phase ι α → Option (ι × FifoObject.Call (Option α))
  | .writing _ t v => some (t, .pushing (some v))
  | .reading _ t _ => some (t, .popping)
  | _ => none

theorem ownedBy_of_ownerCall {p : Phase ι α} {u : ι} {c : FifoObject.Call (Option α)}
    (h : ownerCall? p = some (u, c)) : OwnedBy u p := by
  cases p with
  | free q | full q v => cases h
  | writing q t v | reading q t v => exact (Prod.mk.inj (Option.some.inj h)).1

/-- In the object, every call is in progress until its last step. -/
structure Called (cfg : Config) (s : State ι α) (r : TicketRing.State ι α)
    (a : FifoObject.State ι (Option α)) : Prop where
  outside : ∀ u c, (s.pc u).call? = some c → a.call u = c
  owner : ∀ i < cfg.cap, ∀ u c, ownerCall? (r.phase i) = some (u, c) → a.call u = c

/-- What the object holds while the queue runs. -/
structure Held (cfg : Config) (s : State ι α) (r : TicketRing.State ι α)
    (h : List (FifoOp α)) (m n : Nat) (a : FifoObject.State ι (Option α)) : Prop where
  counted : Counted cfg r m n
  called : Called cfg s r a
  queue : a.queue = elements h m n

/-- The object can answer a step of the queue and stay related to it. -/
def HeldAnswered [DecidableEq ι] (cfg : Config) (s' : State ι α) (es : List (Event ι α))
    (r' : TicketRing.State ι α) (h : List (FifoOp α))
    (a : FifoObject.State ι (Option α)) : Prop :=
  ∃ as a' m n, (FifoObject.object cfg.cap).exec a as = some (a', history es) ∧
    Held cfg s' r' h m n a'

section Answer

variable [DecidableEq ι] {cfg : Config} {s s' : State ι α} {es : List (Event ι α)}
variable {r r' : TicketRing.State ι α} {h fs : List (FifoOp α)} {pos : ι → Nat} {m n : Nat}
variable {t : ι} {pc' : Pc α} {a : FifoObject.State ι (Option α)}

/-- The thread `t` moves, and only its call may change. -/
theorem Called.outside_update {b : FifoObject.State ι (Option α)} (called : Called cfg s r a)
    (hpc : s'.pc = Function.update s.pc t pc') (ht : ∀ c, pc'.call? = some c → b.call t = c)
    (hother : ∀ u, u ≠ t → b.call u = a.call u) :
    ∀ u c, (s'.pc u).call? = some c → b.call u = c := by
  intro u c hc
  rw [hpc] at hc
  by_cases hut : u = t
  · subst hut
    rw [Function.update_self] at hc
    exact ht c hc
  · rw [Function.update_of_ne hut] at hc
    rw [hother u hut]
    exact called.outside u c hc

/-- A thread moves without a visible change of its call. -/
theorem Called.stay (called : Called cfg s r a) (hpc : s'.pc = Function.update s.pc t pc')
    (hc : ∀ c, pc'.call? = some c → a.call t = c) : Called cfg s' r a :=
  ⟨called.outside_update hpc hc fun _ _ => rfl, called.owner⟩

/-- A thread that owns no ticket moves, with its call. -/
theorem Called.move {c : FifoObject.Call (Option α)} (called : Called cfg s r a)
    (sim : Sim cfg s r pos) (hno : ¬ (s.pc t).owns)
    (hpc : s'.pc = Function.update s.pc t pc') (hc : pc'.call? = some c) :
    Called cfg s' r (a.setCall t c) := by
  refine ⟨called.outside_update hpc ?_ fun u hut => FifoObject.setCall_ne _ _ _ hut, ?_⟩
  · intro c' hc'
    rw [FifoObject.setCall_self]
    exact Option.some.inj (hc.symm.trans hc')
  · intro i hi u c' ho
    have hut : u ≠ t := by
      rintro rfl
      exact hno (sim.owns_of_ownedBy hi (ownedBy_of_ownerCall ho)).1
    rw [FifoObject.setCall_ne _ _ _ hut]
    exact called.owner i hi u c' ho

/-- A thread draws a ticket: its call stays in progress. -/
theorem Called.draw {q : Nat} {p : Phase ι α} (called : Called cfg s r a)
    (howner : ∀ u c, ownerCall? p = some (u, c) → a.call u = c)
    (hpc : s'.pc = Function.update s.pc t pc') (hno : pc'.call? = none)
    (hphase : r'.phase = (r.setPhase cfg.cap q p).phase) : Called cfg s' r' a := by
  refine ⟨(called.stay hpc fun c hc => by rw [hno] at hc; cases hc).outside, ?_⟩
  intro i hi u c ho
  rw [hphase] at ho
  rcases phase_setPhase rfl with heq | ⟨_, heq⟩
  · rw [← heq] at ho
    exact howner u c ho
  · rw [← heq] at ho
    exact called.owner i hi u c ho

/-- The owner of a cell completes its ticket and returns. -/
theorem Called.complete {q : Nat} {p : Phase ι α} (called : Called cfg s r a)
    (sim : Sim cfg s r pos) (inv : RingInv cfg.cap r h)
    (hown : OwnedBy t (r.phase (q % cfg.cap))) (hfree : ownerCall? p = none)
    (hpc : s'.pc = Function.update s.pc t .idle) :
    Called cfg s' (r.setPhase cfg.cap q p) (a.setCall t .idle) := by
  have hi := Nat.mod_lt q (cap_pos cfg)
  refine ⟨called.outside_update hpc ?_ fun u hut => FifoObject.setCall_ne _ _ _ hut, ?_⟩
  · intro c hc
    rw [FifoObject.setCall_self]
    exact Option.some.inj hc
  · intro i hi' u c ho
    by_cases heq : i = q % cfg.cap
    · subst heq
      rw [setPhase_self, hfree] at ho
      cases ho
    · rw [setPhase_ne _ _ _ _ heq] at ho
      -- the thread owns no other cell
      have hut : u ≠ t := by
        rintro rfl
        exact heq ((sim.ownedBy_cell inv hi' (ownedBy_of_ownerCall ho)).trans
          (sim.ownedBy_cell inv hi hown).symm)
      rw [FifoObject.setCall_ne _ _ _ hut]
      exact called.owner i hi' u c ho

omit [DecidableEq ι] in
/-- The elements may be replaced without a change of the calls. -/
theorem Called.congr {b : FifoObject.State ι (Option α)} (called : Called cfg s r a)
    (hcall : b.call = a.call) : Called cfg s r b := by
  constructor
  · rw [hcall]
    exact called.outside
  · rw [hcall]
    exact called.owner

theorem Held.answer_stay (held : Held cfg s r h m n a) (hhist : history es = [])
    (hc : ∀ c, pc'.call? = some c → a.call t = c)
    (hpc : s'.pc = Function.update s.pc t pc') : HeldAnswered cfg s' es r h a :=
  ⟨[], a, m, n, by rw [hhist]; rfl, held.counted, held.called.stay hpc hc, held.queue⟩

/-- A call starts. -/
theorem Held.answer_call {c : FifoObject.Call (Option α)} {act : FifoObject.Act ι (Option α)}
    (held : Held cfg s r h m n a) (sim : Sim cfg s r pos) (hno : ¬ (s.pc t).owns)
    (hpc : s'.pc = Function.update s.pc t pc') (hc : pc'.call? = some c)
    (hstep : FifoObject.step cfg.cap a act = some (a.setCall t c, history es)) :
    HeldAnswered cfg s' es r h a :=
  ⟨[act], _, m, n, (Machine.exec_single _ _).trans hstep, held.counted,
    held.called.move sim hno hpc hc, held.queue⟩

/-- The effect of a call is not seen by the others. -/
theorem call_effect (a : FifoObject.State ι (Option α)) (t : ι)
    (c d : FifoObject.Call (Option α)) (queue : List (Option α)) :
    (({ a.setCall t c with queue := queue } : FifoObject.State ι (Option α)).setCall t d).call =
      (a.setCall t d).call := by
  simp [FifoObject.State.setCall]

/-- A call takes effect and returns in one step of the queue. -/
theorem exec_effect {a₁ a₂ : FifoObject.State ι (Option α)}
    {os : List (FifoObject.Event ι (Option α))}
    (heffect : FifoObject.step cfg.cap a (.effect t) = some (a₁, []))
    (hrespond : FifoObject.step cfg.cap a₁ (.respond t) = some (a₂, os)) :
    (FifoObject.object cfg.cap).exec a [.effect t, .respond t] = some (a₂, os) := by
  have h₁ : (FifoObject.object cfg.cap).exec a [.effect t] = some (a₁, []) :=
    (Machine.exec_single _ _).trans heffect
  have h₂ : (FifoObject.object cfg.cap).exec a₁ [.respond t] = some (a₂, os) :=
    (Machine.exec_single _ _).trans hrespond
  exact Machine.exec_append h₁ h₂

theorem Held.answer_pushFull {v : α} {w : Word} (held : Held cfg s r h m n a)
    (alone : Alone s) (sim : Sim cfg s r pos) (inv : RingInv cfg.cap r h)
    (hpc : s.pc t = .pushSeq v w) (hd : diff (s.buffer (w &&& cfg.mask)).sequence w < 0) :
    HeldAnswered cfg (s.setPc t .idle) [.pushFailed t] r h a := by
  have hown : ¬ (s.pc t).owns := by simp [hpc, Pc.owns]
  have hin : (s.pc t).inPush = true := by rw [hpc]; rfl
  have hw := alone.pushPos t w (by rw [hpc]; rfl)
  have hmax := cap_le cfg
  obtain ⟨_, hcase⟩ := push_refused sim inv hpc
    (by rw [hw, BitVec.sub_self, capacity_toNat]; simpa using hmax) hd
  rw [hw] at hcase
  have hn := held.counted.full_queue inv sim
    (fun i hi => alone.no_writer sim hin hown hi) hcase
  have hlen : cfg.cap ≤ a.queue.length := by
    rw [held.queue, length_elements (by rw [inv.pushes]; exact held.counted.upper)]
    omega
  have hcall := held.called.outside t _ (by rw [hpc]; rfl)
  refine ⟨_, _, m, n, exec_effect (FifoObject.step_effect_full hcall hlen)
    (FifoObject.step_respond_push _ (FifoObject.setCall_self _ _ _)), held.counted, ?_, held.queue⟩
  rw [FifoObject.setCall_setCall]
  exact held.called.move sim hown rfl rfl

theorem Held.answer_popEmpty {w : Word} (held : Held cfg s r h m n a)
    (alone : Alone s) (sim : Sim cfg s r pos) (inv : RingInv cfg.cap r h)
    (hpc : s.pc t = .popSeq w)
    (hd : diff (s.buffer (w &&& cfg.mask)).sequence (w + 1) < 0) :
    HeldAnswered cfg (s.setPc t .idle) [.popFailed t] r h a := by
  have hown : ¬ (s.pc t).owns := by simp [hpc, Pc.owns]
  have hin : (s.pc t).inPop = true := by rw [hpc]; rfl
  have hw := alone.popPos t w (by rw [hpc]; rfl)
  have hmax := cap_le cfg
  obtain ⟨_, hcase⟩ := pop_refused sim inv hpc
    (by rw [hw, BitVec.sub_self, capacity_toNat]; simpa using hmax) hd
  rw [hw] at hcase
  have hn := held.counted.empty_queue inv sim
    (fun i hi => alone.no_reader sim hin hown hi) hcase
  have hempty : a.queue = [] := by
    rw [held.queue, ← List.length_eq_zero_iff,
      length_elements (by rw [inv.pushes]; exact held.counted.upper)]
    omega
  have hcall := held.called.outside t _ (by rw [hpc]; rfl)
  refine ⟨_, _, m, n, exec_effect (FifoObject.step_effect_empty _ hcall hempty)
    (FifoObject.step_respond_pop _ (FifoObject.setCall_self _ _ _)), held.counted, ?_, held.queue⟩
  rw [FifoObject.setCall_setCall]
  exact held.called.move sim hown rfl rfl

/-- A push takes effect at its release store. -/
theorem Held.answer_pushPublish {q : Nat} {v : α} (held : Held cfg s r h m n a)
    (sim : Sim cfg s r pos) (inv : RingInv cfg.cap r h)
    (hw : r.phase (q % cfg.cap) = .writing q t v)
    (hpc : s'.pc = Function.update s.pc t .idle) :
    HeldAnswered cfg s' [.pushReturned t (word q)] (r.setPhase cfg.cap q (.full q v)) h a := by
  have hi := Nat.mod_lt q (cap_pos cfg)
  obtain ⟨rfl, hcounted⟩ := held.counted.publish inv hw
  have hmn : m ≤ q := held.counted.lower.trans held.counted.middle
  have hlen : a.queue.length < cfg.cap := by
    have hroom := held.counted.room inv hw
    have hcap := cap_pos cfg
    rw [held.queue, length_elements (by rw [inv.pushes]; exact held.counted.upper)]
    omega
  have hval := inv.value _ hi v (by rw [hw]; rfl)
  rw [hw] at hval
  have hcall := held.called.owner _ hi t _ (by rw [hw]; rfl)
  refine ⟨_, _, m, q + 1, exec_effect (FifoObject.step_effect_push hcall hlen)
    (FifoObject.step_respond_push _ (FifoObject.setCall_self _ _ _)), hcounted, ?_, ?_⟩
  · have hdone := held.called.complete (t := t) sim inv (by rw [hw]; rfl)
      (p := .full q v) rfl hpc
    exact hdone.congr (call_effect ..)
  · rw [elements_push hmn hval, ← held.queue]
    rfl

/-- A pop takes effect at its release store. -/
theorem Held.answer_popPublish {q : Nat} {v : α} (held : Held cfg s r h m n a)
    (sim : Sim cfg s r pos) (inv : RingInv cfg.cap r h)
    (hr : r.phase (q % cfg.cap) = .reading q t v)
    (hpc : s'.pc = Function.update s.pc t .idle) :
    HeldAnswered cfg s' [.popReturned t (word q) (some v)]
      (r.setPhase cfg.cap q (.free (q + cfg.cap))) h a := by
  have hi := Nat.mod_lt q (cap_pos cfg)
  obtain ⟨rfl, hmn, hcounted⟩ := held.counted.release inv hr
  have hval := inv.value _ hi v (by rw [hr]; rfl)
  rw [hr] at hval
  have hqueue := held.queue.trans (elements_pop hmn hval)
  have hcall := held.called.owner _ hi t _ (by rw [hr]; rfl)
  refine ⟨_, _, q + 1, n, exec_effect (FifoObject.step_effect_pop hcall hqueue)
    (FifoObject.step_respond_pop _ (FifoObject.setCall_self _ _ _)), hcounted, ?_, rfl⟩
  have hdone := held.called.complete (t := t) sim inv (by rw [hr]; rfl)
    (p := .free (q + cfg.cap)) rfl hpc
  exact hdone.congr (call_effect ..)

/-- The object answers every step of clients that take turns. -/
theorem Held.answer (held : Held cfg s r h m n a) (alone : Alone s) (sim : Sim cfg s r pos)
    (inv : RingInv cfg.cap r h) (hmove : Move cfg s s' es)
    (hmatch : Matches cfg.cap r r' es fs) : HeldAnswered cfg s' es r' (h ++ fs) a := by
  have hsame : ∀ t (pc' : Pc α), (s.pc t).call? = pc'.call? → ∀ c, pc'.call? = some c →
      a.call t = c := by
    intro t pc' heq c hc
    exact held.called.outside t c (heq.trans hc)
  have hupper : n ≤ (enqueued h).length := by
    rw [inv.pushes]
    exact held.counted.upper
  have hmn : m ≤ n := held.counted.lower.trans held.counted.middle
  cases hmatch with
  | quiet hr hq =>
      subst hr
      rw [List.append_nil]
      cases hmove with
      | @pushCall t value hpc =>
          exact held.answer_call sim (by simp [hpc, Pc.owns]) rfl rfl
            (FifoObject.step_push (held.called.outside t _ (by rw [hpc]; rfl)))
      | @popCall t hpc =>
          exact held.answer_call sim (by simp [hpc, Pc.owns]) rfl rfl
            (FifoObject.step_pop (held.called.outside t _ (by rw [hpc]; rfl)))
      | pushFull hpc hd => exact held.answer_pushFull alone sim inv hpc hd
      | popEmpty hpc hd => exact held.answer_popEmpty alone sim inv hpc hd
      | pushLoad hpc | pushReady hpc | pushStale hpc | pushRetry hpc | popLoad hpc
      | popReady hpc | popStale hpc | popRetry hpc | sizeCall hpc | sizeEnq hpc
      | sizeDeq hpc =>
          exact held.answer_stay rfl (hsame _ _ (by rw [hpc]; rfl)) rfl
      | pushMove hpc | popMove hpc => exact held.answer_stay rfl (by simp [Pc.call?]) rfl
      | pushClaim | pushPublish | popClaim | popPublish =>
          exact (hq _ (List.mem_singleton_self _)).elim
  | push t v hfree hr =>
      subst hr
      cases hmove with
      | pushClaim hpc hcas =>
          have hcall := held.called.outside t _ (by rw [hpc]; rfl)
          have hno := fun i hi => alone.no_writer sim (t := t) (i := i) (by rw [hpc]; rfl)
            (by simp [hpc, Pc.owns]) hi
          refine ⟨[], a, m, n, rfl, held.counted.drawPush inv t v hfree hno,
            held.called.draw ?_ rfl rfl rfl, ?_⟩
          · intro u c heq
            cases heq
            exact hcall
          · rw [elements_append _ hmn hupper, held.queue]
  | pushed t q v hw hr =>
      subst hr
      rw [List.append_nil]
      generalize hword : word q = w at hmove
      cases hmove with
      | pushPublish hpc =>
          subst hword
          exact held.answer_pushPublish sim inv hw rfl
  | pop t v hfull hr =>
      subst hr
      generalize hword : word r.deq = w at hmove
      cases hmove with
      | popClaim hpc hcas =>
          subst hword
          have hcall := held.called.outside t _ (by rw [hpc]; rfl)
          have hno := fun i hi => alone.no_reader sim (t := t) (i := i) (by rw [hpc]; rfl)
            (by simp [hpc, Pc.owns]) hi
          refine ⟨[], a, m, n, rfl, held.counted.drawPop t v hfull hno,
            held.called.draw ?_ rfl rfl rfl, ?_⟩
          · intro u c heq
            cases heq
            exact hcall
          · rw [elements_append _ hmn hupper, held.queue]
  | popped t q v hw hr =>
      subst hr
      rw [List.append_nil]
      generalize hword : word q = w at hmove
      cases hmove with
      | popPublish hpc =>
          subst hword
          exact held.answer_popPublish sim inv hw rfl

end Answer

section Runs

variable [DecidableEq ι] [Fintype ι] {cfg : Config}

/-- The object has answered a run. -/
structure Turns (cfg : Config) (s : State ι α) (tr : List (Event ι α))
    (a : FifoObject.State ι (Option α))
    (hist : List (FifoObject.Event ι (Option α))) : Prop where
  history : hist = history tr
  state : ∃ r h pos m n, (TicketRing.ring cfg.cap).Reach r h ∧ Sim cfg s r pos ∧
    TraceOk cfg.cap tr r h ∧ Held cfg s r h m n a

omit [Fintype ι] in
theorem turns_init :
    Turns cfg (queue cfg : Machine (State ι α) _ _).init []
      (FifoObject.object cfg.cap).init [] where
  history := rfl
  state := by
    refine ⟨_, _, _, 0, 0, .init, sim_init, traceOk_init,
      ⟨⟨le_refl _, Nat.zero_le _, le_refl _, le_refl _, ?_, ?_, ?_, ?_⟩, ⟨?_, ?_⟩, rfl⟩⟩
    · intro hlt
      cases hlt
    · intro i _ q v hq
      cases hq
    · intro i _ q u v hq
      cases hq
    · intro i _ q u v hq
      cases hq
    · intro u c hc
      injection hc
    · intro i _ u c ho
      cases ho

/--
Between clients that take turns the queue is linearizable, failing calls
included, in runs of any length and however calls are delayed.
-/
theorem serial_linearizable (cfg : Config) {q : State ι α × Unit} {tr : List (Event ι α)}
    (hr : (serial cfg).Reach q tr) :
    FifoObject.Linearizable cfg.capacity.toNat (history tr) := by
  have hsim : ∃ a hist, (FifoObject.object cfg.cap).Reach a hist ∧ Turns cfg q.1 tr a hist := by
    refine Machine.simulation (R := fun q tr a hist => Turns cfg q.1 tr a hist)
      turns_init ?_ hr.reachWhen
    intro q tr a q' es b hist hr _ _ hturns hs
    obtain ⟨_, hs, _⟩ := Machine.guard_step_iff.mp hs
    obtain ⟨rfl, r, h, pos, m, n, hring, sim, ok, held⟩ := hturns
    have alone := alone_reach hr.reach
    have inv := TicketRing.ringInv_reach (cap_pos cfg) hring
    obtain ⟨as, r', fs, he, hm, ⟨pos', sim'⟩, ok'⟩ :=
      Refined.step hring sim ok (alone.unlapped a _ _ hs) hs
    obtain ⟨bs, b', m', n', hexec, held'⟩ := held.answer alone sim inv (step_move hs) hm
    refine ⟨bs, b', history es, hexec, by rw [history_append], ?_⟩
    exact ⟨r', h ++ fs, pos', m', n', hring.exec he, sim', ok', held'⟩
  obtain ⟨a, hist, hreach, hturns⟩ := hsim
  rw [capacity_toNat, ← hturns.history]
  exact ⟨a, hreach⟩

/-- The push is refused although the pop has its element: the pop takes effect later. -/
theorem serial_linearizable_stalledConsumer :
    ∃ (q : State Bool Nat × Unit) (tr : List (Event Bool Nat)),
      q.1.pc false = .popStore 0 (some 1) ∧ .popClaimed false 0 ∈ tr ∧ .pushFailed true ∈ tr ∧
        FifoObject.Linearizable twoSlots.capacity.toNat (history tr) := by
  obtain ⟨q, tr, hr, hp⟩ := Machine.exists_reach_of_exec (M := serial twoSlots) stalledConsumer
    (p := fun r => decide (r.1.1.pc false = .popStore 0 (some 1) ∧
      Event.popClaimed false 0 ∈ r.2 ∧ Event.pushFailed true ∈ r.2))
    (by decide)
  obtain ⟨hpc, hclaimed, hfailed⟩ := of_decide_eq_true hp
  exact ⟨q, tr, hpc, hclaimed, hfailed, serial_linearizable twoSlots hr⟩

end Runs

end LockFreeQueue
end AsyncTaskEngine
