import AsyncTaskEngine.LockFreeSequential
import AsyncTaskEngine.LockFreeWeakMemory

/-!
# Race freedom and sequential consistency of the weak queue

The run of the weak machine is accompanied by one of `LockFreeQueue`, in which
a thread has not begun its call before its compare-exchange succeeds: at that
moment it makes the call, both loads and the exchange without a pause.  The
tickets of `LockFreeSimulation` number the stores of the weak memory.

A stale load can mislead a thread about a ticket that has been drawn, never
about the next one: a store of a slot's sequence that shows the next ticket is
the newest one, so that acquiring it brings the thread up to date about the
slot.  From its compare-exchange to its release store a thread is up to date
about the slot that it owns, which is what makes its accesses of `data` free of
races.
-/

namespace AsyncTaskEngine
namespace LockFreeQueue
namespace WeakMemory

open ReleaseAcquire (Memory Later UpToDate Newest Counts Bounded)
open TicketRing (Phase PhaseOk RingInv ticket_gap setPhase_ne setPhase_self)

universe u v

variable {ι : Type u} {α : Type v}

/-- Where a thread stands in the interleaved run: outside of the slots that it
owns, it has not begun. -/
def settled : Pc α → Pc α
  | .pushData v pos => .pushData v pos
  | .pushStore pos => .pushStore pos
  | .popData pos => .popData pos
  | .popStore pos res => .popStore pos res
  | _ => .idle

/-- The events of operations that succeed. -/
def succeeds : Event ι α → Bool
  | .pushClaimed _ _ _ => true
  | .pushReturned _ _ => true
  | .popClaimed _ _ => true
  | .popReturned _ _ _ => true
  | _ => false

/-- What the memory keeps about the slot of cell `i`, which is in phase `ph`. -/
structure CellOk (μ : Memory ι Loc Word Word) (i : Nat) (ph : Phase ι α) : Prop where
  /-- The newest store shows the phase, and vouches for all accesses between two owners. -/
  newest : ∃ ts m, Newest μ (.sequence (word i)) ts m ∧ m.value = word ph.seq ∧
    ((∀ t, ¬ OwnedBy t ph) → m.view.known (word i) = μ.accesses (word i))
  /-- The other stores show earlier phases. -/
  older : ∀ ts m, μ.store (.sequence (word i)) ts = some m →
    ∃ n ≤ ph.seq, m.value = word n ∧ (n = ph.seq → Newest μ (.sequence (word i)) ts m)

/-- What a thread knows at its program counter, `p` being its local ticket. -/
def Local (cfg : Config) (μ : Memory ι Loc Word Word) (r : TicketRing.State ι α)
    (t : ι) (p : Nat) : Pc α → Prop
  | .pushSeq _ w => w = word p ∧ p ≤ r.enq
  | .pushCas _ w =>
      w = word p ∧ p ≤ r.enq ∧
        (p = r.enq → r.phase (p % cfg.cap) = .free p ∧
          UpToDate μ t (.sequence (word (p % cfg.cap))) (word (p % cfg.cap)))
  | .popSeq w => w = word p ∧ p ≤ r.deq
  | .popCas w =>
      w = word p ∧ p ≤ r.deq ∧
        (p = r.deq → (∃ v, r.phase (p % cfg.cap) = .full p v) ∧
          UpToDate μ t (.sequence (word (p % cfg.cap))) (word (p % cfg.cap)))
  | .pushData _ w | .pushStore w | .popData w | .popStore w _ =>
      w = word p ∧ OwnedBy t (r.phase (p % cfg.cap)) ∧
        UpToDate μ t (.sequence (word (p % cfg.cap))) (word (p % cfg.cap))
  | _ => True

/-- The weak queue in state `w`, accompanied by the interleaved one in state `s`. -/
structure Ordered (cfg : Config) (w : State ι α) (s : LockFreeQueue.State ι α)
    (r : TicketRing.State ι α) (pos : ι → Nat) : Prop where
  sim : Sim cfg s r pos
  pc : ∀ t, s.pc t = settled (w.pc t)
  data : ∀ i, (s.buffer i).data = w.data i
  bounded : Bounded w.mem
  enq : Counts w.mem .enqueuePos word r.enq
  deq : Counts w.mem .dequeuePos word r.deq
  cell : ∀ i < cfg.cap, CellOk w.mem i (r.phase i)
  thread : ∀ t, ∃ p, Local cfg w.mem r t p (w.pc t)

section Tickets

variable {cfg : Config} {r : TicketRing.State ι α} {h : List (FifoOp α)}

/-- A cell whose sequence has reached the next ticket to be drawn is free for it. -/
theorem free_of_seq_ge (inv : RingInv cfg.cap r h)
    (hseq : r.enq ≤ (r.phase (r.enq % cfg.cap)).seq) :
    r.phase (r.enq % cfg.cap) = .free r.enq := by
  have hi := Nat.mod_lt r.enq (cap_pos cfg)
  have hcell := inv.cell _ hi
  have hphase := inv.phase _ hi
  have hcap := two_le_cap cfg
  obtain ⟨hle, _⟩ := inv.bounds
  have hticket := ticket_le inv hle
  -- an earlier ticket of the cell is a whole round earlier
  have heq : (r.phase (r.enq % cfg.cap)).ticket = r.enq := by
    rcases Nat.lt_or_ge (r.phase (r.enq % cfg.cap)).ticket r.enq with hlt | hge
    · have hgap := ticket_gap hcell hlt
      rcases seq_cases (r.phase (r.enq % cfg.cap)) with hs | hs <;> omega
    · omega
  cases hp : r.phase (r.enq % cfg.cap) with
  | free q => rw [hp] at heq; exact congrArg Phase.free heq
  | writing q t v => rw [hp] at heq hphase; simp only [PhaseOk, Phase.ticket] at heq hphase; omega
  | full q v => rw [hp] at heq hphase; simp only [PhaseOk, Phase.ticket] at heq hphase; omega
  | reading q t v => rw [hp] at heq hphase; simp only [PhaseOk, Phase.ticket] at heq hphase; omega

/-- A cell whose sequence is past the next ticket to be taken holds its value. -/
theorem full_of_seq_gt (inv : RingInv cfg.cap r h)
    (hseq : r.deq < (r.phase (r.deq % cfg.cap)).seq) :
    ∃ v, r.phase (r.deq % cfg.cap) = .full r.deq v := by
  have hi := Nat.mod_lt r.deq (cap_pos cfg)
  have hcell := inv.cell _ hi
  have hphase := inv.phase _ hi
  have hcap := two_le_cap cfg
  have hticket := ticket_le inv (Nat.le_refl r.deq)
  have heq : (r.phase (r.deq % cfg.cap)).ticket = r.deq := by
    rcases Nat.lt_or_ge (r.phase (r.deq % cfg.cap)).ticket r.deq with hlt | hge
    · have hgap := ticket_gap hcell hlt
      rcases seq_cases (r.phase (r.deq % cfg.cap)) with hs | hs <;> omega
    · omega
  cases hp : r.phase (r.deq % cfg.cap) with
  | full q v => rw [hp] at heq; exact ⟨v, by rw [← heq]; rfl⟩
  | free q => rw [hp] at heq hseq; simp only [Phase.seq, Phase.ticket] at heq hseq; omega
  | writing q t v => rw [hp] at heq hseq; simp only [Phase.seq, Phase.ticket] at heq hseq; omega
  | reading q t v => rw [hp] at heq hphase; simp only [PhaseOk, Phase.ticket] at heq hphase; omega

/-- The sequence of a cell is at most a round ahead of the counter. -/
theorem seq_le (inv : RingInv cfg.cap r h) {i : Nat} (hi : i < cfg.cap) :
    (r.phase i).seq ≤ r.enq + cfg.cap := by
  have hnear := (ticket_near inv hi).2
  have hle := inv.bounds.1
  rcases seq_cases (r.phase i) with hs | hs <;> omega

end Tickets

section Transport

variable {cfg : Config} {μ μ' : Memory ι Loc Word Word}
variable {r r' : TicketRing.State ι α} {as : Loc → Prop} {ds : Word → Prop}

/-- Nothing happens to cell `i` in a step. -/
structure Untouched (r r' : TicketRing.State ι α) (as : Loc → Prop) (ds : Word → Prop)
    (i : Nat) : Prop where
  phase : r'.phase i = r.phase i
  store : ¬ as (.sequence (word i))
  access : ¬ ds (word i)

/-- What a thread knows survives a step that leaves its cell alone. -/
theorem Local.transport {t : ι} {p : Nat} {pc : Pc α} (ok : Local cfg μ r t p pc)
    (hl : Later μ μ' as ds)
    (hown : ∀ i < cfg.cap, OwnedBy t (r.phase i) → Untouched r r' as ds i)
    (hpush : r'.enq = r.enq ∧
      (∀ i < cfg.cap, ∀ q, r.phase i = .free q → Untouched r r' as ds i) ∨ r'.enq = r.enq + 1)
    (hpop : r'.deq = r.deq ∧
      (∀ i < cfg.cap, ∀ q v, r.phase i = .full q v → Untouched r r' as ds i) ∨
        r'.deq = r.deq + 1) :
    Local cfg μ' r' t p pc := by
  have hi := Nat.mod_lt p (cap_pos cfg)
  have howner : OwnedBy t (r.phase (p % cfg.cap)) →
      UpToDate μ t (.sequence (word (p % cfg.cap))) (word (p % cfg.cap)) →
      OwnedBy t (r'.phase (p % cfg.cap)) ∧
        UpToDate μ' t (.sequence (word (p % cfg.cap))) (word (p % cfg.cap)) := by
    intro ho hup
    have hsame := hown _ hi ho
    exact ⟨by rw [hsame.phase]; exact ho, hup.later hl hsame.store hsame.access⟩
  cases pc with
  | pushSeq v w =>
      obtain ⟨hw, hle⟩ := ok
      exact ⟨hw, by omega⟩
  | popSeq w =>
      obtain ⟨hw, hle⟩ := ok
      exact ⟨hw, by omega⟩
  | pushCas v w =>
      obtain ⟨hw, hle, hfree⟩ := ok
      refine ⟨hw, by omega, ?_⟩
      intro hp
      rcases hpush with ⟨henq, hsame⟩ | hlt
      · obtain ⟨hphase, hup⟩ := hfree (by omega)
        have hsame := hsame _ hi _ hphase
        exact ⟨by rw [hsame.phase]; exact hphase, hup.later hl hsame.store hsame.access⟩
      · omega
  | popCas w =>
      obtain ⟨hw, hle, hfull⟩ := ok
      refine ⟨hw, by omega, ?_⟩
      intro hp
      rcases hpop with ⟨hdeq, hsame⟩ | hlt
      · obtain ⟨⟨v, hphase⟩, hup⟩ := hfull (by omega)
        have hsame := hsame _ hi _ _ hphase
        exact ⟨⟨v, by rw [hsame.phase]; exact hphase⟩,
          hup.later hl hsame.store hsame.access⟩
      · omega
  | pushData v w => exact ⟨ok.1, howner ok.2.1 ok.2.2⟩
  | pushStore w => exact ⟨ok.1, howner ok.2.1 ok.2.2⟩
  | popData w => exact ⟨ok.1, howner ok.2.1 ok.2.2⟩
  | popStore w res => exact ⟨ok.1, howner ok.2.1 ok.2.2⟩
  | _ => trivial

/-- A slot at which nothing has been stored or accessed. -/
theorem CellOk.later {i : Nat} {ph : Phase ι α} (ok : CellOk μ i ph)
    (hl : Later μ μ' as ds) (ha : ¬ as (.sequence (word i))) (hd : ¬ ds (word i)) :
    CellOk μ' i ph := by
  obtain ⟨ts, m, hn, hvalue, hvouch⟩ := ok.newest
  refine ⟨⟨ts, m, hn.later hl ha, hvalue, ?_⟩, ?_⟩
  · intro hfree
    rw [hl.accesses _ hd]
    exact hvouch hfree
  · intro ts' m' hm'
    rw [hl.store _ ha] at hm'
    obtain ⟨n, hle, hv, hlast⟩ := ok.older ts' m' hm'
    exact ⟨n, hle, hv, fun heq => (hlast heq).later hl ha⟩

/-- A slot that has been claimed, or accessed by its owner. -/
theorem CellOk.owned {i : Nat} {t : ι} {ph ph' : Phase ι α} (ok : CellOk μ i ph)
    (hl : Later μ μ' as ds) (ha : ¬ as (.sequence (word i)))
    (hseq : ph'.seq = ph.seq) (hown : OwnedBy t ph') : CellOk μ' i ph' := by
  obtain ⟨ts, m, hn, hvalue, _⟩ := ok.newest
  refine ⟨⟨ts, m, hn.later hl ha, by rw [hseq]; exact hvalue, ?_⟩, ?_⟩
  · intro hfree
    exact (hfree t hown).elim
  · intro ts' m' hm'
    rw [hl.store _ ha] at hm'
    obtain ⟨n, hle, hv, hlast⟩ := ok.older ts' m' hm'
    exact ⟨n, by omega, hv, fun heq => (hlast (by omega)).later hl ha⟩

/-- A slot whose owner has released it. -/
theorem CellOk.released [DecidableEq ι] {i : Nat} {t : ι} {ts : Nat} {value : Word}
    {ph ph' : Phase ι α} (ok : CellOk μ i ph) (hb : Bounded μ)
    (hup : UpToDate μ t (.sequence (word i)) (word i))
    (hmem : μ.storeRelease t (.sequence (word i)) ts value = some μ')
    (hvalue : value = word ph'.seq) (hseq : ph.seq < ph'.seq) : CellOk μ' i ph' := by
  obtain ⟨m, hm, hn, hvouch, hstore⟩ := hup.release hb hmem
  refine ⟨⟨ts, m, hn, by rw [hm, hvalue], fun _ => hvouch⟩, ?_⟩
  intro ts' m' hm'
  rw [hstore] at hm'
  by_cases hts : ts' = ts
  · subst hts
    rw [Function.update_self] at hm'
    obtain rfl := Option.some.inj hm'
    exact ⟨ph'.seq, Nat.le_refl _, by rw [hm, hvalue], fun _ => hn⟩
  · rw [Function.update_of_ne hts] at hm'
    obtain ⟨n, hle, hv, _⟩ := ok.older ts' m' hm'
    exact ⟨n, by omega, hv, fun heq => by omega⟩

end Transport

section Steps

variable [DecidableEq ι] {cfg : Config} {w : State ι α} {s s' : LockFreeQueue.State ι α}
variable {r r' : TicketRing.State ι α} {pos pos' : ι → Nat} {h : List (FifoOp α)}
variable {mem : Memory ι Loc Word Word} {t : ι} {pc' : Pc α}

/-- A step that looks at the memory outside of the slots that are owned. -/
theorem Ordered.look (ok : Ordered cfg w s r pos)
    (hl : Later w.mem mem (fun _ => False) (fun _ => False))
    (hold : settled (w.pc t) = .idle) (hnew : settled pc' = .idle)
    (hlocal : ∃ p, Local cfg mem r t p pc') :
    Ordered cfg (w.moved mem t pc') s r pos := by
  have hsame : ∀ i, Untouched r r (fun _ => False) (fun _ => False) i :=
    fun i => ⟨rfl, fun h => h, fun h => h⟩
  refine ⟨ok.sim, ?_, ok.data, hl.bounded, ok.enq.later hl fun h => h,
    ok.deq.later hl fun h => h, fun i hi => (ok.cell i hi).later hl (fun h => h) fun h => h, ?_⟩
  · intro u
    by_cases hut : u = t
    · subst hut
      rw [ok.pc, moved_self, hold, hnew]
    · rw [ok.pc, moved_ne _ _ _ _ hut]
  · intro u
    by_cases hut : u = t
    · subst hut
      rw [moved_self]
      exact hlocal
    · obtain ⟨p, hp⟩ := ok.thread u
      rw [moved_ne _ _ _ _ hut]
      exact ⟨p, hp.transport hl (fun i _ _ => hsame i) (.inl ⟨rfl, fun i _ _ _ => hsame i⟩)
        (.inl ⟨rfl, fun i _ _ _ _ => hsame i⟩)⟩

omit [DecidableEq ι] in
/-- What the other threads know when thread `t` has changed cell `c`. -/
theorem Ordered.others {c : Nat} {as : Loc → Prop} {ds : Word → Prop}
    (ok : Ordered cfg w s r pos) (hl : Later w.mem mem as ds)
    (hother : ∀ i < cfg.cap, i ≠ c → Untouched r r' as ds i)
    (hmine : ∀ u, u ≠ t → ¬ OwnedBy u (r.phase c))
    (hpush : r'.enq = r.enq ∧ (∀ q, r.phase c ≠ .free q) ∨ r'.enq = r.enq + 1)
    (hpop : r'.deq = r.deq ∧ (∀ q v, r.phase c ≠ .full q v) ∨ r'.deq = r.deq + 1)
    {u : ι} (hut : u ≠ t) : ∃ p, Local cfg mem r' u p (w.pc u) := by
  obtain ⟨p, hp⟩ := ok.thread u
  refine ⟨p, hp.transport hl ?_ ?_ ?_⟩
  · intro i hi ho
    refine hother i hi ?_
    rintro rfl
    exact hmine u hut ho
  · refine hpush.imp_left fun ⟨henq, hfree⟩ => ⟨henq, ?_⟩
    intro i hi q hq
    refine hother i hi ?_
    rintro rfl
    exact hfree q hq
  · refine hpop.imp_left fun ⟨hdeq, hfull⟩ => ⟨hdeq, ?_⟩
    intro i hi q v hq
    refine hother i hi ?_
    rintro rfl
    exact hfull q v hq

/-- Thread `t` claims cell `c` with its compare-exchange of a position. -/
theorem Ordered.claim {c : Nat} {as : Loc → Prop} (ok : Ordered cfg w s r pos)
    (sim' : Sim cfg s' r' pos') (hs : s'.pc = Function.update s.pc t pc')
    (hbuffer : s'.buffer = s.buffer) (hpc : settled pc' = pc')
    (hl : Later w.mem mem as (fun _ => False)) (has : ∀ i, ¬ as (.sequence i))
    (henq : Counts mem .enqueuePos word r'.enq) (hdeq : Counts mem .dequeuePos word r'.deq)
    (hother : ∀ i, i ≠ c → r'.phase i = r.phase i)
    (hmine : ∀ u, ¬ OwnedBy u (r.phase c)) (hown : OwnedBy t (r'.phase c))
    (hseq : (r'.phase c).seq = (r.phase c).seq)
    (hpush : r'.enq = r.enq ∧ (∀ q, r.phase c ≠ .free q) ∨ r'.enq = r.enq + 1)
    (hpop : r'.deq = r.deq ∧ (∀ q v, r.phase c ≠ .full q v) ∨ r'.deq = r.deq + 1)
    (hlocal : ∃ p, Local cfg mem r' t p pc') :
    Ordered cfg (w.moved mem t pc') s' r' pos' := by
  refine ⟨sim', ?_, ?_, hl.bounded, henq, hdeq, ?_, ?_⟩
  · intro u
    by_cases hut : u = t
    · subst hut
      rw [hs, Function.update_self, moved_self, hpc]
    · rw [hs, Function.update_of_ne hut, moved_ne _ _ _ _ hut, ok.pc]
  · rw [hbuffer]
    exact ok.data
  · intro i hi
    by_cases hic : i = c
    · subst hic
      exact (ok.cell i hi).owned hl (has _) hseq hown
    · rw [hother i hic]
      exact (ok.cell i hi).later hl (has _) fun h => h
  · intro u
    by_cases hut : u = t
    · subst hut
      rw [moved_self]
      exact hlocal
    · rw [moved_ne _ _ _ _ hut]
      exact ok.others hl (fun i _ hic => ⟨hother i hic, has _, fun h => h⟩)
        (fun u _ => hmine u) hpush hpop hut

omit [DecidableEq ι] in
/-- The owner of cell `c` is not another thread, and the cell waits for nobody. -/
theorem owned_alone {c : Nat} {ph : Nat → Phase ι α} (hown : OwnedBy t (ph c)) :
    (∀ u, u ≠ t → ¬ OwnedBy u (ph c)) ∧ (∀ q, ph c ≠ .free q) ∧ ∀ q v, ph c ≠ .full q v := by
  cases hp : ph c with
  | free q => rw [hp] at hown; exact hown.elim
  | full q v => rw [hp] at hown; exact hown.elim
  | writing q t' v =>
      rw [hp] at hown
      exact ⟨fun u hut ho => hut (ho.symm.trans hown), by simp, by simp⟩
  | reading q t' v =>
      rw [hp] at hown
      exact ⟨fun u hut ho => hut (ho.symm.trans hown), by simp, by simp⟩

/-- The owner of cell `c` accesses the `data` of the slot. -/
theorem Ordered.access {c p : Nat} {d : Option α} (ok : Ordered cfg w s r pos)
    (hc : c < cfg.cap) (hown : OwnedBy t (r.phase c))
    (sim' : Sim cfg ((s.setSlot (word c) { s.buffer (word c) with data := d }).setPc t pc')
      r pos') (hpc : settled pc' = pc')
    (hlocal : Local cfg (w.mem.access t (word c)) r t p pc') :
    Ordered cfg
      { w.moved (w.mem.access t (word c)) t pc' with
        data := Function.update w.data (word c) d }
      ((s.setSlot (word c) { s.buffer (word c) with data := d }).setPc t pc') r pos' := by
  have hl := ReleaseAcquire.later_access (t := t) (d := word c) ok.bounded
  obtain ⟨hmine, hfree, hfull⟩ := owned_alone hown
  refine ⟨sim', ?_, ?_, hl.bounded, ok.enq.later hl fun h => h, ok.deq.later hl fun h => h,
    ?_, ?_⟩
  · intro u
    by_cases hut : u = t
    · subst hut
      simp [State.moved, hpc]
    · rw [setPc_ne _ _ _ hut]
      simp [State.moved, hut, ok.pc]
  · intro i
    by_cases hi : i = word c
    · subst hi
      simp
    · rw [setPc_buffer, setSlot_ne _ _ _ hi, ok.data]
      simp [hi]
  · intro i hi
    by_cases hic : i = c
    · subst hic
      exact (ok.cell i hi).owned hl (fun h => h) rfl hown
    · exact (ok.cell i hi).later hl (fun h => h) fun heq => hic (word_cell_inj cfg hi hc heq)
  · intro u
    by_cases hut : u = t
    · subst hut
      exact ⟨p, by simpa [State.moved] using hlocal⟩
    · obtain ⟨q, hq⟩ := ok.others hl
        (fun i hi hic => ⟨rfl, fun h => h, fun heq => hic (word_cell_inj cfg hi hc heq)⟩)
        hmine (.inl ⟨rfl, hfree⟩) (.inl ⟨rfl, hfull⟩) hut
      exact ⟨q, by simpa [State.moved, hut] using hq⟩

/-- The owner of cell `c` stores the next sequence, and with it hands on the slot. -/
theorem Ordered.publish {c ts : Nat} {value : Word} (ok : Ordered cfg w s r pos)
    (hc : c < cfg.cap) (hown : OwnedBy t (r.phase c))
    (hup : UpToDate w.mem t (.sequence (word c)) (word c))
    (hmem : w.mem.storeRelease t (.sequence (word c)) ts value = some mem)
    (sim' : Sim cfg
      ((s.setSlot (word c) { s.buffer (word c) with sequence := value }).setPc t .idle)
      r' pos')
    (henq : r'.enq = r.enq) (hdeq : r'.deq = r.deq)
    (hother : ∀ i, i ≠ c → r'.phase i = r.phase i)
    (hvalue : value = word (r'.phase c).seq) (hseq : (r.phase c).seq < (r'.phase c).seq) :
    Ordered cfg (w.moved mem t .idle)
      ((s.setSlot (word c) { s.buffer (word c) with sequence := value }).setPc t .idle)
      r' pos' := by
  obtain ⟨hl, _⟩ := ReleaseAcquire.storeRelease_spec ok.bounded hmem
  obtain ⟨hmine, hfree, hfull⟩ := owned_alone hown
  have hloc : ∀ i < cfg.cap, i ≠ c → ¬ Loc.sequence (word i) = .sequence (word c) := by
    intro i hi hic heq
    exact hic (word_cell_inj cfg hi hc (Loc.sequence.inj heq))
  refine ⟨sim', ?_, ?_, hl.bounded, ?_, ?_, ?_, ?_⟩
  · intro u
    by_cases hut : u = t
    · subst hut
      simp [settled]
    · rw [setPc_ne _ _ _ hut, moved_ne _ _ _ _ hut, setSlot_pc, ok.pc]
  · intro i
    by_cases hi : i = word c
    · subst hi
      simp [ok.data]
    · rw [setPc_buffer, setSlot_ne _ _ _ hi, ok.data, moved_data]
  · rw [henq]
    exact ok.enq.later hl (by simp)
  · rw [hdeq]
    exact ok.deq.later hl (by simp)
  · intro i hi
    by_cases hic : i = c
    · subst hic
      exact (ok.cell i hi).released ok.bounded hup hmem hvalue hseq
    · rw [hother i hic]
      exact (ok.cell i hi).later hl (hloc i hi hic) fun h => h
  · intro u
    by_cases hut : u = t
    · subst hut
      rw [moved_self]
      exact ⟨0, trivial⟩
    · rw [moved_ne _ _ _ _ hut]
      exact ok.others hl (fun i hi hic => ⟨hother i hic, hloc i hi hic, fun h => h⟩)
        hmine (.inl ⟨henq, hfree⟩) (.inl ⟨hdeq, hfull⟩) hut

end Steps

section Following

variable [DecidableEq ι] {cfg : Config} {w w' : State ι α} {s : LockFreeQueue.State ι α}
variable {r : TicketRing.State ι α} {pos : ι → Nat} {h : List (FifoOp α)}
variable {es : List (Event ι α)}

/-- The interleaved queue and the ring follow a step of the weak queue. -/
def Followed (cfg : Config) (s : LockFreeQueue.State ι α) (r : TicketRing.State ι α)
    (w' : State ι α) (es : List (Event ι α)) : Prop :=
  ∃ as s' es' bs r' fs pos', (queue cfg).exec s as = some (s', es') ∧
    (TicketRing.ring cfg.cap).exec r bs = some (r', fs) ∧ Ordered cfg w' s' r' pos' ∧
      es'.filter succeeds = es.filter succeeds ∧ r'.enq = r.enq + (pushClaims es).length

/-- A step that only looks is followed by doing nothing. -/
theorem Ordered.followed_look {mem : Memory ι Loc Word Word} {t : ι} {pc' : Pc α}
    (ok : Ordered cfg w s r pos)
    (hl : Later w.mem mem (fun _ => False) (fun _ => False))
    (hold : settled (w.pc t) = .idle) (hnew : settled pc' = .idle)
    (hlocal : ∃ p, Local cfg mem r t p pc')
    (hes : es.filter succeeds = []) (hclaims : pushClaims es = []) :
    Followed cfg s r (w.moved mem t pc') es :=
  ⟨[], s, [], [], r, [], pos, rfl, rfl, ok.look hl hold hnew hlocal, hes.symm,
    by simp [hclaims]⟩

variable (cfg) in
/-- A push that makes its call, both loads and its exchange without a pause. -/
theorem exec_pushClaim {t : ι} (v : α) (hidle : s.pc t = .idle)
    (hseq : (s.buffer (s.enqueuePos &&& cfg.mask)).sequence = s.enqueuePos) :
    (queue cfg).exec s [.tryPush t v, .go t, .go t, .go t] =
      some ({ s.setPc t (.pushData v s.enqueuePos) with enqueuePos := s.enqueuePos + 1 },
        [.pushCalled t v, .pushClaimed t s.enqueuePos v]) := by
  simp [Machine.exec, queue, LockFreeQueue.step, LockFreeQueue.goStep, hidle,
    diff_eq_zero.mpr hseq]

variable (cfg) in
/-- A pop that makes its call, both loads and its exchange without a pause. -/
theorem exec_popClaim {t : ι} (hidle : s.pc t = .idle)
    (hseq : (s.buffer (s.dequeuePos &&& cfg.mask)).sequence = s.dequeuePos + 1) :
    (queue cfg).exec s [.tryPop t, .go t, .go t, .go t] =
      some ({ s.setPc t (.popData s.dequeuePos) with dequeuePos := s.dequeuePos + 1 },
        [.popCalled t, .popClaimed t s.dequeuePos]) := by
  have hd : diff (s.buffer (s.dequeuePos &&& cfg.mask)).sequence (s.dequeuePos + 1#64) = 0 :=
    diff_eq_zero.mpr hseq
  simp [Machine.exec, queue, LockFreeQueue.step, LockFreeQueue.goStep, hidle, hd]

omit [DecidableEq ι] in
/-- A thread that has not begun its loop holds no position. -/
theorem settled_pos? (pc : Pc α) :
    (settled pc).pushPos? = none ∧ (settled pc).popPos? = none := by
  cases pc <;> exact ⟨rfl, rfl⟩

/-- A word is not its own successor. -/
theorem succ_ne (x : Word) : some x ≠ some (x + 1) := by
  intro h
  have hx := Option.some.inj h
  rw [← word_toNat x, word_succ] at hx
  have := word_inj hx (by omega) (by omega)
  omega

variable (cfg) in
/-- Equal words belong to one cell. -/
theorem cell_of_word {p q : Nat} (hw : word p = word q) : p % cfg.cap = q % cfg.cap := by
  refine word_cell_inj cfg (Nat.mod_lt p (cap_pos cfg)) (Nat.mod_lt q (cap_pos cfg)) ?_
  rw [← word_and_mask, ← word_and_mask, hw]

/-- A store that shows the next ticket to be drawn is the newest of its slot. -/
theorem Ordered.push_ready {t : ι} {ts p : Nat} {value : α} {seq : Word}
    {mem : Memory ι Loc Word Word} (ok : Ordered cfg w s r pos) (inv : RingInv cfg.cap r h)
    (hb : r.enq < 2 ^ 63)
    (hmem : w.mem.loadAcquire t (.sequence (word p &&& cfg.mask)) ts = some (seq, mem))
    (hd : diff seq (word p) = 0) (hle : p ≤ r.enq) :
    Local cfg mem r t p (.pushCas value (word p)) := by
  refine ⟨rfl, hle, ?_⟩
  rintro rfl
  have hi := Nat.mod_lt r.enq (cap_pos cfg)
  rw [word_and_mask] at hmem
  obtain ⟨m, hm, hvalue, _⟩ := ReleaseAcquire.loadAcquire_spec ok.bounded hmem
  obtain ⟨n, hn, hword, hlast⟩ := (ok.cell _ hi).older ts m hm
  have hcap := cap_le cfg
  have hseq := seq_le inv hi
  obtain rfl : n = r.enq :=
    word_inj (hword.symm.trans (hvalue.trans (diff_eq_zero.mp hd))) (by omega) (by omega)
  have hfree := free_of_seq_ge inv hn
  have hnew := hlast (by rw [hfree]; rfl)
  obtain ⟨ts', m', hn', _, hvouch⟩ := (ok.cell _ hi).newest
  obtain ⟨rfl, rfl⟩ := hnew.unique hn'
  refine ⟨hfree, hnew.acquire ok.bounded (hvouch ?_) hmem⟩
  rw [hfree]
  exact fun _ ho => ho

/-- A store that is past the next ticket to be taken is the newest of its slot. -/
theorem Ordered.pop_ready {t : ι} {ts p : Nat} {seq : Word}
    {mem : Memory ι Loc Word Word} (ok : Ordered cfg w s r pos) (inv : RingInv cfg.cap r h)
    (hb : r.enq < 2 ^ 63)
    (hmem : w.mem.loadAcquire t (.sequence (word p &&& cfg.mask)) ts = some (seq, mem))
    (hd : diff seq (word p + 1) = 0) (hle : p ≤ r.deq) :
    Local cfg mem r t p (.popCas (word p)) := by
  refine ⟨rfl, hle, ?_⟩
  rintro rfl
  have hi := Nat.mod_lt r.deq (cap_pos cfg)
  rw [word_and_mask] at hmem
  obtain ⟨m, hm, hvalue, _⟩ := ReleaseAcquire.loadAcquire_spec ok.bounded hmem
  obtain ⟨n, hn, hword, hlast⟩ := (ok.cell _ hi).older ts m hm
  have hcap := cap_le cfg
  have hseq := seq_le inv hi
  obtain ⟨hbound, _⟩ := inv.bounds
  rw [word_succ] at hd
  obtain rfl : n = r.deq + 1 :=
    word_inj (hword.symm.trans (hvalue.trans (diff_eq_zero.mp hd))) (by omega) (by omega)
  obtain ⟨v, hfull⟩ := full_of_seq_gt inv hn
  have hnew := hlast (by rw [hfull]; rfl)
  obtain ⟨ts', m', hn', _, hvouch⟩ := (ok.cell _ hi).newest
  obtain ⟨rfl, rfl⟩ := hnew.unique hn'
  refine ⟨⟨v, hfull⟩, hnew.acquire ok.bounded (hvouch ?_) hmem⟩
  rw [hfull]
  exact fun _ ho => ho

/-- The exchange of `enqueue_pos_` that succeeds. -/
theorem Ordered.followed_pushClaim {t : ι} {ts : Nat} {value : α} {x : Word}
    {mem mem' : Memory ι Loc Word Word} (ok : Ordered cfg w s r pos) (hb : r.enq < 2 ^ 63)
    (hpc : w.pc t = .pushCas value x)
    (hread : w.mem.loadRelaxed t .enqueuePos ts = some (x, mem'))
    (hmem : w.mem.exchangeRelaxed t .enqueuePos ts (x + 1) = some mem) :
    Followed cfg s r (w.moved mem t (.pushData value x)) [.pushClaimed t x value] := by
  obtain ⟨⟨m, hm, hvalue⟩, _⟩ := ReleaseAcquire.loadRelaxed_spec ok.bounded hread
  obtain ⟨hle, hword⟩ := ok.enq.read hm
  obtain rfl : x = word ts := hvalue.symm.trans hword
  obtain ⟨rfl, henq⟩ := ok.enq.exchange ok.bounded hmem (word_succ ts)
  obtain ⟨hl, _⟩ := ReleaseAcquire.exchangeRelaxed_spec ok.bounded hmem
  obtain ⟨p, hp⟩ := ok.thread t
  rw [hpc] at hp
  obtain ⟨hpx, hpe, hready⟩ := hp
  obtain rfl : p = r.enq := word_inj hpx.symm (by omega) (by omega)
  obtain ⟨hfree, hup⟩ := hready rfl
  have hidle : s.pc t = .idle := by rw [ok.pc, hpc]; rfl
  have hexec := exec_pushClaim cfg value hidle
    (by rw [ok.sim.enq, ok.sim.sequence_at, hfree]; rfl)
  rw [ok.sim.enq] at hexec
  -- the interleaved thread is taken to its exchange, and the ring answers that
  have sim₁ : Sim cfg (s.setPc t (.pushCas value (word r.enq))) r
      (Function.update pos t r.enq) := by
    refine ok.sim.setPc ?_ ⟨rfl, Nat.le_refl _, by omega, fun _ => hfree⟩
    rw [hidle]
    exact fun h => h
  obtain ⟨bs, r', fs, he, hmatch, pos', _, sim'⟩ := sim₁.answer_pushClaim
    (t := t) (v := value) (w := word r.enq) (by simp) ok.sim.enq (by
      intro u
      by_cases hut : u = t
      · subst hut
        rw [setPc_self]
        exact succ_ne _
      · rw [setPc_ne _ _ _ hut, ok.pc, (settled_pos? _).1]
        simp)
  rw [setPc_setPc] at sim'
  cases hmatch with
  | quiet hr hq => exact (hq _ List.mem_cons_self).elim
  | push _ _ _ hr =>
      subst hr
      have hphase := setPhase_self r cfg.cap r.enq (.writing r.enq t value)
      refine ⟨_, _, _, bs, _, _, pos', hexec, he, ?_, rfl, rfl⟩
      refine ok.claim (c := r.enq % cfg.cap) sim' rfl rfl rfl hl (by simp) henq
        (ok.deq.later hl (by simp)) (fun i hi => setPhase_ne _ _ _ _ hi) ?_ ?_ ?_ (.inr rfl)
        (.inl ⟨rfl, ?_⟩) ⟨r.enq, rfl, ?_, hup.later hl (by simp) fun h => h⟩
      · intro u ho
        rw [hfree] at ho
        exact ho
      · rw [hphase]
        exact rfl
      · rw [hphase, hfree]
        rfl
      · rw [hfree]
        simp
      · rw [hphase]
        exact rfl

/-- The exchange of `dequeue_pos_` that succeeds. -/
theorem Ordered.followed_popClaim {t : ι} {ts : Nat} {x : Word}
    {mem mem' : Memory ι Loc Word Word} (ok : Ordered cfg w s r pos)
    (inv : RingInv cfg.cap r h) (hb : r.enq < 2 ^ 63) (hpc : w.pc t = .popCas x)
    (hread : w.mem.loadRelaxed t .dequeuePos ts = some (x, mem'))
    (hmem : w.mem.exchangeRelaxed t .dequeuePos ts (x + 1) = some mem) :
    Followed cfg s r (w.moved mem t (.popData x)) [.popClaimed t x] := by
  obtain ⟨⟨m, hm, hvalue⟩, _⟩ := ReleaseAcquire.loadRelaxed_spec ok.bounded hread
  obtain ⟨hle, hword⟩ := ok.deq.read hm
  obtain rfl : x = word ts := hvalue.symm.trans hword
  obtain ⟨rfl, hdeq⟩ := ok.deq.exchange ok.bounded hmem (word_succ ts)
  obtain ⟨hl, _⟩ := ReleaseAcquire.exchangeRelaxed_spec ok.bounded hmem
  obtain ⟨p, hp⟩ := ok.thread t
  rw [hpc] at hp
  obtain ⟨hpx, hpe, hready⟩ := hp
  obtain ⟨hbound, _⟩ := inv.bounds
  obtain rfl : p = r.deq := word_inj hpx.symm (by omega) (by omega)
  obtain ⟨⟨v, hfull⟩, hup⟩ := hready rfl
  have hidle : s.pc t = .idle := by rw [ok.pc, hpc]; rfl
  have hexec := exec_popClaim cfg hidle
    (by rw [ok.sim.deq, ok.sim.sequence_at, hfull, word_succ]; rfl)
  rw [ok.sim.deq] at hexec
  have sim₁ : Sim cfg (s.setPc t (.popCas (word r.deq))) r
      (Function.update pos t r.deq) := by
    refine ok.sim.setPc ?_ ⟨rfl, Nat.le_refl _, by omega, fun _ => ⟨v, hfull⟩⟩
    rw [hidle]
    exact fun h => h
  obtain ⟨bs, r', fs, he, hmatch, pos', _, sim'⟩ := sim₁.answer_popClaim
    (t := t) (w := word r.deq) (by simp) ok.sim.deq (by
      intro u
      by_cases hut : u = t
      · subst hut
        rw [setPc_self]
        exact succ_ne _
      · rw [setPc_ne _ _ _ hut, ok.pc, (settled_pos? _).2]
        simp)
  rw [setPc_setPc] at sim'
  cases hmatch with
  | quiet hr hq => exact (hq _ List.mem_cons_self).elim
  | pop _ v' _ hr =>
      subst hr
      have hphase := setPhase_self r cfg.cap r.deq (.reading r.deq t v')
      refine ⟨_, _, _, bs, _, _, pos', hexec, he, ?_, rfl, rfl⟩
      refine ok.claim (c := r.deq % cfg.cap) sim' rfl rfl rfl hl (by simp)
        (ok.enq.later hl (by simp)) hdeq (fun i hi => setPhase_ne _ _ _ _ hi) ?_ ?_ ?_
        (.inl ⟨rfl, ?_⟩) (.inr rfl) ⟨r.deq, rfl, ?_, hup.later hl (by simp) fun h => h⟩
      · intro u ho
        rw [hfull] at ho
        exact ho
      · rw [hphase]
        exact rfl
      · rw [hphase, hfull]
        rfl
      · rw [hfull]
        simp
      · rw [hphase]
        exact rfl

variable (cfg) in
theorem exec_go {t : ι} {q : LockFreeQueue.State ι α × List (Event ι α)}
    (hstep : LockFreeQueue.goStep cfg s t = some q) :
    (queue cfg).exec s [.go t] = some q :=
  (Machine.exec_single (M := queue cfg) s (.go t)).trans hstep

/-- The move of the argument into the slot. -/
theorem Ordered.followed_pushMove {t : ι} {value : α} {x : Word}
    (ok : Ordered cfg w s r pos) (inv : RingInv cfg.cap r h)
    (hpc : w.pc t = .pushData value x) :
    Followed cfg s r
      { w.moved (w.mem.access t (x &&& cfg.mask)) t (.pushStore x) with
        data := Function.update w.data (x &&& cfg.mask) (some value) } [] := by
  have hs : s.pc t = .pushData value x := by rw [ok.pc, hpc]; rfl
  have hexec := exec_go cfg (s := s) (t := t) (by rw [LockFreeQueue.goStep, hs])
  obtain ⟨p, hp⟩ := ok.thread t
  rw [hpc] at hp
  obtain ⟨rfl, hown, hup⟩ := hp
  obtain ⟨bs, r', fs, he, hmatch, pos', _, sim'⟩ := ok.sim.answer_pushMove inv hs
  cases hmatch with
  | quiet hr hq =>
      subst hr
      refine ⟨_, _, _, bs, _, _, pos', hexec, he, ?_, rfl, rfl⟩
      rw [word_and_mask] at sim' ⊢
      exact ok.access (p := p) (Nat.mod_lt p (cap_pos cfg)) hown sim' rfl
        ⟨rfl, hown, hup.access⟩

/-- The move of the element out of the slot. -/
theorem Ordered.followed_popMove {t : ι} {x : Word} (ok : Ordered cfg w s r pos)
    (inv : RingInv cfg.cap r h) (hpc : w.pc t = .popData x) :
    Followed cfg s r
      { w.moved (w.mem.access t (x &&& cfg.mask)) t
          (.popStore x (w.data (x &&& cfg.mask))) with
        data := Function.update w.data (x &&& cfg.mask) none } [] := by
  have hs : s.pc t = .popData x := by rw [ok.pc, hpc]; rfl
  have hexec := exec_go cfg (s := s) (t := t) (by rw [LockFreeQueue.goStep, hs])
  obtain ⟨p, hp⟩ := ok.thread t
  rw [hpc] at hp
  obtain ⟨rfl, hown, hup⟩ := hp
  obtain ⟨bs, r', fs, he, hmatch, pos', _, sim'⟩ := ok.sim.answer_popMove inv hs
  cases hmatch with
  | quiet hr hq =>
      subst hr
      refine ⟨_, _, _, bs, _, _, pos', hexec, he, ?_, rfl, rfl⟩
      rw [ok.data, word_and_mask] at sim'
      rw [word_and_mask, ok.data]
      exact ok.access (p := p) (Nat.mod_lt p (cap_pos cfg)) hown sim' rfl
        ⟨rfl, hown, hup.access⟩

/-- The release store of a push. -/
theorem Ordered.followed_pushPublish {t : ι} {ts : Nat} {x : Word}
    {mem : Memory ι Loc Word Word} (ok : Ordered cfg w s r pos) (inv : RingInv cfg.cap r h)
    (hpc : w.pc t = .pushStore x)
    (hmem : w.mem.storeRelease t (.sequence (x &&& cfg.mask)) ts (x + 1) = some mem) :
    Followed cfg s r (w.moved mem t .idle) [.pushReturned t x] := by
  have hs : s.pc t = .pushStore x := by rw [ok.pc, hpc]; rfl
  have hexec := exec_go cfg (s := s) (t := t) (by rw [LockFreeQueue.goStep, hs])
  obtain ⟨p, hp⟩ := ok.thread t
  rw [hpc] at hp
  obtain ⟨hw, hown, hup⟩ := hp
  obtain ⟨bs, r', fs, he, hmatch, pos', _, sim'⟩ := ok.sim.answer_pushPublish inv hs
  cases hmatch with
  | quiet hr hq => exact (hq _ List.mem_cons_self).elim
  | pushed _ q v hphase hr =>
      subst hr
      have hc := Nat.mod_lt q (cap_pos cfg)
      rw [← cell_of_word cfg hw] at hown hup
      refine ⟨_, _, _, bs, _, _, pos', hexec, he, ?_, rfl, rfl⟩
      rw [word_and_mask] at sim' hmem ⊢
      refine ok.publish hc hown hup hmem sim' rfl rfl
        (fun i hi => setPhase_ne _ _ _ _ hi) ?_ ?_
      · rw [setPhase_self, word_succ]
        rfl
      · rw [setPhase_self, hphase]
        exact Nat.lt_succ_self q

/-- The release store of a pop. -/
theorem Ordered.followed_popPublish {t : ι} {ts : Nat} {x : Word} {result : Option α}
    {mem : Memory ι Loc Word Word} (ok : Ordered cfg w s r pos) (inv : RingInv cfg.cap r h)
    (hpc : w.pc t = .popStore x result)
    (hmem : w.mem.storeRelease t (.sequence (x &&& cfg.mask)) ts (x + cfg.capacity) =
      some mem) :
    Followed cfg s r (w.moved mem t .idle) [.popReturned t x result] := by
  have hs : s.pc t = .popStore x result := by rw [ok.pc, hpc]; rfl
  have hexec := exec_go cfg (s := s) (t := t) (by rw [LockFreeQueue.goStep, hs])
  have hcap := two_le_cap cfg
  obtain ⟨p, hp⟩ := ok.thread t
  rw [hpc] at hp
  obtain ⟨hw, hown, hup⟩ := hp
  obtain ⟨bs, r', fs, he, hmatch, pos', _, sim'⟩ := ok.sim.answer_popPublish inv hs
  cases hmatch with
  | quiet hr hq => exact (hq _ List.mem_cons_self).elim
  | popped _ q v hphase hr =>
      subst hr
      have hc := Nat.mod_lt q (cap_pos cfg)
      rw [← cell_of_word cfg hw] at hown hup
      refine ⟨_, _, _, bs, _, _, pos', hexec, he, ?_, rfl, rfl⟩
      rw [word_and_mask] at sim' hmem ⊢
      refine ok.publish hc hown hup hmem sim' rfl rfl
        (fun i hi => setPhase_ne _ _ _ _ hi) ?_ ?_
      · rw [setPhase_self, capacity_word, word_add]
        rfl
      · rw [setPhase_self, hphase]
        show q + 1 < q + cfg.cap
        omega

/-- Every step of the weak queue is followed by the interleaved one. -/
theorem Ordered.followed (ok : Ordered cfg w s r pos) (inv : RingInv cfg.cap r h)
    (hb : r.enq < 2 ^ 63) (hm : Move cfg w w' es) : Followed cfg s r w' es := by
  have hstay : Later w.mem w.mem (fun _ => False) (fun _ => False) :=
    ⟨fun _ _ => Nat.le_refl _, fun _ _ => Nat.le_refl _, fun _ _ => rfl, fun _ _ => rfl,
      ok.bounded⟩
  cases hm with
  | pushCall value hpc =>
      exact ok.followed_look hstay (by rw [hpc]; rfl) rfl ⟨0, trivial⟩ rfl rfl
  | @pushLoad t ts value x mem hpc hmem =>
      obtain ⟨⟨m, hm, hvalue⟩, hl⟩ := ReleaseAcquire.loadRelaxed_spec ok.bounded hmem
      obtain ⟨hle, hword⟩ := ok.enq.read hm
      refine ok.followed_look hl ?_ rfl ⟨ts, hvalue.symm.trans hword, hle⟩ rfl rfl
      rcases hpc with hpc | ⟨p, hpc⟩ <;> rw [hpc] <;> rfl
  | @pushReady t ts value x seq mem hpc hmem hd =>
      obtain ⟨m, hm, _, hl, _⟩ := ReleaseAcquire.loadAcquire_spec ok.bounded hmem
      obtain ⟨p, hp⟩ := ok.thread t
      rw [hpc] at hp
      obtain ⟨rfl, hle⟩ := hp
      exact ok.followed_look hl (by rw [hpc]; rfl) rfl
        ⟨p, ok.push_ready inv hb hmem hd hle⟩ rfl rfl
  | pushFull hpc hmem =>
      obtain ⟨m, hm, _, hl, _⟩ := ReleaseAcquire.loadAcquire_spec ok.bounded hmem
      exact ok.followed_look hl (by rw [hpc]; rfl) rfl ⟨0, trivial⟩ rfl rfl
  | pushStale hpc hmem =>
      obtain ⟨m, hm, _, hl, _⟩ := ReleaseAcquire.loadAcquire_spec ok.bounded hmem
      exact ok.followed_look hl (by rw [hpc]; rfl) rfl ⟨0, trivial⟩ rfl rfl
  | pushClaim hpc hread hmem => exact ok.followed_pushClaim hb hpc hread hmem
  | pushMove hpc => exact ok.followed_pushMove inv hpc
  | pushPublish hpc hmem => exact ok.followed_pushPublish inv hpc hmem
  | popCall hpc =>
      exact ok.followed_look hstay (by rw [hpc]; rfl) rfl ⟨0, trivial⟩ rfl rfl
  | @popLoad t ts x mem hpc hmem =>
      obtain ⟨⟨m, hm, hvalue⟩, hl⟩ := ReleaseAcquire.loadRelaxed_spec ok.bounded hmem
      obtain ⟨hle, hword⟩ := ok.deq.read hm
      refine ok.followed_look hl ?_ rfl ⟨ts, hvalue.symm.trans hword, hle⟩ rfl rfl
      rcases hpc with hpc | ⟨p, hpc⟩ <;> rw [hpc] <;> rfl
  | @popReady t ts x seq mem hpc hmem hd =>
      obtain ⟨m, hm, _, hl, _⟩ := ReleaseAcquire.loadAcquire_spec ok.bounded hmem
      obtain ⟨p, hp⟩ := ok.thread t
      rw [hpc] at hp
      obtain ⟨rfl, hle⟩ := hp
      exact ok.followed_look hl (by rw [hpc]; rfl) rfl
        ⟨p, ok.pop_ready inv hb hmem hd hle⟩ rfl rfl
  | popEmpty hpc hmem =>
      obtain ⟨m, hm, _, hl, _⟩ := ReleaseAcquire.loadAcquire_spec ok.bounded hmem
      exact ok.followed_look hl (by rw [hpc]; rfl) rfl ⟨0, trivial⟩ rfl rfl
  | popStale hpc hmem =>
      obtain ⟨m, hm, _, hl, _⟩ := ReleaseAcquire.loadAcquire_spec ok.bounded hmem
      exact ok.followed_look hl (by rw [hpc]; rfl) rfl ⟨0, trivial⟩ rfl rfl
  | popClaim hpc hread hmem => exact ok.followed_popClaim inv hb hpc hread hmem
  | popMove hpc => exact ok.followed_popMove inv hpc
  | popPublish hpc hmem => exact ok.followed_popPublish inv hpc hmem
  | sizeCall hpc =>
      exact ok.followed_look hstay (by rw [hpc]; rfl) rfl ⟨0, trivial⟩ rfl rfl
  | sizeEnq hpc hmem =>
      obtain ⟨_, hl⟩ := ReleaseAcquire.loadRelaxed_spec ok.bounded hmem
      exact ok.followed_look hl (by rw [hpc]; rfl) rfl ⟨0, trivial⟩ rfl rfl
  | sizeDeq hpc hmem =>
      obtain ⟨_, hl⟩ := ReleaseAcquire.loadRelaxed_spec ok.bounded hmem
      exact ok.followed_look hl (by rw [hpc]; rfl) rfl ⟨0, trivial⟩ rfl rfl

end Following

section Runs

variable [DecidableEq ι] {cfg : Config} {w : State ι α} {tr : List (Event ι α)}

/-- The initial memory shows the initial ring. -/
theorem ordered_init :
    Ordered cfg (weakQueue cfg : Machine (State ι α) _ _).init
      (queue cfg : Machine (LockFreeQueue.State ι α) _ _).init
      (TicketRing.ring cfg.cap : Machine (TicketRing.State ι α) _ _).init (fun _ => 0) where
  sim := sim_init
  pc _ := rfl
  data _ := rfl
  bounded := ReleaseAcquire.bounded_initial _
  enq := ReleaseAcquire.counts_initial _ _ rfl
  deq := ReleaseAcquire.counts_initial _ _ rfl
  cell i _ := by
    have hn := ReleaseAcquire.newest_initial (ι := ι) (D := Word) Loc.constructed
      (.sequence (word i))
    refine ⟨⟨0, _, hn, rfl, fun _ => rfl⟩, ?_⟩
    intro ts m hm
    have hts : ts = 0 := by
      have := hn.last ts m hm
      omega
    subst hts
    obtain rfl := Option.some.inj (hn.store.symm.trans hm)
    exact ⟨i, Nat.le_refl _, rfl, fun _ => hn⟩
  thread _ := ⟨0, trivial⟩

/-- A pop that finds a stale sequence and reports an empty queue, and one that does not. -/
def staleEmpty : List (Act Bool Nat) :=
  [.tryPush true 7, .go true 0, .go true 0, .go true 0, .go true 0, .go true 1,
    .tryPop false, .go false 0, .go false 0, .tryPop false, .go false 0, .go false 1, .go false 0]

/-- A run of the weak queue, and the interleaved run that accompanies it. -/
structure Accompanied (cfg : Config) (w : State ι α) (tr : List (Event ι α))
    (s : LockFreeQueue.State ι α) (tr' : List (Event ι α)) (r : TicketRing.State ι α)
    (h : List (FifoOp α)) (pos : ι → Nat) : Prop where
  ordered : Ordered cfg w s r pos
  reach : (queue cfg).Reach s tr'
  ring : (TicketRing.ring cfg.cap).Reach r h
  same : tr'.filter succeeds = tr.filter succeeds
  count : (pushClaims tr).length = r.enq

/-- Every run of the weak queue is accompanied by an interleaved one. -/
theorem accompanied (hr : (weakQueue cfg).Reach w tr) (hb : (pushClaims tr).length < 2 ^ 63) :
    ∃ s tr' r h pos, Accompanied cfg w tr s tr' r h pos := by
  revert hb
  refine hr.invariant (P := fun w tr => (pushClaims tr).length < 2 ^ 63 →
    ∃ s tr' r h pos, Accompanied cfg w tr s tr' r h pos) ?_ ?_
  · intro _
    exact ⟨_, [], _, [], _, ordered_init, .init, .init, rfl, rfl⟩
  · intro w tr a w' es _ ih hs hb
    rw [pushClaims_append, List.length_append] at hb
    obtain ⟨s, tr', r, h, pos, acc⟩ := ih (by omega)
    have inv := TicketRing.ringInv_reach (cap_pos cfg) acc.ring
    obtain ⟨as, s', es', bs, r', fs, pos', hexec, hring, hord, hsame, henq⟩ :=
      acc.ordered.followed inv (by rw [← acc.count]; omega) (step_move hs)
    refine ⟨s', tr' ++ es', r', h ++ fs, pos', hord, acc.reach.exec hexec,
      acc.ring.exec hring, ?_, ?_⟩
    · rw [List.filter_append, List.filter_append, acc.same, hsame]
    · rw [pushClaims_append, List.length_append, acc.count, henq]

/-- The slot whose `data` a thread is about to access. -/
def accessed (cfg : Config) : Pc α → Option Word
  | .pushData _ pos => some (pos &&& cfg.mask)
  | .popData pos => some (pos &&& cfg.mask)
  | _ => none

/--
No access of a slot's `data` is a race: whoever is about to access it knows of
every access before, through acquire loads of release stores.
-/
theorem weak_race_free (cfg : Config) {w : State ι α} {tr : List (Event ι α)}
    (hr : (weakQueue cfg).Reach w tr) (hb : (pushClaims tr).length < 2 ^ 63)
    {t : ι} {i : Word} (hi : accessed cfg (w.pc t) = some i) : w.mem.RaceFree t i := by
  obtain ⟨s, tr', r, h, pos, acc⟩ := accompanied hr hb
  obtain ⟨p, hp⟩ := acc.ordered.thread t
  cases hpc : w.pc t with
  | pushData v x =>
      rw [hpc] at hi hp
      obtain ⟨rfl, _, hup⟩ := hp
      obtain rfl := Option.some.inj hi
      rw [word_and_mask]
      exact hup.accesses
  | popData x =>
      rw [hpc] at hi hp
      obtain ⟨rfl, _, hup⟩ := hp
      obtain rfl := Option.some.inj hi
      rw [word_and_mask]
      exact hup.accesses
  | _ => rw [hpc] at hi; cases hi

theorem weak_race_free_staleEmpty :
    ∃ (w : State Bool Nat) (tr : List (Event Bool Nat)),
      Event.popFailed false ∈ tr ∧ accessed twoSlots (w.pc false) = some 0 ∧
        w.mem.RaceFree false 0 := by
  obtain ⟨w, tr, hr, hp⟩ := Machine.exists_reach_of_exec (M := weakQueue twoSlots) staleEmpty
    (p := fun r => decide (Event.popFailed false ∈ r.2 ∧
      accessed twoSlots (r.1.pc false) = some 0 ∧ (pushClaims r.2).length < 2 ^ 63))
    (by decide +kernel)
  obtain ⟨hmem, hi, hb⟩ := of_decide_eq_true hp
  exact ⟨w, tr, hmem, hi, weak_race_free twoSlots hr hb hi⟩

/--
The interleaved run in state `s` with trace `tr'` has the successful operations
of the weak one, and ends in the same contents: the newest stores are the
values of its variables.
-/
structure Sequential (cfg : Config) (w : State ι α) (tr : List (Event ι α))
    (s : LockFreeQueue.State ι α) (tr' : List (Event ι α)) : Prop where
  reach : (queue cfg).Reach s tr'
  same : tr'.filter succeeds = tr.filter succeeds
  pc : ∀ t, s.pc t = settled (w.pc t)
  data : ∀ i, (s.buffer i).data = w.data i
  enqueuePos : ∃ ts m, Newest w.mem .enqueuePos ts m ∧ m.value = s.enqueuePos
  dequeuePos : ∃ ts m, Newest w.mem .dequeuePos ts m ∧ m.value = s.dequeuePos
  sequence : ∀ i, i.toNat < cfg.capacity.toNat →
    ∃ ts m, Newest w.mem (.sequence i) ts m ∧ m.value = (s.buffer i).sequence

theorem Accompanied.sequential {s : LockFreeQueue.State ι α} {tr' : List (Event ι α)}
    {r : TicketRing.State ι α} {h : List (FifoOp α)} {pos : ι → Nat}
    (acc : Accompanied cfg w tr s tr' r h pos) : Sequential cfg w tr s tr' := by
  have hord := acc.ordered
  obtain ⟨m, hm, hvalue⟩ := hord.enq.newest
  obtain ⟨m', hm', hvalue'⟩ := hord.deq.newest
  refine ⟨acc.reach, acc.same, hord.pc, hord.data, ⟨_, m, hm, hvalue.trans hord.sim.enq.symm⟩,
    ⟨_, m', hm', hvalue'.trans hord.sim.deq.symm⟩, ?_⟩
  intro i hi
  rw [cfg.capacity_eq] at hi
  obtain ⟨ts, m, hn, hvalue, _⟩ := (hord.cell _ hi).newest
  have hslot := hord.sim.slot _ hi
  rw [word_toNat] at hn hslot
  exact ⟨ts, m, hn, hvalue.trans hslot.symm⟩

/--
The memory orders of the source suffice for the operations that succeed: in
every run of fewer than `2 ^ 63` pushes they are those of a run in which the
accesses are interleaved.
-/
theorem weak_sequential (cfg : Config) {w : State ι α} {tr : List (Event ι α)}
    (hr : (weakQueue cfg).Reach w tr) (hb : (pushClaims tr).length < 2 ^ 63) :
    ∃ s tr', Sequential cfg w tr s tr' := by
  obtain ⟨s, tr', r, h, pos, acc⟩ := accompanied hr hb
  exact ⟨s, tr', acc.sequential⟩

theorem weak_sequential_staleEmpty :
    ∃ (w : State Bool Nat) (tr : List (Event Bool Nat)) (s : LockFreeQueue.State Bool Nat)
      (tr' : List (Event Bool Nat)), Event.popReturned false 0 (some 7) ∈ tr ∧
        Sequential twoSlots w tr s tr' := by
  obtain ⟨w, tr, hr, hp⟩ := Machine.exists_reach_of_exec (M := weakQueue twoSlots)
    (staleEmpty ++ [.go false 0, .go false 2])
    (p := fun r => decide (Event.popReturned false 0 (some 7) ∈ r.2 ∧
      (pushClaims r.2).length < 2 ^ 63))
    (by decide +kernel)
  obtain ⟨hmem, hb⟩ := of_decide_eq_true hp
  obtain ⟨s, tr', hseq⟩ := weak_sequential twoSlots hr hb
  exact ⟨w, tr, s, tr', hmem, hseq⟩

end Runs

end WeakMemory
end LockFreeQueue
end AsyncTaskEngine
