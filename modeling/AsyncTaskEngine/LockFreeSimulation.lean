import AsyncTaskEngine.LockFreeQueue
import AsyncTaskEngine.TicketRing
import Mathlib.Tactic.Ring

/-!
# The lock-free queue refines the ticket ring

The words of `LockFreeQueue` are read as tickets modulo `2 ^ 64`.  A state of
the queue is related to a state of the ticket ring by `Sim`: the two positions
are the ticket counters, the sequence of slot `i` encodes the phase of cell
`i`, and the program counter of each thread says which ticket it owns.

Every thread in the loop of a call carries the ticket it has loaded into its
local `pos`, which may be stale.  A word identifies a ticket only among
`2 ^ 64` consecutive ones, so a step is matched as long as no claim brings a
counter round to a word that a call still holds in its `pos`; `NoLap` is that
side condition.
-/

namespace AsyncTaskEngine
namespace LockFreeQueue

open TicketRing (Phase PhaseOk RingInv ticket_gap setPhase_ne setPhase_self)

universe u v

/-- The word that represents a ticket. -/
def word (n : Nat) : Word :=
  BitVec.ofNat 64 n

/-- The capacity as a number. -/
def Config.cap (cfg : Config) : Nat :=
  2 ^ cfg.bits

section Words

theorem toNat_word (n : Nat) : (word n).toNat = n % 2 ^ 64 := by
  simp [word]

theorem toNat_word_of_lt {n : Nat} (h : n < 2 ^ 64) : (word n).toNat = n := by
  rw [toNat_word, Nat.mod_eq_of_lt h]

theorem word_toNat (w : Word) : word w.toNat = w := by
  simp [word]

theorem word_add (m n : Nat) : word m + word n = word (m + n) := by
  simp [word, BitVec.ofNat_add]

theorem word_succ (n : Nat) : word n + 1 = word (n + 1) :=
  word_add n 1

/-- A word identifies a ticket among `2 ^ 64` consecutive ones. -/
theorem word_inj {m n : Nat} (h : word m = word n)
    (h₁ : m < n + 2 ^ 64) (h₂ : n < m + 2 ^ 64) : m = n := by
  have hmod := congrArg BitVec.toNat h
  simp only [toNat_word] at hmod
  omega

theorem diff_eq_zero {seq pos : Word} : diff seq pos = 0 ↔ seq = pos := by
  rw [diff, ← BitVec.toInt_zero (w := 64), BitVec.toInt_inj]
  constructor
  · intro h
    have := BitVec.sub_add_cancel seq pos
    rw [h, BitVec.zero_add] at this
    exact this.symm
  · rintro rfl
    exact BitVec.sub_self _

variable (cfg : Config)

theorem two_le_cap : 2 ≤ cfg.cap := by
  rw [Config.cap, ← cfg.capacity_eq]
  exact cfg.capacity_bounds.1

theorem cap_pos : 0 < cfg.cap :=
  Nat.lt_of_lt_of_le (by omega) (two_le_cap cfg)

theorem cap_le : cfg.cap ≤ 2 ^ 63 := by
  rw [Config.cap, ← cfg.capacity_eq]
  exact cfg.capacity_bounds.2

theorem capacity_word : cfg.capacity = word cfg.cap := by
  apply BitVec.eq_of_toNat_eq
  have := cap_le cfg
  rw [cfg.capacity_eq, toNat_word_of_lt (by omega), Config.cap]

/-- Masking a position is reducing its ticket modulo the capacity. -/
theorem word_and_mask (n : Nat) : word n &&& cfg.mask = word (n % cfg.cap) := by
  apply BitVec.eq_of_toNat_eq
  have hcap := cap_le cfg
  have hlt := Nat.mod_lt n (cap_pos cfg)
  rw [cfg.toNat_and_mask, toNat_word, cfg.mod_mod_capacity, cfg.capacity_eq,
    toNat_word_of_lt (by omega), Config.cap]

/-- Distinct cells have distinct indices. -/
theorem word_cell_inj {i j : Nat} (hi : i < cfg.cap) (hj : j < cfg.cap)
    (h : word i = word j) : i = j := by
  have := cap_le cfg
  exact word_inj h (by omega) (by omega)

end Words

variable {ι : Type u} {α : Type v}

/-- The thread `t` holds the ticket that the cell is serving. -/
def OwnedBy (t : ι) : Phase ι α → Prop
  | .free _ => False
  | .writing _ t' _ => t' = t
  | .full _ _ => False
  | .reading _ t' _ => t' = t

/-- The program counter lies between a successful CAS and the release store. -/
def Pc.owns : Pc α → Prop
  | .pushData _ _ => True
  | .pushStore _ => True
  | .popData _ => True
  | .popStore _ _ => True
  | _ => False

/-- What a thread with local ticket `p` knows at its program counter. -/
def ThreadOk (cfg : Config) (buffer : Word → Slot α)
    (r : TicketRing.State ι α) (t : ι) (p : Nat) : Pc α → Prop
  | .pushSeq _ w => w = word p ∧ p ≤ r.enq ∧ r.enq < p + 2 ^ 64
  | .pushCas _ w =>
      w = word p ∧ p ≤ r.enq ∧ r.enq < p + 2 ^ 64 ∧
        (p = r.enq → r.phase (p % cfg.cap) = .free p)
  | .pushData v w => w = word p ∧ r.phase (p % cfg.cap) = .writing p t v
  | .pushStore w =>
      w = word p ∧ ∃ v, r.phase (p % cfg.cap) = .writing p t v ∧
        (buffer (word (p % cfg.cap))).data = some v
  | .popSeq w => w = word p ∧ p ≤ r.deq ∧ r.deq < p + 2 ^ 64
  | .popCas w =>
      w = word p ∧ p ≤ r.deq ∧ r.deq < p + 2 ^ 64 ∧
        (p = r.deq → ∃ v, r.phase (p % cfg.cap) = .full p v)
  | .popData w =>
      w = word p ∧ ∃ v, r.phase (p % cfg.cap) = .reading p t v ∧
        (buffer (word (p % cfg.cap))).data = some v
  | .popStore w result =>
      w = word p ∧ ∃ v, r.phase (p % cfg.cap) = .reading p t v ∧ result = some v
  | _ => True

/-- The counters have not turned since a thread loaded its local ticket. -/
def Near (r : TicketRing.State ι α) (p : Nat) : Pc α → Prop
  | .pushSeq _ _ => r.enq < p + 2 ^ 64
  | .pushCas _ _ => r.enq < p + 2 ^ 64
  | .popSeq _ => r.deq < p + 2 ^ 64
  | .popCas _ => r.deq < p + 2 ^ 64
  | _ => True

theorem ThreadOk.near {cfg : Config} {buffer : Word → Slot α}
    {r : TicketRing.State ι α} {t : ι} {p : Nat} {pc : Pc α}
    (ok : ThreadOk cfg buffer r t p pc) : Near r p pc := by
  cases pc with
  | pushSeq v w => exact ok.2.2
  | pushCas v w => exact ok.2.2.1
  | popSeq w => exact ok.2.2
  | popCas w => exact ok.2.2.1
  | _ => trivial

theorem Near.congr {r r' : TicketRing.State ι α} {p : Nat} {pc : Pc α}
    (hn : Near r p pc) (henq : r'.enq = r.enq) (hdeq : r'.deq = r.deq) :
    Near r' p pc := by
  cases pc <;> simp only [Near, henq, hdeq] at hn ⊢ <;> exact hn

/-- A local position lags behind by fewer than `b` tickets, a round included. -/
def LagLt (b : Nat) (cfg : Config) (r : TicketRing.State ι α) (p : Nat) :
    Pc α → Prop
  | .pushSeq _ _ => r.enq + cfg.cap < p + b
  | .pushCas _ _ => r.enq + cfg.cap < p + b
  | .popSeq _ => r.deq + cfg.cap < p + b
  | .popCas _ => r.deq + cfg.cap < p + b
  | _ => True

/-- The simulation relation; `pos` gives the ticket in each thread's local `pos`. -/
structure Sim (cfg : Config) (s : State ι α) (r : TicketRing.State ι α)
    (pos : ι → Nat) : Prop where
  enq : s.enqueuePos = word r.enq
  deq : s.dequeuePos = word r.deq
  slot : ∀ i < cfg.cap, (s.buffer (word i)).sequence = word (r.phase i).seq
  data : ∀ i < cfg.cap, ∀ q v, r.phase i = .full q v →
    (s.buffer (word i)).data = some v
  thread : ∀ t, ThreadOk cfg s.buffer r t (pos t) (s.pc t)
  writer : ∀ i < cfg.cap, ∀ q t v, r.phase i = .writing q t v →
    pos t = q ∧ (s.pc t = .pushData v (word q) ∨ s.pc t = .pushStore (word q))
  reader : ∀ i < cfg.cap, ∀ q t v, r.phase i = .reading q t v →
    pos t = q ∧ (s.pc t = .popData (word q) ∨
      ∃ res, s.pc t = .popStore (word q) res)

section Slots

variable {cfg : Config} {s : State ι α} {r : TicketRing.State ι α}
variable {pos : ι → Nat} {h : List (FifoOp α)}

/-- The sequence that is read for a ticket is that of the cell of the ticket. -/
theorem Sim.sequence_at (sim : Sim cfg s r pos) (n : Nat) :
    (s.buffer (word n &&& cfg.mask)).sequence = word (r.phase (n % cfg.cap)).seq := by
  rw [word_and_mask]
  exact sim.slot _ (Nat.mod_lt n (cap_pos cfg))

/-- An owner of a cell is between its CAS and its store. -/
theorem Sim.owns_of_ownedBy (sim : Sim cfg s r pos) {i : Nat} {t : ι}
    (hi : i < cfg.cap) (ho : OwnedBy t (r.phase i)) :
    (s.pc t).owns ∧ (r.phase i).ticket = pos t := by
  cases hp : r.phase i with
  | free q => simp [hp, OwnedBy] at ho
  | full q v => simp [hp, OwnedBy] at ho
  | writing q t' v =>
      rw [hp] at ho
      obtain rfl : t' = t := ho
      obtain ⟨hq, hpc⟩ := sim.writer i hi q t' v hp
      refine ⟨?_, hq.symm⟩
      rcases hpc with hpc | hpc <;> rw [hpc] <;> trivial
  | reading q t' v =>
      rw [hp] at ho
      obtain rfl : t' = t := ho
      obtain ⟨hq, hpc⟩ := sim.reader i hi q t' v hp
      refine ⟨?_, hq.symm⟩
      rcases hpc with hpc | ⟨res, hpc⟩ <;> rw [hpc] <;> trivial

/-- The only cell a thread can own is the one of its local ticket. -/
theorem Sim.ownedBy_cell (sim : Sim cfg s r pos) (inv : RingInv cfg.cap r h)
    {i : Nat} {t : ι} (hi : i < cfg.cap) (ho : OwnedBy t (r.phase i)) :
    i = pos t % cfg.cap := by
  have := (sim.owns_of_ownedBy hi ho).2
  rw [← this, inv.cell i hi]

/-- The ticket of a cell is at most a round away from either counter. -/
theorem ticket_near (inv : RingInv cfg.cap r h) {i : Nat} (hi : i < cfg.cap) :
    r.enq ≤ (r.phase i).ticket + cfg.cap ∧
      (r.phase i).ticket < r.deq + cfg.cap := by
  have hok := inv.phase i hi
  obtain ⟨h₁, h₂⟩ := inv.bounds
  cases hp : r.phase i with
  | free q => rw [hp] at hok; simp only [PhaseOk, Phase.ticket] at hok ⊢; omega
  | writing q t v => rw [hp] at hok; simp only [PhaseOk, Phase.ticket] at hok ⊢; omega
  | full q v => rw [hp] at hok; simp only [PhaseOk, Phase.ticket] at hok ⊢; omega
  | reading q t v => rw [hp] at hok; simp only [PhaseOk, Phase.ticket] at hok ⊢; omega

/-- The cell of a ticket that no pop has claimed serves that ticket or an earlier one. -/
theorem ticket_le (inv : RingInv cfg.cap r h) {n : Nat} (hn : r.deq ≤ n) :
    (r.phase (n % cfg.cap)).ticket ≤ n := by
  have hi := Nat.mod_lt n (cap_pos cfg)
  obtain ⟨_, hnear⟩ := ticket_near inv hi
  by_contra hgt
  have hgap := ticket_gap (inv.cell _ hi).symm (by omega)
  omega

theorem seq_cases (p : Phase ι α) : p.seq = p.ticket ∨ p.seq = p.ticket + 1 := by
  cases p <;> simp [Phase.seq, Phase.ticket]

/-- A cell whose sequence shows the next ticket `p` to be drawn serves `p` and has
not been written. -/
theorem ticket_of_seq_eq (inv : RingInv cfg.cap r h) {p : Nat}
    (hp : p = r.enq)
    (hseq : word (r.phase (p % cfg.cap)).seq = word p) :
    (r.phase (p % cfg.cap)).ticket = p ∧ (r.phase (p % cfg.cap)).seq = p := by
  have hi := Nat.mod_lt p (cap_pos cfg)
  have hcell := inv.cell _ hi
  have hnear := ticket_near inv hi
  have hcap := two_le_cap cfg
  have hcap' := cap_le cfg
  obtain ⟨hb, _⟩ := inv.bounds
  have heq : (r.phase (p % cfg.cap)).seq = p := by
    rcases seq_cases (r.phase (p % cfg.cap)) with hs | hs <;>
      exact word_inj hseq (by omega) (by omega)
  refine ⟨?_, heq⟩
  rcases seq_cases (r.phase (p % cfg.cap)) with hs | hs
  · omega
  · -- the ticket would be p - 1, which belongs to another cell
    have := ticket_gap hcell (by omega)
    omega

/-- A cell whose sequence shows `p + 1`, for the next ticket `p` to be taken, holds
the published value of `p`. -/
theorem ticket_of_seq_succ (inv : RingInv cfg.cap r h) {p : Nat}
    (hp : p = r.deq)
    (hseq : word (r.phase (p % cfg.cap)).seq = word (p + 1)) :
    (r.phase (p % cfg.cap)).ticket = p ∧ (r.phase (p % cfg.cap)).seq = p + 1 := by
  have hi := Nat.mod_lt p (cap_pos cfg)
  have hnear := ticket_near inv hi
  have hcap := two_le_cap cfg
  have hcap' := cap_le cfg
  obtain ⟨hb, hb'⟩ := inv.bounds
  have heq : (r.phase (p % cfg.cap)).seq = p + 1 := by
    rcases seq_cases (r.phase (p % cfg.cap)) with hs | hs <;>
      exact word_inj hseq (by omega) (by omega)
  refine ⟨?_, heq⟩
  rcases seq_cases (r.phase (p % cfg.cap)) with hs | hs
  · -- the ticket would be p + 1, ahead of the counter
    have hticket := ticket_le inv (Nat.le_of_eq hp.symm)
    omega
  · omega

end Slots

section Transport

variable {cfg : Config} {s s' : State ι α} {r r' : TicketRing.State ι α}
variable {pos : ι → Nat}

/-- A step on cell `c` moves a counter past the cell or leaves it in place. -/
structure CellStep (cfg : Config) (s s' : State ι α)
    (r r' : TicketRing.State ι α) (c : Nat) : Prop where
  other : ∀ i < cfg.cap, i ≠ c →
    r'.phase i = r.phase i ∧ s'.buffer (word i) = s.buffer (word i)
  push : r'.enq = r.enq ∧ (∀ q, r.phase c ≠ .free q) ∨ r'.enq = r.enq + 1
  pop : r'.deq = r.deq ∧ (∀ q v, r.phase c ≠ .full q v) ∨ r'.deq = r.deq + 1

/-- What a thread knows survives a step on a cell that it does not own. -/
theorem ThreadOk.transport {t : ι} {p c : Nat} {pc : Pc α}
    (ok : ThreadOk cfg s.buffer r t p pc)
    (hnear : Near r' p pc)
    (hstep : CellStep cfg s s' r r' c)
    (hmine : ¬ OwnedBy t (r.phase c)) :
    ThreadOk cfg s'.buffer r' t p pc := by
  have hi := Nat.mod_lt p (cap_pos cfg)
  have hpush := hstep.push
  have hpop := hstep.pop
  cases pc with
  | pushSeq v w =>
      obtain ⟨hw, hle, _⟩ := ok
      exact ⟨hw, by omega, hnear⟩
  | pushCas v w =>
      obtain ⟨hw, hle, _, hfree⟩ := ok
      refine ⟨hw, by omega, hnear, ?_⟩
      intro hp
      have hold := hfree (by omega)
      have hne : p % cfg.cap ≠ c := by
        rintro rfl
        rcases hpush with ⟨_, hnf⟩ | hlt
        · exact hnf _ hold
        · omega
      rw [(hstep.other _ hi hne).1]
      exact hold
  | pushData v w =>
      obtain ⟨hw, hphase⟩ := ok
      have hne : p % cfg.cap ≠ c := by
        rintro rfl
        exact hmine (by rw [hphase]; exact rfl)
      exact ⟨hw, by rw [(hstep.other _ hi hne).1]; exact hphase⟩
  | pushStore w =>
      obtain ⟨hw, v, hphase, hdata⟩ := ok
      have hne : p % cfg.cap ≠ c := by
        rintro rfl
        exact hmine (by rw [hphase]; exact rfl)
      obtain ⟨h₁, h₂⟩ := hstep.other _ hi hne
      exact ⟨hw, v, by rw [h₁]; exact hphase, by rw [h₂]; exact hdata⟩
  | popSeq w =>
      obtain ⟨hw, hle, _⟩ := ok
      exact ⟨hw, by omega, hnear⟩
  | popCas w =>
      obtain ⟨hw, hle, _, hfull⟩ := ok
      refine ⟨hw, by omega, hnear, ?_⟩
      intro hp
      obtain ⟨v, hold⟩ := hfull (by omega)
      have hne : p % cfg.cap ≠ c := by
        rintro rfl
        rcases hpop with ⟨_, hnf⟩ | hlt
        · exact hnf _ _ hold
        · omega
      rw [(hstep.other _ hi hne).1]
      exact ⟨v, hold⟩
  | popData w =>
      obtain ⟨hw, v, hphase, hdata⟩ := ok
      have hne : p % cfg.cap ≠ c := by
        rintro rfl
        exact hmine (by rw [hphase]; exact rfl)
      obtain ⟨h₁, h₂⟩ := hstep.other _ hi hne
      exact ⟨hw, v, by rw [h₁]; exact hphase, by rw [h₂]; exact hdata⟩
  | popStore w res =>
      obtain ⟨hw, v, hphase, hres⟩ := ok
      have hne : p % cfg.cap ≠ c := by
        rintro rfl
        exact hmine (by rw [hphase]; exact rfl)
      exact ⟨hw, v, by rw [(hstep.other _ hi hne).1]; exact hphase, hres⟩
  | _ => trivial

/-- The claims a thread makes on cells, as recorded by its ticket and counter. -/
def Claims (t : ι) (p : Nat) (pc : Pc α) : Phase ι α → Prop
  | .free _ => True
  | .writing q t' v =>
      t' = t ∧ p = q ∧ (pc = .pushData v (word q) ∨ pc = .pushStore (word q))
  | .full _ _ => True
  | .reading q t' _ =>
      t' = t ∧ p = q ∧ (pc = .popData (word q) ∨ ∃ res, pc = .popStore (word q) res)

variable [DecidableEq ι]

/--
The simulation relation after thread `t` has made a step on cell `c`: it is
enough to re-establish the facts about that cell and about that thread.
-/
theorem Sim.cell_step {t : ι} {c p' : Nat} {pc' : Pc α}
    (sim : Sim cfg s r pos)
    (hnear : ∀ u, Near r' (pos u) (s.pc u))
    (hstep : CellStep cfg s s' r r' c)
    (hpc : s'.pc = Function.update s.pc t pc')
    (henq : s'.enqueuePos = word r'.enq)
    (hdeq : s'.dequeuePos = word r'.deq)
    (hseq : (s'.buffer (word c)).sequence = word (r'.phase c).seq)
    (hdata : ∀ q v, r'.phase c = .full q v → (s'.buffer (word c)).data = some v)
    (hthread : ThreadOk cfg s'.buffer r' t p' pc')
    (hmine : ∀ u, u ≠ t → ¬ OwnedBy u (r.phase c))
    (hnone : ∀ i < cfg.cap, i ≠ c → ¬ OwnedBy t (r.phase i))
    (hnew : Claims t p' pc' (r'.phase c)) :
    Sim cfg s' r' (Function.update pos t p') := by
  refine ⟨henq, hdeq, ?_, ?_, ?_, ?_, ?_⟩
  · intro i hi
    by_cases hic : i = c
    · subst hic
      exact hseq
    · obtain ⟨h₁, h₂⟩ := hstep.other i hi hic
      rw [h₁, h₂]
      exact sim.slot i hi
  · intro i hi q v hfull
    by_cases hic : i = c
    · subst hic
      exact hdata q v hfull
    · obtain ⟨h₁, h₂⟩ := hstep.other i hi hic
      rw [h₁] at hfull
      rw [h₂]
      exact sim.data i hi q v hfull
  · intro u
    by_cases hut : u = t
    · subst hut
      rw [hpc]
      simpa using hthread
    · rw [hpc, Function.update_of_ne hut, Function.update_of_ne hut]
      exact (sim.thread u).transport (hnear u) hstep (hmine u hut)
  · intro i hi q u v hw
    by_cases hic : i = c
    · subst hic
      rw [hw] at hnew
      obtain ⟨rfl, hq, hcase⟩ := hnew
      rw [hpc]
      simpa [hq] using hcase
    · rw [(hstep.other i hi hic).1] at hw
      have hut : u ≠ t := by
        rintro rfl
        exact hnone i hi hic (by rw [hw]; exact rfl)
      rw [hpc, Function.update_of_ne hut, Function.update_of_ne hut]
      exact sim.writer i hi q u v hw
  · intro i hi q u v hw
    by_cases hic : i = c
    · subst hic
      rw [hw] at hnew
      obtain ⟨rfl, hq, hcase⟩ := hnew
      rw [hpc]
      simpa [hq] using hcase
    · rw [(hstep.other i hi hic).1] at hw
      have hut : u ≠ t := by
        rintro rfl
        exact hnone i hi hic (by rw [hw]; exact rfl)
      rw [hpc, Function.update_of_ne hut, Function.update_of_ne hut]
      exact sim.reader i hi q u v hw

/-- A step of the owner of a cell on the slot that it owns. -/
theorem Sim.owner_step {t : ι} {pc' : Pc α} {slot : Slot α}
    {h : List (FifoOp α)}
    (sim : Sim cfg s r pos) (inv : RingInv cfg.cap r h)
    (hown : OwnedBy t (r.phase (pos t % cfg.cap)))
    (hs' : s' = (s.setSlot (word (pos t % cfg.cap)) slot).setPc t pc')
    (henq : r'.enq = r.enq) (hdeq : r'.deq = r.deq)
    (hphase : ∀ i, i ≠ pos t % cfg.cap → r'.phase i = r.phase i)
    (hseq : slot.sequence = word (r'.phase (pos t % cfg.cap)).seq)
    (hdata : ∀ q v, r'.phase (pos t % cfg.cap) = .full q v → slot.data = some v)
    (hthread : ThreadOk cfg s'.buffer r' t (pos t) pc')
    (hnew : Claims t (pos t) pc' (r'.phase (pos t % cfg.cap))) :
    Sim cfg s' r' (Function.update pos t (pos t)) := by
  have hi := Nat.mod_lt (pos t) (cap_pos cfg)
  subst hs'
  refine sim.cell_step (c := pos t % cfg.cap)
    (fun u => (sim.thread u).near.congr henq hdeq)
    ⟨?_, .inl ⟨henq, ?_⟩, .inl ⟨hdeq, ?_⟩⟩
    rfl (by rw [henq]; exact sim.enq) (by rw [hdeq]; exact sim.deq)
    (by simpa using hseq) (by simpa using hdata) hthread ?_ ?_ hnew
  · intro i hi' hic
    refine ⟨hphase i hic, setSlot_ne _ _ _ ?_⟩
    intro heq
    exact hic (word_cell_inj cfg hi' hi heq)
  · intro q hq
    rw [hq] at hown
    exact hown
  · intro q v hq
    rw [hq] at hown
    exact hown
  · intro u hut ho
    cases hp : r.phase (pos t % cfg.cap) with
    | free q => rw [hp] at ho; exact ho
    | full q v => rw [hp] at ho; exact ho
    | writing q t' v => rw [hp] at ho hown; exact hut (ho.symm.trans hown)
    | reading q t' v => rw [hp] at ho hown; exact hut (ho.symm.trans hown)
  · intro i hi' hic ho
    exact hic (sim.ownedBy_cell inv hi' ho)

/-- A step that only moves a thread which owns no cell. -/
theorem Sim.setPc {t : ι} {p' : Nat} {pc' : Pc α} (sim : Sim cfg s r pos)
    (hno : ¬ (s.pc t).owns)
    (hthread : ThreadOk cfg s.buffer r t p' pc') :
    Sim cfg (s.setPc t pc') r (Function.update pos t p') := by
  have hother : ∀ i < cfg.cap, ∀ u, OwnedBy u (r.phase i) → u ≠ t := by
    rintro i hi u ho rfl
    exact hno (sim.owns_of_ownedBy hi ho).1
  refine ⟨sim.enq, sim.deq, sim.slot, sim.data, ?_, ?_, ?_⟩
  · intro u
    by_cases hut : u = t
    · subst hut
      simpa using hthread
    · rw [setPc_ne _ _ _ hut, Function.update_of_ne hut]
      exact sim.thread u
  · intro i hi q u v hw
    have hut := hother i hi u (by rw [hw]; exact rfl)
    rw [setPc_ne _ _ _ hut, Function.update_of_ne hut]
    exact sim.writer i hi q u v hw
  · intro i hi q u v hw
    have hut := hother i hi u (by rw [hw]; exact rfl)
    rw [setPc_ne _ _ _ hut, Function.update_of_ne hut]
    exact sim.reader i hi q u v hw

end Transport

section Moves

variable [DecidableEq ι]
variable {cfg : Config} {s s' : State ι α} {r : TicketRing.State ι α}
variable {pos : ι → Nat} {h : List (FifoOp α)} {es : List (Event ι α)}

/-- Events that neither claim a ticket nor complete one. -/
def Event.isQuiet : Event ι α → Prop
  | .pushClaimed _ _ _ => False
  | .pushReturned _ _ => False
  | .popClaimed _ _ => False
  | .popReturned _ _ _ => False
  | _ => True

/-- How the events of a step are answered by a step of the ticket ring. -/
inductive Matches (cap : Nat) (r r' : TicketRing.State ι α) :
    List (Event ι α) → List (FifoOp α) → Prop
  | quiet {es : List (Event ι α)} (hr : r' = r) (hq : ∀ e ∈ es, e.isQuiet) :
      Matches cap r r' es []
  | push (t : ι) (v : α)
      (hf : r.phase (r.enq % cap) = .free r.enq)
      (hr : r' = { r.setPhase cap r.enq (.writing r.enq t v) with
        enq := r.enq + 1 }) :
      Matches cap r r' [.pushClaimed t (word r.enq) v] [.enq v]
  | pushed (t : ι) (q : Nat) (v : α)
      (hw : r.phase (q % cap) = .writing q t v)
      (hr : r' = r.setPhase cap q (.full q v)) :
      Matches cap r r' [.pushReturned t (word q)] []
  | pop (t : ι) (v : α)
      (hf : r.phase (r.deq % cap) = .full r.deq v)
      (hr : r' = { r.setPhase cap r.deq (.reading r.deq t v) with
        deq := r.deq + 1 }) :
      Matches cap r r' [.popClaimed t (word r.deq)] [.deq v]
  | popped (t : ι) (q : Nat) (v : α)
      (hw : r.phase (q % cap) = .reading q t v)
      (hr : r' = r.setPhase cap q (.free (q + cap))) :
      Matches cap r r' [.popReturned t (word q) (some v)] []

/-- The local ticket of a thread that goes from `old` to `new`: it changes when
the thread loads its `pos`. -/
def Pc.ticketAfter (enq deq p : Nat) (old new : Pc α) : Nat :=
  match old, new with
  | .pushLoad _, .pushSeq _ _ => enq
  | .pushCas _ _, .pushSeq _ _ => enq
  | .popLoad, .popSeq _ => deq
  | .popCas _, .popSeq _ => deq
  | _, _ => p

theorem ticketAfter_self (enq deq p : Nat) (pc : Pc α) :
    Pc.ticketAfter enq deq p pc pc = p := by
  cases pc <;> rfl

/-- Only the thread that moves loads a ticket. -/
theorem ticketAfter_update {enq deq p' : Nat} {t : ι} {pc' : Pc α}
    (hpc : s'.pc = Function.update s.pc t pc')
    (hp : Pc.ticketAfter enq deq (pos t) (s.pc t) pc' = p') (u : ι) :
    Function.update pos t p' u = Pc.ticketAfter enq deq (pos u) (s.pc u) (s'.pc u) := by
  by_cases hut : u = t
  · subst hut
    rw [hpc, Function.update_self, Function.update_self, hp]
  · rw [hpc, Function.update_of_ne hut, Function.update_of_ne hut, ticketAfter_self]

/-- The ring can answer a step of the queue and stay related to it. -/
def Answered (cfg : Config) (s : State ι α) (r : TicketRing.State ι α) (pos : ι → Nat)
    (s' : State ι α) (es : List (Event ι α)) : Prop :=
  ∃ as r' fs, (TicketRing.ring cfg.cap).exec r as = some (r', fs) ∧
    Matches cfg.cap r r' es fs ∧
      ∃ pos', (∀ u, pos' u = Pc.ticketAfter r.enq r.deq (pos u) (s.pc u) (s'.pc u)) ∧
        Sim cfg s' r' pos'

/-- Moving a thread that owns no cell is answered by doing nothing. -/
theorem Sim.answer_setPc {t : ι} (p' : Nat) {pc' : Pc α} (sim : Sim cfg s r pos)
    (hp : Pc.ticketAfter r.enq r.deq (pos t) (s.pc t) pc' = p')
    (hno : ¬ (s.pc t).owns)
    (hthread : ThreadOk cfg s.buffer r t p' pc')
    (hq : ∀ e ∈ es, e.isQuiet) :
    Answered cfg s r pos (s.setPc t pc') es :=
  ⟨[], r, [], rfl, .quiet rfl hq, _, ticketAfter_update rfl hp, sim.setPc hno hthread⟩

/-- The local position of a thread in the loop of `try_push`. -/
def Pc.pushPos? : Pc α → Option Word
  | .pushSeq _ pos => some pos
  | .pushCas _ pos => some pos
  | _ => none

/-- The local position of a thread in the loop of `try_pop`. -/
def Pc.popPos? : Pc α → Option Word
  | .popSeq pos => some pos
  | .popCas pos => some pos
  | _ => none

/-- No claim brings its counter round to a position that a call still holds. -/
structure NoLap (s : State ι α) (es : List (Event ι α)) : Prop where
  push : ∀ t w v, .pushClaimed t w v ∈ es → ∀ u, (s.pc u).pushPos? ≠ some (w + 1)
  pop : ∀ t w, .popClaimed t w ∈ es → ∀ u, (s.pc u).popPos? ≠ some (w + 1)

omit [DecidableEq ι] in
/-- The counter of the pushes has not turned after a claim that overtakes no call. -/
theorem Sim.near_pushClaim (sim : Sim cfg s r pos) {phase : Nat → Phase ι α}
    (hlap : ∀ u, (s.pc u).pushPos? ≠ some (word r.enq + 1)) (u : ι) :
    Near { r with phase := phase, enq := r.enq + 1 } (pos u) (s.pc u) := by
  have hok := sim.thread u
  have hne := hlap u
  rw [word_succ] at hne
  have hturn : ∀ w, w = word (pos u) → r.enq < pos u + 2 ^ 64 →
      (s.pc u).pushPos? = some w → r.enq + 1 < pos u + 2 ^ 64 := by
    intro w hw hnear hpos
    by_contra hge
    have heq : r.enq + 1 = pos u + 2 ^ 64 := by omega
    refine hne ?_
    rw [hpos, hw, heq, ← word_add]
    simp [word]
  cases hpc : s.pc u with
  | pushSeq v w =>
      rw [hpc] at hok
      exact hturn w hok.1 hok.2.2 (by rw [hpc]; rfl)
  | pushCas v w =>
      rw [hpc] at hok
      exact hturn w hok.1 hok.2.2.1 (by rw [hpc]; rfl)
  | popSeq w => rw [hpc] at hok; exact hok.2.2
  | popCas w => rw [hpc] at hok; exact hok.2.2.1
  | _ => trivial

omit [DecidableEq ι] in
/-- The counter of the pops has not turned after a claim that overtakes no call. -/
theorem Sim.near_popClaim (sim : Sim cfg s r pos) {phase : Nat → Phase ι α}
    (hlap : ∀ u, (s.pc u).popPos? ≠ some (word r.deq + 1)) (u : ι) :
    Near { r with phase := phase, deq := r.deq + 1 } (pos u) (s.pc u) := by
  have hok := sim.thread u
  have hne := hlap u
  rw [word_succ] at hne
  have hturn : ∀ w, w = word (pos u) → r.deq < pos u + 2 ^ 64 →
      (s.pc u).popPos? = some w → r.deq + 1 < pos u + 2 ^ 64 := by
    intro w hw hnear hpos
    by_contra hge
    have heq : r.deq + 1 = pos u + 2 ^ 64 := by omega
    refine hne ?_
    rw [hpos, hw, heq, ← word_add]
    simp [word]
  cases hpc : s.pc u with
  | popSeq w =>
      rw [hpc] at hok
      exact hturn w hok.1 hok.2.2 (by rw [hpc]; rfl)
  | popCas w =>
      rw [hpc] at hok
      exact hturn w hok.1 hok.2.2.1 (by rw [hpc]; rfl)
  | pushSeq v w => rw [hpc] at hok; exact hok.2.2
  | pushCas v w => rw [hpc] at hok; exact hok.2.2.1
  | _ => trivial

theorem Sim.answer_pushClaim (sim : Sim cfg s r pos)
    {t : ι} {v : α} {w : Word} (hpc : s.pc t = .pushCas v w)
    (hcas : s.enqueuePos = w) (hlap : ∀ u, (s.pc u).pushPos? ≠ some (w + 1)) :
    Answered cfg s r pos { s.setPc t (.pushData v w) with enqueuePos := w + 1 }
      [.pushClaimed t w v] := by
  have hok := sim.thread t
  rw [hpc] at hok
  obtain ⟨rfl, hle, _, hfree⟩ := hok
  have hp : pos t = r.enq :=
    word_inj (hcas.symm.trans sim.enq) (by omega) (by omega)
  have hphase := hfree hp
  rw [hp] at hphase hlap ⊢
  have hi := Nat.mod_lt r.enq (cap_pos cfg)
  refine ⟨[.put t v], _, _,
    (Machine.exec_single _ _).trans (TicketRing.step_put t v hphase),
    .push t v hphase rfl, Function.update pos t r.enq,
    ticketAfter_update rfl (by rw [hpc]; exact hp), ?_⟩
  refine sim.cell_step (c := r.enq % cfg.cap) (sim.near_pushClaim hlap)
    ⟨?_, .inr rfl, .inl ⟨rfl, ?_⟩⟩ rfl (word_succ _) sim.deq ?_ ?_ ⟨rfl, ?_⟩ ?_ ?_ ?_
  · intro i _ hic
    exact ⟨setPhase_ne _ _ _ _ hic, rfl⟩
  · intro q v' hfull
    rw [hphase] at hfull
    cases hfull
  · have := sim.slot _ hi
    rw [hphase] at this
    simpa [Phase.seq] using this
  · intro q v' hfull
    simp at hfull
  · simp
  · intro u _ ho
    rw [hphase] at ho
    exact ho
  · intro i hi' _ ho
    have := (sim.owns_of_ownedBy hi' ho).1
    rw [hpc] at this
    exact this
  · simp [Claims]

theorem Sim.answer_pushMove (sim : Sim cfg s r pos) (inv : RingInv cfg.cap r h)
    {t : ι} {v : α} {w : Word} (hpc : s.pc t = .pushData v w) :
    Answered cfg s r pos
      ((s.setSlot (w &&& cfg.mask)
        { s.buffer (w &&& cfg.mask) with data := some v }).setPc t (.pushStore w))
      [] := by
  have hok := sim.thread t
  rw [hpc] at hok
  obtain ⟨rfl, hphase⟩ := hok
  have hi := Nat.mod_lt (pos t) (cap_pos cfg)
  rw [word_and_mask]
  refine ⟨[], r, [], rfl, .quiet rfl (by simp), _,
    ticketAfter_update rfl (by rw [hpc]; rfl),
    sim.owner_step inv (by rw [hphase]; exact rfl) rfl rfl rfl
      (fun _ _ => rfl) (sim.slot _ hi) ?_ ⟨rfl, v, hphase, by simp⟩ ?_⟩
  · intro q v' hq
    rw [hphase] at hq
    cases hq
  · rw [hphase]
    exact ⟨rfl, rfl, .inr rfl⟩

theorem Sim.answer_pushPublish (sim : Sim cfg s r pos) (inv : RingInv cfg.cap r h)
    {t : ι} {w : Word} (hpc : s.pc t = .pushStore w) :
    Answered cfg s r pos
      ((s.setSlot (w &&& cfg.mask)
        { s.buffer (w &&& cfg.mask) with sequence := w + 1 }).setPc t .idle)
      [.pushReturned t w] := by
  have hok := sim.thread t
  rw [hpc] at hok
  obtain ⟨rfl, v, hphase, hdata⟩ := hok
  rw [word_and_mask]
  refine ⟨[.publish (pos t)], _, _,
    (Machine.exec_single _ _).trans (TicketRing.step_publish hphase),
    .pushed t _ v hphase rfl, _,
    ticketAfter_update rfl (by rw [hpc]; rfl),
    sim.owner_step inv (by rw [hphase]; exact rfl) rfl rfl rfl
      (fun _ hic => setPhase_ne _ _ _ _ hic) ?_ ?_ trivial ?_⟩
  · rw [setPhase_self]
    exact word_succ _
  · intro q v' hq
    simp only [setPhase_self, Phase.full.injEq] at hq
    obtain ⟨_, rfl⟩ := hq
    exact hdata
  · simp [Claims]

theorem Sim.answer_popClaim (sim : Sim cfg s r pos)
    {t : ι} {w : Word} (hpc : s.pc t = .popCas w) (hcas : s.dequeuePos = w)
    (hlap : ∀ u, (s.pc u).popPos? ≠ some (w + 1)) :
    Answered cfg s r pos { s.setPc t (.popData w) with dequeuePos := w + 1 }
      [.popClaimed t w] := by
  have hok := sim.thread t
  rw [hpc] at hok
  obtain ⟨rfl, hle, _, hfull⟩ := hok
  have hp : pos t = r.deq :=
    word_inj (hcas.symm.trans sim.deq) (by omega) (by omega)
  obtain ⟨v, hphase⟩ := hfull hp
  rw [hp] at hphase hlap ⊢
  have hi := Nat.mod_lt r.deq (cap_pos cfg)
  refine ⟨[.take t], _, _,
    (Machine.exec_single _ _).trans (TicketRing.step_take t hphase),
    .pop t v hphase rfl, Function.update pos t r.deq,
    ticketAfter_update rfl (by rw [hpc]; exact hp), ?_⟩
  refine sim.cell_step (c := r.deq % cfg.cap) (sim.near_popClaim hlap)
    ⟨?_, .inl ⟨rfl, ?_⟩, .inr rfl⟩ rfl sim.enq (word_succ _) ?_ ?_ ⟨rfl, v, ?_, ?_⟩ ?_ ?_ ?_
  · intro i _ hic
    exact ⟨setPhase_ne _ _ _ _ hic, rfl⟩
  · intro q hq
    rw [hphase] at hq
    cases hq
  · have := sim.slot _ hi
    rw [hphase] at this
    simpa [Phase.seq] using this
  · intro q v' hq
    simp at hq
  · simp
  · exact sim.data _ hi _ _ hphase
  · intro u _ ho
    rw [hphase] at ho
    exact ho
  · intro i hi' _ ho
    have := (sim.owns_of_ownedBy hi' ho).1
    rw [hpc] at this
    exact this
  · simp [Claims]

theorem Sim.answer_popMove (sim : Sim cfg s r pos) (inv : RingInv cfg.cap r h)
    {t : ι} {w : Word} (hpc : s.pc t = .popData w) :
    Answered cfg s r pos
      ((s.setSlot (w &&& cfg.mask)
        { s.buffer (w &&& cfg.mask) with data := none }).setPc t
          (.popStore w (s.buffer (w &&& cfg.mask)).data))
      [] := by
  have hok := sim.thread t
  rw [hpc] at hok
  obtain ⟨rfl, v, hphase, hdata⟩ := hok
  have hi := Nat.mod_lt (pos t) (cap_pos cfg)
  rw [word_and_mask]
  refine ⟨[], r, [], rfl, .quiet rfl (by simp), _,
    ticketAfter_update rfl (by rw [hpc]; rfl),
    sim.owner_step inv (by rw [hphase]; exact rfl) rfl rfl rfl
      (fun _ _ => rfl) (sim.slot _ hi) ?_ ⟨rfl, v, hphase, hdata⟩ ?_⟩
  · intro q v' hq
    rw [hphase] at hq
    cases hq
  · rw [hphase]
    exact ⟨rfl, rfl, .inr ⟨_, rfl⟩⟩

theorem Sim.answer_popPublish (sim : Sim cfg s r pos) (inv : RingInv cfg.cap r h)
    {t : ι} {w : Word} {res : Option α} (hpc : s.pc t = .popStore w res) :
    Answered cfg s r pos
      ((s.setSlot (w &&& cfg.mask)
        { s.buffer (w &&& cfg.mask) with
          sequence := w + cfg.capacity }).setPc t .idle)
      [.popReturned t w res] := by
  have hok := sim.thread t
  rw [hpc] at hok
  obtain ⟨rfl, v, hphase, rfl⟩ := hok
  rw [word_and_mask]
  refine ⟨[.release (pos t)], _, _,
    (Machine.exec_single _ _).trans (TicketRing.step_release hphase),
    .popped t _ v hphase rfl, _,
    ticketAfter_update rfl (by rw [hpc]; rfl),
    sim.owner_step inv (by rw [hphase]; exact rfl) rfl rfl rfl
      (fun _ hic => setPhase_ne _ _ _ _ hic) ?_ ?_ trivial ?_⟩
  · rw [setPhase_self, capacity_word, word_add]
    rfl
  · intro q v' hq
    simp at hq
  · simp [Claims]

/-- Every step of the queue is answered by the ticket ring. -/
theorem Sim.answer (sim : Sim cfg s r pos) (inv : RingInv cfg.cap r h)
    (hlap : NoLap s es) (hm : Move cfg s s' es) : Answered cfg s r pos s' es := by
  cases hm with
  | pushCall value hpc =>
      exact sim.answer_setPc (pos _) (by rw [hpc]; rfl) (by simp [hpc, Pc.owns]) trivial
        (by simp [Event.isQuiet])
  | pushLoad hpc =>
      refine sim.answer_setPc r.enq (by rw [hpc]; rfl) (by simp [hpc, Pc.owns])
        ⟨sim.enq, le_refl _, ?_⟩ (by simp)
      exact Nat.lt_add_of_pos_right (Nat.two_pow_pos 64)
  | @pushReady t value w hpc hd =>
      have hok := sim.thread t
      rw [hpc] at hok
      obtain ⟨rfl, hle, hold⟩ := hok
      refine sim.answer_setPc (pos _) (by rw [hpc]; rfl) (by simp [hpc, Pc.owns])
        ⟨rfl, hle, hold, ?_⟩ (by simp)
      intro hp
      have hi := Nat.mod_lt (pos t) (cap_pos cfg)
      have hseq := diff_eq_zero.mp hd
      rw [sim.sequence_at] at hseq
      obtain ⟨htk, hsq⟩ := ticket_of_seq_eq inv hp hseq
      -- a cell that serves an undrawn ticket is free
      have hphase := inv.phase _ hi
      cases hcell : r.phase (pos t % cfg.cap) with
      | free q => rw [hcell] at htk; rw [← htk]; rfl
      | writing q t' v' =>
          rw [hcell] at htk hphase
          simp only [Phase.ticket, PhaseOk] at htk hphase
          omega
      | full q v' => rw [hcell] at htk hsq; simp only [Phase.ticket, Phase.seq] at htk hsq; omega
      | reading q t' v' =>
          rw [hcell] at htk hsq
          simp only [Phase.ticket, Phase.seq] at htk hsq
          omega
  | pushFull hpc hd =>
      exact sim.answer_setPc (pos _) (by rw [hpc]; rfl) (by simp [hpc, Pc.owns]) trivial
        (by simp [Event.isQuiet])
  | pushStale hpc hd =>
      exact sim.answer_setPc (pos _) (by rw [hpc]; rfl) (by simp [hpc, Pc.owns]) trivial (by simp)
  | pushRetry hpc =>
      refine sim.answer_setPc r.enq (by rw [hpc]; rfl) (by simp [hpc, Pc.owns])
        ⟨sim.enq, le_refl _, ?_⟩ (by simp)
      exact Nat.lt_add_of_pos_right (Nat.two_pow_pos 64)
  | pushClaim hpc hcas => exact
      sim.answer_pushClaim hpc hcas (hlap.push _ _ _ List.mem_cons_self)
  | pushMove hpc => exact sim.answer_pushMove inv hpc
  | pushPublish hpc => exact sim.answer_pushPublish inv hpc
  | popCall hpc =>
      exact sim.answer_setPc (pos _) (by rw [hpc]; rfl) (by simp [hpc, Pc.owns]) trivial
        (by simp [Event.isQuiet])
  | popLoad hpc =>
      refine sim.answer_setPc r.deq (by rw [hpc]; rfl) (by simp [hpc, Pc.owns])
        ⟨sim.deq, le_refl _, ?_⟩ (by simp)
      exact Nat.lt_add_of_pos_right (Nat.two_pow_pos 64)
  | @popReady t w hpc hd =>
      have hok := sim.thread t
      rw [hpc] at hok
      obtain ⟨rfl, hle, hold⟩ := hok
      refine sim.answer_setPc (pos _) (by rw [hpc]; rfl) (by simp [hpc, Pc.owns])
        ⟨rfl, hle, hold, ?_⟩ (by simp)
      intro hp
      have hi := Nat.mod_lt (pos t) (cap_pos cfg)
      have hseq := diff_eq_zero.mp hd
      rw [sim.sequence_at, word_succ] at hseq
      obtain ⟨htk, hsq⟩ := ticket_of_seq_succ inv hp hseq
      -- a published cell whose ticket has not been taken is full
      have hphase := inv.phase _ hi
      cases hcell : r.phase (pos t % cfg.cap) with
      | full q v' => rw [hcell] at htk; exact ⟨v', by rw [← htk]; rfl⟩
      | reading q t' v' =>
          rw [hcell] at htk hphase
          simp only [Phase.ticket, PhaseOk] at htk hphase
          omega
      | free q => rw [hcell] at htk hsq; simp only [Phase.ticket, Phase.seq] at htk hsq; omega
      | writing q t' v' =>
          rw [hcell] at htk hsq
          simp only [Phase.ticket, Phase.seq] at htk hsq
          omega
  | popEmpty hpc hd =>
      exact sim.answer_setPc (pos _) (by rw [hpc]; rfl) (by simp [hpc, Pc.owns]) trivial
        (by simp [Event.isQuiet])
  | popStale hpc hd =>
      exact sim.answer_setPc (pos _) (by rw [hpc]; rfl) (by simp [hpc, Pc.owns]) trivial (by simp)
  | popRetry hpc =>
      refine sim.answer_setPc r.deq (by rw [hpc]; rfl) (by simp [hpc, Pc.owns])
        ⟨sim.deq, le_refl _, ?_⟩ (by simp)
      exact Nat.lt_add_of_pos_right (Nat.two_pow_pos 64)
  | popClaim hpc hcas => exact
      sim.answer_popClaim hpc hcas (hlap.pop _ _ List.mem_cons_self)
  | popMove hpc => exact sim.answer_popMove inv hpc
  | popPublish hpc => exact sim.answer_popPublish inv hpc
  | sizeCall hpc =>
      exact sim.answer_setPc (pos _) (by rw [hpc]; rfl) (by simp [hpc, Pc.owns]) trivial (by simp)
  | sizeEnq hpc =>
      exact sim.answer_setPc (pos _) (by rw [hpc]; rfl) (by simp [hpc, Pc.owns]) trivial (by simp)
  | sizeDeq hpc =>
      exact sim.answer_setPc (pos _) (by rw [hpc]; rfl) (by simp [hpc, Pc.owns]) trivial
        (by simp [Event.isQuiet])

end Moves

end LockFreeQueue
end AsyncTaskEngine
