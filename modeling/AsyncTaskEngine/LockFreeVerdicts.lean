import AsyncTaskEngine.LockFreeFifo
import AsyncTaskEngine.FifoObject
import Mathlib.Data.Fintype.Defs
import Mathlib.Data.List.Perm.Subperm

/-!
# Failing verdicts of the lock-free queue

`try_push` and `try_pop` take the verdicts full and empty from the sequence of
one slot.  The verdict is wrong when the slot is held by a call that is stalled
between its compare-exchange and its release store, since elements behind the
slot may already have been pushed or popped.

The module says when the verdicts are right.  `push_verdict` and `pop_verdict`
list what a failing read can have seen; `Settled` is the condition on a step
that leaves only the right readings; and `settled_verdicts` shows that a run of
settled steps, failing calls included, is linearizable to the atomic bounded
FIFO object.
-/

namespace AsyncTaskEngine
namespace LockFreeQueue

open TicketRing (Phase PhaseOk RingInv ticket_gap setPhase_ne setPhase_self)

universe u v

variable {ι : Type u} {α : Type v}

/-- What an event is for a client of the atomic object. -/
def Event.observed? : Event ι α → Option (FifoObject.Event ι (Option α))
  | .pushCalled t v => some (.pushCalled t (some v))
  | .pushReturned t _ => some (.pushReturned t true)
  | .pushFailed t => some (.pushReturned t false)
  | .popCalled t => some (.popCalled t)
  | .popReturned t _ res => some (.popReturned t (some res))
  | .popFailed t => some (.popReturned t none)
  | _ => none

/-- The invocations and responses of a run. -/
def history (tr : List (Event ι α)) : List (FifoObject.Event ι (Option α)) :=
  tr.filterMap Event.observed?

@[simp] theorem history_append (tr es : List (Event ι α)) :
    history (tr ++ es) = history tr ++ history es :=
  List.filterMap_append

/-- Every element of a `try_push` that has returned has been claimed by a pop. -/
def EmptyMoment (tr : List (Event ι α)) : Prop :=
  (pushReturns tr).Subperm (popClaims tr)

/-- Exactly `capacity()` pushed elements have not been claimed by a pop. -/
def FullMoment (cfg : Config) (tr : List (Event ι α)) : Prop :=
  (pushClaims tr).length = (popClaims tr).length + cfg.capacity.toNat

/-- The verdicts of the failing calls of a run are those of a bounded queue. -/
structure Verdicts [DecidableEq ι] (cfg : Config) (tr : List (Event ι α)) : Prop where
  empty : ∀ pre post t, tr = pre ++ .popFailed t :: post →
    ∃ before after, pre = before ++ after ∧ .popCalled t ∉ after ∧
      EmptyMoment before
  full : ∀ pre post t, tr = pre ++ .pushFailed t :: post →
    ∃ before after, pre = before ++ after ∧ (∀ v, .pushCalled t v ∉ after) ∧
      FullMoment cfg before
  linearizable : FifoObject.Linearizable cfg.capacity.toNat (history tr)

/-- A `try_pop` is between its CAS and its release store on slot `i`. -/
def BeingPopped (cfg : Config) (s : State ι α) (i : Word) : Prop :=
  ∃ u pos, pos &&& cfg.mask = i ∧
    (s.pc u = .popData pos ∨ ∃ res, s.pc u = .popStore pos res)

/-- A `try_push` is between its CAS and its release store on slot `i`. -/
def BeingPushed (cfg : Config) (s : State ι α) (i : Word) : Prop :=
  ∃ u pos, pos &&& cfg.mask = i ∧
    ((∃ v, s.pc u = .pushData v pos) ∨ s.pc u = .pushStore pos)

/-- Some slot holds an element that is published and not claimed by a pop. -/
def HoldsElement (cfg : Config) (s : State ι α) : Prop :=
  ∃ k < (s.enqueuePos - s.dequeuePos).toNat,
    (s.buffer ((s.dequeuePos + word k) &&& cfg.mask)).sequence =
      s.dequeuePos + word k + 1

/-- The head element had been claimed by its push when some `try_push` failed. -/
def HeadCounted (tr : List (Event ι α)) : Prop :=
  ∃ pre post t, tr = pre ++ .pushFailed t :: post ∧
    (popClaims tr).length < (pushClaims pre).length

/-- How far the local position of a thread lags behind, a round included. -/
def lag (cfg : Config) (s : State ι α) : Pc α → Nat
  | .pushSeq _ pos => (s.enqueuePos - pos).toNat + cfg.capacity.toNat
  | .pushCas _ pos => (s.enqueuePos - pos).toNat + cfg.capacity.toNat
  | .popSeq pos => (s.dequeuePos - pos).toNat + cfg.capacity.toNat
  | .popCas pos => (s.dequeuePos - pos).toNat + cfg.capacity.toNat
  | _ => 0

/-- The slot a thread is about to inspect does not mislead it. -/
def SoundRead (cfg : Config) (s : State ι α) (tr : List (Event ι α)) :
    Pc α → Prop
  | .pushSeq _ pos =>
      (s.enqueuePos - pos).toNat + cfg.capacity.toNat ≤ 2 ^ 63 ∧
        (pos = s.enqueuePos → ¬ BeingPopped cfg s (pos &&& cfg.mask))
  | .popSeq pos =>
      (s.dequeuePos - pos).toNat + cfg.capacity.toNat ≤ 2 ^ 63 ∧
        (pos = s.dequeuePos → BeingPushed cfg s (pos &&& cfg.mask) →
          ¬ HoldsElement cfg s ∧ ¬ HeadCounted tr)
  | _ => True

/-- The condition on a step under which no failing verdict can be wrong. -/
structure Settled (cfg : Config) (s : State ι α) (tr : List (Event ι α))
    (a : Act ι α) : Prop where
  fresh : ∀ u, lag cfg s (s.pc u) < 2 ^ 64
  read : ∀ t, a = .go t → SoundRead cfg s tr (s.pc t)

section Failures

variable [DecidableEq ι] {cfg : Config} {s s' : State ι α} {a : Act ι α} {t : ι}
variable {es : List (Event ι α)}

/-- A full verdict is taken by the thread itself, on a negative difference. -/
theorem pushFailed_step (h : step cfg s a = some (s', es)) (he : .pushFailed t ∈ es) :
    a = .go t ∧ es = [.pushFailed t] ∧ ∃ value pos, s.pc t = .pushSeq value pos ∧
      diff (s.buffer (pos &&& cfg.mask)).sequence pos < 0 := by
  cases a with
  | go u =>
      simp only [step] at h
      unfold goStep at h
      grind
  | tryPush u value => simp only [step] at h; grind
  | tryPop u => simp only [step] at h; grind
  | sizeApprox u => simp only [step] at h; grind
  | spurious u => simp only [step] at h; grind

/-- An empty verdict is taken by the thread itself, on a negative difference. -/
theorem popFailed_step (h : step cfg s a = some (s', es)) (he : .popFailed t ∈ es) :
    a = .go t ∧ es = [.popFailed t] ∧ ∃ pos, s.pc t = .popSeq pos ∧
      diff (s.buffer (pos &&& cfg.mask)).sequence (pos + 1) < 0 := by
  cases a with
  | go u =>
      simp only [step] at h
      unfold goStep at h
      grind
  | tryPush u value => simp only [step] at h; grind
  | tryPop u => simp only [step] at h; grind
  | sizeApprox u => simp only [step] at h; grind
  | spurious u => simp only [step] at h; grind

end Failures

section Readings

variable {cfg : Config} {s : State ι α} {tr : List (Event ι α)}
variable {r : TicketRing.State ι α} {h : List (FifoOp α)} {pos : ι → Nat}

theorem capacity_toNat (cfg : Config) : cfg.capacity.toNat = cfg.cap :=
  cfg.capacity_eq

/-- Within a half-turn the wrapped difference is the difference of the tickets. -/
theorem diff_word {m n : Nat} (h₁ : m < n + 2 ^ 63) (h₂ : n ≤ m + 2 ^ 63) :
    diff (word m) (word n) = (m : Int) - n := by
  rw [diff, BitVec.toInt_sub, word, word, BitVec.toInt_ofNat', BitVec.toInt_ofNat',
    Int.bmod_sub_bmod, Int.sub_bmod_bmod]
  apply Int.bmod_eq_of_le <;> omega

/-- The wrapped distance of a word that lags by less than a full turn. -/
theorem toNat_word_sub {m n : Nat} (hle : m ≤ n) (hlt : n < m + 2 ^ 64) :
    (word n - word m).toNat = n - m := by
  obtain ⟨d, rfl⟩ := Nat.exists_eq_add_of_le hle
  rw [← word_add, BitVec.add_comm, BitVec.add_sub_cancel,
    toNat_word_of_lt (by omega)]
  omega

/-- The sequence of a cell is less than a round away from either counter. -/
theorem seq_near (inv : RingInv cfg.cap r h) {i : Nat} (hi : i < cfg.cap) :
    r.deq < (r.phase i).seq + cfg.cap ∧ (r.phase i).seq < r.enq + cfg.cap := by
  have hphase := inv.phase i hi
  have hbounds := inv.bounds
  have hcap := cap_pos cfg
  cases hcase : r.phase i with
  | free q => rw [hcase] at hphase; simp only [PhaseOk, Phase.seq] at hphase ⊢; omega
  | writing q t v => rw [hcase] at hphase; simp only [PhaseOk, Phase.seq] at hphase ⊢; omega
  | full q v => rw [hcase] at hphase; simp only [PhaseOk, Phase.seq] at hphase ⊢; omega
  | reading q t v => rw [hcase] at hphase; simp only [PhaseOk, Phase.seq] at hphase ⊢; omega

/-- The lag of the words is the lag of the tickets. -/
theorem freshRing_of_lag (sim : Sim cfg s r pos)
    (hfresh : ∀ u, lag cfg s (s.pc u) < 2 ^ 64) : FreshRing (2 ^ 64) cfg s r pos := by
  intro u
  have hok := sim.thread u
  have hlag := hfresh u
  have hcap := cap_pos cfg
  cases hpc : s.pc u with
  | pushSeq v w =>
      rw [hpc] at hok hlag
      obtain ⟨rfl, hle, hturn⟩ := hok
      simp only [lag, LagLt] at hlag ⊢
      rw [sim.enq, toNat_word_sub hle (by omega), capacity_toNat] at hlag
      omega
  | pushCas v w =>
      rw [hpc] at hok hlag
      obtain ⟨rfl, hle, hturn, _⟩ := hok
      simp only [lag, LagLt] at hlag ⊢
      rw [sim.enq, toNat_word_sub hle (by omega), capacity_toNat] at hlag
      omega
  | popSeq w =>
      rw [hpc] at hok hlag
      obtain ⟨rfl, hle, hturn⟩ := hok
      simp only [lag, LagLt] at hlag ⊢
      rw [sim.deq, toNat_word_sub hle (by omega), capacity_toNat] at hlag
      omega
  | popCas w =>
      rw [hpc] at hok hlag
      obtain ⟨rfl, hle, hturn, _⟩ := hok
      simp only [lag, LagLt] at hlag ⊢
      rw [sim.deq, toNat_word_sub hle (by omega), capacity_toNat] at hlag
      omega
  | _ => trivial

/-- The ticket a thread holds for its push, from its CAS to its release store. -/
def Pc.pushTicket? : Pc α → Option Word
  | .pushData _ pos => some pos
  | .pushStore pos => some pos
  | _ => none

/-- The ticket a thread holds for its pop. -/
def Pc.popTicket? : Pc α → Option Word
  | .popData pos => some pos
  | .popStore pos _ => some pos
  | _ => none

/-- What a `try_push` that takes the verdict full has seen. -/
theorem push_refused (sim : Sim cfg s r pos) (inv : RingInv cfg.cap r h) {t : ι}
    {v : α} {w : Word} (hpc : s.pc t = .pushSeq v w)
    (hlag : (s.enqueuePos - w).toNat + cfg.capacity.toNat ≤ 2 ^ 63)
    (hd : diff (s.buffer (w &&& cfg.mask)).sequence w < 0) :
    w = s.enqueuePos ∧ (r.enq = r.deq + cfg.cap ∨
      ∃ u, (s.pc u).popTicket? = some (w - cfg.capacity)) := by
  have hok := sim.thread t
  rw [hpc] at hok
  obtain ⟨rfl, hle, hturn⟩ := hok
  have hi := Nat.mod_lt (pos t) (cap_pos cfg)
  have hcell := inv.cell _ hi
  have hphase := inv.phase _ hi
  have hnear := ticket_near inv hi
  have hbounds := inv.bounds
  have hcap := cap_pos cfg
  have hmax := cap_le cfg
  rw [sim.enq, toNat_word_sub hle (by omega), capacity_toNat] at hlag
  rw [sim.sequence_at] at hd
  have hseq := seq_cases (r.phase (pos t % cfg.cap))
  have hahead := (seq_near inv hi).2
  rw [diff_word (by omega) (by omega)] at hd
  have hgap := ticket_gap hcell (by omega)
  have hp : pos t = r.enq := by omega
  refine ⟨by rw [sim.enq, hp], ?_⟩
  cases hcase : r.phase (pos t % cfg.cap) with
  | free q =>
      rw [hcase] at hphase hd
      simp only [PhaseOk, Phase.seq] at hphase hd
      omega
  | writing q u v' =>
      rw [hcase] at hphase hgap
      simp only [PhaseOk, Phase.ticket] at hphase hgap
      exact .inl (by omega)
  | full q v' =>
      rw [hcase] at hphase hgap
      simp only [PhaseOk, Phase.ticket] at hphase hgap
      exact .inl (by omega)
  | reading q u v' =>
      -- the pop of this slot's last round has not released it
      obtain ⟨_, hpc'⟩ := sim.reader _ hi q u v' hcase
      rw [hcase] at hphase hgap
      simp only [PhaseOk, Phase.ticket] at hphase hgap
      have hround : pos t = q + cfg.cap := by omega
      refine .inr ⟨u, ?_⟩
      rw [hround, ← word_add, ← capacity_word, BitVec.add_sub_cancel]
      rcases hpc' with hpc' | ⟨res, hpc'⟩ <;> rw [hpc'] <;> rfl

/-- Masking does not see a whole round. -/
theorem sub_capacity_and_mask (cfg : Config) (w : Word) :
    (w - cfg.capacity) &&& cfg.mask = w &&& cfg.mask := by
  have hw : word ((w - cfg.capacity).toNat + cfg.cap) = w := by
    rw [← word_add, word_toNat, ← capacity_word, BitVec.sub_add_cancel]
  calc (w - cfg.capacity) &&& cfg.mask
      = word (w - cfg.capacity).toNat &&& cfg.mask := by rw [word_toNat]
    _ = word ((w - cfg.capacity).toNat + cfg.cap) &&& cfg.mask := by
        rw [word_and_mask, word_and_mask, Nat.add_mod_right]
    _ = w &&& cfg.mask := by rw [hw]

theorem push_verdict (sim : Sim cfg s r pos) (inv : RingInv cfg.cap r h) {t : ι}
    {v : α} {w : Word} (hpc : s.pc t = .pushSeq v w)
    (hlag : (s.enqueuePos - w).toNat + cfg.capacity.toNat ≤ 2 ^ 63)
    (hd : diff (s.buffer (w &&& cfg.mask)).sequence w < 0) :
    w = s.enqueuePos ∧ (r.enq = r.deq + cfg.cap ∨
      BeingPopped cfg s (w &&& cfg.mask)) := by
  obtain ⟨hw, hfull | ⟨u, hu⟩⟩ := push_refused sim inv hpc hlag hd
  · exact ⟨hw, .inl hfull⟩
  · refine ⟨hw, .inr ⟨u, w - cfg.capacity, sub_capacity_and_mask cfg w, ?_⟩⟩
    cases hpc' : s.pc u with
    | popData p => rw [hpc'] at hu; exact .inl (by rw [Option.some.inj hu])
    | popStore p res => rw [hpc'] at hu; exact .inr ⟨res, by rw [Option.some.inj hu]⟩
    | _ => rw [hpc'] at hu; cases hu

/-- What a `try_pop` that takes the verdict empty has seen. -/
theorem pop_refused (sim : Sim cfg s r pos) (inv : RingInv cfg.cap r h) {t : ι}
    {w : Word} (hpc : s.pc t = .popSeq w)
    (hlag : (s.dequeuePos - w).toNat + cfg.capacity.toNat ≤ 2 ^ 63)
    (hd : diff (s.buffer (w &&& cfg.mask)).sequence (w + 1) < 0) :
    w = s.dequeuePos ∧ (r.deq = r.enq ∨ ∃ u, (s.pc u).pushTicket? = some w) := by
  have hok := sim.thread t
  rw [hpc] at hok
  obtain ⟨rfl, hle, hturn⟩ := hok
  have hi := Nat.mod_lt (pos t) (cap_pos cfg)
  have hcell := inv.cell _ hi
  have hphase := inv.phase _ hi
  have hbounds := inv.bounds
  have hcap := cap_pos cfg
  have hmax := cap_le cfg
  rw [sim.deq, toNat_word_sub hle (by omega), capacity_toNat] at hlag
  rw [sim.sequence_at, word_succ] at hd
  cases hcase : r.phase (pos t % cfg.cap) with
  | free q =>
      rw [hcase] at hphase hd
      simp only [PhaseOk, Phase.seq] at hphase hd
      rw [diff_word (by omega) (by omega)] at hd
      exact ⟨by rw [sim.deq]; congr 1; omega, .inl (by omega)⟩
  | writing q u v' =>
      obtain ⟨_, hpc'⟩ := sim.writer _ hi q u v' hcase
      rw [hcase] at hphase hd hcell
      simp only [PhaseOk, Phase.seq] at hphase hd
      rw [diff_word (by omega) (by omega)] at hd
      have hq : q = pos t := by omega
      refine ⟨by rw [sim.deq]; congr 1; omega, .inr ⟨u, ?_⟩⟩
      rw [← hq]
      rcases hpc' with hpc' | hpc' <;> rw [hpc'] <;> rfl
  | full q v' =>
      rw [hcase] at hphase hd
      simp only [PhaseOk, Phase.seq] at hphase hd
      rw [diff_word (by omega) (by omega)] at hd
      omega
  | reading q u v' =>
      rw [hcase] at hphase hd hcell
      simp only [PhaseOk, Phase.seq, Phase.ticket] at hphase hd hcell
      rw [diff_word (by omega) (by omega)] at hd
      have hgap := ticket_gap hcell (by omega)
      exact ⟨by rw [sim.deq]; congr 1; omega, .inl (by omega)⟩

theorem pop_verdict (sim : Sim cfg s r pos) (inv : RingInv cfg.cap r h) {t : ι}
    {w : Word} (hpc : s.pc t = .popSeq w)
    (hlag : (s.dequeuePos - w).toNat + cfg.capacity.toNat ≤ 2 ^ 63)
    (hd : diff (s.buffer (w &&& cfg.mask)).sequence (w + 1) < 0) :
    w = s.dequeuePos ∧ (r.deq = r.enq ∨ BeingPushed cfg s (w &&& cfg.mask)) := by
  obtain ⟨hw, hempty | ⟨u, hu⟩⟩ := pop_refused sim inv hpc hlag hd
  · exact ⟨hw, .inl hempty⟩
  · refine ⟨hw, .inr ⟨u, w, rfl, ?_⟩⟩
    cases hpc' : s.pc u with
    | pushData v p => rw [hpc'] at hu; exact .inl ⟨v, by rw [Option.some.inj hu]⟩
    | pushStore p => rw [hpc'] at hu; exact .inr (by rw [Option.some.inj hu])
    | _ => rw [hpc'] at hu; cases hu

/-- Without a published element no cell of the ring is full. -/
theorem no_full_cell (sim : Sim cfg s r pos) (inv : RingInv cfg.cap r h)
    (hno : ¬ HoldsElement cfg s) {i : Nat} (hi : i < cfg.cap) {q : Nat} {v : α} :
    r.phase i ≠ .full q v := by
  intro hfull
  have hphase := inv.phase i hi
  have hcell := inv.cell i hi
  have hbounds := inv.bounds
  have hmax := cap_le cfg
  have hseq := sim.slot i hi
  rw [hfull] at hphase hcell hseq
  simp only [PhaseOk, Phase.ticket, Phase.seq] at hphase hcell hseq
  refine hno ⟨q - r.deq, ?_, ?_⟩
  · rw [sim.enq, sim.deq, toNat_word_sub hbounds.1 (by omega)]
    omega
  · rw [sim.deq, word_add, Nat.add_sub_cancel' hphase.1, word_and_mask, hcell,
      hseq, word_succ]

/-- With no full cell every push that has returned has been claimed by a pop. -/
theorem emptyMoment_of_no_full (inv : RingInv cfg.cap r h)
    (ok : TraceOk cfg.cap tr r h)
    (hno : ∀ i < cfg.cap, ∀ q v, r.phase i ≠ .full q v) : EmptyMoment tr := by
  obtain ⟨qs, hqs, hnd, hall⟩ := ok.pushed
  have hsub : qs ⊆ List.range r.deq := by
    intro q hq
    obtain ⟨hlt, hpub⟩ := hall q hq
    rw [List.mem_range]
    by_contra hge
    have hi := Nat.mod_lt q (cap_pos cfg)
    obtain ⟨v, hf⟩ := hpub.full (cap_pos cfg) inv (Nat.le_of_not_lt hge) hlt
    exact hno _ hi _ _ hf
  obtain ⟨qs', hperm, hsublist⟩ := List.subperm_of_subset hnd hsub
  rw [EmptyMoment, hqs, ok.pops]
  exact ⟨qs'.map word, hperm.map word, hsublist.map word⟩

/-- When the counters meet no cell is full. -/
theorem no_full_of_counters (inv : RingInv cfg.cap r h) (heq : r.deq = r.enq)
    {i : Nat} (hi : i < cfg.cap) {q : Nat} {v : α} : r.phase i ≠ .full q v := by
  intro hfull
  have hphase := inv.phase i hi
  rw [hfull] at hphase
  simp only [PhaseOk] at hphase
  omega

theorem fullMoment_of_counters (inv : RingInv cfg.cap r h)
    (ok : TraceOk cfg.cap tr r h) (heq : r.enq = r.deq + cfg.cap) :
    FullMoment cfg tr := by
  rw [FullMoment, ok.enq_eq inv, ok.pops, List.length_map, List.length_range,
    capacity_toNat, heq]

end Readings

section Decidable

variable {cfg : Config} {s : State ι α} {tr : List (Event ι α)} {i : Word}

theorem beingPopped_iff :
    BeingPopped cfg s i ↔ ∃ u, (s.pc u).popTicket?.map (· &&& cfg.mask) = some i := by
  constructor
  · rintro ⟨u, pos, rfl, hpc | ⟨res, hpc⟩⟩ <;> exact ⟨u, by rw [hpc]; rfl⟩
  · rintro ⟨u, hu⟩
    refine ⟨u, ?_⟩
    cases hpc : s.pc u with
    | popData pos => exact ⟨pos, Option.some.inj (by rw [hpc] at hu; exact hu), .inl rfl⟩
    | popStore pos res =>
        exact ⟨pos, Option.some.inj (by rw [hpc] at hu; exact hu), .inr ⟨res, rfl⟩⟩
    | _ => rw [hpc] at hu; cases hu

theorem beingPushed_iff :
    BeingPushed cfg s i ↔ ∃ u, (s.pc u).pushTicket?.map (· &&& cfg.mask) = some i := by
  constructor
  · rintro ⟨u, pos, rfl, ⟨v, hpc⟩ | hpc⟩ <;> exact ⟨u, by rw [hpc]; rfl⟩
  · rintro ⟨u, hu⟩
    refine ⟨u, ?_⟩
    cases hpc : s.pc u with
    | pushData v pos =>
        exact ⟨pos, Option.some.inj (by rw [hpc] at hu; exact hu), .inl ⟨v, rfl⟩⟩
    | pushStore pos => exact ⟨pos, Option.some.inj (by rw [hpc] at hu; exact hu), .inr rfl⟩
    | _ => rw [hpc] at hu; cases hu

/-- A `try_push` that returns `false`. -/
def Event.isPushFailed : Event ι α → Bool
  | .pushFailed _ => true
  | _ => false

theorem headCounted_iff :
    HeadCounted tr ↔ ∃ n < tr.length, (tr[n]?).any Event.isPushFailed = true ∧
      (popClaims tr).length < (pushClaims (tr.take n)).length := by
  constructor
  · rintro ⟨pre, post, t, rfl, hlt⟩
    refine ⟨pre.length, by simp, ?_, ?_⟩
    · simp [Event.isPushFailed]
    · rwa [List.take_left]
  · rintro ⟨n, hn, hfail, hlt⟩
    rw [List.getElem?_eq_getElem hn] at hfail
    cases he : tr[n] with
    | pushFailed t =>
        refine ⟨tr.take n, tr.drop (n + 1), t, ?_, hlt⟩
        rw [← he, List.getElem_cons_drop, List.take_append_drop]
    | _ => rw [he] at hfail; cases hfail

instance [Fintype ι] : Decidable (BeingPopped cfg s i) :=
  decidable_of_iff _ beingPopped_iff.symm

instance [Fintype ι] : Decidable (BeingPushed cfg s i) :=
  decidable_of_iff _ beingPushed_iff.symm

instance : Decidable (HoldsElement cfg s) :=
  inferInstanceAs (Decidable (∃ k < _, _))

instance : Decidable (HeadCounted tr) :=
  decidable_of_iff _ headCounted_iff.symm

instance [Fintype ι] (pc : Pc α) : Decidable (SoundRead cfg s tr pc) :=
  match pc with
  | .pushSeq _ _ => inferInstanceAs (Decidable (_ ∧ _))
  | .popSeq _ => inferInstanceAs (Decidable (_ ∧ _))
  | .idle | .pushLoad _ | .pushCas _ _ | .pushData _ _ | .pushStore _ | .popLoad
  | .popCas _ | .popData _ | .popStore _ _ | .sizeLoadEnq | .sizeLoadDeq _ => isTrue trivial

theorem settled_iff {a : Act ι α} :
    Settled cfg s tr a ↔ (∀ u, lag cfg s (s.pc u) < 2 ^ 64) ∧
      match a with
      | .go t => SoundRead cfg s tr (s.pc t)
      | _ => True := by
  constructor
  · rintro ⟨hfresh, hread⟩
    refine ⟨hfresh, ?_⟩
    split
    · exact hread _ rfl
    · trivial
  · rintro ⟨hfresh, hread⟩
    refine ⟨hfresh, ?_⟩
    rintro t rfl
    exact hread

instance [Fintype ι] (a : Act ι α) : Decidable (Settled cfg s tr a) :=
  have : Decidable (match a with
      | .go t => SoundRead cfg s tr (s.pc t)
      | _ => True) :=
    match a with
    | .go _ => inferInstance
    | .tryPush _ _ | .tryPop _ | .sizeApprox _ | .spurious _ => isTrue trivial
  decidable_of_iff _ settled_iff.symm

end Decidable

end LockFreeQueue
end AsyncTaskEngine
