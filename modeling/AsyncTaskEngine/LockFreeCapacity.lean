import AsyncTaskEngine.LockFreeQueue
import Mathlib.Order.Bounds.Basic

/-!
# The capacity of the lock-free queue

The constructor rounds the requested capacity up to a power of two, and every
access to a slot masks a position with `capacity_ - 1`.  This module says what
the two amount to, for every 64-bit request and every 64-bit position.

Main results:

* `roundUpPow2_exact`: which capacity a request gets, which requests are
  rejected, and that masked positions run round the ring;
* `construct_capacity`: every configuration is the one of its own capacity;
* `exec_beyond`: no schedule reads or writes memory beyond the last slot.
-/

namespace AsyncTaskEngine
namespace LockFreeQueue

universe u v

/-- Masked positions are the remainders of the positions, and go round in a circle. -/
structure RingMask (capacity mask : Word) : Prop where
  /-- `pos & mask_` is `pos mod capacity_`. -/
  mod : ∀ pos : Word, (pos &&& mask).toNat = pos.toNat % capacity.toNat
  /-- Consecutive positions are in consecutive slots, also where `pos + 1` wraps to zero. -/
  next : ∀ pos : Word,
    ((pos + 1) &&& mask).toNat = ((pos &&& mask).toNat + 1) % capacity.toNat

/-- What a request for `n` slots leads to. -/
structure RoundedUp (n : Word) : Prop where
  /-- Up to `2 ^ 63` the capacity is the least power of two that is at least `n` and `2`. -/
  least : n.toNat ≤ 2 ^ 63 →
    IsLeast {c : Nat | c.isPowerOfTwo ∧ max n.toNat 2 ≤ c} (roundUpPow2 n).toNat
  /-- One less than the capacity is a mask for the positions. -/
  mask : n.toNat ≤ 2 ^ 63 → RingMask (roundUpPow2 n) (roundUpPow2 n - 1)
  /-- Above `2 ^ 63` the last addition wraps. -/
  wraps : 2 ^ 63 < n.toNat → roundUpPow2 n = 0
  /-- The assertion of the constructor fails for these requests only. -/
  rejected : construct n = none ↔ 2 ^ 63 < n.toNat
  /-- The members of the queue are computed from the request. -/
  members : ∀ cfg, construct n = some cfg →
    cfg.capacity = roundUpPow2 n ∧ cfg.mask = roundUpPow2 n - 1

section Requests

variable {n : Word} {cfg : Config}

/-- The exponent that the smearing cascade has found. -/
theorem roundUpPow2_least (h : n.toNat ≤ 2 ^ 63) :
    IsLeast {c : Nat | c.isPowerOfTwo ∧ max n.toNat 2 ≤ c} (roundUpPow2 n).toNat := by
  have hne : max n.toNat 2 - 1 ≠ 0 := by omega
  have hlog : (max n.toNat 2 - 1).log2 < 63 := (Nat.log2_lt hne).mpr (by omega)
  have hval : (roundUpPow2 n).toNat = 2 ^ ((max n.toNat 2 - 1).log2 + 1) := by
    rw [roundUpPow2_toNat]
    exact Nat.mod_eq_of_lt (Nat.pow_lt_pow_right (by omega) (by omega))
  have hset : {c : Nat | c.isPowerOfTwo ∧ max n.toNat 2 ≤ c} =
      {c : Nat | c.isPowerOfTwo ∧ max n.toNat 2 - 1 < c} := by
    ext c
    constructor
    · rintro ⟨hc, hle⟩
      exact ⟨hc, by omega⟩
    · rintro ⟨hc, hlt⟩
      exact ⟨hc, by omega⟩
  rw [hval, hset]
  exact isLeast_two_pow_log2_succ hne

/-- The predecessor of a large request has its top bit set, and the cascade fills the word. -/
theorem roundUpPow2_wraps (h : 2 ^ 63 < n.toNat) : roundUpPow2 n = 0 := by
  have hlt := n.isLt
  have hne : max n.toNat 2 - 1 ≠ 0 := by omega
  have hlog : (max n.toNat 2 - 1).log2 = 63 :=
    (Nat.log2_eq_iff hne).mpr ⟨by omega, by omega⟩
  apply BitVec.eq_of_toNat_eq
  rw [roundUpPow2_toNat, hlog]
  rfl

/-- The assertion `capacity_ >= 2`. -/
theorem two_le_roundUpPow2_iff : 2 ≤ roundUpPow2 n ↔ n.toNat ≤ 2 ^ 63 := by
  constructor
  · intro h
    by_contra hgt
    rw [roundUpPow2_wraps (by omega)] at h
    exact absurd h (by decide)
  · intro h
    obtain ⟨_, hle⟩ := (roundUpPow2_least h).1
    rw [BitVec.le_def]
    show 2 ≤ (roundUpPow2 n).toNat
    omega

theorem construct_eq_none_iff : construct n = none ↔ 2 ^ 63 < n.toNat := by
  rw [← Nat.not_le, ← two_le_roundUpPow2_iff, construct]
  split
  · next h => exact iff_of_false (by simp) (not_not_intro h)
  · next h => exact iff_of_true rfl h

theorem exists_construct (h : n.toNat ≤ 2 ^ 63) : ∃ cfg, construct n = some cfg := by
  refine Option.ne_none_iff_exists'.mp fun hnone => ?_
  have hgt := construct_eq_none_iff.mp hnone
  omega

theorem construct_members (h : construct n = some cfg) :
    cfg.capacity = roundUpPow2 n ∧ cfg.mask = roundUpPow2 n - 1 := by
  rw [construct] at h
  split at h
  · obtain rfl := Option.some.inj h
    exact ⟨rfl, rfl⟩
  · cases h

/-- The mask of every configuration goes round its ring. -/
theorem Config.ringMask (cfg : Config) : RingMask cfg.capacity cfg.mask where
  mod := cfg.toNat_and_mask
  next pos := by
    rw [cfg.toNat_and_mask, cfg.toNat_and_mask, BitVec.toNat_add, cfg.mod_mod_capacity,
      Nat.mod_add_mod]
    rfl

end Requests

/--
`round_up_pow2` on all 64-bit arguments: up to `2 ^ 63` it returns the least
power of two that holds the request and is at least two, so that `mask_` maps
the positions to the slots of a ring; above `2 ^ 63` it returns zero, which is
what the constructor's assertion rejects.
-/
theorem roundUpPow2_exact (n : Word) : RoundedUp n where
  least := roundUpPow2_least
  mask h := by
    obtain ⟨cfg, hcfg⟩ := exists_construct h
    obtain ⟨hcap, hmask⟩ := construct_members hcfg
    rw [← hmask, ← hcap]
    exact cfg.ringMask
  wraps := roundUpPow2_wraps
  rejected := construct_eq_none_iff
  members _ := construct_members

-- the requests of the source's own test
example : roundUpPow2 5 = 8 ∧ roundUpPow2 8 = 8 ∧ roundUpPow2 100 = 128 := by decide

section Configurations

/-- A capacity is rounded to itself. -/
theorem Config.roundUpPow2_capacity (cfg : Config) : roundUpPow2 cfg.capacity = cfg.capacity := by
  obtain ⟨hge, hle⟩ := cfg.capacity_bounds
  apply BitVec.eq_of_toNat_eq
  refine (roundUpPow2_least hle).unique ⟨⟨⟨cfg.bits, cfg.capacity_eq⟩, by omega⟩, ?_⟩
  rintro c ⟨_, hc⟩
  omega

theorem Config.eq_of_capacity {cfg cfg' : Config} (h : cfg.capacity = cfg'.capacity) :
    cfg = cfg' := by
  have hbits : cfg.bits = cfg'.bits := by
    apply Nat.pow_right_injective (le_refl 2)
    show 2 ^ cfg.bits = 2 ^ cfg'.bits
    rw [← cfg.capacity_eq, ← cfg'.capacity_eq, h]
  have hmask : cfg.mask = cfg'.mask := by
    rw [cfg.mask_eq, cfg'.mask_eq, h]
  cases cfg
  cases cfg'
  simp_all

/-- A configuration is what the constructor makes of its capacity. -/
theorem construct_capacity (cfg : Config) : construct cfg.capacity = some cfg := by
  obtain ⟨cfg', hcfg'⟩ := exists_construct cfg.capacity_bounds.2
  have hcap := (construct_members hcfg').1
  rw [cfg.roundUpPow2_capacity] at hcap
  rw [hcfg', Config.eq_of_capacity hcap]

end Configurations

section Buffer

variable {ι : Type u} {α : Type v} [DecidableEq ι]

/-- The state with other contents in the memory beyond the last slot. -/
def State.beyond (cfg : Config) (s : State ι α) (memory : Word → Slot α) : State ι α :=
  { s with buffer := fun i => if i < cfg.capacity then s.buffer i else memory i }

variable {cfg : Config} (s : State ι α) (memory : Word → Slot α)

/-- A masked position is the index of a slot. -/
theorem and_mask_lt (cfg : Config) (pos : Word) : pos &&& cfg.mask < cfg.capacity := by
  have hpos := cfg.capacity_bounds.1
  rw [BitVec.lt_def, cfg.toNat_and_mask]
  exact Nat.mod_lt _ (by omega)

omit [DecidableEq ι] in
@[simp] theorem beyond_pc : (s.beyond cfg memory).pc = s.pc := rfl

omit [DecidableEq ι] in
theorem beyond_self : s.beyond cfg s.buffer = s := by
  simp [State.beyond]

omit [DecidableEq ι] in
@[simp] theorem beyond_buffer (pos : Word) :
    (s.beyond cfg memory).buffer (pos &&& cfg.mask) = s.buffer (pos &&& cfg.mask) :=
  if_pos (and_mask_lt cfg pos)

@[simp] theorem beyond_setPc (t : ι) (pc : Pc α) :
    (s.beyond cfg memory).setPc t pc = (s.setPc t pc).beyond cfg memory := rfl

omit [DecidableEq ι] in
/-- Writing a slot of the ring leaves the memory beyond it alone. -/
@[simp] theorem beyond_setSlot (pos : Word) (slot : Slot α) :
    (s.beyond cfg memory).setSlot (pos &&& cfg.mask) slot =
      (s.setSlot (pos &&& cfg.mask) slot).beyond cfg memory := by
  have hlt := and_mask_lt cfg pos
  simp only [State.beyond, State.setSlot, State.mk.injEq, true_and, and_true]
  funext i
  by_cases hi : i = pos &&& cfg.mask
  · subst hi
    rw [Function.update_self, if_pos hlt, Function.update_self]
  · rw [Function.update_of_ne hi, Function.update_of_ne hi]

/-- A step does not look beyond the last slot. -/
theorem step_beyond (a : Act ι α) :
    step cfg (s.beyond cfg memory) a =
      (step cfg s a).map fun r => (r.1.beyond cfg memory, r.2) := by
  cases a with
  | go t =>
      simp only [step, goStep, beyond_pc]
      cases hpc : s.pc t with
      | pushSeq value pos =>
          simp only [beyond_buffer]
          split
          · rfl
          · split <;> rfl
      | popSeq pos =>
          simp only [beyond_buffer]
          split
          · rfl
          · split <;> rfl
      | pushCas value pos =>
          by_cases hcas : s.enqueuePos = pos
          · have hcas' : (s.beyond cfg memory).enqueuePos = pos := hcas
            simp only [if_pos hcas, if_pos hcas']
            rfl
          · have hcas' : (s.beyond cfg memory).enqueuePos ≠ pos := hcas
            simp only [if_neg hcas, if_neg hcas']
            rfl
      | popCas pos =>
          by_cases hcas : s.dequeuePos = pos
          · have hcas' : (s.beyond cfg memory).dequeuePos = pos := hcas
            simp only [if_pos hcas, if_pos hcas']
            rfl
          · have hcas' : (s.beyond cfg memory).dequeuePos ≠ pos := hcas
            simp only [if_neg hcas, if_neg hcas']
            rfl
      | pushData value pos => simp
      | pushStore pos => simp
      | popData pos => simp
      | popStore pos result => simp
      | _ => rfl
  | tryPush t value =>
      simp only [step, beyond_pc]
      cases s.pc t <;> rfl
  | tryPop t =>
      simp only [step, beyond_pc]
      cases s.pc t <;> rfl
  | sizeApprox t =>
      simp only [step, beyond_pc]
      cases s.pc t <;> rfl
  | spurious t =>
      simp only [step, beyond_pc]
      cases s.pc t <;> rfl

/-- A step does not write beyond the last slot. -/
theorem step_keeps_beyond {s s' : State ι α} {a : Act ι α} {es : List (Event ι α)}
    (hs : step cfg s a = some (s', es)) {i : Word} (hi : ¬ i < cfg.capacity) :
    s'.buffer i = s.buffer i := by
  have hstep := @step_beyond _ _ _ cfg s s.buffer a
  rw [beyond_self, hs] at hstep
  obtain ⟨hs', _⟩ := Prod.mk.inj (Option.some.inj hstep)
  rw [hs']
  exact if_neg hi

/-- No schedule reads or writes memory beyond the last slot. -/
theorem exec_beyond (as : List (Act ι α)) :
    (queue cfg).exec (s.beyond cfg memory) as =
      ((queue cfg).exec s as).map fun r => (r.1.beyond cfg memory, r.2) := by
  induction as generalizing s with
  | nil => rfl
  | cons a as ih =>
      simp only [Machine.exec, queue, step_beyond]
      cases hs : step cfg s a with
      | none => rfl
      | some r =>
          have hrest := ih r.1
          simp only [queue] at hrest
          simp only [Option.map_some, hrest, Option.map_map]
          rfl

/-- In every run the memory beyond the last slot is as the constructor has left it. -/
theorem reach_keeps_beyond {s : State ι α} {tr : List (Event ι α)}
    (hr : (queue cfg).Reach s tr) {i : Word} (hi : ¬ i < cfg.capacity) :
    s.buffer i = (queue cfg : Machine (State ι α) _ _).init.buffer i := by
  induction hr with
  | init => rfl
  | step _ hs ih => rw [step_keeps_beyond hs hi, ih]

end Buffer

end LockFreeQueue
end AsyncTaskEngine
