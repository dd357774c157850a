import AsyncTaskEngine.Machine
import AsyncTaskEngine.BitSmear
import Mathlib.Logic.Function.Basic

/-!
# LockFreeQueue: the bounded MPMC queue

A model of `lockfree_queue.hpp` in which every atomic access is a step of its
own.  Positions and slot sequences are 64-bit words that wrap around; `T` is an
arbitrary type, and a slot's `data` is `none` while it holds a
value-initialised or moved-from object.

A thread executing `try_push` runs through

  `pushLoad → pushSeq → pushCas → pushData → pushStore`,

one constructor for each shared access of the source: the load of
`enqueue_pos_`, the load of `slot.sequence` (with the branch on `diff`, which
touches no shared memory), the weak compare-exchange, the move into
`slot.data` and the release store of `slot.sequence`.  `try_pop` is laid out in
the same way, and `size_approx` is its two loads.  Interleaving is sequentially
consistent.
-/

namespace AsyncTaskEngine
namespace LockFreeQueue

universe u v

/-- `std::size_t`. -/
abbrev Word := BitVec 64

/-- `round_up_pow2`, with the smearing cascade of the source. -/
def roundUpPow2 (n : Word) : Word :=
  if n < 2 then 2
  else
    let n := n - 1
    let n := n ||| (n >>> 1)
    let n := n ||| (n >>> 2)
    let n := n ||| (n >>> 4)
    let n := n ||| (n >>> 8)
    let n := n ||| (n >>> 16)
    let n := n ||| (n >>> 32)
    n + 1

theorem roundUpPow2_of_lt {n : Word} (h : n < 2) : roundUpPow2 n = 2 := by
  rw [roundUpPow2, if_pos h]

/-- Above the first two arguments the result is a power of two, modulo `2 ^ 64`. -/
theorem roundUpPow2_of_ge {n : Word} (h : 2 ≤ n.toNat) :
    (roundUpPow2 n).toNat = 2 ^ ((n.toNat - 1).log2 + 1) % 2 ^ 64 := by
  have hlt : ¬ n < 2 := by
    rw [BitVec.lt_def]
    exact Nat.not_lt.mpr h
  have hsub : (n - 1).toNat = n.toNat - 1 := by
    rw [BitVec.toNat_sub_of_le]
    · rfl
    · rw [BitVec.le_def]
      show 1 ≤ n.toNat
      omega
  have hsmear :=
    (smearedBy_one (n - 1)).double.double.double.double.double.double
  have hfull := SmearedBy.toNat_eq (w := 64) hsmear (by omega)
  have hpos := Nat.two_pow_pos ((n.toNat - 1).log2 + 1)
  rw [roundUpPow2, if_neg hlt]
  simp only [BitVec.toNat_add]
  rw [hsub] at hfull
  rw [show ((1 : Word)).toNat = 1 from rfl]
  have hval := congrArg (fun x => (x + 1) % 2 ^ 64) hfull
  simp only [Nat.sub_add_cancel hpos] at hval
  exact hval

/-- Requests below two are served as requests for two. -/
theorem roundUpPow2_toNat (n : Word) :
    (roundUpPow2 n).toNat = 2 ^ ((max n.toNat 2 - 1).log2 + 1) % 2 ^ 64 := by
  rcases Nat.lt_or_ge n.toNat 2 with hlt | hge
  · rw [roundUpPow2_of_lt (BitVec.lt_def.mpr hlt), Nat.max_eq_right hlt.le]
    rfl
  · rw [roundUpPow2_of_ge hge, Nat.max_eq_left hge]

/--
The constant members of a constructed queue.  The capacity is a power of two
that fits a word; `mask_` is `capacity_ - 1`.
-/
structure Config where
  capacity : Word
  mask : Word
  bits : Nat
  one_le_bits : 1 ≤ bits
  bits_le : bits ≤ 63
  capacity_eq : capacity.toNat = 2 ^ bits
  mask_eq : mask = capacity - 1

/-- The exponent of a capacity that passes the constructor's assertion. -/
theorem roundUpPow2_bits {n : Word} (h : 2 ≤ roundUpPow2 n) :
    ∃ k, 1 ≤ k ∧ k ≤ 63 ∧ (roundUpPow2 n).toNat = 2 ^ k := by
  have hval := roundUpPow2_toNat n
  have hge : 2 ≤ (roundUpPow2 n).toNat := h
  have hlog : (max n.toNat 2 - 1).log2 < 64 := by
    refine (Nat.log2_lt (by omega)).mpr ?_
    have := n.isLt
    omega
  have hle : (max n.toNat 2 - 1).log2 + 1 ≤ 63 := by
    -- an exponent of 64 would have wrapped to zero
    by_contra hgt
    have : (max n.toNat 2 - 1).log2 + 1 = 64 := by omega
    rw [this, Nat.mod_self] at hval
    omega
  refine ⟨(max n.toNat 2 - 1).log2 + 1, by omega, hle, ?_⟩
  rw [hval]
  apply Nat.mod_eq_of_lt
  exact Nat.pow_lt_pow_right (by omega) (by omega)

/-- The constructor; it fails where its assertion `capacity_ >= 2` does. -/
def construct (minCapacity : Word) : Option Config :=
  if h : 2 ≤ roundUpPow2 minCapacity then
    some
      { capacity := roundUpPow2 minCapacity
        mask := roundUpPow2 minCapacity - 1
        bits := (roundUpPow2 minCapacity).toNat.log2
        one_le_bits := by
          obtain ⟨k, hk, _, hval⟩ := roundUpPow2_bits h
          rw [hval, Nat.log2_two_pow]
          exact hk
        bits_le := by
          obtain ⟨k, _, hk, hval⟩ := roundUpPow2_bits h
          rw [hval, Nat.log2_two_pow]
          exact hk
        capacity_eq := by
          obtain ⟨k, _, _, hval⟩ := roundUpPow2_bits h
          rw [hval, Nat.log2_two_pow]
        mask_eq := rfl }
  else none

section Mask

variable (cfg : Config)

theorem Config.capacity_bounds : 2 ≤ cfg.capacity.toNat ∧ cfg.capacity.toNat ≤ 2 ^ 63 := by
  rw [cfg.capacity_eq]
  exact ⟨Nat.pow_le_pow_right (n := 2) (by omega) cfg.one_le_bits,
    Nat.pow_le_pow_right (by omega) cfg.bits_le⟩

theorem Config.mask_toNat : cfg.mask.toNat = 2 ^ cfg.bits - 1 := by
  obtain ⟨hge, _⟩ := cfg.capacity_bounds
  rw [cfg.mask_eq, BitVec.toNat_sub_of_le, cfg.capacity_eq]
  · rfl
  · rw [BitVec.le_def]
    show 1 ≤ cfg.capacity.toNat
    omega

/-- Masking a position is reducing it modulo the capacity. -/
theorem Config.toNat_and_mask (pos : Word) :
    (pos &&& cfg.mask).toNat = pos.toNat % cfg.capacity.toNat := by
  rw [BitVec.toNat_and, cfg.mask_toNat, Nat.and_two_pow_sub_one_eq_mod, cfg.capacity_eq]

/-- A word that has wrapped still has the remainder of the unwrapped number. -/
theorem Config.mod_mod_capacity (n : Nat) :
    n % 2 ^ 64 % cfg.capacity.toNat = n % cfg.capacity.toNat := by
  have hbits := cfg.bits_le
  rw [cfg.capacity_eq]
  exact Nat.mod_mod_of_dvd n (Nat.pow_dvd_pow 2 (by omega))

end Mask

/-- `Slot`. -/
structure Slot (α : Type v) where
  sequence : Word
  data : Option α

/-- Where a thread stands, with its local variables. -/
inductive Pc (α : Type v) where
  | idle
  | pushLoad (value : α)
  | pushSeq (value : α) (pos : Word)
  | pushCas (value : α) (pos : Word)
  | pushData (value : α) (pos : Word)
  | pushStore (pos : Word)
  | popLoad
  | popSeq (pos : Word)
  | popCas (pos : Word)
  | popData (pos : Word)
  | popStore (pos : Word) (result : Option α)
  | sizeLoadEnq
  | sizeLoadDeq (enq : Word)
deriving DecidableEq

/-- The shared memory and the threads. -/
structure State (ι : Type u) (α : Type v) where
  enqueuePos : Word
  dequeuePos : Word
  buffer : Word → Slot α
  pc : ι → Pc α

/-- What an observer records: calls, successful claims and returns. -/
inductive Event (ι : Type u) (α : Type v) where
  | pushCalled (t : ι) (value : α)
  | pushClaimed (t : ι) (pos : Word) (value : α)
  | pushReturned (t : ι) (pos : Word)
  | pushFailed (t : ι)
  | popCalled (t : ι)
  | popClaimed (t : ι) (pos : Word)
  | popReturned (t : ι) (pos : Word) (result : Option α)
  | popFailed (t : ι)
  | sizeReturned (t : ι) (size : Word)
deriving DecidableEq

/-- A call, the next access of a thread, or a spurious failure of its weak CAS. -/
inductive Act (ι : Type u) (α : Type v) where
  | tryPush (t : ι) (value : α)
  | tryPop (t : ι)
  | sizeApprox (t : ι)
  | go (t : ι)
  | spurious (t : ι)

/--
`static_cast<ptrdiff_t>(seq) - static_cast<ptrdiff_t>(pos)`, read as a
two's-complement signed number.
-/
def diff (seq pos : Word) : Int :=
  (seq - pos).toInt

variable {ι : Type u} {α : Type v} [DecidableEq ι]

/-- Move a thread. -/
def State.setPc (s : State ι α) (t : ι) (pc : Pc α) : State ι α :=
  { s with pc := Function.update s.pc t pc }

/-- Write a slot of the ring buffer. -/
def State.setSlot (s : State ι α) (i : Word) (slot : Slot α) : State ι α :=
  { s with buffer := Function.update s.buffer i slot }

section StateLemmas

variable (s : State ι α) (t : ι) (pc : Pc α) (i : Word) (slot : Slot α)

@[simp] theorem setPc_enqueuePos : (s.setPc t pc).enqueuePos = s.enqueuePos := rfl

@[simp] theorem setPc_dequeuePos : (s.setPc t pc).dequeuePos = s.dequeuePos := rfl

@[simp] theorem setPc_buffer : (s.setPc t pc).buffer = s.buffer := rfl

@[simp] theorem setPc_self : (s.setPc t pc).pc t = pc := by
  simp [State.setPc]

theorem setPc_ne {u : ι} (h : u ≠ t) : (s.setPc t pc).pc u = s.pc u := by
  simp [State.setPc, h]

omit [DecidableEq ι] in
@[simp] theorem setSlot_pc : (s.setSlot i slot).pc = s.pc := rfl

omit [DecidableEq ι] in
@[simp] theorem setSlot_self : (s.setSlot i slot).buffer i = slot := by
  simp [State.setSlot]

omit [DecidableEq ι] in
theorem setSlot_ne {j : Word} (h : j ≠ i) :
    (s.setSlot i slot).buffer j = s.buffer j := by
  simp [State.setSlot, h]

end StateLemmas

/-- The next shared access of a thread inside a call. -/
def goStep (cfg : Config) (s : State ι α) (t : ι) :
    Option (State ι α × List (Event ι α)) :=
  match s.pc t with
  | .idle => none
  | .pushLoad value => some (s.setPc t (.pushSeq value s.enqueuePos), [])
  | .pushSeq value pos =>
      let d := diff (s.buffer (pos &&& cfg.mask)).sequence pos
      if d = 0 then some (s.setPc t (.pushCas value pos), [])
      -- the slot has not been recycled yet: full
      else if d < 0 then some (s.setPc t .idle, [.pushFailed t])
      -- another producer already claimed pos: reload
      else some (s.setPc t (.pushLoad value), [])
  | .pushCas value pos =>
      if s.enqueuePos = pos then
        some ({ s.setPc t (.pushData value pos) with enqueuePos := pos + 1 },
          [.pushClaimed t pos value])
      else some (s.setPc t (.pushSeq value s.enqueuePos), [])
  | .pushData value pos =>
      let i := pos &&& cfg.mask
      some ((s.setSlot i { s.buffer i with data := some value }).setPc t
        (.pushStore pos), [])
  | .pushStore pos =>
      let i := pos &&& cfg.mask
      some ((s.setSlot i { s.buffer i with sequence := pos + 1 }).setPc t .idle,
        [.pushReturned t pos])
  | .popLoad => some (s.setPc t (.popSeq s.dequeuePos), [])
  | .popSeq pos =>
      let d := diff (s.buffer (pos &&& cfg.mask)).sequence (pos + 1)
      if d = 0 then some (s.setPc t (.popCas pos), [])
      -- no data available: empty
      else if d < 0 then some (s.setPc t .idle, [.popFailed t])
      -- pos was stale: reload
      else some (s.setPc t .popLoad, [])
  | .popCas pos =>
      if s.dequeuePos = pos then
        some ({ s.setPc t (.popData pos) with dequeuePos := pos + 1 },
          [.popClaimed t pos])
      else some (s.setPc t (.popSeq s.dequeuePos), [])
  | .popData pos =>
      let i := pos &&& cfg.mask
      some ((s.setSlot i { s.buffer i with data := none }).setPc t
        (.popStore pos (s.buffer i).data), [])
  | .popStore pos result =>
      let i := pos &&& cfg.mask
      some ((s.setSlot i { s.buffer i with sequence := pos + cfg.capacity }).setPc
        t .idle, [.popReturned t pos result])
  | .sizeLoadEnq => some (s.setPc t (.sizeLoadDeq s.enqueuePos), [])
  | .sizeLoadDeq enq =>
      some (s.setPc t .idle, [.sizeReturned t
        (if s.dequeuePos ≤ enq then enq - s.dequeuePos else 0)])

/-- One step of the queue. -/
def step (cfg : Config) (s : State ι α) :
    Act ι α → Option (State ι α × List (Event ι α))
  | .tryPush t value =>
      match s.pc t with
      | .idle => some (s.setPc t (.pushLoad value), [.pushCalled t value])
      | _ => none
  | .tryPop t =>
      match s.pc t with
      | .idle => some (s.setPc t .popLoad, [.popCalled t])
      | _ => none
  | .sizeApprox t =>
      match s.pc t with
      | .idle => some (s.setPc t .sizeLoadEnq, [])
      | _ => none
  | .go t => goStep cfg s t
  | .spurious t =>
      -- the failed CAS still loads the current position into pos
      match s.pc t with
      | .pushCas value _ => some (s.setPc t (.pushSeq value s.enqueuePos), [])
      | .popCas _ => some (s.setPc t (.popSeq s.dequeuePos), [])
      | _ => none

/-- What a step can do, one constructor for each way through the source. -/
inductive Move (cfg : Config) (s : State ι α) :
    State ι α → List (Event ι α) → Prop
  | pushCall {t : ι} (value : α) (hpc : s.pc t = .idle) :
      Move cfg s (s.setPc t (.pushLoad value)) [.pushCalled t value]
  | pushLoad {t : ι} {value : α} (hpc : s.pc t = .pushLoad value) :
      Move cfg s (s.setPc t (.pushSeq value s.enqueuePos)) []
  | pushReady {t : ι} {value : α} {pos : Word}
      (hpc : s.pc t = .pushSeq value pos)
      (hd : diff (s.buffer (pos &&& cfg.mask)).sequence pos = 0) :
      Move cfg s (s.setPc t (.pushCas value pos)) []
  | pushFull {t : ι} {value : α} {pos : Word}
      (hpc : s.pc t = .pushSeq value pos)
      (hd : diff (s.buffer (pos &&& cfg.mask)).sequence pos < 0) :
      Move cfg s (s.setPc t .idle) [.pushFailed t]
  | pushStale {t : ι} {value : α} {pos : Word}
      (hpc : s.pc t = .pushSeq value pos)
      (hd : 0 < diff (s.buffer (pos &&& cfg.mask)).sequence pos) :
      Move cfg s (s.setPc t (.pushLoad value)) []
  | pushRetry {t : ι} {value : α} {pos : Word}
      (hpc : s.pc t = .pushCas value pos) :
      Move cfg s (s.setPc t (.pushSeq value s.enqueuePos)) []
  | pushClaim {t : ι} {value : α} {pos : Word}
      (hpc : s.pc t = .pushCas value pos)
      (hcas : s.enqueuePos = pos) :
      Move cfg s { s.setPc t (.pushData value pos) with enqueuePos := pos + 1 }
        [.pushClaimed t pos value]
  | pushMove {t : ι} {value : α} {pos : Word}
      (hpc : s.pc t = .pushData value pos) :
      Move cfg s
        ((s.setSlot (pos &&& cfg.mask)
          { s.buffer (pos &&& cfg.mask) with data := some value }).setPc t
            (.pushStore pos)) []
  | pushPublish {t : ι} {pos : Word} (hpc : s.pc t = .pushStore pos) :
      Move cfg s
        ((s.setSlot (pos &&& cfg.mask)
          { s.buffer (pos &&& cfg.mask) with sequence := pos + 1 }).setPc t .idle)
        [.pushReturned t pos]
  | popCall {t : ι} (hpc : s.pc t = .idle) :
      Move cfg s (s.setPc t .popLoad) [.popCalled t]
  | popLoad {t : ι} (hpc : s.pc t = .popLoad) :
      Move cfg s (s.setPc t (.popSeq s.dequeuePos)) []
  | popReady {t : ι} {pos : Word} (hpc : s.pc t = .popSeq pos)
      (hd : diff (s.buffer (pos &&& cfg.mask)).sequence (pos + 1) = 0) :
      Move cfg s (s.setPc t (.popCas pos)) []
  | popEmpty {t : ι} {pos : Word} (hpc : s.pc t = .popSeq pos)
      (hd : diff (s.buffer (pos &&& cfg.mask)).sequence (pos + 1) < 0) :
      Move cfg s (s.setPc t .idle) [.popFailed t]
  | popStale {t : ι} {pos : Word} (hpc : s.pc t = .popSeq pos)
      (hd : 0 < diff (s.buffer (pos &&& cfg.mask)).sequence (pos + 1)) :
      Move cfg s (s.setPc t .popLoad) []
  | popRetry {t : ι} {pos : Word} (hpc : s.pc t = .popCas pos) :
      Move cfg s (s.setPc t (.popSeq s.dequeuePos)) []
  | popClaim {t : ι} {pos : Word} (hpc : s.pc t = .popCas pos)
      (hcas : s.dequeuePos = pos) :
      Move cfg s { s.setPc t (.popData pos) with dequeuePos := pos + 1 }
        [.popClaimed t pos]
  | popMove {t : ι} {pos : Word} (hpc : s.pc t = .popData pos) :
      Move cfg s
        ((s.setSlot (pos &&& cfg.mask)
          { s.buffer (pos &&& cfg.mask) with data := none }).setPc t
            (.popStore pos (s.buffer (pos &&& cfg.mask)).data)) []
  | popPublish {t : ι} {pos : Word} {result : Option α}
      (hpc : s.pc t = .popStore pos result) :
      Move cfg s
        ((s.setSlot (pos &&& cfg.mask)
          { s.buffer (pos &&& cfg.mask) with
            sequence := pos + cfg.capacity }).setPc t .idle)
        [.popReturned t pos result]
  | sizeCall {t : ι} (hpc : s.pc t = .idle) :
      Move cfg s (s.setPc t .sizeLoadEnq) []
  | sizeEnq {t : ι} (hpc : s.pc t = .sizeLoadEnq) :
      Move cfg s (s.setPc t (.sizeLoadDeq s.enqueuePos)) []
  | sizeDeq {t : ι} {enq : Word} (hpc : s.pc t = .sizeLoadDeq enq) :
      Move cfg s (s.setPc t .idle)
        [.sizeReturned t
          (if s.dequeuePos ≤ enq then enq - s.dequeuePos else 0)]

/-- Inversion of a step inside a call. -/
theorem goStep_move {cfg : Config} {s s' : State ι α} {t : ι}
    {es : List (Event ι α)} (h : goStep cfg s t = some (s', es)) :
    Move cfg s s' es := by
  unfold goStep at h
  split at h
  case h_1 => simp at h
  case h_2 value hpc =>
      obtain ⟨rfl, rfl⟩ := by simpa using h
      exact .pushLoad hpc
  case h_3 value pos hpc =>
      dsimp only at h
      split at h
      · next hd =>
          obtain ⟨rfl, rfl⟩ := by simpa using h
          exact .pushReady hpc hd
      · split at h
        · next hd =>
            obtain ⟨rfl, rfl⟩ := by simpa using h
            exact .pushFull hpc hd
        · next hne hd =>
            obtain ⟨rfl, rfl⟩ := by simpa using h
            exact .pushStale hpc (by omega)
  case h_4 value pos hpc =>
      split at h
      · next hcas =>
          obtain ⟨rfl, rfl⟩ := by simpa using h
          exact .pushClaim hpc hcas
      · obtain ⟨rfl, rfl⟩ := by simpa using h
        exact .pushRetry hpc
  case h_5 value pos hpc =>
      obtain ⟨rfl, rfl⟩ := by simpa using h
      exact .pushMove hpc
  case h_6 pos hpc =>
      obtain ⟨rfl, rfl⟩ := by simpa using h
      exact .pushPublish hpc
  case h_7 hpc =>
      obtain ⟨rfl, rfl⟩ := by simpa using h
      exact .popLoad hpc
  case h_8 pos hpc =>
      dsimp only at h
      split at h
      · next hd =>
          obtain ⟨rfl, rfl⟩ := by simpa using h
          exact .popReady hpc hd
      · split at h
        · next hd =>
            obtain ⟨rfl, rfl⟩ := by simpa using h
            exact .popEmpty hpc hd
        · next hne hd =>
            obtain ⟨rfl, rfl⟩ := by simpa using h
            exact .popStale hpc (by omega)
  case h_9 pos hpc =>
      split at h
      · next hcas =>
          obtain ⟨rfl, rfl⟩ := by simpa using h
          exact .popClaim hpc hcas
      · obtain ⟨rfl, rfl⟩ := by simpa using h
        exact .popRetry hpc
  case h_10 pos hpc =>
      obtain ⟨rfl, rfl⟩ := by simpa using h
      exact .popMove hpc
  case h_11 pos result hpc =>
      obtain ⟨rfl, rfl⟩ := by simpa using h
      exact .popPublish hpc
  case h_12 hpc =>
      obtain ⟨rfl, rfl⟩ := by simpa using h
      exact .sizeEnq hpc
  case h_13 enq hpc =>
      simp only [Option.some.injEq, Prod.mk.injEq] at h
      obtain ⟨rfl, rfl⟩ := h
      exact .sizeDeq hpc

/-- Inversion of a step; every later argument starts from this lemma. -/
theorem step_move {cfg : Config} {s s' : State ι α} {a : Act ι α}
    {es : List (Event ι α)} (h : step cfg s a = some (s', es)) :
    Move cfg s s' es := by
  cases a with
  | go t => exact goStep_move h
  | tryPush t value =>
      simp only [step] at h
      split at h
      · next hpc =>
          obtain ⟨rfl, rfl⟩ := by simpa using h
          exact .pushCall value hpc
      · simp at h
  | tryPop t =>
      simp only [step] at h
      split at h
      · next hpc =>
          obtain ⟨rfl, rfl⟩ := by simpa using h
          exact .popCall hpc
      · simp at h
  | sizeApprox t =>
      simp only [step] at h
      split at h
      · next hpc =>
          obtain ⟨rfl, rfl⟩ := by simpa using h
          exact .sizeCall hpc
      · simp at h
  | spurious t =>
      simp only [step] at h
      split at h
      · next value pos hpc =>
          obtain ⟨rfl, rfl⟩ := by simpa using h
          exact .pushRetry hpc
      · next pos hpc =>
          obtain ⟨rfl, rfl⟩ := by simpa using h
          exact .popRetry hpc
      · simp at h

/-- The thread that an action moves. -/
def Act.thread : Act ι α → ι
  | .tryPush t _ => t
  | .tryPop t => t
  | .sizeApprox t => t
  | .go t => t
  | .spurious t => t

/-- The thread that an event is about. -/
def Event.thread : Event ι α → ι
  | .pushCalled t _ => t
  | .pushClaimed t _ _ => t
  | .pushReturned t _ => t
  | .pushFailed t => t
  | .popCalled t => t
  | .popClaimed t _ => t
  | .popReturned t _ _ => t
  | .popFailed t => t
  | .sizeReturned t _ => t

/-- A step moves the thread of its action only. -/
theorem step_pc {cfg : Config} {s s' : State ι α} {a : Act ι α}
    {es : List (Event ι α)} (h : step cfg s a = some (s', es)) :
    ∃ pc, s'.pc = Function.update s.pc a.thread pc := by
  cases a with
  | go t =>
      simp only [step, goStep] at h
      repeat' split at h
      all_goals cases h
      all_goals exact ⟨_, rfl⟩
  | tryPush t value =>
      simp only [step] at h
      split at h <;> cases h
      exact ⟨_, rfl⟩
  | tryPop t =>
      simp only [step] at h
      split at h <;> cases h
      exact ⟨_, rfl⟩
  | sizeApprox t =>
      simp only [step] at h
      split at h <;> cases h
      exact ⟨_, rfl⟩
  | spurious t =>
      simp only [step] at h
      split at h <;> cases h <;> exact ⟨_, rfl⟩

/-- A thread that is not at the same place after a step has taken it. -/
theorem thread_of_pc_ne {cfg : Config} {s s' : State ι α} {a : Act ι α}
    {es : List (Event ι α)} (h : step cfg s a = some (s', es)) {t : ι}
    (hne : s'.pc t ≠ s.pc t) : a.thread = t := by
  obtain ⟨pc, hpc⟩ := step_pc h
  by_contra hother
  exact hne (by rw [hpc, Function.update_of_ne (Ne.symm hother)])

/-- A constructed queue with no call in progress. -/
def queue (cfg : Config) : Machine (State ι α) (Act ι α) (Event ι α) where
  init :=
    { enqueuePos := 0
      dequeuePos := 0
      buffer := fun i => { sequence := i, data := none }
      pc := fun _ => .idle }
  step := step cfg

/-- A thread stays where it is while the others move. -/
theorem exec_pc {cfg : Config} {s s' : State ι α} {as : List (Act ι α)}
    {es : List (Event ι α)} (h : (queue cfg).exec s as = some (s', es)) {t : ι}
    (ht : ∀ a ∈ as, a.thread ≠ t) : s'.pc t = s.pc t := by
  refine Machine.exec_invariant (P := fun q _ => q.pc t = s.pc t) h rfl ?_
  intro q _ a q' fs ha hq hs
  rw [← hq]
  by_contra hne
  exact ht a ha (thread_of_pc_ne hs hne)

end LockFreeQueue
end AsyncTaskEngine
