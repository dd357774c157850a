import AsyncTaskEngine.LockFreeFifo
import AsyncTaskEngine.ReleaseAcquire

/-!
# The lock-free queue under its own memory orders

`LockFreeQueue` interleaves the accesses of the source one after the other.
Here every access has the memory order that the source gives it: the positions
are loaded and exchanged `relaxed`, the sequence of a slot is loaded with
`acquire` and stored with `release`, and the `data` of a slot is not atomic at
all.  A load may return an old value, as long as the thread does not know of a
newer one; an action says which store it reads, or where in the modification
order its own store goes.

The stores of the constructor are `relaxed`, but they happen before every call:
a queue is handed to its threads after it has been constructed.

Input:
* the memory of `ReleaseAcquire`, with the two positions and the sequences as
  atomic locations and the `data` of every slot as a plain one;
* any threads, and fewer than `2 ^ 63` pushes.

Main results:
* `weak_race_free`: no access of a slot's `data` is ever a race;
* `weak_sequential`: for every run there is one of `LockFreeQueue`, in which
  the accesses are interleaved, with the same successful operations;
* `weak_fifo`: the successful calls of every run are a bounded FIFO history.
-/

namespace AsyncTaskEngine
namespace LockFreeQueue
namespace WeakMemory

open ReleaseAcquire (Memory Later UpToDate Newest Counts Bounded)

universe u v

/-- The atomic locations of a queue. -/
inductive Loc where
  | enqueuePos
  | dequeuePos
  | sequence (i : Word)
deriving DecidableEq

/-- The memory with the contents of the slots, and the threads. -/
structure State (ι : Type u) (α : Type v) where
  mem : Memory ι Loc Word Word
  data : Word → Option α
  pc : ι → Pc α

/-- A call, the next access of a thread at a time in the modification order, or a
spurious failure of its weak CAS. -/
inductive Act (ι : Type u) (α : Type v) where
  | tryPush (t : ι) (value : α)
  | tryPop (t : ι)
  | sizeApprox (t : ι)
  | go (t : ι) (ts : Nat)
  | spurious (t : ι) (ts : Nat)

variable {ι : Type u} {α : Type v} [DecidableEq ι]

/-- A thread moves, and the memory with it. -/
def State.moved (w : State ι α) (mem : Memory ι Loc Word Word) (t : ι) (pc : Pc α) :
    State ι α :=
  { w with mem := mem, pc := Function.update w.pc t pc }

section Moved

variable (w : State ι α) (mem : Memory ι Loc Word Word) (t : ι) (pc : Pc α)

@[simp] theorem moved_mem : (w.moved mem t pc).mem = mem := rfl

@[simp] theorem moved_data : (w.moved mem t pc).data = w.data := rfl

@[simp] theorem moved_self : (w.moved mem t pc).pc t = pc := by
  simp [State.moved]

theorem moved_ne {u : ι} (h : u ≠ t) : (w.moved mem t pc).pc u = w.pc u := by
  simp [State.moved, h]

end Moved

/-- The next access of a thread inside a call. -/
def goStep (cfg : Config) (w : State ι α) (t : ι) (ts : Nat) :
    Option (State ι α × List (Event ι α)) :=
  match w.pc t with
  | .idle => none
  | .pushLoad value =>
      (w.mem.loadRelaxed t .enqueuePos ts).map fun r =>
        (w.moved r.2 t (.pushSeq value r.1), [])
  | .pushSeq value pos =>
      (w.mem.loadAcquire t (.sequence (pos &&& cfg.mask)) ts).map fun r =>
        let d := diff r.1 pos
        if d = 0 then (w.moved r.2 t (.pushCas value pos), [])
        else if d < 0 then (w.moved r.2 t .idle, [.pushFailed t])
        else (w.moved r.2 t (.pushLoad value), [])
  | .pushCas value pos =>
      (w.mem.loadRelaxed t .enqueuePos ts).bind fun r =>
        if r.1 = pos then
          (w.mem.exchangeRelaxed t .enqueuePos ts (pos + 1)).map fun mem =>
            (w.moved mem t (.pushData value pos), [.pushClaimed t pos value])
        else some (w.moved r.2 t (.pushSeq value r.1), [])
  | .pushData value pos =>
      let i := pos &&& cfg.mask
      some ({ w.moved (w.mem.access t i) t (.pushStore pos) with
        data := Function.update w.data i (some value) }, [])
  | .pushStore pos =>
      (w.mem.storeRelease t (.sequence (pos &&& cfg.mask)) ts (pos + 1)).map fun mem =>
        (w.moved mem t .idle, [.pushReturned t pos])
  | .popLoad =>
      (w.mem.loadRelaxed t .dequeuePos ts).map fun r =>
        (w.moved r.2 t (.popSeq r.1), [])
  | .popSeq pos =>
      (w.mem.loadAcquire t (.sequence (pos &&& cfg.mask)) ts).map fun r =>
        let d := diff r.1 (pos + 1)
        if d = 0 then (w.moved r.2 t (.popCas pos), [])
        else if d < 0 then (w.moved r.2 t .idle, [.popFailed t])
        else (w.moved r.2 t .popLoad, [])
  | .popCas pos =>
      (w.mem.loadRelaxed t .dequeuePos ts).bind fun r =>
        if r.1 = pos then
          (w.mem.exchangeRelaxed t .dequeuePos ts (pos + 1)).map fun mem =>
            (w.moved mem t (.popData pos), [.popClaimed t pos])
        else some (w.moved r.2 t (.popSeq r.1), [])
  | .popData pos =>
      let i := pos &&& cfg.mask
      some ({ w.moved (w.mem.access t i) t (.popStore pos (w.data i)) with
        data := Function.update w.data i none }, [])
  | .popStore pos result =>
      (w.mem.storeRelease t (.sequence (pos &&& cfg.mask)) ts (pos + cfg.capacity)).map
        fun mem => (w.moved mem t .idle, [.popReturned t pos result])
  | .sizeLoadEnq =>
      (w.mem.loadRelaxed t .enqueuePos ts).map fun r =>
        (w.moved r.2 t (.sizeLoadDeq r.1), [])
  | .sizeLoadDeq enq =>
      (w.mem.loadRelaxed t .dequeuePos ts).map fun r =>
        (w.moved r.2 t .idle,
          [.sizeReturned t (if r.1 ≤ enq then enq - r.1 else 0)])

/-- One step of the queue. -/
def step (cfg : Config) (w : State ι α) :
    Act ι α → Option (State ι α × List (Event ι α))
  | .tryPush t value =>
      match w.pc t with
      | .idle => some (w.moved w.mem t (.pushLoad value), [.pushCalled t value])
      | _ => none
  | .tryPop t =>
      match w.pc t with
      | .idle => some (w.moved w.mem t .popLoad, [.popCalled t])
      | _ => none
  | .sizeApprox t =>
      match w.pc t with
      | .idle => some (w.moved w.mem t .sizeLoadEnq, [])
      | _ => none
  | .go t ts => goStep cfg w t ts
  | .spurious t ts =>
      -- the failed CAS is a relaxed load into pos, whatever it reads
      match w.pc t with
      | .pushCas value _ =>
          (w.mem.loadRelaxed t .enqueuePos ts).map fun r =>
            (w.moved r.2 t (.pushSeq value r.1), [])
      | .popCas _ =>
          (w.mem.loadRelaxed t .dequeuePos ts).map fun r =>
            (w.moved r.2 t (.popSeq r.1), [])
      | _ => none

/-- What the constructor has stored. -/
def Loc.constructed : Loc → Word
  | .enqueuePos => 0
  | .dequeuePos => 0
  | .sequence i => i

/-- A constructed queue with no call in progress. -/
def weakQueue (cfg : Config) : Machine (State ι α) (Act ι α) (Event ι α) where
  init :=
    { mem := Memory.initial Loc.constructed
      data := fun _ => none
      pc := fun _ => .idle }
  step := step cfg

/-- What a step can do, one constructor for each way through the source. -/
inductive Move (cfg : Config) (w : State ι α) :
    State ι α → List (Event ι α) → Prop
  | pushCall {t : ι} (value : α) (hpc : w.pc t = .idle) :
      Move cfg w (w.moved w.mem t (.pushLoad value)) [.pushCalled t value]
  | pushLoad {t : ι} {ts : Nat} {value : α} {pos : Word} {mem : Memory ι Loc Word Word}
      (hpc : w.pc t = .pushLoad value ∨ ∃ p, w.pc t = .pushCas value p)
      (hmem : w.mem.loadRelaxed t .enqueuePos ts = some (pos, mem)) :
      Move cfg w (w.moved mem t (.pushSeq value pos)) []
  | pushReady {t : ι} {ts : Nat} {value : α} {pos seq : Word}
      {mem : Memory ι Loc Word Word} (hpc : w.pc t = .pushSeq value pos)
      (hmem : w.mem.loadAcquire t (.sequence (pos &&& cfg.mask)) ts = some (seq, mem))
      (hd : diff seq pos = 0) :
      Move cfg w (w.moved mem t (.pushCas value pos)) []
  | pushFull {t : ι} {ts : Nat} {value : α} {pos seq : Word}
      {mem : Memory ι Loc Word Word} (hpc : w.pc t = .pushSeq value pos)
      (hmem : w.mem.loadAcquire t (.sequence (pos &&& cfg.mask)) ts = some (seq, mem)) :
      Move cfg w (w.moved mem t .idle) [.pushFailed t]
  | pushStale {t : ι} {ts : Nat} {value : α} {pos seq : Word}
      {mem : Memory ι Loc Word Word} (hpc : w.pc t = .pushSeq value pos)
      (hmem : w.mem.loadAcquire t (.sequence (pos &&& cfg.mask)) ts = some (seq, mem)) :
      Move cfg w (w.moved mem t (.pushLoad value)) []
  | pushClaim {t : ι} {ts : Nat} {value : α} {pos : Word}
      {mem mem' : Memory ι Loc Word Word} (hpc : w.pc t = .pushCas value pos)
      (hread : w.mem.loadRelaxed t .enqueuePos ts = some (pos, mem'))
      (hmem : w.mem.exchangeRelaxed t .enqueuePos ts (pos + 1) = some mem) :
      Move cfg w (w.moved mem t (.pushData value pos)) [.pushClaimed t pos value]
  | pushMove {t : ι} {value : α} {pos : Word} (hpc : w.pc t = .pushData value pos) :
      Move cfg w
        { w.moved (w.mem.access t (pos &&& cfg.mask)) t (.pushStore pos) with
          data := Function.update w.data (pos &&& cfg.mask) (some value) } []
  | pushPublish {t : ι} {ts : Nat} {pos : Word} {mem : Memory ι Loc Word Word}
      (hpc : w.pc t = .pushStore pos)
      (hmem : w.mem.storeRelease t (.sequence (pos &&& cfg.mask)) ts (pos + 1) = some mem) :
      Move cfg w (w.moved mem t .idle) [.pushReturned t pos]
  | popCall {t : ι} (hpc : w.pc t = .idle) :
      Move cfg w (w.moved w.mem t .popLoad) [.popCalled t]
  | popLoad {t : ι} {ts : Nat} {pos : Word} {mem : Memory ι Loc Word Word}
      (hpc : w.pc t = .popLoad ∨ ∃ p, w.pc t = .popCas p)
      (hmem : w.mem.loadRelaxed t .dequeuePos ts = some (pos, mem)) :
      Move cfg w (w.moved mem t (.popSeq pos)) []
  | popReady {t : ι} {ts : Nat} {pos seq : Word}
      {mem : Memory ι Loc Word Word} (hpc : w.pc t = .popSeq pos)
      (hmem : w.mem.loadAcquire t (.sequence (pos &&& cfg.mask)) ts = some (seq, mem))
      (hd : diff seq (pos + 1) = 0) :
      Move cfg w (w.moved mem t (.popCas pos)) []
  | popEmpty {t : ι} {ts : Nat} {pos seq : Word}
      {mem : Memory ι Loc Word Word} (hpc : w.pc t = .popSeq pos)
      (hmem : w.mem.loadAcquire t (.sequence (pos &&& cfg.mask)) ts = some (seq, mem)) :
      Move cfg w (w.moved mem t .idle) [.popFailed t]
  | popStale {t : ι} {ts : Nat} {pos seq : Word}
      {mem : Memory ι Loc Word Word} (hpc : w.pc t = .popSeq pos)
      (hmem : w.mem.loadAcquire t (.sequence (pos &&& cfg.mask)) ts = some (seq, mem)) :
      Move cfg w (w.moved mem t .popLoad) []
  | popClaim {t : ι} {ts : Nat} {pos : Word}
      {mem mem' : Memory ι Loc Word Word} (hpc : w.pc t = .popCas pos)
      (hread : w.mem.loadRelaxed t .dequeuePos ts = some (pos, mem'))
      (hmem : w.mem.exchangeRelaxed t .dequeuePos ts (pos + 1) = some mem) :
      Move cfg w (w.moved mem t (.popData pos)) [.popClaimed t pos]
  | popMove {t : ι} {pos : Word} (hpc : w.pc t = .popData pos) :
      Move cfg w
        { w.moved (w.mem.access t (pos &&& cfg.mask)) t
            (.popStore pos (w.data (pos &&& cfg.mask))) with
          data := Function.update w.data (pos &&& cfg.mask) none } []
  | popPublish {t : ι} {ts : Nat} {pos : Word} {result : Option α}
      {mem : Memory ι Loc Word Word} (hpc : w.pc t = .popStore pos result)
      (hmem : w.mem.storeRelease t (.sequence (pos &&& cfg.mask)) ts
        (pos + cfg.capacity) = some mem) :
      Move cfg w (w.moved mem t .idle) [.popReturned t pos result]
  | sizeCall {t : ι} (hpc : w.pc t = .idle) :
      Move cfg w (w.moved w.mem t .sizeLoadEnq) []
  | sizeEnq {t : ι} {ts : Nat} {enq : Word} {mem : Memory ι Loc Word Word}
      (hpc : w.pc t = .sizeLoadEnq)
      (hmem : w.mem.loadRelaxed t .enqueuePos ts = some (enq, mem)) :
      Move cfg w (w.moved mem t (.sizeLoadDeq enq)) []
  | sizeDeq {t : ι} {ts : Nat} {enq deq : Word} {mem : Memory ι Loc Word Word}
      (hpc : w.pc t = .sizeLoadDeq enq)
      (hmem : w.mem.loadRelaxed t .dequeuePos ts = some (deq, mem)) :
      Move cfg w (w.moved mem t .idle)
        [.sizeReturned t (if deq ≤ enq then enq - deq else 0)]

/-- Inversion of a step inside a call. -/
theorem goStep_move {cfg : Config} {w w' : State ι α} {t : ι} {ts : Nat}
    {es : List (Event ι α)} (h : goStep cfg w t ts = some (w', es)) :
    Move cfg w w' es := by
  unfold goStep at h
  split at h
  case h_1 => cases h
  case h_2 value hpc =>
      obtain ⟨⟨pos, mem⟩, hmem, heq⟩ := Option.map_eq_some_iff.mp h
      obtain ⟨rfl, rfl⟩ := Prod.mk.inj heq
      exact .pushLoad (.inl hpc) hmem
  case h_3 value pos hpc =>
      obtain ⟨⟨seq, mem⟩, hmem, heq⟩ := Option.map_eq_some_iff.mp h
      dsimp only at heq
      split at heq
      · next hd =>
          obtain ⟨rfl, rfl⟩ := Prod.mk.inj heq
          exact .pushReady hpc hmem hd
      · split at heq
        · obtain ⟨rfl, rfl⟩ := Prod.mk.inj heq
          exact .pushFull hpc hmem
        · obtain ⟨rfl, rfl⟩ := Prod.mk.inj heq
          exact .pushStale hpc hmem
  case h_4 value pos hpc =>
      obtain ⟨⟨read, mem'⟩, hread, h⟩ := Option.bind_eq_some_iff.mp h
      dsimp only at h
      split at h
      · next hcas =>
          subst hcas
          obtain ⟨mem, hmem, heq⟩ := Option.map_eq_some_iff.mp h
          obtain ⟨rfl, rfl⟩ := Prod.mk.inj heq
          exact .pushClaim hpc hread hmem
      · obtain ⟨rfl, rfl⟩ := Prod.mk.inj (Option.some.inj h)
        exact .pushLoad (.inr ⟨pos, hpc⟩) hread
  case h_5 value pos hpc =>
      obtain ⟨rfl, rfl⟩ := Prod.mk.inj (Option.some.inj h)
      exact .pushMove hpc
  case h_6 pos hpc =>
      obtain ⟨mem, hmem, heq⟩ := Option.map_eq_some_iff.mp h
      obtain ⟨rfl, rfl⟩ := Prod.mk.inj heq
      exact .pushPublish hpc hmem
  case h_7 hpc =>
      obtain ⟨⟨pos, mem⟩, hmem, heq⟩ := Option.map_eq_some_iff.mp h
      obtain ⟨rfl, rfl⟩ := Prod.mk.inj heq
      exact .popLoad (.inl hpc) hmem
  case h_8 pos hpc =>
      obtain ⟨⟨seq, mem⟩, hmem, heq⟩ := Option.map_eq_some_iff.mp h
      dsimp only at heq
      split at heq
      · next hd =>
          obtain ⟨rfl, rfl⟩ := Prod.mk.inj heq
          exact .popReady hpc hmem hd
      · split at heq
        · obtain ⟨rfl, rfl⟩ := Prod.mk.inj heq
          exact .popEmpty hpc hmem
        · obtain ⟨rfl, rfl⟩ := Prod.mk.inj heq
          exact .popStale hpc hmem
  case h_9 pos hpc =>
      obtain ⟨⟨read, mem'⟩, hread, h⟩ := Option.bind_eq_some_iff.mp h
      dsimp only at h
      split at h
      · next hcas =>
          subst hcas
          obtain ⟨mem, hmem, heq⟩ := Option.map_eq_some_iff.mp h
          obtain ⟨rfl, rfl⟩ := Prod.mk.inj heq
          exact .popClaim hpc hread hmem
      · obtain ⟨rfl, rfl⟩ := Prod.mk.inj (Option.some.inj h)
        exact .popLoad (.inr ⟨pos, hpc⟩) hread
  case h_10 pos hpc =>
      obtain ⟨rfl, rfl⟩ := Prod.mk.inj (Option.some.inj h)
      exact .popMove hpc
  case h_11 pos result hpc =>
      obtain ⟨mem, hmem, heq⟩ := Option.map_eq_some_iff.mp h
      obtain ⟨rfl, rfl⟩ := Prod.mk.inj heq
      exact .popPublish hpc hmem
  case h_12 hpc =>
      obtain ⟨⟨enq, mem⟩, hmem, heq⟩ := Option.map_eq_some_iff.mp h
      obtain ⟨rfl, rfl⟩ := Prod.mk.inj heq
      exact .sizeEnq hpc hmem
  case h_13 enq hpc =>
      obtain ⟨⟨deq, mem⟩, hmem, heq⟩ := Option.map_eq_some_iff.mp h
      obtain ⟨rfl, rfl⟩ := Prod.mk.inj heq
      exact .sizeDeq hpc hmem

/-- Inversion of a step; every later argument starts from this lemma. -/
theorem step_move {cfg : Config} {w w' : State ι α} {a : Act ι α}
    {es : List (Event ι α)} (h : step cfg w a = some (w', es)) :
    Move cfg w w' es := by
  cases a with
  | go t ts => exact goStep_move h
  | tryPush t value =>
      simp only [step] at h
      split at h
      · next hpc =>
          obtain ⟨rfl, rfl⟩ := Prod.mk.inj (Option.some.inj h)
          exact .pushCall value hpc
      · cases h
  | tryPop t =>
      simp only [step] at h
      split at h
      · next hpc =>
          obtain ⟨rfl, rfl⟩ := Prod.mk.inj (Option.some.inj h)
          exact .popCall hpc
      · cases h
  | sizeApprox t =>
      simp only [step] at h
      split at h
      · next hpc =>
          obtain ⟨rfl, rfl⟩ := Prod.mk.inj (Option.some.inj h)
          exact .sizeCall hpc
      · cases h
  | spurious t ts =>
      simp only [step] at h
      split at h
      · next value pos hpc =>
          obtain ⟨⟨read, mem⟩, hmem, heq⟩ := Option.map_eq_some_iff.mp h
          obtain ⟨rfl, rfl⟩ := Prod.mk.inj heq
          exact .pushLoad (.inr ⟨pos, hpc⟩) hmem
      · next pos hpc =>
          obtain ⟨⟨read, mem⟩, hmem, heq⟩ := Option.map_eq_some_iff.mp h
          obtain ⟨rfl, rfl⟩ := Prod.mk.inj heq
          exact .popLoad (.inr ⟨pos, hpc⟩) hmem
      · cases h

end WeakMemory
end LockFreeQueue
end AsyncTaskEngine
