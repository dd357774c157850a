import AsyncTaskEngine.LockFreeOwnership

/-!
# Calls of the lock-free queue that do not overlap

When every call returns before the next one starts, the queue is a bounded FIFO
queue for ever: positions and sequences may wrap around any number of times.

The relation `Holds` reads the ring buffer as the list of its elements.  It
speaks of words only, so that nothing in it depends on how many elements have
passed through the queue.  `sequential_fifo` says that every sequence of calls
returns what the specification `boundedFifo` returns.
-/

namespace AsyncTaskEngine
namespace LockFreeQueue

universe u v

variable {ι : Type u} {α : Type v}

/-- A call, without the thread that makes it. -/
inductive Op (α : Type v) where
  | push (value : α)
  | pop

/-- What a call returns; a popped element is the contents of its slot. -/
inductive Result (α : Type v) where
  | pushed
  | full
  | popped (data : Option α)
  | empty
deriving DecidableEq

/-- The results of calls on a FIFO queue of at most `cap` elements that holds `q`. -/
def boundedFifo (cap : Nat) : List α → List (Op α) → List (Result α)
  | _, [] => []
  | q, .push v :: ops =>
      if q.length < cap then .pushed :: boundedFifo cap (q ++ [v]) ops
      else .full :: boundedFifo cap q ops
  | [], .pop :: ops => .empty :: boundedFifo cap [] ops
  | v :: q, .pop :: ops => .popped (some v) :: boundedFifo cap q ops

/-- The action that starts a call. -/
def Op.start (t : ι) : Op α → Act ι α
  | .push v => .tryPush t v
  | .pop => .tryPop t

/-- The result that an event reports. -/
def Event.result? : Event ι α → Option (Result α)
  | .pushReturned _ _ => some .pushed
  | .pushFailed _ => some .full
  | .popReturned _ _ data => some (.popped data)
  | .popFailed _ => some .empty
  | _ => none

/-- The argument of a `try_push` that has not been moved from. -/
def Pc.argument? : Pc α → Option α
  | .pushLoad v => some v
  | .pushSeq v _ => some v
  | .pushCas v _ => some v
  | .pushData v _ => some v
  | _ => none

/-- The queue holds `q`, whose oldest element has ticket `n`. -/
structure Holds (cfg : Config) (s : State ι α) (n : Nat) (q : List α) : Prop where
  enq : s.enqueuePos = word (n + q.length)
  deq : s.dequeuePos = word n
  length_le : q.length ≤ cfg.cap
  held : ∀ i v, q[i]? = some v →
    s.buffer (word (n + i) &&& cfg.mask) = { sequence := word (n + i + 1), data := some v }
  free : ∀ i, q.length ≤ i → i < cfg.cap →
    (s.buffer (word (n + i) &&& cfg.mask)).sequence = word (n + i)

section Holds

variable {cfg : Config} {s : State ι α} {n : Nat} {q : List α}

/-- Tickets less than a round apart live in different slots. -/
theorem slot_ne (cfg : Config) {m n : Nat} (h : m < n) (hn : n < m + cfg.cap) :
    word m &&& cfg.mask ≠ word n &&& cfg.mask := by
  rw [word_and_mask, word_and_mask]
  intro heq
  have hcell := word_cell_inj cfg (Nat.mod_lt _ (cap_pos cfg)) (Nat.mod_lt _ (cap_pos cfg)) heq
  have := TicketRing.ticket_gap hcell h
  omega

/-- The next ticket of a slot is a round later. -/
theorem slot_round (cfg : Config) (n : Nat) :
    word (n + cfg.cap) &&& cfg.mask = word n &&& cfg.mask := by
  rw [word_and_mask, word_and_mask, Nat.add_mod_right]

theorem holds_init [DecidableEq ι] : Holds cfg (queue cfg : Machine (State ι α) _ _).init 0 [] where
  enq := rfl
  deq := rfl
  length_le := Nat.zero_le _
  held i v hv := by simp at hv
  free i _ hi := by
    show word (0 + i) &&& cfg.mask = word (0 + i)
    rw [word_and_mask, Nat.zero_add, Nat.mod_eq_of_lt hi]

theorem Holds.room (h : Holds cfg s n q) (hroom : q.length < cfg.cap) :
    (s.buffer (s.enqueuePos &&& cfg.mask)).sequence = s.enqueuePos := by
  rw [h.enq]
  exact h.free _ (le_refl _) hroom

/-- The slot behind the last element of a full queue still holds the oldest one. -/
theorem Holds.full (h : Holds cfg s n q) (hfull : q.length = cfg.cap) :
    diff (s.buffer (s.enqueuePos &&& cfg.mask)).sequence s.enqueuePos < 0 := by
  have hcap := two_le_cap cfg
  have hmax := cap_le cfg
  have hslot := h.held 0 _ (List.getElem?_eq_getElem (by omega))
  rw [Nat.add_zero] at hslot
  rw [h.enq, hfull, slot_round, hslot, diff_word (by omega) (by omega)]
  omega

theorem Holds.oldest {v : α} (h : Holds cfg s n (v :: q)) :
    s.buffer (s.dequeuePos &&& cfg.mask) =
      { sequence := s.dequeuePos + 1, data := some v } := by
  have hslot := h.held 0 v rfl
  rw [Nat.add_zero] at hslot
  rw [h.deq, hslot, word_succ]

theorem Holds.none_left (h : Holds cfg s n []) :
    diff (s.buffer (s.dequeuePos &&& cfg.mask)).sequence (s.dequeuePos + 1) < 0 := by
  have hslot := h.free 0 (le_refl _) (cap_pos cfg)
  rw [Nat.add_zero] at hslot
  rw [h.deq, hslot, word_succ, diff_word (by omega) (by omega)]
  omega

theorem Holds.setPc [DecidableEq ι] {t : ι} {pc : Pc α} (h : Holds cfg s n q) :
    Holds cfg (s.setPc t pc) n q :=
  ⟨h.enq, h.deq, h.length_le, h.held, h.free⟩

/-- A push appends its argument. -/
theorem Holds.pushed (h : Holds cfg s n q) (hroom : q.length < cfg.cap) (v : α) :
    Holds cfg (pushed cfg s v) n (q ++ [v]) := by
  have hother : ∀ i, i < q.length ∨ q.length < i → i < cfg.cap →
      (LockFreeQueue.pushed cfg s v).buffer (word (n + i) &&& cfg.mask) =
        s.buffer (word (n + i) &&& cfg.mask) := by
    intro i hne hi
    refine Function.update_of_ne ?_ _ _
    rw [h.enq]
    rcases hne with hlt | hlt
    · exact slot_ne cfg (by omega) (by omega)
    · exact (slot_ne cfg (by omega) (by omega)).symm
  refine ⟨?_, h.deq, by rw [List.length_append]; exact hroom, ?_, ?_⟩
  · show s.enqueuePos + 1 = _
    rw [h.enq, word_succ, List.length_append]
    rfl
  · intro i w hw
    rcases Nat.lt_trichotomy i q.length with hlt | rfl | hgt
    · rw [List.getElem?_append_left hlt] at hw
      rw [hother i (.inl hlt) (by omega)]
      exact h.held i w hw
    · obtain rfl : v = w := by simpa using hw
      simp only [LockFreeQueue.pushed, h.enq, Function.update_self]
      rw [word_succ]
    · rw [List.getElem?_eq_none (by rw [List.length_append]; exact hgt)] at hw
      cases hw
  · intro i hle hi
    rw [List.length_append, List.length_singleton] at hle
    rw [hother i (.inr (by omega)) hi]
    exact h.free i (by omega) hi

/-- A pop removes the oldest element. -/
theorem Holds.popped {v : α} (h : Holds cfg s n (v :: q)) :
    Holds cfg (popped cfg s) (n + 1) q := by
  have hlen := h.length_le
  rw [List.length_cons] at hlen
  have hother : ∀ i, i + 1 < cfg.cap →
      (LockFreeQueue.popped cfg s).buffer (word (n + 1 + i) &&& cfg.mask) =
        s.buffer (word (n + (i + 1)) &&& cfg.mask) := by
    intro i hi
    have hne := slot_ne cfg (m := n) (n := n + 1 + i) (by omega) (by omega)
    rw [show n + (i + 1) = n + 1 + i by omega]
    refine Function.update_of_ne ?_ _ _
    rw [h.deq]
    exact hne.symm
  refine ⟨?_, ?_, by omega, ?_, ?_⟩
  · show s.enqueuePos = _
    rw [h.enq, List.length_cons]
    congr 1
    omega
  · show s.dequeuePos + 1 = _
    rw [h.deq, word_succ]
  · intro i w hw
    have hi := (List.getElem?_eq_some_iff.mp hw).1
    rw [hother i (by omega), h.held (i + 1) w (by simpa using hw)]
    congr 2
    omega
  · intro i hle hi
    by_cases hlast : i + 1 < cfg.cap
    · rw [hother i hlast, h.free (i + 1) (by simpa using hle) hlast]
      congr 1
      omega
    · -- the slot that has just been released
      have hround : n + 1 + i = n + cfg.cap := by omega
      rw [hround, slot_round, ← h.deq]
      simp only [LockFreeQueue.popped, Function.update_self]
      rw [h.deq, capacity_word, word_add]

end Holds

variable [DecidableEq ι]

/-- A call of thread `t` that runs alone, from its start to its return.  Its weak
compare-exchange may fail spuriously any number of times. -/
structure Call (cfg : Config) (s : State ι α) (t : ι) (o : Op α) (moves : List (Act ι α))
    (res : Result α) (s' : State ι α) (es : List (Event ι α)) : Prop where
  alone : ∀ m ∈ moves, m = .go t ∨ m = .spurious t
  run : (queue cfg).exec s (o.start t :: moves) = some (s', es)
  returned : s'.pc t = .idle
  result : es.filterMap Event.result? = [res]

/-- Calls that do not overlap, with their results. -/
inductive Calls (cfg : Config) :
    State ι α → List (ι × Op α) → List (Result α) → State ι α → Prop
  | nil {s : State ι α} : Calls cfg s [] [] s
  | cons {s s' s'' : State ι α} {t : ι} {o : Op α} {moves : List (Act ι α)}
      {res : Result α} {es : List (Event ι α)} {ops : List (ι × Op α)}
      {results : List (Result α)}
      (first : Call cfg s t o moves res s' es)
      (rest : Calls cfg s' ops results s'') :
      Calls cfg s ((t, o) :: ops) (res :: results) s''

/-- A call that is refused changes nothing, and a push has its argument in its hands
before every move, the last one included. -/
structure Refused (cfg : Config) (s : State ι α) (t : ι) (o : Op α)
    (moves : List (Act ι α)) (s' : State ι α) : Prop where
  unchanged : s' = s
  kept : ∀ v, o = .push v → ∀ ms m ms', moves = ms ++ m :: ms' → ∀ s₁ es₁,
    (queue cfg).exec s (o.start t :: ms) = some (s₁, es₁) → (s₁.pc t).argument? = some v

section Calls

variable {cfg : Config} {s s' : State ι α} {t : ι} {n : Nat} {q : List α}

@[simp] theorem setPc_setPc (s : State ι α) (t : ι) (pc pc' : Pc α) :
    (s.setPc t pc).setPc t pc' = s.setPc t pc' := by
  simp [State.setPc]

theorem setPc_eq_self (s : State ι α) {t : ι} {pc : Pc α} (h : s.pc t = pc) :
    s.setPc t pc = s := by
  subst h
  simp [State.setPc]

/-- A push that finds the queue full returns at its first look at the slot. -/
theorem exec_full (v : α) (hidle : s.pc t = .idle)
    (hd : diff (s.buffer (s.enqueuePos &&& cfg.mask)).sequence s.enqueuePos < 0) :
    (queue cfg).exec s [.tryPush t v, .go t, .go t] =
      some (s, [.pushCalled t v, .pushFailed t]) := by
  simp [Machine.exec, queue, step, goStep, hidle, hd, hd.ne, setPc_eq_self]

/-- A pop that finds the queue empty returns at its first look at the slot. -/
theorem exec_empty (hidle : s.pc t = .idle)
    (hd : diff (s.buffer (s.dequeuePos &&& cfg.mask)).sequence (s.dequeuePos + 1) < 0) :
    (queue cfg).exec s [.tryPop t, .go t, .go t] =
      some (s, [.popCalled t, .popFailed t]) := by
  have hd' : diff (s.buffer (s.dequeuePos &&& cfg.mask)).sequence (s.dequeuePos + 1#64) < 0 := hd
  simp [Machine.exec, queue, step, goStep, hidle, hd', hd'.ne, setPc_eq_self]

/-- How far a `try_push` of thread `t` has come that runs alone from `s`. -/
inductive Pushing (cfg : Config) (s : State ι α) (t : ι) (v : α) :
    State ι α → List (Event ι α) → Prop
  | called : Pushing cfg s t v (s.setPc t (.pushLoad v)) [.pushCalled t v]
  | loaded : Pushing cfg s t v (s.setPc t (.pushSeq v s.enqueuePos)) [.pushCalled t v]
  | ready (hseq : (s.buffer (s.enqueuePos &&& cfg.mask)).sequence = s.enqueuePos) :
      Pushing cfg s t v (s.setPc t (.pushCas v s.enqueuePos)) [.pushCalled t v]
  | claimed (hseq : (s.buffer (s.enqueuePos &&& cfg.mask)).sequence = s.enqueuePos) :
      Pushing cfg s t v
        { s.setPc t (.pushData v s.enqueuePos) with enqueuePos := s.enqueuePos + 1 }
        [.pushCalled t v, .pushClaimed t s.enqueuePos v]
  | moved (hseq : (s.buffer (s.enqueuePos &&& cfg.mask)).sequence = s.enqueuePos) :
      Pushing cfg s t v
        { (s.setSlot (s.enqueuePos &&& cfg.mask)
            { sequence := s.enqueuePos, data := some v }).setPc t (.pushStore s.enqueuePos) with
          enqueuePos := s.enqueuePos + 1 }
        [.pushCalled t v, .pushClaimed t s.enqueuePos v]
  | returned (hseq : (s.buffer (s.enqueuePos &&& cfg.mask)).sequence = s.enqueuePos) :
      Pushing cfg s t v (pushed cfg s v)
        [.pushCalled t v, .pushClaimed t s.enqueuePos v, .pushReturned t s.enqueuePos]
  | failed (hd : diff (s.buffer (s.enqueuePos &&& cfg.mask)).sequence s.enqueuePos < 0) :
      Pushing cfg s t v s [.pushCalled t v, .pushFailed t]

theorem Pushing.step {v : α} {s₁ s₂ : State ι α} {tr es : List (Event ι α)}
    {m : Act ι α} (hidle : s.pc t = .idle)
    (hslot : (s.buffer (s.enqueuePos &&& cfg.mask)).sequence = s.enqueuePos ∨
      diff (s.buffer (s.enqueuePos &&& cfg.mask)).sequence s.enqueuePos < 0)
    (h : Pushing cfg s t v s₁ tr) (hm : m = .go t ∨ m = .spurious t)
    (hs : step cfg s₁ m = some (s₂, es)) : Pushing cfg s t v s₂ (tr ++ es) := by
  rcases hm with rfl | rfl
  · cases h with
    | called =>
        obtain ⟨rfl, rfl⟩ := by simpa [LockFreeQueue.step, goStep] using hs
        exact .loaded
    | loaded =>
        rcases hslot with hseq | hd
        · obtain ⟨rfl, rfl⟩ := by
            simpa [LockFreeQueue.step, goStep, diff_eq_zero.mpr hseq] using hs
          exact .ready hseq
        · obtain ⟨rfl, rfl⟩ := by
            simpa [LockFreeQueue.step, goStep, hd, hd.ne, setPc_eq_self _ hidle] using hs
          exact .failed hd
    | ready hseq =>
        obtain ⟨rfl, rfl⟩ := by simpa [LockFreeQueue.step, goStep] using hs
        exact .claimed hseq
    | claimed hseq =>
        obtain ⟨rfl, rfl⟩ := by
          simpa [LockFreeQueue.step, goStep, State.setSlot, State.setPc, hseq] using hs
        simpa [State.setSlot, State.setPc] using Pushing.moved hseq
    | moved hseq =>
        have hpc : Function.update s.pc t .idle = s.pc := by
          rw [← hidle, Function.update_eq_self]
        obtain ⟨rfl, rfl⟩ := by
          simpa [LockFreeQueue.step, goStep, State.setSlot, State.setPc, hpc] using hs
        exact .returned hseq
    | returned hseq => simp [LockFreeQueue.step, goStep, pushed, hidle] at hs
    | failed hd => simp [LockFreeQueue.step, goStep, hidle] at hs
  · cases h with
    | ready hseq =>
        obtain ⟨rfl, rfl⟩ := by simpa [LockFreeQueue.step, goStep] using hs
        exact .loaded
    | _ => simp [LockFreeQueue.step, State.setPc, pushed, hidle] at hs

/-- Every run of a `try_push` that is alone goes through these stages. -/
theorem pushing_of_exec {v : α} {ms : List (Act ι α)} {es : List (Event ι α)}
    (hslot : (s.buffer (s.enqueuePos &&& cfg.mask)).sequence = s.enqueuePos ∨
      diff (s.buffer (s.enqueuePos &&& cfg.mask)).sequence s.enqueuePos < 0)
    (hm : ∀ m ∈ ms, m = .go t ∨ m = .spurious t)
    (he : (queue cfg).exec s (.tryPush t v :: ms) = some (s', es)) :
    s.pc t = .idle ∧ Pushing cfg s t v s' es := by
  have hidle : s.pc t = .idle := by
    cases hpc : s.pc t with
    | idle => rfl
    | _ => simp [Machine.exec, queue, LockFreeQueue.step, hpc] at he
  have hcall : (queue cfg).step s (.tryPush t v) =
      some (s.setPc t (.pushLoad v), [.pushCalled t v]) := by
    simp [queue, LockFreeQueue.step, hidle]
  rw [Machine.exec_cons hcall] at he
  obtain ⟨⟨s₁, fs⟩, hrun, heq⟩ := Option.map_eq_some_iff.mp he
  obtain ⟨rfl, rfl⟩ := Prod.mk.inj heq
  refine ⟨hidle, Machine.exec_invariant
    (P := fun q tr => Pushing cfg s t v q (.pushCalled t v :: tr)) hrun .called ?_⟩
  intro q tr m q' fs' hmem hq hs
  exact Pushing.step hidle hslot hq (hm m hmem) hs

/-- How far a `try_pop` of thread `t` has come that runs alone from `s`. -/
inductive Popping (cfg : Config) (s : State ι α) (t : ι) (data : Option α) :
    State ι α → List (Event ι α) → Prop
  | called : Popping cfg s t data (s.setPc t .popLoad) [.popCalled t]
  | loaded : Popping cfg s t data (s.setPc t (.popSeq s.dequeuePos)) [.popCalled t]
  | ready (hslot : s.buffer (s.dequeuePos &&& cfg.mask) = ⟨s.dequeuePos + 1, data⟩) :
      Popping cfg s t data (s.setPc t (.popCas s.dequeuePos)) [.popCalled t]
  | claimed (hslot : s.buffer (s.dequeuePos &&& cfg.mask) = ⟨s.dequeuePos + 1, data⟩) :
      Popping cfg s t data
        { s.setPc t (.popData s.dequeuePos) with dequeuePos := s.dequeuePos + 1 }
        [.popCalled t, .popClaimed t s.dequeuePos]
  | moved (hslot : s.buffer (s.dequeuePos &&& cfg.mask) = ⟨s.dequeuePos + 1, data⟩) :
      Popping cfg s t data
        { (s.setSlot (s.dequeuePos &&& cfg.mask) ⟨s.dequeuePos + 1, none⟩).setPc t
            (.popStore s.dequeuePos data) with
          dequeuePos := s.dequeuePos + 1 }
        [.popCalled t, .popClaimed t s.dequeuePos]
  | returned (hslot : s.buffer (s.dequeuePos &&& cfg.mask) = ⟨s.dequeuePos + 1, data⟩) :
      Popping cfg s t data (popped cfg s)
        [.popCalled t, .popClaimed t s.dequeuePos, .popReturned t s.dequeuePos data]
  | failed (hd : diff (s.buffer (s.dequeuePos &&& cfg.mask)).sequence
        (s.dequeuePos + 1) < 0) :
      Popping cfg s t data s [.popCalled t, .popFailed t]

theorem Popping.step {data : Option α} {s₁ s₂ : State ι α} {tr es : List (Event ι α)}
    {m : Act ι α} (hidle : s.pc t = .idle)
    (hslot : s.buffer (s.dequeuePos &&& cfg.mask) = ⟨s.dequeuePos + 1, data⟩ ∨
      diff (s.buffer (s.dequeuePos &&& cfg.mask)).sequence (s.dequeuePos + 1) < 0)
    (h : Popping cfg s t data s₁ tr) (hm : m = .go t ∨ m = .spurious t)
    (hs : step cfg s₁ m = some (s₂, es)) : Popping cfg s t data s₂ (tr ++ es) := by
  rcases hm with rfl | rfl
  · cases h with
    | called =>
        obtain ⟨rfl, rfl⟩ := by simpa [LockFreeQueue.step, goStep] using hs
        exact .loaded
    | loaded =>
        rcases hslot with hready | hd
        · have hd : diff (s.buffer (s.dequeuePos &&& cfg.mask)).sequence
              (s.dequeuePos + 1#64) = 0 := diff_eq_zero.mpr (by rw [hready]; rfl)
          obtain ⟨rfl, rfl⟩ := by simpa [LockFreeQueue.step, goStep, hd] using hs
          exact .ready hready
        · have hd' : diff (s.buffer (s.dequeuePos &&& cfg.mask)).sequence
              (s.dequeuePos + 1#64) < 0 := hd
          obtain ⟨rfl, rfl⟩ := by
            simpa [LockFreeQueue.step, goStep, hd', hd'.ne, setPc_eq_self _ hidle] using hs
          exact .failed hd
    | ready hready =>
        obtain ⟨rfl, rfl⟩ := by simpa [LockFreeQueue.step, goStep] using hs
        exact .claimed hready
    | claimed hready =>
        obtain ⟨rfl, rfl⟩ := by
          simpa [LockFreeQueue.step, goStep, State.setSlot, State.setPc, hready] using hs
        simpa [State.setSlot, State.setPc] using Popping.moved hready
    | moved hready =>
        have hpc : Function.update s.pc t .idle = s.pc := by
          rw [← hidle, Function.update_eq_self]
        obtain ⟨rfl, rfl⟩ := by
          simpa [LockFreeQueue.step, goStep, State.setSlot, State.setPc, hpc] using hs
        exact .returned hready
    | returned hready => simp [LockFreeQueue.step, goStep, popped, hidle] at hs
    | failed hd => simp [LockFreeQueue.step, goStep, hidle] at hs
  · cases h with
    | ready hready =>
        obtain ⟨rfl, rfl⟩ := by simpa [LockFreeQueue.step, goStep] using hs
        exact .loaded
    | _ => simp [LockFreeQueue.step, State.setPc, popped, hidle] at hs

/-- Every run of a `try_pop` that is alone goes through these stages. -/
theorem popping_of_exec {data : Option α} {ms : List (Act ι α)} {es : List (Event ι α)}
    (hslot : s.buffer (s.dequeuePos &&& cfg.mask) = ⟨s.dequeuePos + 1, data⟩ ∨
      diff (s.buffer (s.dequeuePos &&& cfg.mask)).sequence (s.dequeuePos + 1) < 0)
    (hm : ∀ m ∈ ms, m = .go t ∨ m = .spurious t)
    (he : (queue cfg).exec s (.tryPop t :: ms) = some (s', es)) :
    s.pc t = .idle ∧ Popping cfg s t data s' es := by
  have hidle : s.pc t = .idle := by
    cases hpc : s.pc t with
    | idle => rfl
    | _ => simp [Machine.exec, queue, LockFreeQueue.step, hpc] at he
  have hcall : (queue cfg).step s (.tryPop t) =
      some (s.setPc t .popLoad, [.popCalled t]) := by
    simp [queue, LockFreeQueue.step, hidle]
  rw [Machine.exec_cons hcall] at he
  obtain ⟨⟨s₁, fs⟩, hrun, heq⟩ := Option.map_eq_some_iff.mp he
  obtain ⟨rfl, rfl⟩ := Prod.mk.inj heq
  refine ⟨hidle, Machine.exec_invariant
    (P := fun q tr => Popping cfg s t data q (.popCalled t :: tr)) hrun .called ?_⟩
  intro q tr m q' fs' hmem hq hs
  exact Popping.step hidle hslot hq (hm m hmem) hs

/-- A full queue never lets a push past the look at its slot. -/
theorem Pushing.argument_of_full {v : α} {s₁ : State ι α} {tr : List (Event ι α)}
    (hd : diff (s.buffer (s.enqueuePos &&& cfg.mask)).sequence s.enqueuePos < 0)
    (h : Pushing cfg s t v s₁ tr) (hrunning : s₁.pc t ≠ .idle) (hidle : s.pc t = .idle) :
    (s₁.pc t).argument? = some v := by
  have hready : (s.buffer (s.enqueuePos &&& cfg.mask)).sequence ≠ s.enqueuePos :=
    fun hseq => hd.ne (diff_eq_zero.mpr hseq)
  cases h with
  | called => simp [Pc.argument?]
  | loaded => simp [Pc.argument?]
  | ready hseq => exact (hready hseq).elim
  | claimed hseq => exact (hready hseq).elim
  | moved hseq => exact (hready hseq).elim
  | returned hseq => exact (hready hseq).elim
  | failed _ => exact (hrunning hidle).elim

/-- The queue after a call that runs alone, by the elements it held before. -/
theorem Holds.push {v : α} {moves : List (Act ι α)} {res : Result α}
    {es : List (Event ι α)} (h : Holds cfg s n q)
    (call : Call cfg s t (.push v) moves res s' es) :
    s'.pc = s.pc ∧
      (q.length < cfg.cap ∧ res = .pushed ∧ Holds cfg s' n (q ++ [v]) ∨
        q.length = cfg.cap ∧ res = .full ∧ Refused cfg s t (.push v) moves s') := by
  have hslot : (s.buffer (s.enqueuePos &&& cfg.mask)).sequence = s.enqueuePos ∨
      diff (s.buffer (s.enqueuePos &&& cfg.mask)).sequence s.enqueuePos < 0 := by
    rcases Nat.lt_or_eq_of_le h.length_le with hroom | hfull
    · exact .inl (h.room hroom)
    · exact .inr (h.full hfull)
  obtain ⟨hidle, hstage⟩ := pushing_of_exec hslot call.alone call.run
  have hres := call.result
  have hback := call.returned
  cases hstage with
  | returned hseq =>
      have hroom : q.length < cfg.cap := by
        rcases Nat.lt_or_eq_of_le h.length_le with hroom | hfull
        · exact hroom
        · exact ((h.full hfull).ne (diff_eq_zero.mpr hseq)).elim
      simp [List.filterMap, Event.result?] at hres
      exact ⟨rfl, .inl ⟨hroom, hres.symm, h.pushed hroom v⟩⟩
  | failed hd =>
      have hfull : q.length = cfg.cap := by
        rcases Nat.lt_or_eq_of_le h.length_le with hroom | hfull
        · exact (hd.ne (diff_eq_zero.mpr (h.room hroom))).elim
        · exact hfull
      simp [List.filterMap, Event.result?] at hres
      refine ⟨rfl, .inr ⟨hfull, hres.symm, rfl, ?_⟩⟩
      rintro v' ⟨⟩ ms m ms' rfl s₁ es₁ he
      obtain ⟨_, hbefore⟩ := pushing_of_exec (.inr hd)
        (fun m' hm' => call.alone m' (List.mem_append_left _ hm')) he
      refine hbefore.argument_of_full hd (fun hs₁ => ?_) hidle
      -- a call that has returned makes no further move
      have hrun := call.run
      rw [← List.cons_append, Machine.exec_append_eq] at hrun
      rw [show (queue cfg).exec s ((Op.push v).start t :: ms) = some (s₁, es₁) from he] at hrun
      have hm := call.alone m (by simp)
      rcases hm with rfl | rfl <;>
        simp [Machine.exec, queue, LockFreeQueue.step, goStep, hs₁] at hrun
  | _ => simp [State.setPc] at hback

theorem Holds.pop {moves : List (Act ι α)} {res : Result α} {es : List (Event ι α)}
    (h : Holds cfg s n q) (call : Call cfg s t .pop moves res s' es) :
    s'.pc = s.pc ∧
      ((∃ v q', q = v :: q' ∧ res = .popped (some v) ∧ Holds cfg s' (n + 1) q') ∨
        q = [] ∧ res = .empty ∧ Refused cfg s t .pop moves s') := by
  have hres := call.result
  have hback := call.returned
  cases q with
  | nil =>
      obtain ⟨hidle, hstage⟩ : s.pc t = .idle ∧ Popping cfg s t none s' es :=
        popping_of_exec (.inr h.none_left) call.alone call.run
      cases hstage with
      | returned hslot =>
          have hd := h.none_left
          rw [hslot] at hd
          exact (hd.ne (diff_eq_zero.mpr rfl)).elim
      | failed hd =>
          simp [List.filterMap, Event.result?] at hres
          exact ⟨rfl, .inr ⟨rfl, hres.symm, rfl, by simp⟩⟩
      | _ => simp [State.setPc] at hback
  | cons v q' =>
      obtain ⟨hidle, hstage⟩ := popping_of_exec (.inl h.oldest) call.alone call.run
      cases hstage with
      | returned hslot =>
          simp [List.filterMap, Event.result?] at hres
          exact ⟨rfl, .inl ⟨v, q', rfl, hres.symm, h.popped⟩⟩
      | failed hd =>
          rw [h.oldest] at hd
          exact (hd.ne (diff_eq_zero.mpr rfl)).elim
      | _ => simp [State.setPc] at hback

/-- Every call that is alone returns if it is left to run. -/
theorem Holds.exists_call (h : Holds cfg s n q) (t : ι) (hidle : s.pc t = .idle) (o : Op α) :
    ∃ moves res s' es, Call cfg s t o moves res s' es := by
  cases o with
  | push v =>
      rcases Nat.lt_or_eq_of_le h.length_le with hroom | hfull
      · exact ⟨[.go t, .go t, .go t, .go t, .go t], .pushed, _, _, by simp,
          exec_push v hidle (h.room hroom), hidle, rfl⟩
      · exact ⟨[.go t, .go t], .full, _, _, by simp, exec_full v hidle (h.full hfull), hidle,
          rfl⟩
  | pop =>
      cases q with
      | nil =>
          exact ⟨[.go t, .go t], .empty, _, _, by simp, exec_empty hidle h.none_left, hidle, rfl⟩
      | cons v q' =>
          exact ⟨[.go t, .go t, .go t, .go t, .go t], _, _, _, by simp,
            exec_pop hidle (by rw [h.oldest]), hidle, rfl⟩

/-- Calls that do not overlap return what the specification returns. -/
theorem Holds.calls {ops : List (ι × Op α)} {results : List (Result α)}
    (h : Holds cfg s n q) (hrun : Calls cfg s ops results s') :
    s'.pc = s.pc ∧ results = boundedFifo cfg.cap q (ops.map Prod.snd) ∧
      ∃ n' q', Holds cfg s' n' q' := by
  induction hrun generalizing n q with
  | nil => exact ⟨rfl, rfl, n, q, h⟩
  | @cons s s₁ s₂ t o moves res es ops results first rest ih =>
      cases o with
      | push v =>
          obtain ⟨hpc, ⟨hroom, rfl, h'⟩ | ⟨hfull, rfl, href⟩⟩ := h.push first
          · obtain ⟨hpc', rfl, hlast⟩ := ih h'
            exact ⟨hpc'.trans hpc, by simp [boundedFifo, hroom], hlast⟩
          · obtain rfl := href.unchanged
            obtain ⟨hpc', rfl, hlast⟩ := ih h
            exact ⟨hpc', by simp [boundedFifo, hfull], hlast⟩
      | pop =>
          obtain ⟨hpc, ⟨v, q', rfl, rfl, h'⟩ | ⟨rfl, rfl, href⟩⟩ := h.pop first
          · obtain ⟨hpc', rfl, hlast⟩ := ih h'
            exact ⟨hpc'.trans hpc, by simp [boundedFifo], hlast⟩
          · obtain rfl := href.unchanged
            obtain ⟨hpc', rfl, hlast⟩ := ih h
            exact ⟨hpc', by simp [boundedFifo], hlast⟩

/-- Every sequence of calls can be made. -/
theorem Holds.exists_calls (h : Holds cfg s n q) (hidle : ∀ t, s.pc t = .idle)
    (ops : List (ι × Op α)) : ∃ results s', Calls cfg s ops results s' := by
  induction ops generalizing s n q with
  | nil => exact ⟨[], s, .nil⟩
  | cons o ops ih =>
      obtain ⟨t, o⟩ := o
      obtain ⟨moves, res, s₁, es, first⟩ := h.exists_call t (hidle t) o
      obtain ⟨hpc, _, n', q', h'⟩ := h.calls (.cons first .nil)
      obtain ⟨results, s', rest⟩ := ih h' (by rw [hpc]; exact hidle)
      exact ⟨res :: results, s', .cons first rest⟩

/-- A thread can push and pop any number of elements while the others are delayed. -/
theorem Holds.laps (h : Holds cfg s n []) {t : ι} (hidle : s.pc t = .idle) (v : α) (k : Nat) :
    ∃ as s' es, (∀ a ∈ as, ∀ u, a ≠ .spurious u) ∧
      (queue cfg).exec s as = some (s', es) ∧ Holds cfg s' (n + k) [] ∧ s'.pc = s.pc := by
  induction k with
  | zero => exact ⟨[], s, [], by simp, rfl, h, rfl⟩
  | succ k ih =>
      obtain ⟨as, s₁, es, hno, he, h₁, hpc⟩ := ih
      have hidle₁ : s₁.pc t = .idle := by rw [hpc]; exact hidle
      have hpush := exec_push v hidle₁ (h₁.room (cap_pos cfg))
      have h₂ := h₁.pushed (cap_pos cfg) v
      have hpop := exec_pop (s := LockFreeQueue.pushed cfg s₁ v) hidle₁ (by rw [h₂.oldest])
      refine ⟨_, _, _, ?_, Machine.exec_append he (Machine.exec_append hpush hpop), h₂.popped,
        hpc⟩
      intro a ha
      rcases List.mem_append.mp ha with hold | hnew
      · exact hno a hold
      · rcases List.mem_append.mp hnew with hmem | hmem <;>
          simp only [List.mem_cons, List.not_mem_nil, or_false] at hmem <;>
          rcases hmem with rfl | rfl | rfl | rfl | rfl | rfl <;> simp

end Calls

/-- The queue is a bounded FIFO queue for calls that do not overlap. -/
structure SequentialFifo (cfg : Config) (init : State ι α) : Prop where
  /-- Every sequence of calls returns, however often it is continued. -/
  returns : ∀ ops : List (ι × Op α), ∃ results s, Calls cfg init ops results s
  results : ∀ ops results s, Calls cfg init ops results s →
    results = boundedFifo cfg.capacity.toNat [] (ops.map Prod.snd)
  refused : ∀ ops results s t o moves res s' es, Calls cfg init ops results s →
    Call cfg s t o moves res s' es → res = .full ∨ res = .empty → Refused cfg s t o moves s'

/--
For every capacity the queue is a bounded FIFO queue for sequences of calls of
any length, wrap-around of the positions and sequences included.
-/
theorem sequential_fifo (cfg : Config) :
    SequentialFifo cfg (queue cfg : Machine (State ι α) _ _).init where
  returns := holds_init.exists_calls fun _ => rfl
  results ops results s hrun := by
    rw [capacity_toNat]
    exact (holds_init.calls hrun).2.1
  refused ops results s t o moves res s' es hrun call hres := by
    obtain ⟨_, _, n, q, h⟩ := holds_init.calls hrun
    cases o with
    | push v =>
        obtain ⟨_, ⟨_, rfl, _⟩ | ⟨_, _, href⟩⟩ := h.push call
        · simp at hres
        · exact href
    | pop =>
        obtain ⟨_, ⟨v, q', _, rfl, _⟩ | ⟨_, _, href⟩⟩ := h.pop call
        · simp at hres
        · exact href

end LockFreeQueue
end AsyncTaskEngine
