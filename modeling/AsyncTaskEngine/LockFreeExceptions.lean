import AsyncTaskEngine.LockFreeOwnership

/-!
# Exceptions thrown by element moves

`LockFreeQueue` asks of its elements only that they can be moved, so a call may
leave by an exception at three places: while `try_push(const T&)` copies its
argument, in the move into or out of `slot.data`, and while `try_pop` builds
the optional it returns.

`throwing_moves` says that the queue survives the first, which happens before
the call touches the queue, and neither of the others.  The move in the middle
happens between the compare-exchange that claims the ticket and the store that
hands the slot on, and the exception skips the store: the slot of such a call
is never claimed again.  The last one happens after the store, so the slot is
used again, but the element that was moved out of it is lost.

A call that has left in the middle is treated as a thread that is delayed for
ever there, a *ghost*; the thread itself goes on as its own successor.
-/

namespace AsyncTaskEngine
namespace LockFreeQueue

open TicketRing (Phase PhaseOk RingInv)

universe u v w

/-- The actions of the queue, and the exceptions. -/
inductive ThrowAct (ι : Type u) (α : Type v) where
  | plain (a : Act ι α)
  /-- The copy made by `try_push(const T&)` throws. -/
  | copyThrow (t : ι)
  /-- The move into or out of `slot.data` throws and leaves `data` there. -/
  | moveThrow (t : ι) (data : Option α)
  /-- The construction of the returned optional throws. -/
  | returnThrow (t : ι)

/-- The events of the queue, and the calls that leave by an exception. -/
inductive ThrowEvent (ι : Type u) (α : Type v) where
  | plain (e : Event ι α)
  | copyThrew (t : ι)
  | moveThrew (t : ι) (pos : Word)
  | returnThrew (t : ι) (pos : Word) (result : Option α)
deriving DecidableEq

variable {ι : Type u} {α : Type v} [DecidableEq ι]

/-- One step of a queue whose elements may throw. -/
def throwStep (cfg : Config) (s : State ι α) :
    ThrowAct ι α → Option (State ι α × List (ThrowEvent ι α))
  | .plain a => (step cfg s a).map fun r => (r.1, r.2.map .plain)
  | .copyThrow t =>
      match s.pc t with
      | .idle => some (s, [.copyThrew t])
      | _ => none
  | .moveThrow t data =>
      -- the store of the sequence is skipped
      match s.pc t with
      | .pushData _ pos =>
          let i := pos &&& cfg.mask
          some ((s.setSlot i { s.buffer i with data := data }).setPc t .idle,
            [.moveThrew t pos])
      | .popData pos =>
          let i := pos &&& cfg.mask
          some ((s.setSlot i { s.buffer i with data := data }).setPc t .idle,
            [.moveThrew t pos])
      | _ => none
  | .returnThrow t =>
      match s.pc t with
      | .popStore pos result =>
          let i := pos &&& cfg.mask
          some ((s.setSlot i { s.buffer i with sequence := pos + cfg.capacity }).setPc
            t .idle, [.returnThrew t pos result])
      | _ => none

/-- A constructed queue whose elements may throw. -/
def throwing (cfg : Config) : Machine (State ι α) (ThrowAct ι α) (ThrowEvent ι α) where
  init := (queue cfg).init
  step := throwStep cfg

/-- What the callers see of a run, the exceptions left out. -/
def calls (tr : List (ThrowEvent ι α)) : List (Event ι α) :=
  tr.filterMap fun
    | .plain e => some e
    | _ => none

/-- What the shared memory sees of a run: a pop that loses its result has released its slot. -/
def accesses (tr : List (ThrowEvent ι α)) : List (Event ι α) :=
  tr.filterMap fun
    | .plain e => some e
    | .returnThrew t pos result => some (.popReturned t pos result)
    | _ => none

section Calls

variable (tr es : List (ThrowEvent ι α))

omit [DecidableEq ι] in
@[simp] theorem calls_append : calls (tr ++ es) = calls tr ++ calls es :=
  List.filterMap_append

omit [DecidableEq ι] in
@[simp] theorem accesses_append : accesses (tr ++ es) = accesses tr ++ accesses es :=
  List.filterMap_append

omit [DecidableEq ι] in
@[simp] theorem calls_plain (es : List (Event ι α)) : calls (es.map .plain) = es := by
  simp [calls, List.filterMap_map]

omit [DecidableEq ι] in
@[simp] theorem accesses_plain (es : List (Event ι α)) : accesses (es.map .plain) = es := by
  simp [accesses, List.filterMap_map]

omit [DecidableEq ι] in
/-- An exception makes no difference to a projection that passes over returned pops. -/
theorem filterMap_accesses {β : Type w} {f : Event ι α → Option β}
    (hf : ∀ t pos result, f (.popReturned t pos result) = none) :
    (accesses tr).filterMap f = (calls tr).filterMap f := by
  rw [accesses, calls, List.filterMap_filterMap, List.filterMap_filterMap]
  congr 1
  funext e
  cases e <;> simp [hf]

omit [DecidableEq ι] in
theorem pushClaims_accesses : pushClaims (accesses tr) = pushClaims (calls tr) :=
  filterMap_accesses tr fun _ _ _ => rfl

omit [DecidableEq ι] in
theorem popClaims_accesses : popClaims (accesses tr) = popClaims (calls tr) :=
  filterMap_accesses tr fun _ _ _ => rfl

omit [DecidableEq ι] in
theorem pushReturns_accesses : pushReturns (accesses tr) = pushReturns (calls tr) :=
  filterMap_accesses tr fun _ _ _ => rfl

variable {tr}

omit [DecidableEq ι] in
theorem mem_calls {e : Event ι α} : e ∈ calls tr ↔ .plain e ∈ tr := by
  rw [calls, List.mem_filterMap]
  constructor
  · rintro ⟨x, hx, heq⟩
    cases x with
    | plain e' =>
        obtain rfl : e' = e := Option.some.inj heq
        exact hx
    | _ => cases heq
  · intro hmem
    exact ⟨_, hmem, rfl⟩

omit [DecidableEq ι] in
/-- Apart from the returned pops, the memory sees what the callers see. -/
theorem mem_calls_of_accesses {e : Event ι α}
    (hne : ∀ t pos result, e ≠ .popReturned t pos result) (hmem : e ∈ accesses tr) :
    e ∈ calls tr := by
  obtain ⟨x, hx, heq⟩ := List.mem_filterMap.mp hmem
  cases x with
  | plain e' =>
      obtain rfl : e' = e := Option.some.inj heq
      exact mem_calls.mpr hx
  | returnThrew t pos result => exact (hne t pos result (Option.some.inj heq).symm).elim
  | _ => cases heq

end Calls

/-- No move between a compare-exchange and the return of its call throws. -/
def MovesReturn (_ : State ι α) (_ : List (ThrowEvent ι α)) : ThrowAct ι α → Prop
  | .moveThrow _ _ => False
  | .returnThrow _ => False
  | _ => True

instance (s : State ι α) (tr : List (ThrowEvent ι α)) (a : ThrowAct ι α) :
    Decidable (MovesReturn s tr a) :=
  match a with
  | .moveThrow _ _ => isFalse not_false
  | .returnThrow _ => isFalse not_false
  | .plain _ => isTrue trivial
  | .copyThrow _ => isTrue trivial

section Surviving

variable {cfg : Config} {s : State ι α} {tr : List (ThrowEvent ι α)}

/-- If no move throws, the queue goes through one of its ordinary runs. -/
theorem reach_calls (hr : (throwing cfg).ReachWhen MovesReturn s tr) :
    (queue cfg).Reach s (calls tr) := by
  induction hr with
  | init => exact .init
  | @step s s' tr es a hr hc hs ih =>
      rw [calls_append]
      cases a with
      | plain a =>
          obtain ⟨⟨s₁, fs⟩, hfs, heq⟩ := Option.map_eq_some_iff.mp hs
          obtain ⟨rfl, rfl⟩ := Prod.mk.inj heq
          rw [calls_plain]
          exact .step ih hfs
      | copyThrow t =>
          simp only [throwing, throwStep] at hs
          split at hs
          · obtain ⟨rfl, rfl⟩ := by simpa using hs
            simpa [calls] using ih
          · cases hs
      | moveThrow t data => exact hc.elim
      | returnThrow t => exact hc.elim

end Surviving

/-- The same action by another thread. -/
def Act.mapThread {κ : Type w} (f : ι → κ) : Act ι α → Act κ α
  | .tryPush t value => .tryPush (f t) value
  | .tryPop t => .tryPop (f t)
  | .sizeApprox t => .sizeApprox (f t)
  | .go t => .go (f t)
  | .spurious t => .spurious (f t)

/-- The same event of another thread. -/
def Event.mapThread {κ : Type w} (f : ι → κ) : Event ι α → Event κ α
  | .pushCalled t value => .pushCalled (f t) value
  | .pushClaimed t pos value => .pushClaimed (f t) pos value
  | .pushReturned t pos => .pushReturned (f t) pos
  | .pushFailed t => .pushFailed (f t)
  | .popCalled t => .popCalled (f t)
  | .popClaimed t pos => .popClaimed (f t) pos
  | .popReturned t pos result => .popReturned (f t) pos result
  | .popFailed t => .popFailed (f t)
  | .sizeReturned t size => .sizeReturned (f t) size

section MapThread

variable {κ : Type w} (f : ι → κ) (tr : List (Event ι α))

omit [DecidableEq ι] in
/-- What is read off the events does not depend on the names of the threads. -/
theorem filterMap_mapThread {β : Type*} {p : Event ι α → Option β} {p' : Event κ α → Option β}
    (hp : ∀ e, p' (Event.mapThread f e) = p e) :
    (tr.map (Event.mapThread f)).filterMap p' = tr.filterMap p := by
  rw [List.filterMap_map]
  exact congrArg (List.filterMap · tr) (funext hp)

omit [DecidableEq ι] in
theorem pushClaims_mapThread : pushClaims (tr.map (Event.mapThread f)) = pushClaims tr :=
  filterMap_mapThread f tr fun e => by cases e <;> rfl

omit [DecidableEq ι] in
theorem popClaims_mapThread : popClaims (tr.map (Event.mapThread f)) = popClaims tr :=
  filterMap_mapThread f tr fun e => by cases e <;> rfl

omit [DecidableEq ι] in
theorem pushReturns_mapThread : pushReturns (tr.map (Event.mapThread f)) = pushReturns tr :=
  filterMap_mapThread f tr fun e => by cases e <;> rfl

omit [DecidableEq ι] in
theorem popReturns_mapThread : popReturns (tr.map (Event.mapThread f)) = popReturns tr :=
  filterMap_mapThread f tr fun e => by cases e <;> rfl

end MapThread

/-- A ghost of the slot `i`: a call of an earlier incarnation that owns it. -/
def Haunts (cfg : Config) (g : ι → Nat) (q : State (ι × Nat) α) (i : Word) : Prop :=
  ∃ t m, m < g t ∧ (q.pc (t, m)).slot? cfg = some i

/--
The queue `s` whose thread `t` has thrown `g t` times, and the ordinary queue
`q` in which it runs as its incarnation `g t` while the earlier ones are ghosts.
-/
structure Haunted (cfg : Config) (s : State ι α) (g : ι → Nat) (q : State (ι × Nat) α) :
    Prop where
  enq : q.enqueuePos = s.enqueuePos
  deq : q.dequeuePos = s.dequeuePos
  sequence : ∀ i, (q.buffer i).sequence = (s.buffer i).sequence
  data : ∀ i, ¬ Haunts cfg g q i → (q.buffer i).data = (s.buffer i).data
  current : ∀ t, q.pc (t, g t) = s.pc t
  unborn : ∀ t m, g t < m → q.pc (t, m) = .idle

section Haunted

variable {cfg : Config} {s s' : State ι α} {g : ι → Nat} {q q' : State (ι × Nat) α}

/-- The ghosts are where they were when the current incarnation moves. -/
theorem haunts_update {t : ι} {pc : Pc α} {i : Word}
    (hpc : q'.pc = Function.update q.pc (t, g t) pc) :
    Haunts cfg g q' i ↔ Haunts cfg g q i := by
  have hold : ∀ u m, m < g u → q'.pc (u, m) = q.pc (u, m) := by
    intro u m hm
    rw [hpc, Function.update_of_ne]
    rintro heq
    obtain ⟨rfl, rfl⟩ := Prod.mk.inj heq
    exact Nat.lt_irrefl _ hm
  constructor
  · rintro ⟨u, m, hm, hslot⟩
    exact ⟨u, m, hm, by rw [← hold u m hm]; exact hslot⟩
  · rintro ⟨u, m, hm, hslot⟩
    exact ⟨u, m, hm, by rw [hold u m hm]; exact hslot⟩

/-- A step of one thread, which may change its slot and the counters. -/
theorem Haunted.move (h : Haunted cfg s g q) {t : ι} {pc : Pc α}
    (henq : q'.enqueuePos = s'.enqueuePos) (hdeq : q'.dequeuePos = s'.dequeuePos)
    (hseq : ∀ i, (q'.buffer i).sequence = (s'.buffer i).sequence)
    (hdata : ∀ i, ¬ Haunts cfg g q i → (q'.buffer i).data = (s'.buffer i).data)
    (hq : q'.pc = Function.update q.pc (t, g t) pc)
    (hs : s'.pc = Function.update s.pc t pc) : Haunted cfg s' g q' := by
  refine ⟨henq, hdeq, hseq, ?_, ?_, ?_⟩
  · intro i hno
    exact hdata i fun hold => hno ((haunts_update hq).mpr hold)
  · intro u
    rw [hq, hs]
    by_cases hu : u = t
    · subst hu
      simp
    · rw [Function.update_of_ne hu, Function.update_of_ne fun heq => hu (Prod.mk.inj heq).1]
      exact h.current u
  · intro u m hm
    rw [hq, Function.update_of_ne]
    · exact h.unborn u m hm
    · rintro heq
      obtain ⟨rfl, rfl⟩ := Prod.mk.inj heq
      exact Nat.lt_irrefl _ hm

theorem Haunted.setPc (h : Haunted cfg s g q) (t : ι) (pc : Pc α) :
    Haunted cfg (s.setPc t pc) g (q.setPc (t, g t) pc) :=
  h.move h.enq h.deq h.sequence h.data rfl rfl

/-- A thread writes a slot: the new contents agree unless a ghost is there. -/
theorem Haunted.setSlot (h : Haunted cfg s g q) (t : ι) (pc : Pc α) {i : Word}
    {slot slot' : Slot α} (hseq : slot'.sequence = slot.sequence)
    (hdata : ¬ Haunts cfg g q i → slot'.data = slot.data) :
    Haunted cfg ((s.setSlot i slot).setPc t pc) g ((q.setSlot i slot').setPc (t, g t) pc) := by
  refine h.move h.enq h.deq ?_ ?_ rfl rfl
  · intro j
    by_cases hj : j = i
    · subst hj
      simpa using hseq
    · simpa [setSlot_ne _ _ _ hj] using h.sequence j
  · intro j hno
    by_cases hj : j = i
    · subst hj
      simpa using hdata hno
    · simpa [setSlot_ne _ _ _ hj] using h.data j hno

/-- The step of the incarnation that answers a step of the thread. -/
def Mirrored (cfg : Config) (s' : State ι α) (g : ι → Nat) (q : State (ι × Nat) α)
    (es : List (Event ι α)) (a : Act (ι × Nat) α) : Prop :=
  ∃ q' es', step cfg q a = some (q', es') ∧ Haunted cfg s' g q' ∧
    (∀ u m, m < g u → q'.pc (u, m) = q.pc (u, m)) ∧
    es'.map (Event.mapThread Prod.fst) = es

theorem Mirrored.of_move {a : Act (ι × Nat) α} {es : List (Event ι α)}
    {es' : List (Event (ι × Nat) α)} (t : ι)
    (hs : step cfg q a = some (q', es')) (h : Haunted cfg s' g q')
    (hpc : ∀ p, p ≠ (t, g t) → q'.pc p = q.pc p)
    (hes : es'.map (Event.mapThread Prod.fst) = es) : Mirrored cfg s' g q es a := by
  refine ⟨q', es', hs, h, ?_, hes⟩
  intro u m hm
  refine hpc _ ?_
  rintro heq
  obtain ⟨rfl, rfl⟩ := Prod.mk.inj heq
  exact Nat.lt_irrefl _ hm

/-- The next access of a thread is made by its current incarnation. -/
theorem Haunted.go (h : Haunted cfg s g q) {t : ι} {es : List (Event ι α)}
    (hexcl : ∀ i, (s.pc t).slot? cfg = some i → ¬ Haunts cfg g q i)
    (hs : goStep cfg s t = some (s', es)) : Mirrored cfg s' g q es (.go (t, g t)) := by
  have hcur := h.current t
  unfold goStep at hs
  split at hs
  case h_1 => cases hs
  case h_2 value hpc =>
      obtain ⟨rfl, rfl⟩ := by simpa using hs
      rw [hpc] at hcur
      exact .of_move t (by simp only [step, goStep, hcur, h.enq]; rfl)
        (h.setPc t _) (fun _ hp => setPc_ne _ _ _ hp) rfl
  case h_3 value pos hpc =>
      rw [hpc] at hcur
      dsimp only at hs
      split at hs
      · next hd =>
          obtain ⟨rfl, rfl⟩ := by simpa using hs
          exact .of_move t (by simp only [step, goStep, hcur, h.sequence, if_pos hd]; rfl)
            (h.setPc t _) (fun _ hp => setPc_ne _ _ _ hp) rfl
      · next hd =>
          split at hs
          · next hneg =>
              obtain ⟨rfl, rfl⟩ := by simpa using hs
              exact .of_move t
                (by simp only [step, goStep, hcur, h.sequence, if_neg hd, if_pos hneg]; rfl)
                (h.setPc t _) (fun _ hp => setPc_ne _ _ _ hp) rfl
          · next hneg =>
              obtain ⟨rfl, rfl⟩ := by simpa using hs
              exact .of_move t
                (by simp only [step, goStep, hcur, h.sequence, if_neg hd, if_neg hneg]; rfl)
                (h.setPc t _) (fun _ hp => setPc_ne _ _ _ hp) rfl
  case h_4 value pos hpc =>
      rw [hpc] at hcur
      split at hs
      · next hcas =>
          obtain ⟨rfl, rfl⟩ := by simpa using hs
          refine .of_move t (by simp only [step, goStep, hcur, h.enq, if_pos hcas]; rfl) ?_
            (fun _ hp => Function.update_of_ne hp _ _) rfl
          exact h.move rfl h.deq h.sequence h.data rfl rfl
      · next hcas =>
          obtain ⟨rfl, rfl⟩ := by simpa using hs
          exact .of_move t (by simp only [step, goStep, hcur, h.enq, if_neg hcas]; rfl)
            (h.setPc t _) (fun _ hp => setPc_ne _ _ _ hp) rfl
  case h_5 value pos hpc =>
      obtain ⟨rfl, rfl⟩ := by simpa using hs
      rw [hpc] at hcur
      refine .of_move t (by simp only [step, goStep, hcur]; rfl) ?_
        (fun _ hp => Function.update_of_ne hp _ _) rfl
      exact h.setSlot t _ (h.sequence _) fun _ => rfl
  case h_6 pos hpc =>
      obtain ⟨rfl, rfl⟩ := by simpa using hs
      rw [hpc] at hcur
      refine .of_move t (by simp only [step, goStep, hcur]; rfl) ?_
        (fun _ hp => Function.update_of_ne hp _ _) rfl
      exact h.setSlot t _ rfl fun hno => h.data _ hno
  case h_7 hpc =>
      obtain ⟨rfl, rfl⟩ := by simpa using hs
      rw [hpc] at hcur
      exact .of_move t (by simp only [step, goStep, hcur, h.deq]; rfl)
        (h.setPc t _) (fun _ hp => setPc_ne _ _ _ hp) rfl
  case h_8 pos hpc =>
      rw [hpc] at hcur
      dsimp only at hs
      split at hs
      · next hd =>
          obtain ⟨rfl, rfl⟩ := by simpa using hs
          exact .of_move t (by simp only [step, goStep, hcur, h.sequence, if_pos hd]; rfl)
            (h.setPc t _) (fun _ hp => setPc_ne _ _ _ hp) rfl
      · next hd =>
          split at hs
          · next hneg =>
              obtain ⟨rfl, rfl⟩ := by simpa using hs
              exact .of_move t
                (by simp only [step, goStep, hcur, h.sequence, if_neg hd, if_pos hneg]; rfl)
                (h.setPc t _) (fun _ hp => setPc_ne _ _ _ hp) rfl
          · next hneg =>
              obtain ⟨rfl, rfl⟩ := by simpa using hs
              exact .of_move t
                (by simp only [step, goStep, hcur, h.sequence, if_neg hd, if_neg hneg]; rfl)
                (h.setPc t _) (fun _ hp => setPc_ne _ _ _ hp) rfl
  case h_9 pos hpc =>
      rw [hpc] at hcur
      split at hs
      · next hcas =>
          obtain ⟨rfl, rfl⟩ := by simpa using hs
          refine .of_move t (by simp only [step, goStep, hcur, h.deq, if_pos hcas]; rfl) ?_
            (fun _ hp => Function.update_of_ne hp _ _) rfl
          exact h.move h.enq rfl h.sequence h.data rfl rfl
      · next hcas =>
          obtain ⟨rfl, rfl⟩ := by simpa using hs
          exact .of_move t (by simp only [step, goStep, hcur, h.deq, if_neg hcas]; rfl)
            (h.setPc t _) (fun _ hp => setPc_ne _ _ _ hp) rfl
  case h_10 pos hpc =>
      obtain ⟨rfl, rfl⟩ := by simpa using hs
      -- no ghost is in the slot, so both move the same value out
      have hdata := h.data _ (hexcl (pos &&& cfg.mask) (by rw [hpc]; rfl))
      rw [hpc] at hcur
      refine .of_move t (by simp only [step, goStep, hcur, hdata]; rfl) ?_
        (fun _ hp => Function.update_of_ne hp _ _) rfl
      exact h.setSlot t _ (h.sequence _) fun _ => rfl
  case h_11 pos result hpc =>
      obtain ⟨rfl, rfl⟩ := by simpa using hs
      rw [hpc] at hcur
      refine .of_move t (by simp only [step, goStep, hcur]; rfl) ?_
        (fun _ hp => Function.update_of_ne hp _ _) rfl
      exact h.setSlot t _ rfl fun hno => h.data _ hno
  case h_12 hpc =>
      obtain ⟨rfl, rfl⟩ := by simpa using hs
      rw [hpc] at hcur
      exact .of_move t (by simp only [step, goStep, hcur, h.enq]; rfl)
        (h.setPc t _) (fun _ hp => setPc_ne _ _ _ hp) rfl
  case h_13 enq hpc =>
      simp only [Option.some.injEq, Prod.mk.injEq] at hs
      obtain ⟨rfl, rfl⟩ := hs
      rw [hpc] at hcur
      exact .of_move t (by simp only [step, goStep, hcur, h.deq]; rfl)
        (h.setPc t _) (fun _ hp => setPc_ne _ _ _ hp) rfl

/-- Every step of a thread is a step of its current incarnation. -/
theorem Haunted.step (h : Haunted cfg s g q) {a : Act ι α} {es : List (Event ι α)}
    (hexcl : ∀ t i, (s.pc t).slot? cfg = some i → ¬ Haunts cfg g q i)
    (hs : step cfg s a = some (s', es)) :
    Mirrored cfg s' g q es (a.mapThread fun t => (t, g t)) := by
  cases a with
  | go t => exact h.go (hexcl t) hs
  | tryPush t value =>
      have hcur := h.current t
      simp only [LockFreeQueue.step] at hs
      split at hs
      · next hpc =>
          obtain ⟨rfl, rfl⟩ := by simpa using hs
          rw [hpc] at hcur
          exact .of_move t (by simp only [LockFreeQueue.step, Act.mapThread, hcur]; rfl)
            (h.setPc t _) (fun _ hp => setPc_ne _ _ _ hp) rfl
      · cases hs
  | tryPop t =>
      have hcur := h.current t
      simp only [LockFreeQueue.step] at hs
      split at hs
      · next hpc =>
          obtain ⟨rfl, rfl⟩ := by simpa using hs
          rw [hpc] at hcur
          exact .of_move t (by simp only [LockFreeQueue.step, Act.mapThread, hcur]; rfl)
            (h.setPc t _) (fun _ hp => setPc_ne _ _ _ hp) rfl
      · cases hs
  | sizeApprox t =>
      have hcur := h.current t
      simp only [LockFreeQueue.step] at hs
      split at hs
      · next hpc =>
          obtain ⟨rfl, rfl⟩ := by simpa using hs
          rw [hpc] at hcur
          exact .of_move t (by simp only [LockFreeQueue.step, Act.mapThread, hcur]; rfl)
            (h.setPc t _) (fun _ hp => setPc_ne _ _ _ hp) rfl
      · cases hs
  | spurious t =>
      have hcur := h.current t
      simp only [LockFreeQueue.step] at hs
      split at hs
      · next value pos hpc =>
          obtain ⟨rfl, rfl⟩ := by simpa using hs
          rw [hpc] at hcur
          exact .of_move t (by simp only [LockFreeQueue.step, Act.mapThread, hcur, h.enq]; rfl)
            (h.setPc t _) (fun _ hp => setPc_ne _ _ _ hp) rfl
      · next pos hpc =>
          obtain ⟨rfl, rfl⟩ := by simpa using hs
          rw [hpc] at hcur
          exact .of_move t (by simp only [LockFreeQueue.step, Act.mapThread, hcur, h.deq]; rfl)
            (h.setPc t _) (fun _ hp => setPc_ne _ _ _ hp) rfl
      · cases hs

end Haunted

/-- An ordinary run with ghosts that stands for a run with exceptions. -/
structure GhostRun (cfg : Config) (s : State ι α) (tr : List (ThrowEvent ι α))
    (g : ι → Nat) (q : State (ι × Nat) α) (tr' : List (Event (ι × Nat) α)) : Prop where
  reach : (queue cfg).Reach q tr'
  haunted : Haunted cfg s g q
  accesses : tr'.map (Event.mapThread Prod.fst) = accesses tr
  /-- Every call that a move has left is a ghost in front of that move. -/
  ghost : ∀ t pos, .moveThrew t pos ∈ tr → ∃ m < g t,
    (∃ v, q.pc (t, m) = .pushData v pos) ∨ q.pc (t, m) = .popData pos

section GhostRun

variable {cfg : Config} {s s' : State ι α} {tr : List (ThrowEvent ι α)}
variable {g : ι → Nat} {q : State (ι × Nat) α} {tr' : List (Event (ι × Nat) α)}

theorem GhostRun.pushClaims_eq (h : GhostRun cfg s tr g q tr') :
    pushClaims tr' = pushClaims (calls tr) := by
  rw [← pushClaims_accesses, ← h.accesses, pushClaims_mapThread]

theorem GhostRun.popClaims_eq (h : GhostRun cfg s tr g q tr') :
    popClaims tr' = popClaims (calls tr) := by
  rw [← popClaims_accesses, ← h.accesses, popClaims_mapThread]

theorem GhostRun.pushReturns_eq (h : GhostRun cfg s tr g q tr') :
    pushReturns tr' = pushReturns (calls tr) := by
  rw [← pushReturns_accesses, ← h.accesses, pushReturns_mapThread]

/-- The thread that owns a slot is the only one there, ghosts included. -/
theorem GhostRun.not_haunts (h : GhostRun cfg s tr g q tr')
    (hb : (pushClaims (calls tr)).length < 2 ^ 63) {t : ι} {i : Word}
    (hi : (s.pc t).slot? cfg = some i) : ¬ Haunts cfg g q i := by
  rintro ⟨u, m, hm, hslot⟩
  obtain ⟨r, hist, _, ⟨p, sim⟩, _⟩ := refines_of_bound h.reach (by rw [h.pushClaims_eq]; omega)
  rw [← h.haunted.current t] at hi
  obtain ⟨rfl, rfl⟩ := Prod.mk.inj (sim.slot?_inj hi hslot)
  exact Nat.lt_irrefl _ hm

/-- A step of the incarnation extends the ordinary run. -/
theorem GhostRun.mirror (h : GhostRun cfg s tr g q tr') {es : List (ThrowEvent ι α)}
    {a : Act (ι × Nat) α} (ha : Mirrored cfg s' g q (LockFreeQueue.accesses es) a)
    (hes : ∀ t pos, .moveThrew t pos ∉ es) :
    ∃ q₁ tr₁, GhostRun cfg s' (tr ++ es) g q₁ tr₁ := by
  obtain ⟨q₁, es', hs, hh, hold, hev⟩ := ha
  refine ⟨q₁, tr' ++ es', .step h.reach hs, hh, ?_, ?_⟩
  · rw [List.map_append, h.accesses, hev, accesses_append]
  · intro t pos hmem
    rcases List.mem_append.mp hmem with hmem | hmem
    · obtain ⟨m, hm, hpc⟩ := h.ghost t pos hmem
      rw [← hold t m hm] at hpc
      exact ⟨m, hm, hpc⟩
    · exact (hes t pos hmem).elim

/-- A call that a move leaves becomes a ghost. -/
theorem GhostRun.throw (h : GhostRun cfg s tr g q tr') {t : ι} {pos : Word}
    (data : Option α)
    (hpc : (∃ v, s.pc t = .pushData v pos) ∨ s.pc t = .popData pos) :
    ∃ g₁, GhostRun cfg ((s.setSlot (pos &&& cfg.mask)
        { s.buffer (pos &&& cfg.mask) with data := data }).setPc t .idle)
      (tr ++ [.moveThrew t pos]) g₁ q tr' := by
  have hh := h.haunted
  have hcur := hh.current t
  have hgrow : ∀ u, g u ≤ Function.update g t (g t + 1) u := by
    intro u
    by_cases hu : u = t
    · subst hu
      simp
    · simp [Function.update_of_ne hu]
  have hmine : Haunts cfg (Function.update g t (g t + 1)) q (pos &&& cfg.mask) := by
    refine ⟨t, g t, by simp, ?_⟩
    rw [hcur]
    rcases hpc with ⟨v, hpc⟩ | hpc <;> rw [hpc] <;> rfl
  refine ⟨Function.update g t (g t + 1), h.reach,
    ⟨hh.enq, hh.deq, ?_, ?_, ?_, ?_⟩, ?_, ?_⟩
  · intro i
    by_cases hi : i = pos &&& cfg.mask
    · subst hi
      simpa using hh.sequence _
    · simpa [setSlot_ne _ _ _ hi] using hh.sequence i
  · intro i hno
    have hi : i ≠ pos &&& cfg.mask := by
      rintro rfl
      exact hno hmine
    rw [setPc_buffer, setSlot_ne _ _ _ hi]
    refine hh.data i fun hold => hno ?_
    obtain ⟨u, m, hm, hslot⟩ := hold
    exact ⟨u, m, Nat.lt_of_lt_of_le hm (hgrow u), hslot⟩
  · intro u
    by_cases hu : u = t
    · subst hu
      rw [Function.update_self, setPc_self]
      exact hh.unborn u _ (Nat.lt_succ_self _)
    · rw [Function.update_of_ne hu, setPc_ne _ _ _ hu]
      exact hh.current u
  · intro u m hm
    exact hh.unborn u m (Nat.lt_of_le_of_lt (hgrow u) hm)
  · rw [h.accesses, accesses_append]
    simp [LockFreeQueue.accesses]
  · intro u w hmem
    rcases List.mem_append.mp hmem with hmem | hmem
    · obtain ⟨m, hm, hold⟩ := h.ghost u w hmem
      exact ⟨m, Nat.lt_of_lt_of_le hm (hgrow u), hold⟩
    · obtain ⟨rfl, rfl⟩ := by simpa using hmem
      refine ⟨g u, by simp, ?_⟩
      rw [hcur]
      exact hpc

/-- Every run with exceptions is an ordinary run with ghosts. -/
theorem exists_ghostRun (hr : (throwing cfg).Reach s tr)
    (hb : (pushClaims (calls tr)).length < 2 ^ 63) :
    ∃ g q tr', GhostRun cfg s tr g q tr' := by
  revert hb
  refine hr.invariant (P := fun s tr => (pushClaims (calls tr)).length < 2 ^ 63 →
    ∃ g q tr', GhostRun cfg s tr g q tr') ?_ ?_
  · intro _
    exact ⟨fun _ => 0, (queue cfg).init, [], .init,
      ⟨rfl, rfl, fun _ => rfl, fun _ _ => rfl, fun _ => rfl, fun _ _ _ => rfl⟩, rfl, by simp⟩
  intro s tr a s' es _ ih hs hb
  have hb₀ : (pushClaims (calls tr)).length < 2 ^ 63 := by
    rw [calls_append, pushClaims_append, List.length_append] at hb
    omega
  obtain ⟨g, q, tr', h⟩ := ih hb₀
  have hexcl := fun t i (hi : (s.pc t).slot? cfg = some i) => h.not_haunts hb₀ hi
  cases a with
  | plain a =>
      obtain ⟨⟨s₁, fs⟩, hfs, heq⟩ := Option.map_eq_some_iff.mp hs
      obtain ⟨rfl, rfl⟩ := Prod.mk.inj heq
      have ha := h.haunted.step hexcl hfs
      rw [← accesses_plain fs] at ha
      exact ⟨g, h.mirror ha (by simp)⟩
  | copyThrow t =>
      simp only [throwing, throwStep] at hs
      split at hs
      · obtain ⟨rfl, rfl⟩ := by simpa using hs
        refine ⟨g, q, tr', h.reach, h.haunted, ?_, ?_⟩
        · simpa [LockFreeQueue.accesses] using h.accesses
        · simpa using h.ghost
      · cases hs
  | moveThrow t data =>
      simp only [throwing, throwStep] at hs
      split at hs
      · next v pos hpc =>
          obtain ⟨rfl, rfl⟩ := by simpa using hs
          obtain ⟨g₁, h₁⟩ := h.throw data (.inl ⟨v, hpc⟩)
          exact ⟨g₁, q, tr', h₁⟩
      · next pos hpc =>
          obtain ⟨rfl, rfl⟩ := by simpa using hs
          obtain ⟨g₁, h₁⟩ := h.throw data (.inr hpc)
          exact ⟨g₁, q, tr', h₁⟩
      · cases hs
  | returnThrow t =>
      simp only [throwing, throwStep] at hs
      split at hs
      · next pos result hpc =>
          obtain ⟨rfl, rfl⟩ := by simpa using hs
          have hgo : goStep cfg s t = some ((s.setSlot (pos &&& cfg.mask)
              { s.buffer (pos &&& cfg.mask) with sequence := pos + cfg.capacity }).setPc t .idle,
                [.popReturned t pos result]) := by
            simp only [goStep, hpc]
          have ha := h.haunted.go (hexcl t) hgo
          have hno : ∀ u p, ThrowEvent.moveThrew u p ∉ [ThrowEvent.returnThrew t pos result] :=
            by simp
          exact ⟨g, h.mirror ha hno⟩
      · cases hs

end GhostRun

/-- A call that runs undisturbed pushes unless the queue is full and pops unless it is empty. -/
structure Serves (cfg : Config) (s : State ι α) : Prop where
  push : (s.enqueuePos - s.dequeuePos).toNat < cfg.capacity.toNat → ∀ t v, ∃ s',
    (queue cfg).exec s [.tryPush t v, .go t, .go t, .go t, .go t, .go t] =
      some (s', [.pushCalled t v, .pushClaimed t s.enqueuePos v,
        .pushReturned t s.enqueuePos])
  pop : s.enqueuePos ≠ s.dequeuePos → ∀ t, ∃ s' v,
    (queue cfg).exec s [.tryPop t, .go t, .go t, .go t, .go t, .go t] =
      some (s', [.popCalled t, .popClaimed t s.dequeuePos,
        .popReturned t s.dequeuePos (some v)])

/--
The slot of the ticket `pos` is out of use: nobody owns it, at most one more
round of pushes is drawn, and behind a lost push nothing is ever popped.
-/
structure DeadSlot (cfg : Config) (s : State ι α) (tr : List (ThrowEvent ι α))
    (pos : Word) : Prop where
  unowned : ∀ u, (s.pc u).slot? cfg ≠ some (pos &&& cfg.mask)
  stuck : ∃ k, (pushClaims (calls tr)).length ≤ k + cfg.capacity.toNat ∧
    ((∃ v, (pushClaims (calls tr))[k]? = some (pos, v) ∧ (popClaims (calls tr)).length ≤ k) ∨
      (popClaims (calls tr))[k]? = some pos)

/--
The element of the ticket `pos` is lost: its push has returned `true`, the pop
of thread `t` has taken it out of the queue, and no pop returns it.
-/
structure LostElement (tr : List (ThrowEvent ι α)) (t : ι) (pos : Word)
    (result : Option α) : Prop where
  pushed : ∃ u v, result = some v ∧ .pushClaimed u pos v ∈ calls tr
  published : pos ∈ pushReturns (calls tr)
  taken : .popClaimed t pos ∈ calls tr
  unreturned : pos ∉ popReturns (calls tr)

section Verdict

variable {cfg : Config} {s : State ι α} {tr : List (ThrowEvent ι α)}

/-- Between calls the ordinary queue serves every caller. -/
theorem serves_of_idle {tr : List (Event ι α)} (hr : (queue cfg).Reach s tr)
    (hb : (pushClaims tr).length < 2 ^ 63) (hidle : ∀ t, s.pc t = .idle) : Serves cfg s := by
  obtain ⟨r, h, hring, ⟨p, sim⟩, ok⟩ := refines_of_bound hr (by omega)
  have inv := TicketRing.ringInv_reach (cap_pos cfg) hring
  have hlen := ok.enq_eq inv
  have hmax := cap_le cfg
  obtain ⟨hle, hcap⟩ := inv.bounds
  have hnobody : ∀ {i : Nat} {t : ι}, i < cfg.cap → ¬ OwnedBy t (r.phase i) := by
    intro i t hi ho
    have howns := (sim.owns_of_ownedBy hi ho).1
    rw [hidle t] at howns
    exact howns
  constructor
  · intro hroom t v
    rw [sim.enq, sim.deq, toNat_word_sub hle (by omega), capacity_toNat] at hroom
    refine ⟨_, exec_push v (hidle t) ?_⟩
    have hi := Nat.mod_lt r.enq (cap_pos cfg)
    have hcell := inv.cell _ hi
    have hphase := inv.phase _ hi
    rw [sim.enq, sim.sequence_at]
    congr 1
    cases hp : r.phase (r.enq % cfg.cap) with
    | free q =>
        have hticket := ticket_le inv inv.bounds.1
        rw [hp] at hphase hticket
        simp only [PhaseOk, Phase.ticket] at hphase hticket
        show q = r.enq
        omega
    | full q v' =>
        -- a value of the last round would fill the queue
        rw [hp] at hcell hphase
        simp only [PhaseOk, Phase.ticket] at hcell hphase
        have hgap := TicketRing.ticket_gap hcell (by omega)
        omega
    | writing q u v' => exact (hnobody hi (by rw [hp]; exact rfl)).elim
    | reading q u v' => exact (hnobody hi (by rw [hp]; exact rfl)).elim
  · intro hne t
    have hlt : r.deq < r.enq := by
      rcases Nat.lt_or_ge r.deq r.enq with hlt | hge
      · exact hlt
      · exact (hne (by rw [sim.enq, sim.deq, Nat.le_antisymm hle hge])).elim
    have hi := Nat.mod_lt r.deq (cap_pos cfg)
    rcases inv.outstanding (cap_pos cfg) (le_refl _) hlt with ⟨u, v, hw⟩ | ⟨v, hf⟩
    · exact (hnobody hi (by rw [hw]; exact rfl)).elim
    · have hslot := sim.slot _ hi
      have hdata := sim.data _ hi _ _ hf
      rw [hf] at hslot
      rw [← word_and_mask, ← sim.deq] at hslot hdata
      have hexec := exec_pop (hidle t) (by rw [hslot, sim.deq]; exact (word_succ _).symm)
      rw [hdata] at hexec
      exact ⟨_, v, hexec⟩

/-- A ghost keeps its slot out of use. -/
theorem GhostRun.deadSlot {g : ι → Nat} {q : State (ι × Nat) α}
    {tr' : List (Event (ι × Nat) α)} (h : GhostRun cfg s tr g q tr')
    (hb : (pushClaims (calls tr)).length < 2 ^ 63) {t : ι} {pos : Word}
    (hmem : .moveThrew t pos ∈ tr) : DeadSlot cfg s tr pos := by
  obtain ⟨m, hm, hpc⟩ := h.ghost t pos hmem
  have hhaunts : Haunts cfg g q (pos &&& cfg.mask) := by
    refine ⟨t, m, hm, ?_⟩
    rcases hpc with ⟨v, hpc⟩ | hpc <;> rw [hpc] <;> rfl
  refine ⟨fun u hu => h.not_haunts hb hu hhaunts, ?_⟩
  obtain ⟨r, hist, hring, ⟨p, sim⟩, ok⟩ :=
    refines_of_bound h.reach (by rw [h.pushClaims_eq]; omega)
  have inv := TicketRing.ringInv_reach (cap_pos cfg) hring
  have henq := ok.enq_eq inv
  obtain ⟨hle, hcap⟩ := inv.bounds
  have hi := Nat.mod_lt (p (t, m)) (cap_pos cfg)
  have hbound := inv.phase _ hi
  have hok := sim.thread (t, m)
  rw [h.pushClaims_eq] at henq
  have hdeq : (popClaims (calls tr)).length = r.deq := by
    rw [← h.popClaims_eq, ok.pops, List.length_map, List.length_range]
  refine ⟨p (t, m), ?_⟩
  rw [henq, hdeq, capacity_toNat, ← h.pushClaims_eq, ← h.popClaims_eq]
  rcases hpc with ⟨v, hpc⟩ | hpc
  · rw [hpc] at hok
    obtain ⟨rfl, hphase⟩ := hok
    have hval := inv.value _ hi v (by rw [hphase]; rfl)
    rw [hphase] at hbound hval
    simp only [PhaseOk, Phase.ticket] at hbound hval
    refine ⟨by omega, .inl ⟨v, ?_, hbound.1⟩⟩
    rw [ok.pushes, List.getElem?_mapIdx, hval]
    rfl
  · rw [hpc] at hok
    obtain ⟨rfl, v, hphase, _⟩ := hok
    rw [hphase] at hbound
    simp only [PhaseOk] at hbound
    refine ⟨hbound.2, .inr ?_⟩
    rw [ok.pops, List.getElem?_map, List.getElem?_range hbound.1]
    rfl

/-- Events with one image under a projection without duplicates are equal. -/
theorem eq_of_nodup_filterMap {β : Type u} {γ : Type v} {f : β → Option γ} {l : List β}
    (hnd : (l.filterMap f).Nodup) {x y : β} {c : γ} (hx : x ∈ l) (hy : y ∈ l)
    (hfx : f x = some c) (hfy : f y = some c) : x = y := by
  by_contra hne
  have hpair := List.pairwise_filterMap.mp hnd
  have : Std.Symm fun a b : β => ∀ c, f a = some c → ∀ c', f b = some c' → c ≠ c' :=
    ⟨fun a b hab c hc c' hc' heq => hab c' hc' c hc heq.symm⟩
  exact hpair.forall hx hy hne c hfx c hfy rfl

/-- A pop that leaves while it returns has taken an element that nobody receives. -/
theorem GhostRun.lostElement {g : ι → Nat} {q : State (ι × Nat) α}
    {tr' : List (Event (ι × Nat) α)} (h : GhostRun cfg s tr g q tr')
    (hb : (pushClaims (calls tr)).length < 2 ^ 63) {t : ι} {pos : Word} {result : Option α}
    (hmem : .returnThrew t pos result ∈ tr) : LostElement tr t pos result := by
  obtain ⟨hist, hfifo⟩ := exists_fifoRun h.reach (by rw [h.pushClaims_eq]; exact hb)
  -- the pop returns in the ordinary run
  have hacc : .popReturned t pos result ∈ LockFreeQueue.accesses tr :=
    List.mem_filterMap.mpr ⟨_, hmem, rfl⟩
  have hmap : ∀ e ∈ tr', e.mapThread Prod.fst ∈ LockFreeQueue.accesses tr := by
    intro e he
    rw [← h.accesses]
    exact List.mem_map_of_mem he
  obtain ⟨p, hp, hret⟩ : ∃ p : ι × Nat, p.1 = t ∧ .popReturned p pos result ∈ tr' := by
    rw [← h.accesses] at hacc
    obtain ⟨e, he, heq⟩ := List.mem_map.mp hacc
    cases e with
    | popReturned p w res =>
        obtain ⟨rfl, rfl, rfl⟩ := by simpa [Event.mapThread] using heq
        exact ⟨p, rfl, he⟩
    | _ => cases heq
  obtain ⟨hclaim, u, v, rfl, hpush⟩ := hfifo.returned p pos result hret
  refine ⟨⟨u.1, v, rfl, mem_calls_of_accesses (by simp) (hmap _ hpush)⟩, ?_, ?_, ?_⟩
  · obtain ⟨pre, post, htr⟩ := List.append_of_mem hclaim
    obtain ⟨u', v', _, hpublished⟩ := hfifo.pushFirst pre post p pos htr
    rw [← h.pushReturns_eq, htr, pushReturns_append, List.mem_append]
    exact .inl (List.mem_filterMap.mpr ⟨_, hpublished, rfl⟩)
  · have hcall := mem_calls_of_accesses (by simp [Event.mapThread]) (hmap _ hclaim)
    rw [← hp]
    exact hcall
  · -- a second return of the ticket would be a second event with it
    intro hagain
    obtain ⟨e, he, hpos⟩ := List.mem_filterMap.mp hagain
    have hnd : (popReturns (LockFreeQueue.accesses tr)).Nodup := by
      rw [← h.accesses, popReturns_mapThread]
      exact hfifo.once
    rw [popReturns, LockFreeQueue.accesses, List.filterMap_filterMap] at hnd
    have heq := eq_of_nodup_filterMap hnd (mem_calls.mp he) hmem hpos rfl
    cases heq

variable (ι α) in
/--
The queue survives the exceptions of a run if and only if none of them is thrown
by a move between a compare-exchange and the return of its call.  If none is, the
run is a run of a bounded FIFO queue that serves every later caller.  A move into
or out of a slot that throws puts the slot out of use for the rest of the run, and
a pop whose last move throws loses its element.
-/
theorem throwing_moves (cfg : Config) :
    (∀ (s : State ι α) tr, (throwing cfg).ReachWhen MovesReturn s tr →
      (pushClaims (calls tr)).length < 2 ^ 63 →
        (∃ h, FifoRun cfg s (calls tr) h) ∧ ((∀ t, s.pc t = .idle) → Serves cfg s)) ∧
    (∀ (s : State ι α) tr, (throwing cfg).Reach s tr →
      (pushClaims (calls tr)).length < 2 ^ 63 →
        ∀ t pos, .moveThrew t pos ∈ tr → DeadSlot cfg s tr pos) ∧
    ∀ (s : State ι α) tr, (throwing cfg).Reach s tr →
      (pushClaims (calls tr)).length < 2 ^ 63 →
        ∀ t pos result, .returnThrew t pos result ∈ tr → LostElement tr t pos result := by
  refine ⟨?_, ?_, ?_⟩
  · intro s tr hr hb
    have hplain := reach_calls hr
    exact ⟨exists_fifoRun hplain hb, serves_of_idle hplain hb⟩
  · intro s tr hr hb t pos hmem
    obtain ⟨g, q, tr', h⟩ := exists_ghostRun hr hb
    exact h.deadSlot hb hmem
  · intro s tr hr hb t pos result hmem
    obtain ⟨g, q, tr', h⟩ := exists_ghostRun hr hb
    exact h.lostElement hb hmem

/-- Thread `true` loses the move into slot `0`, thread `false` pushes into slot `1`. -/
def lostPush : List (ThrowAct Bool Nat) :=
  [.plain (.tryPush true 7), .plain (.go true), .plain (.go true), .plain (.go true),
    .moveThrow true none,
    .plain (.tryPush false 8), .plain (.go false), .plain (.go false), .plain (.go false),
    .plain (.go false), .plain (.go false),
    .plain (.tryPop false), .plain (.go false), .plain (.go false),
    .plain (.tryPush true 9), .plain (.go true), .plain (.go true)]

/-- Thread `false` pops the element of thread `true` and loses it while it returns. -/
def lostPop : List (ThrowAct Bool Nat) :=
  [.plain (.tryPush true 7), .plain (.go true), .plain (.go true), .plain (.go true),
    .plain (.go true), .plain (.go true),
    .plain (.tryPop false), .plain (.go false), .plain (.go false), .plain (.go false),
    .plain (.go false), .returnThrow false]

theorem throwing_moves_twoSlots :
    (∃ (s : State Bool Nat) (tr : List (ThrowEvent Bool Nat)) (h : List (FifoOp Nat)),
      (throwing twoSlots).ReachWhen MovesReturn s tr ∧ .copyThrew true ∈ tr ∧
        .plain (.popReturned false 0 (some 7)) ∈ tr ∧ FifoRun twoSlots s (calls tr) h ∧
          Serves twoSlots s) ∧
    (∃ (s : State Bool Nat) (tr : List (ThrowEvent Bool Nat)),
      (throwing twoSlots).Reach s tr ∧ DeadSlot twoSlots s tr 0) ∧
    ∃ (s : State Bool Nat) (tr : List (ThrowEvent Bool Nat)),
      (throwing twoSlots).Reach s tr ∧ LostElement tr false 0 (some 7) := by
  obtain ⟨hkept, hdead, hlost⟩ := throwing_moves Bool Nat twoSlots
  refine ⟨?_, ?_, ?_⟩
  · obtain ⟨s, tr, hr, hp⟩ := Machine.exists_reachWhen_of_exec (M := throwing twoSlots)
      (C := MovesReturn) (.copyThrow true :: overlapping.map .plain)
      (p := fun r => decide (ThrowEvent.copyThrew true ∈ r.2 ∧
        ThrowEvent.plain (Event.popReturned false 0 (some 7)) ∈ r.2 ∧
          (pushClaims (calls r.2)).length < 2 ^ 63 ∧ ∀ t, r.1.pc t = .idle))
      (by decide)
    obtain ⟨hcopy, hpop, hb, hidle⟩ := of_decide_eq_true hp
    obtain ⟨⟨h, hfifo⟩, hserves⟩ := hkept s tr hr hb
    exact ⟨s, tr, h, hr, hcopy, hpop, hfifo, hserves hidle⟩
  · obtain ⟨s, tr, hr, hp⟩ := Machine.exists_reach_of_exec (M := throwing twoSlots) lostPush
      (p := fun r => decide (ThrowEvent.moveThrew true 0 ∈ r.2 ∧
        (pushClaims (calls r.2)).length < 2 ^ 63))
      (by decide)
    obtain ⟨hmem, hb⟩ := of_decide_eq_true hp
    exact ⟨s, tr, hr, hdead s tr hr hb true 0 hmem⟩
  · obtain ⟨s, tr, hr, hp⟩ := Machine.exists_reach_of_exec (M := throwing twoSlots) lostPop
      (p := fun r => decide (ThrowEvent.returnThrew false 0 (some 7) ∈ r.2 ∧
        (pushClaims (calls r.2)).length < 2 ^ 63))
      (by decide)
    obtain ⟨hmem, hb⟩ := of_decide_eq_true hp
    exact ⟨s, tr, hr, hlost s tr hr hb false 0 (some 7) hmem⟩

/--
Every call has ended.  The pushed `8` cannot be popped and the queue is full for
`9`, and nobody will own slot `0` again.
-/
theorem lost_push_blocks_queue :
    ∃ (s : State Bool Nat) (tr : List (ThrowEvent Bool Nat)),
      (throwing twoSlots).Reach s tr ∧ (∀ t, s.pc t = .idle) ∧
        tr = [.plain (.pushCalled true 7), .plain (.pushClaimed true 0 7),
          .moveThrew true 0,
          .plain (.pushCalled false 8), .plain (.pushClaimed false 1 8),
          .plain (.pushReturned false 1),
          .plain (.popCalled false), .plain (.popFailed false),
          .plain (.pushCalled true 9), .plain (.pushFailed true)] ∧
        ∀ as s' es, (throwing twoSlots).exec s as = some (s', es) →
          (pushClaims (calls (tr ++ es))).length < 2 ^ 63 →
            ∀ u, (s'.pc u).slot? twoSlots ≠ some 0 := by
  obtain ⟨s, tr, hr, hp⟩ := Machine.exists_reach_of_exec (M := throwing twoSlots) lostPush
    (p := fun r => decide ((∀ t, r.1.pc t = .idle) ∧
      r.2 = [.plain (.pushCalled true 7), .plain (.pushClaimed true 0 7),
        .moveThrew true 0,
        .plain (.pushCalled false 8), .plain (.pushClaimed false 1 8),
        .plain (.pushReturned false 1),
        .plain (.popCalled false), .plain (.popFailed false),
        .plain (.pushCalled true 9), .plain (.pushFailed true)]))
    (by decide)
  obtain ⟨hidle, rfl⟩ := of_decide_eq_true hp
  refine ⟨s, _, hr, hidle, rfl, ?_⟩
  intro as s' es he hb
  obtain ⟨g, q, tr', h⟩ := exists_ghostRun (hr.exec he) hb
  have hdead : DeadSlot twoSlots s' _ 0 := h.deadSlot hb (t := true) (by simp)
  exact hdead.unowned

end Verdict

end LockFreeQueue
end AsyncTaskEngine
