import AsyncTaskEngine.LockFreeVerdicts

/-!
# The approximate size of the lock-free queue

`size_approx` reads `enqueue_pos_` and `dequeue_pos_` one after the other, and
any number of elements may be pushed and popped in between.  A `SizeCall` fixes
the two moments of the loads within a run.

The push position is the older one of the two.  Hence the value never exceeds
the size of the queue at the first load, and it misses at most the elements
pushed between the loads; the bounds on the counters, which hold at every
moment of every run, do the rest.
-/

namespace AsyncTaskEngine
namespace LockFreeQueue

open TicketRing (RingInv)

universe u v w x

variable {ι : Type u} {α : Type v} [DecidableEq ι]

/-- The part of a run from the first to the second load of a `size_approx`. -/
structure SizeCall (cfg : Config) (t : ι) (s : State ι α) (tr : List (Event ι α))
    (as : List (Act ι α)) (s' : State ι α) (between : List (Event ι α))
    (size : Word) : Prop where
  reach : (queue cfg).Reach s tr
  atFirst : s.pc t = .sizeLoadEnq
  others : ∀ a ∈ as, a.thread ≠ t
  run : (queue cfg).exec s (.go t :: as) = some (s', between)
  atSecond : ∃ s'', step cfg s' (.go t) = some (s'', [.sizeReturned t size])

/-- A thread that is not inside `try_push` or `try_pop`. -/
def Pc.resting : Pc α → Prop
  | .idle => True
  | .sizeLoadEnq => True
  | .sizeLoadDeq _ => True
  | _ => False

/-- An action that starts no `try_push` and no `try_pop`. -/
def Act.observing : Act ι α → Prop
  | .tryPush _ _ => False
  | .tryPop _ => False
  | _ => True

/-- What `size_approx` promises for its two loads, at `s` and at `s'`. -/
structure SizeBounds (cfg : Config) (s : State ι α) (tr : List (Event ι α))
    (as : List (Act ι α)) (s' : State ι α) (between : List (Event ι α))
    (size : Word) : Prop where
  le_capacity : size.toNat ≤ cfg.capacity.toNat
  le_first : size.toNat + s.dequeuePos.toNat ≤ s.enqueuePos.toNat
  ge_second : s'.enqueuePos.toNat ≤
    size.toNat + s'.dequeuePos.toNat + (pushClaims between).length
  /-- With no other call in progress the value is the number of elements. -/
  exact_at_rest : (∀ u, (s.pc u).resting) → (∀ a ∈ as, a.observing) →
    (pushReturns tr).length = (popReturns tr).length + size.toNat

section Counters

variable {cfg : Config} {s s' : State ι α} {tr : List (Event ι α)}

/-- Before the words turn the positions count the claims, and bound each other. -/
theorem counters_of_bound (hr : (queue cfg).Reach s tr)
    (hb : (pushClaims tr).length < 2 ^ 64) :
    s.enqueuePos.toNat = (pushClaims tr).length ∧
      s.dequeuePos.toNat = (popClaims tr).length ∧
      (popClaims tr).length ≤ (pushClaims tr).length ∧
      (pushClaims tr).length ≤ (popClaims tr).length + cfg.capacity.toNat := by
  obtain ⟨r, h, hring, ⟨pos, sim⟩, ok⟩ := refines_of_bound hr hb
  have inv := TicketRing.ringInv_reach (cap_pos cfg) hring
  have henq := ok.enq_eq inv
  have hdeq : (popClaims tr).length = r.deq := by simp [ok.pops]
  obtain ⟨hle, hcap⟩ := inv.bounds
  rw [henq] at hb
  refine ⟨?_, ?_, by omega, by rw [capacity_toNat]; omega⟩
  · rw [sim.enq, toNat_word_of_lt hb, henq]
  · rw [sim.deq, toNat_word_of_lt (by omega), hdeq]

end Counters

section Completed

/-- The thread that has claimed a ticket for a push. -/
def Event.pusher? : Event ι α → Option ι
  | .pushClaimed t _ _ => some t
  | _ => none

/-- The thread whose push has returned. -/
def Event.pushDone? : Event ι α → Option ι
  | .pushReturned t _ => some t
  | _ => none

/-- The thread that has claimed a ticket for a pop. -/
def Event.popper? : Event ι α → Option ι
  | .popClaimed t _ => some t
  | _ => none

/-- The thread whose pop has returned. -/
def Event.popDone? : Event ι α → Option ι
  | .popReturned t _ _ => some t
  | _ => none

/-- The tickets a thread holds for a push. -/
def Pc.pushing : Pc α → Nat
  | .pushData _ _ => 1
  | .pushStore _ => 1
  | _ => 0

/-- The tickets a thread holds for a pop. -/
def Pc.popping : Pc α → Nat
  | .popData _ => 1
  | .popStore _ _ => 1
  | _ => 0

/-- The claims of a thread are those it has completed and the one it holds. -/
structure Balanced (s : State ι α) (tr : List (Event ι α)) (t : ι) : Prop where
  push : (tr.filterMap Event.pusher?).count t =
    (tr.filterMap Event.pushDone?).count t + (s.pc t).pushing
  pop : (tr.filterMap Event.popper?).count t =
    (tr.filterMap Event.popDone?).count t + (s.pc t).popping

/-- The events of one thread do not count for another one. -/
theorem count_of_other {es : List (Event ι α)} {t u : ι} {f : Event ι α → Option ι}
    (hf : ∀ e v, f e = some v → e.thread = v) (hmine : ∀ e ∈ es, e.thread = u)
    (htu : t ≠ u) : (es.filterMap f).count t = 0 := by
  rw [List.count_eq_zero]
  intro hmem
  obtain ⟨e, he, hfe⟩ := List.mem_filterMap.mp hmem
  exact htu ((hf e t hfe).symm.trans (hmine e he))

/-- A thread moves, and what it claims or completes is in the events. -/
theorem Balanced.move {s s' : State ι α} {tr es : List (Event ι α)} {t u : ι}
    {pc' : Pc α} (hb : Balanced s tr t) (hpc : s'.pc = Function.update s.pc u pc')
    (hmine : ∀ e ∈ es, e.thread = u)
    (hpush : (es.filterMap Event.pusher?).count u + (s.pc u).pushing =
      (es.filterMap Event.pushDone?).count u + pc'.pushing)
    (hpop : (es.filterMap Event.popper?).count u + (s.pc u).popping =
      (es.filterMap Event.popDone?).count u + pc'.popping) :
    Balanced s' (tr ++ es) t := by
  have hold := hb.push
  have hold' := hb.pop
  by_cases htu : t = u
  · subst htu
    constructor <;> rw [hpc, Function.update_self] <;>
      simp only [List.filterMap_append, List.count_append] <;> omega
  · have hzero : ∀ f : Event ι α → Option ι, (∀ e v, f e = some v → e.thread = v) →
        (es.filterMap f).count t = 0 := fun f hf => count_of_other hf hmine htu
    constructor <;> rw [hpc, Function.update_of_ne htu] <;>
      simp only [List.filterMap_append, List.count_append]
    · rw [hzero, hzero]
      · exact hold
      all_goals intro e v he; cases e <;> first | exact Option.some.inj he | cases he
    · rw [hzero, hzero]
      · exact hold'
      all_goals intro e v he; cases e <;> first | exact Option.some.inj he | cases he

theorem balanced_reach {cfg : Config} {s : State ι α} {tr : List (Event ι α)}
    (hr : (queue cfg).Reach s tr) (t : ι) : Balanced s tr t := by
  refine hr.invariant (P := fun s tr => Balanced s tr t) ⟨rfl, rfl⟩ ?_
  intro s tr a s' es _ ih hs
  have hm := step_move hs
  clear hs
  cases hm <;> refine ih.move rfl (by simp [Event.thread]) ?_ ?_ <;>
    simp [*, List.filterMap, Event.pusher?, Event.pushDone?, Event.popper?,
      Event.popDone?, Pc.pushing, Pc.popping]

omit [DecidableEq ι] in
/-- Projections that keep the same events have the same length. -/
theorem length_filterMap_congr {β : Type w} {γ : Type x} {f : Event ι α → Option β}
    {g : Event ι α → Option γ} (h : ∀ e, (f e).isSome = (g e).isSome)
    (tr : List (Event ι α)) : (tr.filterMap f).length = (tr.filterMap g).length := by
  rw [List.length_filterMap_eq_countP, List.length_filterMap_eq_countP]
  exact List.countP_congr fun e _ => by rw [h e]

/-- With nobody inside a call every claimed ticket has been completed. -/
theorem completed_at_rest {cfg : Config} {s : State ι α} {tr : List (Event ι α)}
    (hr : (queue cfg).Reach s tr) (hrest : ∀ u, (s.pc u).resting) :
    (pushClaims tr).length = (pushReturns tr).length ∧
      (popClaims tr).length = (popReturns tr).length := by
  have hzero : ∀ u, (s.pc u).pushing = 0 ∧ (s.pc u).popping = 0 := by
    intro u
    have := hrest u
    cases hpc : s.pc u <;> rw [hpc] at this <;> first | exact ⟨rfl, rfl⟩ | exact this.elim
  have hpush : (tr.filterMap Event.pusher?).Perm (tr.filterMap Event.pushDone?) := by
    rw [List.perm_iff_count]
    intro t
    rw [(balanced_reach hr t).push, (hzero t).1]
    rfl
  have hpop : (tr.filterMap Event.popper?).Perm (tr.filterMap Event.popDone?) := by
    rw [List.perm_iff_count]
    intro t
    rw [(balanced_reach hr t).pop, (hzero t).2]
    rfl
  constructor
  · calc (pushClaims tr).length
        = (tr.filterMap Event.pusher?).length :=
          length_filterMap_congr (fun e => by cases e <;> rfl) tr
      _ = (tr.filterMap Event.pushDone?).length := hpush.length_eq
      _ = (pushReturns tr).length :=
          length_filterMap_congr (fun e => by cases e <;> rfl) tr
  · calc (popClaims tr).length
        = (tr.filterMap Event.popper?).length :=
          length_filterMap_congr (fun e => by cases e <;> rfl) tr
      _ = (tr.filterMap Event.popDone?).length := hpop.length_eq
      _ = (popReturns tr).length :=
          length_filterMap_congr (fun e => by cases e <;> rfl) tr

end Completed

section Rest

variable {cfg : Config} {s s' : State ι α} {es : List (Event ι α)}

theorem resting_step {a : Act ι α} (hrest : ∀ u, (s.pc u).resting) (ha : a.observing)
    (hs : step cfg s a = some (s', es)) :
    (∀ u, (s'.pc u).resting) ∧ s'.dequeuePos = s.dequeuePos := by
  have hmove : ∀ t (pc : Pc α), pc.resting → ∀ u, ((s.setPc t pc).pc u).resting := by
    intro t pc hpc u
    by_cases hut : u = t
    · subst hut
      rwa [setPc_self]
    · rw [setPc_ne _ _ _ hut]
      exact hrest u
  cases a with
  | tryPush t v => exact ha.elim
  | tryPop t => exact ha.elim
  | sizeApprox t =>
      simp only [step] at hs
      split at hs <;> cases hs
      exact ⟨hmove t _ trivial, rfl⟩
  | spurious t =>
      have hpc := hrest t
      simp only [step] at hs
      split at hs <;> cases hs <;> simp_all [Pc.resting]
  | go t =>
      have hpc := hrest t
      simp only [step, goStep] at hs
      split at hs <;> simp_all [Pc.resting]
      · obtain ⟨rfl, rfl⟩ := hs
        exact ⟨hmove t _ trivial, rfl⟩
      · obtain ⟨rfl, rfl⟩ := hs
        exact ⟨hmove t _ trivial, rfl⟩

theorem exec_at_rest {as : List (Act ι α)} (hrest : ∀ u, (s.pc u).resting)
    (has : ∀ a ∈ as, a.observing) (he : (queue cfg).exec s as = some (s', es)) :
    s'.dequeuePos = s.dequeuePos := by
  have hrun := Machine.exec_invariant
    (P := fun q _ => (∀ u, (q.pc u).resting) ∧ q.dequeuePos = s.dequeuePos) he
    ⟨hrest, rfl⟩ ?_
  · exact hrun.2
  · intro q _ a q' fs ha hq hs
    obtain ⟨hrest', hdeq⟩ := resting_step hq.1 (has a ha) hs
    exact ⟨hrest', hdeq.trans hq.2⟩

end Rest

/--
`size_approx` is bounded by the sizes of the queue at its two loads, for any
interleaving in which fewer than `2 ^ 64` elements have been pushed.
-/
theorem size_approx_bounds (cfg : Config) {t : ι} {s s' : State ι α}
    {tr between : List (Event ι α)} {as : List (Act ι α)} {size : Word}
    (call : SizeCall cfg t s tr as s' between size)
    (hb : (pushClaims (tr ++ between)).length < 2 ^ 64) :
    SizeBounds cfg s tr as s' between size := by
  have hfirst : (queue cfg).step s (.go t) =
      some (s.setPc t (.sizeLoadDeq s.enqueuePos), []) := by
    simp [queue, step, goStep, call.atFirst]
  have hrun := call.run
  rw [Machine.exec_cons hfirst] at hrun
  obtain ⟨⟨q, fs⟩, hexec, heq⟩ := Option.map_eq_some_iff.mp hrun
  simp only [List.nil_append, Prod.mk.injEq] at heq
  obtain ⟨rfl, rfl⟩ := heq
  -- the second load finds the push position of the first one in `enq`
  have hpc := exec_pc hexec call.others
  rw [setPc_self] at hpc
  obtain ⟨s'', hsecond⟩ := call.atSecond
  have hsize : size = if q.dequeuePos ≤ s.enqueuePos then s.enqueuePos - q.dequeuePos
      else 0 := by
    simp only [step, goStep, hpc, Option.some.injEq, Prod.mk.injEq, List.cons.injEq,
      Event.sizeReturned.injEq] at hsecond
    exact hsecond.2.1.2.symm
  have hb' : (pushClaims tr).length < 2 ^ 64 := by
    rw [pushClaims_append, List.length_append] at hb
    omega
  obtain ⟨henq, hdeq, hle, hcap⟩ := counters_of_bound call.reach hb'
  obtain ⟨henq', hdeq', hle', hcap'⟩ := counters_of_bound (call.reach.exec call.run) hb
  rw [pushClaims_append, List.length_append] at henq' hle' hcap'
  rw [popClaims_append, List.length_append] at hdeq' hle' hcap'
  have hvalue : size.toNat = s.enqueuePos.toNat - q.dequeuePos.toNat := by
    rw [hsize]
    split
    · next hge => exact BitVec.toNat_sub_of_le hge
    · next hlt =>
        rw [BitVec.le_def] at hlt
        show 0 = _
        omega
  refine ⟨by omega, by omega, by omega, ?_⟩
  intro hrest has
  obtain ⟨hpush, hpop⟩ := completed_at_rest call.reach hrest
  have hobserving : ∀ a ∈ Act.go t :: as, a.observing := by
    intro a ha
    rcases List.mem_cons.mp ha with rfl | ha
    · trivial
    · exact has a ha
  have hsame : q.dequeuePos = s.dequeuePos := exec_at_rest hrest hobserving call.run
  rw [hvalue, hsame, henq, hdeq]
  omega

/-- Thread `true` pushes an element, and thread `false` calls `size_approx`. -/
def sizeCalled : List (Act Bool Nat) :=
  [.tryPush true 7, .go true, .go true, .go true, .go true, .go true, .sizeApprox false]

/-- Between the loads of thread `false` the element is popped. -/
def poppedBetween : List (Act Bool Nat) :=
  [.tryPop true, .go true, .go true, .go true, .go true, .go true]

/-- The second load comes after the pop, and the call returns `0`. -/
def returnsZero (r : State Bool Nat × List (Event Bool Nat)) : Bool :=
  decide ((pushClaims r.2).length < 2 ^ 64) &&
    (step twoSlots r.1 (.go false)).any fun x => decide (x.2 = [.sizeReturned false 0])

theorem size_approx_bounds_poppedBetween :
    ∃ s tr s' between,
      SizeCall twoSlots false s tr poppedBetween s' between 0 ∧
        SizeBounds twoSlots s tr poppedBetween s' between 0 := by
  obtain ⟨s, tr, hr, hp⟩ := Machine.exists_reach_of_exec (M := queue twoSlots) sizeCalled
    (p := fun r => decide (r.1.pc false = .sizeLoadEnq) &&
      ((queue twoSlots).exec r.1 (.go false :: poppedBetween)).any fun q =>
        returnsZero (q.1, r.2 ++ q.2))
    (by decide)
  simp only [returnsZero, Bool.and_eq_true, Option.any_eq_true, decide_eq_true_eq] at hp
  obtain ⟨hpc, ⟨s', between⟩, hrun, hb, ⟨s'', es⟩, hlast, rfl⟩ := hp
  have call : SizeCall twoSlots false s tr poppedBetween s' between 0 :=
    ⟨hr, hpc, by decide, hrun, s'', hlast⟩
  exact ⟨s, tr, s', between, call, size_approx_bounds twoSlots call hb⟩

end LockFreeQueue
end AsyncTaskEngine
