import AsyncTaskEngine.BlockingContainers

/-!
# The blocking containers no longer block after a shutdown

As long as a container is open, a consumer may sleep for as long as nobody pushes.
Once a `shutdown` has returned nobody sleeps, and nobody falls asleep any more:
every call is over after one step of its own thread, or two for a `shutdown`,
whatever the other threads do.  `waitFree_reach` is the general result, and
`wait_free_after_shutdown` states it for `TaskQueue` and `PriorityScheduler`.
-/

namespace AsyncTaskEngine
namespace BlockingMonitor

universe u v w x y

variable {σ : Type u} {β : Type v} {γ : Type w} {κ : Type x} {ι : Type y}

/-- The steps of its own that a call to a closed container has before it. -/
def Call.left : Call κ β → Nat
  | .idle => 0
  | .shutdown => 2
  | _ => 1

/-- A closed container in which nobody sleeps. -/
structure Shut (sec : Sections σ β γ) (s : State σ ι κ β) : Prop where
  closed : sec.closed s.contents = true
  awake : ∀ t, (s.call t).isAsleep = false

variable [DecidableEq ι]

/-- The thread takes a step inside its call. -/
def Act.moves (t : ι) : Act ι κ β → Bool
  | .advance u => decide (u = t)
  | .notify u _ => decide (u = t)
  | _ => false

/-- The steps that lie before a thread that makes this call. -/
def Act.brings (t : ι) : Act ι κ β → Nat
  | .push u _ => if u = t then 1 else 0
  | .tryPop u => if u = t then 1 else 0
  | .waitAndPop u _ => if u = t then 1 else 0
  | .shutdown u => if u = t then 2 else 0
  | .size u => if u = t then 1 else 0
  | _ => 0

section Steps

variable {sec : Sections σ β γ} {s s' : State σ ι κ β} {es : List (Event ι κ β γ)}

omit [DecidableEq ι] in
theorem Shut.wake (h : Shut sec s) (t : ι) : (s.call t).wake = s.call t := by
  have := h.awake t
  cases hc : s.call t with
  | asleep k =>
      rw [hc] at this
      cases this
  | _ => rfl

variable [DecidableEq κ]

omit [DecidableEq ι] in
theorem Shut.wakeOn (h : Shut sec s) (k : κ) (t : ι) : (s.call t).wakeOn k = s.call t := by
  have := h.awake t
  cases hc : s.call t with
  | asleep j =>
      rw [hc] at this
      cases this
  | _ => rfl

omit [DecidableEq κ] in
/-- A thread of a closed container takes a step inside its call. -/
theorem Shut.advance (law : sec.Lawful) (h : Shut sec s) {t : ι}
    (hs : advance sec s t = some (s', es)) :
    (∀ u, u ≠ t → s'.call u = s.call u) ∧ (s'.call t).left + 1 ≤ (s.call t).left := by
  have hready : sec.ready s.contents = true := (law.ready_iff _).mpr (.inr h.closed)
  have hidle : ∀ {d : σ}, s' = (s.setContents d).setCall t .idle → 1 ≤ (s.call t).left →
      (∀ u, u ≠ t → s'.call u = s.call u) ∧ (s'.call t).left + 1 ≤ (s.call t).left := by
    rintro d rfl hleft
    refine ⟨fun u hu => Function.update_of_ne hu _ _, ?_⟩
    rw [setCall_call, Function.update_self]
    exact hleft
  unfold BlockingMonitor.advance at hs
  split at hs
  case h_1 arg hc =>
    rw [(law.push_eq_none arg s.contents).mpr h.closed] at hs
    obtain ⟨rfl, rfl⟩ := Prod.mk.inj (Option.some.inj hs)
    exact hidle (d := s.contents) rfl (by rw [hc]; rfl)
  case h_2 hc =>
    obtain ⟨rfl, rfl⟩ := Prod.mk.inj (Option.some.inj hs)
    exact hidle rfl (by rw [hc]; exact Nat.le_refl _)
  case h_3 k hc | h_4 k hc =>
    rw [check, if_pos (by simp [hready])] at hs
    obtain ⟨rfl, rfl⟩ := Prod.mk.inj (Option.some.inj hs)
    exact hidle rfl (by rw [hc]; exact Nat.le_refl _)
  case h_5 hc =>
    obtain ⟨rfl, rfl⟩ := Prod.mk.inj (Option.some.inj hs)
    refine ⟨fun u hu => Function.update_of_ne hu _ _, ?_⟩
    rw [setCall_call, Function.update_self, hc]
    exact Nat.le_refl _
  case h_6 hc =>
    obtain ⟨rfl, rfl⟩ := Prod.mk.inj (Option.some.inj hs)
    have hcall : ∀ u, u ≠ t →
        Function.update (fun u => (s.call u).wake) t .idle u = s.call u := by
      intro u hu
      rw [Function.update_of_ne hu]
      exact h.wake u
    refine ⟨hcall, ?_⟩
    rw [hc]
    simp [Call.left]
  case h_7 hc =>
    obtain ⟨rfl, rfl⟩ := Prod.mk.inj (Option.some.inj hs)
    exact hidle (d := s.contents) rfl (by rw [hc]; exact Nat.le_refl _)
  case h_8 => cases hs

variable [Fintype ι]

omit [DecidableEq κ] in
/-- The end of a push finds nobody to wake. -/
theorem Shut.notify (h : Shut sec s) {t : ι} {pick : Option ι}
    (hs : notify (γ := γ) s t pick = some (s', es)) :
    s' = s.setCall t .idle ∧ s.call t = .notifyOne := by
  unfold BlockingMonitor.notify at hs
  split at hs
  · next hc =>
      split at hs
      · rw [if_pos h.awake] at hs
        exact ⟨(Prod.mk.inj (Option.some.inj hs)).1.symm, hc⟩
      · next u =>
          rw [if_neg (by simp [h.awake u])] at hs
          cases hs
  · cases hs

/-- What a step of a closed container does to one of its threads. -/
theorem Shut.left_step (law : sec.Lawful) (h : Shut sec s) {a : Act ι κ β} (t : ι)
    (hs : step sec s a = some (s', es)) :
    (s'.call t).left + (if a.moves t then 1 else 0) ≤ (s.call t).left + a.brings t := by
  -- a thread enters a call
  have henter : ∀ {u : ι} {c : Call κ β}, s.call u = .idle → s' = s.setCall u c →
      (s'.call t).left ≤ (s.call t).left + if u = t then c.left else 0 := by
    rintro u c hc rfl
    rw [setCall_call, Function.update_apply]
    by_cases hu : u = t
    · rw [if_pos hu.symm, if_pos hu]
      omega
    · rw [if_neg fun heq => hu heq.symm, if_neg hu]
      exact Nat.le_refl _
  cases a with
  | push u arg | tryPop u | waitAndPop u k | shutdown u | size u =>
      simp only [step] at hs
      split at hs
      · next hc => exact henter hc (Prod.mk.inj (Option.some.inj hs)).1.symm
      · cases hs
  | advance u =>
      obtain ⟨hother, hown⟩ := h.advance law (t := u) hs
      by_cases hu : u = t
      · subst hu
        simpa [Act.moves, Act.brings] using hown
      · rw [hother t fun heq => hu heq.symm]
        simp [Act.moves, Act.brings, hu]
  | notify u pick =>
      obtain ⟨rfl, hc⟩ := h.notify hs
      by_cases hu : u = t
      · subst hu
        simp [Act.moves, Act.brings, hc, Call.left]
      · rw [setCall_call, Function.update_of_ne fun heq => hu heq.symm]
        simp [Act.moves, Act.brings, hu]
  | spurious u =>
      simp only [step] at hs
      rw [if_neg (by simp [h.awake u])] at hs
      cases hs
  | requestStop k =>
      obtain ⟨rfl, rfl⟩ := Prod.mk.inj (Option.some.inj hs)
      simp only [h.wakeOn k t]
      exact Nat.le_refl _

/-- A thread inside a call to a closed container can take a step. -/
theorem Shut.enabled (h : Shut sec s) {t : ι} (hbusy : s.call t ≠ .idle) :
    ∃ a : Act ι κ β, a.moves t = true ∧ (step sec s a).isSome = true := by
  cases hc : s.call t with
  | idle => exact (hbusy hc).elim
  | asleep k =>
      have := h.awake t
      rw [hc] at this
      cases this
  | notifyOne =>
      refine ⟨.notify t none, by simp [Act.moves], ?_⟩
      simp only [step, BlockingMonitor.notify, hc, if_pos h.awake]
      rfl
  | push arg =>
      refine ⟨.advance t, by simp [Act.moves], ?_⟩
      simp only [step, BlockingMonitor.advance, hc]
      split <;> rfl
  | _ =>
      refine ⟨.advance t, by simp [Act.moves], ?_⟩
      simp [step, BlockingMonitor.advance, hc]

end Steps

section Runs

variable [DecidableEq κ] [Fintype ι] {sec : Sections σ β γ} {s : State σ ι κ β}
variable {tr : List (Event ι κ β γ)}

/-- The calls of a closed container are over after a bounded number of own steps. -/
structure WaitFree (sec : Sections σ β γ) (s : State σ ι κ β) : Prop where
  bounded : ∀ {as : List (Act ι κ β)} {s' es} (t : ι), (monitor sec).exec s as = some (s', es) →
    as.countP (Act.moves t) + (s'.call t).left ≤
      (s.call t).left + (as.map (Act.brings t)).sum
  enabled : ∀ {as : List (Act ι κ β)} {s' es} (t : ι), (monitor sec).exec s as = some (s', es) →
    s'.call t ≠ .idle → ∃ a : Act ι κ β, a.moves t = true ∧ (step sec s' a).isSome = true

/-- Once a `shutdown` has returned, a container is wait-free. -/
theorem waitFree_reach (law : sec.Lawful) (hr : (monitor sec).Reach s tr) {u : ι}
    (hret : .shutdownReturned u ∈ tr) : WaitFree sec s := by
  have hshut : ∀ {s : State σ ι κ β} {tr : List (Event ι κ β γ)}, (monitor sec).Reach s tr →
      .shutdownReturned u ∈ tr → Shut sec s := by
    intro s tr hr hret
    obtain ⟨hclosed, hawake⟩ := (wakeupInv_reach law hr).returned u hret
    exact ⟨hclosed, hawake⟩
  refine ⟨fun {as s' es} t he => ?_, fun t he hbusy => ?_⟩
  · exact Machine.exec_counted (M := monitor sec) (fun s => (s.call t).left) (Act.moves t)
      (Act.brings t) (I := fun s tr => (monitor sec).Reach s tr ∧ .shutdownReturned u ∈ tr)
      (B := fun _ => True) (fun _ _ _ => trivial)
      (fun ⟨hr, hret⟩ hs => ⟨.step hr hs, List.mem_append_left _ hret⟩)
      (fun ⟨hr, hret⟩ _ hs => (hshut hr hret).left_step law t hs) ⟨hr, hret⟩ he trivial
  · exact (hshut (hr.exec he) (List.mem_append_left _ hret)).enabled hbusy

end Runs

end BlockingMonitor

open BlockingMonitor (WaitFree waitFree_reach)
open PriorityScheduler (PriorityTask scheduler TaskPriority)

universe u v w x

variable {ι : Type u} {κ : Type v} [DecidableEq ι] [Fintype ι] [DecidableEq κ]

/--
Once a `shutdown` has returned, every call to `TaskQueue` or `PriorityScheduler`
is over after one step of its own thread, or two, and apart from the mutex none of
them waits for another thread.
-/
theorem wait_free_after_shutdown {τ : Type w} {φ : Type w} {H : Type x}
    (heap : MaxHeap H (PriorityTask φ) PriorityTask.less) (t : ι) :
    (∀ (s : BlockingMonitor.State (TaskQueue.Contents τ) ι κ τ) tr,
      (taskQueue τ).Reach s tr → .shutdownReturned t ∈ tr →
        WaitFree (TaskQueue.sections τ) s) ∧
    ∀ (s : BlockingMonitor.State (PriorityScheduler.Contents H) ι κ (φ × TaskPriority))
      tr, (scheduler heap).Reach s tr → .shutdownReturned t ∈ tr →
        WaitFree (PriorityScheduler.sections heap) s :=
  ⟨fun _ _ hr hret => waitFree_reach TaskQueue.lawful hr hret,
    fun _ _ hr hret => waitFree_reach (PriorityScheduler.lawful heap) hr hret⟩

/-- A consumer that slept is awake when the `shutdown` returns, and has one step before it. -/
theorem wait_free_after_shutdown_sleeper :
    ∃ (s : BlockingMonitor.State (TaskQueue.Contents Nat) Bool Unit Nat) (tr : _),
      (taskQueue Nat).Reach s tr ∧ s.call false = .woken () ∧ (s.call false).left = 1 ∧
        WaitFree (TaskQueue.sections Nat) s := by
  obtain ⟨s, tr, hr, hp⟩ := Machine.exists_reach_of_exec
    (M := taskQueue (ι := Bool) (κ := Unit) Nat)
    [.waitAndPop false (), .advance false, .shutdown true, .advance true, .advance true]
    (p := fun r => decide (r.1.call false = .woken () ∧ .shutdownReturned true ∈ r.2))
    (by decide)
  obtain ⟨hwoken, hret⟩ := of_decide_eq_true hp
  exact ⟨s, tr, hr, hwoken, by rw [hwoken]; rfl,
    (wait_free_after_shutdown (φ := Nat) (sortedListHeap PriorityTask.less) true).1 s tr hr hret⟩

end AsyncTaskEngine
