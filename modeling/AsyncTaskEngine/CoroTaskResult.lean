import AsyncTaskEngine.CoroTaskCompletion
import Mathlib.Logic.Function.Iterate

/-!
# The value that get() returns

The result of the body can leave the frame on two ways: the final awaiter moves it
into the promise of a `get()` that is waiting, or `get()` finds the coroutine done
and moves it out of the frame itself.  Neither way leaves a mark in the frame, and a
later `get()` on the object moves from it again.

`taking` records whether the result has been moved out, and `Held` is the invariant
about the stored result, the promise and the two ways.  `get_yields_result` says
exactly when a `get()` that returns a value returns that of the `co_return`.
-/

namespace AsyncTaskEngine
namespace ThreadPool
namespace CoroTask

universe u v w

variable {N : Nat} {ι : Type u} {V : Type v} {E : Type w}

/-- What `get()` is about to return or to throw. -/
def Client.yields (k : Client N ι V E) : Option (Except E V) :=
  match k.owner with
  | .getResult => k.stored
  | .waiting => k.promise
  | _ => none

/-- The event moves the result out of the frame: `fulfil`, or the end of `get_result()`. -/
def Client.takes (k : Client N ι V E) : Event N ι Body Label → Bool
  | .user _ .fulfil => true
  | .user _ .getReturned => decide (k.owner = .getResult)
  | _ => false

/-- No step of the coroutine is left; nothing is said about an undefined frame. -/
def Frame.closed {τ : Type u} : Frame τ → Bool
  | .finished => true
  | .destroyed => true
  | .undefined => true
  | _ => false

/-- The pool, a coroutine and its owner, and whether the result has been moved out. -/
def taking (N : Nat) [DecidableEq ι] [Fintype ι] (cfg : Config ι V E) :
    Machine ((State N ι Body × Client N ι V E) × Bool) (Act N ι Body Label)
      (Event N ι Body Label) :=
  (coro N cfg).watch false fun q taken _ es => taken || es.any q.2.takes

/-- The stored result, the promise, and the two ways on which the result can leave. -/
structure Held (cfg : Config ι V E) (k : Client N ι V E) (taken : Bool) : Prop where
  fresh : taken = false → ∀ v, k.stored = some (.ok v) → cfg.result = .ok v
  moved : taken = true → ∀ v, k.stored = some (.ok v) →
    ∃ v₀ n, cfg.result = .ok v₀ ∧ v = cfg.moved^[n + 1] v₀
  promise : ∀ v, k.promise = some (.ok v) → cfg.result = .ok v
  stored : k.frame.done = true → k.stored.isSome = true
  result : k.owner = .getResult → k.stored.isSome = true ∧ (k.frame.done || k.frame.closed) = true
  external : k.external = true → k.owner.attached = true ∨ k.frame.closed = true
  fulfilled : k.promise.isSome = true → k.frame.closed = true
  fulfilling : ∀ t, k.frame = .fulfilling t → k.external = true
  /-- After its result has been moved out, the coroutine has no way to its promise. -/
  gone : taken = true → k.frame.closed = true ∨
    (∃ t, k.frame = .final t) ∧ k.external = false ∧ k.owner ≠ .attach

section Held

variable {cfg : Config ι V E} {s s' : State N ι Body} {k k' : Client N ι V E}
variable {tr es : List (Event N ι Body Label)} {e : Event N ι Body Label} {taken : Bool}

theorem destroy_closed {τ : Type u} (f : Frame τ) : f.destroy.closed = true := by
  cases f <;> rfl

theorem call_external (k : Client N ι V E) (c : OwnerCall) :
    (k.call c).external = k.external := by
  cases c <;> simp only [Client.call] <;> repeat' split
  all_goals rfl

/-- A call begins with a test. -/
theorem call_owner_ne (k : Client N ι V E) (c : OwnerCall) (hpc : k.owner = .idle) :
    (k.call c).owner ≠ .getResult ∧ (k.call c).owner ≠ .attach := by
  cases c <;> simp only [Client.call] <;> repeat' split
  all_goals simp [hpc, Client.destroyFrame]

namespace Held

/-- The coroutine moves on, and has not come to its end. -/
theorem move (h : Held cfg k taken) (hbefore : k.frame.done = false)
    (hafter : k'.frame.done = false) (hclosed : k.frame.closed = true → k'.frame.closed = true)
    (hstored : k'.stored = k.stored) (hpromise : k'.promise = k.promise)
    (hext : k'.external = k.external)
    (hpc : k'.owner.attached = k.owner.attached) (hresult : k'.owner = .getResult →
      k.owner = .getResult) : Held cfg k' taken := by
  have hnotDone : ∀ t, k.frame ≠ .final t := by
    rintro t hf
    rw [hf] at hbefore
    cases hbefore
  refine ⟨fun ht v hv => h.fresh ht v (hstored ▸ hv), fun ht v hv => h.moved ht v (hstored ▸ hv),
    fun v hv => h.promise v (hpromise ▸ hv), fun hdone => ?_, fun ho => ?_, fun he => ?_,
    fun hp => hclosed (h.fulfilled (hpromise ▸ hp)), fun t hf => ?_, fun ht => ?_⟩
  · rw [hafter] at hdone
    cases hdone
  · obtain ⟨hsome, hend⟩ := h.result (hresult ho)
    rw [hbefore, Bool.false_or] at hend
    exact ⟨hstored ▸ hsome, by rw [hclosed hend, Bool.or_true]⟩
  · rw [hpc]
    exact (h.external (hext ▸ he)).imp_right hclosed
  · rw [hf] at hafter
    cases hafter
  · rcases h.gone ht with hend | ⟨⟨t, hf⟩, _⟩
    · exact .inl (hclosed hend)
    · exact (hnotDone t hf).elim

/-- The coroutine comes to a state from which it does not move on. -/
theorem close (h : Held cfg k taken) (hclosed : k'.frame.closed = true)
    (hstored : k'.stored = k.stored) (hpromise : k'.promise = k.promise)
    (hdone : k'.frame.done = true → k.stored.isSome = true)
    (hresult : k'.owner = .getResult → k.owner = .getResult) : Held cfg k' taken where
  fresh ht v hv := h.fresh ht v (hstored ▸ hv)
  moved ht v hv := h.moved ht v (hstored ▸ hv)
  promise v hv := h.promise v (hpromise ▸ hv)
  stored hd := hstored ▸ hdone hd
  result ho := ⟨hstored ▸ (h.result (hresult ho)).1, by rw [hclosed, Bool.or_true]⟩
  external _ := .inr hclosed
  fulfilled _ := hclosed
  fulfilling t hf := by rw [hf] at hclosed; cases hclosed
  gone _ := .inl hclosed

/-- The handle is resumed, at a suspension point or not. -/
theorem resume (h : Held cfg k taken) {t : Tid N ι} (hf : k'.frame = k.frame.resume t)
    (hstored : k'.stored = k.stored) (hpromise : k'.promise = k.promise)
    (hext : k'.external = k.external) (hpc : k'.owner.attached = k.owner.attached)
    (hresult : k'.owner = .getResult → k.owner = .getResult) : Held cfg k' taken := by
  cases hframe : k.frame with
  | suspended point =>
      rw [hframe] at hf
      exact h.move (by rw [hframe]; rfl) (by rw [hf]; rfl) (by simp [hframe, Frame.closed])
        hstored hpromise hext hpc hresult
  | _ =>
      rw [hframe] at hf
      exact h.close (by rw [hf]; rfl) hstored hpromise (by simp [hf, Frame.resume, Frame.done])
        hresult

/-- The body ends, and its result is stored. -/
theorem ends (h : Held cfg k taken) {t : Tid N ι} {r : Except E V}
    (hbefore : k.frame.done = false ∧ k.frame.closed = false) (hf : k'.frame = .final t)
    (hstored : k'.stored = some r) (hr : ∀ v, r = .ok v → cfg.result = .ok v)
    (hpromise : k'.promise = k.promise) (hext : k'.external = k.external)
    (howner : k'.owner = k.owner) : Held cfg k' taken := by
  have hnot : taken = false := by
    by_contra ht
    rcases h.gone (by simpa using ht) with hend | ⟨⟨t', hf'⟩, _⟩
    · rw [hbefore.2] at hend
      cases hend
    · rw [hf'] at hbefore
      cases hbefore.1
  refine ⟨fun _ v hv => hr v ?_, fun ht => ?_, fun v hv => h.promise v (hpromise ▸ hv),
    fun _ => by rw [hstored]; rfl, fun _ => ⟨by rw [hstored]; rfl, by rw [hf]; rfl⟩, fun he => ?_,
    fun hp => ?_, fun t' hf' => ?_, fun ht => ?_⟩
  · rw [hstored] at hv
    exact Option.some.inj hv
  · rw [hnot] at ht
    cases ht
  · refine (h.external (hext ▸ he)).imp (fun ho => howner ▸ ho) fun ho => ?_
    rw [hbefore.2] at ho
    cases ho
  · have := h.fulfilled (hpromise ▸ hp)
    rw [hbefore.2] at this
    cases this
  · rw [hf] at hf'
    cases hf'
  · rw [hnot] at ht
    cases ht

/-- The owner moves, and the coroutine does not. -/
theorem owner (h : Held cfg k taken) (hf : k'.frame = k.frame) (hstored : k'.stored = k.stored)
    (hpromise : k'.promise = k.promise) (hext : k'.external = k.external)
    (hpc : k.owner.attached = true → k'.owner.attached = true ∨ k.frame.closed = true)
    (hresult : k'.owner = .getResult → k.owner = .getResult ∨ k.frame.done = true)
    (hattach : k'.owner = .attach → k.owner = .attach ∨ k.frame.done = false) :
    Held cfg k' taken where
  fresh ht v hv := h.fresh ht v (hstored ▸ hv)
  moved ht v hv := h.moved ht v (hstored ▸ hv)
  promise v hv := h.promise v (hpromise ▸ hv)
  stored hd := hstored ▸ h.stored (hf ▸ hd)
  result ho := by
    rw [hf, hstored]
    rcases hresult ho with ho | hd
    · exact h.result ho
    · exact ⟨h.stored hd, by rw [hd, Bool.true_or]⟩
  external he := by
    rw [hf]
    rcases h.external (hext ▸ he) with ho | hclosed
    · exact hpc ho
    · exact .inr hclosed
  fulfilled hp := hf ▸ h.fulfilled (hpromise ▸ hp)
  fulfilling t ht := hext ▸ h.fulfilling t (hf ▸ ht)
  gone ht := by
    rw [hf, hext]
    refine (h.gone ht).imp_right fun ⟨⟨t, hfinal⟩, he, hne⟩ => ⟨⟨t, hfinal⟩, he, fun ho => ?_⟩
    rcases hattach ho with ho | hd
    · exact hne ho
    · rw [hfinal] at hd
      cases hd

/-- The result of a coroutine at its final awaiter has not been moved out. -/
theorem not_taken (h : Held cfg k taken) {t : Tid N ι} (hf : k.frame = .fulfilling t) :
    taken = false := by
  by_contra ht
  rcases h.gone (by simpa using ht) with hclosed | ⟨⟨t', hf'⟩, _⟩
  · rw [hf] at hclosed
    cases hclosed
  · rw [hf] at hf'
    cases hf'

/-- The final awaiter moves the result into the promise. -/
theorem fulfil (h : Held cfg k taken) {t : Tid N ι} (hf : k.frame = .fulfilling t)
    (hf' : k'.frame = .finished) (hpromise : k'.promise = k.stored)
    (hstored : k'.stored = k.stored.map fun r => r.map cfg.moved) : Held cfg k' true := by
  have hsome : k'.stored.isSome = true := by
    rw [hstored, Option.isSome_map]
    exact h.stored (by rw [hf]; rfl)
  have hclosed : k'.frame.closed = true := by rw [hf']; rfl
  refine ⟨by simp, fun _ v hv => ?_, fun v hv => ?_, fun _ => hsome,
    fun _ => ⟨hsome, by rw [hclosed, Bool.or_true]⟩, fun _ => .inr hclosed, fun _ => hclosed,
    fun t' ht' => ?_, fun _ => .inl hclosed⟩
  · rw [hstored] at hv
    obtain ⟨r, hr, hmap⟩ := Option.map_eq_some_iff.mp hv
    cases r with
    | error e => cases hmap
    | ok v₀ => exact ⟨v₀, 0, h.fresh (h.not_taken hf) v₀ hr, (Except.ok.inj hmap).symm⟩
  · rw [hpromise] at hv
    exact h.fresh (h.not_taken hf) v hv
  · rw [hf'] at ht'
    cases ht'

/-- A `get()` that has found the coroutine done has no promise attached. -/
theorem not_attached (h : Held cfg k taken) (hpc : k.owner = .getResult)
    (hext : k.external = true) : k.frame.closed = true := by
  refine (h.external hext).resolve_left ?_
  simp [hpc, OwnerPc.attached]

/-- `get_result()` moves the result out of the frame, perhaps not for the first time. -/
theorem getResult (h : Held cfg k taken) (hpc : k.owner = .getResult) (hpc' : k'.owner = .idle)
    (hf : k'.frame = k.frame) (hpromise : k'.promise = k.promise)
    (hext : k'.external = k.external)
    (hstored : k'.stored = k.stored.map fun r => r.map cfg.moved) : Held cfg k' true := by
  refine ⟨by simp, fun _ v hv => ?_, fun v hv => h.promise v (hpromise ▸ hv), fun hd => ?_,
    by simp [hpc'], fun he => ?_, fun hp => hf ▸ h.fulfilled (hpromise ▸ hp),
    fun t ht => hext ▸ h.fulfilling t (hf ▸ ht), fun _ => ?_⟩
  · rw [hstored] at hv
    obtain ⟨r, hr, hmap⟩ := Option.map_eq_some_iff.mp hv
    cases r with
    | error e => cases hmap
    | ok v₁ =>
        obtain rfl := Except.ok.inj hmap
        cases ht : taken with
        | false => exact ⟨v₁, 0, h.fresh ht v₁ hr, rfl⟩
        | true =>
            obtain ⟨v₀, n, hv₀, rfl⟩ := h.moved ht v₁ hr
            exact ⟨v₀, n + 1, hv₀, (Function.iterate_succ_apply' _ _ _).symm⟩
  · rw [hstored, Option.isSome_map]
    exact h.stored (hf ▸ hd)
  · exact .inr (hf ▸ h.not_attached hpc (hext ▸ he))
  · rw [hf, hext, hpc']
    obtain ⟨_, hend⟩ := h.result hpc
    cases hframe : k.frame with
    | final t =>
        refine .inr ⟨⟨t, rfl⟩, Bool.eq_false_iff.mpr fun he => ?_, by simp⟩
        have hclosed := h.not_attached hpc he
        rw [hframe] at hclosed
        cases hclosed
    | fulfilling t =>
        have hclosed := h.not_attached hpc (h.fulfilling t hframe)
        rw [hframe] at hclosed
        cases hclosed
    | finished | destroyed | undefined => exact .inl rfl
    | _ => simp [hframe, Frame.done, Frame.closed] at hend

theorem step (h : Held cfg k taken) (hs : Step cfg s k e k') :
    Held cfg k' (taken || k.takes e) := by
  have hkeep : k.takes e = false → Held cfg k' taken → Held cfg k' (taken || k.takes e) := by
    intro ht h'
    rwa [ht, Bool.or_false]
  cases hs with
  | quiet he => exact hkeep (by cases e <;> first | rfl | cases he) h
  | taskDone hres hoff => exact hkeep rfl h
  | suspend hf | segment hf hn =>
      exact hkeep rfl (h.move (by rw [hf]; rfl) rfl (by simp [hf, Frame.closed]) rfl rfl rfl rfl id)
  | rethrow hf =>
      exact hkeep rfl (h.move (by rw [hf]; rfl) rfl (by simp [hf, Frame.closed]) rfl rfl rfl rfl id)
  | rejectedLate hf => exact hkeep rfl (h.close rfl rfl rfl (by simp [Frame.done]) id)
  | resumeTask hctrl hnew => exact hkeep rfl (h.resume rfl rfl rfl rfl rfl id)
  | @resumeOwner a hpc =>
      refine hkeep rfl (h.resume rfl rfl rfl rfl ?_ (by simp))
      cases a <;> simp [hpc, OwnerPc.attached]
  | lastSegment hf hn =>
      exact hkeep rfl (h.ends (by simp [hf, Frame.done, Frame.closed]) rfl rfl
        (fun v hv => hv) rfl rfl rfl)
  | unhandledException hf =>
      exact hkeep rfl (h.ends (by simp [hf, Frame.done, Frame.closed]) rfl rfl
        (fun v hv => by cases hv) rfl rfl rfl)
  | readNull hf hext =>
      refine hkeep rfl (h.close rfl rfl rfl (fun _ => h.stored (by rw [hf]; rfl)) id)
  | @readPromise t hf hext =>
      have hclosed : k.frame.closed = false := by rw [hf]; rfl
      have hsome := h.stored (by rw [hf]; rfl)
      refine hkeep rfl ⟨h.fresh, h.moved, h.promise, fun _ => hsome, fun _ => ⟨hsome, rfl⟩,
        fun he => ?_, fun hp => ?_, fun _ _ => hext, fun ht => ?_⟩
      · exact .inl ((h.external he).resolve_right (by simp [hclosed]))
      · have := h.fulfilled hp
        rw [hclosed] at this
        cases this
      · rcases h.gone ht with hend | ⟨_, hno, _⟩
        · rw [hclosed] at hend
          cases hend
        · rw [hext] at hno
          cases hno
  | fulfil hf =>
      rw [Client.takes, Bool.or_true]
      exact h.fulfil hf rfl rfl rfl
  | @call c hpc =>
      obtain ⟨hgetResult, hattach⟩ := call_owner_ne k c hpc
      by_cases hd : k.destroys c = true
      · refine hkeep rfl (h.close ?_ (call_stored k c) (call_promise k c) ?_ fun ho =>
          (hgetResult ho).elim)
        · rw [call_frame, if_pos hd]
          exact destroy_closed _
        · rw [call_frame, if_pos hd, destroy_done]
          simp
      · refine hkeep rfl (h.owner ?_ (call_stored k c) (call_promise k c) (call_external k c)
          (by simp [hpc, OwnerPc.attached]) (fun ho => (hgetResult ho).elim)
          fun ho => (hattach ho).elim)
        rw [call_frame, if_neg hd]
  | getDone hpc =>
      refine hkeep rfl (h.owner rfl rfl rfl rfl (by simp [hpc, OwnerPc.attached]) ?_ ?_)
      · cases hd : k.frame.done <;> simp
      · cases hd : k.frame.done <;> simp
  | @testDone a hpc =>
      refine hkeep rfl (h.owner rfl rfl rfl rfl ?_ ?_ ?_) <;>
        cases a <;> cases k.frame.done <;> simp [hpc, OwnerPc.attached, After.pc]
  | attach hpc =>
      refine hkeep rfl ⟨h.fresh, h.moved, by simp, h.stored, by simp, fun _ => .inl rfl, by simp,
        fun _ _ => rfl, fun ht => .inl ?_⟩
      exact (h.gone ht).resolve_right fun hno => hno.2.2 hpc
  | @leave a hpc hoff =>
      refine hkeep rfl (h.owner rfl rfl rfl rfl ?_ ?_ ?_) <;>
        cases a <;> simp [hpc, OwnerPc.attached, After.pc]
  | getResult hpc =>
      rw [Client.takes, decide_eq_true hpc, Bool.or_true]
      exact h.getResult hpc rfl rfl rfl rfl rfl
  | getValue hpc hsome =>
      refine hkeep (by simp [Client.takes, hpc]) (h.owner rfl rfl rfl rfl ?_ (by simp) (by simp))
      exact fun _ => .inr (h.fulfilled hsome)

end Held

theorem held_init : Held cfg (Client.init : Client N ι V E) false where
  fresh _ v hv := by cases hv
  moved ht := by cases ht
  promise v hv := by cases hv
  stored hd := by cases hd
  result ho := by cases ho
  external he := by cases he
  fulfilled hp := by cases hp
  fulfilling t hf := by cases hf
  gone ht := by cases ht

end Held

variable [DecidableEq ι] [Fintype ι] {cfg : Config ι V E}
variable {tr : List (Event N ι Body Label)}
variable {q : (State N ι Body × Client N ι V E) × Bool}

theorem held_reach (hr : (taking N cfg).Reach q tr) : Held cfg q.1.2 q.2 := by
  refine hr.invariant (P := fun q _ => Held cfg q.1.2 q.2) held_init ?_
  intro q tr a q' es hr h hs
  obtain ⟨hstep, htaken⟩ := Machine.watch_step_iff.mp hs
  have hcoro : (coro N cfg).Reach q.1 tr :=
    (Machine.ReachWhen.of_watch (C := fun _ _ _ => True) hr.reachWhen).reach
  have hj := client_joint (R := Step cfg) (D := fun _ _ _ _ => True)
    (fun heff hallow => event_step heff hallow) hcoro.of_guard (fun _ _ _ => trivial) hstep
  rw [htaken]
  rcases hj.step with ⟨rfl, hsame⟩ | ⟨e, rfl, hstep'⟩
  · rw [hsame, List.any_nil, Bool.or_false]
    exact h
  · rw [List.any_cons, List.any_nil, Bool.or_false]
    exact h.step hstep'

/-- What a `get()` has to return or throw. -/
def Faithful (cfg : Config ι V E) (r : Except E V) : Prop :=
  ∀ v, r = .ok v → cfg.result = .ok v

/--
A `get()` that returns a value returns that of the `co_return`, if and only if it has
waited for it on its own promise, or the result has not been moved out of the frame
before, or what the frame holds is an exception.
-/
theorem get_yields_result (hr : (taking N cfg).Reach q tr)
    (hmoved : ∀ v, cfg.result = .ok v → ∀ n, cfg.moved^[n + 1] v ≠ v) {r : Except E V}
    (hy : q.1.2.yields = some r) :
    Faithful cfg r ↔
      (q.1.2.owner = .getResult → q.2 = true → ∃ e, q.1.2.stored = some (.error e)) := by
  have h := held_reach hr
  unfold Client.yields at hy
  split at hy
  · next hpc =>
      constructor
      · intro hfaithful _ ht
        cases r with
        | error e => exact ⟨e, hy⟩
        | ok v =>
            obtain ⟨v₀, n, hv₀, rfl⟩ := h.moved ht v hy
            have hsame := hfaithful _ rfl
            rw [hv₀] at hsame
            exact (hmoved v₀ hv₀ n (Except.ok.inj hsame).symm).elim
      · rintro hfirst v rfl
        cases ht : q.2 with
        | false => exact h.fresh ht v hy
        | true =>
            obtain ⟨e, he⟩ := hfirst hpc ht
            rw [hy] at he
            cases he
  · next hpc =>
      refine ⟨fun _ ho => ?_, fun _ v hv => h.promise v (hv ▸ hy)⟩
      rw [hpc] at ho
      cases ho
  · cases hy

/-- A coroutine that returns a string at once; a string that has been moved from is empty. -/
def greeting : Config Unit String String where
  owner := ()
  hops := 0
  result := .ok "Hello World"
  rejection := "pool is shut down"
  moved := fun _ => ""

/-- A call of `get()` that waits for its promise. -/
def firstGet : List (Act 1 Unit Body Label) :=
  [.user (.inr ()) (.call (.get 0)), .user (.inr ()) .test, .user (.inr ()) .attach,
    .user (.inr ()) .test, .user (.inr ()) (.resume none (some 0)),
    .user (.inr ()) (.segment 0), .user (.inr ()) .readPromise, .user (.inr ()) .fulfil,
    .user (.inr ()) .leave]

theorem get_yields_result_firstGet :
    ∃ (q : (State 1 Unit Body × Client 1 Unit String String) × Bool) (tr : _),
      (taking 1 greeting).Reach q tr ∧ q.1.2.yields = some (.ok "Hello World") ∧
        (Faithful greeting (.ok "Hello World") ↔
          (q.1.2.owner = .getResult → q.2 = true → ∃ e, q.1.2.stored = some (.error e))) := by
  obtain ⟨q, tr, hr, h⟩ := Machine.exists_reach_of_exec (M := taking 1 greeting) firstGet
    (p := fun r => decide (r.1.1.2.yields = some (.ok "Hello World"))) (by decide)
  have hy := of_decide_eq_true h
  refine ⟨q, tr, hr, hy, get_yields_result hr (fun v hv n => ?_) hy⟩
  obtain rfl := Except.ok.inj hv
  rw [Function.iterate_succ_apply']
  exact (by decide : "" ≠ "Hello World")

/-- A second `get()` finds the coroutine done, and returns an empty string. -/
theorem second_get_moved :
    ¬ ∀ (q : (State 1 Unit Body × Client 1 Unit String String) × Bool) (tr : _) (r : _),
      (taking 1 greeting).Reach q tr → q.1.2.yields = some r → Faithful greeting r := by
  intro h
  obtain ⟨q, tr, hr, hp⟩ := Machine.exists_reach_of_exec (M := taking 1 greeting)
    (firstGet ++ [.user (.inr ()) .getReturned, .user (.inr ()) (.call (.get 0)),
      .user (.inr ()) .test])
    (p := fun r => decide (r.1.1.2.yields = some (.ok ""))) (by decide)
  have hsame := h q tr _ hr (of_decide_eq_true hp) _ rfl
  exact absurd (Except.ok.inj hsame) (by decide)

end CoroTask
end ThreadPool
end AsyncTaskEngine
