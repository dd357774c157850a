import AsyncTaskEngine.CoroDelay

/-!
# Delays at the destruction of their context

A coroutine that is suspended in a `DelayAwaiter` can only be resumed by the handler
of its delay, or by a call of `get()` that has not yet resumed it.  When the handler
is destroyed with the `io_context`, a `get()` that is past that point waits for ever.

`Armed` is what every run keeps: the handler of the awaited delay is going to resume
the coroutine, or has been destroyed.  `Spared` says that no `get()` depends on a
handler that the destruction would destroy.  It holds after the beginning of the
destruction of `io_ctx_` if it did then, and else a state is reached from there in
which nobody is left to resume the coroutine.
-/

namespace AsyncTaskEngine
namespace ThreadPool
namespace CoroDelay

open CoroTask (Frame OwnerPc Body)
open AsioContext (Phase)

universe u v w

variable {N : Nat} {ι : Type u} {V : Type v} {E : Type w}
variable {cfg : Config ι V E} {k k' : Client N ι V E} {point : Nat}

/-- The coroutine is suspended in this delay. -/
def Client.InDelay (cfg : Config ι V E) (k : Client N ι V E) (point : Nat) : Prop :=
  k.coro.frame = .suspended point ∧ cfg.await? point = some .delay

/--
The destruction has finished, `get()` waits for the coroutine, and the coroutine is
suspended in a delay with nobody left to resume it.
-/
structure Client.Lost (cfg : Config ι V E) (k : Client N ι V E) (point : Nat) : Prop where
  destroyed : k.context.phase = .destroyed
  waiting : awaited k.coro.owner = true
  suspended : k.InDelay cfg point
  nobody : (k.handlers point).pending = false

/-- A `get()` waits for a delay whose handler has not been invoked. -/
def Client.AwaitsDelay (cfg : Config ι V E) (k : Client N ι V E) : Prop :=
  ∃ point, k.InDelay cfg point ∧ awaited k.coro.owner = true ∧
    (k.handlers point).uninvoked = true

/-- A `get()` waits only for a delay whose handler has been invoked. -/
def Client.Spared (cfg : Config ι V E) (k : Client N ι V E) : Prop :=
  ∀ point, k.InDelay cfg point → awaited k.coro.owner = true →
    ∃ t, k.handlers point = .entered t

/-- The handler of the awaited delay will resume the coroutine, or has been destroyed. -/
structure Armed (cfg : Config ι V E) (k : Client N ι V E) : Prop where
  armed : ∀ point, k.InDelay cfg point →
    (k.handlers point).pending = true ∨ k.handlers point = .discarded
  discarded : ∀ point, k.handlers point = .discarded → ended k.context.phase = true

@[simp] theorem setHandler_context (h : Handler (Tid N ι)) :
    (k.setHandler point h).context = k.context := rfl

@[simp] theorem setFrame_handlers (f : Frame (Tid N ι)) :
    (k.setFrame f).handlers = k.handlers := rfl

theorem not_inDelay_setFrame {f : Frame (Tid N ι)} (hf : ∀ n, f ≠ .suspended n) :
    ¬ (k.setFrame f).InDelay cfg point :=
  fun h => hf _ h.1

theorem resume_not_suspended (f : Frame (Tid N ι)) (t : Tid N ι) (n : Nat) :
    f.resume t ≠ .suspended n := by
  cases f <;> simp [Frame.resume]

theorem inDelay_congr (hf : k'.coro.frame = k.coro.frame) (h : k'.InDelay cfg point) :
    k.InDelay cfg point :=
  ⟨hf ▸ h.1, h.2⟩

/-- A handler in a state without a handler is not going to be destroyed. -/
theorem Armed.spared (h : Armed cfg k) (hopen : ended k.context.phase = false)
    (hnone : ¬ k.AwaitsDelay cfg) : k.Spared cfg := by
  intro point hin hwait
  rcases h.armed point hin with hp | hd
  · cases hh : k.handlers point with
    | entered t => exact ⟨t, rfl⟩
    | timer | queued => exact (hnone ⟨point, hin, hwait, by rw [hh]; rfl⟩).elim
    | _ => simp [hh, Handler.pending] at hp
  · have := h.discarded point hd
    rw [hopen] at this
    cases this

variable {s : State N ι Body} {e : Event N ι Body Label}

theorem Armed.step (h : Armed cfg k) (hs : Step cfg s k k' e) : Armed cfg k' := by
  cases hs with
  | quiet hcoro hphase hhandlers =>
      refine ⟨fun point hin => ?_, fun point hd => ?_⟩
      · rw [hhandlers]
        exact h.armed point (inDelay_congr (by rw [hcoro]) hin)
      · rw [hhandlers] at hd
        rw [hphase]
        exact h.discarded point hd
  | suspend hf hawait hk =>
      subst hk
      refine ⟨fun point hin => ?_, h.discarded⟩
      obtain ⟨hsus, hdelay⟩ := hin
      obtain rfl := Frame.suspended.inj hsus
      rw [hawait] at hdelay
      cases hdelay
  | rejected hf hk =>
      subst hk
      refine ⟨fun point hin => ?_, h.discarded⟩
      refine (not_inDelay_setFrame (fun n => ?_) hin).elim
      rcases hf with rfl | rfl <;> simp
  | coro hs hphase hhandlers =>
      refine ⟨fun point hin => ?_, fun point hd => ?_⟩
      · rw [hhandlers]
        exact h.armed point ⟨(coro_suspended hs hin.1).1, hin.2⟩
      · rw [hhandlers] at hd
        rw [hphase]
        exact h.discarded point hd
  | @asyncWait t n huse hawait hf hk =>
      subst hk
      refine ⟨fun point hin => ?_, fun point hd => ?_⟩
      · obtain rfl := Frame.suspended.inj hin.1
        refine .inl ?_
        simp [Client.setHandler, Handler.pending]
      · simp only [Client.setHandler, setFrame_handlers, Function.update_apply] at hd
        split at hd
        · cases hd
        · exact h.discarded point hd
  | @handler t label point' h' hm hk =>
      subst hk
      refine ⟨fun point hin => ?_, fun point hd => ?_⟩
      · have hold := h.armed point hin
        simp only [Client.setHandler, Function.update_apply]
        split
        · next heq =>
            subst heq
            cases hm with
            | expire hh | invoke hh => exact .inl rfl
            | ended hh hoff => simp [hh, Handler.pending] at hold
            | discard hp hh => exact .inr rfl
        · exact hold
      · simp only [Client.setHandler, Function.update_apply] at hd
        split at hd
        · cases hm with
          | discard hp hh =>
              simp only [setHandler_context, hp]
              rfl
          | _ => cases hd
        · exact h.discarded point hd
  | @resume t point' hh hk =>
      subst hk
      refine ⟨fun point hin => ?_, fun point hd => ?_⟩
      · exact (not_inDelay_setFrame (resume_not_suspended _ _) hin).elim
      · simp only [Client.setHandler, setFrame_handlers, Function.update_apply] at hd
        split at hd
        · cases hd
        · exact h.discarded point hd
  | construct hp hk | unwind hp hk =>
      subst hk
      refine ⟨h.armed, fun point hd => ?_⟩
      have := h.discarded point hd
      rw [hp] at this
      cases this
  | phase hm hk =>
      subst hk
      refine ⟨h.armed, fun point hd => ?_⟩
      have hend := h.discarded point hd
      cases hm with
      | before hold hnew =>
          rw [hold] at hend
          cases hend
      | die hp hlen => rfl
      | destroyed hp hnone => rfl

/-- After the beginning of the destruction, a `get()` that is spared stays so. -/
theorem Client.Spared.step (h : k.Spared cfg) (hend : ended k.context.phase = true)
    (hs : Step cfg s k k' e) : k'.Spared cfg := by
  cases hs with
  | quiet hcoro hphase hhandlers =>
      intro point hin hwait
      rw [hhandlers]
      rw [hcoro] at hwait
      exact h point (inDelay_congr (by rw [hcoro]) hin) hwait
  | suspend hf hawait hk =>
      subst hk
      rintro point ⟨hsus, hdelay⟩
      obtain rfl := Frame.suspended.inj hsus
      rw [hawait] at hdelay
      cases hdelay
  | rejected hf hk =>
      subst hk
      intro point hin
      refine (not_inDelay_setFrame (fun n => ?_) hin).elim
      rcases hf with rfl | rfl <;> simp
  | coro hs hphase hhandlers =>
      intro point hin hwait
      obtain ⟨hsus, howner⟩ := coro_suspended hs hin.1
      rw [hhandlers]
      exact h point ⟨hsus, hin.2⟩ (howner hwait)
  | asyncWait huse hawait hf hk =>
      revert hend huse
      cases k.context.phase <;> simp [ended, usable]
  | @handler t label point' h' hm hk =>
      subst hk
      intro point hin hwait
      obtain ⟨u, hu⟩ := h point hin hwait
      refine ⟨u, ?_⟩
      have hne : point ≠ point' := by
        rintro rfl
        cases hm with
        | expire hh | invoke hh | ended hh hoff => simp [hu] at hh
        | discard hp hh => simp [hu, Handler.uninvoked] at hh
      exact (Function.update_of_ne hne _ _).trans hu
  | resume hh hk =>
      subst hk
      intro point hin
      exact (not_inDelay_setFrame (resume_not_suspended _ _) hin).elim
  | construct hp hk | unwind hp hk =>
      rw [hp] at hend
      cases hend
  | phase hm hk =>
      subst hk
      exact h

theorem ended_step (hend : ended k.context.phase = true) (hs : Step cfg s k k' e) :
    ended k'.context.phase = true := by
  cases hs with
  | quiet hcoro hphase hhandlers | coro hs hphase hhandlers => rw [hphase, hend]
  | suspend hf hawait hk | rejected hf hk | asyncWait huse hawait hf hk | handler hm hk
  | resume hh hk =>
      subst hk
      exact hend
  | construct hp hk | unwind hp hk =>
      rw [hp] at hend
      cases hend
  | phase hm hk =>
      subst hk
      cases hm with
      | before hold hnew =>
          rw [hold] at hend
          cases hend
      | die hp hlen | destroyed hp hnone => rfl

/-- The destruction of `io_ctx_` begins in the destructor, and leaves the handlers alone. -/
theorem Step.die (hs : Step cfg s k k' e) (hopen : ended k.context.phase = false)
    (hend : ended k'.context.phase = true) :
    (∃ t, e = .user t .destroyIoContext) ∧ k'.coro = k.coro ∧ k'.handlers = k.handlers := by
  have hsame : k'.context.phase ≠ k.context.phase := by
    intro heq
    rw [heq, hopen] at hend
    cases hend
  cases hs with
  | quiet hcoro hphase hhandlers | coro hs hphase hhandlers => exact (hsame hphase).elim
  | suspend hf hawait hk | rejected hf hk | asyncWait huse hawait hf hk | handler hm hk
  | resume hh hk =>
      subst hk
      exact (hsame rfl).elim
  | construct hp hk | unwind hp hk =>
      subst hk
      cases hend
  | @phase t label p hm hk =>
      subst hk
      cases hm with
      | before hold hnew =>
          rw [show (k.setPhase p).context.phase = p from rfl, hnew] at hend
          cases hend
      | die hp hlen => exact ⟨⟨t, rfl⟩, rfl, rfl⟩
      | destroyed hp hnone =>
          rw [hp] at hopen
          cases hopen

section Runs

variable [DecidableEq ι] [Fintype ι] {q q' : State N ι Body × Client N ι V E}
variable {tr es : List (Event N ι Body Label)}

/-- `~AsioContext` destroys `io_ctx_` when no `get()` waits for one of its delays. -/
def NotAwaited (cfg : Config ι V E) (k : Client N ι V E) (_ : List (Event N ι Body Label))
    (_ : Tid N ι) (label : Label) : Prop :=
  label = .destroyIoContext → ¬ k.AwaitsDelay cfg

omit [DecidableEq ι] [Fintype ι] in
theorem notAwaited_of_ne {a : Act N ι Body Label} (h : ∀ t, a ≠ .user t .destroyIoContext) :
    UserWhen (NotAwaited cfg) q tr a := by
  intro t label heq hlabel
  exact (h t (hlabel ▸ heq)).elim

theorem delayed_joint {D : Client N ι V E → List (Event N ι Body Label) → Tid N ι → Label → Prop}
    {a : Act N ι Body Label} (hr : (delayed N cfg).Reach q tr) (hc : UserWhen D q tr a)
    (hs : (delayed N cfg).step q a = some (q', es)) :
    Joint (fun s k e k' => Step cfg s k k' e) D q.1 q'.1 q.2 q'.2 tr es :=
  client_joint (R := fun s k e k' => Step cfg s k k' e) (fun _ hallow => event_step hallow)
    hr.of_guard hc hs

/-- What every run keeps. -/
theorem armed_reach (hr : (delayed N cfg).Reach q tr) : Armed cfg q.2 := by
  refine hr.invariant (P := fun q _ => Armed cfg q.2) ?_ ?_
  · refine ⟨fun point hin => ?_, fun point hd => ?_⟩
    · obtain ⟨hsus, hdelay⟩ := hin
      obtain rfl := Frame.suspended.inj hsus
      cases hdelay
    · cases hd
  · intro q tr a q' es hr ih hs
    have hjoint := delayed_joint (D := fun _ _ _ _ => True) hr (fun _ _ _ => trivial) hs
    rcases hjoint.step with ⟨_, hk⟩ | ⟨e, _, hstep⟩
    · rw [hk]
      exact ih
    · exact ih.step hstep

/-- A `get()` that was spared when the destruction began is spared in every later state. -/
theorem spared_exec (hr : (delayed N cfg).Reach q tr) (hend : ended q.2.context.phase = true)
    (h : q.2.Spared cfg) {as : List (Act N ι Body Label)}
    (he : (delayed N cfg).exec q as = some (q', es)) :
    ended q'.2.context.phase = true ∧ q'.2.Spared cfg := by
  refine (Machine.exec_invariant (P := fun q es => (delayed N cfg).Reach q (tr ++ es) ∧
    ended q.2.context.phase = true ∧ q.2.Spared cfg) he ⟨by simpa using hr, hend, h⟩ ?_).2
  rintro q es a q' es' _ ⟨hr, hend, h⟩ hs
  refine ⟨by simpa using hr.step hs, ?_⟩
  have hjoint := delayed_joint (D := fun _ _ _ _ => True) hr (fun _ _ _ => trivial) hs
  rcases hjoint.step with ⟨_, hk⟩ | ⟨e, _, hstep⟩
  · rw [hk]
    exact ⟨hend, h⟩
  · exact ⟨ended_step hend hstep, h.step hend hstep⟩

/-- In runs that meet the condition, no `get()` depends on a handler that is destroyed. -/
theorem spared_reach (hr : (delayed N cfg).ReachWhen (UserWhen (NotAwaited cfg)) q tr) :
    ended q.2.context.phase = true → q.2.Spared cfg := by
  refine hr.invariant (P := fun q _ => ended q.2.context.phase = true → q.2.Spared cfg) ?_ ?_
  · intro hend
    cases hend
  · intro q tr a q' es hr ih hc hs hend
    have hjoint := delayed_joint hr.reach hc hs
    rcases hjoint.step with ⟨_, hk⟩ | ⟨e, hes, hstep⟩
    · rw [hk] at hend ⊢
      exact ih hend
    · by_cases hold : ended q.2.context.phase = true
      · exact (ih hold).step hold hstep
      · have hopen : ended q.2.context.phase = false := by simpa using hold
        obtain ⟨⟨t, rfl⟩, hcoro, hhandlers⟩ := hstep.die hopen hend
        have hsp := (armed_reach hr.reach).spared hopen (hjoint.condition t _ hes rfl)
        intro point hin hwait
        rw [hcoro] at hwait
        rw [hhandlers]
        exact hsp point (inDelay_congr (by rw [hcoro]) hin) hwait

omit [DecidableEq ι] [Fintype ι] in
/-- A spared `get()` does not wait for a delay that nobody ends. -/
theorem Client.Spared.not_lost (h : k.Spared cfg) : ¬ k.Lost cfg point := by
  intro hlost
  obtain ⟨t, ht⟩ := h point hlost.suspended hlost.waiting
  have := hlost.nobody
  rw [ht] at this
  cases this

/-- The thread that destroys the `io_context` destroys some handlers. -/
theorem discard_all (cfg : Config ι V E) {t : Tid N ι} (hcode : (q.1.ctrl t).user? = some .code)
    (hphase : q.2.context.phase = .dying t) {points : List Nat} (hnodup : points.Nodup)
    (huninvoked : ∀ point ∈ points, (q.2.handlers point).uninvoked = true) :
    ∃ q' es, (delayed N cfg).exec q (points.map fun point => .user t (.discard point)) =
      some (q', es) ∧ q'.1 = q.1 ∧ q'.2.coro = q.2.coro ∧ q'.2.context = q.2.context ∧
        (∀ point ∈ points, q'.2.handlers point = .discarded) ∧
          ∀ point, point ∉ points → q'.2.handlers point = q.2.handlers point := by
  induction points generalizing q with
  | nil => exact ⟨q, [], rfl, rfl, rfl, rfl, by simp, fun _ _ => rfl⟩
  | cons point points ih =>
      obtain ⟨hnew, hnodup⟩ := List.nodup_cons.mp hnodup
      have hstep : (delayed N cfg).step q (.user t (.discard point)) =
          some ((q.1, q.2.setHandler point .discarded), [.user t (.discard point)]) := by
        refine Machine.guard_step_iff.mpr ⟨?_, ?_, rfl⟩
        · simp [allowed, labelAllowed, hphase, huninvoked point List.mem_cons_self]
        · simp [pool, step, hcode]
      have hother : ∀ x, x ≠ point →
          (q.2.setHandler point .discarded).handlers x = q.2.handlers x :=
        fun x hx => Function.update_of_ne hx _ _
      obtain ⟨q', es, hexec, hpool, hcoro, hcontext, hin, hout⟩ :=
        ih (q := (q.1, q.2.setHandler point .discarded)) hcode hphase hnodup fun x hx => by
          rw [hother x (fun heq => hnew (heq ▸ hx))]
          exact huninvoked x (List.mem_cons_of_mem _ hx)
      refine ⟨q', .user t (.discard point) :: es, ?_, hpool, hcoro, hcontext, ?_, ?_⟩
      · rw [List.map_cons, Machine.exec_cons hstep, hexec]
        rfl
      · intro x hx
        rcases List.mem_cons.mp hx with rfl | hx
        · rw [hout x hnew]
          exact Function.update_self _ _ _
        · exact hin x hx
      · intro x hx
        rw [List.mem_cons, not_or] at hx
        rw [hout x hx.2, hother x hx.1]

omit [DecidableEq ι] [Fintype ι] in
/-- The point of a delay is a point of the body. -/
theorem lt_of_inDelay (h : k.InDelay cfg point) : point < cfg.awaits.length + 1 := by
  obtain ⟨_, hdelay⟩ := h
  cases point with
  | zero => cases hdelay
  | succ n =>
      have := (List.getElem?_eq_some_iff.mp hdelay).1
      omega

/-- From a `get()` that waits for a delay, the destruction leads to a state that is lost. -/
theorem lost_of_awaitsDelay {t : Tid N ι} (hcode : (q.1.ctrl t).user? = some .code)
    (hphase : q.2.context.phase = .dying t) (h : q.2.AwaitsDelay cfg) :
    ∃ as q' es point, (delayed N cfg).exec q as = some (q', es) ∧ q'.2.Lost cfg point := by
  obtain ⟨point, hin, hwait, hun⟩ := h
  let points := (List.range (cfg.awaits.length + 1)).filter fun x => (q.2.handlers x).uninvoked
  have hmem : ∀ {x}, x ∈ points ↔
      x < cfg.awaits.length + 1 ∧ (q.2.handlers x).uninvoked = true := by
    intro x
    simp [points]
  obtain ⟨q₁, es₁, hexec, hpool, hcoro, hcontext, hin₁, hout₁⟩ :=
    discard_all cfg hcode hphase (List.nodup_range.filter _) fun x hx => (hmem.mp hx).2
  have hlast : (delayed N cfg).step q₁ (.user t .ioContextDestroyed) =
      some ((q₁.1, q₁.2.setPhase .destroyed), [.user t .ioContextDestroyed]) := by
    refine Machine.guard_step_iff.mpr ⟨?_, ?_, rfl⟩
    · simp only [allowed, labelAllowed, hcontext, hphase, true_and, decide_eq_true_eq]
      intro x hx
      by_cases hx' : x ∈ points
      · rw [hin₁ x hx']
        rfl
      · rw [hout₁ x hx']
        by_contra hun'
        exact hx' (hmem.mpr ⟨hx, by simpa using hun'⟩)
    · simp [pool, step, hpool, hcode]
  rw [← Machine.exec_single] at hlast
  refine ⟨_, _, _, point, Machine.exec_append hexec hlast, rfl, ?_, ?_, ?_⟩
  · exact (congrArg (fun c => awaited c.owner) hcoro).trans hwait
  · exact inDelay_congr (congrArg (fun c => c.frame) hcoro.symm) hin
  · show (q₁.2.handlers point).pending = false
    rw [hin₁ point (hmem.mpr ⟨lt_of_inDelay hin, hun⟩)]
    rfl

/-- A labelled step is one of a thread in user code, and leaves the pool alone. -/
theorem label_inv {t : Tid N ι} {label : Label}
    (hs : (delayed N cfg).step q (.user t label) = some (q', es)) :
    (q.1.ctrl t).user? = some .code ∧ q'.1 = q.1 ∧ labelAllowed cfg q.2 q.1 t label = true ∧
      q'.2 = observeLabel cfg q.2 t label := by
  obtain ⟨hmay, hguarded, hobs⟩ := Machine.guard_step_iff.mp hs
  have hpool : step q.1 (.user t label) = some (q'.1, es) := hguarded
  simp only [step] at hpool
  split at hpool
  · next hcode =>
      obtain ⟨hq, rfl⟩ := Prod.mk.inj (Option.some.inj hpool)
      exact ⟨hcode, hq.symm, hmay, hobs⟩
  · cases hpool

/--
No `get()` is lost in a run in which none waits for a delay when `~AsioContext`
destroys `io_ctx_`; and when one does, a state in which it is lost can be reached.
-/
theorem delay_waiter_lost_iff :
    (∀ (q : State N ι Body × Client N ι V E) (tr : List (Event N ι Body Label)),
      (delayed N cfg).ReachWhen (UserWhen (NotAwaited cfg)) q tr →
        ∀ point, ¬ q.2.Lost cfg point) ∧
    ∀ (q q' : State N ι Body × Client N ι V E) (tr es : List (Event N ι Body Label)) (t : Tid N ι),
      (delayed N cfg).Reach q tr →
        (delayed N cfg).step q (.user t .destroyIoContext) = some (q', es) →
          q'.2.context.phase = .dying t →
            ((∃ as q'' es' point, (delayed N cfg).exec q' as = some (q'', es') ∧
              q''.2.Lost cfg point) ↔ q.2.AwaitsDelay cfg) := by
  constructor
  · intro q tr hr point hlost
    have hsp := spared_reach hr (by rw [hlost.destroyed]; rfl)
    exact hsp.not_lost hlost
  · intro q q' tr es t hr hs hdying
    obtain ⟨hcode, hpool, hmay, hk⟩ := label_inv hs
    have hstep := label_step hmay
    rw [← hk] at hstep
    have hend : ended q'.2.context.phase = true := by
      rw [hdying]
      rfl
    have hopen : ended q.2.context.phase = false := by
      simp only [labelAllowed] at hmay
      split at hmay
      · next hp => rw [hp]; rfl
      · next hp => rw [hp]; rfl
      · cases hmay
    obtain ⟨_, hcoro, hhandlers⟩ := hstep.die hopen hend
    constructor
    · rintro ⟨as, q'', es', point, hexec, hlost⟩
      by_contra hnone
      have hsp := (armed_reach hr).spared hopen hnone
      have hsp' : q'.2.Spared cfg := by
        intro point hin hwait
        rw [hcoro] at hwait
        rw [hhandlers]
        exact hsp point (inDelay_congr (by rw [hcoro]) hin) hwait
      exact (spared_exec (hr.step hs) hend hsp' hexec).2.not_lost hlost
    · rintro ⟨point, hin, hwait, hun⟩
      refine lost_of_awaitsDelay ?_ hdying ⟨point, inDelay_congr (by rw [hcoro]) hin, ?_, ?_⟩
      · rw [hpool, hcode]
      · rw [hcoro]
        exact hwait
      · rw [hhandlers]
        exact hun

/-- `co_await asio.delay(d); co_return 7;` -/
def oneDelay : Config Bool Nat String where
  owner := false
  awaits := [.delay]
  result := .ok 7
  rejection := "rejected"
  moved := id

/-- An io thread runs the context, and `get()` has resumed the coroutine up to its delay. -/
def untilDelay : List (Act 1 Bool Body Label) :=
  [.user (.inr true) (.construct 1), .submit (.inr true) .other, .advance (.inr true),
    .notify (.inr true) none, .user (.inr true) .constructed, .test solo, .advance (.inl solo),
    .start solo, .user (.inr false) (.coro (.call (.get 0))), .user (.inr false) (.coro .test),
    .user (.inr false) (.coro .attach), .user (.inr false) (.coro .test),
    .user (.inr false) (.coro (.resume none (some 0))), .user (.inr false) (.coro (.segment 0)),
    .user (.inr false) (.asyncWait 1), .user (.inr false) (.coro .leave)]

/-- The destructor up to the destruction of `io_ctx_`. -/
def untilDeath : List (Act 1 Bool Body Label) :=
  [.user (.inr true) .resetGuard, .user (.inr true) .stop, .finish solo,
    .user (.inr true) .waited]

/-- The timer expires, and the io thread takes the coroutine to its end. -/
def untilEnd : List (Act 1 Bool Body Label) :=
  [.user (.inr true) (.expire 1), .user (.inl solo) (.invoke 1), .user (.inl solo) (.resume 1),
    .user (.inl solo) (.coro (.segment 1)), .user (.inl solo) (.coro .readPromise),
    .user (.inl solo) (.coro .fulfil), .user (.inl solo) (.handlerEnded 1),
    .user (.inr false) (.coro .getReturned)]

/-- `get()` waits for a delay that the destruction of the context destroys. -/
theorem delay_lost_at_destruction :
    ¬ ∀ (q : State 1 Bool Body × Client 1 Bool Nat String) (tr : List (Event 1 Bool Body Label)),
      (delayed 1 oneDelay).Reach q tr → ∀ point, ¬ (q.2.Lost oneDelay point ∧
        q.2.coro.owner = .waiting ∧
          (∀ n < oneDelay.awaits.length + 1, (q.2.handlers n).pending = false) ∧
            ∀ x ∈ calledTasks tr, x.body = .other) := by
  intro h
  have hrun : ∃ q tr, (delayed 1 oneDelay).Reach q tr ∧ q.2.Lost oneDelay 1 ∧
      q.2.coro.owner = .waiting ∧
        (∀ n < oneDelay.awaits.length + 1, (q.2.handlers n).pending = false) ∧
          ∀ x ∈ calledTasks tr, x.body = .other :=
    ⟨_, _, Machine.reach_of_exec (untilDelay ++ untilDeath ++
      [.user (.inr true) .destroyIoContext, .user (.inr true) (.discard 1),
        .user (.inr true) .ioContextDestroyed]) rfl,
      ⟨rfl, rfl, ⟨rfl, rfl⟩, rfl⟩, rfl, by decide, by decide⟩
  obtain ⟨q, tr, hr, hlost⟩ := hrun
  exact h q tr hr 1 hlost

/-- The timer expires in time, and the io thread takes the coroutine to its end. -/
theorem delay_waiter_lost_iff_expired :
    (∃ (q : State 1 Bool Body × Client 1 Bool Nat String) (tr : List (Event 1 Bool Body Label)),
      (delayed 1 oneDelay).ReachWhen (UserWhen (NotAwaited oneDelay)) q tr ∧
        q.2.context.phase = .destroyed ∧ q.2.coro.promise = some (.ok 7) ∧
          ∀ point, ¬ q.2.Lost oneDelay point) ∧
    ∃ (q' : State 1 Bool Body × Client 1 Bool Nat String) (as : List (Act 1 Bool Body Label))
      (q'' : _) (es : _) (point : Nat),
      (delayed 1 oneDelay).exec q' as = some (q'', es) ∧ q''.2.Lost oneDelay point := by
  constructor
  · have hrun : ∃ q tr, (delayed 1 oneDelay).ReachWhen (UserWhen (NotAwaited oneDelay)) q tr ∧
        q.2.context.phase = .destroyed ∧ q.2.coro.promise = some (.ok 7) := by
      refine ⟨_, _, Machine.ReachWhen.exec_allowed (.step (a := .user (.inr true) .destroyIoContext)
        (Machine.ReachWhen.exec_allowed .init (show (delayed 1 oneDelay).exec _
          (untilDelay ++ untilEnd ++ untilDeath) = some (_, _) from rfl) ?_) ?_ rfl)
        (show (delayed 1 oneDelay).exec _ [.user (.inr true) .ioContextDestroyed] = some (_, _)
          from rfl) ?_, rfl, rfl⟩
      · intro a ha q tr
        refine notAwaited_of_ne fun t => ?_
        revert a
        simp [untilDelay, untilEnd, untilDeath]
      · -- The coroutine has finished when the destruction of `io_ctx_` begins.
        rintro t label _ _ ⟨point, ⟨hsus, _⟩, _⟩
        cases hsus
      · intro a ha q tr
        refine notAwaited_of_ne fun t => ?_
        revert a
        simp
    obtain ⟨q, tr, hr, hphase, hvalue⟩ := hrun
    exact ⟨q, tr, hr, hphase, hvalue, delay_waiter_lost_iff.1 q tr hr⟩
  · have hrun : ∃ q q' tr es, (delayed 1 oneDelay).Reach q tr ∧
        (delayed 1 oneDelay).step q (.user (.inr true) .destroyIoContext) = some (q', es) ∧
          q'.2.context.phase = .dying (.inr true) ∧ q.2.AwaitsDelay oneDelay :=
      ⟨_, _, _, _, Machine.reach_of_exec (untilDelay ++ untilDeath) rfl, rfl, rfl,
        1, ⟨rfl, rfl⟩, rfl, rfl⟩
    obtain ⟨q, q', tr, es, hr, hs, hphase, hawaits⟩ := hrun
    obtain ⟨as, q'', es', point, hexec, hlost⟩ :=
      (delay_waiter_lost_iff.2 q q' tr es _ hr hs hphase).mpr hawaits
    exact ⟨q', as, q'', es', point, hexec, hlost⟩

end Runs

end CoroDelay
end ThreadPool
end AsyncTaskEngine
