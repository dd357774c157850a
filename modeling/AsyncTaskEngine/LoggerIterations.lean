import AsyncTaskEngine.LoggerFlush

/-!
# A flush needs two iterations of the drain thread

The iteration of `drain_loop` that is in progress when a flush takes its ticket
may have read an older generation, and publishes it.  The next iteration reads a
generation that includes the ticket.  `Served` is the invariant behind this: it
relates the generation read by the drain thread to the number of iterations it
has completed.

`iterated` counts the completed iterations, and `two_iterations` states the bound
for every run in which the generations have not wrapped.  The generations cannot
be compared any more after that: `wrapped_generation_behind`.
-/

namespace AsyncTaskEngine
namespace Logger

universe u

variable {ι : Type u}

/-- The step completes an iteration of `drain_loop`. -/
def State.completes (s s' : State ι) : Bool :=
  match s.drain, s'.drain with
  | .notifyAll, .testRunning => true
  | _, _ => false

/-- The logger with the number of iterations that its drain thread has completed. -/
def iterated [DecidableEq ι] [Fintype ι] (minLevel : LogLevel) :
    Machine (State ι × Nat) (Act ι) (Event ι) :=
  (logger minLevel).watch 0 fun s n s' _ => if s.completes s' then n + 1 else n

/-- What the drain thread publishes is not older than what it has published. -/
def Forward (s : State ι) : Prop :=
  ∀ p, s.drain.pending? = some p → s.flushGenDone ≤ p

/-- The generation `g` is served after two iterations more than `n₀`. -/
structure Served (n₀ : Nat) (g : Word) (s : State ι) (n : Nat) : Prop where
  pending : g ≤ s.flushGenPending
  begun : n₀ ≤ n
  /-- The second iteration reads a generation that includes `g`. -/
  read : n₀ + 1 ≤ n → ∀ p, s.drain.pending? = some p → g ≤ p
  published : n₀ + 1 ≤ n → s.drain = .notifyAll → g ≤ s.flushGenDone
  done : n₀ + 2 ≤ n → g ≤ s.flushGenDone
  /-- The second `notify_all` has woken whoever slept. -/
  awake : n₀ + 2 ≤ n → ∀ t k, s.call t ≠ .flush (.asleep g) k

/-- A step between the three steps of an iteration that move a generation or wake the
waiting threads. -/
structure Calm (s s' : State ι) : Prop where
  done : s'.flushGenDone = s.flushGenDone
  pending : ∀ p, s'.drain.pending? = some p → s.drain.pending? = some p
  notify : s'.drain = .notifyAll ↔ s.drain = .notifyAll
  asleep : ∀ t w k, s'.call t = .flush (.asleep w) k →
    s.call t = .flush (.asleep w) k ∨ s.flushGenDone < w

section Iteration

variable [DecidableEq ι] {s s' : State ι} {tr es : List (Event ι)}

theorem setLog_notifyAll (who : Caller ι) (c : Option (LogCall ι)) :
    (s.setLog who c).drain = .notifyAll ↔ s.drain = .notifyAll := by
  unfold State.setLog
  split
  · split <;> rfl
  · split
    · next hd => simp [hd]
    · rfl

/-- A thread that sleeps after a step of `log` was asleep before. -/
theorem asleep_of_setLog {who : Caller ι} {c : Option (LogCall ι)} {t : ι} {w : Word}
    {k : After} (h : (s.setLog who c).call t = .flush (.asleep w) k) :
    s.call t = .flush (.asleep w) k := by
  cases who with
  | drain =>
      cases hd : s.drain <;> simp_all [State.setLog]
  | client v =>
      by_cases htv : t = v
      · subst htv
        cases c <;> simp [State.setLog, State.setCall] at h
      · cases c <;> simpa [State.setLog, State.setCall, htv] using h

namespace Calm

/-- A client moves. -/
theorem client {t : ι} {c : Call ι} (hcall : s'.call = Function.update s.call t c)
    (hc : ∀ w k, c = .flush (.asleep w) k → s.flushGenDone < w)
    (hdone : s'.flushGenDone = s.flushGenDone) (hd : s'.drain = s.drain) : Calm s s' := by
  refine ⟨hdone, by simp [hd], by rw [hd], fun u w k hu => ?_⟩
  by_cases hut : u = t
  · subst hut
    rw [hcall, Function.update_self] at hu
    exact .inr (hc w k hu)
  · rw [hcall, Function.update_of_ne hut] at hu
    exact .inl hu

/-- A thread moves inside `log`. -/
theorem log {who : Caller ι} {c : Option (LogCall ι)}
    (hcall : s'.call = (s.setLog who c).call) (hd : s'.drain = (s.setLog who c).drain)
    (hdone : s'.flushGenDone = s.flushGenDone) : Calm s s' := by
  refine ⟨hdone, ?_, by rw [hd, setLog_notifyAll], fun t w k ht => ?_⟩
  · simp [hd]
  · rw [hcall] at ht
    exact .inl (asleep_of_setLog ht)

omit [DecidableEq ι] in
/-- The drain thread moves. -/
theorem drain (hcall : s'.call = s.call) (hdone : s'.flushGenDone = s.flushGenDone)
    (hp : ∀ p, s'.drain.pending? = some p → s.drain.pending? = some p)
    (hn : s.drain ≠ .notifyAll) (hn' : s'.drain ≠ .notifyAll) : Calm s s' :=
  ⟨hdone, hp, by simp [hn, hn'], fun t w k ht => .inl (by rwa [hcall] at ht)⟩

end Calm

/-- The steps of an iteration, as far as the generations are concerned. -/
theorem Move.iteration (hm : Move s s' es) :
    Calm s s' ∨
      (s.drain = .wait ∧ s' = { s with drain := .write s.queue s.flushGenPending, queue := [] }) ∨
      (∃ p, s.drain = .write [] p ∧ s' = { s with drain := .notifyAll, flushGenDone := p }) ∨
      (s.drain = .notifyAll ∧
        s' = { s with drain := .testRunning, call := fun t => (s.call t).wake }) := by
  cases hm with
  | discard hc hlevel => exact .inl (.log rfl rfl (by simp))
  | record hc hlevel => exact .inl (.log rfl rfl (by simp))
  | push hc => exact .inl (.log rfl rfl (by simp))
  | logReturn hc => exact .inl (.log rfl rfl (by simp))
  | enter hidle hopen hc =>
      refine .inl (.client rfl ?_ rfl rfl)
      rintro w k rfl
      simp [Call.isEntry] at hc
  | @flushReturn t target k hc hdone =>
      refine .inl (.client rfl ?_ rfl rfl)
      cases k <;> simp [After.call]
  | flushSleep hc hwait =>
      refine .inl (.client rfl ?_ rfl rfl)
      rintro w k ⟨⟩
      exact BitVec.not_le.mp hwait
  | destroy hidle hopen => exact .inl (.client rfl (by simp) rfl rfl)
  | setLevel hc => exact .inl (.client rfl (by simp) rfl rfl)
  | ticket hc => exact .inl (.client rfl (by simp) rfl rfl)
  | flushNotify hc => exact .inl (.client rfl (by simp) rfl rfl)
  | spurious hc => exact .inl (.client rfl (by simp) rfl rfl)
  | stop hc => exact .inl (.client rfl (by simp) rfl rfl)
  | stopNotify hc => exact .inl (.client rfl (by simp) rfl rfl)
  | join hc hd => exact .inl (.client rfl (by simp) rfl rfl)
  | goOn hd hr => exact .inl (.drain rfl rfl (by simp [Drain.pending?]) (by simp [hd]) (by simp))
  | stopping hd hr =>
      exact .inl (.drain rfl rfl (by simp [Drain.pending?]) (by simp [hd]) (by simp))
  | exit hd hq => exact .inl (.drain rfl rfl (by simp [Drain.pending?]) (by simp [hd]) (by simp))
  | again hd => exact .inl (.drain rfl rfl (by simp [Drain.pending?]) (by simp [hd]) (by simp))
  | sinkLog hd =>
      exact .inl (.drain rfl rfl (by simp [hd, Drain.pending?]) (by simp [hd]) (by simp))
  | deliver hd =>
      exact .inl (.drain rfl rfl (by simp [hd, Drain.pending?]) (by simp [hd]) (by simp))
  | sinkReturn hd =>
      exact .inl (.drain rfl rfl (by simp [hd, Drain.pending?]) (by simp [hd]) (by simp))
  | swap hd => exact .inr (.inl ⟨hd, rfl⟩)
  | publish hd => exact .inr (.inr (.inl ⟨_, hd, rfl⟩))
  | notifyAll hd => exact .inr (.inr (.inr ⟨hd, rfl⟩))

omit [DecidableEq ι] in
theorem not_completes (calm : Calm s s') : s.completes s' = false := by
  unfold State.completes
  split
  · next hd hd' =>
      have := calm.notify.mpr hd
      rw [hd'] at this
      cases this
  · rfl

omit [DecidableEq ι] in
theorem asleep_ne_wake {c : Call ι} {w : Word} {k : After} :
    c.wake ≠ .flush (.asleep w) k := by
  cases c with
  | flush f k' => cases f <;> simp [Call.wake]
  | _ => simp [Call.wake]

theorem Forward.step (h : Forward s) (gen : Generations s tr) (hm : Move s s' es) :
    Forward s' := by
  rcases hm.iteration with calm | ⟨hd, rfl⟩ | ⟨p, hd, rfl⟩ | ⟨hd, rfl⟩
  · intro p hp
    rw [calm.done]
    exact h p (calm.pending p hp)
  · intro p hp
    obtain rfl := Option.some.inj hp
    rw [BitVec.le_def, gen.pending]
    exact gen.done_le
  · simp [Forward, Drain.pending?]
  · simp [Forward, Drain.pending?]

/-- The published generation only grows. -/
theorem Forward.done_mono (h : Forward s) (hm : Move s s' es) :
    s.flushGenDone ≤ s'.flushGenDone := by
  rcases hm.iteration with calm | ⟨hd, rfl⟩ | ⟨p, hd, rfl⟩ | ⟨hd, rfl⟩
  · rw [calm.done]
    exact BitVec.le_refl _
  · exact BitVec.le_refl _
  · exact h p (by simp [hd, Drain.pending?])
  · exact BitVec.le_refl _

theorem Served.step {n₀ n : Nat} {g : Word} (h : Served n₀ g s n) (forward : Forward s)
    (hpending : s.flushGenPending ≤ s'.flushGenPending) (hm : Move s s' es) :
    Served n₀ g s' (if s.completes s' then n + 1 else n) := by
  have hbegun := h.begun
  have hmono := BitVec.le_trans h.pending hpending
  rcases hm.iteration with calm | ⟨hd, rfl⟩ | ⟨p, hd, rfl⟩ | ⟨hd, rfl⟩
  · rw [not_completes calm]
    refine ⟨hmono, hbegun, fun hn p hp => h.read hn p (calm.pending p hp), fun hn hd => ?_,
      fun hn => ?_, fun hn t k ht => ?_⟩
    · rw [calm.done]
      exact h.published hn (calm.notify.mp hd)
    · rw [calm.done]
      exact h.done hn
    · rcases calm.asleep t g k ht with hold | hnew
      · exact h.awake hn t k hold
      · exact BitVec.not_le.mpr hnew (h.done hn)
  · refine ⟨hmono, by simpa [State.completes, hd], fun _ p hp => ?_, by simp, ?_, ?_⟩
    · obtain rfl := Option.some.inj hp
      exact h.pending
    · simpa [State.completes, hd] using h.done
    · simpa [State.completes, hd] using h.awake
  · have hp : s.drain.pending? = some p := by simp [hd, Drain.pending?]
    simp only [State.completes, hd]
    refine ⟨hmono, hbegun, by simp [Drain.pending?], fun hn _ => h.read hn p hp, fun hn => ?_,
      h.awake⟩
    exact BitVec.le_trans (h.done hn) (forward p hp)
  · simp only [State.completes, hd]
    refine ⟨hmono, Nat.le_succ_of_le hbegun, by simp [Drain.pending?], by simp, fun hn => ?_,
      fun _ t k => asleep_ne_wake⟩
    exact h.published (Nat.le_of_succ_le_succ hn) hd

end Iteration

/-- What two iterations of the drain thread do for the flushes that have taken a ticket:
`q` and `q'` are the logger before and after them, with the completed iterations. -/
structure TwoIterations (tr : List (Event ι)) (q q' : State ι × Nat) : Prop where
  done_le : q'.1.flushGenDone ≤ q'.1.flushGenPending
  done_mono : q.1.flushGenDone ≤ q'.1.flushGenDone
  /-- The condition of a flush that has its ticket is true. -/
  served : ∀ t w, .flushTicket t w ∈ tr → q.2 + 2 ≤ q'.2 → w ≤ q'.1.flushGenDone
  /-- It is not left asleep. -/
  awake : ∀ t w k, .flushTicket t w ∈ tr → q.2 + 2 ≤ q'.2 →
    q'.1.call t ≠ .flush (.asleep w) k

section Runs

variable [DecidableEq ι] [Fintype ι] {minLevel : LogLevel} {s : State ι}
variable {tr es : List (Event ι)}

theorem reach_forward (hr : (logger minLevel : Machine (State ι) _ _).Reach s tr)
    (hbound : tickets tr < 2 ^ 64) : Forward s := by
  revert hbound
  refine hr.invariant (P := fun s tr => tickets tr < 2 ^ 64 → Forward s) ?_ ?_
  · intro _
    simp [Forward, logger, Drain.pending?]
  · intro s tr a s' es hr h hs hbound
    have hbound' : tickets tr < 2 ^ 64 := by
      rw [tickets_append] at hbound
      omega
    exact (h hbound').step (reach_generations hr hbound') (step_move hs)

omit [Fintype ι] in
theorem Move.flushTicket {s' : State ι} (hm : Move s s' es) {t : ι} {w : Word}
    (he : .flushTicket t w ∈ es) : w = s'.flushGenPending := by
  cases hm with
  | ticket hc =>
      obtain ⟨rfl, rfl⟩ := by simpa using he
      rfl
  | _ => simp at he

/-- The pending generation only grows. -/
theorem pending_mono {s' : State ι} {a : Act ι}
    (hr : (logger minLevel : Machine (State ι) _ _).Reach s tr)
    (hs : (logger minLevel).step s a = some (s', es)) (hbound : tickets (tr ++ es) < 2 ^ 64) :
    s.flushGenPending ≤ s'.flushGenPending := by
  have hafter := (reach_generations (.step hr hs) hbound).pending
  rw [tickets_append] at hbound hafter
  have hbefore := (reach_generations hr (by omega)).pending
  rw [BitVec.le_def]
  omega

theorem ticket_le_pending (hr : (logger minLevel : Machine (State ι) _ _).Reach s tr)
    (hbound : tickets tr < 2 ^ 64) {t : ι} {w : Word} (he : .flushTicket t w ∈ tr) :
    w ≤ s.flushGenPending := by
  revert hbound he
  refine hr.invariant (P := fun s tr => tickets tr < 2 ^ 64 → .flushTicket t w ∈ tr →
    w ≤ s.flushGenPending) (by simp) ?_
  intro s tr a s' es hr h hs hbound he
  rcases List.mem_append.mp he with hold | hnew
  · have hmono := pending_mono hr hs hbound
    rw [tickets_append] at hbound
    exact BitVec.le_trans (h (by omega) hold) hmono
  · rw [(step_move hs).flushTicket hnew]
    exact BitVec.le_refl _

/-- Two iterations serve every ticket that was taken before them. -/
theorem two_iterations {q q' : State ι × Nat} {as : List (Act ι)}
    (hr : (iterated minLevel).Reach q tr)
    (he : (iterated minLevel).exec q as = some (q', es))
    (hbound : tickets (tr ++ es) < 2 ^ 64) : TwoIterations tr q q' := by
  have hreach : (logger minLevel).Reach q.1 tr :=
    (Machine.ReachWhen.of_watch (C := fun _ _ _ => True) hr.reachWhen).reach
  have hbefore : tickets tr < 2 ^ 64 := by
    rw [tickets_append] at hbound
    omega
  have hrun := Machine.exec_invariant
    (P := fun q' es => tickets (tr ++ es) < 2 ^ 64 →
      (logger minLevel).Reach q'.1 (tr ++ es) ∧ q.1.flushGenDone ≤ q'.1.flushGenDone ∧
        ∀ t w, .flushTicket t w ∈ tr → Served q.2 w q'.1 q'.2) he ?_ ?_ hbound
  · obtain ⟨hreach', hdone, hserved⟩ := hrun
    have gen := reach_generations hreach' hbound
    refine ⟨?_, hdone, fun t w ht hn => (hserved t w ht).done hn,
      fun t w k ht hn => (hserved t w ht).awake hn t k⟩
    rw [BitVec.le_def, gen.pending]
    exact gen.done_le
  · intro _
    rw [List.append_nil]
    refine ⟨hreach, BitVec.le_refl _, fun t w ht => ?_⟩
    exact ⟨ticket_le_pending hreach hbefore ht, le_refl _, by omega, by omega, by omega,
      by omega⟩
  · intro q₁ es₁ a q₂ es₂ _ ih hs hbound₂
    rw [← List.append_assoc] at hbound₂ ⊢
    have hbound₁ : tickets (tr ++ es₁) < 2 ^ 64 := by
      rw [tickets_append] at hbound₂
      omega
    obtain ⟨hreach₁, hdone, hserved⟩ := ih hbound₁
    obtain ⟨hstep, hcount⟩ := Machine.watch_step_iff.mp hs
    have hm := step_move hstep
    have forward := reach_forward hreach₁ hbound₁
    refine ⟨.step hreach₁ hstep, BitVec.le_trans hdone (forward.done_mono hm), fun t w ht => ?_⟩
    rw [hcount]
    exact (hserved t w ht).step forward (pending_mono hreach₁ hstep hbound₂) hm

end Runs

/-- Two overlapping flushes, taken while the drain thread holds an older generation. -/
theorem two_iterations_overlapping :
    ∃ (q q' : State Bool × Nat) (tr : List (Event Bool)),
      q.1.drain.pending? = some 0 ∧ .flushTicket true 2 ∈ tr ∧ q.2 + 2 ≤ q'.2 ∧
        TwoIterations tr q q' := by
  obtain ⟨q, tr, hfirst, ⟨q', es, hsecond, hcount, hbound⟩, hold, hmem⟩ :
      ∃ q tr, (iterated .info).exec (iterated .info).init
        ([.callFlush false, .drain, .drain, .go false, .callFlush true, .go true] :
          List (Act Bool)) = some (q, tr) ∧
        (∃ q' es, (iterated .info).exec q
          [.drain, .drain, .drain, .drain, .drain, .drain] = some (q', es) ∧
            q.2 + 2 ≤ q'.2 ∧ tickets (tr ++ es) < 2 ^ 64) ∧
        q.1.drain.pending? = some 0 ∧ .flushTicket true 2 ∈ tr :=
    ⟨_, _, rfl, ⟨_, _, rfl, by decide, by decide⟩, rfl, by decide⟩
  exact ⟨q, q', tr, hold, hmem, hcount,
    two_iterations (Machine.Reach.init.exec hfirst) hsecond hbound⟩

/-- The generation that a flush has taken after `2 ^ 64 - 1` others is behind the published
one, which is then taken back. -/
theorem wrapped_generation_behind :
    ∃ (s s' : State Unit) (tr : List (Event Unit)), (logger .info).Reach s tr ∧
      s.running = true ∧ s.flushGenPending < s.flushGenDone ∧
        (logger .info).exec s [.drain, .drain, .drain] = some (s', []) ∧
          s'.running = true ∧ s'.flushGenDone < s.flushGenDone := by
  obtain ⟨tr, hr, _⟩ := reach_flushed .info (2 ^ 64 - 1)
  have hticket : (logger .info).exec (flushed .info (BitVec.ofNat 64 (2 ^ 64 - 1)))
      [.callFlush (), .go ()] =
        some ({ flushed .info (BitVec.ofNat 64 (2 ^ 64 - 1)) with
          flushGenPending := 0, call := fun _ => .flush (.notify 0) .return },
          [.flushTicket () 0]) := by
    simp [Machine.exec, logger, step, goStep, flushed, State.setCall]
    rfl
  exact ⟨_, _, _, hr.exec hticket, rfl, by decide, rfl, rfl, by decide⟩

end Logger
end AsyncTaskEngine
