import AsyncTaskEngine.LoggerDelivery

/-!
# A flush returns after the entries pushed before it

A flush takes the next generation as its ticket and waits until the drain thread
has published a generation that is not smaller.  The drain thread publishes the
generation that it read together with the batch.  `Settled n m` says that the
entries pushed before the first `n` tickets are among the first `m` pushed
entries; `Generations` is the invariant that relates the published generation,
the generation read with the batch and the tickets of the waiting threads.

The generations are 64-bit counters.  The guarantee holds as long as they do not
wrap; after `2 ^ 64` calls it fails.
-/

namespace AsyncTaskEngine
namespace Logger

universe u

variable {ι : Type u}

/-- The number of tickets taken by calls of `flush`. -/
def tickets (tr : List (Event ι)) : Nat :=
  tr.countP fun
    | .flushTicket _ _ => true
    | _ => false

@[simp] theorem tickets_append (tr es : List (Event ι)) :
    tickets (tr ++ es) = tickets tr + tickets es :=
  List.countP_append

/-- No ticket is taken. -/
def NoTicket (es : List (Event ι)) : Prop :=
  ∀ t w, .flushTicket t w ∉ es

theorem tickets_eq_zero {es : List (Event ι)} : tickets es = 0 ↔ NoTicket es := by
  rw [tickets, List.countP_eq_zero]
  constructor
  · intro h t w he
    simpa using h _ he
  · intro h e he
    cases e with
    | flushTicket t w => exact (h t w he).elim
    | _ => simp

/--
The entries pushed before one of the first `n` tickets are among the first `m`
pushed entries.
-/
def Settled (n m : Nat) (tr : List (Event ι)) : Prop :=
  ∀ pre t w post, tr = pre ++ .flushTicket t w :: post → tickets pre < n →
    (pushed pre).length ≤ m

namespace Settled

variable {n m m' : Nat} {tr es : List (Event ι)}

theorem mono (h : Settled n m tr) (hm : m ≤ m') : Settled n m' tr :=
  fun pre t w post htr hn => (h pre t w post htr hn).trans hm

/-- Later tickets are not among the first ones. -/
theorem append (h : Settled n m tr) (hn : n ≤ tickets tr) : Settled n m (tr ++ es) := by
  intro pre t w post htr hpre
  rcases Machine.event_split htr with ⟨es₀, rfl, _⟩ | ⟨post₀, htr₀, _⟩
  · rw [tickets_append] at hpre
    omega
  · exact h pre t w post₀ htr₀ hpre

/-- All entries pushed so far include those pushed before any ticket. -/
theorem all (hm : (pushed tr).length ≤ m) : Settled n m tr := by
  intro pre t w post htr _
  rw [htr, pushed_append, List.length_append] at hm
  omega

end Settled

/-- The generation that the drain thread read together with its batch. -/
def Drain.pending? : Drain ι → Option Word
  | .write _ pending => some pending
  | .inSink _ pending _ => some pending
  | _ => none

/-- The generation that a flush waits for. -/
def Call.target? : Call ι → Option Word
  | .flush (.notify target) _ => some target
  | .flush (.check target) _ => some target
  | .flush (.asleep target) _ => some target
  | _ => none

@[simp] theorem wake_target? (c : Call ι) : c.wake.target? = c.target? := by
  cases c with
  | flush f k => cases f <;> rfl
  | _ => rfl

/-- The last ticket of a thread, with the number that it was given. -/
def LastTicket (t : ι) (target : Word) (tr : List (Event ι)) : Prop :=
  ∃ pre post, tr = pre ++ .flushTicket t target :: post ∧
    (∀ w, .flushTicket t w ∉ post) ∧ target.toNat = tickets pre + 1

/-- The generation counters, the batch and the tickets of the waiting threads. -/
structure Generations (s : State ι) (tr : List (Event ι)) : Prop where
  pending : s.flushGenPending.toNat = tickets tr
  done_le : s.flushGenDone.toNat ≤ tickets tr
  done : Settled s.flushGenDone.toNat (delivered tr).length tr
  taken_le : ∀ p, s.drain.pending? = some p → p.toNat ≤ tickets tr
  taken : ∀ p, s.drain.pending? = some p →
    Settled p.toNat ((delivered tr).length + s.drain.batch.length) tr
  target : ∀ t w, (s.call t).target? = some w → LastTicket t w tr

variable [DecidableEq ι] {s s' : State ι} {tr es : List (Event ι)}

@[simp] theorem setLog_flushGenPending (who : Caller ι) (c : Option (LogCall ι)) :
    (s.setLog who c).flushGenPending = s.flushGenPending := by
  unfold State.setLog
  split
  · split <;> rfl
  · split <;> rfl

@[simp] theorem setLog_flushGenDone (who : Caller ι) (c : Option (LogCall ι)) :
    (s.setLog who c).flushGenDone = s.flushGenDone := by
  unfold State.setLog
  split
  · split <;> rfl
  · split <;> rfl

@[simp] theorem setLog_pending? (who : Caller ι) (c : Option (LogCall ι)) :
    (s.setLog who c).drain.pending? = s.drain.pending? := by
  unfold State.setLog
  split
  · split <;> rfl
  · split
    · next hd => simp [hd, Drain.pending?]
    · rfl

/-- A call of `log` does not touch the target of any flush. -/
theorem target?_setLog {who : Caller ι} {c₀ : LogCall ι} (hc : s.logCall? who = some c₀)
    (c : Option (LogCall ι)) (t : ι) :
    ((s.setLog who c).call t).target? = (s.call t).target? := by
  cases who with
  | drain =>
      cases hd : s.drain <;> simp [State.setLog, hd]
  | client v =>
      by_cases htv : t = v
      · subst htv
        have hold : (s.call t).target? = none := by
          cases ht : s.call t with
          | log c => rfl
          | _ => simp [State.logCall?, ht] at hc
        rw [hold]
        cases c <;> simp [State.setLog, State.setCall, Call.target?]
      · cases c <;> simp [State.setLog, State.setCall, htv]

namespace Generations

omit [DecidableEq ι] in
/-- A step that takes no ticket and moves no generation. -/
theorem quiet (h : Generations s tr) (hes : NoTicket es)
    (hpending : s'.flushGenPending = s.flushGenPending)
    (hdone : s'.flushGenDone = s.flushGenDone)
    (hp : ∀ p, s'.drain.pending? = some p → s.drain.pending? = some p)
    (hbatch : ∀ p, s'.drain.pending? = some p →
      s.drain.batch.length ≤ (delivered es).length + s'.drain.batch.length)
    (htarget : ∀ t w, (s'.call t).target? = some w → (s.call t).target? = some w) :
    Generations s' (tr ++ es) := by
  have htickets : tickets (tr ++ es) = tickets tr := by
    rw [tickets_append, tickets_eq_zero.mpr hes, Nat.add_zero]
  refine ⟨?_, ?_, ?_, fun p hp' => ?_, fun p hp' => ?_, fun t w hw => ?_⟩
  · rw [hpending, htickets, h.pending]
  · rw [hdone, htickets]
    exact h.done_le
  · rw [hdone]
    exact (h.done.append h.done_le).mono (by simp)
  · rw [htickets]
    exact h.taken_le p (hp p hp')
  · refine ((h.taken p (hp p hp')).append (h.taken_le p (hp p hp'))).mono ?_
    have := hbatch p hp'
    rw [delivered_append, List.length_append]
    omega
  · obtain ⟨pre, post, htr, hpost, hnum⟩ := h.target t w (htarget t w hw)
    refine ⟨pre, post ++ es, by rw [htr, List.append_assoc, List.cons_append], fun w' hw' => ?_,
      hnum⟩
    rcases List.mem_append.mp hw' with hw' | hw'
    · exact hpost w' hw'
    · exact hes t w' hw'

/-- A client moves and takes no ticket. -/
theorem client (h : Generations s tr) (hes : NoTicket es) {t : ι} {c : Call ι}
    (hs : s'.call = Function.update s.call t c)
    (htarget : c.target? = none ∨ c.target? = (s.call t).target?)
    (hpending : s'.flushGenPending = s.flushGenPending)
    (hdone : s'.flushGenDone = s.flushGenDone) (hd : s'.drain = s.drain) :
    Generations s' (tr ++ es) := by
  refine h.quiet hes hpending hdone (by simp [hd]) (by simp [hd]) fun v w hw => ?_
  by_cases hv : v = t
  · subst hv
    rw [hs, Function.update_self] at hw
    rcases htarget with hc | hc
    · simp [hc] at hw
    · rwa [← hc]
  · rwa [hs, Function.update_of_ne hv] at hw

/-- A step of a call of `log`. -/
theorem log (h : Generations s tr) (hes : NoTicket es) {who : Caller ι} {c₀ : LogCall ι}
    {c : Option (LogCall ι)} (hc : s.logCall? who = some c₀)
    (hcall : s'.call = (s.setLog who c).call) (hd : s'.drain = (s.setLog who c).drain)
    (hpending : s'.flushGenPending = s.flushGenPending)
    (hdone : s'.flushGenDone = s.flushGenDone) : Generations s' (tr ++ es) := by
  refine h.quiet hes hpending hdone ?_ ?_ fun t w hw => ?_
  · simp [hd]
  · simp [hd]
  · rwa [hcall, target?_setLog hc] at hw

/-- A thread takes a ticket. -/
theorem ticket (h : Generations s tr) (hbound : tickets tr + 1 < 2 ^ 64) {t : ι} {k : After} :
    Generations
      { s.setCall t (.flush (.notify (s.flushGenPending + 1)) k) with
        flushGenPending := s.flushGenPending + 1 }
      (tr ++ [.flushTicket t (s.flushGenPending + 1)]) := by
  have hnext : (s.flushGenPending + 1).toNat = tickets tr + 1 := by
    have := h.pending
    rw [BitVec.toNat_add]
    simp
    omega
  have htickets : tickets (tr ++ [.flushTicket t (s.flushGenPending + 1)]) = tickets tr + 1 := by
    rw [tickets_append]
    rfl
  refine ⟨?_, ?_, ?_, fun p hp => ?_, fun p hp => ?_, fun v w hw => ?_⟩
  · rw [htickets]
    exact hnext
  · rw [htickets]
    exact h.done_le.trans (Nat.le_succ _)
  · exact (h.done.append h.done_le).mono (by simp)
  · rw [htickets]
    exact (h.taken_le p hp).trans (Nat.le_succ _)
  · exact ((h.taken p hp).append (h.taken_le p hp)).mono (by simp [State.setCall])
  · by_cases hv : v = t
    · subst hv
      simp only [State.setCall, Function.update_self, Call.target?, Option.some.injEq] at hw
      subst hw
      exact ⟨tr, [], rfl, by simp, hnext⟩
    · rw [State.setCall] at hw
      simp only [Function.update_of_ne hv] at hw
      obtain ⟨pre, post, htr, hpost, hnum⟩ := h.target v w hw
      refine ⟨pre, post ++ [.flushTicket t (s.flushGenPending + 1)], by simp [htr],
        fun w' hw' => ?_, hnum⟩
      rcases List.mem_append.mp hw' with hw' | hw'
      · exact hpost w' hw'
      · simp [hv] at hw'

theorem step (h : Generations s tr) (hflow : Flow s tr) (hm : Move s s' es)
    (hbound : tickets (tr ++ es) < 2 ^ 64) : Generations s' (tr ++ es) := by
  have hnone : NoTicket ([] : List (Event ι)) := by simp [NoTicket]
  cases hm with
  | discard hc hlevel => exact h.log (by simp [NoTicket]) hc rfl rfl (by simp) (by simp)
  | record hc hlevel => exact h.log (by simp [NoTicket]) hc rfl rfl (by simp) (by simp)
  | push hc => exact h.log (by simp [NoTicket]) hc rfl rfl (by simp) (by simp)
  | logReturn hc => exact h.log hnone hc rfl rfl (by simp) (by simp)
  | @enter t c hidle hopen hc =>
      refine h.client hnone rfl (.inl ?_) rfl rfl rfl
      cases c with
      | flush f k => cases f <;> simp [Call.isEntry, Call.target?] at hc ⊢
      | _ => rfl
  | destroy hidle hopen => exact h.client hnone rfl (.inl rfl) rfl rfl rfl
  | setLevel hc => exact h.client hnone rfl (.inl rfl) rfl rfl rfl
  | ticket hc => exact h.ticket (by simpa [tickets] using hbound)
  | flushNotify hc => exact h.client hnone rfl (.inr (by simp [hc, Call.target?])) rfl rfl rfl
  | @flushReturn t target k hc hdone =>
      refine h.client (by simp [NoTicket]) rfl (.inl ?_) rfl rfl rfl
      cases k <;> rfl
  | flushSleep hc hwait => exact h.client hnone rfl (.inr (by simp [hc, Call.target?])) rfl rfl rfl
  | spurious hc => exact h.client hnone rfl (.inr (by simp [hc, Call.target?])) rfl rfl rfl
  | stop hc => exact h.client hnone rfl (.inl rfl) rfl rfl rfl
  | stopNotify hc => exact h.client hnone rfl (.inl rfl) rfl rfl rfl
  | join hc hd => exact h.client (by simp [NoTicket]) rfl (.inl rfl) rfl rfl rfl
  | goOn hd hr | stopping hd hr | exit hd hq | again hd =>
      exact h.quiet hnone rfl rfl (by simp [Drain.pending?]) (by simp [Drain.pending?])
        fun _ _ hw => hw
  | notifyAll hd =>
      exact h.quiet hnone rfl rfl (by simp [Drain.pending?]) (by simp [Drain.pending?]) (by simp)
  | sinkLog hd | sinkReturn hd =>
      exact h.quiet hnone rfl rfl (by simp [hd, Drain.pending?]) (by simp [hd, Drain.batch])
        fun _ _ hw => hw
  | deliver hd =>
      refine h.quiet (by simp [NoTicket]) rfl rfl (by simp [hd, Drain.pending?]) ?_
        fun _ _ hw => hw
      simp [hd, Drain.batch, delivered, Nat.add_comm]
  | swap hd =>
      -- everything pushed so far is delivered or in the new batch
      have hall : (pushed tr).length = (delivered tr).length + s.queue.length := by
        rw [hflow, hd, List.length_append]
        rfl
      rw [List.append_nil]
      refine ⟨h.pending, h.done_le, h.done, fun p hp => ?_, fun p hp => ?_, h.target⟩
      · cases hp
        exact h.pending.le
      · exact .all hall.le
  | @publish pending hd =>
      have hpending : s.drain.pending? = some pending := by simp [hd, Drain.pending?]
      rw [List.append_nil]
      refine ⟨h.pending, h.taken_le _ hpending, ?_, by simp [Drain.pending?],
        by simp [Drain.pending?], h.target⟩
      simpa [hd, Drain.batch] using h.taken _ hpending

end Generations

variable [Fintype ι] {minLevel : LogLevel}

omit [Fintype ι] in
/-- The ticket with which a flush returns. -/
theorem Move.flushReturned (hm : Move s s' es) {t : ι} {es₀ es₁ : List (Event ι)}
    (hes : es = es₀ ++ .flushReturned t :: es₁) :
    es₀ = [] ∧ ∃ target, (s.call t).target? = some target ∧ target ≤ s.flushGenDone := by
  have hnil : es₀ = [] := by
    cases es₀ with
    | nil => rfl
    | cons e es₀ => cases hm <;> simp at hes
  subst hnil
  refine ⟨rfl, ?_⟩
  cases hm with
  | @flushReturn v target k hc hdone =>
      obtain ⟨hv, _⟩ := List.cons.inj hes
      cases hv
      exact ⟨target, by simp [hc, Call.target?], hdone⟩
  | _ => simp at hes

omit [DecidableEq ι] [Fintype ι] in
/-- The last ticket of a thread is unique. -/
theorem LastTicket.toNat_eq {t : ι} {target w : Word} {pre mid : List (Event ι)}
    (h : LastTicket t target (pre ++ .flushTicket t w :: mid))
    (hmid : ∀ w', .flushTicket t w' ∉ mid) : target.toNat = tickets pre + 1 := by
  obtain ⟨pre', post, htr, hpost, hnum⟩ := h
  rw [hnum, Machine.last_split htr (hpost w) (hmid target)]

theorem reach_generations (hr : (logger minLevel : Machine (State ι) _ _).Reach s tr)
    (hbound : tickets tr < 2 ^ 64) : Generations s tr := by
  revert hbound
  refine hr.invariant (P := fun s tr => tickets tr < 2 ^ 64 → Generations s tr) ?_ ?_
  · intro _
    exact
      { pending := rfl
        done_le := Nat.le_refl _
        done := .all (Nat.le_refl _)
        taken_le := by simp [logger, Drain.pending?]
        taken := by simp [logger, Drain.pending?]
        target := by simp [logger, Call.target?] }
  · intro s tr a s' es hr h hs hbound
    refine Generations.step (h ?_) (reach_flow hr) (step_move hs) hbound
    rw [tickets_append] at hbound
    omega

/--
When a flush returns, every entry pushed before its ticket has been passed to
the sink, as long as fewer than `2 ^ 64` tickets have been taken.
-/
theorem flush_drains (hr : (logger minLevel : Machine (State ι) _ _).Reach s tr)
    (hbound : tickets tr < 2 ^ 64) {t : ι} {w : Word} {pre mid post : List (Event ι)}
    (htr : tr = pre ++ .flushTicket t w :: mid ++ .flushReturned t :: post)
    (hmid : ∀ w', .flushTicket t w' ∉ mid) :
    pushed pre <+: delivered (pre ++ .flushTicket t w :: mid) := by
  obtain ⟨s₀, tr₀, a, s₁, es₀, es₁, hr₀, hs, hpre⟩ := hr.emitted htr
  obtain ⟨hnil, target, htarget, hdone⟩ := (step_move hs).flushReturned rfl
  rw [hnil, List.append_nil] at hpre
  rw [hpre]
  have hbound₀ : tickets tr₀ < 2 ^ 64 := by
    rw [htr, hpre, tickets_append] at hbound
    omega
  have hgen := reach_generations hr₀ hbound₀
  have hlast := hgen.target t target htarget
  rw [← hpre] at hlast
  -- the number of the ticket is at most the published generation
  have hlen : (pushed pre).length ≤ (delivered tr₀).length := by
    refine hgen.done pre t w mid hpre.symm ?_
    have := hlast.toNat_eq hmid
    have : target.toNat ≤ s₀.flushGenDone.toNat := hdone
    omega
  have hdelivered : delivered tr₀ <+: pushed tr₀ :=
    ⟨s₀.drain.batch ++ s₀.queue, (reach_flow hr₀).symm⟩
  have hpushed : pushed pre <+: pushed tr₀ := by
    rw [← hpre, pushed_append]
    exact List.prefix_append _ _
  exact List.prefix_of_prefix_length_le hpushed hdelivered hlen

/-- A flush whose ticket finds one entry in the queue and one in the batch being written. -/
theorem flush_drains_partlyWritten :
    ∃ (s : State (Fin 2)) (tr pre mid : List (Event (Fin 2))),
      (logger .info).Reach s tr ∧ tr = pre ++ .flushTicket 1 1 :: mid ++ [.flushReturned 1] ∧
        (delivered pre).length = 1 ∧ (pushed pre).length = 3 ∧
          pushed pre <+: delivered (pre ++ .flushTicket 1 1 :: mid) := by
  obtain ⟨s, tr, hr, h⟩ :=
    Machine.exists_reach_of_exec (M := (logger .info : Machine (State (Fin 2)) _ _))
      ([.callLog 0 .info "a", .log (.client 0) 1, .log (.client 0) 0, .log (.client 0) 0,
        .callLog 0 .info "b", .log (.client 0) 2, .log (.client 0) 0, .log (.client 0) 0,
        .drain, .drain, .drain, .drain,
        .callLog 0 .info "c", .log (.client 0) 3, .log (.client 0) 0, .log (.client 0) 0,
        .callFlush 1, .go 1, .go 1, .go 1, .drain, .spurious 1, .go 1, .drain, .drain, .drain,
        .go 1, .drain, .drain, .drain, .drain, .drain, .drain, .go 1] : List (Act (Fin 2)))
      (p := fun r => decide
        (r.2 = r.2.take 7 ++ .flushTicket 1 1 :: (r.2.drop 8).take 2 ++ [.flushReturned 1] ∧
          (delivered (r.2.take 7)).length = 1 ∧ (pushed (r.2.take 7)).length = 3 ∧
            tickets ((r.2.drop 8).take 2) = 0 ∧ tickets r.2 < 2 ^ 64))
      (by decide)
  obtain ⟨htr, hdelivered, hpushed, hmid, hbound⟩ := of_decide_eq_true h
  exact ⟨s, tr, _, _, hr, htr, hdelivered, hpushed,
    flush_drains hr hbound htr (tickets_eq_zero.mp hmid 1)⟩

section Wrap

/-- A logger all of whose tickets have been published. -/
def flushed (minLevel : LogLevel) (w : Word) : State Unit :=
  { minLevel := minLevel
    running := true
    queue := []
    flushGenPending := w
    flushGenDone := w
    call := fun _ => .idle
    drain := .testRunning
    destroying := false }

/-- One call of `flush` together with one round of the drain thread. -/
theorem exec_flush (minLevel : LogLevel) (w : Word) :
    (logger minLevel).exec (flushed minLevel w)
        [.callFlush (), .go (), .go (), .drain, .drain, .drain, .drain, .go ()] =
      some (flushed minLevel (w + 1), [.flushTicket () (w + 1), .flushReturned ()]) := by
  simp [Machine.exec, logger, step, goStep, drainStep, flushed, State.setCall, After.call,
    Call.wake]
  funext u
  simp

/-- Any number of flushes of an empty logger, one after another. -/
theorem reach_flushed (minLevel : LogLevel) (n : Nat) :
    ∃ tr, (logger minLevel).Reach (flushed minLevel (BitVec.ofNat 64 n)) tr ∧
      pushed tr = [] ∧ delivered tr = [] := by
  induction n with
  | zero => exact ⟨[], .init, rfl, rfl⟩
  | succ n ih =>
      obtain ⟨tr, hr, hpushed, hdelivered⟩ := ih
      have hnext : BitVec.ofNat 64 (n + 1) = BitVec.ofNat 64 n + 1 := BitVec.ofNat_add ..
      have hr' := hr.exec (exec_flush minLevel (BitVec.ofNat 64 n))
      rw [← hnext] at hr'
      refine ⟨_, hr', ?_, ?_⟩
      · rw [pushed_append, hpushed]
        rfl
      · rw [delivered_append, hdelivered]
        rfl

/-- The call of `flush` whose ticket wraps to zero returns before the drain thread moves. -/
theorem exec_wrapped (entry : LogEntry Unit) (hlevel : entry.level = .info)
    (hwho : entry.threadId = .client ()) :
    (logger .info).exec (flushed .info (BitVec.ofNat 64 (2 ^ 64 - 1)))
        [.callLog () entry.level entry.message, .log (.client ()) entry.timestamp,
          .log (.client ()) 0, .log (.client ()) 0, .callFlush (), .go (), .go (), .go ()] =
      some ({ flushed .info (BitVec.ofNat 64 (2 ^ 64 - 1)) with
        queue := [entry], flushGenPending := 0 },
        [.levelRead (.client ()) entry .info, .pushed (.client ()) entry, .flushTicket () 0,
          .flushReturned ()]) := by
  obtain ⟨level, message, timestamp, threadId⟩ := entry
  obtain rfl : level = .info := hlevel
  obtain rfl : threadId = .client () := hwho
  simp [Machine.exec, logger, step, logStep, goStep, flushed, State.setCall, State.setLog,
    State.logCall?, After.call]

/--
After `2 ^ 64 - 1` flushes the next ticket is zero, and the flush returns
although an entry pushed before it has not been delivered.
-/
theorem wrapped_flush_returns_early :
    ¬ ∀ (s : State Unit) (tr : List (Event Unit)) (t : Unit) (w : Word)
      (pre mid post : List (Event Unit)), (logger .info).Reach s tr →
        tr = pre ++ .flushTicket t w :: mid ++ .flushReturned t :: post →
        (∀ w', .flushTicket t w' ∉ mid) →
          pushed pre <+: delivered (pre ++ .flushTicket t w :: mid) := by
  intro h
  let entry : LogEntry Unit :=
    { level := .info, message := "lost", timestamp := 1, threadId := .client () }
  obtain ⟨tr, hr, hpushed, hdelivered⟩ := reach_flushed .info (2 ^ 64 - 1)
  have hprefix := h _ _ () 0 (tr ++ [.levelRead (.client ()) entry .info,
      .pushed (.client ()) entry]) [] [] (hr.exec (exec_wrapped entry rfl rfl))
    (by simp) (by simp)
  rw [pushed_append, delivered_append, delivered_append, hpushed, hdelivered] at hprefix
  simp [pushed, delivered] at hprefix

end Wrap

end Logger
end AsyncTaskEngine
