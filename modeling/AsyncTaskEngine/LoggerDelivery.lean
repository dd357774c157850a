import AsyncTaskEngine.Logger

/-!
# The logger delivers every entry once and in order

An accepted entry is in one of three places: delivered to the sink, in the rest
of the batch that the drain thread has taken, or in the queue.  `Flow` says
that these, in this order, are the entries in the order of their pushes.
`Closing` follows the handshake of the destructor with the drain thread, which
leaves its loop only when nobody can push any more.
-/

namespace AsyncTaskEngine
namespace Logger

universe u

variable {ι : Type u}

/-- The entries in the order of their pushes under the mutex. -/
def pushed (tr : List (Event ι)) : List (LogEntry ι) :=
  tr.filterMap fun
    | .pushed _ entry => some entry
    | _ => none

/-- The entries passed to the sink, in order. -/
def delivered (tr : List (Event ι)) : List (LogEntry ι) :=
  tr.filterMap fun
    | .delivered entry => some entry
    | _ => none

/-- The entries pushed by a thread, in order. -/
def pushedBy [DecidableEq ι] (who : Caller ι) (tr : List (Event ι)) : List (LogEntry ι) :=
  tr.filterMap fun
    | .pushed who' entry => if who' = who then some entry else none
    | _ => none

/-- The entries of the calls by a thread that read a minimal level not above them. -/
def admitted [DecidableEq ι] (who : Caller ι) (tr : List (Event ι)) : List (LogEntry ι) :=
  tr.filterMap fun
    | .levelRead who' entry minLevel =>
        if who' = who ∧ ¬ entry.level.toNat < minLevel.toNat then some entry else none
    | _ => none

/-- The entry that a call of `log` is about to push. -/
def LogCall.toPush : Option (LogCall ι) → List (LogEntry ι)
  | some (.push entry) => [entry]
  | _ => []

/-- The entry that a thread is about to push. -/
def State.toPush (s : State ι) (who : Caller ι) : List (LogEntry ι) :=
  LogCall.toPush (s.logCall? who)

section Projections

variable (tr es : List (Event ι))

@[simp] theorem pushed_append : pushed (tr ++ es) = pushed tr ++ pushed es :=
  List.filterMap_append

@[simp] theorem delivered_append : delivered (tr ++ es) = delivered tr ++ delivered es :=
  List.filterMap_append

@[simp] theorem pushedBy_append [DecidableEq ι] (who : Caller ι) :
    pushedBy who (tr ++ es) = pushedBy who tr ++ pushedBy who es :=
  List.filterMap_append

@[simp] theorem admitted_append [DecidableEq ι] (who : Caller ι) :
    admitted who (tr ++ es) = admitted who tr ++ admitted who es :=
  List.filterMap_append

end Projections

section SetLog

variable [DecidableEq ι] (s : State ι) (who : Caller ι) (c : Option (LogCall ι))

@[simp] theorem setLog_queue : (s.setLog who c).queue = s.queue := by
  unfold State.setLog
  split
  · split <;> rfl
  · split <;> rfl

@[simp] theorem setLog_running : (s.setLog who c).running = s.running := by
  unfold State.setLog
  split
  · split <;> rfl
  · split <;> rfl

@[simp] theorem setLog_destroying : (s.setLog who c).destroying = s.destroying := by
  unfold State.setLog
  split
  · split <;> rfl
  · split <;> rfl

@[simp] theorem setLog_batch : (s.setLog who c).drain.batch = s.drain.batch := by
  unfold State.setLog
  split
  · split <;> rfl
  · split
    · next hd => simp [hd, Drain.batch]
    · rfl

/-- The call of `log` of the thread itself. -/
theorem logCall?_setLog_self {c₀ : LogCall ι} (h : s.logCall? who = some c₀) :
    (s.setLog who c).logCall? who = c := by
  cases who with
  | client t =>
      cases c <;> simp [State.setLog, State.setCall, State.logCall?]
  | drain =>
      cases hd : s.drain <;> simp_all [State.setLog, State.logCall?]

/-- The calls of the other threads. -/
theorem logCall?_setLog_ne {v : Caller ι} (hv : v ≠ who) :
    (s.setLog who c).logCall? v = s.logCall? v := by
  cases who with
  | client t =>
      cases v with
      | client u =>
          have hu : u ≠ t := fun h => hv (congrArg _ h)
          cases c <;> simp [State.setLog, State.setCall, State.logCall?, hu]
      | drain => cases c <;> rfl
  | drain =>
      cases v with
      | client u =>
          cases hd : s.drain <;> simp [State.setLog, State.logCall?, hd]
      | drain => exact (hv rfl).elim

end SetLog

/-- Delivered, taken and queued entries are the pushed ones, in order. -/
def Flow (s : State ι) (tr : List (Event ι)) : Prop :=
  pushed tr = delivered tr ++ (s.drain.batch ++ s.queue)

variable [DecidableEq ι] {s s' : State ι} {tr es : List (Event ι)}

omit [DecidableEq ι] in
/-- A step that moves no entry. -/
theorem Flow.quiet (h : Flow s tr) (hd : s'.drain.batch = s.drain.batch)
    (hq : s'.queue = s.queue) (hp : pushed es = []) (hes : delivered es = []) :
    Flow s' (tr ++ es) := by
  rw [Flow, pushed_append, delivered_append, hp, hes, hd, hq, List.append_nil,
    List.append_nil]
  exact h

theorem Flow.step (h : Flow s tr) (hm : Move s s' es) : Flow s' (tr ++ es) := by
  cases hm with
  | push hc =>
      rw [Flow, pushed_append, delivered_append]
      simp only [setLog_batch]
      rw [h]
      simp [pushed, delivered, List.append_assoc]
  | swap hd =>
      rw [Flow, List.append_nil, h]
      simp [Drain.batch, hd]
  | deliver hd =>
      rw [Flow, pushed_append, delivered_append, h]
      simp [pushed, delivered, Drain.batch, hd]
  | discard hc hlevel => exact h.quiet (setLog_batch ..) (setLog_queue ..) rfl rfl
  | record hc hlevel => exact h.quiet (setLog_batch ..) (setLog_queue ..) rfl rfl
  | logReturn hc => exact h.quiet (setLog_batch ..) (setLog_queue ..) rfl rfl
  | sinkLog hd => exact h.quiet (by simp [Drain.batch, hd]) rfl rfl rfl
  | goOn hd hr => exact h.quiet (by simp [Drain.batch, hd]) rfl rfl rfl
  | stopping hd hr => exact h.quiet (by simp [Drain.batch, hd]) rfl rfl rfl
  | exit hd hq => exact h.quiet (by simp [Drain.batch, hd]) rfl rfl rfl
  | again hd => exact h.quiet (by simp [Drain.batch, hd]) rfl rfl rfl
  | sinkReturn hd => exact h.quiet (by simp [Drain.batch, hd]) rfl rfl rfl
  | publish hd => exact h.quiet (by simp [Drain.batch, hd]) rfl rfl rfl
  | notifyAll hd => exact h.quiet (by simp [Drain.batch, hd]) rfl rfl rfl
  | _ => exact h.quiet rfl rfl rfl rfl

/-- The admitted entries of a thread are pushed, or about to be. -/
def Balanced (s : State ι) (tr : List (Event ι)) : Prop :=
  ∀ who, admitted who tr = pushedBy who tr ++ s.toPush who

/-- A step that neither reads the level nor pushes. -/
theorem Balanced.quiet (h : Balanced s tr) (hs : ∀ who, s'.toPush who = s.toPush who)
    (ha : ∀ who, admitted who es = []) (hp : ∀ who, pushedBy who es = []) :
    Balanced s' (tr ++ es) := by
  intro who
  rw [admitted_append, pushedBy_append, ha, hp, hs, List.append_nil, List.append_nil]
  exact h who

omit [DecidableEq ι] in
theorem toPush_congr {who : Caller ι} (h : s'.logCall? who = s.logCall? who) :
    s'.toPush who = s.toPush who := by
  rw [State.toPush, State.toPush, h]

omit [DecidableEq ι] in
/-- A thread that was not in `log` is at most at its beginning. -/
theorem toPush_eq_nil {who : Caller ι}
    (h : ∀ entry, s.logCall? who ≠ some (.push entry)) : s.toPush who = [] := by
  unfold State.toPush LogCall.toPush
  split
  · next entry hc => exact (h entry hc).elim
  · rfl

/-- A client moves, neither to a push nor from one. -/
theorem toPush_client {t : ι} {c : Call ι} (hs : s'.call = Function.update s.call t c)
    (hd : s'.drain = s.drain) (hold : ∀ entry, s.call t ≠ .log (.push entry))
    (hnew : ∀ entry, c ≠ .log (.push entry)) (who : Caller ι) :
    s'.toPush who = s.toPush who := by
  have hnot : ∀ r : State ι, (∀ entry, r.call t ≠ .log (.push entry)) →
      r.toPush (.client t) = [] := by
    intro r hr
    refine toPush_eq_nil fun entry hc => ?_
    cases ht : r.call t with
    | log c =>
        rw [State.logCall?, ht] at hc
        exact hr entry (by rw [ht, Option.some.inj hc])
    | _ => simp [State.logCall?, ht] at hc
  cases who with
  | drain => exact toPush_congr (by simp only [State.logCall?, hd])
  | client u =>
      by_cases hu : u = t
      · rw [hu, hnot s hold, hnot s']
        intro entry
        rw [hs, Function.update_self]
        exact hnew entry
      · refine toPush_congr ?_
        simp only [State.logCall?, hs, Function.update_of_ne hu]

omit [DecidableEq ι] in
/-- The drain thread moves, neither to a push of its sink nor from one. -/
theorem toPush_drain (hold : ∀ entry, s.logCall? .drain ≠ some (.push entry))
    (hnew : ∀ entry, s'.logCall? .drain ≠ some (.push entry))
    (hcall : ∀ u, s'.logCall? (.client u) = s.logCall? (.client u)) (who : Caller ι) :
    s'.toPush who = s.toPush who := by
  cases who with
  | client u => exact toPush_congr (hcall u)
  | drain => rw [toPush_eq_nil hold, toPush_eq_nil hnew]

/-- A step of a call of `log`. -/
theorem Balanced.log (h : Balanced s tr) {who : Caller ι} {c₀ : LogCall ι}
    {c : Option (LogCall ι)} (hc : s.logCall? who = some c₀)
    (hs : ∀ v, s'.logCall? v = (s.setLog who c).logCall? v)
    (hne : ∀ v, v ≠ who → admitted v es = [] ∧ pushedBy v es = [])
    (hself : LogCall.toPush (some c₀) ++ admitted who es =
      pushedBy who es ++ LogCall.toPush c) : Balanced s' (tr ++ es) := by
  intro v
  rw [admitted_append, pushedBy_append, h v]
  by_cases hv : v = who
  · subst hv
    rw [State.toPush, State.toPush, hs, logCall?_setLog_self s v c hc, hc,
      List.append_assoc, List.append_assoc, hself]
  · obtain ⟨ha, hp⟩ := hne v hv
    rw [toPush_congr ((hs v).trans (logCall?_setLog_ne s who c hv)), ha, hp,
      List.append_nil, List.append_nil]

theorem Balanced.step (h : Balanced s tr) (hm : Move s s' es) : Balanced s' (tr ++ es) := by
  have hnone : ∀ who : Caller ι, admitted who ([] : List (Event ι)) = [] := fun _ => rfl
  have hnone' : ∀ who : Caller ι, pushedBy who ([] : List (Event ι)) = [] := fun _ => rfl
  cases hm with
  | discard hc hlevel =>
      refine h.log hc (fun _ => rfl) (fun v hv => ⟨?_, rfl⟩) ?_
      · simp [admitted, Ne.symm hv]
      · simp [admitted, pushedBy, hlevel, LogCall.toPush]
  | record hc hlevel =>
      refine h.log hc (fun _ => rfl) (fun v hv => ⟨?_, rfl⟩) ?_
      · simp [admitted, Ne.symm hv]
      · simp [admitted, pushedBy, LogCall.toPush, Nat.not_lt.mp hlevel]
  | push hc =>
      refine h.log (c := some .notify) hc (fun v => ?_) (fun v hv => ⟨rfl, ?_⟩) ?_
      · cases v <;> rfl
      · simp [pushedBy, Ne.symm hv]
      · simp [admitted, pushedBy, LogCall.toPush]
  | logReturn hc =>
      exact h.log hc (fun _ => rfl) (fun v hv => ⟨rfl, rfl⟩) rfl
  | @enter t c hidle hopen hentry =>
      refine h.quiet (toPush_client rfl rfl (by simp [hidle]) ?_) hnone hnone'
      rintro entry rfl
      cases hentry
  | destroy hidle hopen =>
      exact h.quiet (toPush_client rfl rfl (by simp [hidle]) (by simp)) hnone hnone'
  | setLevel hc =>
      exact h.quiet (toPush_client rfl rfl (by simp [hc]) (by simp)) hnone hnone'
  | ticket hc =>
      exact h.quiet (toPush_client rfl rfl (by simp [hc]) (by simp)) (fun _ => rfl)
        fun _ => rfl
  | flushNotify hc =>
      exact h.quiet (toPush_client rfl rfl (by simp [hc]) (by simp)) hnone hnone'
  | @flushReturn t target k hc hdone =>
      refine h.quiet (toPush_client rfl rfl (by simp [hc]) ?_) (fun _ => rfl) fun _ => rfl
      cases k <;> simp [After.call]
  | flushSleep hc hwait =>
      exact h.quiet (toPush_client rfl rfl (by simp [hc]) (by simp)) hnone hnone'
  | spurious hc =>
      exact h.quiet (toPush_client rfl rfl (by simp [hc]) (by simp)) hnone hnone'
  | stop hc =>
      exact h.quiet (toPush_client rfl rfl (by simp [hc]) (by simp)) hnone hnone'
  | stopNotify hc =>
      exact h.quiet (toPush_client rfl rfl (by simp [hc]) (by simp)) hnone hnone'
  | join hc hd =>
      exact h.quiet (toPush_client rfl rfl (by simp [hc]) (by simp)) (fun _ => rfl)
        fun _ => rfl
  | notifyAll hd =>
      refine h.quiet (toPush_drain ?_ ?_ fun u => ?_) hnone hnone'
      · simp [State.logCall?, hd]
      · simp [State.logCall?]
      · simp only [State.logCall?]
        cases s.call u with
        | flush c k => cases c <;> rfl
        | _ => rfl
  | deliver hd =>
      refine h.quiet (toPush_drain ?_ ?_ fun _ => rfl) (fun _ => rfl) fun _ => rfl
      · simp [State.logCall?, hd]
      · simp [State.logCall?]
  | sinkLog hd | goOn hd hr | stopping hd hr | exit hd hq | again hd | swap hd
  | sinkReturn hd | publish hd =>
      refine h.quiet (toPush_drain ?_ ?_ fun _ => rfl) hnone hnone'
      · simp [State.logCall?, hd]
      · simp [State.logCall?]

/-- The call belongs to the destructor. -/
def Call.destroys : Call ι → Bool
  | .flush _ .destroy => true
  | .stop => true
  | .stopNotify => true
  | .join => true
  | _ => false

/-- Where the thread of the destructor can be once `running_` is `false`. -/
def Call.stopped : Call ι → Bool
  | .stopNotify => true
  | .join => true
  | .idle => true
  | _ => false

omit [DecidableEq ι] in
@[simp] theorem wake_destroys (c : Call ι) : c.wake.destroys = c.destroys := by
  cases c with
  | flush f k => cases f <;> cases k <;> rfl
  | _ => rfl

omit [DecidableEq ι] in
@[simp] theorem wake_stopped (c : Call ι) : c.wake.stopped = c.stopped := by
  cases c with
  | flush f k => cases f <;> rfl
  | _ => rfl

omit [DecidableEq ι] in
@[simp] theorem wake_eq_idle (c : Call ι) : c.wake = .idle ↔ c = .idle := by
  cases c with
  | flush f k => cases f <;> simp [Call.wake]
  | _ => simp [Call.wake]

/--
The handshake of the destructor with the drain thread.  Once the destructor is
running, no other thread is in a call.
-/
structure Closing (s : State ι) (tr : List (Event ι)) : Prop where
  opened : s.destroying = false → ∀ t, (s.call t).destroys = false
  closer : s.destroying = true → ∃ d, (∀ u, u ≠ d → s.call u = .idle) ∧
    (s.call d = .idle ∨ (s.call d).destroys = true)
  stopping : s.running = false → s.destroying = true ∧ ∀ t, (s.call t).stopped = true
  testEmpty : s.drain = .testEmpty → s.running = false
  exited : s.drain = .exited → s.running = false ∧ s.queue = []
  joined : ∀ t, .destroyed t ∈ tr → s.drain = .exited

namespace Closing

omit [DecidableEq ι] in
/-- The caller of `log` keeps the drain thread in its loop. -/
theorem not_exited (h : Closing s tr) {who : Caller ι} {c : LogCall ι}
    (hc : s.logCall? who = some c) : s.drain ≠ .exited := by
  intro hd
  cases who with
  | drain => simp [State.logCall?, hd] at hc
  | client t =>
      have hstop := (h.stopping (h.exited hd).1).2 t
      cases ht : s.call t with
      | log c => simp [ht, Call.stopped] at hstop
      | _ => simp [State.logCall?, ht] at hc

/-- A client moves inside its call, or returns from it. -/
theorem client (h : Closing s tr) {t : ι} {c : Call ι}
    (hs : s'.call = Function.update s.call t c) (hidle : s.call t ≠ .idle)
    (hkeep : c.destroys = (s.call t).destroys ∨ c = .idle)
    (hstop : (s.call t).stopped = true → c.stopped = true)
    (hdes : s'.destroying = s.destroying) (hrun : s'.running = s.running)
    (hd : s'.drain = s.drain) (hq : s'.drain = .exited → s'.queue = s.queue)
    (hes : ∀ t, .destroyed t ∈ es → s.drain = .exited) : Closing s' (tr ++ es) where
  opened hopen v := by
    have hv := h.opened (hdes ▸ hopen)
    by_cases hvt : v = t
    · rw [hs, hvt, Function.update_self]
      rcases hkeep with hc | rfl
      · rw [hc]
        exact hv t
      · rfl
    · rw [hs, Function.update_of_ne hvt]
      exact hv v
  closer hclose := by
    obtain ⟨d, hothers, hcloser⟩ := h.closer (hdes ▸ hclose)
    have htd : t = d := by
      by_contra hne
      exact hidle (hothers t hne)
    subst htd
    refine ⟨t, fun u hu => ?_, ?_⟩
    · rw [hs, Function.update_of_ne hu]
      exact hothers u hu
    · rw [hs, Function.update_self]
      rcases hkeep with hc | rfl
      · exact .inr (hc.trans (hcloser.resolve_left hidle))
      · exact .inl rfl
  stopping hstopped := by
    obtain ⟨hclose, hall⟩ := h.stopping (hrun ▸ hstopped)
    refine ⟨hdes.trans hclose, fun v => ?_⟩
    by_cases hvt : v = t
    · rw [hs, hvt, Function.update_self]
      exact hstop (hall t)
    · rw [hs, Function.update_of_ne hvt]
      exact hall v
  testEmpty hd' := hrun.trans (h.testEmpty (hd ▸ hd'))
  exited hd' := by
    obtain ⟨hstopped, hqueue⟩ := h.exited (hd ▸ hd')
    exact ⟨hrun.trans hstopped, (hq hd').trans hqueue⟩
  joined v hv := by
    rcases List.mem_append.mp hv with hv | hv
    · exact hd.trans (h.joined v hv)
    · exact hd.trans (hes v hv)

omit [DecidableEq ι] in
/-- The drain thread moves inside its loop. -/
theorem drain (h : Closing s tr) (hcall : ∀ t, s'.call t = s.call t ∨ s'.call t = (s.call t).wake)
    (hdes : s'.destroying = s.destroying) (hrun : s'.running = s.running)
    (hold : s.drain ≠ .exited) (hempty : s'.drain = .testEmpty → s.running = false)
    (hexit : s'.drain = .exited → s.running = false ∧ s'.queue = [])
    (hes : ∀ t, .destroyed t ∉ es) : Closing s' (tr ++ es) := by
  have hdestroys : ∀ t, (s'.call t).destroys = (s.call t).destroys := by
    intro t
    rcases hcall t with h | h <;> simp [h]
  have hidle : ∀ t, s'.call t = .idle ↔ s.call t = .idle := by
    intro t
    rcases hcall t with h | h <;> simp [h]
  refine ⟨fun hopen t => ?_, fun hclose => ?_, fun hstop => ?_, fun hd => ?_, fun hd => ?_,
    fun t ht => ?_⟩
  · exact (hdestroys t).trans (h.opened (hdes ▸ hopen) t)
  · obtain ⟨d, hothers, hcloser⟩ := h.closer (hdes ▸ hclose)
    refine ⟨d, fun u hu => (hidle u).mpr (hothers u hu), ?_⟩
    rw [hidle d, hdestroys d]
    exact hcloser
  · obtain ⟨hclose, hall⟩ := h.stopping (hrun ▸ hstop)
    refine ⟨hdes.trans hclose, fun t => ?_⟩
    rcases hcall t with h | h
    · rw [h]
      exact hall t
    · rw [h, wake_stopped]
      exact hall t
  · exact hrun.trans (hempty hd)
  · exact ⟨hrun.trans (hexit hd).1, (hexit hd).2⟩
  · rcases List.mem_append.mp ht with ht | ht
    · exact (hold (h.joined t ht)).elim
    · exact (hes t ht).elim

/-- A step of a call of `log`. -/
theorem log (h : Closing s tr) {who : Caller ι} {c₀ : LogCall ι} {c : Option (LogCall ι)}
    (hc : s.logCall? who = some c₀) (hcall : s'.call = (s.setLog who c).call)
    (hd : s'.drain = (s.setLog who c).drain) (hdes : s'.destroying = s.destroying)
    (hrun : s'.running = s.running) (hes : ∀ t, .destroyed t ∉ es) :
    Closing s' (tr ++ es) := by
  have hexit := h.not_exited hc
  cases who with
  | client t =>
      obtain ⟨c', hc', hs⟩ : ∃ c' : Call ι, c'.destroys = false ∧
          s'.call = Function.update s.call t c' := by
        cases c with
        | none => exact ⟨.idle, rfl, hcall⟩
        | some c => exact ⟨.log c, rfl, hcall⟩
      have hdrain : s'.drain = s.drain := by
        rw [hd]
        cases c <;> rfl
      have ht : s.call t = .log c₀ := by
        cases ht : s.call t with
        | log c =>
            rw [State.logCall?, ht] at hc
            rw [Option.some.inj hc]
        | _ => simp [State.logCall?, ht] at hc
      refine h.client hs (by simp [ht]) (.inl (by rw [ht, hc']; rfl))
        (by simp [ht, Call.stopped]) hdes hrun hdrain (fun hd' => ?_) fun v hv => (hes v hv).elim
      exact (hexit (hdrain ▸ hd')).elim
  | drain =>
      cases hb : s.drain with
      | inSink batch pending c₁ =>
          simp only [State.setLog, hb] at hcall hd
          refine h.drain (fun t => .inl (by rw [hcall])) hdes hrun hexit ?_ ?_ hes
          · simp [hd]
          · simp [hd]
      | _ => simp [State.logCall?, hb] at hc

theorem step (h : Closing s tr) (hm : Move s s' es) : Closing s' (tr ++ es) := by
  have hnone : ∀ t, Event.destroyed t ∈ ([] : List (Event ι)) → s.drain = .exited := by simp
  cases hm with
  | discard hc hlevel =>
      exact h.log hc rfl rfl (setLog_destroying ..) (setLog_running ..) (by simp)
  | record hc hlevel =>
      exact h.log hc rfl rfl (setLog_destroying ..) (setLog_running ..) (by simp)
  | push hc =>
      exact h.log hc rfl rfl (setLog_destroying ..) (setLog_running ..) (by simp)
  | logReturn hc =>
      exact h.log hc rfl rfl (setLog_destroying ..) (setLog_running ..) (by simp)
  | @enter t c hidle hopen hc =>
      rw [List.append_nil]
      refine { h with opened := fun _ v => ?_, closer := ?_, stopping := ?_ }
      · by_cases hvt : v = t
        · simp only [State.setCall, hvt, Function.update_self]
          cases c with
          | flush f k => cases k <;> simp [Call.isEntry, Call.destroys] at hc ⊢
          | _ => simp [Call.isEntry, Call.destroys] at hc ⊢
        · simpa [State.setCall, hvt] using h.opened hopen v
      · intro hclose
        simp [State.setCall, hopen] at hclose
      · intro hstopped
        simp [(h.stopping hstopped).1] at hopen
  | @destroy t hidle hopen =>
      rw [List.append_nil]
      refine { h with opened := ?_, closer := fun _ => ⟨t, fun u hu => ?_, ?_⟩, stopping := ?_ }
      · intro hopen'
        cases hopen'
      · simpa [State.setCall, hu] using hidle u
      · simp [State.setCall, Call.destroys]
      · intro hstopped
        simp [(h.stopping hstopped).1] at hopen
  | setLevel hc =>
      exact h.client rfl (by simp [hc]) (.inr rfl) (fun _ => rfl) rfl rfl rfl (fun _ => rfl) hnone
  | @ticket t k hc =>
      refine h.client rfl (by simp [hc]) (.inl ?_) (by simp [hc, Call.stopped]) rfl rfl rfl
        (fun _ => rfl) (by simp)
      cases k <;> simp [hc, Call.destroys]
  | @flushNotify t target k hc =>
      refine h.client rfl (by simp [hc]) (.inl ?_) (by simp [hc, Call.stopped]) rfl rfl rfl
        (fun _ => rfl) hnone
      cases k <;> simp [hc, Call.destroys]
  | @flushReturn t target k hc hdone =>
      refine h.client rfl (by simp [hc]) (.inl ?_) (by simp [hc, Call.stopped]) rfl rfl rfl
        (fun _ => rfl) (by simp)
      cases k <;> simp [hc, Call.destroys, After.call]
  | @flushSleep t target k hc hwait =>
      refine h.client rfl (by simp [hc]) (.inl ?_) (by simp [hc, Call.stopped]) rfl rfl rfl
        (fun _ => rfl) hnone
      cases k <;> simp [hc, Call.destroys]
  | @spurious t target k hc =>
      refine h.client rfl (by simp [hc]) (.inl ?_) (by simp [hc, Call.stopped]) rfl rfl rfl
        (fun _ => rfl) hnone
      cases k <;> simp [hc, Call.destroys]
  | @stop t hc =>
      have hclose : s.destroying = true := by
        by_contra hopen
        simpa [hc, Call.destroys] using h.opened (by simpa using hopen) t
      obtain ⟨d, hothers, hcloser⟩ := h.closer hclose
      have htd : t = d := by
        by_contra hne
        simpa [hc] using hothers t hne
      subst htd
      rw [List.append_nil]
      exact
        { h with
          opened := fun hopen => by simp [State.setCall, hclose] at hopen
          closer := fun _ => ⟨t, fun u hu => by simpa [State.setCall, hu] using hothers u hu,
            .inr (by simp [State.setCall, Call.destroys])⟩
          stopping := fun _ => by
            refine ⟨hclose, fun u => ?_⟩
            by_cases hu : u = t
            · simp [State.setCall, hu, Call.stopped]
            · simp [State.setCall, hu, hothers u hu, Call.stopped]
          testEmpty := fun _ => rfl
          exited := fun hd => ⟨rfl, (h.exited hd).2⟩ }
  | stopNotify hc =>
      exact h.client rfl (by simp [hc]) (.inl (by simp [hc, Call.destroys])) (fun _ => rfl)
        rfl rfl rfl (fun _ => rfl) hnone
  | join hc hd =>
      exact h.client rfl (by simp [hc]) (.inr rfl) (fun _ => rfl) rfl rfl rfl (fun _ => rfl)
        fun _ _ => hd
  | stopping hd hr =>
      exact h.drain (fun _ => .inl rfl) rfl rfl (by simp [hd]) (fun _ => hr) (by simp) (by simp)
  | exit hd hq =>
      exact h.drain (fun _ => .inl rfl) rfl rfl (by simp [hd]) (by simp)
        (fun _ => ⟨h.testEmpty hd, hq⟩) (by simp)
  | notifyAll hd =>
      exact h.drain (fun _ => .inr rfl) rfl rfl (by simp [hd]) (by simp) (by simp) (by simp)
  | sinkLog hd | goOn hd hr | again hd | swap hd | deliver hd | sinkReturn hd | publish hd =>
      exact h.drain (fun _ => .inl rfl) rfl rfl (by simp [hd]) (by simp) (by simp) (by simp)

end Closing

/-- What an observer of the logger finds at every moment. -/
structure Delivery (s : State ι) (tr : List (Event ι)) : Prop where
  /-- The sink has seen a prefix of the pushed entries. -/
  inOrder : delivered tr <+: pushed tr
  /-- Exactly the entries at or above the minimal level read are pushed, unless the
  call that read it is still before its push. -/
  accepted : ∀ who, admitted who tr = pushedBy who tr ++ s.toPush who
  /-- Nothing is lost at destruction. -/
  drained : ∀ t, .destroyed t ∈ tr → delivered tr = pushed tr ∧
    ∀ who, admitted who tr = pushedBy who tr

variable [Fintype ι] {minLevel : LogLevel}

theorem reach_flow (hr : (logger minLevel : Machine (State ι) _ _).Reach s tr) : Flow s tr :=
  hr.invariant rfl fun _ h hs => h.step (step_move hs)

theorem reach_balanced (hr : (logger minLevel : Machine (State ι) _ _).Reach s tr) :
    Balanced s tr :=
  hr.invariant (fun who => by cases who <;> rfl) fun _ h hs => h.step (step_move hs)

theorem reach_closing (hr : (logger minLevel : Machine (State ι) _ _).Reach s tr) :
    Closing s tr :=
  hr.invariant
    { opened := fun _ _ => rfl
      closer := fun h => by cases h
      stopping := fun h => by cases h
      testEmpty := fun h => by cases h
      exited := fun h => by cases h
      joined := fun t h => by cases h }
    fun _ h hs => h.step (step_move hs)

/--
For every number of clients and every interleaving, at every moment the sink has
seen a prefix of the entries in the order of their pushes, the accepted entries
are pushed once, and a destroyed logger has delivered all of them.
-/
theorem delivers_exactly_once
    (hr : (logger minLevel : Machine (State ι) _ _).Reach s tr) : Delivery s tr := by
  have hflow := reach_flow hr
  have hclosing := reach_closing hr
  refine ⟨⟨s.drain.batch ++ s.queue, hflow.symm⟩, reach_balanced hr, fun t ht => ?_⟩
  have hd := hclosing.joined t ht
  refine ⟨?_, fun who => ?_⟩
  · rw [Flow, hd, (hclosing.exited hd).2] at hflow
    simpa [Drain.batch] using hflow.symm
  · rw [reach_balanced hr who, toPush_eq_nil, List.append_nil]
    exact fun entry hc => hclosing.not_exited hc hd

/-- A logger whose sink logs is destroyed after it has delivered both entries. -/
theorem delivers_exactly_once_sinkLogs :
    ∃ (s : State (Fin 2)) (tr : List (Event (Fin 2))), (logger .info).Reach s tr ∧
      (delivered tr).length = 2 ∧ delivered tr = pushed tr ∧
        ∀ who, admitted who tr = pushedBy who tr := by
  obtain ⟨s, tr, hr, h⟩ :=
    Machine.exists_reach_of_exec (M := (logger .info : Machine (State (Fin 2)) _ _))
      ([.callLog 0 .info "outer", .log (.client 0) 1, .log (.client 0) 0,
        .log (.client 0) 0, .drain, .drain, .drain, .sinkLog .warn "inner", .log .drain 2,
        .log .drain 0, .log .drain 0, .drain, .drain, .drain, .destroy 1, .go 1, .go 1,
        .go 1, .drain, .drain, .drain, .drain, .drain, .drain, .go 1, .go 1, .go 1,
        .drain, .drain, .go 1] : List (Act (Fin 2)))
      (p := fun r => (.destroyed 1 : Event (Fin 2)) ∈ r.2 && (delivered r.2).length == 2)
      (by decide)
  simp only [Bool.and_eq_true, decide_eq_true_eq, beq_iff_eq] at h
  exact ⟨s, tr, hr, h.2, (delivers_exactly_once hr).drained 1 h.1⟩

end Logger
end AsyncTaskEngine
