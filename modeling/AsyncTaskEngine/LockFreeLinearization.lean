import AsyncTaskEngine.LockFreeVerdicts
import Mathlib.Data.Fintype.Basic

/-!
# Settled runs of the lock-free queue are linearizable

A push takes effect in the atomic object when its element is forced to be in
the queue: when the push itself or a later one is published, or when a failing
`try_push` counts it.  Pushes take effect in the order of their tickets, so the
elements held by the object are those of the tickets from `dequeue_pos_` up to
a bound `n`.  A pop takes effect at its compare-exchange, and a failing call at
the read that settles its verdict.
-/

namespace AsyncTaskEngine
namespace LockFreeQueue

open TicketRing (Phase PhaseOk RingInv setPhase_ne setPhase_self)

universe u v

variable {ι : Type u} {α : Type v} [DecidableEq ι]

/-- The call of a thread that owns no ticket, read off its program counter. -/
def Pc.call? : Pc α → Option (FifoObject.Call (Option α))
  | .idle => some .idle
  | .pushLoad v => some (.pushing (some v))
  | .pushSeq v _ => some (.pushing (some v))
  | .pushCas v _ => some (.pushing (some v))
  | .popLoad => some .popping
  | .popSeq _ => some .popping
  | .popCas _ => some .popping
  | .sizeLoadEnq => some .idle
  | .sizeLoadDeq _ => some .idle
  | _ => none

/-- The pushes of the tickets below `n` have taken effect in the object. -/
structure Lin (cfg : Config) (s : State ι α) (r : TicketRing.State ι α)
    (h : List (FifoOp α)) (n : Nat) (a : FifoObject.State ι (Option α)) : Prop where
  lower : r.deq ≤ n
  upper : n ≤ r.enq
  full : ∀ i < cfg.cap, ∀ q v, r.phase i = .full q v → q < n
  queue : a.queue = (((enqueued h).drop r.deq).take (n - r.deq)).map some
  outside : ∀ u c, (s.pc u).call? = some c → a.call u = c
  writing : ∀ i < cfg.cap, ∀ q u v, r.phase i = .writing q u v →
    a.call u = if q < n then .pushed true else .pushing (some v)
  reading : ∀ i < cfg.cap, ∀ q u v, r.phase i = .reading q u v →
    a.call u = .popped (some (some v))

/-- Why the pushes below `n` have taken effect. -/
def Forced (cfg : Config) (tr : List (Event ι α)) (r : TicketRing.State ι α)
    (n : Nat) : Prop :=
  n = r.deq ∨
    (∃ i < cfg.cap, ∃ q v, r.phase i = .full q v ∧ n = q + 1) ∨
    ∃ pre post t, tr = pre ++ .pushFailed t :: post ∧ n = (pushClaims pre).length

section Lin

variable {cfg : Config} {s s' : State ι α} {tr : List (Event ι α)}
variable {r : TicketRing.State ι α} {h : List (FifoOp α)} {pos : ι → Nat}
variable {n : Nat} {a : FifoObject.State ι (Option α)}

omit [DecidableEq ι] in
theorem Lin.length_queue (lin : Lin cfg s r h n a) (inv : RingInv cfg.cap r h) :
    a.queue.length = n - r.deq := by
  have hpush := inv.pushes
  have hupper := lin.upper
  rw [lin.queue, List.length_map, List.length_take, List.length_drop]
  omega

/-- The push of ticket `n` takes effect. -/
theorem Lin.advance_one (lin : Lin cfg s r h n a) (sim : Sim cfg s r pos)
    (inv : RingInv cfg.cap r h) (hn : n < r.enq) :
    ∃ t a', FifoObject.step cfg.cap a (.effect t) = some (a', []) ∧
      Lin cfg s r h (n + 1) a' := by
  have hlower := lin.lower
  have hbounds := inv.bounds
  have hi := Nat.mod_lt n (cap_pos cfg)
  rcases inv.outstanding (cap_pos cfg) hlower hn with ⟨t, v, hw⟩ | ⟨v, hf⟩
  · have hcall := lin.writing _ hi n t v hw
    rw [if_neg (Nat.lt_irrefl n)] at hcall
    have hlen := lin.length_queue inv
    have hval := inv.value _ hi v (by rw [hw]; rfl)
    rw [hw] at hval
    simp only [Phase.ticket] at hval
    obtain ⟨hpos, hpc⟩ := sim.writer _ hi n t v hw
    have hidle : ∀ u c, (s.pc u).call? = some c → u ≠ t := by
      rintro u c hc rfl
      rcases hpc with hpc | hpc <;> rw [hpc] at hc <;> cases hc
    refine ⟨t, _, FifoObject.step_effect_push hcall (by omega), ?_⟩
    refine ⟨by omega, by omega, ?_, ?_, ?_, ?_, ?_⟩
    · intro i hi' q v' hf
      have := lin.full i hi' q v' hf
      omega
    · have hsucc : n + 1 - r.deq = (n - r.deq) + 1 := by omega
      have hget : ((enqueued h).drop r.deq)[n - r.deq]? = some v := by
        rw [List.getElem?_drop, Nat.add_sub_cancel' hlower]
        exact hval
      show a.queue ++ [some v] = _
      rw [lin.queue, hsucc, List.take_add_one, hget, List.map_append]
      rfl
    · intro u c hc
      rw [← lin.outside u c hc]
      exact FifoObject.setCall_ne _ _ _ (hidle u c hc)
    · intro i hi' q u v' hw'
      by_cases hut : u = t
      · subst hut
        obtain ⟨hpos', _⟩ := sim.writer _ hi' q u v' hw'
        obtain rfl : q = n := hpos'.symm.trans hpos
        rw [if_pos (Nat.lt_succ_self q)]
        exact FifoObject.setCall_self _ _ _
      · have hqn : q ≠ n := by
          rintro rfl
          have hcell := inv.cell i hi'
          rw [hw'] at hcell
          simp only [Phase.ticket] at hcell
          rw [← hcell, hw] at hw'
          exact hut (by injection hw' with _ h₂ _; exact h₂.symm)
        have hold := lin.writing i hi' q u v' hw'
        have hiff : q < n + 1 ↔ q < n := by omega
        simp only [hiff]
        rw [← hold]
        exact FifoObject.setCall_ne _ _ _ hut
    · intro i hi' q u v' hr'
      have hut : u ≠ t := by
        rintro rfl
        obtain ⟨_, hpc'⟩ := sim.reader _ hi' q u v' hr'
        rcases hpc with hpc | hpc <;> rcases hpc' with hpc' | ⟨res, hpc'⟩ <;>
          rw [hpc] at hpc' <;> cases hpc'
      rw [← lin.reading i hi' q u v' hr']
      exact FifoObject.setCall_ne _ _ _ hut
  · have := lin.full _ hi n v hf
    omega

/-- The pushes up to `m` take effect, in the order of their tickets. -/
theorem Lin.advance (lin : Lin cfg s r h n a) (sim : Sim cfg s r pos)
    (inv : RingInv cfg.cap r h) {m : Nat} (hle : n ≤ m) (hm : m ≤ r.enq) :
    ∃ as a', (FifoObject.object cfg.cap).exec a as = some (a', []) ∧
      Lin cfg s r h m a' := by
  induction m, hle using Nat.le_induction with
  | base => exact ⟨[], a, rfl, lin⟩
  | succ m hle ih =>
      obtain ⟨as, a₁, he, lin₁⟩ := ih (by omega)
      obtain ⟨t, a₂, hs, lin₂⟩ := lin₁.advance_one sim inv (by omega)
      refine ⟨as ++ [.effect t], a₂, ?_, lin₂⟩
      exact Machine.exec_append he ((Machine.exec_single _ _).trans hs)

/-- A thread that owns no ticket moves within its call. -/
theorem Lin.move {t : ι} {pc' : Pc α} {c : FifoObject.Call (Option α)}
    (lin : Lin cfg s r h n a) (sim : Sim cfg s r pos) (hno : ¬ (s.pc t).owns)
    (hpc : s'.pc = Function.update s.pc t pc') (hc : pc'.call? = some c) :
    Lin cfg s' r h n (a.setCall t c) := by
  have hother : ∀ i < cfg.cap, ∀ u, OwnedBy u (r.phase i) → u ≠ t := by
    rintro i hi u ho rfl
    exact hno (sim.owns_of_ownedBy hi ho).1
  refine ⟨lin.lower, lin.upper, lin.full, lin.queue, ?_, ?_, ?_⟩
  · intro u c' hc'
    rw [hpc] at hc'
    by_cases hut : u = t
    · subst hut
      rw [Function.update_self, hc, Option.some.injEq] at hc'
      rw [← hc']
      exact FifoObject.setCall_self _ _ _
    · rw [Function.update_of_ne hut] at hc'
      rw [FifoObject.setCall_ne _ _ _ hut]
      exact lin.outside u c' hc'
  · intro i hi q u v hw
    rw [FifoObject.setCall_ne _ _ _ (hother i hi u (by rw [hw]; exact rfl))]
    exact lin.writing i hi q u v hw
  · intro i hi q u v hr
    rw [FifoObject.setCall_ne _ _ _ (hother i hi u (by rw [hr]; exact rfl))]
    exact lin.reading i hi q u v hr

/-- A thread moves without a visible change of its call. -/
theorem Lin.stay {t : ι} {pc' : Pc α} (lin : Lin cfg s r h n a)
    (hpc : s'.pc = Function.update s.pc t pc')
    (hc : ∀ c, pc'.call? = some c → a.call t = c) :
    Lin cfg s' r h n a := by
  refine ⟨lin.lower, lin.upper, lin.full, lin.queue, ?_, lin.writing, lin.reading⟩
  intro u c hc'
  rw [hpc] at hc'
  by_cases hut : u = t
  · subst hut
    rw [Function.update_self] at hc'
    exact hc c hc'
  · rw [Function.update_of_ne hut] at hc'
    exact lin.outside u c hc'

/-- The owner of a cell completes its ticket and returns. -/
theorem Lin.complete {t : ι} {q : Nat} {p : Phase ι α} (lin : Lin cfg s r h n a)
    (sim : Sim cfg s r pos) (inv : RingInv cfg.cap r h)
    (hown : OwnedBy t (r.phase (q % cfg.cap)))
    (hfull : ∀ q' v, p = .full q' v → q' < n) (hfree : ∀ u, ¬ OwnedBy u p)
    (hpc : s'.pc = Function.update s.pc t .idle) :
    Lin cfg s' (r.setPhase cfg.cap q p) h n (a.setCall t .idle) := by
  have hi := Nat.mod_lt q (cap_pos cfg)
  have hother : ∀ i < cfg.cap, i ≠ q % cfg.cap → ∀ u, OwnedBy u (r.phase i) → u ≠ t := by
    rintro i hi' hne u ho rfl
    exact hne ((sim.ownedBy_cell inv hi' ho).trans (sim.ownedBy_cell inv hi hown).symm)
  refine ⟨lin.lower, lin.upper, ?_, lin.queue, ?_, ?_, ?_⟩
  · intro i hi' q' v hf
    by_cases heq : i = q % cfg.cap
    · subst heq
      rw [setPhase_self] at hf
      exact hfull q' v hf
    · rw [setPhase_ne _ _ _ _ heq] at hf
      exact lin.full i hi' q' v hf
  · intro u c hc
    rw [hpc] at hc
    by_cases hut : u = t
    · subst hut
      rw [Function.update_self] at hc
      injection hc with hc
      rw [← hc]
      exact FifoObject.setCall_self _ _ _
    · rw [Function.update_of_ne hut] at hc
      rw [FifoObject.setCall_ne _ _ _ hut]
      exact lin.outside u c hc
  · intro i hi' q' u v hw
    by_cases heq : i = q % cfg.cap
    · subst heq
      rw [setPhase_self] at hw
      exact (hfree u (by rw [hw]; exact rfl)).elim
    · rw [setPhase_ne _ _ _ _ heq] at hw
      rw [FifoObject.setCall_ne _ _ _ (hother i hi' heq u (by rw [hw]; exact rfl))]
      exact lin.writing i hi' q' u v hw
  · intro i hi' q' u v hr
    by_cases heq : i = q % cfg.cap
    · subst heq
      rw [setPhase_self] at hr
      exact (hfree u (by rw [hr]; exact rfl)).elim
    · rw [setPhase_ne _ _ _ _ heq] at hr
      rw [FifoObject.setCall_ne _ _ _ (hother i hi' heq u (by rw [hr]; exact rfl))]
      exact lin.reading i hi' q' u v hr

/-- A push draws a ticket; it has not taken effect yet. -/
theorem Lin.drawPush {t : ι} {v : α} {pc' : Pc α} (lin : Lin cfg s r h n a)
    (inv : RingInv cfg.cap r h)
    (hcall : a.call t = .pushing (some v)) (hno : pc'.call? = none)
    (hpc : s'.pc = Function.update s.pc t pc') :
    Lin cfg s' { r.setPhase cfg.cap r.enq (.writing r.enq t v) with enq := r.enq + 1 }
      (h ++ [.enq v]) n a := by
  have hupper := lin.upper
  refine ⟨lin.lower, Nat.le_succ_of_le hupper, ?_, ?_, ?_, ?_, ?_⟩
  · intro i hi q v' hf
    by_cases heq : i = r.enq % cfg.cap
    · subst heq
      simp at hf
    · exact lin.full i hi q v' (by simpa [setPhase_ne _ _ _ _ heq] using hf)
  · have hpush := inv.pushes
    rw [lin.queue]
    simp only [enqueued_append, enqueued, TicketRing.setPhase_deq]
    rw [List.drop_append_of_le_length (by have := inv.bounds; omega),
      List.take_append_of_le_length]
    rw [List.length_drop]
    omega
  · intro u c hc
    rw [hpc] at hc
    by_cases hut : u = t
    · subst hut
      rw [Function.update_self, hno] at hc
      cases hc
    · rw [Function.update_of_ne hut] at hc
      exact lin.outside u c hc
  · intro i hi q u v' hw
    by_cases heq : i = r.enq % cfg.cap
    · subst heq
      simp only [setPhase_self, Phase.writing.injEq] at hw
      obtain ⟨rfl, rfl, rfl⟩ := hw
      rw [if_neg (by omega)]
      exact hcall
    · exact lin.writing i hi q u v' (by simpa [setPhase_ne _ _ _ _ heq] using hw)
  · intro i hi q u v' hr
    by_cases heq : i = r.enq % cfg.cap
    · subst heq
      simp at hr
    · exact lin.reading i hi q u v' (by simpa [setPhase_ne _ _ _ _ heq] using hr)

/-- A pop draws the ticket of the oldest element and takes effect. -/
theorem Lin.drawPop {t : ι} {v : α} {pc' : Pc α} (lin : Lin cfg s r h n a)
    (sim : Sim cfg s r pos) (inv : RingInv cfg.cap r h)
    (hfull : r.phase (r.deq % cfg.cap) = .full r.deq v)
    (hcall : a.call t = .popping) (hown : ¬ (s.pc t).owns) (hno : pc'.call? = none)
    (hpc : s'.pc = Function.update s.pc t pc') :
    ∃ a', FifoObject.step cfg.cap a (.effect t) = some (a', []) ∧
      Lin cfg s' { r.setPhase cfg.cap r.deq (.reading r.deq t v) with deq := r.deq + 1 }
        (h ++ [.deq v]) n a' := by
  have hi := Nat.mod_lt r.deq (cap_pos cfg)
  have hlt := lin.full _ hi _ _ hfull
  have hval := inv.value _ hi v (by rw [hfull]; rfl)
  rw [hfull] at hval
  simp only [Phase.ticket] at hval
  obtain ⟨hlen, hget⟩ := List.getElem?_eq_some_iff.mp hval
  have hqueue : a.queue = some v ::
      (((enqueued h).drop (r.deq + 1)).take (n - (r.deq + 1))).map some := by
    have hsucc : n - r.deq = (n - (r.deq + 1)) + 1 := by omega
    rw [lin.queue, List.drop_eq_getElem_cons hlen, hget, hsucc]
    rfl
  have hother : ∀ i < cfg.cap, ∀ u, OwnedBy u (r.phase i) → u ≠ t := by
    rintro i hi' u ho rfl
    exact hown (sim.owns_of_ownedBy hi' ho).1
  refine ⟨_, FifoObject.step_effect_pop hcall hqueue, ?_⟩
  refine ⟨hlt, lin.upper, ?_, ?_, ?_, ?_, ?_⟩
  · intro i hi' q v' hf
    by_cases heq : i = r.deq % cfg.cap
    · subst heq
      simp at hf
    · exact lin.full i hi' q v' (by simpa [setPhase_ne _ _ _ _ heq] using hf)
  · simp [enqueued]
  · intro u c hc
    rw [hpc] at hc
    by_cases hut : u = t
    · subst hut
      rw [Function.update_self, hno] at hc
      cases hc
    · rw [Function.update_of_ne hut] at hc
      rw [← lin.outside u c hc]
      exact FifoObject.setCall_ne _ _ _ hut
  · intro i hi' q u v' hw
    by_cases heq : i = r.deq % cfg.cap
    · subst heq
      simp at hw
    · have hw' : r.phase i = .writing q u v' := by
        simpa [setPhase_ne _ _ _ _ heq] using hw
      rw [← lin.writing i hi' q u v' hw']
      exact FifoObject.setCall_ne _ _ _ (hother i hi' u (by rw [hw']; exact rfl))
  · intro i hi' q u v' hr
    by_cases heq : i = r.deq % cfg.cap
    · subst heq
      simp only [setPhase_self, Phase.reading.injEq] at hr
      obtain ⟨_, rfl, rfl⟩ := hr
      exact FifoObject.setCall_self _ _ _
    · have hr' : r.phase i = .reading q u v' := by
        simpa [setPhase_ne _ _ _ _ heq] using hr
      rw [← lin.reading i hi' q u v' hr']
      exact FifoObject.setCall_ne _ _ _ (hother i hi' u (by rw [hr']; exact rfl))

end Lin

section Answer

variable {cfg : Config} {s s' : State ι α} {tr es : List (Event ι α)}
variable {r r' : TicketRing.State ι α} {h fs : List (FifoOp α)} {pos : ι → Nat}
variable {n : Nat} {a : FifoObject.State ι (Option α)}

/-- The object can answer a step of the queue and stay related to it. -/
def LinAnswered (cfg : Config) (s' : State ι α) (tr es : List (Event ι α))
    (r' : TicketRing.State ι α) (h : List (FifoOp α))
    (a : FifoObject.State ι (Option α)) : Prop :=
  ∃ as a' n, (FifoObject.object cfg.cap).exec a as = some (a', history es) ∧
    Lin cfg s' r' h n a' ∧ Forced cfg (tr ++ es) r' n

omit [DecidableEq ι] in
/-- What forced the pushes below `n` is not undone. -/
theorem Forced.mono (hf : Forced cfg tr r n) (hdeq : n = r.deq → n = r'.deq)
    (hfull : ∀ i < cfg.cap, ∀ v, r.phase i = .full (n - 1) v → n ≠ 0 →
      n = r'.deq ∨ r'.phase i = .full (n - 1) v) :
    Forced cfg (tr ++ es) r' n := by
  rcases hf with heq | ⟨i, hi, q, v, hq, rfl⟩ | ⟨pre, post, t, rfl, hn⟩
  · exact .inl (hdeq heq)
  · rcases hfull i hi v hq (Nat.succ_ne_zero q) with heq | hq'
    · exact .inl heq
    · exact .inr (.inl ⟨i, hi, q, v, hq', rfl⟩)
  · exact .inr (.inr ⟨pre, post ++ es, t, by simp, hn⟩)

omit [DecidableEq ι] in
theorem Forced.append (hf : Forced cfg tr r n) : Forced cfg (tr ++ es) r n :=
  hf.mono id fun _ _ _ hq _ => .inr hq

/-- A silent step of a thread that owns no ticket and stays in its call. -/
theorem Lin.answer_stay {t : ι} {pc' : Pc α} (lin : Lin cfg s r h n a)
    (hf : Forced cfg tr r n) (hpc : s'.pc = Function.update s.pc t pc')
    (hc : ∀ c, pc'.call? = some c → a.call t = c) (hes : history es = []) :
    LinAnswered cfg s' tr es r h a :=
  ⟨[], a, n, by rw [hes]; rfl, lin.stay hpc hc, hf.append⟩

/-- A step of a thread between two calls, answered by one step of the object. -/
theorem Lin.answer_move {t : ι} {pc' : Pc α} {c : FifoObject.Call (Option α)}
    {b : FifoObject.Act ι (Option α)} (lin : Lin cfg s r h n a)
    (sim : Sim cfg s r pos) (hf : Forced cfg tr r n) (hno : ¬ (s.pc t).owns)
    (hpc : s'.pc = Function.update s.pc t pc') (hc : pc'.call? = some c)
    (hb : FifoObject.step cfg.cap a b = some (a.setCall t c, history es)) :
    LinAnswered cfg s' tr es r h a :=
  ⟨[b], _, n, (Machine.exec_single _ _).trans hb, lin.move sim hno hpc hc, hf.append⟩

theorem Lin.answer_pushFull {t : ι} {v : α} {w : Word} (lin : Lin cfg s r h n a)
    (sim : Sim cfg s r pos) (inv : RingInv cfg.cap r h) (ok : TraceOk cfg.cap tr r h)
    (hpc : s.pc t = .pushSeq v w) (hfull : r.enq = r.deq + cfg.cap) :
    LinAnswered cfg (s.setPc t .idle) tr [.pushFailed t] r h a := by
  obtain ⟨as, a₁, he, lin₁⟩ := lin.advance sim inv lin.upper (le_refl _)
  have hcall := lin₁.outside t _ (by rw [hpc]; rfl)
  have hlen := lin₁.length_queue inv
  have hcap : cfg.cap ≤ a₁.queue.length := by omega
  refine ⟨as ++ [.effect t, .respond t], a₁.setCall t .idle, r.enq,
    Machine.exec_append he (FifoObject.exec_full hcall hcap), ?_, ?_⟩
  · exact lin₁.move sim (by simp [hpc, Pc.owns]) rfl rfl
  · exact .inr (.inr ⟨tr, [], t, rfl, (ok.enq_eq inv).symm⟩)

theorem Lin.answer_popEmpty {t : ι} {w : Word} (lin : Lin cfg s r h n a)
    (sim : Sim cfg s r pos) (inv : RingInv cfg.cap r h) (hf : Forced cfg tr r n)
    (hpc : s.pc t = .popSeq w) (hempty : n = r.deq) :
    LinAnswered cfg (s.setPc t .idle) tr [.popFailed t] r h a := by
  have hcall := lin.outside t _ (by rw [hpc]; rfl)
  have hqueue : a.queue = [] := by
    apply List.eq_nil_of_length_eq_zero
    rw [lin.length_queue inv, hempty, Nat.sub_self]
  refine ⟨[.effect t, .respond t], a.setCall t .idle, n,
    FifoObject.exec_empty hcall hqueue, ?_, hf.append⟩
  exact lin.move sim (by simp [hpc, Pc.owns]) rfl rfl

theorem Lin.answer_pushPublish {t : ι} {q : Nat} {v : α} (lin : Lin cfg s r h n a)
    (sim : Sim cfg s r pos) (inv : RingInv cfg.cap r h) (hf : Forced cfg tr r n)
    (hw : r.phase (q % cfg.cap) = .writing q t v)
    (hpc : s'.pc = Function.update s.pc t .idle) :
    LinAnswered cfg s' tr [.pushReturned t (word q)]
      (r.setPhase cfg.cap q (.full q v)) h a := by
  have hi := Nat.mod_lt q (cap_pos cfg)
  have hphase := inv.phase _ hi
  rw [hw] at hphase
  simp only [PhaseOk] at hphase
  have hupper := lin.upper
  obtain ⟨as, a₁, he, lin₁⟩ :=
    lin.advance sim inv (Nat.le_max_left n (q + 1)) (by omega)
  have hcall := lin₁.writing _ hi q t v hw
  rw [if_pos (by omega)] at hcall
  have hrespond := FifoObject.step_respond_push cfg.cap hcall
  have hexec : (FifoObject.object cfg.cap).exec a₁ [.respond t] =
      some (a₁.setCall t .idle, [.pushReturned t true]) :=
    (Machine.exec_single _ _).trans hrespond
  refine ⟨as ++ [.respond t], a₁.setCall t .idle, max n (q + 1),
    Machine.exec_append he hexec, ?_, ?_⟩
  · refine lin₁.complete sim inv (by rw [hw]; exact rfl) ?_ ?_ hpc
    · intro q' v' heq
      injection heq with h₁ _
      omega
    · intro u ho
      exact ho
  · by_cases hle : n ≤ q + 1
    · refine .inr (.inl ⟨q % cfg.cap, hi, q, v, setPhase_self _ _ _ _, ?_⟩)
      exact Nat.max_eq_right hle
    · rw [Nat.max_eq_left (by omega)]
      refine hf.mono id ?_
      intro i hi' v' hq' _
      refine .inr ?_
      rw [setPhase_ne]
      · exact hq'
      · rintro rfl
        rw [hw] at hq'
        cases hq'

theorem Lin.answer_popPublish {t : ι} {q : Nat} {v : α} (lin : Lin cfg s r h n a)
    (sim : Sim cfg s r pos) (inv : RingInv cfg.cap r h) (hf : Forced cfg tr r n)
    (hr : r.phase (q % cfg.cap) = .reading q t v)
    (hpc : s'.pc = Function.update s.pc t .idle) :
    LinAnswered cfg s' tr [.popReturned t (word q) (some v)]
      (r.setPhase cfg.cap q (.free (q + cfg.cap))) h a := by
  have hi := Nat.mod_lt q (cap_pos cfg)
  have hcall := lin.reading _ hi q t v hr
  have hrespond := FifoObject.step_respond_pop cfg.cap hcall
  refine ⟨[.respond t], _, n, (Machine.exec_single _ _).trans hrespond, ?_, ?_⟩
  · refine lin.complete sim inv (by rw [hr]; exact rfl) ?_ ?_ hpc
    · intro q' v' heq
      cases heq
    · intro u ho
      exact ho
  · refine hf.mono id ?_
    intro i hi' v' hq' _
    refine .inr ?_
    rw [setPhase_ne]
    · exact hq'
    · rintro rfl
      rw [hr] at hq'
      cases hq'

theorem Lin.answer_popClaim {t : ι} {v : α} {w : Word} (lin : Lin cfg s r h n a)
    (sim : Sim cfg s r pos) (inv : RingInv cfg.cap r h) (hf : Forced cfg tr r n)
    (hpc : s.pc t = .popCas w)
    (hfull : r.phase (r.deq % cfg.cap) = .full r.deq v)
    (hpc' : s'.pc = Function.update s.pc t (.popData w)) :
    LinAnswered cfg s' tr [.popClaimed t (word r.deq)]
      { r.setPhase cfg.cap r.deq (.reading r.deq t v) with deq := r.deq + 1 }
      (h ++ [.deq v]) a := by
  have hcall := lin.outside t _ (by rw [hpc]; rfl)
  obtain ⟨a', hs, lin'⟩ := lin.drawPop sim inv hfull hcall
    (by simp [hpc, Pc.owns]) rfl hpc'
  have hlt := lin.full _ (Nat.mod_lt r.deq (cap_pos cfg)) _ _ hfull
  refine ⟨[.effect t], a', n, (Machine.exec_single _ _).trans hs, lin', ?_⟩
  refine hf.mono (by omega) ?_
  intro i hi v' hq hn
  by_cases heq : i = r.deq % cfg.cap
  · subst heq
    rw [hfull] at hq
    injection hq with h₁ _
    exact .inl (show n = r.deq + 1 by omega)
  · exact .inr (by simpa [setPhase_ne _ _ _ _ heq] using hq)

/-- The object answers every step whose failing verdicts are right. -/
theorem Lin.answer (lin : Lin cfg s r h n a) (sim : Sim cfg s r pos)
    (inv : RingInv cfg.cap r h) (ok : TraceOk cfg.cap tr r h) (hf : Forced cfg tr r n)
    (hmove : Move cfg s s' es) (hmatch : Matches cfg.cap r r' es fs)
    (hpush : ∀ t, es = [.pushFailed t] → r.enq = r.deq + cfg.cap)
    (hpop : ∀ t, es = [.popFailed t] → n = r.deq) :
    LinAnswered cfg s' tr es r' (h ++ fs) a := by
  have hsame : ∀ t (pc' : Pc α), (s.pc t).call? = pc'.call? → ∀ c, pc'.call? = some c →
      a.call t = c := by
    intro t pc' heq c hc
    exact lin.outside t c (heq.trans hc)
  cases hmatch with
  | quiet hr hq =>
      subst hr
      rw [List.append_nil]
      cases hmove with
      | @pushCall t value hpc =>
          exact lin.answer_move sim hf (by simp [hpc, Pc.owns]) rfl rfl
            (FifoObject.step_push (lin.outside t _ (by rw [hpc]; rfl)))
      | @popCall t hpc =>
          exact lin.answer_move sim hf (by simp [hpc, Pc.owns]) rfl rfl
            (FifoObject.step_pop (lin.outside t _ (by rw [hpc]; rfl)))
      | pushFull hpc hd => exact lin.answer_pushFull sim inv ok hpc (hpush _ rfl)
      | popEmpty hpc hd => exact lin.answer_popEmpty sim inv hf hpc (hpop _ rfl)
      | pushLoad hpc => exact lin.answer_stay hf rfl (hsame _ _ (by rw [hpc]; rfl)) rfl
      | pushReady hpc hd =>
          exact lin.answer_stay hf rfl (hsame _ _ (by rw [hpc]; rfl)) rfl
      | pushStale hpc hd =>
          exact lin.answer_stay hf rfl (hsame _ _ (by rw [hpc]; rfl)) rfl
      | pushRetry hpc => exact lin.answer_stay hf rfl (hsame _ _ (by rw [hpc]; rfl)) rfl
      | pushMove hpc => exact lin.answer_stay hf rfl (by simp [Pc.call?]) rfl
      | popLoad hpc => exact lin.answer_stay hf rfl (hsame _ _ (by rw [hpc]; rfl)) rfl
      | popReady hpc hd =>
          exact lin.answer_stay hf rfl (hsame _ _ (by rw [hpc]; rfl)) rfl
      | popStale hpc hd =>
          exact lin.answer_stay hf rfl (hsame _ _ (by rw [hpc]; rfl)) rfl
      | popRetry hpc => exact lin.answer_stay hf rfl (hsame _ _ (by rw [hpc]; rfl)) rfl
      | popMove hpc => exact lin.answer_stay hf rfl (by simp [Pc.call?]) rfl
      | sizeCall hpc => exact lin.answer_stay hf rfl (hsame _ _ (by rw [hpc]; rfl)) rfl
      | sizeEnq hpc => exact lin.answer_stay hf rfl (hsame _ _ (by rw [hpc]; rfl)) rfl
      | sizeDeq hpc => exact lin.answer_stay hf rfl (hsame _ _ (by rw [hpc]; rfl)) rfl
      | pushClaim hpc hcas => exact (hq _ (List.mem_singleton_self _)).elim
      | pushPublish hpc => exact (hq _ (List.mem_singleton_self _)).elim
      | popClaim hpc hcas => exact (hq _ (List.mem_singleton_self _)).elim
      | popPublish hpc => exact (hq _ (List.mem_singleton_self _)).elim
  | push t v hfree hr =>
      subst hr
      cases hmove with
      | pushClaim hpc hcas =>
          have hcall := lin.outside t _ (by rw [hpc]; rfl)
          refine ⟨[], a, n, rfl, lin.drawPush inv hcall rfl rfl, ?_⟩
          refine hf.mono id ?_
          intro i hi v' hq _
          refine .inr ?_
          have hne : i ≠ r.enq % cfg.cap := by
            rintro rfl
            rw [hfree] at hq
            cases hq
          simpa [setPhase_ne _ _ _ _ hne] using hq
  | pushed t q v hw hr =>
      subst hr
      rw [List.append_nil]
      generalize hword : word q = w at hmove
      cases hmove with
      | pushPublish hpc =>
          subst hword
          exact lin.answer_pushPublish sim inv hf hw rfl
  | pop t v hfull hr =>
      subst hr
      generalize hword : word r.deq = w at hmove
      cases hmove with
      | popClaim hpc hcas =>
          subst hword
          exact lin.answer_popClaim sim inv hf hpc hfull rfl
  | popped t q v hw hr =>
      subst hr
      rw [List.append_nil]
      generalize hword : word q = w at hmove
      cases hmove with
      | popPublish hpc =>
          subst hword
          exact lin.answer_popPublish sim inv hf hw rfl

end Answer

section Runs

variable {cfg : Config} {s s' : State ι α} {tr : List (Event ι α)}

omit [DecidableEq ι] in
/-- Without a stale head, no push behind the pop counter has taken effect. -/
theorem Forced.eq_deq {r : TicketRing.State ι α} {h : List (FifoOp α)} {n : Nat}
    (hf : Forced cfg tr r n) (hle : r.deq ≤ n) (ok : TraceOk cfg.cap tr r h)
    (hno : ∀ i < cfg.cap, ∀ q v, r.phase i ≠ .full q v) (hcount : ¬ HeadCounted tr) :
    n = r.deq := by
  rcases hf with heq | ⟨i, hi, q, v, hq, _⟩ | ⟨pre, post, t, htr, rfl⟩
  · exact heq
  · exact (hno i hi q v hq).elim
  · by_contra hne
    refine hcount ⟨pre, post, t, htr, ?_⟩
    rw [ok.pops, List.length_map, List.length_range]
    omega

/-- What a settled step that returns `std::nullopt` has seen. -/
theorem Settled.empty {r : TicketRing.State ι α} {h : List (FifoOp α)}
    {pos : ι → Nat} {a : Act ι α} {t : ι} {es : List (Event ι α)}
    (hset : Settled cfg s tr a) (sim : Sim cfg s r pos) (inv : RingInv cfg.cap r h)
    (hs : step cfg s a = some (s', es)) (he : .popFailed t ∈ es) :
    (∀ i < cfg.cap, ∀ q v, r.phase i ≠ .full q v) ∧
      (r.deq = r.enq ∨ ¬ HeadCounted tr) := by
  obtain ⟨rfl, rfl, w, hpc, hd⟩ := popFailed_step hs he
  have hread := hset.read t rfl
  rw [hpc] at hread
  obtain ⟨hlag, hhead⟩ := hread
  obtain ⟨hw, heq | hpushed⟩ := pop_verdict sim inv hpc hlag hd
  · exact ⟨fun i hi q v => no_full_of_counters inv heq hi, .inl heq⟩
  · obtain ⟨hno, hcount⟩ := hhead hw hpushed
    exact ⟨fun i hi q v => no_full_cell sim inv hno hi, .inr hcount⟩

/-- What a settled step that returns `false` has seen. -/
theorem Settled.full {r : TicketRing.State ι α} {h : List (FifoOp α)}
    {pos : ι → Nat} {a : Act ι α} {t : ι} {es : List (Event ι α)}
    (hset : Settled cfg s tr a) (sim : Sim cfg s r pos) (inv : RingInv cfg.cap r h)
    (hs : step cfg s a = some (s', es)) (he : .pushFailed t ∈ es) :
    r.enq = r.deq + cfg.cap := by
  obtain ⟨rfl, rfl, v, w, hpc, hd⟩ := pushFailed_step hs he
  have hread := hset.read t rfl
  rw [hpc] at hread
  obtain ⟨hlag, hslot⟩ := hread
  obtain ⟨hw, heq | hpopped⟩ := push_verdict sim inv hpc hlag hd
  · exact heq
  · exact (hslot hw hpopped).elim

/-- The object answers settled runs of the queue. -/
structure Answers (cfg : Config) (s : State ι α) (tr : List (Event ι α))
    (a : FifoObject.State ι (Option α))
    (hist : List (FifoObject.Event ι (Option α))) : Prop where
  history : hist = history tr
  state : ∃ r h pos n, (TicketRing.ring cfg.cap).Reach r h ∧ Sim cfg s r pos ∧
    TraceOk cfg.cap tr r h ∧ Lin cfg s r h n a ∧ Forced cfg tr r n

omit [DecidableEq ι] in
/-- Nothing has taken effect before the first step. -/
theorem answers_init [DecidableEq ι] :
    Answers cfg (queue cfg : Machine (State ι α) _ _).init []
      (FifoObject.object cfg.cap).init [] where
  history := rfl
  state := by
    refine ⟨_, _, _, 0, .init, sim_init, traceOk_init,
      ⟨le_refl _, le_refl _, ?_, rfl, ?_, ?_, ?_⟩, .inl rfl⟩
    · intro i _ q v hq
      cases hq
    · intro u c hc
      injection hc
    · intro i _ q u v hq
      cases hq
    · intro i _ q u v hq
      cases hq

/-- Runs of settled steps are linearizable, failing calls included. -/
theorem settled_linearizable (hr : (queue cfg).ReachWhen (Settled cfg) s tr) :
    FifoObject.Linearizable cfg.capacity.toNat (history tr) := by
  have hsim : ∃ a hist, (FifoObject.object cfg.cap).Reach a hist ∧
      Answers cfg s tr a hist := by
    refine Machine.simulation (R := fun s tr a hist => Answers cfg s tr a hist)
      answers_init ?_ hr
    intro s tr a s' es b hist _ hset _ hans hs
    obtain ⟨rfl, r, h, pos, n, hring, sim, ok, lin, hf⟩ := hans
    have inv := TicketRing.ringInv_reach (cap_pos cfg) hring
    obtain ⟨as, r', fs, he, hm, ⟨pos', sim'⟩, ok'⟩ :=
      Refined.step hring sim ok ((freshRing_of_lag sim hset.fresh).noLap sim inv (step_move hs)) hs
    have hpush : ∀ t, es = [.pushFailed t] → r.enq = r.deq + cfg.cap := by
      rintro t rfl
      exact hset.full sim inv hs (List.mem_singleton_self _)
    have hpop : ∀ t, es = [.popFailed t] → n = r.deq := by
      rintro t rfl
      obtain ⟨hno, heq | hcount⟩ := hset.empty sim inv hs (List.mem_singleton_self _)
      · have := lin.lower
        have := lin.upper
        omega
      · exact hf.eq_deq lin.lower ok hno hcount
    obtain ⟨bs, b', n', hexec, lin', hf'⟩ :=
      lin.answer sim inv ok hf (step_move hs) hm hpush hpop
    refine ⟨bs, b', history es, hexec, by rw [history_append], ?_⟩
    exact ⟨r', h ++ fs, pos', n', hring.exec he, sim', ok', lin', hf'⟩
  obtain ⟨a, hist, hreach, hans⟩ := hsim
  rw [capacity_toNat, ← hans.history]
  exact ⟨a, hreach⟩

/-- Runs of settled steps refine the ticket ring. -/
theorem settled_refines (hr : (queue cfg).ReachWhen (Settled cfg) s tr) :
    ∃ r h, (TicketRing.ring cfg.cap).Reach r h ∧ Refined cfg s tr r h :=
  refines (fun hset inv sim _ hs =>
    (freshRing_of_lag sim hset.fresh).noLap sim inv (step_move hs)) hr

/--
In every run of settled steps the failing verdicts are those of a bounded FIFO
queue: `std::nullopt` is returned at a moment at which the queue is empty and
`false` at a moment at which it is full, and the whole history of calls is
linearizable.
-/
theorem settled_verdicts (cfg : Config)
    (hr : (queue cfg).ReachWhen (Settled cfg) s tr) : Verdicts cfg tr where
  empty := by
    intro pre post t htr
    obtain ⟨s₀, tr₀, a, s₁, es₀, es₁, hr₀, hset, hs, rfl⟩ := hr.emitted htr
    obtain ⟨r, h, hring, ⟨pos, sim⟩, ok⟩ := settled_refines hr₀
    have inv := TicketRing.ringInv_reach (cap_pos cfg) hring
    have hmem : Event.popFailed t ∈ es₀ ++ Event.popFailed t :: es₁ := by simp
    have hno := (hset.empty sim inv hs hmem).1
    have hes := (popFailed_step hs hmem).2.1
    have hnil : es₀ = [] := by
      cases es₀ with
      | nil => rfl
      | cons e es => simp at hes
    refine ⟨tr₀, [], by rw [hnil], by simp, ?_⟩
    exact emptyMoment_of_no_full inv ok hno
  full := by
    intro pre post t htr
    obtain ⟨s₀, tr₀, a, s₁, es₀, es₁, hr₀, hset, hs, rfl⟩ := hr.emitted htr
    obtain ⟨r, h, hring, ⟨pos, sim⟩, ok⟩ := settled_refines hr₀
    have inv := TicketRing.ringInv_reach (cap_pos cfg) hring
    have hmem : Event.pushFailed t ∈ es₀ ++ Event.pushFailed t :: es₁ := by simp
    have heq := hset.full sim inv hs hmem
    have hes := (pushFailed_step hs hmem).2.1
    have hnil : es₀ = [] := by
      cases es₀ with
      | nil => rfl
      | cons e es => simp at hes
    refine ⟨tr₀, [], by rw [hnil], by simp, ?_⟩
    exact fullMoment_of_counters inv ok heq
  linearizable := settled_linearizable hr

/--
Thread `2` pops while the only push has its ticket in hand, and pushes to the
full queue while thread `1` is about to claim the head.
-/
def settledCalls : List (Act (Fin 3) Nat) :=
  [.tryPush 0 7, .go 0, .go 0, .go 0, .tryPop 2, .go 2, .go 2,
    .tryPush 1 8, .go 1, .go 1, .go 1, .go 1, .go 1, .go 0, .go 0,
    .tryPop 1, .go 1, .go 1, .tryPush 2 9, .go 2, .go 2, .go 1, .go 1]

theorem settled_verdicts_settledCalls :
    ∃ (s : State (Fin 3) Nat) (tr : List (Event (Fin 3) Nat)),
      (queue twoSlots).ReachWhen (Settled twoSlots) s tr ∧ .popFailed 2 ∈ tr ∧
        .pushFailed 2 ∈ tr ∧ s.pc 1 = .popStore 0 (some 7) ∧ Verdicts twoSlots tr := by
  obtain ⟨s, tr, hr, hp⟩ := Machine.exists_reachWhen_of_exec (M := queue twoSlots)
    (C := Settled twoSlots) settledCalls
    (p := fun r => decide (Event.popFailed 2 ∈ r.2 ∧ Event.pushFailed 2 ∈ r.2 ∧
      r.1.pc 1 = .popStore 0 (some 7)))
    (by decide)
  obtain ⟨hpop, hpush, hpc⟩ := of_decide_eq_true hp
  exact ⟨s, tr, hr, hpop, hpush, hpc, settled_verdicts twoSlots hr⟩

omit [DecidableEq ι] in
/-- A call that starts at the end of a trace overlaps no earlier moment. -/
theorem moment_of_last_call (tr : List (Event ι α)) {before after : List (Event ι α)}
    {e : Event ι α}
    (h : tr ++ [e] = before ++ after) (hnot : e ∉ after) : before = tr ++ [e] := by
  rcases List.eq_nil_or_concat after with rfl | ⟨after, x, rfl⟩
  · rw [h, List.append_nil]
  · rw [List.concat_eq_append, ← List.append_assoc] at h
    obtain ⟨_, hx⟩ := List.append_inj' h rfl
    rw [List.singleton_inj] at hx
    exact (hnot (by simp [hx])).elim

/-- Thread `0` stalls after its CAS, and thread `1` pushes behind it. -/
def stalledPush : List (Act (Fin 3) Nat) :=
  [.tryPush 0 7, .go 0, .go 0, .go 0,
    .tryPush 1 8, .go 1, .go 1, .go 1, .go 1, .go 1,
    .tryPop 2, .go 2, .go 2]

/-- Thread `2` stalls after its CAS on the full queue, and thread `0` pushes. -/
def stalledPop : List (Act (Fin 3) Nat) :=
  [.tryPush 0 7, .go 0, .go 0, .go 0, .go 0, .go 0,
    .tryPush 1 8, .go 1, .go 1, .go 1, .go 1, .go 1,
    .tryPop 2, .go 2, .go 2, .go 2,
    .tryPush 0 9, .go 0, .go 0]

/-- Calls that stall on a slot make the verdicts of other threads wrong. -/
theorem stalled_calls_mislead :
    (∃ (s : State (Fin 3) Nat) (tr : List (Event (Fin 3) Nat)),
      (queue twoSlots).Reach s (tr ++ [.popFailed 2]) ∧
        ∀ before after, tr = before ++ after → .popCalled 2 ∉ after →
          ¬ EmptyMoment before) ∧
      (∃ (s : State (Fin 3) Nat) (tr : List (Event (Fin 3) Nat)),
        (queue twoSlots).Reach s (tr ++ [.pushFailed 0]) ∧
          ∀ before after, tr = before ++ after → (∀ v, .pushCalled 0 v ∉ after) →
            ¬ FullMoment twoSlots before) ∧
      ¬ ∀ (s : State (Fin 3) Nat) (tr : List (Event (Fin 3) Nat)),
        (queue twoSlots).Reach s tr → Verdicts twoSlots tr := by
  have hempty : ∃ (s : State (Fin 3) Nat) (tr : List (Event (Fin 3) Nat)),
      (queue twoSlots).Reach s (tr ++ [.popFailed 2]) ∧
        ∀ before after, tr = before ++ after → .popCalled 2 ∉ after →
          ¬ EmptyMoment before := by
    obtain ⟨s, tr, hr, hp⟩ := Machine.exists_reach_of_exec (M := queue twoSlots)
      stalledPush
      (p := fun r => decide (r.2 = [.pushCalled 0 7, .pushClaimed 0 0 7,
        .pushCalled 1 8, .pushClaimed 1 1 8, .pushReturned 1 1, .popCalled 2] ++
          [.popFailed 2]))
      (by decide)
    obtain rfl := of_decide_eq_true hp
    refine ⟨s, _, hr, ?_⟩
    intro before after heq hnot
    rw [moment_of_last_call [.pushCalled 0 7, .pushClaimed 0 0 7,
      .pushCalled 1 8, .pushClaimed 1 1 8, .pushReturned 1 1] heq hnot]
    intro hsub
    have hlen : 1 ≤ 0 := hsub.length_le
    omega
  have hfull : ∃ (s : State (Fin 3) Nat) (tr : List (Event (Fin 3) Nat)),
      (queue twoSlots).Reach s (tr ++ [.pushFailed 0]) ∧
        ∀ before after, tr = before ++ after → (∀ v, .pushCalled 0 v ∉ after) →
          ¬ FullMoment twoSlots before := by
    obtain ⟨s, tr, hr, hp⟩ := Machine.exists_reach_of_exec (M := queue twoSlots)
      stalledPop
      (p := fun r => decide (r.2 = [.pushCalled 0 7, .pushClaimed 0 0 7,
        .pushReturned 0 0, .pushCalled 1 8, .pushClaimed 1 1 8, .pushReturned 1 1,
        .popCalled 2, .popClaimed 2 0, .pushCalled 0 9] ++ [.pushFailed 0]))
      (by decide)
    obtain rfl := of_decide_eq_true hp
    refine ⟨s, _, hr, ?_⟩
    intro before after heq hnot
    rw [moment_of_last_call [.pushCalled 0 7, .pushClaimed 0 0 7,
      .pushReturned 0 0, .pushCalled 1 8, .pushClaimed 1 1 8, .pushReturned 1 1,
      .popCalled 2, .popClaimed 2 0] heq (hnot 9)]
    intro hmoment
    have hlen : 2 = 1 + 2 := hmoment
    omega
  refine ⟨hempty, hfull, ?_⟩
  intro hall
  obtain ⟨s, tr, hr, hno⟩ := hempty
  obtain ⟨before, after, heq, hnot, hmoment⟩ := (hall s _ hr).empty tr [] 2 rfl
  exact hno before after heq hnot hmoment

end Runs

end LockFreeQueue
end AsyncTaskEngine
