import AsyncTaskEngine.Machine
import Mathlib.Logic.Function.Basic

/-!
# Bounded FIFO histories and ticket rings

A bounded FIFO queue is specified by its legal histories.  A *ticket ring* is
the general algorithm behind ring buffers whose cells are claimed first and
filled later: producers and consumers draw tickets from two counters, ticket
`q` lives in cell `q % cap`, and every cell passes through the phases

  `free q → writing q → full q → reading q → free (q + cap)`.

Claiming and completing a ticket are separate steps, so a client may stall
between them.  The main result, `ring_history`, says that the claims of every
run, in the order in which they are made, form a legal history of the bounded
FIFO queue, however the completions are delayed.
-/

namespace AsyncTaskEngine

universe u v

variable {ι : Type u} {α : Type v}

/-- Operations of a FIFO queue, a dequeue carrying the value it returns. -/
inductive FifoOp (α : Type v) where
  | enq (v : α)
  | deq (v : α)

/-- `FifoHistory cap h q`: `h` is legal from the empty queue and leaves `q`. -/
inductive FifoHistory (cap : Nat) : List (FifoOp α) → List α → Prop
  | nil : FifoHistory cap [] []
  | enq {h : List (FifoOp α)} {q : List α} (v : α)
      (hist : FifoHistory cap h q)
      (room : q.length < cap) :
      FifoHistory cap (h ++ [.enq v]) (q ++ [v])
  | deq {h : List (FifoOp α)} {q : List α} (v : α)
      (hist : FifoHistory cap h (v :: q)) :
      FifoHistory cap (h ++ [.deq v]) q

/-- The values enqueued by a history, in order. -/
def enqueued : List (FifoOp α) → List α
  | [] => []
  | .enq v :: h => v :: enqueued h
  | .deq _ :: h => enqueued h

/-- The values dequeued by a history, in order. -/
def dequeued : List (FifoOp α) → List α
  | [] => []
  | .enq _ :: h => dequeued h
  | .deq v :: h => v :: dequeued h

@[simp] theorem enqueued_append (h k : List (FifoOp α)) :
    enqueued (h ++ k) = enqueued h ++ enqueued k := by
  induction h with
  | nil => rfl
  | cons o h ih => cases o <;> simp [enqueued, ih]

@[simp] theorem dequeued_append (h k : List (FifoOp α)) :
    dequeued (h ++ k) = dequeued h ++ dequeued k := by
  induction h with
  | nil => rfl
  | cons o h ih => cases o <;> simp [dequeued, ih]

/-- What was enqueued is what was dequeued followed by what is still held. -/
theorem FifoHistory.enqueued_eq {cap : Nat} {h : List (FifoOp α)} {q : List α}
    (hist : FifoHistory cap h q) : enqueued h = dequeued h ++ q := by
  induction hist with
  | nil => rfl
  | enq v _ _ ih => simp [ih, enqueued, dequeued]
  | deq v _ ih => simp [ih, enqueued, dequeued]

theorem FifoHistory.length_le {cap : Nat} {h : List (FifoOp α)} {q : List α}
    (hist : FifoHistory cap h q) : q.length ≤ cap := by
  induction hist with
  | nil => exact Nat.zero_le _
  | enq v _ room _ => simp only [List.length_append, List.length_singleton]; omega
  | deq v _ ih => simp only [List.length_cons] at ih; omega

namespace TicketRing

/-- The phase of a cell, with the ticket it is serving and the ticket's owner. -/
inductive Phase (ι : Type u) (α : Type v) where
  | free (q : Nat)
  | writing (q : Nat) (t : ι) (v : α)
  | full (q : Nat) (v : α)
  | reading (q : Nat) (t : ι) (v : α)

namespace Phase

/-- The ticket a cell is serving. -/
def ticket : Phase ι α → Nat
  | free q => q
  | writing q _ _ => q
  | full q _ => q
  | reading q _ _ => q

/-- The value attached to a claimed ticket. -/
def value : Phase ι α → Option α
  | free _ => none
  | writing _ _ v => some v
  | full _ v => some v
  | reading _ _ v => some v

/-- The sequence number that encodes the phase. -/
def seq : Phase ι α → Nat
  | free q => q
  | writing q _ _ => q
  | full q _ => q + 1
  | reading q _ _ => q + 1

end Phase

/-- The two ticket counters and the phases of the cells. -/
structure State (ι : Type u) (α : Type v) where
  enq : Nat
  deq : Nat
  phase : Nat → Phase ι α

/-- Steps of a ticket ring. -/
inductive Act (ι : Type u) (α : Type v) where
  | put (t : ι) (v : α)
  | publish (q : Nat)
  | take (t : ι)
  | release (q : Nat)

/-- Replace the phase of the cell of ticket `q`. -/
def State.setPhase (r : State ι α) (cap q : Nat) (p : Phase ι α) : State ι α :=
  { r with phase := Function.update r.phase (q % cap) p }

section SetPhase

variable (r : State ι α) (cap q : Nat) (p : Phase ι α)

@[simp] theorem setPhase_enq : (r.setPhase cap q p).enq = r.enq := rfl

@[simp] theorem setPhase_deq : (r.setPhase cap q p).deq = r.deq := rfl

@[simp] theorem setPhase_self : (r.setPhase cap q p).phase (q % cap) = p := by
  simp [State.setPhase]

theorem setPhase_ne {i : Nat} (h : i ≠ q % cap) :
    (r.setPhase cap q p).phase i = r.phase i := by
  simp [State.setPhase, h]

/-- A new phase with the old sequence number leaves all sequence numbers alone. -/
theorem setPhase_seq (h : p.seq = (r.phase (q % cap)).seq) (i : Nat) :
    ((r.setPhase cap q p).phase i).seq = (r.phase i).seq := by
  by_cases heq : i = q % cap
  · rw [heq, setPhase_self, h]
  · rw [setPhase_ne _ _ _ _ heq]

end SetPhase

/-- One step; a claim is refused unless its cell is ready for the ticket. -/
def step (cap : Nat) (r : State ι α) :
    Act ι α → Option (State ι α × List (FifoOp α))
  | .put t v =>
      match r.phase (r.enq % cap) with
      | .free q =>
          if q = r.enq then
            some ({ r.setPhase cap q (.writing q t v) with enq := r.enq + 1 },
              [.enq v])
          else none
      | _ => none
  | .publish q =>
      match r.phase (q % cap) with
      | .writing q' _ v =>
          if q' = q then some (r.setPhase cap q (.full q v), []) else none
      | _ => none
  | .take t =>
      match r.phase (r.deq % cap) with
      | .full q v =>
          if q = r.deq then
            some ({ r.setPhase cap q (.reading q t v) with deq := r.deq + 1 },
              [.deq v])
          else none
      | _ => none
  | .release q =>
      match r.phase (q % cap) with
      | .reading q' _ _ =>
          if q' = q then some (r.setPhase cap q (.free (q + cap)), []) else none
      | _ => none

/-- The ticket ring with `cap` cells, initially all free for the first round. -/
def ring (cap : Nat) : Machine (State ι α) (Act ι α) (FifoOp α) where
  init := { enq := 0, deq := 0, phase := .free }
  step := step cap

/-- What a single step does; every later argument starts from this lemma. -/
theorem step_cases {cap : Nat} {r r' : State ι α} {a : Act ι α}
    {es : List (FifoOp α)} (h : step cap r a = some (r', es)) :
    (∃ t v, r.phase (r.enq % cap) = .free r.enq ∧
        r' = { r.setPhase cap r.enq (.writing r.enq t v) with enq := r.enq + 1 } ∧
        es = [.enq v]) ∨
      (∃ q t v, r.phase (q % cap) = .writing q t v ∧
        r' = r.setPhase cap q (.full q v) ∧ es = []) ∨
      (∃ t v, r.phase (r.deq % cap) = .full r.deq v ∧
        r' = { r.setPhase cap r.deq (.reading r.deq t v) with deq := r.deq + 1 } ∧
        es = [.deq v]) ∨
      (∃ q t v, r.phase (q % cap) = .reading q t v ∧
        r' = r.setPhase cap q (.free (q + cap)) ∧ es = []) := by
  cases a with
  | put t v =>
      simp only [step] at h
      split at h
      · next q hq =>
          split at h
          · next heq =>
              subst heq
              simp only [Option.some.injEq, Prod.mk.injEq] at h
              exact .inl ⟨t, v, hq, h.1.symm, h.2.symm⟩
          · simp at h
      · simp at h
  | publish q =>
      simp only [step] at h
      split at h
      · next q' t v hq =>
          split at h
          · next heq =>
              subst heq
              simp only [Option.some.injEq, Prod.mk.injEq] at h
              exact .inr (.inl ⟨q', t, v, hq, h.1.symm, h.2.symm⟩)
          · simp at h
      · simp at h
  | take t =>
      simp only [step] at h
      split at h
      · next q v hq =>
          split at h
          · next heq =>
              subst heq
              simp only [Option.some.injEq, Prod.mk.injEq] at h
              exact .inr (.inr (.inl ⟨t, v, hq, h.1.symm, h.2.symm⟩))
          · simp at h
      · simp at h
  | release q =>
      simp only [step] at h
      split at h
      · next q' t v hq =>
          split at h
          · next heq =>
              subst heq
              simp only [Option.some.injEq, Prod.mk.injEq] at h
              exact .inr (.inr (.inr ⟨q', t, v, hq, h.1.symm, h.2.symm⟩))
          · simp at h
      · simp at h

/-- The cell of ticket `q` can be claimed by a producer. -/
theorem step_put {cap : Nat} {r : State ι α} (t : ι) (v : α)
    (h : r.phase (r.enq % cap) = .free r.enq) :
    step cap r (.put t v) =
      some ({ r.setPhase cap r.enq (.writing r.enq t v) with enq := r.enq + 1 },
        [.enq v]) := by
  simp [step, h]

theorem step_publish {cap q : Nat} {r : State ι α} {t : ι} {v : α}
    (h : r.phase (q % cap) = .writing q t v) :
    step cap r (.publish q) = some (r.setPhase cap q (.full q v), []) := by
  simp [step, h]

theorem step_take {cap : Nat} {r : State ι α} (t : ι) {v : α}
    (h : r.phase (r.deq % cap) = .full r.deq v) :
    step cap r (.take t) =
      some ({ r.setPhase cap r.deq (.reading r.deq t v) with deq := r.deq + 1 },
        [.deq v]) := by
  simp [step, h]

theorem step_release {cap q : Nat} {r : State ι α} {t : ι} {v : α}
    (h : r.phase (q % cap) = .reading q t v) :
    step cap r (.release q) = some (r.setPhase cap q (.free (q + cap)), []) := by
  simp [step, h]

/-- The sequence number of a cell never decreases. -/
theorem step_seq_mono {cap : Nat} {r r' : State ι α} {a : Act ι α}
    {es : List (FifoOp α)} (hcap : 0 < cap) (h : step cap r a = some (r', es)) (i : Nat) :
    (r.phase i).seq ≤ (r'.phase i).seq := by
  rcases step_cases h with
    ⟨t, v, hp, rfl, -⟩ | ⟨q, t, v, hp, rfl, -⟩ |
    ⟨t, v, hp, rfl, -⟩ | ⟨q, t, v, hp, rfl, -⟩
  · exact Nat.le_of_eq (setPhase_seq r cap _ _ (by rw [hp]; rfl) i).symm
  · by_cases heq : i = q % cap
    · subst heq
      simp [hp, Phase.seq]
    · simp [setPhase_ne _ _ _ _ heq]
  · exact Nat.le_of_eq (setPhase_seq r cap _ _ (by rw [hp]; rfl) i).symm
  · by_cases heq : i = q % cap
    · subst heq
      simp only [hp, Phase.seq, setPhase_self]
      omega
    · simp [setPhase_ne _ _ _ _ heq]

theorem exec_seq_mono {cap : Nat} {r r' : State ι α} {as : List (Act ι α)}
    {es : List (FifoOp α)} (hcap : 0 < cap)
    (h : (ring cap).exec r as = some (r', es)) (i : Nat) :
    (r.phase i).seq ≤ (r'.phase i).seq := by
  refine Machine.exec_invariant (P := fun q _ => (r.phase i).seq ≤ (q.phase i).seq)
    h (Nat.le_refl _) ?_
  intro q _ a q' fs _ hle hs
  exact Nat.le_trans hle (step_seq_mono hcap hs i)

/-- What the phase of a cell says about the two counters. -/
def PhaseOk (cap enq deq : Nat) : Phase ι α → Prop
  | .free q => enq ≤ q ∧ q < deq + cap
  | .writing q _ _ => deq ≤ q ∧ q < enq
  | .full q _ => deq ≤ q ∧ q < enq
  | .reading q _ _ => q < deq ∧ enq ≤ q + cap

/-- The invariant of a ticket ring whose claims so far are the history `h`. -/
structure RingInv (cap : Nat) (r : State ι α) (h : List (FifoOp α)) : Prop where
  cell : ∀ i < cap, (r.phase i).ticket % cap = i
  phase : ∀ i < cap, PhaseOk cap r.enq r.deq (r.phase i)
  value : ∀ i < cap, ∀ v, (r.phase i).value = some v →
    (enqueued h)[(r.phase i).ticket]? = some v
  pushes : (enqueued h).length = r.enq
  pops : (dequeued h).length = r.deq
  history : FifoHistory cap h ((enqueued h).drop r.deq)

namespace RingInv

variable {cap : Nat} {r : State ι α} {h : List (FifoOp α)}

/-- Never more than `cap` tickets are outstanding. -/
theorem bounds (inv : RingInv cap r h) : r.deq ≤ r.enq ∧ r.enq ≤ r.deq + cap := by
  have hlen := inv.history.length_le
  have heq := congrArg List.length inv.history.enqueued_eq
  have hpush := inv.pushes
  have hpop := inv.pops
  simp only [List.length_append, List.length_drop] at hlen heq
  omega

end RingInv

variable {cap : Nat}

/-- In the initial ring cell `i` is free for ticket `i`. -/
theorem ringInv_init :
    RingInv cap (ring cap : Machine (State ι α) _ _).init [] where
  cell i hi := by
    show i % cap = i
    exact Nat.mod_eq_of_lt hi
  phase i hi := by
    show 0 ≤ i ∧ i < 0 + cap
    omega
  value i _ v hv := by simp [ring, Phase.value] at hv
  pushes := rfl
  pops := rfl
  history := .nil

variable {r : State ι α} {h : List (FifoOp α)}

/-- Distinct tickets of one cell lie at least a round apart. -/
theorem ticket_gap {p q : Nat} (hmod : p % cap = q % cap) (hlt : p < q) :
    p + cap ≤ q := by
  have hp := Nat.div_add_mod p cap
  have hq := Nat.div_add_mod q cap
  have hdiv : p / cap < q / cap := by
    by_contra hle
    have := Nat.mul_le_mul_left cap (Nat.le_of_not_lt hle)
    omega
  have := Nat.mul_le_mul_left cap hdiv
  rw [Nat.mul_succ] at this
  omega

/-- The cell of a claimed ticket that has not been taken serves that ticket. -/
theorem RingInv.outstanding (hcap : 0 < cap) (inv : RingInv cap r h) {q : Nat}
    (hlow : r.deq ≤ q) (hhigh : q < r.enq) :
    (∃ t v, r.phase (q % cap) = .writing q t v) ∨
      ∃ v, r.phase (q % cap) = .full q v := by
  have hi := Nat.mod_lt q hcap
  have hcell := inv.cell _ hi
  have hok := inv.phase _ hi
  have hbounds := inv.bounds
  have hgap : ∀ p, p % cap = q % cap → p ≠ q → p + cap ≤ q ∨ q + cap ≤ p := by
    intro p hmod hne
    rcases Nat.lt_or_gt_of_ne hne with hlt | hlt
    · exact .inl (ticket_gap hmod hlt)
    · exact .inr (ticket_gap hmod.symm hlt)
  cases hp : r.phase (q % cap) with
  | free p =>
      rw [hp] at hcell hok
      simp only [Phase.ticket, PhaseOk] at hcell hok
      have := hgap p hcell (by omega)
      omega
  | writing p t v =>
      rw [hp] at hcell hok
      simp only [Phase.ticket, PhaseOk] at hcell hok
      obtain rfl : p = q := by
        by_contra hne
        have := hgap p hcell hne
        omega
      exact .inl ⟨t, v, rfl⟩
  | full p v =>
      rw [hp] at hcell hok
      simp only [Phase.ticket, PhaseOk] at hcell hok
      obtain rfl : p = q := by
        by_contra hne
        have := hgap p hcell hne
        omega
      exact .inr ⟨v, rfl⟩
  | reading p t v =>
      rw [hp] at hcell hok
      simp only [Phase.ticket, PhaseOk] at hcell hok
      have := hgap p hcell (by omega)
      omega

theorem ringInv_put (hcap : 0 < cap) (inv : RingInv cap r h) (t : ι) (v : α)
    (hfree : r.phase (r.enq % cap) = .free r.enq) :
    RingInv cap
      { r.setPhase cap r.enq (.writing r.enq t v) with enq := r.enq + 1 }
      (h ++ [.enq v]) := by
  have hi := Nat.mod_lt r.enq hcap
  have hok := inv.phase _ hi
  rw [hfree] at hok
  obtain ⟨hdeq, _⟩ := inv.bounds
  have hpush := inv.pushes
  refine ⟨?_, ?_, ?_, ?_, ?_, ?_⟩
  · intro i hlt
    by_cases heq : i = r.enq % cap
    · subst heq
      simp [Phase.ticket]
    · simpa [setPhase_ne _ _ _ _ heq] using inv.cell i hlt
  · intro i hlt
    by_cases heq : i = r.enq % cap
    · subst heq
      simp only [setPhase_self, setPhase_deq]
      exact ⟨hdeq, Nat.lt_succ_self _⟩
    · have hold := inv.phase i hlt
      have hcell := inv.cell i hlt
      simp only [setPhase_ne _ _ _ _ heq, setPhase_deq]
      cases hp : r.phase i with
      | free q =>
          -- another free cell waits for a ticket that is not the one drawn
          rw [hp] at hold hcell
          simp only [PhaseOk, Phase.ticket] at hold hcell ⊢
          have : q ≠ r.enq := by rintro rfl; exact heq hcell.symm
          omega
      | writing q t' v' =>
          rw [hp] at hold
          simp only [PhaseOk] at hold ⊢
          omega
      | full q v' =>
          rw [hp] at hold
          simp only [PhaseOk] at hold ⊢
          omega
      | reading q t' v' =>
          -- the drawn ticket is not the next one of a cell still being read
          rw [hp] at hold hcell
          simp only [PhaseOk, Phase.ticket] at hold hcell ⊢
          have : r.enq ≠ q + cap := by
            intro hq
            apply heq
            rw [hq, Nat.add_mod_right, hcell]
          omega
  · intro i hlt v' hv'
    by_cases heq : i = r.enq % cap
    · subst heq
      simp only [setPhase_self, Phase.value, Option.some.injEq] at hv'
      subst hv'
      simp [Phase.ticket, enqueued, ← hpush]
    · simp only [setPhase_ne _ _ _ _ heq] at hv' ⊢
      have hold := inv.value i hlt v' hv'
      rw [enqueued_append, List.getElem?_append_left]
      · exact hold
      · exact (List.getElem?_eq_some_iff.mp hold).1
  · simp [enqueued, hpush]
  · simpa [dequeued] using inv.pops
  · have hdrop : (enqueued (h ++ [.enq v])).drop r.deq =
        (enqueued h).drop r.deq ++ [v] := by
      simp only [enqueued_append, enqueued]
      rw [List.drop_append_of_le_length]
      omega
    simp only [setPhase_deq]
    rw [hdrop]
    refine .enq v inv.history ?_
    have := hok.2
    simp only [List.length_drop]
    omega

/-- Publishing or releasing a ticket changes one cell and no counter. -/
theorem ringInv_settle (inv : RingInv cap r h) {q : Nat} {p : Phase ι α}
    (hcell : p.ticket % cap = q % cap)
    (hok : PhaseOk cap r.enq r.deq p)
    (hval : ∀ v, p.value = some v → (enqueued h)[p.ticket]? = some v) :
    RingInv cap (r.setPhase cap q p) h := by
  refine ⟨?_, ?_, ?_, inv.pushes, inv.pops, inv.history⟩
  · intro i hlt
    by_cases heq : i = q % cap
    · subst heq
      simpa using hcell
    · simpa [setPhase_ne _ _ _ _ heq] using inv.cell i hlt
  · intro i hlt
    by_cases heq : i = q % cap
    · subst heq
      simpa using hok
    · simpa [setPhase_ne _ _ _ _ heq] using inv.phase i hlt
  · intro i hlt v hv
    by_cases heq : i = q % cap
    · subst heq
      simp only [setPhase_self] at hv ⊢
      exact hval v hv
    · simp only [setPhase_ne _ _ _ _ heq] at hv ⊢
      exact inv.value i hlt v hv

theorem ringInv_take (hcap : 0 < cap) (inv : RingInv cap r h) (t : ι) {v : α}
    (hfull : r.phase (r.deq % cap) = .full r.deq v) :
    RingInv cap
      { r.setPhase cap r.deq (.reading r.deq t v) with deq := r.deq + 1 }
      (h ++ [.deq v]) := by
  have hi := Nat.mod_lt r.deq hcap
  have hok := inv.phase _ hi
  have hval := inv.value _ hi v (by rw [hfull]; rfl)
  rw [hfull] at hok hval
  simp only [Phase.ticket] at hval
  obtain ⟨_, hbound⟩ := inv.bounds
  refine ⟨?_, ?_, ?_, ?_, ?_, ?_⟩
  · intro i hlt
    by_cases heq : i = r.deq % cap
    · subst heq
      simp [Phase.ticket]
    · simpa [setPhase_ne _ _ _ _ heq] using inv.cell i hlt
  · intro i hlt
    by_cases heq : i = r.deq % cap
    · subst heq
      simp only [setPhase_self, setPhase_enq]
      exact ⟨Nat.lt_succ_self _, hbound⟩
    · have hold := inv.phase i hlt
      have hcell := inv.cell i hlt
      -- any other cell serves a ticket different from the one taken
      have hne : (r.phase i).ticket ≠ r.deq := by
        intro hq
        exact heq (by rw [← hcell, hq])
      simp only [setPhase_ne _ _ _ _ heq, setPhase_enq]
      cases hp : r.phase i with
      | free q => rw [hp] at hold; simp only [PhaseOk] at hold ⊢; omega
      | writing q t' v' =>
          rw [hp] at hold hne
          simp only [PhaseOk, Phase.ticket] at hold hne ⊢
          omega
      | full q v' =>
          rw [hp] at hold hne
          simp only [PhaseOk, Phase.ticket] at hold hne ⊢
          omega
      | reading q t' v' => rw [hp] at hold; simp only [PhaseOk] at hold ⊢; omega
  · intro i hlt v' hv'
    simp only [enqueued_append, enqueued, List.append_nil]
    by_cases heq : i = r.deq % cap
    · subst heq
      simp only [setPhase_self, Phase.value, Option.some.injEq] at hv'
      subst hv'
      simpa [Phase.ticket] using hval
    · simp only [setPhase_ne _ _ _ _ heq] at hv' ⊢
      exact inv.value i hlt v' hv'
  · simpa [enqueued] using inv.pushes
  · simpa [dequeued] using inv.pops
  · simp only [enqueued_append, enqueued, List.append_nil]
    refine .deq v ?_
    have hdrop : (enqueued h).drop r.deq =
        v :: (enqueued h).drop (r.deq + 1) := by
      obtain ⟨hlt, hget⟩ := List.getElem?_eq_some_iff.mp hval
      rw [List.drop_eq_getElem_cons hlt, hget]
    rw [← hdrop]
    exact inv.history

/-- The ring invariant holds in every reachable state. -/
theorem ringInv_reach (hcap : 0 < cap)
    (hr : (ring cap : Machine (State ι α) _ _).Reach r h) : RingInv cap r h := by
  refine hr.invariant (P := RingInv cap) ringInv_init ?_
  intro r h a r' es _ inv hs
  rcases step_cases hs with
    ⟨t, v, hp, rfl, rfl⟩ | ⟨q, t, v, hp, rfl, rfl⟩ |
    ⟨t, v, hp, rfl, rfl⟩ | ⟨q, t, v, hp, rfl, rfl⟩
  · exact ringInv_put hcap inv t v hp
  · have hi := Nat.mod_lt q hcap
    have hok := inv.phase _ hi
    have hval := inv.value _ hi v (by rw [hp]; rfl)
    rw [hp] at hok hval
    rw [List.append_nil]
    refine ringInv_settle inv rfl hok ?_
    intro v' hv'
    simp only [Phase.value, Option.some.injEq] at hv'
    subst hv'
    exact hval
  · exact ringInv_take hcap inv t hp
  · have hok := inv.phase _ (Nat.mod_lt q hcap)
    rw [hp] at hok
    rw [List.append_nil]
    refine ringInv_settle inv ?_ ?_ (by simp [Phase.value])
    · simp [Phase.ticket]
    · simp only [PhaseOk] at hok ⊢
      omega

/-- The claims of every run form a legal history of the bounded queue. -/
theorem ring_history (hcap : 0 < cap)
    (hr : (ring cap : Machine (State ι α) _ _).Reach r h) :
    ∃ q, FifoHistory cap h q ∧ q.length = r.enq - r.deq := by
  have inv := ringInv_reach hcap hr
  refine ⟨_, inv.history, ?_⟩
  rw [List.length_drop, inv.pushes]

end TicketRing

end AsyncTaskEngine
