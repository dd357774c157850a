import Mathlib.Order.RelClasses
import Mathlib.Data.Multiset.AddSub
import Mathlib.Data.List.Sort

/-!
# Max-heaps and stable priority queues

`MaxHeap` is what a correct implementation of a priority queue provides for a
strict weak order: the top is an element that is below no other, and `pop`
removes the top.  A heap may let its top be overwritten before it is popped;
overwriting it by an equivalent element does not disturb the others.

`StableHistory` specifies a stable priority queue by its legal histories: a pop
returns the earliest entry among those of the highest priority.
-/

namespace AsyncTaskEngine

universe u v w

section MaxHeap

variable {α : Type u} {lt : α → α → Prop} [IsStrictWeakOrder α lt]

/-- A heap of type `H` that holds elements of `α`. -/
structure MaxHeap (H : Type v) (α : Type u) (lt : α → α → Prop)
    [IsStrictWeakOrder α lt] where
  elems : H → Multiset α
  empty : H
  push : α → H → H
  top : H → Option α
  /-- Overwrite the top element where it stands. -/
  setTop : α → H → H
  pop : H → H
  size : H → Nat
  elems_empty : elems empty = 0
  elems_push : ∀ a h, elems (push a h) = a ::ₘ elems h
  size_eq : ∀ h, size h = Multiset.card (elems h)
  top_eq_none : ∀ h, top h = none ↔ elems h = 0
  top_mem : ∀ h a, top h = some a → a ∈ elems h
  top_max : ∀ h a, top h = some a → ∀ b ∈ elems h, ¬ lt a b
  elems_pop : ∀ h a b, top h = some a → ¬ lt a b → ¬ lt b a →
    a ::ₘ elems (pop (setTop b h)) = elems h

namespace MaxHeap

variable {H : Type v} (heap : MaxHeap H α lt)

theorem size_empty : heap.size heap.empty = 0 := by
  rw [heap.size_eq, heap.elems_empty, Multiset.card_zero]

theorem size_push (a : α) (h : H) : heap.size (heap.push a h) = heap.size h + 1 := by
  rw [heap.size_eq, heap.size_eq, heap.elems_push, Multiset.card_cons]

theorem top_eq_none_iff_size (h : H) : heap.top h = none ↔ heap.size h = 0 := by
  rw [heap.top_eq_none, heap.size_eq, Multiset.card_eq_zero]

/-- Popping an overwritten top removes one element. -/
theorem size_pop {h : H} {a b : α} (htop : heap.top h = some a) (hab : ¬ lt a b)
    (hba : ¬ lt b a) : heap.size (heap.pop (heap.setTop b h)) + 1 = heap.size h := by
  rw [heap.size_eq, heap.size_eq, ← heap.elems_pop h a b htop hab hba,
    Multiset.card_cons]

section Rank

variable [DecidableRel lt]

/-- The number of elements of the heap that are above this one. -/
def rank (a : α) (h : H) : Nat :=
  (heap.elems h).countP (lt a)

theorem rank_push (a b : α) (h : H) :
    heap.rank a (heap.push b h) = heap.rank a h + if lt a b then 1 else 0 := by
  rw [rank, heap.elems_push, Multiset.countP_cons, rank]

omit [DecidableRel lt] in
/-- An element that is not popped stays. -/
theorem mem_pop {h : H} {a b c : α} (htop : heap.top h = some b) (hbc : ¬ lt b c)
    (hcb : ¬ lt c b) (ha : a ∈ heap.elems h) (hne : a ≠ b) :
    a ∈ heap.elems (heap.pop (heap.setTop c h)) := by
  rw [← heap.elems_pop h b c htop hbc hcb, Multiset.mem_cons] at ha
  exact ha.resolve_left hne

/-- A pop of an element above this one. -/
theorem rank_pop {h : H} {a b c : α} (htop : heap.top h = some b) (hbc : ¬ lt b c)
    (hcb : ¬ lt c b) (hab : lt a b) :
    heap.rank a (heap.pop (heap.setTop c h)) + 1 = heap.rank a h := by
  rw [rank, rank, ← heap.elems_pop h b c htop hbc hcb, Multiset.countP_cons_of_pos _ hab]

end Rank

end MaxHeap

/-- The order of a list that is sorted for a max-heap. -/
def NotBelow (lt : α → α → Prop) (a b : α) : Prop :=
  ¬ lt a b

instance [DecidableRel lt] : DecidableRel (NotBelow lt) :=
  fun a b => inferInstanceAs (Decidable (¬ lt a b))

/-- Being below is preserved by passing to an element that is not below. -/
theorem lt_of_lt_of_notBelow {a b c : α} (hab : lt a b)
    (hcb : ¬ lt c b) : lt a c := by
  by_contra hac
  by_cases hca : lt c a
  · exact hcb (trans_of lt hca hab)
  · by_cases hbc : lt b c
    · exact hac (trans_of lt hab hbc)
    · exact (IsStrictWeakOrder.incomp_trans a c b ⟨hac, hca⟩ ⟨hcb, hbc⟩).1 hab

instance : IsTrans α (NotBelow lt) where
  trans a b c hab hbc := by
    intro hac
    exact hab (lt_of_lt_of_notBelow hac hbc)

instance : Std.Total (NotBelow lt) where
  total a b := by
    by_cases hab : lt a b
    · exact .inr fun hba => irrefl_of lt a (trans_of lt hab hba)
    · exact .inl hab

variable (lt) in
/-- Lists sorted with a maximal element in front. -/
def SortedList : Type u :=
  { l : List α // l.Pairwise (NotBelow lt) }

/-- An element that is not below the head can take its place. -/
theorem pairwise_setHead {a b : α} {l : List α}
    (h : (a :: l).Pairwise (NotBelow lt)) (hba : ¬ lt b a) :
    (b :: l).Pairwise (NotBelow lt) := by
  obtain ⟨hhead, htail⟩ := List.pairwise_cons.mp h
  refine List.pairwise_cons.mpr ⟨?_, htail⟩
  intro c hc hbc
  exact hba (lt_of_lt_of_notBelow hbc (hhead c hc))

variable (lt) in
/-- The heap that keeps its elements in a sorted list. -/
def sortedListHeap [DecidableRel lt] : MaxHeap (SortedList lt) α lt where
  elems h := h.1
  empty := ⟨[], List.Pairwise.nil⟩
  push a h := ⟨h.1.orderedInsert (NotBelow lt) a, h.2.orderedInsert a _⟩
  top h := h.1.head?
  setTop b h :=
    match h with
    | ⟨[], hs⟩ => ⟨[], hs⟩
    | ⟨a :: l, hs⟩ =>
        if hab : ¬ lt a b ∧ ¬ lt b a then ⟨b :: l, pairwise_setHead hs hab.2⟩
        else ⟨a :: l, hs⟩
  pop h := ⟨h.1.tail, h.2.tail⟩
  size h := h.1.length
  elems_empty := rfl
  elems_push a h := by
    show ((h.1.orderedInsert (NotBelow lt) a : List α) : Multiset α) = a ::ₘ ↑h.1
    rw [Multiset.cons_coe]
    exact Multiset.coe_eq_coe.mpr (h.1.perm_orderedInsert _ a)
  size_eq _ := rfl
  top_eq_none h := by
    rw [List.head?_eq_none_iff]
    exact (Multiset.coe_eq_zero _).symm
  top_mem h a htop := List.mem_of_mem_head? htop
  top_max h a htop b hb := by
    obtain ⟨l, hs⟩ := h
    cases l with
    | nil => cases htop
    | cons c l =>
        obtain rfl : c = a := by simpa using htop
        rcases List.mem_cons.mp (Multiset.mem_coe.mp hb) with rfl | hb
        · exact irrefl_of lt _
        · exact List.rel_of_pairwise_cons hs hb
  elems_pop h a b htop hab hba := by
    obtain ⟨l, hs⟩ := h
    cases l with
    | nil => cases htop
    | cons c l =>
        obtain rfl : c = a := by simpa using htop
        simp [hab, hba]

end MaxHeap

section StableHistory

variable {φ : Type u} {π : Type v} [LT π]

/-- Operations of a priority queue, a pop carrying the entry it returns. -/
inductive PriorityOp (φ : Type u) (π : Type v) where
  | push (value : φ) (priority : π)
  | pop (value : φ) (priority : π)

/--
`StableHistory h q`: `h` is legal from the empty queue and leaves the entries
`q`, the earliest first.  A pop takes an entry such that every earlier one has a
lower priority and no later one has a higher priority.
-/
inductive StableHistory : List (PriorityOp φ π) → List (φ × π) → Prop
  | nil : StableHistory [] []
  | push {h : List (PriorityOp φ π)} {q : List (φ × π)} (value : φ) (priority : π)
      (hist : StableHistory h q) :
      StableHistory (h ++ [.push value priority]) (q ++ [(value, priority)])
  | pop {h : List (PriorityOp φ π)} {pre post : List (φ × π)} (value : φ)
      (priority : π) (hist : StableHistory h (pre ++ (value, priority) :: post))
      (earlier : ∀ e ∈ pre, e.2 < priority)
      (later : ∀ e ∈ post, ¬ priority < e.2) :
      StableHistory (h ++ [.pop value priority]) (pre ++ post)

end StableHistory

end AsyncTaskEngine
