import Mathlib.Algebra.BigOperators.Group.Finset.Basic
import Mathlib.Algebra.GroupWithZero.Nat
import Mathlib.Algebra.Order.BigOperators.Group.Finset
import Mathlib.Data.Fintype.Basic

/-!
# Totals over the threads of a system

A weight is attached to what a thread is doing, and `total` adds it up over all
threads.  A step of one thread changes a total by the difference of two weights.
-/

namespace AsyncTaskEngine

universe u v

variable {ι : Type u} {β : Type v} [Fintype ι]

/-- The sum of the weight `g` over what the threads are doing. -/
def total (g : β → Nat) (f : ι → β) : Nat :=
  Finset.univ.sum fun t => g (f t)

theorem total_mono {g h : β → Nat} {f k : ι → β} (hle : ∀ t, g (f t) ≤ h (k t)) :
    total g f ≤ total h k :=
  Finset.sum_le_sum fun t _ => hle t

theorem total_congr {g h : β → Nat} {f k : ι → β} (heq : ∀ t, g (f t) = h (k t)) :
    total g f = total h k :=
  Finset.sum_congr rfl fun t _ => heq t

/-- The weight of a single thread is part of the total. -/
theorem le_total (g : β → Nat) (f : ι → β) (t : ι) : g (f t) ≤ total g f :=
  Finset.single_le_sum (f := fun u => g (f u)) (fun _ _ => Nat.zero_le _)
    (Finset.mem_univ t)

theorem total_eq_zero_iff {g : β → Nat} {f : ι → β} :
    total g f = 0 ↔ ∀ t, g (f t) = 0 := by
  simp [total]

/-- A positive total has a thread that contributes to it. -/
theorem exists_of_total_pos {g : β → Nat} {f : ι → β} (h : 0 < total g f) :
    ∃ t, 0 < g (f t) := by
  by_contra hno
  have hzero : ∀ t, g (f t) = 0 := by
    intro t
    by_contra hne
    exact hno ⟨t, Nat.pos_of_ne_zero hne⟩
  rw [total_eq_zero_iff.mpr hzero] at h
  exact Nat.lt_irrefl 0 h

variable [DecidableEq ι]

/-- A step of one thread exchanges its old weight for its new one. -/
theorem total_update (g : β → Nat) (f : ι → β) (t : ι) (x : β) :
    total g (Function.update f t x) + g (f t) = total g f + g x := by
  have hnew := Finset.add_sum_erase Finset.univ
    (fun u => g (Function.update f t x u)) (Finset.mem_univ t)
  have hold := Finset.add_sum_erase Finset.univ (fun u => g (f u)) (Finset.mem_univ t)
  have hrest : (Finset.univ.erase t).sum (fun u => g (Function.update f t x u)) =
      (Finset.univ.erase t).sum fun u => g (f u) := by
    refine Finset.sum_congr rfl fun u hu => ?_
    rw [Function.update_of_ne (Finset.ne_of_mem_erase hu)]
  simp only [Function.update_self] at hnew
  rw [total, total, ← hnew, ← hold, hrest]
  omega

/-- A step of one thread, during which the weights of the others rise by `r` at most. -/
theorem total_le_of_rise (g : β → Nat) {f k : ι → β} (t : ι) (r : ι → Nat)
    (hrise : ∀ u, u ≠ t → g (k u) ≤ g (f u) + r u) :
    total g k + g (f t) ≤ total g f + g (k t) + Finset.univ.sum r := by
  have hnew := Finset.add_sum_erase Finset.univ (fun u => g (k u)) (Finset.mem_univ t)
  have hold := Finset.add_sum_erase Finset.univ (fun u => g (f u)) (Finset.mem_univ t)
  have hrest : (Finset.univ.erase t).sum (fun u => g (k u)) ≤
      (Finset.univ.erase t).sum (fun u => g (f u)) + (Finset.univ.erase t).sum r := by
    rw [← Finset.sum_add_distrib]
    exact Finset.sum_le_sum fun u hu => hrise u (Finset.ne_of_mem_erase hu)
  have hpart : (Finset.univ.erase t).sum r ≤ Finset.univ.sum r :=
    Finset.sum_le_sum_of_subset (Finset.erase_subset t Finset.univ)
  rw [total, total]
  omega

end AsyncTaskEngine
