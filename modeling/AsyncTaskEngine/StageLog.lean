import Mathlib.Data.List.Induction
import Mathlib.Data.List.Nodup

/-!
# Logs of stages

A process runs through a fixed list of stages while a log records the stages of
many processes.  If no entry occurs twice, and a stage is recorded only after the
stage before it, then what the log says about the process is an initial segment
of the list of its stages.
-/

namespace AsyncTaskEngine

universe u

variable {α : Type u} {log stages : List α}

/-- A stage is recorded only after the stage before it. -/
def StagesInOrder (stages log : List α) : Prop :=
  ∀ j (h : j + 1 < stages.length) pre post, log = pre ++ stages[j + 1] :: post →
    stages[j] ∈ pre

/-- What holds of a log holds of every earlier log. -/
theorem StagesInOrder.of_append {es : List α} (h : StagesInOrder stages (log ++ es)) :
    StagesInOrder stages log := by
  intro j hj pre post hlog
  refine h j hj pre (post ++ es) ?_
  rw [hlog, List.append_assoc, List.cons_append]

variable [DecidableEq α]

/-- The part of the log that belongs to the process. -/
def recorded (stages log : List α) : List α :=
  log.filter fun a => decide (a ∈ stages)

theorem mem_recorded {a : α} : a ∈ recorded stages log ↔ a ∈ log ∧ a ∈ stages := by
  simp [recorded]

/-- Of an initial segment of recorded stages exactly its stages are in the log. -/
theorem getElem_mem_iff_of_recorded (hstages : stages.Nodup) {m : Nat}
    (hm : recorded stages log = stages.take m) {i : Nat} (hi : i < stages.length) :
    stages[i] ∈ log ↔ i < m := by
  have hrec : stages[i] ∈ log ↔ stages[i] ∈ stages.take m := by
    rw [← hm, mem_recorded]
    simp
  rw [hrec, List.mem_take_iff_getElem]
  constructor
  · rintro ⟨i', hi', heq⟩
    have hlen : i' < stages.length := by omega
    have : i' = i := hstages.getElem_inj_iff.mp heq
    omega
  · exact fun h => ⟨i, by omega, rfl⟩

/-- The recorded stages are an initial segment. -/
theorem exists_recorded_eq_take (hstages : stages.Nodup) (hlog : log.Nodup)
    (horder : StagesInOrder stages log) : ∃ m, recorded stages log = stages.take m := by
  induction log using List.reverseRecOn with
  | nil => exact ⟨0, rfl⟩
  | append_singleton log a ih =>
      obtain ⟨hlog', _, hdisjoint⟩ := List.nodup_append.mp hlog
      have hnew : a ∉ log := fun ha => hdisjoint a ha a (List.mem_singleton_self a) rfl
      obtain ⟨m, hm⟩ := ih hlog' horder.of_append
      have hmem : ∀ i (h : i < stages.length), stages[i] ∈ log ↔ i < m :=
        fun i hi => getElem_mem_iff_of_recorded hstages hm hi
      by_cases ha : a ∈ stages
      · -- The new entry is the stage after the last recorded one.
        obtain ⟨j, hj, rfl⟩ := List.getElem_of_mem ha
        have hle : m ≤ j := by
          by_contra hlt
          exact hnew ((hmem j hj).mpr (by omega))
        have hge : j ≤ m := by
          cases j with
          | zero => exact Nat.zero_le m
          | succ j =>
              have := horder j hj log [] rfl
              exact (hmem j (by omega)).mp this
        obtain rfl := Nat.le_antisymm hle hge
        refine ⟨m + 1, ?_⟩
        rw [List.take_succ_eq_append_getElem hj, ← hm]
        simp [recorded]
      · refine ⟨m, ?_⟩
        rw [← hm]
        simp [recorded, ha]

/-- The recorded stages, when it is known how far the process has come. -/
theorem recorded_eq_take (hstages : stages.Nodup) (hlog : log.Nodup)
    (horder : StagesInOrder stages log) {n : Nat}
    (hn : ∀ j (h : j < stages.length), stages[j] ∈ log ↔ j < n) :
    recorded stages log = stages.take n := by
  obtain ⟨m, hm⟩ := exists_recorded_eq_take hstages hlog horder
  rw [hm, List.take_eq_take_iff]
  have hiff : ∀ j, j < stages.length → (j < m ↔ j < n) := fun j hj =>
    (getElem_mem_iff_of_recorded hstages hm hj).symm.trans (hn j hj)
  rcases Nat.lt_trichotomy m n with hlt | heq | hlt
  · have := hiff m
    omega
  · rw [heq]
  · have := hiff n
    omega

end AsyncTaskEngine
