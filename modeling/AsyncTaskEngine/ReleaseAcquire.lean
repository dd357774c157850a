import Mathlib.Logic.Function.Basic
import Mathlib.Order.Basic

/-!
# Release and acquire

An operational model of the relaxed, acquire and release accesses of a weak
memory.  Atomic locations `A` keep every value ever stored, each at a time in
the modification order of the location; plain locations `D` are accessed
without atomics, and only the number of their accesses is kept.  A thread has a
*view*: the newest store of each atomic location, and the accesses of each
plain location, that it knows of.

* A load may return any store that is not older than the view.
* A release store may take any free time after the view, and carries the view.
* An acquire load takes over the view that the store it reads carries.
* A read-modify-write reads a store and writes next to it; it carries on what
  that store carries.

An access of a plain location is free of a race when the thread knows every
earlier access.  What a thread has to know in order to say so is `UpToDate`,
and the rules of this file are about how that knowledge is handed on: a thread
that is up to date may access the location (`UpToDate.access`); its release
store makes the newest message vouch for all accesses (`UpToDate.release`); an
acquire load of that message brings the next thread up to date
(`Newest.acquire`).
-/

namespace AsyncTaskEngine
namespace ReleaseAcquire

universe u v w x

/-- What a thread knows of. -/
structure View (A : Type v) (D : Type w) where
  time : A → Nat
  known : D → Nat

/-- A store, with the view that an acquire load of it takes over. -/
structure Message (A : Type v) (D : Type w) (V : Type x) where
  value : V
  view : View A D

/-- The stores of the atomic locations, the accesses of the plain ones, the views. -/
structure Memory (ι : Type u) (A : Type v) (D : Type w) (V : Type x) where
  store : A → Nat → Option (Message A D V)
  accesses : D → Nat
  view : ι → View A D

variable {ι : Type u} {A : Type v} {D : Type w} {V : Type x}

namespace View

/-- Take over another view. -/
def join (v w : View A D) : View A D where
  time a := max (v.time a) (w.time a)
  known d := max (v.known d) (w.known d)

@[simp] theorem join_time (v w : View A D) (a : A) :
    (v.join w).time a = max (v.time a) (w.time a) := rfl

@[simp] theorem join_known (v w : View A D) (d : D) :
    (v.join w).known d = max (v.known d) (w.known d) := rfl

/-- Know of the store of `a` at time `ts`. -/
def see [DecidableEq A] (v : View A D) (a : A) (ts : Nat) : View A D :=
  { v with time := Function.update v.time a (max (v.time a) ts) }

section See

variable [DecidableEq A] (v : View A D) (a : A) (ts : Nat)

@[simp] theorem see_known : (v.see a ts).known = v.known := rfl

@[simp] theorem see_self : (v.see a ts).time a = max (v.time a) ts := by
  simp [see]

theorem le_see (b : A) : v.time b ≤ (v.see a ts).time b := by
  by_cases hb : b = a
  · subst hb
    rw [see_self]
    exact Nat.le_max_left _ _
  · simp [see, hb]

end See

end View

/-- The initial memory: one store of each location, known to every thread. -/
def Memory.initial (value : A → V) : Memory ι A D V where
  store a ts := if ts = 0 then some ⟨value a, ⟨fun _ => 0, fun _ => 0⟩⟩ else none
  accesses _ := 0
  view _ := ⟨fun _ => 0, fun _ => 0⟩

namespace Memory

variable [DecidableEq ι] [DecidableEq A] [DecidableEq D]

/-- Change the view of a thread. -/
def setView (μ : Memory ι A D V) (t : ι) (v : View A D) : Memory ι A D V :=
  { μ with view := Function.update μ.view t v }

/-- Add a store. -/
def setStore (μ : Memory ι A D V) (a : A) (ts : Nat) (m : Message A D V) :
    Memory ι A D V :=
  { μ with store := Function.update μ.store a (Function.update (μ.store a) ts (some m)) }

/-- The store of `a` at time `ts`, unless thread `t` knows of a newer one. -/
def readable (μ : Memory ι A D V) (t : ι) (a : A) (ts : Nat) :
    Option (Message A D V) :=
  if (μ.view t).time a ≤ ts then μ.store a ts else none

/-- A relaxed load. -/
def loadRelaxed (μ : Memory ι A D V) (t : ι) (a : A) (ts : Nat) :
    Option (V × Memory ι A D V) :=
  (μ.readable t a ts).map fun m =>
    (m.value, μ.setView t ((μ.view t).see a ts))

/-- An acquire load. -/
def loadAcquire (μ : Memory ι A D V) (t : ι) (a : A) (ts : Nat) :
    Option (V × Memory ι A D V) :=
  (μ.readable t a ts).map fun m =>
    (m.value, μ.setView t (((μ.view t).see a ts).join m.view))

/-- A release store at a time that is still free. -/
def storeRelease (μ : Memory ι A D V) (t : ι) (a : A) (ts : Nat) (value : V) :
    Option (Memory ι A D V) :=
  if (μ.view t).time a < ts ∧ (μ.store a ts).isNone then
    let v := (μ.view t).see a ts
    some ((μ.setView t v).setStore a ts ⟨value, v⟩)
  else none

/-- A relaxed read-modify-write of the store at time `ts`, which must be the last
one before a free time. -/
def exchangeRelaxed (μ : Memory ι A D V) (t : ι) (a : A) (ts : Nat) (value : V) :
    Option (Memory ι A D V) :=
  (μ.readable t a ts).bind fun m =>
    if (μ.store a (ts + 1)).isNone then
      some ((μ.setView t ((μ.view t).see a (ts + 1))).setStore a (ts + 1)
        ⟨value, m.view.see a (ts + 1)⟩)
    else none

/-- An access of a plain location. -/
def access (μ : Memory ι A D V) (t : ι) (d : D) : Memory ι A D V where
  store := μ.store
  accesses := Function.update μ.accesses d (μ.accesses d + 1)
  view := Function.update μ.view t
    { μ.view t with known := Function.update (μ.view t).known d (μ.accesses d + 1) }

/-- Every access of `d` so far happened before whatever thread `t` does next. -/
def RaceFree (μ : Memory ι A D V) (t : ι) (d : D) : Prop :=
  (μ.view t).known d = μ.accesses d

end Memory

section Rules

variable {μ μ' : Memory ι A D V} {t : ι} {a : A} {d : D} {ts : Nat} {m : Message A D V}

/-- No view knows of accesses that have not been made. -/
structure Bounded (μ : Memory ι A D V) : Prop where
  view : ∀ t d, (μ.view t).known d ≤ μ.accesses d
  message : ∀ a ts m, μ.store a ts = some m → ∀ d, m.view.known d ≤ μ.accesses d

/-- `μ'` comes after `μ`, with stores at `as` and accesses at `ds` only. -/
structure Later (μ μ' : Memory ι A D V) (as : A → Prop) (ds : D → Prop) : Prop where
  time : ∀ t a, (μ.view t).time a ≤ (μ'.view t).time a
  known : ∀ t d, (μ.view t).known d ≤ (μ'.view t).known d
  store : ∀ a, ¬ as a → μ'.store a = μ.store a
  accesses : ∀ d, ¬ ds d → μ'.accesses d = μ.accesses d
  bounded : Bounded μ'

/-- Thread `t` knows every store of `a` and every access of `d`. -/
structure UpToDate (μ : Memory ι A D V) (t : ι) (a : A) (d : D) : Prop where
  stores : ∀ ts m, μ.store a ts = some m → ts ≤ (μ.view t).time a
  accesses : μ.RaceFree t d

/-- The last store of `a` in modification order. -/
structure Newest (μ : Memory ι A D V) (a : A) (ts : Nat) (m : Message A D V) : Prop where
  store : μ.store a ts = some m
  last : ∀ ts' m', μ.store a ts' = some m' → ts' ≤ ts

/-- The stores of `a` are numbered by their times up to `n`, with the values `f`. -/
def Counts (μ : Memory ι A D V) (a : A) (f : Nat → V) (n : Nat) : Prop :=
  ∀ ts, (μ.store a ts).map Message.value = if ts ≤ n then some (f ts) else none

theorem bounded_initial (value : A → V) : Bounded (Memory.initial value : Memory ι A D V) where
  view _ _ := Nat.le_refl _
  message a ts m hm d := by
    simp only [Memory.initial] at hm
    split at hm
    · cases hm
      exact Nat.le_refl _
    · cases hm

theorem newest_initial (value : A → V) (a : A) :
    Newest (Memory.initial value : Memory ι A D V) a 0
      ⟨value a, ⟨fun _ => 0, fun _ => 0⟩⟩ where
  store := rfl
  last ts m hm := by
    simp only [Memory.initial] at hm
    split at hm
    · omega
    · cases hm

theorem counts_initial (value : A → V) (a : A) {f : Nat → V} (hf : value a = f 0) :
    Counts (Memory.initial value : Memory ι A D V) a f 0 := by
  intro ts
  by_cases hts : ts = 0
  · subst hts
    simp [Memory.initial, hf]
  · simp [Memory.initial, hts]

/-- Knowledge is kept while nothing happens at the locations it is about. -/
theorem UpToDate.later {as : A → Prop} {ds : D → Prop} (h : UpToDate μ t a d)
    (hl : Later μ μ' as ds) (ha : ¬ as a) (hd : ¬ ds d) : UpToDate μ' t a d := by
  constructor
  · intro ts m hm
    rw [hl.store a ha] at hm
    exact Nat.le_trans (h.stores ts m hm) (hl.time t a)
  · have hge := hl.known t d
    have hle := hl.bounded.view t d
    rw [h.accesses] at hge
    have hsame := hl.accesses d hd
    unfold Memory.RaceFree
    omega

theorem Newest.later {as : A → Prop} {ds : D → Prop} (h : Newest μ a ts m)
    (hl : Later μ μ' as ds) (ha : ¬ as a) : Newest μ' a ts m := by
  refine ⟨?_, ?_⟩
  · rw [hl.store a ha]
    exact h.store
  · rw [hl.store a ha]
    exact h.last

theorem Counts.later {as : A → Prop} {ds : D → Prop} {f : Nat → V} {n : Nat}
    (h : Counts μ a f n) (hl : Later μ μ' as ds) (ha : ¬ as a) : Counts μ' a f n := by
  intro k
  rw [hl.store a ha]
  exact h k

/-- There is one newest store. -/
theorem Newest.unique {ts' : Nat} {m' : Message A D V} (h : Newest μ a ts m)
    (h' : Newest μ a ts' m') : ts' = ts ∧ m' = m := by
  have hle := h.last ts' m' h'.store
  have hge := h'.last ts m h.store
  obtain rfl : ts' = ts := Nat.le_antisymm hle hge
  exact ⟨rfl, Option.some.inj (h'.store.symm.trans h.store)⟩

/-- A load of a counter returns one of its numbers. -/
theorem Counts.read {f : Nat → V} {n : Nat} (h : Counts μ a f n)
    (hm : μ.store a ts = some m) : ts ≤ n ∧ m.value = f ts := by
  have hts := h ts
  rw [hm] at hts
  split at hts
  · next hle => exact ⟨hle, Option.some.inj hts⟩
  · cases hts

/-- The newest store of a counter is its last number. -/
theorem Counts.newest {f : Nat → V} {n : Nat} (h : Counts μ a f n) :
    ∃ m, Newest μ a n m ∧ m.value = f n := by
  have hn := h n
  rw [if_pos (Nat.le_refl n)] at hn
  obtain ⟨m, hm, hvalue⟩ := Option.map_eq_some_iff.mp hn
  exact ⟨m, ⟨hm, fun _ _ hm' => (h.read hm').1⟩, hvalue⟩

theorem readable_iff :
    μ.readable t a ts = some m ↔ (μ.view t).time a ≤ ts ∧ μ.store a ts = some m := by
  simp [Memory.readable]

variable [DecidableEq ι]

/-- A thread that learns about existing stores and accesses leaves the rest alone. -/
theorem later_setView {v : View A D} (hb : Bounded μ)
    (htime : ∀ a, (μ.view t).time a ≤ v.time a)
    (hknown : ∀ d, (μ.view t).known d ≤ v.known d)
    (hbound : ∀ d, v.known d ≤ μ.accesses d) :
    Later μ (μ.setView t v) (fun _ => False) (fun _ => False) := by
  refine ⟨?_, ?_, fun _ _ => rfl, fun _ _ => rfl, ?_, hb.message⟩
  · intro u b
    by_cases hu : u = t
    · subst hu
      simpa [Memory.setView] using htime b
    · simp [Memory.setView, hu]
  · intro u e
    by_cases hu : u = t
    · subst hu
      simpa [Memory.setView] using hknown e
    · simp [Memory.setView, hu]
  · intro u e
    by_cases hu : u = t
    · subst hu
      simpa [Memory.setView] using hbound e
    · simpa [Memory.setView, hu] using hb.view u e

variable [DecidableEq A]

omit [DecidableEq ι] in
/-- A new store of `a` leaves the other locations alone. -/
theorem Later.setStore {as : A → Prop} {ds : D → Prop} (hl : Later μ μ' as ds)
    (a : A) (ts : Nat) (hm : ∀ d, m.view.known d ≤ μ'.accesses d) :
    Later μ (μ'.setStore a ts m) (fun b => as b ∨ b = a) ds := by
  refine ⟨hl.time, hl.known, ?_, hl.accesses, hl.bounded.view, ?_⟩
  · intro b hb
    have hba : b ≠ a := fun h => hb (.inr h)
    rw [← hl.store b fun h => hb (.inl h)]
    simp [Memory.setStore, hba]
  · intro b ts' m' hm' d
    by_cases hb : b = a
    · subst hb
      by_cases hts : ts' = ts
      · subst hts
        simp only [Memory.setStore, Function.update_self, Option.some.injEq] at hm'
        subst hm'
        exact hm d
      · simp only [Memory.setStore, Function.update_self, Function.update_of_ne hts] at hm'
        exact hl.bounded.message _ _ _ hm' d
    · simp only [Memory.setStore, Function.update_of_ne hb] at hm'
      exact hl.bounded.message _ _ _ hm' d

/-- A relaxed load returns a store that is not older than the view. -/
theorem loadRelaxed_spec {value : V} (hb : Bounded μ)
    (h : μ.loadRelaxed t a ts = some (value, μ')) :
    (∃ m, μ.store a ts = some m ∧ m.value = value) ∧
      Later μ μ' (fun _ => False) (fun _ => False) := by
  obtain ⟨m, hm, heq⟩ := Option.map_eq_some_iff.mp h
  obtain ⟨rfl, rfl⟩ := Prod.mk.inj heq
  obtain ⟨_, hstore⟩ := readable_iff.mp hm
  refine ⟨⟨m, hstore, rfl⟩, later_setView hb ?_ ?_ ?_⟩
  · exact View.le_see _ _ _
  · exact fun _ => Nat.le_refl _
  · exact hb.view t

/-- An acquire load moreover takes over what the store carries. -/
theorem loadAcquire_spec {value : V} (hb : Bounded μ)
    (h : μ.loadAcquire t a ts = some (value, μ')) :
    ∃ m, μ.store a ts = some m ∧ m.value = value ∧
      Later μ μ' (fun _ => False) (fun _ => False) ∧
        ts ≤ (μ'.view t).time a ∧ ∀ d, m.view.known d ≤ (μ'.view t).known d := by
  obtain ⟨m, hm, heq⟩ := Option.map_eq_some_iff.mp h
  obtain ⟨rfl, rfl⟩ := Prod.mk.inj heq
  obtain ⟨_, hstore⟩ := readable_iff.mp hm
  refine ⟨m, hstore, rfl, later_setView hb ?_ ?_ ?_, ?_, ?_⟩
  · intro b
    exact Nat.le_trans (View.le_see _ _ _ b) (Nat.le_max_left _ _)
  · intro d
    exact Nat.le_max_left _ _
  · intro d
    exact Nat.max_le.mpr ⟨hb.view t d, hb.message _ _ _ hstore d⟩
  · simp only [Memory.setView, Function.update_self, View.join_time, View.see_self]
    omega
  · intro d
    simp only [Memory.setView, Function.update_self, View.join_known]
    exact Nat.le_max_right _ _

/-- An acquire load of the newest store brings a thread up to date about what
that store vouches for. -/
theorem Newest.acquire {value : V} (hn : Newest μ a ts m) (hb : Bounded μ)
    (hd : m.view.known d = μ.accesses d)
    (h : μ.loadAcquire t a ts = some (value, μ')) : UpToDate μ' t a d := by
  obtain ⟨m', hm', _, hl, htime, hknown⟩ := loadAcquire_spec hb h
  obtain rfl : m' = m := Option.some.inj (hm'.symm.trans hn.store)
  constructor
  · intro ts' m₁ hm₁
    rw [hl.store a fun h => h] at hm₁
    exact Nat.le_trans (hn.last _ _ hm₁) htime
  · have hle := hl.bounded.view t d
    have hge := hknown d
    have hsame := hl.accesses d fun h => h
    unfold Memory.RaceFree
    omega

/-- A release store. -/
theorem storeRelease_spec {value : V} (hb : Bounded μ)
    (h : μ.storeRelease t a ts value = some μ') :
    Later μ μ' (fun b => b = a) (fun _ => False) ∧
      ∃ m, m.value = value ∧ (∀ d, m.view.known d = (μ.view t).known d) ∧
        (μ.view t).time a < ts ∧
        μ'.store a = Function.update (μ.store a) ts (some m) := by
  rw [Memory.storeRelease] at h
  split at h
  · next hfree =>
      obtain rfl := Option.some.inj h
      refine ⟨?_, ⟨value, (μ.view t).see a ts⟩, rfl, fun _ => rfl, hfree.1,
        by simp [Memory.setStore, Memory.setView]⟩
      have hview : Later μ (μ.setView t ((μ.view t).see a ts)) (fun _ => False)
          (fun _ => False) :=
        later_setView hb (View.le_see _ _ _) (fun _ => Nat.le_refl _) (hb.view t)
      have hl := hview.setStore a ts (m := ⟨value, (μ.view t).see a ts⟩) (hb.view t)
      exact { hl with store := fun b hba => hl.store b fun hor => hba (hor.resolve_left id) }
  · cases h

/-- The release store of a thread that is up to date is the newest, and vouches
for every access. -/
theorem UpToDate.release {value : V} (hu : UpToDate μ t a d) (hb : Bounded μ)
    (h : μ.storeRelease t a ts value = some μ') :
    ∃ m, m.value = value ∧ Newest μ' a ts m ∧ m.view.known d = μ'.accesses d ∧
      μ'.store a = Function.update (μ.store a) ts (some m) := by
  obtain ⟨hl, m, hvalue, hknown, htime, hstore⟩ := storeRelease_spec hb h
  refine ⟨m, hvalue, ⟨?_, ?_⟩, ?_, hstore⟩
  · rw [hstore, Function.update_self]
  · intro ts' m' hm'
    rw [hstore] at hm'
    by_cases hts : ts' = ts
    · omega
    · rw [Function.update_of_ne hts] at hm'
      have := hu.stores _ _ hm'
      omega
  · rw [hknown, hl.accesses d fun h => h]
    exact hu.accesses

/-- A read-modify-write. -/
theorem exchangeRelaxed_spec {value : V} (hb : Bounded μ)
    (h : μ.exchangeRelaxed t a ts value = some μ') :
    Later μ μ' (fun b => b = a) (fun _ => False) ∧
      (∃ m, μ.store a ts = some m) ∧ μ.store a (ts + 1) = none ∧
        ∃ m, m.value = value ∧
          μ'.store a = Function.update (μ.store a) (ts + 1) (some m) := by
  obtain ⟨m, hm, h⟩ := Option.bind_eq_some_iff.mp h
  obtain ⟨_, hstore⟩ := readable_iff.mp hm
  split at h
  · next hfree =>
      obtain rfl := Option.some.inj h
      refine ⟨?_, ⟨m, hstore⟩, Option.isNone_iff_eq_none.mp hfree,
        ⟨value, m.view.see a (ts + 1)⟩, rfl, by simp [Memory.setStore, Memory.setView]⟩
      have hview : Later μ (μ.setView t ((μ.view t).see a (ts + 1))) (fun _ => False)
          (fun _ => False) :=
        later_setView hb (View.le_see _ _ _) (fun _ => Nat.le_refl _) (hb.view t)
      have hl := hview.setStore a (ts + 1) (m := ⟨value, m.view.see a (ts + 1)⟩)
        (hb.message a ts m hstore)
      exact { hl with store := fun b hba => hl.store b fun hor => hba (hor.resolve_left id) }
  · cases h

/-- A read-modify-write of a counter reads its last number. -/
theorem Counts.exchange {f : Nat → V} {n : Nat} {value : V} (hc : Counts μ a f n)
    (hb : Bounded μ) (h : μ.exchangeRelaxed t a ts value = some μ')
    (hvalue : value = f (ts + 1)) : ts = n ∧ Counts μ' a f (n + 1) := by
  obtain ⟨_, ⟨m, hm⟩, hnone, m', hm', hstore⟩ := exchangeRelaxed_spec hb h
  have hle := (hc.read hm).1
  have hlast : ¬ ts + 1 ≤ n := by
    intro hlt
    have := hc (ts + 1)
    rw [hnone, if_pos hlt] at this
    cases this
  obtain rfl : ts = n := by omega
  refine ⟨rfl, fun k => ?_⟩
  rw [hstore]
  by_cases hk : k = ts + 1
  · subst hk
    simp [hm', hvalue]
  · rw [Function.update_of_ne hk, hc k]
    have hiff : k ≤ ts ↔ k ≤ ts + 1 := by omega
    simp only [hiff]

variable [DecidableEq D]

omit [DecidableEq A] in
/-- An access of a plain location leaves the other locations alone. -/
theorem later_access (hb : Bounded μ) :
    Later μ (μ.access t d) (fun _ => False) (fun e => e = d) := by
  refine ⟨?_, ?_, fun _ _ => rfl, ?_, ?_, ?_⟩
  · intro u b
    by_cases hu : u = t
    · subst hu
      simp [Memory.access]
    · simp [Memory.access, hu]
  · intro u e
    by_cases hu : u = t
    · subst hu
      by_cases he : e = d
      · subst he
        have := hb.view u e
        simp only [Memory.access, Function.update_self]
        omega
      · simp [Memory.access, he]
    · simp [Memory.access, hu]
  · intro e he
    simp [Memory.access, he]
  · intro u e
    have hle := hb.view u e
    by_cases he : e = d
    · subst he
      by_cases hu : u = t
      · subst hu
        simp [Memory.access]
      · simp only [Memory.access, Function.update_self, Function.update_of_ne hu]
        omega
    · by_cases hu : u = t
      · subst hu
        simpa [Memory.access, he] using hle
      · simpa [Memory.access, he, hu] using hle
  · intro b ts m hm e
    have hle := hb.message b ts m hm e
    by_cases he : e = d
    · subst he
      simp only [Memory.access, Function.update_self]
      omega
    · simpa [Memory.access, he] using hle

omit [DecidableEq A] in
/-- After its own access a thread is still up to date. -/
theorem UpToDate.access (hu : UpToDate μ t a d) : UpToDate (μ.access t d) t a d := by
  constructor
  · intro ts m hm
    have := hu.stores ts m hm
    simpa [Memory.access] using this
  · simp [Memory.RaceFree, Memory.access]

end Rules

end ReleaseAcquire
end AsyncTaskEngine
