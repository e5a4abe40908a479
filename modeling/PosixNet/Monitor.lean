import PosixNet.CondVar
import PosixNet.LabelledRun

/-!
# Monitors

Threads that share data under a mutex, and sleep on condition variables.  What a thread
does between two moments without the mutex is one **region**: a function of the place the
thread is at and of the shared data, whose `Outcome` is the data and the place after it,
whom it notifies, and whether it ends in `pthread_cond_wait`.  A thread that is woken is
back at the place it went to sleep at, and has to get the mutex again.

A client decides which region a thread enters next (`α`); a program that leaves no choice
has one region for every place.

* `Moves` is all a step can do; a step changes the place of one thread, so sums over the
  threads change by what that thread counts for (`Moves.total`).
* **`Moves.answered`**, the rule of `pthread_cond_broadcast`: if whoever makes a condition
  true wakes all that sleep for it, nobody sleeps while it is true.
* **`Moves.attended`**, the rule of `pthread_cond_signal`: if whoever makes a condition true,
  or finds it true when woken and leaves it so, wakes one of those that sleep for it, nobody
  sleeps while it is true but with a thread on its way that was woken for it.
-/
namespace PosixNet

/-- What a region does to the threads that sleep. -/
inductive Notice (κ : Type) where
  | quiet
  | signal (c : κ)
  | broadcast (c : κ)
  deriving DecidableEq

/-- With these `waiters`, the threads in `woken` may be the ones that are woken. -/
def Notice.Wakes {κ T : Type} (cv : CondVar) (waiters : κ → Finset T) (woken : Finset T) :
    Notice κ → Prop
  | .quiet => woken = ∅
  | .signal c => cv.Wakes (waiters c) woken
  | .broadcast c => woken = waiters c

instance {κ T : Type} [DecidableEq T] (cv : CondVar) (waiters : κ → Finset T) (woken : Finset T)
    (n : Notice κ) : Decidable (n.Wakes cv waiters woken) :=
  match n with
  | .quiet => inferInstanceAs (Decidable (woken = ∅))
  | .signal c => inferInstanceAs (Decidable (cv.Wakes (waiters c) woken))
  | .broadcast c => inferInstanceAs (Decidable (woken = waiters c))

/-- A notification can always be delivered. -/
theorem Notice.exists_wakes {κ T : Type} (cv : CondVar) (waiters : κ → Finset T) (n : Notice κ) :
    ∃ woken, n.Wakes cv waiters woken :=
  match n with
  | .quiet => ⟨∅, rfl⟩
  | .signal c => cv.exists_wakes (waiters c)
  | .broadcast c => ⟨waiters c, rfl⟩

/-- A broadcast wakes all. -/
theorem Notice.subset_of_broadcast {κ T : Type} {cv : CondVar} {waiters : κ → Finset T} {c : κ}
    {woken : Finset T} (h : (Notice.broadcast c).Wakes cv waiters woken) : waiters c ⊆ woken :=
  (show woken = waiters c from h).ge

/-- A signal wakes all, if one thread sleeps at most. -/
theorem Notice.subset_of_signal {κ T : Type} {cv : CondVar} {waiters : κ → Finset T} {c : κ}
    {woken : Finset T} (h : (Notice.signal c).Wakes cv waiters woken)
    (hone : ∀ i ∈ waiters c, ∀ j ∈ waiters c, i = j) : waiters c ⊆ woken := by
  intro i hi
  have hwakes : cv.Wakes (waiters c) woken := h
  obtain ⟨j, hj⟩ := hwakes.nonempty ⟨i, hi⟩
  rwa [hone i hi j (hwakes.subset hj)]

/-- How a region ends. -/
structure Outcome (κ σ ρ : Type) where
  shared : σ
  place : ρ
  notify : Notice κ := .quiet
  /-- `pthread_cond_wait`, on this condition variable. -/
  sleep : Option κ := none

/-- The region that a thread at this place enters, if it may; `ε` is what it did. -/
abbrev Monitor (α ε κ σ ρ : Type) := α → ρ → σ → Option (ε × Outcome κ σ ρ)

/-- The shared data, where every thread is, and on which condition variable it sleeps. -/
structure Threads (ι κ σ ρ : Type) where
  shared : σ
  place : ι → ρ
  asleep : ι → Option κ

namespace Monitor
variable {ι α ε κ σ ρ : Type} [Fintype ι] [DecidableEq ι] [DecidableEq κ]

/-- A scheduler's choice: the thread to run, and whom it wakes. -/
inductive Act (ι α : Type) where
  | run (i : ι) (a : α) (woken : Finset ι)
  | awake (i : ι)

/-- What a thread did. -/
inductive Event (ι ε : Type) where
  | did (i : ι) (e : ε)
  /-- `pthread_cond_wait` returned without a signal. -/
  | awoke (i : ι)
  deriving DecidableEq

end Monitor

namespace Threads
variable {ι κ σ ρ : Type} [Fintype ι] [DecidableEq ι] [DecidableEq κ] (t : Threads ι κ σ ρ)

/-- Everybody is awake. -/
def start (s : σ) (place : ι → ρ) : Threads ι κ σ ρ := ⟨s, place, fun _ => none⟩

/-- The threads that sleep on `c`. -/
def waiters (c : κ) : Finset ι := Finset.univ.filter fun i => t.asleep i = some c

/-- Thread `i` is done with its region. -/
def after (i : ι) (o : Outcome κ σ ρ) (woken : Finset ι) : Threads ι κ σ ρ where
  shared := o.shared
  place := Function.update t.place i o.place
  asleep := Function.update (fun j => if j ∈ woken then none else t.asleep j) i o.sleep

/-- Thread `i` wakes up. -/
def awaken (i : ι) : Threads ι κ σ ρ := { t with asleep := Function.update t.asleep i none }

/-- What the threads count for, together. -/
def total (w : ρ → ℕ) : ℕ := ∑ i, w (t.place i)

end Threads

namespace Monitor
variable {ι α ε κ σ ρ : Type} [Fintype ι] [DecidableEq ι] [DecidableEq κ]
  (M : Monitor α ε κ σ ρ) (cv : CondVar)

/-- A thread that is awake runs its region, and wakes as its notification says; one that sleeps may
wake by itself. -/
def exec : Act ι α → Threads ι κ σ ρ → Option (Event ι ε × Threads ι κ σ ρ)
  | .run i a woken, t =>
    if t.asleep i = none then
      match M a (t.place i) t.shared with
      | none => none
      | some (e, o) =>
        if o.notify.Wakes cv t.waiters woken then some (.did i e, t.after i o woken) else none
    else none
  | .awake i, t =>
    if cv.Spurious ∧ t.asleep i ≠ none then some (.awoke i, t.awaken i) else none

/-- A step of some thread, under some choice. -/
abbrev Step : Threads ι κ σ ρ → Event ι ε → Threads ι κ σ ρ → Prop := stepOf (exec M cv)

/-- **All that a step can do.** -/
inductive Moves (t : Threads ι κ σ ρ) : Event ι ε → Threads ι κ σ ρ → Prop
  | region (i : ι) (a : α) {e : ε} {o : Outcome κ σ ρ} (woken : Finset ι)
      (hawake : t.asleep i = none) (ho : M a (t.place i) t.shared = some (e, o))
      (hwoken : o.notify.Wakes cv t.waiters woken) : Moves t (.did i e) (t.after i o woken)
  | awoke (i : ι) (hcv : cv.Spurious) (hasleep : t.asleep i ≠ none) :
      Moves t (.awoke i) (t.awaken i)

variable {M cv} {t t' : Threads ι κ σ ρ} {e : Event ι ε}

theorem step_iff_moves : Step M cv t e t' ↔ Moves M cv t e t' := by
  constructor
  · rintro ⟨act, h⟩
    cases act with
    | run i a woken =>
      simp only [exec] at h
      split at h
      · rename_i hawake
        split at h
        · cases h
        · rename_i ho
          split at h
          · rename_i hwoken
            obtain ⟨rfl, rfl⟩ := Prod.mk.inj (Option.some.inj h)
            exact .region i a woken hawake ho hwoken
          · cases h
      · cases h
    | awake i =>
      simp only [exec] at h
      split at h
      · rename_i hi
        obtain ⟨rfl, rfl⟩ := Prod.mk.inj (Option.some.inj h)
        exact .awoke i hi.1 hi.2
      · cases h
  · intro h
    cases h with
    | region i a woken hawake ho hwoken =>
      exact ⟨.run i a woken, by simp only [exec, hawake, ho, hwoken, if_true]⟩
    | awoke i hcv hasleep => exact ⟨.awake i, if_pos ⟨hcv, hasleep⟩⟩

/-- A region that may be entered is a step. -/
theorem exists_step (cv : CondVar) {i : ι} {a : α} {e : ε} {o : Outcome κ σ ρ}
    (hawake : t.asleep i = none) (ho : M a (t.place i) t.shared = some (e, o)) :
    ∃ t', Step M cv t (.did i e) t' := by
  obtain ⟨woken, hwoken⟩ := o.notify.exists_wakes cv t.waiters
  exact ⟨_, step_iff_moves.mpr (.region i a woken hawake ho hwoken)⟩

/-- A thread whose place and data are known enters its region. -/
theorem reaches_region {i : ι} {a : α} {r : ρ} {s : σ} {e : ε} {o : Outcome κ σ ρ}
    (woken : Finset ι) (hr : t.place i = r) (hs : t.shared = s) (hawake : t.asleep i = none)
    (ho : M a r s = some (e, o)) (hwoken : o.notify.Wakes cv t.waiters woken) :
    Reaches (Step M cv) t (t.after i o woken) := by
  subst hr hs
  exact .single (step_iff_moves.mpr (.region i a woken hawake ho hwoken))

/-- Where nothing can happen, whoever is awake has no region to enter. -/
theorem terminal_region (h : Terminal (Step M cv) t) {i : ι} (hawake : t.asleep i = none)
    (a : α) : M a (t.place i) t.shared = none := by
  cases ho : M a (t.place i) t.shared with
  | none => rfl
  | some x =>
    obtain ⟨t', ht'⟩ := exists_step cv hawake ho
    exact absurd ht' (h _ _)

/-- Nothing can happen where everybody is awake and nobody has a region to enter. -/
theorem terminal_of (hawake : ∀ i, t.asleep i = none)
    (hregion : ∀ i a, M a (t.place i) t.shared = none) : Terminal (Step M cv) t := by
  intro e t' h
  cases step_iff_moves.mp h with
  | region i a woken _ ho _ =>
    rw [hregion i a] at ho
    cases ho
  | awoke i _ hasleep => exact hasleep (hawake i)

end Monitor

/-! ## One thread moves -/

namespace Threads
variable {ι κ σ ρ : Type} [DecidableEq ι] {t : Threads ι κ σ ρ} {i j : ι} {o : Outcome κ σ ρ}
  {woken : Finset ι} {c : κ}

@[simp] theorem after_shared : (t.after i o woken).shared = o.shared := rfl

@[simp] theorem after_place_self : (t.after i o woken).place i = o.place :=
  Function.update_self ..

theorem after_place_of_ne (h : j ≠ i) : (t.after i o woken).place j = t.place j :=
  Function.update_of_ne h ..

@[simp] theorem after_asleep_self : (t.after i o woken).asleep i = o.sleep := by simp [after]

theorem after_asleep_of_ne (h : j ≠ i) :
    (t.after i o woken).asleep j = if j ∈ woken then none else t.asleep j := by simp [after, h]

@[simp] theorem awaken_shared : (t.awaken i).shared = t.shared := rfl

@[simp] theorem awaken_place : (t.awaken i).place = t.place := rfl

@[simp] theorem awaken_asleep_self : (t.awaken i).asleep i = none := Function.update_self ..

theorem awaken_asleep_of_ne (h : j ≠ i) : (t.awaken i).asleep j = t.asleep j :=
  Function.update_of_ne h ..

/-- What is known of the thread that moves, and was known of all the others. -/
theorem forall_after {P : ι → ρ → Prop} (hi : P i o.place) (h : ∀ j, P j (t.place j)) (j : ι) :
    P j ((t.after i o woken).place j) := by
  by_cases hj : j = i
  · subst hj
    rwa [after_place_self]
  · rw [after_place_of_ne hj]
    exact h j

/-- Nobody falls asleep but the thread that moves. -/
theorem asleep_of_after (h : (t.after i o woken).asleep j = some c) :
    (j = i ∧ o.sleep = some c) ∨ (j ≠ i ∧ j ∉ woken ∧ t.asleep j = some c) := by
  by_cases hj : j = i
  · subst hj
    exact .inl ⟨rfl, by rwa [after_asleep_self] at h⟩
  · rw [after_asleep_of_ne hj] at h
    split at h
    · cases h
    · exact .inr ⟨hj, ‹_›, h⟩

theorem asleep_of_awaken (h : (t.awaken i).asleep j = some c) : j ≠ i ∧ t.asleep j = some c := by
  by_cases hj : j = i
  · subst hj
    rw [awaken_asleep_self] at h
    cases h
  · exact ⟨hj, by rwa [awaken_asleep_of_ne hj] at h⟩

/-- Whoever was awake still is, but for the thread that moves. -/
theorem after_awake (hj : j ≠ i) (h : t.asleep j = none) :
    (t.after i o woken).asleep j = none := by
  rw [after_asleep_of_ne hj, h, ite_self]

theorem awaken_awake (h : t.asleep j = none) : (t.awaken i).asleep j = none := by
  by_cases hj : j = i
  · subst hj
    exact awaken_asleep_self
  · rwa [awaken_asleep_of_ne hj]

variable [Fintype ι]

/-- What the other threads count for stays as it is. -/
theorem total_after (t : Threads ι κ σ ρ) (i : ι) (o : Outcome κ σ ρ) (woken : Finset ι)
    (w : ρ → ℕ) : (t.after i o woken).total w + w (t.place i) = t.total w + w o.place :=
  sum_update w t.place i o.place

theorem le_total (w : ρ → ℕ) (i : ι) : w (t.place i) ≤ t.total w := by
  rw [total, ← Finset.add_sum_erase _ _ (Finset.mem_univ i)]
  exact Nat.le_add_right _ _

theorem add_le_total (w : ρ → ℕ) (h : i ≠ j) :
    w (t.place i) + w (t.place j) ≤ t.total w := by
  have hj : j ∈ Finset.univ.erase i := Finset.mem_erase.mpr ⟨h.symm, Finset.mem_univ j⟩
  rw [total, ← Finset.add_sum_erase _ _ (Finset.mem_univ i), ← Finset.add_sum_erase _ _ hj]
  omega

omit [DecidableEq ι] in
theorem total_eq_zero_iff {w : ρ → ℕ} : t.total w = 0 ↔ ∀ i, w (t.place i) = 0 := by
  rw [total, Finset.sum_eq_zero_iff]
  exact ⟨fun h i => h i (Finset.mem_univ i), fun h i _ => h i⟩

omit [DecidableEq ι] in
theorem exists_of_total_pos {w : ρ → ℕ} (h : 0 < t.total w) : ∃ i, 0 < w (t.place i) := by
  by_contra hnone
  exact h.ne' (total_eq_zero_iff.mpr fun i => Nat.eq_zero_of_not_pos fun hi => hnone ⟨i, hi⟩)

variable [DecidableEq κ]

omit [DecidableEq ι] in
theorem mem_waiters : i ∈ t.waiters c ↔ t.asleep i = some c := by simp [waiters]

end Threads

/-! ## Who sleeps, and on what -/

namespace Monitor
variable {ι α ε κ σ ρ : Type} [Fintype ι] [DecidableEq ι] [DecidableEq κ]
  {M : Monitor α ε κ σ ρ} {cv : CondVar} {t t' : Threads ι κ σ ρ} {ev : Event ι ε} {c : κ}
  {P : σ → Prop}

/-- Who sleeps on `c` is at a place where one waits for `c`. -/
def Placed (waits : ρ → κ → Prop) (t : Threads ι κ σ ρ) : Prop :=
  ∀ i c, t.asleep i = some c → waits (t.place i) c

theorem Moves.placed {waits : ρ → κ → Prop} (h : Moves M cv t ev t') (hI : Placed waits t)
    (hregion : ∀ i a e o c, M a (t.place i) t.shared = some (e, o) → o.sleep = some c →
      waits o.place c) : Placed waits t' := by
  intro j c hj
  cases h with
  | region i a woken _ ho _ =>
    rcases Threads.asleep_of_after hj with ⟨rfl, hsleep⟩ | ⟨hne, -, hj⟩
    · rw [Threads.after_place_self]
      exact hregion j a _ _ c ho hsleep
    · rw [Threads.after_place_of_ne hne]
      exact hI j c hj
  | awoke i => exact hI j c (Threads.asleep_of_awaken hj).2

/-- Nobody sleeps on `c` while `P` holds. -/
def Answered (P : σ → Prop) (c : κ) (t : Threads ι κ σ ρ) : Prop :=
  P t.shared → ∀ i, t.asleep i ≠ some c

/-- **The rule of `pthread_cond_broadcast`.** -/
theorem Moves.answered (h : Moves M cv t ev t') (hI : Answered P c t)
    (hregion : ∀ i a e o, ev = .did i e → t.asleep i = none →
      M a (t.place i) t.shared = some (e, o) → P o.shared → o.sleep ≠ some c ∧
        (P t.shared ∨ ∀ woken, o.notify.Wakes cv t.waiters woken → t.waiters c ⊆ woken)) :
    Answered P c t' := by
  intro hP j hj
  cases h with
  | region i a woken hawake ho hwoken =>
    obtain ⟨hsleep, hnotify⟩ := hregion i a _ _ rfl hawake ho hP
    rcases Threads.asleep_of_after hj with ⟨rfl, h⟩ | ⟨-, hnot, hasleep⟩
    · exact hsleep h
    · rcases hnotify with hP | hall
      · exact hI hP j hasleep
      · exact hnot (hall woken hwoken (Threads.mem_waiters.mpr hasleep))
  | awoke i => exact hI hP j (Threads.asleep_of_awaken hj).2

/-- While `P` holds and somebody sleeps on `c`, somebody is on the way that was woken. -/
def Attended (waits : ρ → κ → Prop) (P : σ → Prop) (c : κ) (t : Threads ι κ σ ρ) : Prop :=
  P t.shared → ∀ i, t.asleep i = some c → ∃ j, t.asleep j = none ∧ waits (t.place j) c

/-- **The rule of `pthread_cond_signal`.** -/
theorem Moves.attended {waits : ρ → κ → Prop} (h : Moves M cv t ev t') (hplaced : Placed waits t)
    (hI : Attended waits P c t)
    (hregion : ∀ i a e o, ev = .did i e → t.asleep i = none →
      M a (t.place i) t.shared = some (e, o) → P o.shared → o.sleep ≠ some c ∧
        (P t.shared ∧ ¬ waits (t.place i) c ∨ o.notify = .signal c ∨
          ∀ j, t.asleep j ≠ some c)) :
    Attended waits P c t' := by
  intro hP j hj
  cases h with
  | region i a woken hawake ho hwoken =>
    obtain ⟨hsleep, hnotify⟩ := hregion i a _ _ rfl hawake ho hP
    rcases Threads.asleep_of_after hj with ⟨rfl, h⟩ | ⟨-, -, hj⟩
    · exact absurd h hsleep
    · rcases hnotify with ⟨hP, hi⟩ | hsignal | hnone
      · obtain ⟨k, hk, hwaits⟩ := hI hP j hj
        have hne : k ≠ i := fun h => hi (h ▸ hwaits)
        exact ⟨k, Threads.after_awake hne hk, by rwa [Threads.after_place_of_ne hne]⟩
      · rw [hsignal] at hwoken
        have hwakes : cv.Wakes (t.waiters c) woken := hwoken
        obtain ⟨k, hk⟩ := hwakes.nonempty ⟨j, Threads.mem_waiters.mpr hj⟩
        have hasleep := Threads.mem_waiters.mp (hwakes.subset hk)
        have hne : k ≠ i := by
          rintro rfl
          rw [hawake] at hasleep
          cases hasleep
        refine ⟨k, ?_, ?_⟩
        · rw [Threads.after_asleep_of_ne hne, if_pos hk]
        · rw [Threads.after_place_of_ne hne]
          exact hplaced k c hasleep
      · exact absurd hj (hnone j)
  | awoke i =>
    obtain ⟨-, hj⟩ := Threads.asleep_of_awaken hj
    obtain ⟨k, hk, hwaits⟩ := hI hP j hj
    exact ⟨k, Threads.awaken_awake hk, hwaits⟩

end Monitor
end PosixNet
