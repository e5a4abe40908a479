import PosixNet.MysemMmap

/-!
# `prodcons1`: one producer, one consumer, three semaphores

`pxsem/prodcons1.c`, the same with semaphores in memory, `pxsem/prodcons2.c`, and the same
with the semaphores of `MysemMmap`, `my_pxsem_mmap/prodcons1.c`.  The items go through a
circular buffer of ten slots: `nempty` counts the slots the producer may fill, `nstored` the
items the consumer may take, and `mutex` guards the buffer.

The value of a semaphore is known from the places of the two threads (`Books`), and an item
that is stored and not yet checked is still in its slot.

So the consumer finds every item in its slot, in order, and the threads only stand still
when both have returned: with the semaphores of the standard (**`sem_run`**) and, as no two
threads ever sleep on one semaphore, with those of `MysemMmap` (**`mysem_run`**).
-/
namespace PosixNet.Pxsem

def NBUFF : ℕ := 10

/-- `shared.mutex`, `shared.nempty` and `shared.nstored`. -/
inductive Sem where
  | mutex | nempty | nstored
  deriving DecidableEq

/-- `shared.buff`. -/
abbrev Buff := ℕ → ℤ

/-- The two threads. -/
inductive Thread where
  | producer | consumer
  deriving DecidableEq

instance : Fintype Thread := ⟨{.producer, .consumer}, fun w => by cases w <;> decide⟩

/-- Where a thread is in the body of its loop. -/
inductive Stage where
  | test
  /-- At the first `Sem_wait`. -/
  | take
  /-- At `Sem_wait(shared.mutex)`. -/
  | lock
  | access
  /-- At `Sem_post(shared.mutex)`. -/
  | unlock
  /-- At the last `Sem_post`. -/
  | give
  | returned
  deriving DecidableEq

/-- Where a thread is, with its local variable `i`. -/
structure Place where
  thread : Thread
  stage : Stage
  i : ℕ
  deriving DecidableEq

/-- What a thread did besides its calls on semaphores. -/
inductive Did where
  | tested
  | stored (i : ℕ)
  /-- The consumer found `v` where item `i` should be. -/
  | checked (i : ℕ) (v : ℤ)
  deriving DecidableEq

/-- The next call of `produce`. -/
def produce (nitems i : ℕ) : Stage → SemCall Sem Buff Did Place
  | .test => .data fun buff =>
    (.tested, buff, ⟨.producer, if i < nitems then .take else .returned, i⟩)
  | .take => .wait .nempty ⟨.producer, .lock, i⟩
  | .lock => .wait .mutex ⟨.producer, .access, i⟩
  | .access => .data fun buff =>
    (.stored i, Function.update buff (i % NBUFF) i, ⟨.producer, .unlock, i⟩)
  | .unlock => .post .mutex ⟨.producer, .give, i⟩
  | .give => .post .nstored ⟨.producer, .test, i + 1⟩
  | .returned => .stop

/-- The next call of `consume`. -/
def consume (nitems i : ℕ) : Stage → SemCall Sem Buff Did Place
  | .test => .data fun buff =>
    (.tested, buff, ⟨.consumer, if i < nitems then .take else .returned, i⟩)
  | .take => .wait .nstored ⟨.consumer, .lock, i⟩
  | .lock => .wait .mutex ⟨.consumer, .access, i⟩
  | .access => .data fun buff =>
    (.checked i (buff (i % NBUFF)), buff, ⟨.consumer, .unlock, i⟩)
  | .unlock => .post .mutex ⟨.consumer, .give, i⟩
  | .give => .post .nempty ⟨.consumer, .test, i + 1⟩
  | .returned => .stop

/-- The next call of a thread. -/
def prodcons1 (nitems : ℕ) (r : Place) : SemCall Sem Buff Did Place :=
  match r.thread with
  | .producer => produce nitems r.i r.stage
  | .consumer => consume nitems r.i r.stage

/-- What `main` sets up. -/
def initial : Sems Sem Buff where
  value
    | .mutex => 1
    | .nempty => NBUFF
    | .nstored => 0
  data := fun _ => 0

/-- The head of the loop, with `i` at 0. -/
def entry (w : Thread) : Place := ⟨w, .test, 0⟩

/-! ## The books -/

namespace Place

/-- How many slots, or items, the thread has taken. -/
def taken : Place → ℕ
  | ⟨_, .test, i⟩ | ⟨_, .take, i⟩ | ⟨_, .returned, i⟩ => i
  | ⟨_, .lock, i⟩ | ⟨_, .access, i⟩ | ⟨_, .unlock, i⟩ | ⟨_, .give, i⟩ => i + 1

/-- How many of them it has used. -/
def used : Place → ℕ
  | ⟨_, .test, i⟩ | ⟨_, .take, i⟩ | ⟨_, .lock, i⟩ | ⟨_, .access, i⟩ | ⟨_, .returned, i⟩ => i
  | ⟨_, .unlock, i⟩ | ⟨_, .give, i⟩ => i + 1

/-- Whether it has the buffer for itself. -/
def holds : Place → ℕ
  | ⟨_, .access, _⟩ | ⟨_, .unlock, _⟩ => 1
  | ⟨_, .test, _⟩ | ⟨_, .take, _⟩ | ⟨_, .lock, _⟩ | ⟨_, .give, _⟩ | ⟨_, .returned, _⟩ => 0

/-- Where the loop counter stands. -/
def Within (nitems : ℕ) : Place → Prop
  | ⟨_, .test, i⟩ => i ≤ nitems
  | ⟨_, .returned, i⟩ => i = nitems
  | ⟨_, .take, i⟩ | ⟨_, .lock, i⟩ | ⟨_, .access, i⟩ | ⟨_, .unlock, i⟩ | ⟨_, .give, i⟩ => i < nitems

end Place

/-- **The books**: what the semaphores are worth, and what is in the buffer, with the producer
at `p` and the consumer at `c`. -/
structure Books (nitems : ℕ) (s : Sems Sem Buff) (p c : Place) : Prop where
  producer : p.thread = .producer
  consumer : c.thread = .consumer
  within : p.Within nitems ∧ c.Within nitems
  mutex : s.value .mutex + p.holds + c.holds = 1
  nempty : s.value .nempty + p.taken = NBUFF + c.i
  nstored : s.value .nstored + c.taken = p.i
  buff : ∀ k, c.i ≤ k → k < p.used → s.data (k % NBUFF) = k

section
open Monitor
variable {nitems : ℕ} {s : Sems Sem Buff} {p c : Place} {a : Unit} {e : SemEvent Sem Did}
  {o : Outcome Sem (Sems Sem Buff) Place}

/-- Two items that are less than ten apart have two slots. -/
theorem slot_ne {k i : ℕ} (h : k < i) (hi : i < k + NBUFF) : k % NBUFF ≠ i % NBUFF := by
  simp only [NBUFF] at hi ⊢
  omega

/-- The producer keeps the books. -/
theorem Books.produce (hI : Books nitems s p c)
    (h : Sems.atomic (prodcons1 nitems) a p s = some (e, o)) : Books nitems o.shared o.place c := by
  obtain ⟨hp, hc, ⟨hpi, hci⟩, hmutex, hnempty, hnstored, hbuff⟩ := hI
  obtain ⟨w, stage, i⟩ := p
  obtain rfl : w = .producer := hp
  cases stage <;> simp only [Sems.atomic, prodcons1, Pxsem.produce] at h
  case test =>
    obtain ⟨-, rfl⟩ := Prod.mk.inj (Option.some.inj h)
    split
    · exact ⟨rfl, hc, ⟨‹_›, hci⟩, hmutex, hnempty, hnstored, hbuff⟩
    · exact ⟨rfl, hc, ⟨Nat.le_antisymm hpi (Nat.le_of_not_lt ‹_›), hci⟩, hmutex, hnempty, hnstored,
        hbuff⟩
  case take =>
    split at h
    · cases h
    · obtain ⟨-, rfl⟩ := Prod.mk.inj (Option.some.inj h)
      refine ⟨rfl, hc, ⟨hpi, hci⟩, hmutex, ?_, hnstored, hbuff⟩
      change s.value .nempty + i = NBUFF + c.i at hnempty
      show s.value .nempty - 1 + (i + 1) = NBUFF + c.i
      omega
  case lock =>
    split at h
    · cases h
    · obtain ⟨-, rfl⟩ := Prod.mk.inj (Option.some.inj h)
      refine ⟨rfl, hc, ⟨hpi, hci⟩, ?_, hnempty, hnstored, hbuff⟩
      change s.value .mutex + 0 + c.holds = 1 at hmutex
      show s.value .mutex - 1 + 1 + c.holds = 1
      omega
  case access =>
    obtain ⟨-, rfl⟩ := Prod.mk.inj (Option.some.inj h)
    refine ⟨rfl, hc, ⟨hpi, hci⟩, hmutex, hnempty, hnstored, fun k hk hki => ?_⟩
    by_cases hlast : k = i
    · subst hlast
      exact Function.update_self ..
    · have hlt : k < i := by
        change k < i + 1 at hki
        omega
      change s.value .nempty + (i + 1) = NBUFF + c.i at hnempty
      exact (Function.update_of_ne (slot_ne hlt (by omega)) _ _).trans (hbuff k hk hlt)
  case unlock =>
    obtain ⟨-, rfl⟩ := Prod.mk.inj (Option.some.inj h)
    refine ⟨rfl, hc, ⟨hpi, hci⟩, ?_, hnempty, hnstored, hbuff⟩
    change s.value .mutex + 1 + c.holds = 1 at hmutex
    show s.value .mutex + 1 + 0 + c.holds = 1
    omega
  case give =>
    obtain ⟨-, rfl⟩ := Prod.mk.inj (Option.some.inj h)
    refine ⟨rfl, hc, ⟨hpi, hci⟩, hmutex, hnempty, ?_, hbuff⟩
    change s.value .nstored + c.taken = i at hnstored
    show s.value .nstored + 1 + c.taken = i + 1
    omega
  case returned => cases h

/-- The consumer keeps the books. -/
theorem Books.consume (hI : Books nitems s p c)
    (h : Sems.atomic (prodcons1 nitems) a c s = some (e, o)) : Books nitems o.shared p o.place := by
  obtain ⟨hp, hc, ⟨hpi, hci⟩, hmutex, hnempty, hnstored, hbuff⟩ := hI
  obtain ⟨w, stage, i⟩ := c
  obtain rfl : w = .consumer := hc
  cases stage <;> simp only [Sems.atomic, prodcons1, Pxsem.consume] at h
  case test =>
    obtain ⟨-, rfl⟩ := Prod.mk.inj (Option.some.inj h)
    split
    · exact ⟨hp, rfl, ⟨hpi, ‹_›⟩, hmutex, hnempty, hnstored, hbuff⟩
    · exact ⟨hp, rfl, ⟨hpi, Nat.le_antisymm hci (Nat.le_of_not_lt ‹_›)⟩, hmutex, hnempty, hnstored,
        hbuff⟩
  case take =>
    split at h
    · cases h
    · obtain ⟨-, rfl⟩ := Prod.mk.inj (Option.some.inj h)
      refine ⟨hp, rfl, ⟨hpi, hci⟩, hmutex, hnempty, ?_, hbuff⟩
      change s.value .nstored + i = p.i at hnstored
      show s.value .nstored - 1 + (i + 1) = p.i
      omega
  case lock =>
    split at h
    · cases h
    · obtain ⟨-, rfl⟩ := Prod.mk.inj (Option.some.inj h)
      refine ⟨hp, rfl, ⟨hpi, hci⟩, ?_, hnempty, hnstored, hbuff⟩
      change s.value .mutex + p.holds + 0 = 1 at hmutex
      show s.value .mutex - 1 + p.holds + 1 = 1
      omega
  case access =>
    obtain ⟨-, rfl⟩ := Prod.mk.inj (Option.some.inj h)
    exact ⟨hp, rfl, ⟨hpi, hci⟩, hmutex, hnempty, hnstored, hbuff⟩
  case unlock =>
    obtain ⟨-, rfl⟩ := Prod.mk.inj (Option.some.inj h)
    refine ⟨hp, rfl, ⟨hpi, hci⟩, ?_, hnempty, hnstored, hbuff⟩
    change s.value .mutex + p.holds + 1 = 1 at hmutex
    show s.value .mutex + 1 + p.holds + 0 = 1
    omega
  case give =>
    obtain ⟨-, rfl⟩ := Prod.mk.inj (Option.some.inj h)
    refine ⟨hp, rfl, ⟨hpi, hci⟩, hmutex, ?_, hnstored,
      fun k hk hkp => hbuff k (Nat.le_of_lt hk) hkp⟩
    change s.value .nempty + p.taken = NBUFF + i at hnempty
    show s.value .nempty + 1 + p.taken = NBUFF + (i + 1)
    omega
  case returned => cases h

/-- A thread that cannot go on has returned, or waits for a semaphore that is zero. -/
theorem stuck_cases {r : Place} (h : Sems.atomic (prodcons1 nitems) a r s = none) :
    r.stage = .returned ∨
    (r.stage = .take ∧ s.value (if r.thread = .producer then .nempty else .nstored) = 0) ∨
    (r.stage = .lock ∧ s.value .mutex = 0) := by
  obtain ⟨w, stage, i⟩ := r
  cases stage with
  | returned => exact .inl rfl
  | take =>
    refine .inr (.inl ⟨rfl, ?_⟩)
    cases w <;> simpa [Sems.atomic, prodcons1, produce, consume] using h
  | lock =>
    refine .inr (.inr ⟨rfl, ?_⟩)
    cases w <;> simpa [Sems.atomic, prodcons1, produce, consume] using h
  | test | access | unlock | give =>
    cases w <;> simp [Sems.atomic, prodcons1, produce, consume] at h

/-- **The threads only stand still when both have returned.** -/
theorem Books.stuck (hI : Books nitems s p c) (hp : Sems.atomic (prodcons1 nitems) a p s = none)
    (hc : Sems.atomic (prodcons1 nitems) a c s = none) :
    p.stage = .returned ∧ c.stage = .returned := by
  obtain ⟨hpw, hcw, ⟨hpi, hci⟩, hmutex, hnempty, hnstored, -⟩ := hI
  have hp := stuck_cases hp
  have hc := stuck_cases hc
  obtain ⟨w, stage, i⟩ := p
  obtain ⟨w', stage', j⟩ := c
  obtain rfl : w = .producer := hpw
  obtain rfl : w' = .consumer := hcw
  simp only [if_true, reduceCtorEq, if_false] at hp hc
  have hten : NBUFF = 10 := rfl
  rcases hp with rfl | ⟨rfl, hzero⟩ | ⟨rfl, hzero⟩ <;>
    rcases hc with rfl | ⟨rfl, hzero'⟩ | ⟨rfl, hzero'⟩ <;>
    simp only [Place.Within, Place.taken, Place.holds] at hpi hci hmutex hnempty hnstored <;>
    first | exact ⟨rfl, rfl⟩ | omega

end

/-! ## Runs -/

section
open Monitor
variable {nitems : ℕ} {cv : CondVar}

abbrev State := Threads Thread Sem (Sems Sem Buff) Place
abbrev Trace := List (State × Event Thread (SemEvent Sem Did))

/-- A run with the semaphores of the standard. -/
abbrev SemRun (nitems : ℕ) (cv : CondVar) (tr : Trace) (t : State) : Prop :=
  Run (Step (Sems.atomic (prodcons1 nitems)) cv) (.start initial entry) tr t

/-- A run with the semaphores of `my_pxsem_mmap`. -/
abbrev MysemRun (nitems : ℕ) (cv : CondVar) (tr : Trace) (t : State) : Prop :=
  Run (Step (Mysem.mysem (prodcons1 nitems)) cv) (.start initial entry) tr t

variable {tr : Trace} {t : State}

/-- The item a consumer checked, and what it found. -/
def checked? : Event Thread (SemEvent Sem Did) → Option (ℕ × ℤ)
  | .did _ (.did (.checked i v)) => some (i, v)
  | _ => none

/-- The checks of a run, in order. -/
def checks (tr : Trace) : List (ℕ × ℤ) := (labels tr).filterMap checked?

/-- Items `0` to `n - 1`, each found in its slot. -/
def found (n : ℕ) : List (ℕ × ℤ) := (List.range n).map fun i => (i, (i : ℤ))

theorem found_succ (n : ℕ) : found (n + 1) = found n ++ [(n, (n : ℤ))] := by
  rw [found, List.range_succ, List.map_append]
  rfl

/-- What the consumer has in hand is in its slot. -/
theorem Books.access {s : Sems Sem Buff} {p : Place} {i : ℕ}
    (hI : Books nitems s p ⟨.consumer, .access, i⟩) : s.data (i % NBUFF) = i := by
  refine hI.buff i (Nat.le_refl i) ?_
  have hstored : s.value .nstored + (i + 1) = p.i := hI.nstored
  have hused : p.i ≤ p.used := by
    obtain ⟨w, stage, j⟩ := p
    cases stage <;> first | exact Nat.le_refl j | exact Nat.le_succ j
  omega

variable {s : Sems Sem Buff} {p c : Place} {a : Unit} {e : SemEvent Sem Did}
  {o : Outcome Sem (Sems Sem Buff) Place}

/-- The producer checks nothing. -/
theorem Books.produce_checked (hI : Books nitems s p c)
    (h : Sems.atomic (prodcons1 nitems) a p s = some (e, o)) (w : Thread) :
    checked? (.did w e) = none := by
  obtain ⟨w', stage, i⟩ := p
  obtain rfl : w' = .producer := hI.producer
  cases stage <;> simp only [Sems.atomic, prodcons1, Pxsem.produce] at h
  case take | lock =>
    split at h
    · cases h
    · obtain ⟨rfl, -⟩ := Prod.mk.inj (Option.some.inj h)
      rfl
  case test | access | unlock | give =>
    obtain ⟨rfl, -⟩ := Prod.mk.inj (Option.some.inj h)
    rfl
  case returned => cases h

/-- The consumer checks what it uses. -/
theorem Books.consume_checked (hI : Books nitems s p c)
    (h : Sems.atomic (prodcons1 nitems) a c s = some (e, o)) (w : Thread) :
    found o.place.used = found c.used ++ (checked? (.did w e)).toList := by
  obtain ⟨w', stage, i⟩ := c
  obtain rfl : w' = .consumer := hI.consumer
  cases stage <;> simp only [Sems.atomic, prodcons1, Pxsem.consume] at h
  case access =>
    obtain ⟨rfl, rfl⟩ := Prod.mk.inj (Option.some.inj h)
    rw [show checked? (.did w (.did (.checked i (s.data (i % NBUFF))))) =
      some (i, s.data (i % NBUFF)) from rfl, hI.access]
    exact found_succ i
  case take | lock =>
    split at h
    · cases h
    · obtain ⟨rfl, rfl⟩ := Prod.mk.inj (Option.some.inj h)
      exact (List.append_nil _).symm
  case test =>
    obtain ⟨rfl, rfl⟩ := Prod.mk.inj (Option.some.inj h)
    split <;> exact (List.append_nil _).symm
  case unlock | give =>
    obtain ⟨rfl, rfl⟩ := Prod.mk.inj (Option.some.inj h)
    exact (List.append_nil _).symm
  case returned => cases h

theorem checks_snoc (tr : Trace) (u : State) (ev : Event Thread (SemEvent Sem Did)) :
    checks (tr ++ [(u, ev)]) = checks tr ++ (checked? ev).toList :=
  filterMap_labels_snoc ..

/-- **The books of a run**, and what the consumer has found. -/
theorem books_run (run : SemRun nitems cv tr t) :
    Books nitems t.shared (t.place .producer) (t.place .consumer) ∧
      checks tr = found (t.place .consumer).used := by
  refine run.invariant (I := fun tr (t : State) =>
    Books nitems t.shared (t.place .producer) (t.place .consumer) ∧
      checks tr = found (t.place .consumer).used) ?_ ?_
  · exact ⟨⟨rfl, rfl, ⟨Nat.zero_le _, Nat.zero_le _⟩, rfl, rfl, rfl, fun k _ h => nomatch h⟩, rfl⟩
  · rintro tr u ev u' - ⟨hbooks, hchecks⟩ h
    rw [checks_snoc]
    cases step_iff_moves.mp h with
    | @region w a e o woken _ ho _ =>
      cases w with
      | producer =>
        rw [Threads.after_place_self, Threads.after_place_of_ne (by decide)]
        refine ⟨hbooks.produce ho, ?_⟩
        rw [hbooks.produce_checked ho, Option.toList_none, List.append_nil, hchecks]
      | consumer =>
        rw [Threads.after_place_self, Threads.after_place_of_ne (by decide)]
        exact ⟨hbooks.consume ho, by rw [hchecks, hbooks.consume_checked ho]⟩
    | awoke w => exact ⟨hbooks, by rw [hchecks]; exact List.append_nil _⟩

/-- **`prodcons1` with the semaphores of the standard.**  The consumer finds every item in its
slot, in order, and the threads only stand still when both have returned and every item has
been checked. -/
theorem sem_run (run : SemRun nitems cv tr t) :
    (∃ n, n ≤ nitems ∧ checks tr = found n) ∧
      (Terminal (Step (Sems.atomic (prodcons1 nitems)) cv) t →
        (∀ w, (t.place w).stage = .returned) ∧ checks tr = found nitems) := by
  obtain ⟨hbooks, hchecks⟩ := books_run run
  have hwithin := hbooks.within.2
  constructor
  · refine ⟨_, ?_, hchecks⟩
    generalize t.place .consumer = c at hwithin
    obtain ⟨w, stage, i⟩ := c
    cases stage with
    | test => exact hwithin
    | returned => exact hwithin.le
    | take | lock | access => exact Nat.le_of_lt hwithin
    | unlock | give => exact hwithin
  · intro hterminal
    have hawake := Sems.atomic_awake run
    obtain ⟨hp, hc⟩ := hbooks.stuck (a := ()) (terminal_region hterminal (hawake _) ())
      (terminal_region hterminal (hawake _) ())
    refine ⟨fun w => by cases w; exacts [hp, hc], ?_⟩
    rw [hchecks]
    generalize t.place .consumer = c at hc hwithin
    obtain ⟨w, stage, i⟩ := c
    obtain rfl : stage = .returned := hc
    exact congrArg found hwithin

theorem waits_cases {r : Place} {x : Sem} (h : Mysem.WaitsFor (prodcons1 nitems) r x) :
    (r.stage = .take ∧ x = if r.thread = .producer then .nempty else .nstored) ∨
      (r.stage = .lock ∧ x = .mutex) := by
  obtain ⟨next, h⟩ := h
  obtain ⟨w, stage, i⟩ := r
  cases w <;> cases stage <;> simp_all [prodcons1, produce, consume]

/-- Both threads wait for one semaphore only while it is not zero. -/
theorem Books.value_ne_zero {x : Sem} (hI : Books nitems s p c)
    (hp : Mysem.WaitsFor (prodcons1 nitems) p x) (hc : Mysem.WaitsFor (prodcons1 nitems) c x) :
    s.value x ≠ 0 := by
  have hmutex := hI.mutex
  rcases waits_cases hp with ⟨-, hx⟩ | ⟨hlock, rfl⟩ <;>
    rcases waits_cases hc with ⟨-, hy⟩ | ⟨hlock', hy⟩
  · rw [hI.producer] at hx
    rw [hI.consumer, hx] at hy
    cases hy
  · rw [hI.producer, hy] at hx
    cases hx
  · rw [hI.consumer] at hy
    cases hy
  · obtain ⟨w, stage, i⟩ := p
    obtain ⟨w', stage', j⟩ := c
    obtain rfl : stage = .lock := hlock
    obtain rfl : stage' = .lock := hlock'
    have hone : s.value .mutex + 0 + 0 = 1 := hmutex
    omega

theorem Place.le_taken (r : Place) : r.i ≤ r.taken := by
  obtain ⟨w, stage, i⟩ := r
  cases stage <;> first | exact Nat.le_refl i | exact Nat.le_succ i

/-- No semaphore is worth more than there are slots. -/
theorem Books.value_le (hI : Books nitems s p c) (x : Sem) : s.value x ≤ NBUFF := by
  have hmutex := hI.mutex
  have hnempty := hI.nempty
  have hnstored := hI.nstored
  have hp := p.le_taken
  have hc := c.le_taken
  cases x with
  | mutex =>
    have hone : 1 ≤ NBUFF := by decide
    omega
  | nempty | nstored => omega

theorem bounded_run (run : MysemRun nitems cv tr t) : Mysem.Bounded tr := by
  refine Mysem.bounded run fun tr u x hrun => ?_
  obtain ⟨hbooks, -⟩ := books_run hrun
  exact (hbooks.value_le x).trans_lt (by decide)

theorem oneSleeper_run (run : MysemRun nitems cv tr t) : Mysem.OneSleeper tr := by
  refine Mysem.oneSleeper run (bounded_run run) fun tr u x w w' hrun hne hw hw' => ?_
  obtain ⟨hbooks, -⟩ := books_run hrun
  cases w <;> cases w'
  · exact absurd rfl hne
  · exact hbooks.value_ne_zero hw hw'
  · exact hbooks.value_ne_zero hw' hw
  · exact absurd rfl hne

theorem checked?_seen (l : List (Event Thread (SemEvent Sem Did))) :
    (l.filterMap Mysem.seen).filterMap checked? = l.filterMap checked? := by
  rw [List.filterMap_filterMap]
  congr 1
  funext ev
  cases ev with
  | did w e => cases e <;> rfl
  | awoke w => rfl

/-- **`prodcons1` with the semaphores of `my_pxsem_mmap`**: as with those of the standard. -/
theorem mysem_run (run : MysemRun nitems cv tr t) :
    (∃ n, n ≤ nitems ∧ checks tr = found n) ∧
      (Terminal (Step (Mysem.mysem (prodcons1 nitems)) cv) t →
        (∀ w, (t.place w).stage = .returned) ∧ checks tr = found nitems) := by
  have hbounded := bounded_run run
  have hsame : ∀ tr', labels tr' = (labels tr).filterMap Mysem.seen → checks tr' = checks tr :=
    fun tr' hlabels => by rw [checks, hlabels, checked?_seen, checks]
  constructor
  · obtain ⟨tr', hrun, hlabels⟩ := Mysem.mysem_refines run hbounded
    rw [← hsame tr' hlabels]
    exact (sem_run hrun).1
  · intro hterminal
    obtain ⟨tr', hrun, hlabels, hstill⟩ :=
      Mysem.mysem_terminal run hbounded (oneSleeper_run run) hterminal
    rw [← hsame tr' hlabels]
    exact (sem_run hrun).2 hstill

/-- Two items, and a consumer that has to wait for the first of them, and for the mutex. -/
def twoItems : List (Act Thread Unit) :=
  List.replicate 2 (.run .consumer () ∅) ++ List.replicate 5 (.run .producer () ∅) ++
    [.run .producer () {.consumer}] ++ List.replicate 3 (.run .producer () ∅) ++
    List.replicate 2 (.run .consumer () ∅) ++
    [.run .producer () ∅, .run .producer () {.consumer}] ++
    List.replicate 2 (.run .producer () ∅) ++ List.replicate 11 (.run .consumer () ∅)

theorem mysem_run_twoItems : ∃ tr t, MysemRun 2 .single tr t ∧
    (∀ w, (t.place w).stage = .returned) ∧ (∃ n, n ≤ 2 ∧ checks tr = found n) ∧
      (Terminal (Step (Mysem.mysem (prodcons1 2)) .single) t →
        (∀ w, (t.place w).stage = .returned) ∧ checks tr = found 2) :=
  have run : MysemRun 2 .single _ _ :=
    run_get (exec (Mysem.mysem (prodcons1 2)) .single) twoItems _ (by decide +kernel)
  ⟨_, _, run, by decide +kernel, mysem_run run⟩

end
end PosixNet.Pxsem
