import Mathlib.Algebra.Order.BigOperators.Group.Finset
import PosixNet.PxsemProdcons

/-!
# `prodcons4`: several producers and several consumers on semaphores

`pxsem/prodcons4.c`.  The producers share `nput`, the consumers `nget`, all of it under
`shared.mutex`; a producer that finds every item stored posts `nstored` **once more**, so
that a consumer that waits in vain gets to see that there is nothing left, and passes that
post on when it returns.

`Books` says what the semaphores are worth by counting over the threads: who holds a slot,
who holds an item, who has it still to announce, and who has returned.  From this:

* **`prodcons4_checks`**: the consumers together find every item in its slot, in order.
* **`prodcons4_returns`**: with at least one producer and one consumer the threads only stand
  still when all of them have returned, every item has been consumed, and the counts that
  `main` prints add up to `nitems` on both sides; and every run comes to an end
  (`prodcons4_ends`).
-/
namespace PosixNet.Pxsem.Prodcons4
open Monitor

/-- `shared`, less its semaphores. -/
structure Shared where
  buff : Buff
  nput : ℕ
  nputval : ℤ
  nget : ℕ
  ngetval : ℤ

/-- Where a thread is in the body of its loop. -/
inductive Stage where
  /-- At the first `Sem_wait`. -/
  | take
  /-- At `Sem_wait(&shared.mutex)`. -/
  | lock
  | access
  | unlock
  /-- At the last `Sem_post` of the loop. -/
  | give
  /-- At `*((int *) arg) += 1`. -/
  | addOne
  /-- At the `Sem_post`s in front of `return`. -/
  | lastStored | lastEmpty | lastUnlock
  | returned
  deriving DecidableEq

/-- Where a thread is, with its part of `prodcount` or `conscount`. -/
structure Place where
  thread : Thread
  stage : Stage
  count : ℕ
  deriving DecidableEq

/-- What a thread did besides its calls on semaphores. -/
inductive Did where
  /-- There is nothing left to do. -/
  | done
  | stored (k : ℕ) (v : ℤ)
  /-- The consumer found `v` where item `k` should be, and expected `w`. -/
  | checked (k : ℕ) (v w : ℤ)
  | counted
  deriving DecidableEq

/-- The next call of `produce`. -/
def produce (nitems n : ℕ) : Stage → SemCall Sem Shared Did Place
  | .take => .wait .nempty ⟨.producer, .lock, n⟩
  | .lock => .wait .mutex ⟨.producer, .access, n⟩
  | .access => .data fun d =>
    if d.nput ≥ nitems then (.done, d, ⟨.producer, .lastStored, n⟩)
    else (.stored d.nput d.nputval, { d with
      buff := Function.update d.buff (d.nput % NBUFF) d.nputval
      nput := d.nput + 1
      nputval := d.nputval + 1 }, ⟨.producer, .unlock, n⟩)
  | .unlock => .post .mutex ⟨.producer, .give, n⟩
  | .give => .post .nstored ⟨.producer, .addOne, n⟩
  | .addOne => .data fun d => (.counted, d, ⟨.producer, .take, n + 1⟩)
  | .lastStored => .post .nstored ⟨.producer, .lastEmpty, n⟩
  | .lastEmpty => .post .nempty ⟨.producer, .lastUnlock, n⟩
  | .lastUnlock => .post .mutex ⟨.producer, .returned, n⟩
  | .returned => .stop

/-- The next call of `consume`. -/
def consume (nitems n : ℕ) : Stage → SemCall Sem Shared Did Place
  | .take => .wait .nstored ⟨.consumer, .lock, n⟩
  | .lock => .wait .mutex ⟨.consumer, .access, n⟩
  | .access => .data fun d =>
    if d.nget ≥ nitems then (.done, d, ⟨.consumer, .lastStored, n⟩)
    else (.checked d.nget (d.buff (d.nget % NBUFF)) d.ngetval,
      { d with nget := d.nget + 1, ngetval := d.ngetval + 1 }, ⟨.consumer, .unlock, n⟩)
  | .unlock => .post .mutex ⟨.consumer, .give, n⟩
  | .give => .post .nempty ⟨.consumer, .addOne, n⟩
  | .addOne => .data fun d => (.counted, d, ⟨.consumer, .take, n + 1⟩)
  | .lastStored => .post .nstored ⟨.consumer, .lastUnlock, n⟩
  | .lastUnlock => .post .mutex ⟨.consumer, .returned, n⟩
  -- a consumer is never there
  | .lastEmpty | .returned => .stop

/-- The next call of a thread. -/
def prodcons4 (nitems : ℕ) (r : Place) : SemCall Sem Shared Did Place :=
  match r.thread with
  | .producer => produce nitems r.count r.stage
  | .consumer => consume nitems r.count r.stage

/-- What `main` sets up. -/
def initial : Sems Sem Shared where
  value
    | .mutex => 1
    | .nempty => NBUFF
    | .nstored => 0
  data := ⟨fun _ => 0, 0, 0, 0, 0⟩

/-- The head of the loop, with nothing counted. -/
def entry (w : Thread) : Place := ⟨w, .take, 0⟩

/-! ## The books -/

namespace Place

/-- It has the data for itself. -/
def holds : Place → ℕ
  | ⟨_, .access, _⟩ | ⟨_, .unlock, _⟩ | ⟨_, .lastStored, _⟩ | ⟨_, .lastEmpty, _⟩
  | ⟨_, .lastUnlock, _⟩ => 1
  | _ => 0

/-- It has an empty slot in hand. -/
def slot : Place → ℕ
  | ⟨.producer, .lock, _⟩ | ⟨.producer, .access, _⟩ | ⟨.producer, .lastStored, _⟩
  | ⟨.producer, .lastEmpty, _⟩ => 1
  | _ => 0

/-- It has emptied a slot that it has not given back yet. -/
def emptied : Place → ℕ
  | ⟨.consumer, .unlock, _⟩ | ⟨.consumer, .give, _⟩ => 1
  | _ => 0

/-- It has an item in hand, or what it took for one. -/
def item : Place → ℕ
  | ⟨.consumer, .lock, _⟩ | ⟨.consumer, .access, _⟩ | ⟨.consumer, .lastStored, _⟩ => 1
  | _ => 0

/-- It has stored an item that it has not announced yet. -/
def stored : Place → ℕ
  | ⟨.producer, .unlock, _⟩ | ⟨.producer, .give, _⟩ => 1
  | _ => 0

/-- It has posted `nstored` once more. -/
def extra : Place → ℕ
  | ⟨.producer, .lastEmpty, _⟩ | ⟨.producer, .lastUnlock, _⟩ | ⟨.producer, .returned, _⟩ => 1
  | _ => 0

/-- The items it has stored. -/
def produced : Place → ℕ
  | ⟨.producer, .unlock, n⟩ | ⟨.producer, .give, n⟩ | ⟨.producer, .addOne, n⟩ => n + 1
  | ⟨.producer, _, n⟩ => n
  | _ => 0

/-- The items it has taken out. -/
def consumed : Place → ℕ
  | ⟨.consumer, .unlock, n⟩ | ⟨.consumer, .give, n⟩ | ⟨.consumer, .addOne, n⟩ => n + 1
  | ⟨.consumer, _, n⟩ => n
  | _ => 0

/-- It has seen that there is nothing left to do. -/
def Over : Place → Prop
  | ⟨_, .lastStored, _⟩ | ⟨_, .lastEmpty, _⟩ | ⟨_, .lastUnlock, _⟩ | ⟨_, .returned, _⟩ => True
  | _ => False

end Place

variable {ι : Type} [Fintype ι] [DecidableEq ι]

abbrev State (ι : Type) := Threads ι Sem (Sems Sem Shared) Place

/-- **What the semaphores and the counters are worth.** -/
structure Counts (t : State ι) : Prop where
  mutex : t.shared.value .mutex + t.total Place.holds = 1
  nempty : t.shared.value .nempty + t.total Place.slot + t.total Place.emptied +
    t.shared.data.nput = NBUFF + t.shared.data.nget
  nstored : t.shared.value .nstored + t.total Place.item + t.total Place.stored +
    t.shared.data.nget = t.shared.data.nput + t.total Place.extra
  produced : t.total Place.produced = t.shared.data.nput
  consumed : t.total Place.consumed = t.shared.data.nget

/-- **What is in the buffer**, and when a thread is done. -/
structure Intact (nitems : ℕ) (role : ι → Thread) (t : State ι) : Prop where
  thread : ∀ i, (t.place i).thread = role i
  last : ∀ i, (t.place i).stage = .lastEmpty → (t.place i).thread = .producer
  vals : t.shared.data.nputval = t.shared.data.nput ∧ t.shared.data.ngetval = t.shared.data.nget
  le : t.shared.data.nget ≤ t.shared.data.nput ∧ t.shared.data.nput ≤ nitems
  full : ∀ i, role i = .producer → (t.place i).Over → t.shared.data.nput = nitems
  empty : ∀ i, role i = .consumer → (t.place i).Over → t.shared.data.nget = nitems
  buff : ∀ k, t.shared.data.nget ≤ k → k < t.shared.data.nput →
    t.shared.data.buff (k % NBUFF) = k

/-! ## One thread moves -/

/-- What a thread changes of the semaphores and the counters, against what it counts for. -/
structure Balanced (s s' : Sems Sem Shared) (r r' : Place) : Prop where
  thread : r'.thread = r.thread
  last : r'.stage = .lastEmpty → r'.thread = .producer
  mutex : s'.value .mutex + r'.holds = s.value .mutex + r.holds
  nempty : s'.value .nempty + r'.slot + r'.emptied + s'.data.nput + s.data.nget =
    s.value .nempty + r.slot + r.emptied + s.data.nput + s'.data.nget
  nstored : s'.value .nstored + r'.item + r'.stored + s'.data.nget + s.data.nput + r.extra =
    s.value .nstored + r.item + r.stored + s.data.nget + s'.data.nput + r'.extra
  produced : r'.produced + s.data.nput = r.produced + s'.data.nput
  consumed : r'.consumed + s.data.nget = r.consumed + s'.data.nget

/-- What a thread does with the data. -/
inductive Handles (nitems : ℕ) (d : Shared) : Place → SemEvent Sem Did → Shared → Place → Prop
  /-- Nothing, and it sees the end of the work at `access` only. -/
  | none {r r' : Place} {e : SemEvent Sem Did} (he : ∀ k v w, e ≠ .did (.checked k v w))
      (hover : r'.Over → r.Over) : Handles nitems d r e d r'
  | done {r r' : Place} (hput : r.thread = .producer → nitems ≤ d.nput)
      (hget : r.thread = .consumer → nitems ≤ d.nget) : Handles nitems d r (.did .done) d r'
  | store {n : ℕ} (hput : d.nput < nitems) :
      Handles nitems d ⟨.producer, .access, n⟩ (.did (.stored d.nput d.nputval))
        ⟨Function.update d.buff (d.nput % NBUFF) d.nputval, d.nput + 1, d.nputval + 1, d.nget,
          d.ngetval⟩ ⟨.producer, .unlock, n⟩
  | check {n : ℕ} (hget : d.nget < nitems) :
      Handles nitems d ⟨.consumer, .access, n⟩
        (.did (.checked d.nget (d.buff (d.nget % NBUFF)) d.ngetval))
        ⟨d.buff, d.nput, d.nputval, d.nget + 1, d.ngetval + 1⟩ ⟨.consumer, .unlock, n⟩

section
variable {nitems : ℕ} {a : Unit} {r : Place} {s : Sems Sem Shared} {e : SemEvent Sem Did}
  {o : Outcome Sem (Sems Sem Shared) Place}

theorem balanced (h : Sems.atomic (prodcons4 nitems) a r s = some (e, o)) :
    Balanced s o.shared r o.place := by
  obtain ⟨w, stage, n⟩ := r
  cases w <;> cases stage <;> simp only [Sems.atomic, prodcons4, produce, consume] at h
  case producer.unlock | producer.give | producer.addOne | producer.lastEmpty |
      producer.lastUnlock | consumer.unlock | consumer.give | consumer.addOne |
      consumer.lastStored | consumer.lastUnlock =>
    obtain ⟨-, rfl⟩ := Prod.mk.inj (Option.some.inj h)
    exact ⟨rfl, by simp, rfl, rfl, rfl, rfl, rfl⟩
  case producer.lastStored =>
    obtain ⟨-, rfl⟩ := Prod.mk.inj (Option.some.inj h)
    refine ⟨rfl, fun _ => rfl, rfl, rfl, ?_, rfl, rfl⟩
    show s.value .nstored + 1 + 0 + 0 + s.data.nget + s.data.nput + 0 =
      s.value .nstored + 0 + 0 + s.data.nget + s.data.nput + 1
    omega
  case producer.take | producer.lock | consumer.take | consumer.lock =>
    split at h
    · cases h
    · obtain ⟨-, rfl⟩ := Prod.mk.inj (Option.some.inj h)
      constructor <;> simp [Sems.down, Place.holds, Place.slot, Place.emptied, Place.item,
        Place.stored, Place.extra, Place.produced, Place.consumed]
      omega
  case producer.access | consumer.access =>
    obtain ⟨-, rfl⟩ := Prod.mk.inj (Option.some.inj h)
    split
    · exact ⟨rfl, by simp, rfl, rfl, rfl, rfl, rfl⟩
    · constructor <;> simp [Place.holds, Place.slot, Place.emptied, Place.item,
        Place.stored, Place.extra, Place.produced, Place.consumed] <;> omega
  case producer.returned | consumer.returned | consumer.lastEmpty => cases h

theorem handles (h : Sems.atomic (prodcons4 nitems) a r s = some (e, o)) :
    Handles nitems s.data r e o.shared.data o.place := by
  obtain ⟨w, stage, n⟩ := r
  cases w <;> cases stage <;> simp only [Sems.atomic, prodcons4, produce, consume] at h
  case producer.access =>
    split at h
    · obtain ⟨rfl, rfl⟩ := Prod.mk.inj (Option.some.inj h)
      exact .done (fun _ => ‹_›) fun h => by cases h
    · obtain ⟨rfl, rfl⟩ := Prod.mk.inj (Option.some.inj h)
      exact .store (by omega)
  case consumer.access =>
    split at h
    · obtain ⟨rfl, rfl⟩ := Prod.mk.inj (Option.some.inj h)
      exact .done (fun h => by cases h) fun _ => ‹_›
    · obtain ⟨rfl, rfl⟩ := Prod.mk.inj (Option.some.inj h)
      exact .check (by omega)
  case producer.take | producer.lock | consumer.take | consumer.lock =>
    split at h
    · cases h
    · obtain ⟨rfl, rfl⟩ := Prod.mk.inj (Option.some.inj h)
      exact .none (by simp) id
  case producer.returned | consumer.returned | consumer.lastEmpty => cases h
  all_goals
    obtain ⟨rfl, rfl⟩ := Prod.mk.inj (Option.some.inj h)
    exact .none (by simp) id

end

section
variable {nitems : ℕ} {role : ι → Thread} {t : State ι} {i : ι} {e : SemEvent Sem Did}
  {o : Outcome Sem (Sems Sem Shared) Place} {woken : Finset ι}

theorem Counts.after (hI : Counts t) (hb : Balanced t.shared o.shared (t.place i) o.place) :
    Counts (t.after i o woken) := by
  have hmove := fun w : Place → ℕ => t.total_after i o woken w
  obtain ⟨hmutex, hnempty, hnstored, hproduced, hconsumed⟩ := hI
  obtain ⟨-, -, bmutex, bnempty, bnstored, bproduced, bconsumed⟩ := hb
  have hholds := hmove Place.holds
  have hslot := hmove Place.slot
  have hemptied := hmove Place.emptied
  have hitem := hmove Place.item
  have hstored := hmove Place.stored
  have hextra := hmove Place.extra
  have hproduced' := hmove Place.produced
  have hconsumed' := hmove Place.consumed
  constructor <;> rw [Threads.after_shared] <;> omega

/-- A consumer that has an item in hand finds one in the buffer. -/
theorem Intact.nget_lt (hI : Intact nitems role t) (hc : Counts t)
    (hitem : 0 < (t.place i).item) (hget : t.shared.data.nget < nitems) :
    t.shared.data.nget < t.shared.data.nput := by
  have hle := t.le_total Place.item i
  have hnstored := hc.nstored
  by_cases hextra : t.total Place.extra = 0
  · omega
  · -- a producer has posted once more, and it does so when everything is stored
    obtain ⟨j, hj⟩ := t.exists_of_total_pos (Nat.pos_of_ne_zero hextra)
    have hfull : t.shared.data.nput = nitems := by
      refine hI.full j ?_ ?_
      · rw [← hI.thread j]
        revert hj
        generalize t.place j = r
        obtain ⟨w, stage, n⟩ := r
        cases w with
        | producer => exact fun _ => rfl
        | consumer => exact fun h => absurd h (lt_irrefl 0)
      · revert hj
        generalize t.place j = r
        obtain ⟨w, stage, n⟩ := r
        cases w <;> cases stage <;> simp [Place.extra, Place.Over]
    omega

theorem Intact.after (hI : Intact nitems role t) (hc : Counts t)
    (hb : Balanced t.shared o.shared (t.place i) o.place)
    (hh : Handles nitems t.shared.data (t.place i) e o.shared.data o.place) :
    Intact nitems role (t.after i o woken) := by
  have hrole := hI.thread i
  have hslot := t.le_total Place.slot i
  have hnget := hI.nget_lt hc (i := i)
  have hnempty := hc.nempty
  obtain ⟨hthreads, hlast, hvals, hle, hfull, hempty, hbuff⟩ := hI
  have hfull_i := hfull i
  have hempty_i := hempty i
  have hthreads' : ∀ j, ((t.after i o woken).place j).thread = role j :=
    Threads.forall_after (P := fun j (r : Place) => r.thread = role j) (hb.thread.trans hrole)
      hthreads
  have hlast' : ∀ j, ((t.after i o woken).place j).stage = .lastEmpty →
      ((t.after i o woken).place j).thread = .producer :=
    Threads.forall_after
      (P := fun _ (r : Place) => r.stage = .lastEmpty → r.thread = .producer) hb.last hlast
  clear hb
  obtain ⟨⟨value, data⟩, r', notify, sleep⟩ := o
  simp only at hh
  generalize t.place i = r at hh hrole hslot hnget hfull_i hempty_i
  cases hh with
  | none he hover =>
    exact ⟨hthreads', hlast', hvals, hle,
      Threads.forall_after
        (P := fun j (r : Place) => role j = .producer → r.Over → t.shared.data.nput = nitems)
        (fun hp ho => hfull_i hp (hover ho)) hfull,
      Threads.forall_after
        (P := fun j (r : Place) => role j = .consumer → r.Over → t.shared.data.nget = nitems)
        (fun hp ho => hempty_i hp (hover ho)) hempty, hbuff⟩
  | done hput hget =>
    exact ⟨hthreads', hlast', hvals, hle,
      Threads.forall_after
        (P := fun j (r : Place) => role j = .producer → r.Over → t.shared.data.nput = nitems)
        (fun hp _ => Nat.le_antisymm hle.2 (hput (hrole.trans hp))) hfull,
      Threads.forall_after
        (P := fun j (r : Place) => role j = .consumer → r.Over → t.shared.data.nget = nitems)
        (fun hp _ => Nat.le_antisymm (hle.1.trans hle.2) (hget (hrole.trans hp))) hempty, hbuff⟩
  | store hput =>
    have hone : 1 ≤ t.total Place.slot := hslot
    refine ⟨hthreads', hlast', ⟨congrArg (· + 1) hvals.1, hvals.2⟩,
      ⟨Nat.le_succ_of_le hle.1, hput⟩,
      Threads.forall_after
        (P := fun j (r : Place) => role j = .producer → r.Over → t.shared.data.nput + 1 = nitems)
        (fun _ ho => ho.elim) fun j hp ho => absurd (hfull j hp ho) (Nat.ne_of_lt hput),
      Threads.forall_after
        (P := fun j (r : Place) => role j = .consumer → r.Over → t.shared.data.nget = nitems)
        (fun _ ho => ho.elim) hempty, fun k hk hkput => ?_⟩
    change k < t.shared.data.nput + 1 at hkput
    change t.shared.data.nget ≤ k at hk
    show Function.update t.shared.data.buff (t.shared.data.nput % NBUFF) t.shared.data.nputval
      (k % NBUFF) = k
    by_cases heq : k = t.shared.data.nput
    · subst heq
      rw [Function.update_self, hvals.1]
    · have hlt : k < t.shared.data.nput := by omega
      rw [Function.update_of_ne (slot_ne hlt (by omega))]
      exact hbuff k hk hlt
  | check hget =>
    have hlt := hnget Nat.one_pos hget
    exact ⟨hthreads', hlast', ⟨hvals.1, congrArg (· + 1) hvals.2⟩, ⟨hlt, hle.2⟩,
      Threads.forall_after
        (P := fun j (r : Place) => role j = .producer → r.Over → t.shared.data.nput = nitems)
        (fun _ ho => ho.elim) hfull,
      Threads.forall_after
        (P := fun j (r : Place) => role j = .consumer → r.Over → t.shared.data.nget + 1 = nitems)
        (fun _ ho => ho.elim) fun j hp ho => absurd (hempty j hp ho) (Nat.ne_of_lt hget),
      fun k hk hkput => hbuff k (Nat.le_of_succ_le hk) hkput⟩

end

/-! ## Runs -/

section
variable {nitems : ℕ} {role : ι → Thread} {cv : CondVar} {t : State ι}

/-- A run of `prodcons4`, with the semaphores of the standard. -/
abbrev Prodcons4Run (nitems : ℕ) (role : ι → Thread) (cv : CondVar)
    (tr : List (State ι × Event ι (SemEvent Sem Did))) (t : State ι) : Prop :=
  Run (Step (Sems.atomic (prodcons4 nitems)) cv) (.start initial fun i => entry (role i)) tr t

variable {tr : List (State ι × Event ι (SemEvent Sem Did))}

/-- The item a consumer checked, what it found, and what it expected. -/
def checked? : Event ι (SemEvent Sem Did) → Option (ℕ × ℤ × ℤ)
  | .did _ (.did (.checked k v w)) => some (k, v, w)
  | _ => none

/-- The checks of all consumers, in order. -/
def checks (tr : List (State ι × Event ι (SemEvent Sem Did))) : List (ℕ × ℤ × ℤ) :=
  (labels tr).filterMap checked?

/-- Items `0` to `n - 1`, each found where it was expected. -/
def found (n : ℕ) : List (ℕ × ℤ × ℤ) := (List.range n).map fun k => (k, k, k)

theorem found_succ (n : ℕ) : found (n + 1) = found n ++ [(n, (n : ℤ), (n : ℤ))] := by
  rw [found, List.range_succ, List.map_append]
  rfl

omit [Fintype ι] [DecidableEq ι] in
theorem checks_snoc (u : State ι) (ev : Event ι (SemEvent Sem Did)) :
    checks (tr ++ [(u, ev)]) = checks tr ++ (checked? ev).toList :=
  filterMap_labels_snoc ..

theorem Intact.checked {i : ι} {e : SemEvent Sem Did} {o : Outcome Sem (Sems Sem Shared) Place}
    (hI : Intact nitems role t) (hc : Counts t)
    (hh : Handles nitems t.shared.data (t.place i) e o.shared.data o.place) :
    found o.shared.data.nget = found t.shared.data.nget ++ (checked? (.did i e)).toList := by
  have hnget := hI.nget_lt hc (i := i)
  obtain ⟨⟨value, data⟩, r', notify, sleep⟩ := o
  simp only at hh ⊢
  generalize t.place i = r at hh hnget
  cases hh with
  | none he =>
    have hnone : checked? (.did i e) = none := by
      cases e with
      | did d =>
        cases d with
        | checked k v w => exact absurd rfl (he k v w)
        | done | stored | counted => rfl
      | waited | refused | posted | got | slept => rfl
    rw [hnone]
    exact (List.append_nil _).symm
  | done => exact (List.append_nil _).symm
  | store => exact (List.append_nil _).symm
  | check hget =>
    have hfound := hI.buff t.shared.data.nget (Nat.le_refl _) (hnget Nat.one_pos hget)
    rw [hfound, hI.vals.2]
    exact found_succ _

omit [DecidableEq ι] in
/-- At `take` a thread counts for nothing. -/
theorem total_entry {w : Place → ℕ} (hw : ∀ v, w (entry v) = 0) :
    Threads.total (Threads.start initial (fun i => entry (role i)) : State ι) w = 0 :=
  Threads.total_eq_zero_iff.mpr fun i => hw (role i)

omit [DecidableEq ι] in
theorem counts_start : Counts (.start initial fun i => entry (role i) : State ι) where
  mutex := by
    rw [total_entry fun _ => rfl]
    rfl
  nempty := by
    rw [total_entry fun v => by cases v <;> rfl, total_entry fun v => by cases v <;> rfl]
    rfl
  nstored := by
    rw [total_entry fun v => by cases v <;> rfl, total_entry fun v => by cases v <;> rfl,
      total_entry fun v => by cases v <;> rfl]
    rfl
  produced := total_entry fun v => by cases v <;> rfl
  consumed := total_entry fun v => by cases v <;> rfl

omit [Fintype ι] [DecidableEq ι] in
theorem intact_start : Intact nitems role (.start initial fun i => entry (role i)) where
  thread _ := rfl
  last _ := nofun
  vals := ⟨rfl, rfl⟩
  le := ⟨Nat.le_refl 0, Nat.zero_le _⟩
  full _ _ h := h.elim
  empty _ _ h := h.elim
  buff _ _ h := absurd h (Nat.not_lt_zero _)

/-- **The books of a run.** -/
theorem books_run (run : Prodcons4Run nitems role cv tr t) :
    Counts t ∧ Intact nitems role t ∧ checks tr = found t.shared.data.nget := by
  refine run.invariant (I := fun tr (t : State ι) =>
    Counts t ∧ Intact nitems role t ∧ checks tr = found t.shared.data.nget) ?_ ?_
  · exact ⟨counts_start, intact_start, rfl⟩
  · rintro tr u ev u' - ⟨hcounts, hintact, hchecks⟩ h
    rw [checks_snoc]
    cases step_iff_moves.mp h with
    | region i a woken _ ho _ =>
      exact ⟨hcounts.after (balanced ho), hintact.after hcounts (balanced ho) (handles ho), by
        rw [hchecks, Threads.after_shared, hintact.checked hcounts (handles ho)]⟩
    | awoke i =>
      obtain ⟨hmutex, hnempty, hnstored, hproduced, hconsumed⟩ := hcounts
      obtain ⟨hthread, hlast, hvals, hle, hfull, hempty, hbuff⟩ := hintact
      exact ⟨⟨hmutex, hnempty, hnstored, hproduced, hconsumed⟩,
        ⟨hthread, hlast, hvals, hle, hfull, hempty, hbuff⟩,
        by rw [hchecks]; exact List.append_nil _⟩

/-! ## Standing still -/

theorem stuck_cases {a : Unit} {r : Place} {s : Sems Sem Shared}
    (h : Sems.atomic (prodcons4 nitems) a r s = none)
    (hlast : r.stage = .lastEmpty → r.thread = .producer) :
    r.stage = .returned ∨
    (r.stage = .take ∧ s.value (if r.thread = .producer then .nempty else .nstored) = 0) ∨
    (r.stage = .lock ∧ s.value .mutex = 0) := by
  obtain ⟨w, stage, n⟩ := r
  cases stage with
  | returned => exact .inl rfl
  | take =>
    refine .inr (.inl ⟨rfl, ?_⟩)
    cases w <;> simpa [Sems.atomic, prodcons4, produce, consume] using h
  | lock =>
    refine .inr (.inr ⟨rfl, ?_⟩)
    cases w <;> simpa [Sems.atomic, prodcons4, produce, consume] using h
  | lastEmpty =>
    obtain rfl : w = .producer := hlast rfl
    simp [Sems.atomic, prodcons4, produce] at h
  | access | unlock | give | addOne | lastStored | lastUnlock =>
    cases w <;> simp [Sems.atomic, prodcons4, produce, consume] at h

theorem Place.eq_of_stage {r : Place} {stage : Stage} (h : r.stage = stage) :
    r = ⟨r.thread, stage, r.count⟩ := h ▸ rfl

theorem Place.over_of_returned {r : Place} (h : r.stage = .returned) : r.Over := by
  rw [Place.eq_of_stage h]
  trivial

/-- A thread that has returned, or waits at the head of its loop. -/
def Place.Idle (r : Place) : Prop := r.stage = .returned ∨ r.stage = .take

theorem Place.Idle.counts {r : Place} (h : r.Idle) :
    r.holds = 0 ∧ r.slot = 0 ∧ r.emptied = 0 ∧ r.item = 0 ∧ r.stored = 0 := by
  obtain ⟨w, stage, n⟩ := r
  rcases h with h | h <;> obtain rfl : stage = _ := h <;> cases w <;>
    exact ⟨rfl, rfl, rfl, rfl, rfl⟩

omit [DecidableEq ι] in
/-- Where nobody can go on, nobody waits for the mutex. -/
theorem idle_of_still (hc : Counts t) (hI : Intact nitems role t)
    (hstill : ∀ i, Sems.atomic (prodcons4 nitems) () (t.place i) t.shared = none) (i : ι) :
    (t.place i).stage = .returned ∨ (t.place i).stage = .take ∧
      t.shared.value (if role i = .producer then .nempty else .nstored) = 0 := by
  have hcases := fun j => stuck_cases (hstill j) (hI.last j)
  have hholds : t.total Place.holds = 0 := by
    refine Threads.total_eq_zero_iff.mpr fun j => ?_
    rcases hcases j with h | ⟨h, -⟩ | ⟨h, -⟩ <;> rw [Place.eq_of_stage h] <;> rfl
  have hmutex := hc.mutex
  rcases hcases i with h | ⟨h, hzero⟩ | ⟨-, hzero⟩
  · exact .inl h
  · exact .inr ⟨h, by rwa [hI.thread i] at hzero⟩
  · omega

/-- **When the threads stand still**, all of them have returned. -/
theorem all_returned (hc : Counts t) (hI : Intact nitems role t) {p c : ι}
    (hp : role p = .producer) (hcons : role c = .consumer)
    (hstill : ∀ i, Sems.atomic (prodcons4 nitems) () (t.place i) t.shared = none) (i : ι) :
    (t.place i).stage = .returned := by
  have hidle := idle_of_still hc hI hstill
  have hcounts : ∀ j, (t.place j).Idle := fun j => (hidle j).imp id And.left
  have hslot : t.total Place.slot = 0 :=
    Threads.total_eq_zero_iff.mpr fun j => (hcounts j).counts.2.1
  have hemptied : t.total Place.emptied = 0 :=
    Threads.total_eq_zero_iff.mpr fun j => (hcounts j).counts.2.2.1
  have hitem : t.total Place.item = 0 :=
    Threads.total_eq_zero_iff.mpr fun j => (hcounts j).counts.2.2.2.1
  have hstored : t.total Place.stored = 0 :=
    Threads.total_eq_zero_iff.mpr fun j => (hcounts j).counts.2.2.2.2
  have hnempty := hc.nempty
  have hnstored := hc.nstored
  have hle := hI.le
  have hten : NBUFF = 10 := rfl
  have hproducers : ∀ j, role j = .producer → (t.place j).stage = .returned := by
    intro j hj
    rcases hidle j with h | ⟨-, hzero⟩
    · exact h
    · -- the buffer is full, so no consumer waits, and none may have returned
      rw [if_pos hj] at hzero
      rcases hidle c with hret | ⟨-, hzero'⟩
      · have hget := hI.empty c hcons (Place.over_of_returned hret)
        omega
      · rw [if_neg (by rw [hcons]; decide)] at hzero'
        omega
  cases hrole : role i with
  | producer => exact hproducers i hrole
  | consumer =>
    rcases hidle i with h | ⟨-, hzero⟩
    · exact h
    · -- a producer has returned, and has posted once more
      rw [if_neg (by rw [hrole]; decide)] at hzero
      have hextra : 1 ≤ t.total Place.extra := by
        refine le_trans ?_ (t.le_total Place.extra p)
        rw [Place.eq_of_stage (hproducers p hp), (hI.thread p).trans hp]
        exact Nat.le_refl 1
      omega

/-! ## The length of a run -/

/-- The steps a thread has made. -/
def Place.steps : Place → ℕ
  | ⟨_, .take, n⟩ => 6 * n
  | ⟨_, .lock, n⟩ => 6 * n + 1
  | ⟨_, .access, n⟩ => 6 * n + 2
  | ⟨_, .unlock, n⟩ | ⟨_, .lastStored, n⟩ => 6 * n + 3
  | ⟨_, .give, n⟩ | ⟨.producer, .lastEmpty, n⟩ | ⟨.consumer, .lastUnlock, n⟩ => 6 * n + 4
  | ⟨_, .addOne, n⟩ | ⟨.producer, .lastUnlock, n⟩ | ⟨.consumer, .returned, n⟩ => 6 * n + 5
  | ⟨.producer, .returned, n⟩ | ⟨.consumer, .lastEmpty, n⟩ => 6 * n + 6

theorem Place.steps_le (r : Place) : r.steps ≤ 6 * (r.produced + r.consumed) + 6 := by
  obtain ⟨w, stage, n⟩ := r
  cases w <;> cases stage <;> simp only [steps, produced, consumed] <;> omega

theorem steps_region {a : Unit} {r : Place} {s : Sems Sem Shared} {e : SemEvent Sem Did}
    {o : Outcome Sem (Sems Sem Shared) Place}
    (h : Sems.atomic (prodcons4 nitems) a r s = some (e, o)) : o.place.steps = r.steps + 1 := by
  obtain ⟨w, stage, n⟩ := r
  cases w <;> cases stage <;> simp only [Sems.atomic, prodcons4, produce, consume] at h
  case producer.take | producer.lock | consumer.take | consumer.lock =>
    split at h
    · cases h
    · obtain ⟨-, rfl⟩ := Prod.mk.inj (Option.some.inj h)
      rfl
  case producer.access | consumer.access =>
    obtain ⟨-, rfl⟩ := Prod.mk.inj (Option.some.inj h)
    split <;> rfl
  case producer.returned | consumer.returned | consumer.lastEmpty => cases h
  all_goals
    obtain ⟨-, rfl⟩ := Prod.mk.inj (Option.some.inj h)
    rfl

/-- **Every run of `prodcons4` comes to an end.** -/
theorem prodcons4_ends (run : Prodcons4Run nitems role cv tr t) :
    tr.length ≤ 12 * nitems + 6 * Fintype.card ι := by
  have hsteps : tr.length = t.total Place.steps := by
    refine run.invariant (I := fun tr (t : State ι) => tr.length = t.total Place.steps) ?_ ?_
    · exact (total_entry fun _ => rfl).symm
    · intro tr u ev u' hrun ih h
      rw [List.length_append, List.length_singleton, ih]
      cases step_iff_moves.mp h with
      | @region i a e o woken _ ho _ =>
        have hmove := u.total_after i o woken Place.steps
        rw [steps_region ho] at hmove
        omega
      | awoke i _ hasleep => exact absurd (Sems.atomic_awake hrun i) hasleep
  obtain ⟨hcounts, hintact, -⟩ := books_run run
  have hle : t.total Place.steps ≤
      6 * (t.total Place.produced + t.total Place.consumed) + 6 * Fintype.card ι := by
    calc t.total Place.steps
        ≤ ∑ i, (6 * ((t.place i).produced + (t.place i).consumed) + 6) :=
          Finset.sum_le_sum fun i _ => (t.place i).steps_le
      _ = 6 * (t.total Place.produced + t.total Place.consumed) + 6 * Fintype.card ι := by
          rw [Finset.sum_add_distrib, ← Finset.mul_sum, Finset.sum_add_distrib, Finset.sum_const,
            Finset.card_univ, smul_eq_mul, Nat.mul_comm (Fintype.card ι) 6]
          rfl
  rw [hcounts.produced, hcounts.consumed] at hle
  have hget := hintact.le
  omega

/-- One thread of each kind, and two items. -/
theorem exists_twoItems : ∃ tr, ∃ t : State Thread, Prodcons4Run 2 id .single tr t ∧
    Terminal (Step (Sems.atomic (prodcons4 2)) .single) t :=
  ⟨_, _, run_get (exec (Sems.atomic (prodcons4 2)) .single)
    (List.replicate 18 (.run .producer () ∅) ++ List.replicate 17 (.run .consumer () ∅)) _
    (by decide +kernel), terminal_of (by decide +kernel) fun i a =>
      Option.isNone_iff_eq_none.mp (by revert i a; decide +kernel)⟩

theorem prodcons4_ends_twoItems : ∃ tr, ∃ t : State Thread, Prodcons4Run 2 id .single tr t ∧
    tr.length ≤ 12 * 2 + 6 * Fintype.card Thread := by
  obtain ⟨tr, t, run, -⟩ := exists_twoItems
  exact ⟨tr, t, run, prodcons4_ends run⟩

/-- **The checks of `prodcons4`**: the consumers find every item in its slot, in order. -/
theorem prodcons4_checks (run : Prodcons4Run nitems role cv tr t) :
    ∃ n ≤ nitems, checks tr = found n := by
  obtain ⟨-, hintact, hchecks⟩ := books_run run
  exact ⟨_, hintact.le.1.trans hintact.le.2, hchecks⟩

theorem prodcons4_checks_twoItems : ∃ tr, ∃ t : State Thread, Prodcons4Run 2 id .single tr t ∧
    ∃ n ≤ 2, checks tr = found n := by
  obtain ⟨tr, t, run, -⟩ := exists_twoItems
  exact ⟨tr, t, run, prodcons4_checks run⟩

/-- What `main` prints for the threads with this role, added up. -/
def counted (w : Thread) (t : State ι) : ℕ :=
  t.total fun r => if r.thread = w then r.count else 0

/-- **The threads of `prodcons4` only stand still when all have returned**, every item has
been consumed, and the counts add up. -/
theorem prodcons4_returns (run : Prodcons4Run nitems role cv tr t) {p c : ι}
    (hp : role p = .producer) (hcons : role c = .consumer)
    (hterminal : Terminal (Step (Sems.atomic (prodcons4 nitems)) cv) t) :
    (∀ i, (t.place i).stage = .returned) ∧ checks tr = found nitems ∧
      counted .producer t = nitems ∧ counted .consumer t = nitems := by
  obtain ⟨hcounts, hintact, hchecks⟩ := books_run run
  have hawake := Sems.atomic_awake run
  have hreturned := all_returned hcounts hintact hp hcons fun i =>
    terminal_region hterminal (hawake i) ()
  have hput := hintact.full p hp (Place.over_of_returned (hreturned p))
  have hget := hintact.empty c hcons (Place.over_of_returned (hreturned c))
  refine ⟨hreturned, by rw [hchecks, hget], ?_, ?_⟩
  · rw [← hput, ← hcounts.produced]
    refine Finset.sum_congr rfl fun i _ => ?_
    rw [Place.eq_of_stage (hreturned i)]
    cases (t.place i).thread <;> rfl
  · rw [← hget, ← hcounts.consumed]
    refine Finset.sum_congr rfl fun i _ => ?_
    rw [Place.eq_of_stage (hreturned i)]
    cases (t.place i).thread <;> rfl

theorem prodcons4_returns_twoItems : ∃ tr, ∃ t : State Thread, Prodcons4Run 2 id .single tr t ∧
    (∀ i, (t.place i).stage = .returned) ∧ checks tr = found 2 ∧
      counted .producer t = 2 ∧ counted .consumer t = 2 := by
  obtain ⟨tr, t, run, hterminal⟩ := exists_twoItems
  exact ⟨tr, t, run, prodcons4_returns run (p := .producer) (c := .consumer) rfl rfl hterminal⟩

end
end PosixNet.Pxsem.Prodcons4
