import PosixNet.Monitor

/-!
# `my_rwlock` and `my_rwlock_cancel`: read–write locks

`pthread_rwlock_rdlock`, `_wrlock`, `_tryrdlock`, `_trywrlock`, `_unlock` and `_destroy` of the
two directories.  A lock is three numbers under a mutex: how many threads have it
(`rw_refcount`, or -1 for a writer), and how many wait for it to read or to write.

The threads here are any clients: each may make any call at any time, have the lock for
reading more than once, unlock what it does not have, and be cancelled while it waits.  In
`my_rwlock_cancel` a thread that is cancelled takes itself off the count and unlocks the mutex;
in `my_rwlock` it does neither.

* **`exclusive_run`**: if threads only unlock what they have, a writer excludes everybody else
  and the three numbers are what they should be; so `_unlock` never gets to its `err_dump`.
* **`writers_first`**: nobody gets the lock for reading while a writer waits.
* **`never_stranded`**: a lock that is free is taken by somebody who waits for it, if no
  waiting writer is cancelled, and in `my_rwlock` no waiting reader; else it need not be
  (**`rwlock_stranded_iff`**).
-/
namespace PosixNet.Rwlock
open Monitor

/-- What has become of `rw_mutex`. -/
inductive Mutex where
  | usable
  /-- A thread of `my_rwlock` was cancelled, and has not unlocked it. -/
  | abandoned
  /-- The process has ended in `err_dump`, or `rw_refcount` was `INT_MAX` and incremented: C
  says nothing of what follows. -/
  | ended
  deriving DecidableEq

/-- `pthread_rwlock_t`, less the condition variables. -/
structure Rw where
  nwaitreaders : ℤ
  nwaitwriters : ℤ
  refcount : ℤ
  mutex : Mutex
  deriving DecidableEq

/-- `rw_condreaders` and `rw_condwriters`. -/
inductive Cond where
  | readers | writers
  deriving DecidableEq

/-- Where a thread is between two of its regions. -/
inductive Stage where
  | outside
  /-- In the loop of `pthread_rwlock_rdlock`, counted in `rw_nwaitreaders`. -/
  | rdwait
  /-- In the loop of `pthread_rwlock_wrlock`, counted in `rw_nwaitwriters`. -/
  | wrwait
  /-- Cancelled, and off the count. -/
  | cancelled
  /-- Cancelled, and still counted. -/
  | died (c : Cond)
  /-- `err_dump` in `pthread_rwlock_unlock`. -/
  | dumped
  /-- At `rw_refcount++`, with `rw_refcount` equal to `INT_MAX`. -/
  | overflowed
  deriving DecidableEq

/-- Where a thread is, and what it has of the lock. -/
structure Place where
  stage : Stage
  reads : ℕ
  writes : Bool
  deriving DecidableEq

/-- What a client may do next. -/
inductive Call where
  | rdlock | tryrdlock | wrlock | trywrlock | unlock
  /-- The thread goes on behind `pthread_cond_wait`. -/
  | resume
  /-- The thread is cancelled in `pthread_cond_wait`, and has the mutex again. -/
  | cancel
  deriving DecidableEq

/-- What a call did. -/
inductive Done where
  | gotRead | gotWrite | busy | sleptRead | sleptWrite | released | dumped | overflowed
  | cancelledRead | cancelledWrite
  deriving DecidableEq

/-- The two directories. -/
inductive Version where
  | my_rwlock | my_rwlock_cancel
  deriving DecidableEq

variable (v : Version) (p : Place) (rw : Rw)

def INT_MAX : ℤ := 2147483647

/-- `rw->rw_refcount++`, for one more reader. -/
def addReader : Done × Outcome Cond Rw Place :=
  if rw.refcount = INT_MAX then
    (.overflowed, {
      shared := { rw with mutex := .ended }
      place := { p with stage := .overflowed } })
  else
    (.gotRead, {
      shared := { rw with refcount := rw.refcount + 1 }
      place := ⟨.outside, p.reads + 1, p.writes⟩ })

/-- The test of the loop of `pthread_rwlock_rdlock`, and what follows it. -/
def rdlock : Done × Outcome Cond Rw Place :=
  if rw.refcount < 0 ∨ rw.nwaitwriters > 0 then
    (.sleptRead, {
      shared := { rw with nwaitreaders := rw.nwaitreaders + 1 }
      place := { p with stage := .rdwait }
      sleep := some .readers })
  else addReader p rw

/-- The test of the loop of `pthread_rwlock_wrlock`, and what follows it. -/
def wrlock : Done × Outcome Cond Rw Place :=
  if rw.refcount ≠ 0 then
    (.sleptWrite, {
      shared := { rw with nwaitwriters := rw.nwaitwriters + 1 }
      place := { p with stage := .wrwait }
      sleep := some .writers })
  else
    (.gotWrite, { shared := { rw with refcount := -1 }, place := ⟨.outside, p.reads, true⟩ })

/-- The test of `pthread_rwlock_tryrdlock`. -/
def tryBusy : Bool :=
  match v with
  | .my_rwlock => rw.refcount < 0 ∨ rw.nwaitwriters > 0
  | .my_rwlock_cancel => rw.refcount = -1 ∨ rw.nwaitwriters > 0

/-- `pthread_rwlock_tryrdlock` -/
def tryrdlock : Done × Outcome Cond Rw Place :=
  if tryBusy v rw then (.busy, { shared := rw, place := p }) else addReader p rw

/-- `pthread_rwlock_trywrlock` -/
def trywrlock : Done × Outcome Cond Rw Place :=
  if rw.refcount ≠ 0 then (.busy, { shared := rw, place := p })
  else (.gotWrite, { shared := { rw with refcount := -1 }, place := ⟨.outside, p.reads, true⟩ })

/-- What a thread has after it has unlocked once; it may have had nothing. -/
def Place.less : Place :=
  if p.writes then { p with writes := false } else { p with reads := p.reads - 1 }

/-- The end of `pthread_rwlock_unlock`. -/
def wake : Notice Cond :=
  match v with
  | .my_rwlock =>
    if rw.nwaitwriters > 0 then if rw.refcount = 0 then .signal .writers else .quiet
    else if rw.nwaitreaders > 0 then .broadcast .readers
    else .quiet
  | .my_rwlock_cancel =>
    if rw.nwaitwriters > 0 then .signal .writers
    else if rw.nwaitreaders > 0 then .broadcast .readers
    else .quiet

/-- `rw`, when its count is `r` after the release. -/
def release (r : ℤ) : Done × Outcome Cond Rw Place :=
  (.released, {
    shared := { rw with refcount := r }
    place := p.less
    notify := wake v { rw with refcount := r } })

/-- `pthread_rwlock_unlock` does not ask who calls it. -/
def unlock : Done × Outcome Cond Rw Place :=
  if rw.refcount > 0 then release v p rw (rw.refcount - 1)
  else if rw.refcount = -1 then release v p rw 0
  else
    (.dumped, {
      shared := { rw with mutex := .ended }
      place := { p with stage := .dumped } })

/-- The cleanup handler of `pthread_rwlock_rdlock`, and the end of its thread. -/
def rwlock_cancelrdwait : Outcome Cond Rw Place where
  shared := { rw with nwaitreaders := rw.nwaitreaders - 1 }
  place := { p with stage := .cancelled }

/-- The cleanup handler of `pthread_rwlock_wrlock`, and the end of its thread. -/
def rwlock_cancelwrwait : Outcome Cond Rw Place where
  shared := { rw with nwaitwriters := rw.nwaitwriters - 1 }
  place := { p with stage := .cancelled }

/-- A thread of `my_rwlock` is cancelled: there is no cleanup handler, so it ends with the
mutex locked, and nothing is taken off the counts. -/
def die (c : Cond) : Outcome Cond Rw Place where
  shared := { rw with mutex := .abandoned }
  place := { p with stage := .died c }

/-- The thread is cancelled where it waits to read. -/
def cancelRead : Outcome Cond Rw Place :=
  match v with
  | .my_rwlock => die p rw .readers
  | .my_rwlock_cancel => rwlock_cancelrdwait p rw

/-- The thread is cancelled where it waits to write. -/
def cancelWrite : Outcome Cond Rw Place :=
  match v with
  | .my_rwlock => die p rw .writers
  | .my_rwlock_cancel => rwlock_cancelwrwait p rw

/-- The calls a client may make, while the mutex can be locked. -/
def rwlock : Monitor Call Done Cond Rw Place := fun call p rw =>
  match rw.mutex, call, p.stage with
  | .usable, .rdlock, .outside => some (rdlock p rw)
  | .usable, .tryrdlock, .outside => some (tryrdlock v p rw)
  | .usable, .wrlock, .outside => some (wrlock p rw)
  | .usable, .trywrlock, .outside => some (trywrlock p rw)
  | .usable, .unlock, .outside => some (unlock v p rw)
  | .usable, .resume, .rdwait =>
    some (rdlock p { rw with nwaitreaders := rw.nwaitreaders - 1 })
  | .usable, .resume, .wrwait =>
    some (wrlock p { rw with nwaitwriters := rw.nwaitwriters - 1 })
  | .usable, .cancel, .rdwait => some (.cancelledRead, cancelRead v p rw)
  | .usable, .cancel, .wrwait => some (.cancelledWrite, cancelWrite v p rw)
  | _, _, _ => none

/-- `PTHREAD_RWLOCK_INITIALIZER` -/
def initial : Rw := ⟨0, 0, 0, .usable⟩

/-- A thread that has nothing of the lock. -/
def entry : Place := ⟨.outside, 0, false⟩

/-- Whether `pthread_rwlock_destroy` destroys the lock, or returns `EBUSY`.  It does not lock
the mutex. -/
def destroys : Bool := ¬ (rw.refcount ≠ 0 ∨ rw.nwaitreaders ≠ 0 ∨ rw.nwaitwriters ≠ 0)

/-! ## All that a call can do -/

namespace Place

/-- The thread has the lock, to read or to write. -/
def Has : Prop := p.reads ≠ 0 ∨ p.writes

instance : Decidable p.Has := inferInstanceAs (Decidable (_ ∨ _))

/-- The thread is counted in `rw_nwaitreaders`. -/
def rdwaits : ℕ := if p.stage = .rdwait ∨ p.stage = .died .readers then 1 else 0

/-- The thread is counted in `rw_nwaitwriters`. -/
def wrwaits : ℕ := if p.stage = .wrwait ∨ p.stage = .died .writers then 1 else 0

/-- The thread has the lock to write. -/
def writers : ℕ := if p.writes then 1 else 0

theorem less_stage : p.less.stage = p.stage := by
  rw [less]
  split <;> rfl

end Place

/-- **The outcomes of a call.** -/
inductive Branch : Done → Outcome Cond Rw Place → Prop
  | sleptRead (hp : p.stage = .outside ∨ p.stage = .rdwait)
      (hblocked : rw.refcount < 0 ∨ 0 < rw.nwaitwriters) :
      Branch .sleptRead {
        shared := ⟨rw.nwaitreaders - p.rdwaits + 1, rw.nwaitwriters, rw.refcount, .usable⟩
        place := ⟨.rdwait, p.reads, p.writes⟩, sleep := some .readers }
  | gotRead (hp : p.stage = .outside ∨ p.stage = .rdwait) (hcount : rw.refcount ≠ -1)
      (hwriters : rw.nwaitwriters ≤ 0) :
      Branch .gotRead {
        shared := ⟨rw.nwaitreaders - p.rdwaits, rw.nwaitwriters, rw.refcount + 1, .usable⟩
        place := ⟨.outside, p.reads + 1, p.writes⟩ }
  | overflowed (hp : p.stage = .outside ∨ p.stage = .rdwait) (hcount : rw.refcount = INT_MAX) :
      Branch .overflowed {
        shared := ⟨rw.nwaitreaders - p.rdwaits, rw.nwaitwriters, rw.refcount, .ended⟩
        place := ⟨.overflowed, p.reads, p.writes⟩ }
  | sleptWrite (hp : p.stage = .outside ∨ p.stage = .wrwait) (hcount : rw.refcount ≠ 0) :
      Branch .sleptWrite {
        shared := ⟨rw.nwaitreaders, rw.nwaitwriters - p.wrwaits + 1, rw.refcount, .usable⟩
        place := ⟨.wrwait, p.reads, p.writes⟩, sleep := some .writers }
  | gotWrite (hp : p.stage = .outside ∨ p.stage = .wrwait) (hcount : rw.refcount = 0) :
      Branch .gotWrite {
        shared := ⟨rw.nwaitreaders, rw.nwaitwriters - p.wrwaits, -1, .usable⟩
        place := ⟨.outside, p.reads, true⟩ }
  | busy (hp : p.stage = .outside) : Branch .busy { shared := rw, place := p }
  | released (hp : p.stage = .outside) {r : ℤ}
      (hr : 0 < rw.refcount ∧ r = rw.refcount - 1 ∨ rw.refcount = -1 ∧ r = 0) :
      Branch .released {
        shared := ⟨rw.nwaitreaders, rw.nwaitwriters, r, .usable⟩
        place := p.less
        notify := wake v ⟨rw.nwaitreaders, rw.nwaitwriters, r, .usable⟩ }
  | dumped (hp : p.stage = .outside) (hcount : ¬ 0 < rw.refcount) (hne : rw.refcount ≠ -1) :
      Branch .dumped {
        shared := ⟨rw.nwaitreaders, rw.nwaitwriters, rw.refcount, .ended⟩
        place := ⟨.dumped, p.reads, p.writes⟩ }
  | cancelledRead (hv : v = .my_rwlock_cancel) (hp : p.stage = .rdwait) :
      Branch .cancelledRead {
        shared := ⟨rw.nwaitreaders - 1, rw.nwaitwriters, rw.refcount, .usable⟩
        place := ⟨.cancelled, p.reads, p.writes⟩ }
  | cancelledWrite (hv : v = .my_rwlock_cancel) (hp : p.stage = .wrwait) :
      Branch .cancelledWrite {
        shared := ⟨rw.nwaitreaders, rw.nwaitwriters - 1, rw.refcount, .usable⟩
        place := ⟨.cancelled, p.reads, p.writes⟩ }
  | diedReading (hv : v = .my_rwlock) (hp : p.stage = .rdwait) :
      Branch .cancelledRead {
        shared := ⟨rw.nwaitreaders, rw.nwaitwriters, rw.refcount, .abandoned⟩
        place := ⟨.died .readers, p.reads, p.writes⟩ }
  | diedWriting (hv : v = .my_rwlock) (hp : p.stage = .wrwait) :
      Branch .cancelledWrite {
        shared := ⟨rw.nwaitreaders, rw.nwaitwriters, rw.refcount, .abandoned⟩
        place := ⟨.died .writers, p.reads, p.writes⟩ }

section
variable {v p rw} {call : Call} {e : Done} {o : Outcome Cond Rw Place}

theorem addReader_branch {n : ℤ} (hn : n = rw.nwaitreaders - p.rdwaits)
    (hp : p.stage = .outside ∨ p.stage = .rdwait) (hcount : rw.refcount ≠ -1)
    (hwriters : rw.nwaitwriters ≤ 0)
    (h : addReader p ⟨n, rw.nwaitwriters, rw.refcount, .usable⟩ = (e, o)) : Branch v p rw e o := by
  subst hn
  rw [addReader] at h
  split at h
  · obtain ⟨rfl, rfl⟩ := Prod.mk.inj h
    exact .overflowed hp ‹_›
  · obtain ⟨rfl, rfl⟩ := Prod.mk.inj h
    exact .gotRead hp hcount hwriters

theorem rdlock_branch {n : ℤ} (hn : n = rw.nwaitreaders - p.rdwaits)
    (hp : p.stage = .outside ∨ p.stage = .rdwait)
    (h : rdlock p ⟨n, rw.nwaitwriters, rw.refcount, .usable⟩ = (e, o)) : Branch v p rw e o := by
  rw [rdlock] at h
  split at h
  · subst hn
    obtain ⟨rfl, rfl⟩ := Prod.mk.inj h
    exact .sleptRead hp ‹_›
  · rename_i hfree
    simp only [not_or, not_lt] at hfree
    exact addReader_branch hn hp (by omega) hfree.2 h

theorem wrlock_branch {n : ℤ} (hn : n = rw.nwaitwriters - p.wrwaits)
    (hp : p.stage = .outside ∨ p.stage = .wrwait)
    (h : wrlock p ⟨rw.nwaitreaders, n, rw.refcount, .usable⟩ = (e, o)) : Branch v p rw e o := by
  subst hn
  rw [wrlock] at h
  split at h
  · obtain ⟨rfl, rfl⟩ := Prod.mk.inj h
    exact .sleptWrite hp ‹_›
  · obtain ⟨rfl, rfl⟩ := Prod.mk.inj h
    exact .gotWrite hp (not_not.mp ‹_›)

theorem tryBusy_eq_false (h : tryBusy v rw = false) :
    rw.refcount ≠ -1 ∧ rw.nwaitwriters ≤ 0 := by
  cases v with
  | my_rwlock =>
    have hfree : ¬ (rw.refcount < 0 ∨ rw.nwaitwriters > 0) := of_decide_eq_false h
    omega
  | my_rwlock_cancel =>
    have hfree : ¬ (rw.refcount = -1 ∨ rw.nwaitwriters > 0) := of_decide_eq_false h
    omega

theorem sub_rdwaits (h : p.stage = .outside) (n : ℤ) : n = n - p.rdwaits := by
  rw [Place.rdwaits, if_neg (by rw [h]; decide), Nat.cast_zero, Int.sub_zero]

theorem sub_wrwaits (h : p.stage = .outside) (n : ℤ) : n = n - p.wrwaits := by
  rw [Place.wrwaits, if_neg (by rw [h]; decide), Nat.cast_zero, Int.sub_zero]

theorem tryrdlock_branch (hmutex : rw.mutex = .usable) (hp : p.stage = .outside)
    (h : tryrdlock v p rw = (e, o)) : Branch v p rw e o := by
  rw [tryrdlock] at h
  split at h
  · obtain ⟨rfl, rfl⟩ := Prod.mk.inj h
    exact .busy hp
  · rename_i hfree
    obtain ⟨hcount, hwriters⟩ := tryBusy_eq_false (Bool.not_eq_true _ ▸ hfree)
    obtain ⟨nwaitreaders, nwaitwriters, refcount, mutex⟩ := rw
    obtain rfl : mutex = .usable := hmutex
    exact addReader_branch (sub_rdwaits hp _) (.inl hp) hcount hwriters h

theorem trywrlock_branch (hmutex : rw.mutex = .usable) (hp : p.stage = .outside)
    (h : trywrlock p rw = (e, o)) : Branch v p rw e o := by
  rw [trywrlock] at h
  split at h
  · obtain ⟨rfl, rfl⟩ := Prod.mk.inj h
    exact .busy hp
  · obtain ⟨rfl, rfl⟩ := Prod.mk.inj h
    have hgot := Branch.gotWrite (v := v) (.inl hp) (not_not.mp ‹_›)
    rwa [← sub_wrwaits hp, ← hmutex] at hgot

theorem unlock_branch (hmutex : rw.mutex = .usable) (hp : p.stage = .outside)
    (h : unlock v p rw = (e, o)) : Branch v p rw e o := by
  obtain ⟨nwaitreaders, nwaitwriters, refcount, mutex⟩ := rw
  obtain rfl : mutex = .usable := hmutex
  rw [unlock] at h
  split at h
  · obtain ⟨rfl, rfl⟩ := Prod.mk.inj h
    exact .released hp (.inl ⟨‹_›, rfl⟩)
  · split at h
    · obtain ⟨rfl, rfl⟩ := Prod.mk.inj h
      exact .released hp (.inr ⟨‹_›, rfl⟩)
    · obtain ⟨rfl, rfl⟩ := Prod.mk.inj h
      exact .dumped hp ‹_› ‹_›

theorem cancelRead_branch (hmutex : rw.mutex = .usable) (hp : p.stage = .rdwait) :
    Branch v p rw .cancelledRead (cancelRead v p rw) := by
  cases v with
  | my_rwlock => exact .diedReading rfl hp
  | my_rwlock_cancel =>
    rw [cancelRead, rwlock_cancelrdwait, hmutex]
    exact .cancelledRead rfl hp

theorem cancelWrite_branch (hmutex : rw.mutex = .usable) (hp : p.stage = .wrwait) :
    Branch v p rw .cancelledWrite (cancelWrite v p rw) := by
  cases v with
  | my_rwlock => exact .diedWriting rfl hp
  | my_rwlock_cancel =>
    rw [cancelWrite, rwlock_cancelwrwait, hmutex]
    exact .cancelledWrite rfl hp

/-- **A call has one of the outcomes**, and is made while the mutex can be locked. -/
theorem rwlock_branch (h : rwlock v call p rw = some (e, o)) :
    rw.mutex = .usable ∧ Branch v p rw e o := by
  cases hmutex : rw.mutex with
  | abandoned | ended =>
    cases call <;> simp only [rwlock, hmutex, reduceCtorEq] at h
  | usable =>
    refine ⟨rfl, ?_⟩
    cases hp : p.stage with
    | outside =>
      cases call <;>
        simp only [rwlock, hmutex, hp, reduceCtorEq, Option.some.injEq] at h
      case rdlock =>
        refine rdlock_branch (sub_rdwaits hp _) (.inl hp) ?_
        rwa [← hmutex]
      case tryrdlock => exact tryrdlock_branch hmutex hp h
      case wrlock =>
        refine wrlock_branch (sub_wrwaits hp _) (.inl hp) ?_
        rwa [← hmutex]
      case trywrlock => exact trywrlock_branch hmutex hp h
      case unlock => exact unlock_branch hmutex hp h
    | rdwait =>
      cases call <;>
        simp only [rwlock, hmutex, hp, reduceCtorEq, Option.some.injEq] at h
      case resume =>
        refine rdlock_branch ?_ (.inr hp) h
        rw [Place.rdwaits, if_pos (.inl hp), Nat.cast_one]
      case cancel =>
        obtain ⟨rfl, rfl⟩ := Prod.mk.inj h
        exact cancelRead_branch hmutex hp
    | wrwait =>
      cases call <;>
        simp only [rwlock, hmutex, hp, reduceCtorEq, Option.some.injEq] at h
      case resume =>
        refine wrlock_branch ?_ (.inr hp) h
        rw [Place.wrwaits, if_pos (.inl hp), Nat.cast_one]
      case cancel =>
        obtain ⟨rfl, rfl⟩ := Prod.mk.inj h
        exact cancelWrite_branch hmutex hp
    | cancelled | died | dumped | overflowed =>
      cases call <;> simp only [rwlock, hmutex, hp, reduceCtorEq] at h

end

/-! ## Who has the lock -/

section
variable {ι : Type} [Fintype ι] [DecidableEq ι]

abbrev State (ι : Type) := Threads ι Cond Rw Place

/-- **What the counts of those who wait are.** -/
structure Books (t : State ι) : Prop where
  nwaitreaders : t.shared.nwaitreaders = t.total Place.rdwaits
  nwaitwriters : t.shared.nwaitwriters = t.total Place.wrwaits

/-- **What `rw_refcount` is**, if threads only unlock what they have. -/
structure Held (t : State ι) : Prop where
  refcount : t.total Place.writers = 0 ∧ t.shared.refcount = t.total Place.reads ∨
    t.total Place.writers = 1 ∧ t.total Place.reads = 0 ∧ t.shared.refcount = -1
  dumped : ∀ i, (t.place i).stage ≠ .dumped

variable {v : Version} {cv : CondVar} {t t' : State ι} {i j : ι} {e : Done} {a : Call}
  {o : Outcome Cond Rw Place} {ev : Event ι Done} {woken : Finset ι}

/-- A call keeps the two counts of those who wait. -/
theorem Branch.waits {p : Place} {rw : Rw} (h : Branch v p rw e o) :
    o.shared.nwaitreaders - o.place.rdwaits = rw.nwaitreaders - p.rdwaits ∧
      o.shared.nwaitwriters - o.place.wrwaits = rw.nwaitwriters - p.wrwaits := by
  cases h with
  | sleptRead hp | gotRead hp | overflowed hp =>
    rcases hp with hp | hp <;> simp [Place.rdwaits, Place.wrwaits, hp]
  | sleptWrite hp | gotWrite hp =>
    rcases hp with hp | hp <;> simp [Place.rdwaits, Place.wrwaits, hp]
  | busy => exact ⟨rfl, rfl⟩
  | released => simp [Place.rdwaits, Place.wrwaits, Place.less_stage]
  | dumped hp => simp [Place.rdwaits, Place.wrwaits, hp]
  | cancelledRead _ hp | cancelledWrite _ hp | diedReading _ hp | diedWriting _ hp =>
    simp [Place.rdwaits, Place.wrwaits, hp]

/-- The thread unlocks. -/
def Done.Unlocks (e : Done) : Prop := e = .released ∨ e = .dumped

instance (e : Done) : Decidable e.Unlocks := inferInstanceAs (Decidable (_ ∨ _))

/-- A call changes who has the lock only as the count allows. -/
theorem Branch.has {p : Place} {rw : Rw} (h : Branch v p rw e o) :
    (o.shared.refcount = rw.refcount ∧ o.place.reads = p.reads ∧ o.place.writers = p.writers) ∨
    (rw.refcount ≠ -1 ∧ o.shared.refcount = rw.refcount + 1 ∧ o.place.reads = p.reads + 1 ∧
      o.place.writers = p.writers) ∨
    (rw.refcount = 0 ∧ o.shared.refcount = -1 ∧ o.place.reads = p.reads ∧ o.place.writers = 1) ∨
    (0 < rw.refcount ∧ o.shared.refcount = rw.refcount - 1 ∧ o.place = p.less ∧ e.Unlocks) ∨
    (rw.refcount = -1 ∧ o.shared.refcount = 0 ∧ o.place = p.less ∧ e.Unlocks) := by
  cases h with
  | sleptRead | overflowed | sleptWrite | busy | dumped | cancelledRead | cancelledWrite
  | diedReading | diedWriting => exact .inl ⟨rfl, rfl, rfl⟩
  | gotRead _ hcount => exact .inr (.inl ⟨hcount, rfl, rfl, rfl⟩)
  | gotWrite _ hcount => exact .inr (.inr (.inl ⟨hcount, rfl, rfl, rfl⟩))
  | released _ hr =>
    rcases hr with ⟨hcount, rfl⟩ | ⟨hcount, rfl⟩
    · exact .inr (.inr (.inr (.inl ⟨hcount, rfl, rfl, .inl rfl⟩)))
    · exact .inr (.inr (.inr (.inr ⟨hcount, rfl, rfl, .inl rfl⟩)))

/-- Who has the lock has it to read or to write, and gives one of it back. -/
theorem Place.Has.less {p : Place} (h : p.Has) :
    (p.writers = 1 ∧ p.less.writers = 0 ∧ p.less.reads = p.reads) ∨
      (p.writers = 0 ∧ p.less.writers = 0 ∧ p.less.reads + 1 = p.reads) := by
  obtain ⟨stage, reads, writes⟩ := p
  cases writes with
  | true => exact .inl ⟨rfl, rfl, rfl⟩
  | false =>
    have hpos : reads ≠ 0 := h.resolve_right Bool.false_ne_true
    exact .inr ⟨rfl, rfl, Nat.sub_add_cancel (Nat.pos_of_ne_zero hpos)⟩

theorem Books.after (hI : Books t) (hb : Branch v (t.place i) t.shared e o) :
    Books (t.after i o woken) := by
  have hrdwaits := t.total_after i o woken Place.rdwaits
  have hwrwaits := t.total_after i o woken Place.wrwaits
  obtain ⟨hnwr, hnww⟩ := hI
  obtain ⟨hwaits, hwaits'⟩ := hb.waits
  constructor
  · rw [Threads.after_shared]
    omega
  · rw [Threads.after_shared]
    omega

theorem Held.after (hI : Held t) (hb : Branch v (t.place i) t.shared e o)
    (howned : e.Unlocks → (t.place i).Has) : Held (t.after i o woken) := by
  have hreads := t.total_after i o woken Place.reads
  have hwriters := t.total_after i o woken Place.writers
  have hle_reads := t.le_total Place.reads i
  have hle_writers := t.le_total Place.writers i
  obtain ⟨hcount, hdumped⟩ := hI
  constructor
  · rw [Threads.after_shared]
    rcases hb.has with h | h | h | ⟨hpos, hr, hplace, hun⟩ | ⟨hneg, hr, hplace, hun⟩
    · omega
    · omega
    · omega
    · have hless := (howned hun).less
      rw [← hplace] at hless
      omega
    · have hless := (howned hun).less
      rw [← hplace] at hless
      omega
  · refine Threads.forall_after (P := fun _ (p : Place) => p.stage ≠ .dumped) ?_ hdumped
    have hi := hdumped i
    have hless := fun h : e.Unlocks => (howned h).less
    clear howned
    generalize t.place i = p at *
    cases hb with
    | dumped _ hpos hne =>
      have hless := hless (.inr rfl)
      omega
    | busy => exact hi
    | released => rwa [Place.less_stage]
    | sleptRead | gotRead | overflowed | sleptWrite | gotWrite | cancelledRead | cancelledWrite
    | diedReading | diedWriting => simp

/-- The thread has nothing of the lock, waits for nothing, and did not die waiting. -/
def Place.Idle (p : Place) : Prop :=
  ¬ p.Has ∧ p.stage ≠ .rdwait ∧ p.stage ≠ .wrwait ∧ ∀ c, p.stage ≠ .died c

theorem Place.idle_iff (p : Place) : p.Idle ↔
    p.writers = 0 ∧ p.reads = 0 ∧ p.rdwaits = 0 ∧ p.wrwaits = 0 := by
  have hdied : (∀ c, p.stage ≠ .died c) ↔
      p.stage ≠ .died .readers ∧ p.stage ≠ .died .writers := by
    refine ⟨fun h => ⟨h _, h _⟩, fun h c => ?_⟩
    cases c with
    | readers => exact h.1
    | writers => exact h.2
  rw [Place.Idle, hdied]
  simp only [Place.Has, Place.writers, Place.rdwaits, Place.wrwaits]
  grind

/-- Any clients, under `v`. -/
abbrev RwlockRun (v : Version) (cv : CondVar) (tr : List (State ι × Event ι Done))
    (t : State ι) : Prop :=
  Run (Step (rwlock v) cv) (.start initial fun _ => entry) tr t

variable {tr : List (State ι × Event ι Done)}

omit [DecidableEq ι] in
theorem total_start {w : Place → ℕ} (hw : w entry = 0) :
    (Threads.start initial fun _ => entry : State ι).total w = 0 :=
  Threads.total_eq_zero_iff.mpr fun _ => hw

theorem books_run (run : RwlockRun v cv tr t) : Books t := by
  refine run.preserves ⟨?_, ?_⟩ fun u ev u' hu h => ?_
  · rw [total_start rfl]
    rfl
  · rw [total_start rfl]
    rfl
  · cases step_iff_moves.mp h with
    | region i a woken _ ho _ => exact hu.after (rwlock_branch ho).2
    | awoke i => exact ⟨hu.nwaitreaders, hu.nwaitwriters⟩

/-- Whoever unlocks the lock in this step has it. -/
def HadIt (t : State ι) : Event ι Done → Prop
  | .did i e => e.Unlocks → (t.place i).Has
  | .awoke _ => True

instance (t : State ι) (ev : Event ι Done) : Decidable (HadIt t ev) :=
  match ev with
  | .did _ _ => inferInstanceAs (Decidable (_ → _))
  | .awoke _ => inferInstanceAs (Decidable True)

/-- Threads only unlocked what they had. -/
def Owned (tr : List (State ι × Event ι Done)) : Prop := ∀ x ∈ tr, HadIt x.1 x.2

instance : Decidable (Owned tr) := inferInstanceAs (Decidable (∀ x ∈ tr, HadIt x.1 x.2))

theorem held_run (run : RwlockRun v cv tr t) (howned : Owned tr) : Held t := by
  refine (run.guarded howned).preserves
    ⟨.inl ⟨total_start rfl, ?_⟩, fun _ => by simp [Threads.start, entry]⟩ ?_
  · rw [total_start rfl]
    rfl
  · rintro u ev u' hu ⟨hguard, h⟩
    cases step_iff_moves.mp h with
    | region i a woken _ ho _ => exact hu.after (rwlock_branch ho).2 hguard
    | awoke i => exact ⟨hu.refcount, hu.dumped⟩

/-- A step loses a wake-up, or the mutex: a thread is cancelled that waits to write or, in
`my_rwlock`, to read. -/
def Fatal (v : Version) : Event ι Done → Prop
  | .did _ .cancelledWrite => True
  | .did _ .cancelledRead => v = .my_rwlock
  | _ => False

instance (v : Version) (ev : Event ι Done) : Decidable (Fatal v ev) := by
  unfold Fatal
  split <;> infer_instance

/-- Some step of the run was fatal. -/
def Cancelled (v : Version) (tr : List (State ι × Event ι Done)) : Prop :=
  ∃ x ∈ tr, Fatal v x.2

instance : Decidable (Cancelled v tr) := inferInstanceAs (Decidable (∃ x ∈ tr, Fatal v x.2))

/-- A reader has the lock, a writer and a reader wait; the reader that waits is cancelled, and
the writer is handed the lock. -/
theorem exists_handover : ∃ tr, ∃ t : State (Fin 3),
    RwlockRun .my_rwlock_cancel .posix tr t ∧ Owned tr ∧ ¬ Cancelled .my_rwlock_cancel tr :=
  ⟨_, _, run_get (exec (rwlock .my_rwlock_cancel) .posix)
    [.run 0 .rdlock ∅, .run 1 .wrlock ∅, .run 2 .rdlock ∅, .awake 2, .run 2 .cancel ∅,
      .run 0 .unlock {1}, .run 1 .resume ∅] _ (by decide +kernel), by decide +kernel⟩

/-- **A writer excludes everybody else.**  Nobody gets to the `err_dump` of `_unlock`, and
`_destroy` returns `EBUSY` exactly while somebody has the lock, waits for it or died waiting. -/
theorem exclusive_run (run : RwlockRun v cv tr t) (howned : Owned tr) :
    (∀ i j, (t.place i).writes → (t.place j).Has → i = j ∧ (t.place j).reads = 0) ∧
      (∀ i, (t.place i).stage ≠ .dumped) ∧ (destroys t.shared ↔ ∀ i, (t.place i).Idle) := by
  obtain ⟨hnwr, hnww⟩ := books_run run
  obtain ⟨hcount, hdumped⟩ := held_run run howned
  refine ⟨fun i j hi hj => ?_, hdumped, ?_⟩
  · have hwriters : (t.place i).writers = 1 := if_pos hi
    have hle := t.le_total Place.writers i
    have hreads := t.le_total Place.reads j
    have hzero : (t.place j).reads = 0 := by omega
    refine ⟨?_, hzero⟩
    by_contra hne
    have htwo := t.add_le_total Place.writers hne
    have hwrites : (t.place j).writers = 1 := if_pos (hj.resolve_left (absurd hzero))
    omega
  · have hfree : destroys t.shared ↔ t.total Place.writers = 0 ∧ t.total Place.reads = 0 ∧
        t.total Place.rdwaits = 0 ∧ t.total Place.wrwaits = 0 := by
      rw [destroys, decide_eq_true_iff]
      omega
    rw [hfree]
    simp only [Threads.total_eq_zero_iff, ← forall_and]
    exact forall_congr' fun i => (Place.idle_iff _).symm

theorem exclusive_run_handover : ∃ tr, ∃ t : State (Fin 3),
    RwlockRun .my_rwlock_cancel .posix tr t ∧
    (∀ i j, (t.place i).writes → (t.place j).Has → i = j ∧ (t.place j).reads = 0) ∧
      (∀ i, (t.place i).stage ≠ .dumped) ∧ (destroys t.shared ↔ ∀ i, (t.place i).Idle) := by
  obtain ⟨tr, t, run, howned, -⟩ := exists_handover
  exact ⟨tr, t, run, exclusive_run run howned⟩

/-- **Nobody gets the lock for reading while a writer waits.** -/
theorem writers_first (run : RwlockRun v cv tr t) :
    ∀ x ∈ tr, ∀ i, x.2 = .did i .gotRead → ∀ j, (x.1.place j).stage ≠ .wrwait := by
  rintro ⟨u, ev⟩ hmem i rfl j hj
  obtain ⟨pre, -, u', -, hpre, h, -⟩ := run.of_mem hmem
  have hle := u.le_total Place.wrwaits j
  rw [Place.wrwaits, if_pos (.inl hj)] at hle
  have hwriters := (books_run hpre).nwaitwriters
  cases step_iff_moves.mp h with
  | region _ a woken _ ho _ =>
    cases (rwlock_branch ho).2 with
    | gotRead _ _ hnone =>
      have hzero : (u.total Place.wrwaits : ℤ) ≤ 0 := hwriters ▸ hnone
      have hone : 1 ≤ u.total Place.wrwaits := hle
      omega

theorem writers_first_handover : ∃ tr, ∃ t : State (Fin 3),
    RwlockRun .my_rwlock_cancel .posix tr t ∧
    ∀ x ∈ tr, ∀ i, x.2 = .did i .gotRead → ∀ j, (x.1.place j).stage ≠ .wrwait := by
  obtain ⟨tr, t, run, -⟩ := exists_handover
  exact ⟨tr, t, run, writers_first run⟩

/-! ## Who is left asleep -/

/-- Where a thread sleeps on `c`. -/
def WaitsOn (p : Place) : Cond → Prop
  | .readers => p.stage = .rdwait
  | .writers => p.stage = .wrwait

theorem not_waitsOn {p : Place} (hr : p.stage ≠ .rdwait) (hw : p.stage ≠ .wrwait) (c : Cond) :
    ¬ WaitsOn p c := by
  cases c with
  | readers => exact hr
  | writers => exact hw

theorem placed_run (run : RwlockRun v cv tr t) : Placed WaitsOn t := by
  refine run.preserves (fun i c h => by cases h) fun u e u' hu h => ?_
  refine (step_iff_moves.mp h).placed hu fun i a e o c ho hsleep => ?_
  cases (rwlock_branch ho).2 with
  | sleptRead | sleptWrite =>
    obtain rfl := Option.some.inj hsleep
    rfl
  | gotRead | overflowed | gotWrite | busy | released | dumped | cancelledRead | cancelledWrite
  | diedReading | diedWriting => cases hsleep

/-- A reader may have the lock. -/
def ReadersMay (rw : Rw) : Prop := 0 ≤ rw.refcount ∧ rw.nwaitwriters = 0

/-- Nobody sleeps for what nobody is counted to wait for. -/
theorem Books.nobody (hI : Books t) (hplaced : Placed WaitsOn t) :
    (t.shared.nwaitreaders ≤ 0 → ∀ i, t.asleep i ≠ some .readers) ∧
      (t.shared.nwaitwriters ≤ 0 → ∀ i, t.asleep i ≠ some .writers) := by
  constructor
  · intro hzero i hi
    have hle := t.le_total Place.rdwaits i
    rw [Place.rdwaits, if_pos (.inl (show (t.place i).stage = .rdwait from hplaced i _ hi))] at hle
    have hcount := hI.nwaitreaders
    omega
  · intro hzero i hi
    have hle := t.le_total Place.wrwaits i
    rw [Place.wrwaits, if_pos (.inl (show (t.place i).stage = .wrwait from hplaced i _ hi))] at hle
    have hcount := hI.nwaitwriters
    omega

/-- Whoever gives readers the lock wakes them all. -/
theorem Books.answers (hI : Books t) (hplaced : Placed WaitsOn t)
    (hb : Branch v (t.place i) t.shared e o) (he : ¬ Fatal v (.did i e))
    (hmay : ReadersMay o.shared) : o.sleep ≠ some .readers ∧
      (ReadersMay t.shared ∨ ∀ woken, o.notify.Wakes cv t.waiters woken →
        t.waiters .readers ⊆ woken) := by
  have hnobody := (hI.nobody hplaced).1
  have hwrwaits := hI.nwaitwriters
  have hle := t.le_total Place.wrwaits i
  generalize t.place i = p at hb hle
  generalize t.shared = rw at *
  obtain ⟨hpos, hnone⟩ := hmay
  cases hb with
  | sleptRead hp hblocked =>
    change 0 ≤ rw.refcount at hpos
    change rw.nwaitwriters = 0 at hnone
    omega
  | gotRead hp hne hwriters =>
    change 0 ≤ rw.refcount + 1 at hpos
    change rw.nwaitwriters = 0 at hnone
    exact ⟨by simp, .inl ⟨by omega, hnone⟩⟩
  | sleptWrite =>
    change rw.nwaitwriters - p.wrwaits + 1 = 0 at hnone
    omega
  | gotWrite => exact absurd hpos (show ¬ (0 : ℤ) ≤ -1 by decide)
  | released =>
    refine ⟨by simp, .inr fun woken hwoken => ?_⟩
    change rw.nwaitwriters = 0 at hnone
    by_cases hreaders : 0 < rw.nwaitreaders
    · have hbroadcast : (Notice.broadcast Cond.readers).Wakes cv t.waiters woken := by
        cases v <;> simpa [wake, hnone, hreaders] using hwoken
      exact Notice.subset_of_broadcast hbroadcast
    · intro j hj
      exact absurd (Threads.mem_waiters.mp hj) (hnobody (by omega) j)
  | busy | overflowed | dumped | cancelledRead => exact ⟨by simp, .inl ⟨hpos, hnone⟩⟩
  | cancelledWrite | diedWriting => exact absurd trivial he
  | diedReading hv => exact absurd hv he

/-- Whoever leaves the lock free signals a writer. -/
theorem Books.attends (hI : Books t) (hplaced : Placed WaitsOn t)
    (hb : Branch v (t.place i) t.shared e o) (he : ¬ Fatal v (.did i e))
    (hfree : o.shared.refcount = 0) : o.sleep ≠ some .writers ∧
      (t.shared.refcount = 0 ∧ ¬ WaitsOn (t.place i) .writers ∨ o.notify = .signal .writers ∨
        ∀ j, t.asleep j ≠ some .writers) := by
  have hnobody := (hI.nobody hplaced).2
  generalize t.place i = p at hb ⊢
  generalize t.shared = rw at *
  cases hb with
  | sleptRead hp =>
    refine ⟨by simp, .inl ⟨hfree, ?_⟩⟩
    rw [WaitsOn]
    rcases hp with hp | hp <;> simp [hp]
  | gotRead hp hne =>
    change rw.refcount + 1 = 0 at hfree
    omega
  | overflowed hp hcount =>
    change rw.refcount = 0 at hfree
    rw [INT_MAX] at hcount
    omega
  | sleptWrite hp hne => exact absurd hfree hne
  | gotWrite => exact absurd hfree (show (-1 : ℤ) ≠ 0 by decide)
  | @released hp r hr =>
    obtain rfl : r = 0 := hfree
    refine ⟨by simp, .inr ?_⟩
    by_cases hwriters : 0 < rw.nwaitwriters
    · left
      cases v <;> simp [wake, hwriters]
    · exact .inr (hnobody (by omega))
  | busy hp | dumped hp | cancelledRead _ hp => exact ⟨by simp, .inl ⟨hfree, by simp [WaitsOn, hp]⟩⟩
  | cancelledWrite | diedWriting => exact absurd trivial he
  | diedReading hv => exact absurd hv he

omit [Fintype ι] [DecidableEq ι] in
/-- A step that is not fatal leaves the mutex usable, or ends all. -/
theorem Branch.spares {p : Place} {rw : Rw} (h : Branch v p rw e o) (hmutex : rw.mutex = .usable)
    (hp : ∀ c, p.stage ≠ .died c) (he : ¬ Fatal v (.did i e)) :
    o.shared.mutex ≠ .abandoned ∧ ∀ c, o.place.stage ≠ .died c := by
  cases h with
  | sleptRead | gotRead | overflowed | sleptWrite | gotWrite | dumped | cancelledRead => simp
  | busy => exact ⟨by simp [hmutex], hp⟩
  | released => exact ⟨by simp, by rwa [Place.less_stage]⟩
  | cancelledWrite | diedWriting => exact absurd trivial he
  | diedReading hv => exact absurd hv he

/-- **What holds while no step was fatal**: nobody sleeps to read while a reader may have the
lock, and nobody sleeps to write while it is free, but with a writer on its way. -/
structure Attentive (t : State ι) : Prop where
  readers : Answered ReadersMay .readers t
  writers : Attended WaitsOn (fun rw => rw.refcount = 0) .writers t
  mutex : t.shared.mutex ≠ .abandoned
  alive : ∀ i c, (t.place i).stage ≠ .died c

theorem attentive_run (run : RwlockRun v cv tr t) (hcancel : ¬ Cancelled v tr) : Attentive t := by
  revert hcancel
  refine run.invariant (I := fun tr t => ¬ Cancelled v tr → Attentive t)
    (fun _ => ⟨fun _ i => by simp [Threads.start], fun _ i => by simp [Threads.start],
      by simp [Threads.start, initial], by simp [Threads.start, entry]⟩) ?_
  intro tr u ev u' hrun ih h hcancel
  obtain ⟨hanswered, hattended, hmutex, halive⟩ := ih fun ⟨x, hx, hfatal⟩ =>
    hcancel ⟨x, List.mem_append_left _ hx, hfatal⟩
  have hfatal : ¬ Fatal v ev := fun hfatal => hcancel ⟨(u, ev), by simp, hfatal⟩
  have hbooks := books_run hrun
  have hplaced := placed_run hrun
  have hmoves := step_iff_moves.mp h
  have hspared : u'.shared.mutex ≠ .abandoned ∧ ∀ i c, (u'.place i).stage ≠ .died c := by
    cases hmoves with
    | region i a woken _ ho _ =>
      obtain ⟨husable, hb⟩ := rwlock_branch ho
      obtain ⟨hmutex', hplace⟩ := hb.spares husable (halive i) hfatal
      exact ⟨hmutex', Threads.forall_after (P := fun _ (p : Place) => ∀ c, p.stage ≠ .died c)
        hplace halive⟩
    | awoke i => exact ⟨hmutex, halive⟩
  refine ⟨?_, ?_, hspared.1, hspared.2⟩
  · exact hmoves.answered hanswered fun i a e o hev _ ho hmay =>
      hbooks.answers hplaced (rwlock_branch ho).2 (hev ▸ hfatal) hmay
  · exact hmoves.attended hplaced hattended fun i a e o hev _ ho hfree =>
      hbooks.attends hplaced (rwlock_branch ho).2 (hev ▸ hfatal) hfree

/-- The lock is free and a thread waits for it, but none is on the way to take it: all that
wait sleep, or none of them can lock the mutex. -/
def Stranded (t : State ι) : Prop :=
  t.shared.refcount = 0 ∧ t.shared.mutex ≠ .ended ∧ (∃ i c, WaitsOn (t.place i) c) ∧
    (t.shared.mutex = .abandoned ∨ ∀ i c, t.asleep i = none → ¬ WaitsOn (t.place i) c)

/-- **Nobody is left waiting** for a lock that is free, if no step was fatal. -/
theorem never_stranded (run : RwlockRun v cv tr t) (hcancel : ¬ Cancelled v tr) :
    ¬ Stranded t := by
  rintro ⟨hfree, -, ⟨i, c, hwaits⟩, hlost⟩
  obtain ⟨hanswered, hattended, hmutex, halive⟩ := attentive_run run hcancel
  have hawake := hlost.resolve_left hmutex
  have hplaced := placed_run run
  have hnowriter : ∀ j, t.asleep j ≠ some .writers := by
    intro j hj
    obtain ⟨k, hk, hwaits⟩ := hattended hfree j hj
    exact hawake k .writers hk hwaits
  have hasleep : ∀ j c, WaitsOn (t.place j) c → t.asleep j = some .readers := by
    intro j c hj
    cases hc : t.asleep j with
    | none => exact absurd hj (hawake j c hc)
    | some c =>
      cases c with
      | readers => rfl
      | writers => exact absurd hc (hnowriter j)
  have hnone : t.total Place.wrwaits = 0 := by
    refine Threads.total_eq_zero_iff.mpr fun j => if_neg ?_
    rintro (hj | hj)
    · have hreads : (t.place j).stage = .rdwait := hplaced j _ (hasleep j .writers hj)
      rw [hj] at hreads
      cases hreads
    · exact halive j _ hj
  refine hanswered ⟨hfree.ge, ?_⟩ i (hasleep i c hwaits)
  rw [(books_run run).nwaitwriters, hnone, Nat.cast_zero]

theorem never_stranded_handover : ∃ tr, ∃ t : State (Fin 3),
    RwlockRun .my_rwlock_cancel .posix tr t ∧ ¬ Stranded t := by
  obtain ⟨tr, t, run, -, hcancel⟩ := exists_handover
  exact ⟨tr, t, run, never_stranded run hcancel⟩

/-- The thread was cancelled. -/
def Place.Gone (p : Place) : Prop := p.stage = .cancelled ∨ ∃ c, p.stage = .died c

theorem Place.Gone.not_waitsOn {p : Place} (h : p.Gone) (c : Cond) : ¬ WaitsOn p c := by
  rcases h with h | ⟨d, h⟩ <;> cases c <;> simp [WaitsOn, h]

/-- A thread that was cancelled does nothing any more. -/
theorem Place.Gone.rwlock {p : Place} {rw : Rw} (h : p.Gone) : rwlock v a p rw = none := by
  cases hmutex : rw.mutex <;> cases a <;> rcases h with h | ⟨c, h⟩ <;>
    simp only [Rwlock.rwlock, hmutex, h]

omit [Fintype ι] [DecidableEq ι] in
/-- The thread of a fatal step is gone. -/
theorem Branch.gone {p : Place} {rw : Rw} (h : Branch v p rw e o) (he : Fatal v (.did i e)) :
    o.place.Gone := by
  cases h with
  | cancelledRead | cancelledWrite => exact .inl rfl
  | diedReading | diedWriting => exact .inr ⟨_, rfl⟩
  | sleptRead | gotRead | overflowed | sleptWrite | gotWrite | busy | released | dumped =>
    cases he

theorem gone_run (run : RwlockRun v cv tr t) (h : Cancelled v tr) : ∃ i, (t.place i).Gone := by
  revert h
  refine run.invariant (I := fun tr t => Cancelled v tr → ∃ i, (t.place i).Gone)
    (fun ⟨x, hx, _⟩ => by cases hx) ?_
  rintro tr u ev u' - ih h ⟨x, hx, hfatal⟩
  cases step_iff_moves.mp h with
  | region k a woken _ ho _ =>
    rcases List.mem_append.mp hx with hx | hx
    · obtain ⟨i, hi⟩ := ih ⟨x, hx, hfatal⟩
      refine ⟨i, ?_⟩
      rw [Threads.after_place_of_ne]
      · exact hi
      · rintro rfl
        rw [hi.rwlock] at ho
        cases ho
    · obtain rfl := List.mem_singleton.mp hx
      refine ⟨k, ?_⟩
      rw [Threads.after_place_self]
      exact (rwlock_branch ho).2.gone hfatal
  | awoke k =>
    rcases List.mem_append.mp hx with hx | hx
    · exact ih ⟨x, hx, hfatal⟩
    · obtain rfl := List.mem_singleton.mp hx
      cases hfatal

/-- Thread `i` has the lock and `j` waits to write; `i` unlocks, so `j` is woken; `i` wants to
read again and sleeps, as `j` still counts; and `j` is cancelled. -/
theorem exists_stranded (v : Version) (cv : CondVar) (hij : i ≠ j) :
    ∃ t : State ι, Reaches (Step (rwlock v) cv) (.start initial fun _ => entry) t ∧
      Stranded t := by
  let t₀ : State ι := .start initial fun _ => entry
  let t₁ := t₀.after i { shared := ⟨0, 0, 1, .usable⟩, place := ⟨.outside, 1, false⟩ } ∅
  have h₁ : Reaches (Step (rwlock v) cv) t₀ t₁ :=
    reaches_region (a := .rdlock) ∅ rfl rfl rfl rfl rfl
  let t₂ := t₁.after j
    { shared := ⟨0, 1, 1, .usable⟩, place := ⟨.wrwait, 0, false⟩, sleep := some .writers } ∅
  have h₂ : Reaches (Step (rwlock v) cv) t₁ t₂ :=
    reaches_region (a := .wrlock) ∅ (Threads.after_place_of_ne hij.symm) rfl
      (Threads.after_asleep_of_ne hij.symm) rfl rfl
  let t₃ := t₂.after i
    { shared := ⟨0, 1, 0, .usable⟩, place := ⟨.outside, 0, false⟩, notify := .signal .writers }
    {j}
  have hplace₂ : t₂.place i = ⟨.outside, 1, false⟩ := by
    rw [Threads.after_place_of_ne hij, Threads.after_place_self]
  have h₃ : Reaches (Step (rwlock v) cv) t₂ t₃ :=
    reaches_region (a := .unlock) {j} hplace₂ rfl (by simp [t₂, t₁, hij, Threads.after])
      (by cases v <;> rfl)
      (CondVar.wakes_singleton (Threads.mem_waiters.mpr Threads.after_asleep_self))
  let t₄ := t₃.after i
    { shared := ⟨1, 1, 0, .usable⟩, place := ⟨.rdwait, 0, false⟩, sleep := some .readers } ∅
  have h₄ : Reaches (Step (rwlock v) cv) t₃ t₄ :=
    reaches_region (a := .rdlock) ∅ Threads.after_place_self rfl Threads.after_asleep_self rfl rfl
  let t₅ := t₄.after j (cancelWrite v ⟨.wrwait, 0, false⟩ ⟨1, 1, 0, .usable⟩) ∅
  have hplace₄ : t₄.place j = ⟨.wrwait, 0, false⟩ := by
    rw [Threads.after_place_of_ne hij.symm, Threads.after_place_of_ne hij.symm,
      Threads.after_place_self]
  have hawake₄ : t₄.asleep j = none := by simp [t₄, t₃, hij.symm, Threads.after]
  have h₅ : Reaches (Step (rwlock v) cv) t₄ t₅ :=
    reaches_region (a := .cancel) ∅ hplace₄ rfl hawake₄ rfl (by cases v <;> rfl)
  have hwaits : WaitsOn (t₅.place i) .readers := by
    simp [t₅, t₄, hij, WaitsOn, Threads.after]
  have hfree : t₅.shared.refcount = 0 ∧ t₅.shared.mutex ≠ .ended := by
    cases v <;> exact ⟨rfl, by simp [t₅, cancelWrite, die, rwlock_cancelwrwait]⟩
  refine ⟨t₅, ((((h₁.trans h₂).trans h₃).trans h₄).trans h₅), hfree.1, hfree.2,
    ⟨i, _, hwaits⟩, ?_⟩
  cases v with
  | my_rwlock => exact .inl rfl
  | my_rwlock_cancel =>
    refine .inr fun k c hk => ?_
    by_cases hki : k = i
    · subst hki
      simp [t₅, t₄, hij, Threads.after] at hk
    · by_cases hkj : k = j
      · subst hkj
        rw [Threads.after_place_self]
        exact Place.Gone.not_waitsOn (.inl rfl) c
      · have hplace : t₅.place k = entry := by simp [t₅, t₄, t₃, t₂, t₁, t₀, Threads.after, hki,
          hkj, Threads.start]
        rw [hplace]
        exact not_waitsOn (by simp [entry]) (by simp [entry]) c

/-- **When the threads of a lock can be stranded**: if there are two threads or more, in either
version. -/
theorem rwlock_stranded_iff : (∃ tr, ∃ t : State ι, RwlockRun v cv tr t ∧ Stranded t) ↔
    2 ≤ Fintype.card ι := by
  constructor
  · rintro ⟨tr, t, run, hstranded⟩
    by_cases hcancel : Cancelled v tr
    · obtain ⟨i, hi⟩ := gone_run run hcancel
      obtain ⟨-, -, ⟨j, c, hj⟩, -⟩ := hstranded
      refine Fintype.one_lt_card_iff.mpr ⟨i, j, ?_⟩
      rintro rfl
      exact hi.not_waitsOn c hj
    · exact absurd hstranded (never_stranded run hcancel)
  · intro hcard
    obtain ⟨i, j, hij⟩ := Fintype.one_lt_card_iff.mp hcard
    obtain ⟨t, ⟨tr, run⟩, hstranded⟩ := exists_stranded v cv hij
    exact ⟨tr, t, run, hstranded⟩

end
end PosixNet.Rwlock
