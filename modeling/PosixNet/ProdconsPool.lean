import PosixNet.CondVar
import PosixNet.LabelledRun

/-!
# `prodcons6` with several consumers: the threads

`week6/unpv22e/mutex/prodcons6.c`, the rewrite with `nthreads` producers **and**
`nthreads` consumers.  The state is what the threads share (`buff`, `put`,
`nready`) and where each of them is; the numbers of producers and consumers are
independent here, `main` makes them equal (`ProdconsMain`).

A step of a thread is one mutex region, or one statement outside any region:

* `produce`: the region of `put.mutex` (lines 69–78), the region of
  `nready.mutex` (80–84), `*((int *)arg) += 1` (86);
* `consume`: the test of its `for` loop (96), the region of `nready.mutex`
  (98–109), which may end in `Pthread_cond_wait`, in the early return or in a
  claim, the check of the buffer (111–112), `*((int *)arg) -= 1` (114).

A consumer that is signalled has to take the mutex again and evaluates the
`while` condition again, so it is back in front of the region.  `step` executes
one scheduler's choice; `Moves` lists the outcomes, one per branch of the
source, and `step_iff_moves` says there are no others.  The `int` counters are
bounded by `nitems` (`ProdconsInvariant`), so none overflows.
-/
namespace PosixNet.Prodcons6

def MAXNITEMS : Nat := 1000000
def MAXNTHREADS : Nat := 100

/-- Where a `produce` thread is: in front of the region of `put.mutex`, in front of
the region of `nready.mutex`, in front of line 86, or returned. -/
inductive ProducePc where
  | lockPut
  | lockReady
  | addOne
  | returned
  deriving DecidableEq

/-- Where a `consume` thread is: at the loop test, in front of the region of
`nready.mutex`, blocked in `Pthread_cond_wait`, in front of line 111, in front of
line 114, or returned. -/
inductive ConsumePc where
  | test
  | lockReady
  | waiting
  | checkSlot
  | subOne
  | returned
  deriving DecidableEq

/-- A `consume` thread with its locals.  `j` is not read before line 108 sets it. -/
structure Consumer where
  pc : ConsumePc
  i : Nat
  j : Nat
  deriving DecidableEq

/-- `struct put`, less its mutex. -/
structure Put where
  nput : Nat
  nval : Nat
  nget : Nat
  deriving DecidableEq

/-- The shared data, and where every thread is. -/
structure Pool (np nc : Nat) where
  buff : Nat → Int
  put : Put
  nready : Int
  producer : Fin np → ProducePc
  consumer : Fin nc → Consumer

/-- What a thread did. -/
inductive Event (np nc : Nat) where
  /-- Lines 70–73: the array is full, the producer returns. -/
  | full (p : Fin np)
  /-- Lines 75–77: the producer stored `v` in `buff[k]`. -/
  | stored (p : Fin np) (k v : Nat)
  /-- Lines 81–83: the producer counted its item as ready. -/
  | announced (p : Fin np)
  /-- Line 86. -/
  | added (p : Fin np)
  /-- Line 96: the consumer enters the loop body. -/
  | entered (c : Fin nc)
  /-- Line 96: the consumer's loop is exhausted. -/
  | exhausted (c : Fin nc)
  /-- Line 100: the consumer blocks. -/
  | slept (c : Fin nc)
  /-- Lines 101–105: every item is claimed, the consumer returns. -/
  | left (c : Fin nc)
  /-- Lines 107–108: the consumer claimed item `j`. -/
  | claimed (c : Fin nc) (j : Nat)
  /-- Lines 111–112: the consumer read `v` in `buff[k]`. -/
  | checked (c : Fin nc) (k : Nat) (v : Int)
  /-- Line 114. -/
  | subtracted (c : Fin nc)
  /-- `Pthread_cond_wait` returned without a signal. -/
  | awoke (c : Fin nc)
  deriving DecidableEq

/-- A scheduler's choice: the thread to run and, if it signals, whom it wakes. -/
inductive Act (np nc : Nat) where
  | produce (p : Fin np) (woken : Finset (Fin nc))
  | consume (c : Fin nc) (woken : Finset (Fin nc))
  | awake (c : Fin nc)

namespace Pool
variable {np nc : Nat} (s : Pool np nc)

/-- Producer `p` has got to `pc`. -/
def setProducer (p : Fin np) (pc : ProducePc) : Pool np nc :=
  { s with producer := Function.update s.producer p pc }

/-- Consumer `c` has got to `l`. -/
def setConsumer (c : Fin nc) (l : Consumer) : Pool np nc :=
  { s with consumer := Function.update s.consumer c l }

/-- The threads blocked on `nready.cond`. -/
def waiters : Finset (Fin nc) := Finset.univ.filter fun c => (s.consumer c).pc = .waiting

/-- The threads in `woken` leave `Pthread_cond_wait`. -/
def wake (woken : Finset (Fin nc)) : Pool np nc :=
  { s with consumer := fun c =>
      if c ∈ woken then { s.consumer c with pc := .lockReady } else s.consumer c }

/-- `Pthread_cond_signal(&nready.cond)`. -/
def signal (cv : CondVar) (woken : Finset (Fin nc)) : Option (Pool np nc) :=
  if cv.Wakes s.waiters woken then some (s.wake woken) else none

/-- One step of `produce` in thread `p`. -/
def produce (nitems : Nat) (cv : CondVar) (p : Fin np) (woken : Finset (Fin nc)) :
    Option (Event np nc × Pool np nc) :=
  match s.producer p with
  | .lockPut =>
    if s.put.nput ≥ nitems then
      some (.full p, s.setProducer p .returned)
    else
      let s' := { s with
        buff := Function.update s.buff s.put.nput s.put.nval
        put := { s.put with nput := s.put.nput + 1, nval := s.put.nval + 1 } }
      some (.stored p s.put.nput s.put.nval, s'.setProducer p .lockReady)
  | .lockReady =>
    (if s.nready = 0 then s.signal cv woken else some s).map fun s' =>
      (.announced p, { s' with nready := s'.nready + 1 }.setProducer p .addOne)
  | .addOne => some (.added p, s.setProducer p .lockPut)
  | .returned => none

/-- One step of `consume` in thread `c`. -/
def consume (nitems : Nat) (cv : CondVar) (c : Fin nc) (woken : Finset (Fin nc)) :
    Option (Event np nc × Pool np nc) :=
  let l := s.consumer c
  match l.pc with
  | .test =>
    if l.i < nitems then some (.entered c, s.setConsumer c { l with pc := .lockReady })
    else some (.exhausted c, s.setConsumer c { l with pc := .subOne })
  | .lockReady =>
    -- the `while` condition, evaluated again by a consumer that was woken
    if s.nready = 0 ∧ s.put.nget < nitems then
      some (.slept c, s.setConsumer c { l with pc := .waiting })
    else if s.put.nget ≥ nitems then
      (s.signal cv woken).map fun s' => (.left c, s'.setConsumer c { l with pc := .returned })
    else
      -- `put.nget` is in `struct put`, but guarded by `nready.mutex`
      let s' := { s with
        nready := s.nready - 1
        put := { s.put with nget := s.put.nget + 1 } }
      some (.claimed c s.put.nget, s'.setConsumer c { l with pc := .checkSlot, j := s.put.nget })
  | .waiting => none
  | .checkSlot =>
    some (.checked c l.i (s.buff l.i), s.setConsumer c { l with pc := .test, i := l.i + 1 })
  | .subOne => some (.subtracted c, s.setConsumer c { l with pc := .returned })
  | .returned => none

/-- A wake-up without a signal, where the condition variable allows it. -/
def awake (cv : CondVar) (c : Fin nc) : Option (Event np nc × Pool np nc) :=
  let l := s.consumer c
  if cv.Spurious ∧ l.pc = .waiting then
    some (.awoke c, s.setConsumer c { l with pc := .lockReady })
  else none

end Pool

/-- The globals are zero and every thread is at the start of its function. -/
def initial (np nc : Nat) : Pool np nc where
  buff := fun _ => 0
  put := ⟨0, 0, 0⟩
  nready := 0
  producer := fun _ => .lockPut
  consumer := fun _ => ⟨.test, 0, 0⟩

variable {np nc : Nat}

/-- One step of the pool of threads. -/
def step (nitems : Nat) (cv : CondVar) :
    Act np nc → Pool np nc → Option (Event np nc × Pool np nc)
  | .produce p woken, s => s.produce nitems cv p woken
  | .consume c woken, s => s.consume nitems cv c woken
  | .awake c, s => s.awake cv c

/-- A step of some thread, under some choice. -/
def Step (nitems : Nat) (cv : CondVar) : Pool np nc → Event np nc → Pool np nc → Prop :=
  stepOf (step nitems cv)

/-! ## The outcomes of a step -/

/-- Everything a step can do, by the branch of the source taken. -/
inductive Moves (nitems : Nat) (cv : CondVar) (s : Pool np nc) :
    Event np nc → Pool np nc → Prop
  | full (p : Fin np) (hpc : s.producer p = .lockPut) (hfull : nitems ≤ s.put.nput) :
      Moves nitems cv s (.full p) (s.setProducer p .returned)
  | store (p : Fin np) (hpc : s.producer p = .lockPut) (hroom : s.put.nput < nitems) :
      Moves nitems cv s (.stored p s.put.nput s.put.nval)
        ({ s with
          buff := Function.update s.buff s.put.nput s.put.nval
          put := ⟨s.put.nput + 1, s.put.nval + 1, s.put.nget⟩ }.setProducer p .lockReady)
  | announce (p : Fin np) (woken : Finset (Fin nc)) (hpc : s.producer p = .lockReady)
      (hsignal : s.nready = 0 → cv.Wakes s.waiters woken) (hquiet : s.nready ≠ 0 → woken = ∅) :
      Moves nitems cv s (.announced p)
        ({ s.wake woken with nready := s.nready + 1 }.setProducer p .addOne)
  | add (p : Fin np) (hpc : s.producer p = .addOne) :
      Moves nitems cv s (.added p) (s.setProducer p .lockPut)
  | enter (c : Fin nc) (hpc : (s.consumer c).pc = .test) (hi : (s.consumer c).i < nitems) :
      Moves nitems cv s (.entered c)
        (s.setConsumer c { s.consumer c with pc := .lockReady })
  | exhaust (c : Fin nc) (hpc : (s.consumer c).pc = .test) (hi : nitems ≤ (s.consumer c).i) :
      Moves nitems cv s (.exhausted c) (s.setConsumer c { s.consumer c with pc := .subOne })
  | sleep (c : Fin nc) (hpc : (s.consumer c).pc = .lockReady) (hnone : s.nready = 0)
      (hget : s.put.nget < nitems) :
      Moves nitems cv s (.slept c) (s.setConsumer c { s.consumer c with pc := .waiting })
  | leave (c : Fin nc) (woken : Finset (Fin nc)) (hpc : (s.consumer c).pc = .lockReady)
      (hget : nitems ≤ s.put.nget) (hsignal : cv.Wakes s.waiters woken) :
      Moves nitems cv s (.left c)
        ((s.wake woken).setConsumer c { s.consumer c with pc := .returned })
  | claim (c : Fin nc) (hpc : (s.consumer c).pc = .lockReady) (hready : s.nready ≠ 0)
      (hget : s.put.nget < nitems) :
      Moves nitems cv s (.claimed c s.put.nget)
        ({ s with
          nready := s.nready - 1
          put := ⟨s.put.nput, s.put.nval, s.put.nget + 1⟩ }.setConsumer c
            { s.consumer c with pc := .checkSlot, j := s.put.nget })
  | check (c : Fin nc) (hpc : (s.consumer c).pc = .checkSlot) :
      Moves nitems cv s (.checked c (s.consumer c).i (s.buff (s.consumer c).i))
        (s.setConsumer c { s.consumer c with pc := .test, i := (s.consumer c).i + 1 })
  | subtract (c : Fin nc) (hpc : (s.consumer c).pc = .subOne) :
      Moves nitems cv s (.subtracted c) (s.setConsumer c { s.consumer c with pc := .returned })
  | awake (c : Fin nc) (hcv : cv.Spurious) (hpc : (s.consumer c).pc = .waiting) :
      Moves nitems cv s (.awoke c) (s.setConsumer c { s.consumer c with pc := .lockReady })

@[simp] theorem Pool.wake_empty (s : Pool np nc) : s.wake ∅ = s := by
  simp [Pool.wake]

theorem Pool.signal_eq_some {s s' : Pool np nc} {cv : CondVar} {woken : Finset (Fin nc)} :
    s.signal cv woken = some s' ↔ cv.Wakes s.waiters woken ∧ s' = s.wake woken := by
  unfold Pool.signal
  split <;> simp_all [eq_comm]

section Inversion
variable {nitems : Nat} {cv : CondVar} {s s' : Pool np nc} {e : Event np nc}

theorem Moves.of_produce {p : Fin np} {woken : Finset (Fin nc)}
    (h : s.produce nitems cv p woken = some (e, s')) : Moves nitems cv s e s' := by
  unfold Pool.produce at h
  split at h
  · rename_i hpc
    split at h
    · obtain ⟨rfl, rfl⟩ := Prod.mk.inj (Option.some.inj h)
      exact .full p hpc ‹_›
    · obtain ⟨rfl, rfl⟩ := Prod.mk.inj (Option.some.inj h)
      exact .store p hpc (by omega)
  · rename_i hpc
    obtain ⟨s₁, hs₁, h⟩ := Option.map_eq_some_iff.mp h
    obtain ⟨rfl, rfl⟩ := Prod.mk.inj h
    split at hs₁
    · obtain ⟨hw, rfl⟩ := Pool.signal_eq_some.mp hs₁
      exact .announce p woken hpc (fun _ => hw) (fun hne => absurd ‹_› hne)
    · obtain rfl := Option.some.inj hs₁
      have hm : Moves nitems cv s (.announced p)
          ({ s.wake ∅ with nready := s.nready + 1 }.setProducer p .addOne) :=
        .announce p ∅ hpc (fun h0 => absurd h0 ‹_›) (fun _ => rfl)
      rwa [Pool.wake_empty] at hm
  · obtain ⟨rfl, rfl⟩ := Prod.mk.inj (Option.some.inj h)
    exact .add p ‹_›
  · cases h

theorem Moves.of_consume {c : Fin nc} {woken : Finset (Fin nc)}
    (h : s.consume nitems cv c woken = some (e, s')) : Moves nitems cv s e s' := by
  simp only [Pool.consume] at h
  split at h
  · split at h
    · obtain ⟨rfl, rfl⟩ := Prod.mk.inj (Option.some.inj h)
      exact .enter c ‹_› ‹_›
    · obtain ⟨rfl, rfl⟩ := Prod.mk.inj (Option.some.inj h)
      exact .exhaust c ‹_› (by omega)
  · split at h
    · rename_i hwhile
      obtain ⟨rfl, rfl⟩ := Prod.mk.inj (Option.some.inj h)
      exact .sleep c ‹_› hwhile.1 hwhile.2
    · split at h
      · obtain ⟨s₁, hs₁, h⟩ := Option.map_eq_some_iff.mp h
        obtain ⟨rfl, rfl⟩ := Prod.mk.inj h
        obtain ⟨hw, rfl⟩ := Pool.signal_eq_some.mp hs₁
        exact .leave c woken ‹_› ‹_› hw
      · obtain ⟨rfl, rfl⟩ := Prod.mk.inj (Option.some.inj h)
        exact .claim c ‹_› (by omega) (by omega)
  · cases h
  · obtain ⟨rfl, rfl⟩ := Prod.mk.inj (Option.some.inj h)
    exact .check c ‹_›
  · obtain ⟨rfl, rfl⟩ := Prod.mk.inj (Option.some.inj h)
    exact .subtract c ‹_›
  · cases h

/-- **The inversion lemma of the pool**: a step is one of the moves, and every
move is a step. -/
theorem step_iff_moves : Step nitems cv s e s' ↔ Moves nitems cv s e s' := by
  constructor
  · rintro ⟨a, h⟩
    cases a with
    | produce p woken => exact .of_produce h
    | consume c woken => exact .of_consume h
    | awake c =>
      simp only [step, Pool.awake] at h
      split at h
      · rename_i hw
        obtain ⟨rfl, rfl⟩ := Prod.mk.inj (Option.some.inj h)
        exact .awake c hw.1 hw.2
      · cases h
  · intro h
    cases h with
    | full p hpc hfull => exact ⟨.produce p ∅, by simp [step, Pool.produce, hpc, hfull]⟩
    | store p hpc hroom =>
      exact ⟨.produce p ∅, by simp [step, Pool.produce, hpc, Nat.not_le.mpr hroom]⟩
    | announce p woken hpc hsignal hquiet =>
      refine ⟨.produce p woken, ?_⟩
      by_cases h0 : s.nready = 0
      · simp [step, Pool.produce, hpc, h0, Pool.signal, hsignal h0, Pool.wake]
      · simp [step, Pool.produce, hpc, h0, hquiet h0]
    | add p hpc => exact ⟨.produce p ∅, by simp [step, Pool.produce, hpc]⟩
    | enter c hpc hi => exact ⟨.consume c ∅, by simp [step, Pool.consume, hpc, hi]⟩
    | exhaust c hpc hi =>
      exact ⟨.consume c ∅, by simp [step, Pool.consume, hpc, Nat.not_lt.mpr hi]⟩
    | sleep c hpc hnone hget =>
      exact ⟨.consume c ∅, by simp [step, Pool.consume, hpc, hnone, hget]⟩
    | leave c woken hpc hget hsignal =>
      exact ⟨.consume c woken, by
        simp [step, Pool.consume, hpc, Nat.not_lt.mpr hget, hget, Pool.signal, hsignal]⟩
    | claim c hpc hready hget =>
      exact ⟨.consume c ∅, by
        simp [step, Pool.consume, hpc, hready, Nat.not_le.mpr hget]⟩
    | check c hpc => exact ⟨.consume c ∅, by simp [step, Pool.consume, hpc]⟩
    | subtract c hpc => exact ⟨.consume c ∅, by simp [step, Pool.consume, hpc]⟩
    | awake c hcv hpc => exact ⟨.awake c, by simp [step, Pool.awake, hcv, hpc]⟩

end Inversion

end PosixNet.Prodcons6
