import Mathlib.Algebra.Order.BigOperators.Group.Finset
import PosixNet.Monitor

/-!
# `prodcons` with one consumer

The programs of `mutex/` that `prodcons6.c` was made from: `prodcons3.c` and `prodcons4.c`, whose
consumer tries again and again until there is an item, `prodcons5.c`, `prodcons6.c_old` and
`prodcons7.c`, whose consumer waits for a signal.  `main` starts `nthreads` producers and one
consumer; `none` is the consumer.

A region is what a thread does under a mutex, and what it does behind it with data that
no other thread has, such as its own part of `count`.  The two mutexes of `prodcons6` and
`prodcons7` guard different data.

* **`original_returns`**: with a producer the threads only stand still when all of them have
  returned, the consumer has found every item in its slot, in order, and the counts add up.
* **`original_ends`**: a run is as long as its work, but for what the consumer does in vain.
* **`nsignals_bounds`**: what `prodcons7` counts.
-/
namespace PosixNet.ProdconsMutex
open Monitor

/-- The five programs; two of them have the same regions. -/
inductive Version where
  /-- And `prodcons4.c`, which yields the processor besides. -/
  | prodcons3
  | prodcons5
  /-- `prodcons6.c_old` -/
  | prodcons6
  | prodcons7
  deriving DecidableEq

/-- The consumer waits for a signal. -/
def Version.Waits (v : Version) : Prop := v ≠ .prodcons3

/-- What the mutexes guard. -/
structure Shared where
  buff : ℕ → ℤ
  nput : ℕ
  nval : ℤ
  nready : ℤ
  nsignals : ℕ

/-- Where a thread is, with the local variable it counts in. -/
inductive Place where
  /-- A producer in front of its first region. -/
  | put (count : ℕ)
  /-- A producer in front of the region of `nready.mutex`. -/
  | ready (count : ℕ)
  | full (count : ℕ)
  /-- The consumer at the head of its loop. -/
  | take (i : ℕ)
  /-- The consumer in front of `buff[i] != i`. -/
  | check (i : ℕ)
  | done (i : ℕ)
  deriving DecidableEq

/-- What a thread did in a region. -/
inductive Did where
  /-- The array is full, the producer returns. -/
  | full
  | stored (k : ℕ) (v : ℤ)
  | announced
  /-- The consumer has found no item. -/
  | slept | retried
  | took
  /-- The consumer found `v` in `buff[i]`. -/
  | checked (i : ℕ) (v : ℤ)
  | done
  deriving DecidableEq

/-- An item is stored. -/
def Shared.store (s : Shared) : Shared :=
  { s with buff := Function.update s.buff s.nput s.nval, nput := s.nput + 1, nval := s.nval + 1 }

def Shared.addReady (s : Shared) : Shared := { s with nready := s.nready + 1 }

/-- A region of `produce`. -/
def produce (v : Version) (nitems count : ℕ) (s : Shared) : Did × Outcome Unit Shared Place :=
  if s.nput ≥ nitems then (.full, { shared := s, place := .full count })
  else (.stored s.nput s.nval, match v with
    | .prodcons3 => { shared := s.store, place := .put (count + 1) }
    | .prodcons5 => {
      shared := s.store.addReady
      place := .put (count + 1)
      notify := .signal () }
    | .prodcons6 | .prodcons7 => { shared := s.store, place := .ready count })

/-- The second region of a producer. -/
def announce (v : Version) (count : ℕ) (s : Shared) : Did × Outcome Unit Shared Place :=
  (.announced, {
    shared := { s.addReady with
      nsignals := if v = .prodcons7 ∧ s.nready = 0 then s.nsignals + 1 else s.nsignals }
    place := .put (count + 1)
    notify := if s.nready = 0 then .signal () else .quiet })

/-- The region of `consume_wait`. -/
def consume_wait (i : ℕ) (s : Shared) : Did × Outcome Unit Shared Place :=
  if i < s.nput then (.took, { shared := s, place := .check i })
  else (.retried, { shared := s, place := .take i })

/-- The `while` loop around `Pthread_cond_wait`, and what follows under the mutex. -/
def takeReady (i : ℕ) (s : Shared) : Did × Outcome Unit Shared Place :=
  if s.nready = 0 then (.slept, { shared := s, place := .take i, sleep := some () })
  else (.took, { shared := { s with nready := s.nready - 1 }, place := .check i })

/-- A region of `consume`. -/
def consume (v : Version) (nitems i : ℕ) (s : Shared) : Did × Outcome Unit Shared Place :=
  if i ≥ nitems then (.done, { shared := s, place := .done i })
  else if v = .prodcons3 then consume_wait i s
  else takeReady i s

def prodcons (v : Version) (nitems : ℕ) : Monitor Unit Did Unit Shared Place := fun _ r s =>
  match r with
  | .put count => some (produce v nitems count s)
  | .ready count => some (announce v count s)
  | .take i => some (consume v nitems i s)
  | .check i => some (.checked i (s.buff i), { shared := s, place := .take (i + 1) })
  | .full _ | .done _ => none

def initial : Shared := ⟨fun _ => 0, 0, 0, 0, 0⟩

/-- The functions `main` starts the threads with. -/
def entry {nthreads : ℕ} : Option (Fin nthreads) → Place
  | some _ => .put 0
  | none => .take 0

/-! ## One thread moves -/

variable {v : Version} {nitems : ℕ}

/-- **What a region does**, by the branch of the source taken. -/
inductive Branch (v : Version) (nitems : ℕ) (s : Shared) :
    Place → Did → Outcome Unit Shared Place → Prop
  | full (count : ℕ) (h : nitems ≤ s.nput) :
      Branch v nitems s (.put count) .full { shared := s, place := .full count }
  /-- `prodcons3` -/
  | store (count : ℕ) (h : s.nput < nitems) (hv : ¬ v.Waits) :
      Branch v nitems s (.put count) (.stored s.nput s.nval)
        { shared := s.store, place := .put (count + 1) }
  /-- `prodcons5` -/
  | storeReady (count : ℕ) (h : s.nput < nitems) (hv : v = .prodcons5) :
      Branch v nitems s (.put count) (.stored s.nput s.nval) {
        shared := s.store.addReady
        place := .put (count + 1)
        notify := .signal () }
  /-- The first region of `prodcons6` and `prodcons7`. -/
  | storeFirst (count : ℕ) (h : s.nput < nitems) (hv : v.Waits) :
      Branch v nitems s (.put count) (.stored s.nput s.nval)
        { shared := s.store, place := .ready count }
  | announce (count : ℕ) : Branch v nitems s (.ready count) .announced (announce v count s).2
  | done (i : ℕ) (h : nitems ≤ i) :
      Branch v nitems s (.take i) .done { shared := s, place := .done i }
  | retry (i : ℕ) (h : i < nitems) (hv : ¬ v.Waits) (hput : s.nput ≤ i) :
      Branch v nitems s (.take i) .retried { shared := s, place := .take i }
  /-- `prodcons3` -/
  | see (i : ℕ) (h : i < nitems) (hv : ¬ v.Waits) (hput : i < s.nput) :
      Branch v nitems s (.take i) .took { shared := s, place := .check i }
  | sleep (i : ℕ) (h : i < nitems) (hv : v.Waits) (hready : s.nready = 0) :
      Branch v nitems s (.take i) .slept { shared := s, place := .take i, sleep := some () }
  | take (i : ℕ) (h : i < nitems) (hv : v.Waits) (hready : s.nready ≠ 0) :
      Branch v nitems s (.take i) .took
        { shared := { s with nready := s.nready - 1 }, place := .check i }
  | check (i : ℕ) : Branch v nitems s (.check i) (.checked i (s.buff i))
      { shared := s, place := .take (i + 1) }

theorem prodcons_branch {a : Unit} {r : Place} {s : Shared} {e : Did}
    {o : Outcome Unit Shared Place} (h : prodcons v nitems a r s = some (e, o)) :
    Branch v nitems s r e o := by
  cases r with
  | put count =>
    have hp : produce v nitems count s = (e, o) := Option.some.inj h
    unfold produce at hp
    split at hp
    · obtain ⟨rfl, rfl⟩ := Prod.mk.inj hp
      exact .full count ‹_›
    · rename_i hroom
      obtain ⟨rfl, rfl⟩ := Prod.mk.inj hp
      have hroom : s.nput < nitems := Nat.lt_of_not_le hroom
      cases v with
      | prodcons3 => exact .store count hroom (not_not_intro rfl)
      | prodcons5 => exact .storeReady count hroom rfl
      | prodcons6 | prodcons7 => exact .storeFirst count hroom nofun
  | ready count =>
    obtain ⟨rfl, rfl⟩ := Prod.mk.inj (Option.some.inj h)
    exact .announce count
  | take i =>
    have hc : consume v nitems i s = (e, o) := Option.some.inj h
    rw [consume] at hc
    split at hc
    · obtain ⟨rfl, rfl⟩ := Prod.mk.inj hc
      exact .done i ‹_›
    · rename_i hi
      have hi : i < nitems := Nat.lt_of_not_le hi
      split at hc
      · rename_i hv
        have hv : ¬ v.Waits := not_not_intro hv
        rw [consume_wait] at hc
        split at hc
        · obtain ⟨rfl, rfl⟩ := Prod.mk.inj hc
          exact .see i hi hv ‹_›
        · obtain ⟨rfl, rfl⟩ := Prod.mk.inj hc
          exact .retry i hi hv (Nat.le_of_not_lt ‹_›)
      · rename_i hv
        rw [takeReady] at hc
        split at hc
        · obtain ⟨rfl, rfl⟩ := Prod.mk.inj hc
          exact .sleep i hi hv ‹_›
        · obtain ⟨rfl, rfl⟩ := Prod.mk.inj hc
          exact .take i hi hv ‹_›
  | check i =>
    obtain ⟨rfl, rfl⟩ := Prod.mk.inj (Option.some.inj h)
    exact .check i
  | full | done => cases h

/-! ## The books -/

namespace Place

/-- What it has added to its part of `count`. -/
def counted : Place → ℕ
  | .put count | .ready count | .full count => count
  | _ => 0

/-- It has stored an item that it has not announced yet. -/
def pending : Place → ℕ
  | .ready _ => 1
  | _ => 0

/-- The items it has taken. -/
def taken : Place → ℕ
  | .take i | .done i => i
  | .check i => i + 1
  | _ => 0

/-- The items it has checked. -/
def index : Place → ℕ
  | .take i | .check i | .done i => i
  | _ => 0

/-- It is a place of the consumer. -/
def Consumes : Place → Prop
  | .take _ | .check _ | .done _ => True
  | _ => False

/-- The consumer is inside its loop. -/
def Within (nitems : ℕ) : Place → Prop
  | .take i => i ≤ nitems
  | .check i => i < nitems
  | .done i => i = nitems
  | _ => True

end Place

variable {nthreads : ℕ}

abbrev State (nthreads : ℕ) := Threads (Option (Fin nthreads)) Unit Shared Place

/-- **What the counters are worth**, and what is in the buffer. -/
structure Books (v : Version) (nitems : ℕ) (t : State nthreads) : Prop where
  role : ∀ i, (t.place i).Consumes ↔ i = none
  within : ∀ i, (t.place i).Within nitems
  nval : t.shared.nval = t.shared.nput
  le : t.shared.nput ≤ nitems
  full : ∀ i count, t.place i = .full count → t.shared.nput = nitems
  counted : t.total Place.counted + t.total Place.pending = t.shared.nput
  taken : t.total Place.taken ≤ t.shared.nput
  ready : v.Waits → t.shared.nready + t.total Place.taken = t.total Place.counted ∧
    0 ≤ t.shared.nready
  signals : v = .prodcons7 → t.shared.nsignals ≤ t.total Place.counted ∧
    (0 < t.total Place.counted → 0 < t.shared.nsignals)
  buff : ∀ k < t.shared.nput, t.shared.buff k = k

theorem total_start (nthreads : ℕ) {w : Place → ℕ}
    (hw : ∀ i : Option (Fin nthreads), w (entry i) = 0) :
    Threads.total (Threads.start initial entry : State nthreads) w = 0 :=
  Threads.total_eq_zero_iff.mpr hw

theorem books_start : Books v nitems (.start initial entry : State nthreads) := by
  have hcounted := total_start nthreads (w := Place.counted) fun i => by cases i <;> rfl
  have hpending := total_start nthreads (w := Place.pending) fun i => by cases i <;> rfl
  have htaken := total_start nthreads (w := Place.taken) fun i => by cases i <;> rfl
  refine ⟨fun i => ?_, fun i => ?_, rfl, Nat.zero_le _, fun i count h => ?_, ?_, htaken.le,
    fun _ => ?_, fun _ => ?_, fun k hk => absurd hk (Nat.not_lt_zero k)⟩
  · cases i <;> simp [Threads.start, entry, Place.Consumes]
  · cases i <;> simp [Threads.start, entry, Place.Within]
  · cases i <;> cases h
  · rw [hcounted, hpending]
    rfl
  · rw [hcounted, htaken]
    exact ⟨rfl, le_refl 0⟩
  · rw [hcounted]
    exact ⟨Nat.le_refl 0, fun h => absurd h (Nat.lt_irrefl 0)⟩

section
variable {t : State nthreads} {i : Option (Fin nthreads)} {e : Did} {o : Outcome Unit Shared Place}
  {woken : Finset (Option (Fin nthreads))}

/-- Only the consumer takes items. -/
theorem Books.total_taken (hI : Books v nitems t) :
    t.total Place.taken = (t.place none).taken := by
  have hzero : ∀ p : Fin nthreads, (t.place (some p)).taken = 0 := by
    intro p
    have hnot : ¬ (t.place (some p)).Consumes := fun h => nomatch (hI.role _).mp h
    cases hp : t.place (some p) with
    | put | ready | full => rfl
    | take | check | done => exact absurd (by rw [hp]; trivial) hnot
  rw [Threads.total, Fintype.sum_option, Finset.sum_eq_zero fun p _ => hzero p, Nat.add_zero]

theorem Branch.consumes {s : Shared} {r : Place} (h : Branch v nitems s r e o) :
    o.place.Consumes ↔ r.Consumes := by
  cases h <;> exact Iff.rfl

theorem Branch.within {s : Shared} {r : Place} (h : Branch v nitems s r e o)
    (hr : r.Within nitems) : o.place.Within nitems := by
  cases h with
  | full | store | storeReady | storeFirst | announce => trivial
  | done i hi => exact Nat.le_antisymm hr hi
  | retry i hi | sleep i hi => exact hr
  | see i hi | take i hi => exact hi
  | check i => exact hr

/-- A region that leaves the shared data as they are. -/
theorem Books.quiet {r : Place} (hI : Books v nitems t) (hr : t.place i = r)
    (hb : Branch v nitems t.shared r e o) (hshared : o.shared = t.shared)
    (hcounted : o.place.counted = r.counted) (hpending : o.place.pending = r.pending)
    (htaken : o.place.taken = r.taken)
    (hfull : ∀ count, o.place = .full count → t.shared.nput = nitems) :
    Books v nitems (t.after i o woken) := by
  subst hr
  have hmove := fun w : Place → ℕ => t.total_after i o woken w
  have htotal : ∀ w : Place → ℕ, w o.place = w (t.place i) →
      (t.after i o woken).total w = t.total w := fun w hw => by
    have := hmove w
    omega
  constructor
  · exact Threads.forall_after (P := fun j (r : Place) => r.Consumes ↔ j = none)
      (hb.consumes.trans (hI.role i)) hI.role
  · exact Threads.forall_after (P := fun _ (r : Place) => r.Within nitems)
      (hb.within (hI.within i)) hI.within
  · rw [Threads.after_shared, hshared]
    exact hI.nval
  · rw [Threads.after_shared, hshared]
    exact hI.le
  · rw [Threads.after_shared, hshared]
    exact Threads.forall_after
      (P := fun _ (r : Place) => ∀ count, r = .full count → t.shared.nput = nitems) hfull hI.full
  · rw [Threads.after_shared, hshared, htotal _ hcounted, htotal _ hpending]
    exact hI.counted
  · rw [Threads.after_shared, hshared, htotal _ htaken]
    exact hI.taken
  · rw [Threads.after_shared, hshared, htotal _ hcounted, htotal _ htaken]
    exact hI.ready
  · rw [Threads.after_shared, hshared, htotal _ hcounted]
    exact hI.signals
  · rw [Threads.after_shared, hshared]
    exact hI.buff

/-- The slots after an item is stored. -/
theorem Books.store_buff (hI : Books v nitems t) :
    ∀ k < t.shared.nput + 1, t.shared.store.buff k = k := by
  intro k hk
  show Function.update t.shared.buff t.shared.nput t.shared.nval k = k
  by_cases heq : k = t.shared.nput
  · rw [heq, Function.update_self, hI.nval]
  · rw [Function.update_of_ne heq]
    exact hI.buff k (by omega)

theorem Books.after (hI : Books v nitems t) (hb : Branch v nitems t.shared (t.place i) e o) :
    Books v nitems (t.after i o woken) := by
  have hmove := fun w : Place → ℕ => t.total_after i o woken w
  have hcounted := hmove Place.counted
  have hpending := hmove Place.pending
  have htaken := hmove Place.taken
  have hrole : ∀ j, ((t.after i o woken).place j).Consumes ↔ j = none :=
    Threads.forall_after (P := fun j (r : Place) => r.Consumes ↔ j = none)
      (hb.consumes.trans (hI.role i)) hI.role
  have hwithin : ∀ j, ((t.after i o woken).place j).Within nitems :=
    Threads.forall_after (P := fun _ (r : Place) => r.Within nitems) (hb.within (hI.within i))
      hI.within
  have hfull : ∀ n : ℕ, (∀ count, o.place ≠ .full count) → (t.shared.nput = nitems → n = nitems) →
      ∀ j count, (t.after i o woken).place j = .full count → n = nitems := fun n ho hn =>
    Threads.forall_after (P := fun _ (r : Place) => ∀ count, r = .full count → n = nitems)
      (fun count h => absurd h (ho count)) fun j count h => hn (hI.full j count h)
  have hsum := hI.counted
  have hle := hI.taken
  have hnready := hI.ready
  obtain ⟨r, hr⟩ : ∃ r, t.place i = r := ⟨_, rfl⟩
  rw [hr] at hb hcounted hpending htaken
  have hb' := hb
  cases hb with
  | full count h => exact hI.quiet hr hb' rfl rfl rfl rfl fun _ _ => Nat.le_antisymm hI.le h
  | done | retry | sleep | check => exact hI.quiet hr hb' rfl rfl rfl rfl nofun
  | store count h hv =>
    have hnot : t.shared.nput = nitems → t.shared.nput + 1 = nitems :=
      fun heq => absurd heq (Nat.ne_of_lt h)
    simp only [Place.counted, Place.pending, Place.taken] at hcounted hpending htaken
    refine ⟨hrole, hwithin, ?_, h, hfull _ nofun hnot, ?_, ?_, fun hw => absurd hw hv,
      fun h7 => ?_, hI.store_buff⟩
    · exact congrArg (· + 1) hI.nval
    · show _ = t.shared.nput + 1
      omega
    · show _ ≤ t.shared.nput + 1
      omega
    · exact absurd (by rw [h7]; exact nofun) hv
  | storeReady count h hv =>
    have hnot : t.shared.nput = nitems → t.shared.nput + 1 = nitems :=
      fun heq => absurd heq (Nat.ne_of_lt h)
    simp only [Place.counted, Place.pending, Place.taken] at hcounted hpending htaken
    refine ⟨hrole, hwithin, congrArg (· + 1) hI.nval, h, hfull _ nofun hnot, ?_, ?_, fun _ => ?_,
      fun h7 => absurd (hv.symm.trans h7) nofun, hI.store_buff⟩
    · show _ = t.shared.nput + 1
      omega
    · show _ ≤ t.shared.nput + 1
      omega
    · have hnready := hI.ready (by rw [hv]; exact nofun)
      show t.shared.nready + 1 + _ = _ ∧ 0 ≤ t.shared.nready + 1
      omega
  | storeFirst count h hv =>
    have hnot : t.shared.nput = nitems → t.shared.nput + 1 = nitems :=
      fun heq => absurd heq (Nat.ne_of_lt h)
    simp only [Place.counted, Place.pending, Place.taken] at hcounted hpending htaken
    refine ⟨hrole, hwithin, congrArg (· + 1) hI.nval, h, hfull _ nofun hnot, ?_, ?_, fun _ => ?_,
      fun h7 => ?_, hI.store_buff⟩
    · show _ = t.shared.nput + 1
      omega
    · show _ ≤ t.shared.nput + 1
      omega
    · have hnready := hI.ready hv
      show t.shared.nready + _ = _ ∧ 0 ≤ t.shared.nready
      omega
    · have hsignals := hI.signals h7
      show t.shared.nsignals ≤ _ ∧ (_ → 0 < t.shared.nsignals)
      omega
  | announce count =>
    change _ + count = _ + (count + 1) at hcounted
    change _ + 1 = _ + 0 at hpending
    change _ + 0 = _ + 0 at htaken
    have hcounted : (t.after i (announce v count t.shared).2 woken).total Place.counted =
        t.total Place.counted + 1 := by omega
    refine ⟨hrole, hwithin, hI.nval, hI.le, hfull _ nofun id, ?_, ?_, fun hv => ?_, fun h7 => ?_,
      hI.buff⟩
    · show _ = t.shared.nput
      omega
    · show _ ≤ t.shared.nput
      omega
    · have hnready := hI.ready hv
      show t.shared.nready + 1 + _ = _ ∧ 0 ≤ t.shared.nready + 1
      omega
    · have hsignals := hI.signals h7
      have hnready := hI.ready (by rw [h7]; exact nofun)
      rw [hcounted]
      show (if v = .prodcons7 ∧ t.shared.nready = 0 then t.shared.nsignals + 1
          else t.shared.nsignals) ≤ _ ∧ (_ → 0 < if v = .prodcons7 ∧ t.shared.nready = 0 then
            t.shared.nsignals + 1 else t.shared.nsignals)
      by_cases h0 : t.shared.nready = 0
      · rw [if_pos ⟨h7, h0⟩]
        omega
      · rw [if_neg fun h => h0 h.2]
        omega
  | see j h hv hput =>
    simp only [Place.counted, Place.pending, Place.taken] at hcounted hpending htaken
    refine ⟨hrole, hwithin, hI.nval, hI.le, hfull _ nofun id, ?_, ?_, fun hw => absurd hw hv,
      fun h7 => ?_, hI.buff⟩
    · show _ = t.shared.nput
      omega
    · have hnone : i = none := (hI.role i).mp (by rw [hr]; trivial)
      have htotal := hI.total_taken
      rw [← hnone, hr] at htotal
      change _ = j at htotal
      show _ ≤ t.shared.nput
      omega
    · exact absurd (by rw [h7]; exact nofun) hv
  | take j h hv hready =>
    simp only [Place.counted, Place.pending, Place.taken] at hcounted hpending htaken
    have hnready := hI.ready hv
    refine ⟨hrole, hwithin, hI.nval, hI.le, hfull _ nofun id, ?_, ?_, fun _ => ?_,
      fun h7 => ?_, hI.buff⟩
    · show _ = t.shared.nput
      omega
    · show _ ≤ t.shared.nput
      omega
    · show t.shared.nready - 1 + _ = _ ∧ 0 ≤ t.shared.nready - 1
      omega
    · have hsignals := hI.signals h7
      show t.shared.nsignals ≤ _ ∧ (_ → 0 < t.shared.nsignals)
      omega

end

/-! ## Runs -/

/-- A run of one of the programs. -/
abbrev OriginalRun (v : Version) (nitems : ℕ) (cv : CondVar)
    (tr : List (State nthreads × Event (Option (Fin nthreads)) Did)) (t : State nthreads) : Prop :=
  Run (Step (prodcons v nitems) cv) (.start initial entry) tr t

variable {cv : CondVar} {t : State nthreads}
  {tr : List (State nthreads × Event (Option (Fin nthreads)) Did)}

/-- The slot the consumer checked, and what it found. -/
def checked? : Event (Option (Fin nthreads)) Did → Option (ℕ × ℤ)
  | .did _ (.checked i v) => some (i, v)
  | _ => none

/-- What the consumer found, in order. -/
def checks (tr : List (State nthreads × Event (Option (Fin nthreads)) Did)) : List (ℕ × ℤ) :=
  (labels tr).filterMap checked?

/-- Slots `0` to `n - 1`, each with its item. -/
def found (n : ℕ) : List (ℕ × ℤ) := (List.range n).map fun i => (i, (i : ℤ))

theorem found_succ (n : ℕ) : found (n + 1) = found n ++ [(n, (n : ℤ))] := by
  rw [found, List.range_succ, List.map_append]
  rfl

theorem checks_snoc (u : State nthreads) (ev : Event (Option (Fin nthreads)) Did) :
    checks (tr ++ [(u, ev)]) = checks tr ++ (checked? ev).toList :=
  filterMap_labels_snoc ..

theorem Books.checked {i : Option (Fin nthreads)} {e : Did} {o : Outcome Unit Shared Place}
    {woken : Finset (Option (Fin nthreads))} (hI : Books v nitems t)
    (hb : Branch v nitems t.shared (t.place i) e o) :
    found ((t.after i o woken).place none).index =
      found (t.place none).index ++ (checked? (.did i e)).toList := by
  have htotal := hI.total_taken
  have htaken := hI.taken
  cases i with
  | some p =>
    have hnot : ¬ (t.place (some p)).Consumes := fun h => nomatch (hI.role _).mp h
    rw [Threads.after_place_of_ne (Option.some_ne_none p).symm]
    generalize t.place (some p) = r at hb hnot
    cases hb with
    | full | store | storeReady | storeFirst | announce => exact (List.append_nil _).symm
    | done | retry | see | sleep | take | check => exact absurd trivial hnot
  | none =>
    rw [Threads.after_place_self]
    generalize t.place none = r at hb htotal
    cases hb with
    | check j =>
      change _ = j + 1 at htotal
      rw [hI.buff j (by omega)]
      exact found_succ j
    | full | store | storeReady | storeFirst | announce | done | retry | see | sleep | take =>
      exact (List.append_nil _).symm

/-- The consumer sleeps at the head of its loop, with items to come. -/
def WaitsAt (v : Version) (nitems : ℕ) (r : Place) (_ : Unit) : Prop :=
  v.Waits ∧ ∃ i < nitems, r = .take i

/-- There is an item for the consumer. -/
def HasReady (s : Shared) : Prop := s.nready ≠ 0

theorem Books.sleeper (hI : Books v nitems t) (hplaced : Placed (WaitsAt v nitems) t)
    {i : Option (Fin nthreads)} (h : t.asleep i = some ()) : i = none := by
  obtain ⟨-, j, -, hj⟩ := hplaced i () h
  exact (hI.role i).mp (by rw [hj]; trivial)

/-- **The books of a run**: the consumer has found what it checked in its slot, and it does not
sleep while there is an item for it. -/
theorem books_run (run : OriginalRun v nitems cv tr t) :
    Books v nitems t ∧ checks tr = found (t.place none).index ∧ Placed (WaitsAt v nitems) t ∧
      Answered HasReady () t := by
  refine run.invariant (I := fun tr (t : State nthreads) => Books v nitems t ∧
    checks tr = found (t.place none).index ∧ Placed (WaitsAt v nitems) t ∧
      Answered HasReady () t) ?_ ?_
  · exact ⟨books_start, rfl, nofun, fun h => absurd rfl h⟩
  · rintro tr u ev u' - ⟨hbooks, hchecks, hplaced, hanswered⟩ h
    have hmoves := step_iff_moves.mp h
    have hplaced' := hmoves.placed hplaced fun i a e o c ho hsleep => by
      have hb := prodcons_branch ho
      revert hb
      generalize u.place i = r
      intro hb
      cases hb with
      | sleep i hi hv => exact ⟨hv, i, hi, rfl⟩
      | full | store | storeReady | storeFirst | announce | done | retry | see | take | check =>
        cases hsleep
    have hanswered' := hmoves.answered hanswered fun i a e o _ _ ho hP => by
      have hb := prodcons_branch ho
      have hone : ∀ i ∈ u.waiters (), ∀ j ∈ u.waiters (), i = j := fun i hi j hj =>
        (hbooks.sleeper hplaced (Threads.mem_waiters.mp hi)).trans
          (hbooks.sleeper hplaced (Threads.mem_waiters.mp hj)).symm
      revert hb
      generalize u.place i = r
      intro hb
      cases hb with
      | storeReady => exact ⟨nofun, .inr fun woken hw => Notice.subset_of_signal hw hone⟩
      | announce =>
        refine ⟨nofun, ?_⟩
        by_cases h0 : u.shared.nready = 0
        · refine .inr fun woken hw => ?_
          have hsignal : (Notice.signal ()).Wakes cv u.waiters woken := by
            rwa [announce, if_pos h0] at hw
          exact Notice.subset_of_signal hsignal hone
        · exact .inl h0
      | sleep _ _ _ hready => exact absurd hready hP
      | take _ _ _ hready => exact ⟨nofun, .inl hready⟩
      | full | store | storeFirst | done | retry | see | check => exact ⟨nofun, .inl hP⟩
    rw [checks_snoc, hchecks]
    cases hmoves with
    | region i a woken _ ho _ =>
      have hb := prodcons_branch ho
      exact ⟨hbooks.after hb, (hbooks.checked hb).symm, hplaced', hanswered'⟩
    | awoke i =>
      obtain ⟨hrole, hwithin, hnval, hle, hfull, hcounted, htaken, hready, hsignals, hbuff⟩ :=
        hbooks
      exact ⟨⟨hrole, hwithin, hnval, hle, hfull, hcounted, htaken, hready, hsignals, hbuff⟩,
        List.append_nil _, hplaced', hanswered'⟩

/-! ## The end of a run -/

/-- The thread has returned. -/
def Place.Returned : Place → Prop
  | .full _ | .done _ => True
  | _ => False

theorem returned_of_none {a : Unit} {r : Place} {s : Shared} (h : prodcons v nitems a r s = none) :
    r.Returned := by
  cases r with
  | put | ready | take | check => cases h
  | full | done => trivial

/-- What `main` prints for the producers. -/
def counts (t : State nthreads) (p : Fin nthreads) : ℕ := (t.place (some p)).counted

theorem Books.full_of_returned (hI : Books v nitems t) {p : Fin nthreads}
    (h : (t.place (some p)).Returned) : ∃ count, t.place (some p) = .full count := by
  have hnot : ¬ (t.place (some p)).Consumes := fun h => nomatch (hI.role _).mp h
  cases hp : t.place (some p) with
  | full count => exact ⟨count, rfl⟩
  | put | ready => exact absurd h (by rw [hp]; exact id)
  | take | check | done => exact absurd (by rw [hp]; trivial) hnot

/-- The consumer counts for nothing that a producer does. -/
theorem Books.consumer (hI : Books v nitems t) :
    (t.place none).counted = 0 ∧ (t.place none).pending = 0 := by
  have hconsumes := (hI.role none).mpr rfl
  cases hp : t.place none with
  | take | check | done => exact ⟨rfl, rfl⟩
  | put | ready | full =>
    rw [hp] at hconsumes
    exact hconsumes.elim

/-- **The threads only stand still when all of them have returned**, the consumer has found every
item in its slot, and the counts add up. -/
theorem original_returns (run : OriginalRun v nitems cv tr t) (hn : 0 < nthreads)
    (hterminal : Terminal (Step (prodcons v nitems) cv) t) :
    (∀ i, (t.place i).Returned) ∧ checks tr = found nitems ∧ ∑ p, counts t p = nitems := by
  obtain ⟨hbooks, hchecks, hplaced, hanswered⟩ := books_run run
  have hreturned : ∀ i, t.asleep i = none → (t.place i).Returned := fun i hi =>
    returned_of_none (terminal_region hterminal hi ())
  have hproducer : ∀ p, ∃ count, t.place (some p) = .full count := by
    intro p
    refine hbooks.full_of_returned (hreturned _ ?_)
    cases h : t.asleep (some p) with
    | none => rfl
    | some c => cases hbooks.sleeper hplaced h
  obtain ⟨count, hfull⟩ := hproducer ⟨0, hn⟩
  have hput := hbooks.full _ count hfull
  have hpending : t.total Place.pending = 0 := by
    refine Threads.total_eq_zero_iff.mpr fun i => ?_
    cases i with
    | none => exact hbooks.consumer.2
    | some p =>
      obtain ⟨count, h⟩ := hproducer p
      rw [h]
      rfl
  have hcounted := hbooks.counted
  have htaken := hbooks.total_taken
  have hconsumer : t.asleep none = none := by
    cases h : t.asleep none with
    | none => rfl
    | some c =>
      -- it has items to come, so one of them is ready
      obtain ⟨hwaits, i, hi, hplace⟩ := hplaced none c h
      rw [hplace] at htaken
      change _ = i at htaken
      have hready := hbooks.ready hwaits
      exact absurd h (hanswered (show t.shared.nready ≠ 0 by omega) none)
  have hdone := hreturned none hconsumer
  refine ⟨fun i => ?_, ?_, ?_⟩
  · cases i with
    | none => exact hdone
    | some p =>
      obtain ⟨count, h⟩ := hproducer p
      rw [h]
      trivial
  · have hconsumes := (hbooks.role none).mpr rfl
    have hwithin := hbooks.within none
    rw [hchecks]
    cases hp : t.place none with
    | done i =>
      rw [hp] at hwithin
      exact congrArg found hwithin
    | take | check =>
      rw [hp] at hdone
      exact hdone.elim
    | put | ready | full =>
      rw [hp] at hconsumes
      exact hconsumes.elim
  · rw [hpending, hput, Threads.total, Fintype.sum_option, hbooks.consumer.1,
      Nat.zero_add] at hcounted
    exact hcounted

/-- Two producers with an item each, and a consumer that has to wait for the first of them. -/
def twoItems : List (Act (Option (Fin 2)) Unit) :=
  [.run none () ∅, .run (some 0) () ∅, .run (some 0) () {none}, .run (some 1) () ∅,
    .run (some 1) () ∅] ++ List.replicate 5 (.run none () ∅) ++
    [.run (some 0) () ∅, .run (some 1) () ∅]

theorem exists_twoItems : ∃ tr, ∃ t : State 2, OriginalRun .prodcons7 2 .single tr t ∧
    Terminal (Step (prodcons .prodcons7 2) .single) t :=
  ⟨_, _, run_get (exec (prodcons .prodcons7 2) .single) twoItems (.start initial entry)
    (by decide +kernel), terminal_of (by decide +kernel) fun i a =>
      Option.isNone_iff_eq_none.mp (by revert i a; decide +kernel)⟩

theorem original_returns_twoItems : ∃ tr, ∃ t : State 2, OriginalRun .prodcons7 2 .single tr t ∧
    (∀ i, (t.place i).Returned) ∧ checks tr = found 2 ∧ ∑ p, counts t p = 2 := by
  obtain ⟨tr, t, run, hterminal⟩ := exists_twoItems
  exact ⟨tr, t, run, original_returns run Nat.two_pos hterminal⟩

/-! ## The length of a run -/

section
variable (tr : List (State nthreads × Event (Option (Fin nthreads)) Did))

/-- How often the consumer went to sleep. -/
def sleeps : ℕ := (labels tr).countP fun
  | .did _ .slept => true
  | _ => false

/-- How often the consumer tried in vain. -/
def retries : ℕ := (labels tr).countP fun
  | .did _ .retried => true
  | _ => false

/-- How often `pthread_cond_wait` returned without a signal. -/
def awakenings : ℕ := (labels tr).countP fun
  | .awoke _ => true
  | _ => false

end

/-- What a thread has done, an item of a producer as two regions. -/
def Place.steps : Place → ℕ
  | .put count => 2 * count
  | .ready count | .full count => 2 * count + 1
  | .take i => 2 * i
  | .check i | .done i => 2 * i + 1

theorem Branch.steps {s : Shared} {r : Place} {e : Did} {o : Outcome Unit Shared Place}
    (h : Branch v nitems s r e o) :
    r.steps + 1 ≤ o.place.steps ∨ o.place = r ∧ (e = .slept ∨ e = .retried) := by
  cases h with
  | sleep => exact .inr ⟨rfl, .inl rfl⟩
  | retry => exact .inr ⟨rfl, .inr rfl⟩
  | announce count => exact .inl (show 2 * count + 1 + 1 ≤ 2 * (count + 1) by omega)
  | full | store | storeReady | storeFirst | done | see | take | check =>
    left
    simp only [Place.steps]
    omega

theorem length_run (run : OriginalRun v nitems cv tr t) :
    tr.length ≤ t.total Place.steps + sleeps tr + retries tr + awakenings tr := by
  refine run.invariant (I := fun tr (t : State nthreads) =>
    tr.length ≤ t.total Place.steps + sleeps tr + retries tr + awakenings tr) (Nat.zero_le _) ?_
  intro tr u ev u' _ ih h
  simp only [sleeps, retries, awakenings, labels_append, labels_cons, labels_nil,
    List.countP_append, List.length_append, List.length_singleton] at ih ⊢
  cases step_iff_moves.mp h with
  | @region i a e o woken _ ho _ =>
    have hmove := u.total_after i o woken Place.steps
    rcases (prodcons_branch ho).steps with hsteps | ⟨hplace, rfl | rfl⟩
    · omega
    · rw [hplace] at hmove
      simp
      omega
    · rw [hplace] at hmove
      simp
      omega
  | awoke i =>
    have htotal : (u.awaken i).total Place.steps = u.total Place.steps := rfl
    simp
    omega

/-- The signals that can have been sent. -/
def signals (v : Version) (t : State nthreads) : ℕ :=
  if v = .prodcons7 then t.shared.nsignals else t.total Place.counted

/-- Whether the consumer sleeps. -/
def dozes (t : State nthreads) : ℕ := if t.asleep none = none then 0 else 1

/-- A region that signals is one signal more, and no region takes one back. -/
theorem Branch.signals {i : Option (Fin nthreads)} {e : Did} {o : Outcome Unit Shared Place}
    (hb : Branch v nitems t.shared (t.place i) e o) (woken : Finset (Option (Fin nthreads))) :
    ProdconsMutex.signals v t + (if o.notify = .quiet then 0 else 1) ≤
      ProdconsMutex.signals v (t.after i o woken) := by
  have hmove := t.total_after i o woken Place.counted
  generalize t.place i = r at hb hmove
  rw [ProdconsMutex.signals, ProdconsMutex.signals]
  split
  · rename_i h7
    cases hb with
    | full | storeFirst | done | retry | see | sleep | take | check => exact Nat.le_refl _
    | store count h hv => exact absurd (by rw [h7]; exact nofun) hv
    | storeReady count h hv => exact absurd (hv.symm.trans h7) nofun
    | announce count =>
      show _ ≤ if v = .prodcons7 ∧ t.shared.nready = 0 then t.shared.nsignals + 1
        else t.shared.nsignals
      rw [ProdconsMutex.announce]
      by_cases h0 : t.shared.nready = 0
      · simp [h0, h7]
      · simp [h0]
  · cases hb with
    | announce count =>
      change _ + count = _ + (count + 1) at hmove
      split <;> omega
    | storeReady count =>
      change _ + count = _ + (count + 1) at hmove
      rw [if_neg nofun]
      omega
    | full | store | storeFirst | done | retry | see | sleep | take | check =>
      simp only [Place.counted] at hmove
      rw [if_pos rfl]
      omega

theorem Branch.slept {s : Shared} {r : Place} {o : Outcome Unit Shared Place}
    (h : Branch v nitems s r .slept o) : r.Consumes ∧ o.sleep = some () := by
  cases h
  exact ⟨trivial, rfl⟩

theorem dozes_le (t : State nthreads) : dozes t ≤ 1 := by
  rw [dozes]
  split <;> omega

/-- Whenever the consumer slept, it was woken by a signal or on its own, or it still sleeps. -/
theorem sleeps_run (run : OriginalRun v nitems cv tr t) :
    sleeps tr ≤ signals v t + awakenings tr + dozes t := by
  refine run.invariant (I := fun tr (t : State nthreads) =>
    sleeps tr ≤ signals v t + awakenings tr + dozes t) (Nat.zero_le _) ?_
  intro tr u ev u' hrun ih h
  have hbooks := (books_run hrun).1
  simp only [sleeps, awakenings, labels_append, labels_cons, labels_nil, List.countP_append] at ih ⊢
  cases step_iff_moves.mp h with
  | @region i a e o woken hawake ho hwoken =>
    have hb := prodcons_branch ho
    have hsignals := hb.signals woken
    have hdozes : dozes u + (if e = .slept then 1 else 0) ≤
        (if o.notify = .quiet then 0 else 1) + dozes (u.after i o woken) := by
      cases i with
      | none =>
        rw [dozes, if_pos hawake, dozes, Threads.after_asleep_self]
        by_cases he : e = .slept
        · subst he
          rw [hb.slept.2, if_neg (Option.some_ne_none ())]
          simp
        · rw [if_neg he]
          exact Nat.zero_le _
      | some p =>
        have he : e ≠ .slept := by
          rintro rfl
          exact absurd ((hbooks.role _).mp hb.slept.1) (Option.some_ne_none p)
        rw [if_neg he, Nat.add_zero]
        by_cases hquiet : o.notify = .quiet
        · rw [hquiet] at hwoken
          obtain rfl : woken = ∅ := hwoken
          rw [dozes, dozes, Threads.after_asleep_of_ne (Option.some_ne_none p).symm,
            if_neg (Finset.notMem_empty _)]
          exact Nat.le_add_left _ _
        · rw [if_neg hquiet]
          exact (dozes_le u).trans (Nat.le_add_right _ _)
    have hcount : ((fun | .did _ .slept => true | _ => false :
        Event (Option (Fin nthreads)) Did → Bool) (.did i e)) = decide (e = .slept) := by
      cases e <;> rfl
    simp only [List.countP_singleton, hcount]
    simp
    omega
  | awoke i =>
    have := dozes_le u
    have hsame : signals v (u.awaken i) = signals v u := rfl
    simp
    omega

theorem Books.steps_le (hI : Books v nitems t) :
    t.total Place.steps ≤ 4 * nitems + nthreads + 1 := by
  have hconsumer : (t.place none).steps ≤ 2 * nitems + 1 := by
    have hconsumes := (hI.role none).mpr rfl
    have hwithin := hI.within none
    generalize t.place none = r at hconsumes hwithin
    cases r <;> simp only [Place.Within, Place.steps, Place.Consumes] at * <;> omega
  have hproducers : ∑ p : Fin nthreads, (t.place (some p)).steps ≤
      2 * (t.total Place.counted + t.total Place.pending) + nthreads := by
    calc ∑ p : Fin nthreads, (t.place (some p)).steps
        ≤ ∑ p : Fin nthreads,
            (2 * ((t.place (some p)).counted + (t.place (some p)).pending) + 1) := by
          refine Finset.sum_le_sum fun p _ => ?_
          have hnot : ¬ (t.place (some p)).Consumes := fun h => nomatch (hI.role _).mp h
          generalize t.place (some p) = r at hnot
          cases r with
          | put | ready | full =>
            simp only [Place.steps, Place.counted, Place.pending]
            omega
          | take | check | done => exact absurd trivial hnot
      _ = 2 * (t.total Place.counted + t.total Place.pending) + nthreads := by
          rw [Threads.total, Threads.total, Fintype.sum_option, Fintype.sum_option, hI.consumer.1,
            hI.consumer.2, Finset.sum_add_distrib, ← Finset.mul_sum, Finset.sum_add_distrib]
          simp
  have hle := hI.le
  rw [hI.counted] at hproducers
  rw [Threads.total, Fintype.sum_option]
  omega

theorem Books.signals_le (hI : Books v nitems t) : ProdconsMutex.signals v t ≤ nitems := by
  have hcounted := hI.counted
  have hle := hI.le
  rw [ProdconsMutex.signals]
  split
  · have := (hI.signals ‹_›).1
    omega
  · omega

/-- **How long a run can be**: only `prodcons3` may go on trying for ever, and a consumer that
is woken without a signal may go back to sleep. -/
theorem original_ends (run : OriginalRun v nitems cv tr t) :
    tr.length ≤ 5 * nitems + nthreads + 2 + retries tr + 2 * awakenings tr ∧
      (v.Waits → retries tr = 0) ∧ (¬ cv.Spurious → awakenings tr = 0) := by
  have hbooks := (books_run run).1
  refine ⟨?_, fun hv => ?_, fun hcv => ?_⟩
  · have hlength := length_run run
    have hsleeps := sleeps_run run
    have hsteps := hbooks.steps_le
    have hsignals := hbooks.signals_le
    have hdozes := dozes_le t
    omega
  · refine List.countP_eq_zero.mpr fun ev hev => ?_
    obtain ⟨⟨u, ev⟩, hx, rfl⟩ := List.mem_map.mp hev
    obtain ⟨pre, post, u', -, -, h, -⟩ := run.of_mem hx
    have hmoves : Moves (prodcons v nitems) cv u ev u' := step_iff_moves.mp h
    cases hmoves with
    | @region i a e o woken _ ho _ =>
      have hb := prodcons_branch ho
      generalize u.place i = r at hb
      cases hb with
      | retry _ _ hnot => exact absurd hv hnot
      | full | store | storeReady | storeFirst | announce | done | see | sleep | take | check =>
        exact Bool.false_ne_true
    | awoke => exact Bool.false_ne_true
  · refine List.countP_eq_zero.mpr fun ev hev => ?_
    obtain ⟨⟨u, ev⟩, hx, rfl⟩ := List.mem_map.mp hev
    obtain ⟨pre, post, u', -, -, h, -⟩ := run.of_mem hx
    have hmoves : Moves (prodcons v nitems) cv u ev u' := step_iff_moves.mp h
    cases hmoves with
    | region => exact Bool.false_ne_true
    | awoke i hspurious => exact absurd hspurious hcv

theorem original_ends_twoItems : ∃ tr, ∃ t : State 2, OriginalRun .prodcons7 2 .single tr t ∧
    tr.length ≤ 14 + retries tr + 2 * awakenings tr ∧
      (Version.prodcons7.Waits → retries tr = 0) ∧
      (¬ CondVar.single.Spurious → awakenings tr = 0) := by
  obtain ⟨tr, t, run, -⟩ := exists_twoItems
  exact ⟨tr, t, run, original_ends run⟩

/-- **What `prodcons7` counts**: the consumer went to sleep `nsignals` times at most, but for when
it was woken without a signal. -/
theorem nsignals_bounds (run : OriginalRun .prodcons7 nitems cv tr t) (hn : 0 < nthreads)
    (hterminal : Terminal (Step (prodcons .prodcons7 nitems) cv) t) :
    sleeps tr ≤ t.shared.nsignals + awakenings tr ∧ t.shared.nsignals ≤ nitems ∧
      (0 < nitems → 0 < t.shared.nsignals) := by
  obtain ⟨hbooks, -, hplaced, -⟩ := books_run run
  obtain ⟨hreturned, -, hcounts⟩ := original_returns run hn hterminal
  have hcounted : t.total Place.counted = nitems := by
    rw [Threads.total, Fintype.sum_option, hbooks.consumer.1, Nat.zero_add]
    exact hcounts
  obtain ⟨hle, hpos⟩ := hbooks.signals rfl
  have hdozes : dozes t = 0 := by
    rw [dozes, if_pos]
    cases h : t.asleep none with
    | none => rfl
    | some c =>
      obtain ⟨-, i, -, hplace⟩ := hplaced none c h
      exact absurd (hreturned none) (by rw [hplace]; exact id)
  have hsleeps := sleeps_run run
  rw [hdozes, signals, if_pos rfl] at hsleeps
  exact ⟨hsleeps, hcounted ▸ hle, fun h => hpos (hcounted ▸ h)⟩

theorem nsignals_bounds_twoItems : ∃ tr, ∃ t : State 2, OriginalRun .prodcons7 2 .single tr t ∧
    sleeps tr ≤ t.shared.nsignals + awakenings tr ∧ t.shared.nsignals ≤ 2 ∧
      (0 < 2 → 0 < t.shared.nsignals) := by
  obtain ⟨tr, t, run, hterminal⟩ := exists_twoItems
  exact ⟨tr, t, run, nsignals_bounds run Nat.two_pos hterminal⟩

end PosixNet.ProdconsMutex
