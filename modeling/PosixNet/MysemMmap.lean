import PosixNet.Semaphores

/-!
# `my_pxsem_mmap`: semaphores made of a mutex and a condition variable

`sem_wait.c`, `sem_trywait.c`, `sem_post.c` and `sem_getvalue.c`.  A semaphore is a count
under a mutex; who finds it zero sleeps, and a post wakes one thread **if the count was
zero**.  The count is an `unsigned int`, and a post does not look at how large it is.

* **`mysem_refines`**: as long as no count gets to `SEM_VALUE_MAX`, whatever a program does
  with these semaphores, it could have done with those of the standard.  The converse is
  false, since a wake-up can be lost: two threads sleep, two posts follow each other, and
  only the first of them signals.
* **`mysem_terminal`**: as long as no two threads sleep on one semaphore besides, a program
  that stands still could have got there with the semaphores of the standard, and would
  stand still with them as well.
* **`lost_wakeup_iff`**: with `n` threads that wait once and one that posts `n` times, a
  thread may be left asleep exactly if `n` is two or more.
-/
namespace PosixNet.Mysem
open Monitor

variable {ν δ ε ρ ι : Type} [DecidableEq ν]

/-- What `sysconf(_SC_SEM_VALUE_MAX)` returns, the same as `INT_MAX`. -/
def SEM_VALUE_MAX : ℕ := 2147483647

/-- `sem_count++`, of 32 bits. -/
def increment (x : ν) (s : Sems ν δ) : Sems ν δ :=
  { s with value := Function.update s.value x ((s.value x + 1) % 2 ^ 32) }

/-- The `int` that an `unsigned int` is assigned to. -/
def toInt (n : ℕ) : ℤ := if n ≤ SEM_VALUE_MAX then n else n - 2 ^ 32

/-- What a thread at `r` does in `mysem_wait`, before it goes on at `next`. -/
def mysem_wait (x : ν) (r next : ρ) (s : Sems ν δ) : SemEvent ν ε × Outcome ν (Sems ν δ) ρ :=
  if s.value x = 0 then (.slept x, { shared := s, place := r, sleep := some x })
  else (.waited x, { shared := s.down x, place := next })

/-- `mysem_trywait` -/
def mysem_trywait (x : ν) (next : Bool → ρ) (s : Sems ν δ) :
    SemEvent ν ε × Outcome ν (Sems ν δ) ρ :=
  if s.value x > 0 then (.waited x, { shared := s.down x, place := next true })
  else (.refused x, { shared := s, place := next false })

/-- `mysem_post`: it signals if it finds the count at zero. -/
def mysem_post (x : ν) (next : ρ) (s : Sems ν δ) : SemEvent ν ε × Outcome ν (Sems ν δ) ρ :=
  (.posted x, {
    shared := increment x s
    place := next
    notify := if s.value x = 0 then .signal x else .quiet })

/-- `mysem_getvalue` -/
def mysem_getvalue (x : ν) (next : ℤ → ρ) (s : Sems ν δ) :
    SemEvent ν ε × Outcome ν (Sems ν δ) ρ :=
  (.got x (toInt (s.value x)), { shared := s, place := next (toInt (s.value x)) })

/-- A program over these semaphores. -/
def mysem (program : ρ → SemCall ν δ ε ρ) : Monitor Unit (SemEvent ν ε) ν (Sems ν δ) ρ :=
  fun _ r s =>
    match program r with
    | .wait x next => some (mysem_wait x r next s)
    | .trywait x next => some (mysem_trywait x next s)
    | .post x next => some (mysem_post x next s)
    | .getvalue x next => some (mysem_getvalue x next s)
    | .data f =>
      let (e, d, r') := f s.data
      some (.did e, { shared := { s with data := d }, place := r' })
    | .stop => none

/-- A place at which `mysem_wait` waits for `x`. -/
def WaitsFor (program : ρ → SemCall ν δ ε ρ) (r : ρ) (x : ν) : Prop :=
  ∃ next, program r = .wait x next

variable {program : ρ → SemCall ν δ ε ρ} {a : Unit} {r : ρ} {s : Sems ν δ} {e : SemEvent ν ε}
  {o : Outcome ν (Sems ν δ) ρ}

theorem increment_eq_up {x : ν} (h : s.value x < SEM_VALUE_MAX) : increment x s = s.up x := by
  rw [SEM_VALUE_MAX] at h
  rw [increment, Sems.up, Nat.mod_eq_of_lt (by omega)]

theorem toInt_eq {n : ℕ} (h : n < SEM_VALUE_MAX) : toInt n = n := if_pos h.le

/-- **A region either sleeps or is a call of the standard's semaphores**, where no count is too
large. -/
theorem mysem_cases (h : mysem program a r s = some (e, o))
    (hs : ∀ x, s.value x < SEM_VALUE_MAX) :
    (∃ x next, program r = .wait x next ∧ s.value x = 0 ∧ e = .slept x ∧
      o = { shared := s, place := r, sleep := some x }) ∨
    (o.sleep = none ∧ (∀ x, e ≠ .slept x) ∧
      Sems.atomic program a r s = some (e, { o with notify := .quiet })) := by
  rw [mysem] at h
  rw [Sems.atomic]
  cases hcall : program r with
  | wait x next =>
    simp only [hcall, mysem_wait] at h
    by_cases hx : s.value x = 0
    · rw [if_pos hx] at h
      obtain ⟨rfl, rfl⟩ := Prod.mk.inj (Option.some.inj h)
      exact .inl ⟨x, next, rfl, hx, rfl, rfl⟩
    · rw [if_neg hx] at h
      obtain ⟨rfl, rfl⟩ := Prod.mk.inj (Option.some.inj h)
      exact .inr ⟨rfl, by simp, by simp [hx]⟩
  | trywait x next =>
    simp only [hcall, mysem_trywait] at h
    by_cases hx : s.value x = 0
    · rw [if_neg (by omega)] at h
      obtain ⟨rfl, rfl⟩ := Prod.mk.inj (Option.some.inj h)
      exact .inr ⟨rfl, by simp, by simp [hx]⟩
    · rw [if_pos (by omega)] at h
      obtain ⟨rfl, rfl⟩ := Prod.mk.inj (Option.some.inj h)
      exact .inr ⟨rfl, by simp, by simp [hx]⟩
  | post x next =>
    simp only [hcall, mysem_post, increment_eq_up (hs x)] at h
    obtain ⟨rfl, rfl⟩ := Prod.mk.inj (Option.some.inj h)
    exact .inr ⟨rfl, by simp, rfl⟩
  | getvalue x next =>
    simp only [hcall, mysem_getvalue, toInt_eq (hs x)] at h
    obtain ⟨rfl, rfl⟩ := Prod.mk.inj (Option.some.inj h)
    exact .inr ⟨rfl, by simp, rfl⟩
  | data f =>
    simp only [hcall] at h
    obtain ⟨rfl, rfl⟩ := Prod.mk.inj (Option.some.inj h)
    exact .inr ⟨rfl, by simp, rfl⟩
  | stop =>
    simp only [hcall] at h
    cases h

/-- A region that ends asleep has found a semaphore at zero. -/
theorem mysem_slept {x : ν} (h : mysem program a r s = some (e, o))
    (hsleep : o.sleep = some x) :
    WaitsFor program r x ∧ s.value x = 0 ∧ o.shared = s ∧ o.place = r := by
  rw [mysem] at h
  cases hcall : program r with
  | wait y next =>
    simp only [hcall, mysem_wait] at h
    split at h
    · obtain ⟨-, rfl⟩ := Prod.mk.inj (Option.some.inj h)
      obtain rfl := Option.some.inj hsleep
      exact ⟨⟨next, hcall⟩, ‹_›, rfl, rfl⟩
    · obtain ⟨-, rfl⟩ := Prod.mk.inj (Option.some.inj h)
      cases hsleep
  | trywait y next =>
    simp only [hcall, mysem_trywait] at h
    split at h
    · obtain ⟨-, rfl⟩ := Prod.mk.inj (Option.some.inj h)
      cases hsleep
    · obtain ⟨-, rfl⟩ := Prod.mk.inj (Option.some.inj h)
      cases hsleep
  | post | getvalue | data =>
    simp only [hcall, mysem_post, mysem_getvalue] at h
    obtain ⟨-, rfl⟩ := Prod.mk.inj (Option.some.inj h)
    cases hsleep
  | stop =>
    simp only [hcall] at h
    cases h

/-! ## Refinement -/

/-- The threads, with nobody asleep. -/
def forget (t : Threads ι ν (Sems ν δ) ρ) : Threads ι ν (Sems ν δ) ρ :=
  { t with asleep := fun _ => none }

/-- What the semaphores of the standard have in common with these. -/
def seen : Event ι (SemEvent ν ε) → Option (Event ι (SemEvent ν ε))
  | .did _ (.slept _) | .awoke _ => none
  | e => some e

variable [Fintype ι] [DecidableEq ι] {cv : CondVar} {t t' : Threads ι ν (Sems ν δ) ρ}
  {ev : Event ι (SemEvent ν ε)}

/-- A step is one of the standard's semaphores, or is not seen. -/
theorem forget_step (h : Step (mysem program) cv t ev t')
    (ht : ∀ x, t.shared.value x < SEM_VALUE_MAX) :
    (seen ev = none ∧ forget t' = forget t) ∨
      (seen ev = some ev ∧ Step (Sems.atomic program) cv (forget t) ev (forget t')) := by
  cases step_iff_moves.mp h with
  | region i a woken hawake ho hwoken =>
    rcases mysem_cases ho ht with ⟨x, next, -, -, rfl, rfl⟩ | ⟨hsleep, hslept, hatomic⟩
    · refine .inl ⟨rfl, ?_⟩
      simp [forget, Threads.after]
    · refine .inr ⟨?_, ?_⟩
      · rw [seen.eq_def]
        split
        · rename_i h
          exact absurd (Event.did.inj h).2 (hslept _)
        · rename_i h
          cases h
        · rfl
      · refine step_iff_moves.mpr ?_
        have hmoves : Moves (Sems.atomic program) cv (forget t) _ _ := .region i a ∅ rfl hatomic rfl
        convert hmoves using 1
        simp [forget, Threads.after, hsleep]
  | awoke i => exact .inl ⟨rfl, rfl⟩

/-- No count gets to `SEM_VALUE_MAX`. -/
def Bounded (tr : List (Threads ι ν (Sems ν δ) ρ × Event ι (SemEvent ν ε))) : Prop :=
  ∀ y ∈ tr, ∀ x, y.1.shared.value x < SEM_VALUE_MAX

/-- **Refinement.**  A run with these semaphores is one with those of the standard, less
the moments at which a thread falls asleep or wakes up. -/
theorem mysem_refines {place : ι → ρ}
    {tr : List (Threads ι ν (Sems ν δ) ρ × Event ι (SemEvent ν ε))}
    (run : Run (Step (mysem program) cv) (.start s place) tr t) (hbounded : Bounded tr) :
    ∃ tr', Run (Step (Sems.atomic program) cv) (.start s place) tr' (forget t) ∧
      labels tr' = (labels tr).filterMap seen := by
  have hrun : Run (fun u e u' => (∀ x, u.shared.value x < SEM_VALUE_MAX) ∧
      Step (mysem program) cv u e u') _ tr t := run.guarded hbounded
  refine ⟨_, Run.project (f := forget) (g := seen) ?_ ?_ hrun, labels_filterMap forget seen tr⟩
  · intro u e u' d ⟨hu, h⟩ hd
    rcases forget_step h hu with ⟨hnone, -⟩ | ⟨hsome, hstep⟩
    · rw [hnone] at hd
      cases hd
    · rw [hsome] at hd
      obtain rfl := Option.some.inj hd
      exact hstep
  · intro u e u' ⟨hu, h⟩ hnone
    rcases forget_step h hu with ⟨-, h⟩ | ⟨hsome, -⟩
    · exact h
    · rw [hsome] at hnone
      cases hnone

/-- **Counts stay small** if they do with the semaphores of the standard. -/
theorem bounded {place : ι → ρ} {tr : List (Threads ι ν (Sems ν δ) ρ × Event ι (SemEvent ν ε))}
    (run : Run (Step (mysem program) cv) (.start s place) tr t)
    (hlt : ∀ tr u x, Run (Step (Sems.atomic program) cv) (.start s place) tr u →
      u.shared.value x < SEM_VALUE_MAX) : Bounded tr := by
  refine run.invariant (I := fun tr _ => Bounded tr) (fun y h => nomatch h) ?_
  intro tr u ev u' hrun ih _ y hy x
  rcases List.mem_append.mp hy with hy | hy
  · exact ih y hy x
  · obtain rfl := List.mem_singleton.mp hy
    obtain ⟨tr', hrun', -⟩ := mysem_refines hrun ih
    exact hlt tr' (forget u) x hrun'

/-! ## Wake-ups -/

/-- No two threads ever sleep on one semaphore. -/
def OneSleeper (tr : List (Threads ι ν (Sems ν δ) ρ × Event ι (SemEvent ν ε))) : Prop :=
  ∀ x ∈ tr, ∀ (c : ν) (i j : ι), x.1.asleep i = some c → x.1.asleep j = some c → i = j

variable {place : ι → ρ} {tr : List (Threads ι ν (Sems ν δ) ρ × Event ι (SemEvent ν ε))}

/-- Who sleeps is in `mysem_wait`. -/
theorem placed_run (run : Run (Step (mysem program) cv) (.start s place) tr t) :
    Placed (WaitsFor program) t := by
  refine run.preserves (fun i c h => nomatch h) fun u e u' hu h => ?_
  refine (step_iff_moves.mp h).placed hu fun i a e o c ho hsleep => ?_
  obtain ⟨hwaits, -, -, hplace⟩ := mysem_slept ho hsleep
  exact hplace ▸ hwaits

omit [Fintype ι] [DecidableEq ι] in
/-- Whoever makes a semaphore other than zero signals. -/
theorem signals {x : ν} (h : mysem program a r s = some (e, o)) (hs : s.value x = 0)
    (ho : o.shared.value x ≠ 0) : o.notify = .signal x := by
  rw [mysem] at h
  cases hcall : program r with
  | wait y next =>
    simp only [hcall, mysem_wait] at h
    split at h
    · obtain ⟨-, rfl⟩ := Prod.mk.inj (Option.some.inj h)
      exact absurd hs ho
    · obtain ⟨-, rfl⟩ := Prod.mk.inj (Option.some.inj h)
      by_cases hy : x = y
      · subst hy
        exact absurd hs ‹_›
      · exact absurd ((Sems.down_value_of_ne hy).trans hs) ho
  | trywait y next =>
    simp only [hcall, mysem_trywait] at h
    split at h
    · obtain ⟨-, rfl⟩ := Prod.mk.inj (Option.some.inj h)
      by_cases hy : x = y
      · subst hy
        exact absurd hs (by omega)
      · exact absurd ((Sems.down_value_of_ne hy).trans hs) ho
    · obtain ⟨-, rfl⟩ := Prod.mk.inj (Option.some.inj h)
      exact absurd hs ho
  | post y next =>
    simp only [hcall, mysem_post] at h
    obtain ⟨-, rfl⟩ := Prod.mk.inj (Option.some.inj h)
    by_cases hy : x = y
    · subst hy
      exact if_pos hs
    · exact absurd ((Function.update_of_ne hy ..).trans hs) ho
  | getvalue y next =>
    simp only [hcall, mysem_getvalue] at h
    obtain ⟨-, rfl⟩ := Prod.mk.inj (Option.some.inj h)
    exact absurd hs ho
  | data f =>
    simp only [hcall] at h
    obtain ⟨-, rfl⟩ := Prod.mk.inj (Option.some.inj h)
    exact absurd hs ho
  | stop =>
    simp only [hcall] at h
    cases h

/-- While a semaphore is not zero nobody sleeps on it. -/
theorem answered_run (run : Run (Step (mysem program) cv) (.start s place) tr t)
    (hone : OneSleeper tr) (x : ν) : Answered (fun s => s.value x ≠ 0) x t := by
  revert hone
  refine run.invariant (I := fun tr t => OneSleeper tr → Answered (fun s => s.value x ≠ 0) x t)
    (fun _ _ i h => nomatch h) ?_
  intro tr u ev u' _ ih h hone
  refine (step_iff_moves.mp h).answered (ih fun y hy => hone y (List.mem_append_left _ hy)) ?_
  intro i a e o _ _ ho hx
  constructor
  · intro hsleep
    obtain ⟨-, hzero, hshared, -⟩ := mysem_slept ho hsleep
    exact hx (hshared ▸ hzero)
  · by_cases hu : u.shared.value x = 0
    · right
      intro woken hwoken
      rw [signals ho hu hx] at hwoken
      refine Notice.subset_of_signal hwoken fun j hj k hk => ?_
      exact hone (u, ev) (by simp) x j k (Threads.mem_waiters.mp hj) (Threads.mem_waiters.mp hk)
    · exact .inl hu

/-- Where no two threads ever slept on one semaphore, whoever could take a step with the
semaphores of the standard can take one with these. -/
theorem terminal_forget (run : Run (Step (mysem program) cv) (.start s place) tr t)
    (hone : OneSleeper tr) (hterminal : Terminal (Step (mysem program) cv) t) :
    Terminal (Step (Sems.atomic program) cv) (forget t) := by
  intro ev u h
  cases step_iff_moves.mp h with
  | @region i a e o woken _ ho _ =>
    cases hasleep : t.asleep i with
    | none =>
      -- an awake thread may enter every region the standard lets it enter
      have hnone := terminal_region hterminal hasleep a
      rw [mysem] at hnone
      have hstop : program (t.place i) = .stop := by
        cases hcall : program (t.place i) with
        | stop => rfl
        | wait | trywait | post | getvalue | data => simp only [hcall, reduceCtorEq] at hnone
      rw [Sems.atomic, show (forget t).place i = t.place i from rfl, hstop] at ho
      cases ho
    | some x =>
      obtain ⟨next, hcall⟩ := placed_run run i x hasleep
      have hzero : t.shared.value x = 0 := by
        by_contra hx
        exact answered_run run hone x hx i hasleep
      rw [Sems.atomic, show (forget t).place i = t.place i from rfl, hcall] at ho
      simp only [show (forget t).shared = t.shared from rfl, hzero, if_true] at ho
      cases ho
  | awoke i _ hasleep => exact hasleep rfl

/-- **A program that stands still** with these semaphores could have got there with those of
the standard, and would stand still with them, if no two threads ever slept on one semaphore. -/
theorem mysem_terminal (run : Run (Step (mysem program) cv) (.start s place) tr t)
    (hbounded : Bounded tr) (hone : OneSleeper tr)
    (hterminal : Terminal (Step (mysem program) cv) t) :
    ∃ tr', Run (Step (Sems.atomic program) cv) (.start s place) tr' (forget t) ∧
      labels tr' = (labels tr).filterMap seen ∧
      Terminal (Step (Sems.atomic program) cv) (forget t) := by
  obtain ⟨tr', hrun, hlabels⟩ := mysem_refines run hbounded
  exact ⟨tr', hrun, hlabels, terminal_forget run hone hterminal⟩

/-- **One sleeper at most**, if a semaphore that two threads wait for is never zero with the
semaphores of the standard. -/
theorem oneSleeper (run : Run (Step (mysem program) cv) (.start s place) tr t)
    (hbounded : Bounded tr)
    (hne : ∀ tr u x i j, Run (Step (Sems.atomic program) cv) (.start s place) tr u → i ≠ j →
      WaitsFor program (u.place i) x → WaitsFor program (u.place j) x → u.shared.value x ≠ 0) :
    OneSleeper tr := by
  revert hbounded
  refine run.invariant (I := fun tr _ => Bounded tr → OneSleeper tr) (fun _ x h => nomatch h) ?_
  intro tr u ev u' hrun ih _ hbounded y hy x i j hi hj
  have hbefore : Bounded tr := fun z hz => hbounded z (List.mem_append_left _ hz)
  have hone := ih hbefore
  rcases List.mem_append.mp hy with hy | hy
  · exact hone y hy x i j hi hj
  · obtain rfl := List.mem_singleton.mp hy
    by_contra hij
    have hplaced := placed_run hrun
    obtain ⟨tr', hrun', -⟩ := mysem_refines hrun hbefore
    have hvalue := hne tr' _ x i j hrun' hij (hplaced i x hi) (hplaced j x hj)
    exact answered_run hrun hone x hvalue i hi

/-! ## Lost wake-ups -/

/-- One of the threads that wait once, or the one that posts. -/
inductive Gate where
  | waiting
  | through
  | posting (k : ℕ)
  deriving DecidableEq

/-- What those threads do next. -/
def gate : Gate → SemCall Unit Unit Unit Gate
  | .waiting => .wait () .through
  | .through | .posting 0 => .stop
  | .posting (k + 1) => .post () (.posting k)

section Gate
variable {n : ℕ}

/-- `n` threads that wait, and one that posts `n` times. -/
def crowd (n : ℕ) : Option (Fin n) → Gate
  | some _ => .waiting
  | none => .posting n

abbrev Crowd (n : ℕ) := Threads (Option (Fin n)) Unit (Sems Unit Unit) Gate

/-- A thread that has to wait, and is woken. -/
theorem exists_through : ∃ tr, ∃ t : Crowd 1,
    Run (Step (mysem gate) .single) (.start ⟨fun _ => 0, ()⟩ (crowd 1)) tr t ∧
      (∀ x ∈ tr, ∀ c, x.1.shared.value c < SEM_VALUE_MAX) ∧
      (∀ x ∈ tr, ∀ (c : Unit) (i j : Option (Fin 1)),
        x.1.asleep i = some c → x.1.asleep j = some c → i = j) ∧
      Terminal (Step (mysem gate) .single) t :=
  ⟨_, _, run_get (exec (mysem gate) .single)
    [.run (some 0) () ∅, .run none () {some 0}, .run (some 0) () ∅] _ (by decide +kernel),
    by decide +kernel, by decide +kernel, terminal_of (by decide +kernel) fun i a =>
      Option.isNone_iff_eq_none.mp (by revert i a; decide +kernel)⟩

theorem mysem_refines_through : ∃ tr, ∃ t : Crowd 1,
    Run (Step (mysem gate) .single) (.start ⟨fun _ => 0, ()⟩ (crowd 1)) tr t ∧
      ∃ tr', Run (Step (Sems.atomic gate) .single) (.start ⟨fun _ => 0, ()⟩ (crowd 1)) tr'
        (forget t) ∧ labels tr' = (labels tr).filterMap seen := by
  obtain ⟨tr, t, run, hbounded, -⟩ := exists_through
  exact ⟨tr, t, run, mysem_refines run hbounded⟩

theorem mysem_terminal_through : ∃ tr, ∃ t : Crowd 1,
    Run (Step (mysem gate) .single) (.start ⟨fun _ => 0, ()⟩ (crowd 1)) tr t ∧
      ∃ tr', Run (Step (Sems.atomic gate) .single) (.start ⟨fun _ => 0, ()⟩ (crowd 1)) tr'
        (forget t) ∧ labels tr' = (labels tr).filterMap seen ∧
        Terminal (Step (Sems.atomic gate) .single) (forget t) := by
  obtain ⟨tr, t, run, hbounded, hone, hterminal⟩ := exists_through
  exact ⟨tr, t, run, mysem_terminal run hbounded hone hterminal⟩

/-- The poster has still to post `k` times, the value is `v`, the threads in `S` sleep, and those
in `T` have got through. -/
def Crowd.mid (v k : ℕ) (S T : Finset (Fin n)) : Crowd n where
  shared := ⟨fun _ => v, ()⟩
  place
    | some i => if i ∈ T then .through else .waiting
    | none => .posting k
  asleep
    | some i => if i ∈ S then some () else none
    | none => none

theorem start_crowd : Threads.start ⟨fun _ => 0, ()⟩ (crowd n) = Crowd.mid 0 n ∅ ∅ := by
  simp only [Threads.start, Crowd.mid, Threads.mk.injEq, true_and]
  constructor
  · funext i
    cases i <;> rfl
  · funext i
    cases i <;> rfl

theorem increment_const {v : ℕ} (h : v < SEM_VALUE_MAX) :
    increment () (⟨fun _ => v, ()⟩ : Sems Unit Unit) = ⟨fun _ => v + 1, ()⟩ := by
  rw [increment_eq_up h]
  simp only [Sems.up, Sems.mk.injEq, and_true]
  funext x
  simp

theorem down_const (v : ℕ) :
    Sems.down (⟨fun _ => v + 1, ()⟩ : Sems Unit Unit) () = ⟨fun _ => v, ()⟩ := by
  simp only [Sems.down, Sems.mk.injEq, and_true]
  funext x
  simp

section
variable {v k : ℕ} {S T : Finset (Fin n)} {i : Fin n}

/-- A thread that finds the semaphore at zero falls asleep. -/
theorem reaches_asleep (hS : i ∉ S) (hT : i ∉ T) : Reaches (Step (mysem gate) .single)
    (Crowd.mid 0 k S T) (Crowd.mid 0 k (insert i S) T) := by
  have ho : mysem gate () .waiting ⟨fun _ => 0, ()⟩ = some (.slept (),
      { shared := ⟨fun _ => 0, ()⟩, place := .waiting, sleep := some () }) := rfl
  have hstep : Reaches (Step (mysem gate) .single) (Crowd.mid 0 k S T) _ :=
    reaches_region (i := some i) ∅ (by simp [Crowd.mid, hT]) rfl (by simp [Crowd.mid, hS]) ho rfl
  convert hstep using 1
  simp only [Crowd.mid, Threads.after, Threads.mk.injEq, true_and]
  constructor
  · funext j
    cases j with
    | none => rfl
    | some j => by_cases hj : j = i <;> simp [hj, hT]
  · funext j
    cases j with
    | none => rfl
    | some j => by_cases hj : j = i <;> simp [hj]

/-- One that does not gets through. -/
theorem reaches_through (hS : i ∉ S) (hT : i ∉ T) : Reaches (Step (mysem gate) .single)
    (Crowd.mid (v + 1) k S T) (Crowd.mid v k S (insert i T)) := by
  have ho : mysem gate () .waiting ⟨fun _ => v + 1, ()⟩ = some (.waited (),
      { shared := ⟨fun _ => v, ()⟩, place := .through }) :=
    congrArg some (congrArg₂ Prod.mk rfl (by simp [down_const]))
  have hstep : Reaches (Step (mysem gate) .single) (Crowd.mid (v + 1) k S T) _ :=
    reaches_region (i := some i) ∅ (by simp [Crowd.mid, hT]) rfl (by simp [Crowd.mid, hS]) ho rfl
  convert hstep using 1
  simp only [Crowd.mid, Threads.after, Threads.mk.injEq, true_and]
  constructor
  · funext j
    cases j with
    | none => rfl
    | some j => by_cases hj : j = i <;> simp [hj]
  · funext j
    cases j with
    | none => rfl
    | some j => by_cases hj : j = i <;> simp [hj, hS]

/-- A post that finds the semaphore at zero wakes one of those that sleep. -/
theorem reaches_woken (hi : i ∈ S) : Reaches (Step (mysem gate) .single)
    (Crowd.mid 0 (k + 1) S T) (Crowd.mid 1 k (S.erase i) T) := by
  have hwakes : CondVar.Wakes .single ((Crowd.mid 0 (k + 1) S T).waiters ()) {some i} :=
    CondVar.wakes_singleton (Threads.mem_waiters.mpr (by simp [Crowd.mid, hi]))
  have ho : mysem gate () (.posting (k + 1)) ⟨fun _ => 0, ()⟩ = some (.posted (),
      { shared := ⟨fun _ => 1, ()⟩, place := .posting k, notify := .signal () }) :=
    congrArg some (congrArg₂ Prod.mk rfl (by
      simp [increment_const (show 0 < SEM_VALUE_MAX by decide)]))
  have hstep : Reaches (Step (mysem gate) .single) (Crowd.mid 0 (k + 1) S T) _ :=
    reaches_region (i := none) {some i} rfl rfl rfl ho hwakes
  convert hstep using 1
  simp only [Crowd.mid, Threads.after, Threads.mk.injEq, true_and]
  constructor
  · funext j
    cases j <;> simp
  · funext j
    cases j with
    | none => simp
    | some j => by_cases hj : j = i <;> simp [hj]

/-- One that does not wakes nobody. -/
theorem reaches_posted (hv : v + 1 < SEM_VALUE_MAX) : Reaches (Step (mysem gate) .single)
    (Crowd.mid (v + 1) (k + 1) S T) (Crowd.mid (v + 2) k S T) := by
  have ho : mysem gate () (.posting (k + 1)) ⟨fun _ => v + 1, ()⟩ = some (.posted (),
      { shared := ⟨fun _ => v + 2, ()⟩, place := .posting k }) :=
    congrArg some (congrArg₂ Prod.mk rfl (by simp [increment_const hv]))
  have hstep : Reaches (Step (mysem gate) .single) (Crowd.mid (v + 1) (k + 1) S T) _ :=
    reaches_region (i := none) ∅ rfl rfl rfl ho rfl
  convert hstep using 1
  simp only [Crowd.mid, Threads.after, Threads.mk.injEq, true_and]
  constructor
  · funext j
    cases j <;> simp
  · funext j
    cases j <;> simp

end

/-- The others come when there is something for each of them, one after the other. -/
theorem reaches_others (i j : Fin (n + 2)) : ∀ U : Finset (Fin (n + 2)), i ∉ U → j ∉ U →
    U.card ≤ n → Reaches (Step (mysem gate) .single) (Crowd.mid 1 n {j} {i})
      (Crowd.mid 1 (n - U.card) {j} (insert i U)) := by
  intro U
  induction U using Finset.induction_on with
  | empty => exact fun _ _ _ => .refl _
  | insert l U hl ih =>
    intro hi hj hcard
    rw [Finset.card_insert_of_notMem hl] at hcard ⊢
    simp only [Finset.mem_insert, not_or] at hi hj
    obtain ⟨k, hk⟩ : ∃ k, n - U.card = k + 1 := ⟨n - U.card - 1, by omega⟩
    have hbefore := ih hi.2 hj.2 (by omega)
    rw [hk] at hbefore
    have hposted := reaches_posted (v := 0) (k := k) (S := {j}) (T := insert i U) (by decide)
    have hthrough := reaches_through (v := 1) (k := k) (S := {j}) (T := insert i U) (i := l)
      (by simpa using Ne.symm hj.1) (by simp [Ne.symm hi.1, hl])
    rw [show n - (U.card + 1) = k by omega, Finset.insert_comm]
    exact (hbefore.trans hposted).trans hthrough

/-- **A wake-up that is lost.**  Of two threads that sleep one is woken by two posts; the others
come later, and the count is never more than two. -/
theorem exists_lost (n : ℕ) : ∃ (t : Crowd (n + 2)) (j : Fin (n + 2)),
    Reaches (Step (mysem gate) .single) (.start ⟨fun _ => 0, ()⟩ (crowd (n + 2))) t ∧
      Terminal (Step (mysem gate) .single) t ∧ t.shared.value () = 1 ∧
      t.asleep (some j) = some () := by
  let i : Fin (n + 2) := 0
  let j : Fin (n + 2) := 1
  have hij : i ≠ j := by simp [i, j]
  have hasleep := (reaches_asleep (k := n + 2) (S := ∅) (T := ∅) (Finset.notMem_empty i)
    (Finset.notMem_empty i)).trans (reaches_asleep (S := {i}) (i := j)
      (by simpa using hij.symm) (Finset.notMem_empty j))
  have hwoken := reaches_woken (k := n + 1) (S := insert j {i}) (T := ∅) (i := i) (by simp)
  have hone : (insert j {i} : Finset (Fin (n + 2))).erase i = {j} := by
    rw [Finset.erase_insert_of_ne hij.symm, Finset.erase_singleton]
    rfl
  rw [hone] at hwoken
  have hposted := reaches_posted (v := 0) (k := n) (S := {j}) (T := ∅) (by decide)
  have hthrough := reaches_through (v := 1) (k := n) (S := {j}) (T := ∅) (i := i)
    (by simpa using hij) (Finset.notMem_empty i)
  let U : Finset (Fin (n + 2)) := (Finset.univ.erase i).erase j
  have hcard : U.card = n := by
    rw [Finset.card_erase_of_mem (by simpa using hij.symm),
      Finset.card_erase_of_mem (Finset.mem_univ i), Finset.card_univ, Fintype.card_fin]
    rfl
  have hothers := reaches_others i j U (by simp [U]) (by simp [U]) hcard.le
  rw [hcard, Nat.sub_self] at hothers
  refine ⟨Crowd.mid 1 0 {j} (insert i U), j, ?_, ?_, rfl, by simp [Crowd.mid]⟩
  · rw [start_crowd]
    exact (((hasleep.trans hwoken).trans hposted).trans hthrough).trans hothers
  · intro ev u h
    cases step_iff_moves.mp h with
    | @region l a e o woken hawake ho _ =>
      cases l with
      | none => cases ho
      | some l =>
        have hne : l ≠ j := by
          rintro rfl
          simp [Crowd.mid] at hawake
        have hplace : (Crowd.mid 1 0 {j} (insert i U)).place (some l) = .through := by
          by_cases hl : l = i <;> simp [Crowd.mid, U, hl, hne]
        rw [hplace] at ho
        cases ho
    | awoke l hcv => cases hcv

variable {cv : CondVar} {tr : List (Crowd n × Event (Option (Fin n)) (SemEvent Unit Unit))}
  {t : Crowd n}

/-- The poster never sleeps. -/
theorem poster_awake (run : Run (Step (mysem gate) cv) (.start ⟨fun _ => 0, ()⟩ (crowd n)) tr t) :
    t.asleep none = none := by
  refine (run.preserves
    (I := fun u : Crowd n => (∃ k, u.place none = .posting k) ∧ u.asleep none = none)
    ⟨⟨n, rfl⟩, rfl⟩ ?_).2
  rintro u ev u' ⟨⟨k, hk⟩, hawake⟩ h
  cases step_iff_moves.mp h with
  | @region i a e o woken _ ho _ =>
    by_cases hi : none = i
    · subst hi
      rw [hk] at ho
      cases k with
      | zero => cases ho
      | succ k =>
        obtain ⟨-, rfl⟩ := Prod.mk.inj (Option.some.inj ho)
        exact ⟨⟨k, Threads.after_place_self⟩, Threads.after_asleep_self⟩
    · exact ⟨⟨k, (Threads.after_place_of_ne hi).trans hk⟩, Threads.after_awake hi hawake⟩
  | awoke i => exact ⟨⟨k, hk⟩, Threads.awaken_awake hawake⟩

/-- Where one thread waits at most, no two sleep. -/
theorem oneSleeper_crowd (hn : n ≤ 1)
    (run : Run (Step (mysem gate) cv) (.start ⟨fun _ => 0, ()⟩ (crowd n)) tr t) :
    OneSleeper tr := by
  intro x hx c i j hi hj
  obtain ⟨pre, -, -, -, hpre, -⟩ := run.of_mem hx
  cases i with
  | none =>
    rw [poster_awake hpre] at hi
    cases hi
  | some i =>
    cases j with
    | none =>
      rw [poster_awake hpre] at hj
      cases hj
    | some j => exact congrArg some (Fin.ext (by omega))

/-- **When a wake-up can be lost**: with two threads or more that wait. -/
theorem lost_wakeup_iff (n : ℕ) :
    (∃ tr t, Run (Step (mysem gate) .single) (.start ⟨fun _ => 0, ()⟩ (crowd n)) tr t ∧
      Terminal (Step (mysem gate) .single) t ∧
      ∃ i, t.asleep i = some () ∧ t.shared.value () ≠ 0) ↔ 2 ≤ n := by
  constructor
  · rintro ⟨tr, t, run, -, i, hi, hvalue⟩
    by_contra hn
    exact answered_run run (oneSleeper_crowd (by omega) run) () hvalue i hi
  · intro hn
    obtain ⟨n, rfl⟩ : ∃ k, n = k + 2 := ⟨n - 2, by omega⟩
    obtain ⟨t, j, ⟨tr, run⟩, hterminal, hvalue, hasleep⟩ := exists_lost n
    exact ⟨tr, t, run, hterminal, some j, hasleep, by rw [hvalue]; exact Nat.one_ne_zero⟩

end Gate

end PosixNet.Mysem
