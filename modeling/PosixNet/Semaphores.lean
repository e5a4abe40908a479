import PosixNet.Monitor

/-!
# Programs over semaphores

Threads that wait for semaphores and post them, and use shared data in between.  A thread
is given by its next call and the place it is at afterwards (`SemCall`), as the processes
of a network are.  `atomic` is what such a program does with the semaphores of the
standard: each call is one step, and a thread in `sem_wait` may take it as soon as the value
is not zero.
-/
namespace PosixNet

/-- What a thread does next; `δ` is the data the threads share. -/
inductive SemCall (ν δ ε ρ : Type) where
  | wait (x : ν) (next : ρ)
  | trywait (x : ν) (next : Bool → ρ)
  | post (x : ν) (next : ρ)
  | getvalue (x : ν) (next : ℤ → ρ)
  /-- A statement between two calls. -/
  | data (f : δ → ε × δ × ρ)
  | stop

/-- The values of the semaphores, and the data the threads share. -/
structure Sems (ν δ : Type) where
  value : ν → ℕ
  data : δ

/-- What a thread did: a call on a semaphore, or something with the data. -/
inductive SemEvent (ν ε : Type) where
  | waited (x : ν)
  | refused (x : ν)
  | posted (x : ν)
  | got (x : ν) (n : ℤ)
  /-- The thread sleeps until `x` is posted. -/
  | slept (x : ν)
  | did (e : ε)
  deriving DecidableEq

namespace Sems
variable {ν δ ε ρ ι : Type} [DecidableEq ν] (s : Sems ν δ)

/-- `x` is posted. -/
def up (x : ν) : Sems ν δ := { s with value := Function.update s.value x (s.value x + 1) }

/-- `x` is waited for. -/
def down (x : ν) : Sems ν δ := { s with value := Function.update s.value x (s.value x - 1) }

@[simp] theorem up_data (x : ν) : (s.up x).data = s.data := rfl

@[simp] theorem down_data (x : ν) : (s.down x).data = s.data := rfl

@[simp] theorem up_value_self (x : ν) : (s.up x).value x = s.value x + 1 := by simp [up]

@[simp] theorem down_value_self (x : ν) : (s.down x).value x = s.value x - 1 := by simp [down]

variable {s} {x y : ν}

theorem down_value_of_ne (h : y ≠ x) : (s.down x).value y = s.value y := by simp [down, h]

/-- The semaphores of the standard, as long as no value gets to `SEM_VALUE_MAX`, where `sem_post`
fails. -/
def atomic (program : ρ → SemCall ν δ ε ρ) : Monitor Unit (SemEvent ν ε) ν (Sems ν δ) ρ :=
  fun _ r s =>
    match program r with
    | .wait x next =>
      if s.value x = 0 then none else some (.waited x, { shared := s.down x, place := next })
    | .trywait x next =>
      if s.value x = 0 then some (.refused x, { shared := s, place := next false })
      else some (.waited x, { shared := s.down x, place := next true })
    | .post x next => some (.posted x, { shared := s.up x, place := next })
    | .getvalue x next =>
      some (.got x (s.value x), { shared := s, place := next (s.value x) })
    | .data f =>
      let (e, d, r') := f s.data
      some (.did e, { shared := { s with data := d }, place := r' })
    | .stop => none

/-- With the semaphores of the standard nobody sleeps on a condition variable. -/
theorem atomic_awake [Fintype ι] [DecidableEq ι] {program : ρ → SemCall ν δ ε ρ} {cv : CondVar}
    {place : ι → ρ} {tr : List (Threads ι ν (Sems ν δ) ρ × Monitor.Event ι (SemEvent ν ε))}
    {t : Threads ι ν (Sems ν δ) ρ}
    (run : Run (Monitor.Step (atomic program) cv) (.start s place) tr t) (i : ι) :
    t.asleep i = none := by
  refine run.preserves (I := fun u => ∀ i, u.asleep i = none) (fun _ => rfl) ?_ i
  intro u ev u' hu h j
  cases Monitor.step_iff_moves.mp h with
  | @region i a e o woken _ ho _ =>
    by_cases hj : j = i
    · subst hj
      rw [Threads.after_asleep_self]
      simp only [atomic] at ho
      cases hcall : program (u.place j) with
      | wait x next =>
        simp only [hcall] at ho
        split at ho
        · cases ho
        · obtain ⟨-, rfl⟩ := Prod.mk.inj (Option.some.inj ho)
          rfl
      | trywait x next =>
        simp only [hcall] at ho
        split at ho
        · obtain ⟨-, rfl⟩ := Prod.mk.inj (Option.some.inj ho)
          rfl
        · obtain ⟨-, rfl⟩ := Prod.mk.inj (Option.some.inj ho)
          rfl
      | post | getvalue | data =>
        simp only [hcall] at ho
        obtain ⟨-, rfl⟩ := Prod.mk.inj (Option.some.inj ho)
        rfl
      | stop =>
        simp only [hcall] at ho
        cases ho
    · exact Threads.after_awake hj (hu j)
  | awoke i => exact Threads.awaken_awake (hu j)

end Sems
end PosixNet
