import Mathlib.Data.Finset.Card

/-!
# Condition variables

What `pthread_cond_signal` does to the threads blocked on a condition variable,
under the two readings that matter for a proof.  `posix` is the guarantee of the
standard: at least one blocked thread is unblocked if there is one, and a thread
may also wake without a signal.  `single` is the least a program may count on:
exactly one blocked thread per signal, and no wake-up of any other kind.

A safety property is worth most under `posix`, an absence of deadlock under
`single`; what holds under both is proved once, from the lemmas below.
-/
namespace PosixNet

/-- The two readings of a condition variable. -/
inductive CondVar where
  | single
  | posix
  deriving DecidableEq

namespace CondVar
variable {T : Type*}

/-- A signal to a condition variable with these `waiters` may unblock exactly the
threads in `woken`. -/
def Wakes (cv : CondVar) (waiters woken : Finset T) : Prop :=
  woken ⊆ waiters ∧
    match cv with
    | .single => woken.card = min 1 waiters.card
    | .posix => waiters = ∅ ∨ woken ≠ ∅

instance [DecidableEq T] (cv : CondVar) (waiters woken : Finset T) :
    Decidable (cv.Wakes waiters woken) := by
  cases cv <;> exact inferInstanceAs (Decidable (_ ∧ _))

/-- A blocked thread may wake without a signal. -/
def Spurious (cv : CondVar) : Prop := cv = .posix

instance (cv : CondVar) : Decidable cv.Spurious := inferInstanceAs (Decidable (_ = _))

variable {cv : CondVar} {waiters woken : Finset T}

theorem Wakes.subset (h : cv.Wakes waiters woken) : woken ⊆ waiters := h.1

/-- A signal is not lost while somebody waits. -/
theorem Wakes.nonempty (h : cv.Wakes waiters woken) (hw : waiters.Nonempty) : woken.Nonempty := by
  cases cv with
  | single =>
    have hcard : woken.card = min 1 waiters.card := h.2
    have hpos := Finset.card_pos.mpr hw
    exact Finset.card_pos.mp (by omega)
  | posix =>
    rcases h.2 with he | hne
    · exact absurd he hw.ne_empty
    · exact Finset.nonempty_iff_ne_empty.mpr hne

theorem wakes_empty : cv.Wakes (∅ : Finset T) woken ↔ woken = ∅ := by
  constructor
  · intro h
    exact Finset.subset_empty.mp h.subset
  · rintro rfl
    cases cv <;> exact ⟨subset_rfl, by simp⟩

/-- Every waiter may be the one a signal unblocks. -/
theorem wakes_singleton {c : T} (hc : c ∈ waiters) : cv.Wakes waiters {c} := by
  have hpos := Finset.card_pos.mpr ⟨c, hc⟩
  refine ⟨Finset.singleton_subset_iff.mpr hc, ?_⟩
  cases cv with
  | single => show Finset.card {c} = min 1 waiters.card; rw [Finset.card_singleton]; omega
  | posix => exact Or.inr (Finset.singleton_ne_empty c)

/-- A signal can always be delivered. -/
theorem exists_wakes (cv : CondVar) (waiters : Finset T) : ∃ woken, cv.Wakes waiters woken := by
  rcases waiters.eq_empty_or_nonempty with rfl | ⟨c, hc⟩
  · exact ⟨∅, wakes_empty.mpr rfl⟩
  · exact ⟨{c}, wakes_singleton hc⟩

end CondVar
end PosixNet
