import Mathlib.Logic.Function.Basic
import Mathlib.Algebra.BigOperators.Fin
import Mathlib.Data.Fintype.BigOperators

/-!
# Runs of a labelled transition relation

A concurrent program is a relation `step s e s'`: in state `s` some thread does
`e` and leaves `s'`.  A **run** records, for every step taken, the state it was
taken in and its label (`Run`), so that a condition on steps, a ledger of what
was done and an invariant that relates the two can all be stated of one object.

* `Run.invariant` is the only induction over runs the development makes: what
  holds of the empty run and is kept by appending one step holds of every run.
* `Run.split` cuts a run at one of its steps, `Run.append` glues two runs.
* `Run.project` carries a run of one system to a run of another whose steps it
  refines, dropping the steps the second system does not see.

The last section counts over a family of threads of which one has moved.
-/
namespace PosixNet

variable {σ ε : Type*} {step : σ → ε → σ → Prop} {s₀ s s' t : σ} {e : ε}
  {tr tr' : List (σ × ε)}

/-- `Run step s₀ tr s`: the steps recorded in `tr`, each with the state it was
taken in, lead from `s₀` to `s`. -/
inductive Run (step : σ → ε → σ → Prop) (s₀ : σ) : List (σ × ε) → σ → Prop
  | nil : Run step s₀ [] s₀
  | snoc {tr : List (σ × ε)} {s s' : σ} {e : ε} (run : Run step s₀ tr s) (h : step s e s') :
      Run step s₀ (tr ++ [(s, e)]) s'

/-- The labels of a run, in order. -/
def labels (tr : List (σ × ε)) : List ε := tr.map Prod.snd

@[simp] theorem labels_nil : labels ([] : List (σ × ε)) = [] := rfl

@[simp] theorem labels_append (tr tr' : List (σ × ε)) :
    labels (tr ++ tr') = labels tr ++ labels tr' := List.map_append

@[simp] theorem labels_cons (x : σ × ε) (tr : List (σ × ε)) :
    labels (x :: tr) = x.2 :: labels tr := rfl

theorem labels_filterMap {τ δ : Type*} (f : σ → τ) (g : ε → Option δ) (tr : List (σ × ε)) :
    labels (tr.filterMap fun x => (g x.2).map fun d => (f x.1, d)) =
      (labels tr).filterMap g := by
  induction tr with
  | nil => rfl
  | cons x tr ih =>
    rw [labels_cons, List.filterMap_cons, List.filterMap_cons]
    cases hg : g x.2 with
    | none => exact ih
    | some d => exact congrArg (d :: ·) ih

/-- What a step adds to a ledger that is read off the labels. -/
theorem filterMap_labels_snoc {δ : Type*} (g : ε → Option δ) (tr : List (σ × ε)) (s : σ) (e : ε) :
    (labels (tr ++ [(s, e)])).filterMap g = (labels tr).filterMap g ++ (g e).toList := by
  rw [labels_append, List.filterMap_append, labels_cons, labels_nil]
  cases h : g e <;> simp [h]

/-- No step leaves `s`. -/
def Terminal (step : σ → ε → σ → Prop) (s : σ) : Prop := ∀ e s', ¬ step s e s'

namespace Run

theorem single (h : step s e s') : Run step s [(s, e)] s' := .snoc .nil h

theorem append (h : Run step s₀ tr s) (h' : Run step s tr' t) : Run step s₀ (tr ++ tr') t := by
  induction h' with
  | nil => rwa [List.append_nil]
  | snoc _ hs ih => rw [← List.append_assoc]; exact .snoc ih hs

/-- **The run rule.**  The invariant `I` may speak of the steps taken so far. -/
theorem invariant {I : List (σ × ε) → σ → Prop} (run : Run step s₀ tr s) (h₀ : I [] s₀)
    (hs : ∀ tr s e s', Run step s₀ tr s → I tr s → step s e s' → I (tr ++ [(s, e)]) s') :
    I tr s := by
  induction run with
  | nil => exact h₀
  | snoc run h ih => exact hs _ _ _ _ run ih h

/-- The run rule for a property of states, from any state that has it. -/
theorem preserves {I : σ → Prop} (run : Run step s tr t) (h : I s)
    (hs : ∀ s e s', I s → step s e s' → I s') : I t := by
  induction run with
  | nil => exact h
  | snoc _ h ih => exact hs _ _ _ ih h

/-- A run passes through the state before each of its steps. -/
theorem split {pre post : List (σ × ε)} (run : Run step s₀ (pre ++ (s, e) :: post) t) :
    ∃ s', Run step s₀ pre s ∧ step s e s' ∧ Run step s' post t := by
  generalize htr : pre ++ (s, e) :: post = all at run
  induction run generalizing post with
  | nil => simp at htr
  | @snoc all u u' e' run h ih =>
    rcases List.eq_nil_or_concat post with hp | ⟨post', x, hp⟩
    · subst hp
      obtain ⟨rfl, hx⟩ := List.append_inj' htr rfl
      obtain ⟨rfl, rfl⟩ := Prod.mk.inj (List.cons.inj hx).1
      exact ⟨u', run, h, .nil⟩
    · rw [List.concat_eq_append] at hp
      subst hp
      rw [← List.cons_append, ← List.append_assoc] at htr
      obtain ⟨hall, hx⟩ := List.append_inj' htr rfl
      obtain ⟨s', hpre, hse, hpost⟩ := ih hall
      rw [(List.cons.inj hx).1]
      exact ⟨s', hpre, hse, .snoc hpost h⟩

/-- The front of a run is a run. -/
theorem front {pre post : List (σ × ε)} (run : Run step s₀ (pre ++ post) t) :
    ∃ u, Run step s₀ pre u := by
  cases post with
  | nil => exact ⟨t, by rwa [List.append_nil] at run⟩
  | cons x post =>
    obtain ⟨s', hpre, -⟩ := run.split
    exact ⟨x.1, hpre⟩

theorem of_mem {x : σ × ε} (run : Run step s₀ tr s) (h : x ∈ tr) :
    ∃ pre post s', tr = pre ++ x :: post ∧ Run step s₀ pre x.1 ∧ step x.1 x.2 s' ∧
      Run step s' post s := by
  obtain ⟨pre, post, rfl⟩ := List.append_of_mem h
  obtain ⟨s', hpre, hx, hpost⟩ := run.split
  exact ⟨pre, post, s', rfl, hpre, hx, hpost⟩

/-- A run of which every step is as `P` says is one of the steps that are. -/
theorem guarded {P : σ → ε → Prop} (run : Run step s₀ tr s) (h : ∀ x ∈ tr, P x.1 x.2) :
    Run (fun s e s' => P s e ∧ step s e s') s₀ tr s := by
  induction run with
  | nil => exact .nil
  | @snoc tr u u' e _ hstep ih =>
    exact .snoc (ih fun x hx => h x (List.mem_append_left _ hx)) ⟨h (u, e) (by simp), hstep⟩

/-- **Projection.**  If every step of one system is a step of another under `f`,
or leaves the `f`-image unchanged and has no image label, runs project. -/
theorem project {τ δ : Type*} {step' : τ → δ → τ → Prop} {f : σ → τ} {g : ε → Option δ}
    (hsome : ∀ s e s' d, step s e s' → g e = some d → step' (f s) d (f s'))
    (hnone : ∀ s e s', step s e s' → g e = none → f s' = f s)
    (run : Run step s₀ tr s) :
    Run step' (f s₀) (tr.filterMap fun x => (g x.2).map fun d => (f x.1, d)) (f s) := by
  induction run with
  | nil => exact .nil
  | @snoc tr u u' e _ h ih =>
    rw [List.filterMap_append]
    cases hg : g e with
    | none => simpa [hg, hnone u e u' h hg] using ih
    | some d => simpa [hg] using Run.snoc ih (hsome u e u' d h hg)

end Run

/-! ## Building runs -/

/-- Some run leads from `s` to `t`. -/
def Reaches (step : σ → ε → σ → Prop) (s t : σ) : Prop := ∃ tr, Run step s tr t

namespace Reaches

theorem refl (s : σ) : Reaches step s s := ⟨[], .nil⟩

theorem trans {u : σ} (h : Reaches step s t) (h' : Reaches step t u) : Reaches step s u := by
  obtain ⟨tr, run⟩ := h
  obtain ⟨tr', run'⟩ := h'
  exact ⟨tr ++ tr', run.append run'⟩

theorem single (h : step s e s') : Reaches step s s' := ⟨_, .single h⟩

theorem head (h : step s e s') (h' : Reaches step s' t) : Reaches step s t := (single h).trans h'

/-- **One thread after the other.**  If every thread can be brought to its goal from
any state with `I`, without undoing the goal of another, all of them can. -/
theorem each {ι : Type*} [Fintype ι] {I : σ → Prop} {P : ι → σ → Prop}
    (h : ∀ i s, I s → ∃ t, Reaches step s t ∧ I t ∧ P i t ∧ ∀ j, P j s → P j t) (hs : I s) :
    ∃ t, Reaches step s t ∧ I t ∧ ∀ i, P i t := by
  classical
  suffices key : ∀ S : Finset ι, ∃ t, Reaches step s t ∧ I t ∧ ∀ i ∈ S, P i t by
    obtain ⟨t, hst, ht, hP⟩ := key Finset.univ
    exact ⟨t, hst, ht, fun i => hP i (Finset.mem_univ i)⟩
  intro S
  induction S using Finset.induction_on with
  | empty => exact ⟨s, refl s, hs, fun i hi => absurd hi (Finset.notMem_empty i)⟩
  | insert i S _ ih =>
    obtain ⟨t, hst, ht, hP⟩ := ih
    obtain ⟨u, htu, hu, hi, hkeep⟩ := h i t ht
    refine ⟨u, hst.trans htu, hu, fun j hj => ?_⟩
    rcases Finset.mem_insert.mp hj with rfl | hj
    · exact hi
    · exact hkeep j (hP j hj)

end Reaches

/-! ## Executing a schedule

A program given as a function of the scheduler's choice `act` is executable: a
schedule is a list of choices. -/

section Schedule
variable {α : Type*} (exec : α → σ → Option (ε × σ))

/-- The relation a deterministic step function gives, over all choices. -/
def stepOf (s : σ) (e : ε) (s' : σ) : Prop := ∃ a, exec a s = some (e, s')

/-- The run of a schedule, `none` where a choice is not enabled. -/
def runSchedule : List α → σ → Option (List (σ × ε) × σ)
  | [], s => some ([], s)
  | a :: as, s => do
    let (e, s') ← exec a s
    let (tr, t) ← runSchedule as s'
    return ((s, e) :: tr, t)

theorem run_of_runSchedule : ∀ (as : List α) {s : σ} {tr : List (σ × ε)} {t : σ},
    runSchedule exec as s = some (tr, t) → Run (stepOf exec) s tr t
  | [], s, tr, t, h => by
    obtain ⟨rfl, rfl⟩ := Prod.mk.inj (Option.some.inj h)
    exact .nil
  | a :: as, s, tr, t, h => by
    simp only [runSchedule, Option.bind_eq_bind, Option.bind_eq_some_iff, Prod.exists] at h
    obtain ⟨e, s', ha, tr', t', hr, h⟩ := h
    obtain ⟨rfl, rfl⟩ := Prod.mk.inj (Option.some.inj h)
    have hfirst : Run (stepOf exec) s [(s, e)] s' := .single ⟨a, ha⟩
    exact hfirst.append (run_of_runSchedule as hr)

/-- The run of a schedule that goes through. -/
theorem run_get (as : List α) (s : σ) (h : (runSchedule exec as s).isSome) :
    Run (stepOf exec) s ((runSchedule exec as s).get h).1 ((runSchedule exec as s).get h).2 :=
  run_of_runSchedule exec as (Option.some_get h).symm

end Schedule

/-! ## Ledgers

A ledger lists who did what, in order; `byThread` is one thread's part of it. -/

section Ledger
variable {ι α : Type*} [DecidableEq ι]

/-- What thread `i` did, in order. -/
def byThread (i : ι) (l : List (ι × α)) : List α :=
  (l.filter fun x => x.1 = i).map Prod.snd

@[simp] theorem byThread_append (i : ι) (l l' : List (ι × α)) :
    byThread i (l ++ l') = byThread i l ++ byThread i l' := by
  simp [byThread]

@[simp] theorem byThread_self (i : ι) (a : α) : byThread i [(i, a)] = [a] := by
  simp [byThread]

theorem byThread_of_ne {i j : ι} (h : j ≠ i) (a : α) : byThread i [(j, a)] = [] := by
  simp [byThread, h]

theorem byThread_eq_filterMap (i : ι) (l : List (ι × α)) :
    byThread i l = l.filterMap fun x => if x.1 = i then some x.2 else none := by
  induction l with
  | nil => rfl
  | cons x l ih =>
    by_cases hx : x.1 = i
    · simpa [byThread, hx] using ih
    · simpa [byThread, hx] using ih

theorem byThread_pairwise {r : α → α → Prop} {l : List (ι × α)} (h : (l.map Prod.snd).Pairwise r)
    (i : ι) : (byThread i l).Pairwise r :=
  List.pairwise_map.mpr ((List.pairwise_map.mp h).filter _)

theorem count_byThread [DecidableEq α] (i : ι) (a : α) (l : List (ι × α)) :
    (byThread i l).count a = l.count (i, a) := by
  induction l with
  | nil => rfl
  | cons x l ih =>
    obtain ⟨j, b⟩ := x
    by_cases hj : j = i
    · subst hj
      simpa [byThread, List.count_cons] using ih
    · simpa [byThread, List.count_cons, hj] using ih

/-- Ledgers that agree on every thread's part, up to order, agree up to order. -/
theorem perm_of_byThread [DecidableEq α] {l l' : List (ι × α)}
    (h : ∀ i, (byThread i l).Perm (byThread i l')) : l.Perm l' := by
  apply List.perm_iff_count.mpr
  rintro ⟨i, a⟩
  rw [← count_byThread, ← count_byThread, (h i).count_eq]

end Ledger

/-! ## Counting over threads -/

section Threads
variable {ι β : Type*} [Fintype ι] [DecidableEq ι]

/-- When one thread of a family moves, a sum over the family moves by as much. -/
theorem sum_update (f : β → ℕ) (g : ι → β) (i : ι) (b : β) :
    (∑ x, f (Function.update g i b x)) + f (g i) = (∑ x, f (g x)) + f b := by
  have hne : ∀ x ∈ Finset.univ.erase i, f (Function.update g i b x) = f (g x) := fun x hx => by
    rw [Function.update_of_ne (Finset.ne_of_mem_erase hx)]
  rw [← Finset.add_sum_erase _ _ (Finset.mem_univ i), Function.update_self,
    ← Finset.add_sum_erase _ (fun x => f (g x)) (Finset.mem_univ i), Finset.sum_congr rfl hne]
  omega

end Threads

end PosixNet
