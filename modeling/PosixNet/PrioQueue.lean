import Mathlib.Data.List.Induction
import Mathlib.Data.List.Sort

/-!
# Bounded priority queues

What a message queue is for: the most urgent item is taken first, of equally urgent ones the
one that was put first, and there are never more than `cap` of them.

A queue is given by what is done to it: `replay` says what it holds after a list of `Op`s, or
`none` if one of them is not what a queue does.  For every list of operations that can be
replayed nothing is lost or taken twice (`Replays.perm`), items of one priority are taken in
the order they were put (`Replays.fifo`), and what is taken is the most urgent
(`Replays.urgent`).
-/
namespace PosixNet.PrioQueue

variable {α β : Type} [DecidableEq α] [LinearOrder β] (prio : α → β) (cap : ℕ)

/-- `x` goes in front of the first item that is less urgent. -/
def put (x : α) (q : List α) : List α := q.orderedInsert (fun a b => prio b < prio a) x

/-- What is done to a queue, and what is seen of it. -/
inductive Op (α : Type) where
  | put (x : α)
  | take (x : α)
  /-- There was no room for an item. -/
  | full
  | empty
  | size (n : ℕ)
  deriving DecidableEq

/-- The queue after an operation, if the operation is possible. -/
def Op.apply : Op α → List α → Option (List α)
  | .put x, q => if q.length < cap then some (PrioQueue.put prio x q) else none
  | .take _, [] => none
  | .take x, y :: q => if x = y then some q else none
  | .full, q => if q.length < cap then none else some q
  | .empty, q => if q = [] then some q else none
  | .size n, q => if q.length = n then some q else none

/-- What the queue holds after these operations. -/
def replay (ops : List (Op α)) : Option (List α) := ops.foldlM (fun q op => op.apply prio cap q) []

/-- What the operation adds. -/
def Op.put? : Op α → Option α
  | .put x => some x
  | _ => none

/-- What the operation takes. -/
def Op.take? : Op α → Option α
  | .take x => some x
  | _ => none

/-- What was put, in order. -/
def puts (ops : List (Op α)) : List α := ops.filterMap Op.put?

/-- What was taken, in order. -/
def takes (ops : List (Op α)) : List α := ops.filterMap Op.take?

/-- The items of priority `p`. -/
def only (p : β) (q : List α) : List α := q.filter fun x => prio x = p

/-- The most urgent item is in front. -/
def Ordered (q : List α) : Prop := q.Pairwise fun a b => prio b ≤ prio a

variable {prio cap} {x : α} {q q' : List α} {ops : List (Op α)} {op : Op α} {p : β}

omit [DecidableEq α] in
theorem only_append (l l' : List α) : only prio p (l ++ l') = only prio p l ++ only prio p l' :=
  List.filter_append ..

omit [DecidableEq α] in
theorem only_cons (y : α) : only prio p (y :: q) =
    (if prio y = p then [y] else []) ++ only prio p q := by
  rw [only, List.filter_cons, only]
  by_cases hy : prio y = p <;> simp [hy]

omit [DecidableEq α] in
theorem length_put : (put prio x q).length = q.length + 1 := List.orderedInsert_length ..

omit [DecidableEq α] in
theorem perm_put : (put prio x q).Perm (x :: q) := List.perm_orderedInsert ..

omit [DecidableEq α] in
theorem put_cons (y : α) : put prio x (y :: q) =
    if prio y < prio x then x :: y :: q else y :: put prio x q := List.orderedInsert_cons ..

omit [DecidableEq α] in
theorem Ordered.put (h : Ordered prio q) : Ordered prio (put prio x q) := by
  induction q with
  | nil => exact List.pairwise_singleton ..
  | cons y q ih =>
    obtain ⟨hy, hq⟩ := List.pairwise_cons.mp h
    rw [put_cons]
    split
    · rename_i hlt
      refine List.pairwise_cons.mpr ⟨fun z hz => ?_, h⟩
      rcases List.mem_cons.mp hz with rfl | hz
      · exact hlt.le
      · exact (hy z hz).trans hlt.le
    · rename_i hle
      refine List.pairwise_cons.mpr ⟨fun z hz => ?_, ih hq⟩
      rcases List.mem_cons.mp (perm_put.mem_iff.mp hz) with rfl | hz
      · exact not_lt.mp hle
      · exact hy z hz

omit [DecidableEq α] in
/-- The new item goes behind those of its priority. -/
theorem Ordered.only_put (h : Ordered prio q) :
    only prio p (PrioQueue.put prio x q) = only prio p q ++ only prio p [x] := by
  induction q with
  | nil => rfl
  | cons y q ih =>
    obtain ⟨hy, hq⟩ := List.pairwise_cons.mp h
    rw [put_cons]
    split
    · rename_i hlt
      -- whoever is behind `x` is less urgent than `x`
      rw [only_cons x, only_cons x]
      split
      · rename_i hp
        have hnone : only prio p (y :: q) = [] := by
          refine List.filter_eq_nil_iff.mpr fun z hz => ?_
          have hz : prio z < prio x := by
            rcases List.mem_cons.mp hz with rfl | hz
            · exact hlt
            · exact (hy z hz).trans_lt hlt
          simpa using (hp ▸ hz).ne
        rw [hnone]
        rfl
      · exact (List.append_nil _).symm
    · rw [only_cons, ih hq, only_cons y, List.append_assoc]

theorem replay_snoc : replay prio cap (ops ++ [op]) =
    (replay prio cap ops).bind (op.apply prio cap) := by
  rw [replay, List.foldlM_append]
  simp [replay]

/-- After these operations the queue holds `q`. -/
def Replays (prio : α → β) (cap : ℕ) (ops : List (Op α)) (q : List α) : Prop :=
  replay prio cap ops = some q

namespace Replays

theorem nil : Replays prio cap ([] : List (Op α)) [] := rfl

theorem snoc (h : Replays prio cap ops q) (hop : op.apply prio cap q = some q') :
    Replays prio cap (ops ++ [op]) q' := by
  rw [Replays, replay_snoc, show replay prio cap ops = some q from h]
  exact hop

/-- The queue before the last operation. -/
theorem of_snoc (h : Replays prio cap (ops ++ [op]) q') :
    ∃ q, Replays prio cap ops q ∧ op.apply prio cap q = some q' := by
  rw [Replays, replay_snoc] at h
  exact Option.bind_eq_some_iff.mp h

/-- **The rule of queues**: what holds of the empty queue and is kept by every operation. -/
theorem rule {I : List (Op α) → List α → Prop} (h : Replays prio cap ops q) (hnil : I [] [])
    (hput : ∀ ops q x, I ops q → q.length < cap → I (ops ++ [.put x]) (put prio x q))
    (htake : ∀ ops q x, I ops (x :: q) → I (ops ++ [.take x]) q)
    (hsee : ∀ ops q op, I ops q → op.put? = none → op.take? = none → I (ops ++ [op]) q) :
    I ops q := by
  induction ops using List.reverseRecOn generalizing q with
  | nil =>
    obtain rfl : [] = q := Option.some.inj h
    exact hnil
  | append_singleton ops op ih =>
    obtain ⟨q', h', hop⟩ := h.of_snoc
    have hq' := ih h'
    cases op with
    | put x =>
      rw [Op.apply] at hop
      split at hop
      · obtain rfl := Option.some.inj hop
        exact hput ops q' x hq' ‹_›
      · cases hop
    | take x =>
      cases q' with
      | nil => cases hop
      | cons y q' =>
        rw [Op.apply] at hop
        split at hop
        · rename_i hxy
          obtain rfl := Option.some.inj hop
          subst hxy
          exact htake ops q' x hq'
        · cases hop
    | full =>
      rw [Op.apply] at hop
      split at hop
      · cases hop
      · obtain rfl := Option.some.inj hop
        exact hsee ops q' _ hq' rfl rfl
    | empty | size n =>
      rw [Op.apply] at hop
      split at hop
      · obtain rfl := Option.some.inj hop
        exact hsee ops q' _ hq' rfl rfl
      · cases hop

theorem length_le (h : Replays prio cap ops q) : q.length ≤ cap :=
  h.rule (I := fun _ q => q.length ≤ cap) (Nat.zero_le cap)
    (fun _ q x _ hlt => (length_put (x := x) (q := q)).le.trans hlt)
    (fun _ _ _ hle => Nat.le_of_succ_le hle) (fun _ _ _ hle _ _ => hle)

theorem ordered (h : Replays prio cap ops q) : Ordered prio q :=
  h.rule (I := fun _ q => Ordered prio q) List.Pairwise.nil (fun _ _ _ hq _ => hq.put)
    (fun _ _ _ hq => (List.pairwise_cons.mp hq).2) (fun _ _ _ hq _ _ => hq)

/-- **Nothing is lost, and nothing is taken twice.** -/
theorem perm (h : Replays prio cap ops q) : (takes ops ++ q).Perm (puts ops) := by
  refine h.rule (I := fun ops q => (takes ops ++ q).Perm (puts ops)) (.refl _) ?_ ?_ ?_
  · intro ops q x hq _
    rw [takes, puts, List.filterMap_append, List.filterMap_append]
    show (takes ops ++ [] ++ put prio x q).Perm (puts ops ++ [x])
    rw [List.append_nil]
    calc (takes ops ++ put prio x q).Perm (takes ops ++ x :: q) := perm_put.append_left _
      (takes ops ++ x :: q).Perm (x :: (takes ops ++ q)) := List.perm_middle
      (x :: (takes ops ++ q)).Perm (x :: puts ops) := hq.cons x
      (x :: puts ops).Perm (puts ops ++ [x]) := (List.perm_append_singleton x _).symm
  · intro ops q x hq
    rw [takes, puts, List.filterMap_append, List.filterMap_append]
    show (takes ops ++ [x] ++ q).Perm (puts ops ++ [])
    rwa [List.append_nil, List.append_assoc]
  · intro ops q op hq hput htake
    rw [takes, puts, List.filterMap_append, List.filterMap_append]
    simpa [takes, puts, hput, htake] using hq

/-- **First in, first out**, among the items of one priority. -/
theorem fifo (h : Replays prio cap ops q) (p : β) :
    only prio p (takes ops) ++ only prio p q = only prio p (puts ops) := by
  refine (h.rule (I := fun ops q => Ordered prio q ∧
    only prio p (takes ops) ++ only prio p q = only prio p (puts ops))
    ⟨List.Pairwise.nil, rfl⟩ ?_ ?_ ?_).2
  · rintro ops q x ⟨hord, hq⟩ _
    refine ⟨hord.put, ?_⟩
    rw [takes, puts, List.filterMap_append, List.filterMap_append]
    show only prio p (takes ops ++ []) ++ only prio p (put prio x q) =
      only prio p (puts ops ++ [x])
    rw [List.append_nil, hord.only_put, only_append, ← hq, List.append_assoc]
  · rintro ops q x ⟨hord, hq⟩
    refine ⟨(List.pairwise_cons.mp hord).2, ?_⟩
    rw [takes, puts, List.filterMap_append, List.filterMap_append]
    show only prio p (takes ops ++ [x]) ++ only prio p q = only prio p (puts ops ++ [])
    rw [List.append_nil, ← hq, only_append, List.append_assoc, ← only_append]
    rfl
  · rintro ops q op ⟨hord, hq⟩ hput htake
    refine ⟨hord, ?_⟩
    rw [takes, puts, List.filterMap_append, List.filterMap_append]
    simpa [takes, puts, hput, htake] using hq

/-- **What is taken is the most urgent.** -/
theorem urgent (h : Replays prio cap (ops ++ [.take x]) q) :
    Replays prio cap ops (x :: q) ∧ ∀ y ∈ q, prio y ≤ prio x := by
  obtain ⟨q', h', hop⟩ := h.of_snoc
  cases q' with
  | nil => cases hop
  | cons y q' =>
    rw [Op.apply] at hop
    split at hop
    · rename_i hxy
      obtain rfl := Option.some.inj hop
      subst hxy
      exact ⟨h', (List.pairwise_cons.mp h'.ordered).1⟩
    · cases hop

end Replays
end PosixNet.PrioQueue
