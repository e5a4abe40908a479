import Mathlib.Logic.Function.Basic
import Mathlib.Data.List.Nodup

/-!
# Linked lists in an array

Slots that are linked by a pointer in each of them, with a null pointer at the end.
`Chain next null i l` says that the pointer `i` leads through the slots `l`, in order.  The
list is changed by writing one pointer at a time (`Links.set`): the pointer of a slot, or the
one that leads to the list.

* A chain does not depend on the pointers of other slots (`Chain.congr`).
* `Links.insert`: a new slot that points to the rest of a list, with the pointer in front of
  that rest led to it, is in the list.
-/
namespace PosixNet

variable {κ : Type} {next next' : κ → κ} {null i j p : κ} {l l₁ l₂ : List κ}

/-- The pointer `i` leads through `l`, and the last slot points nowhere. -/
def Chain (next : κ → κ) (null : κ) : κ → List κ → Prop
  | i, [] => i = null
  | i, j :: l => i = j ∧ j ≠ null ∧ Chain next null (next j) l

namespace Chain

/-- Where the pointer of a list points. -/
theorem eq_headD (h : Chain next null i l) : i = l.headD null := by
  cases l with
  | nil => exact h
  | cons j l => exact h.1

theorem ne_null : ∀ {l : List κ} {i : κ}, Chain next null i l → ∀ j ∈ l, j ≠ null
  | _ :: l, _, h, j, hj => by
    rcases List.mem_cons.mp hj with rfl | hj
    · exact h.2.1
    · exact h.2.2.ne_null j hj

/-- The pointers of other slots do not matter. -/
theorem congr : ∀ {l : List κ} {i : κ}, Chain next null i l → (∀ j ∈ l, next' j = next j) →
    Chain next' null i l
  | [], _, h, _ => h
  | j :: l, _, ⟨hi, hj, h⟩, hsame => by
    refine ⟨hi, hj, ?_⟩
    rw [hsame j List.mem_cons_self]
    exact h.congr fun k hk => hsame k (List.mem_cons_of_mem j hk)

variable [DecidableEq κ]

/-- A slot that is not on the list may be written. -/
theorem update (h : Chain next null i l) (hj : j ∉ l) (k : κ) :
    Chain (Function.update next j k) null i l :=
  h.congr fun _ hm => Function.update_of_ne (ne_of_mem_of_not_mem hm hj) ..

/-- A slot goes to the front of a list. -/
theorem push (h : Chain next null i l) (hj : j ∉ l) (hnull : j ≠ null) :
    Chain (Function.update next j i) null j (j :: l) := by
  refine ⟨rfl, hnull, ?_⟩
  rw [Function.update_self]
  exact h.update hj i

/-- A slot goes behind `p`. -/
theorem splice : ∀ {l₁ : List κ} {i : κ}, Chain next null i (l₁ ++ p :: l₂) →
    (l₁ ++ p :: l₂).Nodup → j ∉ l₁ ++ p :: l₂ → j ≠ null →
    Chain (Function.update (Function.update next j (l₂.headD null)) p j) null i
      (l₁ ++ p :: j :: l₂)
  | [], i, ⟨hi, hp, h⟩, hnodup, hj, hnull => by
    have hpj : j ≠ p := fun he => hj (he ▸ List.mem_cons_self)
    have hp' : p ∉ j :: l₂ := fun hmem => by
      rcases List.mem_cons.mp hmem with rfl | hmem
      · exact hpj rfl
      · exact (List.nodup_cons.mp hnodup).1 hmem
    refine ⟨hi, hp, ?_⟩
    rw [Function.update_self, ← h.eq_headD]
    exact (h.push (fun hmem => hj (List.mem_cons_of_mem p hmem)) hnull).update hp' j
  | b :: l₁, i, ⟨hi, hb, h⟩, hnodup, hj, hnull => by
    obtain ⟨hbmem, hnodup⟩ := List.nodup_cons.mp hnodup
    have hbp : b ≠ p := fun he => hbmem (he ▸ by simp)
    have hbj : b ≠ j := fun he => hj (he ▸ List.mem_cons_self)
    refine ⟨hi, hb, ?_⟩
    rw [Function.update_of_ne hbp, Function.update_of_ne hbj]
    exact h.splice hnodup (fun hmem => hj (List.mem_cons_of_mem b hmem)) hnull

end Chain

/-- A list: the pointer that leads to it, and those of the slots. -/
structure Links (κ : Type) where
  head : κ
  next : κ → κ

namespace Links
variable [DecidableEq κ] {s : Links κ}

/-- `none` is the pointer that leads to the list. -/
def set (s : Links κ) (p : Option κ) (k : κ) : Links κ :=
  match p with
  | none => { s with head := k }
  | some i => { s with next := Function.update s.next i k }

/-- A list through none of the pointers that are written stays. -/
theorem chain_set {p : Option κ} (h : Chain s.next null i l) (hp : ∀ j ∈ p, j ∉ l) (k : κ) :
    Chain (s.set p k).next null i l := by
  cases p with
  | none => exact h
  | some j => exact h.update (hp j rfl) k

/-- **A new slot is linked in**, behind the slots `l₁`. -/
theorem insert (h : Chain s.next null s.head (l₁ ++ l₂)) (hnodup : (l₁ ++ l₂).Nodup)
    (hj : j ∉ l₁ ++ l₂) (hnull : j ≠ null) :
    let s' := (s.set (some j) (l₂.headD null)).set l₁.getLast? j
    Chain s'.next null s'.head (l₁ ++ j :: l₂) := by
  rcases List.eq_nil_or_concat l₁ with rfl | ⟨l, p, rfl⟩
  · have hpush := Chain.push h hj hnull
    rwa [Chain.eq_headD h] at hpush
  · rw [List.concat_eq_append, List.append_assoc] at h hnodup hj
    rw [List.concat_eq_append, List.getLast?_append_of_ne_nil _ (List.cons_ne_nil p []),
      List.append_assoc]
    exact Chain.splice h hnodup hj hnull

end Links
end PosixNet
