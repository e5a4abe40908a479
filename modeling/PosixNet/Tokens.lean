import Mathlib.Data.List.Basic
import Mathlib.Data.List.Infix
import Mathlib.Data.List.Count

/-!
# Tokens

The tokens of a text are the pieces between separators that are not empty.  Every text
is a piece without separators, or such a piece, a separator and a text
(`pieces_induction`), and every statement here is proved along this.

* `tokens_length_eq_iff`: counting separators gives the number of tokens for exactly the
  texts that are `Separated`.
* `tokens_segments`: the tokens are the longest pieces without a separator, in order.
* `join_tokens`: joined again, they are the text without a separator at its end.
-/
namespace PosixNet

variable {α : Type*} {c : α} {p r s t : List α} {i : Nat}

/-- **The induction over the pieces of a text.** -/
theorem pieces_induction {motive : List α → Prop} (c : α) (last : ∀ p, c ∉ p → motive p)
    (cons : ∀ p r, c ∉ p → motive r → motive (p ++ c :: r)) (s : List α) : motive s := by
  by_cases h : c ∈ s
  · obtain ⟨p, r, hs, hp⟩ := List.eq_append_cons_of_mem h
    rw [hs]
    exact cons p r hp (pieces_induction c last cons r)
  · exact last s h
termination_by s.length
decreasing_by
  rw [hs, List.length_append, List.length_cons]
  omega

/-- No separator in front, and no two of them in a row. -/
def Separated (s : List α) (c : α) : Prop := s.head? ≠ some c ∧ ¬ [c, c] <:+: s

theorem separated_of_not_mem (h : c ∉ p) : Separated p c := by
  refine ⟨fun hhead => h (List.mem_of_mem_head? hhead), fun hinfix => h ?_⟩
  exact hinfix.subset List.mem_cons_self

theorem pair_infix_append_cons (h : c ∉ p) :
    [c, c] <:+: p ++ c :: r ↔ r.head? = some c ∨ [c, c] <:+: r := by
  induction p with
  | nil =>
    rw [List.nil_append, List.infix_cons_iff, List.cons_prefix_cons, and_iff_right rfl]
    cases r with
    | nil => simp
    | cons x r => simp [List.cons_prefix_cons, eq_comm]
  | cons x p ih =>
    rw [List.mem_cons, not_or] at h
    rw [List.cons_append, List.infix_cons_iff, List.cons_prefix_cons, ih h.2,
      or_iff_right fun hx => h.1 hx.1]

theorem separated_append_cons (h : c ∉ p) :
    Separated (p ++ c :: r) c ↔ p ≠ [] ∧ Separated r c := by
  rw [Separated, pair_infix_append_cons h, not_or, Separated]
  cases p with
  | nil => simp
  | cons x p =>
    have hx : x ≠ c := fun hx => h (hx ▸ List.mem_cons_self)
    simp [hx]

variable [DecidableEq α]

instance (s : List α) (c : α) : Decidable (Separated s c) := inferInstanceAs (Decidable (_ ∧ _))

/-! ### How many there are -/

/-- The pieces between separators that are not empty, in order. -/
def tokens (s : List α) (c : α) : List (List α) := (s.splitOn c).filter (· ≠ [])

/-- One for the token behind the last separator, if there is one. -/
def closing (s : List α) (c : α) : Nat := if s = [] ∨ s.getLast? = some c then 0 else 1

theorem tokens_of_not_mem (h : c ∉ p) : tokens p c = if p = [] then [] else [p] := by
  rw [tokens, List.splitOn_eq_singleton h]
  by_cases hp : p = [] <;> simp [hp]

theorem tokens_append_cons (h : c ∉ p) (r : List α) :
    tokens (p ++ c :: r) c = (if p = [] then [] else [p]) ++ tokens r c := by
  rw [tokens, List.splitOn_append_cons_self_of_not_mem h, List.filter_cons]
  by_cases hp : p = [] <;> simp [hp, tokens]

theorem closing_of_not_mem (h : c ∉ p) : closing p c = if p = [] then 0 else 1 := by
  have hlast : p.getLast? ≠ some c := fun hlast => h (List.mem_of_getLast? hlast)
  simp [closing, hlast]

theorem closing_append_cons (p r : List α) : closing (p ++ c :: r) c = closing r c := by
  cases r with
  | nil => simp [closing]
  | cons x r => simp [closing, List.getLast?_append, List.getLast?_cons_cons]

theorem count_append_cons (h : c ∉ p) (r : List α) :
    (p ++ c :: r).count c = r.count c + 1 := by
  rw [List.count_append, List.count_eq_zero.mpr h, List.count_cons_self, Nat.zero_add]

theorem tokens_length_le (s : List α) (c : α) :
    (tokens s c).length ≤ s.count c + closing s c := by
  induction s using pieces_induction c with
  | last p h =>
    rw [tokens_of_not_mem h, closing_of_not_mem h]
    split <;> simp
  | cons p r h ih =>
    rw [tokens_append_cons h, closing_append_cons, count_append_cons h, List.length_append]
    split
    · rw [List.length_nil]
      omega
    · rw [List.length_singleton]
      omega

/-- **The number of tokens.** -/
theorem tokens_length_eq_iff (s : List α) (c : α) :
    (tokens s c).length = s.count c + closing s c ↔ Separated s c := by
  induction s using pieces_induction c with
  | last p h =>
    rw [tokens_of_not_mem h, closing_of_not_mem h, List.count_eq_zero.mpr h,
      iff_true_right (separated_of_not_mem h)]
    split <;> simp
  | cons p r h ih =>
    rw [tokens_append_cons h, closing_append_cons, count_append_cons h, List.length_append,
      separated_append_cons h, ← ih]
    have hle := tokens_length_le r c
    split
    · rename_i hp
      simp only [List.length_nil, hp, ne_eq, not_true_eq_false, false_and, iff_false]
      omega
    · rename_i hp
      simp only [List.length_singleton, hp, ne_eq, not_false_eq_true, true_and]
      omega

theorem count_dropLast_add_one (hne : s ≠ []) (c : α) :
    s.dropLast.count c + 1 = s.count c + closing s c := by
  obtain ⟨front, b, rfl⟩ := (List.eq_nil_or_concat' s).resolve_left hne
  rw [List.dropLast_concat, List.count_append, List.count_singleton, closing,
    List.getLast?_concat]
  by_cases hb : b = c <;> simp [hb]

/-! ### Where they are -/

/-- `t` stands at `i` in `s`, without separators in it, and cannot be made longer. -/
structure Segment (s : List α) (c : α) (i : Nat) (t : List α) : Prop where
  ne_nil : t ≠ []
  free : c ∉ t
  place : ∃ a b, s = a ++ t ++ b ∧ a.length = i ∧ (∀ x ∈ a.getLast?, x = c) ∧
    ∀ x ∈ b.head?, x = c

omit [DecidableEq α] in
/-- What ends in a separator but has none is empty. -/
theorem eq_nil_of_getLast? {a : List α} (h : c ∉ a) (ha : ∀ x ∈ a.getLast?, x = c) : a = [] := by
  by_contra hne
  obtain ⟨x, hx⟩ := Option.ne_none_iff_exists'.mp (mt List.getLast?_eq_none_iff.mp hne)
  exact h (ha x hx ▸ List.mem_of_getLast? hx)

omit [DecidableEq α] in
theorem eq_nil_of_head? {b : List α} (h : c ∉ b) (hb : ∀ x ∈ b.head?, x = c) : b = [] := by
  by_contra hne
  obtain ⟨x, hx⟩ := Option.ne_none_iff_exists'.mp (mt List.head?_eq_none_iff.mp hne)
  exact h (hb x hx ▸ List.mem_of_mem_head? hx)

omit [DecidableEq α] in
theorem segment_of_not_mem (h : c ∉ p) : Segment p c i t ↔ p ≠ [] ∧ i = 0 ∧ t = p := by
  constructor
  · rintro ⟨hne, -, a, b, rfl, rfl, ha, hb⟩
    simp only [List.mem_append, not_or] at h
    obtain rfl := eq_nil_of_getLast? h.1.1 ha
    obtain rfl := eq_nil_of_head? h.2 hb
    simpa using hne
  · rintro ⟨hne, rfl, rfl⟩
    exact ⟨hne, h, [], [], by simp, rfl, by simp, by simp⟩

omit [DecidableEq α] in
/-- A segment is the first piece or lies behind it. -/
theorem segment_append_cons (h : c ∉ p) : Segment (p ++ c :: r) c i t ↔
    (p ≠ [] ∧ i = 0 ∧ t = p) ∨ ∃ j, i = p.length + 1 + j ∧ Segment r c j t := by
  constructor
  · rintro ⟨hne, hfree, a, b, hs, rfl, ha, hb⟩
    rw [List.append_assoc, List.append_eq_append_iff] at hs
    rcases hs with ⟨q, rfl, hr⟩ | ⟨q, rfl, hr⟩
    · -- it begins behind the first piece
      cases q with
      | nil =>
        obtain ⟨x, t, rfl⟩ := List.exists_cons_of_ne_nil hne
        exact absurd (List.cons.inj hr).1 fun hx => hfree (hx ▸ List.mem_cons_self)
      | cons x q =>
        obtain ⟨rfl, rfl⟩ := List.cons.inj hr
        refine .inr ⟨q.length, by simp; omega, hne, hfree, q, b, by simp, rfl, fun x hx => ?_, hb⟩
        refine ha x ?_
        obtain ⟨q, rfl⟩ := List.getLast?_eq_some_iff.mp hx
        exact List.getLast?_eq_some_iff.mpr ⟨p ++ c :: q, by simp⟩
    · rw [List.mem_append, not_or] at h
      obtain rfl := eq_nil_of_getLast? h.1 ha
      rw [List.append_eq_append_iff] at hr
      refine .inl ?_
      rcases hr with ⟨u, rfl, rfl⟩ | ⟨u, rfl, hcr⟩
      · cases u with
        | nil => simpa using hne
        | cons x u =>
          have hx : x = c := hb x rfl
          exact absurd (List.mem_append_right _ (hx ▸ List.mem_cons_self)) h.2
      · cases u with
        | nil => simpa using hne
        | cons x u =>
          obtain ⟨rfl, -⟩ := List.cons.inj hcr
          exact absurd (List.mem_append_right _ List.mem_cons_self) hfree
  · rintro (⟨hne, rfl, rfl⟩ | ⟨j, rfl, hne, hfree, a, b, rfl, rfl, ha, hb⟩)
    · exact ⟨hne, h, [], c :: r, rfl, rfl, by simp, by simp⟩
    · refine ⟨hne, hfree, p ++ c :: a, b, by simp, by simp; omega, fun x hx => ?_, hb⟩
      cases a with
      | nil => simpa [eq_comm] using hx
      | cons y a =>
        refine ha x ?_
        rwa [List.getLast?_append_of_ne_nil _ (List.cons_ne_nil _ _),
          List.getLast?_cons_cons] at hx

/-- These are the segments of `s`, in the order in which they stand in it. -/
def Segments (s : List α) (c : α) (toks : List (List α)) : Prop :=
  ∃ starts : List Nat, starts.length = toks.length ∧ starts.Pairwise (· < ·) ∧
    ∀ i t, (i, t) ∈ starts.zip toks ↔ Segment s c i t

/-- **The tokens are the segments.** -/
theorem tokens_segments (s : List α) (c : α) : Segments s c (tokens s c) := by
  induction s using pieces_induction c with
  | last p h =>
    rw [tokens_of_not_mem h]
    by_cases hp : p = []
    · refine ⟨[], by simp [hp], by simp, fun i t => ?_⟩
      rw [segment_of_not_mem h]
      simp [hp]
    · refine ⟨[0], by simp [hp], by simp, fun i t => ?_⟩
      simp [segment_of_not_mem h, hp]
  | cons p r h ih =>
    obtain ⟨starts, hlen, hsorted, hmem⟩ := ih
    rw [tokens_append_cons h]
    have hrest : (starts.map (p.length + 1 + ·)).Pairwise (· < ·) :=
      hsorted.map _ fun i j hij => Nat.add_lt_add_left hij _
    have hzip : ∀ i t, (i, t) ∈ (starts.map (p.length + 1 + ·)).zip (tokens r c) ↔
        ∃ j, i = p.length + 1 + j ∧ Segment r c j t := by
      intro i t
      rw [List.zip_map_left, List.mem_map]
      constructor
      · rintro ⟨⟨j, t'⟩, hj, heq⟩
        obtain ⟨rfl, rfl⟩ := Prod.mk.inj heq
        exact ⟨j, rfl, (hmem j _).mp hj⟩
      · rintro ⟨j, rfl, hj⟩
        exact ⟨(j, t), (hmem j t).mpr hj, rfl⟩
    by_cases hp : p = []
    · refine ⟨_, ?_, hrest, fun i t => ?_⟩
      · simp [hp, hlen]
      · rw [if_pos hp, List.nil_append, hzip, segment_append_cons h]
        simp [hp]
    · refine ⟨0 :: starts.map (p.length + 1 + ·), by simp [hp, hlen], ?_, fun i t => ?_⟩
      · rw [List.pairwise_cons]
        refine ⟨fun j hj => ?_, hrest⟩
        obtain ⟨k, -, rfl⟩ := List.mem_map.mp hj
        omega
      · rw [if_neg hp, List.singleton_append, List.zip_cons_cons, List.mem_cons, hzip,
          segment_append_cons h]
        simp [hp]

theorem infix_of_mem_tokens (ht : t ∈ tokens s c) : t <:+: s := by
  induction s using pieces_induction c with
  | last p h =>
    rw [tokens_of_not_mem h] at ht
    split at ht
    · cases ht
    · rw [List.mem_singleton.mp ht]
  | cons p r h ih =>
    rw [tokens_append_cons h, List.mem_append] at ht
    rcases ht with ht | ht
    · split at ht
      · cases ht
      · rw [List.mem_singleton.mp ht]
        exact (List.prefix_append _ _).isInfix
    · exact (ih ht).trans ((List.suffix_cons c r).trans (List.suffix_append p _)).isInfix

/-- A text with no separator at its start begins with its first token. -/
theorem tokens_append (hne : t ≠ []) (h : c ∉ t) (r : List α) :
    ∃ u toks, tokens (t ++ r) c = (t ++ u) :: toks ∧ u <+: r := by
  by_cases hr : c ∈ r
  · obtain ⟨u, r, rfl, hu⟩ := List.eq_append_cons_of_mem hr
    refine ⟨u, tokens r c, ?_, List.prefix_append _ _⟩
    rw [← List.append_assoc, tokens_append_cons (List.not_mem_append h hu),
      if_neg (List.append_ne_nil_of_left_ne_nil hne u)]
    rfl
  · refine ⟨r, [], ?_, List.prefix_rfl⟩
    rw [tokens_of_not_mem (List.not_mem_append h hr),
      if_neg (List.append_ne_nil_of_left_ne_nil hne r)]

/-- Joined again, the tokens of a separated text are the text, but for a separator at its
end. -/
theorem join_tokens (h : Separated s c) :
    ∃ tail, s = [c].intercalate (tokens s c) ++ tail ∧ (tail = [] ∨ tail = [c]) := by
  induction s using pieces_induction c with
  | last p hfree =>
    rw [tokens_of_not_mem hfree]
    by_cases hp : p = [] <;> simp [hp]
  | cons p r hfree ih =>
    obtain ⟨hp, hr⟩ := (separated_append_cons hfree).mp h
    obtain ⟨tail, htail, hend⟩ := ih hr
    rw [tokens_append_cons hfree, if_neg hp, List.singleton_append]
    by_cases htokens : tokens r c = []
    · -- nothing is left behind the separator
      have hcount := (tokens_length_eq_iff r c).mpr hr
      have hnil : r = [] := by
        by_contra hne
        rw [htokens, List.length_nil, closing] at hcount
        have hclosing : r.getLast? = some c := by
          by_contra hlast
          rw [if_neg (not_or.mpr ⟨hne, hlast⟩)] at hcount
          omega
        have hpos := List.count_pos_iff.mpr (List.mem_of_getLast? hclosing)
        omega
      rw [htokens, hnil]
      exact ⟨[c], by simp, .inr rfl⟩
    · refine ⟨tail, ?_, hend⟩
      rw [List.intercalate_cons_of_ne_nil htokens]
      conv_lhs => rw [htail]
      simp

end PosixNet
