import PosixNet.ExerciseConnection
import PosixNet.Tokens

/-!
# `exercise`: what `split` returns

`split` predicts the number of tokens by counting separators, and asserts twice that
`strtok` finds as many.  `slots_eq` is the prediction, so that `tokens_length_eq_iff`
says when the two agree: for a text with no separator in front and no two in a row.

`splitArray` is `split` call by call and store by store, with the array that it fills.
`tokenLoop_eq` is what its loop does, and `splitArray_eq` says that it returns the tokens
of `split`, or fails as it does.

* **`split_exact`**: no store leaves the array, when `split` returns, and with what.
-/
namespace PosixNet.Exercise

/-! ## The number of slots -/

section Slots
variable {separator : Byte} {s : List Byte}

theorem strtok_eq (line : List Byte) (separator : Byte) :
    strtok line separator = tokens line separator := rfl

theorem countLoop_append (separator : Byte) (s r : List Byte) (tmp count : Nat)
    (last : Option Nat) : countLoop separator tmp (s ++ r) count last =
      countLoop separator (tmp + s.length) r (countLoop separator tmp s count last).1
        (countLoop separator tmp s count last).2 := by
  induction s generalizing tmp count last with
  | nil => rfl
  | cons b s ih =>
    rw [List.cons_append, countLoop, countLoop, List.length_cons,
      show tmp + (s.length + 1) = tmp + 1 + s.length by omega]
    split
    · exact ih ..
    · exact ih ..

theorem countLoop_count (separator : Byte) (s : List Byte) (tmp count : Nat) (last : Option Nat) :
    (countLoop separator tmp s count last).1 = count + s.count separator := by
  induction s generalizing tmp count last with
  | nil => rfl
  | cons b s ih =>
    rw [countLoop, List.count_cons]
    split
    · rename_i hb
      rw [ih, hb, beq_self_eq_true, if_pos rfl]
      omega
    · rename_i hb
      have hne : ¬ (b == separator) = true := fun h => hb (beq_iff_eq.mp h).symm
      rw [ih, if_neg hne, Nat.add_zero]

/-- The last separator is one of the bytes seen. -/
theorem countLoop_last_lt (separator : Byte) (s : List Byte) (tmp count : Nat)
    {last : Option Nat} (hlast : ∀ k ∈ last, k < tmp) :
    ∀ k ∈ (countLoop separator tmp s count last).2, k < tmp + s.length := by
  induction s generalizing tmp count last with
  | nil => exact hlast
  | cons b s ih =>
    rw [countLoop, List.length_cons, show tmp + (s.length + 1) = tmp + 1 + s.length by omega]
    split
    · exact ih _ _ fun k hk => by
        rw [← Option.some.inj hk]
        omega
    · exact ih _ _ fun k hk => Nat.lt_succ_of_lt (hlast k hk)

/-- No separator: the null pointer is below the last byte. -/
theorem slots_of_none (h : (countLoop separator 0 s 0 none).2 = none) :
    slots s separator = s.count separator + 1 + 1 := by
  have hpair : countLoop separator 0 s 0 none = (s.count separator, none) :=
    Prod.ext (by rw [countLoop_count, Nat.zero_add]) h
  rw [slots, hpair]

theorem slots_of_some {last : Nat} (h : (countLoop separator 0 s 0 none).2 = some last) :
    slots s separator =
      s.count separator + (if (last : Int) < s.length - 1 then 1 else 0) + 1 := by
  have hpair : countLoop separator 0 s 0 none = (s.count separator, some last) :=
    Prod.ext (by rw [countLoop_count, Nat.zero_add]) h
  rw [slots, hpair]

/-- **The number of slots**: one for every separator, one for a token behind the last of
them, and one for the null pointer. -/
theorem slots_eq (hne : s ≠ []) (separator : Byte) :
    slots s separator = s.count separator + closing s separator + 1 := by
  obtain ⟨front, b, rfl⟩ := (List.eq_nil_or_concat' s).resolve_left hne
  have hlen : ((front ++ [b]).length : Int) - 1 = front.length := by simp
  by_cases hb : separator = b
  · have hlast : (countLoop separator 0 (front ++ [b]) 0 none).2 = some front.length := by
      rw [countLoop_append, countLoop, if_pos hb, Nat.zero_add]
      rfl
    have hclosing : closing (front ++ [b]) separator = 0 :=
      if_pos (.inr (List.getLast?_concat.trans (congrArg some hb.symm)))
    rw [slots_of_some hlast, hlen, if_neg (lt_irrefl _), hclosing]
  · have hclosing : closing (front ++ [b]) separator = 1 := by
      refine if_neg (not_or.mpr ⟨hne, fun h => hb ?_⟩)
      exact (Option.some.inj (List.getLast?_concat.symm.trans h)).symm
    have hfront : (countLoop separator 0 (front ++ [b]) 0 none).2 =
        (countLoop separator 0 front 0 none).2 := by
      rw [countLoop_append, countLoop, if_neg hb]
      rfl
    rw [hclosing]
    cases hend : (countLoop separator 0 front 0 none).2 with
    | none => rw [slots_of_none (hfront.trans hend)]
    | some last =>
      have hnone : ∀ k ∈ (none : Option Nat), k < 0 := fun k hk => nomatch hk
      have hlt := countLoop_last_lt separator front 0 0 hnone last hend
      rw [Nat.zero_add] at hlt
      rw [slots_of_some (hfront.trans hend), hlen, if_pos (Int.ofNat_lt.mpr hlt)]

/-- **When `split` returns.** -/
theorem split_eq_ok_iff (hne : s ≠ []) {toks : List (List Byte)} :
    split s separator = .ok toks ↔
      s.length ≤ 255 ∧ Separated s separator ∧ toks = tokens s separator := by
  rw [split_eq_ok, slots_eq hne, Nat.add_right_cancel_iff, strtok_eq]
  constructor
  · rintro ⟨hlen, rfl, hcount⟩
    exact ⟨hlen, (tokens_length_eq_iff s separator).mp hcount, rfl⟩
  · rintro ⟨hlen, hsep, rfl⟩
    exact ⟨hlen, rfl, (tokens_length_eq_iff s separator).mpr hsep⟩

end Slots

/-! ## The token array -/

/-- What a slot of the array holds. -/
inductive Slot where
  /-- What `malloc` left there. -/
  | indeterminate
  | token (bytes : List Byte)
  | null
  deriving DecidableEq

/-- `*(result + idx) = slot`. -/
def storeSlot (result : List Slot) (idx : Nat) (slot : Slot) : Except Fault (List Slot) :=
  if idx < result.length then .ok (result.set idx slot) else .error .bounds

/-- `result[k]` as a string. -/
def loadSlot (result : List Slot) (k : Nat) : Except Fault (List Byte) :=
  match result[k]? with
  | some (.token bytes) => .ok bytes
  | some .null => .error .null
  -- nothing is known of where the pointer points
  | some .indeterminate => .error .bounds
  | none => .error .bounds

/-- One call of `strtok`, on what the last one left: the token it cuts off, and what it
leaves. -/
def strtokNext (separator : Byte) (line : List Byte) : Option (List Byte × List Byte) :=
  match line.dropWhile (· = separator) with
  | [] => none
  | b :: s =>
    some ((b :: s).takeWhile (· ≠ separator), ((b :: s).dropWhile (· ≠ separator)).tail)

theorem strtokNext_cons_self (r : List Byte) :
    strtokNext separator (separator :: r) = strtokNext separator r := by
  simp [strtokNext]

/-- A piece without separators is cut off where the text, or the piece, ends. -/
theorem strtokNext_append {p t : List Byte} (hne : p ≠ []) (h : separator ∉ p)
    (ht : ∀ x ∈ t.head?, x = separator) : strtokNext separator (p ++ t) = some (p, t.tail) := by
  obtain ⟨b, s, rfl⟩ := List.exists_cons_of_ne_nil hne
  have hb : ¬ b = separator := fun hb => h (hb ▸ List.mem_cons_self)
  have hfree : ∀ x ∈ b :: s, decide (x ≠ separator) = true := fun x hx =>
    decide_eq_true fun hx' => h (hx' ▸ hx)
  have hstop : t.takeWhile (· ≠ separator) = [] ∧ t.dropWhile (· ≠ separator) = t := by
    cases t with
    | nil => exact ⟨rfl, rfl⟩
    | cons x t => simp [ht x rfl]
  rw [strtokNext, List.cons_append, List.dropWhile_cons_of_neg (by simpa using hb)]
  show some (((b :: s) ++ t).takeWhile (· ≠ separator),
    (((b :: s) ++ t).dropWhile (· ≠ separator)).tail) = _
  rw [List.takeWhile_append_of_pos hfree, List.dropWhile_append_of_pos hfree, hstop.1, hstop.2,
    List.append_nil]

/-- A call finds the first token, and the next call the others. -/
theorem strtokNext_tokens (separator : Byte) (s : List Byte) :
    strtokNext separator s = none ∧ tokens s separator = [] ∨
      ∃ t r, strtokNext separator s = some (t, r) ∧ r.length < s.length ∧
        tokens s separator = t :: tokens r separator := by
  induction s using pieces_induction separator with
  | last p h =>
    rw [tokens_of_not_mem h]
    by_cases hp : p = []
    · rw [if_pos hp, hp]
      exact .inl ⟨rfl, rfl⟩
    · have hnext := strtokNext_append (t := []) hp h fun x hx => absurd hx (Option.not_mem_none x)
      rw [List.append_nil] at hnext
      rw [if_neg hp]
      exact .inr ⟨p, [], hnext, List.length_pos_iff.mpr hp, rfl⟩
  | cons p r h ih =>
    rw [tokens_append_cons h]
    by_cases hp : p = []
    · rw [if_pos hp, hp, List.nil_append, List.nil_append, strtokNext_cons_self]
      rcases ih with hnone | ⟨t, r', hnext, hlt, htokens⟩
      · exact .inl hnone
      · exact .inr ⟨t, r', hnext, hlt.trans (Nat.lt_succ_self _), htokens⟩
    · rw [if_neg hp]
      have hnext : strtokNext separator (p ++ separator :: r) = some (p, r) :=
        strtokNext_append hp h fun x hx => (Option.some.inj hx).symm
      have hlen : r.length < (p ++ separator :: r).length := by
        rw [List.length_append, List.length_cons]
        omega
      exact .inr ⟨p, r, hnext, hlen, rfl⟩

theorem strtokNext_length_lt {line token rest : List Byte}
    (h : strtokNext separator line = some (token, rest)) : rest.length < line.length := by
  rcases strtokNext_tokens separator line with ⟨hnone, -⟩ | ⟨t, r, hnext, hlt, -⟩
  · cases hnone.symm.trans h
  · obtain ⟨-, rfl⟩ := Prod.mk.inj (Option.some.inj (hnext.symm.trans h))
    exact hlt

/-- The loop of lines 499–504: `idx` and the array behind it. -/
def tokenLoop (separator : Byte) (count idx : Nat) (result : List Slot) (line : List Byte) :
    Except Fault (Nat × List Slot) :=
  match _h : strtokNext separator line with
  | none => .ok (idx, result)
  | some (token, rest) =>
    if idx < count then
      match storeSlot result idx (.token token) with
      | .error f => .error f
      | .ok result => tokenLoop separator count (idx + 1) result rest
    else .error .assertion
termination_by line.length
decreasing_by exact strtokNext_length_lt _h

/-- `split`, with its array. -/
def splitArray (read : List Byte) (separator : Byte) : Except Fault (List Slot) :=
  if 256 < read.length + 1 then .error .bounds
  else
    let count := slots read separator
    match tokenLoop separator count 0 (List.replicate count .indeterminate) read with
    | .error f => .error f
    | .ok (idx, result) =>
      if idx = count - 1 then storeSlot result idx .null else .error .assertion

section Array
variable {count idx : Nat} {result : List Slot} {line token rest : List Byte}

theorem tokenLoop_none (h : strtokNext separator line = none) :
    tokenLoop separator count idx result line = .ok (idx, result) := by
  rw [tokenLoop]
  split
  · rfl
  · rename_i hsome
    cases h.symm.trans hsome

theorem tokenLoop_some (h : strtokNext separator line = some (token, rest)) :
    tokenLoop separator count idx result line =
      if idx < count then
        (storeSlot result idx (.token token)).bind fun result =>
          tokenLoop separator count (idx + 1) result rest
      else .error .assertion := by
  rw [tokenLoop]
  split
  · rename_i hnone
    cases h.symm.trans hnone
  · rename_i token' rest' hsome
    obtain ⟨rfl, rfl⟩ := Prod.mk.inj (Option.some.inj (h.symm.trans hsome))
    cases storeSlot result idx (.token token) <;> rfl

/-- The array while it is filled: the tokens so far, and the slots left for others. -/
def filling (stored : List (List Byte)) (left : Nat) : List Slot :=
  stored.map .token ++ List.replicate left .indeterminate

theorem storeSlot_filling (stored : List (List Byte)) (left : Nat) (slot : Slot) :
    storeSlot (filling stored (left + 1)) stored.length slot =
      .ok (stored.map .token ++ slot :: List.replicate left .indeterminate) := by
  have hlt : stored.length < (filling stored (left + 1)).length := by simp [filling]
  rw [storeSlot, if_pos hlt, filling, List.set_append_right _ _ (by simp), List.length_map,
    Nat.sub_self, List.replicate_succ, List.set_cons_zero]

/-- **The loop**, from any iteration: it stores all tokens if there are slots left for
them.  The assertion fails before a store is out of bounds. -/
theorem tokenLoop_eq (separator : Byte) (stored : List (List Byte)) (left : Nat)
    (line : List Byte) :
    tokenLoop separator (stored.length + left) stored.length (filling stored left) line =
      if (tokens line separator).length ≤ left then
        .ok ((stored ++ tokens line separator).length,
          filling (stored ++ tokens line separator) (left - (tokens line separator).length))
      else .error .assertion := by
  induction left generalizing stored line with
  | zero =>
    rcases strtokNext_tokens separator line with ⟨hnext, htokens⟩ | ⟨t, r, hnext, -, htokens⟩
    · rw [tokenLoop_none hnext, htokens, List.append_nil]
      rfl
    · rw [tokenLoop_some hnext, htokens, if_neg (by omega), if_neg (by simp)]
  | succ left ih =>
    rcases strtokNext_tokens separator line with ⟨hnext, htokens⟩ | ⟨t, r, hnext, -, htokens⟩
    · rw [tokenLoop_none hnext, htokens, List.append_nil]
      rfl
    · have hstored : stored.map .token ++ .token t :: List.replicate left .indeterminate =
          filling (stored ++ [t]) left := by
        rw [filling, List.map_append, List.append_assoc]
        rfl
      have hlen : stored.length + (left + 1) = (stored ++ [t]).length + left := by
        rw [List.length_append, List.length_singleton]
        omega
      have hrest := ih (stored ++ [t]) r
      rw [List.append_assoc, List.singleton_append] at hrest
      rw [tokenLoop_some hnext, if_pos (by omega), storeSlot_filling, hstored, hlen, htokens,
        List.length_cons]
      simp only [Nat.add_le_add_iff_right, Nat.add_sub_add_right]
      rw [← hrest, List.length_append, List.length_singleton]
      rfl

/-- The array that `split` returns. -/
def terminated (toks : List (List Byte)) : List Slot := toks.map .token ++ [.null]

/-- **`split` with its array is `split`.** -/
theorem splitArray_eq (read : List Byte) (separator : Byte) :
    splitArray read separator = (split read separator).map terminated := by
  have hpos : 0 < slots read separator := Nat.succ_pos _
  have hloop := tokenLoop_eq separator [] (slots read separator) read
  rw [List.length_nil, Nat.zero_add, List.nil_append, filling, List.map_nil,
    List.nil_append] at hloop
  rw [splitArray, split, strtok_eq]
  by_cases hlen : 256 < read.length + 1
  · rw [if_pos hlen, if_pos hlen]
    rfl
  rw [if_neg hlen, if_neg hlen]
  dsimp only
  rw [hloop]
  by_cases hmany : slots read separator < (tokens read separator).length
  · rw [if_pos hmany, if_neg (Nat.not_le.mpr hmany)]
    rfl
  rw [if_neg hmany, if_pos (Nat.not_lt.mp hmany)]
  by_cases hcount : (tokens read separator).length = slots read separator - 1
  · have hstore := storeSlot_filling (tokens read separator) 0 .null
    have hone : slots read separator - (tokens read separator).length = 0 + 1 := by omega
    rw [if_neg (not_not.mpr hcount), hone]
    simp only [hcount, if_true]
    rw [← hcount, hstore]
    rfl
  · rw [if_pos hcount]
    simp only [if_neg hcount]
    rfl

/-- What `deref` says of a token is what the slot holds. -/
theorem loadSlot_terminated (toks : List (List Byte)) (k : Nat) :
    loadSlot (terminated toks) k = deref toks k := by
  rw [loadSlot, deref, terminated]
  rcases Nat.lt_trichotomy k toks.length with hk | rfl | hk
  · rw [List.getElem?_append_left (by simpa using hk), List.getElem?_map,
      List.getElem?_eq_getElem hk]
    rfl
  · rw [List.getElem?_append_right (by simp), List.length_map, Nat.sub_self,
      List.getElem?_eq_none le_rfl, if_pos rfl]
    rfl
  · rw [List.getElem?_eq_none (by simp; omega), List.getElem?_eq_none (by omega),
      if_neg (by omega)]

theorem splitArray_eq_ok_iff (hne : s ≠ []) : splitArray s separator = .ok result ↔
    s.length ≤ 255 ∧ Separated s separator ∧ result = terminated (tokens s separator) := by
  rw [splitArray_eq]
  constructor
  · intro h
    cases hsplit : split s separator with
    | error f =>
      rw [hsplit] at h
      cases h
    | ok toks =>
      rw [hsplit] at h
      obtain ⟨hlen, hsep, rfl⟩ := (split_eq_ok_iff hne).mp hsplit
      exact ⟨hlen, hsep, (Except.ok.inj h).symm⟩
  · rintro ⟨hlen, hsep, rfl⟩
    rw [(split_eq_ok_iff hne).mpr ⟨hlen, hsep, rfl⟩]
    rfl

/-- A text that fits `line` is never stored out of bounds. -/
theorem splitArray_ne_bounds (hlen : s.length ≤ 255) (separator : Byte) :
    splitArray s separator ≠ .error .bounds := by
  rw [splitArray_eq, split, if_neg (by omega)]
  intro h
  split at h
  · cases h
  · split at h <;> cases h

/-- **What `split` does with a text that fits.**  Its stores stay in the array, it returns
if and only if no separator stands in front or behind another, and then with the segments
of the text, which joined are the text without a separator at its end. -/
theorem split_exact (hne : s ≠ []) (hlen : s.length ≤ 255) (separator : Byte) :
    splitArray s separator ≠ .error .bounds ∧
      ((∃ result, splitArray s separator = .ok result) ↔
        s.head? ≠ some separator ∧ ¬ [separator, separator] <:+: s) ∧
      ∀ result, splitArray s separator = .ok result → ∃ toks,
        result = toks.map .token ++ [.null] ∧ Segments s separator toks ∧
          ∃ tail, s = [separator].intercalate toks ++ tail ∧ (tail = [] ∨ tail = [separator]) := by
  refine ⟨splitArray_ne_bounds hlen separator, ?_, fun result h => ?_⟩
  · constructor
    · rintro ⟨result, h⟩
      exact ((splitArray_eq_ok_iff hne).mp h).2.1
    · exact fun hsep => ⟨_, (splitArray_eq_ok_iff hne).mpr ⟨hlen, hsep, rfl⟩⟩
  · obtain ⟨-, hsep, rfl⟩ := (splitArray_eq_ok_iff hne).mp h
    exact ⟨_, rfl, tokens_segments s separator, join_tokens hsep⟩

theorem split_exact_f_line :
    splitArray (ascii "F /etc/motd 12553\n") space ≠ .error .bounds ∧
      ∃ result, splitArray (ascii "F /etc/motd 12553\n") space = .ok result :=
  have h := split_exact (s := ascii "F /etc/motd 12553\n") (by decide) (by decide) space
  ⟨h.1, h.2.1.mpr (by decide)⟩

end Array

end PosixNet.Exercise
