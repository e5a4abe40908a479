import PosixNet.Strtoul

/-!
# `week6`: datagrams of a given size

The loop of `teht2_client.c`: a line is read, from descriptor 1 (`STDOUT_FILENO`) for
standard input, into a buffer of 64 bytes and `atoi` of the buffer is the size of the next
datagram.  The buffer is neither terminated nor cleared, so it is the newline of a line that
ends its numeral; behind a last line without one the numeral goes on with whatever digits are
left of earlier lines, or were there at first.

**`sizes_iff`**: every size is the number on its line exactly if the last line has a
newline, or there is a byte behind it in the buffer (`leftAt`) that is no digit.
-/
namespace PosixNet.Week6

def bufferSize : Nat := 64

abbrev Buffer := CArray bufferSize

/-- `atoi` of an array: blanks, a sign, digits.  It runs out of an array in which nothing
follows the digits, and a number that does not fit an `int` is undefined. -/
def atoi {n : Nat} (a : CArray n) : Except Fault Int :=
  let (negative, t) := signOf (a.bytes.dropWhile isspace)
  let digits := t.takeWhile isdigit
  if digits.length = t.length then .error .bounds
  else
    let v : Int := if negative then -digitsValue digits else digitsValue digits
    if v < -(INT_MAX + 1) ∨ INT_MAX < v then .error .overflow else .ok v

/-- Lines 60–68: the sizes passed to `sendto`, and the fault that ends the loop, if one
does. -/
def sizes : Buffer → List (List Byte) → List Int × Option Fault
  | _, [] => ([], none)
  | buff, line :: lines =>
    match buff.store 0 line with
    | .error f => ([], some f)
    | .ok buff =>
      match atoi buff with
      | .error f => ([], some f)
      | .ok MAXLINE =>
        let rest := sizes buff lines
        (MAXLINE :: rest.1, rest.2)

/-- The number on a line. -/
def numeral (line : List Byte) : Nat := digitsValue (line.takeWhile isdigit)

/-- Digits and perhaps a newline, for the size of a datagram, in one read. -/
def IsNumeral (line : List Byte) : Prop :=
  (line = line.takeWhile isdigit ++ [newline] ∨ line = line.takeWhile isdigit) ∧
    1 ≤ numeral line ∧ numeral line ≤ 65507 ∧ line.length ≤ bufferSize

instance (line : List Byte) : Decidable (IsNumeral line) := inferInstanceAs (Decidable (_ ∧ _))

/-- One numeral a line; the last one may be without its newline. -/
structure Numerals (lines : List (List Byte)) : Prop where
  line : ∀ l ∈ lines, IsNumeral l
  finished : ∀ l ∈ lines.dropLast, newline ∈ l

/-- What stands at place `k` of the buffer after these reads: every line that is long
enough has put a byte there. -/
def leftAt (k : Nat) (first : Option Byte) (lines : List (List Byte)) : Option Byte :=
  lines.foldl (fun c l => l[k]?.or c) first

/-- The last line has a newline, or no digit is left behind it. -/
def Ended (buff : Buffer) (lines : List (List Byte)) : Prop :=
  ∀ l ∈ lines.getLast?, newline ∈ l ∨
    ∃ c ∈ leftAt l.length buff.bytes[l.length]? lines.dropLast, isdigit c = false

instance (buff : Buffer) (lines : List (List Byte)) : Decidable (Ended buff lines) :=
  inferInstanceAs (Decidable (∀ _ ∈ _, _))

/-! ## Rows of digits -/

section Digits
variable {l t : List Byte} {b : Byte}

theorem digitsValue_snoc (l : List Byte) (b : Byte) :
    digitsValue (l ++ [b]) = 10 * digitsValue l + (b.toNat - 48) := by
  simp [digitsValue]

theorem digitsValue_le_append (l t : List Byte) : digitsValue l ≤ digitsValue (l ++ t) := by
  induction t using List.reverseRecOn with
  | nil => rw [List.append_nil]
  | append_singleton t b ih =>
    rw [← List.append_assoc, digitsValue_snoc]
    omega

/-- A number with a digit behind it is another number. -/
theorem digitsValue_lt_append (h : 1 ≤ digitsValue l) (b : Byte) (t : List Byte) :
    digitsValue l < digitsValue (l ++ b :: t) := by
  have hlater := digitsValue_le_append (l ++ [b]) t
  rw [digitsValue_snoc, List.append_assoc, List.singleton_append] at hlater
  omega

/-- **`atoi` of a buffer that starts with digits.** -/
theorem atoi_digits {n : Nat} {a : CArray n} (ha : a.bytes = l ++ t) (hne : l ≠ [])
    (hl : ∀ c ∈ l, isdigit c) : atoi a =
      if (t.takeWhile isdigit).length = t.length then .error .bounds
      else if INT_MAX < digitsValue (l ++ t.takeWhile isdigit) then .error .overflow
      else .ok (digitsValue (l ++ t.takeWhile isdigit)) := by
  obtain ⟨b, l, rfl⟩ := List.exists_cons_of_ne_nil hne
  have hb := hl b List.mem_cons_self
  have hscan : signOf (a.bytes.dropWhile isspace) = (false, b :: l ++ t) := by
    rw [ha, List.cons_append, List.dropWhile_cons_of_neg (isspace_of_isdigit hb),
      signOf_of_isdigit hb]
  have hdigits : (b :: l ++ t).takeWhile isdigit = b :: l ++ t.takeWhile isdigit :=
    List.takeWhile_append_of_pos hl
  have hlen : (b :: l ++ t.takeWhile isdigit).length = (b :: l ++ t).length ↔
      (t.takeWhile isdigit).length = t.length := by
    rw [List.length_append, List.length_append]
    omega
  have hlarge : (-(INT_MAX + 1 : Int) > (digitsValue (b :: l ++ t.takeWhile isdigit) : Int) ∨
      (INT_MAX : Int) < (digitsValue (b :: l ++ t.takeWhile isdigit) : Int)) ↔
      INT_MAX < digitsValue (b :: l ++ t.takeWhile isdigit) := by
    omega
  simp only [atoi, hscan, hdigits, hlen, Bool.false_eq_true, if_false, ← hlarge]

end Digits

/-! ## The loop -/

section Loop
variable {buff : Buffer} {line : List Byte} {lines : List (List Byte)}

theorem sizes_cons (hlen : 0 + line.length ≤ bufferSize) :
    sizes buff (line :: lines) =
      match atoi (buff.set 0 line hlen) with
      | .error f => ([], some f)
      | .ok MAXLINE => (MAXLINE :: (sizes (buff.set 0 line hlen) lines).1,
          (sizes (buff.set 0 line hlen) lines).2) := by
  rw [sizes, CArray.store_eq hlen]

theorem IsNumeral.digits_ne_nil (h : IsNumeral line) : line.takeWhile isdigit ≠ [] := by
  intro hnil
  have hpos := h.2.1
  rw [numeral, hnil] at hpos
  exact absurd hpos (by decide)

/-- A line with its newline gives its number. -/
theorem IsNumeral.atoi_finished (h : IsNumeral line) (hnl : newline ∈ line)
    (hlen : 0 + line.length ≤ bufferSize) : atoi (buff.set 0 line hlen) = .ok (numeral line) := by
  have hline : line = line.takeWhile isdigit ++ [newline] := by
    refine h.1.resolve_right fun heq => ?_
    rw [heq] at hnl
    exact absurd (List.mem_takeWhile_imp hnl) (by decide)
  have hbytes : (buff.set 0 line hlen).bytes =
      line.takeWhile isdigit ++ newline :: buff.bytes.drop line.length := by
    rw [CArray.set_zero_bytes, ← List.singleton_append, ← List.append_assoc, ← hline]
  have hstop : (newline :: buff.bytes.drop line.length).takeWhile isdigit = [] :=
    List.takeWhile_cons_of_neg (by decide)
  have hsmall : ¬ INT_MAX < digitsValue (line.takeWhile isdigit) :=
    Nat.not_lt.mpr (h.2.2.1.trans (by decide))
  rw [atoi_digits hbytes h.digits_ne_nil fun c hc => List.mem_takeWhile_imp hc, hstop,
    List.append_nil, if_neg hsmall]
  exact if_neg (Nat.succ_ne_zero _).symm

/-- **A line without its newline** gives its number exactly if there is a byte behind it
that is no digit. -/
theorem IsNumeral.atoi_unfinished (h : IsNumeral line) (hnl : newline ∉ line)
    (hlen : 0 + line.length ≤ bufferSize) : atoi (buff.set 0 line hlen) = .ok (numeral line) ↔
      ∃ c ∈ buff.bytes[line.length]?, isdigit c = false := by
  have hline : line.takeWhile isdigit = line := by
    refine (h.1.resolve_left fun heq => hnl ?_).symm
    rw [heq]
    exact List.mem_append_right _ (List.mem_singleton_self _)
  have hne := h.digits_ne_nil
  have hdigits : ∀ c ∈ line, isdigit c := List.takeWhile_eq_self_iff.mp hline
  have hpos := h.2.1
  have hle := h.2.2.1
  rw [numeral, hline] at hpos hle
  rw [hline] at hne
  rw [atoi_digits (CArray.set_zero_bytes hlen) hne hdigits, numeral, hline, ← List.head?_drop]
  cases buff.bytes.drop line.length with
  | nil => simp
  | cons c t =>
    by_cases hc : isdigit c = true
    · have hlt := digitsValue_lt_append hpos c (t.takeWhile isdigit)
      rw [List.takeWhile_cons_of_pos hc]
      constructor
      · intro heq
        split at heq
        · cases heq
        · split at heq
          · cases heq
          · have hsame := Int.ofNat.inj (Except.ok.inj heq)
            omega
      · rintro ⟨d, hd, hfalse⟩
        obtain rfl := Option.some.inj hd
        rw [hc] at hfalse
        cases hfalse
    · have hsmall : ¬ INT_MAX < digitsValue line := Nat.not_lt.mpr (hle.trans (by decide))
      rw [List.takeWhile_cons_of_neg hc, List.append_nil, if_neg hsmall,
        if_neg (show ([] : List Byte).length ≠ (c :: t).length from (Nat.succ_ne_zero _).symm)]
      exact ⟨fun _ => ⟨c, rfl, by simpa using hc⟩, fun _ => rfl⟩

/-- What a read leaves at a place of the buffer. -/
theorem set_getElem? {l : List Byte} (hlen : 0 + l.length ≤ bufferSize) (k : Nat) :
    (buff.set 0 l hlen).bytes[k]? = l[k]?.or buff.bytes[k]? := by
  rw [CArray.set_zero_bytes, List.getElem?_append]
  split
  · rename_i hk
    rw [List.getElem?_eq_getElem hk, Option.some_or]
  · rename_i hk
    rw [List.getElem?_drop, List.getElem?_eq_none (Nat.le_of_not_lt hk), Option.none_or]
    congr 1
    omega

theorem ended_cons (hlen : 0 + line.length ≤ bufferSize) (m : List Byte) :
    Ended buff (line :: m :: lines) ↔ Ended (buff.set 0 line hlen) (m :: lines) := by
  rw [Ended, Ended, List.getLast?_cons_cons, List.dropLast_cons_cons]
  refine forall₂_congr fun l _ => or_congr_right ?_
  rw [leftAt, List.foldl_cons, ← set_getElem? hlen]
  rfl

/-- **When every datagram has the size on its line.** -/
theorem sizes_iff (hlines : Numerals lines) (buff : Buffer) :
    sizes buff lines = (lines.map fun l => (numeral l : Int), none) ↔ Ended buff lines := by
  induction lines generalizing buff with
  | nil => exact ⟨fun _ l hl => (nomatch hl), fun _ => rfl⟩
  | cons l lines ih =>
    have hl := hlines.line l List.mem_cons_self
    have hlen : 0 + l.length ≤ bufferSize := by
      have := hl.2.2.2
      omega
    rw [sizes_cons hlen]
    cases lines with
    | nil =>
      by_cases hnl : newline ∈ l
      · rw [hl.atoi_finished hnl hlen]
        exact ⟨fun _ x hx => .inl (Option.some.inj hx ▸ hnl), fun _ => rfl⟩
      · have hended : Ended buff [l] ↔ ∃ c ∈ buff.bytes[l.length]?, isdigit c = false := by
          simp [Ended, leftAt, hnl]
        rw [hended, ← hl.atoi_unfinished hnl hlen]
        cases atoi (buff.set 0 l hlen) with
        | error f => simp
        | ok MAXLINE => simp [sizes]
    | cons m rest =>
      have hnl : newline ∈ l := hlines.finished l List.mem_cons_self
      have hrest : Numerals (m :: rest) := ⟨fun x hx => hlines.line x (List.mem_cons_of_mem _ hx),
        fun x hx => hlines.finished x (List.mem_cons_of_mem _ hx)⟩
      have ih := ih hrest (buff.set 0 l hlen)
      rw [hl.atoi_finished hnl hlen, ended_cons hlen, ← ih, List.map_cons, Prod.ext_iff,
        Prod.ext_iff]
      simp

end Loop

/-- The byte behind the `8` is the newline of an earlier line. -/
theorem sizes_three_lines : sizes (.zero _) [ascii "65507\n", ascii "7\n", ascii "8"] =
    ([65507, 7, 8], none) :=
  (sizes_iff ⟨by decide, by decide⟩ (.zero _)).mpr (by decide +kernel)

/-- The digits behind the `8` are those of the first line. -/
theorem not_sizes_unfinished :
    ¬ ∀ (lines : List (List Byte)) (buff : Buffer), Numerals lines →
      sizes buff lines = (lines.map fun l => (numeral l : Int), none) := by
  intro hall
  have hsizes := hall [ascii "12345\n", ascii "8"] (.zero _) ⟨by decide, by decide⟩
  exact absurd hsizes (by decide +kernel)

end PosixNet.Week6
