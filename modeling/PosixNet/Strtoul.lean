import PosixNet.CString

/-!
# `strtoul`

`strtoul(s, &end, 0)`, with 64 bits in an `unsigned long`: blanks, a sign, a prefix that
gives the base, digits.  What follows the digits is left to the caller, who gets its
address; a value that is too large is cut off at `ULONG_MAX`, a negative one taken modulo
`2 ^ 64`.

`Denotes` says of a whole string which integer it is, with no reference to `strtoul`;
`strtoul_of_denotes` is what `strtoul` makes of such a string, and `Denotes.unique` that
it is one integer only.
-/
namespace PosixNet

/-- What a digit or letter counts. -/
def digitValue (b : Byte) : Option Nat :=
  if isdigit b then some (b.toNat - 48)
  else if 97 ≤ b ∧ b ≤ 122 then some (b.toNat - 87)
  else if 65 ≤ b ∧ b ≤ 90 then some (b.toNat - 55)
  else none

/-- The byte is a digit in this base. -/
def isDigitOf (base : Nat) (b : Byte) : Bool := (digitValue b).any (· < base)

/-- The number a row of digits denotes. -/
def valueOf (base : Nat) (l : List Byte) : Nat :=
  l.foldl (fun n b => base * n + (digitValue b).getD 0) 0

def ULONG_MAX : Nat := 2 ^ 64 - 1

/-- The sign, if there is one: whether it is `-`, and what follows. -/
def signOf : List Byte → Bool × List Byte
  | 45 :: s => (true, s)
  | 43 :: s => (false, s)
  | s => (false, s)

/-- The base that a prefix stands for, and the text of the digits. -/
def radixOf : List Byte → Nat × List Byte
  | 48 :: x :: b :: s =>
    -- without a digit behind it the `x` is not part of a prefix
    if (x = 120 ∨ x = 88) ∧ isDigitOf 16 b then (16, b :: s) else (8, 48 :: x :: b :: s)
  | 48 :: s => (8, 48 :: s)
  | s => (10, s)

/-- `strtoul(s, &end, 0)`: the value, and the string at `end`. -/
def strtoul (s : List Byte) : Nat × List Byte :=
  let (negative, t) := signOf (s.dropWhile isspace)
  let (base, t) := radixOf t
  let digits := t.takeWhile (isDigitOf base)
  if digits = [] then (0, s)
  else
    let n := valueOf base digits
    (if ULONG_MAX < n then ULONG_MAX else if negative then (2 ^ 64 - n) % 2 ^ 64 else n,
      t.drop digits.length)

/-! ## Numerals -/

/-- A numeral without a sign: decimal, octal behind a `0`, hexadecimal behind `0x`. -/
inductive Magnitude : List Byte → Nat → Prop
  | decimal {b : Byte} {l : List Byte} (hb : b ≠ 48) (hl : ∀ c ∈ b :: l, isdigit c) :
      Magnitude (b :: l) (valueOf 10 (b :: l))
  | octal {l : List Byte} (hl : ∀ c ∈ l, isDigitOf 8 c) : Magnitude (48 :: l) (valueOf 8 l)
  | hex {x b : Byte} {l : List Byte} (hx : x = 120 ∨ x = 88) (hl : ∀ c ∈ b :: l, isDigitOf 16 c) :
      Magnitude (48 :: x :: b :: l) (valueOf 16 (b :: l))

/-- The integer a whole string denotes, with blanks and a sign in front. -/
inductive Denotes : List Byte → Int → Prop
  | unsigned {blanks l : List Byte} {n : Nat} (hblanks : ∀ b ∈ blanks, isspace b)
      (h : Magnitude l n) : Denotes (blanks ++ l) n
  | plus {blanks l : List Byte} {n : Nat} (hblanks : ∀ b ∈ blanks, isspace b)
      (h : Magnitude l n) : Denotes (blanks ++ 43 :: l) n
  | minus {blanks l : List Byte} {n : Nat} (hblanks : ∀ b ∈ blanks, isspace b)
      (h : Magnitude l n) : Denotes (blanks ++ 45 :: l) (-n)

variable {l s : List Byte} {n : Nat} {v w : Int}

theorem isDigitOf_of_isdigit {b : Byte} (h : isdigit b = true) : isDigitOf 10 b = true := by
  have hrange : 48 ≤ b ∧ b ≤ 57 := by simpa [isdigit] using h
  have hhigh : b.toNat ≤ 57 := hrange.2
  rw [isDigitOf, digitValue, if_pos h, Option.any_some, decide_eq_true_iff]
  omega

theorem not_isDigitOf_x {x : Byte} (hx : x = 120 ∨ x = 88) : ¬ isDigitOf 8 x = true := by
  rcases hx with rfl | rfl <;> decide

/-- A numeral starts with a digit, so there is no sign and no blank in front. -/
theorem Magnitude.head (h : Magnitude l n) : ∃ b t, l = b :: t ∧ isdigit b = true := by
  cases h with
  | decimal hb hl => exact ⟨_, _, rfl, hl _ List.mem_cons_self⟩
  | octal hl => exact ⟨48, _, rfl, rfl⟩
  | hex hx hl => exact ⟨48, _, rfl, rfl⟩

theorem signOf_of_isdigit {b : Byte} (hb : isdigit b = true) (t : List Byte) :
    signOf (b :: t) = (false, b :: t) := by
  rw [signOf]
  · rintro s heq
    rw [(List.cons.inj heq).1] at hb
    exact absurd hb (by decide)
  · rintro s heq
    rw [(List.cons.inj heq).1] at hb
    exact absurd hb (by decide)

theorem dropWhile_blanks {blanks : List Byte} (hblanks : ∀ b ∈ blanks, isspace b) {b : Byte}
    (hb : ¬ isspace b = true) (t : List Byte) :
    (blanks ++ b :: t).dropWhile isspace = b :: t := by
  rw [List.dropWhile_append_of_pos hblanks, List.dropWhile_cons_of_neg hb]

/-- **A numeral is all digits** of the base that its prefix gives. -/
theorem radixOf_magnitude (h : Magnitude l n) : ∃ base digits, radixOf l = (base, digits) ∧
    digits ≠ [] ∧ (∀ c ∈ digits, isDigitOf base c) ∧ valueOf base digits = n := by
  cases h with
  | @decimal b t hb hl =>
    refine ⟨10, b :: t, ?_, List.cons_ne_nil _ _,
      fun c hc => isDigitOf_of_isdigit (hl c hc), rfl⟩
    rw [radixOf]
    · exact fun x c s heq => hb (List.cons.inj heq).1
    · exact fun s heq => hb (List.cons.inj heq).1
  | @octal t hl =>
    refine ⟨8, 48 :: t, ?_, List.cons_ne_nil _ _, fun c hc => ?_, rfl⟩
    · cases t with
      | nil => rfl
      | cons x t =>
        cases t with
        | nil => rfl
        | cons b t =>
          rw [radixOf, if_neg]
          exact fun h => not_isDigitOf_x h.1 (hl x List.mem_cons_self)
    · rcases List.mem_cons.mp hc with rfl | hc
      · decide
      · exact hl c hc
  | @hex x b t hx hl =>
    refine ⟨16, b :: t, ?_, List.cons_ne_nil _ _, hl, rfl⟩
    rw [radixOf, if_pos ⟨hx, hl b List.mem_cons_self⟩]

/-- What is behind the blanks of a string that denotes an integer. -/
theorem Denotes.signOf_eq (h : Denotes s v) : ∃ negative l n, Magnitude l n ∧
    signOf (s.dropWhile isspace) = (negative, l) ∧ v = if negative then -(n : Int) else n := by
  cases h with
  | @unsigned blanks l n hblanks h =>
    obtain ⟨b, t, rfl, hb⟩ := h.head
    refine ⟨false, b :: t, n, h, ?_, rfl⟩
    rw [dropWhile_blanks hblanks (isspace_of_isdigit hb), signOf_of_isdigit hb]
  | @plus blanks l n hblanks h =>
    exact ⟨false, l, n, h, by rw [dropWhile_blanks hblanks (by decide)]; rfl, rfl⟩
  | @minus blanks l n hblanks h =>
    exact ⟨true, l, n, h, by rw [dropWhile_blanks hblanks (by decide)]; rfl, rfl⟩

/-- A numeral denotes one number. -/
theorem Magnitude.unique {m : Nat} (h : Magnitude l n) (h' : Magnitude l m) : n = m := by
  obtain ⟨base, digits, hradix, -, -, rfl⟩ := radixOf_magnitude h
  obtain ⟨base', digits', hradix', -, -, rfl⟩ := radixOf_magnitude h'
  obtain ⟨rfl, rfl⟩ := Prod.mk.inj (hradix.symm.trans hradix')
  rfl

/-- A string denotes one integer. -/
theorem Denotes.unique (h : Denotes s v) (h' : Denotes s w) : v = w := by
  obtain ⟨negative, l, n, hl, hsign, rfl⟩ := h.signOf_eq
  obtain ⟨negative', l', m, hl', hsign', rfl⟩ := h'.signOf_eq
  obtain ⟨rfl, rfl⟩ := Prod.mk.inj (hsign.symm.trans hsign')
  rw [hl.unique hl']

/-- **`strtoul` reads the whole of a string that denotes an integer.** -/
theorem strtoul_of_denotes (h : Denotes s v) : ∃ (negative : Bool) (n : Nat),
    (v = if negative then -(n : Int) else n) ∧ strtoul s =
      (if ULONG_MAX < n then ULONG_MAX else if negative then (2 ^ 64 - n) % 2 ^ 64 else n, []) := by
  obtain ⟨negative, l, n, hl, hsign, hv⟩ := h.signOf_eq
  obtain ⟨base, digits, hradix, hne, hdigits, rfl⟩ := radixOf_magnitude hl
  refine ⟨negative, valueOf base digits, hv, ?_⟩
  have hall : digits.takeWhile (isDigitOf base) = digits := List.takeWhile_eq_self_iff.mpr hdigits
  simp only [strtoul, hsign, hradix, hall, if_neg hne, List.drop_length]

/-- A number that fits is its own value. -/
theorem strtoul_of_nat (h : Denotes s n) (hle : n ≤ ULONG_MAX) : (strtoul s).1 = n := by
  obtain ⟨negative, m, hv, hs⟩ := strtoul_of_denotes h
  rw [hs]
  cases negative with
  | false =>
    obtain rfl : n = m := by simpa using hv
    simp [Nat.not_lt.mpr hle]
  | true =>
    -- a zero with a minus
    obtain ⟨rfl, rfl⟩ : n = 0 ∧ m = 0 := by
      simp only [if_true] at hv
      omega
    rfl

end PosixNet
