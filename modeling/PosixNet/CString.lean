import Mathlib.Data.List.Infix
import Mathlib.Data.List.TakeWhile
import Mathlib.Data.Nat.Digits.Defs

/-!
# C strings and C arrays

A C string is what stands before the first NUL of an array; an array is a list of
bytes together with the proof of its length (`CArray`).  The functions of
`string.h` are partial: what C leaves undefined is a `Fault`, after which nothing is
said of the run.

* `CArray.store` is every bounded copy into an array, `CArray.str` the string an
  array holds, if it holds one.
* `strncpy` pads with NULs, which is where bytes that nobody wrote come from.
* `decimal` is the `%ld` of `printf`, `atol` reads a numeral back.
-/
namespace PosixNet

/-- What a C program must not do. -/
inductive Fault where
  /-- An access outside of an array. -/
  | bounds
  /-- A null pointer is dereferenced. -/
  | null
  /-- A failed `assert`. -/
  | assertion
  /-- A signed integer overflows. -/
  | overflow
  deriving DecidableEq

abbrev Byte := UInt8

/-- The bytes of a string literal, without its NUL. -/
def ascii (s : String) : List Byte := s.toList.map Char.toUInt8

def newline : Byte := 10
def space : Byte := 32

/-- There is no NUL among the bytes. -/
def NulFree (l : List Byte) : Prop := 0 ∉ l

instance (l : List Byte) : Decidable (NulFree l) := inferInstanceAs (Decidable (¬ _))

/-- One line with its newline. -/
def IsLine (l : List Byte) : Prop := l.getLast? = some newline ∧ newline ∉ l.dropLast

instance (l : List Byte) : Decidable (IsLine l) := inferInstanceAs (Decidable (_ ∧ _))

/-- The rest of a line is a line. -/
theorem IsLine.of_append {l l' : List Byte} (h : IsLine (l ++ l')) (hne : l' ≠ []) : IsLine l' := by
  obtain ⟨hlast, hbody⟩ := h
  rw [List.getLast?_append_of_ne_nil _ hne] at hlast
  rw [List.dropLast_append_of_ne_nil hne] at hbody
  exact ⟨hlast, fun hmem => hbody (List.mem_append_right _ hmem)⟩

/-- The string at the start of `l`. -/
def cstr (l : List Byte) : List Byte := l.takeWhile (· ≠ 0)

theorem nulFree_append {l l' : List Byte} : NulFree (l ++ l') ↔ NulFree l ∧ NulFree l' := by
  simp [NulFree]

theorem nulFree_flatten {ls : List (List Byte)} : NulFree ls.flatten ↔ ∀ l ∈ ls, NulFree l := by
  rw [NulFree, List.mem_flatten]
  exact ⟨fun h l hl h0 => h ⟨l, hl, h0⟩, fun h ⟨l, hl, h0⟩ => h l hl h0⟩

theorem NulFree.of_isPrefix {l l' : List Byte} (h : NulFree l') (hl : l <+: l') : NulFree l :=
  fun h0 => h (hl.subset h0)

theorem NulFree.map {f : Byte → Byte} (hf : ∀ b, b ≠ 0 → f b ≠ 0) {l : List Byte}
    (h : NulFree l) : NulFree (l.map f) := by
  intro h0
  obtain ⟨b, hb, hb0⟩ := List.mem_map.mp h0
  exact hf b (fun hb' => h (hb' ▸ hb)) hb0

theorem cstr_append {l : List Byte} (h : NulFree l) (l' : List Byte) :
    cstr (l ++ l') = l ++ cstr l' :=
  List.takeWhile_append_of_pos fun b hb => by
    simpa using fun h0 : b = 0 => h (h0 ▸ hb)

theorem cstr_eq_self {l : List Byte} (h : NulFree l) : cstr l = l := by
  have := cstr_append h []
  rwa [List.append_nil, show cstr [] = [] from rfl, List.append_nil] at this

theorem cstr_zero (l : List Byte) : cstr (0 :: l) = [] := by simp [cstr]

theorem cstr_append_zero {l : List Byte} (h : NulFree l) (l' : List Byte) :
    cstr (l ++ 0 :: l') = l := by
  rw [cstr_append h, cstr_zero, List.append_nil]

/-- What stands behind a NUL does not belong to the string. -/
theorem cstr_append_nul (l l' : List Byte) : cstr (l ++ 0 :: l') = cstr l := by
  by_cases h : NulFree l
  · rw [cstr_append_zero h, cstr_eq_self h]
  · obtain ⟨a, b, rfl, ha⟩ := List.eq_append_cons_of_mem (not_not.mp h)
    rw [List.append_assoc, List.cons_append, cstr_append_zero ha, cstr_append_zero ha]

/-- A list with a NUL is its string, the NUL, and something. -/
theorem exists_eq_cstr_append {l : List Byte} (h : 0 ∈ l) : ∃ r, l = cstr l ++ 0 :: r := by
  obtain ⟨a, b, rfl, ha⟩ := List.eq_append_cons_of_mem h
  exact ⟨b, by rw [cstr_append_zero ha]⟩

theorem cstr_length_lt {l : List Byte} (h : 0 ∈ l) : (cstr l).length < l.length := by
  obtain ⟨r, hr⟩ := exists_eq_cstr_append h
  have hlen := congrArg List.length hr
  rw [List.length_append, List.length_cons] at hlen
  omega

/-- What stands behind a string is not looked at. -/
theorem cstr_append_of_mem {l : List Byte} (h : 0 ∈ l) (l' : List Byte) :
    cstr (l ++ l') = cstr l := by
  obtain ⟨r, hr⟩ := exists_eq_cstr_append h
  rw [hr, List.append_assoc, List.cons_append, cstr_append_nul, cstr_append_nul]

theorem cstr_append_replicate (l : List Byte) (k : Nat) :
    cstr (l ++ List.replicate k 0) = cstr l := by
  cases k with
  | zero => rw [List.replicate_zero, List.append_nil]
  | succ k => exact cstr_append_nul _ _

theorem nulFree_cstr (l : List Byte) : NulFree (cstr l) := fun h => by
  simpa using List.mem_takeWhile_imp h

theorem filter_cstr (l : List Byte) : (cstr l).filter (· ≠ 0) = cstr l :=
  List.filter_eq_self.mpr fun c hc => by
    simpa using fun h0 : c = 0 => nulFree_cstr l (h0 ▸ hc)

/-- A string is all that is not NUL if there are only NULs behind it. -/
theorem cstr_eq_filter_iff {l : List Byte} :
    cstr l = l.filter (· ≠ 0) ↔ ∀ c ∈ l.dropWhile (· ≠ 0), c = 0 := by
  have hsplit : l.filter (· ≠ 0) = cstr l ++ (l.dropWhile (· ≠ 0)).filter (· ≠ 0) := by
    have happend : l = cstr l ++ l.dropWhile (· ≠ 0) := List.takeWhile_append_dropWhile.symm
    calc l.filter (· ≠ 0) = (cstr l ++ l.dropWhile (· ≠ 0)).filter (· ≠ 0) :=
          congrArg (List.filter _) happend
      _ = cstr l ++ (l.dropWhile (· ≠ 0)).filter (· ≠ 0) := by
          rw [List.filter_append, filter_cstr]
  rw [hsplit, List.self_eq_append_right, List.filter_eq_nil_iff]
  simp

theorem cstr_prefix_filter (l : List Byte) : cstr l <+: l.filter (· ≠ 0) := by
  rw [← filter_cstr]
  exact (List.takeWhile_prefix _).filter _

/-! ## Arrays -/

/-- An array of `n` bytes. -/
structure CArray (n : Nat) where
  bytes : List Byte
  length_eq : bytes.length = n
  deriving DecidableEq

namespace CArray
variable {n : Nat} (a : CArray n)

theorem ext' {a b : CArray n} (h : a.bytes = b.bytes) : a = b := by
  cases a; cases b; cases h; rfl

/-- The array of zeros. -/
def zero (n : Nat) : CArray n := ⟨List.replicate n 0, List.length_replicate⟩

theorem eq_zero_of_mem {b : Byte} (h : b ∈ (zero n).bytes) : b = 0 := List.eq_of_mem_replicate h

/-- A copy of `l` to position `i`, when it fits. -/
def set (i : Nat) (l : List Byte) (h : i + l.length ≤ n) : CArray n where
  bytes := a.bytes.take i ++ l ++ a.bytes.drop (i + l.length)
  length_eq := by
    have := a.length_eq
    simp only [List.length_append, List.length_take, List.length_drop]
    omega

/-- A copy of `l` to position `i`. -/
def store (i : Nat) (l : List Byte) : Except Fault (CArray n) :=
  if h : i + l.length ≤ n then .ok (a.set i l h) else .error .bounds

/-- The string an array holds.  Reading it runs out of an array without a NUL. -/
def str : Except Fault (List Byte) :=
  if 0 ∈ a.bytes then .ok (cstr a.bytes) else .error .bounds

/-- `strcpy(a, t)`, for a string `t`. -/
def strcpy (t : List Byte) : Except Fault (CArray n) := a.store 0 (t ++ [0])

/-- `strcat(a, t)`, for a string `t`. -/
def strcat (t : List Byte) : Except Fault (CArray n) := do
  let s ← a.str
  a.store s.length (t ++ [0])

/-- `strncpy(a, line, size)`. -/
def strncpy {m : Nat} (line : CArray m) (size : Nat) : Except Fault (CArray n) :=
  if 0 ∈ line.bytes ∨ size ≤ m then
    a.store 0 ((cstr line.bytes ++ List.replicate size 0).take size)
  else .error .bounds

/-- The array with `f` applied to every byte. -/
def map (f : Byte → Byte) : CArray n := ⟨a.bytes.map f, by rw [List.length_map, a.length_eq]⟩

/-! ### What a copy leaves behind -/

variable {a} {i : Nat} {l : List Byte}

theorem store_eq (h : i + l.length ≤ n) : a.store i l = .ok (a.set i l h) := dif_pos h

theorem store_eq_error (h : n < i + l.length) : a.store i l = .error .bounds :=
  dif_neg (by omega)

theorem set_bytes (h : i + l.length ≤ n) :
    (a.set i l h).bytes = a.bytes.take i ++ l ++ a.bytes.drop (i + l.length) := rfl

theorem set_zero_bytes (h : 0 + l.length ≤ n) :
    (a.set 0 l h).bytes = l ++ a.bytes.drop l.length := by simp [set_bytes]

theorem str_eq (h : 0 ∈ a.bytes) : a.str = .ok (cstr a.bytes) := if_pos h

theorem str_eq_error (h : 0 ∉ a.bytes) : a.str = .error .bounds := if_neg h

/-- A string is shorter than the array that holds it. -/
theorem str_length_lt {t : List Byte} (h : a.str = .ok t) : t.length < n := by
  by_cases hmem : 0 ∈ a.bytes
  · have hlen := cstr_length_lt hmem
    rw [str_eq hmem] at h
    rwa [a.length_eq, Except.ok.inj h] at hlen
  · rw [str_eq_error hmem] at h
    cases h

/-- A string that fits is copied whole. -/
theorem strcpy_eq {t : List Byte} (h : t.length < n) : ∃ b : CArray n,
    a.strcpy t = .ok b ∧ b.bytes = t ++ 0 :: a.bytes.drop (t.length + 1) := by
  have hfit : 0 + (t ++ [0]).length ≤ n := by simp; omega
  refine ⟨a.set 0 (t ++ [0]) hfit, store_eq hfit, ?_⟩
  rw [set_zero_bytes]
  simp

theorem strncpy_eq {m : Nat} {line : CArray m} {size : Nat} (h : size ≤ n) (hm : size ≤ m) :
    ∃ b : CArray n, a.strncpy line size = .ok b ∧
      b.bytes = (cstr line.bytes ++ List.replicate size 0).take size ++ a.bytes.drop size := by
  have hlen : ((cstr line.bytes ++ List.replicate size 0).take size).length = size := by simp
  have hfit : 0 + ((cstr line.bytes ++ List.replicate size 0).take size).length ≤ n := by omega
  refine ⟨a.set 0 _ hfit, ?_, ?_⟩
  · rw [strncpy, if_pos (Or.inr hm)]
    exact store_eq hfit
  · rw [set_zero_bytes, hlen]

theorem strncpy_eq_error {m : Nat} {line : CArray m} {size : Nat} (h : n < size) :
    a.strncpy line size = .error .bounds := by
  rw [strncpy]
  split
  · apply store_eq_error
    simpa using h
  · rfl

/-- `strcat` puts the second string in place of the NUL of the first. -/
theorem strcat_eq {s t r : List Byte} (hs : NulFree s) (ha : a.bytes = s ++ 0 :: r)
    (h : s.length + t.length < n) : ∃ b : CArray n,
    a.strcat t = .ok b ∧ b.bytes = s ++ t ++ 0 :: r.drop t.length := by
  have hfit : s.length + (t ++ [0]).length ≤ n := by simp; omega
  have hstr : a.str = .ok s := by
    rw [str_eq (by rw [ha]; simp), ha, cstr_append_zero hs]
  refine ⟨a.set s.length (t ++ [0]) hfit, ?_, ?_⟩
  · rw [strcat, hstr]
    exact store_eq hfit
  · simp [set_bytes, ha]

end CArray

/-! ## Characters and numerals -/

/-- `toupper` in the C locale, where a byte above 127 is no letter. -/
def toupper (b : Byte) : Byte := if 97 ≤ b ∧ b ≤ 122 then b - 32 else b

def isupper (b : Byte) : Bool := 65 ≤ b ∧ b ≤ 90

/-- `tolower` in the C locale. -/
def tolower (b : Byte) : Byte := if 65 ≤ b ∧ b ≤ 90 then b + 32 else b

/-- An upper-case letter is left alone by `toupper` as well. -/
theorem toupper_of_isupper {b : Byte} (h : isupper b) : toupper b = b := by
  have hb : 65 ≤ b ∧ b ≤ 90 := by simpa [isupper] using h
  refine if_neg fun hl => ?_
  exact absurd (UInt8.le_trans hl.1 hb.2) (by decide)

theorem toupper_ne_zero {b : Byte} (h : b ≠ 0) : toupper b ≠ 0 := by
  rw [toupper]
  split
  · rename_i hb
    intro h0
    have h1 : b.toNat - 32 = 0 := by
      have := congrArg UInt8.toNat h0
      rw [UInt8.toNat_sub_of_le _ _ (UInt8.le_trans (by decide) hb.1)] at this
      exact this
    have h2 : 97 ≤ b.toNat := hb.1
    omega
  · exact h

theorem tolower_ne_zero {b : Byte} (h : b ≠ 0) : tolower b ≠ 0 := by
  rw [tolower]
  split
  · rename_i hb
    intro h0
    have h1 : b.toNat + 32 = (b + 32).toNat := by
      have h2 : b.toNat ≤ 90 := hb.2
      rw [UInt8.toNat_add, Nat.mod_eq_of_lt (by simp; omega)]
      rfl
    rw [h0] at h1
    simp at h1
  · exact h

/-- `isspace`, in the C locale. -/
def isspace (b : Byte) : Bool := b = 32 ∨ 9 ≤ b ∧ b ≤ 13

def isdigit (b : Byte) : Bool := 48 ≤ b ∧ b ≤ 57

/-- The number a row of digits denotes. -/
def digitsValue (l : List Byte) : Nat := l.foldl (fun n b => 10 * n + (b.toNat - 48)) 0

def LONG_MAX : Int := 2 ^ 63 - 1
def INT_MAX : Nat := 2 ^ 31 - 1

/-- `atol`: blanks, a sign, digits; what follows is not looked at. -/
def atol (l : List Byte) : Int :=
  match l.dropWhile isspace with
  | 45 :: s => max (-LONG_MAX - 1) (-digitsValue (s.takeWhile isdigit))
  | 43 :: s => min LONG_MAX (digitsValue (s.takeWhile isdigit))
  | s => min LONG_MAX (digitsValue (s.takeWhile isdigit))

/-- The conversion of a `long` to `int`. -/
def toInt (n : Int) : Int := Int.bmod n (2 ^ 32)

/-- `%ld`, for a number that is not negative. -/
def decimal (n : Nat) : List Byte :=
  if n = 0 then [48] else (Nat.digits 10 n).reverse.map fun d => (48 + d).toUInt8

theorem digit_toNat {d : Nat} (h : d < 10) : ((48 + d).toUInt8).toNat - 48 = d := by
  simp
  omega

/-- The numeral of `n` denotes `n`. -/
theorem digitsValue_decimal (n : Nat) : digitsValue (decimal n) = n := by
  rw [decimal]
  split
  · rename_i h
    rw [h]
    rfl
  · have hlt : ∀ d ∈ Nat.digits 10 n, d < 10 := fun d hd => Nat.digits_lt_base (by decide) hd
    have hfold : ∀ l : List Nat, (∀ d ∈ l, d < 10) →
        digitsValue (l.reverse.map fun d => (48 + d).toUInt8) = Nat.ofDigits 10 l := by
      intro l hl
      induction l with
      | nil => rfl
      | cons d l ih =>
        have hd := digit_toNat (hl d (by simp))
        have ih := ih fun d hd => hl d (List.mem_cons_of_mem _ hd)
        rw [Nat.ofDigits_cons, ← ih]
        simp only [digitsValue, List.reverse_cons, List.map_append, List.map_cons, List.map_nil,
          List.foldl_append, List.foldl_cons, List.foldl_nil, hd]
        simp [Nat.add_comm]
    rw [hfold _ hlt, Nat.ofDigits_digits]

theorem decimal_ne_nil (n : Nat) : decimal n ≠ [] := by
  rw [decimal]
  split
  · exact List.cons_ne_nil _ _
  · rename_i h
    rw [ne_eq, List.map_eq_nil_iff, List.reverse_eq_nil_iff]
    exact Nat.digits_ne_nil_iff_ne_zero.mpr h

theorem isdigit_digit : ∀ d < 10, isdigit (48 + d).toUInt8 = true := by decide

theorem isdigit_of_mem_decimal {n : Nat} {b : Byte} (h : b ∈ decimal n) : isdigit b = true := by
  rw [decimal] at h
  split at h
  · rw [List.mem_singleton.mp h]
    rfl
  · obtain ⟨d, hd, rfl⟩ := List.mem_map.mp h
    exact isdigit_digit d (Nat.digits_lt_base (by decide) (List.mem_reverse.mp hd))

theorem isspace_of_isdigit {b : Byte} (h : isdigit b = true) : ¬ isspace b = true := by
  have hrange : 48 ≤ b ∧ b ≤ 57 := by simpa [isdigit] using h
  have hlow : 48 ≤ b.toNat := hrange.1
  rw [isspace, decide_eq_true_iff]
  rintro (rfl | hb)
  · exact absurd hlow (by decide)
  · have hhigh : b.toNat ≤ 13 := hb.2
    omega

/-- A digit is neither a blank nor a sign. -/
theorem atol_of_isdigit {b : Byte} (h : isdigit b = true) (s : List Byte) :
    atol (b :: s) = min LONG_MAX (digitsValue ((b :: s).takeWhile isdigit)) := by
  rw [atol, List.dropWhile_cons_of_neg (isspace_of_isdigit h)]
  split
  · rename_i heq
    rw [(List.cons.inj heq).1] at h
    exact absurd h (by decide)
  · rename_i heq
    rw [(List.cons.inj heq).1] at h
    exact absurd h (by decide)
  · rfl

/-- **`atol` reads back a numeral** that no digit follows. -/
theorem atol_decimal (n : Nat) {r : List Byte} (h : ∀ b ∈ r.head?, isdigit b = false) :
    atol (decimal n ++ r) = min LONG_MAX n := by
  have hdigits : (decimal n ++ r).takeWhile isdigit = decimal n := by
    rw [List.takeWhile_append_of_pos fun b hb => isdigit_of_mem_decimal hb]
    cases r with
    | nil => exact List.append_nil _
    | cons b r =>
      have hb : ¬ isdigit b = true := by rw [h b rfl]; exact Bool.false_ne_true
      rw [List.takeWhile_cons_of_neg hb, List.append_nil]
  obtain ⟨b, s, hbs⟩ := List.exists_cons_of_ne_nil (decimal_ne_nil n)
  have hb : isdigit b = true := isdigit_of_mem_decimal (hbs ▸ List.mem_cons_self)
  have hatol := atol_of_isdigit hb (s ++ r)
  rw [← List.cons_append, ← hbs, hdigits, digitsValue_decimal] at hatol
  exact hatol

end PosixNet
