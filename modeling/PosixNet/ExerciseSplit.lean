import PosixNet.CString

/-!
# `exercise`: the tokenizer

`split` counts the separators of a copy of its argument to size the token array,
and then lets `strtok` cut the copy.  The two disagree when separators are adjacent
or lead the text, and the assertions of lines 501 and 505 notice: `split_eq_ok` says
exactly when `split` returns.

The array it returns holds the tokens and a null pointer, so `result[k]` is a token,
null, or out of bounds (`deref`).
-/
namespace PosixNet.Exercise

def MAXBUFFER : Nat := 2048

/-- The loop of lines 479–487: the number of separators and the place of the last
one.  `tmp` is where the loop is. -/
def countLoop (separator : Byte) :
    (tmp : Nat) → List Byte → (count : Nat) → (last : Option Nat) → Nat × Option Nat
  | _, [], count, last => (count, last)
  | tmp, b :: s, count, last =>
    if separator = b then countLoop separator (tmp + 1) s (count + 1) (some tmp)
    else countLoop separator (tmp + 1) s count last

/-- The number of slots of the token array.  The comparison of line 489 is between
pointers, and a null pointer is below every other. -/
def slots (line : List Byte) (separator : Byte) : Nat :=
  let (count, last) := countLoop separator 0 line 0 none
  let trailing : Nat := match last with
    -- `last_delimiter` is null
    | none => 1
    | some last => if (last : Int) < line.length - 1 then 1 else 0
  count + trailing + 1

/-- The tokens `strtok` cuts off, in order: the pieces between separators that are
not empty. -/
def strtok (line : List Byte) (separator : Byte) : List (List Byte) :=
  (line.splitOn separator).filter (· ≠ [])

/-- The tokens in front of the null pointer that ends the array. -/
def split (read : List Byte) (separator : Byte) : Except Fault (List (List Byte)) :=
  if 256 < read.length + 1 then .error .bounds
  else if slots read separator < (strtok read separator).length then .error .assertion
  else if (strtok read separator).length ≠ slots read separator - 1 then .error .assertion
  else .ok (strtok read separator)

/-- `result[k]` as a string. -/
def deref (result : List (List Byte)) (k : Nat) : Except Fault (List Byte) :=
  match result[k]? with
  | some token => .ok token
  | none => if k = result.length then .error .null else .error .bounds

/-- `split` returns exactly if the text fits `line` and there are as many tokens as
slots for them. -/
theorem split_eq_ok {read : List Byte} {separator : Byte} {tokens : List (List Byte)} :
    split read separator = .ok tokens ↔ read.length ≤ 255 ∧ tokens = strtok read separator ∧
      tokens.length + 1 = slots read separator := by
  have hpos : 0 < slots read separator := Nat.succ_pos _
  simp only [split]
  constructor
  · intro h
    split at h
    · cases h
    split at h
    · cases h
    split at h
    · cases h
    cases h
    exact ⟨by omega, rfl, by omega⟩
  · rintro ⟨hlen, rfl, hslots⟩
    rw [if_neg (by omega), if_neg (by omega), if_neg (by omega)]

/-- The twelfth token of the message the author had in front of him. -/
example :
    (split (ascii "You have 5 seconds time to create your service at port 22074\n") space).bind
      (deref · 11) = .ok (ascii "22074\n") := by decide

end PosixNet.Exercise
