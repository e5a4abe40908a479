import PosixNet.Week3Pipeline
import PosixNet.Week5Transfer

/-!
# `week3` and `week5`: what is sent besides the input

The reader of `week3` and the client of `week5` send their whole buffer for every read.
Behind the read there are the zeros of the `memset` at the end of the last round, but for
the first read, behind which there is whatever the buffer held when the program started.

**`sendsOnlyInput_iff`**: what is sent does not depend on that, and is the input and zeros,
exactly if there are zeros behind the first read.
-/
namespace PosixNet

/-! ## Loops that send their buffer -/

/-- A read, made up with zeros to the size of the buffer. -/
def padded (n : Nat) (x : List Byte) : List Byte := x ++ List.replicate (n - x.length) 0

/-- Nothing but zeros behind the first read. -/
def ZeroBehind {n : Nat} (buffer : CArray n) (xs : List (List Byte)) : Prop :=
  ∀ x ∈ xs.head?, ∀ c ∈ buffer.bytes.drop x.length, c = 0

instance {n : Nat} (buffer : CArray n) (xs : List (List Byte)) : Decidable (ZeroBehind buffer xs) :=
  inferInstanceAs (Decidable (∀ _ ∈ _, _))

namespace ReadLoop
variable {χ : Type} {n : Nat}

/-- With either of two buffers to start with, the same blocks are sent for these reads,
each of them one read and zeros. -/
structure OnlyInput (L : ReadLoop χ (CArray n)) (buffer buffer' : CArray n)
    (xs : List (List Byte)) : Prop where
  same : (L.rounds buffer xs).1 = (L.rounds buffer' xs).1
  padded : (L.rounds buffer xs).1 = xs.map (padded n)

/-- The body sends the whole buffer, unless a search for a NUL in it fails, and clears it. -/
structure SendsBuffer (L : ReadLoop χ (CArray n)) : Prop where
  next : ∀ b x, x ≠ [] → x.length < n → 0 ∈ frame b x →
    L.body b x = .next [frame b x] (.zero n)
  other : ∀ b x, x ≠ [] → x.length < n → 0 ∉ frame b x →
    L.body b x = .next [frame b x] (.zero n) ∨ ∃ f, L.body b x = .fault f

variable {L : ReadLoop χ (CArray n)} {buffer buffer' : CArray n} {x : List Byte}
  {xs : List (List Byte)}

theorem frame_eq_padded_iff : frame buffer x = padded n x ↔
    ∀ c ∈ buffer.bytes.drop x.length, c = 0 := by
  have hlen : (buffer.bytes.drop x.length).length = n - x.length := by
    rw [List.length_drop, buffer.length_eq]
  rw [frame, padded, List.append_cancel_left_eq, List.eq_replicate_iff]
  exact and_iff_right hlen

/-- **What is sent**, from any buffer. -/
theorem SendsBuffer.rounds_padded_iff (hL : SendsBuffer L) (hxs : ∀ x ∈ xs, x ≠ [] ∧ x.length < n) :
    (L.rounds buffer xs).1 = xs.map (padded n) ↔ ZeroBehind buffer xs := by
  cases xs with
  | nil => exact ⟨fun _ x hx => (nomatch hx), fun _ => rfl⟩
  | cons x xs =>
    obtain ⟨hne, hlen⟩ := hxs x List.mem_cons_self
    have hbehind : ZeroBehind buffer (x :: xs) ↔ frame buffer x = padded n x := by
      rw [frame_eq_padded_iff, ZeroBehind]
      simp
    have hrest : (L.rounds (.zero n) xs).1 = xs.map (padded n) := by
      have hbody : ∀ y ∈ xs, L.body (.zero n) y = .next [padded n y] (.zero n) := fun y hy => by
        obtain ⟨hy', hlt⟩ := hxs y (List.mem_cons_of_mem _ hy)
        have h := hL.next (.zero n) y hy' hlt (fits_zero hlt).zero_mem
        rwa [frame_zero] at h
      rw [rounds_map hbody]
    have hnext : L.body buffer x = .next [frame buffer x] (.zero n) →
        ((L.rounds buffer (x :: xs)).1 = (x :: xs).map (padded n) ↔
          ZeroBehind buffer (x :: xs)) := fun hbody => by
      rw [rounds_next hbody, hrest, hbehind, List.map_cons, List.singleton_append,
        List.cons.injEq]
      exact and_iff_left rfl
    by_cases h0 : 0 ∈ frame buffer x
    · exact hnext (hL.next buffer x hne hlen h0)
    · rcases hL.other buffer x hne hlen h0 with hbody | ⟨f, hbody⟩
      · exact hnext hbody
      · -- zeros behind the read would have ended the search
        rw [rounds_fault hbody, hbehind]
        refine ⟨fun h => (nomatch h), fun h => absurd ?_ h0⟩
        rw [h, padded]
        refine List.mem_append_right _ (List.mem_replicate.mpr ⟨?_, rfl⟩)
        omega

/-- **When only the input is sent.** -/
theorem SendsBuffer.onlyInput_iff (hL : SendsBuffer L)
    (hxs : ∀ x ∈ xs, x ≠ [] ∧ x.length < n) :
    OnlyInput L buffer buffer' xs ↔ ZeroBehind buffer xs ∧ ZeroBehind buffer' xs := by
  rw [← hL.rounds_padded_iff hxs, ← hL.rounds_padded_iff hxs]
  exact ⟨fun h => ⟨h.padded, h.same ▸ h.padded⟩, fun h => ⟨h.1.trans h.2.symm, h.1⟩⟩

end ReadLoop

/-! ## The two programs -/

theorem Week3.sendsBuffer : ReadLoop.SendsBuffer Week3.reader where
  next _ _ _ hlen h0 := reader_body hlen.le h0
  other _ _ _ hlen h0 := .inr ⟨_, reader_body_fault hlen.le h0⟩

theorem Week5.sendsBuffer : ReadLoop.SendsBuffer Week5.client where
  next _ _ hne hlen _ := client_body hne hlen.le
  other _ _ hne hlen _ := .inl (client_body hne hlen.le)

/-- **When only input and zeros are sent.**  For reads that are not empty and do not fill
the buffer, and any two contents of it at first: exactly if there is no read, or both
buffers are zero behind the first one. -/
theorem sendsOnlyInput_iff {xs ys : List (List Byte)} (buffer buffer' : Week3.Buffer)
    (buffer₅ buffer₅' : Week5.Buffer)
    (hxs : ∀ x ∈ xs, 1 ≤ x.length ∧ x.length ≤ Week3.maxBuffer - 1)
    (hys : ∀ y ∈ ys, 1 ≤ y.length ∧ y.length ≤ Week5.maxBuffer - 1) :
    (ReadLoop.OnlyInput Week3.reader buffer buffer' xs ↔
      ZeroBehind buffer xs ∧ ZeroBehind buffer' xs) ∧
    (ReadLoop.OnlyInput Week5.client buffer₅ buffer₅' ys ↔
      ZeroBehind buffer₅ ys ∧ ZeroBehind buffer₅' ys) := by
  constructor
  · refine Week3.sendsBuffer.onlyInput_iff fun x hx => ?_
    obtain ⟨hpos, hlen⟩ := hxs x hx
    exact ⟨List.ne_nil_of_length_pos hpos, Nat.lt_of_le_pred (by decide) hlen⟩
  · refine Week5.sendsBuffer.onlyInput_iff fun y hy => ?_
    obtain ⟨hpos, hlen⟩ := hys y hy
    exact ⟨List.ne_nil_of_length_pos hpos, Nat.lt_of_le_pred (by decide) hlen⟩

/-- The letter `A` in front, and a zero at the end. -/
def letterFirst (n : Nat) (h : 0 < n) : CArray n where
  bytes := 0x41 :: List.replicate (n - 1) 0
  length_eq := by
    rw [List.length_cons, List.length_replicate]
    omega

/-- The first read overwrites all that the buffer held. -/
theorem sendsOnlyInput_two_lines :
    ReadLoop.OnlyInput Week3.reader (.zero _) (letterFirst _ (by decide))
      [ascii "a\n", ascii "bc\n"] ∧
    ReadLoop.OnlyInput Week5.client (.zero _) (letterFirst _ (by decide))
      [ascii "a\n", ascii "bc\n"] := by
  obtain ⟨hweek3, hweek5⟩ := sendsOnlyInput_iff (.zero _) (letterFirst _ (by decide)) (.zero _)
    (letterFirst _ (by decide)) (show ∀ x ∈ [ascii "a\n", ascii "bc\n"], _ by decide)
    (show ∀ y ∈ [ascii "a\n", ascii "bc\n"], _ by decide)
  exact ⟨hweek3.mpr ⟨by decide +kernel, by decide +kernel⟩,
    hweek5.mpr ⟨by decide +kernel, by decide +kernel⟩⟩

/-- The client of `week5` reads a newline and sends a letter behind it. -/
theorem not_sendsOnlyInput_letters :
    ¬ ((∀ (xs : List (List Byte)) (buffer buffer' : Week3.Buffer),
        (∀ x ∈ xs, 1 ≤ x.length ∧ x.length ≤ Week3.maxBuffer - 1) →
        ReadLoop.OnlyInput Week3.reader buffer buffer' xs) ∧
      (∀ (xs : List (List Byte)) (buffer buffer' : Week5.Buffer),
        (∀ x ∈ xs, 1 ≤ x.length ∧ x.length ≤ Week5.maxBuffer - 1) →
        ReadLoop.OnlyInput Week5.client buffer buffer' xs)) := by
  rintro ⟨-, hall⟩
  have hsame := (hall [[newline]] (.zero _) Week5.letters (by decide)).same
  exact absurd hsame (by decide +kernel)

end PosixNet
