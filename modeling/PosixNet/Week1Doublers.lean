import PosixNet.ReadLoop
import PosixNet.Lines

/-!
# `week1`: the two doublers

`teht2a.c`, with the file given as argument, and `teht2b.c`.  The first one takes line
after line with `getline` and prints it twice; as `getline` leaves the newline in the
line, the newline of the second `printf` makes an empty line (`teht2a_lines`).  The second
one writes the string it finds in its buffer after every read twice, which is a line only
where the reads are lines (`teht2b_doubles_iff`).

So the two agree on the empty text only (**`agree_iff`**).
-/
namespace PosixNet.Week1

/-! ## The version with stdio -/

/-- `getline`: the rest of the file up to its next newline, and nothing at its end. -/
def getline (file : List Byte) : List Byte := fgets file.length file

theorem getline_length {file : List Byte} (h : file ≠ []) :
    (file.drop (getline file).length).length < file.length := by
  obtain ⟨b, s, rfl⟩ := List.exists_cons_of_ne_nil h
  rw [getline, List.length_cons, fgets, List.length_drop, List.length_cons, List.length_cons]
  omega

/-- Lines 36–40 of `teht2a.c`. -/
def teht2a (file : List Byte) : List Byte :=
  if _h : file = [] then []
  else
    let line := getline file
    cstr line ++ (cstr line ++ [newline]) ++ teht2a (file.drop line.length)
termination_by file.length
decreasing_by exact getline_length ‹_›

/-! ## The version with system calls -/

def bufferSize : Nat := 500

/-- Standard input and standard output. -/
inductive Chan where
  | stdin | stdout
  deriving DecidableEq

/-- Lines 30–39 of `teht2b.c`. -/
def teht2b : ReadLoop Chan (CArray bufferSize) where
  input := .stdin
  output := .stdout
  size := bufferSize
  body buffer bytes :=
    if bytes = [] then .finish
    else match fill buffer bytes with
      | .error f => .fault f
      | .ok (_, text) => .next [text, text] (.zero _)

/-- What `teht2b` writes, and how it ends; line 29 has cleared the buffer. -/
def run (segs : List (List Byte)) : List (List Byte) × LoopEnd (CArray bufferSize) :=
  teht2b.rounds (.zero _) (segs ++ [[]])

/-- One way for `teht2b` to read the text of these lines. -/
structure Cut (lines segs : List (List Byte)) : Prop where
  read : ∀ p ∈ segs, p ≠ [] ∧ p.length ≤ 499
  whole : segs.flatten = lines.flatten

/-- Both write every line twice and nothing else. -/
def Agree (lines segs : List (List Byte)) : Prop :=
  teht2a lines.flatten = doubled lines ∧
    ∃ ws, run segs = (ws, .finished) ∧ ws.flatten = doubled lines

variable {lines segs : List (List Byte)} {l : List Byte}

/-! ## What they write -/

theorem getline_append (hl : IsLine l) (rest : List Byte) : getline (l ++ rest) = l := by
  obtain ⟨body, rfl, hbody⟩ := hl.exists_body
  rw [getline, List.append_assoc]
  refine fgets_line hbody rest ?_
  simp only [List.length_append, List.length_singleton]
  omega

theorem teht2a_append (hl : IsLine l) (hfree : NulFree l) (rest : List Byte) :
    teht2a (l ++ rest) = l ++ l ++ [newline] ++ teht2a rest := by
  have hne : l ++ rest ≠ [] := List.append_ne_nil_of_left_ne_nil hl.ne_nil _
  rw [teht2a, dif_neg hne]
  simp only [getline_append hl, cstr_eq_self hfree, List.drop_left, List.append_assoc]

/-- **The stdio version** writes an empty line after every pair. -/
theorem teht2a_lines (hlines : ∀ l ∈ lines, IsLine l ∧ NulFree l) :
    teht2a lines.flatten = lines.flatMap fun l => l ++ l ++ [newline] := by
  induction lines with
  | nil => rw [teht2a, List.flatten_nil, dif_pos rfl, List.flatMap_nil]
  | cons l lines ih =>
    obtain ⟨hl, hfree⟩ := hlines l List.mem_cons_self
    rw [List.flatten_cons, teht2a_append hl hfree,
      ih fun x hx => hlines x (List.mem_cons_of_mem _ hx), List.flatMap_cons]

theorem teht2a_length (hlines : ∀ l ∈ lines, IsLine l ∧ NulFree l) :
    (teht2a lines.flatten).length = (doubled lines).length + lines.length := by
  rw [teht2a_lines hlines]
  clear hlines
  induction lines with
  | nil => rfl
  | cons l lines ih =>
    simp only [List.flatMap_cons, doubled_cons, List.length_append, List.length_cons,
      List.length_nil, ih]
    omega

/-- **The version with system calls** writes every read twice. -/
theorem run_eq (hsegs : ∀ p ∈ segs, p ≠ [] ∧ p.length ≤ 499) (hfree : ∀ p ∈ segs, NulFree p) :
    run segs = (segs.flatMap fun p => [p, p], .finished) := by
  have hbody : ∀ p ∈ segs, teht2b.body (.zero _) p = .next [p, p] (.zero _) := fun p hp => by
    obtain ⟨hne, hlen⟩ := hsegs p hp
    have hshort : p.length < bufferSize := Nat.lt_succ_of_le hlen
    obtain ⟨h0, htext⟩ := (fits_zero hshort).cstr_frame (hfree p hp)
    obtain ⟨b, -, hfill⟩ := fill_eq hshort.le h0
    simp only [teht2b, if_neg hne, hfill, htext]
  have hend : teht2b.body (.zero _) [] = .finish := by simp [teht2b]
  rw [run, ReadLoop.rounds_append (ReadLoop.rounds_steady hbody), ReadLoop.rounds_finish hend,
    List.append_nil]

theorem Cut.nulFree (hcut : Cut lines segs) (hlines : ∀ l ∈ lines, IsLine l ∧ NulFree l) :
    ∀ p ∈ segs, NulFree p :=
  nulFree_flatten.mp (hcut.whole ▸ nulFree_flatten.mpr fun l hl => (hlines l hl).2)

/-- The version with system calls doubles the lines if every read is one line, or several
that are the same. -/
theorem teht2b_doubles_iff (hlines : ∀ l ∈ lines, IsLine l ∧ NulFree l)
    (hcut : Cut lines segs) :
    (∃ ws, run segs = (ws, .finished) ∧ ws.flatten = doubled lines) ↔ ∀ p ∈ segs, Copies p := by
  rw [run_eq hcut.read (hcut.nulFree hlines),
    ← doubled_eq_iff (fun l hl => (hlines l hl).1) (fun p hp => (hcut.read p hp).1) hcut.whole,
    ← flatten_pairs segs]
  constructor
  · rintro ⟨ws, hws, htext⟩
    rw [(Prod.mk.inj hws).1, htext]
  · exact fun h => ⟨_, rfl, h⟩

/-- **When the two doublers agree**: on the empty text, and on no other. -/
theorem agree_iff (hlines : ∀ l ∈ lines, IsLine l ∧ NulFree l) (hcut : Cut lines segs) :
    Agree lines segs ↔ lines = [] := by
  constructor
  · rintro ⟨hstdio, -⟩
    have hlen := teht2a_length hlines
    rw [hstdio] at hlen
    exact List.eq_nil_of_length_eq_zero (by omega)
  · rintro rfl
    refine ⟨by rw [teht2a_lines hlines]; rfl, ?_⟩
    have hnil : segs = [] := by
      refine List.eq_nil_iff_forall_not_mem.mpr fun p hp => (hcut.read p hp).1 ?_
      exact List.flatten_eq_nil_iff.mp hcut.whole p hp
    rw [hnil, run_eq (by simp) (by simp)]
    exact ⟨[], rfl, rfl⟩

/-- Two lines, cut inside of the second. -/
theorem not_agree_two_lines : ¬ Agree [ascii "ab\n", ascii "cd\n"] [ascii "ab\nc", ascii "d\n"] :=
  (agree_iff (by decide) ⟨by decide, by decide⟩).not.mpr (List.cons_ne_nil _ _)

/-- One line of one character, in one read. -/
theorem not_agree_one_line :
    ¬ ∀ lines segs : List (List Byte), (∀ l ∈ lines, IsLine l ∧ NulFree l ∧ l.length ≤ 499) →
      Cut lines segs → Agree lines segs := by
  intro hall
  have hagree := hall [ascii "a\n"] [ascii "a\n"] (by decide) ⟨by decide, by decide⟩
  have hlen := @teht2a_length [ascii "a\n"] (by decide)
  rw [hagree.1] at hlen
  exact absurd hlen (by decide)

end PosixNet.Week1
