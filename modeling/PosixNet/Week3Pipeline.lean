import PosixNet.ReadLoop
import PosixNet.Lines

/-!
# `week3`: reader, converter and doubler

`teht1_1.c`, `teht1_2.c` and `teht1_3.c`, three programs joined by two FIFOs.  The
reader sends its whole buffer of 100 bytes for every read, so that the padding keeps the
lines apart on the first FIFO; the converter sends the string it finds in a frame, so
that nothing keeps them apart on the second one.  What the doubler prints with `printf`
besides the lines, their lengths, is left out.

The buffers are cleared at the end of a round but not before the first one, so the first
frame is the first line and whatever the reader's buffer held behind it.  If that is
without a NUL, `strlen` leaves the array and no line gets any further;
**`framed_iff`** says that in all other cases the framing is kept.
-/
namespace PosixNet.Week3

def maxBuffer : Nat := 100

abbrev Buffer := CArray maxBuffer

/-- What the three programs read and write. -/
inductive Chan where
  /-- Descriptor 1, `STDOUT_FILENO`, which is what line 37 of `teht1_1.c` reads for standard
  input. -/
  | stdin
  | myfifo1 | myfifo2 | stdout
  deriving DecidableEq

/-- `teht1_1`, `teht1_2` and `teht1_3`. -/
inductive Proc where
  | reader | converter | doubler
  deriving DecidableEq

/-- Lines 35–51 of `teht1_1.c`.  A read that returned nothing is not told apart from
the others: the test of line 37 is for -1. -/
def reader : ReadLoop Chan Buffer where
  input := .stdin
  output := .myfifo1
  size := maxBuffer
  body buffer bytes :=
    match fill buffer bytes with
    | .error f => .fault f
    | .ok (buffer, text) =>
      if text.length ≤ maxBuffer then .next [buffer.bytes] (.zero _)
      -- line 47
      else .next [] buffer

/-- Lines 46–49 of `teht1_2.c`. -/
def convert (b : Byte) : Byte := if isupper b then tolower b else toupper b

/-- Lines 41–55 of `teht1_2.c`. -/
def converter : ReadLoop Chan Buffer where
  input := .myfifo1
  output := .myfifo2
  size := maxBuffer
  body buffer bytes :=
    match fill buffer bytes with
    | .error f => .fault f
    | .ok (buffer, text) =>
      -- the loop of line 45 goes up to the first NUL
      match fill buffer (text.map convert) with
      | .error f => .fault f
      | .ok (_, text) => .next [text] (.zero _)

/-- Lines 36–46 of `teht1_3.c`. -/
def doubler : ReadLoop Chan Buffer where
  input := .myfifo2
  output := .stdout
  size := maxBuffer
  body buffer bytes :=
    match fill buffer bytes with
    | .error f => .fault f
    | .ok (_, text) => .next [text, text] (.zero _)

/-- The loop of a program. -/
def loop : Proc → ReadLoop Chan Buffer
  | .reader => reader
  | .converter => converter
  | .doubler => doubler

abbrev State := Net Chan fun _ : Proc => LoopState Buffer

abbrev Trace := List (State × (Proc × Io Chan))

abbrev Step := stepOf (Net.exec fun i => (loop i).program)

/-- The three processes, with what their buffers hold at first. -/
def start (buffer : Proc → Buffer) (stdin : List Byte) : State where
  proc i := .reading (buffer i)
  chan
    | .stdin => stdin
    | _ => []
  writers
    | .stdin => 0
    | _ => 1

/-! ## The rounds -/

section Rounds
variable {buffer : Buffer} {bytes : List Byte} {xs : List (List Byte)}

theorem convert_ne_zero {b : Byte} (h : b ≠ 0) : convert b ≠ 0 := by
  rw [convert]
  split
  · exact tolower_ne_zero h
  · exact toupper_ne_zero h

theorem reader_body (hlen : bytes.length ≤ maxBuffer) (h0 : 0 ∈ frame buffer bytes) :
    reader.body buffer bytes = .next [frame buffer bytes] (.zero _) := by
  obtain ⟨b, hb, hfill⟩ := fill_eq hlen h0
  have hshort : (cstr (frame buffer bytes)).length ≤ maxBuffer := by
    have hlt := cstr_length_lt h0
    rw [frame_length hlen] at hlt
    exact hlt.le
  simp only [reader, hfill, if_pos hshort, hb]

theorem reader_body_fault (hlen : bytes.length ≤ maxBuffer) (h0 : 0 ∉ frame buffer bytes) :
    reader.body buffer bytes = .fault .bounds := by
  simp only [reader, fill_eq_error hlen h0]

theorem converter_body (hlen : bytes.length ≤ maxBuffer) (h0 : 0 ∈ frame buffer bytes) :
    converter.body buffer bytes =
      .next [(cstr (frame buffer bytes)).map convert] (.zero _) := by
  obtain ⟨b, hb, hfill⟩ := fill_eq hlen h0
  obtain ⟨rest, hrest⟩ := exists_eq_cstr_append h0
  have hfree := (nulFree_cstr (frame buffer bytes)).map fun b => convert_ne_zero
  have hdrop := congrArg (List.drop (cstr (frame buffer bytes)).length) hrest
  rw [List.drop_left] at hdrop
  have hfits : Fits b ((cstr (frame buffer bytes)).map convert) := by
    rw [fits_iff, frame, hb, List.length_map, hdrop]
    exact ⟨rest, rfl⟩
  obtain ⟨h0', htext⟩ := hfits.cstr_frame hfree
  obtain ⟨b', -, hfill'⟩ := fill_eq hfits.length_lt.le h0'
  simp only [converter, hfill, hfill', htext]

theorem doubler_body (hlen : bytes.length ≤ maxBuffer) (h0 : 0 ∈ frame buffer bytes) :
    doubler.body buffer bytes =
      .next [cstr (frame buffer bytes), cstr (frame buffer bytes)] (.zero _) := by
  obtain ⟨b, -, hfill⟩ := fill_eq hlen h0
  simp only [doubler, hfill]

/-- The frames the reader sends for these reads. -/
def frames (buffer : Buffer) : List (List Byte) → List (List Byte)
  | [] => []
  | x :: xs => frame buffer x :: xs.map (frame (.zero maxBuffer))

theorem reader_rounds (hxs : ∀ x ∈ xs, x.length < maxBuffer)
    (h0 : ∀ x ∈ xs.head?, 0 ∈ frame buffer x) :
    ∃ b, reader.rounds buffer xs = (frames buffer xs, .running b) := by
  cases xs with
  | nil => exact ⟨buffer, rfl⟩
  | cons x xs =>
    have hfirst := reader_body (hxs x List.mem_cons_self).le (h0 x rfl)
    have hrest : reader.rounds (.zero _) xs =
        (xs.map (frame (.zero maxBuffer)), .running (.zero _)) :=
      ReadLoop.rounds_map fun y hy =>
        have hy := hxs y (List.mem_cons_of_mem _ hy)
        reader_body hy.le (fits_zero hy).zero_mem
    refine ⟨.zero _, ?_⟩
    rw [ReadLoop.rounds_next hfirst, hrest]
    rfl

/-- Without a NUL in the first frame nothing is sent. -/
theorem reader_rounds_fault {x : List Byte} (hlen : x.length ≤ maxBuffer)
    (h0 : 0 ∉ frame buffer x) (xs : List (List Byte)) :
    reader.rounds buffer (x :: xs) = ([], .fault .bounds) :=
  ReadLoop.rounds_fault (reader_body_fault hlen h0) xs

theorem frames_length (hxs : ∀ x ∈ xs, x.length < maxBuffer) :
    ∀ f ∈ frames buffer xs, f.length = maxBuffer := by
  cases xs with
  | nil => exact fun f hf => nomatch hf
  | cons x xs =>
    intro f hf
    rcases List.mem_cons.mp hf with rfl | hf
    · exact frame_length (hxs x List.mem_cons_self).le
    · obtain ⟨y, hy, rfl⟩ := List.mem_map.mp hf
      exact frame_length (hxs y (List.mem_cons_of_mem _ hy)).le

theorem frames_getElem? {k : Nat} (hk : 1 ≤ k) (xs : List (List Byte)) :
    (frames buffer xs)[k]? = xs[k]?.map (frame (.zero maxBuffer)) := by
  obtain ⟨k, rfl⟩ := Nat.exists_eq_add_of_le' hk
  cases xs with
  | nil => rfl
  | cons x xs => simp [frames]

/-- A whole frame leaves nothing of the buffer. -/
theorem frame_full (h : bytes.length = maxBuffer) : frame buffer bytes = bytes := by
  rw [frame, List.drop_of_length_le (by rw [buffer.length_eq, h]), List.append_nil]

/-- The converter sends the string of every frame. -/
theorem converter_rounds (buffer : Buffer) (hxs : ∀ x ∈ xs, x.length = maxBuffer ∧ 0 ∈ x) :
    ∃ b, converter.rounds buffer xs =
      (xs.map fun x => (cstr x).map convert, .running b) := by
  have hbody : ∀ x ∈ xs, ∀ b : Buffer,
      converter.body b x = .next [(cstr x).map convert] (.zero _) := fun x hx b => by
    obtain ⟨hlen, h0⟩ := hxs x hx
    have h : converter.body b x = _ := converter_body hlen.le (by rwa [frame_full hlen])
    rwa [frame_full hlen] at h
  cases xs with
  | nil => exact ⟨buffer, rfl⟩
  | cons x xs =>
    refine ⟨.zero _, ?_⟩
    rw [ReadLoop.rounds_next (hbody x List.mem_cons_self buffer),
      ReadLoop.rounds_map fun y hy => hbody y (List.mem_cons_of_mem _ hy) _]
    rfl

end Rounds

/-! ## The first FIFO -/

/-- The read of the converter gets a frame if there is one. -/
def FullRead (x : State × (Proc × Io Chan)) : Prop :=
  ∀ bytes ∈ reads .myfifo1 [x.2.2],
    maxBuffer ≤ (x.1.chan .myfifo1).length → bytes.length = maxBuffer

instance (x : State × (Proc × Io Chan)) : Decidable (FullRead x) :=
  inferInstanceAs (Decidable (∀ _ ∈ _, _ → _))

/-- **The framing of the first FIFO.** -/
structure Framed (tr : Trace) (s : State) : Prop where
  /-- The FIFO holds whole frames. -/
  whole : maxBuffer ∣ (s.chan .myfifo1).length
  /-- Every line that was read is in a frame that was sent, or about to be. -/
  sent : (reads .stdin (Net.events tr)).length =
    (writes .myfifo1 (Net.events tr)).length + (s.proc .reader).pending.length
  /-- The frames arrive as they were sent. -/
  arrived : reads .myfifo1 (Net.events tr) <+: writes .myfifo1 (Net.events tr)
  /-- Every frame that has arrived has been passed on, or is about to be. -/
  passed : (reads .myfifo1 (Net.events tr)).length =
    (writes .myfifo2 (Net.events tr)).length + (s.proc .converter).pending.length
  /-- A frame other than the first is its line and padding. -/
  frame : ∀ (k : Nat) (x : List Byte), 1 ≤ k → (reads .myfifo1 (Net.events tr))[k]? = some x →
    ∃ line, (reads .stdin (Net.events tr))[k]? = some line ∧
      x = line ++ List.replicate (maxBuffer - line.length) 0
  /-- What is passed on of it is the line, converted. -/
  converted : ∀ (k : Nat) (x : List Byte), 1 ≤ k →
    (writes .myfifo2 (Net.events tr))[k]? = some x →
      ∃ line, (reads .stdin (Net.events tr))[k]? = some line ∧ x = line.map convert

section Framing
variable {buffer : Proc → Buffer} {stdin : List Byte} {tr : Trace} {s : State}

theorem loop_input_inj (i j : Proc) (h : (loop i).input = (loop j).input) : i = j := by
  cases i <;> cases j <;> first | rfl | cases h

theorem loop_output_inj (i j : Proc) (h : (loop i).output = (loop j).output) : i = j := by
  cases i <;> cases j <;> first | rfl | cases h

/-- What a process has written and is about to write. -/
theorem written_run (run : Run Step (start buffer stdin) tr s) (i : Proc) :
    writes (loop i).output (Net.events tr) ++ (s.proc i).pending =
      ((loop i).rounds (buffer i) (reads (loop i).input (Net.events tr))).1 :=
  ReadLoop.written_net run loop_input_inj loop_output_inj rfl

theorem body_ne_finish (i : Proc) (b : Buffer) (x : List Byte) : (loop i).body b x ≠ .finish := by
  cases i with
  | reader =>
    simp only [loop, reader]
    split
    · exact fun h => nomatch h
    · split <;> exact fun h => nomatch h
  | converter =>
    simp only [loop, converter]
    split
    · exact fun h => nomatch h
    · split <;> exact fun h => nomatch h
  | doubler =>
    simp only [loop, doubler]
    split <;> exact fun h => nomatch h

/-- The FIFOs stay open. -/
theorem writers_run (run : Run Step (start buffer stdin) tr s) :
    s.writers = (start buffer stdin).writers :=
  (ReadLoop.never_closes run body_ne_finish fun _ => fun h => nomatch h).2

/-- The first line leaves a NUL in the buffer of the reader. -/
def Terminated (buffer : Buffer) (lines : List (List Byte)) : Prop :=
  ∀ x ∈ lines.head?, 0 ∈ buffer.bytes.drop x.length

instance (buffer : Buffer) (lines : List (List Byte)) : Decidable (Terminated buffer lines) :=
  inferInstanceAs (Decidable (∀ _ ∈ _, _))

/-- The frames that were sent, and the one that is about to be. -/
theorem sent_run (run : Run Step (start buffer stdin) tr s)
    (hlen : ∀ x ∈ reads .stdin (Net.events tr), x.length < maxBuffer)
    (hfirst : Terminated (buffer .reader) (reads .stdin (Net.events tr))) :
    writes .myfifo1 (Net.events tr) ++ (s.proc .reader).pending =
      frames (buffer .reader) (reads .stdin (Net.events tr)) := by
  obtain ⟨b, hb⟩ := reader_rounds hlen fun x hx => List.mem_append_right _ (hfirst x hx)
  exact (written_run run .reader).trans (congrArg Prod.fst hb)

/-- What is made of the frames that the converter has read. -/
theorem passed_run (run : Run Step (start buffer stdin) tr s)
    (hxs : ∀ x ∈ reads .myfifo1 (Net.events tr), x.length = maxBuffer ∧ 0 ∈ x) :
    writes .myfifo2 (Net.events tr) ++ (s.proc .converter).pending =
      (reads .myfifo1 (Net.events tr)).map fun x => (cstr x).map convert := by
  obtain ⟨b, hb⟩ := converter_rounds (buffer .converter) hxs
  exact (written_run run .converter).trans (congrArg Prod.fst hb)

theorem sent_length (run : Run Step (start buffer stdin) tr s)
    (hlen : ∀ x ∈ reads .stdin (Net.events tr), x.length < maxBuffer)
    (hfirst : Terminated (buffer .reader) (reads .stdin (Net.events tr))) :
    ∀ f ∈ writes .myfifo1 (Net.events tr), f.length = maxBuffer := fun f hf =>
  frames_length hlen f (sent_run run hlen hfirst ▸ List.mem_append_left _ hf)

/-- While whole frames arrive, whole frames are in flight. -/
theorem whole_of_length (run : Run Step (start buffer stdin) tr s)
    (hsent : ∀ f ∈ writes .myfifo1 (Net.events tr), f.length = maxBuffer)
    (harrived : ∀ x ∈ reads .myfifo1 (Net.events tr), x.length = maxBuffer) :
    reads .myfifo1 (Net.events tr) <+: writes .myfifo1 (Net.events tr) ∧
      maxBuffer ∣ (s.chan .myfifo1).length := by
  have hflow : (writes .myfifo1 (Net.events tr)).flatten = _ := Net.flow_run run .myfifo1
  have hdvd := dvd_flatten_length hsent
  refine ⟨prefix_of_flatten (Nat.succ_pos _) harrived hsent ⟨_, hflow.symm⟩, ?_⟩
  rw [hflow, List.length_append] at hdvd
  exact (Nat.dvd_add_right (dvd_flatten_length harrived)).mp hdvd

/-- **Whole frames arrive.**  The first thing to be in flight is a whole frame, so a read
takes one, and then the next frame is first. -/
theorem arrived_length (run : Run Step (start buffer stdin) tr s)
    (hlen : ∀ x ∈ reads .stdin (Net.events tr), x.length < maxBuffer)
    (hfirst : Terminated (buffer .reader) (reads .stdin (Net.events tr)))
    (hfull : ∀ x ∈ tr, FullRead x) :
    ∀ x ∈ reads .myfifo1 (Net.events tr), x.length = maxBuffer := by
  induction run with
  | nil => exact fun x hx => nomatch hx
  | @snoc tr u u' e run h ih =>
    rw [Net.events_append, Net.events_singleton, reads_append] at *
    have hlen := fun x hx => hlen x (List.mem_append_left _ hx)
    have hfirst' : Terminated (buffer .reader) (reads .stdin (Net.events tr)) := by
      intro x hx
      refine hfirst x ?_
      rw [List.head?_append, hx]
      rfl
    have ih := ih hlen hfirst' fun x hx => hfull x (List.mem_append_left _ hx)
    intro x hx
    rcases List.mem_append.mp hx with hx | hx
    · exact ih x hx
    · have hstep := Net.step_of_stepOf h
      have he : e.2 = .read .myfifo1 x := (List.mem_singleton.mp (mem_reads.mp hx)).symm
      have hdvd := (whole_of_length run (sent_length run hlen hfirst') ih).2
      refine hfull (u, e) (List.mem_append_right _ (List.mem_singleton_self _)) x hx ?_
      refine Nat.le_of_dvd (List.length_pos_iff.mpr fun hempty => ?_) hdvd
      -- an empty read is the end of the file, and the reader never closes it
      have hflow := hstep.flow .myfifo1
      rw [he, hempty, writes_read, reads_read] at hflow
      have hx0 : x = [] := by
        simpa using (List.append_eq_nil_iff.mp hflow.symm).1
      rw [hx0] at he
      have hclosed := hstep.eof .myfifo1 he
      rw [writers_run run] at hclosed
      cases hclosed

/-- Every frame has a NUL in it. -/
theorem zero_mem_frames {b : Buffer} {lines : List (List Byte)}
    (hlen : ∀ x ∈ lines, x.length < maxBuffer) (hfirst : Terminated b lines) :
    ∀ f ∈ frames b lines, 0 ∈ f := by
  cases lines with
  | nil => exact fun f hf => nomatch hf
  | cons x lines =>
    intro f hf
    rcases List.mem_cons.mp hf with rfl | hf
    · exact List.mem_append_right _ (hfirst x rfl)
    · obtain ⟨y, hy, rfl⟩ := List.mem_map.mp hf
      exact (fits_zero (hlen y (List.mem_cons_of_mem _ hy))).zero_mem

/-- A reader that has no NUL in its buffer does not get to its first frame. -/
theorem Framed.terminated (h : Framed tr s) (run : Run Step (start buffer stdin) tr s)
    (hlines : ∀ x ∈ reads .stdin (Net.events tr), NulFree x ∧ x.length < maxBuffer) :
    Terminated (buffer .reader) (reads .stdin (Net.events tr)) := by
  intro x hx
  by_contra h0
  obtain ⟨xs, hxs⟩ := List.head?_eq_some_iff.mp hx
  obtain ⟨hfree, hlen⟩ := hlines x (hxs ▸ List.mem_cons_self)
  have hfault := reader_rounds_fault hlen.le ((mem_frame hfree).not.mpr h0) xs
  have hwritten : writes .myfifo1 (Net.events tr) ++ (s.proc .reader).pending =
      (reader.rounds (buffer .reader) (reads .stdin (Net.events tr))).1 :=
    written_run run .reader
  have hsent := h.sent
  -- the reader has sent nothing, and has nothing to send
  rw [hxs, hfault, List.append_eq_nil_iff] at hwritten
  rw [hxs, hwritten.1, hwritten.2] at hsent
  cases hsent

/-- **The framing of the first FIFO.**  In every run in which the reader reads NUL-free
lines of 1 to 99 bytes it is kept if and only if the first of them leaves a NUL in the
reader's buffer, which nobody has cleared by then. -/
theorem framed_iff (run : Run Step (start buffer stdin) tr s)
    (hlines : ∀ x ∈ reads .stdin (Net.events tr), NulFree x ∧ 1 ≤ x.length ∧ x.length ≤ 99)
    (hfull : ∀ x ∈ tr, FullRead x) :
    Framed tr s ↔ Terminated (buffer .reader) (reads .stdin (Net.events tr)) := by
  have hlen : ∀ x ∈ reads .stdin (Net.events tr), x.length < maxBuffer := fun x hx =>
    Nat.lt_succ_of_le (hlines x hx).2.2
  constructor
  · intro h
    exact h.terminated run fun x hx => ⟨(hlines x hx).1, hlen x hx⟩
  · intro hfirst
    have hsent := sent_run run hlen hfirst
    have harrived := arrived_length run hlen hfirst hfull
    obtain ⟨hreceived, hwhole⟩ := whole_of_length run (sent_length run hlen hfirst) harrived
    have hzero : ∀ x ∈ reads .myfifo1 (Net.events tr), x.length = maxBuffer ∧ 0 ∈ x := by
      intro x hx
      refine ⟨harrived x hx, zero_mem_frames hlen hfirst x ?_⟩
      rw [← hsent]
      exact List.mem_append_left _ (hreceived.subset hx)
    have hpassed := passed_run run hzero
    have hframe : ∀ (k : Nat) (x : List Byte), 1 ≤ k →
        (reads .myfifo1 (Net.events tr))[k]? = some x →
        ∃ line, (reads .stdin (Net.events tr))[k]? = some line ∧
          x = frame (.zero maxBuffer) line := by
      intro k x hk hx
      have hx' : (frames (buffer .reader) (reads .stdin (Net.events tr)))[k]? = some x :=
        getElem?_of_isPrefix (hreceived.trans ⟨_, hsent⟩) hx
      rw [frames_getElem? hk, Option.map_eq_some_iff] at hx'
      obtain ⟨line, hline, rfl⟩ := hx'
      exact ⟨line, hline, rfl⟩
    refine ⟨hwhole, ?_, hreceived, ?_, ?_, ?_⟩
    · rw [← List.length_append, hsent]
      cases reads .stdin (Net.events tr) with
      | nil => rfl
      | cons x xs => simp [frames]
    · rw [← List.length_append, hpassed, List.length_map]
    · intro k x hk hx
      obtain ⟨line, hline, rfl⟩ := hframe k x hk hx
      exact ⟨line, hline, frame_zero⟩
    · intro k x hk hx
      have hx' : ((reads .myfifo1 (Net.events tr)).map fun x => (cstr x).map convert)[k]? =
          some x := getElem?_of_isPrefix ⟨_, hpassed⟩ hx
      rw [List.getElem?_map, Option.map_eq_some_iff] at hx'
      obtain ⟨f, hf, rfl⟩ := hx'
      obtain ⟨line, hline, rfl⟩ := hframe k f hk hf
      have hmem := List.mem_of_getElem? hline
      have htext := ((fits_zero (hlen line hmem)).cstr_frame (hlines line hmem).1).2
      exact ⟨line, hline, by rw [htext]⟩

end Framing

/-! ### Runs -/

/-- A buffer with the same byte everywhere. -/
def filled (b : Byte) : Buffer := ⟨List.replicate maxBuffer b, List.length_replicate⟩

/-- Two lines, each read, sent and passed on. -/
def twoLines : List (Proc × Nat) :=
  [(.reader, 2), (.reader, 0), (.reader, 3), (.reader, 0), (.converter, 100), (.converter, 0),
    (.converter, 100), (.converter, 0)]

theorem framed_twoLines : ∃ tr s,
    Run Step (start (fun _ => .zero _) (ascii "a\nBc\n")) tr s ∧ Framed tr s ∧
      writes .myfifo2 (Net.events tr) = [ascii "A\n", ascii "bC\n"] := by
  obtain ⟨tr, s, hrun, hlines, hfull, hfirst, hsent⟩ : ∃ tr s,
      Run Step (start (fun _ => .zero _) (ascii "a\nBc\n")) tr s ∧
        (∀ x ∈ reads .stdin (Net.events tr), NulFree x ∧ 1 ≤ x.length ∧ x.length ≤ 99) ∧
        (∀ x ∈ tr, FullRead x) ∧ Terminated (.zero _) (reads .stdin (Net.events tr)) ∧
        writes .myfifo2 (Net.events tr) = [ascii "A\n", ascii "bC\n"] :=
    ⟨_, _, run_get _ twoLines (start (fun _ => .zero _) (ascii "a\nBc\n")) (by decide +kernel),
      by decide +kernel, by decide +kernel, by decide +kernel, by decide +kernel⟩
  exact ⟨tr, s, hrun, (framed_iff hrun hlines hfull).mpr hfirst, hsent⟩

/-- The buffer of the reader holds no NUL when the first line is read. -/
theorem not_framed_without_nul :
    ¬ ∀ (buffer : Proc → Buffer) (stdin : List Byte) (tr : Trace) (s : State),
      Run Step (start buffer stdin) tr s →
      (∀ x ∈ reads .stdin (Net.events tr), NulFree x ∧ 1 ≤ x.length ∧ x.length ≤ 99) →
      (∀ x ∈ tr, FullRead x) → Framed tr s := by
  intro hall
  have hrun := run_get (Net.exec fun i => (loop i).program) [(.reader, 2)]
    (start (fun _ => filled 0x41) (ascii "a\n")) (by decide +kernel)
  have hsent := (hall _ _ _ _ hrun (by decide +kernel) (by decide +kernel)).sent
  exact absurd hsent (by decide +kernel)

end PosixNet.Week3
