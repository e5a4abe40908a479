import PosixNet.Week3Pipeline

/-!
# `week3`: what the pipeline writes

The task asks for the lines of at most 100 bytes, in upper case and each twice in a row
(`expected`), and the programs miss it in four ways: a read is taken for a line, by the
reader and by the doubler; letters in upper case are turned into lower case; what the
buffers hold before the first read can be taken for the end of the first line; and the
reader goes on sending frames at end of file.

**`pipeline_correct`** says that nothing else can go wrong: in every run in which the
reads meet none of these (`Smooth`), what has been written is the beginning of what was
asked for.
-/
namespace PosixNet.Week3

/-- What the task asks for. -/
def expected (lines : List (List Byte)) : List Byte :=
  doubled ((lines.filter fun l => l.length ≤ 100).map fun l => l.map toupper)

/-- The pipeline does what the task asks for, so far. -/
structure Correct (lines : List (List Byte)) (tr : Trace) (s : State) : Prop where
  output : s.chan .stdout <+: expected lines
  /-- When it has seen the end of its input, the reader writes nothing any more. -/
  eof : ∀ pre u post, tr = pre ++ (u, (.reader, .read .stdin [])) :: post →
    ∀ bytes ∈ writes .myfifo1 (Net.events post), bytes = []

/-- Reads that the programs can deal with. -/
structure Smooth (buffer : Proc → Buffer) (tr : Trace) : Prop where
  /-- The reader is not at end of file, its buffer is not full, and there is no letter
  that the converter would turn into lower case. -/
  stdin : ∀ x ∈ reads .stdin (Net.events tr),
    x ≠ [] ∧ x.length < maxBuffer ∧ ∀ b ∈ x, isupper b = false
  firstLine : ∀ x ∈ (reads .stdin (Net.events tr)).head?, Fits (buffer .reader) x
  wholeFrames : ∀ x ∈ reads .myfifo1 (Net.events tr), x.length = maxBuffer
  /-- The doubler gets one line, or several that are the same. -/
  lines : ∀ x ∈ reads .myfifo2 (Net.events tr), x.length < maxBuffer ∧ Copies x
  firstRead : ∀ x ∈ (reads .myfifo2 (Net.events tr)).head?, Fits (buffer .doubler) x

/-! ## Upper case -/

theorem map_convert_eq {x : List Byte} (h : ∀ b ∈ x, isupper b = false) :
    x.map convert = x.map toupper :=
  List.map_congr_left fun b hb => by simp [convert, h b hb]

theorem toupper_eq_newline {b : Byte} : toupper b = newline ↔ b = newline := by
  constructor
  · intro h
    rw [toupper] at h
    split at h
    · rename_i hb
      have h1 := congrArg UInt8.toNat h
      rw [UInt8.toNat_sub_of_le _ _ (UInt8.le_trans (by decide) hb.1)] at h1
      have h2 : 97 ≤ b.toNat := hb.1
      change b.toNat - 32 = 10 at h1
      omega
    · exact h
  · rintro rfl
    rfl

theorem isLine_map_toupper {l : List Byte} (h : IsLine l) : IsLine (l.map toupper) := by
  obtain ⟨body, rfl, hbody⟩ := h.exists_body
  rw [List.map_append]
  refine isLine_append fun hmem => ?_
  obtain ⟨b, hb, hnew⟩ := List.mem_map.mp hmem
  exact hbody (toupper_eq_newline.mp hnew ▸ hb)

/-! ## The three processes -/

section Run
variable {buffer : Proc → Buffer} {lines : List (List Byte)} {tr : Trace} {s : State}

theorem Smooth.terminated (h : Smooth buffer tr) :
    Terminated (buffer .reader) (reads .stdin (Net.events tr)) := fun x hx => by
  have hfits := h.firstLine x hx
  rw [Fits, ← List.head?_drop] at hfits
  exact List.mem_of_mem_head? hfits

/-- The strings in the frames are the lines. -/
theorem cstr_frames {b : Buffer} {xs : List (List Byte)} (hfree : ∀ x ∈ xs, NulFree x)
    (hlen : ∀ x ∈ xs, x.length < maxBuffer) (hfirst : ∀ x ∈ xs.head?, Fits b x) :
    (frames b xs).map cstr = xs := by
  cases xs with
  | nil => rfl
  | cons x xs =>
    have hx := (hfirst x rfl).cstr_frame (hfree x List.mem_cons_self)
    rw [frames, List.map_cons, hx.2, List.map_map]
    refine congrArg (x :: ·) ((List.map_congr_left fun y hy => ?_).trans (List.map_id xs))
    exact ((fits_zero (hlen y (List.mem_cons_of_mem _ hy))).cstr_frame
      (hfree y (List.mem_cons_of_mem _ hy))).2

/-- What the reader reads is the beginning of the text. -/
theorem stdin_prefix (run : Run Step (start buffer lines.flatten) tr s) :
    (reads .stdin (Net.events tr)).flatten <+: lines.flatten := by
  have hflow : lines.flatten = (reads .stdin (Net.events tr)).flatten ++ s.chan .stdin :=
    ReadLoop.source_run run .stdin fun i h => by cases i <;> cases h
  exact ⟨_, hflow.symm⟩

/-- **The second FIFO** carries the beginning of the text, in upper case. -/
theorem Smooth.converted (h : Smooth buffer tr) (hlines : ∀ l ∈ lines, NulFree l)
    (run : Run Step (start buffer lines.flatten) tr s) :
    (writes .myfifo2 (Net.events tr)).flatten <+: (lines.map fun l => l.map toupper).flatten := by
  have hread := stdin_prefix run
  have hfree := nulFree_flatten.mp ((nulFree_flatten.mpr hlines).of_isPrefix hread)
  have hlen := fun x hx => (h.stdin x hx).2.1
  have hflow : (writes .myfifo1 (Net.events tr)).flatten = _ := Net.flow_run run .myfifo1
  have hsent : writes .myfifo1 (Net.events tr) <+:
      frames (buffer .reader) (reads .stdin (Net.events tr)) := ⟨_, sent_run run hlen h.terminated⟩
  have harrived : reads .myfifo1 (Net.events tr) <+:
      frames (buffer .reader) (reads .stdin (Net.events tr)) := by
    refine (prefix_of_flatten (Nat.succ_pos _) h.wholeFrames (fun f hf => ?_)
      ⟨_, hflow.symm⟩).trans hsent
    exact frames_length hlen f (hsent.subset hf)
  have htexts := cstr_frames hfree hlen h.firstLine
  -- what the converter makes of its frames
  have hwritten := passed_run run fun x hx =>
    ⟨h.wholeFrames x hx, zero_mem_frames hlen h.terminated x (harrived.subset hx)⟩
  have hlines : writes .myfifo2 (Net.events tr) <+:
      (reads .stdin (Net.events tr)).map fun x => x.map toupper := by
    calc writes .myfifo2 (Net.events tr)
        <+: (reads .myfifo1 (Net.events tr)).map fun x => (cstr x).map convert := ⟨_, hwritten⟩
      _ <+: (frames (buffer .reader) (reads .stdin (Net.events tr))).map
          fun x => (cstr x).map convert := harrived.map _
      _ = ((frames (buffer .reader) (reads .stdin (Net.events tr))).map cstr).map
          fun x => x.map convert := (List.map_map ..).symm
      _ = (reads .stdin (Net.events tr)).map fun x => x.map toupper := by
        rw [htexts]
        exact List.map_congr_left fun x hx => map_convert_eq (h.stdin x hx).2.2
  rw [← List.map_flatten]
  refine (prefix_flatten hlines).trans ?_
  rw [← List.map_flatten]
  exact hread.map _

theorem doubler_rounds {b : Buffer} {xs : List (List Byte)} (hfree : ∀ x ∈ xs, NulFree x)
    (hlen : ∀ x ∈ xs, x.length < maxBuffer) (hfirst : ∀ x ∈ xs.head?, Fits b x) :
    ∃ b', doubler.rounds b xs = (xs.flatMap fun x => [x, x], .running b') := by
  have hbody : ∀ x ∈ xs, ∀ b : Buffer, Fits b x →
      doubler.body b x = .next [x, x] (.zero _) := fun x hx b hfits => by
    obtain ⟨h0, htext⟩ := hfits.cstr_frame (hfree x hx)
    have h := doubler_body (hlen x hx).le h0
    rwa [htext] at h
  cases xs with
  | nil => exact ⟨b, rfl⟩
  | cons x xs =>
    refine ⟨.zero _, ?_⟩
    rw [ReadLoop.rounds_next (hbody x List.mem_cons_self b (hfirst x rfl)),
      ReadLoop.rounds_steady fun y hy => hbody y (List.mem_cons_of_mem _ hy) _
        (fits_zero (hlen y (List.mem_cons_of_mem _ hy)))]
    rfl

/-- Standard output is the reads of the doubler, doubled. -/
theorem Smooth.doubled (h : Smooth buffer tr) (hlines : ∀ l ∈ lines, NulFree l)
    (run : Run Step (start buffer lines.flatten) tr s) :
    s.chan .stdout <+: doubled (reads .myfifo2 (Net.events tr)) := by
  have hflow : (writes .stdout (Net.events tr)).flatten = s.chan .stdout :=
    ReadLoop.sink_run run .stdout fun i h => by cases i <;> cases h
  have hfree : ∀ x ∈ reads .myfifo2 (Net.events tr), NulFree x := by
    have hflow : (writes .myfifo2 (Net.events tr)).flatten = _ := Net.flow_run run .myfifo2
    refine nulFree_flatten.mp (NulFree.of_isPrefix (nulFree_flatten.mpr fun l hl => ?_)
      (List.IsPrefix.trans ⟨_, hflow.symm⟩ (h.converted hlines run)))
    obtain ⟨line, hline, rfl⟩ := List.mem_map.mp hl
    exact (hlines line hline).map fun b => toupper_ne_zero
  obtain ⟨b, hb⟩ := doubler_rounds hfree (fun x hx => (h.lines x hx).1) h.firstRead
  have hwritten : writes .stdout (Net.events tr) ++ (s.proc .doubler).pending =
      (reads .myfifo2 (Net.events tr)).flatMap fun x => [x, x] :=
    (written_run run .doubler).trans (congrArg Prod.fst hb)
  rw [← hflow, ← flatten_pairs, ← hwritten]
  exact prefix_flatten (List.prefix_append _ _)

/-- **The pipeline.**  In every run with smooth reads, what has been written is the
beginning of what was asked for. -/
theorem pipeline_correct (hlines : ∀ l ∈ lines, IsLine l ∧ NulFree l)
    (run : Run Step (start buffer lines.flatten) tr s) (h : Smooth buffer tr) :
    Correct lines tr s := by
  have hfree := fun l hl => (hlines l hl).2
  constructor
  · have hflow : (writes .myfifo2 (Net.events tr)).flatten = _ := Net.flow_run run .myfifo2
    have hfifo : (reads .myfifo2 (Net.events tr)).flatten <+:
        (lines.map fun l => l.map toupper).flatten :=
      List.IsPrefix.trans ⟨_, hflow.symm⟩ (h.converted hfree run)
    obtain ⟨ls, hls, htext, hdouble, hlen⟩ :=
      exists_lines_of_copies fun x hx => (h.lines x hx).2
    -- the doubler has read the first lines of the text, all of which fit
    obtain ⟨rest, hrest⟩ : ls <+: lines.map fun l => l.map toupper := by
      refine lines_prefix hls (fun l hl => ?_) (htext ▸ hfifo)
      obtain ⟨line, hline, rfl⟩ := List.mem_map.mp hl
      exact isLine_map_toupper (hlines line hline).1
    obtain ⟨front, back, rfl, rfl, rfl⟩ := List.append_eq_map_iff.mp hrest
    have hshort : front.filter (fun l => l.length ≤ 100) = front := by
      refine List.filter_eq_self.mpr fun l hl => ?_
      obtain ⟨x, hx, hle⟩ := hlen _ (List.mem_map_of_mem hl)
      have hlt := (h.lines x hx).1
      rw [List.length_map] at hle
      exact decide_eq_true (hle.trans hlt.le)
    refine (h.doubled hfree run).trans ?_
    rw [← hdouble, expected, List.filter_append, hshort, List.map_append]
    exact doubled_prefix (List.prefix_append _ _)
  · rintro pre u post rfl
    have hmem : [] ∈ reads .stdin
        (Net.events (pre ++ (u, (.reader, .read .stdin [])) :: post)) := by
      rw [Net.events_append, Net.events_cons, reads_append, reads_cons, reads_read]
      exact List.mem_append_right _ List.mem_cons_self
    exact absurd rfl (h.stdin [] hmem).1

end Run

/-! ### Two lines -/

/-- A line goes through all three processes. -/
def oneLine (length : Nat) : List (Proc × Nat) :=
  [(.reader, length), (.reader, 0), (.converter, 100), (.converter, 0), (.doubler, length),
    (.doubler, 0), (.doubler, 0)]

/-- Two lines of different lengths. -/
def shortLines : List (List Byte) := [ascii "a1\n", ascii "bcd\n"]

theorem pipeline_correct_twoLines : ∃ tr s,
    Run Step (start (fun _ => .zero _) shortLines.flatten) tr s ∧ Correct shortLines tr s ∧
      s.chan .stdout = ascii "A1\nA1\nBCD\nBCD\n" := by
  obtain ⟨tr, s, hrun, hstdin, hframe, hlines, hout⟩ : ∃ tr s,
      Run Step (start (fun _ => .zero _) shortLines.flatten) tr s ∧
        reads .stdin (Net.events tr) = shortLines ∧
        (∀ x ∈ reads .myfifo1 (Net.events tr), x.length = maxBuffer) ∧
        reads .myfifo2 (Net.events tr) = [ascii "A1\n", ascii "BCD\n"] ∧
        s.chan .stdout = ascii "A1\nA1\nBCD\nBCD\n" :=
    ⟨_, _, run_get _ (oneLine 3 ++ oneLine 4) (start (fun _ => .zero _) shortLines.flatten)
      (by decide +kernel), by decide +kernel, by decide +kernel, by decide +kernel,
      by decide +kernel⟩
  refine ⟨tr, s, hrun, pipeline_correct (by decide) hrun ?_, hout⟩
  have hfirst : ∀ x ∈ shortLines.head?, Fits (.zero maxBuffer) x := by decide +kernel
  refine ⟨by rw [hstdin]; decide +kernel, by rwa [hstdin], hframe, ?_, by rw [hlines]; decide⟩
  rw [hlines]
  intro x hx
  refine ⟨?_, IsLine.copies ?_⟩
  · revert x
    decide
  · revert x
    decide

/-- At end of file the reader sends one more frame. -/
theorem not_pipeline_correct_eof :
    ¬ ∀ (lines : List (List Byte)) (buffer : Proc → Buffer) (tr : Trace) (s : State),
      (∀ l ∈ lines, IsLine l ∧ NulFree l) →
      Run Step (start buffer lines.flatten) tr s → Correct lines tr s := by
  intro hall
  have hrun := run_get (Net.exec fun i => (loop i).program) [(.reader, 0), (.reader, 0)]
    (start (fun _ => .zero _) [].flatten) (by decide +kernel)
  have heof := (hall [] _ _ _ (by decide) hrun).eof [] _ _ rfl
  exact absurd (heof (List.replicate maxBuffer 0) (by decide +kernel)) (by decide)

end PosixNet.Week3
