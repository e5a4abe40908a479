import PosixNet.ReadLoop
import PosixNet.Lines

/-!
# `week2`: reader and doubler over a pipe

`teht5.c`.  The parent reads standard input and sends the string it finds in its buffer
to the child, which writes the string it finds in a read of the pipe twice.  A read of
100 bytes leaves no room for a NUL, so `strlen` runs out of the array before its result
can be compared with 100: lines that are too long are never recognised as such.  Neither
buffer is cleared before the first read, and the pipe does not keep the writes apart.

**`doubles_iff`** says in which of the runs that have come to their end every line of at
most 100 bytes has been written twice, and nothing else.
-/
namespace PosixNet.Week2

def maxBuffer : Nat := 100

abbrev Buffer := CArray maxBuffer

/-- What the two processes read and write. -/
inductive Chan where
  /-- Descriptor 1, `STDOUT_FILENO`, which is what line 31 reads for standard input. -/
  | stdin
  | pipe | stdout
  deriving DecidableEq

/-- The parent and the child. -/
inductive Proc where
  | reader | doubler
  deriving DecidableEq

/-- One round of either loop, with `send` for what it writes. -/
def body (send : List Byte → List (List Byte)) (buffer : Buffer) (bytes : List Byte) :
    Round Buffer :=
  if bytes = [] then .finish
  else match fill buffer bytes with
    | .error f => .fault f
    | .ok (_, text) =>
      -- the exit with `EXIT_FAILURE`
      if maxBuffer < text.length then .finish
      else .next (send text) (.zero _)

/-- Lines 31–47 of `teht5.c`. -/
def reader : ReadLoop Chan Buffer where
  input := .stdin
  output := .pipe
  size := maxBuffer
  body := body fun text => [text]

/-- Lines 60–80 of `teht5.c`. -/
def doubler : ReadLoop Chan Buffer where
  input := .pipe
  output := .stdout
  size := maxBuffer
  body := body fun text => [text, text]

/-- The loop of a process. -/
def loop : Proc → ReadLoop Chan Buffer
  | .reader => reader
  | .doubler => doubler

abbrev State := Net Chan fun _ : Proc => LoopState Buffer

abbrev Trace := List (State × (Proc × Io Chan))

abbrev Step := stepOf (Net.exec fun i => (loop i).program)

/-- Both processes have closed the end of the pipe they do not use. -/
def start (buffer : Proc → Buffer) (stdin : List Byte) : State where
  proc i := .reading (buffer i)
  chan
    | .stdin => stdin
    | _ => []
  writers
    | .stdin => 0
    | _ => 1

/-- Both functions have returned, and the lines that are not too long are doubled. -/
structure Correct (lines : List (List Byte)) (s : State) : Prop where
  returned : ∀ i, s.proc i = .stopped
  output : s.chan .stdout = doubled (lines.filter fun l => l.length ≤ 100)

/-- Reads that the programs can deal with. -/
structure Smooth (buffer : Proc → Buffer) (tr : Trace) : Prop where
  stdin : ∀ x ∈ reads .stdin (Net.events tr), x.length < maxBuffer
  firstLine : ∀ x ∈ (reads .stdin (Net.events tr)).head?, x ≠ [] → Fits (buffer .reader) x
  /-- The doubler gets one line, or several that are the same. -/
  lines : ∀ x ∈ reads .pipe (Net.events tr), x.length < maxBuffer ∧ Copies x
  firstRead : ∀ x ∈ (reads .pipe (Net.events tr)).head?, x ≠ [] → Fits (buffer .doubler) x

/-! ## The rounds -/

section Rounds
variable {send : List Byte → List (List Byte)} {L : ReadLoop Chan Buffer}
  {buffer buffer' : Buffer} {bytes : List Byte} {xs ws : List (List Byte)}

/-- The strings the loop finds in its buffer. -/
def texts (buffer : Buffer) : List (List Byte) → List (List Byte)
  | [] => []
  | x :: xs => (x ++ cstr (buffer.bytes.drop x.length)) :: xs

/-- A string is never too long: it ends in the array. -/
theorem fill_short {b : Buffer} {text : List Byte} (h : fill buffer bytes = .ok (b, text)) :
    ¬ maxBuffer < text.length := by
  obtain ⟨hlen, h0, rfl⟩ := fill_ok h
  have hlt := cstr_length_lt h0
  rw [frame_length hlen] at hlt
  exact hlt.le.not_gt

theorem body_next (hne : bytes ≠ []) (hlen : bytes.length ≤ maxBuffer) (hfree : NulFree bytes)
    (h0 : 0 ∈ frame buffer bytes) :
    body send buffer bytes =
      .next (send (bytes ++ cstr (buffer.bytes.drop bytes.length))) (.zero _) := by
  obtain ⟨b, -, hfill⟩ := fill_eq hlen h0
  have hshort := fill_short hfill
  rw [cstr_frame hfree] at hfill hshort
  simp only [body, if_neg hne, hfill, if_neg hshort]

theorem body_fault (hne : bytes ≠ []) (hlen : bytes.length ≤ maxBuffer)
    (h0 : 0 ∉ frame buffer bytes) : body send buffer bytes = .fault .bounds := by
  simp only [body, if_neg hne, fill_eq_error hlen h0]

/-- The loop is left at end of file only. -/
theorem eq_nil_of_finish (h : body send buffer bytes = .finish) : bytes = [] := by
  by_contra hne
  cases hfill : fill buffer bytes with
  | error f =>
    simp only [body, if_neg hne, hfill] at h
    cases h
  | ok x =>
    have hshort : ¬ maxBuffer < x.2.length := fill_short hfill
    simp only [body, if_neg hne, hfill, if_neg hshort] at h
    cases h

theorem texts_zero (xs : List (List Byte)) : texts (.zero _) xs = xs := by
  cases xs with
  | nil => rfl
  | cons x xs =>
    have hstale : cstr ((CArray.zero maxBuffer).bytes.drop x.length) = [] := by
      rw [CArray.zero, List.drop_replicate]
      cases maxBuffer - x.length with
      | zero => rfl
      | succ k => rfl
    rw [texts, hstale, List.append_nil]

theorem le_texts_length (buffer : Buffer) (xs : List (List Byte)) :
    xs.flatten.length ≤ (texts buffer xs).flatten.length := by
  cases xs with
  | nil => exact Nat.le_refl _
  | cons x xs =>
    rw [texts, List.flatten_cons, List.flatten_cons, List.append_assoc]
    simp only [List.length_append]
    omega

/-- Where nothing is added to the text, the reads are the strings. -/
theorem texts_eq (h : (texts buffer xs).flatten.length ≤ xs.flatten.length) :
    texts buffer xs = xs := by
  cases xs with
  | nil => rfl
  | cons x xs =>
    rw [texts, List.flatten_cons, List.flatten_cons] at h
    simp only [List.length_append] at h
    have hstale : cstr (buffer.bytes.drop x.length) = [] :=
      List.eq_nil_of_length_eq_zero (by omega)
    rw [texts, hstale, List.append_nil]

theorem texts_eq_iff (hlen : ∀ x ∈ xs, x.length < maxBuffer) :
    texts buffer xs = xs ↔ ∀ x ∈ xs.head?, Fits buffer x := by
  cases xs with
  | nil => simp [texts]
  | cons x xs =>
    have hx : x.length < buffer.bytes.length := by
      rw [buffer.length_eq]
      exact hlen x List.mem_cons_self
    simp only [texts, List.cons.injEq, and_true, List.append_right_eq_self, List.head?_cons,
      Option.mem_some_iff, forall_eq', Fits, cstr, List.drop_eq_getElem_cons hx,
      List.getElem?_eq_getElem hx, Option.some.injEq]
    rw [List.takeWhile_cons]
    split
    · rename_i h
      simpa using h
    · rename_i h
      simpa using h

/-- The same with the end of file behind the reads. -/
theorem fits_of_texts (hlen : ∀ x ∈ xs, x.length < maxBuffer) (h : texts buffer xs = xs) :
    ∀ x ∈ (xs ++ [[]]).head?, x ≠ [] → Fits buffer x := by
  have hfits := (texts_eq_iff hlen).mp h
  cases xs with
  | nil =>
    rintro x ⟨⟩ hne
    exact absurd rfl hne
  | cons y ys => exact fun x hx _ => hfits x hx

theorem texts_of_fits (hxs : ∀ x ∈ xs, x ≠ [] ∧ x.length < maxBuffer)
    (h : ∀ x ∈ (xs ++ [[]]).head?, x ≠ [] → Fits buffer x) : texts buffer xs = xs := by
  refine (texts_eq_iff fun x hx => (hxs x hx).2).mpr ?_
  cases xs with
  | nil => exact fun x hx => nomatch hx
  | cons y ys => exact fun x hx => h x hx (hxs x (List.mem_of_mem_head? hx)).1

/-- **The rounds of a loop that has not left its buffer.** -/
theorem rounds_running (hL : L.body = body send)
    (hxs : ∀ x ∈ xs, NulFree x ∧ x.length ≤ maxBuffer)
    (h : L.rounds buffer xs = (ws, .running buffer')) :
    (∀ x ∈ xs, x ≠ [] ∧ x.length < maxBuffer) ∧ ws = (texts buffer xs).flatMap send := by
  induction xs generalizing buffer ws with
  | nil => exact ⟨fun x hx => (nomatch hx), (Prod.mk.inj h).1.symm⟩
  | cons x xs ih =>
    obtain ⟨hfree, hlen⟩ := hxs x List.mem_cons_self
    by_cases hne : x = []
    · rw [ReadLoop.rounds_finish (by rw [hL, body, if_pos hne])] at h
      cases h
    by_cases h0 : 0 ∈ frame buffer x
    · have hbody : L.body buffer x = _ := (congrFun (congrFun hL _) _).trans
        (body_next hne hlen hfree h0)
      rw [ReadLoop.rounds_next hbody] at h
      obtain ⟨rfl, hend⟩ := Prod.mk.inj h
      obtain ⟨hrest, hws⟩ := ih (fun y hy => hxs y (List.mem_cons_of_mem _ hy))
        (Prod.ext rfl hend)
      rw [texts_zero] at hws
      refine ⟨fun y hy => ?_, congrArg (send _ ++ ·) hws⟩
      rcases List.mem_cons.mp hy with rfl | hy
      · refine ⟨hne, lt_of_le_of_ne hlen fun heq => ?_⟩
        rw [mem_frame hfree, List.drop_of_length_le (by rw [buffer.length_eq, heq])] at h0
        cases h0
      · exact hrest y hy
    · have hbody : L.body buffer x = _ := (congrFun (congrFun hL _) _).trans
        (body_fault hne hlen h0)
      rw [ReadLoop.rounds_fault hbody] at h
      cases h

theorem rounds_ne_fault (hL : L.body = body send)
    (hxs : ∀ x ∈ xs, NulFree x ∧ x.length < maxBuffer)
    (hfirst : ∀ x ∈ xs.head?, x ≠ [] → Fits buffer x) (f : Fault) :
    (L.rounds buffer xs).2 ≠ .fault f := by
  induction xs generalizing buffer with
  | nil => exact fun h => nomatch h
  | cons x xs ih =>
    obtain ⟨hfree, hlen⟩ := hxs x List.mem_cons_self
    by_cases hne : x = []
    · rw [ReadLoop.rounds_finish (by rw [hL, body, if_pos hne])]
      exact fun h => nomatch h
    · have hbody : L.body buffer x = _ := (congrFun (congrFun hL _) _).trans
        (body_next hne hlen.le hfree ((hfirst x rfl hne).cstr_frame hfree).1)
      rw [ReadLoop.rounds_next hbody]
      refine ih (fun y hy => hxs y (List.mem_cons_of_mem _ hy)) fun y hy _ => ?_
      exact fits_zero (hxs y (List.mem_cons_of_mem _ (List.mem_of_mem_head? hy))).2

/-- What is sent has no NUL in it. -/
theorem rounds_nulFree (hL : L.body = body send)
    (hsend : ∀ text, NulFree text → ∀ w ∈ send text, NulFree w) :
    ∀ w ∈ (L.rounds buffer xs).1, NulFree w := by
  induction xs generalizing buffer with
  | nil => exact fun w hw => nomatch hw
  | cons x xs ih =>
    by_cases hne : x = []
    · rw [ReadLoop.rounds_finish (by rw [hL, body, if_pos hne])]
      exact fun w hw => nomatch hw
    cases hfill : fill buffer x with
    | error f =>
      rw [ReadLoop.rounds_fault (f := f) (by simp only [hL, body, if_neg hne, hfill])]
      exact fun w hw => nomatch hw
    | ok y =>
      obtain ⟨b, text⟩ := y
      have hshort := fill_short hfill
      obtain ⟨-, -, rfl⟩ := fill_ok hfill
      have hbody : L.body buffer x = .next (send (cstr (frame buffer x))) (.zero _) := by
        simp only [hL, body, if_neg hne, hfill, if_neg hshort]
      rw [ReadLoop.rounds_next hbody]
      intro w hw
      rcases List.mem_append.mp hw with hw | hw
      · exact hsend _ (nulFree_cstr _) w hw
      · exact ih w hw

end Rounds

/-! ## The two processes -/

section Run
variable {buffer : Proc → Buffer} {stdin : List Byte} {lines : List (List Byte)} {tr : Trace}
  {s : State}

theorem loop_input_inj (i j : Proc) (h : (loop i).input = (loop j).input) : i = j := by
  cases i <;> cases j <;> first | rfl | cases h

theorem loop_output_inj (i j : Proc) (h : (loop i).output = (loop j).output) : i = j := by
  cases i <;> cases j <;> first | rfl | cases h

theorem eq_nil_of_loop_finish (i : Proc) (b : Buffer) (x : List Byte)
    (h : (loop i).body b x = .finish) : x = [] := by
  cases i with
  | reader => exact eq_nil_of_finish h
  | doubler => exact eq_nil_of_finish h

/-- Standard input is only read. -/
theorem stdin_run (run : Run Step (start buffer stdin) tr s) :
    stdin = (reads .stdin (Net.events tr)).flatten ++ s.chan .stdin :=
  ReadLoop.source_run run .stdin fun i h => by cases i <;> cases h

/-- Standard output is only written. -/
theorem stdout_run (run : Run Step (start buffer stdin) tr s) :
    (writes .stdout (Net.events tr)).flatten = s.chan .stdout :=
  ReadLoop.sink_run run .stdout fun i h => by cases i <;> cases h

/-- A process that has returned has left nothing in its channel. -/
theorem chan_eq_nil (run : Run Step (start buffer stdin) tr s) {i : Proc}
    (h : s.proc i = .stopped) : s.chan (loop i).input = [] := by
  refine (ReadLoop.drained run loop_output_inj (fun j => ⟨?_, ?_⟩) (fun j => ?_)
    (eq_nil_of_loop_finish i) (.inr h)).1
  · exact fun h => nomatch h
  · exact fun h => nomatch h
  · cases j <;> rfl

/-- What is read from the pipe or standard input has no NUL in it. -/
theorem reads_nulFree (hfree : NulFree stdin) (run : Run Step (start buffer stdin) tr s)
    (i : Proc) : ∀ x ∈ reads (loop i).input (Net.events tr), NulFree x := by
  cases i with
  | reader =>
    exact nulFree_flatten.mp (hfree.of_isPrefix ⟨_, (stdin_run run).symm⟩)
  | doubler =>
    have hflow : (writes .pipe (Net.events tr)).flatten = _ := Net.flow_run run .pipe
    refine nulFree_flatten.mp (NulFree.of_isPrefix (nulFree_flatten.mpr fun w hw => ?_)
      ⟨_, hflow.symm⟩)
    have hwritten : writes .pipe (Net.events tr) ++ (s.proc .reader).pending = _ :=
      ReadLoop.written_net run loop_input_inj loop_output_inj (i := .reader) rfl
    have hsent : ∀ v ∈ (reader.rounds (buffer .reader) (reads .stdin (Net.events tr))).1,
        NulFree v := rounds_nulFree rfl fun text htext v hv => by
      rwa [List.mem_singleton.mp hv]
    exact hsent w (hwritten ▸ List.mem_append_left _ hw)

theorem reads_le (run : Run Step (start buffer stdin) tr s) (i : Proc) :
    ∀ x ∈ reads (loop i).input (Net.events tr), x.length ≤ maxBuffer := by
  have h := ReadLoop.reads_length_net run loop_input_inj i
  cases i with
  | reader => exact h
  | doubler => exact h

/-- The reads of a process that has returned, up to the end of file, and what it has
written for them. -/
theorem returned_reads (hfree : NulFree stdin) (run : Run Step (start buffer stdin) tr s)
    {send : List Byte → List (List Byte)} {i : Proc} (hbody : (loop i).body = body send)
    (h : s.proc i = .stopped) :
    ∃ ys, reads (loop i).input (Net.events tr) = ys ++ [[]] ∧
      (∀ y ∈ ys, y ≠ [] ∧ y.length < maxBuffer) ∧
      writes (loop i).output (Net.events tr) = (texts (buffer i) ys).flatMap send := by
  obtain ⟨ys, b, x, hreads, hrounds, hfinish⟩ :=
    ReadLoop.run_left_net run loop_input_inj loop_output_inj rfl (.inr h)
  obtain rfl := eq_nil_of_loop_finish i b x hfinish
  have hys : ∀ y ∈ ys, NulFree y ∧ y.length ≤ maxBuffer := fun y hy => by
    have hmem : y ∈ reads (loop i).input (Net.events tr) := hreads ▸ List.mem_append_left _ hy
    exact ⟨reads_nulFree hfree run i y hmem, reads_le run i y hmem⟩
  exact ⟨ys, hreads, rounds_running hbody hys hrounds⟩

/-- A run in which both have returned: the reader has read `ys` and the doubler `zs`
before they were at end of file. -/
structure Returned (buffer : Proc → Buffer) (stdin : List Byte) (tr : Trace) (s : State)
    (ys zs : List (List Byte)) : Prop where
  reader : reads .stdin (Net.events tr) = ys ++ [[]]
  doubler : reads .pipe (Net.events tr) = zs ++ [[]]
  lines : ∀ y ∈ ys, y ≠ [] ∧ y.length < maxBuffer
  pieces : ∀ z ∈ zs, z ≠ [] ∧ z.length < maxBuffer
  read : ys.flatten = stdin
  sent : zs.flatten = (texts (buffer .reader) ys).flatten
  output : s.chan .stdout = doubled (texts (buffer .doubler) zs)

theorem returned_run (hfree : NulFree stdin) (run : Run Step (start buffer stdin) tr s)
    (h : ∀ i, s.proc i = .stopped) : ∃ ys zs, Returned buffer stdin tr s ys zs := by
  obtain ⟨ys, hys, hlines, hsent⟩ := returned_reads hfree run (i := .reader) rfl (h .reader)
  obtain ⟨zs, hzs, hpieces, hwritten⟩ := returned_reads hfree run (i := .doubler) rfl (h .doubler)
  have hstdin := stdin_run run
  have hpipe : (writes .pipe (Net.events tr)).flatten = _ := Net.flow_run run .pipe
  have hstdout := stdout_run run
  have hempty : s.chan .stdin = [] := chan_eq_nil run (h .reader)
  have hempty' : s.chan .pipe = [] := chan_eq_nil run (h .doubler)
  change reads .stdin (Net.events tr) = ys ++ [[]] at hys
  change reads .pipe (Net.events tr) = zs ++ [[]] at hzs
  change writes .pipe (Net.events tr) = _ at hsent
  change writes .stdout (Net.events tr) = _ at hwritten
  refine ⟨ys, zs, hys, hzs, hlines, hpieces, ?_, ?_, ?_⟩
  · rw [hys, hempty] at hstdin
    simpa using hstdin.symm
  · rw [hsent, hzs, hempty', List.flatMap_singleton'] at hpipe
    simpa using hpipe.symm
  · rw [hwritten, flatten_pairs] at hstdout
    exact hstdout.symm

/-- Nothing but a fault keeps the two from returning. -/
theorem returned_of_terminal (run : Run Step (start buffer stdin) tr s) (hend : Terminal Step s)
    (hfault : ∀ i f, s.proc i ≠ .fault f) : ∀ i, s.proc i = .stopped := by
  have hreader : s.proc .reader = .stopped := by
    rcases ReadLoop.terminal_loop hend (i := .reader) (by decide) with h | ⟨f, h⟩ | ⟨-, h⟩
    · exact h
    · exact absurd h (hfault _ f)
    · exact absurd (Net.writers_eq_zero run rfl) h
  intro i
  cases i with
  | reader => exact hreader
  | doubler =>
    rcases ReadLoop.terminal_loop hend (i := .doubler) (by decide) with h | ⟨f, h⟩ | ⟨-, h⟩
    · exact h
    · exact absurd h (hfault _ f)
    · refine absurd ?_ h
      exact (ReadLoop.writers_output run loop_output_inj (i := .reader) (fun h => nomatch h)
        rfl).1 hreader

/-- The output is long enough for the short lines only if nothing was added to what was
read, and there are no long lines. -/
theorem Returned.plain {ys zs : List (List Byte)} (hlines : ∀ l ∈ lines, IsLine l)
    (hret : Returned buffer lines.flatten tr s ys zs)
    (h : s.chan .stdout = doubled (lines.filter fun l => l.length ≤ 100)) :
    texts (buffer .reader) ys = ys ∧ texts (buffer .doubler) zs = zs ∧
      (lines.filter fun l => l.length ≤ 100) = lines := by
  have hsub : (lines.filter fun l => l.length ≤ 100).flatten.Sublist lines.flatten :=
    List.filter_sublist.flatten
  have hlen : (texts (buffer .doubler) zs).flatten.length =
      (lines.filter fun l => l.length ≤ 100).flatten.length := by
    have hlen := congrArg List.length (hret.output.symm.trans h)
    rw [doubled_length, doubled_length] at hlen
    omega
  have hreader := le_texts_length (buffer .reader) ys
  have hdoubler := le_texts_length (buffer .doubler) zs
  have hshort := hsub.length_le
  rw [← hret.sent] at hreader
  rw [← hret.read] at hshort
  refine ⟨texts_eq ?_, texts_eq ?_, ?_⟩
  · rw [← hret.sent]
    omega
  · omega
  · refine lines_inj (fun l hl => hlines l (List.mem_of_mem_filter hl)) hlines ?_
    refine hsub.eq_of_length_le ?_
    rw [← hret.read]
    omega

/-- In a smooth run no text is read beyond its buffer. -/
theorem Smooth.ne_fault (h : Smooth buffer tr) (hfree : NulFree stdin)
    (run : Run Step (start buffer stdin) tr s) (i : Proc) (f : Fault) : s.proc i ≠ .fault f := by
  intro hf
  have hrounds := ReadLoop.run_net run loop_input_inj loop_output_inj (i := i) rfl
  refine absurd (congrArg Prod.snd hrounds) ?_
  rw [hf]
  have hreads := reads_nulFree hfree run i
  cases i with
  | reader => exact rounds_ne_fault rfl (fun x hx => ⟨hreads x hx, h.stdin x hx⟩) h.firstLine f
  | doubler =>
    exact rounds_ne_fault rfl (fun x hx => ⟨hreads x hx, (h.lines x hx).1⟩) h.firstRead f

/-- **The doubler.**  In every run that has come to its end, with lines of any length
and any content of the two buffers. -/
theorem doubles_iff (hlines : ∀ l ∈ lines, IsLine l ∧ NulFree l)
    (run : Run Step (start buffer lines.flatten) tr s) (hend : Terminal Step s) :
    Correct lines s ↔ Smooth buffer tr := by
  have hfree : NulFree lines.flatten := nulFree_flatten.mpr fun l hl => (hlines l hl).2
  constructor
  · intro h
    obtain ⟨ys, zs, hret⟩ := returned_run hfree run h.returned
    obtain ⟨hys, hzs, hall⟩ := hret.plain (fun l hl => (hlines l hl).1) h.output
    have hcut : zs.flatten = lines.flatten := by rw [hret.sent, hys, hret.read]
    have hdoubled : doubled zs = doubled lines := by
      calc doubled zs = s.chan .stdout := by rw [hret.output, hzs]
        _ = doubled lines := by rw [h.output, hall]
    have hcopies := (doubled_eq_iff (fun l hl => (hlines l hl).1) (fun z hz => (hret.pieces z hz).1)
      hcut).mp hdoubled
    refine ⟨?_, ?_, ?_, ?_⟩
    · rw [hret.reader]
      intro x hx
      rcases List.mem_append.mp hx with hx | hx
      · exact (hret.lines x hx).2
      · rw [List.mem_singleton.mp hx]
        decide
    · rw [hret.reader]
      exact fits_of_texts (fun y hy => (hret.lines y hy).2) hys
    · rw [hret.doubler]
      intro x hx
      rcases List.mem_append.mp hx with hx | hx
      · exact ⟨(hret.pieces x hx).2, hcopies x hx⟩
      · rw [List.mem_singleton.mp hx]
        exact ⟨by decide, copies_nil⟩
    · rw [hret.doubler]
      exact fits_of_texts (fun z hz => (hret.pieces z hz).2) hzs
  · intro h
    have hstopped := returned_of_terminal run hend (h.ne_fault hfree run)
    obtain ⟨ys, zs, hret⟩ := returned_run hfree run hstopped
    have hys : texts (buffer .reader) ys = ys :=
      texts_of_fits (fun y hy => hret.lines y hy) (hret.reader ▸ h.firstLine)
    have hzs : texts (buffer .doubler) zs = zs :=
      texts_of_fits (fun z hz => hret.pieces z hz) (hret.doubler ▸ h.firstRead)
    refine ⟨hstopped, ?_⟩
    -- the reads of the doubler, cut into lines, are the lines
    obtain ⟨ls, hls, htext, hdouble, hlen⟩ := exists_lines_of_copies fun z hz =>
      (h.lines z (hret.doubler ▸ List.mem_append_left _ hz)).2
    have hsame : ls = lines := by
      refine lines_inj hls (fun l hl => (hlines l hl).1) ?_
      rw [htext, hret.sent, hys, hret.read]
    have hshort : (lines.filter fun l => l.length ≤ 100) = lines := by
      refine List.filter_eq_self.mpr fun l hl => ?_
      obtain ⟨z, hz, hle⟩ := hlen l (hsame ▸ hl)
      exact decide_eq_true (hle.trans (hret.pieces z hz).2.le)
    rw [hret.output, hzs, ← hdouble, hsame, hshort]

end Run

/-! ### Two lines -/

/-- The reader sends both lines; the reads of the doubler return these numbers of bytes. -/
def bothSent (pieces : List Nat) : List (Proc × Nat) :=
  [(.reader, 2), (.reader, 0), (.reader, 2), (.reader, 0), (.reader, 0), (.reader, 0)] ++
    (pieces.flatMap fun n => [(.doubler, n), (.doubler, 0), (.doubler, 0)]) ++
    [(.doubler, 0), (.doubler, 0)]

/-- Standard input holds two lines. -/
def twoLines : List (List Byte) := [ascii "a\n", ascii "b\n"]

theorem doubles_twoLines : ∃ tr s,
    Run Step (start (fun _ => .zero _) twoLines.flatten) tr s ∧ Terminal Step s ∧
      Correct twoLines s := by
  obtain ⟨tr, s, hrun, hreader, hdoubler, hstdin, hpipe⟩ : ∃ tr s,
      Run Step (start (fun _ => .zero _) twoLines.flatten) tr s ∧
        s.proc .reader = .stopped ∧ s.proc .doubler = .stopped ∧
        reads .stdin (Net.events tr) = twoLines ++ [[]] ∧
        reads .pipe (Net.events tr) = twoLines ++ [[]] :=
    ⟨_, _, run_get _ (bothSent [2, 2]) (start (fun _ => .zero _) twoLines.flatten)
      (by decide +kernel), by decide +kernel, by decide +kernel, by decide +kernel,
      by decide +kernel⟩
  have hend : Terminal Step s := ReadLoop.terminal_of_stopped fun i => by
    cases i with
    | reader => exact hreader
    | doubler => exact hdoubler
  refine ⟨tr, s, hrun, hend, (doubles_iff (by decide) hrun hend).mpr ⟨?_, ?_, ?_, ?_⟩⟩
  · rw [hstdin]
    decide
  · rw [hstdin]
    rintro x ⟨⟩ -
    decide
  · rw [hpipe]
    intro x hx
    refine ⟨(show ∀ x ∈ twoLines ++ [[]], x.length < maxBuffer by decide) x hx, ?_⟩
    rcases List.mem_append.mp hx with hx | hx
    · exact IsLine.copies ((show ∀ x ∈ twoLines, IsLine x by decide) x hx)
    · rw [List.mem_singleton.mp hx]
      exact copies_nil
  · rw [hpipe]
    rintro x ⟨⟩ -
    decide

/-- The doubler gets both lines in one read. -/
theorem not_doubles_one_read :
    ¬ ∀ (lines : List (List Byte)) (buffer : Proc → Buffer) (tr : Trace) (s : State),
      (∀ l ∈ lines, IsLine l ∧ NulFree l) →
      Run Step (start buffer lines.flatten) tr s → Terminal Step s → Correct lines s := by
  intro hall
  obtain ⟨tr, s, hrun, hreader, hdoubler, hout⟩ : ∃ tr s,
      Run Step (start (fun _ => .zero _) twoLines.flatten) tr s ∧
        s.proc .reader = .stopped ∧ s.proc .doubler = .stopped ∧
        s.chan .stdout = ascii "a\nb\na\nb\n" :=
    ⟨_, _, run_get _ (bothSent [4]) (start (fun _ => .zero _) twoLines.flatten)
      (by decide +kernel), by decide +kernel, by decide +kernel, by decide +kernel⟩
  have hend : Terminal Step s := ReadLoop.terminal_of_stopped fun i => by
    cases i with
    | reader => exact hreader
    | doubler => exact hdoubler
  have hcorrect := (hall twoLines _ tr s (by decide) hrun hend).output
  rw [hout] at hcorrect
  exact absurd hcorrect (by decide)

end PosixNet.Week2
