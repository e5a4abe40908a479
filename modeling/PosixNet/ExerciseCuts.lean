import PosixNet.ExerciseIteration

/-!
# `exercise`: one stream, cut into reads in two ways

TCP keeps the order of the bytes and nothing else: the lines of the server may arrive
cut anywhere.  What the lines ask for does not depend on the cuts (`answers`); what
the code sends does, since it looks at the first byte of every read and nowhere else.

A segmentation is clean when the code meets the lines where it looks for them
(`Clean`): every line that is to be answered starts a read, an E line comes in two
reads, and no read starts with a command letter inside of a line.  The reads of a
clean segmentation fall into groups, each of which sends what its lines ask for
(`sent_of_clean`), so two clean segmentations of one stream send the same
(`sent_eq_of_clean`).
-/
namespace PosixNet.Exercise

/-- The lines the streams are made of. -/
def StreamLine (l : List Byte) : Prop :=
  IsLine l ∧ NulFree l ∧ commandOf l ≠ .file ∧ commandOf l ≠ .other

instance (l : List Byte) : Decidable (StreamLine l) := inferInstanceAs (Decidable (_ ∧ _))

/-- A segmentation of the lines into reads. -/
structure Cut (lines : List (List Byte)) where
  reads : List Delivery
  short : ∀ d ∈ reads, d.bytes.length < MAXBUFFER
  flatten_eq : (reads.map Delivery.bytes).flatten = lines.flatten

/-- What the lines ask for, up to the one that ends the session. -/
def answers (SRCPATH : List Byte) : List (List Byte) → List Byte
  | [] => []
  | l :: ls =>
    match commandOf l with
    | .echo => l.map toupper ++ answers SRCPATH ls
    | .code => SRCPATH ++ [newline] ++ answers SRCPATH ls
    | .comment => if ascii "209" <:+: l then [] else answers SRCPATH ls
    | .accept | .quit => []
    | .file | .other => answers SRCPATH ls

/-- Everything a session wrote to its socket. -/
def sent (s : Session) : List Byte := s.writes.flatMap Write.bytes

/-- A comment that does not end the session. -/
def QuietLine (l : List Byte) : Prop := commandOf l = .comment ∧ ¬ ascii "209" <:+: l

instance (l : List Byte) : Decidable (QuietLine l) := inferInstanceAs (Decidable (_ ∧ _))

/-- A read that is passed over when nothing is pending. -/
def QuietRead (d : Delivery) : Prop :=
  commandOf d.bytes = .other ∨ commandOf d.bytes = .comment ∧ ¬ ascii "209" <:+: d.bytes

instance (d : Delivery) : Decidable (QuietRead d) := inferInstanceAs (Decidable (_ ∨ _))

/-- The reads meet the lines where the code looks for them. -/
inductive Clean (SRCPATH : List Byte) : List (List Byte) → List Delivery → Prop
  | nil : Clean SRCPATH [] []
  /-- Comments, cut anywhere but in front of a command letter. -/
  | quiet {qs ls : List (List Byte)} {rs ds : List Delivery} (hqs : ∀ q ∈ qs, QuietLine q)
      (hrs : ∀ r ∈ rs, QuietRead r) (hcut : (rs.map Delivery.bytes).flatten = qs.flatten)
      (rest : Clean SRCPATH ls ds) : Clean SRCPATH (qs ++ ls) (rs ++ ds)
  /-- E lines in two reads. -/
  | echo {es ls : List (List Byte)} {d d' : Delivery} {ds : List Delivery}
      (hes : ∀ e ∈ es, commandOf e = .echo) (hd : commandOf d.bytes = .echo)
      (hd' : commandOf d'.bytes = .other) (hcut : d.bytes ++ d'.bytes = es.flatten)
      (hfit : es.flatten.length ≤ MAXBUFFER + 1) (rest : Clean SRCPATH ls ds) :
      Clean SRCPATH (es ++ ls) (d :: d' :: ds)
  /-- A C line and comments after it, cut anywhere but in front of a command letter. -/
  | code {l : List Byte} {qs ls : List (List Byte)} {d : Delivery} {rs ds : List Delivery}
      (hl : commandOf l = .code) (hqs : ∀ q ∈ qs, QuietLine q) (hd : commandOf d.bytes = .code)
      (hrs : ∀ r ∈ rs, QuietRead r)
      (hcut : ((d :: rs).map Delivery.bytes).flatten = (l :: qs).flatten)
      (hfit : SRCPATH.length + 2 ≤ MAXBUFFER) (rest : Clean SRCPATH ls ds) :
      Clean SRCPATH (l :: qs ++ ls) (d :: rs ++ ds)
  /-- A goodbye whose text stands in a read that starts with a `#`. -/
  | goodbye {qs ls : List (List Byte)} {l : List Byte} {rs ds : List Delivery} {d : Delivery}
      (hqs : ∀ q ∈ qs, QuietLine q) (hl : commandOf l = .comment) (h209 : ascii "209" <:+: l)
      (hrs : ∀ r ∈ rs, QuietRead r)
      (hcut : (rs.map Delivery.bytes).flatten <+: (qs ++ [l]).flatten)
      (hd : commandOf d.bytes = .comment) (hread : ascii "209" <:+: d.bytes) :
      Clean SRCPATH (qs ++ l :: ls) (rs ++ d :: ds)
  /-- An A or Q line. -/
  | stop {l : List Byte} {ls : List (List Byte)} {d : Delivery} {ds : List Delivery}
      (hl : commandOf l = .accept ∨ commandOf l = .quit) (hd : commandOf d.bytes = commandOf l) :
      Clean SRCPATH (l :: ls) (d :: ds)

/-! ## What the lines ask for -/

variable {SRCPATH : List Byte} {ls : List (List Byte)}

theorem answers_quiet {qs : List (List Byte)} (hqs : ∀ q ∈ qs, QuietLine q) :
    answers SRCPATH (qs ++ ls) = answers SRCPATH ls := by
  induction qs with
  | nil => rfl
  | cons q qs ih =>
    obtain ⟨hcmd, h209⟩ := hqs q (List.mem_cons_self ..)
    rw [List.cons_append, answers, hcmd]
    exact (if_neg h209).trans (ih fun q hq => hqs q (List.mem_cons_of_mem _ hq))

theorem answers_echo {es : List (List Byte)} (hes : ∀ e ∈ es, commandOf e = .echo) :
    answers SRCPATH (es ++ ls) = es.flatten.map toupper ++ answers SRCPATH ls := by
  induction es with
  | nil => rfl
  | cons e es ih =>
    have hcmd := hes e (List.mem_cons_self ..)
    have ih := ih fun e he => hes e (List.mem_cons_of_mem _ he)
    rw [List.cons_append, answers, hcmd]
    show e.map toupper ++ answers SRCPATH (es ++ ls) = _
    rw [ih, List.flatten_cons, List.map_append, List.append_assoc]

/-! ## What a group of reads sends -/

variable {c c' : Conn} {d d' : Delivery} {ds : List Delivery} {lines : List (List Byte)}

theorem sent_error {ws : List Write} {ending : Ending}
    (h : handle SRCPATH c d = (ws, .error ending)) (ds : List Delivery) :
    sent (newConnection SRCPATH c (d :: ds)) = ws.flatMap Write.bytes := by
  rw [sent, newConnection_error h]

theorem sent_ok {ws : List Write} (h : handle SRCPATH c d = (ws, .ok c')) (ds : List Delivery) :
    sent (newConnection SRCPATH c (d :: ds)) =
      ws.flatMap Write.bytes ++ sent (newConnection SRCPATH c' ds) := by
  rw [sent, newConnection_ok h, List.flatMap_append]
  rfl

/-- Two connections that go on alike send the same from there on. -/
theorem sent_step {ws ws' : List Write} {next : Except Ending Conn}
    (h : handle SRCPATH c d = (ws, next)) (h' : handle SRCPATH c' d = (ws', next))
    (ds : List Delivery) :
    ∃ rest, sent (newConnection SRCPATH c (d :: ds)) = ws.flatMap Write.bytes ++ rest ∧
      sent (newConnection SRCPATH c' (d :: ds)) = ws'.flatMap Write.bytes ++ rest := by
  cases next with
  | error ending => exact ⟨[], by simp [sent_error h], by simp [sent_error h']⟩
  | ok next => exact ⟨_, sent_ok h ds, sent_ok h' ds⟩

/-- A stop line sends nothing. -/
theorem sent_stop (hcmd : commandOf d.bytes = .accept ∨ commandOf d.bytes = .quit)
    (ds : List Delivery) : sent (newConnection SRCPATH c (d :: ds)) = [] := by
  obtain ⟨ending, hstep⟩ := @handle_stop SRCPATH c d hcmd
  exact sent_error hstep ds

/-- A C line is answered with the path. -/
theorem sent_code (hcmd : commandOf d.bytes = .code) (hpath : NulFree SRCPATH)
    (hfit : SRCPATH.length + 2 ≤ MAXBUFFER) (hc : c.Idle) (ds : List Delivery) :
    sent (newConnection SRCPATH c (d :: ds)) =
      SRCPATH ++ [newline] ++ sent (newConnection SRCPATH c ds) := by
  have hstep : handle SRCPATH c d = ([.getsrcfldr (SRCPATH ++ [newline])], .ok c) := by
    rw [handle_code hcmd hpath hfit, hc.buffer]
  rw [sent_ok hstep, List.flatMap_singleton]
  rfl

/-- E lines in two reads are sent back whole. -/
theorem sent_halves (hcmd : commandOf d.bytes = .echo) (hother : commandOf d'.bytes = .other)
    (hc : c.Idle) (hd : NulFree d.bytes) (hd' : NulFree d'.bytes)
    (hlen : d.bytes.length < MAXBUFFER) (hlen' : d'.bytes.length < MAXBUFFER)
    (hfit : d.bytes.length + d'.bytes.length ≤ MAXBUFFER + 1) (ds : List Delivery) :
    sent (newConnection SRCPATH c (d :: d' :: ds)) = (d.bytes ++ d'.bytes).map toupper ++
      sent (newConnection SRCPATH (.start c.buffer (.zero _)) ds) := by
  rw [sent, newConnection_halves hcmd hother hc.esize hd hd' hfit hlen' (hc.heard hd hlen),
    hc.buffer]
  rfl

/-- Quiet reads are passed over. -/
theorem sent_quiet {rs : List Delivery} (hrs : ∀ r ∈ rs, QuietRead r)
    (hfree : ∀ r ∈ rs, NulFree r.bytes) (hshort : ∀ r ∈ rs, r.bytes.length < MAXBUFFER)
    (hc : c.Idle) (ds : List Delivery) :
    sent (newConnection SRCPATH c (rs ++ ds)) = sent (newConnection SRCPATH c ds) := by
  induction rs with
  | nil => rfl
  | cons r rs ih =>
    have hr := hrs r (List.mem_cons_self ..)
    have ht := hc.heard (hfree r (List.mem_cons_self ..)) (hshort r (List.mem_cons_self ..))
    have ih := ih (fun r h => hrs r (List.mem_cons_of_mem _ h))
      (fun r h => hfree r (List.mem_cons_of_mem _ h)) fun r h => hshort r (List.mem_cons_of_mem _ h)
    have hsame : { c with buffer := cleared c.buffer } = c := by rw [hc.buffer]
    have hstep : handle SRCPATH c r = ([], .ok c) := by
      rcases hr with hother | ⟨hcomment, h209⟩
      · rw [handle_other_idle hother hc.esize ht, hsame]
      · rw [handle_comment hcomment ht, if_neg h209, hsame]
    rw [← ih, List.cons_append, sent_ok hstep]
    rfl

/-- **A clean segmentation sends what its lines ask for.** -/
theorem sent_of_clean (hpath : NulFree SRCPATH) (hclean : Clean SRCPATH ls ds) :
    ∀ c : Conn, c.Idle → (∀ d ∈ ds, NulFree d.bytes) → (∀ d ∈ ds, d.bytes.length < MAXBUFFER) →
      sent (newConnection SRCPATH c ds) = answers SRCPATH ls := by
  induction hclean with
  | nil => exact fun c _ _ _ => rfl
  | quiet hqs hrs _ _ ih =>
    intro c hc hfree hshort
    rw [sent_quiet hrs (fun r h => hfree r (List.mem_append_left _ h))
      (fun r h => hshort r (List.mem_append_left _ h)) hc, answers_quiet hqs]
    exact ih c hc (fun d h => hfree d (List.mem_append_right _ h))
      fun d h => hshort d (List.mem_append_right _ h)
  | @echo es ls d d' ds hes hd hd' hcut hfit _ ih =>
    intro c hc hfree hshort
    have hlen := congrArg List.length hcut
    rw [List.length_append] at hlen
    -- the second read completes whatever E lines the first one starts
    rw [sent_halves hd hd' hc (hfree d (by simp)) (hfree d' (by simp)) (hshort d (by simp))
        (hshort d' (by simp)) (by omega),
      ih (.start c.buffer (.zero _)) ⟨rfl, hc.buffer⟩ (fun d h => hfree d (by simp [h]))
        fun d h => hshort d (by simp [h]),
      answers_echo hes, hcut]
  | @code l qs ls d rs ds hl hqs hd hrs _ hfit _ ih =>
    intro c hc hfree hshort
    have hrest := ih c hc (fun d h => hfree d (by simp [h])) fun d h => hshort d (by simp [h])
    have hquiet := @sent_quiet SRCPATH c rs hrs (fun r h => hfree r (by simp [h]))
      (fun r h => hshort r (by simp [h])) hc ds
    have hanswer : answers SRCPATH (l :: qs ++ ls) =
        SRCPATH ++ [newline] ++ answers SRCPATH (qs ++ ls) := by
      rw [List.cons_append, answers, hl]
    rw [List.cons_append, sent_code hd hpath hfit hc, hquiet, hrest, hanswer, answers_quiet hqs]
  | @goodbye qs ls l rs ds d hqs hl h209 hrs _ hd hread =>
    intro c hc hfree hshort
    have ht := hc.heard (hfree d (by simp)) (hshort d (by simp))
    have hstep : handle SRCPATH c d = ([], .error .goodbye) := by
      rw [handle_comment hd ht, if_pos hread]
    have hanswer : answers SRCPATH (l :: ls) = [] := by
      rw [answers, hl]
      exact if_pos h209
    rw [sent_quiet hrs (fun r h => hfree r (by simp [h])) (fun r h => hshort r (by simp [h])) hc,
      sent_error hstep, answers_quiet hqs, hanswer]
    rfl
  | @stop l ls d ds hl hd =>
    intro c _ _ _
    rw [← hd] at hl
    rw [sent_stop hl, answers, ← hd]
    rcases hl with hl | hl <;> rw [hl]

theorem nulFree_reads (h : NulFree (ds.map Delivery.bytes).flatten) : ∀ d ∈ ds, NulFree d.bytes :=
  fun d hd h0 => h (List.mem_flatten.mpr ⟨d.bytes, List.mem_map_of_mem hd, h0⟩)

theorem nulFree_lines (hlines : ∀ l ∈ lines, StreamLine l) : NulFree lines.flatten := fun h0 => by
  obtain ⟨l, hl, hl0⟩ := List.mem_flatten.mp h0
  exact (hlines l hl).2.1 hl0

/-- The reads of a segmentation have no NULs if the lines have none. -/
theorem Cut.nulFree (cut : Cut lines) (hlines : ∀ l ∈ lines, StreamLine l) :
    ∀ d ∈ cut.reads, NulFree d.bytes :=
  nulFree_reads (by rw [cut.flatten_eq]; exact nulFree_lines hlines)

/-- **Two clean segmentations of one stream send the same.** -/
theorem sent_eq_of_clean (hpath : NulFree SRCPATH) (hlines : ∀ l ∈ lines, StreamLine l)
    (cut cut' : Cut lines) (hclean : Clean SRCPATH lines cut.reads)
    (hclean' : Clean SRCPATH lines cut'.reads) (ebuffer ebuffer' : CArray (MAXBUFFER + 1)) :
    sent (newConnection SRCPATH (.start (.zero _) ebuffer) cut.reads) =
      sent (newConnection SRCPATH (.start (.zero _) ebuffer') cut'.reads) := by
  have hidle : ∀ e, (Conn.start (.zero _) e).Idle := fun _ => ⟨rfl, cleared_zero⟩
  rw [sent_of_clean hpath hclean _ (hidle _) (cut.nulFree hlines) cut.short,
    sent_of_clean hpath hclean' _ (hidle _) (cut'.nulFree hlines) cut'.short]

end PosixNet.Exercise
