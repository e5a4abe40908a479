import PosixNet.ExerciseConnection

/-!
# `exercise`: the outcomes of an iteration

What one iteration of `newConnection` does, by the command it finds.  Whether the
session goes on is a question of the read, the length pending and the text heard
(`Continues`); if it does, the buffer is cleared and `esize` is what `pendingAfter`
says (`handle_cases`).

What an iteration sends depends on the state before it in two cases only: a read
that is no command completes a pending E command (`handle_other_flush`), and an E
command pushes out a pending one, with NULs for its own length
(`handle_echo_flush`).  Comments, C and F commands leave what is pending alone
(`handle_aside`).
-/
namespace PosixNet.Exercise

/-- The length in `esize` after the iteration. -/
def pendingAfter (esize : Nat) (w : List Byte) : Nat :=
  match commandOf w with
  | .echo => w.length
  | .comment | .code | .file => esize
  | .accept | .quit | .other => 0

/-- What the branch of a read needs to run to its end: the texts it looks at are
there, a pending line and this read fit `echoer`'s buffer, `SRCPATH` fits that of
`getsrcfldr`, a comment has no `209` in its text and a transfer returns. -/
def Continues (SRCPATH : List Byte) (buffer : CArray (MAXBUFFER + 1)) (esize : Nat)
    (d : Delivery) : Prop :=
  match commandOf d.bytes with
  | .echo | .other => (0 < esize → esize + d.bytes.length ≤ MAXBUFFER + 1) ∧
      ∃ text, heard buffer d = .ok text
  | .comment => ∃ text, heard buffer d = .ok text ∧ ¬ ascii "209" <:+: text
  | .code => SRCPATH.length + 2 ≤ MAXBUFFER
  | .file => ∃ text, heard buffer d = .ok text ∧
      ∃ success, (filetransfer d.world text).ending = .returned success
  | .accept | .quit => False

/-- The bytes `echoer` wrote. -/
def echoed (writes : List Write) : List Byte :=
  writes.flatMap fun
    | .echoer bytes => bytes
    | _ => []

@[simp] theorem echoed_nil : echoed [] = [] := rfl

@[simp] theorem echoed_append (ws ws' : List Write) :
    echoed (ws ++ ws') = echoed ws ++ echoed ws' := List.flatMap_append

@[simp] theorem echoed_echoer (bytes : List Byte) : echoed [.echoer bytes] = bytes := by
  simp [echoed]

/-- A command that the pending echo does not notice. -/
def Command.Aside (k : Command) : Prop := k = .comment ∨ k = .code ∨ k = .file

instance (k : Command) : Decidable k.Aside := inferInstanceAs (Decidable (_ ∨ _))

variable {SRCPATH text w r : List Byte} {c c' : Conn} {d : Delivery}
  {buffer e : CArray (MAXBUFFER + 1)}

/-! ## Connections with and without a pending line -/

/-- A connection with nothing pending and a cleared buffer. -/
structure Conn.Idle (c : Conn) : Prop where
  esize : c.esize = 0
  buffer : cleared c.buffer = c.buffer

theorem Conn.Idle.heard (hc : c.Idle) (hd : NulFree d.bytes) (hlen : d.bytes.length < MAXBUFFER) :
    heard c.buffer d = .ok d.bytes := by
  rw [← hc.buffer]
  exact heard_cleared hd hlen

/-- A connection with the line `w` pending, and nothing after it in `ebuffer`. -/
structure Conn.Pending (c : Conn) (w : List Byte) : Prop where
  nulFree : NulFree w
  pos : 0 < w.length
  esize : c.esize = w.length
  ebuffer : ∃ r, c.ebuffer.bytes = w ++ 0 :: r

theorem Delivery.length_pos (d : Delivery) : 0 < d.bytes.length :=
  List.length_pos_iff.mpr d.nonempty

/-! ## Going on -/

theorem withText_ok (h : buffer.str = .ok text) (next : List Byte → Except Ending Conn) :
    withText buffer next = next text := by rw [withText, h]

theorem withText_error {f : Fault} (h : buffer.str = .error f)
    (next : List Byte → Except Ending Conn) : withText buffer next = .error (.fault f) := by
  rw [withText, h]

/-- The string just read is kept in `ebuffer`. -/
theorem keep_eq (h : buffer.str = .ok text) : ∃ e', keep d buffer e =
    .ok ⟨cleared buffer, e', d.bytes.length⟩ ∧
      e'.bytes = text ++ 0 :: e.bytes.drop (text.length + 1) := by
  obtain ⟨e', he', hbytes⟩ := CArray.strcpy_eq (a := e) (CArray.str_length_lt h)
  refine ⟨e', ?_, hbytes⟩
  rw [keep, withText_ok h, he']

theorem keep_error {f : Fault} (h : buffer.str = .error f) :
    keep d buffer e = .error (.fault f) := by
  rw [keep, withText_error h]

/-- **How an iteration goes on.**  If the branch of the read has what it needs, the
loop goes on with the buffer cleared and the length pending known; if not, the
session ends, and not as at the end of the stream. -/
theorem handle_cases (hpath : NulFree SRCPATH) (c : Conn) (d : Delivery) :
    (Continues SRCPATH c.buffer c.esize d ∧ ∃ c', (handle SRCPATH c d).2 = .ok c' ∧
      c'.buffer = cleared c.buffer ∧ c'.esize = pendingAfter c.esize d.bytes) ∨
    (¬ Continues SRCPATH c.buffer c.esize d ∧
      ∃ ending, (handle SRCPATH c d).2 = .error ending ∧ ending ≠ .eof) := by
  rw [← cleared_received c.buffer d]
  simp only [Continues, pendingAfter, handle, heard]
  cases hcmd : commandOf d.bytes with
  | echo =>
    simp only [onEcho]
    by_cases hpos : 0 < c.esize
    · by_cases hfit : c.esize + d.bytes.length ≤ MAXBUFFER + 1
      · cases hstr : (received c.buffer d).str with
        | error f => simp [hpos, echoer_eq hfit, keep_error hstr]
        | ok text =>
          obtain ⟨e, he, -⟩ := @keep_eq text d (received c.buffer d) (.zero _) hstr
          simp [hpos, hfit, echoer_eq hfit, he]
      · simp [hpos, hfit, echoer_eq_error (Nat.lt_of_not_le hfit)]
    · cases hstr : (received c.buffer d).str with
      | error f => simp [hpos, keep_error hstr]
      | ok text =>
        obtain ⟨e, he, -⟩ := @keep_eq text d (received c.buffer d) c.ebuffer hstr
        simp [hpos, he]
  | comment =>
    simp only [onComment]
    cases hstr : (received c.buffer d).str with
    | error f => simp [withText_error hstr]
    | ok text => by_cases h209 : ascii "209" <:+: text <;> simp [withText_ok hstr, h209]
  | code =>
    by_cases hfit : SRCPATH.length + 2 ≤ MAXBUFFER
    · simp [onCode, getsrcfldr_eq hpath hfit, hfit]
    · simp [onCode, getsrcfldr_eq_error hpath (Nat.lt_of_not_le hfit), hfit]
  | file =>
    simp only [onFile]
    cases (received c.buffer d).str with
    | error f => simp
    | ok text => cases htransfer : (filetransfer d.world text).ending <;> simp [htransfer]
  | accept | quit => simp
  | other =>
    simp only [onOther]
    by_cases hpos : 0 < c.esize
    · by_cases hfit : c.esize + d.bytes.length ≤ MAXBUFFER + 1
      · cases hstr : (received c.buffer d).str with
        | error f => simp [hpos, CArray.store_eq hfit, echoer_eq hfit, withText_error hstr]
        | ok text => simp [hpos, hfit, CArray.store_eq hfit, echoer_eq hfit, withText_ok hstr]
      · simp [hpos, hfit, CArray.store_eq_error (Nat.lt_of_not_le hfit)]
    · -- with nothing pending `esize` is left alone, at zero
      cases hstr : (received c.buffer d).str with
      | error f => simp [hpos, withText_error hstr]
      | ok text => simp [withText_ok hstr, Nat.eq_zero_of_not_pos hpos]

/-! ## What is sent -/

/-- **Comments, C and F commands leave what is pending alone**, do the same whatever is
pending, and nothing through `echoer`. -/
theorem handle_aside (SRCPATH : List Byte) (buffer : CArray (MAXBUFFER + 1))
    (hcmd : (commandOf d.bytes).Aside) : ∃ ws, echoed ws = [] ∧
      ((∃ ending, ∀ e n, handle SRCPATH ⟨buffer, e, n⟩ d = (ws, .error ending)) ∨
        ∀ e n, handle SRCPATH ⟨buffer, e, n⟩ d = (ws, .ok ⟨cleared buffer, e, n⟩)) := by
  rw [← cleared_received buffer d]
  rcases hcmd with hcmd | hcmd | hcmd
  · refine ⟨[], rfl, ?_⟩
    simp only [handle, hcmd, onComment]
    cases hstr : (received buffer d).str with
    | error f => exact Or.inl ⟨.fault f, fun _ _ => by rw [withText_error hstr]⟩
    | ok text =>
      simp only [withText_ok hstr]
      by_cases h209 : ascii "209" <:+: text
      · exact Or.inl ⟨.goodbye, fun _ _ => by rw [if_pos h209]⟩
      · exact Or.inr fun _ _ => by rw [if_neg h209]
  · simp only [handle, hcmd, onCode]
    cases getsrcfldr d.world.getsrcfldrBuffer SRCPATH with
    | error f => exact ⟨[], rfl, Or.inl ⟨.fault f, fun _ _ => rfl⟩⟩
    | ok sent => exact ⟨[.getsrcfldr sent], rfl, Or.inr fun _ _ => rfl⟩
  · simp only [handle, hcmd, onFile]
    cases (received buffer d).str with
    | error f => exact ⟨[], rfl, Or.inl ⟨.fault f, fun _ _ => rfl⟩⟩
    | ok text =>
      refine ⟨[.filetransfer (filetransfer d.world text).sockfd], rfl, ?_⟩
      cases hend : (filetransfer d.world text).ending with
      | returned success => exact Or.inr fun _ _ => by simp only [hend]
      | exited | sigpipe => exact Or.inl ⟨.exited, fun _ _ => by simp only [hend]⟩
      | fault f => exact Or.inl ⟨.fault f, fun _ _ => by simp only [hend]⟩

/-- A comment, C or F command leaves all but the buffer alone, or ends the session. -/
theorem aside_cases (hpath : NulFree SRCPATH) (hcmd : (commandOf d.bytes).Aside) :
    (Continues SRCPATH c.buffer c.esize d ∧ ∃ ws, echoed ws = [] ∧
      handle SRCPATH c d = (ws, .ok { c with buffer := cleared c.buffer })) ∨
    (¬ Continues SRCPATH c.buffer c.esize d ∧ ∃ ws ending, echoed ws = [] ∧
      handle SRCPATH c d = (ws, .error ending)) := by
  obtain ⟨ws, hsilent, hstep⟩ := handle_aside SRCPATH c.buffer hcmd
  rcases handle_cases hpath c d with ⟨hgo, c', hc', -⟩ | ⟨hover, ending, hending, -⟩ <;>
    rcases hstep with ⟨ending', hstep⟩ | hstep
  · rw [hstep] at hc'
    cases hc'
  · exact Or.inl ⟨hgo, ws, hsilent, hstep _ _⟩
  · exact Or.inr ⟨hover, ws, ending', hsilent, hstep _ _⟩
  · rw [hstep] at hending
    cases hending

/-- An E command with nothing pending is kept. -/
theorem handle_echo_idle (hcmd : commandOf d.bytes = .echo) (hidle : c.esize = 0)
    (ht : heard c.buffer d = .ok text) : ∃ e r, handle SRCPATH c d =
      ([], .ok ⟨cleared c.buffer, e, d.bytes.length⟩) ∧ e.bytes = text ++ 0 :: r := by
  obtain ⟨e, he, hbytes⟩ := @keep_eq text d (received c.buffer d) c.ebuffer ht
  refine ⟨e, _, ?_, hbytes⟩
  rw [← cleared_received c.buffer d, ← he]
  simp [handle, hcmd, onEcho, hidle]

/-- An E command that arrives in a cleared buffer is pending after it. -/
theorem handle_echo_pending (hcmd : commandOf d.bytes = .echo) (hc : c.Idle)
    (hd : NulFree d.bytes) (hlen : d.bytes.length < MAXBUFFER) :
    ∃ c', handle SRCPATH c d = ([], .ok c') ∧ c'.Pending d.bytes := by
  obtain ⟨e, r, hstep, hline⟩ :=
    @handle_echo_idle SRCPATH d.bytes c d hcmd hc.esize (hc.heard hd hlen)
  exact ⟨_, hstep, hd, d.length_pos, rfl, r, hline⟩

/-- An E command pushes out a pending one, made up with NULs for its own length. -/
theorem handle_echo_flush (hcmd : commandOf d.bytes = .echo) (hp : c.Pending w)
    (hfit : w.length + d.bytes.length ≤ MAXBUFFER + 1) : handle SRCPATH c d =
      ([.echoer (w.map toupper ++ List.replicate d.bytes.length 0)],
        keep d (received c.buffer d) (.zero _)) := by
  obtain ⟨r, hline⟩ := hp.ebuffer
  simp [handle, hcmd, onEcho, hp.esize, hp.pos, echoer_padded hp.nulFree hline hfit]

/-- An E command too long to push out the pending one with. -/
theorem handle_echo_overflow (hcmd : commandOf d.bytes = .echo) (hp : c.Pending w)
    (hfit : MAXBUFFER + 1 < w.length + d.bytes.length) :
    handle SRCPATH c d = ([], .error (.fault .bounds)) := by
  simp [handle, hcmd, onEcho, hp.esize, hp.pos, echoer_eq_error hfit]

/-- A read that is no command, with nothing pending, does nothing. -/
theorem handle_other_idle (hcmd : commandOf d.bytes = .other) (hidle : c.esize = 0)
    (ht : heard c.buffer d = .ok text) :
    handle SRCPATH c d = ([], .ok { c with buffer := cleared c.buffer }) := by
  rw [← cleared_received c.buffer d]
  have hstr : (received c.buffer d).str = .ok text := ht
  simp [handle, hcmd, onOther, hidle, withText_ok hstr]

/-- A read that is no command completes a pending E command. -/
theorem handle_other_line (hcmd : commandOf d.bytes = .other) (hw : NulFree w)
    (hd : NulFree d.bytes) (hpos : 0 < w.length) (hsize : c.esize = w.length)
    (hline : c.ebuffer.bytes = w ++ r) (hfit : w.length + d.bytes.length ≤ MAXBUFFER + 1) :
    handle SRCPATH c d = ([.echoer ((w ++ d.bytes).map toupper)],
      withText (received c.buffer d) fun _ => .ok ⟨cleared (received c.buffer d), .zero _, 0⟩) := by
  have hjoined : (c.ebuffer.set w.length d.bytes hfit).bytes =
      (w ++ d.bytes) ++ c.ebuffer.bytes.drop (w.length + d.bytes.length) := by
    rw [CArray.set_bytes, hline, List.take_left]
  have hsent := @echoer_line d.world.echoerBuffer _ _ _ (nulFree_append.mpr ⟨hw, hd⟩) hjoined
    (by simpa using hfit)
  rw [List.length_append] at hsent
  simp only [handle, hcmd, onOther, hsize, if_pos hpos, CArray.store_eq hfit, hsent]

/-- With a text in the buffer the session goes on with nothing pending. -/
theorem handle_other_flush (hcmd : commandOf d.bytes = .other) (hw : NulFree w)
    (hd : NulFree d.bytes) (hpos : 0 < w.length) (hsize : c.esize = w.length)
    (hline : c.ebuffer.bytes = w ++ r) (hfit : w.length + d.bytes.length ≤ MAXBUFFER + 1)
    (ht : heard c.buffer d = .ok text) : handle SRCPATH c d =
      ([.echoer ((w ++ d.bytes).map toupper)], .ok ⟨cleared c.buffer, .zero _, 0⟩) := by
  have hstr : (received c.buffer d).str = .ok text := ht
  rw [handle_other_line hcmd hw hd hpos hsize hline hfit, withText_ok hstr, cleared_received]

/-- A C command is answered with the path. -/
theorem handle_code (hcmd : commandOf d.bytes = .code) (hpath : NulFree SRCPATH)
    (hfit : SRCPATH.length + 2 ≤ MAXBUFFER) : handle SRCPATH c d =
      ([.getsrcfldr (SRCPATH ++ [newline])], .ok { c with buffer := cleared c.buffer }) := by
  rw [← cleared_received c.buffer d]
  simp [handle, hcmd, onCode, getsrcfldr_eq hpath hfit]

/-- An A or Q command ends the session. -/
theorem handle_stop (hcmd : commandOf d.bytes = .accept ∨ commandOf d.bytes = .quit) :
    ∃ ending, handle SRCPATH c d = ([], .error ending) := by
  rcases hcmd with hcmd | hcmd
  · exact ⟨.accepted, by simp [handle, hcmd]⟩
  · exact ⟨.quit, by simp [handle, hcmd]⟩

/-- A comment that is heard ends the session or does nothing. -/
theorem handle_comment (hcmd : commandOf d.bytes = .comment) (ht : heard c.buffer d = .ok text) :
    handle SRCPATH c d = ([], if ascii "209" <:+: text then .error .goodbye
      else .ok { c with buffer := cleared c.buffer }) := by
  rw [← cleared_received c.buffer d]
  have hstr : (received c.buffer d).str = .ok text := ht
  simp [handle, hcmd, onComment, withText_ok hstr]

/-- **An E command split in two is sent back whole**, and nothing stays pending. -/
theorem newConnection_halves {d' : Delivery} (hcmd : commandOf d.bytes = .echo)
    (hother : commandOf d'.bytes = .other) (hidle : c.esize = 0) (hd : NulFree d.bytes)
    (hd' : NulFree d'.bytes) (hfit : d.bytes.length + d'.bytes.length ≤ MAXBUFFER + 1)
    (hshort : d'.bytes.length < MAXBUFFER) (ht : heard c.buffer d = .ok text)
    (ds : List Delivery) : (newConnection SRCPATH c (d :: d' :: ds)).writes =
      .echoer ((d.bytes ++ d'.bytes).map toupper) ::
        (newConnection SRCPATH (.start (cleared c.buffer) (.zero _)) ds).writes := by
  obtain ⟨e, r, hfirst, hline⟩ := @handle_echo_idle SRCPATH text c d hcmd hidle ht
  obtain ⟨garbage, rfl⟩ := heard_append hd ht
  rw [List.append_assoc] at hline
  have hheard : heard (cleared c.buffer) d' = .ok d'.bytes := heard_cleared hd' hshort
  have hsecond := @handle_other_flush SRCPATH d'.bytes d.bytes _
    ⟨cleared c.buffer, e, d.bytes.length⟩ d' hother hd hd' d.length_pos rfl hline hfit hheard
  rw [newConnection_ok hfirst, newConnection_ok hsecond, cleared_cleared]
  rfl

end PosixNet.Exercise
