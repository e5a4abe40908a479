import PosixNet.ExerciseFiletransfer

/-!
# `exercise`: one connection

`newConnection` reads from its socket and looks at the first byte of what it read.
An E command is not answered at once: it is kept in `ebuffer`, with its length in
`esize`, until the next read that is an E command again, or no command at all.

`handle` is one iteration of the loop and `newConnection` the loop.  A read comes
with the world its handling meets (`Delivery`); what is written to the socket is
recorded with the function that wrote it (`Write`), and the session with its end and
the number of reads it took.

The buffer of the reads is only partly cleared between them, so the text a handler
sees is the read and what stands behind it: `heard_cleared` says that from the
second read on this is nothing.
-/
namespace PosixNet.Exercise

/-- A `read` that returned data. -/
structure Delivery where
  bytes : List Byte
  nonempty : bytes ≠ []
  le : bytes.length ≤ MAXBUFFER
  world : World

/-- A read of this text, in a world in which every call succeeds. -/
def Delivery.said (text : String)
    (h : ascii text ≠ [] ∧ (ascii text).length ≤ MAXBUFFER := by decide) : Delivery :=
  ⟨ascii text, h.1, h.2, .withFile [] [] 0⟩

/-- The branches of `newConnection`, by the first byte of the read. -/
inductive Command where
  | echo | comment | code | file | accept | quit | other
  deriving DecidableEq

/-- The tests of lines 306–368. -/
def commandOf : List Byte → Command
  | [] => .other
  | b :: _ =>
    if b = 'E'.toUInt8 then .echo
    else if b = '#'.toUInt8 then .comment
    else if b = 'C'.toUInt8 then .code
    else if b = 'F'.toUInt8 then .file
    else if b = 'A'.toUInt8 then .accept
    else if b = 'Q'.toUInt8 then .quit
    else .other

/-- A `write` to `sockfd`, by the function that makes it. -/
inductive Write where
  | echoer (bytes : List Byte)
  | getsrcfldr (bytes : List Byte)
  | filetransfer (bytes : List Byte)
  deriving DecidableEq

/-- What a client gets of it. -/
def Write.bytes : Write → List Byte
  | .echoer bytes | .getsrcfldr bytes | .filetransfer bytes => bytes

/-- How a session ends. -/
inductive Ending where
  /-- `read` returned no data. -/
  | eof
  /-- Line 333, after the signal to the parent. -/
  | goodbye
  /-- Line 358, after the signal to the parent. -/
  | accepted
  /-- Line 366. -/
  | quit
  /-- `filetransfer` ended the process. -/
  | exited
  | fault (f : Fault)
  deriving DecidableEq

/-- The local variables of `newConnection` at the head of the loop. -/
structure Conn where
  buffer : CArray (MAXBUFFER + 1)
  ebuffer : CArray (MAXBUFFER + 1)
  esize : Nat
  deriving DecidableEq

/-- `echoer`: the bytes it writes. -/
def echoer (stack line : CArray (MAXBUFFER + 1)) (size : Nat) : Except Fault (List Byte) := do
  let buffer : CArray (MAXBUFFER + 1) ← stack.strncpy line size
  let buffer := buffer.map fun b => if isupper b then b else toupper b
  return buffer.bytes.take size

/-- `getsrcfldr`: the bytes it writes. -/
def getsrcfldr (stack : CArray MAXBUFFER) (SRCPATH : List Byte) : Except Fault (List Byte) := do
  let buffer ← stack.strcpy SRCPATH
  let buffer ← buffer.strcat [newline]
  buffer.str

/-- `buffer` after the `read`. -/
def received (buffer : CArray (MAXBUFFER + 1)) (d : Delivery) : CArray (MAXBUFFER + 1) :=
  buffer.set 0 d.bytes (by have := d.le; omega)

/-- `memset(buffer, 0, MAXBUFFER)`: all but the last byte. -/
def cleared (buffer : CArray (MAXBUFFER + 1)) : CArray (MAXBUFFER + 1) :=
  buffer.set 0 (List.replicate MAXBUFFER 0) (by simp)

/-- What an iteration wrote, and how it went on. -/
abbrev Iteration := List Write × Except Ending Conn

/-- Go on with the string in `buffer`. -/
def withText (buffer : CArray (MAXBUFFER + 1)) (next : List Byte → Except Ending Conn) :
    Except Ending Conn :=
  match buffer.str with
  | .error f => .error (.fault f)
  | .ok text => next text

section Branches
variable (SRCPATH : List Byte) (c : Conn) (d : Delivery) (buffer : CArray (MAXBUFFER + 1))

/-- Lines 316–317. -/
def keep (ebuffer : CArray (MAXBUFFER + 1)) : Except Ending Conn :=
  withText buffer fun text =>
    match ebuffer.strcpy text with
    | .error f => .error (.fault f)
    | .ok ebuffer => .ok ⟨cleared buffer, ebuffer, d.bytes.length⟩

/-- Lines 308–319. -/
def onEcho : Iteration :=
  if 0 < c.esize then
    -- line 311 counts the bytes of this read for the pending line
    match echoer d.world.echoerBuffer c.ebuffer (c.esize + d.bytes.length) with
    | .error f => ([], .error (.fault f))
    | .ok sent => ([.echoer sent], keep d buffer (.zero _))
  else ([], keep d buffer c.ebuffer)

/-- Lines 324–334. -/
def onComment : Iteration :=
  ([], withText buffer fun text =>
    if ascii "209" <:+: text then .error .goodbye else .ok { c with buffer := cleared buffer })

/-- Lines 339–341. -/
def onCode : Iteration :=
  match getsrcfldr d.world.getsrcfldrBuffer SRCPATH with
  | .error f => ([], .error (.fault f))
  | .ok sent => ([.getsrcfldr sent], .ok { c with buffer := cleared buffer })

/-- Lines 346–348. -/
def onFile : Iteration :=
  match buffer.str with
  | .error f => ([], .error (.fault f))
  | .ok text =>
    let transfer := filetransfer d.world text
    ([.filetransfer transfer.sockfd],
      match transfer.ending with
      | .returned _ => .ok { c with buffer := cleared buffer }
      | .exited | .sigpipe => .error .exited
      | .fault f => .error (.fault f))

/-- Lines 374–383. -/
def onOther : Iteration :=
  if 0 < c.esize then
    -- `memcpy` of the bytes read, with no NUL behind them
    match c.ebuffer.store c.esize d.bytes with
    | .error f => ([], .error (.fault f))
    | .ok ebuffer =>
      match echoer d.world.echoerBuffer ebuffer (c.esize + d.bytes.length) with
      | .error f => ([], .error (.fault f))
      | .ok sent => ([.echoer sent], withText buffer fun _ => .ok ⟨cleared buffer, .zero _, 0⟩)
  else ([], withText buffer fun _ => .ok { c with buffer := cleared buffer })

end Branches

/-- One iteration of the loop of `newConnection`. -/
def handle (SRCPATH : List Byte) (c : Conn) (d : Delivery) : Iteration :=
  let buffer := received c.buffer d
  match commandOf d.bytes with
  | .echo => onEcho c d buffer
  | .comment => onComment c buffer
  | .code => onCode SRCPATH c d buffer
  | .file => onFile c d buffer
  | .accept => ([], .error .accepted)
  | .quit => ([], .error .quit)
  | .other => onOther c d buffer

/-- What a session did. -/
structure Session where
  writes : List Write
  ending : Ending
  /-- The number of reads that returned data. -/
  reads : Nat
  deriving DecidableEq

/-- The loop of `newConnection`. -/
def newConnection (SRCPATH : List Byte) : Conn → List Delivery → Session
  | _, [] => ⟨[], .eof, 0⟩
  | c, d :: ds =>
    match handle SRCPATH c d with
    | (writes, .error ending) => ⟨writes, ending, 1⟩
    | (writes, .ok c) =>
      let rest := newConnection SRCPATH c ds
      ⟨writes ++ rest.writes, rest.ending, rest.reads + 1⟩

theorem newConnection_error {SRCPATH : List Byte} {c : Conn} {d : Delivery} {ending : Ending}
    {writes : List Write} (h : handle SRCPATH c d = (writes, .error ending)) (ds : List Delivery) :
    newConnection SRCPATH c (d :: ds) = ⟨writes, ending, 1⟩ := by
  rw [newConnection, h]

theorem newConnection_ok {SRCPATH : List Byte} {c c' : Conn} {d : Delivery} {writes : List Write}
    (h : handle SRCPATH c d = (writes, .ok c')) (ds : List Delivery) :
    newConnection SRCPATH c (d :: ds) = ⟨writes ++ (newConnection SRCPATH c' ds).writes,
      (newConnection SRCPATH c' ds).ending, (newConnection SRCPATH c' ds).reads + 1⟩ := by
  rw [newConnection, h]

/-- `newConnection` before its first read; the arrays are uninitialised. -/
def Conn.start (buffer ebuffer : CArray (MAXBUFFER + 1)) : Conn := ⟨buffer, ebuffer, 0⟩

/-! ## The text of a read -/

/-- The text a handler finds in `buffer`. -/
def heard (buffer : CArray (MAXBUFFER + 1)) (d : Delivery) : Except Fault (List Byte) :=
  (received buffer d).str

variable {buffer : CArray (MAXBUFFER + 1)} {d : Delivery}

theorem received_bytes (buffer : CArray (MAXBUFFER + 1)) (d : Delivery) :
    (received buffer d).bytes = d.bytes ++ buffer.bytes.drop d.bytes.length :=
  CArray.set_zero_bytes _

theorem cleared_bytes (buffer : CArray (MAXBUFFER + 1)) :
    (cleared buffer).bytes = List.replicate MAXBUFFER 0 ++ buffer.bytes.drop MAXBUFFER := by
  rw [cleared, CArray.set_zero_bytes, List.length_replicate]

/-- The read leaves no trace in the cleared buffer. -/
theorem cleared_received (buffer : CArray (MAXBUFFER + 1)) (d : Delivery) :
    cleared (received buffer d) = cleared buffer := by
  apply CArray.ext'
  rw [cleared_bytes, cleared_bytes, received_bytes, List.drop_append,
    List.drop_of_length_le d.le, List.drop_drop, List.nil_append,
    Nat.add_sub_cancel' d.le]

theorem cleared_cleared (buffer : CArray (MAXBUFFER + 1)) :
    cleared (cleared buffer) = cleared buffer := by
  apply CArray.ext'
  rw [cleared_bytes, cleared_bytes, List.drop_left' List.length_replicate]

/-- What is heard is what was read, and what stands behind it. -/
theorem heard_text (hd : NulFree d.bytes) {text : List Byte} (h : heard buffer d = .ok text) :
    text = d.bytes ++ cstr (buffer.bytes.drop d.bytes.length) := by
  have hmem : 0 ∈ (received buffer d).bytes := by
    by_contra hmem
    rw [heard, CArray.str_eq_error hmem] at h
    cases h
  rw [heard, CArray.str_eq hmem, received_bytes, cstr_append hd] at h
  exact (Except.ok.inj h).symm

/-- What is heard begins with what was read. -/
theorem heard_append (hd : NulFree d.bytes) {text : List Byte} (h : heard buffer d = .ok text) :
    ∃ garbage, text = d.bytes ++ garbage := ⟨_, heard_text hd h⟩

/-- With zeros behind the read exactly the read is heard, also if it fills the buffer. -/
theorem heard_zeros (hd : NulFree d.bytes)
    (hzero : ∀ b ∈ buffer.bytes.drop d.bytes.length, b = 0) : heard buffer d = .ok d.bytes := by
  obtain ⟨b, r, hrest⟩ : ∃ b r, buffer.bytes.drop d.bytes.length = b :: r := by
    refine List.exists_cons_of_length_pos ?_
    rw [List.length_drop, buffer.length_eq]
    exact Nat.sub_pos_of_lt (Nat.lt_succ_of_le d.le)
  have hb : b = 0 := hzero b (hrest ▸ List.mem_cons_self)
  have hbytes : (received buffer d).bytes = d.bytes ++ 0 :: r := by
    rw [received_bytes, hrest, hb]
  rw [heard, CArray.str_eq (by rw [hbytes]; simp), hbytes, cstr_append_zero hd]

/-- **In a cleared buffer exactly the read is heard.** -/
theorem heard_cleared (hd : NulFree d.bytes) (hlen : d.bytes.length < MAXBUFFER) :
    heard (cleared buffer) d = .ok d.bytes := by
  have hbytes : ∃ r, (received (cleared buffer) d).bytes = d.bytes ++ 0 :: r := by
    rw [received_bytes, cleared_bytes]
    obtain ⟨k, hk⟩ : ∃ k, MAXBUFFER - d.bytes.length = k + 1 :=
      ⟨MAXBUFFER - d.bytes.length - 1, by omega⟩
    refine ⟨List.replicate k 0 ++ buffer.bytes.drop MAXBUFFER, ?_⟩
    rw [List.drop_append_of_le_length (by simpa using d.le), List.drop_replicate, hk]
    rfl
  obtain ⟨r, hr⟩ := hbytes
  rw [heard, CArray.str_eq (by rw [hr]; simp), hr, cstr_append_zero hd]

/-- A buffer of zeros is a cleared one. -/
@[simp] theorem cleared_zero : cleared (.zero _) = .zero _ := by
  apply CArray.ext'
  rw [cleared_bytes]
  simpa [CArray.zero] using List.replicate_succ'.symm

theorem heard_zero (hd : NulFree d.bytes) : heard (.zero _) d = .ok d.bytes :=
  heard_zeros hd fun _ hb => CArray.eq_zero_of_mem (List.mem_of_mem_drop hb)

/-! ## The helpers -/

/-- `echoer` sends the string of `line`, cut or padded with NULs to `size`. -/
theorem echoer_eq {stack line : CArray (MAXBUFFER + 1)} {size : Nat} (h : size ≤ MAXBUFFER + 1) :
    echoer stack line size =
      .ok (((cstr line.bytes ++ List.replicate size 0).take size).map toupper) := by
  obtain ⟨b, hb, hbytes⟩ := @CArray.strncpy_eq _ stack _ line size h h
  have hupper : (fun b => if isupper b then b else toupper b) = toupper := by
    funext b
    split
    · exact (toupper_of_isupper ‹_›).symm
    · rfl
  have hsent : ((b.map fun b => if isupper b then b else toupper b).bytes).take size =
      ((cstr line.bytes ++ List.replicate size 0).take size).map toupper := by
    rw [hupper]
    show (b.bytes.map toupper).take size = _
    rw [hbytes, List.map_append, List.take_left' (by simp)]
  rw [echoer, hb]
  exact congrArg Except.ok hsent

theorem echoer_eq_error {stack line : CArray (MAXBUFFER + 1)} {size : Nat}
    (h : MAXBUFFER + 1 < size) : echoer stack line size = .error .bounds := by
  rw [echoer, CArray.strncpy_eq_error h]
  rfl

/-- A line that stands in `line` is sent as it is, in upper case. -/
theorem echoer_line {stack line : CArray (MAXBUFFER + 1)} {w r : List Byte} (hw : NulFree w)
    (hline : line.bytes = w ++ r) (h : w.length ≤ MAXBUFFER + 1) :
    echoer stack line w.length = .ok (w.map toupper) := by
  rw [echoer_eq h, hline, cstr_append hw, List.append_assoc, List.take_left]

/-- A size beyond the string in `line` is made up with NULs. -/
theorem echoer_padded {stack line : CArray (MAXBUFFER + 1)} {w r : List Byte} {k : Nat}
    (hw : NulFree w) (hline : line.bytes = w ++ 0 :: r) (h : w.length + k ≤ MAXBUFFER + 1) :
    echoer stack line (w.length + k) = .ok (w.map toupper ++ List.replicate k 0) := by
  rw [echoer_eq h, hline, cstr_append_zero hw, List.take_length_add_append, List.take_replicate,
    List.map_append, List.map_replicate]
  congr 3
  omega

/-- `getsrcfldr` sends the path and a newline, if its buffer holds them. -/
theorem getsrcfldr_eq {stack : CArray MAXBUFFER} {SRCPATH : List Byte} (hpath : NulFree SRCPATH)
    (h : SRCPATH.length + 2 ≤ MAXBUFFER) :
    getsrcfldr stack SRCPATH = .ok (SRCPATH ++ [newline]) := by
  obtain ⟨a, ha, habytes⟩ := CArray.strcpy_eq (a := stack) (t := SRCPATH) (by omega)
  obtain ⟨b, hb, hbbytes⟩ := CArray.strcat_eq (t := [newline]) hpath habytes
    (by simp; omega)
  have hfree : NulFree (SRCPATH ++ [newline]) := nulFree_append.mpr ⟨hpath, by decide⟩
  have hstr : b.str = .ok (SRCPATH ++ [newline]) := by
    rw [CArray.str_eq (by rw [hbbytes]; simp), hbbytes, cstr_append_zero hfree]
  rw [getsrcfldr, ha]
  show (a.strcat [newline] >>= CArray.str) = _
  rw [hb]
  exact hstr

theorem getsrcfldr_eq_error {stack : CArray MAXBUFFER} {SRCPATH : List Byte}
    (hpath : NulFree SRCPATH) (h : MAXBUFFER < SRCPATH.length + 2) :
    getsrcfldr stack SRCPATH = .error .bounds := by
  by_cases hfit : SRCPATH.length < MAXBUFFER
  · obtain ⟨a, ha, habytes⟩ := CArray.strcpy_eq (a := stack) hfit
    have hstr : a.str = .ok SRCPATH := by
      rw [CArray.str_eq (by rw [habytes]; simp), habytes, cstr_append_zero hpath]
    have hstore : a.store SRCPATH.length ([newline] ++ [0]) = .error .bounds :=
      CArray.store_eq_error h
    rw [getsrcfldr, ha]
    show (a.strcat [newline] >>= CArray.str) = _
    rw [CArray.strcat, hstr]
    show (a.store SRCPATH.length ([newline] ++ [0]) >>= CArray.str) = _
    rw [hstore]
    rfl
  · rw [getsrcfldr, CArray.strcpy, CArray.store_eq_error (by simp; omega)]
    rfl

end PosixNet.Exercise
