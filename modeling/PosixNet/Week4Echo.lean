import PosixNet.ReadLoop
import PosixNet.Lines

/-!
# `week4`: the echo client and the echo server

`teht6_client.c` and `teht6_server.c`, after the connection has been made; the loop of
`teht2.c`, the client of the public echo service, is the same with `write` in place of
`send`.  The client reads a line, sends it, makes **one** `read` into the buffer the
line still stands in, and prints that buffer as a string.  The child of the server
sends back what it reads.

What the client prints is the reply and, behind it, the end of the line just sent
(`shown`).  As the reply is a prefix of what was sent, this looks right even when half
of it is still under way, and the rest is then taken for the answer to the next line:
`echo_agrees_iff` says that client and server agree exactly in the runs in which every
reply but the last one arrives whole.
-/
namespace PosixNet.Week4

/-- What the client and the server read and write. -/
inductive Chan where
  | stdin | stdout
  /-- The two directions of the connection. -/
  | toServer | toClient
  deriving DecidableEq

/-- The client, and the child of the server that serves it. -/
inductive Proc where
  | client | server
  deriving DecidableEq

/-- Where the client is in its loop, lines 52–75. -/
inductive Client where
  | fgets
  /-- Line 60, with the string of the buffer. -/
  | send (buffer : CArray 256) (text : List Byte)
  /-- Line 68. -/
  | read (buffer : CArray 256)
  /-- Line 74, with the string of the buffer. -/
  | printf (text : List Byte)
  | fault (f : Fault)
  deriving DecidableEq

/-- The next call of the client. -/
def client : Client → Call Chan Client
  | .fgets => .fgets .stdin 256 fun line =>
    -- at end of file there is no line, and the cleared buffer is the empty string
    match fill (.zero 256) (line ++ [0]) with
    | .error f => .fault f
    | .ok (buffer, text) => .send buffer text
  | .send buffer text => .write .toServer text (.read buffer)
  | .read buffer => .read .toClient 255 fun bytes =>
    match fill buffer bytes with
    | .error f => .fault f
    | .ok (_, text) => .printf text
  | .printf text => .write .stdout (text ++ [newline]) .fgets
  | .fault _ => .stop

/-- `echoer` of `teht6_server.c`. -/
def echoer : ReadLoop Chan (CArray 256) where
  input := .toServer
  output := .toClient
  size := 255
  body buffer bytes :=
    if bytes = [] then .finish
    else match buffer.store 0 bytes with
      | .error f => .fault f
      | .ok buffer => .next [buffer.bytes.take bytes.length] buffer

/-- The state of either process. -/
abbrev State : Proc → Type
  | .client => Client
  | .server => LoopState (CArray 256)

/-- The next call of either process. -/
def program : (i : Proc) → State i → Call Chan (State i)
  | .client => client
  | .server => echoer.program

/-- A connection before the first line. -/
def start (stdin : List Byte) : Net Chan State where
  proc
    | .client => .fgets
    | .server => .reading (.zero 256)
  chan
    | .stdin => stdin
    | _ => []
  writers
    | .stdin => 0
    | _ => 1

/-- What stands on standard input: lines that fit the buffer, each of them finished but
possibly the last. -/
structure Input (lines : List (List Byte)) : Prop where
  finished : ∀ l ∈ lines.dropLast, IsLine l
  last : ∀ l ∈ lines.getLast?, l ≠ [] ∧ newline ∉ l.dropLast
  nulFree : ∀ l ∈ lines, NulFree l
  short : ∀ l ∈ lines, l.length ≤ 255

abbrev Trace := List (Net Chan State × (Proc × Io Chan))

/-- The client and the server agree. -/
structure Agreed (lines : List (List Byte)) (tr : Trace) : Prop where
  /-- The `k`-th text printed is the `k`-th line. -/
  printed : ∀ (k : Nat) (text : List Byte), (writes .stdout (Net.events tr))[k]? = some text →
    ∃ l, lines[k]? = some l ∧ text = l ++ [newline]
  /-- When a line is read, all lines before it have been received. -/
  waited : ∀ pre u line post, tr = pre ++ (u, (.client, .read .stdin line)) :: post →
    (reads .toClient (Net.events pre)).flatten = (reads .stdin (Net.events pre)).flatten

/-! ## The client

What the client does depends on its reads alone, so it is settled for any peer. -/

/-- The buffer after line 57. -/
def page (line : List Byte) : List Byte := line ++ List.replicate (256 - line.length) 0

/-- What the client prints for a line and a reply to it. -/
def shown (line reply : List Byte) : List Byte :=
  cstr (reply ++ (page line).drop reply.length) ++ [newline]

/-- A line that fits leaves room for a NUL. -/
theorem page_eq {line : List Byte} (h : line.length ≤ 255) :
    page line = line ++ [0] ++ List.replicate (255 - line.length) 0 := by
  rw [page, show 256 - line.length = (255 - line.length) + 1 by omega, List.replicate_succ,
    List.append_assoc]
  rfl

theorem fill_line {line : List Byte} (h : line.length ≤ 255) : ∃ b : CArray 256,
    b.bytes = page line ∧ fill (.zero 256) (line ++ [0]) = .ok (b, cstr line) := by
  have hframe : frame (.zero 256) (line ++ [0]) = page line := by
    rw [frame_zero, page_eq h, List.length_append, List.length_singleton,
      show 256 - (line.length + 1) = 255 - line.length by omega]
  obtain ⟨b, hb, hfill⟩ := @fill_eq _ (.zero 256) (line ++ [0]) (by simp; omega)
    (by rw [frame]; simp)
  have htext : cstr (page line) = cstr line := by
    rw [page_eq h, List.append_assoc]
    exact cstr_append_nul _ _
  exact ⟨b, hb.trans hframe, by rw [hfill, hframe, htext]⟩

theorem fill_reply {line reply : List Byte} {buffer : CArray 256} (hline : line.length ≤ 255)
    (hbuffer : buffer.bytes = page line) (hreply : reply.length ≤ 255) : ∃ b text,
      fill buffer reply = .ok (b, text) ∧ text ++ [newline] = shown line reply := by
  have h0 : 0 ∈ (page line).drop reply.length := by
    have hlast : (page line)[255]? = some 0 := by
      rw [page, List.getElem?_append_right hline, List.getElem?_replicate_of_lt (by omega)]
    refine List.mem_of_getElem? (i := 255 - reply.length) ?_
    rw [List.getElem?_drop, Nat.add_sub_cancel' hreply, hlast]
  obtain ⟨b, -, hfill⟩ := @fill_eq _ buffer reply (by omega)
    (by rw [frame, hbuffer]; exact List.mem_append_right _ h0)
  exact ⟨b, _, hfill, by rw [frame, hbuffer]; rfl⟩

/-- What the client has read, sent and printed, by where it is: lines `L`, replies `C`,
sent `S`, printed `W`. -/
def Accounts (L C S W : List (List Byte)) : Client → Prop
  | .fgets => C.length = L.length ∧ S = L.map cstr ∧ W = List.zipWith shown L C
  | .send buffer text => ∃ L' l, L = L' ++ [l] ∧ l.length ≤ 255 ∧ C.length = L'.length ∧
      S = L'.map cstr ∧ W = List.zipWith shown L' C ∧ buffer.bytes = page l ∧ text = cstr l
  | .read buffer => ∃ L' l, L = L' ++ [l] ∧ l.length ≤ 255 ∧ C.length = L'.length ∧
      S = L.map cstr ∧ W = List.zipWith shown L' C ∧ buffer.bytes = page l
  | .printf text => ∃ L' l C' c, L = L' ++ [l] ∧ C = C' ++ [c] ∧ C'.length = L'.length ∧
      S = L.map cstr ∧ W = List.zipWith shown L' C' ∧ text ++ [newline] = shown l c
  | .fault _ => False

/-- A step of the client. -/
theorem client_cases {s s' : Client} {e : Io Chan} (h : Local client s e s') :
    (∃ line, s = .fgets ∧ e = .read .stdin line ∧ line.length ≤ 255 ∧
      s' = match fill (.zero 256) (line ++ [0]) with
        | .error f => .fault f
        | .ok (buffer, text) => .send buffer text) ∨
    (∃ buffer text, s = .send buffer text ∧ e = .write .toServer text ∧ s' = .read buffer) ∨
    (∃ buffer reply, s = .read buffer ∧ e = .read .toClient reply ∧ reply.length ≤ 255 ∧
      s' = match fill buffer reply with
        | .error f => .fault f
        | .ok (_, text) => .printf text) ∨
    (∃ text, s = .printf text ∧ e = .write .stdout (text ++ [newline]) ∧ s' = .fgets) := by
  cases s with
  | fgets =>
    cases h with
    | fgets hcall line hlen =>
      obtain ⟨rfl, rfl, rfl⟩ := Call.fgets.inj hcall
      exact .inl ⟨line, rfl, rfl, hlen, rfl⟩
    | _ hcall => cases hcall
  | send buffer text =>
    cases h with
    | write hcall =>
      obtain ⟨rfl, rfl, rfl⟩ := Call.write.inj hcall
      exact .inr (.inl ⟨buffer, _, rfl, rfl, rfl⟩)
    | _ hcall => cases hcall
  | read buffer =>
    cases h with
    | read hcall reply hlen =>
      obtain ⟨rfl, rfl, rfl⟩ := Call.read.inj hcall
      exact .inr (.inr (.inl ⟨buffer, reply, rfl, rfl, hlen, rfl⟩))
    | _ hcall => cases hcall
  | printf text =>
    cases h with
    | write hcall =>
      obtain ⟨rfl, rfl, rfl⟩ := Call.write.inj hcall
      exact .inr (.inr (.inr ⟨text, rfl, rfl, rfl⟩))
    | _ hcall => cases hcall
  | fault f => cases h with | _ hcall => cases hcall

/-- **The client in a run**, with any peer: the `k`-th text it prints is made of the
`k`-th line and the `k`-th reply. -/
theorem client_run {tr : List (Client × Io Chan)} {s : Client}
    (run : Run (Local client) .fgets tr s) :
    Accounts (reads .stdin (labels tr)) (reads .toClient (labels tr))
      (writes .toServer (labels tr)) (writes .stdout (labels tr)) s := by
  refine run.invariant (I := fun tr s => Accounts (reads .stdin (labels tr))
    (reads .toClient (labels tr)) (writes .toServer (labels tr)) (writes .stdout (labels tr)) s)
    ⟨rfl, rfl, rfl⟩ ?_
  intro tr s e s' _ ih h
  simp only [labels_append, labels_cons, labels_nil, reads_append, writes_append]
  rcases client_cases h with ⟨line, rfl, rfl, hlen, rfl⟩ | ⟨buffer, text, rfl, rfl, rfl⟩ |
    ⟨buffer, reply, rfl, rfl, hlen, rfl⟩ | ⟨text, rfl, rfl, rfl⟩
  · obtain ⟨hC, hS, hW⟩ := ih
    obtain ⟨b, hb, hfill⟩ := fill_line hlen
    simp only [hfill, reads_read, writes_read, reads_of_ne (show Chan.stdin ≠ .toClient by decide),
      List.append_nil]
    exact ⟨_, line, rfl, hlen, hC, hS, hW, hb, rfl⟩
  · obtain ⟨L', l, hL, hl, hC, hS, hW, hb, rfl⟩ := ih
    simp only [reads_write, writes_write, writes_of_ne (show Chan.toServer ≠ .stdout by decide),
      List.append_nil]
    exact ⟨L', l, hL, hl, hC, by rw [hS, hL, List.map_append]; rfl, hW, hb⟩
  · obtain ⟨L', l, hL, hl, hC, hS, hW, hb⟩ := ih
    obtain ⟨b, text, hfill, htext⟩ := fill_reply hl hb hlen
    simp only [hfill, reads_read, writes_read,
      reads_of_ne (show Chan.toClient ≠ .stdin by decide), List.append_nil]
    exact ⟨L', l, _, reply, hL, rfl, hC, hS, hW, htext⟩
  · obtain ⟨L', l, C', c, hL, hC, hlen, hS, hW, htext⟩ := ih
    simp only [reads_write, writes_write, writes_of_ne (show Chan.stdout ≠ .toServer by decide),
      List.append_nil]
    refine ⟨by rw [hL, hC]; simp [hlen], hS, ?_⟩
    rw [hL, hC, hW, htext, List.zipWith_append hlen.symm]
    rfl

/-! ## The server -/

theorem echoer_body {x : List Byte} (hx : x ≠ []) (hlen : 0 + x.length ≤ 256)
    (buffer : CArray 256) : echoer.body buffer x = .next [x] (buffer.set 0 x hlen) := by
  simp only [echoer, if_neg hx, CArray.store_eq hlen]
  rw [CArray.set_zero_bytes, List.take_left]

/-- **The server sends back what it reads**, and nothing else. -/
theorem echoer_rounds {xs : List (List Byte)} (hxs : ∀ x ∈ xs, x.length ≤ 255) :
    ∀ buffer : CArray 256, (echoer.rounds buffer xs).1.flatten <+: xs.flatten := by
  induction xs with
  | nil => exact fun buffer => List.prefix_refl _
  | cons x xs ih =>
    intro buffer
    by_cases hx : x = []
    · rw [ReadLoop.rounds_finish (if_pos hx)]
      exact List.nil_prefix
    · have hlen : 0 + x.length ≤ 256 := by
        have := hxs x List.mem_cons_self
        omega
      rw [ReadLoop.rounds_next (echoer_body hx hlen buffer), List.flatten_append,
        List.flatten_cons, List.flatten_nil, List.append_nil, List.flatten_cons,
        List.prefix_append_right_inj]
      exact ih (fun y hy => hxs y (List.mem_cons_of_mem _ hy)) _

/-! ## The lines of standard input -/

theorem Input.tail {l : List Byte} {lines : List (List Byte)} (h : Input (l :: lines)) :
    Input lines where
  finished x hx := by
    cases lines with
    | nil => simp at hx
    | cons y lines => exact h.finished x (List.mem_cons_of_mem _ hx)
  last x hx := by
    cases lines with
    | nil => simp at hx
    | cons y lines => exact h.last x (by rw [List.getLast?_cons_cons]; exact hx)
  nulFree x hx := h.nulFree x (List.mem_cons_of_mem _ hx)
  short x hx := h.short x (List.mem_cons_of_mem _ hx)

theorem Input.drop {lines : List (List Byte)} (h : Input lines) (k : Nat) :
    Input (lines.drop k) := by
  induction k generalizing lines with
  | zero => exact h
  | succ k ih =>
    cases lines with
    | nil => exact h
    | cons l lines => exact ih h.tail

/-- `fgets` takes the next line. -/
theorem Input.fgets {lines : List (List Byte)} (h : Input lines) :
    fgets 255 lines.flatten = lines.head?.getD [] := by
  cases lines with
  | nil => rfl
  | cons l lines =>
    have hlen : l.length ≤ 255 := h.short l List.mem_cons_self
    rw [List.flatten_cons, List.head?_cons, Option.getD_some]
    by_cases hline : IsLine l
    · obtain ⟨body, rfl, hbody⟩ := hline.exists_body
      rw [List.append_assoc]
      refine fgets_line hbody _ ?_
      rw [List.length_append, List.length_singleton] at hlen
      omega
    · cases lines with
      | cons y lines => exact absurd (h.finished l List.mem_cons_self) hline
      | nil =>
        obtain ⟨hne, hbody⟩ := h.last l rfl
        rw [List.flatten_nil, List.append_nil]
        refine fgets_last (fun hmem => hline ?_) hlen
        obtain ⟨body, b, rfl⟩ := List.eq_nil_or_concat' l |>.resolve_left hne
        rw [List.dropLast_concat] at hbody
        rcases List.mem_append.mp hmem with hmem | hmem
        · exact absurd hmem hbody
        · rw [← List.mem_singleton.mp hmem]
          exact isLine_append hbody

/-! ## The connection -/

section Connection
variable {lines : List (List Byte)} {tr : Trace} {s : Net Chan State}

/-- The client alone reads lines. -/
theorem takes_stdin (i : Proc) (x : State i) (h : (program i x).Takes .stdin) : i = .client := by
  cases i with
  | client => rfl
  | server => cases x <;> cases h

theorem takes_toServer (i : Proc) (x : State i) (h : (program i x).Takes .toServer) :
    i = .server := by
  cases i with
  | client => cases x <;> cases h
  | server => rfl

theorem takes_toClient (i : Proc) (x : State i) (h : (program i x).Takes .toClient) :
    i = .client := by
  cases i with
  | client => rfl
  | server => cases x <;> cases h

theorem not_puts_stdin (i : Proc) (x : State i) : ¬ (program i x).Puts .stdin := by
  cases i with
  | client => cases x <;> exact fun h => nomatch h
  | server => cases x <;> exact fun h => nomatch h

theorem puts_toServer (i : Proc) (x : State i) (h : (program i x).Puts .toServer) :
    i = .client := by
  cases i with
  | client => rfl
  | server => cases x <;> cases h

theorem puts_toClient (i : Proc) (x : State i) (h : (program i x).Puts .toClient) :
    i = .server := by
  cases i with
  | client => cases x <;> cases h
  | server => rfl

theorem puts_stdout (i : Proc) (x : State i) (h : (program i x).Puts .stdout) : i = .client := by
  cases i with
  | client => rfl
  | server => cases x <;> cases h

/-- `client_run`, in the connection. -/
theorem accounts (run : Run (stepOf (Net.exec program)) (start lines.flatten) tr s) :
    Accounts (reads .stdin (Net.events tr)) (reads .toClient (Net.events tr))
      (writes .toServer (Net.events tr)) (writes .stdout (Net.events tr)) (s.proc .client) := by
  obtain ⟨tr', hlocal, hlabels⟩ := Net.local_run run .client
  have h := client_run hlocal
  rwa [hlabels, Net.reads_byThread run takes_stdin, Net.reads_byThread run takes_toClient,
    Net.writes_byThread run puts_toServer, Net.writes_byThread run puts_stdout] at h

/-- **What the client has received is a front of what it has sent.** -/
theorem prefix_received (run : Run (stepOf (Net.exec program)) (start lines.flatten) tr s) :
    (reads .toClient (Net.events tr)).flatten <+: (writes .toServer (Net.events tr)).flatten := by
  obtain ⟨tr', hlocal, hlabels⟩ := Net.local_run run .server
  have hrounds := ReadLoop.run hlocal
  have hlen := ReadLoop.reads_length hlocal
  rw [hlabels] at hrounds hlen
  rw [show echoer.input = .toServer from rfl, Net.reads_byThread run takes_toServer]
    at hrounds hlen
  rw [show echoer.output = .toClient from rfl, Net.writes_byThread run puts_toClient] at hrounds
  have hup : (writes .toServer (Net.events tr)).flatten = _ := Net.flow_run run .toServer
  have hdown : (writes .toClient (Net.events tr)).flatten = _ := Net.flow_run run .toClient
  calc (reads .toClient (Net.events tr)).flatten
      <+: (writes .toClient (Net.events tr)).flatten := ⟨_, hdown.symm⟩
    _ <+: (echoer.rounds (.zero 256) (reads .toServer (Net.events tr))).1.flatten := by
        rw [hrounds]
        obtain ⟨rest, hrest⟩ := ReadLoop.prefix_owed _ (s.proc .server)
        rw [← hrest, List.flatten_append]
        exact List.prefix_append _ _
    _ <+: (reads .toServer (Net.events tr)).flatten := echoer_rounds hlen _
    _ <+: (writes .toServer (Net.events tr)).flatten := ⟨_, hup.symm⟩

/-- A step leaves standard input alone, or takes the next line from it, or nothing if there
is none. -/
theorem stdin_step (hlines : Input lines) {u u' : Net Chan State} {x : Proc × Io Chan}
    (hchan : u.chan .stdin = lines.flatten) (h : stepOf (Net.exec program) u x u') :
    reads .stdin [x.2] = [] ∧ u'.chan .stdin = lines.flatten ∨
      x.2 = .read .stdin (lines.head?.getD []) ∧ u'.chan .stdin = lines.tail.flatten := by
  obtain ⟨i, e⟩ := x
  have hstep := Net.step_of_stepOf h
  have hlocal : Local (program i) (u.proc i) e (u'.proc i) := hstep.local_step
  have hput : writes .stdin [e] = [] := by
    cases e with
    | write c bytes => exact writes_of_ne (fun hc => not_puts_stdin i _ (hc ▸ hlocal.puts)) bytes
    | _ => rfl
  have hflow : u.chan .stdin ++ (writes .stdin [e]).flatten =
    (reads .stdin [e]).flatten ++ u'.chan .stdin := hstep.flow .stdin
  rw [hput, List.flatten_nil, List.append_nil] at hflow
  by_cases htake : reads .stdin [e] = []
  · rw [htake, List.flatten_nil, List.nil_append, hchan] at hflow
    exact .inl ⟨htake, hflow.symm⟩
  · obtain ⟨line, rfl⟩ : ∃ line, e = .read .stdin line := by
      cases e with
      | read c line =>
        by_cases hc : c = .stdin
        · exact ⟨line, by rw [hc]⟩
        · exact absurd (reads_of_ne hc line) htake
      | _ => exact absurd rfl htake
    obtain rfl := takes_stdin i _ hlocal.takes
    -- the line is what `fgets` finds at the front of the channel
    have hline : line = lines.head?.getD [] := by
      have hfgets : ∀ next, client (u.proc .client) = .fgets .stdin 256 next →
          line = fgets 255 (u.chan .stdin) := fun next hcall =>
        hstep.fgets .stdin 256 next line hcall rfl
      rw [← hlines.fgets, ← hchan]
      have hcall : (client (u.proc .client)).Takes .stdin := hlocal.takes
      cases hp : u.proc .client with
      | fgets => exact hfgets _ (by rw [hp]; rfl)
      | _ => rw [hp] at hcall; cases hcall
    have hsplit : lines.flatten = line ++ lines.tail.flatten := by
      rw [hline]
      cases lines with
      | nil => rfl
      | cons l rest => rfl
    rw [reads_read, List.flatten_singleton, hchan, hsplit, List.append_cancel_left_eq] at hflow
    exact .inr ⟨by rw [hline], hflow.symm⟩

/-- Standard input is read line by line, and then found empty. -/
theorem stdin_run (hlines : Input lines)
    (run : Run (stepOf (Net.exec program)) (start lines.flatten) tr s) :
    s.chan .stdin = (lines.drop (reads .stdin (Net.events tr)).length).flatten ∧
      ∀ (k : Nat) (l : List Byte), (reads .stdin (Net.events tr))[k]? = some l →
        l = lines[k]?.getD [] := by
  induction run with
  | nil => exact ⟨rfl, fun k l h => nomatch h⟩
  | @snoc tr u u' x _ h ih =>
    obtain ⟨hchan, hread⟩ := ih
    rw [Net.events_append, Net.events_singleton, reads_append]
    rcases stdin_step (hlines.drop _) hchan h with ⟨hnone, hchan'⟩ | ⟨hx, hchan'⟩
    · rw [hnone, List.append_nil]
      exact ⟨hchan', hread⟩
    · rw [List.tail_drop] at hchan'
      rw [hx, reads_read, List.head?_drop]
      refine ⟨by rw [hchan', List.length_append, List.length_singleton], fun k l hk => ?_⟩
      by_cases hlt : k < (reads .stdin (Net.events tr)).length
      · rw [List.getElem?_append_left hlt] at hk
        exact hread k l hk
      · rw [List.getElem?_append_right (Nat.le_of_not_lt hlt), List.getElem?_singleton] at hk
        split at hk
        · rename_i hk0
          rw [← Option.some.inj hk, show k = (reads .stdin (Net.events tr)).length by omega]
        · cases hk

/-- Nobody closes the connection. -/
theorem stays_open {stdin : List Byte}
    (run : Run (stepOf (Net.exec program)) (start stdin) tr s) :
    s.writers .toServer = 1 ∧ s.writers .toClient = 1 ∧ s.proc .server ≠ .closing := by
  refine run.preserves (I := fun u : Net Chan State =>
    u.writers .toServer = 1 ∧ u.writers .toClient = 1 ∧ u.proc .server ≠ .closing)
    ⟨rfl, rfl, fun h => nomatch h⟩ ?_
  rintro u ⟨i, e⟩ u' ⟨hup, hdown, hserver⟩ h
  have hstep := Net.step_of_stepOf h
  have hlocal : Local (program i) (u.proc i) e (u'.proc i) := hstep.local_step
  have hclose : ∀ c, e ≠ .close c := by
    rintro c rfl
    cases i with
    | client =>
      rcases client_cases hlocal with ⟨_, _, h, _⟩ | ⟨_, _, _, h, _⟩ | ⟨_, _, _, h, _⟩ |
        ⟨_, _, h, _⟩ <;> cases h
    | server =>
      rcases ReadLoop.step_cases hlocal with ⟨_, _, _, h, _⟩ | ⟨_, _, _, _, h, _⟩ | ⟨h, _⟩
      · cases h
      · cases h
      · exact hserver h
  have hwriters : ∀ c, u'.writers c = u.writers c := fun c =>
    (hstep.closed c).trans (if_neg (hclose c))
  refine ⟨(hwriters _).trans hup, (hwriters _).trans hdown, fun hclosing => ?_⟩
  cases i with
  | client => exact hserver (hstep.frame .server (fun h => nomatch h) ▸ hclosing)
  | server =>
    -- the server leaves its loop at end of file only
    change Local echoer.program (u.proc .server) e (u'.proc .server) at hlocal
    rw [hclosing] at hlocal
    obtain ⟨b, bytes, -, rfl, hbody⟩ := ReadLoop.step_closing hlocal
    have hempty : bytes = [] := by
      by_contra hne
      simp only [echoer, if_neg hne] at hbody
      split at hbody <;> cases hbody
    subst hempty
    have hzero : u.writers .toServer = 0 := hstep.eof .toServer rfl
    omega

/-- A reply is not empty. -/
theorem reply_ne_nil {stdin : List Byte}
    (run : Run (stepOf (Net.exec program)) (start stdin) tr s) :
    ∀ c ∈ reads .toClient (Net.events tr), c ≠ [] := by
  refine Net.reads_ne_nil run fun x hx => ?_
  obtain ⟨pre, post, s', -, hpre, -, -⟩ := run.of_mem hx
  rw [(stays_open hpre).2.1]
  exact Nat.one_ne_zero

/-- The texts printed belong to the first lines and the first replies. -/
theorem Accounts.fronts {L C S W : List (List Byte)} {c : Client} (h : Accounts L C S W c) :
    ∃ L' C', L' <+: L ∧ C' <+: C ∧ L'.length = C'.length ∧ W = List.zipWith shown L' C' := by
  cases c with
  | fgets => exact ⟨L, C, List.prefix_refl _, List.prefix_refl _, h.1.symm, h.2.2⟩
  | send buffer text =>
    obtain ⟨L', l, rfl, -, hlen, -, hW, -⟩ := h
    exact ⟨L', C, List.prefix_append _ _, List.prefix_refl _, hlen.symm, hW⟩
  | read buffer =>
    obtain ⟨L', l, rfl, -, hlen, -, hW, -⟩ := h
    exact ⟨L', C, List.prefix_append _ _, List.prefix_refl _, hlen.symm, hW⟩
  | printf text =>
    obtain ⟨L', l, C', c, rfl, rfl, hlen, -, hW, -⟩ := h
    exact ⟨L', C', List.prefix_append _ _, List.prefix_append _ _, hlen.symm, hW⟩
  | fault f => exact h.elim

/-- The `k`-th text that is printed belongs to the `k`-th line and the `k`-th reply. -/
theorem Accounts.printed {L C S W : List (List Byte)} {c : Client} (h : Accounts L C S W c)
    {k : Nat} {text : List Byte} (hk : W[k]? = some text) :
    ∃ l r, L[k]? = some l ∧ C[k]? = some r ∧ text = shown l r := by
  obtain ⟨L', C', hL', hC', -, rfl⟩ := h.fronts
  obtain ⟨l, r, hl, hr, htext⟩ := List.getElem?_zipWith_eq_some.mp hk
  exact ⟨l, r, getElem?_of_isPrefix hL' hl, getElem?_of_isPrefix hC' hr, htext.symm⟩

/-- A line that is sent has been read. -/
theorem Accounts.sent_prefix {L C S W : List (List Byte)} {c : Client} (h : Accounts L C S W c)
    (hfree : ∀ l ∈ L, NulFree l) : S.flatten <+: L.flatten := by
  have hmap : ∀ L' : List (List Byte), (∀ l ∈ L', NulFree l) → L'.map cstr = L' := fun L' h' =>
    (List.map_congr_left fun l hl => cstr_eq_self (h' l hl)).trans (List.map_id L')
  cases c with
  | fgets =>
    obtain ⟨-, rfl, -⟩ := h
    rw [hmap L hfree]
  | send buffer t =>
    obtain ⟨L', l, rfl, -, -, rfl, -⟩ := h
    rw [hmap L' fun x hx => hfree x (List.mem_append_left _ hx), List.flatten_append]
    exact List.prefix_append _ _
  | read buffer =>
    obtain ⟨L', l, -, -, -, rfl, -⟩ := h
    rw [hmap L hfree]
  | printf t =>
    obtain ⟨L', l, C', c, -, -, -, rfl, -⟩ := h
    rw [hmap L hfree]
  | fault f => exact h.elim

/-- There are no more replies than lines. -/
theorem Accounts.length_le {L C S W : List (List Byte)} {c : Client} (h : Accounts L C S W c) :
    C.length ≤ L.length := by
  cases c with
  | fgets => exact h.1.le
  | send buffer t =>
    obtain ⟨L', l, rfl, -, hC, -⟩ := h
    rw [hC, List.length_append]
    exact Nat.le_add_right _ _
  | read buffer =>
    obtain ⟨L', l, rfl, -, hC, -⟩ := h
    rw [hC, List.length_append]
    exact Nat.le_add_right _ _
  | printf t =>
    obtain ⟨L', l, C', c, rfl, rfl, hC, -⟩ := h
    rw [List.length_append, List.length_append, hC]
    exact Nat.le_refl _
  | fault f => exact h.elim

/-- A reply that is the front of the line it is written over is completed by that line. -/
theorem shown_of_prefix {line reply : List Byte} (h : reply <+: line) (hfree : NulFree line)
    (hlen : line.length ≤ 255) : shown line reply = line ++ [newline] := by
  obtain ⟨rest, rfl⟩ := h
  rw [shown, page, List.append_assoc, List.drop_left, ← List.append_assoc,
    show 256 - (reply ++ rest).length = 255 - (reply ++ rest).length + 1 by omega,
    List.replicate_succ, cstr_append_zero hfree]

/-- The lines that are read are lines of the input, or empty behind its end. -/
theorem mem_reads_stdin (hlines : Input lines)
    (run : Run (stepOf (Net.exec program)) (start lines.flatten) tr s) :
    ∀ l ∈ reads .stdin (Net.events tr), NulFree l ∧ l.length ≤ 255 := by
  intro l hl
  obtain ⟨k, hk⟩ := List.getElem?_of_mem hl
  rw [(stdin_run hlines run).2 k l hk]
  cases hline : lines[k]? with
  | none => exact ⟨List.not_mem_nil, Nat.zero_le _⟩
  | some l =>
    have hmem := List.mem_of_getElem? hline
    exact ⟨hlines.nulFree l hmem, hlines.short l hmem⟩

/-- The client reads its next line at the head of its loop. -/
theorem client_at_fgets {pre post : Trace} {u : Net Chan State} {line : List Byte}
    (run : Run (stepOf (Net.exec program)) (start lines.flatten)
      (pre ++ (u, (.client, .read .stdin line)) :: post) s) :
    Run (stepOf (Net.exec program)) (start lines.flatten) pre u ∧
      (reads .toClient (Net.events pre)).length = (reads .stdin (Net.events pre)).length := by
  obtain ⟨u', hpre, hstep, -⟩ := run.split
  refine ⟨hpre, ?_⟩
  have haccounts := accounts hpre
  have hlocal : Local client (u.proc .client) (.read .stdin line) (u'.proc .client) :=
    (Net.step_of_stepOf hstep).local_step
  rcases client_cases hlocal with ⟨_, hp, -⟩ | ⟨_, _, _, h, _⟩ | ⟨_, _, _, h, _⟩ | ⟨_, _, h, _⟩
  · rw [hp] at haccounts
    exact haccounts.1
  · cases h
  · cases h
  · cases h

/-- The replies, cut where they differ in length from the lines. -/
theorem replies_take (hlines : Input lines)
    (run : Run (stepOf (Net.exec program)) (start lines.flatten) tr s) {j : Nat}
    (hC : j ≤ (reads .toClient (Net.events tr)).length)
    (hlen : ∀ (k : Nat) (c l : List Byte), k < j →
      (reads .toClient (Net.events tr))[k]? = some c →
      (reads .stdin (Net.events tr))[k]? = some l → c.length = l.length) :
    (reads .toClient (Net.events tr)).take j = (reads .stdin (Net.events tr)).take j ∧
      ((reads .toClient (Net.events tr)).drop j).flatten <+:
        ((reads .stdin (Net.events tr)).drop j).flatten := by
  have haccounts := accounts run
  have hreceived := (prefix_received run).trans
    (haccounts.sent_prefix fun l hl => (mem_reads_stdin hlines run l hl).1)
  exact take_eq_of_lengths hreceived hC (hC.trans haccounts.length_le) hlen

/-- When client and server agree, the first replies are the first lines. -/
theorem Agreed.take {k : Nat} (h : Agreed lines tr)
    (run : Run (stepOf (Net.exec program)) (start lines.flatten) tr s)
    (hk : k < (reads .stdin (Net.events tr)).length) :
    ((reads .toClient (Net.events tr)).take k).flatten =
      ((reads .stdin (Net.events tr)).take k).flatten := by
  obtain ⟨pre, u, i, line, post, rfl, hpre⟩ := Net.exists_read hk
  obtain ⟨u', -, hstep, -⟩ := run.split
  obtain rfl := takes_stdin i _ (Net.step_of_stepOf hstep).local_step.takes
  have hC := (client_at_fgets run).2
  rw [Net.events_append, reads_append, reads_append, List.take_left' hpre,
    List.take_left' (hC.trans hpre)]
  exact h.waited pre u line post rfl

/-- **When the echo client and the echo server agree.**  In every run: exactly if every
reply that is followed by another line has as many bytes as the line it answers. -/
theorem echo_agrees_iff (hlines : Input lines)
    (run : Run (stepOf (Net.exec program)) (start lines.flatten) tr s) :
    Agreed lines tr ↔ ∀ (k : Nat) (reply line : List Byte),
      k + 1 < (reads .stdin (Net.events tr)).length →
      (reads .toClient (Net.events tr))[k]? = some reply →
      (reads .stdin (Net.events tr))[k]? = some line → reply.length = line.length := by
  constructor
  · intro h k reply line hk hreply hline
    have h₁ := h.take run hk
    have h₂ := h.take run (Nat.lt_of_succ_lt hk)
    rw [List.take_add_one, List.take_add_one, List.flatten_append, List.flatten_append, h₂, hreply,
      hline, List.append_cancel_left_eq] at h₁
    simpa using congrArg List.length h₁
  · intro h
    constructor
    · intro k text hk
      obtain ⟨line, reply, hline, hreply, rfl⟩ := (accounts run).printed hk
      have hlt := (List.getElem?_eq_some_iff.mp hline).1
      have hlt' := (List.getElem?_eq_some_iff.mp hreply).1
      obtain ⟨-, hdrop⟩ := replies_take hlines run hlt'.le
        fun j c l hj hc hl => h j c l (by omega) hc hl
      rw [List.drop_eq_getElem_cons hlt, List.drop_eq_getElem_cons hlt',
        (List.getElem?_eq_some_iff.mp hline).2, (List.getElem?_eq_some_iff.mp hreply).2,
        List.flatten_cons, List.flatten_cons] at hdrop
      have hreply_prefix : reply <+: line := by
        have hfront := (List.prefix_append reply _).trans hdrop
        by_cases hlast : k + 1 < (reads .stdin (Net.events tr)).length
        · exact (List.isPrefix_append_of_length (h k reply line hlast hreply hline).le).mp hfront
        · rwa [List.drop_of_length_le (Nat.le_of_not_lt hlast), List.flatten_nil,
            List.append_nil] at hfront
      obtain ⟨hfree, hlen⟩ := mem_reads_stdin hlines run line (List.mem_of_getElem? hline)
      refine ⟨line, ?_, shown_of_prefix hreply_prefix hfree hlen⟩
      have hget := (stdin_run hlines run).2 k line hline
      cases hk' : lines[k]? with
      | some l => rw [hget, hk', Option.getD_some]
      | none =>
        -- nothing is sent for the end of file, and nothing comes back
        rw [hk', Option.getD_none] at hget
        rw [hget, List.prefix_nil] at hreply_prefix
        exact absurd hreply_prefix (reply_ne_nil run reply (List.mem_of_getElem? hreply))
    · rintro pre u line post rfl
      obtain ⟨hpre, hC⟩ := client_at_fgets run
      have hall := (replies_take hlines hpre (Nat.le_refl _) fun k c l hk hc hl => ?_).1
      · rw [List.take_length, hC, List.take_length] at hall
        rw [hall]
      · have hlt := (List.getElem?_eq_some_iff.mp hl).1
        refine h k c l ?_ ?_ ?_
        · rw [Net.events_append, Net.events_cons, reads_append, reads_cons, reads_read]
          simp only [List.length_append, List.length_singleton]
          omega
        · rw [Net.events_append, reads_append, List.getElem?_append_left hk, hc]
        · rw [Net.events_append, reads_append, List.getElem?_append_left hlt, hl]

end Connection

/-! ### Two short lines -/

/-- Standard input holds two lines. -/
def twoLines : List (List Byte) := [ascii "ab\n", ascii "cd\n"]

theorem input_twoLines : Input twoLines :=
  ⟨by decide, by decide, by decide, by decide⟩

/-- The client and the server take turns, and the reads return these numbers of bytes:
what the server reads of each line, and what the client reads of each reply. -/
def turns (up down up' down' : Nat) : List (Proc × Nat) :=
  [(.client, 0), (.client, 0), (.server, up), (.server, 0), (.client, down), (.client, 0),
    (.client, 0), (.client, 0), (.server, up'), (.server, 0), (.client, down'), (.client, 0)]

theorem echo_agrees_twoLines :
    ∃ tr s, Run (stepOf (Net.exec program)) (start twoLines.flatten) tr s ∧ Agreed twoLines tr ∧
      writes .stdout (Net.events tr) = [ascii "ab\n\n", ascii "cd\n\n"] := by
  obtain ⟨tr, s, hrun, hlen, hfirst, hprinted⟩ :
      ∃ tr s, Run (stepOf (Net.exec program)) (start twoLines.flatten) tr s ∧
        (reads .stdin (Net.events tr)).length = 2 ∧
        (reads .toClient (Net.events tr))[0]? = (reads .stdin (Net.events tr))[0]? ∧
        writes .stdout (Net.events tr) = [ascii "ab\n\n", ascii "cd\n\n"] :=
    ⟨_, _, run_get (Net.exec program) (turns 3 3 3 3) (start twoLines.flatten)
      (by decide +kernel), by decide +kernel, by decide +kernel, by decide +kernel⟩
  refine ⟨tr, s, hrun, (echo_agrees_iff input_twoLines hrun).mpr ?_, hprinted⟩
  intro k reply line hk hreply hline
  obtain rfl : k = 0 := by omega
  rw [hreply, hline] at hfirst
  rw [Option.some.inj hfirst]

/-- The first reply arrives in two pieces. -/
theorem not_echo_agrees_split_reply :
    ¬ ∀ (lines : List (List Byte)) (tr : Trace) (s : Net Chan State), Input lines →
      (∀ l ∈ lines, l.length ≤ 254) →
        Run (stepOf (Net.exec program)) (start lines.flatten) tr s → Agreed lines tr := by
  intro hall
  have hrun := run_get (Net.exec program) (turns 3 1 3 2) (start twoLines.flatten)
    (by decide +kernel)
  obtain ⟨l, hl, htext⟩ := (hall twoLines _ _ input_twoLines (by decide) hrun).printed 1
    (ascii "b\n\n\n") (by decide +kernel)
  obtain rfl : ascii "cd\n" = l := Option.some.inj hl
  exact absurd htext (by decide)

end PosixNet.Week4
