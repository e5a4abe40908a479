import PosixNet.ReadLoop
import PosixNet.Lines
import Mathlib.Data.Nat.Digits.Lemmas

/-!
# `week5`: a transfer over TCP

`teht3_client.c` and `teht3_server.c`.  The client sends its whole buffer of 1024 bytes
for every read of standard input, the server prints the string it finds in its buffer
after every read of the socket.  That takes the padding away again as long as every read
of the server starts where the client's buffer did, which TCP does not promise: a read
that goes over the end of a block loses what is behind the padding, and a first read
without a NUL is continued by the address that was formatted into the same buffer.

**`lossless_iff`** says for which cuts of the stream nothing is lost and nothing added.
What the client reports on its own standard output is left out, with the text it is made in
(lines 75–77): neither the buffer nor the connection depends on it.
-/
namespace PosixNet.Week5

def maxBuffer : Nat := 1024

abbrev Buffer := CArray maxBuffer

/-- What the client and the server read and write. -/
inductive Chan where
  /-- Descriptor 1, `STDOUT_FILENO`, which is what line 67 of the client reads for standard
  input. -/
  | stdin
  | sockfd | stdout
  deriving DecidableEq

/-- The two programs. -/
inductive Proc where
  | client | server
  deriving DecidableEq

/-- Lines 67–79 of `teht3_client.c`. -/
def client : ReadLoop Chan Buffer where
  input := .stdin
  output := .sockfd
  size := maxBuffer
  body buffer bytes :=
    if bytes = [] then .finish
    else match buffer.store 0 bytes with
      | .error f => .fault f
      | .ok buffer => .next [buffer.bytes] (.zero _)

/-- Lines 79–84 of `teht3_server.c`. -/
def server : ReadLoop Chan Buffer where
  input := .sockfd
  output := .stdout
  size := maxBuffer
  body buffer bytes :=
    if bytes = [] then .finish
    else match fill buffer bytes with
      | .error f => .fault f
      | .ok (_, text) => .next [text] (.zero _)

/-- An IPv4 address. -/
structure Address where
  (a b c d : Byte)

/-- `inet_ntop`. -/
def inetNtop (ip : Address) : List Byte :=
  decimal ip.a.toNat ++ ascii "." ++ decimal ip.b.toNat ++ ascii "." ++ decimal ip.c.toNat ++
    ascii "." ++ decimal ip.d.toNat

/-- The bytes on the connection, for the client's reads up to the end of file. -/
def stream (lines : List (List Byte)) : List Byte :=
  (client.rounds (.zero _) (lines ++ [[]])).1.flatten

/-- One way for the server to read them. -/
structure Cut (lines segs : List (List Byte)) : Prop where
  read : ∀ z ∈ segs, z ≠ [] ∧ z.length ≤ maxBuffer
  whole : segs.flatten = stream lines

/-- The server prints what the client has read, whatever address line 75 has put into the
buffer and whatever was in it before. -/
def Lossless (lines segs : List (List Byte)) : Prop :=
  ∀ (buffer : Buffer) (ip : Address), ∃ b ws, buffer.strcpy (inetNtop ip) = .ok b ∧
    server.rounds b (segs ++ [[]]) = (ws, .finished) ∧ ws.flatten = lines.flatten

/-- There is no data behind a NUL, and a NUL in the first read. -/
structure Aligned (segs : List (List Byte)) : Prop where
  data : ∀ z ∈ segs, ∀ c ∈ z.dropWhile (· ≠ 0), c = 0
  first : ∀ z ∈ segs.head?, 0 ∈ z

/-! ## The client -/

section Client
variable {line : List Byte} {lines : List (List Byte)}

/-- The buffer with a line in it. -/
def block (line : List Byte) : List Byte := frame (.zero maxBuffer) line

theorem client_body {b : Buffer} (hne : line ≠ []) (hlen : line.length ≤ maxBuffer) :
    client.body b line = .next [frame b line] (.zero _) := by
  have hfit : 0 + line.length ≤ maxBuffer := by omega
  simp only [client, if_neg hne, CArray.store_eq hfit, CArray.set_zero_bytes]
  rfl

/-- **What the client sends** is a block for every line. -/
theorem stream_eq (h : ∀ l ∈ lines, l ≠ [] ∧ l.length ≤ maxBuffer) :
    stream lines = (lines.map block).flatten := by
  have hrounds : client.rounds (.zero _) lines = (lines.map block, .running (.zero _)) :=
    ReadLoop.rounds_map fun l hl => client_body (h l hl).1 (h l hl).2
  have hend : client.body (.zero _) [] = .finish := by simp [client]
  rw [stream, ReadLoop.rounds_append hrounds, ReadLoop.rounds_finish hend, List.append_nil]

theorem block_eq (line : List Byte) :
    block line = line ++ List.replicate (maxBuffer - line.length) 0 := frame_zero

theorem block_length (h : line.length ≤ maxBuffer) : (block line).length = maxBuffer :=
  frame_length h

/-- The last byte of a block is padding. -/
theorem block_getElem? (h : line.length < maxBuffer) :
    (block line)[maxBuffer - 1]? = some 0 := by
  rw [block_eq, List.getElem?_append_right (by omega), List.getElem?_replicate_of_lt (by omega)]

/-- Without the padding, the lines are left. -/
theorem filter_blocks (h : ∀ l ∈ lines, NulFree l) :
    (lines.map block).flatten.filter (· ≠ 0) = lines.flatten := by
  induction lines with
  | nil => rfl
  | cons l lines ih =>
    have hl : l.filter (· ≠ 0) = l := List.filter_eq_self.mpr fun c hc => by
      simpa using fun h0 : c = 0 => h l List.mem_cons_self (h0 ▸ hc)
    rw [List.map_cons, List.flatten_cons, List.filter_append, block_eq, List.filter_append, hl,
      List.filter_replicate_of_neg (by simp), List.append_nil,
      ih fun y hy => h y (List.mem_cons_of_mem _ hy), List.flatten_cons]

/-- Where the blocks end in a NUL, no read that is as long as a block is without one. -/
theorem zero_mem_of_window {n : Nat} (hn : 0 < n) :
    ∀ {blocks : List (List Byte)}, (∀ b ∈ blocks, b.length = n ∧ b[n - 1]? = some 0) →
      ∀ {pre z post : List Byte}, blocks.flatten = pre ++ z ++ post → z.length = n → 0 ∈ z := by
  intro blocks
  induction blocks with
  | nil =>
    intro _ pre z post h hz
    have hnil := congrArg List.length h
    simp only [List.flatten_nil, List.length_nil, List.length_append] at hnil
    omega
  | cons b blocks ih =>
    intro hb pre z post h hz
    obtain ⟨hlen, hlast⟩ := hb b List.mem_cons_self
    rw [List.flatten_cons] at h
    by_cases hpre : pre.length < n
    · -- the last byte of the first block is in the read
      refine List.mem_of_getElem? (i := n - 1 - pre.length) ?_
      have hget : (b ++ blocks.flatten)[n - 1]? = (pre ++ z ++ post)[n - 1]? := by rw [h]
      rw [List.getElem?_append_left (by omega), hlast, List.append_assoc,
        List.getElem?_append_right (by omega), List.getElem?_append_left (by omega)] at hget
      exact hget.symm
    · rw [List.append_assoc] at h
      obtain ⟨pre', hpre'⟩ : b <+: pre :=
        List.prefix_of_prefix_length_le (h ▸ List.prefix_append b blocks.flatten)
          (List.prefix_append pre (z ++ post)) (by omega)
      rw [← hpre', List.append_assoc, List.append_cancel_left_eq, ← List.append_assoc] at h
      exact ih (fun c hc => hb c (List.mem_cons_of_mem _ hc)) h hz

end Client

/-! ## The server -/

section Server
variable {b : Buffer} {z : List Byte} {lines segs : List (List Byte)}

theorem server_body (hne : z ≠ []) (hlen : z.length ≤ maxBuffer) (h0 : 0 ∈ frame b z) :
    server.body b z = .next [cstr (frame b z)] (.zero _) := by
  obtain ⟨b', -, hfill⟩ := fill_eq hlen h0
  simp only [server, if_neg hne, hfill]

theorem server_body_fault (hne : z ≠ []) (hlen : z.length ≤ maxBuffer) (h0 : 0 ∉ frame b z) :
    server.body b z = .fault .bounds := by
  simp only [server, if_neg hne, fill_eq_error hlen h0]

/-- The server prints the string in front of every read. -/
theorem server_rounds (hsegs : ∀ z ∈ segs, z ≠ [] ∧ z.length ≤ maxBuffer ∧
      (z.length = maxBuffer → 0 ∈ z)) (hfirst : ∀ z ∈ segs.head?, 0 ∈ z) :
    server.rounds b (segs ++ [[]]) = (segs.map cstr, .finished) := by
  have hend : ∀ b, server.body b [] = .finish := fun b => by simp [server]
  -- in a cleared buffer nothing is added to the read
  have hzero : ∀ z, z ≠ [] ∧ z.length ≤ maxBuffer ∧ (z.length = maxBuffer → 0 ∈ z) →
      server.body (.zero _) z = .next [cstr z] (.zero _) := fun z hz => by
    have h0 : 0 ∈ frame (.zero maxBuffer) z := by
      by_cases hfull : z.length = maxBuffer
      · exact List.mem_append_left _ (hz.2.2 hfull)
      · exact (fits_zero (lt_of_le_of_ne hz.2.1 hfull)).zero_mem
    rw [server_body hz.1 hz.2.1 h0, frame_zero, cstr_append_replicate]
  cases segs with
  | nil => exact ReadLoop.rounds_finish (hend b) []
  | cons z segs =>
    obtain ⟨hne, hlen, -⟩ := hsegs z List.mem_cons_self
    have hbody : server.body b z = .next [cstr z] (.zero _) := by
      rw [server_body hne hlen (List.mem_append_left _ (hfirst z rfl)), frame,
        cstr_append_of_mem (hfirst z rfl)]
    have hrest : server.rounds (.zero _) segs = (segs.map cstr, .running (.zero _)) :=
      ReadLoop.rounds_map fun y hy => hzero y (hsegs y (List.mem_cons_of_mem _ hy))
    rw [List.cons_append, ReadLoop.rounds_next hbody, ReadLoop.rounds_append hrest,
      ReadLoop.rounds_finish (hend _), List.append_nil]
    rfl

theorem decimal_length {n : Nat} (h : n < 256) : (decimal n).length ≤ 3 := by
  rw [decimal]
  split
  · decide
  · rw [List.length_map, List.length_reverse, Nat.digits_length_le_iff (by decide)]
    omega

/-- An address fits the buffer. -/
theorem inetNtop_length (ip : Address) : (inetNtop ip).length ≤ 15 := by
  have ha := decimal_length ip.a.toNat_lt
  have hb := decimal_length ip.b.toNat_lt
  have hc := decimal_length ip.c.toNat_lt
  have hd := decimal_length ip.d.toNat_lt
  simp only [inetNtop, List.length_append, show (ascii ".").length = 1 from rfl]
  omega

end Server

/-! ## Which cuts are harmless -/

section Lossless
variable {lines segs : List (List Byte)}

/-- A read of a whole buffer has padding in it. -/
theorem Cut.zero_mem (hcut : Cut lines segs) (hlines : ∀ l ∈ lines, l ≠ [] ∧ l.length < maxBuffer)
    {z : List Byte} (hz : z ∈ segs) (hfull : z.length = maxBuffer) : 0 ∈ z := by
  obtain ⟨pre, post, rfl⟩ := List.append_of_mem hz
  have hstream := hcut.whole
  rw [stream_eq fun l hl => ⟨(hlines l hl).1, (hlines l hl).2.le⟩, List.flatten_append,
    List.flatten_cons, ← List.append_assoc] at hstream
  refine zero_mem_of_window (Nat.succ_pos _) (fun b hb => ?_) hstream.symm hfull
  obtain ⟨l, hl, rfl⟩ := List.mem_map.mp hb
  exact ⟨block_length (hlines l hl).2.le, block_getElem? (hlines l hl).2⟩

/-- The buffer with an address in it. -/
theorem strcpy_inetNtop {buffer b : Buffer} {ip : Address}
    (h : buffer.strcpy (inetNtop ip) = .ok b) :
    b.bytes = inetNtop ip ++ 0 :: buffer.bytes.drop ((inetNtop ip).length + 1) := by
  have hshort := inetNtop_length ip
  obtain ⟨b', hcpy, hbytes⟩ := CArray.strcpy_eq (a := buffer) (t := inetNtop ip) (n := maxBuffer)
    (lt_of_le_of_lt hshort (by decide))
  rw [hcpy] at h
  rw [← Except.ok.inj h, hbytes]

/-- A buffer without a NUL. -/
def letters : Buffer := ⟨List.replicate maxBuffer 0x41, List.length_replicate⟩

/-- A first read that is longer than the address may run out of the buffer. -/
theorem frame_letters {b : Buffer} {ip : Address} {z : List Byte}
    (h : letters.strcpy (inetNtop ip) = .ok b) (hfree : NulFree z)
    (hlen : (inetNtop ip).length < z.length) : 0 ∉ frame b z := by
  rw [mem_frame hfree, strcpy_inetNtop h, ← List.singleton_append, ← List.append_assoc,
    List.drop_append, List.drop_of_length_le (by simpa using hlen), List.nil_append]
  intro h0
  have hletter := List.eq_of_mem_replicate (List.mem_of_mem_drop (List.mem_of_mem_drop h0))
  exact absurd hletter (by decide)

/-- To a first read that is not longer than the address, the rest of it is added. -/
theorem frame_address {buffer b : Buffer} {ip : Address} {z : List Byte}
    (h : buffer.strcpy (inetNtop ip) = .ok b) (hip : NulFree (inetNtop ip)) (hfree : NulFree z)
    (hlen : z.length ≤ (inetNtop ip).length) :
    0 ∈ frame b z ∧ cstr (frame b z) = z ++ (inetNtop ip).drop z.length := by
  have hdrop : NulFree ((inetNtop ip).drop z.length) := fun h0 => hip (List.mem_of_mem_drop h0)
  rw [frame, strcpy_inetNtop h, List.drop_append_of_le_length hlen, ← List.append_assoc]
  exact ⟨by simp, cstr_append_zero (nulFree_append.mpr ⟨hfree, hdrop⟩) _⟩

/-- The first read has a NUL in it, or the address shows. -/
theorem Lossless.zero_mem (h : Lossless lines segs) (hcut : Cut lines segs) :
    ∀ z ∈ segs.head?, 0 ∈ z := by
  intro z hz
  by_contra hfree
  obtain ⟨rest, rfl⟩ := List.head?_eq_some_iff.mp hz
  obtain ⟨hne, hlen⟩ := hcut.read z List.mem_cons_self
  by_cases hlong : 7 < z.length
  · obtain ⟨b, ws, hcpy, hrounds, -⟩ := h letters ⟨1, 1, 1, 1⟩
    have hfault := server_body_fault hne hlen (frame_letters hcpy hfree hlong)
    rw [List.cons_append, ReadLoop.rounds_fault hfault] at hrounds
    cases hrounds
  · -- two addresses of different lengths give texts of different lengths
    have hsum : ∀ ip : Address, NulFree (inetNtop ip) → 7 ≤ (inetNtop ip).length →
        (inetNtop ip).length + (server.rounds (.zero _) (rest ++ [[]])).1.flatten.length =
          lines.flatten.length := by
      intro ip hip hshort
      obtain ⟨b, ws, hcpy, hrounds, htext⟩ := h letters ip
      obtain ⟨h0, hshown⟩ := frame_address hcpy hip hfree (by omega)
      have hbody := server_body hne hlen h0
      rw [List.cons_append, ReadLoop.rounds_next hbody, hshown] at hrounds
      rw [← htext, ← (Prod.mk.inj hrounds).1]
      simp only [List.cons_append, List.nil_append, List.flatten_cons, List.length_append,
        List.length_drop]
      omega
    have h7 := hsum ⟨1, 1, 1, 1⟩ (by decide) (by decide)
    have h8 := hsum ⟨11, 1, 1, 1⟩ (by decide) (by decide)
    have hlen7 : (inetNtop ⟨1, 1, 1, 1⟩).length = 7 := by decide
    have hlen8 : (inetNtop ⟨11, 1, 1, 1⟩).length = 8 := by decide
    omega

/-- **The transfer** is lossless for exactly these cuts of the stream. -/
theorem lossless_iff (hlines : ∀ l ∈ lines, NulFree l ∧ 1 ≤ l.length ∧ l.length ≤ 1023)
    (hcut : Cut lines segs) : Lossless lines segs ↔ Aligned segs := by
  have hshort : ∀ l ∈ lines, l ≠ [] ∧ l.length < maxBuffer := fun l hl =>
    ⟨List.ne_nil_of_length_pos (hlines l hl).2.1, Nat.lt_succ_of_le (hlines l hl).2.2⟩
  have hrounds : (∀ z ∈ segs.head?, 0 ∈ z) → ∀ b : Buffer,
      server.rounds b (segs ++ [[]]) = (segs.map cstr, .finished) := fun hfirst b =>
    server_rounds (fun z hz => ⟨(hcut.read z hz).1, (hcut.read z hz).2, hcut.zero_mem hshort hz⟩)
      hfirst
  -- the lines are what is not padding in the reads
  have hdata : lines.flatten = (segs.map fun z => z.filter (· ≠ 0)).flatten := by
    calc lines.flatten = (stream lines).filter (· ≠ 0) := by
          rw [stream_eq fun l hl => ⟨(hshort l hl).1, (hshort l hl).2.le⟩,
            filter_blocks fun l hl => (hlines l hl).1]
      _ = (segs.map fun z => z.filter (· ≠ 0)).flatten := by
          rw [← hcut.whole, List.filter_flatten]
  constructor
  · intro h
    have hfirst := h.zero_mem hcut
    refine ⟨fun z hz => cstr_eq_filter_iff.mp ?_, hfirst⟩
    obtain ⟨b, ws, -, hws, htext⟩ := h letters ⟨1, 1, 1, 1⟩
    rw [hrounds hfirst b] at hws
    rw [← (Prod.mk.inj hws).1, hdata] at htext
    exact eq_of_flatten_map (fun z => cstr_prefix_filter z) htext z hz
  · intro h buffer ip
    obtain ⟨b, hcpy, -⟩ := CArray.strcpy_eq (a := buffer) (t := inetNtop ip) (n := maxBuffer)
      (lt_of_le_of_lt (inetNtop_length ip) (by decide))
    refine ⟨b, _, hcpy, hrounds h.first b, ?_⟩
    rw [hdata]
    exact congrArg List.flatten (List.map_congr_left fun z hz =>
      cstr_eq_filter_iff.mpr (h.data z hz))

end Lossless

/-- The server reads whole blocks. -/
theorem lossless_whole_blocks :
    Lossless [ascii "ab\n", ascii "c\n"] [block (ascii "ab\n"), block (ascii "c\n")] :=
  (lossless_iff (by decide) ⟨by decide +kernel, by decide +kernel⟩).mpr
    ⟨by decide +kernel, by decide +kernel⟩

/-- The first read of the server gets one byte. -/
theorem not_lossless_one_byte :
    ¬ ∀ lines segs : List (List Byte), (∀ l ∈ lines, NulFree l ∧ 1 ≤ l.length ∧ l.length ≤ 1023) →
      Cut lines segs → Lossless lines segs := by
  intro hall
  obtain ⟨b, ws, hcpy, hrounds, htext⟩ := hall [ascii "ab\n"]
    [ascii "a", ascii "b\n" ++ List.replicate 1021 0] (by decide)
    ⟨by decide +kernel, by decide +kernel⟩ (.zero _) ⟨127, 0, 0, 1⟩
  have hshown : ((CArray.zero maxBuffer).strcpy (inetNtop ⟨127, 0, 0, 1⟩)).map (fun b =>
      (server.rounds b ([ascii "a", ascii "b\n" ++ List.replicate 1021 0] ++ [[]])).1.flatten) =
        .ok (ascii "a27.0.0.1b\n") := by decide +kernel
  rw [hcpy, Except.map, hrounds] at hshown
  rw [Except.ok.inj hshown] at htext
  exact absurd htext (by decide)

/-! ## Runs

The reads of every run are a cut of the stream, and what is on standard output is what
`Lossless` speaks of. -/

/-- The loop of a program. -/
def loop : Proc → ReadLoop Chan Buffer
  | .client => client
  | .server => server

abbrev State := Net Chan fun _ : Proc => LoopState Buffer

abbrev Trace := List (State × (Proc × Io Chan))

abbrev Step := stepOf (Net.exec fun i => (loop i).program)

/-- A connection, with `buffer` as line 75 has left it. -/
def start (buffer : Buffer) (stdin : List Byte) : State where
  proc
    | .client => .reading (.zero _)
    | .server => .reading buffer
  chan
    | .stdin => stdin
    | _ => []
  writers
    | .stdin => 0
    | _ => 1

section Run
variable {buffer : Buffer} {stdin : List Byte} {tr : Trace} {s : State}

theorem loop_input_inj (i j : Proc) (h : (loop i).input = (loop j).input) : i = j := by
  cases i <;> cases j <;> first | rfl | cases h

theorem loop_output_inj (i j : Proc) (h : (loop i).output = (loop j).output) : i = j := by
  cases i <;> cases j <;> first | rfl | cases h

/-- Both loops are left at end of file only. -/
theorem eq_nil_of_loop_finish (i : Proc) (b : Buffer) (x : List Byte)
    (h : (loop i).body b x = .finish) : x = [] := by
  by_contra hne
  cases i with
  | client =>
    simp only [loop, client, if_neg hne] at h
    split at h <;> cases h
  | server =>
    simp only [loop, server, if_neg hne] at h
    split at h <;> cases h

/-- The reads of a process that is through, up to the end of file. -/
theorem left_reads (run : Run Step (start buffer stdin) tr s) {i : Proc} {b : Buffer}
    (hb : (start buffer stdin).proc i = .reading b) (h : s.proc i = .stopped) :
    s.chan (loop i).input = [] ∧ ∃ ys, reads (loop i).input (Net.events tr) = ys ++ [[]] ∧
      (∀ y ∈ ys, y ≠ [] ∧ y.length ≤ (loop i).size) ∧
        writes (loop i).output (Net.events tr) = ((loop i).rounds b (ys ++ [[]])).1 := by
  have hdrained := ReadLoop.drained run loop_output_inj (i := i)
    (fun j => by cases j <;> exact ⟨(fun h => nomatch h), (fun h => nomatch h)⟩)
    (fun j => by cases j <;> rfl) (eq_nil_of_loop_finish i) (.inr h)
  obtain ⟨ys, b', x, hreads, hrounds, hfinish⟩ :=
    ReadLoop.run_left_net run loop_input_inj loop_output_inj hb (.inr h)
  obtain rfl := eq_nil_of_loop_finish i b' x hfinish
  refine ⟨hdrained.1, ys, hreads, fun y hy => ⟨?_, ?_⟩, ?_⟩
  · rintro rfl
    obtain ⟨b₁, ws, b₂, hbody⟩ := ReadLoop.rounds_running hrounds [] hy
    cases i <;> simp [loop, client, server] at hbody
  · refine ReadLoop.reads_length_net run loop_input_inj i y ?_
    rw [hreads]
    exact List.mem_append_left _ hy
  · rw [ReadLoop.rounds_append hrounds, ReadLoop.rounds_finish hfinish, List.append_nil]

/-- **The transfer in a run**: the reads of the server are a cut of what the client has
sent, and it is these reads that decide what is printed. -/
theorem transfer_run (run : Run Step (start buffer stdin) tr s)
    (hclient : s.proc .client = .stopped) (hserver : s.proc .server = .stopped) :
    ∃ lines segs, reads .stdin (Net.events tr) = lines ++ [[]] ∧
      reads .sockfd (Net.events tr) = segs ++ [[]] ∧ lines.flatten = stdin ∧ Cut lines segs ∧
        s.chan .stdout = (server.rounds buffer (segs ++ [[]])).1.flatten := by
  obtain ⟨hempty, lines, hlines, -, hsent⟩ := left_reads run (i := .client) rfl hclient
  obtain ⟨hempty', segs, hsegs, hread, hshown⟩ := left_reads run (i := .server) rfl hserver
  have hstdin : stdin = (reads .stdin (Net.events tr)).flatten ++ s.chan .stdin :=
    ReadLoop.source_run run .stdin fun i h => by cases i <;> cases h
  have hsockfd : (writes .sockfd (Net.events tr)).flatten = _ := Net.flow_run run .sockfd
  have hstdout : (writes .stdout (Net.events tr)).flatten = s.chan .stdout :=
    ReadLoop.sink_run run .stdout fun i h => by cases i <;> cases h
  change s.chan .stdin = [] at hempty
  change s.chan .sockfd = [] at hempty'
  change reads .stdin (Net.events tr) = _ at hlines
  change reads .sockfd (Net.events tr) = _ at hsegs
  change writes .sockfd (Net.events tr) = (client.rounds (.zero _) _).1 at hsent
  change writes .stdout (Net.events tr) = (server.rounds buffer _).1 at hshown
  refine ⟨lines, segs, hlines, hsegs, ?_, ⟨hread, ?_⟩, ?_⟩
  · rw [hlines, hempty] at hstdin
    simpa using hstdin.symm
  · rw [hsent, hsegs, hempty'] at hsockfd
    simpa [stream] using hsockfd.symm
  · rw [hshown] at hstdout
    exact hstdout.symm

end Run

end PosixNet.Week5
