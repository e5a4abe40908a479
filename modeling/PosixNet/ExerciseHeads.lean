import PosixNet.ExerciseIteration

/-!
# `exercise`: the heads of the loop of `newConnection`

`headAfter` is the connection at the head of the loop, after some reads.  What it holds
is known from the reads: `esize` is the length of the E read that is pending
(`pendingRead`), and the buffer is cleared, but for its last byte, from the second read
on (`headAfter_start`).

The length pending is that of an earlier read, and nothing compares the sum of the two
to the size of the arrays.  **`inside_iff`** says which sessions copy inside of them:
those in which no read is too long for the E read it completes or pushes out, and in
which every E read meets a NUL behind it.
-/
namespace PosixNet.Exercise

/-- `newConnection` at the head of its loop, after these reads. -/
def headAfter (SRCPATH : List Byte) (c : Conn) (front : List Delivery) : Except Ending Conn :=
  front.foldlM (fun c d => (handle SRCPATH c d).2) c

/-- The E read that is pending once `d` is handled. -/
def nowPending (pending : Option Delivery) (d : Delivery) : Option Delivery :=
  match commandOf d.bytes with
  | .echo => some d
  | .comment | .code | .file => pending
  | .accept | .quit | .other => none

/-- The E read that is pending after these reads: the last of them that is no comment, C
or F command, if it is an E command. -/
def pendingRead (front : List Delivery) : Option Delivery := front.foldl nowPending none

/-- `esize`, if this E read is pending. -/
def pendingLength : Option Delivery → Nat
  | none => 0
  | some p => p.bytes.length

/-- The buffer after these reads. -/
def bufferAfter (buffer : CArray (MAXBUFFER + 1)) : List Delivery → CArray (MAXBUFFER + 1)
  | [] => buffer
  | _ :: _ => cleared buffer

/-- Each of these reads leaves the session going on. -/
def GoesOn (SRCPATH : List Byte) (buffer : CArray (MAXBUFFER + 1)) (front : List Delivery) : Prop :=
  ∀ front' d rest, front = front' ++ d :: rest →
    Continues SRCPATH (bufferAfter buffer front') (pendingLength (pendingRead front')) d

/-- The copies that handling `d` makes into `ebuffer` and into the buffer of `echoer` are
inside of them. -/
def CopiesInside (c : Conn) (d : Delivery) : Prop :=
  match commandOf d.bytes with
  | .echo =>
    (0 < c.esize →
      ∃ b, d.world.echoerBuffer.strncpy c.ebuffer (c.esize + d.bytes.length) = .ok b) ∧
    ∃ text e, heard c.buffer d = .ok text ∧
      (if 0 < c.esize then CArray.zero _ else c.ebuffer).strcpy text = .ok e
  | .other => 0 < c.esize → ∃ e b, c.ebuffer.store c.esize d.bytes = .ok e ∧
      d.world.echoerBuffer.strncpy e (c.esize + d.bytes.length) = .ok b
  | .comment | .code | .file | .accept | .quit => True

/-- All copies of a session into the two arrays are inside of them. -/
def Inside (SRCPATH : List Byte) (c : Conn) (ds : List Delivery) : Prop :=
  ∀ front d rest, ds = front ++ d :: rest →
    ∀ c', headAfter SRCPATH c front = .ok c' → CopiesInside c' d

/-- The read `d`, after these: it fits behind the E read it completes or pushes out, and
if it is one itself a NUL stands behind it. -/
def Fits (buffer : CArray (MAXBUFFER + 1)) (front : List Delivery) (d : Delivery) : Prop :=
  (commandOf d.bytes = .echo ∨ commandOf d.bytes = .other →
    ∀ p ∈ pendingRead front, p.bytes.length + d.bytes.length ≤ MAXBUFFER + 1) ∧
  (commandOf d.bytes = .echo → 0 ∈ (bufferAfter buffer front).bytes.drop d.bytes.length)

variable {SRCPATH : List Byte} {c c' : Conn} {d : Delivery} {front ds : List Delivery}
  {buffer ebuffer : CArray (MAXBUFFER + 1)}

/-! ## What the reads tell of the head -/

theorem headAfter_append (front ds : List Delivery) : headAfter SRCPATH c (front ++ ds) =
    headAfter SRCPATH c front >>= fun c' => headAfter SRCPATH c' ds :=
  List.foldlM_append

theorem headAfter_singleton (d : Delivery) : headAfter SRCPATH c [d] = (handle SRCPATH c d).2 := by
  rw [headAfter, List.foldlM_cons]
  cases (handle SRCPATH c d).2 <;> rfl

/-- The last of the reads. -/
theorem headAfter_concat_iff : headAfter SRCPATH c (front ++ [d]) = .ok c' ↔
    ∃ c₁, headAfter SRCPATH c front = .ok c₁ ∧ (handle SRCPATH c₁ d).2 = .ok c' := by
  rw [headAfter_append]
  cases headAfter SRCPATH c front with
  | error ending =>
    constructor
    · intro h
      cases h
    · rintro ⟨c₁, h, -⟩
      cases h
  | ok c₁ =>
    constructor
    · intro h
      exact ⟨c₁, rfl, by rw [← headAfter_singleton]; exact h⟩
    · rintro ⟨c₂, h, h'⟩
      rw [← Except.ok.inj h, ← headAfter_singleton] at h'
      exact h'

theorem pendingRead_concat (front : List Delivery) (d : Delivery) :
    pendingRead (front ++ [d]) = nowPending (pendingRead front) d := by
  rw [pendingRead, List.foldl_append]
  rfl

theorem pendingLength_nowPending (pending : Option Delivery) (d : Delivery) :
    pendingLength (nowPending pending d) = pendingAfter (pendingLength pending) d.bytes := by
  rw [nowPending, pendingAfter]
  cases commandOf d.bytes <;> rfl

/-- What is pending has been read. -/
theorem mem_of_pendingRead {p : Delivery} (h : pendingRead front = some p) : p ∈ front := by
  induction front using List.reverseRecOn with
  | nil => cases h
  | append_singleton front d ih =>
    rw [pendingRead_concat, nowPending] at h
    cases hcmd : commandOf d.bytes with
    | echo =>
      rw [hcmd] at h
      rw [← Option.some.inj h]
      exact List.mem_append_right _ (List.mem_singleton_self d)
    | comment | code | file =>
      rw [hcmd] at h
      exact List.mem_append_left _ (ih h)
    | accept | quit | other =>
      rw [hcmd] at h
      cases h

theorem bufferAfter_concat (buffer : CArray (MAXBUFFER + 1)) (front : List Delivery)
    (d : Delivery) : bufferAfter buffer (front ++ [d]) = cleared (bufferAfter buffer front) := by
  cases front with
  | nil => rfl
  | cons d' front => exact (cleared_cleared buffer).symm

/-- **The head of the loop after some reads**: `esize` is the length of the E read that is
pending, and the buffer is cleared. -/
theorem headAfter_start (hpath : NulFree SRCPATH)
    (h : headAfter SRCPATH (.start buffer ebuffer) front = .ok c) :
    c.esize = pendingLength (pendingRead front) ∧ c.buffer = bufferAfter buffer front := by
  induction front using List.reverseRecOn generalizing c with
  | nil =>
    rw [← Except.ok.inj (h : Except.ok _ = Except.ok c)]
    exact ⟨rfl, rfl⟩
  | append_singleton front d ih =>
    obtain ⟨c₁, hfront, hstep⟩ := headAfter_concat_iff.mp h
    obtain ⟨hesize, hbuffer⟩ := ih hfront
    rcases handle_cases hpath c₁ d with ⟨-, c₂, hc₂, hcleared, hpending⟩ | ⟨-, ending, hend, -⟩
    · rw [hstep] at hc₂
      cases hc₂
      rw [hcleared, hpending, hesize, hbuffer, pendingRead_concat, pendingLength_nowPending,
        bufferAfter_concat]
      exact ⟨rfl, rfl⟩
    · rw [hstep] at hend
      cases hend

theorem goesOn_concat_iff : GoesOn SRCPATH buffer (front ++ [d]) ↔ GoesOn SRCPATH buffer front ∧
    Continues SRCPATH (bufferAfter buffer front) (pendingLength (pendingRead front)) d := by
  constructor
  · intro h
    refine ⟨fun front' d' rest heq => h front' d' (rest ++ [d]) ?_, h front d [] rfl⟩
    rw [heq, List.append_assoc, List.cons_append]
  · rintro ⟨hfront, hlast⟩ front' d' rest heq
    rcases List.eq_nil_or_concat rest with rfl | ⟨rest', d'', rfl⟩
    · obtain ⟨rfl, h⟩ := List.append_inj' heq rfl
      cases h
      exact hlast
    · rw [List.concat_eq_append, ← List.cons_append, ← List.append_assoc] at heq
      exact hfront front' d' rest' (List.append_inj' heq rfl).1

/-- **Which reads the loop gets past.** -/
theorem headAfter_ok_iff (hpath : NulFree SRCPATH) :
    (∃ c, headAfter SRCPATH (.start buffer ebuffer) front = .ok c) ↔
      GoesOn SRCPATH buffer front := by
  induction front using List.reverseRecOn with
  | nil => exact ⟨fun _ front' d rest heq => by simp at heq, fun _ => ⟨_, rfl⟩⟩
  | append_singleton front d ih =>
    rw [goesOn_concat_iff, ← ih]
    simp only [headAfter_concat_iff]
    constructor
    · rintro ⟨c, c₁, hfront, hstep⟩
      obtain ⟨hesize, hbuffer⟩ := headAfter_start hpath hfront
      refine ⟨⟨c₁, hfront⟩, ?_⟩
      rw [← hesize, ← hbuffer]
      rcases handle_cases hpath c₁ d with ⟨hgo, -⟩ | ⟨-, ending, hend, -⟩
      · exact hgo
      · rw [hstep] at hend
        cases hend
    · rintro ⟨⟨c₁, hfront⟩, hgo⟩
      obtain ⟨hesize, hbuffer⟩ := headAfter_start hpath hfront
      rw [← hesize, ← hbuffer] at hgo
      rcases handle_cases hpath c₁ d with ⟨-, c, hc, -⟩ | ⟨hover, -⟩
      · exact ⟨c, c₁, hfront, hc⟩
      · exact absurd hgo hover

/-- A session goes on from the head it has reached. -/
theorem newConnection_of_head (h : headAfter SRCPATH c front = .ok c') : ∃ ws, ∀ ds,
    newConnection SRCPATH c (front ++ ds) = ⟨ws ++ (newConnection SRCPATH c' ds).writes,
      (newConnection SRCPATH c' ds).ending,
      front.length + (newConnection SRCPATH c' ds).reads⟩ := by
  induction front using List.reverseRecOn generalizing c' with
  | nil =>
    rw [← Except.ok.inj (h : Except.ok _ = Except.ok c')]
    exact ⟨[], fun ds => by simp⟩
  | append_singleton front d ih =>
    obtain ⟨c₁, hfront, hstep⟩ := headAfter_concat_iff.mp h
    obtain ⟨ws, hws⟩ := ih hfront
    have hhandle : handle SRCPATH c₁ d = ((handle SRCPATH c₁ d).1, .ok c') := by rw [← hstep]
    refine ⟨ws ++ (handle SRCPATH c₁ d).1, fun ds => ?_⟩
    rw [List.append_assoc, List.singleton_append, hws, newConnection_ok hhandle,
      List.append_assoc, List.length_append, List.length_singleton, Nat.add_assoc,
      Nat.add_comm 1]

/-! ## The copies of one iteration -/

theorem strncpy_ok_iff {n size : Nat} {a line : CArray n} :
    (∃ b, a.strncpy line size = .ok b) ↔ size ≤ n := by
  constructor
  · rintro ⟨b, h⟩
    by_contra hsize
    rw [CArray.strncpy_eq_error (Nat.lt_of_not_le hsize)] at h
    cases h
  · intro hsize
    obtain ⟨b, hb, -⟩ := @CArray.strncpy_eq _ a _ line size hsize hsize
    exact ⟨b, hb⟩

theorem heard_ok_iff (hd : NulFree d.bytes) : (∃ text, heard buffer d = .ok text) ↔
    0 ∈ buffer.bytes.drop d.bytes.length := by
  have hmem : 0 ∈ (received buffer d).bytes ↔ 0 ∈ buffer.bytes.drop d.bytes.length := by
    rw [received_bytes, List.mem_append]
    exact or_iff_right hd
  rw [← hmem]
  constructor
  · rintro ⟨text, h⟩
    by_contra h0
    rw [heard, CArray.str_eq_error h0] at h
    cases h
  · exact fun h0 => ⟨_, CArray.str_eq h0⟩

/-- **What the copies of an iteration need.** -/
theorem copiesInside_iff : CopiesInside c d ↔
    (commandOf d.bytes = .echo ∨ commandOf d.bytes = .other →
      0 < c.esize → c.esize + d.bytes.length ≤ MAXBUFFER + 1) ∧
    (commandOf d.bytes = .echo → ∃ text, heard c.buffer d = .ok text) := by
  rw [CopiesInside]
  cases hcmd : commandOf d.bytes with
  | echo =>
    simp only [strncpy_ok_iff, true_or, true_implies]
    refine and_congr_right fun _ => ⟨fun ⟨text, _, h, _⟩ => ⟨text, h⟩, fun ⟨text, h⟩ => ?_⟩
    obtain ⟨e, he, -⟩ := @CArray.strcpy_eq _ (if 0 < c.esize then .zero _ else c.ebuffer) text
      (CArray.str_length_lt h)
    exact ⟨text, e, h, he⟩
  | other =>
    simp only [or_true, true_implies, reduceCtorEq, false_implies, and_true]
    refine imp_congr_right fun _ => ⟨fun ⟨e, b, _, h⟩ => strncpy_ok_iff.mp ⟨b, h⟩, fun hfit => ?_⟩
    obtain ⟨b, hb, -⟩ := @CArray.strncpy_eq _ d.world.echoerBuffer _
      (c.ebuffer.set c.esize d.bytes hfit) _ hfit hfit
    exact ⟨_, b, CArray.store_eq hfit, hb⟩
  | comment | code | file | accept | quit => simp

/-- A copy outside of its array ends the session. -/
theorem handle_of_not_copiesInside (h : ¬ CopiesInside c d) :
    (handle SRCPATH c d).2 = .error (.fault .bounds) := by
  rw [copiesInside_iff] at h
  by_cases hfit : commandOf d.bytes = .echo ∨ commandOf d.bytes = .other → 0 < c.esize →
      c.esize + d.bytes.length ≤ MAXBUFFER + 1
  · -- the text of an E command has no end
    obtain ⟨hcmd, hheard⟩ := Classical.not_imp.mp fun h' => h ⟨hfit, h'⟩
    have hstr : (received c.buffer d).str = .error .bounds :=
      CArray.str_eq_error fun h0 => hheard ⟨_, CArray.str_eq h0⟩
    have hsize := hfit (Or.inl hcmd)
    simp only [handle, hcmd, onEcho, keep_error hstr]
    by_cases hpos : 0 < c.esize
    · simp [hpos, echoer_eq (hsize hpos)]
    · simp [hpos]
  · -- the read does not fit behind the one pending
    simp only [Classical.not_imp, Nat.not_le] at hfit
    obtain ⟨hcmd | hcmd, hpos, hlong⟩ := hfit
    · simp [handle, hcmd, onEcho, hpos, echoer_eq_error hlong]
    · simp [handle, hcmd, onOther, hpos, CArray.store_eq_error hlong]

/-! ## The copies of a session -/

/-- A session that never leaves an array copies inside of its own. -/
theorem inside_of_ending (h : (newConnection SRCPATH c ds).ending ≠ .fault .bounds) :
    Inside SRCPATH c ds := by
  intro front d rest hds c' hc'
  by_contra hcopies
  obtain ⟨ws, hws⟩ := newConnection_of_head hc'
  have hstep : handle SRCPATH c' d = ((handle SRCPATH c' d).1, .error (.fault .bounds)) := by
    rw [← handle_of_not_copiesInside hcopies]
  rw [hds, hws, newConnection_error hstep] at h
  exact h rfl

/-- **When the echo buffers are not overrun.** -/
theorem inside_iff (hpath : NulFree SRCPATH) (hfree : ∀ d ∈ ds, NulFree d.bytes) :
    Inside SRCPATH (.start buffer ebuffer) ds ↔
      ∀ front d rest, ds = front ++ d :: rest → GoesOn SRCPATH buffer front →
        Fits buffer front d := by
  have hhead : ∀ {front d rest c}, ds = front ++ d :: rest →
      headAfter SRCPATH (.start buffer ebuffer) front = .ok c →
        (CopiesInside c d ↔ Fits buffer front d) := by
    intro front d rest c hds hc
    obtain ⟨hesize, hbuffer⟩ := headAfter_start hpath hc
    have hd : NulFree d.bytes := hfree d (by simp [hds])
    rw [copiesInside_iff, Fits, heard_ok_iff hd, hesize, hbuffer]
    cases hpending : pendingRead front with
    | none => simp [pendingLength]
    | some p => simp [pendingLength, p.length_pos]
  constructor
  · intro h front d rest hds hgo
    obtain ⟨c, hc⟩ := (@headAfter_ok_iff SRCPATH front buffer ebuffer hpath).mpr hgo
    exact (hhead hds hc).mp (h front d rest hds c hc)
  · intro h front d rest hds c hc
    exact (hhead hds hc).mpr (h front d rest hds ((headAfter_ok_iff hpath).mp ⟨c, hc⟩))

/-- Reads of half the buffer each fit, if the buffer has a NUL at its end. -/
theorem fits_of_short (hshort : ∀ d ∈ ds, d.bytes.length ≤ MAXBUFFER / 2) {rest : List Delivery}
    (hds : ds = front ++ d :: rest) : Fits (.zero _) front d := by
  have hmax : MAXBUFFER / 2 + MAXBUFFER / 2 = MAXBUFFER := by decide
  have hd := hshort d (by simp [hds])
  refine ⟨fun _ p hp => ?_, fun _ => ?_⟩
  · have hlen := hshort p (by simp [hds, mem_of_pendingRead hp])
    omega
  · have hzeros : bufferAfter (.zero _) front = .zero _ := by
      cases front with
      | nil => rfl
      | cons d' front => exact cleared_zero
    rw [hzeros, CArray.zero, List.drop_replicate, List.mem_replicate]
    exact ⟨by omega, rfl⟩

/-- An E line in two reads, with a comment in between. -/
theorem inside_two_halves : Inside (ascii "server.c") (.start (.zero _) (.zero _))
    [.said "E Echo", .said "# hello\n", .said " this\n"] :=
  (inside_iff (by decide) (by decide)).mpr fun _ _ _ hds _ => fits_of_short (by decide) hds

/-- A read of this byte and some letters. -/
def longRead (b : Byte) (k : Nat) (h : k < MAXBUFFER) : Delivery where
  bytes := b :: List.replicate k 'a'.toUInt8
  nonempty := List.cons_ne_nil _ _
  le := by rwa [List.length_cons, List.length_replicate, Nat.succ_le_iff]
  world := .withFile [] [] 0

theorem longRead_length {b : Byte} {k : Nat} (h : k < MAXBUFFER) :
    (longRead b k h).bytes.length = k + 1 := by simp [longRead]

theorem nulFree_longRead {b : Byte} {k : Nat} (h : k < MAXBUFFER) (hb : b ≠ 0) :
    NulFree (longRead b k h).bytes := by
  intro h0
  rcases List.mem_cons.mp h0 with h0 | h0
  · exact hb h0.symm
  · exact absurd (List.eq_of_mem_replicate h0) (by decide)

/-- An E read of 1025 bytes and 1025 bytes more. -/
theorem not_inside_long_reads : ¬ ∀ (SRCPATH : List Byte) (buffer ebuffer : CArray (MAXBUFFER + 1))
    (ds : List Delivery), NulFree SRCPATH → (∀ d ∈ ds, NulFree d.bytes) →
      Inside SRCPATH (.start buffer ebuffer) ds := by
  intro hall
  have hlt : 1024 < MAXBUFFER := by decide
  let d := longRead 'E'.toUInt8 1024 hlt
  let d' := longRead 'a'.toUInt8 1024 hlt
  have hd : NulFree d.bytes := nulFree_longRead hlt (by decide)
  have hd' : NulFree d'.bytes := nulFree_longRead hlt (by decide)
  have hinside := hall [] (.zero _) (.zero _) [d, d'] (by decide) (by simp [hd, hd'])
  have hlen : d.bytes.length = 1025 := longRead_length hlt
  have hlen' : d'.bytes.length = 1025 := longRead_length hlt
  have hheard : heard (.zero _) d = .ok d.bytes := heard_zero hd
  obtain ⟨e, r, hstep, -⟩ := @handle_echo_idle [] d.bytes (.start (.zero _) (.zero _)) d rfl rfl
    hheard
  have hhead : headAfter [] (.start (.zero _) (.zero _)) [d] =
      .ok ⟨cleared (.zero _), e, d.bytes.length⟩ := by
    rw [headAfter_singleton, hstep]
    rfl
  have hcopies := hinside [d] d' [] rfl _ hhead
  have hfit : d.bytes.length + d'.bytes.length ≤ MAXBUFFER + 1 :=
    (copiesInside_iff.mp hcopies).1 (Or.inr rfl) d.length_pos
  rw [hlen, hlen'] at hfit
  exact absurd hfit (by decide)

end PosixNet.Exercise
