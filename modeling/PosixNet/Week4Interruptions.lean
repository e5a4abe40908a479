import PosixNet.Week4Echo

/-!
# `week4`: the echo server and what its system calls return

`echoer` of `teht6_server.c` once more, now with calls that fail: a `read` may be
interrupted, which line 24 answers by reading again, and a `write` may be interrupted or
transfer a part of what it is given, which nothing answers, as its result is discarded.

A run is a list of outcomes.  What the `write`s were given is what has been received,
whatever happens (`given_run`), so the echo is complete exactly if every `write`
transferred all of it (**`survives_iff`**).  Where that holds and no `read` fails for
good, the run is one of the loop of `Week4Echo` (`loop_run`).
-/
namespace PosixNet.Week4.Interruptions

/-- Where `echoer` is. -/
inductive Place where
  | read
  | write (read_len : Nat)
  | returned
  deriving DecidableEq

/-- `echoer`, in front of its next call. -/
structure Echoer where
  place : Place
  buffer : CArray 256
  deriving DecidableEq

def EINTR : Nat := 4

/-- What the call that is made next returns. -/
inductive Outcome where
  /-- No bytes at the end of the stream. -/
  | read (bytes : List Byte)
  | readFailed (errno : Nat)
  | wrote (n : Nat)
  /-- `write` fails with `EINTR`. -/
  | writeInterrupted
  deriving DecidableEq

/-- What a call did. -/
inductive Event where
  | received (bytes : List Byte)
  | eof
  | readFailed (errno : Nat)
  /-- What `write` was given, and what it transferred. -/
  | wrote (given bytes : List Byte)
  deriving DecidableEq

/-- Lines 20–27. -/
def step : Outcome → Echoer → Option (Event × Echoer)
  | .read bytes, ⟨.read, buffer⟩ =>
    if h : bytes.length ≤ 255 then
      let buffer := buffer.set 0 bytes (by omega)
      if bytes = [] then some (.eof, ⟨.returned, buffer⟩)
      else some (.received bytes, ⟨.write bytes.length, buffer⟩)
    else none
  | .readFailed errno, ⟨.read, buffer⟩ =>
    -- `goto again`, or the message of line 27
    if errno = EINTR then some (.readFailed errno, ⟨.read, buffer⟩)
    else some (.readFailed errno, ⟨.returned, buffer⟩)
  | .wrote n, ⟨.write read_len, buffer⟩ =>
    if 0 < n ∧ n ≤ read_len then
      let given := buffer.bytes.take read_len
      some (.wrote given (given.take n), ⟨.read, buffer⟩)
    else none
  | .writeInterrupted, ⟨.write read_len, buffer⟩ =>
    some (.wrote (buffer.bytes.take read_len) [], ⟨.read, buffer⟩)
  | _, _ => none

/-- `echoer` in front of its first `read`. -/
def start : Echoer := ⟨.read, .zero 256⟩

abbrev Trace := List (Echoer × Event)

/-- The bytes received. -/
def received (tr : Trace) : List Byte :=
  (labels tr).flatMap fun
    | .received bytes => bytes
    | _ => []

/-- The bytes that were sent back. -/
def sent (tr : Trace) : List Byte :=
  (labels tr).flatMap fun
    | .wrote _ bytes => bytes
    | _ => []

/-- The end of the stream, or an error other than `EINTR`. -/
def Event.Final : Event → Prop
  | .eof => True
  | .readFailed errno => errno ≠ EINTR
  | _ => False

/-- A `write` transferred all it was given. -/
def Event.Whole : Event → Prop
  | .wrote given bytes => bytes = given
  | _ => True

instance : (e : Event) → Decidable e.Final
  | .eof => isTrue trivial
  | .readFailed _ => inferInstanceAs (Decidable (_ ≠ _))
  | .received _ | .wrote _ _ => isFalse id

instance : (e : Event) → Decidable e.Whole
  | .wrote _ _ => inferInstanceAs (Decidable (_ = _))
  | .received _ | .eof | .readFailed _ => isTrue trivial

/-- The echo is complete at every return to `read`, and the loop ends where it should. -/
structure Survives (tr : Trace) (s : Echoer) : Prop where
  echoed : ∀ pre post u, tr = pre ++ post → Run (stepOf step) start pre u → u.place = .read →
    sent pre = received pre
  ended : s.place = .returned ↔ ∃ e ∈ labels tr, e.Final
  /-- Nothing follows the first end of the stream or error. -/
  first : ∀ pre x post, tr = pre ++ x :: post → x.2.Final → post = []

/-! ## The outcomes of a step -/

/-- What has been received and not yet been given to `write`. -/
def Echoer.pending (s : Echoer) : List Byte :=
  match s.place with
  | .write read_len => s.buffer.bytes.take read_len
  | _ => []

/-- Everything a step can do. -/
inductive Moves (buffer : CArray 256) : Place → Event → Echoer → Prop
  | received (bytes : List Byte) (hne : bytes ≠ []) (hlen : bytes.length ≤ 255) :
      Moves buffer .read (.received bytes)
        ⟨.write bytes.length, buffer.set 0 bytes (by omega)⟩
  | eof (buffer' : CArray 256) : Moves buffer .read .eof ⟨.returned, buffer'⟩
  | again : Moves buffer .read (.readFailed EINTR) ⟨.read, buffer⟩
  | failed (errno : Nat) (h : errno ≠ EINTR) :
      Moves buffer .read (.readFailed errno) ⟨.returned, buffer⟩
  | wrote (read_len n : Nat) : Moves buffer (.write read_len)
      (.wrote (buffer.bytes.take read_len) ((buffer.bytes.take read_len).take n)) ⟨.read, buffer⟩

variable {s s' : Echoer} {e : Event} {tr : Trace}

theorem moves_of_step (h : stepOf step s e s') : Moves s.buffer s.place e s' := by
  obtain ⟨outcome, h⟩ := h
  obtain ⟨place, buffer⟩ := s
  cases outcome with
  | read bytes =>
    cases place with
    | read =>
      simp only [step] at h
      split at h
      · split at h
        · obtain ⟨rfl, rfl⟩ := Prod.mk.inj (Option.some.inj h)
          exact .eof _
        · obtain ⟨rfl, rfl⟩ := Prod.mk.inj (Option.some.inj h)
          exact .received bytes ‹_› ‹_›
      · cases h
    | write _ | returned => cases h
  | readFailed errno =>
    cases place with
    | read =>
      simp only [step] at h
      split at h
      · subst errno
        obtain ⟨rfl, rfl⟩ := Prod.mk.inj (Option.some.inj h)
        exact .again
      · obtain ⟨rfl, rfl⟩ := Prod.mk.inj (Option.some.inj h)
        exact .failed errno ‹_›
    | write _ | returned => cases h
  | wrote n =>
    cases place with
    | write read_len =>
      simp only [step] at h
      split at h
      · obtain ⟨rfl, rfl⟩ := Prod.mk.inj (Option.some.inj h)
        exact .wrote read_len n
      · cases h
    | read | returned => cases h
  | writeInterrupted =>
    cases place with
    | write read_len =>
      obtain ⟨rfl, rfl⟩ := Prod.mk.inj (Option.some.inj h)
      exact .wrote read_len 0
    | read | returned => cases h

/-! ## Runs -/

/-- The bytes the `write`s were given. -/
def given (tr : Trace) : List Byte :=
  (labels tr).flatMap fun
    | .wrote given _ => given
    | _ => []

theorem received_snoc : received (tr ++ [(s, e)]) = received tr ++ received [(s, e)] := by
  simp [received]

theorem sent_snoc : sent (tr ++ [(s, e)]) = sent tr ++ sent [(s, e)] := by
  simp [sent]

theorem given_snoc : given (tr ++ [(s, e)]) = given tr ++ given [(s, e)] := by
  simp [given]

/-- **What is received is given to `write`**, once and in order. -/
theorem given_run (run : Run (stepOf step) start tr s) : received tr = given tr ++ s.pending := by
  refine run.invariant (I := fun tr s => received tr = given tr ++ s.pending) rfl ?_
  intro tr s e s' _ ih h
  rw [received_snoc, given_snoc, ih]
  obtain ⟨place, buffer⟩ := s
  cases moves_of_step h with
  | received bytes _ hlen =>
    have hkept : (buffer.set 0 bytes (by omega)).bytes.take bytes.length = bytes := by
      rw [CArray.set_zero_bytes, List.take_left]
    simp [Echoer.pending, received, given, hkept]
  | eof | again | failed => simp [Echoer.pending, received, given]
  | wrote read_len n => simp [Echoer.pending, received, given]

/-- What is sent back is no more than what `write` was given, and all of it exactly if
every `write` transferred all. -/
theorem sent_run (run : Run (stepOf step) start tr s) :
    (sent tr).length ≤ (given tr).length ∧
      (sent tr = given tr ↔ ∀ e ∈ labels tr, e.Whole) := by
  refine run.invariant (I := fun tr _ => (sent tr).length ≤ (given tr).length ∧
    (sent tr = given tr ↔ ∀ e ∈ labels tr, e.Whole)) (by simp [sent, given]) ?_
  rintro tr s e s' _ ⟨hle, hiff⟩ h
  rw [sent_snoc, given_snoc]
  obtain ⟨place, buffer⟩ := s
  cases moves_of_step h with
  | received | eof | again | failed =>
    simpa [sent, given, or_imp, forall_and, Event.Whole] using And.intro hle hiff
  | wrote read_len n =>
    have hone : ∀ t : Echoer, sent [(t, .wrote (buffer.bytes.take read_len)
        ((buffer.bytes.take read_len).take n))] = (buffer.bytes.take read_len).take n ∧
        given [(t, .wrote (buffer.bytes.take read_len)
        ((buffer.bytes.take read_len).take n))] = buffer.bytes.take read_len := by
      simp [sent, given]
    obtain ⟨hsent, hgiven⟩ := hone ⟨.write read_len, buffer⟩
    have hpart := (List.take_prefix n (buffer.bytes.take read_len)).length_le
    rw [hsent, hgiven]
    refine ⟨by simp only [List.length_append]; omega, ?_⟩
    rw [labels_append, labels_cons, labels_nil, List.forall_mem_append, ← hiff]
    constructor
    · intro heq
      have hlen := congrArg List.length heq
      simp only [List.length_append] at hlen
      obtain ⟨hold, hnew⟩ := List.append_inj heq (by omega)
      exact ⟨hold, fun e he => by rw [List.mem_singleton.mp he]; exact hnew⟩
    · rintro ⟨hold, hnew⟩
      have hwhole : (buffer.bytes.take read_len).take n = buffer.bytes.take read_len :=
        hnew _ (List.mem_singleton_self _)
      rw [hold, hwhole]

/-- The loop is left at the end of the stream, or at an error, and only there. -/
theorem ended_run (run : Run (stepOf step) start tr s) :
    s.place = .returned ↔ ∃ e ∈ labels tr, e.Final := by
  refine run.invariant (I := fun tr s => s.place = .returned ↔ ∃ e ∈ labels tr, e.Final)
    (by simp [start]) ?_
  intro tr s e s' _ ih h
  rw [labels_append, labels_cons, labels_nil]
  obtain ⟨place, buffer⟩ := s
  -- the loop was not left before
  have hbefore : ¬ ∃ e ∈ labels tr, e.Final := by
    rw [← ih]
    cases moves_of_step h <;> exact fun h => nomatch h
  have hnow : (∃ d ∈ labels tr ++ [e], d.Final) ↔ e.Final := by
    simp only [List.mem_append, List.mem_singleton, or_and_right, exists_or, exists_eq_left]
    exact or_iff_right hbefore
  rw [hnow]
  cases moves_of_step h with
  | received | wrote => exact ⟨fun h => (nomatch h), False.elim⟩
  | eof => exact ⟨fun _ => trivial, fun _ => rfl⟩
  | again => exact ⟨fun h => (nomatch h), fun h => absurd rfl h⟩
  | failed errno hne => exact ⟨fun _ => hne, fun _ => rfl⟩

/-- Nothing happens after the loop is left. -/
theorem eq_nil_of_returned {post : Trace} (run : Run (stepOf step) s post s')
    (h : s.place = .returned) : post = [] := by
  refine (run.invariant (I := fun tr u => tr = [] ∧ u.place = .returned) ⟨rfl, h⟩ ?_).1
  rintro tr u e u' _ ⟨rfl, hu⟩ hstep
  have hmove := moves_of_step hstep
  rw [hu] at hmove
  cases hmove

theorem place_read_of_wrote {given bytes : List Byte} (h : stepOf step s (.wrote given bytes) s') :
    s'.place = .read := by
  cases hs : s.place with
  | write read_len =>
    have hmove := moves_of_step h
    generalize (Event.wrote given bytes) = e at hmove
    rw [hs] at hmove
    cases hmove
    rfl
  | read | returned =>
    have hmove := moves_of_step h
    rw [hs] at hmove
    cases hmove

/-- **When the echo survives.**  In every run: exactly if every `write` transferred all
that it was given.  The reads may be interrupted at any time. -/
theorem survives_iff (run : Run (stepOf step) start tr s) :
    Survives tr s ↔ ∀ e ∈ labels tr, e.Whole := by
  constructor
  · intro h e he
    obtain ⟨x, hx, rfl⟩ := List.mem_map.mp he
    obtain ⟨pre, post, u, rfl, hpre, hstep, -⟩ := run.of_mem hx
    obtain ⟨t, e⟩ := x
    cases e with
    | wrote given' bytes =>
      -- after the `write` the loop is back at `read`
      have hplace := place_read_of_wrote hstep
      have hrun : Run (stepOf step) start (pre ++ [(t, .wrote given' bytes)]) u :=
        .snoc hpre hstep
      have hall := h.echoed (pre ++ [(t, .wrote given' bytes)]) post u (by simp) hrun hplace
      rw [given_run hrun, Echoer.pending, hplace, List.append_nil] at hall
      exact (sent_run hrun).2.mp hall _ (by simp)
    | received | eof | readFailed => trivial
  · intro hwhole
    refine ⟨?_, ended_run run, ?_⟩
    · rintro pre post u rfl hpre hplace
      rw [given_run hpre, Echoer.pending, hplace, List.append_nil]
      refine (sent_run hpre).2.mpr fun e he => hwhole e ?_
      rw [labels_append]
      exact List.mem_append_left _ he
    · rintro pre x post rfl hfinal
      obtain ⟨u, hpre, hstep, hpost⟩ := run.split
      have hrun : Run (stepOf step) start (pre ++ [x]) u := .snoc hpre hstep
      exact eq_nil_of_returned hpost ((ended_run hrun).mpr ⟨x.2, by simp, hfinal⟩)

/-- A read that is interrupted, a line in two reads, and the end of the stream. -/
def calls (n : Nat) : List Outcome :=
  [.readFailed EINTR, .read (ascii "ab"), .wrote n, .read (ascii "c\n"), .wrote 2, .read []]

theorem survives_interrupted_read : ∃ tr s, Run (stepOf step) start tr s ∧
    (sent tr = ascii "abc\n" ∧ s.place = .returned) ∧ Survives tr s := by
  have hrun := run_get step (calls 2) start (by decide +kernel)
  exact ⟨_, _, hrun, by decide +kernel, (survives_iff hrun).mpr (by decide +kernel)⟩

/-- A `write` transfers one of two bytes. -/
theorem not_survives_short_write :
    ¬ ∀ tr s, Run (stepOf step) start tr s → Survives tr s := by
  intro hall
  have hpart := run_get step ((calls 1).take 3) start (by decide +kernel)
  have hecho := (hall _ _ hpart).echoed _ [] _ (List.append_nil _).symm hpart (by decide +kernel)
  exact absurd hecho (by decide +kernel)

/-! ## The loop of the network -/

/-- Where the loop of `Week4Echo` is. -/
def Echoer.loopState (s : Echoer) : LoopState (CArray 256) :=
  match s.place with
  | .read => .reading s.buffer
  | .write read_len => .writing (s.buffer.bytes.take read_len) [] s.buffer
  | .returned => .closing

/-- What the network sees of an event. -/
def Event.io : Event → Option (Io Chan)
  | .received bytes => some (.read .toServer bytes)
  | .eof => some (.read .toServer [])
  | .readFailed _ => none
  | .wrote _ bytes => some (.write .toClient bytes)

/-- **Without short writes and real errors** this is the loop of the network; the
interrupted reads do not show. -/
theorem loop_run (run : Run (stepOf step) start tr s) (hwhole : ∀ e ∈ labels tr, e.Whole)
    (hread : ∀ errno, Event.readFailed errno ∈ labels tr → errno = EINTR) :
    ∃ tr', Run (Local Week4.echoer.program) (.reading (.zero 256)) tr' s.loopState ∧
      labels tr' = (labels tr).filterMap Event.io := by
  induction run with
  | nil => exact ⟨[], .nil, rfl⟩
  | @snoc tr u u' e run h ih =>
    rw [labels_append, labels_cons, labels_nil] at hwhole hread ⊢
    obtain ⟨tr', hrun, hlabels⟩ := ih (fun e he => hwhole e (List.mem_append_left _ he))
      fun errno he => hread errno (List.mem_append_left _ he)
    have hlast := hwhole e (List.mem_append_right _ (List.mem_singleton_self _))
    have hfail : ∀ errno, e = .readFailed errno → errno = EINTR := fun errno he =>
      hread errno (List.mem_append_right _ (by rw [he]; exact List.mem_singleton_self _))
    have hsnoc : ∀ d, e.io = some d → Local Week4.echoer.program u.loopState d u'.loopState →
        ∃ tr', Run (Local Week4.echoer.program) (.reading (.zero 256)) tr' u'.loopState ∧
          labels tr' = (labels tr ++ [e]).filterMap Event.io := fun d hd hstep =>
      ⟨_, .snoc hrun hstep, by simp [hlabels, hd]⟩
    obtain ⟨place, buffer⟩ := u
    cases moves_of_step h with
    | received bytes hne hlen =>
      refine hsnoc _ rfl ?_
      have hstep := @ReadLoop.local_read _ _ Week4.echoer bytes buffer hlen
      rw [Week4.echoer_body hne (by omega)] at hstep
      rw [show (⟨.write bytes.length, buffer.set 0 bytes (by omega)⟩ : Echoer).loopState =
        .after (.next [bytes] (buffer.set 0 bytes (by omega))) by
          simp [Echoer.loopState, LoopState.after, CArray.set_zero_bytes]]
      exact hstep
    | eof buffer' =>
      exact hsnoc _ rfl (@ReadLoop.local_read _ _ Week4.echoer [] buffer (Nat.zero_le _))
    | again => exact ⟨tr', hrun, by simp [hlabels, Event.io]⟩
    | failed errno hne => exact absurd (hfail errno rfl) hne
    | wrote read_len n =>
      have hall : (buffer.bytes.take read_len).take n = buffer.bytes.take read_len := hlast
      refine hsnoc _ rfl ?_
      rw [hall]
      exact .write rfl

end PosixNet.Week4.Interruptions
