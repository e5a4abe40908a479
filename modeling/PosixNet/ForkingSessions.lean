import PosixNet.ExerciseConnection
import PosixNet.ForkingServer
import PosixNet.Week4Interruptions

/-!
# The servers with all their clients

`ForkingServer` with the children of the two programs: `echoer` of `teht6_server.c`, with what
its system calls return, and `newConnection` of `exercise.c`.

* **`echo_server`**: every client gets back what it sent, as far as the `write`s of its child
  transferred all they were given, whatever the other clients do.
* **`exercise_server`**: every connection is one session of `newConnection`, on what its own
  client sent; and the server ends exactly if `accept` fails for good or a session ended
  with the goodbye or with an A command.

The servers are taken from the head of their loops on, behind `socket`, `bind` and `listen`,
and no signal reaches them or their children but those that a child sends.
-/
namespace PosixNet.ForkingServer
open AcceptLoop

/-! ## `teht6_server` -/

section Echo

/-- A call of `echoer` as a turn. -/
def echoTurn (e : Week4.Interruptions.Echoer) : Week4.Interruptions.Event →
    Turn Week4.Interruptions.Echoer
  | .received bytes => { took := some bytes, next := some e }
  | .eof => { took := some [], next := none }
  | .readFailed _ => { next := if e.place = .returned then none else some e }
  | .wrote _ bytes => { wrote := bytes, next := some e }

/-- `echoer` of `teht6_server.c`. -/
def echoer : Service Week4.Interruptions.Outcome Week4.Interruptions.Echoer := fun outcome e =>
  (Week4.Interruptions.step outcome e).map fun (event, e') => echoTurn e' event

variable {ts : List (Turn Week4.Interruptions.Echoer)} {st : Option Week4.Interruptions.Echoer}

/-- The turns of a child are a run of `echoer`. -/
theorem serves_echoer (h : Serves echoer Week4.Interruptions.start ts st) :
    ∃ (ctr : Week4.Interruptions.Trace) (e : Week4.Interruptions.Echoer),
      Run (stepOf Week4.Interruptions.step) Week4.Interruptions.start ctr e ∧
      (st = some e ∨ st = none) ∧ taken ts = Week4.Interruptions.received ctr ∧
      wrote ts = Week4.Interruptions.sent ctr ∧
      (.eof ∈ labels ctr → ∃ t ∈ ts, t.took = some []) := by
  induction h with
  | nil => exact ⟨[], _, .nil, .inl rfl, rfl, rfl, nofun⟩
  | @snoc ts p a t _ ht ih =>
    obtain ⟨ctr, e, hrun, hst, htaken, hwrote, heof⟩ := ih
    obtain rfl : p = e := by simpa using hst
    obtain ⟨⟨event, e'⟩, hstep, rfl⟩ := Option.map_eq_some_iff.mp ht
    refine ⟨ctr ++ [(p, event)], e', .snoc hrun ⟨a, hstep⟩, ?_, ?_, ?_, ?_⟩
    · cases event with
      | received | wrote => exact .inl rfl
      | eof => exact .inr rfl
      | readFailed errno =>
        by_cases hplace : e'.place = .returned
        · exact .inr (if_pos hplace)
        · exact .inl (if_neg hplace)
    · rw [taken_append, htaken, Week4.Interruptions.received_snoc]
      cases event <;> simp [taken, Turn.bytes, echoTurn, Week4.Interruptions.received]
    · rw [wrote_append, hwrote, Week4.Interruptions.sent_snoc]
      cases event <;> simp [wrote, echoTurn, Week4.Interruptions.sent]
    · intro hmem
      rw [labels_append, List.mem_append] at hmem
      rcases hmem with hmem | hmem
      · obtain ⟨t, ht, htook⟩ := heof hmem
        exact ⟨t, List.mem_append_left _ ht, htook⟩
      · obtain rfl : .eof = event := by simpa using hmem
        exact ⟨_, List.mem_append_right _ (List.mem_singleton_self _), rfl⟩

variable {listenfd : ℕ} {tr : Trace Week4.Interruptions.Echoer}
  {s : State Week4.Interruptions.Echoer}

/-- Two clients at a time, the second answered first. -/
def twoClients : List (Act Week4.Interruptions.Outcome) :=
  [.loop (.accept 4), .loop .fork, .loop .close, .loop (.accept 4), .loop .fork,
    .loop (.childClose 0), .loop (.childClose 1), .send 0 [104, 105], .send 1 [98],
    .serve 1 (.read [98]), .serve 0 (.read [104, 105]), .serve 1 (.wrote 1), .serve 0 (.wrote 2),
    .close 0, .close 1, .serve 0 (.read []), .serve 1 (.read [])]

end Echo

/-! ## `childServer` -/

section Exercise
open Exercise

/-- An iteration of `newConnection` as a turn. -/
def exerciseTurn (d : Delivery) : Iteration → Turn Conn
  | (writes, .ok c) => { took := some d.bytes, wrote := writes.flatMap Write.bytes, next := some c }
  | (writes, .error ending) => {
    took := some d.bytes
    wrote := writes.flatMap Write.bytes
    kills := ending = .goodbye ∨ ending = .accepted
    next := none }

/-- `newConnection` of `exercise.c`; `read` returns data, or none. -/
def newConnection (SRCPATH : List Byte) : Service (Option Delivery) Conn
  | some d, c => some (exerciseTurn d (handle SRCPATH c d))
  | none, _ => some { took := some [], next := none }

/-- The state of `newConnection` when these deliveries have been handled, if it goes on. -/
def connAfter (SRCPATH : List Byte) : Conn → List Delivery → Option Conn
  | c, [] => some c
  | c, d :: ds =>
    match handle SRCPATH c d with
    | (_, .ok c') => connAfter SRCPATH c' ds
    | (_, .error _) => none

variable {SRCPATH : List Byte} {c c' : Conn}

/-- A session that goes on, and what comes behind. -/
theorem newConnection_append {ds : List Delivery} (h : connAfter SRCPATH c ds = some c')
    (ds' : List Delivery) :
    Exercise.newConnection SRCPATH c (ds ++ ds') =
      ⟨(Exercise.newConnection SRCPATH c ds).writes ++
          (Exercise.newConnection SRCPATH c' ds').writes,
        (Exercise.newConnection SRCPATH c' ds').ending,
        ds.length + (Exercise.newConnection SRCPATH c' ds').reads⟩ := by
  induction ds generalizing c with
  | nil =>
    obtain rfl := Option.some.inj h
    rw [List.nil_append, List.length_nil, Nat.zero_add]
    rfl
  | cons d ds ih =>
    rw [connAfter] at h
    split at h
    · rename_i ws c'' hhandle
      rw [List.cons_append, newConnection_ok hhandle, newConnection_ok hhandle, ih h,
        List.append_assoc, List.length_cons, Nat.add_right_comm]
    · cases h

/-- A session that goes on has read all its deliveries, and not ended. -/
theorem newConnection_running {ds : List Delivery} (h : connAfter SRCPATH c ds = some c') :
    (Exercise.newConnection SRCPATH c ds).ending = .eof ∧
      (Exercise.newConnection SRCPATH c ds).reads = ds.length := by
  have happend := newConnection_append h []
  rw [List.append_nil] at happend
  constructor
  · rw [happend]
    rfl
  · rw [happend]
    rfl

theorem connAfter_snoc {ds : List Delivery} {d : Delivery} {ws : List Write} {c'' : Conn}
    (h : connAfter SRCPATH c ds = some c') (hd : handle SRCPATH c' d = (ws, .ok c'')) :
    connAfter SRCPATH c (ds ++ [d]) = some c'' := by
  induction ds generalizing c with
  | nil =>
    obtain rfl := Option.some.inj h
    rw [List.nil_append, connAfter, hd]
    rfl
  | cons d' ds ih =>
    rw [connAfter] at h
    split at h
    · rename_i hhandle
      rw [List.cons_append, connAfter, hhandle]
      exact ih h
    · cases h

variable {ts : List (Turn Conn)} {st : Option Conn}

/-- A session ends with a signal to the parent. -/
def Kills (session : Session) : Prop := session.ending = .goodbye ∨ session.ending = .accepted

/-- **The turns of a child are a session** of `newConnection`. -/
theorem serves_newConnection (h : Serves (newConnection SRCPATH) c ts st) :
    ∃ ds : List Delivery, taken ts = ds.flatMap Delivery.bytes ∧
      wrote ts = (Exercise.newConnection SRCPATH c ds).writes.flatMap Write.bytes ∧
      (Exercise.newConnection SRCPATH c ds).reads = ds.length ∧
      ((∃ t ∈ ts, t.kills) ↔ Kills (Exercise.newConnection SRCPATH c ds)) ∧
      ∀ c' ∈ st, connAfter SRCPATH c ds = some c' := by
  induction h with
  | nil =>
    refine ⟨[], rfl, rfl, rfl, ?_, fun c' hc' => hc'⟩
    simp [Kills, Exercise.newConnection]
  | @snoc ts p a t _ ht ih =>
    obtain ⟨ds, htaken, hwrote, hreads, hkills, hst⟩ := ih
    have hp := hst p rfl
    obtain ⟨hending, -⟩ := newConnection_running hp
    have hnone : ¬ ∃ t ∈ ts, t.kills := by
      rw [hkills, Kills, hending]
      simp
    cases a with
    | none =>
      obtain rfl := Option.some.inj ht
      refine ⟨ds, ?_, ?_, hreads, ?_, fun _ h => by cases h⟩
      · rw [taken_append, htaken]
        exact List.append_nil _
      · rw [wrote_append, hwrote]
        exact List.append_nil _
      · rw [← hkills]
        simp
    | some d =>
      obtain rfl := Option.some.inj ht
      have happend := newConnection_append hp [d]
      have hd : taken (ts ++ [exerciseTurn d (handle SRCPATH p d)]) =
          (ds ++ [d]).flatMap Delivery.bytes := by
        rw [taken_append, htaken, List.flatMap_append]
        rcases handle SRCPATH p d with ⟨ws, ending | c'⟩ <;> simp [taken, exerciseTurn, Turn.bytes]
      refine ⟨ds ++ [d], hd, ?_⟩
      rw [happend, wrote_append, hwrote, List.length_append]
      rcases hhandle : handle SRCPATH p d with ⟨ws, ending | c'⟩
      · rw [newConnection_error hhandle]
        refine ⟨?_, rfl, ?_, fun _ h => by cases h⟩
        · simp [wrote, exerciseTurn]
        · simp only [List.mem_append, List.mem_singleton, or_and_right, exists_or, exists_eq_left,
            hnone, false_or]
          exact decide_eq_true_iff
      · rw [newConnection_ok hhandle]
        refine ⟨?_, rfl, ?_, fun c'' hc'' => ?_⟩
        · simp [wrote, exerciseTurn, Exercise.newConnection]
        · simp only [List.mem_append, List.mem_singleton, or_and_right, exists_or, exists_eq_left,
            hnone, false_or]
          simp [exerciseTurn, Kills, Exercise.newConnection]
        · obtain rfl : c' = c'' := Option.some.inj hc''
          exact connAfter_snoc hp hhandle

variable {init : ℕ → Conn} {listenfd logfd respfd : ℕ} {tr : Trace Conn} {s : State Conn}

/-- One client sends an E command in two halves; between them another sends an A command, which
ends the server, but not the child of the first. -/
def twoCommands : List (Act (Option Delivery)) :=
  [.loop (.accept 6), .loop .fork, .loop .close, .loop (.accept 6), .loop .fork, .loop .close,
    .loop (.childClose 0), .loop (.childClose 1), .send 0 (ascii "E two"), .send 1 (ascii "A"),
    .serve 0 (some (.said "E two")), .send 0 (ascii " halves\n"), .serve 1 (some (.said "A")),
    .serve 0 (some (.said " halves\n"))]

end Exercise

end PosixNet.ForkingServer
