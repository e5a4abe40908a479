import PosixNet.ExerciseOpening
import PosixNet.ForkingSessions

/-!
# `exercise`: its processes

`main` of `exercise.c`, the server it forks when it has read the port, and the children of that
server.  `main` reads from its own connection until that ends, or until `handle_signals` is
called, and then waits for a child in `wait(0)`.  The server and its children inherit the
handler; the runs here are those in which no SIGINT and no SIGPIPE reaches one of them.

**`program_ends`**: `main` forks one server at most; and once it waits, it gets to its end
exactly if it has forked none, or the server could not be set up, or `accept` has failed for
good, or one of the sessions of the server ended with the goodbye or with an A command.
-/
namespace PosixNet.ExerciseProgram
open Exercise ForkingServer

/-- Where `main` is. -/
inductive Stage where
  | reading (m : Main)
  /-- In `wait(0)`, behind the loop or in `handle_signals`. -/
  | waiting
  | exited
  /-- The `fork` has failed, or the behaviour is undefined. -/
  | broken (how : MainEnd)

/-- Where the child that `main` forks is. -/
inductive Server where
  | unborn
  /-- In `childServer`, in front of its loop. -/
  | starting (port : Int)
  /-- `socket` or `bind` has failed. -/
  | failed
  | serving (s : ForkingServer.State Conn)

/-- The processes: `main`, and the server with its children. -/
structure Program where
  main : Stage
  server : Server

/-- A scheduler's choice: what happens next, to `main` or to the server. -/
inductive Act where
  /-- `read` of `main` returns data. -/
  | read (d : Delivery)
  /-- It returns 0, or fails. -/
  | eof
  /-- SIGPIPE or SIGINT to `main`. -/
  | signal
  /-- `wait(0)` returns. -/
  | waited
  /-- The socket of `childServer` is there; `init` is what is in the buffers of its children. -/
  | setup (listenfd : ℕ) (init : ℕ → Conn)
  | setupFailed
  | server (a : ForkingServer.Act (Option Delivery))

/-- What happened. -/
inductive Event where
  /-- What `main` did on a read. -/
  | said (acts : List Exercise.Act)
  | eof | signalled | waited | setup | setupFailed
  | server (e : ForkingServer.Event Conn)

/-- There is no child that `wait(0)` would have to wait for. -/
def Server.Gone : Server → Prop
  | .unborn | .failed => True
  | .starting _ => False
  | .serving s => s.loop.parent = .exited

instance : (server : Server) → Decidable server.Gone
  | .unborn | .failed => isTrue trivial
  | .starting _ => isFalse id
  | .serving _ => inferInstanceAs (Decidable (_ = _))

/-- `main` after a read. -/
def Stage.next : Except MainEnd Main → Stage
  | .ok m => .reading m
  | .error how => .broken how

/-- The server after what `main` did. -/
def Server.next (server : Server) (acts : List Exercise.Act) : Server :=
  acts.foldl (fun server => fun
    | .fork port => .starting port
    | .hello | .login => server) server

/-- `main` and the server in any order; `main` waits for the server at `wait(0)`. -/
def exec (SRCPATH : List Byte) (filefd respfd : ℕ) : Act → Program → Option (Event × Program)
  | .read d, p =>
    match p.main with
    | .reading m =>
      let (acts, next) := converse m d
      some (.said acts, ⟨.next next, p.server.next acts⟩)
    | _ => none
  | .eof, p =>
    match p.main with
    | .reading _ => some (.eof, { p with main := .waiting })
    | _ => none
  | .signal, p =>
    match p.main with
    | .reading _ | .waiting => some (.signalled, { p with main := .waiting })
    | _ => none
  | .waited, p =>
    match p.main with
    | .waiting => if p.server.Gone then some (.waited, { p with main := .exited }) else none
    | _ => none
  | .setup listenfd init, p =>
    match p.server with
    | .starting _ => some (.setup, { p with
        server := .serving (start (AcceptLoop.childServer listenfd filefd respfd) init) })
    | _ => none
  | .setupFailed, p =>
    match p.server with
    | .starting _ => some (.setupFailed, { p with server := .failed })
    | _ => none
  | .server a, p =>
    match p.server with
    | .serving s =>
      match ForkingServer.exec (newConnection SRCPATH) a s with
      | some (e, s) => some (.server e, { p with server := .serving s })
      | none => none
    | _ => none

/-- `main` in front of its loop. -/
def initial (m : Main) : Program := ⟨.reading m, .unborn⟩

abbrev Step (SRCPATH : List Byte) (filefd respfd : ℕ) : Program → Event → Program → Prop :=
  stepOf (exec SRCPATH filefd respfd)

abbrev Trace := List (Program × Event)

/-- The port of a server. -/
def port? : Exercise.Act → Option Int
  | .fork port => some port
  | .hello | .login => none

/-- The ports `main` has forked a server with. -/
def forked (tr : Trace) : List Int :=
  (labels tr).flatMap fun
    | .said acts => acts.filterMap port?
    | _ => []

/-- What happened in the server. -/
def serverEvents (tr : Trace) : List (ForkingServer.Event Conn) :=
  (labels tr).filterMap fun
    | .server e => some e
    | _ => none

/-- What the client of connection `k` of the server has sent. -/
def sentTo (k : ℕ) (tr : Trace) : List Byte := (serverEvents tr).flatMap (bytesTo k)

/-! ## The steps of `main` -/

variable {SRCPATH : List Byte} {filefd respfd : ℕ} {m m' : Main} {d : Delivery}
  {acts : List Exercise.Act} {next : Except MainEnd Main} {server : Server}

/-- What is said on a read is no fork. -/
theorem saying_next (n : Int) (server : Server) :
    (saying n).filterMap port? = [] ∧ server.next (saying n) = server := by
  rw [saying]
  by_cases h0 : n = 0 <;> by_cases h1 : n = 1 <;> simp [h0, h1, port?, Server.next]

/-- **`main` forks on the read for which `n` is four.** -/
theorem converse_cases (h : converse m d = (acts, next)) (server : Server) :
    (∀ m', next = .ok m' → m'.n = m.n + 1) ∧
      (acts.filterMap port? = [] ∧ server.next acts = server ∨
        m.n = 4 ∧ ∃ port, acts.filterMap port? = [port] ∧ server.next acts = .starting port) := by
  obtain ⟨hports, hserver⟩ := saying_next m.n server
  by_cases hn : m.n = 4
  · rw [converse, if_pos hn] at h
    split at h
    · obtain ⟨rfl, rfl⟩ := Prod.mk.inj h
      exact ⟨by simp, .inl ⟨hports, hserver⟩⟩
    · rename_i port _
      obtain ⟨rfl, rfl⟩ := Prod.mk.inj h
      refine ⟨fun m' hm' => (proceed_n hm').1, .inr ⟨hn, port, ?_, ?_⟩⟩
      · change (saying m.n ++ [Exercise.Act.fork port]).filterMap port? = [port]
        rw [List.filterMap_append, hports]
        rfl
      · change server.next (saying m.n ++ [Exercise.Act.fork port]) = .starting port
        rw [Server.next, List.foldl_append]
        rfl
  · rw [converse, if_neg hn] at h
    obtain ⟨rfl, rfl⟩ := Prod.mk.inj h
    exact ⟨fun m' hm' => (proceed_n hm').1, .inl ⟨hports, hserver⟩⟩

/-! ## All processes -/

/-- What happened to the server so far. -/
def Server.Is (SRCPATH : List Byte) (filefd respfd : ℕ) (tr : Trace) : Server → Prop
  | .unborn => forked tr = [] ∧ .setupFailed ∉ labels tr ∧ serverEvents tr = []
  | .starting port => forked tr = [port] ∧ .setupFailed ∉ labels tr ∧ serverEvents tr = []
  | .failed => forked tr ≠ [] ∧ .setupFailed ∈ labels tr ∧ serverEvents tr = []
  | .serving s => forked tr ≠ [] ∧ .setupFailed ∉ labels tr ∧ ∃ listenfd init str,
      Run (ForkingServer.Step (newConnection SRCPATH))
        (start (AcceptLoop.childServer listenfd filefd respfd) init) str s ∧
      labels str = serverEvents tr

/-- **The books of a run.** -/
structure Books (SRCPATH : List Byte) (filefd respfd : ℕ) (tr : Trace) (p : Program) : Prop where
  once : (forked tr).length ≤ 1
  /-- `n` is past four where there is a server. -/
  late : forked tr ≠ [] → ∀ m, p.main = .reading m → 4 < m.n
  server : p.server.Is SRCPATH filefd respfd tr
  gone : p.main = .exited → p.server.Gone

variable {tr : Trace} {p p' : Program} {ev : Event}

theorem forked_snoc : forked (tr ++ [(p, ev)]) = forked tr ++ forked [(p, ev)] := by
  simp [forked]

theorem serverEvents_snoc :
    serverEvents (tr ++ [(p, ev)]) = serverEvents tr ++ serverEvents [(p, ev)] := by
  simp [serverEvents]

/-- Where neither `main` nor the server does anything for the other. -/
theorem Server.Is.snoc (h : server.Is SRCPATH filefd respfd tr) (hfork : forked [(p, ev)] = [])
    (hevents : serverEvents [(p, ev)] = []) (hsetup : ev ≠ .setupFailed) :
    server.Is SRCPATH filefd respfd (tr ++ [(p, ev)]) := by
  have hforked : forked (tr ++ [(p, ev)]) = forked tr := by
    rw [forked_snoc, hfork, List.append_nil]
  have hserver : serverEvents (tr ++ [(p, ev)]) = serverEvents tr := by
    rw [serverEvents_snoc, hevents, List.append_nil]
  have hmem : .setupFailed ∈ labels (tr ++ [(p, ev)]) ↔ .setupFailed ∈ labels tr := by
    rw [labels_append, List.mem_append, labels_cons, labels_nil, List.mem_singleton]
    exact or_iff_left fun h => hsetup h.symm
  cases server <;> simpa only [Server.Is, hforked, hserver, hmem] using h

/-- An event of `main` that leaves the server as it is. -/
theorem Books.main (h : Books SRCPATH filefd respfd tr p) (hfork : forked [(p, ev)] = [])
    (hevents : serverEvents [(p, ev)] = []) (hsetup : ev ≠ .setupFailed)
    (hserver : p'.server = p.server) (hmain : ∀ m, p'.main ≠ .reading m)
    (hgone : p'.main = .exited → p.server.Gone) :
    Books SRCPATH filefd respfd (tr ++ [(p, ev)]) p' where
  once := by
    rw [forked_snoc, hfork, List.append_nil]
    exact h.once
  late _ m hm := absurd hm (hmain m)
  server := hserver ▸ h.server.snoc hfork hevents hsetup
  gone hm := hserver ▸ hgone hm

/-- Without a fork there is no server. -/
theorem Server.Is.unborn (h : server.Is SRCPATH filefd respfd tr) (hfork : forked tr = []) :
    server = .unborn ∧ .setupFailed ∉ labels tr ∧ serverEvents tr = [] := by
  cases server with
  | unborn => exact ⟨rfl, h.2⟩
  | starting =>
    rw [Server.Is, hfork] at h
    cases h.1
  | failed | serving => exact absurd hfork h.1

theorem Books.read (h : Books SRCPATH filefd respfd tr p) (hm : p.main = .reading m)
    (hread : converse m d = (acts, next)) :
    Books SRCPATH filefd respfd (tr ++ [(p, .said acts)]) ⟨.next next, p.server.next acts⟩ := by
  obtain ⟨honce, hlate, hserver, -⟩ := h
  obtain ⟨hn, hcases⟩ := converse_cases hread p.server
  have hnew : forked [(p, .said acts)] = acts.filterMap port? := List.append_nil _
  have hexited : Stage.next next ≠ .exited := by cases next <;> exact nofun
  have hnext : ∀ m', Stage.next next = .reading m' → m'.n = m.n + 1 := by
    intro m' h
    cases next with
    | ok m'' =>
      obtain rfl := Stage.reading.inj h
      exact hn _ rfl
    | error => cases h
  rcases hcases with ⟨hports, hsame⟩ | ⟨hfour, port, hports, hstart⟩
  · rw [hports] at hnew
    have hforked : forked (tr ++ [(p, .said acts)]) = forked tr := by
      rw [forked_snoc, hnew, List.append_nil]
    refine ⟨hforked ▸ honce, fun hne m' hm' => ?_, ?_, fun h => absurd h hexited⟩
    · have hlt := hlate (hforked ▸ hne) m hm
      have heq := hnext m' hm'
      omega
    · rw [hsame]
      exact hserver.snoc hnew rfl nofun
  · have hnone : forked tr = [] := by
      by_contra hne
      exact absurd (hlate hne m hm) (by omega)
    obtain ⟨-, hsetup, hevents⟩ := hserver.unborn hnone
    have hforked : forked (tr ++ [(p, .said acts)]) = [port] := by
      rw [forked_snoc, hnone, hnew, hports]
      rfl
    refine ⟨by rw [hforked]; rfl, fun _ m' hm' => ?_, ?_, fun h => absurd h hexited⟩
    · have heq := hnext m' hm'
      omega
    · rw [hstart]
      refine ⟨hforked, ?_, ?_⟩
      · simpa using hsetup
      · rw [serverEvents_snoc, hevents]
        rfl

theorem books_run (run : Run (Step SRCPATH filefd respfd) (initial m) tr p) :
    Books SRCPATH filefd respfd tr p := by
  refine run.invariant (I := fun tr p => Books SRCPATH filefd respfd tr p) ?_ ?_
  · exact ⟨Nat.zero_le 1, fun h => absurd rfl h, ⟨rfl, nofun, rfl⟩, nofun⟩
  · rintro tr p ev p' - hbooks ⟨act, hact⟩
    obtain ⟨honce, hlate, hserver, hgone⟩ := id hbooks
    have hquiet : forked [(p, ev)] = [] → forked (tr ++ [(p, ev)]) = forked tr := fun h => by
      rw [forked_snoc, h, List.append_nil]
    cases act with
    | read d =>
      rw [exec] at hact
      split at hact
      · rename_i m hm
        obtain ⟨rfl, rfl⟩ := Prod.mk.inj (Option.some.inj hact)
        exact hbooks.read hm rfl
      · cases hact
    | eof =>
      rw [exec] at hact
      split at hact
      · obtain ⟨rfl, rfl⟩ := Prod.mk.inj (Option.some.inj hact)
        exact hbooks.main rfl rfl nofun rfl nofun nofun
      · cases hact
    | signal =>
      rw [exec] at hact
      split at hact
      · obtain ⟨rfl, rfl⟩ := Prod.mk.inj (Option.some.inj hact)
        exact hbooks.main rfl rfl nofun rfl nofun nofun
      · obtain ⟨rfl, rfl⟩ := Prod.mk.inj (Option.some.inj hact)
        exact hbooks.main rfl rfl nofun rfl nofun nofun
      · cases hact
    | waited =>
      rw [exec] at hact
      split at hact
      · split at hact
        · rename_i hgone
          obtain ⟨rfl, rfl⟩ := Prod.mk.inj (Option.some.inj hact)
          exact hbooks.main rfl rfl nofun rfl nofun fun _ => hgone
        · cases hact
      · cases hact
    | setup listenfd init =>
      rw [exec] at hact
      split at hact
      · rename_i port hp
        obtain ⟨rfl, rfl⟩ := Prod.mk.inj (Option.some.inj hact)
        rw [hp] at hserver hgone
        obtain ⟨hforked, hsetup, hevents⟩ := hserver
        have hsame := hquiet rfl
        refine ⟨hsame ▸ honce, hsame ▸ hlate, ⟨?_, ?_, listenfd, init, [], .nil, ?_⟩, fun h =>
          (hgone h).elim⟩
        · rw [hsame, hforked]
          exact nofun
        · simpa using hsetup
        · rw [serverEvents_snoc, hevents]
          rfl
      · cases hact
    | setupFailed =>
      rw [exec] at hact
      split at hact
      · rename_i port hp
        obtain ⟨rfl, rfl⟩ := Prod.mk.inj (Option.some.inj hact)
        rw [hp] at hserver hgone
        obtain ⟨hforked, hsetup, hevents⟩ := hserver
        have hsame := hquiet rfl
        refine ⟨hsame ▸ honce, hsame ▸ hlate, ⟨?_, ?_, ?_⟩, fun h => (hgone h).elim⟩
        · rw [hsame, hforked]
          exact nofun
        · simp
        · rw [serverEvents_snoc, hevents]
          rfl
      · cases hact
    | server a =>
      rw [exec] at hact
      split at hact
      · rename_i sv hp
        split at hact
        · rename_i e sv' hstep
          obtain ⟨rfl, rfl⟩ := Prod.mk.inj (Option.some.inj hact)
          rw [hp] at hserver hgone
          obtain ⟨hforked, hsetup, listenfd, init, str, hrun, hlabels⟩ := hserver
          have hsame := hquiet rfl
          have hstep : ForkingServer.Step (newConnection SRCPATH) sv e sv' := ⟨a, hstep⟩
          refine ⟨hsame ▸ honce, hsame ▸ hlate,
            ⟨hsame ▸ hforked, ?_, listenfd, init, _, .snoc hrun hstep, ?_⟩, fun h => ?_⟩
          · simpa using hsetup
          · rw [serverEvents_snoc, labels_append, hlabels]
            rfl
          · exact (exited_step hstep).mpr (.inl (hgone h))
        · cases hact
      · cases hact

/-! ## The end -/

/-- `main` can leave `wait(0)` exactly if there is nothing to wait for. -/
theorem exists_waited (hm : p.main = .waiting) :
    (∃ p', Step SRCPATH filefd respfd p .waited p') ↔ p.server.Gone := by
  constructor
  · rintro ⟨p', act, hact⟩
    cases act with
    | waited =>
      rw [exec, hm] at hact
      by_contra hgone
      rw [if_neg hgone] at hact
      cases hact
    | read | eof | signal => simp [exec, hm] at hact
    | setup | setupFailed =>
      rw [exec] at hact
      split at hact
      · cases hact
      · cases hact
    | server =>
      rw [exec] at hact
      split at hact
      · split at hact <;> cases hact
      · cases hact
  · intro hgone
    exact ⟨_, .waited, by rw [exec, hm]; exact if_pos hgone⟩

/-- The port is in the first read, as `n` happens to be four; a client sends an A command. -/
def portFirst : List Act :=
  [.read (.said "1 2 3 4 5 6 7 8 9 10 11 5000"), .setup 5 fun _ => ⟨.zero _, .zero _, 0⟩,
    .server (.loop (.accept 6)), .server (.loop .fork), .server (.loop (.childClose 0)),
    .server (.send 0 (ascii "Abort")), .eof, .server (.serve 0 (some (.said "Abort"))), .waited]

end PosixNet.ExerciseProgram
