import PosixNet.ExerciseConnection

/-!
# `exercise`: the opening dialogue

The loop of `main` (lines 113–159) answers by the number of reads: with `n` zero it
says `HELLO`, with `n` one the login name, and with `n` four it takes the twelfth
word of the read for the port of the server it forks.  `n` is not initialised.

What the loop does is decided by the value `n` has at its first read
(`forks_mainLoop`, `readsOf_mainLoop`), so the dialogue goes as it should for one
value of `n` at most, and only if the login prompt is complete one read after the
greeting and the third read after that carries the port in its twelfth word
(`opened_iff`).
-/
namespace PosixNet.Exercise

/-- What `main` does on a read. -/
inductive Act where
  /-- `HELLO` is written. -/
  | hello
  /-- The login name is written. -/
  | login
  /-- `childServer` is forked with this port. -/
  | fork (port : Int)
  deriving DecidableEq

/-- How `main` ends within its loop. -/
inductive MainEnd where
  /-- Line 140. -/
  | exited
  | fault (f : Fault)
  deriving DecidableEq

/-- The local variables of `main` at the head of the loop. -/
structure Main where
  n : Int
  buffer : CArray (MAXBUFFER + 1)

/-- Lines 132–153: the port `childServer` is forked with. -/
def forkPort (buffer : CArray (MAXBUFFER + 1)) (d : Delivery) : Except MainEnd Int :=
  match heard buffer d >>= fun text => split text space >>= fun result => deref result 11 with
  | .error f => .error (.fault f)
  | .ok token => if d.world.fork then .ok (toInt (atol token)) else .error .exited

/-- Lines 155–158. -/
def proceed (s : Main) (d : Delivery) : Except MainEnd Main :=
  match heard s.buffer d with
  | .error f => .error (.fault f)
  | .ok _ =>
    if s.n = INT_MAX then .error (.fault .overflow) else .ok ⟨s.n + 1, cleared s.buffer⟩

/-- One iteration of the loop of `main`. -/
def converse (s : Main) (d : Delivery) : List Act × Except MainEnd Main :=
  let greeting := if s.n = 0 then [Act.hello] else []
  let login := if s.n = 1 then [Act.login] else []
  if s.n = 4 then
    match forkPort s.buffer d with
    | .error ending => (greeting ++ login, .error ending)
    | .ok port => (greeting ++ login ++ [.fork port], proceed s d)
  else (greeting ++ login, proceed s d)

/-- The loop of `main`, from its `k`-th read on: what is done, and on which read. -/
def mainLoop : (k : Nat) → Main → List Delivery → List (Nat × Act)
  | _, _, [] => []
  | k, s, d :: ds =>
    match converse s d with
    | (acts, .error _) => acts.map (k, ·)
    | (acts, .ok s) => acts.map (k, ·) ++ mainLoop (k + 1) s ds

/-- The reads on which `a` was done. -/
def readsOf (a : Act) (acts : List (Nat × Act)) : List Nat :=
  (acts.filter fun x => x.2 = a).map Prod.fst

/-- The ports `childServer` was forked with. -/
def forks (acts : List (Nat × Act)) : List Int :=
  acts.filterMap fun
    | (_, .fork port) => some port
    | _ => none

/-! ## What the server says -/

/-- The opening messages of the server: the greeting, the login prompt, some
comments, the message that ends in `port <p>`, and more comments. -/
structure OpeningMessages where
  greeting : List Byte
  prompt : List Byte
  comments : List (List Byte)
  lead : List Byte
  port : Nat
  later : List (List Byte)
  lines : ∀ l ∈ greeting :: prompt :: (lead ++ ascii "port " ++ decimal port ++ [newline]) ::
    (comments ++ later), IsLine l ∧ NulFree l
  port_pos : 1 ≤ port
  port_le : port ≤ 65535

/-- The bytes of the opening messages. -/
def OpeningMessages.stream (m : OpeningMessages) : List Byte :=
  m.greeting ++ m.prompt ++ m.comments.flatten ++
    (m.lead ++ ascii "port " ++ decimal m.port ++ [newline]) ++ m.later.flatten

/-- A segmentation of the opening messages into reads. -/
structure OpeningReads (m : OpeningMessages) where
  reads : List Delivery
  cut : (reads.map Delivery.bytes).flatten = m.stream

/-- The read that completes the first `len` bytes. -/
def arrival : (len : Nat) → List Delivery → Option Nat
  | _, [] => none
  | len, d :: ds =>
    if len ≤ d.bytes.length then some 0
    else (arrival (len - d.bytes.length) ds).map (· + 1)

/-- `HELLO` is written once, on the read that completes the greeting, the login name
once, on the read that completes the prompt, and one server is forked, with the port
of the message. -/
structure Opened (m : OpeningMessages) (reads : List Delivery) (acts : List (Nat × Act)) :
    Prop where
  hello : ∃ k, readsOf .hello acts = [k] ∧ arrival m.greeting.length reads = some k
  login : ∃ k, readsOf .login acts = [k] ∧ arrival (m.greeting ++ m.prompt).length reads = some k
  fork : forks acts = [(m.port : Int)]

/-- After `j` reads that hold a string each, a read with the port in its twelfth word
arrives, and the fork succeeds. -/
def PortAfter (port : Int) :
    (j : Nat) → (buffer : CArray (MAXBUFFER + 1)) → List Delivery → Prop
  | _, _, [] => False
  | 0, buffer, d :: _ => forkPort buffer d = .ok port
  | j + 1, buffer, d :: ds =>
    (∃ text, heard buffer d = .ok text) ∧ PortAfter port j (cleared buffer) ds

/-! ## The loop -/

variable {k : Nat} {s : Main} {d : Delivery} {ds : List Delivery}

theorem proceed_n {s' : Main} (h : proceed s d = .ok s') :
    s'.n = s.n + 1 ∧ s'.buffer = cleared s.buffer := by
  rw [proceed] at h
  split at h
  · cases h
  · split at h <;> cases h
    exact ⟨rfl, rfl⟩

/-- Once `n` is past four the loop only reads. -/
theorem mainLoop_done (ds : List Delivery) : ∀ (k : Nat) (s : Main), 4 < s.n →
    mainLoop k s ds = [] := by
  induction ds with
  | nil => exact fun _ _ _ => rfl
  | cons d ds ih =>
    intro k s hn
    have hacts : converse s d = ([], proceed s d) := by
      simp [converse, show s.n ≠ 0 by omega, show s.n ≠ 1 by omega, show s.n ≠ 4 by omega]
    rw [mainLoop, hacts]
    cases hnext : proceed s d with
    | error ending => rfl
    | ok s' =>
      have := (proceed_n hnext).1
      exact ih (k + 1) s' (by omega)

/-- What is said on a read. -/
def saying (n : Int) : List Act :=
  (if n = 0 then [.hello] else []) ++ if n = 1 then [.login] else []

/-- A read before the one with the port. -/
theorem mainLoop_early (hn : s.n < 4) (k : Nat) (ds : List Delivery) :
    ((∃ text, heard s.buffer d = .ok text) ∧ mainLoop k s (d :: ds) =
      (saying s.n).map (k, ·) ++ mainLoop (k + 1) ⟨s.n + 1, cleared s.buffer⟩ ds) ∨
    ((∃ f, heard s.buffer d = .error f) ∧ mainLoop k s (d :: ds) = (saying s.n).map (k, ·)) := by
  have hacts : converse s d = (saying s.n, proceed s d) := if_neg (by omega)
  rw [mainLoop, hacts]
  cases ht : heard s.buffer d with
  | error f =>
    have hnext : proceed s d = .error (.fault f) := by rw [proceed, ht]
    rw [hnext]
    exact Or.inr ⟨⟨f, rfl⟩, rfl⟩
  | ok text =>
    have hmax : s.n ≠ INT_MAX := by simp only [INT_MAX]; omega
    have hnext : proceed s d = .ok ⟨s.n + 1, cleared s.buffer⟩ := by
      rw [proceed, ht]
      exact if_neg hmax
    rw [hnext]
    exact Or.inl ⟨⟨text, rfl⟩, rfl⟩

/-- The read with the port. -/
theorem mainLoop_port (hn : s.n = 4) (k : Nat) (ds : List Delivery) :
    (∃ port, forkPort s.buffer d = .ok port ∧ mainLoop k s (d :: ds) = [(k, .fork port)]) ∨
    ((∃ ending, forkPort s.buffer d = .error ending) ∧ mainLoop k s (d :: ds) = []) := by
  cases hport : forkPort s.buffer d with
  | error ending =>
    refine Or.inr ⟨⟨ending, rfl⟩, ?_⟩
    simp [mainLoop, converse, hn, hport]
  | ok port =>
    refine Or.inl ⟨port, rfl, ?_⟩
    have hacts : converse s d = ([.fork port], proceed s d) := by simp [converse, hn, hport]
    rw [mainLoop, hacts]
    cases hnext : proceed s d with
    | error ending => rfl
    | ok s' =>
      have := (proceed_n hnext).1
      show [(k, Act.fork port)] ++ mainLoop (k + 1) s' ds = _
      rw [mainLoop_done ds (k + 1) s' (by omega), List.append_nil]

theorem forks_append (acts acts' : List (Nat × Act)) :
    forks (acts ++ acts') = forks acts ++ forks acts' := List.filterMap_append

theorem readsOf_append (a : Act) (acts acts' : List (Nat × Act)) :
    readsOf a (acts ++ acts') = readsOf a acts ++ readsOf a acts' := by
  simp [readsOf]

theorem forks_saying (n : Int) (k : Nat) : forks ((saying n).map (k, ·)) = [] := by
  simp only [saying]
  split <;> split <;> rfl

theorem timeLeft {n : Int} (hn : n < 4) : (4 - n).toNat = (4 - (n + 1)).toNat + 1 := by omega

/-- **The port.**  A server is forked once, with this port, exactly if the read that
`n` singles out carries it. -/
theorem forks_mainLoop (port : Int) (ds : List Delivery) : ∀ (k : Nat) (s : Main),
    forks (mainLoop k s ds) = [port] ↔ s.n ≤ 4 ∧ PortAfter port (4 - s.n).toNat s.buffer ds := by
  induction ds with
  | nil =>
    intro k s
    refine ⟨fun h => (nomatch h), fun h => absurd h.2 ?_⟩
    cases (4 - s.n).toNat <;> exact id
  | cons d ds ih =>
    intro k s
    rcases lt_trichotomy s.n 4 with hn | hn | hn
    · rw [timeLeft hn]
      rcases mainLoop_early (d := d) hn k ds with ⟨ht, h⟩ | ⟨⟨f, ht⟩, h⟩
      · rw [h, forks_append, forks_saying, List.nil_append, ih]
        constructor
        · exact fun ⟨_, hport⟩ => ⟨by omega, ht, hport⟩
        · exact fun ⟨_, _, hport⟩ => ⟨by show s.n + 1 ≤ 4; omega, hport⟩
      · rw [h, forks_saying]
        refine ⟨fun h => (nomatch h), fun ⟨_, ⟨text, htext⟩, _⟩ => ?_⟩
        rw [ht] at htext
        cases htext
    · rw [hn]
      have hzero : PortAfter port (4 - 4 : Int).toNat s.buffer (d :: ds) ↔
          forkPort s.buffer d = .ok port := Iff.rfl
      rw [hzero]
      rcases mainLoop_port (d := d) hn k ds with ⟨port', hport, h⟩ | ⟨⟨ending, hport⟩, h⟩
      · rw [h, hport]
        simp [forks]
      · rw [h, hport]
        simp [forks]
    · rw [mainLoop_done _ k s hn]
      exact ⟨fun h => (nomatch h), fun h => absurd h.1 (by omega)⟩

/-- **The replies.**  If the port is reached, what is said when `n` is `m` is said
once, and on the read `n` singles out, if that is still to come. -/
theorem readsOf_mainLoop {a : Act} {m : Int} (hm : m < 4) (hfork : ∀ port, a ≠ .fork port)
    (hsaying : ∀ (n : Int) (k : Nat),
      readsOf a ((saying n).map (k, ·)) = if n = m then [k] else [])
    {port : Int} (ds : List Delivery) : ∀ (k : Nat) (s : Main), s.n ≤ 4 →
      PortAfter port (4 - s.n).toNat s.buffer ds →
      readsOf a (mainLoop k s ds) = if s.n ≤ m then [k + (m - s.n).toNat] else [] := by
  induction ds with
  | nil =>
    intro k s _ hport
    cases hleft : (4 - s.n).toNat <;> rw [hleft] at hport <;> exact absurd hport id
  | cons d ds ih =>
    intro k s hn hport
    rcases Int.lt_or_eq_of_le hn with hn | hn
    · rw [timeLeft hn] at hport
      obtain ⟨⟨text, ht⟩, hport⟩ := hport
      rcases mainLoop_early (d := d) hn k ds with ⟨-, h⟩ | ⟨⟨f, hf⟩, -⟩
      · have hrest := ih (k + 1) ⟨s.n + 1, cleared s.buffer⟩ (by show s.n + 1 ≤ 4; omega) hport
        rw [h, readsOf_append, hsaying, hrest]
        show _ ++ (if s.n + 1 ≤ m then [k + 1 + (m - (s.n + 1)).toNat] else []) = _
        rcases lt_trichotomy s.n m with hlt | heq | hgt
        · rw [if_neg (by omega), if_pos (by omega), if_pos (by omega), List.nil_append]
          congr 1
          omega
        · rw [if_pos heq, if_neg (by omega), if_pos (by omega), heq]
          simp
        · rw [if_neg (by omega), if_neg (by omega), if_neg (by omega), List.nil_append]
      · rw [hf] at ht
        cases ht
    · rw [if_neg (by omega)]
      rcases mainLoop_port (d := d) hn k ds with ⟨port', -, h⟩ | ⟨-, h⟩
      · rw [h]
        simp [readsOf, (hfork port').symm]
      · rw [h]
        rfl

/-- **When the opening dialogue goes as it should.** -/
theorem opened_iff {m : OpeningMessages} (run : OpeningReads m) (n : Int)
    (buffer : CArray (MAXBUFFER + 1)) :
    Opened m run.reads (mainLoop 0 ⟨n, buffer⟩ run.reads) ↔
      ∃ k : Nat, n = -k ∧ arrival m.greeting.length run.reads = some k ∧
        arrival (m.greeting ++ m.prompt).length run.reads = some (k + 1) ∧
        PortAfter m.port (k + 4) buffer run.reads := by
  have hforks := forks_mainLoop m.port run.reads 0 ⟨n, buffer⟩
  have hhello : ∀ (n : Int) (k : Nat), readsOf .hello ((saying n).map (k, ·)) =
      if n = 0 then [k] else [] := by
    intro n k
    by_cases h0 : n = 0 <;> by_cases h1 : n = 1 <;> simp [saying, readsOf, h0, h1]
  have hlogin : ∀ (n : Int) (k : Nat), readsOf .login ((saying n).map (k, ·)) =
      if n = 1 then [k] else [] := by
    intro n k
    by_cases h0 : n = 0 <;> by_cases h1 : n = 1 <;> simp [saying, readsOf, h0, h1]
  have hreads : n ≤ 4 → PortAfter m.port (4 - n).toNat buffer run.reads →
      readsOf .hello (mainLoop 0 ⟨n, buffer⟩ run.reads) =
        (if n ≤ 0 then [0 + (0 - n).toNat] else []) ∧
      readsOf .login (mainLoop 0 ⟨n, buffer⟩ run.reads) =
        (if n ≤ 1 then [0 + (1 - n).toNat] else []) :=
    fun hn hport =>
      ⟨readsOf_mainLoop (by decide) (by simp) hhello run.reads 0 ⟨n, buffer⟩ hn hport,
        readsOf_mainLoop (by decide) (by simp) hlogin run.reads 0 ⟨n, buffer⟩ hn hport⟩
  constructor
  · intro hopened
    obtain ⟨hn, hport⟩ := hforks.mp hopened.fork
    obtain ⟨k, hk, hgreeting⟩ := hopened.hello
    obtain ⟨k', hk', hprompt⟩ := hopened.login
    obtain ⟨hhello, hlogin⟩ := hreads hn hport
    -- `HELLO` was written, so `n` was not past zero at the first read
    have hn0 : n ≤ 0 := by
      by_contra hn0
      rw [hhello, if_neg hn0] at hk
      cases hk
    rw [hhello, if_pos hn0] at hk
    rw [hlogin, if_pos (by omega)] at hk'
    have hk := List.cons.inj hk
    have hk' := List.cons.inj hk'
    refine ⟨k, by omega, hgreeting, ?_, ?_⟩
    · rw [hprompt]
      congr 1
      omega
    · have hleft : (4 - n).toNat = k + 4 := by omega
      rw [← hleft]
      exact hport
  · rintro ⟨k, rfl, hgreeting, hprompt, hport⟩
    have hleft : (4 - (-k : Int)).toNat = k + 4 := by omega
    rw [← hleft] at hport
    obtain ⟨hhello, hlogin⟩ := hreads (by omega) hport
    have hfork := hforks.mpr ⟨by show (-k : Int) ≤ 4; omega, hport⟩
    refine ⟨⟨k, ?_, hgreeting⟩, ⟨k + 1, ?_, hprompt⟩, hfork⟩
    · rw [hhello, if_pos (by omega)]
      congr 1
      omega
    · rw [hlogin, if_pos (by omega)]
      congr 1
      omega

/-- The messages as they were recorded. -/
def recorded : OpeningMessages where
  greeting := ascii "HELLO this is UNIX_TL server\n"
  prompt := ascii "Please, send your exact login name\n"
  comments := [ascii "# 101 Hello. Wait a moment.\n"]
  lead := ascii "# 205 Make your own concurrent server (no hello greetings). " ++
    ascii "You have 5 seconds time to create your service at "
  port := 22074
  later := []
  lines := by decide +kernel
  port_pos := by decide
  port_le := by decide

/-- A segmentation with the port in the twelfth word of the fifth read. -/
def recordedReads : OpeningReads recorded where
  reads :=
    [.said "HELLO this is UNIX_TL server\n", .said "Please, send your exact login name\n",
      .said "# 101 Hello. Wait a moment.\n",
      .said "# 205 Make your own concurrent server (no hello greetings). ",
      .said "You have 5 seconds time to create your service at port 22074\n"]
  cut := by decide +kernel

theorem opened_recorded :
    Opened recorded recordedReads.reads (mainLoop 0 ⟨0, .zero _⟩ recordedReads.reads) := by
  refine (opened_iff recordedReads 0 (.zero _)).mpr ⟨0, rfl, by decide, by decide, ?_⟩
  have hport : forkPort (.zero _)
      (.said "You have 5 seconds time to create your service at port 22074\n") = .ok 22074 := by
    rw [forkPort, heard_zero (by decide)]
    decide
  simp only [recordedReads, PortAfter, cleared_zero]
  exact ⟨⟨_, heard_zero (by decide)⟩, ⟨_, heard_zero (by decide)⟩,
    ⟨_, heard_zero (by decide)⟩, ⟨_, heard_zero (by decide)⟩, hport⟩

/-- The same reads, with one in the uninitialised counter. -/
theorem not_opened_counter_one :
    ¬ ∀ (m : OpeningMessages) (run : OpeningReads m) (n : Int) (buffer : CArray (MAXBUFFER + 1)),
      (∀ d ∈ run.reads, d.world.fork = true) →
        Opened m run.reads (mainLoop 0 ⟨n, buffer⟩ run.reads) := by
  intro hall
  have hopened := hall recorded recordedReads 1 (.zero _) (by decide)
  obtain ⟨k, hk, -⟩ := hopened.hello
  have hnone : readsOf .hello (mainLoop 0 ⟨1, .zero _⟩ recordedReads.reads) = [] := by
    decide +kernel
  rw [hnone] at hk
  cases hk

end PosixNet.Exercise
