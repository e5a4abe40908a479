import PosixNet.LabelledRun

/-!
# The loop around `accept`

`childServer` of `exercise.c` (lines 420–459) and `main` of `teht6_server.c` (lines
66–102) serve every connection in a child of its own: the parent closes its copy of the
connected socket after a successful `fork` and goes back to `accept`.  When `fork` fails
it goes back as well, with the socket still open, and as `sockfd` is overwritten by the
next connection, nothing can close it any more.

A descriptor is a number in the table of a process; `fork` copies the table, and a
connection is closed when no table has it.  **`balanced_iff`** says that the books
balance exactly as long as no `fork` has failed.
-/
namespace PosixNet.AcceptLoop

/-- What a descriptor stands for. -/
inductive File where
  /-- The socket `accept` is called on. -/
  | listen
  /-- The connection that was accepted as number `k`. -/
  | conn (k : Nat)
  /-- A log file or a standard stream. -/
  | other
  deriving DecidableEq

/-- The open descriptors of a process. -/
abbrev Table := Nat → Option File

/-- The errors of `accept`. -/
inductive Errno where
  | ENETDOWN | EPROTO | ENOPROTOOPT | EHOSTDOWN | ENONET | EHOSTUNREACH | EOPNOTSUPP
  | ENETUNREACH
  | other (n : Nat)
  deriving DecidableEq

/-- The errors after which the loop goes on. -/
def Errno.recoverable : Errno → Bool
  | .other _ => false
  | _ => true

/-- Where the parent is. -/
inductive Parent where
  | accept
  | fork (sockfd : Nat)
  | close (sockfd : Nat)
  | exited
  deriving DecidableEq

/-- Where a child is. -/
inductive Stage where
  /-- It is about to close its copy of the listening socket. -/
  | close
  /-- In `newConnection` or `echoer`. -/
  | serving
  | exited
  deriving DecidableEq

/-- A child: the connection it was forked for, and its own table. -/
structure Child where
  stage : Stage
  sockfd : Nat
  fds : Table

/-- The parent, and all the children there ever were. -/
structure State where
  listenfd : Nat
  parent : Parent
  fds : Table
  children : List Child
  /-- The number of connections `accept` has returned. -/
  accepted : Nat

/-- A call that returns. -/
inductive Act where
  | accept (fd : Nat)
  | acceptFailed (errno : Errno)
  | fork
  | forkFailed
  /-- The parent's `close(sockfd)`. -/
  | close
  /-- The parent is terminated by a signal, as some commands of a client do. -/
  | killed
  /-- The `close(listenfd)` of a child. -/
  | childClose (i : Nat)
  /-- The child returns or is terminated. -/
  | childExit (i : Nat)
  deriving DecidableEq

/-- No descriptor is open. -/
def closed : Table := fun _ => none

/-- What a call or a signal does; a call that is not the next one is refused. -/
def exec : Act → State → Option (Act × State)
  | .accept fd, s =>
    if s.parent = .accept ∧ s.fds fd = none then
      some (.accept fd, { s with
        parent := .fork fd
        fds := Function.update s.fds fd (some (.conn s.accepted))
        accepted := s.accepted + 1 })
    else none
  | .acceptFailed errno, s =>
    if s.parent = .accept then
      some (.acceptFailed errno,
        if errno.recoverable then s else { s with parent := .exited, fds := closed })
    else none
  | .fork, s =>
    match s.parent with
    | .fork sockfd => some (.fork, { s with
        parent := .close sockfd
        children := s.children ++ [⟨.close, sockfd, s.fds⟩] })
    | _ => none
  | .forkFailed, s =>
    match s.parent with
    -- the message is printed, and that is all
    | .fork _ => some (.forkFailed, { s with parent := .accept })
    | _ => none
  | .close, s =>
    match s.parent with
    | .close sockfd => some (.close, { s with
        parent := .accept
        fds := Function.update s.fds sockfd none })
    | _ => none
  | .killed, s =>
    if s.parent = .exited then none
    else some (.killed, { s with parent := .exited, fds := closed })
  | .childClose i, s =>
    match s.children[i]? with
    | some ⟨.close, sockfd, fds⟩ => some (.childClose i, { s with
        children := s.children.set i ⟨.serving, sockfd, Function.update fds s.listenfd none⟩ })
    | _ => none
  | .childExit i, s =>
    match s.children[i]? with
    | some ⟨.exited, _, _⟩ | none => none
    | some ⟨_, sockfd, _⟩ => some (.childExit i, { s with
        children := s.children.set i ⟨.exited, sockfd, closed⟩ })

abbrev Trace := List (State × Act)

abbrev Step := stepOf exec

/-- A server in front of its loop; `others` are its descriptors besides `listenfd`, none of
which is a connection. -/
def start (listenfd : Nat) (others : Nat → Bool) : State where
  listenfd := listenfd
  parent := .accept
  fds fd := if fd = listenfd then some .listen else if others fd then some .other else none
  children := []
  accepted := 0

/-- `childServer`, with the two log files and the standard streams; the connection to the
other side has been closed by `main`. -/
def childServer (listenfd logfd respfd : Nat) : State :=
  start listenfd fun fd => fd ≤ 2 ∨ fd = logfd ∨ fd = respfd

/-- `main` of `teht6_server.c`. -/
def teht6_server (listenfd : Nat) : State := start listenfd fun fd => fd ≤ 2

/-- **The books balance.** -/
structure Balanced (s : State) : Prop where
  /-- The parent has no connection open. -/
  parent : ∀ fd k, s.fds fd ≠ some (.conn k)
  /-- A connection is the one that a child serves, and no other child has it open; or
  nobody has it open. -/
  owned : ∀ k < s.accepted,
    (∃ (i : Nat) (c : Child), s.children[i]? = some c ∧ c.fds c.sockfd = some (.conn k) ∧
      ∀ (j : Nat) (c' : Child) (fd : Nat), s.children[j]? = some c' →
        c'.fds fd = some (.conn k) → j = i) ∨
    ∀ (i : Nat) (c : Child) (fd : Nat), s.children[i]? = some c → c.fds fd ≠ some (.conn k)

/-! ## Steps -/

/-- **All that a step can do.** -/
inductive Moved (s : State) : Act → State → Prop
  | accept (fd : Nat) (hp : s.parent = .accept) (hfd : s.fds fd = none) :
      Moved s (.accept fd) { s with
        parent := .fork fd
        fds := Function.update s.fds fd (some (.conn s.accepted))
        accepted := s.accepted + 1 }
  | again (errno : Errno) : Moved s (.acceptFailed errno) s
  | exit (e : Act) (he : e ≠ .forkFailed) : Moved s e { s with parent := .exited, fds := closed }
  | fork (sockfd : Nat) (hp : s.parent = .fork sockfd) :
      Moved s .fork { s with
        parent := .close sockfd
        children := s.children ++ [⟨.close, sockfd, s.fds⟩] }
  | forkFailed (sockfd : Nat) (hp : s.parent = .fork sockfd) :
      Moved s .forkFailed { s with parent := .accept }
  | close (sockfd : Nat) (hp : s.parent = .close sockfd) :
      Moved s .close { s with
        parent := .accept
        fds := Function.update s.fds sockfd none }
  /-- A child gives up descriptors. -/
  | child (e : Act) (he : e ≠ .forkFailed) (i : Nat) (c c' : Child)
      (hc : s.children[i]? = some c) (hsockfd : c'.sockfd = c.sockfd)
      (hfds : ∀ fd k, c'.fds fd = some (.conn k) → c.fds fd = some (.conn k)) :
      Moved s e { s with children := s.children.set i c' }

theorem moved {s s' : State} {e : Act} (h : Step s e s') : Moved s e s' := by
  obtain ⟨a, ha⟩ := h
  cases a with
  | accept fd =>
    rw [exec] at ha
    split at ha
    · rename_i hcond
      obtain ⟨rfl, rfl⟩ := Prod.mk.inj (Option.some.inj ha)
      exact .accept fd hcond.1 hcond.2
    · cases ha
  | acceptFailed errno =>
    rw [exec] at ha
    split at ha
    · obtain ⟨rfl, rfl⟩ := Prod.mk.inj (Option.some.inj ha)
      split
      · exact .again errno
      · exact .exit _ fun h => nomatch h
    · cases ha
  | fork =>
    rw [exec] at ha
    split at ha
    · rename_i sockfd hp
      obtain ⟨rfl, rfl⟩ := Prod.mk.inj (Option.some.inj ha)
      exact .fork sockfd hp
    · cases ha
  | forkFailed =>
    rw [exec] at ha
    split at ha
    · rename_i sockfd hp
      obtain ⟨rfl, rfl⟩ := Prod.mk.inj (Option.some.inj ha)
      exact .forkFailed sockfd hp
    · cases ha
  | close =>
    rw [exec] at ha
    split at ha
    · rename_i sockfd hp
      obtain ⟨rfl, rfl⟩ := Prod.mk.inj (Option.some.inj ha)
      exact .close sockfd hp
    · cases ha
  | killed =>
    rw [exec] at ha
    split at ha
    · cases ha
    · obtain ⟨rfl, rfl⟩ := Prod.mk.inj (Option.some.inj ha)
      exact .exit _ fun h => nomatch h
  | childClose i =>
    rw [exec] at ha
    split at ha
    · rename_i sockfd fds hc
      obtain ⟨rfl, rfl⟩ := Prod.mk.inj (Option.some.inj ha)
      refine .child (.childClose i) (fun h => nomatch h) i ⟨.close, sockfd, fds⟩
        ⟨.serving, sockfd, Function.update fds s.listenfd none⟩ hc rfl fun fd k hk => ?_
      by_cases hfd : fd = s.listenfd
      · simp [hfd] at hk
      · simpa [hfd] using hk
    · cases ha
  | childExit i =>
    rw [exec] at ha
    split at ha
    · cases ha
    · cases ha
    · rename_i stage sockfd fds _ hc
      obtain ⟨rfl, rfl⟩ := Prod.mk.inj (Option.some.inj ha)
      exact .child (.childExit i) (fun h => nomatch h) i ⟨stage, sockfd, fds⟩
        ⟨.exited, sockfd, closed⟩ hc rfl fun fd k hk => nomatch hk

/-! ## Without a failed `fork` -/

/-- The child with number `i` has the connection with number `i`, and the parent the one
that is on its way to a child. -/
structure Inv (s : State) : Prop where
  accepted : match s.parent with
    | .accept | .close _ => s.accepted = s.children.length
    | .fork _ => s.accepted = s.children.length + 1
    | .exited => True
  parent : ∀ fd k, s.fds fd = some (.conn k) →
    (s.parent = .fork fd ∧ k = s.children.length) ∨
      (s.parent = .close fd ∧ k + 1 = s.children.length)
  child : ∀ (i : Nat) (c : Child), s.children[i]? = some c →
    ∀ fd k, c.fds fd = some (.conn k) → fd = c.sockfd ∧ k = i

theorem inv_start (listenfd : Nat) (others : Nat → Bool) : Inv (start listenfd others) where
  accepted := rfl
  parent fd k h := by
    simp only [start] at h
    split at h
    · cases h
    · split at h <;> cases h
  child i c h := nomatch h

theorem inv_step {s s' : State} {e : Act} (hinv : Inv s) (h : Step s e s')
    (he : e ≠ .forkFailed) : Inv s' := by
  obtain ⟨haccepted, hparent, hchild⟩ := hinv
  cases moved h with
  | accept fd hp hfd =>
    rw [hp] at haccepted hparent
    have haccepted : s.accepted = s.children.length := haccepted
    refine ⟨congrArg (· + 1) haccepted, fun fd' k hk => ?_, hchild⟩
    by_cases hne : fd' = fd
    · subst hne
      simp only [Function.update_self, Option.some.injEq, File.conn.injEq] at hk
      exact .inl ⟨rfl, by rw [← hk, haccepted]⟩
    · simp only [Function.update_of_ne hne] at hk
      rcases hparent fd' k hk with ⟨h, -⟩ | ⟨h, -⟩ <;> cases h
  | again errno => exact ⟨haccepted, hparent, hchild⟩
  | exit e he => exact ⟨trivial, (fun fd k hk => nomatch hk), hchild⟩
  | fork sockfd hp =>
    rw [hp] at haccepted hparent
    have htable : ∀ fd k, s.fds fd = some (.conn k) → fd = sockfd ∧ k = s.children.length := by
      intro fd k hk
      rcases hparent fd k hk with ⟨h, hk⟩ | ⟨h, -⟩
      · exact ⟨(Parent.fork.inj h).symm, hk⟩
      · cases h
    refine ⟨by simpa using haccepted, fun fd k hk => ?_, fun i c hc => ?_⟩
    · obtain ⟨rfl, rfl⟩ := htable fd k hk
      exact .inr ⟨rfl, by simp⟩
    · rw [List.getElem?_append] at hc
      split at hc
      · exact hchild i c hc
      · rename_i hi
        rw [List.getElem?_singleton] at hc
        split at hc
        · obtain rfl := Option.some.inj hc
          intro fd k hk
          obtain ⟨rfl, rfl⟩ := htable fd k hk
          exact ⟨rfl, by omega⟩
        · cases hc
  | forkFailed => exact absurd rfl he
  | close sockfd hp =>
    rw [hp] at haccepted hparent
    refine ⟨haccepted, fun fd k hk => ?_, hchild⟩
    by_cases hne : fd = sockfd
    · simp [hne] at hk
    · simp only [Function.update_of_ne hne] at hk
      rcases hparent fd k hk with ⟨h, -⟩ | ⟨h, -⟩
      · cases h
      · exact absurd (Parent.close.inj h).symm hne
  | child e he i c c' hc hsockfd hfds =>
    refine ⟨by simpa using haccepted, by simpa using hparent, fun j c'' hc'' => ?_⟩
    by_cases hj : i = j
    · subst hj
      have hlen : i < s.children.length := (List.getElem?_eq_some_iff.mp hc).1
      rw [List.getElem?_set_self hlen] at hc''
      intro fd k hk
      rw [← Option.some.inj hc''] at hk ⊢
      rw [hsockfd]
      exact hchild i c hc fd k (hfds fd k hk)
    · rw [List.getElem?_set_ne hj] at hc''
      exact hchild j c'' hc''

theorem Inv.balanced {s : State} (h : Inv s) (hp : s.parent = .accept) : Balanced s := by
  obtain ⟨haccepted, hparent, hchild⟩ := h
  rw [hp] at haccepted hparent
  refine ⟨fun fd k hk => ?_, fun k hk => ?_⟩
  · rcases hparent fd k hk with ⟨h, -⟩ | ⟨h, -⟩ <;> cases h
  · obtain ⟨c, hc⟩ : ∃ c, s.children[k]? = some c :=
      ⟨_, List.getElem?_eq_getElem (haccepted ▸ hk)⟩
    by_cases hserved : c.fds c.sockfd = some (.conn k)
    · exact .inl ⟨k, c, hc, hserved, fun j c' fd hc' hfd => (hchild j c' hc' fd k hfd).2.symm⟩
    · refine .inr fun j c' fd hc' hfd => hserved ?_
      obtain ⟨rfl, rfl⟩ := hchild j c' hc' fd k hfd
      rw [hc] at hc'
      rwa [Option.some.inj hc']

/-! ## After a failed `fork` -/

/-- A connection is open in the parent that is not on its way to a child. -/
def Leaked (s : State) : Prop :=
  s.parent = .exited ∨
    ∃ fd k, s.fds fd = some (.conn k) ∧ s.parent ≠ .fork fd ∧ s.parent ≠ .close fd

/-- No later step gets rid of it. -/
theorem leaked_step {s s' : State} {e : Act} (hleak : Leaked s) (h : Step s e s') :
    Leaked s' := by
  rcases hleak with hexit | ⟨fd, k, hfd, hfork, hclose⟩
  · cases moved h with
    | accept _ hp => rw [hexit] at hp; cases hp
    | again => exact .inl hexit
    | exit => exact .inl rfl
    | fork _ hp => rw [hexit] at hp; cases hp
    | forkFailed _ hp => rw [hexit] at hp; cases hp
    | close _ hp => rw [hexit] at hp; cases hp
    | child => exact .inl hexit
  · cases moved h with
    | accept fd' hp hnone =>
      have hne : fd ≠ fd' := by
        rintro rfl
        rw [hnone] at hfd
        cases hfd
      refine .inr ⟨fd, k, (Function.update_of_ne hne _ _).trans hfd, ?_, fun h => nomatch h⟩
      exact fun h => hne (Parent.fork.inj h).symm
    | again => exact .inr ⟨fd, k, hfd, hfork, hclose⟩
    | exit => exact .inl rfl
    | fork sockfd hp =>
      refine .inr ⟨fd, k, hfd, (fun h => nomatch h), fun h => hfork ?_⟩
      rw [hp, Parent.close.inj h]
    | forkFailed => exact .inr ⟨fd, k, hfd, (fun h => nomatch h), fun h => nomatch h⟩
    | close sockfd hp =>
      have hne : fd ≠ sockfd := fun h => hclose (h ▸ hp)
      exact .inr ⟨fd, k, (Function.update_of_ne hne _ _).trans hfd, (fun h => nomatch h),
        fun h => nomatch h⟩
    | child => exact .inr ⟨fd, k, hfd, hfork, hclose⟩

section Run
variable {listenfd : Nat} {others : Nat → Bool} {tr : Trace} {s : State}

/-- In front of `fork` the parent has the connection it has just accepted. -/
theorem holding_run (run : Run Step (start listenfd others) tr s) {fd : Nat}
    (hp : s.parent = .fork fd) : ∃ k, s.fds fd = some (.conn k) := by
  revert hp
  refine run.preserves (I := fun s => s.parent = .fork fd → ∃ k, s.fds fd = some (.conn k))
    (fun h => nomatch h) ?_
  intro s e s' ih h hp
  cases moved h with
  | accept fd' _ _ =>
    obtain rfl := Parent.fork.inj hp
    exact ⟨s.accepted, Function.update_self ..⟩
  | again => exact ih hp
  | child => exact ih hp
  | _ => cases hp

theorem leaked_run (run : Run Step (start listenfd others) tr s)
    (hfail : .forkFailed ∈ labels tr) : Leaked s := by
  revert hfail
  refine run.invariant (I := fun tr s => .forkFailed ∈ labels tr → Leaked s)
    (fun h => nomatch h) ?_
  intro tr s e s' hrun ih h hfail
  rw [labels_append, List.mem_append] at hfail
  rcases hfail with hfail | hfail
  · exact leaked_step (ih hfail) h
  · have he : e = .forkFailed := (List.mem_singleton.mp hfail).symm
    subst he
    cases moved h with
    | exit _ he => exact absurd rfl he
    | forkFailed sockfd hp =>
      obtain ⟨k, hk⟩ := holding_run hrun hp
      exact .inr ⟨sockfd, k, hk, (fun h => nomatch h), fun h => nomatch h⟩
    | child _ he => exact absurd rfl he

/-- **The books of the loop**, whenever the parent is back at `accept`. -/
theorem balanced_iff (run : Run Step (start listenfd others) tr s) (hp : s.parent = .accept) :
    Balanced s ↔ .forkFailed ∉ labels tr := by
  constructor
  · intro h hfail
    rcases leaked_run run hfail with hexit | ⟨fd, k, hfd, -⟩
    · rw [hp] at hexit
      cases hexit
    · exact h.parent fd k hfd
  · intro hfail
    refine Inv.balanced ?_ hp
    revert hfail
    refine run.invariant (I := fun tr s => .forkFailed ∉ labels tr → Inv s)
      (fun _ => inv_start listenfd others) ?_
    intro tr s e s' _ ih h hfail
    rw [labels_append, List.mem_append, not_or] at hfail
    exact inv_step (ih hfail.1) h fun he => hfail.2 (by simp [he])

end Run

/-! ### One connection -/

theorem balanced_one_child : ∃ tr s, Run Step (childServer 5 3 4) tr s ∧ s.parent = .accept ∧
    s.accepted = 1 ∧ Balanced s := by
  obtain ⟨tr, s, hrun, hp, haccepted, hfail⟩ : ∃ tr s, Run Step (childServer 5 3 4) tr s ∧
      s.parent = .accept ∧ s.accepted = 1 ∧ .forkFailed ∉ labels tr :=
    ⟨_, _, run_get exec [.accept 6, .fork, .childClose 0, .close, .acceptFailed .ENETDOWN]
      (childServer 5 3 4) (by decide +kernel), by decide +kernel, by decide +kernel,
      by decide +kernel⟩
  exact ⟨tr, s, hrun, hp, haccepted, (balanced_iff hrun hp).mpr hfail⟩

/-- The first `fork` fails. -/
theorem not_balanced_fork_failed :
    ¬ ∀ (listenfd : Nat) (others : Nat → Bool) (tr : Trace) (s : State),
      Run Step (start listenfd others) tr s → s.parent = .accept → Balanced s := by
  intro hall
  have hrun := run_get exec [.accept 6, .forkFailed] (childServer 5 3 4) (by decide +kernel)
  exact (hall _ _ _ _ hrun (by decide +kernel)).parent 6 0 (by decide +kernel)

end PosixNet.AcceptLoop
