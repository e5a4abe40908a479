import PosixNet.ProcessNet

/-!
# Loops that read, work and write

Most of the processes here are one loop: read into a buffer, look at what is in it,
write something, start over.  A `ReadLoop` is given by its body, a function of the
buffer and of the bytes a `read` returned, with no bytes at end of file.

`rounds` is what such a loop writes for a list of reads, with no network around it, and
`ReadLoop.run` says that this is what the process does in every run it is part of.
-/
namespace PosixNet

/-- How one round of a loop ends. -/
inductive Round (β : Type) where
  /-- The writes are made, and the loop goes on. -/
  | next (writes : List (List Byte)) (buffer : β)
  /-- The loop is left, and the output closed. -/
  | finish
  | fault (f : Fault)

/-- A loop with the buffer `β`. -/
structure ReadLoop (χ β : Type) where
  input : χ
  output : χ
  /-- The size of the `read`. -/
  size : Nat
  body : β → List Byte → Round β

/-- Where the loop is. -/
inductive LoopState (β : Type) where
  | reading (buffer : β)
  | writing (bytes : List Byte) (rest : List (List Byte)) (buffer : β)
  | closing
  | stopped
  | fault (f : Fault)
  deriving DecidableEq

/-- The writes that are still to be made. -/
def LoopState.pending {β : Type} : LoopState β → List (List Byte)
  | .writing bytes rest _ => bytes :: rest
  | _ => []

/-- The first call of what is left of a round. -/
def LoopState.after {β : Type} : Round β → LoopState β
  | .next [] buffer => .reading buffer
  | .next (bytes :: rest) buffer => .writing bytes rest buffer
  | .finish => .closing
  | .fault f => .fault f

theorem LoopState.after_ne_stopped {β : Type} (r : Round β) : LoopState.after r ≠ .stopped := by
  cases r with
  | next ws buffer => cases ws <;> exact fun h => nomatch h
  | _ => exact fun h => nomatch h

theorem LoopState.after_eq_closing {β : Type} {r : Round β} (h : LoopState.after r = .closing) :
    r = .finish := by
  cases r with
  | next ws buffer => cases ws <;> cases h
  | finish => rfl
  | fault f => cases h

/-- How a loop stands when the last of some reads has been dealt with. -/
inductive LoopEnd (β : Type) where
  | running (buffer : β)
  | finished
  | fault (f : Fault)

namespace ReadLoop
variable {χ β : Type} (L : ReadLoop χ β)

/-- The next call of the loop. -/
def program : LoopState β → Call χ (LoopState β)
  | .reading buffer => .read L.input L.size fun bytes => .after (L.body buffer bytes)
  | .writing bytes rest buffer => .write L.output bytes (.after (.next rest buffer))
  | .closing => .close L.output .stopped
  | .stopped | .fault _ => .stop

/-- What the loop writes for these reads, and how it stands then. -/
def rounds : β → List (List Byte) → List (List Byte) × LoopEnd β
  | buffer, [] => ([], .running buffer)
  | buffer, bytes :: more =>
    match L.body buffer bytes with
    | .next writes buffer =>
      let rest := rounds buffer more
      (writes ++ rest.1, rest.2)
    | .finish => ([], .finished)
    | .fault f => ([], .fault f)

variable {L} {buffer buffer' : β} {bytes : List Byte} {xs xs' ys : List (List Byte)}

theorem rounds_next {ws : List (List Byte)} (h : L.body buffer bytes = .next ws buffer')
    (xs : List (List Byte)) :
    L.rounds buffer (bytes :: xs) = (ws ++ (L.rounds buffer' xs).1, (L.rounds buffer' xs).2) := by
  rw [rounds, h]

theorem rounds_fault {f : Fault} (h : L.body buffer bytes = .fault f) (xs : List (List Byte)) :
    L.rounds buffer (bytes :: xs) = ([], .fault f) := by
  rw [rounds, h]

theorem rounds_finish (h : L.body buffer bytes = .finish) (xs : List (List Byte)) :
    L.rounds buffer (bytes :: xs) = ([], .finished) := by
  rw [rounds, h]

/-- A loop that goes on has gone on in every round. -/
theorem rounds_running (h : L.rounds buffer xs = (ys, .running buffer')) :
    ∀ x ∈ xs, ∃ b ws b', L.body b x = .next ws b' := by
  induction xs generalizing buffer ys with
  | nil => exact fun x hx => nomatch hx
  | cons x xs ih =>
    intro y hy
    cases hbody : L.body buffer x with
    | next ws b =>
      rcases List.mem_cons.mp hy with rfl | hy
      · exact ⟨buffer, ws, b, hbody⟩
      · rw [rounds_next hbody] at h
        exact ih (Prod.ext rfl (Prod.mk.inj h).2) y hy
    | finish =>
      rw [rounds_finish hbody] at h
      cases h
    | fault f =>
      rw [rounds_fault hbody] at h
      cases h

/-- Rounds that all leave the same buffer. -/
theorem rounds_steady {g : List Byte → List (List Byte)}
    (h : ∀ x ∈ xs, L.body buffer x = .next (g x) buffer) :
    L.rounds buffer xs = (xs.flatMap g, .running buffer) := by
  induction xs with
  | nil => rfl
  | cons x xs ih =>
    rw [rounds_next (h x List.mem_cons_self),
      ih fun y hy => h y (List.mem_cons_of_mem _ hy)]
    rfl

theorem rounds_map {g : List Byte → List Byte}
    (h : ∀ x ∈ xs, L.body buffer x = .next [g x] buffer) :
    L.rounds buffer xs = (xs.map g, .running buffer) := by
  rw [List.map_eq_flatMap]
  exact rounds_steady h

/-- The rounds for more reads go on where the loop stands. -/
theorem rounds_append (h : L.rounds buffer xs = (ys, .running buffer')) (xs' : List (List Byte)) :
    L.rounds buffer (xs ++ xs') =
      (ys ++ (L.rounds buffer' xs').1, (L.rounds buffer' xs').2) := by
  induction xs generalizing buffer ys with
  | nil =>
    obtain ⟨rfl, hb⟩ := Prod.mk.inj h
    rw [LoopEnd.running.inj hb]
    rfl
  | cons bytes xs ih =>
    cases hbody : L.body buffer bytes with
    | next ws b =>
      rw [rounds_next hbody] at h
      obtain ⟨rfl, hend⟩ := Prod.mk.inj h
      rw [List.cons_append, rounds_next hbody, ih (Prod.ext rfl hend), List.append_assoc]
    | finish =>
      rw [rounds_finish hbody] at h
      cases h
    | fault f =>
      rw [rounds_fault hbody] at h
      cases h

/-- What the loop has written when it is in this state, and what it owes. -/
def owed (ys : List (List Byte)) : LoopState β → List (List Byte) × LoopEnd β
  | .reading buffer => (ys, .running buffer)
  | .writing bytes rest buffer => (ys ++ bytes :: rest, .running buffer)
  | .closing | .stopped => (ys, .finished)
  | .fault f => (ys, .fault f)

theorem owed_after (r : Round β) : owed ys (.after r) =
    match r with
    | .next ws buffer => (ys ++ ws, .running buffer)
    | .finish => (ys, .finished)
    | .fault f => (ys, .fault f) := by
  cases r with
  | next ws buffer =>
    cases ws with
    | nil => simp [LoopState.after, owed]
    | cons w ws => rfl
  | finish => rfl
  | fault f => rfl

theorem rounds_snoc (h : L.rounds buffer xs = (ys, .running buffer')) (bytes : List Byte) :
    L.rounds buffer (xs ++ [bytes]) = owed ys (.after (L.body buffer' bytes)) := by
  rw [rounds_append h, owed_after, rounds]
  cases L.body buffer' bytes with
  | next ws b => simp [rounds]
  | finish => simp
  | fault f => simp

/-- **A step of the loop.** -/
theorem step_cases {s s' : LoopState β} {e : Io χ} (h : Local L.program s e s') :
    (∃ b bytes, s = .reading b ∧ e = .read L.input bytes ∧ bytes.length ≤ L.size ∧
      s' = .after (L.body b bytes)) ∨
    (∃ bytes rest b, s = .writing bytes rest b ∧ e = .write L.output bytes ∧
      s' = .after (.next rest b)) ∨
    (s = .closing ∧ e = .close L.output ∧ s' = .stopped) := by
  cases s with
  | reading b =>
    cases h with
    | read hcall bytes hlen =>
      obtain ⟨rfl, rfl, rfl⟩ := Call.read.inj hcall
      exact .inl ⟨b, bytes, rfl, rfl, hlen, rfl⟩
    | _ hcall => cases hcall
  | writing bytes rest b =>
    cases h with
    | write hcall =>
      obtain ⟨rfl, rfl, rfl⟩ := Call.write.inj hcall
      exact .inr (.inl ⟨_, rest, b, rfl, rfl, rfl⟩)
    | _ hcall => cases hcall
  | closing =>
    cases h with
    | close hcall =>
      obtain ⟨rfl, rfl⟩ := Call.close.inj hcall
      exact .inr (.inr ⟨rfl, rfl, rfl⟩)
    | _ hcall => cases hcall
  | stopped => cases h with | _ hcall => cases hcall
  | fault f => cases h with | _ hcall => cases hcall

/-- The step of a `read`. -/
theorem local_read {b : β} (h : bytes.length ≤ L.size) : Local L.program (.reading b)
    (.read L.input bytes) (.after (L.body b bytes)) :=
  @Local.read _ _ _ _ _ _ (fun bytes => LoopState.after (L.body b bytes)) rfl bytes h

/-- **The loop in a run.**  In every run of the process its writes are the rounds of its
reads. -/
theorem run [DecidableEq χ] {tr : List (LoopState β × Io χ)} {s : LoopState β}
    (run : Run (Local L.program) (.reading buffer) tr s) :
    L.rounds buffer (reads L.input (labels tr)) = owed (writes L.output (labels tr)) s := by
  refine run.invariant (I := fun tr s =>
    L.rounds buffer (reads L.input (labels tr)) = owed (writes L.output (labels tr)) s) rfl ?_
  intro tr s e s' _ ih h
  rw [labels_append, labels_cons, labels_nil, reads_append, writes_append]
  rcases step_cases h with ⟨b, bytes, rfl, rfl, -, rfl⟩ | ⟨bytes, rest, b, rfl, rfl, rfl⟩ |
    ⟨rfl, rfl, rfl⟩
  · rw [reads_read, writes_read, List.append_nil, rounds_snoc ih]
  · rw [reads_write, writes_write, List.append_nil, ih, owed_after]
    simp [owed]
  · rw [reads_close, writes_close, List.append_nil, List.append_nil, ih]
    rfl

/-- **A loop that was left** has read up to the round in which its body says so. -/
theorem run_left [DecidableEq χ] {tr : List (LoopState β × Io χ)} {s : LoopState β}
    (run : Run (Local L.program) (.reading buffer) tr s) (hleft : s = .closing ∨ s = .stopped) :
    ∃ ys b x, reads L.input (labels tr) = ys ++ [x] ∧
      L.rounds buffer ys = (writes L.output (labels tr), .running b) ∧ L.body b x = .finish := by
  revert hleft
  refine run.invariant (I := fun tr s => s = .closing ∨ s = .stopped → ∃ ys b x,
    reads L.input (labels tr) = ys ++ [x] ∧
      L.rounds buffer ys = (writes L.output (labels tr), .running b) ∧ L.body b x = .finish)
    (fun h => by rcases h with h | h <;> cases h) ?_
  intro tr s e s' hrun ih h hleft
  rw [labels_append, labels_cons, labels_nil, reads_append, writes_append]
  rcases step_cases h with ⟨b, bytes, rfl, rfl, -, rfl⟩ | ⟨bytes, rest, b, rfl, rfl, rfl⟩ |
    ⟨rfl, rfl, rfl⟩
  · rw [or_iff_left (LoopState.after_ne_stopped _)] at hleft
    rw [reads_read, writes_read, List.append_nil]
    exact ⟨_, b, bytes, rfl, ReadLoop.run hrun, LoopState.after_eq_closing hleft⟩
  · rw [or_iff_left (LoopState.after_ne_stopped _)] at hleft
    exact nomatch LoopState.after_eq_closing hleft
  · rw [reads_close, writes_close, List.append_nil, List.append_nil]
    exact ih (.inl rfl)

theorem reads_length [DecidableEq χ] {tr : List (LoopState β × Io χ)} {s₀ s : LoopState β}
    (run : Run (Local L.program) s₀ tr s) :
    ∀ x ∈ reads L.input (labels tr), x.length ≤ L.size := by
  refine run.invariant (I := fun tr _ => ∀ x ∈ reads L.input (labels tr), x.length ≤ L.size)
    (fun x hx => nomatch hx) ?_
  intro tr s e s' _ ih h x hx
  rw [labels_append, labels_cons, labels_nil, reads_append] at hx
  rcases List.mem_append.mp hx with hx | hx
  · exact ih x hx
  · rcases step_cases h with ⟨b, bytes, -, rfl, hlen, -⟩ | ⟨bytes, rest, b, -, rfl, -⟩ |
      ⟨-, rfl, -⟩
    · rw [reads_read, List.mem_singleton] at hx
      rwa [hx]
    · exact nomatch hx
    · exact nomatch hx

/-- The loop is left in the round whose body says so. -/
theorem step_closing {s : LoopState β} {e : Io χ} (h : Local L.program s e .closing) :
    ∃ b bytes, s = .reading b ∧ e = .read L.input bytes ∧ L.body b bytes = .finish := by
  rcases step_cases h with ⟨b, bytes, rfl, rfl, -, hs⟩ | ⟨bytes, rest, b, -, -, hs⟩ | ⟨-, -, hs⟩
  · exact ⟨b, bytes, rfl, rfl, LoopState.after_eq_closing hs.symm⟩
  · exact nomatch LoopState.after_eq_closing hs.symm
  · cases hs

theorem owed_fst (ys : List (List Byte)) (s : LoopState β) : (owed ys s).1 = ys ++ s.pending := by
  cases s with
  | writing w ws buffer => rfl
  | _ => exact (List.append_nil ys).symm

theorem prefix_owed (ys : List (List Byte)) (s : LoopState β) : ys <+: (owed ys s).1 := by
  rw [owed_fst]
  exact List.prefix_append _ _

theorem input_of_takes {s : LoopState β} {c : χ} (h : (L.program s).Takes c) : L.input = c := by
  cases s with
  | reading b => exact h
  | _ => exact h.elim

theorem output_of_puts {s : LoopState β} {c : χ} (h : (L.program s).Puts c) : L.output = c := by
  cases s with
  | writing bytes rest b => exact h
  | _ => exact h.elim

/-! ### Networks of loops -/

section Loops
variable {ι : Type} [DecidableEq ι] [DecidableEq χ] {loop : ι → ReadLoop χ β}
  {s₀ s : Net χ fun _ : ι => LoopState β}
  {tr : List (Net χ (fun _ : ι => LoopState β) × (ι × Io χ))}

/-- `ReadLoop.run`, where no two loops share a channel at the same end. -/
theorem run_net (run : Run (stepOf (Net.exec fun i => (loop i).program)) s₀ tr s)
    (hin : ∀ i j, (loop i).input = (loop j).input → i = j)
    (hout : ∀ i j, (loop i).output = (loop j).output → i = j) {i : ι}
    (h₀ : s₀.proc i = .reading buffer) :
    (loop i).rounds buffer (reads (loop i).input (Net.events tr)) =
      owed (writes (loop i).output (Net.events tr)) (s.proc i) := by
  obtain ⟨tr', hlocal, hlabels⟩ := Net.local_run run i
  rw [h₀] at hlocal
  have h := ReadLoop.run hlocal
  rwa [hlabels, Net.reads_byThread run fun j x hx => hin j i (input_of_takes hx),
    Net.writes_byThread run fun j x hx => hout j i (output_of_puts hx)] at h

/-- What is written, and what is about to be, are the rounds of what was read. -/
theorem written_net (run : Run (stepOf (Net.exec fun i => (loop i).program)) s₀ tr s)
    (hin : ∀ i j, (loop i).input = (loop j).input → i = j)
    (hout : ∀ i j, (loop i).output = (loop j).output → i = j) {i : ι}
    (h₀ : s₀.proc i = .reading buffer) :
    writes (loop i).output (Net.events tr) ++ (s.proc i).pending =
      ((loop i).rounds buffer (reads (loop i).input (Net.events tr))).1 := by
  rw [run_net run hin hout h₀, owed_fst]

theorem reads_length_net (run : Run (stepOf (Net.exec fun i => (loop i).program)) s₀ tr s)
    (hin : ∀ i j, (loop i).input = (loop j).input → i = j) (i : ι) :
    ∀ x ∈ reads (loop i).input (Net.events tr), x.length ≤ (loop i).size := by
  obtain ⟨tr', hlocal, hlabels⟩ := Net.local_run run i
  have h := reads_length hlocal
  rwa [hlabels, Net.reads_byThread run fun j x hx => hin j i (input_of_takes hx)] at h

theorem run_left_net (run : Run (stepOf (Net.exec fun i => (loop i).program)) s₀ tr s)
    (hin : ∀ i j, (loop i).input = (loop j).input → i = j)
    (hout : ∀ i j, (loop i).output = (loop j).output → i = j) {i : ι}
    (h₀ : s₀.proc i = .reading buffer) (hleft : s.proc i = .closing ∨ s.proc i = .stopped) :
    ∃ ys b x, reads (loop i).input (Net.events tr) = ys ++ [x] ∧
      (loop i).rounds buffer ys = (writes (loop i).output (Net.events tr), .running b) ∧
        (loop i).body b x = .finish := by
  obtain ⟨tr', hlocal, hlabels⟩ := Net.local_run run i
  rw [h₀] at hlocal
  have h := ReadLoop.run_left hlocal hleft
  rwa [hlabels, Net.reads_byThread run fun j x hx => hin j i (input_of_takes hx),
    Net.writes_byThread run fun j x hx => hout j i (output_of_puts hx)] at h

/-- A channel that no loop writes to is read from its beginning. -/
theorem source_run (run : Run (stepOf (Net.exec fun i => (loop i).program)) s₀ tr s) (c : χ)
    (h : ∀ i, (loop i).output ≠ c) :
    s₀.chan c = (reads c (Net.events tr)).flatten ++ s.chan c := by
  have hflow := Net.flow_run run c
  have hnone : writes c (Net.events tr) = [] :=
    Net.writes_eq_nil run fun i x hx => h i (output_of_puts hx)
  rwa [hnone, List.flatten_nil, List.append_nil] at hflow

/-- A channel that no loop reads from keeps all that is written to it. -/
theorem sink_run (run : Run (stepOf (Net.exec fun i => (loop i).program)) s₀ tr s) (c : χ)
    (h : ∀ i, (loop i).input ≠ c) :
    s₀.chan c ++ (writes c (Net.events tr)).flatten = s.chan c := by
  have hflow := Net.flow_run run c
  have hnone : reads c (Net.events tr) = [] :=
    Net.reads_eq_nil run fun i x hx => h i (input_of_takes hx)
  rwa [hnone, List.flatten_nil, List.nil_append] at hflow

/-- Where nothing can move, a loop is at its end or waits for more. -/
theorem terminal_loop (h : Terminal (stepOf (Net.exec fun i => (loop i).program)) s) {i : ι}
    (hsize : 0 < (loop i).size) : s.proc i = .stopped ∨ (∃ f, s.proc i = .fault f) ∨
      s.chan (loop i).input = [] ∧ s.writers (loop i).input ≠ 0 := by
  have hcases := Net.terminal_cases h i
  cases hs : s.proc i with
  | stopped => exact .inl rfl
  | fault f => exact .inr (.inl ⟨f, rfl⟩)
  | reading b =>
    rw [hs] at hcases
    rcases hcases with hcall | ⟨c, size, next, hcall, hwait⟩ | ⟨c, size, next, hcall, -⟩
    · cases hcall
    · obtain ⟨rfl, rfl, -⟩ := Call.read.inj hcall
      exact .inr (.inr (hwait hsize))
    · cases hcall
  | writing bytes rest b =>
    rw [hs] at hcases
    rcases hcases with hcall | ⟨c, size, next, hcall, -⟩ | ⟨c, size, next, hcall, -⟩
    all_goals cases hcall
  | closing =>
    rw [hs] at hcases
    rcases hcases with hcall | ⟨c, size, next, hcall, -⟩ | ⟨c, size, next, hcall, -⟩
    all_goals cases hcall

theorem terminal_of_stopped (h : ∀ i, s.proc i = .stopped) :
    Terminal (stepOf (Net.exec fun i => (loop i).program)) s := by
  rintro ⟨i, e⟩ s' hstep
  have hlocal : Local (loop i).program (s.proc i) e (s'.proc i) :=
    (Net.step_of_stepOf hstep).local_step
  rw [h i] at hlocal
  rcases step_cases hlocal with ⟨_, _, h, _⟩ | ⟨_, _, _, h, _⟩ | ⟨h, _⟩
  all_goals cases h

/-- Loops without an end keep their channels open. -/
theorem never_closes (run : Run (stepOf (Net.exec fun i => (loop i).program)) s₀ tr s)
    (hbody : ∀ i b x, (loop i).body b x ≠ .finish) (h₀ : ∀ i, s₀.proc i ≠ .closing) :
    (∀ i, s.proc i ≠ .closing) ∧ s.writers = s₀.writers := by
  refine run.preserves (I := fun u : Net χ (fun _ : ι => LoopState β) =>
    (∀ i, u.proc i ≠ .closing) ∧ u.writers = s₀.writers) ⟨h₀, rfl⟩ ?_
  rintro u ⟨i, e⟩ u' ⟨hproc, hwriters⟩ h
  have hstep := Net.step_of_stepOf h
  have hlocal : Local (loop i).program (u.proc i) e (u'.proc i) := hstep.local_step
  constructor
  · intro j hj
    by_cases hi : j = i
    · subst hi
      rw [hj] at hlocal
      obtain ⟨b, bytes, -, -, hfinish⟩ := step_closing hlocal
      exact hbody j b bytes hfinish
    · rw [hstep.frame j hi] at hj
      exact hproc j hj
  · rw [← hwriters]
    funext c
    refine (hstep.closed c).trans (if_neg ?_)
    rcases step_cases hlocal with ⟨_, _, _, rfl, _⟩ | ⟨_, _, _, _, rfl, _⟩ | ⟨hp, _⟩
    · exact fun h => nomatch h
    · exact fun h => nomatch h
    · exact absurd hp (hproc i)

/-- Where every loop has a channel of its own to write to, it is open until the loop is
left. -/
theorem writers_output (run : Run (stepOf (Net.exec fun i => (loop i).program)) s₀ tr s)
    (hout : ∀ i j, (loop i).output = (loop j).output → i = j) {i : ι}
    (h₀ : s₀.proc i ≠ .stopped) (hopen : s₀.writers (loop i).output = 1) :
    (s.proc i = .stopped → s.writers (loop i).output = 0) ∧
      (s.proc i ≠ .stopped → s.writers (loop i).output = 1) := by
  refine run.preserves (I := fun u : Net χ (fun _ : ι => LoopState β) =>
    (u.proc i = .stopped → u.writers (loop i).output = 0) ∧
      (u.proc i ≠ .stopped → u.writers (loop i).output = 1))
    ⟨fun h => absurd h h₀, fun _ => hopen⟩ ?_
  rintro u ⟨j, e⟩ u' ⟨hstopped, hrunning⟩ h
  have hstep := Net.step_of_stepOf h
  have hlocal : Local (loop j).program (u.proc j) e (u'.proc j) := hstep.local_step
  have hclosed : u'.writers (loop i).output =
    if e = .close (loop i).output then u.writers (loop i).output - 1
    else u.writers (loop i).output := hstep.closed (loop i).output
  by_cases hj : i = j
  · subst hj
    rcases step_cases hlocal with ⟨b, bytes, hu, rfl, -, hu'⟩ | ⟨bytes, rest, b, hu, rfl, hu'⟩ |
      ⟨hu, rfl, hu'⟩
    · rw [hclosed, hu', if_neg (fun h => nomatch h)]
      have hne := LoopState.after_ne_stopped ((loop i).body b bytes)
      exact ⟨fun h => absurd h hne, fun _ => hrunning (by rw [hu]; exact fun h => nomatch h)⟩
    · rw [hclosed, hu', if_neg (fun h => nomatch h)]
      have hne := LoopState.after_ne_stopped (.next rest b)
      exact ⟨fun h => absurd h hne, fun _ => hrunning (by rw [hu]; exact fun h => nomatch h)⟩
    · rw [hclosed, hu', if_pos rfl, hrunning (by rw [hu]; exact fun h => nomatch h)]
      exact ⟨fun _ => rfl, fun h => absurd rfl h⟩
  · rw [hclosed, hstep.frame i hj, if_neg]
    · exact ⟨hstopped, hrunning⟩
    · rintro rfl
      rcases step_cases hlocal with ⟨_, _, _, h, _⟩ | ⟨_, _, _, _, h, _⟩ | ⟨_, h, _⟩
      · cases h
      · cases h
      · exact hj (hout i j (Io.close.inj h))

/-- A loop that is left only at end of file leaves an empty channel behind, which nobody
has open for writing. -/
theorem drained (run : Run (stepOf (Net.exec fun i => (loop i).program)) s₀ tr s)
    (hout : ∀ i j, (loop i).output = (loop j).output → i = j)
    (h₀ : ∀ i, s₀.proc i ≠ .closing ∧ s₀.proc i ≠ .stopped)
    (hopen : ∀ i, s₀.writers (loop i).output = 1) {i : ι}
    (hfinish : ∀ b x, (loop i).body b x = .finish → x = []) :
    s.proc i = .closing ∨ s.proc i = .stopped →
      s.chan (loop i).input = [] ∧ s.writers (loop i).input = 0 := by
  refine run.invariant (I := fun _ u => u.proc i = .closing ∨ u.proc i = .stopped →
    u.chan (loop i).input = [] ∧ u.writers (loop i).input = 0) ?_ ?_
  · rintro (h | h)
    · exact absurd h (h₀ i).1
    · exact absurd h (h₀ i).2
  · rintro tr u ⟨j, e⟩ u' run ih h hleft
    have hstep := Net.step_of_stepOf h
    have hlocal : Local (loop j).program (u.proc j) e (u'.proc j) := hstep.local_step
    have hclosed : u'.writers (loop i).input =
      if e = .close (loop i).input then u.writers (loop i).input - 1
      else u.writers (loop i).input := hstep.closed (loop i).input
    have hflow : u.chan (loop i).input ++ (writes (loop i).input [e]).flatten =
      (reads (loop i).input [e]).flatten ++ u'.chan (loop i).input := hstep.flow (loop i).input
    -- from now on nothing is put into the channel
    suffices hempty : u.chan (loop i).input = [] ∧ u.writers (loop i).input = 0 by
      have hput : writes (loop i).input [e] = [] := by
        cases e with
        | write c bytes =>
          refine writes_of_ne (fun hc => ?_) bytes
          have hput := output_of_puts hlocal.puts
          have hwriters := (writers_output run hout (h₀ j).2 (hopen j)).2 fun hj => by
            have := hlocal.puts
            rw [hj] at this
            exact this
          rw [hput, hc, hempty.2] at hwriters
          cases hwriters
        | _ => rfl
      rw [hempty.1, hput] at hflow
      rw [hempty.2, Nat.zero_sub, ite_self] at hclosed
      exact ⟨(List.append_eq_nil_iff.mp hflow.symm).2, hclosed⟩
    by_cases hj : i = j
    · subst hj
      rcases step_cases hlocal with ⟨b, bytes, hu, he, -, hu'⟩ | ⟨bytes, rest, b, hu, -, hu'⟩ |
        ⟨hu, -, -⟩
      · rw [hu', or_iff_left (LoopState.after_ne_stopped _)] at hleft
        obtain rfl := hfinish b bytes (LoopState.after_eq_closing hleft)
        have hcall : (loop i).program (u.proc i) = .read (loop i).input (loop i).size
          fun bytes => .after ((loop i).body b bytes) := by rw [hu]; rfl
        exact ⟨hstep.drained _ _ _ hcall he, hstep.eof _ he⟩
      · rw [hu', or_iff_left (LoopState.after_ne_stopped _)] at hleft
        exact nomatch LoopState.after_eq_closing hleft
      · exact ih (.inl hu)
    · rw [hstep.frame i hj] at hleft
      exact ih hleft

end Loops

end ReadLoop

/-! ## Buffers

The buffers are arrays of a fixed size that a `read` overwrites from the start; what
stood behind the bytes it returned is still there when the program looks for a NUL. -/

section Buffers
variable {n : Nat}

/-- The bytes of the buffer after a `read` that returned `bytes`. -/
def frame (buffer : CArray n) (bytes : List Byte) : List Byte :=
  bytes ++ buffer.bytes.drop bytes.length

/-- Put `bytes` at the start of the buffer: the buffer, and the string it holds then. -/
def fill (buffer : CArray n) (bytes : List Byte) : Except Fault (CArray n × List Byte) := do
  let buffer ← buffer.store 0 bytes
  let text ← buffer.str
  return (buffer, text)

/-- The buffer has a NUL right behind `bytes`. -/
def Fits (buffer : CArray n) (bytes : List Byte) : Prop := buffer.bytes[bytes.length]? = some 0

instance (buffer : CArray n) (bytes : List Byte) : Decidable (Fits buffer bytes) :=
  inferInstanceAs (Decidable (_ = _))

variable {buffer : CArray n} {bytes : List Byte}

theorem frame_length (h : bytes.length ≤ n) : (frame buffer bytes).length = n := by
  have := buffer.length_eq
  rw [frame, List.length_append, List.length_drop]
  omega

/-- **What `fill` gives**: the whole array, and what stands in it up to the first NUL. -/
theorem fill_eq (hlen : bytes.length ≤ n) (h0 : 0 ∈ frame buffer bytes) :
    ∃ b : CArray n, b.bytes = frame buffer bytes ∧
      fill buffer bytes = .ok (b, cstr (frame buffer bytes)) := by
  have hfit : 0 + bytes.length ≤ n := by omega
  have hb : (buffer.set 0 bytes hfit).bytes = frame buffer bytes := CArray.set_zero_bytes hfit
  refine ⟨buffer.set 0 bytes hfit, hb, ?_⟩
  rw [fill, CArray.store_eq hfit]
  show (CArray.str _ >>= fun text => _) = _
  rw [CArray.str_eq (hb ▸ h0), hb]
  rfl

/-- Without a NUL, `strlen` leaves the array. -/
theorem fill_eq_error (hlen : bytes.length ≤ n) (h0 : 0 ∉ frame buffer bytes) :
    fill buffer bytes = .error .bounds := by
  have hfit : 0 + bytes.length ≤ n := by omega
  have hb : (buffer.set 0 bytes hfit).bytes = frame buffer bytes := CArray.set_zero_bytes hfit
  rw [fill, CArray.store_eq hfit]
  show (CArray.str _ >>= fun text => _) = _
  rw [CArray.str_eq_error (hb ▸ h0)]
  rfl

/-- The string `fill` finds. -/
theorem fill_ok {b : CArray n} {text : List Byte} (h : fill buffer bytes = .ok (b, text)) :
    bytes.length ≤ n ∧ 0 ∈ frame buffer bytes ∧ text = cstr (frame buffer bytes) := by
  by_cases hlen : bytes.length ≤ n
  · by_cases h0 : 0 ∈ frame buffer bytes
    · obtain ⟨b', -, hfill⟩ := fill_eq hlen h0
      rw [hfill] at h
      exact ⟨hlen, h0, (Prod.mk.inj (Except.ok.inj h)).2.symm⟩
    · rw [fill_eq_error hlen h0] at h
      cases h
  · rw [fill, CArray.store_eq_error (by omega)] at h
    cases h

theorem mem_frame (hfree : NulFree bytes) :
    0 ∈ frame buffer bytes ↔ 0 ∈ buffer.bytes.drop bytes.length := by
  rw [frame, List.mem_append, or_iff_right hfree]

/-- The read and what was left of an earlier one. -/
theorem cstr_frame (hfree : NulFree bytes) :
    cstr (frame buffer bytes) = bytes ++ cstr (buffer.bytes.drop bytes.length) :=
  cstr_append hfree _

theorem fits_iff : Fits buffer bytes ↔ ∃ rest, frame buffer bytes = bytes ++ 0 :: rest := by
  rw [Fits, frame]
  constructor
  · intro h
    obtain ⟨hlt, h0⟩ := List.getElem?_eq_some_iff.mp h
    exact ⟨_, by rw [List.drop_eq_getElem_cons hlt, h0]⟩
  · rintro ⟨rest, h⟩
    have hdrop := List.append_cancel_left h
    rw [← List.head?_drop, hdrop]
    rfl

theorem Fits.zero_mem (h : Fits buffer bytes) : 0 ∈ frame buffer bytes := by
  obtain ⟨rest, hrest⟩ := fits_iff.mp h
  rw [hrest]
  simp

/-- Where the buffer has a NUL behind the read, exactly the read is the string. -/
theorem Fits.cstr_frame (h : Fits buffer bytes) (hfree : NulFree bytes) :
    0 ∈ frame buffer bytes ∧ cstr (frame buffer bytes) = bytes := by
  obtain ⟨rest, hrest⟩ := fits_iff.mp h
  exact ⟨h.zero_mem, by rw [hrest, cstr_append_zero hfree]⟩

theorem Fits.length_lt (h : Fits buffer bytes) : bytes.length < n := by
  have := (List.getElem?_eq_some_iff.mp h).1
  rwa [buffer.length_eq] at this

theorem fits_zero (h : bytes.length < n) : Fits (.zero n) bytes := by
  simp [Fits, CArray.zero, h]

theorem frame_zero : frame (.zero n) bytes = bytes ++ List.replicate (n - bytes.length) 0 := by
  simp [frame, CArray.zero]

end Buffers

end PosixNet
