import PosixNet.LabelledRun
import PosixNet.CString

/-!
# Processes on byte channels

Pipes, FIFOs, TCP streams and the standard streams of a process have one thing in
common: bytes are taken out in the order they were put in, and no boundary of a write
is kept.  A process is given by the system call it makes next and by how it goes on
when the call returns (`Call`); what it computes in between is part of that.  A
**network** has a process for every `i : ι`, and the bytes in flight on every channel.

A scheduler's choice is a process and the number of bytes its `read` returns: anything
from one byte to all that is there, and none at end of file, which is when the channel
is empty and nobody has it open for writing.

* `Net.Step` is all a step can do: the process that moves sees a step of its own
  (`Local`), the others do not move, and the channels flow.
* `flow_run` is the conservation of bytes over a run, `local_run` the run that one
  process makes within the run of the network.
-/
namespace PosixNet

/-! ## Processes -/

/-- The call a process makes, and its state after it. -/
inductive Call (χ σ : Type) where
  /-- `read` of at most `size` bytes. -/
  | read (c : χ) (size : Nat) (next : List Byte → σ)
  /-- `fgets` into an array of `size` bytes. -/
  | fgets (c : χ) (size : Nat) (next : List Byte → σ)
  /-- `write` or `send`, which transfers everything. -/
  | write (c : χ) (bytes : List Byte) (next : σ)
  /-- The process closes its end for writing. -/
  | close (c : χ) (next : σ)
  /-- There is no next call. -/
  | stop

/-- A call that has returned. -/
inductive Io (χ : Type) where
  | read (c : χ) (bytes : List Byte)
  | write (c : χ) (bytes : List Byte)
  | close (c : χ)
  deriving DecidableEq

/-- What `fgets` takes, with `room` bytes in front of its NUL. -/
def fgets : (room : Nat) → List Byte → List Byte
  | 0, _ => []
  | _, [] => []
  | room + 1, b :: s => b :: if b = newline then [] else fgets room s

theorem prefix_fgets : ∀ (room : Nat) (s : List Byte), fgets room s <+: s
  | 0, s => List.nil_prefix
  | room + 1, [] => List.nil_prefix
  | room + 1, b :: s => by
    rw [fgets, List.cons_prefix_cons]
    refine ⟨rfl, ?_⟩
    split
    · exact List.nil_prefix
    · exact prefix_fgets room s

theorem fgets_length_le : ∀ (room : Nat) (s : List Byte), (fgets room s).length ≤ room
  | 0, s => Nat.le_refl _
  | room + 1, [] => Nat.zero_le _
  | room + 1, b :: s => by
    rw [fgets, List.length_cons]
    apply Nat.succ_le_succ
    split
    · exact Nat.zero_le _
    · exact fgets_length_le room s

/-- A line that fits is read as a whole. -/
theorem fgets_line {body : List Byte} (hbody : newline ∉ body) (rest : List Byte) :
    ∀ {room : Nat}, body.length < room →
      fgets room (body ++ newline :: rest) = body ++ [newline] := by
  induction body with
  | nil =>
    intro room h
    obtain ⟨room, rfl⟩ : ∃ k, room = k + 1 := Nat.exists_eq_succ_of_ne_zero (Nat.ne_of_gt h)
    simp [fgets]
  | cons b body ih =>
    intro room h
    obtain ⟨room, rfl⟩ : ∃ k, room = k + 1 := Nat.exists_eq_succ_of_ne_zero (by omega)
    rw [List.mem_cons, not_or] at hbody
    rw [List.length_cons] at h
    rw [List.cons_append, fgets, if_neg (Ne.symm hbody.1), ih hbody.2 (by omega), List.cons_append]

/-- What is left of the input without a newline is read as a whole. -/
theorem fgets_last {s : List Byte} (hs : newline ∉ s) :
    ∀ {room : Nat}, s.length ≤ room → fgets room s = s := by
  induction s with
  | nil =>
    intro room _
    cases room <;> rfl
  | cons b s ih =>
    intro room h
    rw [List.length_cons] at h
    obtain ⟨room, rfl⟩ : ∃ k, room = k + 1 := Nat.exists_eq_succ_of_ne_zero (by omega)
    rw [List.mem_cons, not_or] at hs
    rw [fgets, if_neg (Ne.symm hs.1), ih hs.2 (by omega)]

section
variable {χ σ : Type}

/-- **A step of a process**, whatever the rest of the network is. -/
inductive Local (program : σ → Call χ σ) : σ → Io χ → σ → Prop
  | read {s : σ} {c : χ} {size : Nat} {next : List Byte → σ} (h : program s = .read c size next)
      (bytes : List Byte) (hlen : bytes.length ≤ size) :
      Local program s (.read c bytes) (next bytes)
  | fgets {s : σ} {c : χ} {size : Nat} {next : List Byte → σ} (h : program s = .fgets c size next)
      (bytes : List Byte) (hlen : bytes.length ≤ size - 1) :
      Local program s (.read c bytes) (next bytes)
  | write {s : σ} {c : χ} {bytes : List Byte} {next : σ} (h : program s = .write c bytes next) :
      Local program s (.write c bytes) next
  | close {s : σ} {c : χ} {next : σ} (h : program s = .close c next) :
      Local program s (.close c) next

/-- The call takes from `c`. -/
def Call.Takes (c : χ) : Call χ σ → Prop
  | .read c' _ _ | .fgets c' _ _ => c' = c
  | _ => False

/-- The call puts into `c`. -/
def Call.Puts (c : χ) : Call χ σ → Prop
  | .write c' _ _ => c' = c
  | _ => False

variable {program : σ → Call χ σ} {s s' : σ} {c : χ} {bytes : List Byte}

theorem Local.takes (h : Local program s (.read c bytes) s') : (program s).Takes c := by
  cases h with
  | read hcall => rw [hcall]; rfl
  | fgets hcall => rw [hcall]; rfl

theorem Local.puts (h : Local program s (.write c bytes) s') : (program s).Puts c := by
  cases h with
  | write hcall => rw [hcall]; rfl

end

/-! ## What was read and written -/

section
variable {χ : Type} [DecidableEq χ] (c : χ)

/-- What a read took from `c`. -/
def Io.taken? : Io χ → Option (List Byte)
  | .read c' bytes => if c' = c then some bytes else none
  | _ => none

/-- What a write put into `c`. -/
def Io.put? : Io χ → Option (List Byte)
  | .write c' bytes => if c' = c then some bytes else none
  | _ => none

/-- The reads from `c`, in order. -/
def reads (l : List (Io χ)) : List (List Byte) := l.filterMap (Io.taken? c)

/-- The writes to `c`, in order. -/
def writes (l : List (Io χ)) : List (List Byte) := l.filterMap (Io.put? c)

@[simp] theorem reads_nil : reads c [] = [] := rfl

@[simp] theorem writes_nil : writes c [] = [] := rfl

@[simp] theorem reads_append (l l' : List (Io χ)) : reads c (l ++ l') = reads c l ++ reads c l' :=
  List.filterMap_append

@[simp] theorem writes_append (l l' : List (Io χ)) :
    writes c (l ++ l') = writes c l ++ writes c l' := List.filterMap_append

theorem reads_cons (e : Io χ) (l : List (Io χ)) : reads c (e :: l) = reads c [e] ++ reads c l :=
  reads_append c [e] l

@[simp] theorem reads_read (bytes : List Byte) : reads c [.read c bytes] = [bytes] := by
  simp [reads, Io.taken?]

@[simp] theorem writes_write (bytes : List Byte) : writes c [.write c bytes] = [bytes] := by
  simp [writes, Io.put?]

@[simp] theorem reads_write (c' : χ) (bytes : List Byte) : reads c [.write c' bytes] = [] := rfl

@[simp] theorem reads_close (c' : χ) : reads c [.close c'] = [] := rfl

@[simp] theorem writes_read (c' : χ) (bytes : List Byte) : writes c [.read c' bytes] = [] := rfl

@[simp] theorem writes_close (c' : χ) : writes c [.close c'] = [] := rfl

variable {c}

theorem reads_of_ne {c' : χ} (h : c' ≠ c) (bytes : List Byte) :
    reads c [.read c' bytes] = [] := by
  simp [reads, Io.taken?, h]

theorem writes_of_ne {c' : χ} (h : c' ≠ c) (bytes : List Byte) :
    writes c [.write c' bytes] = [] := by
  simp [writes, Io.put?, h]

theorem mem_reads {bytes : List Byte} {l : List (Io χ)} :
    bytes ∈ reads c l ↔ Io.read c bytes ∈ l := by
  rw [reads, List.mem_filterMap]
  constructor
  · rintro ⟨e, he, htaken⟩
    cases e with
    | read c' bytes' =>
      rw [Io.taken?] at htaken
      split at htaken
      · rename_i hc
        rwa [← hc, ← Option.some.inj htaken]
      · cases htaken
    | write => cases htaken
    | close => cases htaken
  · intro h
    exact ⟨_, h, if_pos rfl⟩

theorem mem_writes {bytes : List Byte} {l : List (Io χ)} :
    bytes ∈ writes c l ↔ Io.write c bytes ∈ l := by
  rw [writes, List.mem_filterMap]
  constructor
  · rintro ⟨e, he, hput⟩
    cases e with
    | write c' bytes' =>
      rw [Io.put?] at hput
      split at hput
      · rename_i hc
        rwa [← hc, ← Option.some.inj hput]
      · cases hput
    | read => cases hput
    | close => cases hput
  · intro h
    exact ⟨_, h, if_pos rfl⟩

/-- A read takes the front of what is in its channel. -/
theorem flow_read (chan : χ → List Byte) (c : χ) {k : Nat} {bytes : List Byte}
    (h : bytes = (chan c).take k) (c' : χ) :
    chan c' ++ (writes c' [.read c bytes]).flatten =
      (reads c' [.read c bytes]).flatten ++ Function.update chan c ((chan c).drop k) c' := by
  rw [writes_read, List.flatten_nil, List.append_nil, h]
  by_cases hc : c' = c
  · subst hc
    rw [reads_read, Function.update_self, List.flatten_cons, List.flatten_nil, List.append_nil,
      List.take_append_drop]
  · rw [reads_of_ne (Ne.symm hc), Function.update_of_ne hc]
    rfl

/-- A write is put behind what is in its channel. -/
theorem flow_write (chan : χ → List Byte) (c : χ) (bytes : List Byte) (c' : χ) :
    chan c' ++ (writes c' [.write c bytes]).flatten =
      (reads c' [.write c bytes]).flatten ++
        Function.update chan c (chan c ++ bytes) c' := by
  rw [reads_write, List.flatten_nil, List.nil_append]
  by_cases hc : c' = c
  · subst hc
    rw [writes_write, Function.update_self, List.flatten_cons, List.flatten_nil, List.append_nil]
  · rw [writes_of_ne (Ne.symm hc), Function.update_of_ne hc, List.flatten_nil, List.append_nil]

end

/-! ## Networks -/

/-- The processes, the bytes in flight, and how many have each channel open for
writing. -/
structure Net {ι : Type} (χ : Type) (σ : ι → Type) where
  proc : (i : ι) → σ i
  chan : χ → List Byte
  writers : χ → Nat

namespace Net
variable {ι χ : Type} {σ : ι → Type}

/-- The steps of a run, without who made them. -/
def events (tr : List (Net χ σ × (ι × Io χ))) : List (Io χ) := (labels tr).map Prod.snd

@[simp] theorem events_nil : events ([] : List (Net χ σ × (ι × Io χ))) = [] := rfl

@[simp] theorem events_append (tr tr' : List (Net χ σ × (ι × Io χ))) :
    events (tr ++ tr') = events tr ++ events tr' := by
  simp [events]

theorem events_cons (x : Net χ σ × (ι × Io χ)) (tr : List (Net χ σ × (ι × Io χ))) :
    events (x :: tr) = x.2.2 :: events tr := rfl

@[simp] theorem events_singleton (x : Net χ σ × (ι × Io χ)) : events [x] = [x.2.2] := rfl

variable [DecidableEq ι] [DecidableEq χ]
  (program : (i : ι) → σ i → Call χ (σ i))

/-- Process `i` makes its next call; `n` is how many bytes a `read` returns. -/
def exec : ι × Nat → Net χ σ → Option ((ι × Io χ) × Net χ σ)
  | (i, n), s =>
    let move (x : σ i) : Net χ σ := { s with proc := Function.update s.proc i x }
    let take (c : χ) (k : Nat) : χ → List Byte := Function.update s.chan c ((s.chan c).drop k)
    match program i (s.proc i) with
    | .read c size next =>
      if n ≤ size ∧ n ≤ (s.chan c).length ∧ (n = 0 → s.chan c = [] ∧ s.writers c = 0) then
        let bytes := (s.chan c).take n
        some ((i, .read c bytes), { move (next bytes) with chan := take c n })
      else none
    | .fgets c size next =>
      -- a line that is not finished may grow as long as somebody writes
      if s.writers c = 0 then
        let bytes := fgets (size - 1) (s.chan c)
        some ((i, .read c bytes), { move (next bytes) with chan := take c bytes.length })
      else none
    | .write c bytes next =>
      some ((i, .write c bytes),
        { move next with chan := Function.update s.chan c (s.chan c ++ bytes) })
    | .close c next =>
      some ((i, .close c),
        { move next with writers := Function.update s.writers c (s.writers c - 1) })
    | .stop => none

/-- **What a step does.** -/
structure Step (s : Net χ σ) (e : ι × Io χ) (s' : Net χ σ) : Prop where
  local_step : Local (program e.1) (s.proc e.1) e.2 (s'.proc e.1)
  frame : ∀ j, j ≠ e.1 → s'.proc j = s.proc j
  flow : ∀ c, s.chan c ++ (writes c [e.2]).flatten = (reads c [e.2]).flatten ++ s'.chan c
  eof : ∀ c, e.2 = .read c [] → s.writers c = 0
  drained : ∀ c size next, program e.1 (s.proc e.1) = .read c size next → e.2 = .read c [] →
    s.chan c = []
  fgets : ∀ c size next bytes, program e.1 (s.proc e.1) = .fgets c size next →
    e.2 = .read c bytes → bytes = PosixNet.fgets (size - 1) (s.chan c)
  closed : ∀ c, s'.writers c = if e.2 = .close c then s.writers c - 1 else s.writers c

section
variable {program} {s s' s₀ : Net χ σ} {e : ι × Io χ} {tr : List (Net χ σ × (ι × Io χ))}

omit [DecidableEq χ] in
/-- A process that has moved, as it sees it itself. -/
theorem local_update {i : ι} {e : Io χ} {x : σ i} (h : Local (program i) (s.proc i) e x) :
    Local (program i) (s.proc i) e (Function.update s.proc i x i) := by
  rwa [Function.update_self]

/-- A step that is not a read. -/
theorem step_of_not_read {i : ι} {e : Io χ} {x : σ i} {chan : χ → List Byte} {writers : χ → Nat}
    (hlocal : Local (program i) (s.proc i) e x) (he : ∀ c bytes, e ≠ .read c bytes)
    (hflow : ∀ c, s.chan c ++ (writes c [e]).flatten = (reads c [e]).flatten ++ chan c)
    (hclosed : ∀ c, writers c = if e = .close c then s.writers c - 1 else s.writers c) :
    Step program s (i, e) ⟨Function.update s.proc i x, chan, writers⟩ where
  local_step := local_update hlocal
  frame _ hj := Function.update_of_ne hj _ _
  flow := hflow
  eof c hread := absurd hread (he c [])
  drained c _ _ _ hread := absurd hread (he c [])
  fgets c _ _ bytes _ hread := absurd hread (he c bytes)
  closed := hclosed

/-- `Step` is all that `exec` does. -/
theorem exec_step {a : ι × Nat} (h : exec program a s = some (e, s')) : Step program s e s' := by
  obtain ⟨i, n⟩ := a
  rw [exec] at h
  cases hcall : program i (s.proc i) with
  | read c size next =>
    simp only [hcall] at h
    split at h
    · rename_i hn
      obtain ⟨rfl, rfl⟩ := Prod.mk.inj (Option.some.inj h)
      have hlen : ((s.chan c).take n).length = n := by
        rw [List.length_take, Nat.min_eq_left hn.2.1]
      have hempty : ∀ c', Io.read c ((s.chan c).take n) = .read c' [] →
          s.chan c' = [] ∧ s.writers c' = 0 := by
        intro c' he
        obtain ⟨rfl, hbytes⟩ := Io.read.inj he
        rw [hbytes, List.length_nil] at hlen
        exact hn.2.2 hlen.symm
      refine ⟨local_update (.read hcall _ (by omega)), fun j hj => Function.update_of_ne hj _ _,
        flow_read s.chan c rfl, fun c' he => (hempty c' he).2,
        fun c' _ _ _ he => (hempty c' he).1, ?_, fun c' => rfl⟩
      intro c' size' next' bytes h'
      rw [hcall] at h'
      cases h'
    · cases h
  | fgets c size next =>
    simp only [hcall] at h
    split at h
    · rename_i hwriters
      obtain ⟨rfl, rfl⟩ := Prod.mk.inj (Option.some.inj h)
      refine ⟨local_update (.fgets hcall _ (fgets_length_le _ _)),
        fun j hj => Function.update_of_ne hj _ _,
        flow_read s.chan c (List.prefix_iff_eq_take.mp (prefix_fgets _ _)), ?_, ?_, ?_,
        fun c' => rfl⟩
      · intro c' he
        rw [← (Io.read.inj he).1]
        exact hwriters
      · intro c' size' next' h'
        rw [hcall] at h'
        cases h'
      · intro c' size' next' bytes h' he
        rw [hcall] at h'
        obtain ⟨rfl, rfl, -⟩ := Call.fgets.inj h'
        exact (Io.read.inj he).2.symm
    · cases h
  | write c bytes next =>
    simp only [hcall] at h
    obtain ⟨rfl, rfl⟩ := Prod.mk.inj (Option.some.inj h)
    refine step_of_not_read (.write hcall) ?_ (flow_write s.chan c bytes) fun c' => rfl
    intro c' bytes' he
    cases he
  | close c next =>
    simp only [hcall] at h
    obtain ⟨rfl, rfl⟩ := Prod.mk.inj (Option.some.inj h)
    refine step_of_not_read (.close hcall) ?_ (fun c' => ?_) fun c' => ?_
    · intro c' bytes' he
      cases he
    · rw [reads_close, writes_close]
      exact List.append_nil _
    · by_cases hc : c' = c
      · subst hc
        simp
      · simp [hc, Ne.symm hc]
  | stop =>
    simp only [hcall] at h
    cases h

theorem step_of_stepOf (h : stepOf (exec program) s e s') : Step program s e s' := by
  obtain ⟨a, ha⟩ := h
  exact exec_step ha

/-- **A network that stands still.**  A process that has a call to make waits for bytes
that somebody may still write. -/
theorem terminal_cases (h : Terminal (stepOf (exec program)) s) (i : ι) :
    program i (s.proc i) = .stop ∨
    (∃ c size next, program i (s.proc i) = .read c size next ∧
      (0 < size → s.chan c = [] ∧ s.writers c ≠ 0)) ∨
    (∃ c size next, program i (s.proc i) = .fgets c size next ∧ s.writers c ≠ 0) := by
  have hstuck : ∀ n, exec program (i, n) s = none := fun n =>
    Option.eq_none_iff_forall_ne_some.mpr fun x hx => h x.1 x.2 ⟨(i, n), hx⟩
  cases hcall : program i (s.proc i) with
  | stop => exact .inl rfl
  | read c size next =>
    refine .inr (.inl ⟨c, size, next, rfl, fun hsize => ?_⟩)
    simp only [exec, hcall, ite_eq_right_iff, reduceCtorEq, imp_false] at hstuck
    have hempty : s.chan c = [] := by
      by_contra hne
      exact hstuck 1 ⟨hsize, List.length_pos_iff.mpr hne, fun h1 => absurd h1 Nat.one_ne_zero⟩
    exact ⟨hempty, fun hclosed =>
      hstuck 0 ⟨Nat.zero_le _, Nat.zero_le _, fun _ => ⟨hempty, hclosed⟩⟩⟩
  | fgets c size next =>
    refine .inr (.inr ⟨c, size, next, rfl, ?_⟩)
    simp only [exec, hcall, ite_eq_right_iff, reduceCtorEq, imp_false] at hstuck
    exact hstuck 0
  | write c bytes next =>
    have hnone := hstuck 0
    simp only [exec, hcall, reduceCtorEq] at hnone
  | close c next =>
    have hnone := hstuck 0
    simp only [exec, hcall, reduceCtorEq] at hnone

end

/-! ### Runs -/

section
variable {program} {s s' s₀ : Net χ σ} {tr : List (Net χ σ × (ι × Io χ))}

/-- **Conservation.**  What was in a channel and what was put into it has been taken out
of it or is still there. -/
theorem flow_run (run : Run (stepOf (exec program)) s₀ tr s) (c : χ) :
    s₀.chan c ++ (writes c (events tr)).flatten =
      (reads c (events tr)).flatten ++ s.chan c := by
  induction run with
  | nil => simp
  | @snoc tr u u' e _ h ih =>
    have hstep := (step_of_stepOf h).flow c
    rw [events_append, events_singleton, writes_append, reads_append, List.flatten_append,
      List.flatten_append, ← List.append_assoc, ih, List.append_assoc, hstep, List.append_assoc]

/-- As long as a channel is open for writing, a read from it returns something. -/
theorem reads_ne_nil (run : Run (stepOf (exec program)) s₀ tr s) {c : χ}
    (hopen : ∀ x ∈ tr, x.1.writers c ≠ 0) : ∀ bytes ∈ reads c (events tr), bytes ≠ [] := by
  induction run with
  | nil => exact fun bytes h => nomatch h
  | @snoc tr u u' e _ h ih =>
    intro bytes hmem
    rw [events_append, events_singleton, reads_append] at hmem
    rcases List.mem_append.mp hmem with hmem | hmem
    · exact ih (fun x hx => hopen x (List.mem_append_left _ hx)) bytes hmem
    · rintro rfl
      have he : Io.read c [] = e.2 := List.mem_singleton.mp (mem_reads.mp hmem)
      exact hopen (u, e) (by simp) ((step_of_stepOf h).eof c he.symm)

/-- **The run of one process** within a run of the network. -/
theorem local_run (run : Run (stepOf (exec program)) s₀ tr s) (i : ι) :
    ∃ tr', Run (Local (program i)) (s₀.proc i) tr' (s.proc i) ∧
      labels tr' = byThread i (labels tr) := by
  refine ⟨_, Run.project (f := fun u : Net χ σ => u.proc i)
    (g := fun e : ι × Io χ => if e.1 = i then some e.2 else none) ?_ ?_ run, ?_⟩
  · intro u e u' d h hg
    split at hg
    · rename_i hi
      subst hi
      rw [← Option.some.inj hg]
      exact (step_of_stepOf h).local_step
    · cases hg
  · intro u e u' h hg
    split at hg
    · cases hg
    · rename_i hi
      exact (step_of_stepOf h).frame i (Ne.symm hi)
  · rw [byThread_eq_filterMap]
    exact labels_filterMap (fun u : Net χ σ => u.proc i)
      (fun e : ι × Io χ => if e.1 = i then some e.2 else none) tr

omit [DecidableEq ι] in
/-- A run can be cut in front of each of its reads. -/
theorem exists_read {c : χ} {k : Nat} (h : k < (reads c (events tr)).length) :
    ∃ pre u i bytes post, tr = pre ++ (u, (i, .read c bytes)) :: post ∧
      (reads c (events pre)).length = k := by
  induction tr generalizing k with
  | nil => exact absurd h (Nat.not_lt_zero k)
  | cons x tr ih =>
    obtain ⟨u, i, e⟩ := x
    rw [events_cons, reads_cons, List.length_append] at h
    by_cases he : ∃ bytes, e = .read c bytes
    · obtain ⟨bytes, rfl⟩ := he
      rw [reads_read, List.length_singleton] at h
      cases k with
      | zero => exact ⟨[], u, i, bytes, tr, rfl, rfl⟩
      | succ k =>
        obtain ⟨pre, u', i', bytes', post, rfl, hk⟩ := ih (k := k) (by omega)
        refine ⟨(u, i, .read c bytes) :: pre, u', i', bytes', post, rfl, ?_⟩
        rw [events_cons, reads_cons, List.length_append, reads_read, List.length_singleton, hk,
          Nat.add_comm]
    · have hnil : reads c [e] = [] :=
        List.eq_nil_iff_forall_not_mem.mpr fun bytes hmem =>
          he ⟨bytes, (List.mem_singleton.mp (mem_reads.mp hmem)).symm⟩
      rw [hnil, List.length_nil, Nat.zero_add] at h
      obtain ⟨pre, u', i', bytes', post, rfl, hk⟩ := ih h
      refine ⟨(u, i, e) :: pre, u', i', bytes', post, rfl, ?_⟩
      rw [events_cons, reads_cons, hnil]
      exact hk

/-- A channel that nobody has open for writing stays so. -/
theorem writers_eq_zero (run : Run (stepOf (exec program)) s₀ tr s) {c : χ}
    (h₀ : s₀.writers c = 0) : s.writers c = 0 := by
  refine run.preserves (I := fun u : Net χ σ => u.writers c = 0) h₀ ?_
  intro u e u' hu h
  rw [(step_of_stepOf h).closed c, hu, Nat.zero_sub, ite_self]

/-- From a channel nobody takes from, nothing is read. -/
theorem reads_eq_nil {c : χ} (run : Run (stepOf (exec program)) s₀ tr s)
    (h : ∀ i x, ¬ (program i x).Takes c) : reads c (events tr) = [] := by
  refine List.eq_nil_iff_forall_not_mem.mpr fun bytes hmem => ?_
  obtain ⟨x, hx, he⟩ := List.mem_map.mp (mem_reads.mp hmem)
  obtain ⟨y, hy, rfl⟩ := List.mem_map.mp hx
  obtain ⟨-, -, s', -, -, hstep, -⟩ := run.of_mem hy
  have hlocal := (step_of_stepOf hstep).local_step
  rw [he] at hlocal
  exact h _ _ hlocal.takes

/-- To a channel nobody puts into, nothing is written. -/
theorem writes_eq_nil {c : χ} (run : Run (stepOf (exec program)) s₀ tr s)
    (h : ∀ i x, ¬ (program i x).Puts c) : writes c (events tr) = [] := by
  refine List.eq_nil_iff_forall_not_mem.mpr fun bytes hmem => ?_
  obtain ⟨x, hx, he⟩ := List.mem_map.mp (mem_writes.mp hmem)
  obtain ⟨y, hy, rfl⟩ := List.mem_map.mp hx
  obtain ⟨-, -, s', -, -, hstep, -⟩ := run.of_mem hy
  have hlocal := (step_of_stepOf hstep).local_step
  rw [he] at hlocal
  exact h _ _ hlocal.puts

/-- Where one process only takes from a channel, the reads are its reads. -/
theorem reads_byThread {i : ι} {c : χ} (run : Run (stepOf (exec program)) s₀ tr s)
    (hown : ∀ j x, (program j x).Takes c → j = i) :
    reads c (byThread i (labels tr)) = reads c (events tr) := by
  induction run with
  | nil => rfl
  | @snoc tr u u' e _ h ih =>
    obtain ⟨j, e⟩ := e
    rw [labels_append, byThread_append, reads_append, ih, events_append, reads_append]
    congr 1
    by_cases hj : j = i
    · subst hj
      exact congrArg (reads c) (byThread_self j e)
    · rw [labels_cons, labels_nil, byThread_of_ne hj, reads_nil, events_singleton]
      have hlocal : Local (program j) _ e _ := (step_of_stepOf h).local_step
      cases e with
      | read c' bytes =>
        exact (reads_of_ne (fun hc => hj (hown j _ (hc ▸ hlocal.takes))) bytes).symm
      | write => rfl
      | close => rfl

/-- Where one process only puts into a channel, the writes are its writes. -/
theorem writes_byThread {i : ι} {c : χ} (run : Run (stepOf (exec program)) s₀ tr s)
    (hown : ∀ j x, (program j x).Puts c → j = i) :
    writes c (byThread i (labels tr)) = writes c (events tr) := by
  induction run with
  | nil => rfl
  | @snoc tr u u' e _ h ih =>
    obtain ⟨j, e⟩ := e
    rw [labels_append, byThread_append, writes_append, ih, events_append, writes_append]
    congr 1
    by_cases hj : j = i
    · subst hj
      exact congrArg (writes c) (byThread_self j e)
    · rw [labels_cons, labels_nil, byThread_of_ne hj, writes_nil, events_singleton]
      have hlocal : Local (program j) _ e _ := (step_of_stepOf h).local_step
      cases e with
      | read => rfl
      | write c' bytes =>
        exact (writes_of_ne (fun hc => hj (hown j _ (hc ▸ hlocal.puts))) bytes).symm
      | close => rfl

end

end Net

end PosixNet
