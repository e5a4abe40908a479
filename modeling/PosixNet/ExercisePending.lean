import Mathlib.Data.List.Defs
import Mathlib.Data.List.Forall2
import PosixNet.ExerciseLeaks

/-!
# `exercise`: the echo that is pending

`esize` and `ebuffer` are what `newConnection` remembers of the reads before.  At every
head of its loop they belong to the last read that is no comment, C or F command
(`active`): if that is an E read, they hold its length and its bytes, and else there is
nothing to be echoed (`PendingEcho`).

So `echoer` is called where an E read is followed, among these reads, by another one or
by a read that is no command (`flushes`): once for each, and in their order.
**`pending_echo`** says both, for every session that copies inside of its arrays.
-/
namespace PosixNet.Exercise

/-- The reads that are no comment, C or F command. -/
def active (ds : List Delivery) : List Delivery :=
  ds.filter fun d => ¬ (commandOf d.bytes).Aside

/-- A read on which a pending line is sent. -/
def Command.Flushes (k : Command) : Prop := k = .echo ∨ k = .other

instance (k : Command) : Decidable k.Flushes := inferInstanceAs (Decidable (_ ∨ _))

/-- The E reads that are followed by an E read or by a read that is no command, with
nothing but comments, C and F commands in between, each with the read that follows it. -/
def flushes (ds : List Delivery) : List (Delivery × Delivery) :=
  (active ds).consecutivePairs.filter fun x =>
    commandOf x.1.bytes = .echo ∧ (commandOf x.2.bytes).Flushes

/-- What each call of `echoer` wrote. -/
def echoerCalls (writes : List Write) : List (List Byte) :=
  writes.filterMap fun
    | .echoer bytes => some bytes
    | _ => none

/-- A call of `echoer` with this E read as its line, and with the length of it and of
the read that follows it. -/
structure EchoOf (x : Delivery × Delivery) (bytes : List Byte) : Prop where
  line : x.1.bytes.map toupper <+: bytes
  size : bytes.length = x.1.bytes.length + x.2.bytes.length

/-- The head `c` of the loop, reached from `start` with these reads. -/
structure PendingEcho (SRCPATH : List Byte) (start : Conn) (front : List Delivery) (c : Conn) :
    Prop where
  pending : 0 < c.esize ↔ ∃ p, (active front).getLast? = some p ∧ commandOf p.bytes = .echo
  line : ∀ p, (active front).getLast? = some p → commandOf p.bytes = .echo →
    c.esize = p.bytes.length ∧ p.bytes <+: c.ebuffer.bytes
  /-- What has been read since the E read has changed nothing. -/
  since : ∀ front' p asides, front = front' ++ p :: asides → commandOf p.bytes = .echo →
    (∀ d ∈ asides, (commandOf d.bytes).Aside) →
      ∃ c', headAfter SRCPATH start (front' ++ [p]) = .ok c' ∧ c.esize = c'.esize ∧
        c.ebuffer = c'.ebuffer
  calls : List.Forall₂ EchoOf (flushes front)
    (echoerCalls (newConnection SRCPATH start front).writes)

variable {SRCPATH w : List Byte} {c c' start : Conn} {d p : Delivery} {front ds : List Delivery}
  {buffer ebuffer : CArray (MAXBUFFER + 1)}

/-! ## What is pending, and what is sent, of the reads -/

theorem active_append (ds ds' : List Delivery) : active (ds ++ ds') = active ds ++ active ds' :=
  List.filter_append _ _

theorem active_aside (h : (commandOf d.bytes).Aside) : active [d] = [] := by simp [active, h]

theorem active_not_aside (h : ¬ (commandOf d.bytes).Aside) : active [d] = [d] := by
  simp [active, h]

/-- The pairs of neighbours of a list, with one element more. -/
theorem consecutivePairs_concat {α : Type} (xs : List α) (x : α) :
    (xs ++ [x]).consecutivePairs = xs.consecutivePairs ++ (xs.getLast?.map (·, x)).toList := by
  induction xs with
  | nil => rfl
  | cons y ys ih =>
    cases ys with
    | nil => rfl
    | cons z zs =>
      rw [List.getLast?_cons_cons]
      exact congrArg ((y, z) :: ·) ih

/-- **The E read that is pending** is the last of the active reads, if that is one. -/
theorem pendingRead_eq (front : List Delivery) : pendingRead front =
    (active front).getLast?.filter fun p => commandOf p.bytes = .echo := by
  induction front using List.reverseRecOn with
  | nil => rfl
  | append_singleton front d ih =>
    rw [pendingRead_concat, nowPending, active_append]
    cases hcmd : commandOf d.bytes with
    | comment | code | file =>
      rw [active_aside (by rw [hcmd]; decide), List.append_nil]
      exact ih
    | echo | accept | quit | other =>
      rw [active_not_aside (by rw [hcmd]; decide), List.getLast?_concat]
      simp [Option.filter_some, hcmd]

theorem pendingRead_eq_some_iff : pendingRead front = some p ↔
    (active front).getLast? = some p ∧ commandOf p.bytes = .echo := by
  rw [pendingRead_eq, Option.filter_eq_some_iff, decide_eq_true_iff]

/-- What one read more adds. -/
theorem flushes_concat (front : List Delivery) (d : Delivery) : flushes (front ++ [d]) =
    flushes front ++
      if (commandOf d.bytes).Flushes then ((pendingRead front).map (·, d)).toList else [] := by
  rw [flushes, active_append, flushes]
  by_cases haside : (commandOf d.bytes).Aside
  · have hcmd : ¬ (commandOf d.bytes).Flushes := by
      rcases haside with h | h | h <;> rw [h] <;> decide
    rw [active_aside haside, List.append_nil, if_neg hcmd, List.append_nil]
  · rw [active_not_aside haside, consecutivePairs_concat, List.filter_append, pendingRead_eq]
    congr 1
    cases (active front).getLast? with
    | none => simp
    | some p =>
      by_cases hecho : commandOf p.bytes = .echo <;>
        by_cases hcmd : (commandOf d.bytes).Flushes <;> simp [Option.filter_some, hecho, hcmd]

/-! ## One read -/

@[simp] theorem echoerCalls_append (ws ws' : List Write) :
    echoerCalls (ws ++ ws') = echoerCalls ws ++ echoerCalls ws' := List.filterMap_append

/-- An E command that is handled has its bytes at the front of `ebuffer`. -/
theorem ebuffer_of_echo (hcmd : commandOf d.bytes = .echo) (hd : NulFree d.bytes)
    (h : (handle SRCPATH c d).2 = .ok c') : d.bytes <+: c'.ebuffer.bytes := by
  obtain ⟨e, hkeep⟩ : ∃ e, keep d (received c.buffer d) e = .ok c' := by
    simp only [handle, hcmd, onEcho] at h
    split at h
    · cases hsent : echoer d.world.echoerBuffer c.ebuffer (c.esize + d.bytes.length) with
      | error f =>
        rw [hsent] at h
        cases h
      | ok sent =>
        rw [hsent] at h
        exact ⟨_, h⟩
    · exact ⟨_, h⟩
  cases hstr : (received c.buffer d).str with
  | error f =>
    rw [keep_error hstr] at hkeep
    cases hkeep
  | ok text =>
    obtain ⟨e', hkeep', hbytes⟩ := @keep_eq text d (received c.buffer d) e hstr
    rw [hkeep'] at hkeep
    obtain ⟨garbage, rfl⟩ := heard_append hd hstr
    rw [← Except.ok.inj hkeep]
    show d.bytes <+: e'.bytes
    rw [hbytes, List.append_assoc]
    exact List.prefix_append _ _

/-- A comment, C or F command leaves `esize` and `ebuffer` alone. -/
theorem aside_keeps (hcmd : (commandOf d.bytes).Aside) (h : (handle SRCPATH c d).2 = .ok c') :
    c'.esize = c.esize ∧ c'.ebuffer = c.ebuffer := by
  obtain ⟨ws, -, ⟨ending, hstep⟩ | hstep⟩ := handle_aside SRCPATH c.buffer hcmd
  · rw [show handle SRCPATH c d = _ from hstep c.ebuffer c.esize] at h
    cases h
  · rw [show handle SRCPATH c d = _ from hstep c.ebuffer c.esize] at h
    rw [← Except.ok.inj h]
    exact ⟨rfl, rfl⟩

/-- With nothing pending, or on a read that is neither an E command nor none, `echoer` is
not called. -/
theorem calls_none (h : (commandOf d.bytes).Flushes → c.esize = 0) :
    echoerCalls (handle SRCPATH c d).1 = [] := by
  cases hcmd : commandOf d.bytes with
  | echo => simp [handle, hcmd, onEcho, h (Or.inl hcmd), echoerCalls]
  | other => simp [handle, hcmd, onOther, h (Or.inr hcmd), echoerCalls]
  | comment | accept | quit => simp [handle, hcmd, onComment, echoerCalls]
  | code =>
    simp only [handle, hcmd, onCode]
    cases getsrcfldr d.world.getsrcfldrBuffer SRCPATH <;> rfl
  | file =>
    simp only [handle, hcmd, onFile]
    cases (received c.buffer d).str <;> rfl

/-- **With an E read pending, an E command and a read that is no command call `echoer`
once.** -/
theorem calls_one (hcmd : (commandOf d.bytes).Flushes) (hp : NulFree p.bytes)
    (hd : NulFree d.bytes) (hsize : c.esize = p.bytes.length) (hline : p.bytes <+: c.ebuffer.bytes)
    (hfit : p.bytes.length + d.bytes.length ≤ MAXBUFFER + 1) :
    ∃ bytes, echoerCalls (handle SRCPATH c d).1 = [bytes] ∧ EchoOf (p, d) bytes := by
  obtain ⟨x, hx⟩ := hline
  rcases hcmd with hcmd | hcmd
  · rw [handle_echo_line hcmd hp p.length_pos hsize hx.symm hfit]
    exact ⟨_, rfl, List.prefix_append _ _, by simp [shown]⟩
  · rw [handle_other_line hcmd hp hd p.length_pos hsize hx.symm hfit]
    exact ⟨_, rfl, by simp, by simp⟩

/-! ## The head after some reads -/

theorem head_line (hfree : ∀ d ∈ front, NulFree d.bytes)
    (h : headAfter SRCPATH (.start buffer ebuffer) front = .ok c)
    (hp : pendingRead front = some p) : p.bytes <+: c.ebuffer.bytes := by
  induction front using List.reverseRecOn generalizing c with
  | nil => cases hp
  | append_singleton front d ih =>
    obtain ⟨c₁, hfront, hstep⟩ := headAfter_concat_iff.mp h
    have ih := @ih c₁ (fun d hd => hfree d (List.mem_append_left _ hd)) hfront
    rw [pendingRead_concat, nowPending] at hp
    cases hcmd : commandOf d.bytes with
    | echo =>
      rw [hcmd] at hp
      rw [← Option.some.inj hp]
      exact ebuffer_of_echo hcmd (hfree d (by simp)) hstep
    | comment | code | file =>
      rw [hcmd] at hp
      rw [(aside_keeps (by rw [hcmd]; decide) hstep).2]
      exact ih hp
    | accept | quit | other =>
      rw [hcmd] at hp
      cases hp

/-- Comments, C and F commands leave `esize` and `ebuffer` alone. -/
theorem asides_keep (hds : ∀ d ∈ ds, (commandOf d.bytes).Aside)
    (h : headAfter SRCPATH c ds = .ok c') : c'.esize = c.esize ∧ c'.ebuffer = c.ebuffer := by
  induction ds using List.reverseRecOn generalizing c' with
  | nil =>
    rw [← Except.ok.inj (h : Except.ok c = Except.ok c')]
    exact ⟨rfl, rfl⟩
  | append_singleton ds d ih =>
    obtain ⟨c₁, hfront, hstep⟩ := headAfter_concat_iff.mp h
    obtain ⟨hesize, hebuffer⟩ := ih (fun d hd => hds d (List.mem_append_left _ hd)) hfront
    rw [← hesize, ← hebuffer]
    exact aside_keeps (hds d (by simp)) hstep

/-! ## The calls of `echoer` -/

theorem writes_concat (h : headAfter SRCPATH start front = .ok c) :
    (newConnection SRCPATH start (front ++ [d])).writes =
      (newConnection SRCPATH start front).writes ++ (handle SRCPATH c d).1 := by
  have hlast : (newConnection SRCPATH c [d]).writes = (handle SRCPATH c d).1 := by
    rcases hstep : handle SRCPATH c d with ⟨ws, ending | c'⟩
    · rw [newConnection_error hstep]
    · rw [newConnection_ok hstep]
      exact List.append_nil ws
  obtain ⟨ws, hws⟩ := newConnection_of_head h
  have hfront : (newConnection SRCPATH start front).writes = ws := by
    rw [← List.append_nil front, hws]
    exact List.append_nil ws
  rw [hws, hlast, hfront]

/-- **One read more**: it calls `echoer` if it is to, and only then. -/
theorem calls_step (hpath : NulFree SRCPATH) (hfree : ∀ x ∈ front ++ [d], NulFree x.bytes)
    (hhead : headAfter SRCPATH (.start buffer ebuffer) front = .ok c) (hcopies : CopiesInside c d)
    (h : List.Forall₂ EchoOf (flushes front)
      (echoerCalls (newConnection SRCPATH (.start buffer ebuffer) front).writes)) :
    List.Forall₂ EchoOf (flushes (front ++ [d]))
      (echoerCalls (newConnection SRCPATH (.start buffer ebuffer) (front ++ [d])).writes) := by
  rw [flushes_concat, writes_concat hhead, echoerCalls_append]
  refine List.rel_append h ?_
  have hesize := (headAfter_start hpath hhead).1
  by_cases hcmd : (commandOf d.bytes).Flushes
  · rw [if_pos hcmd]
    cases hp : pendingRead front with
    | none =>
      rw [calls_none fun _ => by rw [hesize, hp]; rfl]
      exact .nil
    | some p =>
      rw [hp, pendingLength] at hesize
      have hline := head_line (fun x hx => hfree x (List.mem_append_left _ hx)) hhead hp
      have hfit := (copiesInside_iff.mp hcopies).1 hcmd (by rw [hesize]; exact p.length_pos)
      rw [hesize] at hfit
      obtain ⟨bytes, hcalls, hecho⟩ := @calls_one SRCPATH c d p hcmd
        (hfree p (List.mem_append_left _ (mem_of_pendingRead hp))) (hfree d (by simp)) hesize
        hline hfit
      rw [hcalls]
      exact .cons hecho .nil
  · rw [if_neg hcmd, calls_none fun h => absurd h hcmd]
    exact .nil

/-- At every head of the loop `echoer` has been called for every pair of reads that is to
be echoed. -/
theorem calls_of_head (hpath : NulFree SRCPATH) (hfree : ∀ d ∈ front, NulFree d.bytes)
    (h : headAfter SRCPATH (.start buffer ebuffer) front = .ok c) :
    List.Forall₂ EchoOf (flushes front)
      (echoerCalls (newConnection SRCPATH (.start buffer ebuffer) front).writes) := by
  induction front using List.reverseRecOn generalizing c with
  | nil => exact .nil
  | append_singleton front d ih =>
    obtain ⟨c₁, hfront, hstep⟩ := headAfter_concat_iff.mp h
    have hcopies : CopiesInside c₁ d := by
      by_contra hcopies
      rw [handle_of_not_copiesInside hcopies] at hstep
      cases hstep
    exact calls_step hpath hfree hfront hcopies
      (ih (fun d hd => hfree d (List.mem_append_left _ hd)) hfront)

/-- A session handles all of its reads, or ends with one of them. -/
theorem session_cases (start : Conn) (ds : List Delivery) :
    (∃ c, headAfter SRCPATH start ds = .ok c ∧ (newConnection SRCPATH start ds).reads = ds.length) ∨
    ∃ front d rest c, ds = front ++ d :: rest ∧ headAfter SRCPATH start front = .ok c ∧
      (newConnection SRCPATH start ds).reads = front.length + 1 ∧
      (newConnection SRCPATH start ds).writes =
        (newConnection SRCPATH start (front ++ [d])).writes := by
  induction ds generalizing start with
  | nil => exact Or.inl ⟨start, rfl, rfl⟩
  | cons d ds ih =>
    rcases hstep : handle SRCPATH start d with ⟨ws, ending | c⟩
    · refine Or.inr ⟨[], d, ds, start, rfl, rfl, ?_, ?_⟩
      · rw [newConnection_error hstep]
        rfl
      · rw [List.nil_append, newConnection_error hstep, newConnection_error hstep]
    · have hhead : ∀ front, headAfter SRCPATH start (d :: front) = headAfter SRCPATH c front := by
        intro front
        rw [← List.singleton_append, headAfter_append, headAfter_singleton, hstep]
        rfl
      rcases ih c with ⟨c', hc', hreads⟩ | ⟨front, d', rest, c', rfl, hc', hreads, hwrites⟩
      · refine Or.inl ⟨c', (hhead ds).trans hc', ?_⟩
        rw [newConnection_ok hstep, List.length_cons, hreads]
      · refine Or.inr ⟨d :: front, d', rest, c', rfl, (hhead front).trans hc', ?_, ?_⟩
        · rw [newConnection_ok hstep, List.length_cons, hreads]
        · rw [newConnection_ok hstep, List.cons_append, newConnection_ok hstep, hwrites]

/-- **The head of the loop** holds the E read that is pending. -/
theorem pendingEcho_of_head (hpath : NulFree SRCPATH) (hfree : ∀ d ∈ front, NulFree d.bytes)
    (h : headAfter SRCPATH (.start buffer ebuffer) front = .ok c) :
    PendingEcho SRCPATH (.start buffer ebuffer) front c := by
  have hesize := (headAfter_start hpath h).1
  refine ⟨?_, ?_, ?_, calls_of_head hpath hfree h⟩
  · rw [hesize]
    simp only [← pendingRead_eq_some_iff]
    cases pendingRead front with
    | none => simp [pendingLength]
    | some p => simpa [pendingLength] using p.length_pos
  · intro p hlast hcmd
    have hp := pendingRead_eq_some_iff.mpr ⟨hlast, hcmd⟩
    rw [hp, pendingLength] at hesize
    exact ⟨hesize, head_line hfree h hp⟩
  · rintro front' p asides rfl - hasides
    rw [← List.singleton_append, ← List.append_assoc, headAfter_append] at h
    cases hc' : headAfter SRCPATH (.start buffer ebuffer) (front' ++ [p]) with
    | error ending =>
      rw [hc'] at h
      cases h
    | ok c' =>
      rw [hc'] at h
      exact ⟨c', rfl, asides_keep hasides h⟩

/-- A session as a whole calls `echoer` as its heads do: its last read too. -/
theorem calls_of_session (hpath : NulFree SRCPATH) (hfree : ∀ d ∈ ds, NulFree d.bytes)
    (hinside : Inside SRCPATH (.start buffer ebuffer) ds) :
    List.Forall₂ EchoOf
      (flushes (ds.take (newConnection SRCPATH (.start buffer ebuffer) ds).reads))
      (echoerCalls (newConnection SRCPATH (.start buffer ebuffer) ds).writes) := by
  rcases @session_cases SRCPATH (.start buffer ebuffer) ds with
    ⟨c, hc, hreads⟩ | ⟨front, d, rest, c, hds, hc, hreads, hwrites⟩
  · rw [hreads, List.take_length]
    exact calls_of_head hpath hfree hc
  · have htake : ds.take (front.length + 1) = front ++ [d] := by
      rw [hds, List.take_length_add_append]
      rfl
    have hfree : ∀ x ∈ front ++ [d], NulFree x.bytes := fun x hx => by
      rw [← htake] at hx
      exact hfree x (List.mem_of_mem_take hx)
    rw [hreads, htake, hwrites]
    exact calls_step hpath hfree hc (hinside front d rest hds c hc)
      (calls_of_head hpath (fun x hx => hfree x (List.mem_append_left _ hx)) hc)

/-- **The pending echo.**  In every session that copies inside of its arrays `esize` and
`ebuffer` hold, at every head of the loop, the E read that is pending, and `echoer` is
called once for every E read that is followed by an E read or a read that is no command,
with nothing but comments, C and F commands in between, and never else. -/
theorem pending_echo (hpath : NulFree SRCPATH) (hfree : ∀ d ∈ ds, NulFree d.bytes)
    (hinside : Inside SRCPATH (.start buffer ebuffer) ds) :
    (∀ front rest c, ds = front ++ rest →
      headAfter SRCPATH (.start buffer ebuffer) front = .ok c →
        PendingEcho SRCPATH (.start buffer ebuffer) front c) ∧
    List.Forall₂ EchoOf
      (flushes (ds.take (newConnection SRCPATH (.start buffer ebuffer) ds).reads))
      (echoerCalls (newConnection SRCPATH (.start buffer ebuffer) ds).writes) := by
  refine ⟨?_, calls_of_session hpath hfree hinside⟩
  rintro front rest c rfl hc
  exact pendingEcho_of_head hpath (fun d hd => hfree d (List.mem_append_left _ hd)) hc

/-- Two E reads with a comment in between, and a read that is no command. -/
def twoEchoes : List Delivery :=
  [.said "E one\n", .said "# wait\n", .said "E two\n", .said "three\n"]

theorem pending_echo_two_echoes :
    (∃ c, headAfter (ascii "server.c") (.start (.zero _) (.zero _)) (twoEchoes.take 2) = .ok c ∧
      c.esize = 6 ∧ ascii "E one\n" <+: c.ebuffer.bytes) ∧
    List.Forall₂ EchoOf
      [(.said "E one\n", .said "E two\n"), (.said "E two\n", .said "three\n")]
      [ascii "E ONE\n" ++ [0, 0, 0, 0, 0, 0], ascii "E TWO\nTHREE\n"] := by
  obtain ⟨hheads, hcalls⟩ := @pending_echo (ascii "server.c") twoEchoes (.zero _) (.zero _)
    (by decide) (by decide) (inside_of_ending (by decide +kernel))
  constructor
  · cases hc : headAfter (ascii "server.c") (.start (.zero _) (.zero _)) (twoEchoes.take 2) with
    | error ending =>
      have hok : (headAfter (ascii "server.c") (.start (.zero _) (.zero _))
          (twoEchoes.take 2)).isOk = true := by decide +kernel
      rw [hc] at hok
      cases hok
    | ok c => exact ⟨c, rfl, (hheads _ _ c rfl hc).line (.said "E one\n") rfl rfl⟩
  · have hreads : (newConnection (ascii "server.c") (.start (.zero _) (.zero _))
        twoEchoes).reads = 4 := by decide +kernel
    have hwrites : echoerCalls (newConnection (ascii "server.c") (.start (.zero _) (.zero _))
        twoEchoes).writes = [ascii "E ONE\n" ++ [0, 0, 0, 0, 0, 0], ascii "E TWO\nTHREE\n"] := by
      decide +kernel
    rw [hreads, hwrites] at hcalls
    exact hcalls

end PosixNet.Exercise
