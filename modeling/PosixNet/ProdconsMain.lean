import PosixNet.ProdconsChecks

/-!
# `prodcons6` with several consumers: `main` and the printed counts

`main` (lines 29–60) creates the threads round by round, giving each a pointer to
a counter, then joins them round by round and prints the counters.  Both threads
of round `i` get `&count[i]` (`produceArg`, `consumeArg`), so `ccount[i]` is
written once, by `main`, and the consumer's `*((int *)arg) -= 1` goes into the
producer's counter.

A step of the program is a step of `main` or of a thread that exists
(`Program.step`); forgetting `main` and the counters, a run of the program is a run
of the pool (`poolRun`), to which everything proved of the pool applies.  The
`ccount` column is all zeros (`ccountColumn_eq`), so no run that ends accounts for
its items (`not_accounted`).
-/
namespace PosixNet.Prodcons6

/-- The arrays of `main`. -/
inductive Cell (nthreads : Nat) where
  | count (i : Fin nthreads)
  | ccount (i : Fin nthreads)
  deriving DecidableEq

variable {nthreads : Nat}

/-- Line 45: the argument of the `i`-th `produce` thread. -/
def produceArg (i : Fin nthreads) : Cell nthreads := .count i

/-- Line 46: the argument of the `i`-th `consume` thread. -/
def consumeArg (i : Fin nthreads) : Cell nthreads := .count i

/-- Where `main` is.  `createProduce` and `joinProduce` are the heads of its loops. -/
inductive MainPc (nthreads : Nat) where
  | createProduce (i : Nat)
  | createConsume (i : Fin nthreads)
  | joinProduce (i : Nat)
  | printCount (i : Fin nthreads)
  | joinConsume (i : Fin nthreads)
  | printCcount (i : Fin nthreads)
  | exited
  deriving DecidableEq

/-- `main`, the threads, and the cells that `main` prints. -/
structure Program (nthreads : Nat) where
  pc : MainPc nthreads
  pool : Pool nthreads nthreads
  cell : Cell nthreads → Int

/-- What happened in the whole program. -/
inductive MainEvent (nthreads : Nat) where
  /-- A thread did something. -/
  | thread (e : Event nthreads nthreads)
  /-- `main` moved on without printing. -/
  | quiet
  /-- Line 53. -/
  | printedCount (i : Fin nthreads) (v : Int)
  /-- Line 56. -/
  | printedCcount (i : Fin nthreads) (v : Int)
  deriving DecidableEq

/-- The scheduler runs `main` or a thread. -/
inductive MainAct (nthreads : Nat) where
  | main
  | thread (a : Act nthreads nthreads)

/-- The number of `produce` threads created so far. -/
def MainPc.producers : MainPc nthreads → Nat
  | .createProduce i => i
  | .createConsume i => i + 1
  | _ => nthreads

/-- The number of `consume` threads created so far. -/
def MainPc.consumers : MainPc nthreads → Nat
  | .createProduce i => i
  | .createConsume i => i
  | _ => nthreads

/-- The thread of a choice has been created. -/
def MainPc.Created (pc : MainPc nthreads) : Act nthreads nthreads → Prop
  | .produce p _ => p < pc.producers
  | .consume c _ => c < pc.consumers
  | .awake c => c < pc.consumers

instance (pc : MainPc nthreads) : (a : Act nthreads nthreads) → Decidable (pc.Created a)
  | .produce _ _ | .consume _ _ | .awake _ => inferInstanceAs (Decidable (_ < _))

/-- The effect of a thread's step on the counter its argument points to. -/
def Event.applyArg (e : Event nthreads nthreads) (cell : Cell nthreads → Int) :
    Cell nthreads → Int :=
  match e with
  | .added p => Function.update cell (produceArg p) (cell (produceArg p) + 1)
  | .subtracted c => Function.update cell (consumeArg c) (cell (consumeArg c) - 1)
  | _ => cell

namespace Program

/-- One step of `main`. -/
def main (s : Program nthreads) : Option (MainEvent nthreads × Program nthreads) :=
  match s.pc with
  | .createProduce i =>
    if h : i < nthreads then
      let cell := Function.update (Function.update s.cell (.count ⟨i, h⟩) 0) (.ccount ⟨i, h⟩) 0
      some (.quiet, { s with pc := .createConsume ⟨i, h⟩, cell := cell })
    else some (.quiet, { s with pc := .joinProduce 0 })
  | .createConsume i => some (.quiet, { s with pc := .createProduce (i + 1) })
  | .joinProduce i =>
    if h : i < nthreads then
      if s.pool.producer ⟨i, h⟩ = .returned then
        some (.quiet, { s with pc := .printCount ⟨i, h⟩ })
      else none
    else some (.quiet, { s with pc := .exited })
  | .printCount i => some (.printedCount i (s.cell (.count i)), { s with pc := .joinConsume i })
  | .joinConsume i =>
    if (s.pool.consumer i).pc = .returned then some (.quiet, { s with pc := .printCcount i })
    else none
  | .printCcount i =>
    some (.printedCcount i (s.cell (.ccount i)), { s with pc := .joinProduce (i + 1) })
  | .exited => none

/-- One step of the program. -/
def step (nitems : Nat) (cv : CondVar) :
    MainAct nthreads → Program nthreads → Option (MainEvent nthreads × Program nthreads)
  | .main, s => s.main
  | .thread a, s =>
    if s.pc.Created a then
      (Prodcons6.step nitems cv a s.pool).map fun (e, pool) =>
        (.thread e, { s with pool := pool, cell := e.applyArg s.cell })
    else none

/-- The program before the first iteration of the creation loop; the arrays of `main`
are uninitialised. -/
def start (cell : Cell nthreads → Int) : Program nthreads :=
  ⟨.createProduce 0, initial nthreads nthreads, cell⟩

def Step (nitems : Nat) (cv : CondVar) :
    Program nthreads → MainEvent nthreads → Program nthreads → Prop :=
  stepOf (step nitems cv)

/-! ## The outcomes of a step -/

/-- Everything the program can do in one step. -/
inductive Moves (nitems : Nat) (cv : CondVar) (s : Program nthreads) :
    MainEvent nthreads → Program nthreads → Prop
  | thread (e : Event nthreads nthreads) (pool : Pool nthreads nthreads)
      (h : Prodcons6.Step nitems cv s.pool e pool) :
      Moves nitems cv s (.thread e) { s with pool := pool, cell := e.applyArg s.cell }
  | init (i : Fin nthreads) (hpc : s.pc = .createProduce i) :
      Moves nitems cv s .quiet { s with
        pc := .createConsume i
        cell := Function.update (Function.update s.cell (.count i) 0) (.ccount i) 0 }
  | allCreated (i : Nat) (hpc : s.pc = .createProduce i) (hi : nthreads ≤ i) :
      Moves nitems cv s .quiet { s with pc := .joinProduce 0 }
  | created (i : Fin nthreads) (hpc : s.pc = .createConsume i) :
      Moves nitems cv s .quiet { s with pc := .createProduce (i + 1) }
  | joinedProduce (i : Fin nthreads) (hpc : s.pc = .joinProduce i)
      (hret : s.pool.producer i = .returned) :
      Moves nitems cv s .quiet { s with pc := .printCount i }
  | exit (i : Nat) (hpc : s.pc = .joinProduce i) (hi : nthreads ≤ i) :
      Moves nitems cv s .quiet { s with pc := .exited }
  | printCount (i : Fin nthreads) (hpc : s.pc = .printCount i) :
      Moves nitems cv s (.printedCount i (s.cell (.count i))) { s with pc := .joinConsume i }
  | joinedConsume (i : Fin nthreads) (hpc : s.pc = .joinConsume i)
      (hret : (s.pool.consumer i).pc = .returned) :
      Moves nitems cv s .quiet { s with pc := .printCcount i }
  | printCcount (i : Fin nthreads) (hpc : s.pc = .printCcount i) :
      Moves nitems cv s (.printedCcount i (s.cell (.ccount i)))
        { s with pc := .joinProduce (i + 1) }

variable {nitems : Nat} {cv : CondVar} {s s' : Program nthreads} {e : MainEvent nthreads}

theorem moves_of_main (h : s.main = some (e, s')) : Moves nitems cv s e s' := by
  unfold main at h
  split at h
  · rename_i i hpc
    split at h
    · obtain ⟨rfl, rfl⟩ := Prod.mk.inj (Option.some.inj h)
      exact .init ⟨i, ‹_›⟩ hpc
    · obtain ⟨rfl, rfl⟩ := Prod.mk.inj (Option.some.inj h)
      exact .allCreated i hpc (by omega)
  · obtain ⟨rfl, rfl⟩ := Prod.mk.inj (Option.some.inj h)
    exact .created _ ‹_›
  · rename_i i hpc
    split at h
    · split at h
      · obtain ⟨rfl, rfl⟩ := Prod.mk.inj (Option.some.inj h)
        exact .joinedProduce ⟨i, ‹_›⟩ hpc ‹_›
      · cases h
    · obtain ⟨rfl, rfl⟩ := Prod.mk.inj (Option.some.inj h)
      exact .exit i hpc (by omega)
  · obtain ⟨rfl, rfl⟩ := Prod.mk.inj (Option.some.inj h)
    exact .printCount _ ‹_›
  · split at h
    · obtain ⟨rfl, rfl⟩ := Prod.mk.inj (Option.some.inj h)
      exact .joinedConsume _ ‹_› ‹_›
    · cases h
  · obtain ⟨rfl, rfl⟩ := Prod.mk.inj (Option.some.inj h)
    exact .printCcount _ ‹_›
  · cases h

/-- The inversion lemma of the program. -/
theorem moves_of_step (h : Step nitems cv s e s') : Moves nitems cv s e s' := by
  obtain ⟨a, h⟩ := h
  cases a with
  | main => exact moves_of_main h
  | thread a =>
    simp only [step] at h
    split at h
    · obtain ⟨⟨e', pool⟩, hstep, h⟩ := Option.map_eq_some_iff.mp h
      obtain ⟨rfl, rfl⟩ := Prod.mk.inj h
      exact .thread e' pool ⟨a, hstep⟩
    · cases h

end Program

/-! ## The pool inside the program -/

/-- The event of the threads, if it is one. -/
def MainEvent.thread? : MainEvent nthreads → Option (Event nthreads nthreads)
  | .thread e => some e
  | _ => none

/-- What the threads did in a run of the program. -/
def poolTrace (tr : List (Program nthreads × MainEvent nthreads)) :
    List (Pool nthreads nthreads × Event nthreads nthreads) :=
  tr.filterMap fun x => x.2.thread?.map fun e => (x.1.pool, e)

section Run
variable {nitems : Nat} {cv : CondVar} {s s' : Program nthreads} {cell : Cell nthreads → Int}
  {tr : List (Program nthreads × MainEvent nthreads)}

/-- **A run of the program is a run of the pool.** -/
theorem poolRun (run : Run (Program.Step nitems cv) (Program.start cell) tr s) :
    Run (Step nitems cv) (initial nthreads nthreads) (poolTrace tr) s.pool := by
  refine run.project (f := Program.pool) (fun s e s' d h hd => ?_) fun s e s' h hd => ?_
  · cases Program.moves_of_step h with
    | thread e pool hstep =>
      obtain rfl := Option.some.inj hd
      exact hstep
    | _ => cases hd
  · cases Program.moves_of_step h with
    | thread => cases hd
    | _ => rfl

/-! ## What `main` prints -/

/-- The number of `produce` threads `main` has joined. -/
def MainPc.joinedProducers : MainPc nthreads → Nat
  | .createProduce _ | .createConsume _ => 0
  | .joinProduce i => i
  | .printCount i | .joinConsume i | .printCcount i => i + 1
  | .exited => nthreads

/-- The number of `consume` threads `main` has joined. -/
def MainPc.joinedConsumers : MainPc nthreads → Nat
  | .createProduce _ | .createConsume _ => 0
  | .joinProduce i => i
  | .printCount i | .joinConsume i => i
  | .printCcount i => i + 1
  | .exited => nthreads

theorem Moves.producer_returned {np nc : Nat} {s s' : Pool np nc} {e : Event np nc}
    (h : Moves nitems cv s e s') {p : Fin np} (hp : s.producer p = .returned) :
    s'.producer p = .returned := by
  have hne : ∀ {q pc}, s.producer q = pc → pc ≠ .returned → p ≠ q := by
    rintro q pc hq hpc rfl
    exact hpc (hq.symm.trans hp)
  cases h with
  | full q =>
    by_cases hq : p = q
    · subst hq; simp [Pool.setProducer]
    · simpa [Pool.setProducer, hq] using hp
  | store q hpc | announce q _ hpc | add q hpc =>
    simpa [Pool.setProducer, Pool.wake, hne hpc (by simp)] using hp
  | _ => exact hp

theorem Moves.consumer_returned {np nc : Nat} {s s' : Pool np nc} {e : Event np nc}
    (h : Moves nitems cv s e s') {c : Fin nc} (hc : (s.consumer c).pc = .returned) :
    (s'.consumer c).pc = .returned := by
  have hne : ∀ {d pc}, (s.consumer d).pc = pc → pc ≠ .returned → c ≠ d := by
    rintro d pc hd hpc rfl
    exact hpc (hd.symm.trans hc)
  have hwake : ∀ {woken}, woken ⊆ s.waiters → ((s.wake woken).consumer c).pc = .returned := by
    intro woken hw
    rw [Pool.wake_consumer_of_notMem s fun hmem => ?_]
    · exact hc
    · have := s.mem_waiters.mp (hw hmem)
      rw [hc] at this
      cases this
  cases h with
  | full | store | add => exact hc
  | announce p woken _ hsignal hquiet => exact hwake (woken_subset hsignal hquiet)
  | leave d woken hpc _ hsignal =>
    simpa [Pool.setConsumer, hne hpc (by simp)] using hwake hsignal.subset
  | enter d hpc | exhaust d hpc | sleep d hpc | claim d hpc | check d hpc | awake d _ hpc
  | subtract d hpc =>
    simpa [Pool.setConsumer, hne hpc (by simp)] using hc

/-- The `ccount` column printed so far, in order. -/
def ccountColumn (tr : List (Program nthreads × MainEvent nthreads)) :
    List (Fin nthreads × Int) :=
  (labels tr).filterMap fun
    | .printedCcount i v => some (i, v)
    | _ => none

/-- The `count` column printed so far, in order. -/
def countColumn (tr : List (Program nthreads × MainEvent nthreads)) :
    List (Fin nthreads × Int) :=
  (labels tr).filterMap fun
    | .printedCount i v => some (i, v)
    | _ => none

/-- The rows of the `ccount` column printed so far. -/
def MainPc.rows : MainPc nthreads → Nat
  | .createProduce _ | .createConsume _ => 0
  | .joinProduce i => i
  | .printCount i | .joinConsume i | .printCcount i => i
  | .exited => nthreads

/-- What holds between any two steps of the program. -/
structure Books (tr : List (Program nthreads × MainEvent nthreads)) (s : Program nthreads) :
    Prop where
  zero : ∀ i : Fin nthreads, i < s.pc.producers → s.cell (.ccount i) = 0
  column : ccountColumn tr = ((List.finRange nthreads).take s.pc.rows).map (·, 0)
  producers : ∀ p : Fin nthreads, p < s.pc.joinedProducers → s.pool.producer p = .returned
  consumers : ∀ c : Fin nthreads, c < s.pc.joinedConsumers → (s.pool.consumer c).pc = .returned

theorem books_start (cell : Cell nthreads → Int) : Books [] (Program.start cell) where
  zero := fun i hi => absurd hi (Nat.not_lt_zero _)
  column := by simp [ccountColumn, Program.start, MainPc.rows]
  producers := fun i hi => absurd hi (Nat.not_lt_zero _)
  consumers := fun i hi => absurd hi (Nat.not_lt_zero _)

/-- No thread writes to `ccount`. -/
theorem Event.applyArg_ccount (e : Event nthreads nthreads) (cell : Cell nthreads → Int)
    (i : Fin nthreads) : e.applyArg cell (.ccount i) = cell (.ccount i) := by
  cases e <;> simp [Event.applyArg, produceArg, consumeArg]

theorem ccountColumn_snoc (tr : List (Program nthreads × MainEvent nthreads))
    (s : Program nthreads) (e : MainEvent nthreads) (h : ∀ i v, e ≠ .printedCcount i v) :
    ccountColumn (tr ++ [(s, e)]) = ccountColumn tr := by
  cases e with
  | printedCcount i v => exact absurd rfl (h i v)
  | _ => simp [ccountColumn]

/-- A step that prints no row and joins and creates no thread keeps the books. -/
theorem Books.keep {e : MainEvent nthreads} (hb : Books tr s) (hpool : s'.pool = s.pool)
    (hcell : ∀ i : Fin nthreads, i < s'.pc.producers → s'.cell (.ccount i) = 0)
    (he : ∀ i v, e ≠ .printedCcount i v)
    (hrows : (List.finRange nthreads).take s'.pc.rows = (List.finRange nthreads).take s.pc.rows)
    (hp : ∀ p : Fin nthreads, p < s'.pc.joinedProducers →
      p < s.pc.joinedProducers ∨ s.pool.producer p = .returned)
    (hc : ∀ c : Fin nthreads, c < s'.pc.joinedConsumers →
      c < s.pc.joinedConsumers ∨ (s.pool.consumer c).pc = .returned) :
    Books (tr ++ [(s, e)]) s' where
  zero := hcell
  column := by rw [ccountColumn_snoc tr s e he, hb.column, hrows]
  producers := fun p h => by
    rw [hpool]
    rcases hp p h with h | h
    · exact hb.producers p h
    · exact h
  consumers := fun c h => by
    rw [hpool]
    rcases hc c h with h | h
    · exact hb.consumers c h
    · exact h

theorem Books.move {e : MainEvent nthreads} (hb : Books tr s)
    (h : Program.Moves nitems cv s e s') : Books (tr ++ [(s, e)]) s' := by
  have hzero := hb.zero
  cases h with
  | thread e pool hstep =>
    have hmove := step_iff_moves.mp hstep
    exact {
      zero := fun i hi => (e.applyArg_ccount s.cell i).trans (hzero i hi)
      column := by rw [ccountColumn_snoc tr s _ (by simp)]; exact hb.column
      producers := fun p hp => hmove.producer_returned (hb.producers p hp)
      consumers := fun c hc => hmove.consumer_returned (hb.consumers c hc) }
  | init i hpc =>
    refine hb.keep rfl (fun j hj => ?_) (by simp) (by simp [hpc, MainPc.rows])
      (fun p hp => absurd hp (Nat.not_lt_zero _)) (fun c hc => absurd hc (Nat.not_lt_zero _))
    by_cases hji : j = i
    · subst hji; simp
    · have hj' : (j : Nat) < i + 1 := hj
      have hne : (j : Nat) ≠ i := fun he => hji (Fin.ext he)
      have := hzero j (by rw [hpc]; show (j : Nat) < i; omega)
      simpa [hji] using this
  | allCreated i hpc hi =>
    refine hb.keep rfl (fun j _ => hzero j ?_) (by simp) (by simp [hpc, MainPc.rows])
      (fun p hp => absurd hp (Nat.not_lt_zero _)) (fun c hc => absurd hc (Nat.not_lt_zero _))
    rw [hpc]
    exact Nat.lt_of_lt_of_le j.isLt hi
  | created i hpc =>
    refine hb.keep rfl (fun j hj => hzero j ?_) (by simp) (by simp [hpc, MainPc.rows])
      (fun p hp => absurd hp (Nat.not_lt_zero _)) (fun c hc => absurd hc (Nat.not_lt_zero _))
    rw [hpc]
    exact hj
  | joinedProduce i hpc hret =>
    refine hb.keep rfl (fun j hj => hzero j (by rw [hpc]; exact hj)) (by simp)
      (by simp [hpc, MainPc.rows]) (fun p hp => ?_) (fun c hc => Or.inl (by rw [hpc]; exact hc))
    rw [hpc]
    rcases Nat.lt_succ_iff_lt_or_eq.mp hp with hlt | heq
    · exact Or.inl hlt
    · exact Or.inr (Fin.ext heq ▸ hret)
  | exit i hpc hi =>
    have hlt : ∀ j : Fin nthreads, (j : Nat) < i := fun j => Nat.lt_of_lt_of_le j.isLt hi
    refine hb.keep rfl (fun j _ => hzero j (by rw [hpc]; exact j.isLt)) (by simp) ?_
      (fun p _ => Or.inl (by rw [hpc]; exact hlt p)) (fun c _ => Or.inl (by rw [hpc]; exact hlt c))
    rw [hpc]
    show (List.finRange nthreads).take nthreads = (List.finRange nthreads).take i
    rw [List.take_of_length_le (by simp), List.take_of_length_le (by simpa using hi)]
  | printCount i hpc =>
    exact hb.keep rfl (fun j hj => hzero j (by rw [hpc]; exact hj)) (by simp)
      (by simp [hpc, MainPc.rows]) (fun p hp => Or.inl (by rw [hpc]; exact hp))
      (fun c hc => Or.inl (by rw [hpc]; exact hc))
  | joinedConsume i hpc hret =>
    refine hb.keep rfl (fun j hj => hzero j (by rw [hpc]; exact hj)) (by simp)
      (by simp [hpc, MainPc.rows]) (fun p hp => Or.inl (by rw [hpc]; exact hp)) (fun c hc => ?_)
    rw [hpc]
    rcases Nat.lt_succ_iff_lt_or_eq.mp hc with hlt | heq
    · exact Or.inl hlt
    · exact Or.inr (Fin.ext heq ▸ hret)
  | printCcount i hpc =>
    -- the one step that prints a row: nobody has written to the cell since `main` did
    have hv : s.cell (.ccount i) = 0 := hzero i (by rw [hpc]; exact i.isLt)
    exact {
      zero := fun j hj => hzero j (by rw [hpc]; exact hj)
      column := by
        have hcol : ccountColumn tr = ((List.finRange nthreads).take i).map (·, 0) := by
          rw [hb.column, hpc]
          rfl
        have hnext : (List.finRange nthreads).take (i + 1) =
            (List.finRange nthreads).take i ++ [i] := by
          rw [List.take_add_one]
          simp
        show ccountColumn (tr ++ [(s, .printedCcount i (s.cell (.ccount i)))]) =
          ((List.finRange nthreads).take (i + 1)).map (·, 0)
        rw [hnext, List.map_append, ← hcol, hv]
        simp [ccountColumn]
      producers := fun p hp => hb.producers p (by rw [hpc]; exact hp)
      consumers := fun c hc => hb.consumers c (by rw [hpc]; exact hc) }

theorem books (run : Run (Program.Step nitems cv) (Program.start cell) tr s) : Books tr s :=
  run.invariant (books_start cell) fun _ _ _ _ _ hb h => hb.move (Program.moves_of_step h)

/-- `main` exits when every thread has returned. -/
theorem Books.finished (hb : Books tr s) (hpc : s.pc = .exited) : Finished s.pool :=
  ⟨fun p => hb.producers p (by rw [hpc]; exact p.isLt),
    fun c => hb.consumers c (by rw [hpc]; exact c.isLt)⟩

/-- The whole `ccount` column is zero. -/
theorem ccountColumn_eq (run : Run (Program.Step nitems cv) (Program.start cell) tr s)
    (hpc : s.pc = .exited) : ccountColumn tr = (List.finRange nthreads).map (·, 0) := by
  have hcol := (books run).column
  rw [hpc] at hcol
  simpa [MainPc.rows, List.take_of_length_le] using hcol

/-! ## The columns against what the threads did -/

/-- The number of items producer `p` stored. -/
def storedBy {np nc : Nat} (p : Fin np) (tr : List (Pool np nc × Event np nc)) : Nat :=
  (labels tr).countP fun
    | .stored q _ _ => q = p
    | _ => false

/-- The printed counters account for the items: row by row, and in total. -/
structure Accounted (nitems : Nat) (tr : List (Program nthreads × MainEvent nthreads)) :
    Prop where
  count : countColumn tr =
    (List.finRange nthreads).map fun i => (i, (storedBy i (poolTrace tr) : Int))
  ccount : (ccountColumn tr).map (fun x => (x.1, x.2.natAbs)) =
    (List.finRange nthreads).map fun i => (i, (claimedBy i (poolTrace tr)).length)
  count_sum : ((countColumn tr).map Prod.snd).sum = nitems
  ccount_sum : ((ccountColumn tr).map fun x => x.2.natAbs).sum = nitems

end Run

/-! ## Runs to the end -/

section Complete
variable {nitems : Nat} {cv : CondVar}

theorem reaches_main {s s' t : Program nthreads} {e : MainEvent nthreads}
    (h : s.main = some (e, s')) (ht : Reaches (Program.Step nitems cv) s' t) :
    Reaches (Program.Step nitems cv) s t :=
  .head ⟨.main, h⟩ ht

/-- The creation loop, with the threads it has created not yet scheduled. -/
theorem create_all (pool : Pool nthreads nthreads) (k : Nat) :
    ∀ (i : Nat) (cell : Cell nthreads → Int), i + k = nthreads → ∃ cell',
      Reaches (Program.Step nitems cv) ⟨.createProduce i, pool, cell⟩
        ⟨.joinProduce 0, pool, cell'⟩ := by
  induction k with
  | zero =>
    intro i cell hi
    exact ⟨cell, reaches_main (by simp [Program.main, show ¬ i < nthreads by omega]; rfl) (.refl _)⟩
  | succ k ih =>
    intro i cell hi
    have hlt : i < nthreads := by omega
    let zeroed := Function.update (Function.update cell (.count ⟨i, hlt⟩) 0) (.ccount ⟨i, hlt⟩) 0
    obtain ⟨cell', hrest⟩ := ih (i + 1) zeroed (by omega)
    have hinit : Program.main ⟨.createProduce i, pool, cell⟩ =
        some (.quiet, ⟨.createConsume ⟨i, hlt⟩, pool, zeroed⟩) := dif_pos hlt
    have hcreate : Program.main ⟨.createConsume ⟨i, hlt⟩, pool, zeroed⟩ =
        some (.quiet, ⟨.createProduce (i + 1), pool, zeroed⟩) := rfl
    exact ⟨cell', reaches_main hinit (reaches_main hcreate hrest)⟩

/-- Once all threads exist the pool runs as it does alone. -/
theorem pool_runs {pc : MainPc nthreads} (hpc : ∀ a, pc.Created a)
    {pool pool' : Pool nthreads nthreads} (h : Reaches (Step nitems cv) pool pool')
    (cell : Cell nthreads → Int) : ∃ cell',
      Reaches (Program.Step nitems cv) ⟨pc, pool, cell⟩ ⟨pc, pool', cell'⟩ := by
  obtain ⟨tr, run⟩ := h
  induction run with
  | nil => exact ⟨cell, .refl _⟩
  | @snoc tr t t' e _ h ih =>
    obtain ⟨cell', hreach⟩ := ih
    obtain ⟨a, ha⟩ := h
    exact ⟨e.applyArg cell', hreach.trans (.single (e := .thread e)
      ⟨.thread a, by simp [Program.step, hpc a, ha]⟩)⟩

/-- The join loop, when every thread has returned. -/
theorem join_all {pool : Pool nthreads nthreads} (hf : Finished pool)
    (cell : Cell nthreads → Int) (k : Nat) : ∀ i : Nat, i + k = nthreads →
      Reaches (Program.Step nitems cv) ⟨.joinProduce i, pool, cell⟩ ⟨.exited, pool, cell⟩ := by
  induction k with
  | zero =>
    intro i hi
    exact reaches_main (by simp [Program.main, show ¬ i < nthreads by omega]; rfl) (.refl _)
  | succ k ih =>
    intro i hi
    have hlt : i < nthreads := by omega
    have hjoinProduce : Program.main ⟨.joinProduce i, pool, cell⟩ =
        some (.quiet, ⟨.printCount ⟨i, hlt⟩, pool, cell⟩) := by
      simp [Program.main, hlt, hf.1 ⟨i, hlt⟩]
    have hjoinConsume : Program.main ⟨.joinConsume ⟨i, hlt⟩, pool, cell⟩ =
        some (.quiet, ⟨.printCcount ⟨i, hlt⟩, pool, cell⟩) := by
      simp [Program.main, hf.2 ⟨i, hlt⟩]
    exact reaches_main hjoinProduce (reaches_main rfl
      (reaches_main hjoinConsume (reaches_main rfl (ih (i + 1) (by omega)))))

/-- Some interleaving runs the program to its end. -/
theorem exists_exited (ht : 0 < nthreads) (cell : Cell nthreads → Int) : ∃ tr s,
    Run (Program.Step nitems cv) (Program.start cell) tr s ∧ s.pc = .exited := by
  obtain ⟨pool, hpool, hf⟩ := @exists_finished nthreads nthreads nitems cv ht
  obtain ⟨cell₁, hcreate⟩ := @create_all nthreads nitems cv
    (initial nthreads nthreads) nthreads 0 cell (by omega)
  have hall : ∀ a, (MainPc.joinProduce 0 : MainPc nthreads).Created a := by
    rintro (⟨p, _⟩ | ⟨c, _⟩ | c)
    · exact p.isLt
    · exact c.isLt
    · exact c.isLt
  obtain ⟨cell₂, hruns⟩ := pool_runs hall hpool cell₁
  obtain ⟨tr, run⟩ := hcreate.trans (hruns.trans (join_all hf cell₂ nthreads 0 (by omega)))
  exact ⟨tr, _, run, rfl⟩

/-- **The printed columns never account for the items.**  The program can run to its
end, and however it does, the `ccount` column it prints is not what the consumers
claimed. -/
theorem not_accounted (hn : 1 ≤ nitems) (ht : 1 ≤ nthreads) (cell : Cell nthreads → Int) :
    (∃ tr s, Run (Program.Step nitems cv) (Program.start cell) tr s ∧ s.pc = .exited) ∧
    ∀ tr s, Run (Program.Step nitems cv) (Program.start cell) tr s → s.pc = .exited →
      ¬ Accounted nitems tr := by
  refine ⟨exists_exited ht cell, fun tr s run hpc hacc => ?_⟩
  have hsum := hacc.ccount_sum
  rw [ccountColumn_eq run hpc, List.map_map] at hsum
  have hzero : ((List.finRange nthreads).map fun _ => 0).sum = 0 := by simp
  exact absurd (hzero.symm.trans hsum) (by omega)

theorem not_accounted_two_items_two_threads : ∃ tr s,
    Run (Program.Step 2 .posix) (Program.start (fun _ : Cell 2 => 7)) tr s ∧ s.pc = .exited ∧
      ¬ Accounted 2 tr := by
  obtain ⟨⟨tr, s, run, hpc⟩, hnone⟩ :=
    @not_accounted 2 2 .posix (by decide) (by decide) fun _ => 7
  exact ⟨tr, s, run, hpc, hnone tr s run hpc⟩

/-- One item and one thread of each kind: the consumer that claimed the item prints
`Ccount[0] = 0`, and the producer that stored it `count[0] = 0`. -/
theorem not_accounted_one_item_one_thread :
    ¬ ∀ nitems nthreads, 1 ≤ nitems → nitems ≤ MAXNITEMS → 1 ≤ nthreads → nthreads ≤ MAXNTHREADS →
      ∀ (cell : Cell nthreads → Int) tr s,
        Run (Program.Step nitems .single) (Program.start cell) tr s → s.pc = .exited →
          Accounted nitems tr := by
  intro hall
  have run := run_get (Program.step 1 .single)
    [.main, .main, .main, .thread (.produce 0 ∅), .thread (.produce 0 ∅), .thread (.produce 0 ∅),
      .thread (.produce 0 ∅), .thread (.consume 0 ∅), .thread (.consume 0 ∅),
      .thread (.consume 0 ∅), .thread (.consume 0 ∅), .thread (.consume 0 ∅), .main, .main,
      .main, .main, .main]
    (Program.start (fun _ : Cell 1 => 0)) (by decide)
  have hacc := hall 1 1 (by decide) (by decide) (by decide) (by decide) _ _ _ run (by decide)
  exact absurd hacc.count (by decide)

end Complete

end PosixNet.Prodcons6
