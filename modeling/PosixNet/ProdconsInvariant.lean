import PosixNet.ProdconsPool

/-!
# `prodcons6` with several consumers: conservation of items

The counters of the program live under two mutexes: `put.nput` is guarded by
`put.mutex`, `nready.nready` and `put.nget` by `nready.mutex`.  Between its two
regions a producer has stored an item that nobody has counted, so the books
balance only with an in-flight term summed over the producers (`Conserved`).

A consumer's loop counter `i` counts the items it has checked, `claims` the items
it has claimed; they differ while it is in front of line 111.  The claims of all
consumers add up to `put.nget`, which is what ties a consumer that leaves through
its own loop to the shared counters: it has claimed every item.

The ledger of a run — which consumer claimed which item, in order — is read off
its labels (`claimsOf`), and `conservation` states the books, the
ledger and the provenance of every claim of one run.
-/
namespace PosixNet.Prodcons6
variable {np nc : Nat}

/-- What a producer has stored and not yet announced. -/
def ProducePc.owes (pc : ProducePc) : Nat := if pc = .lockReady then 1 else 0

@[simp] theorem owes_lockPut : ProducePc.lockPut.owes = 0 := rfl
@[simp] theorem owes_lockReady : ProducePc.lockReady.owes = 1 := rfl
@[simp] theorem owes_addOne : ProducePc.addOne.owes = 0 := rfl
@[simp] theorem owes_returned : ProducePc.returned.owes = 0 := rfl

/-- The items a consumer has claimed: those it has checked, and the one in hand. -/
def Consumer.claims (l : Consumer) : Nat := l.i + if l.pc = .checkSlot then 1 else 0

/-- Where the loop counter stands at each place of `consume`. -/
def Consumer.Placed (nitems nget : Nat) (l : Consumer) : Prop :=
  match l.pc with
  | .test => l.i ≤ nitems
  | .lockReady | .waiting | .checkSlot => l.i < nitems
  | .subOne => l.i = nitems
  | .returned => nitems ≤ nget

namespace Pool
variable (s : Pool np nc)

/-- The number of producers that have stored an item but not yet run their
`nready` block. -/
def inFlight : Nat := (Finset.univ.filter fun p => s.producer p = .lockReady).card

/-- The items claimed by all consumers together. -/
def claims : Nat := ∑ c, (s.consumer c).claims

theorem inFlight_eq_sum : s.inFlight = ∑ p, (s.producer p).owes := Finset.card_filter ..

variable {s} in
theorem inFlight_moved {s' : Pool np nc} {p : Fin np} {pc : ProducePc}
    (h : s'.producer = Function.update s.producer p pc) :
    s'.inFlight + (s.producer p).owes = s.inFlight + pc.owes := by
  rw [inFlight_eq_sum, inFlight_eq_sum, h]
  exact sum_update ProducePc.owes s.producer p pc

variable {s} in
theorem claims_moved {s' : Pool np nc} {c : Fin nc} {l : Consumer}
    (h : s'.consumer = Function.update s.consumer c l) :
    s'.claims + (s.consumer c).claims = s.claims + l.claims := by
  rw [claims, h]
  exact sum_update Consumer.claims s.consumer c l

theorem mem_waiters {c : Fin nc} : c ∈ s.waiters ↔ (s.consumer c).pc = .waiting := by
  simp [waiters]

theorem wake_consumer_of_mem {woken : Finset (Fin nc)} {c : Fin nc} (h : c ∈ woken) :
    (s.wake woken).consumer c = { s.consumer c with pc := .lockReady } := if_pos h

theorem wake_consumer_of_notMem {woken : Finset (Fin nc)} {c : Fin nc} (h : c ∉ woken) :
    (s.wake woken).consumer c = s.consumer c := if_neg h

variable {s}

/-- Waking a waiter does not change what it has claimed. -/
theorem wake_consumer_claims {woken : Finset (Fin nc)} (hw : woken ⊆ s.waiters) (c : Fin nc) :
    ((s.wake woken).consumer c).claims = (s.consumer c).claims := by
  by_cases h : c ∈ woken
  · have hpc := s.mem_waiters.mp (hw h)
    simp [wake_consumer_of_mem s h, Consumer.claims, hpc]
  · rw [wake_consumer_of_notMem s h]

theorem claims_wake {woken : Finset (Fin nc)} (hw : woken ⊆ s.waiters) :
    (s.wake woken).claims = s.claims :=
  Finset.sum_congr rfl fun c _ => wake_consumer_claims hw c

theorem wake_placed {n m : Nat} {woken : Finset (Fin nc)} (hw : woken ⊆ s.waiters)
    (h : ∀ c, (s.consumer c).Placed n m) (c : Fin nc) :
    ((s.wake woken).consumer c).Placed n m := by
  by_cases hc : c ∈ woken
  · have hpc := s.mem_waiters.mp (hw hc)
    have hp := h c
    simpa [wake_consumer_of_mem s hc, Consumer.Placed, hpc] using hp
  · rw [wake_consumer_of_notMem s hc]
    exact h c

theorem setConsumer_placed {n m : Nat} {c : Fin nc} {l : Consumer}
    (h : ∀ c, (s.consumer c).Placed n m) (hl : l.Placed n m) (d : Fin nc) :
    ((s.setConsumer c l).consumer d).Placed n m := by
  by_cases hd : d = c
  · subst hd
    simpa [setConsumer] using hl
  · simpa [setConsumer, hd] using h d

/-- A consumer's claims are at most everybody's. -/
theorem claims_le (c : Fin nc) : (s.consumer c).claims ≤ s.claims := by
  rw [claims, ← Finset.add_sum_erase _ _ (Finset.mem_univ c)]
  exact Nat.le_add_right _ _

/-- Two consumers' claims are at most everybody's. -/
theorem claims_pair {c d : Fin nc} (h : d ≠ c) :
    (s.consumer c).claims + (s.consumer d).claims ≤ s.claims := by
  have hd : d ∈ Finset.univ.erase c := Finset.mem_erase.mpr ⟨h, Finset.mem_univ d⟩
  rw [claims, ← Finset.add_sum_erase _ _ (Finset.mem_univ c), ← Finset.add_sum_erase _ _ hd]
  omega

end Pool

/-! ## The books balance -/

/-- The state of the shared counters and of the threads' places in every
reachable state. -/
structure Conserved (nitems : Nat) (s : Pool np nc) : Prop where
  nval_eq : s.put.nval = s.put.nput
  nput_le : s.put.nput ≤ nitems
  buff_eq : ∀ k, k < s.put.nput → s.buff k = k
  nready_nonneg : 0 ≤ s.nready
  balance : s.put.nget + s.nready + s.inFlight = s.put.nput
  claims_eq : s.claims = s.put.nget
  placed : ∀ c, (s.consumer c).Placed nitems s.put.nget

theorem conserved_initial (nitems : Nat) : Conserved nitems (initial np nc) where
  nval_eq := rfl
  nput_le := Nat.zero_le _
  buff_eq := fun k hk => absurd hk (Nat.not_lt_zero k)
  nready_nonneg := le_refl _
  balance := by simp [initial, Pool.inFlight]
  claims_eq := by simp [initial, Pool.claims, Consumer.claims]
  placed := fun _ => Nat.zero_le _

section Step
variable {nitems : Nat} {cv : CondVar} {s s' : Pool np nc} {e : Event np nc}

/-- What is in the books but not in a slot: zero, in every reachable state. -/
def Pool.surplus (s : Pool np nc) : Int := s.put.nget + s.nready + s.inFlight - s.put.nput

theorem surplus_of_producer {p : Fin np} {pc : ProducePc}
    (hprod : s'.producer = Function.update s.producer p pc)
    (h : (s'.put.nget + s'.nready + pc.owes - s'.put.nput : Int) =
      s.put.nget + s.nready + (s.producer p).owes - s.put.nput) : s'.surplus = s.surplus := by
  have hf := Pool.inFlight_moved hprod
  simp only [Pool.surplus]
  omega

theorem surplus_of_consumer (hprod : s'.producer = s.producer)
    (h : (s'.put.nget + s'.nready - s'.put.nput : Int) = s.put.nget + s.nready - s.put.nput) :
    s'.surplus = s.surplus := by
  simp only [Pool.surplus, Pool.inFlight, hprod]
  omega

/-- Items enter the books with a store and are only moved between the counters. -/
theorem Moves.surplus (h : Moves nitems cv s e s') : s'.surplus = s.surplus := by
  cases h with
  | full p hpc _ | add p hpc =>
    exact surplus_of_producer rfl (by simp [Pool.setProducer, hpc])
  | store p hpc _ =>
    refine surplus_of_producer rfl ?_
    simp only [Pool.setProducer, hpc, owes_lockPut, owes_lockReady]
    omega
  | announce p woken hpc _ _ =>
    refine surplus_of_producer rfl ?_
    simp only [Pool.setProducer, Pool.wake, hpc, owes_lockReady, owes_addOne]
    omega
  | claim c _ _ _ =>
    refine surplus_of_consumer rfl ?_
    simp only [Pool.setConsumer]
    omega
  | _ => exact surplus_of_consumer rfl rfl

/-- A producer wakes only threads that wait. -/
theorem woken_subset {woken : Finset (Fin nc)} (hsignal : s.nready = 0 → cv.Wakes s.waiters woken)
    (hquiet : s.nready ≠ 0 → woken = ∅) : woken ⊆ s.waiters := by
  by_cases h0 : s.nready = 0
  · exact (hsignal h0).subset
  · rw [hquiet h0]
    exact Finset.empty_subset _

theorem claims_of_consumer {c : Fin nc} {l : Consumer}
    (hcons : s'.consumer = Function.update s.consumer c l)
    (h : l.claims + s.put.nget = (s.consumer c).claims + s'.put.nget) :
    s'.claims + s.put.nget = s.claims + s'.put.nget := by
  have hc := Pool.claims_moved hcons
  omega

/-- Only a claim changes what the consumers have claimed, and it moves `put.nget`
along. -/
theorem Moves.claims (h : Moves nitems cv s e s') :
    s'.claims + s.put.nget = s.claims + s'.put.nget := by
  cases h with
  | full | store | add => rfl
  | announce p woken _ hsignal hquiet =>
    show (s.wake woken).claims + s.put.nget = s.claims + s.put.nget
    rw [Pool.claims_wake (woken_subset hsignal hquiet)]
  | leave c woken hpc hget hsignal =>
    rw [← Pool.claims_wake hsignal.subset]
    show _ + (s.wake woken).put.nget = _
    refine claims_of_consumer rfl ?_
    rw [Pool.wake_consumer_claims hsignal.subset c]
    simp [Consumer.claims, hpc, Pool.setConsumer]
  | claim c hpc _ _ =>
    refine claims_of_consumer rfl ?_
    simp [Consumer.claims, hpc, Pool.setConsumer]
    omega
  | check c hpc =>
    refine claims_of_consumer rfl ?_
    simp [Consumer.claims, hpc, Pool.setConsumer]
  | enter c hpc | exhaust c hpc | sleep c hpc | subtract c hpc | awake c _ hpc =>
    refine claims_of_consumer rfl ?_
    simp [Consumer.claims, hpc, Pool.setConsumer]

/-- `put.nget` never decreases, so a returned consumer stays justified. -/
theorem Consumer.Placed.mono {n m m' : Nat} {l : Consumer} (h : l.Placed n m) (hm : m ≤ m') :
    l.Placed n m' := by
  revert h
  simp only [Consumer.Placed]
  split <;> omega

/-- Every thread's loop counter stays where its place in the code says, given that
a consumer about to run line 114 has claimed every item. -/
theorem Moves.placed (h : Moves nitems cv s e s') (hs : Conserved nitems s) (c : Fin nc) :
    (s'.consumer c).Placed nitems s'.put.nget := by
  have hp := hs.placed
  cases h with
  | full | store | add => exact hp c
  | announce p woken _ hsignal hquiet => exact Pool.wake_placed (woken_subset hsignal hquiet) hp c
  | enter d hpc hi =>
    refine Pool.setConsumer_placed hp ?_ c
    exact hi
  | exhaust d hpc hi =>
    refine Pool.setConsumer_placed hp ?_ c
    have hd := hp d
    simp only [Consumer.Placed, hpc] at hd ⊢
    omega
  | sleep d hpc _ _ | awake d _ hpc =>
    refine Pool.setConsumer_placed hp ?_ c
    have hd := hp d
    simpa only [Consumer.Placed, hpc] using hd
  | leave d woken hpc hget hsignal =>
    refine Pool.setConsumer_placed (Pool.wake_placed hsignal.subset hp) ?_ c
    exact hget
  | claim d hpc _ _ =>
    refine Pool.setConsumer_placed (fun d => (hp d).mono (Nat.le_succ _)) ?_ c
    have hd := hp d
    simpa only [Consumer.Placed, hpc] using hd
  | check d hpc =>
    refine Pool.setConsumer_placed hp ?_ c
    have hd := hp d
    simp only [Consumer.Placed, hpc] at hd ⊢
    omega
  | subtract d hpc =>
    -- its own `nitems` claims are all there are
    refine Pool.setConsumer_placed hp ?_ c
    have hd := hp d
    have hle := Pool.claims_le (s := s) d
    have hall := hs.claims_eq
    simp only [Consumer.Placed, Consumer.claims, hpc] at hd hle ⊢
    omega

/-- **The step lemma**: every move keeps the books balanced. -/
theorem Conserved.move (hs : Conserved nitems s) (h : Moves nitems cv s e s') :
    Conserved nitems s' where
  nval_eq := by
    have := hs.nval_eq
    cases h with
    | store => exact congrArg (· + 1) this
    | _ => exact this
  nput_le := by
    have := hs.nput_le
    cases h with
    | store p _ hroom => exact hroom
    | _ => exact this
  buff_eq := by
    have := hs.buff_eq
    cases h with
    | store p _ hroom =>
      intro k hk
      show Function.update s.buff s.put.nput (s.put.nval : Int) k = k
      rcases Nat.lt_succ_iff_lt_or_eq.mp hk with hlt | rfl
      · rw [Function.update_of_ne (Nat.ne_of_lt hlt)]
        exact this k hlt
      · rw [Function.update_self, hs.nval_eq]
    | _ => exact this
  nready_nonneg := by
    have := hs.nready_nonneg
    cases h with
    | announce => exact Int.le_add_one this
    | claim c _ hready _ => show 0 ≤ s.nready - 1; omega
    | _ => exact this
  balance := by
    have hb := h.surplus
    have hz := hs.balance
    simp only [Pool.surplus] at hb
    omega
  claims_eq := by
    have hc := h.claims
    have := hs.claims_eq
    omega
  placed := h.placed hs

end Step

/-! ## Runs and their ledger -/

/-- The claim a step makes: who, and which item. -/
def Event.claim? : Event np nc → Option (Fin nc × Nat)
  | .claimed c j => some (c, j)
  | _ => none

/-- The claims of a run, in order. -/
def claimsOf (tr : List (Pool np nc × Event np nc)) : List (Fin nc × Nat) :=
  (labels tr).filterMap Event.claim?

theorem claimsOf_snoc (tr : List (Pool np nc × Event np nc)) (s : Pool np nc) (e : Event np nc) :
    claimsOf (tr ++ [(s, e)]) = claimsOf tr ++ e.claim?.toList := by
  rw [claimsOf, labels_append, List.filterMap_append]
  cases h : e.claim? <;> simp [claimsOf, h]

section Run
variable {nitems : Nat} {cv : CondVar} {s : Pool np nc} {tr : List (Pool np nc × Event np nc)}

/-- The books balance in every reachable state. -/
theorem conserved (run : Run (Step nitems cv) (initial np nc) tr s) : Conserved nitems s :=
  run.preserves (conserved_initial nitems) fun _ _ _ hs h => hs.move (step_iff_moves.mp h)

/-- The items are claimed in the order `0, 1, 2, …`. -/
theorem claimsOf_eq_range (run : Run (Step nitems cv) (initial np nc) tr s) :
    (claimsOf tr).map Prod.snd = List.range s.put.nget := by
  refine run.invariant (I := fun tr s => (claimsOf tr).map Prod.snd = List.range s.put.nget)
    rfl ?_
  intro tr s e s' _ ih h
  rw [claimsOf_snoc, List.map_append, ih]
  cases step_iff_moves.mp h with
  | claim => exact List.range_succ.symm
  | _ => exact List.append_nil _

/-- Every slot below `put.nput` has been stored. -/
theorem stored_of_lt (run : Run (Step nitems cv) (initial np nc) tr s) :
    ∀ k, k < s.put.nput → ∃ p v, Event.stored p k v ∈ labels tr := by
  refine run.invariant
    (I := fun tr s => ∀ k, k < s.put.nput → ∃ p v, Event.stored p k v ∈ labels tr)
    (fun k hk => absurd hk (Nat.not_lt_zero k)) ?_
  intro tr s e s' _ ih h k hk
  have hold : k < s.put.nput → ∃ p v, Event.stored p k v ∈ labels (tr ++ [(s, e)]) := fun hk => by
    obtain ⟨p, v, hmem⟩ := ih k hk
    exact ⟨p, v, by rw [labels_append]; exact List.mem_append_left _ hmem⟩
  cases step_iff_moves.mp h with
  | store p _ _ =>
    rcases Nat.lt_succ_iff_lt_or_eq.mp hk with hlt | rfl
    · exact hold hlt
    · exact ⟨p, s.put.nval, by simp⟩
  | _ => exact hold hk

/-- **Conservation.**  In every reachable state the counters balance with the items
in flight, the buffer holds what it should, and the consumers have claimed exactly
the items below `put.nget`, each once, each after its slot was stored. -/
theorem conservation (run : Run (Step nitems cv) (initial np nc) tr s) :
    (s.put.nval = s.put.nput ∧ s.put.nput ≤ nitems ∧ (∀ k, k < s.put.nput → s.buff k = k) ∧
      0 ≤ s.nready ∧ s.put.nget + s.nready + s.inFlight = s.put.nput) ∧
    (claimsOf tr).map Prod.snd = List.range s.put.nget ∧
    ∀ pre t c j post, tr = pre ++ (t, .claimed c j) :: post →
      ∃ p v, Event.stored p j v ∈ labels pre := by
  have hs := conserved run
  refine ⟨⟨hs.nval_eq, hs.nput_le, hs.buff_eq, hs.nready_nonneg, hs.balance⟩,
    claimsOf_eq_range run, ?_⟩
  rintro pre t c j post rfl
  obtain ⟨t', hpre, hclaim, -⟩ := run.split
  have ht := conserved hpre
  cases step_iff_moves.mp hclaim with
  | claim _ _ hready _ =>
    -- with `nready` positive, the books say that slot `put.nget` is stored
    have hb := ht.balance
    have hn := ht.nready_nonneg
    exact stored_of_lt hpre _ (by omega)

/-- One producer stores two items, the first of two consumers claims one. -/
theorem conservation_two_items : ∃ tr s, (Run (Step 2 .single) (initial 1 2) tr s ∧
    s.put = ⟨2, 2, 1⟩ ∧ s.inFlight = 1) ∧ s.put.nget + s.nready + s.inFlight = s.put.nput ∧
    (claimsOf tr).map Prod.snd = List.range s.put.nget := by
  have run := run_get (step 2 .single)
    [.produce 0 ∅, .produce 0 ∅, .produce 0 ∅, .produce 0 ∅, .consume 0 ∅, .consume 0 ∅]
    (initial 1 2) (by decide)
  have hcons := conservation run
  exact ⟨_, _, ⟨run, by decide, by decide⟩, hcons.1.2.2.2.2, hcons.2.1⟩

end Run

end PosixNet.Prodcons6
