import PosixNet.ProdconsInvariant

/-!
# `prodcons6` with several consumers: wake-ups and deadlock

A producer signals only when it finds `nready.nready` at zero, a consumer only on
its early return.  While an item is announced this is enough: some consumer is
neither asleep nor gone (`no_lost_wakeup`).

Once the last item is claimed nobody but the early return signals, and it passes
the wake-up on: each consumer it wakes finds every item claimed and signals in
turn.  The relay starts with any consumer that will come back to the region
(`Consumer.Relays`).  It does not start when the last claim is the `nitems`-th of
one consumer, which then leaves through its own `for` loop without a signal, and
every other consumer is asleep (`Monopolises`).  `finished_iff` says that a run
that can go no further has finished all threads exactly if it made no such claim.
-/
namespace PosixNet.Prodcons6
variable {np nc nitems : Nat} {cv : CondVar} {s s' : Pool np nc} {e : Event np nc}

/-- Once every item is claimed, nothing is ready and nothing is in flight. -/
theorem Conserved.all_claimed (hs : Conserved nitems s) (h : nitems ≤ s.put.nget) :
    s.nready = 0 ∧ s.inFlight = 0 ∧ s.put.nget = nitems ∧ s.put.nput = nitems := by
  have hb := hs.balance
  have hn := hs.nready_nonneg
  have hp := hs.nput_le
  omega

theorem Pool.inFlight_pos {p : Fin np} (h : s.producer p = .lockReady) : 0 < s.inFlight :=
  Finset.card_pos.mpr ⟨p, Finset.mem_filter.mpr ⟨Finset.mem_univ p, h⟩⟩

/-- The item of a producer that is to announce it is not claimed. -/
theorem Conserved.nget_lt (hs : Conserved nitems s) {p : Fin np} (h : s.producer p = .lockReady) :
    s.put.nget < nitems := by
  by_contra hget
  have hnone := (hs.all_claimed (Nat.le_of_not_lt hget)).2.1
  have hone := Pool.inFlight_pos h
  omega

theorem inFlight_eq_zero (h : ∀ p, s.producer p = .returned) : s.inFlight = 0 :=
  Finset.card_eq_zero.mpr (Finset.filter_eq_empty_iff.mpr fun p _ => by simp [h p])

/-- A consumer that runs line 114 has claimed every item itself. -/
theorem Conserved.subOne_all (hs : Conserved nitems s) {c : Fin nc}
    (hpc : (s.consumer c).pc = .subOne) : nitems ≤ s.put.nget := by
  have hp := hs.placed c
  have hle := Pool.claims_le (s := s) c
  have hall := hs.claims_eq
  simp only [Consumer.Placed, Consumer.claims, hpc] at hp hle
  omega

/-! ## No lost wake-up -/

/-- A consumer that is neither blocked nor gone. -/
def Consumer.Active (l : Consumer) : Prop := l.pc ≠ .waiting ∧ l.pc ≠ .returned

/-- While an item is announced, some consumer is active. -/
def SomeActive (s : Pool np nc) : Prop := 0 < s.nready → ∃ c, (s.consumer c).Active

theorem active_setConsumer (s : Pool np nc) (c : Fin nc) {l : Consumer} (hl : l.Active) :
    ∃ d, ((s.setConsumer c l).consumer d).Active := by
  refine ⟨c, ?_⟩
  simpa [Pool.setConsumer] using hl

theorem SomeActive.move (ha : SomeActive s) (hs : Conserved nitems s) (c₀ : Fin nc)
    (h : Moves nitems cv s e s') : SomeActive s' := by
  cases h with
  | full | store | add => exact ha
  | announce p woken hpc hsignal hquiet =>
    intro _
    by_cases h0 : s.nready = 0
    · rcases s.waiters.eq_empty_or_nonempty with hw | hw
      · -- nobody waits, and nobody has left: the item in flight is not claimed
        rw [hw] at hsignal
        obtain rfl := CondVar.wakes_empty.mp (hsignal h0)
        refine ⟨c₀, ?_⟩
        show ((s.wake ∅).consumer c₀).Active
        rw [Pool.wake_empty]
        refine ⟨fun hc => ?_, fun hc => ?_⟩
        · have := s.mem_waiters.mpr hc
          rw [hw] at this
          exact absurd this (Finset.notMem_empty _)
        · have hp := hs.placed c₀
          simp only [Consumer.Placed, hc] at hp
          exact absurd hp (Nat.not_le.mpr (hs.nget_lt hpc))
      · obtain ⟨d, hd⟩ := (hsignal h0).nonempty hw
        refine ⟨d, ?_⟩
        show ((s.wake woken).consumer d).Active
        rw [Pool.wake_consumer_of_mem s hd]
        exact ⟨by simp, by simp⟩
    · obtain rfl := hquiet h0
      have hn := hs.nready_nonneg
      obtain ⟨d, hd⟩ := ha (by omega)
      refine ⟨d, ?_⟩
      show ((s.wake ∅).consumer d).Active
      rwa [Pool.wake_empty]
  | enter d hpc _ | exhaust d hpc _ | claim d hpc _ _ | check d hpc | awake d _ hpc =>
    exact fun _ => active_setConsumer _ d ⟨by simp, by simp⟩
  | sleep d _ hnone _ => exact fun hr => absurd hnone (Int.ne_of_gt hr)
  | leave d woken _ hget _ =>
    exact fun hr => absurd (hs.all_claimed hget).1 (Int.ne_of_gt hr)
  | subtract d hpc =>
    -- a consumer that leaves through its loop has claimed every item: none is announced
    exact fun hr => absurd (hs.all_claimed (hs.subOne_all hpc)).1 (Int.ne_of_gt hr)

/-- **No lost wake-up.**  An announced item never finds every consumer blocked or
gone. -/
theorem no_lost_wakeup {tr : List (Pool np nc × Event np nc)} (hnc : 0 < nc)
    (run : Run (Step nitems cv) (initial np nc) tr s) (hready : 0 < s.nready) :
    ∃ c, (s.consumer c).pc ≠ .waiting ∧ (s.consumer c).pc ≠ .returned := by
  have hinv : Conserved nitems s ∧ SomeActive s := by
    refine run.preserves (I := fun s => Conserved nitems s ∧ SomeActive s)
      ⟨conserved_initial nitems, fun h => absurd h (lt_irrefl 0)⟩ ?_
    rintro s e s' ⟨hs, ha⟩ h
    have hm := step_iff_moves.mp h
    exact ⟨hs.move hm, ha.move hs ⟨0, hnc⟩ hm⟩
  exact hinv.2 hready

/-- Both consumers block, an item is announced: the one woken is active. -/
theorem no_lost_wakeup_two_consumers : ∃ tr s,
    (Run (Step 1 .posix) (initial 1 2) tr s ∧ 0 < s.nready) ∧
      ∃ c, (s.consumer c).pc ≠ .waiting ∧ (s.consumer c).pc ≠ .returned := by
  have run := run_get (step 1 .posix)
    [.consume 0 ∅, .consume 0 ∅, .consume 1 ∅, .consume 1 ∅, .produce 0 ∅, .produce 0 {1}]
    (initial 1 2) (by decide)
  exact ⟨_, _, ⟨run, by decide⟩, no_lost_wakeup (by decide) run (by decide)⟩

/-! ## Deadlock -/

/-- Every thread has returned. -/
def Finished (s : Pool np nc) : Prop :=
  (∀ p, s.producer p = .returned) ∧ ∀ c, (s.consumer c).pc = .returned

/-- A consumer that will come back to the region of `nready.mutex`. -/
def Consumer.Relays (nitems : Nat) (l : Consumer) : Prop :=
  match l.pc with
  | .test => l.i < nitems
  | .lockReady => True
  | .checkSlot => l.i + 1 < nitems
  | .waiting | .subOne | .returned => False

/-- The last claim, by a consumer in its `nitems`-th iteration, while every other
consumer (there is one) is blocked in `Pthread_cond_wait`. -/
def Monopolises (nitems : Nat) (s : Pool np nc) (e : Event np nc) : Prop :=
  ∃ c j, e = .claimed c j ∧ (s.consumer c).i + 1 = nitems ∧ (∃ d, d ≠ c) ∧
    ∀ d, d ≠ c → (s.consumer d).pc = .waiting

/-- Once every item is claimed, either nobody waits or somebody will signal. -/
def Relay (nitems : Nat) (s : Pool np nc) : Prop :=
  nitems ≤ s.put.nget →
    (∀ c, (s.consumer c).pc ≠ .waiting) ∨ ∃ c, (s.consumer c).Relays nitems

theorem relay_setConsumer {c : Fin nc} {l : Consumer} (hr : Relay nitems s)
    (hput : s'.put = s.put) (hcons : s'.consumer = Function.update s.consumer c l)
    (hl : l.pc ≠ .waiting) (hkeep : (s.consumer c).Relays nitems → l.Relays nitems) :
    Relay nitems s' := by
  intro hget
  rw [hput] at hget
  rw [hcons]
  rcases hr hget with hnone | ⟨d, hd⟩
  · left
    intro d
    by_cases hdc : d = c
    · subst hdc; simpa using hl
    · simpa [hdc] using hnone d
  · right
    by_cases hdc : d = c
    · subst hdc
      exact ⟨d, by simpa using hkeep hd⟩
    · exact ⟨d, by simpa [hdc] using hd⟩

/-- A consumer that has claimed nothing and has neither returned nor blocked will
come back to the region. -/
theorem Consumer.Placed.relays {nget : Nat} {l : Consumer} (h : l.Placed nitems nget)
    (hz : l.claims = 0) (hn : 0 < nitems) (hget : nget < nitems) (hw : l.pc ≠ .waiting) :
    l.Relays nitems := by
  simp only [Consumer.Placed, Consumer.claims] at h hz
  unfold Consumer.Relays
  cases hpc : l.pc with
  | test | lockReady => simp_all
  | waiting => exact absurd hpc hw
  | checkSlot => simp [hpc] at hz
  | subOne => simp_all
  | returned => simp_all; omega

/-- The claim that completes the books leaves a relay behind, unless it is the one
claim that does not. -/
theorem relay_of_claim {c : Fin nc} (hs : Conserved nitems s) (hpc : (s.consumer c).pc = .lockReady)
    (hget : s.put.nget < nitems) (hlast : nitems ≤ s.put.nget + 1)
    (hno : ¬ Monopolises nitems s (.claimed c s.put.nget)) :
    (s.consumer c).i + 1 < nitems ∨ (∀ d, d = c) ∨
      ∃ d, d ≠ c ∧ (s.consumer d).Relays nitems := by
  by_cases hi : (s.consumer c).i + 1 < nitems
  · exact Or.inl hi
  right
  by_cases hone : ∃ d, d ≠ c
  · right
    have hp := hs.placed c
    have hall := hs.claims_eq
    simp only [Consumer.Placed, hpc] at hp
    have hnot : ¬ ∀ d, d ≠ c → (s.consumer d).pc = .waiting := fun hw =>
      hno ⟨c, s.put.nget, rfl, by omega, hone, hw⟩
    push Not at hnot
    obtain ⟨d, hdc, hw⟩ := hnot
    have hpair := Pool.claims_pair (s := s) hdc
    have hc : (s.consumer c).claims = (s.consumer c).i := by simp [Consumer.claims, hpc]
    exact ⟨d, hdc, (hs.placed d).relays (by omega) (by omega) hget hw⟩
  · left
    push Not at hone
    exact hone

theorem Relay.move (hr : Relay nitems s) (hs : Conserved nitems s) (h : Moves nitems cv s e s')
    (hno : ¬ Monopolises nitems s e) : Relay nitems s' := by
  cases h with
  | full | store | add => exact hr
  | announce p woken hpc _ _ =>
    exact fun hget => absurd hget (Nat.not_le.mpr (hs.nget_lt hpc))
  | enter c hpc hi =>
    exact relay_setConsumer hr rfl rfl (by simp) fun _ => trivial
  | exhaust c hpc hi =>
    refine relay_setConsumer hr rfl rfl (by simp) fun hrel => ?_
    simp only [Consumer.Relays, hpc] at hrel
    omega
  | sleep c _ _ hlt => exact fun hget => absurd hget (Nat.not_le.mpr hlt)
  | leave c woken hpc _ hsignal =>
    intro _
    rcases s.waiters.eq_empty_or_nonempty with hw | hw
    · left
      intro d
      rw [hw] at hsignal
      obtain rfl := CondVar.wakes_empty.mp hsignal
      rw [Pool.wake_empty]
      by_cases hdc : d = c
      · subst hdc; simp [Pool.setConsumer]
      · have hd : d ∉ s.waiters := by rw [hw]; exact Finset.notMem_empty d
        simpa [Pool.setConsumer, hdc, s.mem_waiters] using hd
    · -- the signal is passed on to a waiter, which comes back to the region
      right
      obtain ⟨d, hd⟩ := hsignal.nonempty hw
      have hdc : d ≠ c := by
        rintro rfl
        have := s.mem_waiters.mp (hsignal.subset hd)
        rw [hpc] at this
        cases this
      refine ⟨d, ?_⟩
      simp [Pool.setConsumer, hdc, Pool.wake_consumer_of_mem s hd, Consumer.Relays]
  | claim c hpc _ hlt =>
    intro hget
    rcases relay_of_claim hs hpc hlt hget hno with hi | hone | ⟨d, hdc, hd⟩
    · right
      refine ⟨c, ?_⟩
      simpa [Pool.setConsumer, Consumer.Relays] using hi
    · left
      intro d
      simp [hone d, Pool.setConsumer]
    · right
      refine ⟨d, ?_⟩
      simpa [Pool.setConsumer, hdc] using hd
  | check c hpc =>
    refine relay_setConsumer hr rfl rfl (by simp) fun hrel => ?_
    simpa [Consumer.Relays, hpc] using hrel
  | subtract c hpc =>
    refine relay_setConsumer hr rfl rfl (by simp) fun hrel => ?_
    simp [Consumer.Relays, hpc] at hrel
  | awake c _ hpc =>
    exact relay_setConsumer hr rfl rfl (by simp) fun _ => trivial

/-! ### Where a run can stop -/

/-- Without spurious wake-ups a pool is stuck exactly when every producer has
returned and every consumer is blocked or has returned. -/
theorem terminal_iff : Terminal (Step nitems .single) s ↔
    (∀ p, s.producer p = .returned) ∧
      ∀ c, (s.consumer c).pc = .waiting ∨ (s.consumer c).pc = .returned := by
  constructor
  · intro ht
    have hstuck : ∀ e s', ¬ Moves nitems .single s e s' := fun e s' h =>
      ht e s' (step_iff_moves.mpr h)
    refine ⟨fun p => ?_, fun c => ?_⟩
    · cases hpc : s.producer p with
      | lockPut =>
        rcases Nat.lt_or_ge s.put.nput nitems with h | h
        · exact absurd (.store p hpc h) (hstuck _ _)
        · exact absurd (.full p hpc h) (hstuck _ _)
      | lockReady =>
        obtain ⟨woken, hw⟩ := CondVar.exists_wakes .single s.waiters
        by_cases h0 : s.nready = 0
        · exact absurd (.announce p woken hpc (fun _ => hw) fun h => absurd h0 h) (hstuck _ _)
        · exact absurd (.announce p ∅ hpc (fun h => absurd h h0) fun _ => rfl) (hstuck _ _)
      | addOne => exact absurd (.add p hpc) (hstuck _ _)
      | returned => rfl
    · cases hpc : (s.consumer c).pc with
      | test =>
        rcases Nat.lt_or_ge (s.consumer c).i nitems with h | h
        · exact absurd (.enter c hpc h) (hstuck _ _)
        · exact absurd (.exhaust c hpc h) (hstuck _ _)
      | lockReady =>
        rcases Nat.lt_or_ge s.put.nget nitems with h | h
        · by_cases h0 : s.nready = 0
          · exact absurd (.sleep c hpc h0 h) (hstuck _ _)
          · exact absurd (.claim c hpc h0 h) (hstuck _ _)
        · obtain ⟨woken, hw⟩ := CondVar.exists_wakes .single s.waiters
          exact absurd (.leave c woken hpc h hw) (hstuck _ _)
      | waiting => exact Or.inl rfl
      | checkSlot => exact absurd (.check c hpc) (hstuck _ _)
      | subOne => exact absurd (.subtract c hpc) (hstuck _ _)
      | returned => exact Or.inr rfl
  · rintro ⟨hp, hc⟩ e s' h
    cases step_iff_moves.mp h with
    | full p hpc | store p hpc | announce p _ hpc | add p hpc =>
      rw [hp p] at hpc
      cases hpc
    | enter c hpc | exhaust c hpc | sleep c hpc | leave c _ hpc | claim c hpc | check c hpc
    | subtract c hpc =>
      rcases hc c with h' | h' <;> rw [h'] at hpc <;> cases hpc
    | awake c hcv => cases hcv

/-- A stuck pool has its items all claimed: an announced item would have an active
consumer. -/
theorem Conserved.stuck_all_claimed (hs : Conserved nitems s) (ha : SomeActive s)
    (hnp : 0 < np) (hp : ∀ p, s.producer p = .returned → nitems ≤ s.put.nput)
    (ht : Terminal (Step nitems .single) s) : nitems ≤ s.put.nget := by
  obtain ⟨hprod, hcons⟩ := terminal_iff.mp ht
  have hfull := hp ⟨0, hnp⟩ (hprod _)
  have hflight := inFlight_eq_zero hprod
  have hb := hs.balance
  have hn := hs.nready_nonneg
  rcases Int.lt_or_eq_of_le hn with hpos | hzero
  · -- an announced item has an active consumer, which could take a step
    obtain ⟨c, hw, hr⟩ := ha hpos
    rcases hcons c with h | h
    · exact absurd h hw
    · exact absurd h hr
  · omega

/-- A returned producer has seen the array full. -/
theorem Moves.returned_full (h : Moves nitems cv s e s')
    (hp : ∀ p, s.producer p = .returned → nitems ≤ s.put.nput) :
    ∀ p, s'.producer p = .returned → nitems ≤ s'.put.nput := by
  cases h with
  | full q _ hfull => exact fun _ _ => hfull
  | store q _ _ =>
    intro p hpc
    by_cases hpq : p = q
    · subst hpq; simp [Pool.setProducer] at hpc
    · exact Nat.le_succ_of_le (hp p (by simpa [Pool.setProducer, hpq] using hpc))
  | announce q _ _ | add q _ =>
    intro p hpc
    by_cases hpq : p = q
    · subst hpq; simp [Pool.setProducer] at hpc
    · exact hp p (by simpa [Pool.setProducer, hpq, Pool.wake] using hpc)
  | _ => exact hp

/-! ### The claim after which nobody signals -/

/-- Every item is claimed, `c` is on its way out through its own loop, and all the
others wait. -/
structure Doomed (nitems : Nat) (c : Fin nc) (s : Pool np nc) : Prop where
  claimed : nitems ≤ s.put.nget
  other : ∃ d, d ≠ c
  waiting : ∀ d, d ≠ c → (s.consumer d).pc = .waiting
  leaving : ¬ (s.consumer c).Relays nitems
  awake : (s.consumer c).pc ≠ .waiting

theorem Doomed.setConsumer {c : Fin nc} {l : Consumer} (hd : Doomed nitems c s)
    (hput : s'.put = s.put) (hcons : s'.consumer = Function.update s.consumer c l)
    (hl : ¬ l.Relays nitems) (hw : l.pc ≠ .waiting) : Doomed nitems c s' where
  claimed := hput ▸ hd.claimed
  other := hd.other
  waiting := fun d hdc => by
    rw [hcons, Function.update_of_ne hdc]
    exact hd.waiting d hdc
  leaving := by rwa [hcons, Function.update_self]
  awake := by rwa [hcons, Function.update_self]

theorem doomed_of_monopolises (hs : Conserved nitems s) (h : Moves nitems cv s e s')
    (hm : Monopolises nitems s e) : ∃ c, Doomed nitems c s' := by
  obtain ⟨c, j, rfl, hi, hother, hw⟩ := hm
  refine ⟨c, ?_⟩
  cases h with
  | claim _ hpc _ hget =>
    have hle := Pool.claims_le (s := s) c
    have hall := hs.claims_eq
    simp only [Consumer.claims, hpc] at hle
    exact {
      claimed := by show nitems ≤ s.put.nget + 1; omega
      other := hother
      waiting := fun d hdc => by simpa [Pool.setConsumer, hdc] using hw d hdc
      leaving := by simp [Pool.setConsumer, Consumer.Relays, hi]
      awake := by simp [Pool.setConsumer] }

/-- Without spurious wake-ups nothing wakes the others any more. -/
theorem Doomed.move {c : Fin nc} (hd : Doomed nitems c s) (hs : Conserved nitems s)
    (h : Moves nitems .single s e s') : Doomed nitems c s' := by
  have honly : ∀ d pc, (s.consumer d).pc = pc → pc ≠ .waiting → d = c := fun d pc hpc hne => by
    by_contra hdc
    exact hne (hpc ▸ hd.waiting d hdc)
  have hleave := hd.leaving
  cases h with
  | full | add => exact ⟨hd.claimed, hd.other, hd.waiting, hd.leaving, hd.awake⟩
  | store p _ hroom =>
    -- every item is stored already
    have := (hs.all_claimed hd.claimed).2.2.2
    omega
  | announce p woken hpc _ _ =>
    exact absurd hd.claimed (Nat.not_le.mpr (hs.nget_lt hpc))
  | enter d hpc hi =>
    obtain rfl := honly d _ hpc (by simp)
    exact absurd (by simpa [Consumer.Relays, hpc] using hi) hleave
  | exhaust d hpc hi =>
    obtain rfl := honly d _ hpc (by simp)
    exact hd.setConsumer rfl rfl (by simp [Consumer.Relays]) (by simp)
  | sleep d hpc _ _ | leave d woken hpc _ _ | claim d hpc _ _ =>
    obtain rfl := honly d _ hpc (by simp)
    exact absurd (by simp [Consumer.Relays, hpc]) hleave
  | check d hpc =>
    obtain rfl := honly d _ hpc (by simp)
    refine hd.setConsumer rfl rfl (fun hrel => hleave ?_) (by simp)
    simpa [Consumer.Relays, hpc] using hrel
  | subtract d hpc =>
    obtain rfl := honly d _ hpc (by simp)
    exact hd.setConsumer rfl rfl (by simp [Consumer.Relays]) (by simp)
  | awake d hcv _ => cases hcv

section Run
variable {tr : List (Pool np nc × Event np nc)}

/-- What every run without a monopolising claim keeps. -/
theorem relay_of_run (run : Run (Step nitems .single) (initial np nc) tr s) (hn : 0 < nitems)
    (hno : ∀ x ∈ tr, ¬ Monopolises nitems x.1 x.2) : Relay nitems s := by
  refine run.invariant
    (I := fun tr s => (∀ x ∈ tr, ¬ Monopolises nitems x.1 x.2) → Relay nitems s)
    (fun _ hget => absurd hget (Nat.not_le.mpr hn)) ?_ hno
  intro tr s e s' run ih h hno
  have hprev : ∀ x ∈ tr, ¬ Monopolises nitems x.1 x.2 := fun x hx =>
    hno x (List.mem_append_left _ hx)
  exact (ih hprev).move (conserved run) (step_iff_moves.mp h) (hno (s, e) (by simp))

theorem returned_full (run : Run (Step nitems cv) (initial np nc) tr s) (p : Fin np)
    (hpc : s.producer p = .returned) : nitems ≤ s.put.nput := by
  refine run.preserves (I := fun s => ∀ p, s.producer p = .returned → nitems ≤ s.put.nput)
    (fun p hp => ?_) (fun _ _ _ hp h => (step_iff_moves.mp h).returned_full hp) p hpc
  cases hp

theorem doomed_of_run (run : Run (Step nitems .single) (initial np nc) tr s)
    {x : Pool np nc × Event np nc} (hx : x ∈ tr) (hm : Monopolises nitems x.1 x.2) :
    ∃ c, Doomed nitems c s := by
  obtain ⟨pre, post, s', -, hpre, hstep, hpost⟩ := run.of_mem hx
  have hs := conserved hpre
  have hmove := step_iff_moves.mp hstep
  obtain ⟨c, hd⟩ := doomed_of_monopolises hs hmove hm
  refine ⟨c, ?_⟩
  have hboth : Conserved nitems s ∧ Doomed nitems c s := by
    refine hpost.preserves (I := fun s => Conserved nitems s ∧ Doomed nitems c s)
      ⟨hs.move hmove, hd⟩ ?_
    rintro s e s' ⟨hs, hd⟩ h
    have hm := step_iff_moves.mp h
    exact ⟨hs.move hm, hd.move hs hm⟩
  exact hboth.2

/-- **Where a run ends.**  A run that can go no further has finished every thread
if and only if it made no monopolising claim. -/
theorem finished_iff (hn : 0 < nitems) (hnp : 0 < np) (hnc : 0 < nc)
    (run : Run (Step nitems .single) (initial np nc) tr s)
    (ht : Terminal (Step nitems .single) s) :
    Finished s ↔ ∀ x ∈ tr, ¬ Monopolises nitems x.1 x.2 := by
  obtain ⟨hprod, hcons⟩ := terminal_iff.mp ht
  constructor
  · intro hf x hx hm
    obtain ⟨c, hd⟩ := doomed_of_run run hx hm
    obtain ⟨d, hdc⟩ := hd.other
    have := hf.2 d
    rw [hd.waiting d hdc] at this
    cases this
  · intro hno
    have hs := conserved run
    have ha : SomeActive s := no_lost_wakeup hnc run
    have hget := hs.stuck_all_claimed ha hnp (returned_full run) ht
    refine ⟨hprod, fun c => ?_⟩
    rcases relay_of_run run hn hno hget with hnone | ⟨d, hd⟩
    · exact (hcons c).resolve_left (hnone c)
    · rcases hcons d with h | h <;> simp [Consumer.Relays, h] at hd

end Run

end PosixNet.Prodcons6
