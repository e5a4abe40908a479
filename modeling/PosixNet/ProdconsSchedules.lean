import PosixNet.ProdconsDeadlock

/-!
# `prodcons6` with several consumers: schedules that exist

Two schedules, for every number of items and threads.  In the first the producers
run to their end before any consumer starts: every thread returns
(`exists_finished`).  In the second all consumers fall asleep first and the one
that is woken claims every item: with a second consumer the run gets stuck
(`exists_stuck`).  With one consumer it cannot, so freedom from deadlock depends
on `nthreads` alone (`deadlockFree_iff`).

Both are put together from threads run alone to their end (`producer_alone`,
`consumer_alone`), one after the other.
-/
namespace PosixNet.Prodcons6
variable {np nc nitems : Nat} {cv : CondVar} {s s' : Pool np nc} {e : Event np nc}

theorem reaches_head {t : Pool np nc} (h : Moves nitems cv s e s')
    (ht : Reaches (Step nitems cv) s' t) : Reaches (Step nitems cv) s t :=
  .head (step_iff_moves.mpr h) ht

theorem Conserved.reaches {t : Pool np nc} (hs : Conserved nitems s)
    (h : Reaches (Step nitems cv) s t) : Conserved nitems t := by
  obtain ⟨tr, run⟩ := h
  exact run.preserves hs fun _ _ _ hs h => hs.move (step_iff_moves.mp h)

/-! ## One producer alone -/

/-- A condition on the consumers and the ready count under which a producer can
announce an item, and which announcing keeps. -/
def Announces (cv : CondVar) (K : (Fin nc → Consumer) → Int → Prop) : Prop :=
  ∀ (np : Nat) (s : Pool np nc), 0 ≤ s.nready → K s.consumer s.nready → ∃ woken,
    (s.nready = 0 → cv.Wakes s.waiters woken) ∧ (s.nready ≠ 0 → woken = ∅) ∧
      K (s.wake woken).consumer (s.nready + 1)

variable {K : (Fin nc → Consumer) → Int → Prop}

/-- One round of the loop of `produce`. -/
theorem producer_round (hK : Announces cv K) {p : Fin np} (hs : Conserved nitems s)
    (hcons : K s.consumer s.nready) (hpc : s.producer p = .lockPut)
    (hroom : s.put.nput < nitems) :
    ∃ t, Reaches (Step nitems cv) s t ∧ K t.consumer t.nready ∧
      t.put = ⟨s.put.nput + 1, s.put.nval + 1, s.put.nget⟩ ∧ t.producer p = .lockPut ∧
      ∀ q, q ≠ p → t.producer q = s.producer q := by
  have hstore : Moves nitems cv s _ _ := .store p hpc hroom
  obtain ⟨woken, hsignal, hquiet, hcons₁⟩ := hK _ _ (hs.move hstore).nready_nonneg hcons
  have hann : Moves nitems cv _ _ _ :=
    .announce p woken (by simp [Pool.setProducer]) hsignal hquiet
  refine ⟨_, reaches_head hstore (reaches_head hann (reaches_head (.add p ?_) (.refl _))),
    hcons₁, rfl, ?_, fun q hq => ?_⟩
  · simp [Pool.setProducer]
  · simp [Pool.setProducer]
  · simp [Pool.setProducer, Pool.wake, hq]

/-- From the top of its loop a producer, scheduled alone, stores and announces until
the array is full. -/
theorem producer_alone (hK : Announces cv K) (p : Fin np) (k : Nat) :
    ∀ s : Pool np nc, nitems - s.put.nput = k → Conserved nitems s →
      K s.consumer s.nready → s.producer p = .lockPut →
      ∃ t, Reaches (Step nitems cv) s t ∧ K t.consumer t.nready ∧
        t.put.nget = s.put.nget ∧ t.producer p = .returned ∧
        ∀ q, q ≠ p → t.producer q = s.producer q := by
  induction k with
  | zero =>
    intro s hk hs hcons hpc
    refine ⟨_, reaches_head (.full p hpc (by omega)) (.refl _), hcons, rfl, ?_, fun q hq => ?_⟩
    · simp [Pool.setProducer]
    · simp [Pool.setProducer, hq]
  | succ k ih =>
    intro s hk hs hcons hpc
    obtain ⟨t, hst, htK, hput, htpc, hother⟩ := producer_round hK hs hcons hpc (by omega)
    obtain ⟨u, htu, huK, hget, hret, hother'⟩ :=
      ih t (by rw [hput]; show nitems - (s.put.nput + 1) = k; omega) (hs.reaches hst) htK htpc
    refine ⟨u, hst.trans htu, huK, by rw [hget, hput], hret, fun q hq => ?_⟩
    rw [hother' q hq, hother q hq]

/-- All producers, one after the other. -/
theorem producers_first (hK : Announces cv K) (hs : Conserved nitems s)
    (hcons : K s.consumer s.nready) (hprod : ∀ p, s.producer p = .lockPut) :
    ∃ t, Reaches (Step nitems cv) s t ∧ K t.consumer t.nready ∧
      t.put.nget = s.put.nget ∧ ∀ p, t.producer p = .returned := by
  have hall : ∃ t, Reaches (Step nitems cv) s t ∧
      (Conserved nitems t ∧ K t.consumer t.nready ∧ t.put.nget = s.put.nget ∧
        ∀ p, t.producer p = .lockPut ∨ t.producer p = .returned) ∧
      ∀ p, t.producer p = .returned := by
    refine Reaches.each ?_ ⟨hs, hcons, rfl, fun p => Or.inl (hprod p)⟩
    rintro p t ⟨ht, htK, hget, hpcs⟩
    rcases hpcs p with hpc | hpc
    · obtain ⟨u, hreach, huK, hget', hret, hother⟩ := producer_alone hK p _ t rfl ht htK hpc
      have hkeep : ∀ q, u.producer q = t.producer q ∨ u.producer q = .returned := fun q => by
        by_cases hq : q = p
        · exact Or.inr (hq ▸ hret)
        · exact Or.inl (hother q hq)
      refine ⟨u, hreach, ⟨ht.reaches hreach, huK, hget'.trans hget, fun q => ?_⟩, hret,
        fun q hq => ?_⟩
      · rcases hkeep q with h | h
        · rw [h]; exact hpcs q
        · exact Or.inr h
      · rcases hkeep q with h | h
        · rw [h]; exact hq
        · exact h
    · exact ⟨t, .refl t, ⟨ht, htK, hget, hpcs⟩, hpc, fun _ h => h⟩
  obtain ⟨t, hreach, ⟨-, htK, hget, -⟩, hret⟩ := hall
  exact ⟨t, hreach, htK, hget, hret⟩

/-! ## One consumer alone -/

/-- Nothing but `c` has changed, and only the consumers' counters. -/
structure OnlyConsumer (c : Fin nc) (s t : Pool np nc) : Prop where
  producer : t.producer = s.producer
  nput : t.put.nput = s.put.nput
  other : ∀ d, d ≠ c → t.consumer d = s.consumer d

theorem OnlyConsumer.trans {c : Fin nc} {t u : Pool np nc} (h : OnlyConsumer c s t)
    (h' : OnlyConsumer c t u) : OnlyConsumer c s u where
  producer := h'.producer.trans h.producer
  nput := h'.nput.trans h.nput
  other := fun d hd => (h'.other d hd).trans (h.other d hd)

/-- A claim and the check after it, when every item is announced. -/
theorem consumer_claims {c : Fin nc} (hs : Conserved nitems s)
    (hprod : ∀ p, s.producer p = .returned) (hfull : nitems ≤ s.put.nput)
    (hpc : (s.consumer c).pc = .lockReady) (hget : s.put.nget < nitems) :
    ∃ t, Reaches (Step nitems cv) s t ∧ OnlyConsumer c s t ∧ t.put.nget = s.put.nget + 1 ∧
      (t.consumer c).pc = .test ∧ (t.consumer c).i = (s.consumer c).i + 1 := by
  have hready : s.nready ≠ 0 := by
    have hb := hs.balance
    have hflight := inFlight_eq_zero hprod
    omega
  refine ⟨_, reaches_head (.claim c hpc hready hget) (reaches_head (.check c ?_) (.refl _)),
    ⟨rfl, rfl, fun d hd => ?_⟩, rfl, ?_, ?_⟩
  · simp [Pool.setConsumer]
  · simp [Pool.setConsumer, hd]
  · simp [Pool.setConsumer]
  · simp [Pool.setConsumer]

/-- With every item announced, a consumer scheduled alone from its loop test
returns.  It signals on the way only if somebody else has claimed an item, so it
wakes nobody if nobody waits or if its own claims are all there are. -/
theorem consumer_alone (c : Fin nc) (k : Nat) :
    ∀ s : Pool np nc, nitems - (s.consumer c).i = k → Conserved nitems s →
      (∀ p, s.producer p = .returned) → nitems ≤ s.put.nput → (s.consumer c).pc = .test →
      ((∀ d, (s.consumer d).pc ≠ .waiting) ∨ s.put.nget = (s.consumer c).i) →
      ∃ t, Reaches (Step nitems cv) s t ∧ OnlyConsumer c s t ∧ (t.consumer c).pc = .returned := by
  induction k with
  | zero =>
    intro s hk _ _ _ hpc _
    refine ⟨_, reaches_head (.exhaust c hpc (by omega))
      (reaches_head (.subtract c ?_) (.refl _)), ⟨rfl, rfl, fun d hd => ?_⟩, ?_⟩
    · simp [Pool.setConsumer]
    · simp [Pool.setConsumer, hd]
    · simp [Pool.setConsumer]
  | succ k ih =>
    intro s hk hs hprod hfull hpc hquiet
    have henter : Moves nitems cv s _ _ := .enter c hpc (by omega)
    have hs₁ := hs.move henter
    have honly : OnlyConsumer c s (s.setConsumer c { s.consumer c with pc := .lockReady }) :=
      ⟨rfl, rfl, fun d hd => by simp [Pool.setConsumer, hd]⟩
    rcases Nat.lt_or_ge s.put.nget nitems with hget | hget
    · obtain ⟨t, hst, ht, hget', htpc, hti⟩ :=
        @consumer_claims np nc nitems cv _ c hs₁ hprod hfull (by simp [Pool.setConsumer]) hget
      have hi : (t.consumer c).i = (s.consumer c).i + 1 := by
        rw [hti]; simp [Pool.setConsumer]
      have htprod : ∀ p, t.producer p = .returned := fun p => by rw [ht.producer]; exact hprod p
      have htquiet : (∀ d, (t.consumer d).pc ≠ .waiting) ∨ t.put.nget = (t.consumer c).i := by
        rcases hquiet with h | h
        · left
          intro d
          by_cases hd : d = c
          · subst hd; simp [htpc]
          · rw [(honly.trans ht).other d hd]; exact h d
        · right
          rw [hget', hi, ← h]
          rfl
      obtain ⟨u, htu, hu, hret⟩ := ih t (by omega) (hs₁.reaches hst) htprod
        (by rw [ht.nput]; exact hfull) htpc htquiet
      exact ⟨u, reaches_head henter (hst.trans htu), (honly.trans ht).trans hu, hret⟩
    · -- every item is claimed: the consumer leaves, and its signal finds nobody
      have hnone : ∀ d, (s.consumer d).pc ≠ .waiting := hquiet.resolve_right (by omega)
      have hw : (s.setConsumer c { s.consumer c with pc := .lockReady }).waiters = ∅ := by
        refine Finset.filter_eq_empty_iff.mpr fun d _ => ?_
        by_cases hd : d = c
        · subst hd; simp [Pool.setConsumer]
        · simpa [Pool.setConsumer, hd] using hnone d
      refine ⟨_, reaches_head henter (reaches_head (.leave c ∅ ?_ hget ?_) (.refl _)),
        honly.trans ⟨rfl, rfl, fun d hd => ?_⟩, ?_⟩
      · simp [Pool.setConsumer]
      · rw [hw]; exact CondVar.wakes_empty.mpr rfl
      · rw [Pool.wake_empty]; simp [Pool.setConsumer, hd]
      · simp [Pool.setConsumer]

/-! ## A schedule that finishes -/

/-- While nobody waits, announcing wakes nobody. -/
theorem announces_fresh (cv : CondVar) :
    Announces cv fun (consumer : Fin nc → Consumer) _ => ∀ c, consumer c = ⟨.test, 0, 0⟩ := by
  intro np s _ hfresh
  have hw : s.waiters = ∅ :=
    Finset.filter_eq_empty_iff.mpr fun c _ => by simp [hfresh c]
  exact ⟨∅, fun _ => by rw [hw]; exact CondVar.wakes_empty.mpr rfl, fun _ => rfl,
    fun c => by rw [Pool.wake_empty]; exact hfresh c⟩

/-- **Some schedule finishes every thread**: first the producers, then the
consumers, one after the other. -/
theorem exists_finished (nitems : Nat) (cv : CondVar) (hnp : 0 < np) :
    ∃ t : Pool np nc, Reaches (Step nitems cv) (initial np nc) t ∧ Finished t := by
  have h₀ : Conserved nitems (initial np nc) := conserved_initial nitems
  obtain ⟨s, hinit, hfresh, -, hprod⟩ :=
    producers_first (announces_fresh cv) h₀ (fun _ => rfl) (fun _ => rfl)
  have hfull : nitems ≤ s.put.nput := by
    obtain ⟨tr, run⟩ := hinit
    exact returned_full run ⟨0, hnp⟩ (hprod _)
  have hall : ∃ t, Reaches (Step nitems cv) s t ∧
      (Conserved nitems t ∧ (∀ p, t.producer p = .returned) ∧ nitems ≤ t.put.nput ∧
        ∀ c, (t.consumer c).pc = .test ∨ (t.consumer c).pc = .returned) ∧
      ∀ c, (t.consumer c).pc = .returned := by
    refine Reaches.each ?_ ⟨(conserved_initial nitems).reaches hinit, hprod, hfull,
      fun c => Or.inl (by rw [hfresh c])⟩
    rintro c t ⟨ht, htprod, htfull, hpcs⟩
    rcases hpcs c with hpc | hpc
    · have hquiet : ∀ d, (t.consumer d).pc ≠ .waiting := fun d => by
        rcases hpcs d with h | h <;> simp [h]
      obtain ⟨u, htu, hu, hret⟩ := consumer_alone c _ t rfl ht htprod htfull hpc (Or.inl hquiet)
      refine ⟨u, htu, ⟨ht.reaches htu, fun p => by rw [hu.producer]; exact htprod p,
        by rw [hu.nput]; exact htfull, fun d => ?_⟩, hret, fun d hd => ?_⟩
      · by_cases hdc : d = c
        · exact Or.inr (hdc ▸ hret)
        · rw [hu.other d hdc]; exact hpcs d
      · by_cases hdc : d = c
        · exact hdc ▸ hret
        · rw [hu.other d hdc]; exact hd
    · exact ⟨t, .refl t, ⟨ht, htprod, htfull, hpcs⟩, hpc, fun _ h => h⟩
  obtain ⟨t, hst, ⟨-, htprod, -⟩, hcons⟩ := hall
  exact ⟨t, hinit.trans hst, htprod, hcons⟩

/-! ## A schedule that gets stuck -/

/-- All consumers block before anything is produced. -/
theorem all_asleep (hn : 0 < nitems) :
    ∃ s : Pool np nc, Reaches (Step nitems cv) (initial np nc) s ∧ s.put = ⟨0, 0, 0⟩ ∧
      s.nready = 0 ∧ (∀ p, s.producer p = .lockPut) ∧ ∀ c, s.consumer c = ⟨.waiting, 0, 0⟩ := by
  have hall : ∃ s : Pool np nc, Reaches (Step nitems cv) (initial np nc) s ∧
      (s.put = ⟨0, 0, 0⟩ ∧ s.nready = 0 ∧ (∀ p, s.producer p = .lockPut) ∧
        ∀ c, s.consumer c = ⟨.test, 0, 0⟩ ∨ s.consumer c = ⟨.waiting, 0, 0⟩) ∧
      ∀ c, s.consumer c = ⟨.waiting, 0, 0⟩ := by
    refine Reaches.each ?_ ⟨rfl, rfl, fun _ => rfl, fun _ => Or.inl rfl⟩
    rintro c s ⟨hput, hready, hprod, hcs⟩
    rcases hcs c with hc | hc
    · have hother : ∀ d, d = c ∨ d ≠ c := fun d => Classical.em _
      refine ⟨_, reaches_head (.enter c (by rw [hc]) (by rw [hc]; exact hn))
        (reaches_head (.sleep c ?_ hready ?_) (.refl _)), ⟨hput, hready, hprod, fun d => ?_⟩, ?_,
        fun d hd => ?_⟩
      · simp [Pool.setConsumer]
      · rw [Pool.setConsumer, hput]; exact hn
      · rcases hother d with rfl | hdc
        · simp [Pool.setConsumer, hc]
        · simpa [Pool.setConsumer, hdc] using hcs d
      · simp [Pool.setConsumer, hc]
      · rcases hother d with rfl | hdc
        · simp [Pool.setConsumer, hc]
        · simpa [Pool.setConsumer, hdc] using hd
    · exact ⟨s, .refl s, ⟨hput, hready, hprod, hcs⟩, hc, fun _ h => h⟩
  obtain ⟨s, hreach, ⟨hput, hready, hprod, -⟩, hcs⟩ := hall
  exact ⟨s, hreach, hput, hready, hprod, hcs⟩

/-- The consumer `c₀` is woken for the first item, the others sleep on. -/
def OneWoken (c₀ : Fin nc) (consumer : Fin nc → Consumer) (nready : Int) : Prop :=
  (consumer c₀).i = 0 ∧
    ((consumer c₀).pc = .waiting ∧ nready = 0 ∨ (consumer c₀).pc = .lockReady ∧ nready ≠ 0) ∧
    ∀ d, d ≠ c₀ → (consumer d).pc = .waiting

theorem announces_oneWoken (cv : CondVar) (c₀ : Fin nc) : Announces cv (OneWoken c₀) := by
  intro np s hn ⟨hi, hpc, hothers⟩
  rcases hpc with ⟨hw, h0⟩ | ⟨hlock, h0⟩
  · refine ⟨{c₀}, fun _ => CondVar.wakes_singleton (s.mem_waiters.mpr hw), fun hne => absurd h0 hne,
      ?_, Or.inr ⟨?_, by omega⟩, fun d hd => ?_⟩
    · simp [Pool.wake, hi]
    · simp [Pool.wake]
    · simpa [Pool.wake, hd] using hothers d hd
  · refine ⟨∅, fun h => absurd h h0, fun _ => rfl, ?_⟩
    rw [Pool.wake_empty]
    exact ⟨hi, Or.inr ⟨hlock, by omega⟩, hothers⟩

/-- **Some schedule gets stuck**, if there is a second consumer: the first one woken
claims every item and leaves through its own loop. -/
theorem exists_stuck (hn : 0 < nitems) (hnp : 0 < np) {c₀ d₀ : Fin nc} (hne : d₀ ≠ c₀) :
    ∃ t : Pool np nc, Reaches (Step nitems .single) (initial np nc) t ∧
      Terminal (Step nitems .single) t ∧ (t.consumer d₀).pc = .waiting := by
  obtain ⟨s, hinit, hput, hready, hprod, hcs⟩ := @all_asleep np nc nitems .single hn
  have hs := (conserved_initial nitems).reaches hinit
  have hK : OneWoken c₀ s.consumer s.nready :=
    ⟨by rw [hcs c₀], Or.inl ⟨by rw [hcs c₀], hready⟩, fun d _ => by rw [hcs d]⟩
  obtain ⟨t, hst, ⟨hi, hpc, hothers⟩, hget, hret⟩ :=
    producers_first (announces_oneWoken .single c₀) hs hK hprod
  have ht := hs.reaches hst
  have hget0 : t.put.nget = 0 := by rw [hget, hput]
  have hfull : nitems ≤ t.put.nput := by
    obtain ⟨tr, run⟩ := hinit.trans hst
    exact returned_full run ⟨0, hnp⟩ (hret _)
  -- all items are announced, so `c₀` is awake
  have hlock : (t.consumer c₀).pc = .lockReady := by
    have hb := ht.balance
    have hflight := inFlight_eq_zero hret
    exact (hpc.resolve_left fun h => by omega).1
  obtain ⟨u, htu, hu, hget', hupc, hui⟩ :=
    @consumer_claims np nc nitems .single t c₀ ht hret hfull hlock (by omega)
  have huret : ∀ p, u.producer p = .returned := fun p => by rw [hu.producer]; exact hret p
  obtain ⟨v, huv, hv, hvpc⟩ := consumer_alone c₀ _ u rfl (ht.reaches htu) huret
    (by rw [hu.nput]; exact hfull) hupc (Or.inr (by omega))
  have honly := hu.trans hv
  refine ⟨v, hinit.trans (hst.trans (htu.trans huv)),
    terminal_iff.mpr ⟨fun p => ?_, fun d => ?_⟩, ?_⟩
  · rw [honly.producer]; exact hret p
  · by_cases hd : d = c₀
    · exact Or.inr (hd ▸ hvpc)
    · rw [honly.other d hd]; exact Or.inl (hothers d hd)
  · rw [honly.other d₀ hne]; exact hothers d₀ hne

/-! ## Freedom from deadlock -/

/-- With `nthreads` producers and consumers, no reachable state is stuck with a
thread that has not returned. -/
def DeadlockFree (nitems nthreads : Nat) : Prop :=
  ∀ tr s, Run (Step nitems .single) (initial nthreads nthreads) tr s → ¬ Finished s →
    ∃ e s', Step nitems .single s e s'

/-- **When the program is free from deadlock.**  A run that can go no further has
finished every thread exactly if it made no monopolising claim; over all schedules
such claims are excluded exactly when there is one consumer. -/
theorem deadlockFree_iff {nitems nthreads : Nat} (hn : 1 ≤ nitems) (ht : 1 ≤ nthreads) :
    (∀ tr s, Run (Step nitems .single) (initial nthreads nthreads) tr s →
      Terminal (Step nitems .single) s →
        (Finished s ↔ ∀ x ∈ tr, ¬ Monopolises nitems x.1 x.2)) ∧
    (DeadlockFree nitems nthreads ↔ nthreads = 1) := by
  have hends := fun tr s (run : Run (Step nitems .single) (initial nthreads nthreads) tr s)
    (hterm : Terminal (Step nitems .single) s) => finished_iff hn ht ht run hterm
  refine ⟨hends, fun hfree => ?_, fun hone tr s run hnot => ?_⟩
  · -- a second consumer can be left asleep
    by_contra hmany
    have hne : (⟨1, by omega⟩ : Fin nthreads) ≠ ⟨0, by omega⟩ := by simp
    obtain ⟨t, ⟨tr, run⟩, hterm, hw⟩ := exists_stuck hn ht hne
    have hnot : ¬ Finished t := fun hf => by
      have := hf.2 ⟨1, by omega⟩
      rw [hw] at this
      cases this
    obtain ⟨e, s', h⟩ := hfree tr t run hnot
    exact hterm e s' h
  · by_contra hstuck
    push Not at hstuck
    refine hnot ((hends tr s run hstuck).mpr fun x _ ⟨c, j, _, _, ⟨d, hd⟩, _⟩ => hd ?_)
    subst hone
    exact Subsingleton.elim d c

theorem deadlockFree_two_items_three_threads : DeadlockFree 2 3 ↔ 3 = 1 :=
  (deadlockFree_iff (by decide) (by decide)).2

/-- Two threads of each kind and one item.  Both consumers block, the producer's
signal wakes the first; it claims the item, leaves through its loop, and the second
is never woken. -/
theorem deadlock_one_item_two_threads :
    ¬ ∀ nitems nthreads, 1 ≤ nitems → nitems ≤ MAXNITEMS → 1 ≤ nthreads →
      nthreads ≤ MAXNTHREADS → DeadlockFree nitems nthreads := by
  intro hfree
  have run := run_get (step 1 .single)
    [.consume 0 ∅, .consume 0 ∅, .consume 1 ∅, .consume 1 ∅,
      .produce 0 ∅, .produce 0 {0}, .produce 0 ∅, .produce 0 ∅, .produce 1 ∅,
      .consume 0 ∅, .consume 0 ∅, .consume 0 ∅, .consume 0 ∅]
    (initial 2 2) (by decide)
  obtain ⟨e, s', h⟩ := hfree 1 2 (by decide) (by decide) (by decide) (by decide) _ _ run
    (fun hf => absurd (hf.2 1) (by decide))
  exact terminal_iff.mpr (by decide) e s' h

end PosixNet.Prodcons6
