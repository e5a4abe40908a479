import PosixNet.ProdconsSchedules

/-!
# `prodcons6` with several consumers: which items are checked

A consumer claims the item `j = put.nget++` and then looks at `buff[i]`, where `i`
is its own loop counter.  In the single-consumer program the two are the same
number; with several consumers `i` counts the consumer's own claims while `j`
counts everybody's.

The checks of a consumer are `0, 1, …, i - 1` (`checkedBy_eq_range`) and its claims
are some increasing list of the same length, so a run that ends checks every item
once exactly if every claim was made with `i` equal to `put.nget`
(`checkedOnce_iff`), which is to say by one and the same consumer.

The check is made without a lock, and on a slot the consumer may not have claimed.
It still finds what it looks for: `i` is less than the consumer's own claims, hence
than everybody's, hence than the slots stored (`no_false_alarm`).
-/
namespace PosixNet.Prodcons6
variable {np nc nitems : Nat} {cv : CondVar} {s s' : Pool np nc} {e : Event np nc}
  {tr : List (Pool np nc × Event np nc)}

/-- The check a step makes: who, and which index of `buff`. -/
def Event.check? : Event np nc → Option (Fin nc × Nat)
  | .checked c k _ => some (c, k)
  | _ => none

/-- The indices of `buff` looked at in a run, in order, with the consumers. -/
def checksOf (tr : List (Pool np nc × Event np nc)) : List (Fin nc × Nat) :=
  (labels tr).filterMap Event.check?

theorem checksOf_snoc (tr : List (Pool np nc × Event np nc)) (s : Pool np nc)
    (e : Event np nc) : checksOf (tr ++ [(s, e)]) = checksOf tr ++ e.check?.toList := by
  rw [checksOf, labels_append, List.filterMap_append]
  cases h : e.check? <;> simp [checksOf, h]

/-- The items consumer `c` claimed. -/
def claimedBy (c : Fin nc) (tr : List (Pool np nc × Event np nc)) : List Nat :=
  byThread c (claimsOf tr)

/-- The indices consumer `c` checked. -/
def checkedBy (c : Fin nc) (tr : List (Pool np nc × Event np nc)) : List Nat :=
  byThread c (checksOf tr)

/-- Every item is checked exactly once, and by the consumer that claimed it. -/
def CheckedOnce (nitems : Nat) (tr : List (Pool np nc × Event np nc)) : Prop :=
  ((checksOf tr).map Prod.snd).Perm (List.range nitems) ∧
    ∀ c, (checkedBy c tr).Perm (claimedBy c tr)

instance (nitems : Nat) (tr : List (Pool np nc × Event np nc)) :
    Decidable (CheckedOnce nitems tr) := inferInstanceAs (Decidable (_ ∧ _))

/-! ## What one step adds to the books of a consumer -/

/-- A value read off the consumers is unchanged when the one that moves keeps it. -/
theorem read_update {β : Type} (f : Consumer → β) {g : Fin nc → Consumer} {c : Fin nc}
    {l : Consumer} (h : f l = f (g c)) (d : Fin nc) : f (Function.update g c l d) = f (g d) := by
  by_cases hd : d = c
  · subst hd; simpa using h
  · simp [hd]

theorem wake_consumer_i (s : Pool np nc) (woken : Finset (Fin nc)) (c : Fin nc) :
    ((s.wake woken).consumer c).i = (s.consumer c).i := by
  by_cases h : c ∈ woken
  · rw [Pool.wake_consumer_of_mem s h]
  · rw [Pool.wake_consumer_of_notMem s h]

/-- A check looks at `buff[i]` and counts `i` up; nothing else changes `i`. -/
theorem Moves.i_eq (h : Moves nitems cv s e s') (c : Fin nc) :
    List.range (s'.consumer c).i = List.range (s.consumer c).i ++ byThread c e.check?.toList := by
  have hsame : (s'.consumer c).i = (s.consumer c).i → e.check? = none →
      List.range (s'.consumer c).i =
        List.range (s.consumer c).i ++ byThread c e.check?.toList := fun hi hnone => by
    rw [hi, hnone]
    exact (List.append_nil _).symm
  cases h with
  | full | store | add => exact hsame rfl rfl
  | announce p woken => exact hsame (wake_consumer_i s woken c) rfl
  | leave d woken =>
    refine hsame ((read_update Consumer.i ?_ c).trans (wake_consumer_i s woken c)) rfl
    exact (wake_consumer_i s woken d).symm
  | check d _ =>
    by_cases hd : d = c
    · subst hd
      simp [Pool.setConsumer, Event.check?, List.range_succ]
    · simp [Pool.setConsumer, Event.check?, byThread_of_ne hd, Ne.symm hd]
  | claim d | enter d | exhaust d | sleep d | subtract d | awake d =>
    refine hsame (read_update Consumer.i ?_ c) rfl
    rfl

/-- A claim adds one to what its consumer has claimed, and to nobody else's. -/
theorem Moves.claims_eq (h : Moves nitems cv s e s') (c : Fin nc) :
    (s'.consumer c).claims = (s.consumer c).claims + (byThread c e.claim?.toList).length := by
  cases h with
  | full | store | add => rfl
  | announce p woken _ hsignal hquiet =>
    exact Pool.wake_consumer_claims (woken_subset hsignal hquiet) c
  | leave d woken hpc _ hsignal =>
    have hwake := Pool.wake_consumer_claims hsignal.subset
    refine (read_update Consumer.claims ?_ c).trans (hwake c)
    rw [hwake d]
    simp [Consumer.claims, hpc]
  | claim d hpc =>
    by_cases hd : d = c
    · subst hd
      simp [Pool.setConsumer, Event.claim?, Consumer.claims, hpc]
    · simp [Pool.setConsumer, Event.claim?, byThread_of_ne hd, Ne.symm hd]
  | enter d hpc | exhaust d hpc | sleep d hpc | check d hpc | subtract d hpc | awake d _ hpc =>
    refine read_update Consumer.claims ?_ c
    simp [Consumer.claims, hpc]

/-! ## The books of a run -/

/-- A consumer checks `buff[0]`, `buff[1]`, … in order, whatever it claims. -/
theorem checkedBy_eq_range (run : Run (Step nitems cv) (initial np nc) tr s) (c : Fin nc) :
    checkedBy c tr = List.range (s.consumer c).i := by
  refine run.invariant (I := fun tr s => checkedBy c tr = List.range (s.consumer c).i) rfl ?_
  intro tr s e s' _ ih h
  rw [(step_iff_moves.mp h).i_eq c, ← ih, checkedBy, checksOf_snoc, byThread_append]
  rfl

theorem claimedBy_length (run : Run (Step nitems cv) (initial np nc) tr s) (c : Fin nc) :
    (claimedBy c tr).length = (s.consumer c).claims := by
  refine run.invariant (I := fun tr s => (claimedBy c tr).length = (s.consumer c).claims) rfl ?_
  intro tr s e s' _ ih h
  rw [(step_iff_moves.mp h).claims_eq c, ← ih, claimedBy, claimsOf_snoc, byThread_append,
    List.length_append]
  rfl

/-- A consumer's claims increase. -/
theorem claimedBy_pairwise (run : Run (Step nitems cv) (initial np nc) tr s) (c : Fin nc) :
    (claimedBy c tr).Pairwise (· < ·) := by
  refine byThread_pairwise ?_ c
  rw [claimsOf_eq_range run]
  exact List.pairwise_lt_range

theorem Finished.consumer_claims (hf : Finished s) (c : Fin nc) :
    (s.consumer c).claims = (s.consumer c).i := by
  simp [Consumer.claims, hf.2 c]

/-- In a finished run every item has been claimed. -/
theorem Finished.nget_eq (run : Run (Step nitems cv) (initial np nc) tr s) (hf : Finished s)
    (hnc : 0 < nc) : s.put.nget = nitems := by
  have hs := conserved run
  have hp := hs.placed ⟨0, hnc⟩
  simp only [Consumer.Placed, hf.2] at hp
  exact (hs.all_claimed hp).2.2.1

/-- If every claim so far was made with `i = put.nget`, each consumer has claimed
what it has checked, and the item in hand. -/
theorem claimedBy_eq_range (run : Run (Step nitems cv) (initial np nc) tr s)
    (hall : ∀ t c j, (t, Event.claimed c j) ∈ tr → (t.consumer c).i = t.put.nget) (c : Fin nc) :
    claimedBy c tr = List.range (s.consumer c).claims := by
  refine run.invariant
    (I := fun tr s => (∀ t c j, (t, Event.claimed c j) ∈ tr → (t.consumer c).i = t.put.nget) →
      claimedBy c tr = List.range (s.consumer c).claims) (fun _ => rfl) ?_ hall
  intro tr s e s' _ ih h hall
  have ih := ih fun t d j hmem => hall t d j (List.mem_append_left _ hmem)
  have hmove := step_iff_moves.mp h
  rw [hmove.claims_eq c, claimedBy, claimsOf_snoc, byThread_append]
  rw [claimedBy] at ih
  rw [ih]
  cases hmove with
  | claim d hpc _ _ =>
    by_cases hd : d = c
    · subst hd
      have hi := hall s d s.put.nget (by simp)
      simp [Event.claim?, List.range_succ, Consumer.claims, hpc, hi]
    · simp [Event.claim?, byThread_of_ne hd]
  | _ => exact List.append_nil _

/-- **When every item is checked exactly once.**  A run in which all threads return
checks each item once, and each consumer the items it claimed, if and only if every
claim was made with the consumer's loop counter equal to `put.nget`. -/
theorem checkedOnce_iff (hnc : 0 < nc) (run : Run (Step nitems cv) (initial np nc) tr s)
    (hf : Finished s) : CheckedOnce nitems tr ↔
      ∀ t c j, (t, Event.claimed c j) ∈ tr → (t.consumer c).i = t.put.nget := by
  constructor
  · rintro ⟨-, hown⟩ t c j hmem
    obtain ⟨pre, post, t', rfl, hpre, hclaim, -⟩ := run.of_mem hmem
    have hmove : Moves nitems cv t (.claimed c j) t' := step_iff_moves.mp hclaim
    -- increasing lists that agree up to order are equal
    have hrange : claimedBy c (pre ++ (t, .claimed c j) :: post) = List.range (s.consumer c).i := by
      rw [← checkedBy_eq_range run c]
      have hsorted := claimedBy_pairwise run c
      have hsorted' : (checkedBy c (pre ++ (t, .claimed c j) :: post)).Pairwise (· < ·) := by
        rw [checkedBy_eq_range run c]
        exact List.pairwise_lt_range
      exact (hown c).symm.eq_of_pairwise (fun _ _ _ _ h h' => absurd h (Nat.lt_asymm h'))
        hsorted hsorted'
    -- the claim is entry number `i` of its consumer's claims
    have hlen : (claimedBy c pre).length = (t.consumer c).i := by
      rw [claimedBy_length hpre]
      cases hmove with
      | claim _ hpc => simp [Consumer.claims, hpc]
    have hj : j = t.put.nget := by
      cases hmove with
      | claim => rfl
    have hsplit : claimedBy c (pre ++ (t, .claimed c j) :: post) =
        claimedBy c pre ++ j :: claimedBy c post := by
      simp [claimedBy, claimsOf, Event.claim?, byThread]
    have hget : (claimedBy c pre ++ j :: claimedBy c post)[(t.consumer c).i]? = some j := by
      rw [← hlen, List.getElem?_append_right (le_refl _), Nat.sub_self]
      rfl
    rw [← hsplit, hrange] at hget
    obtain ⟨_, hij⟩ := List.getElem?_eq_some_iff.mp hget
    rw [List.getElem_range] at hij
    rw [hij, hj]
  · intro hall
    have hsame : ∀ c, checkedBy c tr = claimedBy c tr := fun c => by
      rw [checkedBy_eq_range run, claimedBy_eq_range run hall, hf.consumer_claims]
    refine ⟨?_, fun c => by rw [hsame c]⟩
    have hperm : (checksOf tr).Perm (claimsOf tr) := perm_of_byThread fun c => by
      show (checkedBy c tr).Perm (claimedBy c tr)
      rw [hsame c]
    rw [← Finished.nget_eq run hf hnc, ← claimsOf_eq_range run]
    exact hperm.map _

/-- Two producers and one of two consumers do all the work: two items, two checks. -/
theorem checkedOnce_one_busy_consumer : ∃ tr s,
    (Run (Step 2 .single) (initial 2 2) tr s ∧ Finished s) ∧
      (CheckedOnce 2 tr ↔
        ∀ t c j, (t, Event.claimed c j) ∈ tr → (t.consumer c).i = t.put.nget) := by
  have run := run_get (step 2 .single)
    [.produce 0 ∅, .produce 0 ∅, .produce 0 ∅, .produce 1 ∅, .produce 1 ∅, .produce 1 ∅,
      .produce 0 ∅, .produce 1 ∅, .consume 0 ∅, .consume 0 ∅, .consume 0 ∅, .consume 0 ∅,
      .consume 0 ∅, .consume 0 ∅, .consume 0 ∅, .consume 0 ∅, .consume 1 ∅, .consume 1 ∅]
    (initial 2 2) (by decide)
  exact ⟨_, _, ⟨run, by decide, by decide⟩, checkedOnce_iff (by decide) run ⟨by decide, by decide⟩⟩

/-- Two items, one claimed by each of two consumers: both look at `buff[0]`, nobody
looks at `buff[1]`. -/
theorem not_checkedOnce_two_consumers :
    ¬ ∀ nitems nthreads, 1 ≤ nitems → nitems ≤ MAXNITEMS → 1 ≤ nthreads →
      ∀ tr s, Run (Step nitems .single) (initial nthreads nthreads) tr s → Finished s →
        CheckedOnce nitems tr := by
  intro hall
  have run := run_get (step 2 .single)
    [.produce 0 ∅, .produce 0 ∅, .produce 0 ∅, .produce 0 ∅, .produce 0 ∅, .produce 0 ∅,
      .produce 0 ∅, .produce 1 ∅, .consume 0 ∅, .consume 0 ∅, .consume 0 ∅, .consume 1 ∅,
      .consume 1 ∅, .consume 1 ∅, .consume 0 ∅, .consume 0 ∅, .consume 1 ∅, .consume 1 ∅]
    (initial 2 2) (by decide)
  exact absurd (hall 2 2 (by decide) (by decide) (by decide) _ _ run ⟨by decide, by decide⟩)
    (by decide)

/-! ## What a check finds -/

/-- The message of line 112: the index and what `buff` holds there. -/
def Event.mismatch? : Event np nc → Option (Nat × Int)
  | .checked _ k v => if v ≠ k then some (k, v) else none
  | _ => none

/-- The messages of line 112 printed in a run. -/
def mismatches (tr : List (Pool np nc × Event np nc)) : List (Nat × Int) :=
  (labels tr).filterMap Event.mismatch?

/-- A consumer in front of line 111 has claimed one item more than it has checked, so
its loop counter is below the claims of all, and these below the slots stored. -/
theorem Conserved.i_lt_nput (hs : Conserved nitems s) {c : Fin nc}
    (hpc : (s.consumer c).pc = .checkSlot) : (s.consumer c).i < s.put.nput := by
  have hown : (s.consumer c).claims = (s.consumer c).i + 1 := by simp [Consumer.claims, hpc]
  have hall := Pool.claims_le (s := s) c
  have hget := hs.claims_eq
  have hbalance := hs.balance
  have hready := hs.nready_nonneg
  omega

/-- A check looks at a slot that has been stored, and finds its own index there. -/
theorem checked_stored {pre post : List (Pool np nc × Event np nc)} {c : Fin nc} {k : Nat}
    {v : Int} (run : Run (Step nitems cv) (initial np nc) (pre ++ (s, .checked c k v) :: post) s') :
    k = (s.consumer c).i ∧ (∃ p w, Event.stored p k w ∈ labels pre) ∧ s.buff k = k ∧ v = k := by
  obtain ⟨t, hpre, hcheck, -⟩ := run.split
  have hs := conserved hpre
  cases step_iff_moves.mp hcheck with
  | check _ hpc =>
    have hi := hs.i_lt_nput hpc
    exact ⟨rfl, stored_of_lt hpre _ hi, hs.buff_eq _ hi, hs.buff_eq _ hi⟩

/-- **No false alarm.**  Whatever the schedule, a consumer that looks at `buff[i]`
looks at a slot that has been stored and holds `i`, so line 112 prints nothing. -/
theorem no_false_alarm (run : Run (Step nitems cv) (initial np nc) tr s) :
    (∀ pre (t : Pool np nc) c (k : Nat) (v : Int) post, tr = pre ++ (t, .checked c k v) :: post →
      k = (t.consumer c).i ∧ (∃ p w, Event.stored p k w ∈ labels pre) ∧ t.buff k = k ∧ v = k) ∧
    mismatches tr = [] := by
  refine ⟨?_, ?_⟩
  · rintro pre t c k v post rfl
    exact checked_stored run
  · refine List.filterMap_eq_nil_iff.mpr fun e he => ?_
    obtain ⟨x, hx, rfl⟩ := List.mem_map.mp he
    obtain ⟨pre, post, t, rfl, -⟩ := run.of_mem hx
    obtain ⟨t, e⟩ := x
    cases e with
    | checked c k v => exact if_neg (not_not.mpr (checked_stored run).2.2.2)
    | _ => rfl

/-- Producer 0 has stored and announced two items, each of two consumers claims one and
looks at `buff[0]`. -/
theorem no_false_alarm_two_consumers : ∃ tr s, (Run (Step 2 .single) (initial 2 2) tr s ∧
    checksOf tr = [(0, 0), (1, 0)]) ∧ mismatches tr = [] := by
  have run := run_get (step 2 .single)
    [.produce 0 ∅, .produce 0 ∅, .produce 0 ∅, .produce 0 ∅, .produce 0 ∅, .consume 0 ∅,
      .consume 0 ∅, .consume 1 ∅, .consume 1 ∅, .consume 0 ∅, .consume 1 ∅]
    (initial 2 2) (by decide)
  exact ⟨_, _, ⟨run, by decide⟩, (no_false_alarm run).2⟩

end PosixNet.Prodcons6
