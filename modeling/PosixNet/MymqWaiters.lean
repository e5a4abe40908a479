import PosixNet.MymqQueue

/-!
# Who waits for a message queue

A thread that finds the queue empty or full sleeps on the one condition variable of the queue.
`mymq_send` signals it when the queue was empty, `mymq_receive` when it was full, and either
signal may go to a thread that waits for the other.

* **`mymq_notifies`**: `mqh_nwait` counts the threads that wait for a message, and a
  registered process is sent its signal once, when a message comes to an empty queue that no
  thread waits for.
* **`mq_stranded_iff`**: a thread can be left asleep though there is what it waits for, exactly
  if three threads or more use the queue.
-/
namespace PosixNet.Mymq
open Monitor PrioQueue

variable {z : Layout} {s s' : Mq} {q : List Msg} {m : Msg} {p : Place} {call : Call} {e : Done}
  {o : Outcome Unit Mq Place}

/-! ## Notification -/

/-- The process that was sent a signal. -/
def Done.signalled? : Done → Option ℕ
  | .sent _ signalled => signalled
  | _ => none

/-- The process that has registered. -/
def Done.registered? : Done → Option ℕ
  | .registered pid => some pid
  | _ => none

/-- A call keeps the number of those who wait for a message. -/
theorem Branch.nwait (hb : Branch z s q p e o) :
    o.shared.nwait - o.place.waits = s.nwait - p.waits := by
  cases hb with
  | sent hp _ _ hnwait => rcases hp with rfl | rfl <;> simp [Place.waits, hnwait]
  | received _ _ _ _ hnwait => simp [Place.waits, hnwait]
  | sleptSend hp => rcases hp with rfl | rfl <;> simp [Place.waits]
  | sleptReceive _ _ _ _ hnwait =>
    simp only [Place.waits, hnwait]
    omega
  | seen hp => simp [Place.waits, hp]
  | notified hp _ hnwait => simp [Place.waits, hp, hnwait]

/-- A signal ends a registration, and only a registration begins one. -/
theorem Branch.registration (hb : Branch z s q p e o) (pid : ℕ) :
    (if e.signalled? = some pid then 1 else 0) + (if o.shared.pid = some pid then 1 else 0) ≤
      (if s.pid = some pid then 1 else 0) + if e.registered? = some pid then 1 else 0 := by
  cases hb with
  | sent _ _ _ _ hpid =>
    rw [Signals] at hpid
    split at hpid
    · obtain ⟨hnone, rfl⟩ := hpid
      simp only [Done.signalled?, hnone, reduceCtorEq, if_false, Nat.add_zero]
      cases s.event with
      | true => exact Nat.le_add_right _ _
      | false => exact Nat.zero_le _
    · obtain ⟨hsame, rfl⟩ := hpid
      simp [Done.signalled?, Done.registered?, hsame]
  | received _ _ _ _ _ hpid => simp [Done.signalled?, Done.registered?, hpid]
  | sleptSend => simp [Done.signalled?, Done.registered?]
  | sleptReceive _ _ _ _ _ hpid => simp [Done.signalled?, Done.registered?, hpid]
  | seen _ he =>
    rcases he with rfl | rfl | ⟨rfl, -⟩ | ⟨rfl, -⟩ | rfl <;>
      simp [Done.signalled?, Done.registered?]
  | notified _ _ _ he =>
    rcases he with ⟨pid', rfl, hpid⟩ | ⟨rfl, hpid | hpid⟩
    · simp [Done.signalled?, Done.registered?, hpid]
    · simp [Done.signalled?, Done.registered?, hpid]
    · simp [Done.signalled?, Done.registered?, hpid]

section
variable {ι : Type} [Fintype ι] [DecidableEq ι] {cv : CondVar} {tr : Trace ι} {t : State ι}

/-- What `f` says of the events that are calls. -/
def eventBy (f : Done → Option ℕ) : Event ι Done → Option ℕ
  | .did _ e => f e
  | .awoke _ => none

/-- The processes that were sent a signal. -/
def signals (tr : Trace ι) : List ℕ := (labels tr).filterMap (eventBy Done.signalled?)

/-- The processes that registered. -/
def registrations (tr : Trace ι) : List ℕ := (labels tr).filterMap (eventBy Done.registered?)

omit [Fintype ι] [DecidableEq ι] in
theorem count_snoc (f : Event ι Done → Option ℕ) (u : State ι) (ev : Event ι Done) (pid : ℕ) :
    ((labels (tr ++ [(u, ev)])).filterMap f).count pid =
      ((labels tr).filterMap f).count pid + if f ev = some pid then 1 else 0 := by
  rw [filterMap_labels_snoc, List.count_append]
  cases f ev <;> simp [List.count_cons]

theorem nwait_run (run : MqRun z cv tr t) : t.shared.nwait = t.total Place.waits := by
  refine run.invariant (I := fun tr (t : State ι) => t.shared.nwait = t.total Place.waits) ?_ ?_
  · have hzero : (Threads.start (mymq_open z) fun _ => .outside : State ι).total Place.waits = 0 :=
      Threads.total_eq_zero_iff.mpr fun _ => rfl
    rw [hzero]
    rfl
  · intro tr u ev u' hrun ih h
    obtain ⟨⟨q, -, hs⟩, hfits⟩ := queue_run hrun
    cases step_iff_moves.mp h with
    | @region i a e o woken _ ho _ =>
      have hmove := u.total_after i o woken Place.waits
      have hnwait := (mymq_branch hs (hfits i) ho).nwait
      rw [Threads.after_shared]
      omega
    | awoke i => exact ih

theorem registration_run (run : MqRun z cv tr t) (pid : ℕ) :
    (signals tr).count pid + (if t.shared.pid = some pid then 1 else 0) ≤
      (registrations tr).count pid := by
  refine run.invariant (I := fun tr (t : State ι) =>
    (signals tr).count pid + (if t.shared.pid = some pid then 1 else 0) ≤
      (registrations tr).count pid) (Nat.le_refl 0) ?_
  intro tr u ev u' hrun ih h
  obtain ⟨⟨q, -, hs⟩, hfits⟩ := queue_run hrun
  rw [signals, registrations, count_snoc, count_snoc, ← signals, ← registrations]
  cases step_iff_moves.mp h with
  | @region i a e o woken _ ho _ =>
    have hreg := (mymq_branch hs (hfits i) ho).registration pid
    change _ + (if e.signalled? = some pid then 1 else 0) +
      (if o.shared.pid = some pid then 1 else 0) ≤ _ + if e.registered? = some pid then 1 else 0
    omega
  | awoke i =>
    change _ + 0 + (if u.shared.pid = some pid then 1 else 0) ≤ _ + 0
    omega

/-- **Notification.**  `mqh_nwait` is the number of threads that wait for a message.  For each of
its registrations a process is sent one signal at most; and it is sent one when a thread
that did not have to wait for room sends a message to an empty queue that no thread waits for. -/
theorem mymq_notifies (run : MqRun z cv tr t) :
    t.shared.nwait = t.total Place.waits ∧
    (∀ pid, (signals tr).count pid ≤ (registrations tr).count pid) ∧
    ∀ u i m signalled, (u, .did i (.sent m signalled)) ∈ tr → ∀ pid, signalled = some pid ↔
      u.place i = .outside ∧ u.shared.curmsgs = 0 ∧ (∀ j maxlen, u.place j ≠ .receiving maxlen) ∧
        u.shared.pid = some pid ∧ u.shared.event := by
  refine ⟨nwait_run run, fun pid => ?_, fun u i m signalled hmem pid => ?_⟩
  · exact (Nat.le_add_right _ _).trans (registration_run run pid)
  · obtain ⟨pre, -, u', -, (hpre : MqRun z cv pre u), (h : Step (mymq z) cv u _ u'), -⟩ :=
      run.of_mem hmem
    obtain ⟨⟨q, -, hs⟩, hfits⟩ := queue_run hpre
    have hnil : u.shared.curmsgs = 0 ↔ q = [] := by rw [hs.length_eq, List.length_eq_zero_iff]
    have hnobody : (∀ j maxlen, u.place j ≠ .receiving maxlen) ↔ u.shared.nwait = 0 := by
      rw [nwait_run hpre, Nat.cast_eq_zero, Threads.total_eq_zero_iff]
      refine forall_congr' fun j => ?_
      cases hj : u.place j <;> simp [Place.waits]
    rw [hnil, hnobody]
    cases step_iff_moves.mp h with
    | region _ a woken _ ho _ =>
      cases mymq_branch hs (hfits i) ho with
      | sent _ _ _ _ hpid =>
        rw [Signals] at hpid
        split at hpid
        · rename_i hwhen
          rw [hpid.2]
          cases u.shared.event <;> simp [hwhen]
        · rename_i hwhen
          rw [hpid.2]
          constructor
          · intro h
            cases h
          · rintro ⟨h₁, h₂, h₃, -⟩
            exact absurd ⟨h₁, h₂, h₃⟩ hwhen
      | seen _ he => simp at he
      | notified _ _ _ he => simp at he

/-- A process registers and is sent its signal; it registers again, and the next message goes to a
thread that waits for one. -/
def registered : List (Act Bool Call) :=
  [.run false (.notify 7 (some true) false) ∅, .run false (.send ⟨[1], 0⟩ false) ∅,
    .run true (.receive 4 false) ∅, .run true (.receive 4 false) ∅,
    .run false (.notify 7 (some true) false) ∅, .run false (.send ⟨[2], 0⟩ false) {true},
    .run true .resume ∅]

theorem exists_registered : ∃ tr, ∃ t : State Bool, MqRun short .single tr t ∧
    signals tr = [7] ∧ registrations tr = [7, 7] ∧ .did true .sleptReceive ∈ labels tr :=
  ⟨_, _, run_get (exec (mymq short) .single) registered _ (by decide +kernel),
    by decide +kernel, by decide +kernel, by decide +kernel⟩

theorem mymq_notifies_registered : ∃ tr, ∃ t : State Bool, MqRun short .single tr t ∧
    (signals tr = [7] ∧ registrations tr = [7, 7] ∧ .did true .sleptReceive ∈ labels tr) ∧
    t.shared.nwait = t.total Place.waits ∧
    (∀ pid, (signals tr).count pid ≤ (registrations tr).count pid) ∧
    ∀ u i m signalled, (u, .did i (.sent m signalled)) ∈ tr → ∀ pid, signalled = some pid ↔
      u.place i = .outside ∧ u.shared.curmsgs = 0 ∧ (∀ j maxlen, u.place j ≠ .receiving maxlen) ∧
        u.shared.pid = some pid ∧ u.shared.event := by
  obtain ⟨tr, t, run, hnotified⟩ := exists_registered
  exact ⟨tr, t, run, hnotified, mymq_notifies run⟩

/-! ## Who is left asleep -/

/-- What the thread waits for is there. -/
def CanGo (z : Layout) (s : Mq) : Place → Prop
  | .sending _ => s.curmsgs < z.maxmsg
  | .receiving _ => s.curmsgs ≠ 0
  | .outside | .dumped | .looping => False

/-- Some thread sleeps though what it waits for is there, and nobody that is awake is in a call. -/
def Stranded (z : Layout) (t : State ι) : Prop :=
  (∃ i, t.asleep i = some () ∧ CanGo z t.shared (t.place i)) ∧
    ∀ i, t.asleep i = none → t.place i = .outside

omit [Fintype ι] [DecidableEq ι] in
theorem canGo_congr (h : s'.curmsgs = s.curmsgs) : CanGo z s' p ↔ CanGo z s p := by
  cases p <;> simp only [CanGo, h]

omit [Fintype ι] [DecidableEq ι] in
/-- A call does not give a thread what it waits for, or it signals. -/
theorem Branch.alone (hb : Branch z s q p e o) (hs : Holds z s q) (hle : q.length ≤ z.maxmsg) :
    o.shared.curmsgs = s.curmsgs ∧ (∀ c, o.sleep = some c → ¬ CanGo z o.shared o.place) ∨
      o.sleep = none ∧ (o.notify = .signal () ∨ ∀ p', CanGo z o.shared p' → CanGo z s p') := by
  have hcount := hs.length_eq
  cases hb with
  | sent _ hroom =>
    refine .inr ⟨rfl, ?_⟩
    by_cases hzero : s.curmsgs = 0
    · exact .inl (if_pos hzero)
    · right
      intro p' h
      cases p' with
      | sending =>
        show s.curmsgs < z.maxmsg
        omega
      | receiving => exact hzero
      | outside | dumped | looping => exact h
  | received _ hq =>
    subst hq
    refine .inr ⟨rfl, ?_⟩
    by_cases hfull : s.curmsgs = z.maxmsg
    · exact .inl (if_pos hfull)
    · right
      intro p' h
      cases p' with
      | sending =>
        show s.curmsgs < z.maxmsg
        omega
      | receiving =>
        show s.curmsgs ≠ 0
        rw [hcount]
        exact Nat.succ_ne_zero _
      | outside | dumped | looping => exact h
  | sleptSend _ hfull =>
    refine .inl ⟨rfl, fun _ _ h => ?_⟩
    change s.curmsgs < z.maxmsg at h
    omega
  | sleptReceive _ hq _ hs' =>
    subst hq
    refine .inl ⟨hs'.length_eq.trans hcount.symm, fun _ _ h => ?_⟩
    exact h hs'.length_eq
  | seen => exact .inl ⟨rfl, nofun⟩
  | notified _ hs' => exact .inl ⟨hs'.length_eq.trans hcount.symm, nofun⟩

/-- **With two threads a wake-up cannot be lost.** -/
theorem attended_run (hcard : Fintype.card ι ≤ 2) (run : MqRun z cv tr t) :
    ∀ i c, t.asleep i = some c → ¬ CanGo z t.shared (t.place i) := by
  refine run.invariant (I := fun tr (t : State ι) =>
    ∀ i c, t.asleep i = some c → ¬ CanGo z t.shared (t.place i)) nofun ?_
  intro tr u ev u' hrun ih h j c hj
  obtain ⟨⟨q, hq, hs⟩, hfits⟩ := queue_run hrun
  cases step_iff_moves.mp h with
  | @region i a e o woken hawake ho hwoken =>
    have halone := (mymq_branch hs (hfits i) ho).alone hs hq.length_le
    rcases Threads.asleep_of_after hj with ⟨rfl, hsleep⟩ | ⟨hne, hnot, hasleep⟩
    · rw [Threads.after_place_self]
      rcases halone with ⟨-, hslept⟩ | ⟨hnone, -⟩
      · exact hslept c hsleep
      · rw [hnone] at hsleep
        cases hsleep
    · rw [Threads.after_place_of_ne hne]
      rcases halone with ⟨hsame, -⟩ | ⟨-, hsignal | hkeeps⟩
      · rw [Threads.after_shared, canGo_congr hsame]
        exact ih j c hasleep
      · rw [hsignal] at hwoken
        refine absurd (Notice.subset_of_signal hwoken ?_ (Threads.mem_waiters.mpr hasleep)) hnot
        -- whoever sleeps is the one thread that is not `i`
        intro k hk l hl
        by_contra hkl
        have hki : k ≠ i := by
          rintro rfl
          rw [Threads.mem_waiters, hawake] at hk
          cases hk
        have hli : l ≠ i := by
          rintro rfl
          rw [Threads.mem_waiters, hawake] at hl
          cases hl
        have hthree : 2 < Fintype.card ι := Fintype.two_lt_card_iff.mpr ⟨k, l, i, hkl, hki, hli⟩
        omega
      · exact fun hgo => ih j c hasleep (hkeeps _ hgo)
  | awoke i => exact ih j c (Threads.asleep_of_awaken hj).2

/-! ### A wake-up that is lost -/

section
variable {a b c : ι} {k : ℕ}

/-- `a` has been woken, `b` sleeps for a message, `c` is outside, as everybody else, and there
are `k` messages. -/
structure Mid (z : Layout) (a b c : ι) (k : ℕ) (t : State ι) : Prop where
  holds : ∃ q, Holds z t.shared q ∧ q.length = k
  pid : t.shared.pid = none
  woken : t.place a = .receiving z.msgsize ∧ t.asleep a = none
  sleeper : t.place b = .receiving z.msgsize ∧ t.asleep b = some ()
  sender : t.place c = .outside ∧ t.asleep c = none
  others : ∀ j, j ≠ a → j ≠ b → j ≠ c → t.place j = .outside ∧ t.asleep j = none

/-- The message that is sent. -/
def hello : Msg := ⟨[], 0⟩

omit [Fintype ι] [DecidableEq ι] in
theorem mymq_send_hello (hs : Holds z s q) (hroom : q.length < z.maxmsg) (hpid : s.pid = none) :
    ∃ s', mymq_send z hello false s = (.sent hello none, {
        shared := s', place := .outside, notify := if s.curmsgs = 0 then .signal () else .quiet }) ∧
      Holds z s' (put Msg.prio hello q) ∧ s'.pid = none := by
  obtain ⟨s', heq, hs', -, hpid'⟩ := send2_spec (m := hello) hs hroom (Nat.zero_le _) none
  refine ⟨s', ?_, hs', hpid'.trans hpid⟩
  have hcount := hs.length_eq
  rw [mymq_send, if_neg (show ¬ hello.body.length > z.msgsize from Nat.not_lt_zero _)]
  by_cases hzero : s.curmsgs = 0
  · rw [if_pos hzero, if_neg (fun h => h.1 hpid)]
    exact heq
  · rw [if_neg hzero, if_neg (by omega)]
    exact heq

omit [Fintype ι] [DecidableEq ι] in
theorem mymq_receive_empty (h : s.curmsgs = 0) :
    mymq_receive z z.msgsize false s = (.sleptReceive, {
      shared := { s with nwait := s.nwait + 1 }
      place := .receiving z.msgsize
      sleep := some () }) := by
  rw [mymq_receive, if_neg (Nat.lt_irrefl _), if_pos h]
  rfl

/-- Two threads fall asleep, and the first message wakes one of them. -/
theorem reaches_mid (z : Layout) (cv : CondVar) (hab : a ≠ b) (hac : a ≠ c) (hbc : b ≠ c) :
    ∃ t : State ι,
    Reaches (Step (mymq z) cv) (.start (mymq_open z) fun _ => .outside) t ∧ Mid z a b c 1 t := by
  let t₀ : State ι := .start (mymq_open z) fun _ => .outside
  let t₁ := t₀.after a { shared := { mymq_open z with nwait := 1 }
                         place := .receiving z.msgsize, sleep := some () } ∅
  have h₁ : Reaches (Step (mymq z) cv) t₀ t₁ :=
    reaches_region (a := Call.receive z.msgsize false) ∅ rfl rfl rfl
      (congrArg some (mymq_receive_empty (s := mymq_open z) rfl)) rfl
  let t₂ := t₁.after b { shared := { mymq_open z with nwait := 2 }
                         place := .receiving z.msgsize, sleep := some () } ∅
  have h₂ : Reaches (Step (mymq z) cv) t₁ t₂ :=
    reaches_region (a := Call.receive z.msgsize false) ∅ (Threads.after_place_of_ne hab.symm) rfl
      (Threads.after_asleep_of_ne hab.symm)
      (congrArg some (mymq_receive_empty (s := { mymq_open z with nwait := 1 }) rfl)) rfl
  have hholds : Holds z t₂.shared [] := Holds.congr ⟨_, _, rep_mymq_open⟩ 2 none false
  obtain ⟨s', heq, hs', hpid⟩ := mymq_send_hello hholds z.maxmsg_pos rfl
  rw [if_pos (show t₂.shared.curmsgs = 0 from rfl)] at heq
  let t₃ := t₂.after c { shared := s', place := .outside, notify := .signal () } {a}
  have hasleep : t₂.asleep a = some () := by simp [t₂, t₁, hab, Threads.after]
  have h₃ : Reaches (Step (mymq z) cv) t₂ t₃ := by
    refine reaches_region (a := Call.send hello false) (r := Place.outside) (s := t₂.shared) {a}
      ?_ rfl ?_ (congrArg some heq) ?_
    · simp [t₂, t₁, t₀, hac.symm, hbc.symm, Threads.after, Threads.start]
    · simp [t₂, t₁, t₀, hac.symm, hbc.symm, Threads.after, Threads.start]
    · exact CondVar.wakes_singleton (Threads.mem_waiters.mpr hasleep)
  refine ⟨t₃, (h₁.trans h₂).trans h₃, ⟨_, hs', length_put⟩, hpid, ?_, ?_, ?_, fun j ha hb hc => ?_⟩
  · simp [t₃, t₂, t₁, hac, hab, Threads.after]
  · simp [t₃, t₂, hbc, hab.symm, Threads.after]
  · simp [t₃, Threads.after]
  · simp [t₃, t₂, t₁, t₀, ha, hb, hc, Threads.after, Threads.start]

/-- The next message wakes nobody. -/
theorem Mid.send {t : State ι} (h : Mid z a b c k t) (cv : CondVar) (hac : a ≠ c) (hbc : b ≠ c)
    (hpos : 0 < k) (hroom : k < z.maxmsg) :
    ∃ t', Reaches (Step (mymq z) cv) t t' ∧ Mid z a b c (k + 1) t' := by
  obtain ⟨⟨q, hs, rfl⟩, hpid, hwoken, hsleeper, hsender, hothers⟩ := h
  obtain ⟨s', heq, hs', hpid'⟩ := mymq_send_hello hs hroom hpid
  rw [if_neg (by rw [hs.length_eq]; omega)] at heq
  refine ⟨_, reaches_region (a := Call.send hello false) ∅ hsender.1 rfl hsender.2
    (congrArg some heq) rfl, ⟨_, hs', length_put⟩, hpid', ?_, ?_, ?_, fun j ha hb hc => ?_⟩
  · rw [Threads.after_place_of_ne hac, Threads.after_asleep_of_ne hac]
    exact hwoken
  · rw [Threads.after_place_of_ne hbc, Threads.after_asleep_of_ne hbc]
    exact hsleeper
  · rw [Threads.after_place_self, Threads.after_asleep_self]
    exact ⟨rfl, rfl⟩
  · rw [Threads.after_place_of_ne hc, Threads.after_asleep_of_ne hc]
    exact hothers j ha hb hc

/-- Messages are sent until the queue is full. -/
theorem Mid.fill {k : ℕ} {t : State ι} (h : Mid z a b c k t) (cv : CondVar) (hac : a ≠ c)
    (hbc : b ≠ c) : ∀ d, 0 < k → k + d = z.maxmsg →
      ∃ t', Reaches (Step (mymq z) cv) t t' ∧ Mid z a b c z.maxmsg t'
  | 0, _, hd => ⟨t, .refl t, hd ▸ h⟩
  | d + 1, hpos, hd => by
    obtain ⟨t', ht', h'⟩ := h.send cv hac hbc hpos (by omega)
    obtain ⟨t'', ht'', h''⟩ := h'.fill cv hac hbc d (Nat.succ_pos k) (by omega)
    exact ⟨t'', ht'.trans ht'', h''⟩

/-- `c` finds the queue full and sleeps; `a` takes a message, and its signal goes to `b`, which
takes another one or finds none. -/
theorem Mid.stranded {t : State ι} (h : Mid z a b c z.maxmsg t) (cv : CondVar) (hab : a ≠ b)
    (hac : a ≠ c) (hbc : b ≠ c) : ∃ t', Reaches (Step (mymq z) cv) t t' ∧ Stranded z t' := by
  obtain ⟨⟨q, hs, hlen⟩, -, hwoken, hsleeper, hsender, hothers⟩ := h
  have hpos := z.maxmsg_pos
  have hfull := hs.length_eq.trans hlen
  -- `c` sleeps
  have hsend : mymq_send z hello false t.shared = (.sleptSend, {
      shared := t.shared, place := .sending hello, sleep := some () }) := by
    rw [mymq_send, if_neg (show ¬ hello.body.length > z.msgsize from Nat.not_lt_zero _),
      if_neg (by omega), if_pos (by omega)]
    rfl
  let t₁ := t.after c { shared := t.shared, place := .sending hello, sleep := some () } ∅
  have h₁ : Reaches (Step (mymq z) cv) t t₁ :=
    reaches_region (a := Call.send hello false) ∅ hsender.1 rfl hsender.2 (congrArg some hsend) rfl
  -- `a` takes a message
  obtain ⟨m, q', rfl⟩ : ∃ m q', q = m :: q' := by
    cases q with
    | nil => exact absurd hlen (by simp; omega)
    | cons m q' => exact ⟨m, q', rfl⟩
  obtain ⟨s', heq, hs', hnwait, -, -⟩ := receive2_spec
    (hs.congr (t.shared.nwait - 1) t.shared.pid t.shared.event) z.msgsize
  have hreceive : resumeReceive z z.msgsize t.shared = (.received z.msgsize m, {
      shared := s', place := .outside, notify := .signal () }) := by
    rw [resumeReceive, if_neg (by omega)]
    rw [if_pos (show t.shared.curmsgs = z.maxmsg from hfull)] at heq
    exact heq
  let t₂ := t₁.after a { shared := s', place := .outside, notify := .signal () } {b}
  have h₂ : Reaches (Step (mymq z) cv) t₁ t₂ := by
    refine reaches_region (a := Call.resume) (r := Place.receiving z.msgsize) (s := t.shared) {b}
      ?_ rfl ?_ (congrArg some hreceive) ?_
    · rw [Threads.after_place_of_ne hac]
      exact hwoken.1
    · rw [Threads.after_asleep_of_ne hac]
      exact hwoken.2
    · refine CondVar.wakes_singleton (Threads.mem_waiters.mpr ?_)
      rw [Threads.after_asleep_of_ne hbc]
      exact hsleeper.2
  have hcount := hs'.length_eq
  have hlen' : q'.length + 1 = z.maxmsg := hlen
  -- `b` goes on, and wakes nobody
  obtain ⟨e, o, hresume, hroom, hquiet, hend⟩ : ∃ e o,
      resumeReceive z z.msgsize s' = (e, o) ∧ o.shared.curmsgs < z.maxmsg ∧ o.notify = .quiet ∧
        (o.sleep = none → o.place = .outside) := by
    rw [resumeReceive]
    split
    · exact ⟨_, _, rfl, by show s'.curmsgs < z.maxmsg; omega, rfl,
        fun h => by cases h⟩
    · obtain ⟨m', q'', rfl⟩ : ∃ m' q'', q' = m' :: q'' := by
        cases q' with
        | nil => exact absurd hcount ‹_›
        | cons m' q'' => exact ⟨m', q'', rfl⟩
      obtain ⟨s'', heq', hs'', -, -, -⟩ := receive2_spec
        (hs'.congr (s'.nwait - 1) s'.pid s'.event) z.msgsize
      rw [heq', if_neg (by show s'.curmsgs ≠ z.maxmsg; omega)]
      refine ⟨_, _, rfl, ?_, rfl, fun _ => rfl⟩
      have hcount' := hs''.length_eq
      rw [List.length_cons] at hlen'
      show s''.curmsgs < z.maxmsg
      omega
  let t₃ := t₂.after b o ∅
  have h₃ : Reaches (Step (mymq z) cv) t₂ t₃ := by
    refine reaches_region (a := Call.resume) (r := Place.receiving z.msgsize) (s := s') ∅ ?_ rfl ?_
      (congrArg some hresume) (by rw [hquiet]; rfl)
    · rw [Threads.after_place_of_ne hab.symm, Threads.after_place_of_ne hbc]
      exact hsleeper.1
    · rw [Threads.after_asleep_of_ne hab.symm, if_pos (Finset.mem_singleton_self b)]
  refine ⟨t₃, (h₁.trans h₂).trans h₃, ⟨c, ?_, ?_⟩, fun j hj => ?_⟩
  · simp [t₃, t₂, t₁, hac.symm, hbc.symm, Threads.after]
  · rw [show t₃.place c = .sending hello by simp [t₃, t₂, t₁, hac.symm, hbc.symm, Threads.after]]
    exact hroom
  · by_cases hjb : j = b
    · subst hjb
      rw [Threads.after_asleep_self] at hj
      rw [Threads.after_place_self]
      exact hend hj
    · by_cases hja : j = a
      · subst hja
        rw [Threads.after_place_of_ne hjb, Threads.after_place_self]
      · by_cases hjc : j = c
        · subst hjc
          simp [t₃, t₂, t₁, hja, hjb, Threads.after] at hj
        · rw [Threads.after_place_of_ne hjb, Threads.after_place_of_ne hja,
            Threads.after_place_of_ne hjc]
          exact (hothers j hja hjb hjc).1

theorem exists_stranded (z : Layout) (cv : CondVar) (hab : a ≠ b) (hac : a ≠ c) (hbc : b ≠ c) :
    ∃ t : State ι,
    Reaches (Step (mymq z) cv) (.start (mymq_open z) fun _ => .outside) t ∧ Stranded z t := by
  have hpos := z.maxmsg_pos
  obtain ⟨t₁, h₁, hmid⟩ := reaches_mid z cv hab hac hbc
  obtain ⟨t₂, h₂, hfull⟩ := hmid.fill cv hac hbc (z.maxmsg - 1) Nat.one_pos (by omega)
  obtain ⟨t₃, h₃, hstranded⟩ := hfull.stranded cv hab hac hbc
  exact ⟨t₃, (h₁.trans h₂).trans h₃, hstranded⟩

end

/-- **When a thread can be left asleep**: if three threads or more use the queue. -/
theorem mq_stranded_iff : (∃ tr, ∃ t : State ι, MqRun z cv tr t ∧ Stranded z t) ↔
    3 ≤ Fintype.card ι := by
  constructor
  · rintro ⟨tr, t, run, ⟨i, hi, hgo⟩, -⟩
    by_contra hcard
    exact attended_run (by omega) run i () hi hgo
  · intro hcard
    obtain ⟨a, b, c, hab, hac, hbc⟩ := Fintype.two_lt_card_iff.mp hcard
    obtain ⟨t, ⟨tr, run⟩, hstranded⟩ := exists_stranded z cv hab hac hbc
    exact ⟨tr, t, run, hstranded⟩

end
end PosixNet.Mymq
