import PosixNet.Mymq
import PosixNet.PrioQueue

/-!
# A message queue is a bounded priority queue

`Rep` says that the slots hold the messages of a list, in order, and that all others are free.
The second halves of `mymq_send` and `mymq_receive` put a message where it belongs in that list
(`send2_spec`) and take the first one (`receive2_spec`).

* **`mymq_refines`**: whatever any clients do with a queue, what they see of it is what
  they would see of a priority queue with room for `mq_maxmsg` messages, byte for byte; no call
  gets to its `err_dump`, and the loop over the messages ends.
* **`mymq_order`**: so nothing is lost or received twice, messages of one priority are received
  in the order they were sent, and what is received is the most urgent.
-/
namespace PosixNet.Mymq
open Monitor PrioQueue

variable {z : Layout} {s s' : Mq} {used avail : List ℕ} {q : List Msg} {m : Msg} {i maxlen : ℕ}

/-- **The slots `used` hold the messages of `q`**, in order, and those in `avail` are free. -/
structure Rep (z : Layout) (s : Mq) (used avail : List ℕ) (q : List Msg) : Prop where
  head : Chain s.msg_next 0 s.head used
  free : Chain s.msg_next 0 s.free avail
  slots : (used ++ avail).Perm z.slots
  curmsgs : s.curmsgs = used.length
  items : used.map (s.msg z) = q
  fits : ∀ i ∈ used, s.msg_len i ≤ z.msgsize

/-- The file holds the messages of `q`. -/
def Holds (z : Layout) (s : Mq) (q : List Msg) : Prop := ∃ used avail, Rep z s used avail q

namespace Rep

theorem length_eq (h : Rep z s used avail q) : s.curmsgs = q.length := by
  rw [h.curmsgs, ← h.items, List.length_map]

theorem length_add (h : Rep z s used avail q) : used.length + avail.length = z.maxmsg := by
  rw [← List.length_append, h.slots.length_eq, Layout.slots, List.length_map, List.length_range]

theorem nodup (h : Rep z s used avail q) : (used ++ avail).Nodup :=
  h.slots.nodup_iff.mpr Layout.nodup_slots

theorem slot_of_used (h : Rep z s used avail q) (hi : i ∈ used) : i ∈ z.slots :=
  h.slots.subset (List.mem_append_left _ hi)

theorem slot_of_avail (h : Rep z s used avail q) (hi : i ∈ avail) : i ∈ z.slots :=
  h.slots.subset (List.mem_append_right _ hi)

end Rep

theorem Holds.length_eq (h : Holds z s q) : s.curmsgs = q.length := by
  obtain ⟨used, avail, h⟩ := h
  exact h.length_eq

/-! ## `mymq_open` -/

theorem freeList_of_lt {j : ℕ} : ∀ (n index : ℕ) (next : ℕ → ℕ), j < index →
    freeList z n index next j = next j
  | 0, index, next, h => Function.update_of_ne (Nat.ne_of_lt h) ..
  | n + 1, index, next, h => by
    rw [freeList, freeList_of_lt n _ _ (Nat.lt_add_right _ h)]
    exact Function.update_of_ne (Nat.ne_of_lt h) ..

theorem slot_succ (k : ℕ) : z.slot (k + 1) = z.slot k + z.stride := by
  rw [Layout.slot, Layout.slot, Nat.succ_mul, Nat.add_assoc]

/-- The loop of `mymq_open` links the slots from `k` on. -/
theorem chain_freeList : ∀ (n k : ℕ) (next : ℕ → ℕ),
    Chain (freeList z n (z.slot k) next) 0 (z.slot k) ((List.range' k (n + 1)).map z.slot)
  | 0, k, next => by
    have hpos := z.hdr_pos
    have hne : z.slot k ≠ 0 := by
      rw [Layout.slot]
      omega
    exact ⟨rfl, hne, Function.update_self ..⟩
  | n + 1, k, next => by
    have hpos := z.hdr_pos
    have hne : z.slot k ≠ 0 := by
      rw [Layout.slot]
      omega
    have hlt : z.slot k < z.slot k + z.stride := Nat.lt_add_of_pos_right z.stride_pos
    refine ⟨rfl, hne, ?_⟩
    rw [freeList, freeList_of_lt n _ _ hlt, Function.update_self, ← slot_succ]
    exact chain_freeList n (k + 1) _

/-- **A new file holds no message**, and all its slots are free. -/
theorem rep_mymq_open : Rep z (mymq_open z) [] z.slots [] where
  head := rfl
  free := by
    have hchain := chain_freeList (z := z) (z.maxmsg - 1) 0 fun _ => 0
    rw [Nat.sub_add_cancel z.maxmsg_pos, ← List.range_eq_range'] at hchain
    rwa [show z.slot 0 = z.hdr by rw [Layout.slot, Nat.zero_mul, Nat.add_zero]] at hchain
  slots := .refl _
  curmsgs := rfl
  items := rfl
  fits := nofun

/-! ## The second half of `mymq_send` -/

/-- The messages that stay in front of a new one of this priority. -/
def ahead (s : Mq) (prio : ℕ) (used : List ℕ) : List ℕ :=
  used.takeWhile fun i => prio ≤ s.msg_prio i

/-- The messages behind it. -/
def behind (s : Mq) (prio : ℕ) (used : List ℕ) : List ℕ :=
  used.dropWhile fun i => prio ≤ s.msg_prio i

theorem ahead_append_behind (prio : ℕ) (used : List ℕ) :
    ahead s prio used ++ behind s prio used = used :=
  List.takeWhile_append_dropWhile

/-- **The loop finds the place**, and ends. -/
theorem findPlace_eq {prio : ℕ} : ∀ {used : List ℕ} {fuel : ℕ} {pmsg : Option ℕ} {i : ℕ},
    Chain s.msg_next 0 i used → used.length < fuel → findPlace s prio fuel pmsg i =
      some ((ahead s prio used).getLast?.or pmsg, (behind s prio used).headD 0)
  | [], fuel + 1, pmsg, i, h, _ => by
    rw [findPlace, if_pos (show i = 0 from h)]
    rfl
  | j :: used, fuel + 1, pmsg, i, ⟨hi, hj, h⟩, hfuel => by
    subst hi
    rw [findPlace, if_neg hj]
    by_cases hprio : prio ≤ s.msg_prio i
    · rw [if_neg (Nat.not_lt.mpr hprio), findPlace_eq h (Nat.lt_of_succ_lt_succ hfuel)]
      simp only [ahead, behind, List.takeWhile_cons, List.dropWhile_cons, hprio, decide_true,
        if_true, List.getLast?_cons]
      cases (used.takeWhile fun i => prio ≤ s.msg_prio i).getLast? <;> rfl
    · rw [if_pos (Nat.lt_of_not_le hprio)]
      simp [ahead, behind, hprio]

/-- A message is put behind those that stay in front of it. -/
theorem put_map (f : ℕ → Msg) (prio : ℕ → ℕ) (hf : ∀ i ∈ used, (f i).prio = prio i) :
    put Msg.prio m (used.map f) =
      (used.takeWhile fun i => m.prio ≤ prio i).map f ++
        m :: (used.dropWhile fun i => m.prio ≤ prio i).map f := by
  induction used with
  | nil => rfl
  | cons j used ih =>
    have hj := hf j List.mem_cons_self
    rw [List.map_cons, put_cons, hj]
    by_cases hprio : m.prio ≤ prio j
    · rw [if_neg (Nat.not_lt.mpr hprio), ih fun i hi => hf i (List.mem_cons_of_mem j hi)]
      simp [hprio]
    · rw [if_pos (Nat.lt_of_not_le hprio)]
      simp [hprio]

/-- The copy leaves the other messages as they are. -/
theorem Rep.msg_copyIn (h : Rep z s used (s.free :: avail) q) (hlen : m.body.length ≤ z.msgsize) :
    (copyIn z m s).msg z s.free = m ∧ ∀ i ∈ used, (copyIn z m s).msg z i = s.msg z i := by
  constructor
  · simp [Mq.msg, copyIn, bytesAt_memcpy]
  · intro i hi
    have hne : i ≠ s.free := by
      rintro rfl
      exact (List.nodup_append.mp h.nodup).2.2 _ hi _ List.mem_cons_self rfl
    have hapart := Layout.apart (h.slot_of_used hi) (h.slot_of_avail List.mem_cons_self) hne
    have hfits := h.fits i hi
    simp only [Mq.msg, copyIn, Function.update_of_ne hne]
    rw [bytesAt_memcpy_of_apart (by omega)]

/-- **The new message is linked in.** -/
theorem Rep.insert (h : Rep z s used (s.free :: avail) q) (hlen : m.body.length ≤ z.msgsize)
    {links : Links ℕ} (hlinks : links = linkIn (copyIn z m s) s.free
      (ahead (copyIn z m s) m.prio used).getLast? ((behind (copyIn z m s) m.prio used).headD 0)) :
    Rep z { copyIn z m s with
        head := links.head, msg_next := links.next, curmsgs := s.curmsgs + 1 }
      (ahead (copyIn z m s) m.prio used ++ s.free :: behind (copyIn z m s) m.prio used) avail
      (put Msg.prio m q) := by
  have hsplit := ahead_append_behind (s := copyIn z m s) m.prio used
  have hnodup := h.nodup
  obtain ⟨hnodup_used, hnodup_avail, hdisj⟩ := List.nodup_append.mp hnodup
  obtain ⟨hfree, hne, havail⟩ := h.free
  have hf : s.free ∉ used := fun hmem => hdisj _ hmem _ List.mem_cons_self rfl
  obtain ⟨hmsg, hmsgs⟩ := h.msg_copyIn hlen
  constructor
  · subst hlinks
    refine Links.insert (s := (copyIn z m s).links) ?_ ?_ ?_ hne
    · rw [hsplit]
      exact h.head
    · rwa [hsplit]
    · rwa [hsplit]
  · subst hlinks
    refine Links.chain_set (Links.chain_set havail ?_ _) ?_ _
    · rintro j ⟨⟩
      exact (List.nodup_cons.mp hnodup_avail).1
    · intro j hj hmem
      have hj : j ∈ used := by
        rw [← hsplit]
        exact List.mem_append_left _ (List.mem_of_getLast? hj)
      exact hdisj _ hj _ (List.mem_cons_of_mem _ hmem) rfl
  · refine List.Perm.trans ?_ h.slots
    rw [List.append_assoc, List.cons_append]
    refine List.perm_middle.trans ?_
    rw [← List.append_assoc, hsplit]
    exact List.perm_middle.symm
  · have hcount := h.curmsgs
    have hlength := congrArg List.length hsplit
    rw [List.length_append] at hlength
    show s.curmsgs + 1 = _
    rw [List.length_append, List.length_cons]
    omega
  · have hmap := put_map (m := m) (s.msg z) (copyIn z m s).msg_prio fun i hi =>
      (congrArg Msg.prio (hmsgs i hi)).symm
    rw [h.items] at hmap
    rw [hmap, List.map_append, List.map_cons]
    refine congrArg₂ _ ?_ (congrArg₂ _ hmsg ?_)
    · exact List.map_congr_left fun i hi => hmsgs i (hsplit ▸ List.mem_append_left _ hi)
    · exact List.map_congr_left fun i hi => hmsgs i (hsplit ▸ List.mem_append_right _ hi)
  · intro i hi
    show Function.update s.msg_len s.free m.body.length i ≤ z.msgsize
    by_cases hif : i = s.free
    · subst hif
      rwa [Function.update_self]
    · rw [Function.update_of_ne hif]
      refine h.fits i ?_
      rw [← hsplit]
      rcases List.mem_append.mp hi with hi | hi
      · exact List.mem_append_left _ hi
      · exact List.mem_append_right _ ((List.mem_cons.mp hi).resolve_left hif)

theorem findPlace_copyIn (h : Rep z s used (s.free :: avail) q) :
    findPlace (copyIn z m s) m.prio (z.maxmsg + 1) none s.head =
      some ((ahead (copyIn z m s) m.prio used).getLast?,
        (behind (copyIn z m s) m.prio used).headD 0) := by
  have hadd := h.length_add
  have hchain : Chain (copyIn z m s).msg_next 0 s.head used := h.head
  rw [findPlace_eq hchain (by omega), Option.or_none]

/-- **`mymq_send` puts the message where it belongs**, if there is room. -/
theorem send2_spec (h : Holds z s q) (hroom : q.length < z.maxmsg)
    (hlen : m.body.length ≤ z.msgsize) (signalled : Option ℕ) :
    ∃ s', send2 z m s signalled = (.sent m signalled, {
        shared := s', place := .outside, notify := if s.curmsgs = 0 then .signal () else .quiet }) ∧
      Holds z s' (put Msg.prio m q) ∧ s'.nwait = s.nwait ∧ s'.pid = s.pid := by
  obtain ⟨used, avail, h⟩ := h
  have hadd := h.length_add
  have hcount := h.curmsgs
  have hlength := h.length_eq
  obtain ⟨f, avail', rfl⟩ : ∃ f avail', avail = f :: avail' := by
    cases avail with
    | nil => exact absurd hadd (by simp; omega)
    | cons f avail' => exact ⟨f, avail', rfl⟩
  obtain ⟨hfree, hf, -⟩ := h.free
  subst hfree
  refine ⟨_, ?_, ⟨_, _, h.insert hlen rfl⟩, rfl, rfl⟩
  rw [send2, if_neg hf]
  simp only [show (copyIn z m s).head = s.head from rfl, findPlace_copyIn h]

/-! ## The second half of `mymq_receive` -/

/-- **`mymq_receive` takes the first message.** -/
theorem receive2_spec (h : Holds z s (m :: q)) (maxlen : ℕ) :
    ∃ s', receive2 z maxlen s = (.received maxlen m, {
        shared := s'
        place := .outside
        notify := if s.curmsgs = z.maxmsg then .signal () else .quiet }) ∧
      Holds z s' q ∧ s'.nwait = s.nwait ∧ s'.pid = s.pid ∧ m.body.length ≤ z.msgsize := by
  obtain ⟨used, avail, h⟩ := h
  obtain ⟨i, used', rfl⟩ : ∃ i used', used = i :: used' := by
    cases used with
    | nil => exact nomatch h.items
    | cons i used' => exact ⟨i, used', rfl⟩
  obtain ⟨hhead, hi, hused⟩ := h.head
  subst hhead
  obtain ⟨hmsg, hitems⟩ := List.cons.inj h.items
  have hnodup := h.nodup
  obtain ⟨hnodup_used, hnodup_avail, hdisj⟩ := List.nodup_append.mp hnodup
  refine ⟨takeOut s, ?_, ⟨used', s.head :: avail, ?_, ?_, ?_, ?_, hitems, ?_⟩, rfl, rfl, ?_⟩
  · rw [receive2, if_neg hi, hmsg]
  · exact hused.update (List.nodup_cons.mp hnodup_used).1 _
  · exact h.free.push (fun hmem => hdisj _ List.mem_cons_self _ hmem rfl) hi
  · exact List.perm_middle.trans h.slots
  · rw [takeOut, h.curmsgs]
    rfl
  · exact fun j hj => h.fits j (List.mem_cons_of_mem _ hj)
  · have hfits := h.fits _ List.mem_cons_self
    rwa [← hmsg, Mq.msg, bytesAt, List.length_map, List.length_range]

/-! ## All that a call can do -/

/-- A thread in one of the loops has passed the test of its length; no thread is lost. -/
def Place.Fits (z : Layout) : Place → Prop
  | .outside => True
  | .sending m => m.body.length ≤ z.msgsize
  | .receiving maxlen => z.msgsize ≤ maxlen
  | .dumped | .looping => False

/-- The thread is counted in `mqh_nwait`. -/
def Place.waits : Place → ℕ
  | .receiving _ => 1
  | .outside | .sending _ | .dumped | .looping => 0

/-- What an event is for the abstract queue. -/
def Done.op? : Done → Option (Op Msg)
  | .sent m _ => some (.put m)
  | .received _ m => some (.take m)
  | .noRoom => some .full
  | .noMessage => some .empty
  | .curmsgs n => some (.size n)
  | _ => none

/-- What a message does to the registration.  A thread that had to wait for room does nothing
to it, even if the queue is empty by then. -/
def Signals (s s' : Mq) (q : List Msg) (p : Place) (signalled : Option ℕ) : Prop :=
  if p = .outside ∧ q = [] ∧ s.nwait = 0 then
    s'.pid = none ∧ signalled = if s.event then s.pid else none
  else s'.pid = s.pid ∧ signalled = none

/-- **The outcomes of a call**, when the queue holds `q`. -/
inductive Branch (z : Layout) (s : Mq) (q : List Msg) (p : Place) :
    Done → Outcome Unit Mq Place → Prop
  | sent {m : Msg} {signalled : Option ℕ} {s' : Mq} (hp : p = .outside ∨ p = .sending m)
      (hroom : q.length < z.maxmsg) (hs : Holds z s' (put Msg.prio m q))
      (hnwait : s'.nwait = s.nwait) (hpid : Signals s s' q p signalled) :
      Branch z s q p (.sent m signalled) {
        shared := s', place := .outside, notify := if s.curmsgs = 0 then .signal () else .quiet }
  | received {maxlen : ℕ} {m : Msg} {q' : List Msg} {s' : Mq}
      (hp : p = .outside ∨ p = .receiving maxlen) (hq : q = m :: q') (hs : Holds z s' q')
      (hlen : m.body.length ≤ maxlen) (hnwait : s'.nwait = s.nwait - p.waits)
      (hpid : s'.pid = s.pid) :
      Branch z s q p (.received maxlen m) {
        shared := s'
        place := .outside
        notify := if s.curmsgs = z.maxmsg then .signal () else .quiet }
  | sleptSend {m : Msg} (hp : p = .outside ∨ p = .sending m) (hfull : z.maxmsg ≤ q.length)
      (hlen : m.body.length ≤ z.msgsize) :
      Branch z s q p .sleptSend { shared := s, place := .sending m, sleep := some () }
  | sleptReceive {maxlen : ℕ} {s' : Mq} (hp : p = .outside ∨ p = .receiving maxlen) (hq : q = [])
      (hlen : z.msgsize ≤ maxlen) (hs : Holds z s' q)
      (hnwait : s'.nwait = s.nwait - p.waits + 1) (hpid : s'.pid = s.pid) :
      Branch z s q p .sleptReceive {
        shared := s', place := .receiving maxlen, sleep := some () }
  | seen {e : Done} (hp : p = .outside)
      (he : e = .tooLong ∨ e = .busy ∨ e = .noRoom ∧ z.maxmsg ≤ q.length ∨
        e = .noMessage ∧ q = [] ∨ e = .curmsgs q.length) :
      Branch z s q p e { shared := s, place := .outside }
  | notified {e : Done} {s' : Mq} (hp : p = .outside) (hs : Holds z s' q)
      (hnwait : s'.nwait = s.nwait)
      (he : (∃ pid, e = .registered pid ∧ s'.pid = some pid) ∨
        e = .unregistered ∧ (s'.pid = s.pid ∨ s'.pid = none)) :
      Branch z s q p e { shared := s', place := .outside }

variable {p : Place} {call : Call} {e : Done} {o : Outcome Unit Mq Place}

/-- The list of messages does not depend on who waits for one. -/
theorem Holds.congr (h : Holds z s q) (nwait : ℤ) (pid : Option ℕ) (event : Bool) :
    Holds z { s with nwait, pid, event } q := by
  obtain ⟨used, avail, h⟩ := h
  exact ⟨used, avail, h.head, h.free, h.slots, h.curmsgs, h.items, h.fits⟩

theorem send2_branch (h : Holds z s q) (hp : p = .outside ∨ p = .sending m)
    (hroom : q.length < z.maxmsg) (hlen : m.body.length ≤ z.msgsize)
    (hquiet : p = .outside → q = [] → s.nwait = 0 → s.pid = none)
    (he : send2 z m s none = (e, o)) : Branch z s q p e o := by
  obtain ⟨s', heq, hs, hnwait, hpid⟩ := send2_spec h hroom hlen none
  rw [heq] at he
  obtain ⟨rfl, rfl⟩ := Prod.mk.inj he
  refine .sent hp hroom hs hnwait ?_
  rw [Signals]
  split
  · rename_i hzero
    have hnone := hquiet hzero.1 hzero.2.1 hzero.2.2
    rw [hpid, hnone, ite_self]
    exact ⟨rfl, rfl⟩
  · exact ⟨hpid, rfl⟩

theorem receive2_branch (nwait : ℤ) (h : Holds z s q) (hp : p = .outside ∨ p = .receiving maxlen)
    (hne : s.curmsgs ≠ 0) (hlen : z.msgsize ≤ maxlen) (hnwait : nwait = s.nwait - p.waits)
    (he : receive2 z maxlen { s with nwait } = (e, o)) : Branch z s q p e o := by
  obtain ⟨m, q', rfl⟩ : ∃ m q', q = m :: q' := by
    cases q with
    | nil => exact absurd h.length_eq hne
    | cons m q' => exact ⟨m, q', rfl⟩
  obtain ⟨s', heq, hs, hnwait', hpid, hbody⟩ := receive2_spec (h.congr nwait s.pid s.event) maxlen
  rw [heq] at he
  obtain ⟨rfl, rfl⟩ := Prod.mk.inj he
  exact .received hp rfl hs (hbody.trans hlen) (hnwait'.trans hnwait) hpid

theorem mymq_send_branch (h : Holds z s q) {nonblock : Bool}
    (he : mymq_send z m nonblock s = (e, o)) : Branch z s q .outside e o := by
  have hcount := h.length_eq
  have hpos := z.maxmsg_pos
  have hnil : s.curmsgs = 0 ↔ q = [] := by rw [hcount, List.length_eq_zero_iff]
  rw [mymq_send] at he
  split at he
  · obtain ⟨rfl, rfl⟩ := Prod.mk.inj he
    exact .seen rfl (.inl rfl)
  · rename_i hlen
    have hlen := Nat.le_of_not_lt hlen
    split at he
    · rename_i hzero
      split at he
      · rename_i hpid
        obtain ⟨s', heq, hs, hnwait, hpid'⟩ := send2_spec (h.congr s.nwait none s.event) (by omega)
          hlen (if s.event then s.pid else none)
        rw [heq] at he
        obtain ⟨rfl, rfl⟩ := Prod.mk.inj he
        refine .sent (.inl rfl) (by omega) hs hnwait ?_
        rw [Signals, if_pos ⟨rfl, hnil.mp hzero, hpid.2⟩]
        exact ⟨hpid', rfl⟩
      · rename_i hpid
        exact send2_branch h (.inl rfl) (by omega) hlen
          (fun _ _ hwait => by_contra fun hne => hpid ⟨hne, hwait⟩) he
    · rename_i hzero
      have hquiet : Place.outside = .outside → q = [] → s.nwait = 0 → s.pid = none :=
        fun _ h => absurd (hnil.mpr h) hzero
      split at he
      · split at he
        · obtain ⟨rfl, rfl⟩ := Prod.mk.inj he
          exact .seen rfl (.inr (.inr (.inl ⟨rfl, by omega⟩)))
        · obtain ⟨rfl, rfl⟩ := Prod.mk.inj he
          exact .sleptSend (.inl rfl) (by omega) hlen
      · exact send2_branch h (.inl rfl) (by omega) hlen hquiet he

theorem mymq_receive_branch (h : Holds z s q) {nonblock : Bool}
    (he : mymq_receive z maxlen nonblock s = (e, o)) : Branch z s q .outside e o := by
  have hcount := h.length_eq
  rw [mymq_receive] at he
  split at he
  · obtain ⟨rfl, rfl⟩ := Prod.mk.inj he
    exact .seen rfl (.inl rfl)
  · rename_i hlen
    split at he
    · have hnil : q = [] := List.eq_nil_of_length_eq_zero (by omega)
      split at he
      · obtain ⟨rfl, rfl⟩ := Prod.mk.inj he
        exact .seen rfl (.inr (.inr (.inr (.inl ⟨rfl, hnil⟩))))
      · obtain ⟨rfl, rfl⟩ := Prod.mk.inj he
        refine .sleptReceive (.inl rfl) hnil (Nat.le_of_not_lt hlen)
          (h.congr (s.nwait + 1) s.pid s.event) ?_ rfl
        show s.nwait + 1 = s.nwait - 0 + 1
        omega
    · exact receive2_branch s.nwait h (.inl rfl) ‹_› (Nat.le_of_not_lt hlen)
        (Int.sub_zero _).symm he

theorem mymq_notify_branch (h : Holds z s q) {pid : ℕ} {notification : Option Bool} {gone : Bool}
    (he : mymq_notify s pid notification gone = (e, o)) : Branch z s q .outside e o := by
  cases notification with
  | none =>
    rw [mymq_notify] at he
    obtain ⟨rfl, rfl⟩ := Prod.mk.inj he
    by_cases hpid : s.pid = some pid
    · rw [if_pos hpid]
      exact .notified rfl (h.congr s.nwait none s.event) rfl (.inr ⟨rfl, .inr rfl⟩)
    · rw [if_neg hpid]
      exact .notified rfl h rfl (.inr ⟨rfl, .inl rfl⟩)
  | some event =>
    rw [mymq_notify] at he
    split at he
    · obtain ⟨rfl, rfl⟩ := Prod.mk.inj he
      exact .seen rfl (.inr (.inl rfl))
    · obtain ⟨rfl, rfl⟩ := Prod.mk.inj he
      exact .notified rfl (h.congr s.nwait (some pid) event) rfl (.inl ⟨pid, rfl, rfl⟩)

/-- **A call has one of the outcomes.** -/
theorem mymq_branch (h : Holds z s q) (hp : p.Fits z) (he : mymq z call p s = some (e, o)) :
    Branch z s q p e o := by
  have hcount := h.length_eq
  cases p with
  | outside =>
    cases call <;> simp only [mymq, reduceCtorEq, Option.some.injEq] at he
    case send => exact mymq_send_branch h he
    case receive => exact mymq_receive_branch h he
    case notify => exact mymq_notify_branch h he
    case getattr =>
      obtain ⟨rfl, rfl⟩ := Prod.mk.inj he
      exact .seen rfl (.inr (.inr (.inr (.inr (congrArg _ hcount)))))
  | sending m =>
    cases call <;> simp only [mymq, reduceCtorEq, Option.some.injEq] at he
    rw [resumeSend] at he
    split at he
    · obtain ⟨rfl, rfl⟩ := Prod.mk.inj he
      exact .sleptSend (.inr rfl) (by omega) hp
    · exact send2_branch h (.inr rfl) (by omega) hp nofun he
  | receiving maxlen =>
    cases call <;> simp only [mymq, reduceCtorEq, Option.some.injEq] at he
    rw [resumeReceive] at he
    split at he
    · obtain ⟨rfl, rfl⟩ := Prod.mk.inj he
      have hnil : q = [] := List.eq_nil_of_length_eq_zero (by omega)
      refine .sleptReceive (.inr rfl) hnil hp h ?_ rfl
      show s.nwait = s.nwait - 1 + 1
      omega
    · exact receive2_branch _ h (.inr rfl) ‹_› hp rfl he
  | dumped => exact hp.elim
  | looping => exact hp.elim

/-! ## Runs -/

section
variable {ι : Type} [Fintype ι] [DecidableEq ι] {cv : CondVar}

abbrev State (ι : Type) := Threads ι Unit Mq Place
abbrev Trace (ι : Type) := List (State ι × Event ι Done)

/-- Any clients, of a queue that was just opened. -/
abbrev MqRun (z : Layout) (cv : CondVar) (tr : Trace ι) (t : State ι) : Prop :=
  Run (Step (mymq z) cv) (.start (mymq_open z) fun _ => .outside) tr t

variable {tr : Trace ι} {t : State ι}

def eventOp? : Event ι Done → Option (Op Msg)
  | .did _ e => e.op?
  | .awoke _ => none

/-- What the clients have done and seen, as operations of the abstract queue. -/
def ops (tr : Trace ι) : List (Op Msg) := (labels tr).filterMap eventOp?

/-- The messages that were sent, in order. -/
def sent (tr : Trace ι) : List Msg := puts (ops tr)

/-- The messages that were received, in order. -/
def received (tr : Trace ι) : List Msg := takes (ops tr)

omit [Fintype ι] [DecidableEq ι] in
theorem ops_snoc (u : State ι) (ev : Event ι Done) :
    ops (tr ++ [(u, ev)]) = ops tr ++ (eventOp? ev).toList :=
  filterMap_labels_snoc ..

/-- The abstract queue makes the step, and the file holds what is in it then. -/
theorem Branch.replays {ops : List (Op Msg)} (hb : Branch z s q p e o) (h : Holds z s q)
    (hq : Replays Msg.prio z.maxmsg ops q) :
    ∃ q', Replays Msg.prio z.maxmsg (ops ++ e.op?.toList) q' ∧ Holds z o.shared q' := by
  have hsame : Replays Msg.prio z.maxmsg (ops ++ []) q := by rwa [List.append_nil]
  cases hb with
  | sent _ hroom hs => exact ⟨_, hq.snoc (if_pos hroom), hs⟩
  | received _ hm hs =>
    subst hm
    exact ⟨_, hq.snoc (if_pos rfl), hs⟩
  | sleptSend => exact ⟨q, hsame, h⟩
  | sleptReceive _ _ _ hs => exact ⟨q, hsame, hs⟩
  | seen _ he =>
    rcases he with rfl | rfl | ⟨rfl, hfull⟩ | ⟨rfl, hnil⟩ | rfl
    · exact ⟨q, hsame, h⟩
    · exact ⟨q, hsame, h⟩
    · exact ⟨q, hq.snoc (if_neg (Nat.not_lt.mpr hfull)), h⟩
    · exact ⟨q, hq.snoc (if_pos hnil), h⟩
    · exact ⟨q, hq.snoc (if_pos rfl), h⟩
  | notified _ hs _ he =>
    rcases he with ⟨pid, rfl, -⟩ | ⟨rfl, -⟩ <;> exact ⟨q, hsame, hs⟩

/-- No thread is lost. -/
theorem Branch.fits (hb : Branch z s q p e o) : o.place.Fits z := by
  cases hb with
  | sent | received | seen | notified => trivial
  | sleptSend _ _ hlen => exact hlen
  | sleptReceive _ _ hlen => exact hlen

/-- **The queue of a run.** -/
theorem queue_run (run : MqRun z cv tr t) :
    (∃ q, Replays Msg.prio z.maxmsg (ops tr) q ∧ Holds z t.shared q) ∧
      ∀ i, (t.place i).Fits z := by
  refine run.invariant (I := fun tr (t : State ι) =>
    (∃ q, Replays Msg.prio z.maxmsg (ops tr) q ∧ Holds z t.shared q) ∧
      ∀ i, (t.place i).Fits z) ⟨⟨[], .nil, _, _, rep_mymq_open⟩, fun _ => trivial⟩ ?_
  rintro tr u ev u' - ⟨⟨q, hq, hs⟩, hfits⟩ h
  rw [ops_snoc]
  cases step_iff_moves.mp h with
  | region i a woken _ ho _ =>
    have hb := mymq_branch hs (hfits i) ho
    exact ⟨hb.replays hs hq,
      Threads.forall_after (P := fun _ (p : Place) => p.Fits z) hb.fits hfits⟩
  | awoke i => exact ⟨⟨q, by rwa [eventOp?, Option.toList_none, List.append_nil], hs⟩, hfits⟩

/-- A queue for two messages of four bytes. -/
def short : Layout := ⟨80, 24, 8, 2, 4, by decide, by decide, by decide, by decide⟩

/-- The message that is sent last is the first to be received. -/
theorem exists_urgent : ∃ tr, ∃ t : State Bool, MqRun short .single tr t ∧
    (.did false (.received 4 ⟨[2, 3], 9⟩)) ∈ labels tr :=
  ⟨_, _, run_get (exec (mymq short) .single)
    [.run false (.send ⟨[1], 0⟩ false) ∅, .run true (.send ⟨[2, 3], 9⟩ false) ∅,
      .run false (.receive 4 false) ∅] _ (by decide +kernel), by decide +kernel⟩

/-- **What the clients get**: nothing is lost or received twice, at most `mq_maxmsg` messages are
under way, those of one priority come in the order they were sent, and each is the most urgent
of those that are there. -/
theorem mymq_order (run : MqRun z cv tr t) :
    (∃ q, (received tr ++ q).Perm (sent tr) ∧ q.length ≤ z.maxmsg ∧
      ∀ p, only Msg.prio p (received tr) ++ only Msg.prio p q = only Msg.prio p (sent tr)) ∧
    ∀ pre u i maxlen m post, tr = pre ++ (u, .did i (.received maxlen m)) :: post →
      ∃ q, (received pre ++ m :: q).Perm (sent pre) ∧ ∀ m' ∈ q, m'.prio ≤ m.prio := by
  constructor
  · obtain ⟨⟨q, hq, -⟩, -⟩ := queue_run run
    exact ⟨q, hq.perm, hq.length_le, hq.fifo⟩
  · rintro pre u i maxlen m post rfl
    have hsplit : pre ++ (u, .did i (.received maxlen m)) :: post =
        (pre ++ [(u, .did i (.received maxlen m))]) ++ post := by simp
    rw [hsplit] at run
    obtain ⟨u', hfront⟩ := run.front
    obtain ⟨⟨q, hq, -⟩, -⟩ := queue_run hfront
    rw [ops_snoc] at hq
    obtain ⟨hpre, hurgent⟩ := hq.urgent
    exact ⟨q, hpre.perm, hurgent⟩

theorem mymq_order_urgent : ∃ tr, ∃ t : State Bool, MqRun short .single tr t ∧
    (∃ q, (received tr ++ q).Perm (sent tr) ∧ q.length ≤ short.maxmsg ∧
      ∀ p, only Msg.prio p (received tr) ++ only Msg.prio p q = only Msg.prio p (sent tr)) ∧
    ∀ pre u i maxlen m post, tr = pre ++ (u, .did i (.received maxlen m)) :: post →
      ∃ q, (received pre ++ m :: q).Perm (sent pre) ∧ ∀ m' ∈ q, m'.prio ≤ m.prio := by
  obtain ⟨tr, t, run, -⟩ := exists_urgent
  exact ⟨tr, t, run, mymq_order run⟩

end
end PosixNet.Mymq
