import PosixNet.Chains
import PosixNet.Monitor

/-!
# `my_pxmsg_mmap`: message queues in a mapped file

`mymq_open`, `mymq_send`, `mymq_receive`, `mymq_notify` and `mymq_getattr`.  A queue is a file
of a header and `mq_maxmsg` slots.  Two linked lists go through the slots: the messages, the
most urgent first, and the slots that are free.  A pointer is the offset of a slot, 0 the end
of a list.  One mutex guards the file, and one condition variable is for those who wait for a
message and those who wait for room.

The clients are any threads, of any processes: each may make any call at any time.  A message
is copied into the bytes behind the header of its slot; that it stays inside the slot is a
matter of the layout (`Layout.apart`).
-/
namespace PosixNet.Mymq
open Monitor

/-- What the layout of a file depends on: the sizes of `struct mymq_hdr`, `struct mymsg_hdr` and
`long`, and the attributes that `mymq_open` accepts. -/
structure Layout where
  hdr : ℕ
  msghdr : ℕ
  long : ℕ
  maxmsg : ℕ
  msgsize : ℕ
  hdr_pos : 0 < hdr
  long_pos : 0 < long
  maxmsg_pos : 0 < maxmsg
  msgsize_pos : 0 < msgsize

namespace Layout
variable (z : Layout)

/-- `MSGSIZE`: rounded up to a multiple of `sizeof(long)`. -/
def MSGSIZE (i : ℕ) : ℕ := (i + z.long - 1) / z.long * z.long

/-- From a slot to the next one. -/
def stride : ℕ := z.msghdr + z.MSGSIZE z.msgsize

/-- The size of the file. -/
def filesize : ℕ := z.hdr + z.maxmsg * z.stride

/-- Where slot `k` begins. -/
def slot (k : ℕ) : ℕ := z.hdr + k * z.stride

/-- The slots, in the order in which they are in the file. -/
def slots : List ℕ := (List.range z.maxmsg).map z.slot

theorem le_MSGSIZE (i : ℕ) : i ≤ z.MSGSIZE i := by
  have hpos := z.long_pos
  have hdiv := Nat.div_add_mod' (i + z.long - 1) z.long
  have hmod := Nat.mod_lt (i + z.long - 1) hpos
  rw [MSGSIZE]
  omega

theorem stride_pos : 0 < z.stride := by
  have hle := z.le_MSGSIZE z.msgsize
  have hpos := z.msgsize_pos
  rw [stride]
  omega

variable {z}

/-- A message stays inside its slot, and inside the file. -/
theorem within {k : ℕ} (hk : k < z.maxmsg) :
    z.slot k + z.msghdr + z.msgsize ≤ z.slot k + z.stride ∧ z.slot k + z.stride ≤ z.filesize := by
  have hle := z.le_MSGSIZE z.msgsize
  have hmul := Nat.mul_le_mul_right z.stride (Nat.succ_le_of_lt hk)
  rw [Nat.succ_mul] at hmul
  constructor
  · rw [stride]
    omega
  · rw [slot, filesize]
    omega

theorem slot_lt {k l : ℕ} (h : k < l) : z.slot k + z.stride ≤ z.slot l := by
  have hmul := Nat.mul_le_mul_right z.stride (Nat.succ_le_of_lt h)
  rw [Nat.succ_mul] at hmul
  rw [slot, slot]
  omega

/-- **Two slots have no bytes in common.** -/
theorem apart {i j : ℕ} (hi : i ∈ z.slots) (hj : j ∈ z.slots) (h : i ≠ j) :
    i + z.msghdr + z.msgsize ≤ j ∨ j + z.msghdr + z.msgsize ≤ i := by
  obtain ⟨k, hk, rfl⟩ := List.mem_map.mp hi
  obtain ⟨l, hl, rfl⟩ := List.mem_map.mp hj
  have hwithin := z.within (List.mem_range.mp hk)
  have hwithin' := z.within (List.mem_range.mp hl)
  rcases Nat.lt_trichotomy k l with hlt | rfl | hlt
  · have hslot := z.slot_lt hlt
    omega
  · exact absurd rfl h
  · have hslot := z.slot_lt hlt
    omega

theorem nodup_slots : z.slots.Nodup := by
  refine (List.nodup_map_iff_inj_on List.nodup_range).mpr fun k _ l _ h => ?_
  have hpos := z.stride_pos
  rcases Nat.lt_trichotomy k l with hlt | rfl | hlt
  · have hslot := z.slot_lt hlt
    omega
  · rfl
  · have hslot := z.slot_lt hlt
    omega

end Layout

/-- A message, as its sender has it. -/
structure Msg where
  body : List UInt8
  prio : ℕ
  deriving DecidableEq

/-- The file.  What is in the `struct mymsg_hdr` of a slot is a function of its offset. -/
structure Mq where
  curmsgs : ℕ
  head : ℕ
  free : ℕ
  nwait : ℤ
  /-- `mqh_pid`, if it is not 0. -/
  pid : Option ℕ
  /-- Whether `mqh_event` is `SIGEV_SIGNAL`. -/
  event : Bool
  msg_next : ℕ → ℕ
  msg_len : ℕ → ℕ
  msg_prio : ℕ → ℕ
  mem : ℕ → UInt8

/-- The pointers of the list of messages. -/
def Mq.links (s : Mq) : Links ℕ := ⟨s.head, s.msg_next⟩

/-- The bytes are copied to `dst` and behind. -/
def memcpy (mem : ℕ → UInt8) (dst : ℕ) (bytes : List UInt8) : ℕ → UInt8 := fun x =>
  if h : dst ≤ x ∧ x - dst < bytes.length then bytes[x - dst] else mem x

/-- The `n` bytes from `src` on. -/
def bytesAt (mem : ℕ → UInt8) (src n : ℕ) : List UInt8 := (List.range n).map fun k => mem (src + k)

section
variable {mem : ℕ → UInt8} {dst src n : ℕ} {bytes : List UInt8}

/-- What was copied is there. -/
theorem bytesAt_memcpy : bytesAt (memcpy mem dst bytes) dst bytes.length = bytes := by
  refine List.ext_getElem (by simp [bytesAt]) fun k hk _ => ?_
  have hk : k < bytes.length := by simpa [bytesAt] using hk
  simp [bytesAt, memcpy, hk]

/-- What is somewhere else is as it was. -/
theorem bytesAt_memcpy_of_apart (h : src + n ≤ dst ∨ dst + bytes.length ≤ src) :
    bytesAt (memcpy mem dst bytes) src n = bytesAt mem src n := by
  refine List.map_congr_left fun k hk => ?_
  have hk := List.mem_range.mp hk
  exact dif_neg (by omega)

end

/-- The message in the slot at `i`. -/
def Mq.msg (z : Layout) (s : Mq) (i : ℕ) : Msg :=
  ⟨bytesAt s.mem (i + z.msghdr) (s.msg_len i), s.msg_prio i⟩

/-- The loop of `mymq_open` that makes the free list, with so many rounds to go. -/
def freeList (z : Layout) : ℕ → ℕ → (ℕ → ℕ) → ℕ → ℕ
  | 0, index, next => Function.update next index 0
  | n + 1, index, next =>
    freeList z n (index + z.stride) (Function.update next index (index + z.stride))

/-- What `mymq_open` puts into a new file. -/
def mymq_open (z : Layout) : Mq where
  curmsgs := 0
  head := 0
  free := z.hdr
  nwait := 0
  pid := none
  event := false
  msg_next := freeList z (z.maxmsg - 1) z.hdr fun _ => 0
  msg_len := fun _ => 0
  msg_prio := fun _ => 0
  mem := fun _ => 0

/-- Where a thread is between two of its regions. -/
inductive Place where
  | outside
  /-- In the loop of `mymq_send`. -/
  | sending (m : Msg)
  /-- In the loop of `mymq_receive`, counted in `mqh_nwait`. -/
  | receiving (maxlen : ℕ)
  /-- `err_dump`. -/
  | dumped
  /-- In a `while` loop that does not end. -/
  | looping
  deriving DecidableEq

/-- What a client may do next. -/
inductive Call where
  | send (m : Msg) (nonblock : Bool)
  | receive (maxlen : ℕ) (nonblock : Bool)
  /-- The event is `SIGEV_SIGNAL` or not; the process that is registered is there or not. -/
  | notify (pid : ℕ) (notification : Option Bool) (gone : Bool)
  | getattr
  /-- The thread goes on behind `pthread_cond_wait`. -/
  | resume
  deriving DecidableEq

/-- What a call returned, or whether it went to sleep. -/
inductive Done where
  /-- With the process that was sent a signal. -/
  | sent (m : Msg) (signalled : Option ℕ)
  | received (maxlen : ℕ) (m : Msg)
  | tooLong
  | noRoom | noMessage
  | sleptSend | sleptReceive
  | registered (pid : ℕ)
  | unregistered | busy
  | curmsgs (n : ℕ)
  | dumped | looped
  deriving DecidableEq

variable (z : Layout) (m : Msg) (maxlen : ℕ) (nonblock : Bool) (s : Mq)

/-- The `while` loop of `mymq_send`: where the new message goes, as the pointer that is to lead
to it (`none` is `mqh_head`) and the message that is to follow it. -/
def findPlace (prio : ℕ) : ℕ → Option ℕ → ℕ → Option (Option ℕ × ℕ)
  | 0, _, _ => none
  | fuel + 1, pmsg, index =>
    if index = 0 then some (pmsg, 0)
    else if prio > s.msg_prio index then some (pmsg, index)
    else findPlace prio fuel (some index) (s.msg_next index)

/-- The first free slot is taken, and the message copied into it. -/
def copyIn : Mq := { s with
  free := s.msg_next s.free
  msg_len := Function.update s.msg_len s.free m.body.length
  msg_prio := Function.update s.msg_prio s.free m.prio
  mem := memcpy s.mem (s.free + z.msghdr) m.body }

/-- The pointers, with the slot at `i` between that of `pmsg` and the message at `index`. -/
def linkIn (i : ℕ) (pmsg : Option ℕ) (index : ℕ) : Links ℕ :=
  (s.links.set (some i) index).set pmsg i

/-- `mymq_send`, behind its loop. -/
def send2 (signalled : Option ℕ) : Done × Outcome Unit Mq Place :=
  if s.free = 0 then (.dumped, { shared := s, place := .dumped })
  else
    let s₁ := copyIn z m s
    match findPlace s₁ m.prio (z.maxmsg + 1) none s₁.head with
    | none => (.looped, { shared := s₁, place := .looping })
    | some (pmsg, index) =>
      let links := linkIn s₁ s.free pmsg index
      (.sent m signalled, {
        shared := { s₁ with head := links.head, msg_next := links.next, curmsgs := s.curmsgs + 1 }
        place := .outside
        notify := if s.curmsgs = 0 then .signal () else .quiet })

/-- `mymq_send` up to its wait for room. -/
def mymq_send : Done × Outcome Unit Mq Place :=
  if m.body.length > z.msgsize then (.tooLong, { shared := s, place := .outside })
  else if s.curmsgs = 0 then
    if s.pid ≠ none ∧ s.nwait = 0 then
      send2 z m { s with pid := none } (if s.event then s.pid else none)
    else send2 z m s none
  else if s.curmsgs ≥ z.maxmsg then
    if nonblock then (.noRoom, { shared := s, place := .outside })
    else (.sleptSend, { shared := s, place := .sending m, sleep := some () })
  else send2 z m s none

/-- The test of the loop of `mymq_send`, after a wait. -/
def resumeSend : Done × Outcome Unit Mq Place :=
  if s.curmsgs ≥ z.maxmsg then
    (.sleptSend, { shared := s, place := .sending m, sleep := some () })
  else send2 z m s none

/-- The first message is taken off its list, and its slot put in front of the free ones. -/
def takeOut : Mq := { s with
  head := s.msg_next s.head
  msg_next := Function.update s.msg_next s.head s.free
  free := s.head
  curmsgs := s.curmsgs - 1 }

/-- `mymq_receive`, behind its loop. -/
def receive2 : Done × Outcome Unit Mq Place :=
  if s.head = 0 then (.dumped, { shared := s, place := .dumped })
  else
    (.received maxlen (s.msg z s.head), {
      shared := takeOut s
      place := .outside
      notify := if s.curmsgs = z.maxmsg then .signal () else .quiet })

/-- `mymq_receive` up to its wait for a message. -/
def mymq_receive : Done × Outcome Unit Mq Place :=
  if maxlen < z.msgsize then (.tooLong, { shared := s, place := .outside })
  else if s.curmsgs = 0 then
    if nonblock then (.noMessage, { shared := s, place := .outside })
    else
      (.sleptReceive, {
        shared := { s with nwait := s.nwait + 1 }
        place := .receiving maxlen
        sleep := some () })
  else receive2 z maxlen s

/-- The test of the loop of `mymq_receive`, after a wait. -/
def resumeReceive : Done × Outcome Unit Mq Place :=
  if s.curmsgs = 0 then
    (.sleptReceive, { shared := s, place := .receiving maxlen, sleep := some () })
  else receive2 z maxlen { s with nwait := s.nwait - 1 }

/-- `mymq_notify`: a registration is refused while a process has one and is there. -/
def mymq_notify (pid : ℕ) (notification : Option Bool) (gone : Bool) :
    Done × Outcome Unit Mq Place :=
  match notification with
  | none =>
    (.unregistered, {
      shared := if s.pid = some pid then { s with pid := none } else s
      place := .outside })
  | some event =>
    if s.pid ≠ none ∧ ¬ gone then (.busy, { shared := s, place := .outside })
    else (.registered pid, { shared := { s with pid := some pid, event }, place := .outside })

/-- The calls a client may make. -/
def mymq : Monitor Call Done Unit Mq Place := fun call p s =>
  match call, p with
  | .send m nonblock, .outside => some (mymq_send z m nonblock s)
  | .receive maxlen nonblock, .outside => some (mymq_receive z maxlen nonblock s)
  | .notify pid notification gone, .outside => some (mymq_notify s pid notification gone)
  | .getattr, .outside => some (.curmsgs s.curmsgs, { shared := s, place := .outside })
  | .resume, .sending m => some (resumeSend z m s)
  | .resume, .receiving maxlen => some (resumeReceive z maxlen s)
  | _, _ => none

end PosixNet.Mymq
