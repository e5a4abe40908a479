import PosixNet.AcceptLoop
import PosixNet.CString

/-!
# A child for every connection

The loop of `AcceptLoop` together with what its children do: `childServer` of `exercise.c` and
`main` of `teht6_server.c`, for any number of clients at a time.  A child works in turns: it
reads from its connection or writes to it, may send SIGTERM to its parent, and returns
when it is done (`Service`).  All processes run in any order, and the clients send what they
like.

* **`sessions_run`**: a child serves one connection and no other child serves it; what is
  written to a connection depends on what its own client sent, and not on the other clients; and
  a connection whose `fork` failed is never read from or written to.
* **`exited_iff`**: the loop ends exactly if `accept` fails for good or a child has sent the
  signal; the children that are there go on.
-/
namespace PosixNet.ForkingServer
open AcceptLoop

/-- What a child does until another process may run. -/
structure Turn (σ : Type) where
  /-- What it read, with no bytes at end of file. -/
  took : Option (List Byte) := none
  wrote : List Byte := []
  /-- `kill(getppid(), SIGTERM)` -/
  kills : Bool := false
  /-- `none` if it returns. -/
  next : Option σ

/-- A process that serves a connection; `α` is what its calls return. -/
abbrev Service (α σ : Type) := α → σ → Option (Turn σ)

/-- The loop, its children, and what is on every connection. -/
structure State (σ : Type) where
  loop : AcceptLoop.State
  /-- The state of every child. -/
  proc : ℕ → σ
  /-- What the client of a connection has sent and the child has not read. -/
  inbox : ℕ → List Byte
  /-- The client has closed its end. -/
  closed : ℕ → Bool
  /-- What was written to a connection. -/
  outbox : ℕ → List Byte

/-- A scheduler's choice: the loop, a child, or a client. -/
inductive Act (α : Type) where
  | loop (a : AcceptLoop.Act)
  | serve (i : ℕ) (a : α)
  | send (k : ℕ) (bytes : List Byte)
  | close (k : ℕ)

/-- What happened, with what went over the connection. -/
inductive Event (σ : Type) where
  | loop (a : AcceptLoop.Act)
  /-- Child `i` took a turn on connection `k`. -/
  | served (i k : ℕ) (t : Turn σ)
  | sent (k : ℕ) (bytes : List Byte)
  | closed (k : ℕ)

variable {α σ : Type}

/-- What only a child brings about. -/
def byChild : AcceptLoop.Act → Bool
  | .killed | .childExit _ => true
  | _ => false

/-- SIGTERM, to a parent that may be gone. -/
def terminated (l : AcceptLoop.State) : AcceptLoop.State :=
  { l with parent := .exited, fds := AcceptLoop.closed }

/-- Child `i` has returned, and the kernel has closed its descriptors. -/
def left (i : ℕ) (l : AcceptLoop.State) : AcceptLoop.State :=
  match l.children[i]? with
  | some c => { l with children := l.children.set i ⟨.exited, c.sockfd, AcceptLoop.closed⟩ }
  | none => l

/-- What the child takes is there. -/
def Turn.Ready (t : Turn σ) (inbox : List Byte) (closed : Bool) : Prop :=
  match t.took with
  | none => True
  | some [] => inbox = [] ∧ closed
  | some bytes => bytes <+: inbox

instance (t : Turn σ) (inbox : List Byte) (closed : Bool) : Decidable (t.Ready inbox closed) := by
  unfold Turn.Ready
  split <;> infer_instance

/-- The bytes that were read. -/
def Turn.bytes (t : Turn σ) : List Byte := t.took.getD []

/-- After a turn of child `i` on connection `k`. -/
def State.after (s : State σ) (i k : ℕ) (t : Turn σ) : State σ where
  loop :=
    let l := if t.kills then terminated s.loop else s.loop
    if t.next.isNone then left i l else l
  proc := Function.update s.proc i (t.next.getD (s.proc i))
  inbox := Function.update s.inbox k ((s.inbox k).drop t.bytes.length)
  closed := s.closed
  outbox := Function.update s.outbox k (s.outbox k ++ t.wrote)

/-- The loop is left to `AcceptLoop`, but for what its children bring about; a child takes its turn if
it serves a connection, and a client sends until it closes. -/
def exec (svc : Service α σ) : Act α → State σ → Option (Event σ × State σ)
  | .loop a, s =>
    if byChild a then none
    else match AcceptLoop.exec a s.loop with
      | some (e, l) => some (.loop e, { s with loop := l })
      | none => none
  | .serve i a, s =>
    match s.loop.children[i]? with
    | some ⟨.serving, sockfd, fds⟩ =>
      match fds sockfd, svc a (s.proc i) with
      | some (.conn k), some t =>
        if t.Ready (s.inbox k) (s.closed k) then some (.served i k t, s.after i k t) else none
      | _, _ => none
    | _ => none
  | .send k bytes, s =>
    if s.closed k then none
    else some (.sent k bytes, { s with inbox := Function.update s.inbox k (s.inbox k ++ bytes) })
  | .close k, s => some (.closed k, { s with closed := Function.update s.closed k true })

/-- A server that has no client yet. -/
def start (l : AcceptLoop.State) (init : ℕ → σ) : State σ :=
  ⟨l, init, fun _ => [], fun _ => false, fun _ => []⟩

abbrev Trace (σ : Type) := List (State σ × Event σ)

abbrev Step (svc : Service α σ) : State σ → Event σ → State σ → Prop := stepOf (exec svc)

/-! ## The loop -/

/-- **Which child has which connection.**  The connections of the children, by child. -/
structure Owned (l : AcceptLoop.State) (owner : List ℕ) : Prop where
  length : owner.length = l.children.length
  nodup : owner.Nodup
  lt : ∀ k ∈ owner, k < l.accepted
  listen : l.parent ≠ .exited → l.fds l.listenfd = some .listen
  fork : ∀ fd, l.parent = .fork fd → fd ≠ l.listenfd ∧
    ∃ k < l.accepted, l.fds fd = some (.conn k) ∧ k ∉ owner
  close : ∀ fd, l.parent = .close fd → fd ≠ l.listenfd
  child : ∀ (i : ℕ) (c : Child), l.children[i]? = some c → c.stage ≠ .exited →
    c.sockfd ≠ l.listenfd ∧ ∃ k, owner[i]? = some k ∧ c.fds c.sockfd = some (.conn k)

theorem owned_start (listenfd : ℕ) (others : ℕ → Bool) :
    Owned (AcceptLoop.start listenfd others) [] where
  length := rfl
  nodup := List.nodup_nil
  lt := nofun
  listen _ := if_pos rfl
  fork := nofun
  close := nofun
  child _ _ h := nomatch h

variable {l l' : AcceptLoop.State} {owner : List ℕ} {a e : AcceptLoop.Act}

/-- The parent is gone. -/
theorem Owned.terminated (h : Owned l owner) : Owned (terminated l) owner :=
  ⟨h.length, h.nodup, h.lt, fun hne => absurd rfl hne, nofun, nofun, h.child⟩

/-- A child that is still there has the connection it had. -/
theorem Owned.set {i : ℕ} {c c' : Child} (h : Owned l owner) (hc : l.children[i]? = some c)
    (hkeep : c'.stage ≠ .exited → c.stage ≠ .exited ∧ c'.sockfd = c.sockfd ∧
      (c.sockfd ≠ l.listenfd → c'.fds c.sockfd = c.fds c.sockfd)) :
    Owned { l with children := l.children.set i c' } owner where
  length := h.length.trans (List.length_set ..).symm
  nodup := h.nodup
  lt := h.lt
  listen := h.listen
  fork := h.fork
  close := h.close
  child j d hd hstage := by
    change (l.children.set i c')[j]? = some d at hd
    rw [List.getElem?_set] at hd
    split at hd
    · rename_i hij
      subst hij
      split at hd
      · obtain rfl := Option.some.inj hd
        obtain ⟨hstage', hsockfd, hfds⟩ := hkeep hstage
        obtain ⟨hne, k, hk, hconn⟩ := h.child i c hc hstage'
        rw [hsockfd]
        exact ⟨hne, k, hk, (hfds hne).trans hconn⟩
      · cases hd
    · exact h.child j d hd hstage

theorem Owned.left {i : ℕ} (h : Owned l owner) : Owned (left i l) owner := by
  rw [ForkingServer.left]
  split
  · exact h.set ‹_› fun hne => absurd rfl hne
  · exact h

/-- **A step of the loop**: it starts no child, or one that has a connection of its own. -/
theorem Owned.exec (h : Owned l owner) (ha : AcceptLoop.exec a l = some (e, l'))
    (hchild : byChild a = false) :
    (e ≠ .fork ∧ Owned l' owner) ∨ (e = .fork ∧ ∃ k ∉ owner, Owned l' (owner ++ [k])) := by
  obtain ⟨hlength, hnodup, hlt, hlisten, hfork, hclose, hchildren⟩ := id h
  cases a with
  | accept fd =>
    rw [AcceptLoop.exec] at ha
    split at ha
    · rename_i hcond
      obtain ⟨hp, hfd⟩ := hcond
      obtain ⟨rfl, rfl⟩ := Prod.mk.inj (Option.some.inj ha)
      have hl := hlisten (by rw [hp]; simp)
      have hne : fd ≠ l.listenfd := by
        rintro rfl
        rw [hfd] at hl
        cases hl
      refine .inl ⟨by simp, hlength, hnodup, fun k hk => Nat.lt_succ_of_lt (hlt k hk),
        fun _ => ?_, fun fd' hfd' => ?_, by simp, hchildren⟩
      · exact (Function.update_of_ne hne.symm _ _).trans hl
      · obtain rfl := Parent.fork.inj hfd'
        exact ⟨hne, l.accepted, Nat.lt_succ_self _, Function.update_self .., fun hk =>
          Nat.lt_irrefl _ (hlt _ hk)⟩
    · cases ha
  | acceptFailed errno =>
    rw [AcceptLoop.exec] at ha
    split at ha
    · obtain ⟨rfl, rfl⟩ := Prod.mk.inj (Option.some.inj ha)
      split
      · exact .inl ⟨by simp, h⟩
      · exact .inl ⟨by simp, h.terminated⟩
    · cases ha
  | fork =>
    rw [AcceptLoop.exec] at ha
    split at ha
    · rename_i sockfd hp
      obtain ⟨rfl, rfl⟩ := Prod.mk.inj (Option.some.inj ha)
      obtain ⟨hne, k, hk, hconn, hnot⟩ := hfork sockfd hp
      have hl := hlisten (by rw [hp]; simp)
      refine .inr ⟨rfl, k, hnot, ?_, ?_, ?_, fun _ => hl, by simp, fun fd hfd => ?_,
        fun i c hc hs => ?_⟩
      · simp [hlength]
      · exact List.nodup_append.mpr ⟨hnodup, List.nodup_singleton k, fun x hx y hy =>
          (List.mem_singleton.mp hy) ▸ ne_of_mem_of_not_mem hx hnot⟩
      · intro x hx
        rcases List.mem_append.mp hx with hx | hx
        · exact hlt x hx
        · exact List.mem_singleton.mp hx ▸ hk
      · obtain rfl := Parent.close.inj hfd
        exact hne
      · change (l.children ++ [⟨.close, sockfd, l.fds⟩])[i]? = some c at hc
        rw [List.getElem?_append] at hc
        split at hc
        · rename_i hi
          obtain ⟨hsock, k', hk', hconn'⟩ := hchildren i c hc hs
          exact ⟨hsock, k', by rwa [List.getElem?_append_left (hlength ▸ hi)], hconn'⟩
        · rename_i hi
          rw [List.getElem?_singleton] at hc
          split at hc
          · rename_i hi'
            obtain rfl := Option.some.inj hc
            obtain rfl : i = l.children.length := by omega
            exact ⟨hne, k, by rw [← hlength]; exact List.getElem?_concat_length, hconn⟩
          · cases hc
    · cases ha
  | forkFailed =>
    rw [AcceptLoop.exec] at ha
    split at ha
    · rename_i sockfd hp
      obtain ⟨rfl, rfl⟩ := Prod.mk.inj (Option.some.inj ha)
      have hl := hlisten (by rw [hp]; simp)
      exact .inl ⟨by simp, hlength, hnodup, hlt, fun _ => hl, by simp, by simp, hchildren⟩
    · cases ha
  | close =>
    rw [AcceptLoop.exec] at ha
    split at ha
    · rename_i sockfd hp
      obtain ⟨rfl, rfl⟩ := Prod.mk.inj (Option.some.inj ha)
      have hl := hlisten (by rw [hp]; simp)
      have hne := hclose sockfd hp
      have hl' : Function.update l.fds sockfd none l.listenfd = some .listen :=
        (Function.update_of_ne hne.symm _ _).trans hl
      exact .inl ⟨by simp, hlength, hnodup, hlt, fun _ => hl', by simp, by simp,
        hchildren⟩
    · cases ha
  | killed => cases hchild
  | childClose i =>
    rw [AcceptLoop.exec] at ha
    split at ha
    · rename_i sockfd fds hc
      obtain ⟨rfl, rfl⟩ := Prod.mk.inj (Option.some.inj ha)
      refine .inl ⟨by simp, h.set hc fun _ => ⟨by simp, rfl, fun hne => ?_⟩⟩
      exact Function.update_of_ne hne ..
    · cases ha
  | childExit i => cases hchild

/-- Child `i` has returned. -/
def Returned (l : AcceptLoop.State) (i : ℕ) : Prop :=
  ∃ c, l.children[i]? = some c ∧ c.stage = .exited

theorem returned_set {i : ℕ} {c : Child} (h : l.children[i]? = some c) (sockfd : ℕ) (fds : Table) :
    Returned { l with children := l.children.set i ⟨.exited, sockfd, fds⟩ } i :=
  ⟨_, List.getElem?_set_self (List.getElem?_eq_some_iff.mp h).1, rfl⟩

theorem Returned.set {i j : ℕ} {c c' : Child} (h : Returned l i) (hc : l.children[j]? = some c)
    (hstage : c.stage ≠ .exited) : Returned { l with children := l.children.set j c' } i := by
  obtain ⟨d, hd, hexited⟩ := h
  have hne : j ≠ i := by
    rintro rfl
    rw [hc] at hd
    exact hstage (Option.some.inj hd ▸ hexited)
  exact ⟨d, (List.getElem?_set_ne hne).trans hd, hexited⟩

theorem returned_left {i : ℕ} {c : Child} (h : l.children[i]? = some c) :
    Returned (left i l) i := by
  rw [left, h]
  exact returned_set h ..

theorem Returned.left {i j : ℕ} (h : Returned l i) : Returned (left j l) i := by
  rw [ForkingServer.left]
  split
  · rename_i d hd
    by_cases hji : j = i
    · subst hji
      exact returned_set hd ..
    · obtain ⟨c, hc, hstage⟩ := h
      exact ⟨c, (List.getElem?_set_ne hji).trans hc, hstage⟩
  · exact h

/-- Nobody comes back. -/
theorem Returned.exec {i : ℕ} (h : Returned l i) (ha : AcceptLoop.exec a l = some (e, l'))
    (hchild : byChild a = false) : Returned l' i := by
  obtain ⟨c, hc, hstage⟩ := id h
  cases a with
  | accept fd =>
    rw [AcceptLoop.exec] at ha
    split at ha
    · obtain ⟨-, rfl⟩ := Prod.mk.inj (Option.some.inj ha)
      exact h
    · cases ha
  | acceptFailed errno =>
    rw [AcceptLoop.exec] at ha
    split at ha
    · obtain ⟨-, rfl⟩ := Prod.mk.inj (Option.some.inj ha)
      split <;> exact h
    · cases ha
  | fork =>
    rw [AcceptLoop.exec] at ha
    split at ha
    · obtain ⟨-, rfl⟩ := Prod.mk.inj (Option.some.inj ha)
      exact ⟨c, (List.getElem?_append_left (List.getElem?_eq_some_iff.mp hc).1).trans hc, hstage⟩
    · cases ha
  | forkFailed | close =>
    rw [AcceptLoop.exec] at ha
    split at ha
    · obtain ⟨-, rfl⟩ := Prod.mk.inj (Option.some.inj ha)
      exact h
    · cases ha
  | childClose j =>
    rw [AcceptLoop.exec] at ha
    split at ha
    · rename_i sockfd fds hd
      obtain ⟨-, rfl⟩ := Prod.mk.inj (Option.some.inj ha)
      exact h.set hd (by simp)
    · cases ha
  | killed | childExit => cases hchild

/-! ## The children -/

/-- The turns of a service that starts at `init`, and where it is then. -/
inductive Serves (svc : Service α σ) (init : σ) : List (Turn σ) → Option σ → Prop
  | nil : Serves svc init [] (some init)
  | snoc {ts : List (Turn σ)} {s : σ} {a : α} {t : Turn σ} (h : Serves svc init ts (some s))
      (ht : svc a s = some t) : Serves svc init (ts ++ [t]) t.next

section
variable (i k : ℕ) (tr : Trace σ)

def turn? : Event σ → Option (Turn σ)
  | .served j _ t => if j = i then some t else none
  | _ => none

/-- The turns of child `i`. -/
def turns : List (Turn σ) := (labels tr).filterMap (turn? i)

/-- What this event adds to what was sent on connection `k`. -/
def bytesTo : Event σ → List Byte
  | .sent j bytes => if j = k then bytes else []
  | _ => []

/-- What the client of connection `k` has sent. -/
def sent : List Byte := (labels tr).flatMap (bytesTo k)

end

/-- What was read in these turns. -/
def taken (ts : List (Turn σ)) : List Byte := ts.flatMap Turn.bytes

/-- What was written in these turns. -/
def wrote (ts : List (Turn σ)) : List Byte := ts.flatMap Turn.wrote

variable {i k : ℕ} {tr : Trace σ} {s s' : State σ} {ev : Event σ} {svc : Service α σ} {init : ℕ → σ}
  {t : Turn σ}

theorem turns_snoc : turns i (tr ++ [(s, ev)]) = turns i tr ++ (turn? i ev).toList :=
  filterMap_labels_snoc ..

theorem sent_snoc : sent k (tr ++ [(s, ev)]) = sent k tr ++ bytesTo k ev := by
  rw [sent, labels_append, List.flatMap_append, sent, labels_cons, labels_nil]
  simp

theorem taken_append (ts ts' : List (Turn σ)) : taken (ts ++ ts') = taken ts ++ taken ts' :=
  List.flatMap_append

theorem wrote_append (ts ts' : List (Turn σ)) : wrote (ts ++ ts') = wrote ts ++ wrote ts' :=
  List.flatMap_append

/-- What is taken is in front. -/
theorem Turn.Ready.append {inbox : List Byte} {closed : Bool} (h : t.Ready inbox closed) :
    t.bytes ++ inbox.drop t.bytes.length = inbox := by
  rw [Turn.Ready] at h
  rw [Turn.bytes]
  split at h
  · rename_i htook
    rw [htook]
    rfl
  · rename_i htook
    rw [htook]
    rfl
  · rename_i bytes _ htook
    rw [htook]
    obtain ⟨rest, rfl⟩ := h
    show bytes ++ (bytes ++ rest).drop bytes.length = bytes ++ rest
    rw [List.drop_left]

/-- **What the children have done**: child `i` serves the connection `owner[i]`. -/
structure Sessions (svc : Service α σ) (init : ℕ → σ) (tr : Trace σ) (s : State σ)
    (owner : List ℕ) : Prop where
  owned : Owned s.loop owner
  serves : ∀ i, Serves svc (init i) (turns i tr) (some (s.proc i)) ∨
    Returned s.loop i ∧ Serves svc (init i) (turns i tr) none
  unborn : ∀ i, owner.length ≤ i → turns i tr = []
  conn : ∀ i k, owner[i]? = some k → taken (turns i tr) ++ s.inbox k = sent k tr ∧
    s.outbox k = wrote (turns i tr) ∧
    ∀ t ∈ turns i tr, t.took = some [] → s.inbox k = [] ∧ s.closed k
  free : ∀ k ∉ owner, s.inbox k = sent k tr ∧ s.outbox k = []

/-- A turn of a child. -/
theorem serve_cases {a : α} (h : exec svc (.serve i a) s = some (ev, s')) :
    ∃ c k t, s.loop.children[i]? = some c ∧ c.stage = .serving ∧
      c.fds c.sockfd = some (.conn k) ∧ svc a (s.proc i) = some t ∧
      t.Ready (s.inbox k) (s.closed k) ∧ ev = .served i k t ∧ s' = s.after i k t := by
  rw [exec] at h
  split at h
  · rename_i sockfd fds hc
    split at h
    · rename_i k t hk ht
      split at h
      · rename_i hready
        obtain ⟨rfl, rfl⟩ := Prod.mk.inj (Option.some.inj h)
        exact ⟨_, k, t, hc, rfl, hk, ht, hready, rfl, rfl⟩
      · cases h
    · cases h
  · cases h

theorem owned_after {owner : List ℕ} (h : Owned s.loop owner) :
    Owned (s.after i k t).loop owner := by
  have hl : Owned (if t.kills then terminated s.loop else s.loop) owner := by
    split
    · exact h.terminated
    · exact h
  show Owned (if t.next.isNone then left i _ else _) owner
  split
  · exact hl.left
  · exact hl

theorem Returned.after {j : ℕ} (h : Returned s.loop j) : Returned (s.after i k t).loop j := by
  have hl : Returned (if t.kills then terminated s.loop else s.loop) j := by
    split
    · exact h
    · exact h
  show Returned (if t.next.isNone then ForkingServer.left i _ else _) j
  split
  · exact hl.left
  · exact hl

variable {owner : List ℕ}

theorem Sessions.serve (h : Sessions svc init tr s owner) {a : α} {c : Child}
    (hc : s.loop.children[i]? = some c) (hstage : c.stage = .serving)
    (hconn : c.fds c.sockfd = some (.conn k)) (ht : svc a (s.proc i) = some t)
    (hready : t.Ready (s.inbox k) (s.closed k)) :
    Sessions svc init (tr ++ [(s, .served i k t)]) (s.after i k t) owner := by
  obtain ⟨howned, hserves, hunborn, hconns, hfree⟩ := h
  have hi : owner[i]? = some k := by
    obtain ⟨-, k', hk', hconn'⟩ := howned.child i c hc (by rw [hstage]; exact nofun)
    rw [hconn] at hconn'
    rwa [File.conn.inj (Option.some.inj hconn')]
  have hself : turns i (tr ++ [(s, .served i k t)]) = turns i tr ++ [t] := by
    rw [turns_snoc, turn?, if_pos rfl]
    rfl
  have hother : ∀ j, j ≠ i → turns j (tr ++ [(s, .served i k t)]) = turns j tr := by
    intro j hj
    rw [turns_snoc, turn?, if_neg hj.symm]
    exact List.append_nil _
  have hsent : ∀ k', sent k' (tr ++ [(s, .served i k t)]) = sent k' tr := fun k' => by
    rw [sent_snoc]
    exact List.append_nil _
  refine ⟨owned_after howned, fun j => ?_, fun j hj => ?_, fun j k' hj => ?_, fun k' hk' => ?_⟩
  · by_cases hji : j = i
    · subst hji
      rw [hself]
      have hrun : Serves svc (init j) (turns j tr) (some (s.proc j)) := by
        refine (hserves j).resolve_right fun hgone => ?_
        obtain ⟨d, hd, hexited⟩ := hgone.1
        rw [hc] at hd
        rw [← Option.some.inj hd, hstage] at hexited
        cases hexited
      have hnext := hrun.snoc ht
      cases hn : t.next with
      | none =>
        rw [hn] at hnext
        refine .inr ⟨?_, hnext⟩
        show Returned (if t.next.isNone then left j _ else _) j
        rw [hn]
        refine returned_left (c := c) ?_
        split <;> exact hc
      | some p =>
        rw [hn] at hnext
        left
        rwa [show (s.after j k t).proc j = p by simp [State.after, hn]]
    · rw [hother j hji, show (s.after i k t).proc j = s.proc j from Function.update_of_ne hji ..]
      exact (hserves j).imp_right fun hgone => ⟨hgone.1.after, hgone.2⟩
  · rw [hother j ?_]
    · exact hunborn j hj
    · rintro rfl
      exact absurd (List.getElem?_eq_some_iff.mp hi).1 (Nat.not_lt.mpr hj)
  · rw [hsent]
    by_cases hji : j = i
    · subst hji
      obtain rfl : k' = k := Option.some.inj (hj.symm.trans hi)
      obtain ⟨htaken, hwrote, heof⟩ := hconns j k' hj
      rw [hself]
      refine ⟨?_, ?_, fun u hu heof' => ?_⟩
      · rw [taken_append, List.append_assoc, ← htaken]
        refine congrArg _ ?_
        show [t].flatMap Turn.bytes ++ (s.after j k' t).inbox k' = s.inbox k'
        rw [List.flatMap_singleton, show (s.after j k' t).inbox k' =
          (s.inbox k').drop t.bytes.length from Function.update_self ..]
        exact hready.append
      · rw [wrote_append, ← hwrote, show (s.after j k' t).outbox k' = s.outbox k' ++ t.wrote from
          Function.update_self ..]
        simp [wrote]
      · have hempty : s.inbox k' = [] ∧ s.closed k' := by
          rcases List.mem_append.mp hu with hu | hu
          · exact heof u hu heof'
          · obtain rfl := List.mem_singleton.mp hu
            rw [Turn.Ready, heof'] at hready
            exact hready
        refine ⟨?_, hempty.2⟩
        rw [show (s.after j k' t).inbox k' = (s.inbox k').drop t.bytes.length from
          Function.update_self .., hempty.1, List.drop_nil]
    · have hne : k' ≠ k := by
        rintro rfl
        exact hji ((List.getElem?_inj (List.getElem?_eq_some_iff.mp hj).1 howned.nodup).mp
          (hj.trans hi.symm))
      have hinbox : (s.after i k t).inbox k' = s.inbox k' := Function.update_of_ne hne ..
      have houtbox : (s.after i k t).outbox k' = s.outbox k' := Function.update_of_ne hne ..
      rw [hother j hji, hinbox, houtbox]
      exact hconns j k' hj
  · have hne : k' ≠ k := fun he => hk' (he ▸ List.mem_of_getElem? hi)
    rw [hsent, show (s.after i k t).inbox k' = s.inbox k' from Function.update_of_ne hne ..,
      show (s.after i k t).outbox k' = s.outbox k' from Function.update_of_ne hne ..]
    exact hfree k' hk'

/-- A step of the loop leaves what the children have done. -/
theorem Sessions.loop (h : Sessions svc init tr s owner)
    (ha : AcceptLoop.exec a s.loop = some (e, l')) (hchild : byChild a = false) :
    ∃ owner', Sessions svc init (tr ++ [(s, .loop e)]) { s with loop := l' } owner' := by
  obtain ⟨howned, hserves, hunborn, hconns, hfree⟩ := h
  have hturns : ∀ j, turns j (tr ++ [(s, .loop e)]) = turns j tr := fun j => by
    rw [turns_snoc]
    exact List.append_nil _
  have hsent : ∀ k, sent k (tr ++ [(s, .loop e)]) = sent k tr := fun k => by
    rw [sent_snoc]
    exact List.append_nil _
  have hserves' : ∀ j, Serves svc (init j) (turns j tr) (some (s.proc j)) ∨
      Returned l' j ∧ Serves svc (init j) (turns j tr) none :=
    fun j => (hserves j).imp_right fun hgone => ⟨hgone.1.exec ha hchild, hgone.2⟩
  rcases howned.exec ha hchild with ⟨-, howned'⟩ | ⟨-, k, hk, howned'⟩
  · refine ⟨owner, howned', ?_, ?_, ?_, ?_⟩
    · simpa only [hturns] using hserves'
    · simpa only [hturns] using hunborn
    · simpa only [hturns, hsent] using hconns
    · simpa only [hsent] using hfree
  · refine ⟨owner ++ [k], howned', ?_, ?_, ?_, ?_⟩
    · simpa only [hturns] using hserves'
    · intro j hj
      rw [hturns]
      rw [List.length_append] at hj
      exact hunborn j (Nat.le_of_succ_le hj)
    · intro j k' hj
      rw [hturns, hsent]
      rw [List.getElem?_append] at hj
      split at hj
      · exact hconns j k' hj
      · rename_i hlen
        rw [List.getElem?_singleton] at hj
        split at hj
        · -- the child that was just started
          obtain rfl := Option.some.inj hj
          rw [hunborn j (Nat.le_of_not_lt hlen)]
          exact ⟨(hfree k hk).1, (hfree k hk).2, nofun⟩
        · cases hj
    · intro k' hk'
      rw [hsent]
      exact hfree k' fun hmem => hk' (List.mem_append_left _ hmem)

/-- So does a client. -/
theorem Sessions.client (h : Sessions svc init tr s owner) (ev : Event σ)
    (hev : ∀ j, turn? j ev = none) (hproc : s'.proc = s.proc) (hloop : s'.loop = s.loop)
    (hout : s'.outbox = s.outbox) (hin : ∀ k, s'.inbox k = s.inbox k ++ bytesTo k ev)
    (hclosed : ∀ k, s.closed k → s'.closed k ∧ bytesTo k ev = []) :
    Sessions svc init (tr ++ [(s, ev)]) s' owner := by
  obtain ⟨howned, hserves, hunborn, hconns, hfree⟩ := h
  have hturns : ∀ j, turns j (tr ++ [(s, ev)]) = turns j tr := fun j => by
    rw [turns_snoc, hev]
    exact List.append_nil _
  refine ⟨hloop ▸ howned, fun j => ?_, fun j hj => ?_, fun j k hj => ?_, fun k hk => ?_⟩
  · rw [hturns, hproc, hloop]
    exact hserves j
  · rw [hturns]
    exact hunborn j hj
  · obtain ⟨htaken, hwrote, heof⟩ := hconns j k hj
    rw [hturns, sent_snoc, hin, hout, ← List.append_assoc, htaken]
    refine ⟨rfl, hwrote, fun t ht htook => ?_⟩
    obtain ⟨hnil, hcl⟩ := heof t ht htook
    obtain ⟨hcl', hbytes⟩ := hclosed k hcl
    rw [hnil, hbytes]
    exact ⟨rfl, hcl'⟩
  · rw [sent_snoc, hin, hout, (hfree k hk).1]
    exact ⟨rfl, (hfree k hk).2⟩

/-- **Every child serves a connection of its own**, in turns of the service it runs.  What it has
read is the front of what its client has sent, and what was written to the connection is what
it wrote; to a connection without a child nothing was written. -/
theorem sessions_run (listenfd : ℕ) (others : ℕ → Bool)
    (run : Run (Step svc) (start (AcceptLoop.start listenfd others) init) tr s) :
    ∃ owner, Sessions svc init tr s owner := by
  refine run.invariant (I := fun tr s => ∃ owner, Sessions svc init tr s owner) ?_ ?_
  · refine ⟨[], owned_start .., fun j => .inl .nil, fun _ _ => rfl, fun j k hj => ?_, fun k _ => ?_⟩
    · cases hj
    · exact ⟨rfl, rfl⟩
  · rintro tr s ev s' - ⟨owner, h⟩ ⟨act, hact⟩
    cases act with
    | loop a =>
      rw [exec] at hact
      split at hact
      · cases hact
      · rename_i hchild
        split at hact
        · rename_i e l' ha
          obtain ⟨rfl, rfl⟩ := Prod.mk.inj (Option.some.inj hact)
          exact h.loop ha (Bool.not_eq_true _ ▸ hchild)
        · cases hact
    | serve i a =>
      obtain ⟨c, k, t, hc, hstage, hconn, ht, hready, rfl, rfl⟩ := serve_cases hact
      exact ⟨owner, h.serve hc hstage hconn ht hready⟩
    | send k bytes =>
      rw [exec] at hact
      split at hact
      · cases hact
      · rename_i hopen
        obtain ⟨rfl, rfl⟩ := Prod.mk.inj (Option.some.inj hact)
        refine ⟨owner, h.client _ (fun _ => rfl) rfl rfl rfl (fun k' => ?_) fun k' hcl => ⟨hcl, ?_⟩⟩
        · rw [bytesTo]
          by_cases hk : k = k'
          · subst hk
            rw [if_pos rfl]
            exact Function.update_self ..
          · rw [if_neg hk, List.append_nil]
            exact Function.update_of_ne (Ne.symm hk) ..
        · refine if_neg ?_
          rintro rfl
          exact hopen hcl
    | close k =>
      obtain ⟨rfl, rfl⟩ := Prod.mk.inj (Option.some.inj hact)
      refine ⟨owner, h.client _ (fun _ => rfl) rfl rfl rfl (fun k' => ?_) fun k' hcl => ⟨?_, rfl⟩⟩
      · exact (List.append_nil _).symm
      · by_cases hk : k' = k
        · subst hk
          exact Function.update_self ..
        · exact (Function.update_of_ne hk ..).trans hcl

/-! ## The end of the loop -/

/-- `accept` fails for good, or a child sends the signal. -/
def Event.Ends : Event σ → Prop
  | .loop (.acceptFailed errno) => errno.recoverable = false
  | .served _ _ t => t.kills
  | _ => False

/-- The parent only goes at one of these events, and does not come back. -/
theorem exited_step (h : Step svc s ev s') :
    s'.loop.parent = .exited ↔ s.loop.parent = .exited ∨ ev.Ends := by
  obtain ⟨act, hact⟩ := h
  cases act with
  | loop a =>
    rw [exec] at hact
    split at hact
    · cases hact
    · rename_i hchild
      split at hact
      · rename_i e l' ha
        obtain ⟨rfl, rfl⟩ := Prod.mk.inj (Option.some.inj hact)
        cases a <;> rw [AcceptLoop.exec] at ha
        case accept | fork | forkFailed | close =>
          split at ha
          · obtain ⟨rfl, rfl⟩ := Prod.mk.inj (Option.some.inj ha)
            simp_all [Event.Ends]
          · cases ha
        case acceptFailed errno =>
          split at ha
          · rename_i hp
            obtain ⟨rfl, rfl⟩ := Prod.mk.inj (Option.some.inj ha)
            cases hr : errno.recoverable <;> simp [Event.Ends, hr, hp]
          · cases ha
        case childClose j =>
          split at ha
          · obtain ⟨rfl, rfl⟩ := Prod.mk.inj (Option.some.inj ha)
            exact (or_iff_left id).symm
          · cases ha
        case killed | childExit => exact absurd rfl hchild
      · cases hact
  | serve i a =>
    obtain ⟨c, k, t, hc, -, -, -, -, rfl, rfl⟩ := serve_cases hact
    have hleft : ∀ l : AcceptLoop.State, (left i l).parent = l.parent := by
      intro l
      rw [left]
      split <;> rfl
    have hparent : (s.after i k t).loop.parent =
        (if t.kills then terminated s.loop else s.loop).parent := by
      show (if t.next.isNone then left i _ else _).parent = _
      split
      · exact hleft _
      · rfl
    rw [hparent]
    cases hkills : t.kills <;> simp [Event.Ends, hkills, terminated]
  | send k bytes =>
    rw [exec] at hact
    split at hact
    · cases hact
    · obtain ⟨rfl, rfl⟩ := Prod.mk.inj (Option.some.inj hact)
      exact (or_iff_left id).symm
  | close k =>
    obtain ⟨rfl, rfl⟩ := Prod.mk.inj (Option.some.inj hact)
    exact (or_iff_left id).symm

/-- **When the loop ends.** -/
theorem exited_iff (listenfd : ℕ) (others : ℕ → Bool)
    (run : Run (Step svc) (start (AcceptLoop.start listenfd others) init) tr s) :
    s.loop.parent = .exited ↔ ∃ ev ∈ labels tr, ev.Ends := by
  refine run.invariant (I := fun tr s => s.loop.parent = .exited ↔ ∃ ev ∈ labels tr, ev.Ends) ?_ ?_
  · exact ⟨nofun, nofun⟩
  · intro tr s ev s' _ ih h
    rw [exited_step h, ih, labels_append, labels_cons, labels_nil]
    simp only [List.mem_append, List.mem_singleton, or_and_right, exists_or, exists_eq_left]

theorem mem_turns : t ∈ turns i tr ↔ ∃ k, .served i k t ∈ labels tr := by
  rw [turns, List.mem_filterMap]
  constructor
  · rintro ⟨ev, hev, hturn⟩
    cases ev with
    | served j k u =>
      rw [turn?] at hturn
      split at hturn
      · rename_i hij
        obtain rfl := Option.some.inj hturn
        exact ⟨k, hij ▸ hev⟩
      · cases hturn
    | loop | sent | closed => cases hturn
  · rintro ⟨k, hmem⟩
    exact ⟨_, hmem, if_pos rfl⟩

/-- The same by child. -/
theorem ends_iff : (∃ ev ∈ labels tr, ev.Ends) ↔
    (∃ errno, .loop (.acceptFailed errno) ∈ labels tr ∧ errno.recoverable = false) ∨
      ∃ i, ∃ t ∈ turns i tr, t.kills := by
  constructor
  · rintro ⟨ev, hev, hends⟩
    cases ev with
    | loop e =>
      cases e with
      | acceptFailed errno => exact .inl ⟨errno, hev, hends⟩
      | accept | fork | forkFailed | close | killed | childClose | childExit => cases hends
    | served i k t => exact .inr ⟨i, t, mem_turns.mpr ⟨k, hev⟩, hends⟩
    | sent | closed => cases hends
  · rintro (⟨errno, hmem, hrec⟩ | ⟨i, t, ht, hkills⟩)
    · exact ⟨_, hmem, hrec⟩
    · obtain ⟨k, hmem⟩ := mem_turns.mp ht
      exact ⟨_, hmem, hkills⟩

end PosixNet.ForkingServer
