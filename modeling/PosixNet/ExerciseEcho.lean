import PosixNet.ExerciseIteration

/-!
# `exercise`: the echo, under the delivery the code assumes

The server's E lines arrive whole in one read or split over two, every other line in
a read of its own (`Item`).  The code keeps the first part of an E line until a read
arrives that is no command, so a line that is split is sent back whole; a line that
arrives whole is kept as if more of it were to come.

A pending line is never repaired: it is dropped, or pushed out by the next E command
with NULs behind it (`echoed_of_pending`).  So the echo is exact precisely if every
E line is split, the second part looks like no comment, and no E line comes after a
read that ends the session (`Echoes`, `echo_exact_iff`).
-/
namespace PosixNet.Exercise

/-- A line of the server and the reads it arrives in. -/
inductive Item where
  /-- An E line in one read. -/
  | whole (d : Delivery)
  /-- An E line in two consecutive reads. -/
  | halves (d d' : Delivery)
  /-- A comment, C or F line in a read of its own. -/
  | aside (d : Delivery)

namespace Item

/-- The reads an item arrives in. -/
def reads : Item → List Delivery
  | .whole d | .aside d => [d]
  | .halves d d' => [d, d']

/-- The echo the line asks for. -/
def reply : Item → List Byte
  | .whole d => d.bytes.map toupper
  | .halves d d' => (d.bytes ++ d'.bytes).map toupper
  | .aside _ => []

/-- The line is complete and without NULs, the reads are short enough, and the second
part of a split line does not start with a command letter. -/
def Valid : Item → Prop
  | .whole d => commandOf d.bytes = .echo ∧ IsLine d.bytes ∧ NulFree d.bytes ∧
      d.bytes.length < MAXBUFFER
  | .halves d d' => commandOf d.bytes = .echo ∧ IsLine (d.bytes ++ d'.bytes) ∧
      NulFree (d.bytes ++ d'.bytes) ∧ (d.bytes ++ d'.bytes).length ≤ MAXBUFFER ∧
      (commandOf d'.bytes = .other ∨ commandOf d'.bytes = .comment)
  | .aside d => (commandOf d.bytes).Aside ∧ IsLine d.bytes ∧ NulFree d.bytes ∧
      d.bytes.length < MAXBUFFER

instance : (item : Item) → Decidable item.Valid
  | .whole _ | .halves _ _ | .aside _ => inferInstanceAs (Decidable (_ ∧ _))

end Item

/-- A session ends with an A line, a Q line or the stream. -/
def Closing (last : Option Delivery) : Prop :=
  ∀ d ∈ last, commandOf d.bytes = .accept ∨ commandOf d.bytes = .quit

instance : (last : Option Delivery) → Decidable (Closing last)
  | none => isTrue fun _ h => (nomatch h)
  | some d => decidable_of_iff (commandOf d.bytes = .accept ∨ commandOf d.bytes = .quit)
      ⟨fun h _ h' => Option.some.inj h' ▸ h, fun h => h d rfl⟩

/-- What the server says in one session. -/
structure Dialogue where
  items : List Item
  /-- A last A or Q line. -/
  last : Option Delivery
  valid : ∀ item ∈ items, item.Valid
  closing : Closing last

/-- The reads of a session. -/
def script (items : List Item) (last : Option Delivery) : List Delivery :=
  items.flatMap Item.reads ++ last.toList

/-- The echo the whole session asks for. -/
def replies (items : List Item) : List Byte := items.flatMap Item.reply

/-- Every E line is split, with a second part that is no command and no comment, and
no E line comes after a read that ends the session. -/
def Echoes (SRCPATH : List Byte) : (buffer : CArray (MAXBUFFER + 1)) → List Item → Prop
  | _, [] => True
  | _, .whole _ :: _ => False
  | buffer, .halves d d' :: items => (∃ text, heard buffer d = .ok text) ∧
      commandOf d'.bytes = .other ∧ Echoes SRCPATH (cleared buffer) items
  | buffer, .aside d :: items =>
      (Continues SRCPATH buffer 0 d → Echoes SRCPATH (cleared buffer) items) ∧
      (¬ Continues SRCPATH buffer 0 d → ∀ item ∈ items, ∃ d', item = .aside d')

variable {SRCPATH : List Byte} {c c' : Conn} {d : Delivery} {items : List Item}
  {last : Option Delivery}

/-! ## One read of a session -/

theorem echoed_error {ws : List Write} {ending : Ending}
    (h : handle SRCPATH c d = (ws, .error ending)) (ds : List Delivery) :
    echoed (newConnection SRCPATH c (d :: ds)).writes = echoed ws := by
  rw [newConnection_error h]

theorem echoed_ok {ws : List Write} (h : handle SRCPATH c d = (ws, .ok c')) (ds : List Delivery) :
    echoed (newConnection SRCPATH c (d :: ds)).writes =
      echoed ws ++ echoed (newConnection SRCPATH c' ds).writes := by
  rw [newConnection_ok h, echoed_append]

/-- After a comment, C or F line the session is over or goes on as before it. -/
theorem echoed_aside (hpath : NulFree SRCPATH) (hcmd : (commandOf d.bytes).Aside)
    (ds : List Delivery) :
    (Continues SRCPATH c.buffer c.esize d ∧ echoed (newConnection SRCPATH c (d :: ds)).writes =
      echoed (newConnection SRCPATH { c with buffer := cleared c.buffer } ds).writes) ∨
    (¬ Continues SRCPATH c.buffer c.esize d ∧
      echoed (newConnection SRCPATH c (d :: ds)).writes = []) := by
  rcases aside_cases hpath hcmd with
    ⟨hgo, ws, hsilent, hstep⟩ | ⟨hover, ws, ending, hsilent, hstep⟩
  · exact Or.inl ⟨hgo, by rw [echoed_ok hstep, hsilent, List.nil_append]⟩
  · exact Or.inr ⟨hover, (echoed_error hstep ds).trans hsilent⟩

/-- An A or Q line sends nothing. -/
theorem echoed_stop (hcmd : commandOf d.bytes = .accept ∨ commandOf d.bytes = .quit)
    (ds : List Delivery) : echoed (newConnection SRCPATH c (d :: ds)).writes = [] := by
  obtain ⟨ending, hstep⟩ := @handle_stop SRCPATH c d hcmd
  exact echoed_error hstep ds

/-- The A or Q line, or the end of the stream, sends nothing. -/
theorem echoed_last (hlast : Closing last) :
    echoed (newConnection SRCPATH c (script [] last)).writes = [] := by
  cases last with
  | none => rfl
  | some d => exact echoed_stop (hlast d rfl) []

/-- **A pending line is never repaired.**  The rest of the session drops it, or sends
it with a NUL behind it. -/
theorem echoed_of_pending (hpath : NulFree SRCPATH) (hlast : Closing last) {w : List Byte} :
    ∀ c : Conn, (∀ item ∈ items, item.Valid) → c.Pending w →
      echoed (newConnection SRCPATH c (script items last)).writes = [] ∨
        ∃ y, echoed (newConnection SRCPATH c (script items last)).writes =
          w.map toupper ++ 0 :: y := by
  -- the next E command pushes the line out, or overruns the buffer of `echoer`
  have hflush : ∀ (c : Conn) (d : Delivery) (ds : List Delivery), commandOf d.bytes = .echo →
      c.Pending w → echoed (newConnection SRCPATH c (d :: ds)).writes = [] ∨
        ∃ y, echoed (newConnection SRCPATH c (d :: ds)).writes = w.map toupper ++ 0 :: y := by
    intro c d ds hcmd hp
    by_cases hfit : w.length + d.bytes.length ≤ MAXBUFFER + 1
    · right
      have hstep := @handle_echo_flush SRCPATH w c d hcmd hp hfit
      obtain ⟨k, hk⟩ := Nat.exists_eq_succ_of_ne_zero (Nat.ne_of_gt d.length_pos)
      rw [hk, List.replicate_succ] at hstep
      rcases hkeep : keep d (received c.buffer d) (.zero _) with ending | c'
      · rw [hkeep] at hstep
        exact ⟨_, by rw [echoed_error hstep, echoed_echoer]⟩
      · rw [hkeep] at hstep
        exact ⟨_, by rw [echoed_ok hstep, echoed_echoer, List.append_assoc, List.cons_append]⟩
    · left
      exact echoed_error (handle_echo_overflow hcmd hp (Nat.lt_of_not_le hfit)) ds
  induction items with
  | nil => exact fun c _ _ => Or.inl (echoed_last hlast)
  | cons item items ih =>
    intro c hvalid hp
    have hitem := hvalid item (List.mem_cons_self ..)
    cases item with
    | whole d => exact hflush c d _ hitem.1 hp
    | halves d d' => exact hflush c d _ hitem.1 hp
    | aside d =>
      have hrest := ih { c with buffer := cleared c.buffer }
        (fun item h => hvalid item (List.mem_cons_of_mem _ h))
        ⟨hp.nulFree, hp.pos, hp.esize, hp.ebuffer⟩
      show echoed (newConnection SRCPATH c (d :: script items last)).writes = [] ∨
        ∃ y, echoed (newConnection SRCPATH c (d :: script items last)).writes = _
      rcases echoed_aside hpath hitem.1 (script items last) with ⟨-, h⟩ | ⟨-, h⟩
      · rw [h]; exact hrest
      · exact Or.inl h

/-! ## Whole sessions -/

/-- An E line split in two is sent back whole, and nothing stays pending. -/
theorem echoed_halves {d d' : Delivery} {text : List Byte} (hvalid : (Item.halves d d').Valid)
    (hidle : c.esize = 0) (ht : heard c.buffer d = .ok text)
    (hother : commandOf d'.bytes = .other) (ds : List Delivery) :
    echoed (newConnection SRCPATH c (d :: d' :: ds)).writes = (d.bytes ++ d'.bytes).map toupper ++
      echoed (newConnection SRCPATH (.start (cleared c.buffer) (.zero _)) ds).writes := by
  obtain ⟨hcmd, -, hfree, hlen, -⟩ := hvalid
  obtain ⟨hd, hd'⟩ := nulFree_append.mp hfree
  rw [List.length_append] at hlen
  have hpos := d.length_pos
  rw [newConnection_halves hcmd hother hidle hd hd' (by omega) (by omega) ht]
  rfl

/-- The echo is exact if every E line is split as it should be. -/
theorem echoed_of_echoes (hpath : NulFree SRCPATH)
    (hlast : Closing last) :
    ∀ (c : Conn), (∀ item ∈ items, item.Valid) → c.esize = 0 → Echoes SRCPATH c.buffer items →
      echoed (newConnection SRCPATH c (script items last)).writes = replies items := by
  induction items with
  | nil => exact fun c _ _ _ => echoed_last hlast
  | cons item items ih =>
    intro c hvalid hidle hechoes
    have hitem := hvalid item (List.mem_cons_self ..)
    have htail : ∀ item ∈ items, item.Valid := fun item h => hvalid item (List.mem_cons_of_mem _ h)
    cases item with
    | whole d => exact absurd hechoes id
    | halves d d' =>
      obtain ⟨⟨text, ht⟩, hother, hrest⟩ := hechoes
      refine (echoed_halves hitem hidle ht hother (script items last)).trans ?_
      rw [ih (.start (cleared c.buffer) (.zero _)) htail rfl hrest]
      rfl
    | aside d =>
      obtain ⟨hgo, hover⟩ := hechoes
      show echoed (newConnection SRCPATH c (d :: script items last)).writes = _
      rcases echoed_aside hpath hitem.1 (script items last) with ⟨h, heq⟩ | ⟨h, heq⟩
      · rw [hidle] at h
        rw [heq, ih { c with buffer := cleared c.buffer } htail hidle (hgo h)]
        rfl
      · -- the session is over, and the rest asks for no echo
        rw [hidle] at h
        rw [heq]
        refine (List.flatMap_eq_nil_iff.mpr fun item hmem => ?_).symm
        rcases List.mem_cons.mp hmem with rfl | hmem
        · rfl
        · obtain ⟨d', rfl⟩ := hover h item hmem
          rfl

/-- The echo asked for has no NULs. -/
theorem nulFree_replies (hvalid : ∀ item ∈ items, item.Valid) : NulFree (replies items) := by
  intro hmem
  obtain ⟨item, hitem, hmem⟩ := List.mem_flatMap.mp hmem
  have hitem := hvalid item hitem
  cases item with
  | whole d => exact (hitem.2.2.1.map fun b => toupper_ne_zero) hmem
  | halves d d' => exact (hitem.2.2.1.map fun b => toupper_ne_zero) hmem
  | aside d => exact absurd hmem List.not_mem_nil

/-- With a line pending the echo does not begin with that line and go on without NULs. -/
theorem echoed_pending_ne (hpath : NulFree SRCPATH) (hlast : Closing last)
    (hvalid : ∀ item ∈ items, item.Valid) {w l : List Byte} (hp : c.Pending w) (hl : NulFree l) :
    echoed (newConnection SRCPATH c (script items last)).writes ≠ w.map toupper ++ l := by
  intro heq
  rcases echoed_of_pending hpath hlast c hvalid hp with h | ⟨y, h⟩
  · have hlen := congrArg List.length (h.symm.trans heq)
    simp only [List.length_nil, List.length_append, List.length_map] at hlen
    exact absurd hp.pos (by omega)
  · have hzero : 0 :: y = l := List.append_cancel_left (h.symm.trans heq)
    exact hl (hzero ▸ List.mem_cons_self ..)

/-- Nor is an E line sent back that is kept for more of it to come. -/
theorem echoed_kept_ne (hpath : NulFree SRCPATH) (hlast : Closing last)
    (hvalid : ∀ item ∈ items, item.Valid) (hcmd : commandOf d.bytes = .echo) (hc : c.Idle)
    (hd : NulFree d.bytes) (hlen : d.bytes.length < MAXBUFFER) {l : List Byte} (hl : NulFree l) :
    echoed (newConnection SRCPATH c (d :: script items last)).writes ≠
      d.bytes.map toupper ++ l := by
  obtain ⟨c', hstep, hp⟩ := @handle_echo_pending SRCPATH c d hcmd hc hd hlen
  rw [echoed_ok hstep, echoed_nil, List.nil_append]
  exact echoed_pending_ne hpath hlast hvalid hp hl

/-- In cleared buffers the echo is exact only then. -/
theorem echoes_of_echoed (hpath : NulFree SRCPATH) (hlast : Closing last) :
    ∀ c : Conn, (∀ item ∈ items, item.Valid) → c.Idle →
      echoed (newConnection SRCPATH c (script items last)).writes = replies items →
      Echoes SRCPATH c.buffer items := by
  induction items with
  | nil => exact fun c _ _ _ => trivial
  | cons item items ih =>
    intro c hvalid hc hechoed
    have hitem := hvalid item (List.mem_cons_self ..)
    have htail : ∀ item ∈ items, item.Valid := fun item h => hvalid item (List.mem_cons_of_mem _ h)
    have hreplies := nulFree_replies htail
    cases item with
    | whole d =>
      obtain ⟨hcmd, -, hfree, hlen⟩ := hitem
      exact absurd hechoed (echoed_kept_ne hpath hlast htail hcmd hc hfree hlen hreplies)
    | halves d d' =>
      obtain ⟨hcmd, hline, hfree, hlen, hsecond⟩ := id hitem
      obtain ⟨hd, hd'⟩ := nulFree_append.mp hfree
      rw [List.length_append] at hlen
      have hpos := d.length_pos
      have hpos' := d'.length_pos
      rw [show script (.halves d d' :: items) last = d :: d' :: script items last from rfl]
        at hechoed
      rcases hsecond with hother | hcomment
      · have ht := hc.heard hd (by omega)
        rw [echoed_halves hitem hc.esize ht hother, hc.buffer] at hechoed
        refine ⟨⟨_, ht⟩, hother, ?_⟩
        rw [hc.buffer]
        exact ih (.start c.buffer (.zero _)) htail ⟨rfl, hc.buffer⟩
          (List.append_cancel_left hechoed)
      · -- the second part is taken for a comment: the first stays pending
        have hreply : replies (.halves d d' :: items) =
            d.bytes.map toupper ++ (d'.bytes.map toupper ++ replies items) := by
          rw [← List.append_assoc, ← List.map_append]
          rfl
        rw [hreply] at hechoed
        have hl : NulFree (d'.bytes.map toupper ++ replies items) :=
          nulFree_append.mpr ⟨hd'.map fun b => toupper_ne_zero, hreplies⟩
        have hcomment : (Item.aside d').Valid :=
          ⟨Or.inl hcomment, hline.of_append d'.nonempty, hd', by omega⟩
        have hvalid : ∀ item ∈ Item.aside d' :: items, item.Valid :=
          List.forall_mem_cons.mpr ⟨hcomment, htail⟩
        exact absurd hechoed (echoed_kept_ne hpath hlast hvalid hcmd hc hd (by omega) hl)
    | aside d =>
      rw [show script (.aside d :: items) last = d :: script items last from rfl] at hechoed
      have hreply : replies (.aside d :: items) = replies items := rfl
      rw [hreply] at hechoed
      rcases echoed_aside hpath hitem.1 (script items last) with ⟨hgo, h⟩ | ⟨hover, h⟩
      · rw [hc.esize] at hgo
        rw [h] at hechoed
        refine ⟨fun _ => ?_, fun hover => absurd hgo hover⟩
        exact ih { c with buffer := cleared c.buffer } htail ⟨hc.esize, cleared_cleared c.buffer⟩
          hechoed
      · rw [hc.esize] at hover
        rw [h] at hechoed
        refine ⟨fun hgo => absurd hgo hover, fun _ item hmem => ?_⟩
        have hnone := List.flatMap_eq_nil_iff.mp hechoed.symm item hmem
        cases item with
        | whole d' => exact absurd (List.map_eq_nil_iff.mp hnone) d'.nonempty
        | halves d' d'' =>
          exact absurd (List.append_eq_nil_iff.mp (List.map_eq_nil_iff.mp hnone)).1 d'.nonempty
        | aside d' => exact ⟨d', rfl⟩

/-- **When the echo of a session is exact.**  It is if `Echoes` holds, whatever the
buffers held at first; with a buffer of zeros it is not otherwise. -/
theorem echo_exact_iff (hpath : NulFree SRCPATH) (dialogue : Dialogue)
    (buffer ebuffer : CArray (MAXBUFFER + 1)) :
    let session := newConnection SRCPATH (.start buffer ebuffer)
      (script dialogue.items dialogue.last)
    (Echoes SRCPATH buffer dialogue.items →
      echoed session.writes = replies dialogue.items) ∧
    (buffer = .zero _ → (echoed session.writes = replies dialogue.items ↔
      Echoes SRCPATH buffer dialogue.items)) := by
  have hif := echoed_of_echoes hpath dialogue.closing (.start buffer ebuffer) dialogue.valid rfl
  refine ⟨hif, fun hzero => ⟨?_, hif⟩⟩
  subst hzero
  exact echoes_of_echoed hpath dialogue.closing (.start (.zero _) ebuffer) dialogue.valid
    ⟨rfl, cleared_zero⟩

/-- A comment, an E line in two reads, and another. -/
def splitDialogue : Dialogue where
  items := [.aside (.said "# hello\n"), .halves (.said "E Echo") (.said " this\n"),
    .halves (.said "E and") (.said " that\n")]
  last := none
  valid := by decide
  closing := by decide

theorem echo_exact_two_halves :
    echoed (newConnection (ascii "server.c") (.start (.zero _) (.zero _))
      (script splitDialogue.items none)).writes = ascii "E ECHO THIS\nE AND THAT\n" := by
  apply (echo_exact_iff (by decide) splitDialogue (.zero _) (.zero _)).1
  have hgo : Continues (ascii "server.c") (.zero _) 0 (.said "# hello\n") :=
    ⟨_, heard_zero (by decide), by decide⟩
  refine ⟨fun _ => ?_, fun hover => absurd hgo hover⟩
  simp only [Echoes, cleared_zero, and_true]
  exact ⟨⟨_, heard_zero (by decide)⟩, by decide,
    ⟨_, heard_zero (by decide)⟩, by decide⟩

/-- Two E lines, each in one read. -/
def wholeDialogue : Dialogue where
  items := [.whole (.said "E a\n"), .whole (.said "E b\n")]
  last := none
  valid := by decide
  closing := by decide

/-- The first line is sent with four NULs behind it, the second is not sent. -/
theorem not_echo_exact_whole_lines :
    ¬ ∀ (SRCPATH : List Byte) (dialogue : Dialogue) (buffer ebuffer : CArray (MAXBUFFER + 1)),
      NulFree SRCPATH →
        (∀ item ∈ dialogue.items, ∀ d d', item = .halves d d' → commandOf d'.bytes = .other) →
        echoed (newConnection SRCPATH (.start buffer ebuffer)
          (script dialogue.items dialogue.last)).writes = replies dialogue.items := by
  intro hall
  have hwhole : ∀ item ∈ wholeDialogue.items, ∀ d d', item = .halves d d' →
      commandOf d'.bytes = .other := by
    intro item hitem d d' rfl
    simp [wholeDialogue] at hitem
  have hexact := hall (ascii "server.c") wholeDialogue (.zero _) (.zero _) (by decide) hwhole
  exact absurd hexact (by decide +kernel)

end PosixNet.Exercise
