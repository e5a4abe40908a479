import PosixNet.ExerciseIteration

/-!
# `exercise`: when a session ends

By the protocol a session is over with an A line, a Q line, or a comment whose reply
code is 209 (`protocolEnd`).  The code looks for the text `209` anywhere in a
comment, so it overlooks no goodbye (`goodbye_found`) and finds some where there is
none.

`endsAsTold_iff` says exactly which sessions end as the protocol says: those in
which, up to the line that ends them, no comment has `209` in its text, and nothing
else stops the process (`Uninterrupted`).
-/
namespace PosixNet.Exercise

/-- The number right after `# `. -/
def replyCode : List Byte → Option Nat
  | 35 :: 32 :: s =>
    match s.takeWhile isdigit with
    | [] => none
    | digits => some (digitsValue digits)
  | _ => none

/-- How a line ends the session, if it does. -/
def stops (w : List Byte) : Option Ending :=
  match commandOf w with
  | .accept => some .accepted
  | .quit => some .quit
  | .comment => if replyCode w = some 209 then some .goodbye else none
  | .echo | .code | .file | .other => none

/-- How a session ends by the protocol, and after how many lines. -/
def protocolEnd : List (List Byte) → Ending × Nat
  | [] => (.eof, 0)
  | w :: ws =>
    match stops w with
    | some ending => (ending, 1)
    | none => ((protocolEnd ws).1, (protocolEnd ws).2 + 1)

/-- A complete command line, as the server sends it. -/
def CommandLine (w : List Byte) : Prop :=
  commandOf w ≠ .other ∧ IsLine w ∧ NulFree w ∧ w.length < MAXBUFFER

instance (w : List Byte) : Decidable (CommandLine w) := inferInstanceAs (Decidable (_ ∧ _))

/-- The session ended where the protocol says and as it says. -/
def EndsAsTold (s : Session) (ds : List Delivery) : Prop :=
  (s.ending, s.reads) = protocolEnd (ds.map Delivery.bytes)

instance (s : Session) (ds : List Delivery) : Decidable (EndsAsTold s ds) :=
  inferInstanceAs (Decidable (_ = _))

/-- Up to the line that ends it, every read has what its branch needs (`Continues`): no
comment has `209` in its text, no F command ends the process, the buffers hold what
is copied into them.  A goodbye is to be heard. -/
def Uninterrupted (SRCPATH : List Byte) :
    (buffer : CArray (MAXBUFFER + 1)) → (esize : Nat) → List Delivery → Prop
  | _, _, [] => True
  | buffer, esize, d :: ds =>
    match stops d.bytes with
    | some ending => ending = .goodbye → ∃ text, heard buffer d = .ok text
    | none => Continues SRCPATH buffer esize d ∧
        Uninterrupted SRCPATH (cleared buffer) (pendingAfter esize d.bytes) ds

/-! ## No goodbye is overlooked -/

/-- Digits that denote 209 end in `209`. -/
theorem digits_209 {l : List Byte} (hl : ∀ b ∈ l, isdigit b) (h : digitsValue l = 209) :
    ascii "209" <:+ l := by
  have hlast : ∀ (l : List Byte) (n : Nat), (∀ b ∈ l, isdigit b) → digitsValue l = n → 0 < n →
      ∃ l' b, l = l' ++ [b] ∧ digitsValue l' = n / 10 ∧ b.toNat = 48 + n % 10 := by
    intro l n hl hn hpos
    rcases List.eq_nil_or_concat l with rfl | ⟨l', b, rfl⟩
    · exact absurd hn (Nat.ne_of_lt hpos)
    · rw [List.concat_eq_append] at hl hn ⊢
      have hb : 48 ≤ b.toNat ∧ b.toNat ≤ 57 := by
        simpa [isdigit, UInt8.le_iff_toNat_le] using hl b (by simp)
      simp only [digitsValue, List.foldl_append, List.foldl_cons, List.foldl_nil] at hn
      refine ⟨l', b, rfl, ?_, ?_⟩
      · rw [digitsValue]
        omega
      · omega
  obtain ⟨l₁, b₁, rfl, h₁, hb₁⟩ := hlast l 209 hl h (by decide)
  have hl₁ : ∀ b ∈ l₁, isdigit b := fun b hb => hl b (List.mem_append_left _ hb)
  obtain ⟨l₂, b₂, rfl, h₂, hb₂⟩ := hlast l₁ 20 hl₁ h₁ (by decide)
  have hl₂ : ∀ b ∈ l₂, isdigit b := fun b hb => hl₁ b (List.mem_append_left _ hb)
  obtain ⟨l₃, b₃, rfl, -, hb₃⟩ := hlast l₂ 2 hl₂ h₂ (by decide)
  refine ⟨l₃, ?_⟩
  have e₁ : b₁ = 57 := UInt8.toNat_inj.mp hb₁
  have e₂ : b₂ = 48 := UInt8.toNat_inj.mp hb₂
  have e₃ : b₃ = 50 := UInt8.toNat_inj.mp hb₃
  subst e₁ e₂ e₃
  have h209 : ascii "209" = [50, 48, 57] := by decide
  rw [h209]
  simp

theorem goodbye_found {w : List Byte} (h : replyCode w = some 209) : ascii "209" <:+: w := by
  unfold replyCode at h
  split at h
  · rename_i s
    split at h
    · cases h
    · have hvalue := digits_209 (fun b hb => List.mem_takeWhile_imp hb) (Option.some.inj h)
      have hs : ascii "209" <:+: s :=
        hvalue.isInfix.trans (List.takeWhile_prefix _).isInfix
      exact hs.trans ⟨[35, 32], [], by simp⟩
  · cases h

variable {SRCPATH : List Byte} {c : Conn} {d : Delivery} {ds : List Delivery}

/-- The line that ends the session is handled so, if it is heard. -/
theorem handle_stops {ending : Ending} (h : stops d.bytes = some ending) (hd : NulFree d.bytes) :
    (∃ f, handle SRCPATH c d = ([], .error (.fault f)) ∧ ending = .goodbye ∧
      heard c.buffer d = .error f) ∨
    (handle SRCPATH c d = ([], .error ending) ∧
      (ending = .goodbye → ∃ text, heard c.buffer d = .ok text)) := by
  unfold stops at h
  cases hcmd : commandOf d.bytes with
  | accept | quit =>
    simp only [hcmd, Option.some.injEq] at h
    subst h
    simp [handle, hcmd]
  | comment =>
    rw [hcmd] at h
    simp only at h
    split at h
    · rename_i hcode
      obtain rfl := Option.some.inj h
      simp only [handle, hcmd, onComment, withText, heard]
      cases hstr : (received c.buffer d).str with
      | error f => exact Or.inl ⟨f, by simp⟩
      | ok text =>
        obtain ⟨garbage, htext⟩ := heard_append hd hstr
        have h209 : ascii "209" <:+: text := by
          rw [htext]
          exact (goodbye_found hcode).trans (List.prefix_append _ _).isInfix
        exact Or.inr ⟨by simp [h209], fun _ => ⟨text, rfl⟩⟩
    · cases h
  | echo | code | file | other =>
    rw [hcmd] at h
    cases h

theorem protocolEnd_pos (w : List Byte) (ws : List (List Byte)) :
    0 < (protocolEnd (w :: ws)).2 := by
  rw [protocolEnd]
  split <;> simp

/-- A line that ends the session. -/
theorem endsAsTold_stop {ending : Ending} (h : stops d.bytes = some ending)
    (hd : NulFree d.bytes) : EndsAsTold (newConnection SRCPATH c (d :: ds)) (d :: ds) ↔
      (ending = .goodbye → ∃ text, heard c.buffer d = .ok text) := by
  simp only [EndsAsTold, List.map_cons, protocolEnd, h]
  rcases handle_stops h hd with ⟨f, hstep, rfl, hheard⟩ | ⟨hstep, hheard⟩
  · rw [newConnection_error hstep]
    refine ⟨fun heq => (nomatch (Prod.mk.inj heq).1), fun hall => ?_⟩
    obtain ⟨text, htext⟩ := hall rfl
    rw [hheard] at htext
    cases htext
  · rw [newConnection_error hstep]
    exact ⟨fun _ => hheard, fun _ => rfl⟩

/-- A line that does not end the session: the code is told to go on, and either does
so or has ended the session wrongly. -/
theorem endsAsTold_cons (hpath : NulFree SRCPATH) (h : stops d.bytes = none) :
    (Continues SRCPATH c.buffer c.esize d ∧ ∃ c', c'.buffer = cleared c.buffer ∧
      c'.esize = pendingAfter c.esize d.bytes ∧
      (EndsAsTold (newConnection SRCPATH c (d :: ds)) (d :: ds) ↔
        EndsAsTold (newConnection SRCPATH c' ds) ds)) ∨
    (¬ Continues SRCPATH c.buffer c.esize d ∧
      ¬ EndsAsTold (newConnection SRCPATH c (d :: ds)) (d :: ds)) := by
  simp only [EndsAsTold, List.map_cons, protocolEnd, h]
  rcases handle_cases hpath c d with ⟨hgo, c', hc', hbuffer, hesize⟩ | ⟨hover, ending, hending, hne⟩
  · refine Or.inl ⟨hgo, c', hbuffer, hesize, ?_⟩
    rw [newConnection_ok (Prod.ext rfl hc')]
    constructor
    · intro heq
      obtain ⟨hend, hreads⟩ := Prod.mk.inj heq
      exact Prod.ext hend (Nat.succ.inj hreads)
    · intro heq
      obtain ⟨hend, hreads⟩ := Prod.mk.inj heq
      exact Prod.ext hend (congrArg (· + 1) hreads)
  · refine Or.inr ⟨hover, fun heq => ?_⟩
    rw [newConnection_error (Prod.ext rfl hending)] at heq
    obtain ⟨hend, hreads⟩ := Prod.mk.inj heq
    cases ds with
    | nil => exact hne hend
    | cons d' ds =>
      -- the protocol reads at least one line more
      have hpos := protocolEnd_pos d'.bytes (ds.map Delivery.bytes)
      simp only [List.map_cons] at hreads
      omega

/-- **When a session ends as the protocol says.**  It does exactly if, up to the line
that ends it, nothing else stops the session. -/
theorem endsAsTold_iff (hpath : NulFree SRCPATH) (buffer ebuffer : CArray (MAXBUFFER + 1))
    (hlines : ∀ d ∈ ds, CommandLine d.bytes) :
    EndsAsTold (newConnection SRCPATH (.start buffer ebuffer) ds) ds ↔
      Uninterrupted SRCPATH buffer 0 ds := by
  have hconn : ∀ c : Conn, EndsAsTold (newConnection SRCPATH c ds) ds ↔
      Uninterrupted SRCPATH c.buffer c.esize ds := by
    induction ds with
    | nil => exact fun c => ⟨fun _ => trivial, fun _ => rfl⟩
    | cons d ds ih =>
      intro c
      have ih := ih fun d hd => hlines d (List.mem_cons_of_mem _ hd)
      have hfree := (hlines d (List.mem_cons_self ..)).2.2.1
      cases hstop : stops d.bytes with
      | some ending =>
        rw [endsAsTold_stop hstop hfree, Uninterrupted, hstop]
      | none =>
        rw [Uninterrupted, hstop]
        rcases endsAsTold_cons hpath hstop with ⟨hgo, c', hbuffer, hesize, hrest⟩ | ⟨hover, hnot⟩
        · rw [hrest, ih c', hbuffer, hesize]
          exact (and_iff_right hgo).symm
        · exact ⟨fun h => absurd h hnot, fun h => absurd h.1 hover⟩
  exact hconn (.start buffer ebuffer)

/-- A comment, an E command and a goodbye: the session ends with the third line. -/
theorem endsAsTold_goodbye :
    let ds : List Delivery :=
      [.said "# 205 Make your own server\n", .said "E Echo\n", .said "# 209 Goodbye\n"]
    EndsAsTold (newConnection (ascii "server.c") (.start (.zero _) (.zero _)) ds) ds := by
  apply (endsAsTold_iff (by decide) _ _ (by decide)).mpr
  simp only [Uninterrupted, cleared_zero]
  exact ⟨⟨_, heard_zero (by decide), by decide⟩,
    ⟨by decide, _, heard_zero (by decide)⟩,
    fun _ => ⟨_, heard_zero (by decide)⟩⟩

/-- A port number with `209` in it. -/
theorem not_endsAsTold_port :
    ¬ ∀ (SRCPATH : List Byte) (buffer ebuffer : CArray (MAXBUFFER + 1)) (ds : List Delivery),
      NulFree SRCPATH → (∀ d ∈ ds, CommandLine d.bytes) →
        (∀ d ∈ ds, commandOf d.bytes = .file →
          ∀ text, (filetransfer d.world text).ending = .returned true) →
        EndsAsTold (newConnection SRCPATH (.start buffer ebuffer) ds) ds := by
  intro hall
  let ds : List Delivery := [.said "# 205 Make your service at port 22093\n", .said "Q\n"]
  have hnofile : ∀ d ∈ ds, commandOf d.bytes ≠ .file := by decide
  have hends := hall (ascii "server.c") (.zero _) (.zero _) ds (by decide) (by decide)
    fun d hd hfile => absurd hfile (hnofile d hd)
  exact absurd hends (by decide +kernel)

end PosixNet.Exercise
