import PosixNet.ExerciseEcho
import PosixNet.ExerciseHeads

/-!
# `exercise`: what the echo shows of the stack

Neither `buffer` nor `ebuffer` nor the buffer of `echoer` is initialised.  `Arrays` is
what they hold then, and `SameEcho` says of two such contents that a session echoes the
same from both.

The contents of `ebuffer` and of the buffer of `echoer` are overwritten before they are
sent.  Those of `buffer` stand behind the first read.  If it is an E read, they are
copied along with it, and an E read that pushes it out sends as many of them as it has
bytes itself, up to a NUL (`ShowsSame`).  If it is a comment or an F command, they belong
to its text, and may decide whether the session goes on (`LeakFree`).
**`sameEcho_iff`**: there is no other way.
-/
namespace PosixNet.Exercise

/-- What the local arrays hold before they are assigned; `echoer` has a new one in the
handling of every read. -/
structure Arrays where
  buffer : CArray (MAXBUFFER + 1)
  ebuffer : CArray (MAXBUFFER + 1)
  echoer : Nat → CArray (MAXBUFFER + 1)

/-- The same read, with this content of the buffer of `echoer`. -/
def Delivery.withStack (d : Delivery) (stack : CArray (MAXBUFFER + 1)) : Delivery :=
  { d with world := { d.world with echoerBuffer := stack } }

/-- The same reads, with these contents of the stack of `echoer` on each of them. -/
def withStacks (contents : Nat → CArray (MAXBUFFER + 1)) : List Delivery → List Delivery
  | [] => []
  | d :: ds => d.withStack (contents 0) :: withStacks (fun i => contents (i + 1)) ds

/-- A session from these contents. -/
def Arrays.session (SRCPATH : List Byte) (a : Arrays) (ds : List Delivery) : Session :=
  newConnection SRCPATH (.start a.buffer a.ebuffer) (withStacks a.echoer ds)

/-- The session never leaves an array. -/
def InBounds (SRCPATH : List Byte) (c : Conn) (ds : List Delivery) : Prop :=
  (newConnection SRCPATH c ds).ending ≠ .fault .bounds

/-- The session from these contents never leaves an array. -/
def Arrays.InBounds (SRCPATH : List Byte) (a : Arrays) (ds : List Delivery) : Prop :=
  (a.session SRCPATH ds).ending ≠ .fault .bounds

instance (SRCPATH : List Byte) (a : Arrays) (ds : List Delivery) :
    Decidable (a.InBounds SRCPATH ds) := inferInstanceAs (Decidable (_ ≠ _))

/-- The E command path writes the same from both. -/
def SameEcho (SRCPATH : List Byte) (a a' : Arrays) (ds : List Delivery) : Prop :=
  echoed (a.session SRCPATH ds).writes = echoed (a'.session SRCPATH ds).writes

/-- What an E read of `k` bytes shows of the bytes behind the line it pushes out. -/
def shown (behind : List Byte) (k : Nat) : List Byte :=
  ((cstr behind ++ List.replicate k 0).take k).map toupper

/-- If a line that is pending is pushed out by these reads, then with as much of `x`
behind it as of `x'`. -/
def ShowsSame (SRCPATH x x' : List Byte) : List Delivery → Prop
  | [] => True
  | d :: ds =>
    match commandOf d.bytes with
    | .echo => shown x d.bytes.length = shown x' d.bytes.length
    | .comment | .code | .file => Continues SRCPATH (.zero _) 0 d → ShowsSame SRCPATH x x' ds
    | .accept | .quit | .other => True

/-- These reads are answered with an echo, with a line pending in front of them or not. -/
def Echoing (SRCPATH : List Byte) : (pending : Bool) → List Delivery → Prop
  | _, [] => False
  | pending, d :: ds =>
    match commandOf d.bytes with
    | .echo => pending = true ∨ Echoing SRCPATH true ds
    | .other => pending = true ∨ Echoing SRCPATH false ds
    | .comment | .code | .file => Continues SRCPATH (.zero _) 0 d ∧ Echoing SRCPATH pending ds
    | .accept | .quit => False

/-- Two contents of `buffer` do not show: not behind a first read that is an E command,
and not by ending the session at a first read that is a comment or an F command. -/
def LeakFree (SRCPATH : List Byte) (buffer buffer' : CArray (MAXBUFFER + 1)) :
    List Delivery → Prop
  | [] => True
  | d :: ds =>
    match commandOf d.bytes with
    | .echo => ShowsSame SRCPATH (buffer.bytes.drop d.bytes.length)
        (buffer'.bytes.drop d.bytes.length) ds
    | .comment | .file => (Continues SRCPATH buffer 0 d ↔ Continues SRCPATH buffer' 0 d) ∨
        ¬ Echoing SRCPATH false ds
    | .code | .accept | .quit | .other => True

variable {SRCPATH w x x' : List Byte} {c c' : Conn} {d : Delivery} {ds : List Delivery}
  {buffer buffer' : CArray (MAXBUFFER + 1)}

/-! ## The buffer of `echoer` -/

theorem echoer_stack (stack stack' line : CArray (MAXBUFFER + 1)) (size : Nat) :
    echoer stack line size = echoer stack' line size := by
  by_cases h : size ≤ MAXBUFFER + 1
  · rw [echoer_eq h, echoer_eq h]
  · rw [echoer_eq_error (Nat.lt_of_not_le h), echoer_eq_error (Nat.lt_of_not_le h)]

theorem handle_withStack (c : Conn) (d : Delivery) (stack : CArray (MAXBUFFER + 1)) :
    handle SRCPATH c (d.withStack stack) = handle SRCPATH c d := by
  have hecho : ∀ line size, echoer (d.withStack stack).world.echoerBuffer line size =
      echoer d.world.echoerBuffer line size := echoer_stack _ _
  show (match commandOf d.bytes with
    | .echo => onEcho c (d.withStack stack) (received c.buffer d)
    | .comment => onComment c (received c.buffer d)
    | .code => onCode SRCPATH c d (received c.buffer d)
    | .file => onFile c (d.withStack stack) (received c.buffer d)
    | .accept => ([], .error .accepted)
    | .quit => ([], .error .quit)
    | .other => onOther c (d.withStack stack) (received c.buffer d)) = _
  rw [handle]
  cases commandOf d.bytes with
  | echo =>
    simp only [onEcho, hecho]
    rfl
  | other =>
    simp only [onOther, hecho]
    rfl
  | comment | code | file | accept | quit => rfl

/-- **The buffer of `echoer` is overwritten before it is sent.** -/
theorem newConnection_withStacks (contents : Nat → CArray (MAXBUFFER + 1)) :
    newConnection SRCPATH c (withStacks contents ds) = newConnection SRCPATH c ds := by
  induction ds generalizing c contents with
  | nil => rfl
  | cons d ds ih =>
    rw [withStacks, newConnection, newConnection, handle_withStack]
    split
    · rfl
    · rw [ih]

/-! ## What an in-bounds session hears -/

/-- A command whose handling looks at the text. -/
def Command.Hears (k : Command) : Prop := k ≠ .code ∧ k ≠ .accept ∧ k ≠ .quit

instance (k : Command) : Decidable k.Hears := inferInstanceAs (Decidable (_ ∧ _))

theorem InBounds.next {ws : List Write} (hin : InBounds SRCPATH c (d :: ds))
    (h : handle SRCPATH c d = (ws, .ok c')) : InBounds SRCPATH c' ds := by
  rwa [InBounds, newConnection_ok h] at hin

theorem InBounds.copiesInside (hin : InBounds SRCPATH c (d :: ds)) : CopiesInside c d :=
  inside_of_ending hin [] d ds rfl c rfl

/-- A text without an end is not handled in bounds. -/
theorem InBounds.hears (hin : InBounds SRCPATH c (d :: ds)) (hcmd : (commandOf d.bytes).Hears) :
    ∃ text, heard c.buffer d = .ok text := by
  by_contra hnone
  have hstr : (received c.buffer d).str = .error .bounds :=
    CArray.str_eq_error fun h0 => hnone ⟨_, CArray.str_eq h0⟩
  have hcopies := copiesInside_iff.mp hin.copiesInside
  have hfault : ∃ ws, handle SRCPATH c d = (ws, .error (.fault .bounds)) := by
    cases hk : commandOf d.bytes with
    | echo => exact absurd (hcopies.2 hk) hnone
    | comment => simp [handle, hk, onComment, withText_error hstr]
    | file => simp [handle, hk, onFile, hstr]
    | code => exact absurd hk hcmd.1
    | accept => exact absurd hk hcmd.2.1
    | quit => exact absurd hk hcmd.2.2
    | other =>
      by_cases hpos : 0 < c.esize
      · have hfit := hcopies.1 (Or.inr hk) hpos
        simp [handle, hk, onOther, hpos, CArray.store_eq hfit, echoer_eq hfit, withText_error hstr]
      · simp [handle, hk, onOther, hpos, withText_error hstr]
  obtain ⟨ws, hfault⟩ := hfault
  rw [InBounds, newConnection_error hfault] at hin
  exact hin rfl

/-- A cleared buffer holds no text but that of the read. -/
theorem heard_of_cleared {text : List Byte} (hbuffer : cleared buffer = buffer)
    (hd : NulFree d.bytes) (h : heard buffer d = .ok text) : text = d.bytes := by
  by_cases hlen : d.bytes.length < MAXBUFFER
  · rw [← hbuffer, heard_cleared hd hlen] at h
    exact (Except.ok.inj h).symm
  · -- one byte is left behind the read, and it is the NUL
    have hone : (buffer.bytes.drop d.bytes.length).length = 1 := by
      have hle := d.le
      rw [List.length_drop, buffer.length_eq]
      omega
    obtain ⟨b, hb⟩ := List.length_eq_one_iff.mp hone
    have hzero : 0 ∈ buffer.bytes.drop d.bytes.length := (heard_ok_iff hd).mp ⟨text, h⟩
    rw [hb, List.mem_singleton] at hzero
    rw [heard_zeros hd (by simp [hb, ← hzero])] at h
    exact (Except.ok.inj h).symm

/-- Whether a comment, C or F command ends the session depends on what is heard alone. -/
theorem continues_aside (hcmd : (commandOf d.bytes).Aside)
    (h : (commandOf d.bytes).Hears → heard buffer d = heard buffer' d) (n n' : Nat) :
    Continues SRCPATH buffer n d ↔ Continues SRCPATH buffer' n' d := by
  rw [Continues, Continues]
  rcases hcmd with hk | hk | hk
  · rw [hk, h (by rw [hk]; decide)]
  · rw [hk]
  · rw [hk, h (by rw [hk]; decide)]

/-! ## One read, with a line pending -/

/-- The line `w` is pending, with `x` behind it in `ebuffer`; none is if `w` is empty.
The buffer is cleared. -/
structure Conn.Holds (c : Conn) (w x : List Byte) : Prop where
  nulFree : NulFree w
  esize : c.esize = w.length
  ebuffer : c.ebuffer.bytes = w ++ x
  buffer : cleared c.buffer = c.buffer

/-- What an E read of `k` bytes pushes out. -/
def pushed (w x : List Byte) (k : Nat) : List Byte :=
  if w = [] then [] else w.map toupper ++ shown x k

/-- What a read that is no command completes. -/
def completed (w bytes : List Byte) : List Byte := if w = [] then [] else (w ++ bytes).map toupper

/-- What stands behind a NUL is not shown. -/
theorem shown_of_cstr_eq {x x' : List Byte} (h : cstr x = cstr x') (k : Nat) :
    shown x k = shown x' k := by rw [shown, shown, h]

/-- `echoer` sends the line and what stands behind it. -/
theorem echoer_behind {stack line : CArray (MAXBUFFER + 1)} {k : Nat} (hw : NulFree w)
    (hline : line.bytes = w ++ x) (h : w.length + k ≤ MAXBUFFER + 1) :
    echoer stack line (w.length + k) = .ok (w.map toupper ++ shown x k) := by
  have htake : (cstr x ++ List.replicate (w.length + k) 0).take k =
      (cstr x ++ List.replicate k 0).take k := by
    rw [List.take_append, List.take_append, List.take_replicate, List.take_replicate]
    congr 2
    omega
  rw [echoer_eq h, hline, cstr_append hw, List.append_assoc, List.take_length_add_append, htake,
    List.map_append, shown]

/-- An E command pushes out the pending line with what stands behind it. -/
theorem handle_echo_line (hcmd : commandOf d.bytes = .echo) (hw : NulFree w) (hpos : 0 < w.length)
    (hsize : c.esize = w.length) (hline : c.ebuffer.bytes = w ++ x)
    (hfit : w.length + d.bytes.length ≤ MAXBUFFER + 1) : handle SRCPATH c d =
      ([.echoer (w.map toupper ++ shown x d.bytes.length)],
        keep d (received c.buffer d) (.zero _)) := by
  simp only [handle, hcmd, onEcho, hsize, if_pos hpos, echoer_behind hw hline hfit]

namespace Conn.Holds

theorem heard (hc : c.Holds w x) (hd : NulFree d.bytes) (hin : InBounds SRCPATH c (d :: ds))
    (hcmd : (commandOf d.bytes).Hears) : heard c.buffer d = .ok d.bytes := by
  obtain ⟨text, h⟩ := hin.hears hcmd
  rwa [heard_of_cleared hc.buffer hd h] at h

/-- A read that is copied behind the line fits there. -/
theorem fits (hc : c.Holds w x) (hw : w ≠ []) (hin : InBounds SRCPATH c (d :: ds))
    (hcmd : commandOf d.bytes = .echo ∨ commandOf d.bytes = .other) :
    w.length + d.bytes.length ≤ MAXBUFFER + 1 := by
  have hfit := (copiesInside_iff.mp hin.copiesInside).1 hcmd
  rw [hc.esize] at hfit
  exact hfit (List.length_pos_iff.mpr hw)

/-- After an E read it is pending, with a NUL behind it. -/
theorem echo (hc : c.Holds w x) (hd : NulFree d.bytes) (hin : InBounds SRCPATH c (d :: ds))
    (hcmd : commandOf d.bytes = .echo) : ∃ c' r, c'.Holds d.bytes (0 :: r) ∧
      InBounds SRCPATH c' ds ∧ echoed (newConnection SRCPATH c (d :: ds)).writes =
        pushed w x d.bytes.length ++ echoed (newConnection SRCPATH c' ds).writes := by
  have hheard := hc.heard hd hin (by rw [hcmd]; decide)
  by_cases hw : w = []
  · subst hw
    obtain ⟨e, r, hstep, he⟩ := @handle_echo_idle SRCPATH _ c d hcmd hc.esize hheard
    rw [hc.buffer] at hstep
    exact ⟨⟨c.buffer, e, d.bytes.length⟩, r, ⟨hd, rfl, he, hc.buffer⟩, hin.next hstep,
      echoed_ok hstep ds⟩
  · have hpos : 0 < w.length := List.length_pos_iff.mpr hw
    have hfit := hc.fits hw hin (Or.inl hcmd)
    obtain ⟨e, hkeep, he⟩ := @keep_eq _ d (received c.buffer d) (.zero _) hheard
    rw [cleared_received, hc.buffer] at hkeep
    have hstep := @handle_echo_line SRCPATH w x c d hcmd hc.nulFree hpos hc.esize hc.ebuffer hfit
    rw [hkeep] at hstep
    refine ⟨⟨c.buffer, e, d.bytes.length⟩, _, ⟨hd, rfl, he, hc.buffer⟩, hin.next hstep, ?_⟩
    rw [echoed_ok hstep, echoed_echoer, pushed, if_neg hw]

/-- After a read that is no command nothing is pending. -/
theorem other (hc : c.Holds w x) (hd : NulFree d.bytes) (hin : InBounds SRCPATH c (d :: ds))
    (hcmd : commandOf d.bytes = .other) : ∃ c' r, c'.Holds [] r ∧
      InBounds SRCPATH c' ds ∧ echoed (newConnection SRCPATH c (d :: ds)).writes =
        completed w d.bytes ++ echoed (newConnection SRCPATH c' ds).writes := by
  have hheard := hc.heard hd hin (by rw [hcmd]; decide)
  by_cases hw : w = []
  · subst hw
    have hstep := @handle_other_idle SRCPATH _ c d hcmd hc.esize hheard
    rw [hc.buffer] at hstep
    exact ⟨_, x, hc, hin.next hstep, echoed_ok hstep ds⟩
  · have hpos : 0 < w.length := List.length_pos_iff.mpr hw
    have hfit := hc.fits hw hin (Or.inr hcmd)
    have hstep := @handle_other_flush SRCPATH _ w x c d hcmd hc.nulFree hd hpos hc.esize
      hc.ebuffer hfit hheard
    rw [hc.buffer] at hstep
    refine ⟨⟨c.buffer, .zero _, 0⟩, _, ⟨List.not_mem_nil, rfl, rfl, hc.buffer⟩,
      hin.next hstep, ?_⟩
    rw [echoed_ok hstep, echoed_echoer, completed, if_neg hw]

/-- After a comment, C or F command the same line is pending. -/
theorem aside (hpath : NulFree SRCPATH) (hc : c.Holds w x) (hd : NulFree d.bytes)
    (hin : InBounds SRCPATH c (d :: ds)) (hcmd : (commandOf d.bytes).Aside) :
    (Continues SRCPATH (.zero _) 0 d ∧ InBounds SRCPATH c ds ∧
      echoed (newConnection SRCPATH c (d :: ds)).writes =
        echoed (newConnection SRCPATH c ds).writes) ∨
    (¬ Continues SRCPATH (.zero _) 0 d ∧
      echoed (newConnection SRCPATH c (d :: ds)).writes = []) := by
  have hgo : Continues SRCPATH c.buffer c.esize d ↔ Continues SRCPATH (.zero _) 0 d :=
    continues_aside hcmd (fun h => by rw [hc.heard hd hin h, heard_zero hd]) _ _
  have hsame : { c with buffer := cleared c.buffer } = c := by rw [hc.buffer]
  rw [← hgo]
  rcases aside_cases hpath hcmd with ⟨h, ws, hsilent, hstep⟩ | ⟨h, ws, ending, hsilent, hstep⟩
  · rw [hsame] at hstep
    exact Or.inl ⟨h, hin.next hstep, by rw [echoed_ok hstep, hsilent, List.nil_append]⟩
  · exact Or.inr ⟨h, (echoed_error hstep ds).trans hsilent⟩

end Conn.Holds

/-! ## Two sessions -/

/-- What is shown does not depend on what stands behind a NUL. -/
theorem showsSame_congr {y y' : List Byte} (h : cstr x = cstr y) (h' : cstr x' = cstr y') :
    ShowsSame SRCPATH x x' ds ↔ ShowsSame SRCPATH y y' ds := by
  induction ds with
  | nil => exact Iff.rfl
  | cons d ds ih =>
    rw [ShowsSame, ShowsSame]
    cases commandOf d.bytes with
    | echo => rw [shown_of_cstr_eq h, shown_of_cstr_eq h']
    | comment | code | file => exact imp_congr_right fun _ => ih
    | accept | quit | other => exact Iff.rfl

theorem showsSame_self (x : List Byte) (ds : List Delivery) : ShowsSame SRCPATH x x ds := by
  induction ds with
  | nil => trivial
  | cons d ds ih =>
    rw [ShowsSame]
    cases commandOf d.bytes with
    | echo => rfl
    | comment | code | file => exact fun _ => ih
    | accept | quit | other => trivial

/-- **Two connections with the same line pending**, and nothing else in common, echo the
same if and only if what pushes the line out shows the same of what stands behind it. -/
theorem echoed_eq_iff_showsSame (hpath : NulFree SRCPATH) (hfree : ∀ d ∈ ds, NulFree d.bytes) :
    ∀ {c c' : Conn} {w x x'}, c.Holds w x → c'.Holds w x' → InBounds SRCPATH c ds →
      InBounds SRCPATH c' ds → (echoed (newConnection SRCPATH c ds).writes =
        echoed (newConnection SRCPATH c' ds).writes ↔ w = [] ∨ ShowsSame SRCPATH x x' ds) := by
  induction ds with
  | nil => exact fun _ _ _ _ => ⟨fun _ => Or.inr trivial, fun _ => rfl⟩
  | cons d ds ih =>
    intro c c' w x x' hc hc' hin hin'
    obtain ⟨hd, hds⟩ := List.forall_mem_cons.mp hfree
    have ih := @ih hds
    rw [ShowsSame]
    cases hcmd : commandOf d.bytes with
    | echo =>
      obtain ⟨c₁, r, hc₁, hin₁, hecho⟩ := hc.echo hd hin hcmd
      obtain ⟨c₁', r', hc₁', hin₁', hecho'⟩ := hc'.echo hd hin' hcmd
      have hnul : cstr (0 :: r) = cstr (0 :: r') := by rw [cstr_zero, cstr_zero]
      have hrest := (ih hc₁ hc₁' hin₁ hin₁').mpr
        (Or.inr ((showsSame_congr hnul rfl).mpr (showsSame_self _ ds)))
      rw [hecho, hecho', hrest, List.append_cancel_right_eq, pushed, pushed]
      by_cases hw : w = []
      · simp [hw]
      · simp [hw]
    | other =>
      obtain ⟨c₁, r, hc₁, hin₁, hecho⟩ := hc.other hd hin hcmd
      obtain ⟨c₁', r', hc₁', hin₁', hecho'⟩ := hc'.other hd hin' hcmd
      have hrest := (ih hc₁ hc₁' hin₁ hin₁').mpr (Or.inl rfl)
      rw [hecho, hecho', hrest]
      exact ⟨fun _ => Or.inr trivial, fun _ => rfl⟩
    | comment | code | file =>
      have haside : (commandOf d.bytes).Aside := by rw [hcmd]; decide
      rcases hc.aside hpath hd hin haside with ⟨hgo, hin₁, hecho⟩ | ⟨hover, hecho⟩ <;>
        rcases hc'.aside hpath hd hin' haside with ⟨hgo', hin₁', hecho'⟩ | ⟨hover', hecho'⟩
      · rw [hecho, hecho', ih hc hc' hin₁ hin₁']
        simp [hgo]
      · exact absurd hgo hover'
      · exact absurd hgo' hover
      · rw [hecho, hecho']
        simp [hover]
    | accept | quit =>
      rw [echoed_stop (by simp [hcmd]), echoed_stop (by simp [hcmd])]
      exact ⟨fun _ => Or.inr trivial, fun _ => rfl⟩

/-- **Which reads are answered with an echo.** -/
theorem echoed_ne_nil_iff (hpath : NulFree SRCPATH) (hfree : ∀ d ∈ ds, NulFree d.bytes) :
    ∀ {c : Conn} {w x} {pending : Bool}, c.Holds w x → (pending = true ↔ w ≠ []) →
      InBounds SRCPATH c ds →
        (echoed (newConnection SRCPATH c ds).writes ≠ [] ↔ Echoing SRCPATH pending ds) := by
  induction ds with
  | nil => exact fun _ _ _ => ⟨fun h => h rfl, False.elim⟩
  | cons d ds ih =>
    intro c w x pending hc hpending hin
    obtain ⟨hd, hds⟩ := List.forall_mem_cons.mp hfree
    have ih := @ih hds
    rw [Echoing]
    cases hcmd : commandOf d.bytes with
    | echo =>
      obtain ⟨c₁, r, hc₁, hin₁, hecho⟩ := hc.echo hd hin hcmd
      have hrest := @ih c₁ d.bytes (0 :: r) true hc₁ (by simp [d.nonempty]) hin₁
      rw [hecho, ← hrest, hpending, pushed]
      by_cases hw : w = []
      · simp [hw]
      · simp [hw]
    | other =>
      obtain ⟨c₁, r, hc₁, hin₁, hecho⟩ := hc.other hd hin hcmd
      have hrest := @ih c₁ [] r false hc₁ (by simp) hin₁
      rw [hecho, ← hrest, hpending, completed]
      by_cases hw : w = []
      · simp [hw]
      · simp [hw]
    | comment | code | file =>
      have haside : (commandOf d.bytes).Aside := by rw [hcmd]; decide
      rcases hc.aside hpath hd hin haside with ⟨hgo, hin₁, hecho⟩ | ⟨hover, hecho⟩
      · rw [hecho, ih hc hpending hin₁]
        simp [hgo]
      · simp [hecho, hover]
    | accept | quit => simp [echoed_stop (show commandOf d.bytes = .accept ∨ _ by simp [hcmd])]

/-! ## The first read -/

variable {ebuffer : CArray (MAXBUFFER + 1)}

/-- A first E read is pending with all that is heard of the buffer behind it. -/
theorem start_echo (hd : NulFree d.bytes) (hin : InBounds SRCPATH (.start buffer ebuffer) (d :: ds))
    (hcmd : commandOf d.bytes = .echo) :
    ∃ c r, c.Holds d.bytes (cstr (buffer.bytes.drop d.bytes.length) ++ 0 :: r) ∧
      InBounds SRCPATH c ds ∧
        echoed (newConnection SRCPATH (.start buffer ebuffer) (d :: ds)).writes =
          echoed (newConnection SRCPATH c ds).writes := by
  obtain ⟨text, hheard⟩ := hin.hears (by rw [hcmd]; decide)
  obtain ⟨e, r, hstep, he⟩ := @handle_echo_idle SRCPATH _ (.start buffer ebuffer) d hcmd rfl hheard
  rw [heard_text hd hheard, List.append_assoc] at he
  exact ⟨⟨cleared buffer, e, d.bytes.length⟩, r, ⟨hd, rfl, he, cleared_cleared buffer⟩,
    hin.next hstep, echoed_ok hstep ds⟩

theorem start_other (hin : InBounds SRCPATH (.start buffer ebuffer) (d :: ds))
    (hcmd : commandOf d.bytes = .other) : ∃ c r, c.Holds [] r ∧ InBounds SRCPATH c ds ∧
      echoed (newConnection SRCPATH (.start buffer ebuffer) (d :: ds)).writes =
        echoed (newConnection SRCPATH c ds).writes := by
  obtain ⟨text, hheard⟩ := hin.hears (by rw [hcmd]; decide)
  have hstep := @handle_other_idle SRCPATH _ (.start buffer ebuffer) d hcmd rfl hheard
  exact ⟨.start (cleared buffer) ebuffer, _, ⟨List.not_mem_nil, rfl, rfl, cleared_cleared buffer⟩,
    hin.next hstep, echoed_ok hstep ds⟩

/-- A first comment, C or F read ends the session or leaves nothing behind. -/
theorem start_aside (hpath : NulFree SRCPATH)
    (hin : InBounds SRCPATH (.start buffer ebuffer) (d :: ds))
    (hcmd : (commandOf d.bytes).Aside) :
    (Continues SRCPATH buffer 0 d ∧ ∃ c r, c.Holds [] r ∧ InBounds SRCPATH c ds ∧
      echoed (newConnection SRCPATH (.start buffer ebuffer) (d :: ds)).writes =
        echoed (newConnection SRCPATH c ds).writes) ∨
    (¬ Continues SRCPATH buffer 0 d ∧
      echoed (newConnection SRCPATH (.start buffer ebuffer) (d :: ds)).writes = []) := by
  rcases @aside_cases SRCPATH (.start buffer ebuffer) d hpath hcmd with
    ⟨hgo, ws, hsilent, hstep⟩ | ⟨hover, ws, ending, hsilent, hstep⟩
  · refine Or.inl ⟨hgo, .start (cleared buffer) ebuffer, _,
      ⟨List.not_mem_nil, rfl, rfl, cleared_cleared buffer⟩, hin.next hstep, ?_⟩
    rw [echoed_ok hstep, hsilent, List.nil_append]
    rfl
  · exact Or.inr ⟨hover, (echoed_error hstep ds).trans hsilent⟩

/-- A first comment, C or F read shows if one of the sessions ends with it, and an echo
of the other is still to come. -/
theorem start_aside_iff {ebuffer' : CArray (MAXBUFFER + 1)} (hpath : NulFree SRCPATH)
    (hfree : ∀ d ∈ ds, NulFree d.bytes) (hin : InBounds SRCPATH (.start buffer ebuffer) (d :: ds))
    (hin' : InBounds SRCPATH (.start buffer' ebuffer') (d :: ds))
    (hcmd : (commandOf d.bytes).Aside) :
    echoed (newConnection SRCPATH (.start buffer ebuffer) (d :: ds)).writes =
        echoed (newConnection SRCPATH (.start buffer' ebuffer') (d :: ds)).writes ↔
      (Continues SRCPATH buffer 0 d ↔ Continues SRCPATH buffer' 0 d) ∨
        ¬ Echoing SRCPATH false ds := by
  rcases start_aside hpath hin hcmd with ⟨hgo, c, r, hc, hin₁, hecho⟩ | ⟨hover, hecho⟩ <;>
    rcases start_aside hpath hin' hcmd with ⟨hgo', c', r', hc', hin₁', hecho'⟩ | ⟨hover', hecho'⟩
  · have hrest := (echoed_eq_iff_showsSame hpath hfree hc hc' hin₁ hin₁').mpr (Or.inl rfl)
    rw [hecho, hecho', hrest]
    simp [hgo, hgo']
  · rw [hecho, hecho', ← @echoed_ne_nil_iff SRCPATH ds hpath hfree c [] r false hc (by simp) hin₁]
    simp [hgo, hover']
  · rw [hecho, hecho', eq_comm,
      ← @echoed_ne_nil_iff SRCPATH ds hpath hfree c' [] r' false hc' (by simp) hin₁']
    simp [hover, hgo']
  · rw [hecho, hecho']
    simp [hover, hover']

/-- **When the echo shows nothing of the stack.** -/
theorem sameEcho_iff (hpath : NulFree SRCPATH) (hfree : ∀ d ∈ ds, NulFree d.bytes)
    {a a' : Arrays} (hin : a.InBounds SRCPATH ds) (hin' : a'.InBounds SRCPATH ds) :
    SameEcho SRCPATH a a' ds ↔ LeakFree SRCPATH a.buffer a'.buffer ds := by
  rw [Arrays.InBounds, Arrays.session, newConnection_withStacks] at hin hin'
  rw [SameEcho, Arrays.session, Arrays.session, newConnection_withStacks, newConnection_withStacks]
  cases ds with
  | nil => exact ⟨fun _ => trivial, fun _ => rfl⟩
  | cons d ds =>
    obtain ⟨hd, hds⟩ := List.forall_mem_cons.mp hfree
    rw [LeakFree]
    cases hcmd : commandOf d.bytes with
    | echo =>
      obtain ⟨c, r, hc, hin₁, hecho⟩ := start_echo hd hin hcmd
      obtain ⟨c', r', hc', hin₁', hecho'⟩ := start_echo hd hin' hcmd
      rw [hecho, hecho', echoed_eq_iff_showsSame hpath hds hc hc' hin₁ hin₁',
        or_iff_right d.nonempty]
      exact showsSame_congr (cstr_append_zero (nulFree_cstr _) r)
        (cstr_append_zero (nulFree_cstr _) r')
    | other =>
      obtain ⟨c, r, hc, hin₁, hecho⟩ := start_other hin hcmd
      obtain ⟨c', r', hc', hin₁', hecho'⟩ := start_other hin' hcmd
      have hrest := (echoed_eq_iff_showsSame hpath hds hc hc' hin₁ hin₁').mpr (Or.inl rfl)
      exact ⟨fun _ => trivial, fun _ => by rw [hecho, hecho', hrest]⟩
    | comment | file => exact start_aside_iff hpath hds hin hin' (by rw [hcmd]; decide)
    | code =>
      have haside := start_aside_iff hpath hds hin hin' (by rw [hcmd]; decide)
      refine ⟨fun _ => trivial, fun _ => haside.mpr (Or.inl ?_)⟩
      rw [Continues, Continues, hcmd]
    | accept | quit =>
      rw [echoed_stop (by simp [hcmd]), echoed_stop (by simp [hcmd])]
      exact ⟨fun _ => trivial, fun _ => rfl⟩

/-- The arrays are zero. -/
def Arrays.zeros : Arrays := ⟨.zero _, .zero _, fun _ => .zero _⟩

/-- The arrays hold one long string. -/
def Arrays.letters : Arrays :=
  let letters : CArray (MAXBUFFER + 1) :=
    ⟨List.replicate MAXBUFFER 'A'.toUInt8 ++ [0], by simp⟩
  ⟨letters, letters, fun _ => letters⟩

/-- An E line in two reads. -/
theorem sameEcho_two_halves : SameEcho (ascii "server.c") .zeros .letters
    [.said "E Echo", .said " this\n"] :=
  (sameEcho_iff (by decide) (by decide) (by decide +kernel) (by decide +kernel)).mpr trivial

/-- Two E lines, each in one read: the second shows four bytes behind the first. -/
theorem not_sameEcho_whole_lines : ¬ ∀ (SRCPATH : List Byte) (ds : List Delivery)
    (a a' : Arrays), NulFree SRCPATH → (∀ d ∈ ds, NulFree d.bytes) → a.InBounds SRCPATH ds →
      a'.InBounds SRCPATH ds → SameEcho SRCPATH a a' ds := by
  intro hall
  have hsame := hall (ascii "server.c") [.said "E a\n", .said "E b\n"] .zeros .letters (by decide)
    (by decide) (by decide +kernel) (by decide +kernel)
  have hzeros : echoed (Arrays.zeros.session (ascii "server.c")
      [.said "E a\n", .said "E b\n"]).writes = ascii "E A\n" ++ [0, 0, 0, 0] := by
    decide +kernel
  have hletters : echoed (Arrays.letters.session (ascii "server.c")
      [.said "E a\n", .said "E b\n"]).writes = ascii "E A\nAAAA" := by
    decide +kernel
  rw [SameEcho, hzeros, hletters] at hsame
  exact absurd hsame (by decide)

end PosixNet.Exercise
