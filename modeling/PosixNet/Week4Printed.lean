import PosixNet.Week4Echo

/-!
# `week4`: what the echo client prints, whoever answers

The client of `Week4Echo` with any peer: one that answers late, with other bytes, or has
closed the connection.  The client looks neither at how much it has read nor at whether
it has read anything, so behind a reply that is shorter than the line it prints the rest
of the line, and the line itself where there is no reply.

**`printsReceived_iff`**: what is printed is a front of what was received, all the time,
exactly if every reply is at least as long as the line it answers.
-/
namespace PosixNet.Week4

abbrev ClientTrace := List (Client × Io Chan)

/-- What has been printed, less the newlines of `printf`. -/
def printed (tr : ClientTrace) : List Byte :=
  ((writes .stdout (labels tr)).map List.dropLast).flatten

/-- At no time has more been printed than what was received. -/
def PrintsReceived (tr : ClientTrace) : Prop :=
  ∀ pre post, tr = pre ++ post → printed pre <+: (reads .toClient (labels pre)).flatten

/-- The client reads the lines one by one, and what the peer sends until it closes. -/
structure Session (lines : List (List Byte)) (tr : ClientTrace) : Prop where
  stdin : ∀ (k : Nat) (l : List Byte), (reads .stdin (labels tr))[k]? = some l →
    l = lines[k]?.getD []
  nulFree : ∀ c ∈ reads .toClient (labels tr), NulFree c
  closed : ∀ (i j : Nat) (c : List Byte), i ≤ j → (reads .toClient (labels tr))[i]? = some [] →
    (reads .toClient (labels tr))[j]? = some c → c = []

/-! ## Lines and replies -/

/-- What is printed of a line and the reply to it. -/
def answer (line reply : List Byte) : List Byte := reply ++ line.drop reply.length

variable {L C : List (List Byte)} {line reply : List Byte}

theorem shown_eq (hline : NulFree line) (hreply : NulFree reply) :
    shown line reply = answer line reply ++ [newline] := by
  have hstale : NulFree (line.drop reply.length) := fun h0 => hline (List.mem_of_mem_drop h0)
  rw [shown, page, List.drop_append, List.drop_replicate, ← List.append_assoc,
    cstr_append_replicate, cstr_eq_self (nulFree_append.mpr ⟨hreply, hstale⟩), answer]

theorem zipWith_shown (hL : ∀ l ∈ L, NulFree l) (hC : ∀ c ∈ C, NulFree c) :
    (List.zipWith shown L C).map List.dropLast = List.zipWith answer L C := by
  induction L generalizing C with
  | nil => rfl
  | cons l L ih =>
    cases C with
    | nil => rfl
    | cons c C =>
      rw [List.zipWith_cons_cons, List.zipWith_cons_cons, List.map_cons,
        shown_eq (hL l List.mem_cons_self) (hC c List.mem_cons_self), List.dropLast_concat,
        ih (fun x hx => hL x (List.mem_cons_of_mem _ hx))
          fun x hx => hC x (List.mem_cons_of_mem _ hx)]

/-- Where every reply covers its line, the replies are printed. -/
theorem answers_of_le (hlen : L.length = C.length)
    (h : ∀ (k : Nat) (l c : List Byte), L[k]? = some l → C[k]? = some c → l.length ≤ c.length) :
    List.zipWith answer L C = C := by
  induction L generalizing C with
  | nil => exact (List.eq_nil_of_length_eq_zero hlen.symm).symm
  | cons l L ih =>
    cases C with
    | nil => cases hlen
    | cons c C =>
      rw [List.zipWith_cons_cons, answer, List.drop_of_length_le (h 0 l c rfl rfl),
        List.append_nil, ih (Nat.succ.inj hlen) fun k => h (k + 1)]

/-- **Only there**: any rest of a line makes the text too long. -/
theorem le_of_answers (hlen : L.length = C.length)
    (h : (List.zipWith answer L C).flatten.length ≤ C.flatten.length) :
    ∀ (k : Nat) (l c : List Byte), L[k]? = some l → C[k]? = some c → l.length ≤ c.length := by
  -- the replies are printed in any case
  have hleast : ∀ {L C : List (List Byte)}, L.length = C.length →
      C.flatten.length ≤ (List.zipWith answer L C).flatten.length := by
    intro L
    induction L with
    | nil =>
      intro C hlen
      rw [List.eq_nil_of_length_eq_zero hlen.symm]
      exact Nat.le_refl _
    | cons l L ih =>
      intro C hlen
      cases C with
      | nil => cases hlen
      | cons c C =>
        have hrest := ih (Nat.succ.inj hlen)
        simp only [List.zipWith_cons_cons, List.flatten_cons, List.length_append, answer]
        omega
  induction L generalizing C with
  | nil => exact fun k l c hl => nomatch hl
  | cons l L ih =>
    cases C with
    | nil => cases hlen
    | cons c C =>
      have hrest := hleast (Nat.succ.inj hlen)
      simp only [List.zipWith_cons_cons, List.flatten_cons, List.length_append, answer,
        List.length_drop] at h
      intro k x y hx hy
      cases k with
      | zero =>
        obtain rfl := Option.some.inj hx
        obtain rfl := Option.some.inj hy
        omega
      | succ k => exact ih (Nat.succ.inj hlen) (by omega) k x y hx hy

/-! ## Runs -/

section Runs
variable {tr : ClientTrace} {s : Client}

/-- What has been printed at any time, in replies and lines. -/
theorem printed_run (run : Run (Local client) .fgets tr s)
    (hL : ∀ l ∈ reads .stdin (labels tr), NulFree l)
    (hC : ∀ c ∈ reads .toClient (labels tr), NulFree c) :
    ∃ L' C', L' <+: reads .stdin (labels tr) ∧ C' <+: reads .toClient (labels tr) ∧
      L'.length = C'.length ∧ (writes .stdout (labels tr)).length = C'.length ∧
      printed tr = (List.zipWith answer L' C').flatten := by
  obtain ⟨L', C', hL', hC', hlen, hW⟩ := (client_run run).fronts
  refine ⟨L', C', hL', hC', hlen, by rw [hW]; simp [hlen], ?_⟩
  rw [printed, hW,
    zipWith_shown (fun l hl => hL l (hL'.subset hl)) fun c hc => hC c (hC'.subset hc)]

/-- The client was at the head of its loop when it had just printed what it has printed
so far. -/
theorem exists_at_fgets (run : Run (Local client) .fgets tr s) : ∃ pre post, tr = pre ++ post ∧
    Run (Local client) .fgets pre .fgets ∧
      (writes .stdout (labels pre)).length = (writes .stdout (labels tr)).length := by
  refine run.invariant (I := fun tr _ => ∃ pre post, tr = pre ++ post ∧
    Run (Local client) .fgets pre .fgets ∧
      (writes .stdout (labels pre)).length = (writes .stdout (labels tr)).length)
    ⟨[], [], rfl, .nil, rfl⟩ ?_
  rintro tr u e u' hrun ⟨pre, post, rfl, hpre, hW⟩ h
  have hkeep : writes .stdout [e] = [] → ∃ pre' post', pre ++ post ++ [(u, e)] = pre' ++ post' ∧
      Run (Local client) .fgets pre' .fgets ∧ (writes .stdout (labels pre')).length =
        (writes .stdout (labels (pre ++ post ++ [(u, e)]))).length := fun hnone => by
    refine ⟨pre, post ++ [(u, e)], List.append_assoc _ _ _, hpre, ?_⟩
    rw [hW, labels_append (pre ++ post), labels_cons, labels_nil, writes_append, hnone,
      List.append_nil]
  rcases client_cases h with ⟨_, -, rfl, -, -⟩ | ⟨_, _, -, rfl, -⟩ | ⟨_, _, -, rfl, -, -⟩ |
    ⟨text, rfl, rfl, rfl⟩
  · exact hkeep rfl
  · exact hkeep rfl
  · exact hkeep rfl
  · exact ⟨pre ++ post ++ [(.printf text, .write .stdout (text ++ [newline]))], [], by simp,
      .snoc hrun h, rfl⟩

/-- **When only what was received is printed.**  In every run with lines and replies
without NULs: exactly if every reply that has been printed is at least as long as the
line it answers. -/
theorem printsReceived_iff (run : Run (Local client) .fgets tr s)
    (hL : ∀ l ∈ reads .stdin (labels tr), NulFree l)
    (hC : ∀ c ∈ reads .toClient (labels tr), NulFree c) :
    PrintsReceived tr ↔ ∀ (k : Nat) (line reply : List Byte),
      k < (writes .stdout (labels tr)).length → (reads .stdin (labels tr))[k]? = some line →
      (reads .toClient (labels tr))[k]? = some reply → line.length ≤ reply.length := by
  constructor
  · intro h k line reply hk hline hreply
    obtain ⟨pre, post, rfl, hpre, hW⟩ := exists_at_fgets run
    have haccounts : Accounts _ _ _ _ Client.fgets := client_run hpre
    obtain ⟨hlen, -, hshown⟩ := haccounts
    rw [labels_append, reads_append] at hL hC hline hreply
    have hpre_printed := (h pre post rfl).length_le
    rw [printed, hshown, zipWith_shown (fun l hl => hL l (List.mem_append_left _ hl))
      fun c hc => hC c (List.mem_append_left _ hc)] at hpre_printed
    have hklen : k < (reads .toClient (labels pre)).length := by
      rw [← hW, hshown, List.length_zipWith, ← hlen, Nat.min_self] at hk
      exact hk
    rw [List.getElem?_append_left (by omega)] at hline hreply
    exact le_of_answers hlen.symm hpre_printed k line reply hline hreply
  · rintro h pre post rfl
    obtain ⟨u, hpre⟩ := run.front
    rw [labels_append, reads_append] at hL hC
    obtain ⟨L', C', hL', hC', hlen, hW, hprinted⟩ := printed_run hpre
      (fun l hl => hL l (List.mem_append_left _ hl)) fun c hc => hC c (List.mem_append_left _ hc)
    rw [hprinted, answers_of_le hlen fun k l c hl hc => h k l c ?_ ?_ ?_]
    · exact prefix_flatten hC'
    · have hk := (List.getElem?_eq_some_iff.mp hc).1
      rw [labels_append, writes_append, List.length_append]
      omega
    · rw [labels_append, reads_append]
      exact getElem?_of_isPrefix (hL'.trans (List.prefix_append _ _)) hl
    · rw [labels_append, reads_append]
      exact getElem?_of_isPrefix (hC'.trans (List.prefix_append _ _)) hc

/-- One round of the client, for any line and any reply that fit its buffer. -/
theorem client_round {line reply : List Byte} (hline : line.length ≤ 255)
    (hreply : reply.length ≤ 255) : ∃ tr, Run (Local client) .fgets tr .fgets ∧
      labels tr = [.read .stdin line, .write .toServer (cstr line), .read .toClient reply,
        .write .stdout (shown line reply)] := by
  obtain ⟨b, hb, hfill⟩ := fill_line hline
  obtain ⟨b', text, hfill', htext⟩ := fill_reply hline hb hreply
  have hfgets : Local client .fgets (.read .stdin line) (.send b (cstr line)) := by
    have h : Local client .fgets (.read .stdin line) _ := .fgets rfl line hline
    rwa [hfill] at h
  have hsend : Local client (.send b (cstr line)) (.write .toServer (cstr line)) (.read b) :=
    .write rfl
  have hread : Local client (.read b) (.read .toClient reply) (.printf text) := by
    have h : Local client (.read b) (.read .toClient reply) _ := .read rfl reply hreply
    rwa [hfill'] at h
  have hprintf : Local client (.printf text) (.write .stdout (text ++ [newline])) .fgets :=
    .write rfl
  exact ⟨_, .snoc (.snoc (.snoc (.snoc .nil hfgets) hsend) hread) hprintf, by rw [← htext]; rfl⟩

end Runs

/-- A line that is answered whole, and a longer answer to the next. -/
theorem printsReceived_two_rounds : ∃ tr s, Run (Local client) .fgets tr s ∧
    printed tr = ascii "ab\ncd\nef" ∧ PrintsReceived tr := by
  obtain ⟨tr, hrun, hlabels⟩ :=
    @client_round (ascii "ab\n") (ascii "ab\n") (by decide) (by decide)
  obtain ⟨tr', hrun', hlabels'⟩ :=
    @client_round (ascii "cd\n") (ascii "cd\nef") (by decide) (by decide)
  have hboth := hrun.append hrun'
  have hlines : reads .stdin (labels (tr ++ tr')) = [ascii "ab\n", ascii "cd\n"] := by
    rw [labels_append, hlabels, hlabels']
    rfl
  have hreplies : reads .toClient (labels (tr ++ tr')) = [ascii "ab\n", ascii "cd\nef"] := by
    rw [labels_append, hlabels, hlabels']
    rfl
  refine ⟨_, _, hboth, ?_, (printsReceived_iff hboth ?_ ?_).mpr ?_⟩
  · rw [printed, labels_append, hlabels, hlabels']
    decide +kernel
  · rw [hlines]
    decide
  · rw [hreplies]
    decide
  · rw [hlines, hreplies]
    intro k line reply _ hline hreply
    match k with
    | 0 | 1 =>
      obtain rfl := Option.some.inj hline
      obtain rfl := Option.some.inj hreply
      decide
    | k + 2 => cases hline

/-- The peer closes the connection without an answer, and the line is printed. -/
theorem not_printsReceived_closed :
    ¬ ∀ (lines : List (List Byte)) (tr : ClientTrace) (s : Client), Input lines →
      (∀ l ∈ lines, l.length ≤ 254) → Session lines tr → Run (Local client) .fgets tr s →
        PrintsReceived tr := by
  intro hall
  obtain ⟨tr, hrun, hlabels⟩ := @client_round (ascii "hi\n") [] (by decide) (by decide)
  have hstdin : reads .stdin (labels tr) = [ascii "hi\n"] := by
    rw [hlabels]
    rfl
  have hreplies : reads .toClient (labels tr) = [[]] := by
    rw [hlabels]
    rfl
  have hsession : Session [ascii "hi\n"] tr := by
    refine ⟨fun k l hl => ?_, by rw [hreplies]; decide, fun i j c _ _ hc => ?_⟩
    · rw [hstdin] at hl
      rw [hl]
      rfl
    · rw [hreplies] at hc
      exact List.mem_singleton.mp (List.mem_of_getElem? hc)
  have hprinted := hall [ascii "hi\n"] tr _ ⟨by decide, by decide, by decide, by decide⟩
    (by decide) hsession hrun tr [] (List.append_nil _).symm
  rw [hreplies, printed, hlabels] at hprinted
  exact absurd hprinted (by decide +kernel)

end PosixNet.Week4
