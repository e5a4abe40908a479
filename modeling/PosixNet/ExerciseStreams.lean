import PosixNet.ExercisePieces

/-!
# `exercise`: the streams on which the cuts do not matter

`ExerciseCuts` says which segmentations are answered right.  Here the question is asked
of the stream: which streams does the code answer the same however they are cut?

A cut may be made in front of any byte, and the code takes the byte for a command: an E
or a C anywhere in the stream can be made the start of a read or hidden inside of one.
So the cuts do not matter exactly if nothing behind the first byte could be answered and
the stream does not start with an E (`Unambiguous`, `unambiguous_iff`): such a stream
asks for the path once, in front, or for nothing.

* `sent_of_unambiguous`: no segmentation of such a stream is answered differently.
* `exists_sent_first`: every place in the stream can be reached with nothing but the
  first answer sent, by reads that start with a newline; `exists_answered` makes a
  segmentation from there that is answered.
* `sent_pending_ne`: an E line in front is answered when it is cut in two and not when
  it is read at once, whatever comes after it.

The lines are taken to fit a read here.  In a longer line a run of A's, say, may keep the
code from getting any further.
-/
namespace PosixNet.Exercise

/-- With nothing pending a read of these bytes makes the code write: an E command, with
the next read; a C command, if the path fits; an F command, if `split` finds a path and
a port in it. -/
def Answered (SRCPATH t : List Byte) : Prop :=
  match commandOf t with
  | .echo => True
  | .code => SRCPATH.length + 2 ≤ MAXBUFFER
  | .file => ∃ args, arguments t = .ok args
  | .comment | .accept | .quit | .other => False

/-- No piece of the stream behind its first byte is answered. -/
def Silent (SRCPATH stream : List Byte) : Prop :=
  ∀ u t v, stream = u ++ t ++ v → u ≠ [] → ¬ Answered SRCPATH t

/-- The first byte of the stream decides what is sent. -/
def Unambiguous (SRCPATH stream : List Byte) : Prop :=
  match commandOf stream with
  | .accept | .quit => True
  | .echo => False
  | .code => SRCPATH.length + 2 ≤ MAXBUFFER → Silent SRCPATH stream
  | .comment | .file | .other => Silent SRCPATH stream

/-- What an unambiguous stream is answered with. -/
def firstAnswer (SRCPATH stream : List Byte) : List Byte :=
  if commandOf stream = .code ∧ SRCPATH.length + 2 ≤ MAXBUFFER then SRCPATH ++ [newline] else []

variable {SRCPATH w : List Byte} {c c' : Conn} {d : Delivery} {ds : List Delivery}
  {lines : List (List Byte)}

theorem Answered.ne_nil {t : List Byte} (h : Answered SRCPATH t) : t ≠ [] := by
  rintro rfl
  exact h

/-! ## Unambiguous streams -/

/-- Without a path that fits, a C line ends the session with nothing sent. -/
theorem sent_code_error (hcmd : commandOf d.bytes = .code) (hpath : NulFree SRCPATH)
    (hfit : MAXBUFFER < SRCPATH.length + 2) (ds : List Delivery) :
    sent (newConnection SRCPATH c (d :: ds)) = [] := by
  have hstep : handle SRCPATH c d = ([], .error (.fault .bounds)) := by
    simp [handle, hcmd, onCode, getsrcfldr_eq_error hpath hfit]
  exact sent_error hstep ds

/-- Reads none of which is answered send nothing. -/
theorem sent_of_silent (hpath : NulFree SRCPATH) (hc : c.Idle)
    (hfree : ∀ d ∈ ds, NulFree d.bytes) (hshort : ∀ d ∈ ds, d.bytes.length < MAXBUFFER)
    (hnone : ∀ d ∈ ds, ¬ Answered SRCPATH d.bytes) : sent (newConnection SRCPATH c ds) = [] := by
  induction ds with
  | nil => rfl
  | cons d ds ih =>
    have hd := List.mem_cons_self (a := d) (l := ds)
    have ht := hc.heard (hfree d hd) (hshort d hd)
    have ih := ih (fun d h => hfree d (List.mem_cons_of_mem _ h))
      (fun d h => hshort d (List.mem_cons_of_mem _ h)) fun d h => hnone d (List.mem_cons_of_mem _ h)
    have hsame : { c with buffer := cleared c.buffer } = c := by rw [hc.buffer]
    have hnone := hnone d hd
    unfold Answered at hnone
    cases hcmd : commandOf d.bytes with
    | echo => exact absurd (by simp [hcmd]) hnone
    | comment =>
      have hstep := @handle_comment SRCPATH _ c d hcmd ht
      split at hstep
      · exact sent_error hstep ds
      · rw [sent_ok hstep, hsame, ih]
        rfl
    | code =>
      rw [hcmd] at hnone
      exact sent_code_error hcmd hpath (Nat.lt_of_not_le hnone) ds
    | file =>
      -- `filetransfer` faults before it writes
      cases hargs : arguments d.bytes with
      | ok args =>
        rw [hcmd] at hnone
        exact absurd ⟨args, hargs⟩ hnone
      | error f =>
        have hstr : (received c.buffer d).str = .ok d.bytes := ht
        have hstep : handle SRCPATH c d = ([.filetransfer []], .error (.fault f)) := by
          simp [handle, hcmd, onFile, hstr, filetransfer, hargs]
        exact sent_error hstep ds
    | accept => exact sent_stop (Or.inl hcmd) ds
    | quit => exact sent_stop (Or.inr hcmd) ds
    | other =>
      rw [sent_ok (handle_other_idle hcmd hc.esize ht), hsame, ih]
      rfl

/-- **An unambiguous stream is answered by its first byte**, however it is cut. -/
theorem sent_of_unambiguous (hpath : NulFree SRCPATH) (hc : c.Idle)
    (hfree : ∀ d ∈ ds, NulFree d.bytes) (hshort : ∀ d ∈ ds, d.bytes.length < MAXBUFFER)
    (hfile : commandOf (ds.map Delivery.bytes).flatten ≠ .file)
    (h : Unambiguous SRCPATH (ds.map Delivery.bytes).flatten) :
    sent (newConnection SRCPATH c ds) = firstAnswer SRCPATH (ds.map Delivery.bytes).flatten := by
  cases ds with
  | nil => rfl
  | cons d ds =>
    have hfirst : commandOf ((d :: ds).map Delivery.bytes).flatten = commandOf d.bytes := by
      rw [List.map_cons, List.flatten_cons, commandOf_append d.nonempty]
    have hrest : Silent SRCPATH ((d :: ds).map Delivery.bytes).flatten →
        ∀ r ∈ ds, ¬ Answered SRCPATH r.bytes := by
      intro hsilent r hr
      obtain ⟨before, after, rfl⟩ := List.append_of_mem hr
      refine hsilent (d.bytes ++ (before.map Delivery.bytes).flatten) r.bytes
        (after.map Delivery.bytes).flatten (by simp) ?_
      simp [d.nonempty]
    have hquiet : Silent SRCPATH ((d :: ds).map Delivery.bytes).flatten →
        ¬ Answered SRCPATH d.bytes → sent (newConnection SRCPATH c (d :: ds)) = [] :=
      fun hsilent hd => sent_of_silent hpath hc hfree hshort fun r hr => by
        rcases List.mem_cons.mp hr with rfl | hr
        · exact hd
        · exact hrest hsilent r hr
    rw [Unambiguous, hfirst] at h
    rw [hfirst] at hfile
    rw [firstAnswer, hfirst]
    cases hcmd : commandOf d.bytes with
    | echo => simp [hcmd] at h
    | accept => exact sent_stop (Or.inl hcmd) ds
    | quit => exact sent_stop (Or.inr hcmd) ds
    | comment | other =>
      rw [hcmd] at h
      exact hquiet h (by simp [Answered, hcmd])
    | file => exact absurd hcmd hfile
    | code =>
      rw [hcmd] at h
      by_cases hfit : SRCPATH.length + 2 ≤ MAXBUFFER
      · rw [sent_code hcmd hpath hfit hc,
          sent_of_silent hpath hc (fun d h => hfree d (List.mem_cons_of_mem _ h))
            (fun d h => hshort d (List.mem_cons_of_mem _ h)) (hrest (h hfit)),
          if_pos ⟨rfl, hfit⟩, List.append_nil]
      · rw [if_neg fun h => hfit h.2]
        exact sent_code_error hcmd hpath (Nat.lt_of_not_le hfit) ds

/-! ## A piece that is answered -/

/-- A command that `split` accepts fits a read. -/
theorem arguments_length {t : List Byte} {args : List Byte × Int} (h : arguments t = .ok args) :
    t.length < MAXBUFFER := by
  unfold arguments at h
  cases hsplit : split t space with
  | error f =>
    rw [hsplit] at h
    cases h
  | ok tokens => exact Nat.lt_of_le_of_lt (split_eq_ok.mp hsplit).1 (by decide)

/-- An empty file is announced. -/
theorem filetransfer_empty {t path : List Byte} {port : Int}
    (hargs : arguments t = .ok (path, port)) :
    filetransfer (.withFile path [] 0) t = { ending := .returned true, sockfd := ascii "0\n" } := by
  have hloop : fgetcLoop 0 1 0 0 [] = .ok [] := by decide
  simp [filetransfer, hargs, World.withFile, hloop]
  decide

/-- A text that begins with a piece that is answered is answered, if it is cut so. -/
theorem exists_answered (hpath : NulFree SRCPATH) {r t v y post : List Byte} (ht : r = t ++ v)
    (hy : r = y ++ post) (hanswered : Answered SRCPATH t) (hlast : y.getLast? = some newline)
    (hlen : y.length < MAXBUFFER) (hfree : NulFree r) :
    ∃ ds, Reads r ds ∧ ∀ c : Conn, c.Idle → sent (newConnection SRCPATH c ds) ≠ [] := by
  have hne := hanswered.ne_nil
  have hcmdr : commandOf r = commandOf t := by rw [ht, commandOf_append hne]
  unfold Answered at hanswered
  cases hcmd : commandOf t with
  | echo =>
    -- the line up to its newline, and the newline
    rw [hcmd] at hcmdr
    obtain ⟨body, rfl⟩ := List.getLast?_eq_some_iff.mp hlast
    have hbody : body ≠ [] := by
      rintro rfl
      rw [hy] at hcmdr
      cases hcmdr
    rw [hy, List.append_assoc] at hcmdr hfree ⊢
    rw [commandOf_append hbody] at hcmdr
    rw [List.length_append, List.length_singleton] at hlen
    have hpiece : Piece body := ⟨hbody, by omega⟩
    have hnl := piece_singleton newline
    obtain ⟨ds, hds⟩ := exists_rest post
    refine ⟨hpiece.read :: hnl.read :: ds, (hds.cons hnl _).cons hpiece _, fun c hc => ?_⟩
    have hsent := @sent_halves SRCPATH c hpiece.read hnl.read hcmdr rfl hc
      (nulFree_append.mp hfree).1 (show NulFree [newline] by decide) hpiece.2 hnl.2
      (show body.length + 1 ≤ _ by omega) ds
    rw [hsent]
    simp
  | code =>
    rw [hcmd] at hanswered hcmdr
    obtain ⟨b, r, rfl⟩ := List.exists_cons_of_ne_nil (show r ≠ [] by simp [ht, hne])
    obtain ⟨ds, hds⟩ := exists_rest r
    refine ⟨_, hds.cons (piece_singleton b) (.withFile [] [] 0), fun c hc => ?_⟩
    rw [sent_code hcmdr hpath hanswered hc]
    simp
  | file =>
    -- a world in which the file is there, and empty
    rw [hcmd] at hanswered
    obtain ⟨⟨path, port⟩, hargs⟩ := hanswered
    have hpiece : Piece t := ⟨hne, arguments_length hargs⟩
    obtain ⟨ds, hds⟩ := exists_rest v
    refine ⟨hpiece.read (.withFile path [] 0) :: ds, ht ▸ hds.cons hpiece _, fun c hc => ?_⟩
    have hstr : (received c.buffer (hpiece.read (.withFile path [] 0))).str = .ok t :=
      hc.heard (nulFree_append.mp (ht ▸ hfree)).1 hpiece.2
    obtain ⟨next, hstep⟩ : ∃ next, handle SRCPATH c (hpiece.read (.withFile path [] 0)) =
        ([.filetransfer (ascii "0\n")], next) := by
      simp [handle, hcmd, onFile, hstr, filetransfer_empty hargs]
    obtain ⟨rest, hrest, -⟩ := sent_step hstep hstep ds
    rw [hrest]
    simp [Write.bytes, ascii]
  | comment | accept | quit | other =>
    rw [hcmd] at hanswered
    exact absurd hanswered id

/-- A beginning of the stream can be read with the first answer and no other. -/
theorem exists_sent_first (hpath : NulFree SRCPATH) (hlines : ∀ l ∈ lines, ShortLine l)
    (hcmd : commandOf lines.flatten = .comment ∨
      commandOf lines.flatten = .code ∧ SRCPATH.length + 2 ≤ MAXBUFFER)
    {u r : List Byte} (hstream : lines.flatten = u ++ r) (hu : u ≠ []) (hr : r ≠ []) :
    ∃ (ds₁ : List Delivery) (y post : List Byte), Reads u ds₁ ∧ r = y ++ post ∧
      y.getLast? = some newline ∧ y.length < MAXBUFFER ∧
      ∀ c : Conn, c.Idle → ∀ ds, sent (newConnection SRCPATH c (ds₁ ++ ds)) =
        firstAnswer SRCPATH lines.flatten ++ sent (newConnection SRCPATH c ds) := by
  have hfree := nulFree_lines fun l hl => (hlines l hl).1
  rw [hstream] at hfree
  obtain ⟨hufree, -⟩ := nulFree_append.mp hfree
  obtain ⟨p, ps, y, post, rfl, hr', hp, hps, hlast, hlen⟩ := exists_lead hlines hstream hu hr
  have hpcmd : commandOf lines.flatten = commandOf p := by
    rw [hstream, List.append_assoc, commandOf_append hp.1]
  rcases hcmd with hcmd | ⟨hcmd, hfit⟩
  · rw [hpcmd] at hcmd
    obtain ⟨ds₁, hds, hquiet⟩ := exists_quiet hcmd hp hps
    refine ⟨ds₁, y, post, hds, hr', hlast, hlen, fun c hc ds => ?_⟩
    rw [sent_quiet hquiet (hds.nulFree hufree) hds.short hc, firstAnswer,
      if_neg (by simp [hpcmd, hcmd]), List.nil_append]
  · rw [hpcmd] at hcmd
    obtain ⟨ds₁, hds, hhead⟩ := exists_reads hps
    refine ⟨_, y, post, hds.cons hp (.withFile [] [] 0), hr', hlast, hlen, fun c hc ds => ?_⟩
    rw [List.cons_append, sent_code hcmd hpath hfit hc,
      sent_quiet (fun d hd => Or.inl (commandOf_newline (hhead d hd)))
        (hds.nulFree (nulFree_append.mp hufree).2) hds.short hc,
      firstAnswer, if_pos ⟨hpcmd.trans hcmd, hfit⟩]

/-- The stream ends with a newline, and there is something in front of it. -/
theorem exists_last (hlines : ∀ l ∈ lines, ShortLine l) (hne : lines.flatten ≠ []) :
    ∃ u, lines.flatten = u ++ [newline] ∧ u ≠ [] := by
  rcases List.eq_nil_or_concat lines with rfl | ⟨ls, l, rfl⟩
  · exact absurd rfl hne
  · rw [List.concat_eq_append] at hlines ⊢
    obtain ⟨body, rfl, hbody⟩ := (hlines l (by simp)).body
    exact ⟨ls.flatten ++ body, by simp, by simp [hbody.1]⟩

theorem sent_newline (hc : c.Idle) :
    sent (newConnection SRCPATH c [(piece_singleton newline).read]) = [] := by
  have hquiet := @sent_quiet SRCPATH c [(piece_singleton newline).read]
    (fun r hr => Or.inl (by rw [List.mem_singleton.mp hr]; rfl)) (by simp; decide)
    (by simp; decide) hc []
  rw [List.append_nil] at hquiet
  exact hquiet

/-- **A stream with two answers.**  If a piece behind the first byte is answered, the
stream can be cut so that it is, and so that only the first byte is. -/
theorem exists_sent_more (hpath : NulFree SRCPATH) (hlines : ∀ l ∈ lines, ShortLine l)
    (hcmd : commandOf lines.flatten = .comment ∨
      commandOf lines.flatten = .code ∧ SRCPATH.length + 2 ≤ MAXBUFFER)
    (hsilent : ¬ Silent SRCPATH lines.flatten) : ∃ ds₁ ds₂ : List Delivery,
      Reads lines.flatten ds₁ ∧ Reads lines.flatten ds₂ ∧ ∀ c : Conn, c.Idle →
        sent (newConnection SRCPATH c ds₁) ≠ sent (newConnection SRCPATH c ds₂) := by
  unfold Silent at hsilent
  push Not at hsilent
  obtain ⟨u, t, v, hstream, hu, hanswered⟩ := hsilent
  rw [List.append_assoc] at hstream
  have hfree := nulFree_lines fun l hl => (hlines l hl).1
  rw [hstream] at hfree
  obtain ⟨u', hstream', hu'⟩ := exists_last hlines (by simp [hstream, hu])
  obtain ⟨ds₁, y, post, hds₁, hy, hlast, hlen, hsent₁⟩ :=
    exists_sent_first hpath hlines hcmd hstream hu (by simp [hanswered.ne_nil])
  obtain ⟨ds₂, hds₂, hsent₂⟩ :=
    exists_answered hpath rfl hy hanswered hlast hlen (nulFree_append.mp hfree).2
  obtain ⟨ds₃, -, -, hds₃, -, -, -, hsent₃⟩ :=
    exists_sent_first hpath hlines hcmd hstream' hu' (by simp)
  have hnl : Reads ([newline] ++ []) [(piece_singleton newline).read] :=
    Reads.cons _ _ ⟨rfl, by simp⟩
  refine ⟨ds₁ ++ ds₂, _, hstream ▸ hds₁.append hds₂, hstream' ▸ hds₃.append hnl,
    fun c hc heq => hsent₂ c hc ?_⟩
  rw [hsent₁ c hc, hsent₃ c hc, sent_newline hc] at heq
  exact List.append_cancel_left heq

/-! ## An E line that comes first -/

/-- A session that ends here does not send the line that is pending. -/
theorem sent_lost_ne {n : Nat} {ending : Ending} (hpos : 0 < n)
    (hstep : handle SRCPATH c d = ([], .error ending)) (k : Nat) :
    (sent (newConnection SRCPATH c (d :: ds))).length ≠ n + k := by
  rw [sent_error hstep, List.flatMap_nil, List.length_nil]
  omega

/-- A read that pushes `n` bytes out is sent with them, and after it the two connections
are the same. -/
theorem sent_pushed_ne {n : Nat} {bytes : List Byte} {next : Except Ending Conn}
    (hstep : handle SRCPATH c d = ([], next))
    (hstep' : handle SRCPATH c' d = ([.echoer bytes], next))
    (hlen : bytes.length = n + d.bytes.length) :
    (sent (newConnection SRCPATH c' (d :: ds))).length ≠
      n + (sent (newConnection SRCPATH c (d :: ds))).length := by
  have hdpos := d.length_pos
  obtain ⟨rest, hrest, hrest'⟩ := sent_step hstep hstep' ds
  rw [hrest, hrest', List.flatMap_nil, List.nil_append, List.flatMap_singleton,
    List.length_append]
  show bytes.length + rest.length ≠ _
  omega

/-- **A line that was sent and a line that is pending** are told apart by how much is
written, whatever is read next: the pending line is lost, or it is sent with what
pushes it out. -/
theorem sent_pending_ne (hfree : ∀ d ∈ ds, NulFree d.bytes)
    (hshort : ∀ d ∈ ds, d.bytes.length < MAXBUFFER) : ∀ c c' : Conn, c.Idle →
      c.ebuffer = .zero _ → c'.Pending w → c'.buffer = c.buffer →
        (sent (newConnection SRCPATH c' ds)).length ≠
          w.length + (sent (newConnection SRCPATH c ds)).length := by
  induction ds with
  | nil =>
    intro c c' _ _ hp _
    have hpos := hp.pos
    simp only [newConnection, sent, List.flatMap_nil, List.length_nil]
    omega
  | cons d ds ih =>
    intro c c' hc hzero hp hbuffer
    have ih := ih (fun d h => hfree d (List.mem_cons_of_mem _ h))
      fun d h => hshort d (List.mem_cons_of_mem _ h)
    have hd := hfree d (List.mem_cons_self ..)
    have ht := hc.heard hd (hshort d (List.mem_cons_self ..))
    have ht' : heard c'.buffer d = .ok d.bytes := by rw [hbuffer]; exact ht
    have hpos := hp.pos
    have haside : (commandOf d.bytes).Aside →
        (sent (newConnection SRCPATH c' (d :: ds))).length ≠
          w.length + (sent (newConnection SRCPATH c (d :: ds))).length := by
      intro hcmd
      obtain ⟨ws, -, ⟨ending, hstep⟩ | hstep⟩ := handle_aside SRCPATH c.buffer hcmd
      · have hstep' := hstep c'.ebuffer c'.esize
        rw [← hbuffer] at hstep'
        rw [sent_error hstep', sent_error (hstep c.ebuffer c.esize)]
        omega
      · have hstep' := hstep c'.ebuffer c'.esize
        rw [← hbuffer] at hstep'
        have hrest := ih ⟨cleared c.buffer, c.ebuffer, c.esize⟩
          ⟨cleared c'.buffer, c'.ebuffer, c'.esize⟩ ⟨hc.esize, cleared_cleared _⟩ hzero
          ⟨hp.nulFree, hp.pos, hp.esize, hp.ebuffer⟩ (by rw [hbuffer])
        rw [sent_ok hstep', sent_ok (hstep c.ebuffer c.esize), List.length_append,
          List.length_append]
        omega
    cases hcmd : commandOf d.bytes with
    | comment | code | file => exact haside (by rw [hcmd]; decide)
    | accept | quit =>
      obtain ⟨ending, hstep⟩ := @handle_stop SRCPATH c' d (by simp [hcmd])
      exact sent_lost_ne hpos hstep _
    | echo =>
      by_cases hfit : w.length + d.bytes.length ≤ MAXBUFFER + 1
      · have hstep' := @handle_echo_flush SRCPATH w c' d hcmd hp hfit
        have hstep : handle SRCPATH c d = ([], keep d (received c.buffer d) (.zero _)) := by
          simp [handle, hcmd, onEcho, hc.esize, hzero]
        rw [hbuffer] at hstep'
        exact sent_pushed_ne hstep hstep' (by simp)
      · exact sent_lost_ne hpos (handle_echo_overflow hcmd hp (Nat.lt_of_not_le hfit)) _
    | other =>
      by_cases hfit : w.length + d.bytes.length ≤ MAXBUFFER + 1
      · obtain ⟨r, hline⟩ := hp.ebuffer
        have hstep' := @handle_other_flush SRCPATH _ w _ c' d hcmd hp.nulFree hd hpos hp.esize
          hline hfit ht'
        have hsame : (⟨cleared c'.buffer, .zero _, 0⟩ : Conn) =
            { c with buffer := cleared c.buffer } := by
          rw [hbuffer, ← hzero, ← hc.esize]
        rw [hsame] at hstep'
        exact sent_pushed_ne (handle_other_idle hcmd hc.esize ht) hstep' (by simp)
      · have hstep : handle SRCPATH c' d = ([], .error (.fault .bounds)) := by
          simp [handle, hcmd, onOther, hp.esize, hpos,
            CArray.store_eq_error (Nat.lt_of_not_le hfit)]
        exact sent_lost_ne hpos hstep _

/-- With an E line in front, reading it in one or in two pieces is not the same. -/
theorem exists_sent_ne {l rest : List Byte} (hl : ShortLine l) (hcmd : commandOf l = .echo)
    (hrest : NulFree rest) : ∃ ds₁ ds₂ : List Delivery,
      Reads (l ++ rest) ds₁ ∧ Reads (l ++ rest) ds₂ ∧
      sent (newConnection SRCPATH (.start (.zero _) (.zero _)) ds₁) ≠
        sent (newConnection SRCPATH (.start (.zero _) (.zero _)) ds₂) := by
  obtain ⟨body, hbody, hpiece⟩ := hl.body
  obtain ⟨⟨-, hlfree, -, -⟩, hlen⟩ := hl
  obtain ⟨ds, hds⟩ := exists_rest rest
  have hwhole : Piece l := ⟨by simp [hbody], hlen⟩
  have hnl := piece_singleton newline
  have hidle : (Conn.start (.zero _) (.zero _)).Idle := ⟨rfl, cleared_zero⟩
  have hecho : commandOf body = .echo := by
    rwa [hbody, commandOf_append hpiece.1] at hcmd
  have hhalves : Reads (l ++ rest) (hpiece.read :: hnl.read :: ds) := by
    rw [hbody, List.append_assoc]
    exact (hds.cons hnl _).cons hpiece _
  refine ⟨hwhole.read :: ds, _, hds.cons hwhole _, hhalves, fun heq => ?_⟩
  obtain ⟨e, r, hstep, hline⟩ := @handle_echo_idle SRCPATH l (.start (.zero _) (.zero _))
    hwhole.read hcmd rfl (hidle.heard hlfree hlen)
  have hpending : (⟨cleared (.zero _), e, l.length⟩ : Conn).Pending l :=
    ⟨hlfree, List.length_pos_iff.mpr hwhole.1, rfl, r, hline⟩
  have hlength := congrArg List.length hbody
  rw [List.length_append, List.length_singleton] at hlength
  have hsplit := @sent_halves SRCPATH (.start (.zero _) (.zero _)) hpiece.read hnl.read hecho rfl
    hidle (nulFree_append.mp (hbody ▸ hlfree)).1 (show NulFree [newline] by decide) hpiece.2 hnl.2
    (show body.length + 1 ≤ _ by omega) ds
  rw [sent_ok hstep, List.flatMap_nil, List.nil_append, hsplit] at heq
  have hne := @sent_pending_ne SRCPATH l ds (hds.nulFree hrest) hds.short
    (.start (.zero _) (.zero _)) _ hidle rfl hpending cleared_zero
  refine hne ((congrArg List.length heq).trans ?_)
  rw [List.length_append, List.length_map, List.length_append, hlength]
  rfl

/-! ## Which streams -/

/-- **The streams that are answered the same however they are cut** are the unambiguous
ones. -/
theorem unambiguous_iff (hpath : NulFree SRCPATH) (hlines : ∀ l ∈ lines, ShortLine l) :
    (∀ (cut cut' : Cut lines) (ebuffer ebuffer' : CArray (MAXBUFFER + 1)),
      sent (newConnection SRCPATH (.start (.zero _) ebuffer) cut.reads) =
        sent (newConnection SRCPATH (.start (.zero _) ebuffer') cut'.reads)) ↔
      Unambiguous SRCPATH lines.flatten := by
  have hstreamLines : ∀ l ∈ lines, StreamLine l := fun l hl => (hlines l hl).1
  have hfree := nulFree_lines hstreamLines
  have hidle : ∀ e, (Conn.start (.zero _) e).Idle := fun _ => ⟨rfl, cleared_zero⟩
  have hfirst : lines.flatten = [] ∨ ∃ l ls, lines = l :: ls ∧
      commandOf lines.flatten = commandOf l := by
    cases lines with
    | nil => exact Or.inl rfl
    | cons l ls =>
      obtain ⟨body, hbody, -⟩ := (hlines l (List.mem_cons_self ..)).body
      refine Or.inr ⟨l, ls, rfl, ?_⟩
      rw [List.flatten_cons, commandOf_append (by simp [hbody])]
  have hfile : commandOf lines.flatten ≠ .file := by
    rcases hfirst with h | ⟨l, ls, rfl, h⟩
    · rw [h]
      decide
    · rw [h]
      exact (hstreamLines l (List.mem_cons_self ..)).2.2.1
  constructor
  · intro hall
    have hcut : ∀ ds₁ ds₂, Reads lines.flatten ds₁ → Reads lines.flatten ds₂ →
        sent (newConnection SRCPATH (.start (.zero _) (.zero _)) ds₁) =
          sent (newConnection SRCPATH (.start (.zero _) (.zero _)) ds₂) := fun ds₁ ds₂ h₁ h₂ =>
      hall ⟨ds₁, h₁.short, h₁.flatten_eq⟩ ⟨ds₂, h₂.short, h₂.flatten_eq⟩ (.zero _) (.zero _)
    have hsilent : (commandOf lines.flatten = .comment ∨
        commandOf lines.flatten = .code ∧ SRCPATH.length + 2 ≤ MAXBUFFER) →
          Silent SRCPATH lines.flatten := by
      intro hcmd
      by_contra hnot
      obtain ⟨ds₁, ds₂, h₁, h₂, hne⟩ := exists_sent_more hpath hlines hcmd hnot
      exact hne _ (hidle _) (hcut ds₁ ds₂ h₁ h₂)
    unfold Unambiguous
    cases hcmd : commandOf lines.flatten with
    | accept | quit => trivial
    | comment => exact hsilent (Or.inl hcmd)
    | code => exact fun hfit => hsilent (Or.inr ⟨hcmd, hfit⟩)
    | file => exact absurd hcmd hfile
    | other =>
      rcases hfirst with h | ⟨l, ls, rfl, h⟩
      · -- the empty stream
        intro u t v hstream hu
        rw [h] at hstream
        exact absurd (List.append_eq_nil_iff.mp (List.append_eq_nil_iff.mp hstream.symm).1).1 hu
      · exact absurd (h.symm.trans hcmd) (hstreamLines l (List.mem_cons_self ..)).2.2.2
    | echo =>
      rcases hfirst with h | ⟨l, ls, rfl, h⟩
      · rw [h] at hcmd
        cases hcmd
      · obtain ⟨ds₁, ds₂, h₁, h₂, hne⟩ := @exists_sent_ne SRCPATH l ls.flatten
          (hlines l (List.mem_cons_self ..)) (h.symm.trans hcmd) (nulFree_append.mp hfree).2
        exact hne (hcut ds₁ ds₂ h₁ h₂)
  · intro h cut cut' e e'
    have hsent : ∀ (cut : Cut lines) e,
        sent (newConnection SRCPATH (.start (.zero _) e) cut.reads) =
          firstAnswer SRCPATH lines.flatten := fun cut e => by
      rw [← cut.flatten_eq] at h hfile ⊢
      exact sent_of_unambiguous hpath (hidle e) (cut.nulFree hstreamLines) cut.short hfile h
    rw [hsent, hsent]

/-- **When the segmentation does not matter.**  Two clean segmentations of one stream are
answered the same.  If the lines fit a read, all segmentations are exactly if the
stream is unambiguous. -/
theorem segmentation_independent (hpath : NulFree SRCPATH) (hlines : ∀ l ∈ lines, StreamLine l) :
    (∀ cut cut' : Cut lines, Clean SRCPATH lines cut.reads → Clean SRCPATH lines cut'.reads →
      ∀ ebuffer ebuffer' : CArray (MAXBUFFER + 1),
        sent (newConnection SRCPATH (.start (.zero _) ebuffer) cut.reads) =
          sent (newConnection SRCPATH (.start (.zero _) ebuffer') cut'.reads)) ∧
    ((∀ l ∈ lines, l.length < MAXBUFFER) →
      ((∀ (cut cut' : Cut lines) (ebuffer ebuffer' : CArray (MAXBUFFER + 1)),
        sent (newConnection SRCPATH (.start (.zero _) ebuffer) cut.reads) =
          sent (newConnection SRCPATH (.start (.zero _) ebuffer') cut'.reads)) ↔
        Unambiguous SRCPATH lines.flatten)) :=
  ⟨sent_eq_of_clean hpath hlines,
    fun hshort => unambiguous_iff hpath fun l hl => ⟨hlines l hl, hshort l hl⟩⟩

/-- A comment, an E line and a C line. -/
def threeLines : List (List Byte) := [ascii "# hi\n", ascii "E a\n", ascii "C\n"]

def threeLinesEarly : Cut threeLines where
  reads := [.said "# hi\n", .said "E", .said " a\n", .said "C\n"]
  short := by decide
  flatten_eq := by decide

def threeLinesLate : Cut threeLines where
  reads := [.said "# h", .said "i\n", .said "E a", .said "\n", .said "C", .said "\n"]
  short := by decide
  flatten_eq := by decide

/-- Two clean segmentations of the three lines are answered the same, not all are. -/
theorem segmentation_independent_three_lines :
    sent (newConnection (ascii "s.c") (.start (.zero _) (.zero _)) threeLinesEarly.reads) =
      sent (newConnection (ascii "s.c") (.start (.zero _) (.zero _)) threeLinesLate.reads) ∧
    ¬ ∀ (cut cut' : Cut threeLines) (ebuffer ebuffer' : CArray (MAXBUFFER + 1)),
      sent (newConnection (ascii "s.c") (.start (.zero _) ebuffer) cut.reads) =
        sent (newConnection (ascii "s.c") (.start (.zero _) ebuffer') cut'.reads) := by
  obtain ⟨hclean, hall⟩ :=
    @segmentation_independent (ascii "s.c") threeLines (by decide) (by decide)
  have hsilent : ¬ Silent (ascii "s.c") threeLines.flatten := fun h =>
    h (ascii "# hi\n") (ascii "E a\n") (ascii "C\n") (by decide) (by decide) trivial
  refine ⟨hclean threeLinesEarly threeLinesLate ?_ ?_ _ _,
    fun h => hsilent ((hall (by decide)).mp h)⟩
  · refine @Clean.quiet _ [ascii "# hi\n"] _ [_] _ (by decide) (by decide) (by decide) ?_
    refine @Clean.echo _ [ascii "E a\n"] _ _ _ _ (by decide) (by decide) (by decide) (by decide)
      (by decide) ?_
    exact @Clean.code _ _ [] [] _ [] [] (by decide) (by decide) (by decide) (by decide) (by decide)
      (by decide) .nil
  · refine @Clean.quiet _ [ascii "# hi\n"] _ [_, _] _ (by decide) (by decide) (by decide) ?_
    refine @Clean.echo _ [ascii "E a\n"] _ _ _ _ (by decide) (by decide) (by decide) (by decide)
      (by decide) ?_
    exact @Clean.code _ _ [] [] _ [_] [] (by decide) (by decide) (by decide) (by decide) (by decide)
      (by decide) .nil

/-- Two E lines, in one read and in two. -/
theorem not_segmentation_independent_two_lines :
    ¬ ∀ (SRCPATH : List Byte) (lines : List (List Byte)) (cut cut' : Cut lines),
      NulFree SRCPATH → SRCPATH.length + 2 ≤ MAXBUFFER → (∀ l ∈ lines, StreamLine l) →
        sent (newConnection SRCPATH (.start (.zero _) (.zero _)) cut.reads) =
          sent (newConnection SRCPATH (.start (.zero _) (.zero _)) cut'.reads) := by
  intro hall
  let lines := [ascii "E a\n", ascii "E b\n"]
  let once : Cut lines := ⟨[.said "E a\nE b\n"], by decide, by decide⟩
  let twice : Cut lines := ⟨[.said "E a\n", .said "E b\n"], by decide, by decide⟩
  have hsame := hall (ascii "server.c") lines once twice (by decide) (by decide) (by decide)
  exact absurd hsame (by decide +kernel)

end PosixNet.Exercise
