import PosixNet.ExerciseFailures
import PosixNet.ExerciseTokens

/-!
# `exercise`: the arguments of an F command

`filetransfer` takes the second and the third token of the read for a path and a port.
It looks neither at the length of the read, which `split` copies into 256 bytes, nor at
the number of tokens.  `parse` is this part of it with its arrays, and `parse_eq` says
that it is `arguments`.

* **`parses_iff`**: which F commands get through it.
* **`f_line_roundtrip`**: a line as it is meant to be gives back its path and its port.
-/
namespace PosixNet.Exercise

/-- Lines 176–179, with the token array, and with the array `path`. -/
def parse (path : CArray (MAXBUFFER + 1)) (buffer : List Byte) :
    Except Fault (List Byte × Int) := do
  let result ← splitArray buffer space
  let second ← loadSlot result 1
  let path : CArray (MAXBUFFER + 1) ← path.strcpy second
  let third ← loadSlot result 2
  let name ← path.str
  return (name, toInt (atol third))

section Arguments
variable {text : List Byte} {toks : List (List Byte)}

theorem arguments_of_split_error {f : Fault} (h : split text space = .error f) :
    arguments text = .error f := by
  rw [arguments, h]
  rfl

theorem parse_of_split_error {f : Fault} (h : split text space = .error f)
    (path : CArray (MAXBUFFER + 1)) : parse path text = .error f := by
  rw [parse, splitArray_eq, h]
  rfl

/-- `split` has returned these tokens. -/
theorem arguments_of_split (h : split text space = .ok toks) : arguments text =
    (deref toks 1).bind fun path =>
      if MAXBUFFER + 1 < path.length + 1 then .error .bounds
      else (deref toks 2).bind fun port => .ok (path, toInt (atol port)) := by
  simp only [arguments, h, bind, Except.bind]
  cases deref toks 1 with
  | error f => rfl
  | ok path =>
    dsimp only
    split
    · rfl
    · cases deref toks 2 <;> rfl

theorem parse_of_split (h : split text space = .ok toks) (path : CArray (MAXBUFFER + 1)) :
    parse path text = (deref toks 1).bind fun second => (path.strcpy second).bind fun path =>
      (deref toks 2).bind fun third => path.str.bind fun name =>
        .ok (name, toInt (atol third)) := by
  rw [parse, splitArray_eq, h, ← loadSlot_terminated, ← loadSlot_terminated]
  rfl

theorem deref_eq_ok_iff {k : Nat} {token : List Byte} :
    deref toks k = .ok token ↔ toks[k]? = some token := by
  rw [deref]
  cases toks[k]? with
  | none =>
    constructor
    · intro h
      dsimp only at h
      split at h <;> cases h
    · intro h
      cases h
  | some t => simp

/-- What it takes for the tokens to be a path and a port. -/
theorem arguments_eq_ok_iff (h : split text space = .ok toks) {path : List Byte} {port : Int} :
    arguments text = .ok (path, port) ↔ toks[1]? = some path ∧ path.length ≤ MAXBUFFER ∧
      ∃ third, toks[2]? = some third ∧ toInt (atol third) = port := by
  simp only [arguments_of_split h, ← deref_eq_ok_iff]
  cases deref toks 1 with
  | error f =>
    constructor
    · intro h
      cases h
    · rintro ⟨h, -⟩
      cases h
  | ok second =>
    simp only [Except.bind, Except.ok.injEq]
    by_cases hfit : MAXBUFFER + 1 < second.length + 1
    · rw [if_pos hfit]
      constructor
      · intro h
        cases h
      · rintro ⟨rfl, hle, -⟩
        omega
    · rw [if_neg hfit]
      cases deref toks 2 with
      | error f =>
        constructor
        · intro h
          cases h
        · rintro ⟨-, -, third, h, -⟩
          cases h
      | ok third =>
        constructor
        · intro h
          obtain ⟨rfl, rfl⟩ := Prod.mk.inj (Except.ok.inj h)
          exact ⟨rfl, by omega, third, rfl, rfl⟩
        · rintro ⟨rfl, -, third, hthird, rfl⟩
          rw [Except.ok.inj hthird]

/-- **`filetransfer` parses its text as `arguments` does.** -/
theorem parse_eq (hfree : NulFree text) (path : CArray (MAXBUFFER + 1)) :
    parse path text = arguments text := by
  cases hsplit : split text space with
  | error f => rw [parse_of_split_error hsplit, arguments_of_split_error hsplit]
  | ok toks =>
    rw [parse_of_split hsplit, arguments_of_split hsplit]
    cases hsecond : deref toks 1 with
    | error f => rfl
    | ok second =>
      obtain ⟨-, rfl, -⟩ := split_eq_ok.mp hsplit
      have hname : NulFree second := fun h0 =>
        hfree ((infix_of_mem_tokens (List.mem_of_getElem? (deref_eq_ok_iff.mp hsecond))).subset h0)
      simp only [Except.bind]
      by_cases hfit : MAXBUFFER + 1 < second.length + 1
      · have hlong : path.strcpy second = .error .bounds :=
          CArray.store_eq_error (by simp; omega)
        rw [if_pos hfit, hlong]
      · obtain ⟨copy, hcopy, hbytes⟩ := CArray.strcpy_eq (a := path) (t := second) (by omega)
        have hstr : copy.str = .ok second := by
          rw [CArray.str_eq (by rw [hbytes]; simp), hbytes, cstr_append_zero hname]
        rw [if_neg hfit, hcopy]
        dsimp only
        rw [hstr]

/-- Three tokens are enough for a text that `split` accepts. -/
theorem arguments_ok_iff (hne : text ≠ []) : (∃ args, arguments text = .ok args) ↔
    text.length ≤ 255 ∧ Separated text space ∧ 3 ≤ (tokens text space).length := by
  constructor
  · rintro ⟨⟨path, port⟩, h⟩
    cases hsplit : split text space with
    | error f =>
      rw [arguments_of_split_error hsplit] at h
      cases h
    | ok toks =>
      obtain ⟨hlen, hsep, rfl⟩ := (split_eq_ok_iff hne).mp hsplit
      obtain ⟨-, -, third, hthird, -⟩ := (arguments_eq_ok_iff hsplit).mp h
      exact ⟨hlen, hsep, (List.getElem?_eq_some_iff.mp hthird).1⟩
  · rintro ⟨hlen, hsep, hmany⟩
    have hsecond := List.getElem?_eq_getElem (l := tokens text space) (i := 1) (by omega)
    have hthird := List.getElem?_eq_getElem (l := tokens text space) (i := 2) (by omega)
    have hfit := (infix_of_mem_tokens (List.mem_of_getElem? hsecond)).length_le
    have hmax : 255 ≤ MAXBUFFER := by decide
    have hsplit := (split_eq_ok_iff hne).mpr ⟨hlen, hsep, rfl⟩
    exact ⟨_, (arguments_eq_ok_iff hsplit).mpr ⟨hsecond, by omega, _, hthird, rfl⟩⟩

end Arguments

/-! ## Which F commands are parsed -/

section Parses
variable {buffer : CArray (MAXBUFFER + 1)} {d : Delivery}

theorem commandOf_eq_file {bytes : List Byte} (h : commandOf bytes = .file) :
    bytes.head? = some 'F'.toUInt8 := by
  cases bytes with
  | nil => cases h
  | cons b s =>
    rw [commandOf] at h
    repeat' split at h
    all_goals cases h
    rename_i hb
    exact congrArg some hb

/-- **Which F commands are parsed**: those of at most 255 bytes with no two spaces in a
row, and with two spaces in front of the last byte. -/
theorem parses_iff (hd : NulFree d.bytes) (hcommand : commandOf d.bytes = .file)
    (hzero : ∀ b ∈ buffer.bytes.drop d.bytes.length, b = 0) (path : CArray (MAXBUFFER + 1)) :
    (∃ args, heard buffer d >>= parse path = .ok args) ↔
      d.bytes.length ≤ 255 ∧ ¬ [space, space] <:+: d.bytes ∧
        2 ≤ d.bytes.dropLast.count space := by
  have hhead : d.bytes.head? ≠ some space := by
    rw [commandOf_eq_file hcommand]
    decide
  have hcount := count_dropLast_add_one d.nonempty space
  have htokens := tokens_length_eq_iff d.bytes space
  rw [heard_zeros hd hzero]
  show (∃ args, parse path d.bytes = .ok args) ↔ _
  rw [parse_eq hd, arguments_ok_iff d.nonempty]
  constructor
  · rintro ⟨hlen, hsep, hmany⟩
    have heq := htokens.mpr hsep
    exact ⟨hlen, hsep.2, by omega⟩
  · rintro ⟨hlen, hpair, htwo⟩
    have heq := htokens.mpr ⟨hhead, hpair⟩
    exact ⟨hlen, ⟨hhead, hpair⟩, by omega⟩

theorem parses_two_arguments : ∃ args,
    heard (.zero _) (.said "F /etc/motd 12553\n") >>= parse (.zero _) = .ok args :=
  (parses_iff (d := .said "F /etc/motd 12553\n") (by decide) (by decide)
    (fun _ hb => CArray.eq_zero_of_mem (List.mem_of_mem_drop hb)) (.zero _)).mpr (by decide)

/-- With one argument, the third token is the null pointer. -/
theorem not_parses_one_argument : ¬ ∀ (buffer path : CArray (MAXBUFFER + 1)) (d : Delivery),
    NulFree d.bytes → commandOf d.bytes = .file →
      (∀ b ∈ buffer.bytes.drop d.bytes.length, b = 0) →
        ∃ args, heard buffer d >>= parse path = .ok args := by
  intro hall
  have hd : NulFree (Delivery.said "F x\n").bytes := by decide
  obtain ⟨args, h⟩ := hall (.zero _) (.zero _) (.said "F x\n") hd (by decide)
    fun _ hb => CArray.eq_zero_of_mem (List.mem_of_mem_drop hb)
  have hnull : arguments (Delivery.said "F x\n").bytes = .error .null := by decide
  rw [heard_zero hd] at h
  change parse (.zero _) (Delivery.said "F x\n").bytes = _ at h
  rw [parse_eq hd, hnull] at h
  cases h

end Parses

/-! ## The line as it is meant to be -/

section Line
variable {path rest read : List Byte} {port : Nat}

/-- The line, with what stands behind it in the read. -/
def fLine (path : List Byte) (port : Nat) (rest : List Byte) : List Byte :=
  ascii "F " ++ path ++ [space] ++ decimal port ++ [newline] ++ rest

/-- `filetransfer` takes this path and this port from the text: it fails for the want of
a connection or of a file exactly if there is none at this port, or under this path. -/
structure Recovers (text path : List Byte) (port : Nat) : Prop where
  parsed : ∀ stack, parse stack text = .ok (path, port)
  connects : ∀ w, w.socket = true →
    ((filetransfer w text).ending = .exited ↔ w.connect port = false)
  opens : ∀ w, w.socket = true → w.connect port = true →
    (filetransfer w text = { ending := .returned false, socketOpen := true } ↔
      w.fopen path = none)

theorem htons_natCast (h : port ≤ 65535) : htons port = port := by
  rw [htons]
  omega

theorem toInt_port (h : port ≤ 65535) : toInt (min LONG_MAX port) = port := by
  have hmin : min LONG_MAX (port : Int) = port := min_eq_right (by rw [LONG_MAX]; omega)
  rw [hmin, toInt, Int.bmod]
  omega

theorem connects_iff {w : World} (h : port ≤ 65535) :
    w.Connects port ↔ w.socket = true ∧ w.connect port = true := by
  rw [World.Connects, htons_natCast h]

theorem recovers_of_arguments {text : List Byte} (hfree : NulFree text) (h : port ≤ 65535)
    (hargs : arguments text = .ok (path, port)) : Recovers text path port where
  parsed stack := by rw [parse_eq hfree, hargs]
  connects w hsocket := by
    by_cases hconnect : w.connect port = true
    · rw [filetransfer_connected hargs ((connects_iff h).mpr ⟨hsocket, hconnect⟩), hconnect]
      cases w.fopen path with
      | none => simp
      | some content =>
        dsimp only
        split
        · cases w.epipe <;> simp
        · split <;> simp
    · have hrefused : ¬ w.Connects port := fun hc => hconnect ((connects_iff h).mp hc).2
      simpa [(filetransfer_not_connected hargs hrefused).1] using hconnect
  opens w hsocket hconnect := by
    rw [filetransfer_connected hargs ((connects_iff h).mpr ⟨hsocket, hconnect⟩)]
    cases w.fopen path with
    | none => simp
    | some content =>
      dsimp only
      split
      · simp
      · split <;> simp

theorem space_not_mem_decimal (n : Nat) : space ∉ decimal n := fun h =>
  absurd (isdigit_of_mem_decimal h) (by decide)

theorem fLine_eq (path : List Byte) (port : Nat) (rest : List Byte) : fLine path port rest =
    ['F'.toUInt8] ++ space :: (path ++ space :: (decimal port ++ [newline] ++ rest)) := by
  have hf : ascii "F " = ['F'.toUInt8, space] := by decide
  simp [fLine, hf]

/-- The first three tokens of the line; the third goes on with what stands behind it. -/
theorem tokens_fLine (hne : path ≠ []) (hspace : space ∉ path) (port : Nat) (rest : List Byte) :
    ∃ u more, tokens (fLine path port rest) space =
      ['F'.toUInt8] :: path :: (decimal port ++ newline :: u) :: more := by
  have hthird : space ∉ decimal port ++ [newline] :=
    List.not_mem_append (space_not_mem_decimal port) (by decide)
  obtain ⟨u, more, htokens, -⟩ := tokens_append (by simp) hthird rest
  refine ⟨u, more, ?_⟩
  rw [fLine_eq, tokens_append_cons (by decide), tokens_append_cons hspace, htokens,
    if_neg (List.cons_ne_nil _ _), if_neg hne]
  simp

/-- **The line gives back its path and its port**, whatever follows it in the read. -/
theorem f_line_roundtrip (hpath : path ≠ []) (hspace : space ∉ path) (hpathFree : NulFree path)
    (hport : port ≤ 65535) (hrestFree : NulFree rest) (hread : read = fLine path port rest)
    (hlen : read.length ≤ 255) (hpair : ¬ [space, space] <:+: read) :
    Recovers read path port := by
  obtain ⟨u, more, htokens⟩ := tokens_fLine hpath hspace port rest
  have hdecimal : NulFree (decimal port) := fun h0 =>
    absurd (isdigit_of_mem_decimal h0) (by decide)
  have hfree : NulFree read := by
    rw [hread, fLine]
    simp only [nulFree_append]
    exact ⟨⟨⟨⟨⟨by decide, hpathFree⟩, by decide⟩, hdecimal⟩, by decide⟩, hrestFree⟩
  have hhead : read.head? ≠ some space := by
    rw [hread, fLine_eq]
    exact fun h => absurd (Option.some.inj h) (by decide)
  have hne : read ≠ [] := by
    rw [hread, fLine_eq]
    exact List.cons_ne_nil _ _
  have hfit : path.length ≤ MAXBUFFER := by
    have hmax : 255 ≤ MAXBUFFER := by decide
    have hlong : path.length ≤ read.length := by
      rw [hread, fLine]
      simp only [List.length_append]
      omega
    omega
  have hatol : atol (decimal port ++ newline :: u) = min LONG_MAX port :=
    atol_decimal port fun b hb => by
      rw [← Option.some.inj hb]
      decide
  have hsplit := (split_eq_ok_iff hne).mpr ⟨hlen, ⟨hhead, hpair⟩, rfl⟩
  rw [hread, htokens] at hsplit
  refine recovers_of_arguments hfree hport ?_
  rw [hread, arguments_eq_ok_iff hsplit]
  exact ⟨rfl, hfit, _, rfl, by rw [hatol, toInt_port hport]⟩

/-- Two lines in one read. -/
theorem f_line_roundtrip_two_lines :
    Recovers (ascii "F /etc/motd 12553\nQ \n") (ascii "/etc/motd") 12553 :=
  have hread : ascii "F /etc/motd 12553\nQ \n" =
      fLine (ascii "/etc/motd") 12553 (ascii "Q \n") := by decide +kernel
  f_line_roundtrip (by decide) (by decide) (by decide) (by decide) (by decide) hread (by decide)
    (by decide)

end Line

end PosixNet.Exercise
