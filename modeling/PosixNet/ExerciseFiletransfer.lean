import PosixNet.ExerciseSplit

/-!
# `exercise`: the F command

`filetransfer` parses the command, connects, opens the file, announces its size on
the session's socket and copies it into an array of `filesize + 1` bytes with
`fgetc`.  The copy loop runs while `ch == EOF || i < filesize`, with `ch` a `char`
that is uninitialised at first: a byte `0xFF` is `EOF` there.

`fgetcLoop_eq_iff` says what the loop does for every content, and
`filetransfer_exact_iff` when the peer gets the file: unless the last byte of the
file is `0xFF`, or the file is empty and `ch` happened to hold `EOF`.
-/
namespace PosixNet.Exercise

/-- What the handling of one read finds outside of the program: what the calls it
makes return, and what its local variables hold before they are assigned. -/
structure World where
  /-- `socket` returns a descriptor. -/
  socket : Bool
  /-- `connect` to this port succeeds. -/
  connect : Nat → Bool
  /-- The content of the file `fopen` opens. -/
  fopen : List Byte → Option (List Byte)
  /-- The `write` of line 215 succeeds. -/
  writeSize : Bool
  /-- If it does not, its error is EPIPE: the other side of the session is gone. -/
  epipe : Bool
  /-- The `fork` of line 137 succeeds. -/
  fork : Bool
  /-- `ch` at line 226. -/
  ch : Byte
  /-- `buffer` at line 269. -/
  echoerBuffer : CArray (MAXBUFFER + 1)
  /-- `buffer` at line 249. -/
  getsrcfldrBuffer : CArray MAXBUFFER

/-- How `filetransfer` ends. -/
inductive TransferEnd where
  /-- `EXIT_SUCCESS` or `EXIT_FAILURE` is returned. -/
  | returned (success : Bool)
  /-- The process exits. -/
  | exited
  /-- SIGPIPE, and `handle_signals` exits. -/
  | sigpipe
  | fault (f : Fault)
  deriving DecidableEq

/-- What `filetransfer` did. -/
structure Transfer where
  ending : TransferEnd
  /-- The bytes written to `sockfd`. -/
  sockfd : List Byte := []
  /-- The bytes written to `filetransferfd`. -/
  peer : List Byte := []
  /-- `filetransferfd` is open at the end. -/
  socketOpen : Bool := false
  /-- `file` is open at the end. -/
  fileOpen : Bool := false
  deriving DecidableEq

/-- Lines 176–179: the path and the port of the command. -/
def arguments (buffer : List Byte) : Except Fault (List Byte × Int) := do
  let result ← split buffer space
  let path ← deref result 1
  if MAXBUFFER + 1 < path.length + 1 then throw .bounds
  let port ← deref result 2
  return (path, toInt (atol port))

/-- `htons`, from an `int`. -/
def htons (port : Int) : Nat := (port % 65536).toNat

/-- `EOF` in a `char`. -/
def EOF : Byte := 0xFF

/-- `fgetc`, into a `char`. -/
def fgetc : List Byte → Byte × List Byte
  | [] => (EOF, [])
  | b :: file => (b, file)

/-- The loop of lines 228–233, with `room` slots of `filebuf` left: the bytes it
stores. -/
def fgetcLoop (filesize : Nat) :
    (room : Nat) → (i : Nat) → (ch : Byte) → (file : List Byte) → Except Fault (List Byte)
  | 0, i, ch, _ => if ch = EOF ∨ i < filesize then .error .bounds else .ok []
  | room + 1, i, ch, file =>
    if ch = EOF ∨ i < filesize then
      let (ch, file) := fgetc file
      -- `i++`
      if i = INT_MAX then .error .overflow
      else (fgetcLoop filesize room (i + 1) ch file).map (ch :: ·)
    else .ok []

/-- `filetransfer`, with the text of `buffer`. -/
def filetransfer (w : World) (buffer : List Byte) : Transfer :=
  match arguments buffer with
  | .error f => { ending := .fault f }
  | .ok (path, port) =>
    if !w.socket then { ending := .exited }
    else if !w.connect (htons port) then { ending := .exited, socketOpen := true }
    else match w.fopen path with
      -- line 204 leaves `filetransferfd` open
      | none => { ending := .returned false, socketOpen := true }
      | some content =>
        let sendbuf := decimal content.length ++ [newline]
        if !w.writeSize then
          -- a `write` that fails with EPIPE does not return: the signal comes first
          { ending := if w.epipe then .sigpipe else .returned false
            socketOpen := true, fileOpen := true }
        else match fgetcLoop content.length (content.length + 1) 0 w.ch content with
          | .error f =>
            { ending := .fault f, sockfd := sendbuf, socketOpen := true, fileOpen := true }
          | .ok filebuf => { ending := .returned true, sockfd := sendbuf, peer := filebuf }

/-! ## The copy loop -/

/-- **The copy loop**, from any iteration: it stores exactly the rest of the file if
and only if the last byte it sees is not `EOF` and its counter does not overflow. -/
theorem fgetcLoop_eq_iff (file : List Byte) : ∀ (i : Nat) (ch : Byte), i ≤ INT_MAX →
    (fgetcLoop (i + file.length) (file.length + 1) i ch file = .ok file ↔
      file.getLast?.getD ch ≠ EOF ∧ i + file.length ≤ INT_MAX) := by
  induction file with
  | nil =>
    intro i ch hi
    have hloop : fgetcLoop i 1 i ch [] = .ok [] ↔ ch ≠ EOF := by
      by_cases hch : ch = EOF
      · -- one more round stores `EOF`, the next one is out of bounds
        by_cases hmax : i = INT_MAX
        · simp [fgetcLoop, hch, hmax]
        · simp [fgetcLoop, fgetc, hch, hmax, Except.map]
      · simp [fgetcLoop, hch]
    simpa [hi] using hloop
  | cons b file ih =>
    intro i ch hi
    have hsize : i + (b :: file).length = i + 1 + file.length := by simp; omega
    have hround : fgetcLoop (i + (b :: file).length) ((b :: file).length + 1) i ch (b :: file) =
        if i = INT_MAX then .error .overflow
        else (fgetcLoop (i + 1 + file.length) (file.length + 1) (i + 1) b file).map (b :: ·) := by
      rw [hsize]
      exact if_pos (Or.inr (by omega))
    rw [hround]
    have hlast : (b :: file).getLast?.getD ch = file.getLast?.getD b := by
      simp [List.getLast?_cons]
    rw [hlast, hsize]
    by_cases hmax : i = INT_MAX
    · rw [if_pos hmax]
      refine ⟨fun h => (nomatch h), fun h => absurd h.2 ?_⟩
      omega
    · rw [if_neg hmax, ← ih (i + 1) b (by omega)]
      cases fgetcLoop (i + 1 + file.length) (file.length + 1) (i + 1) b file with
      | error f => exact ⟨fun h => (nomatch h), fun h => (nomatch h)⟩
      | ok filebuf => simp [Except.map]

/-! ## Exact transfers -/

/-- The size of the file is announced in decimal, and the peer gets the file. -/
structure Transfer.Exact (t : Transfer) (content : List Byte) : Prop where
  returned : t.ending = .returned true
  announced : ∃ numeral, t.sockfd = numeral ++ [newline] ∧ digitsValue numeral = content.length
  sent : t.peer = content

/-- **When a file transfer is exact.**  With all calls succeeding, it is unless the
file ends in `0xFF`, or is empty with `EOF` in the uninitialised `ch`, or is longer
than an `int` counts. -/
theorem filetransfer_exact_iff {w : World} {buffer path content : List Byte} {port : Int}
    (hargs : arguments buffer = .ok (path, port)) (hsocket : w.socket = true)
    (hconnect : w.connect (htons port) = true) (hfile : w.fopen path = some content)
    (hwrite : w.writeSize = true) :
    (filetransfer w buffer).Exact content ↔
      (content = [] → w.ch ≠ EOF) ∧ content.getLast? ≠ some EOF ∧ content.length ≤ INT_MAX := by
  have hlast : content.getLast?.getD w.ch ≠ EOF ↔
      (content = [] → w.ch ≠ EOF) ∧ content.getLast? ≠ some EOF := by
    cases content with
    | nil => simp
    | cons b content => simp [List.getLast?_cons]
  have hloop := fgetcLoop_eq_iff content 0 w.ch (Nat.zero_le _)
  rw [Nat.zero_add, hlast, and_assoc] at hloop
  rw [← hloop]
  have hrun : filetransfer w buffer =
      match fgetcLoop content.length (content.length + 1) 0 w.ch content with
      | .error f => ⟨.fault f, decimal content.length ++ [newline], [], true, true⟩
      | .ok filebuf =>
        ⟨.returned true, decimal content.length ++ [newline], filebuf, false, false⟩ := by
    simp [filetransfer, hargs, hsocket, hconnect, hfile, hwrite]
  rw [hrun]
  cases fgetcLoop content.length (content.length + 1) 0 w.ch content with
  | error f => exact ⟨fun h => (nomatch h.returned), fun h => (nomatch h)⟩
  | ok filebuf =>
    refine ⟨fun h => congrArg Except.ok h.sent, fun h => ?_⟩
    exact ⟨rfl, ⟨_, rfl, digitsValue_decimal _⟩, Except.ok.inj h⟩

/-- A world in which every call succeeds, with one file in it. -/
def World.withFile (path content : List Byte) (ch : Byte) : World where
  socket := true
  connect := fun _ => true
  fopen := fun p => if p = path then some content else none
  writeSize := true
  epipe := false
  fork := true
  ch := ch
  echoerBuffer := .zero _
  getsrcfldrBuffer := .zero _

theorem filetransfer_exact_text_file :
    (filetransfer (.withFile (ascii "/etc/motd") (ascii "Hello\n") EOF)
      (ascii "F /etc/motd 12553\n")).Exact (ascii "Hello\n") := by
  have hargs : arguments (ascii "F /etc/motd 12553\n") = .ok (ascii "/etc/motd", 12553) := by
    decide
  exact (filetransfer_exact_iff hargs rfl rfl (by decide) rfl).mpr (by decide)

/-- A file of two bytes that ends in `0xFF`. -/
theorem filetransfer_not_exact_last_byte :
    ¬ ∀ (w : World) (buffer path content : List Byte) (port : Int),
      arguments buffer = .ok (path, port) → w.socket = true → w.connect (htons port) = true →
        w.fopen path = some content → w.writeSize = true → content.length ≤ INT_MAX →
          (filetransfer w buffer).Exact content := by
  intro hall
  have hexact := hall (.withFile (ascii "/etc/motd") [0x61, 0xFF] 0) (ascii "F /etc/motd 12553\n")
    (ascii "/etc/motd") [0x61, 0xFF] 12553 (by decide) rfl rfl (by decide) rfl (by decide)
  exact absurd hexact.returned (by decide)

end PosixNet.Exercise
