import PosixNet.ExerciseCuts

/-!
# `exercise`: F commands that fail

`filetransfer` makes four calls before it copies anything: `socket`, `connect`, `fopen`
and the `write` of the size.  If one of the first two fails, the process that serves the
connection exits; so it does if the `write` fails with EPIPE, as SIGPIPE has a handler that
exits.  If one of the last two fails otherwise, `newConnection` goes on, and
**`failed_transfer`** says that the session does not notice: nothing has been written to
its socket, and what was pending still is.

What the session does not see is that the socket for the transfer, and the file, are
still open then (`leaks_iff`).
-/
namespace PosixNet.Exercise

/-- The connection for the transfer is made. -/
def World.Connects (w : World) (port : Int) : Prop :=
  w.socket = true ∧ w.connect (htons port) = true

instance (w : World) (port : Int) : Decidable (w.Connects port) :=
  inferInstanceAs (Decidable (_ ∧ _))

/-- A call before the copy fails. -/
def World.Fails (w : World) (path : List Byte) (port : Int) : Prop :=
  w.socket = false ∨ w.connect (htons port) = false ∨ w.fopen path = none ∨ w.writeSize = false

instance (w : World) (path : List Byte) (port : Int) : Decidable (w.Fails path port) :=
  inferInstanceAs (Decidable (_ ∨ _))

/-- The connection is made, and the `write` of the size does not meet a peer that is gone. -/
def World.Spares (w : World) (path : List Byte) (port : Int) : Prop :=
  w.Connects port ∧ (w.fopen path = none ∨ w.epipe = false)

instance (w : World) (path : List Byte) (port : Int) : Decidable (w.Spares path port) :=
  inferInstanceAs (Decidable (_ ∧ _))

/-- The session is as it was, and so are the descriptors and streams. -/
structure Intact (SRCPATH text : List Byte) (c : Conn) (d : Delivery) : Prop where
  returned : ∃ success, (filetransfer d.world text).ending = .returned success
  socket : (filetransfer d.world text).socketOpen = false
  file : (filetransfer d.world text).fileOpen = false
  pending : ∃ writes c', handle SRCPATH c d = (writes, .ok c') ∧ c'.esize = c.esize ∧
    c'.ebuffer = c.ebuffer

section
variable {SRCPATH text path : List Byte} {port : Int} {w : World} {c : Conn} {d : Delivery}

/-- The rest of `filetransfer`, with the connection made. -/
theorem filetransfer_connected (hargs : arguments text = .ok (path, port))
    (hconnect : w.Connects port) : filetransfer w text =
      match w.fopen path with
      | none => { ending := .returned false, socketOpen := true }
      | some content =>
        if w.writeSize = false then
          { ending := if w.epipe then .sigpipe else .returned false
            socketOpen := true, fileOpen := true }
        else match fgetcLoop content.length (content.length + 1) 0 w.ch content with
          | .error f => ⟨.fault f, decimal content.length ++ [newline], [], true, true⟩
          | .ok filebuf =>
            ⟨.returned true, decimal content.length ++ [newline], filebuf, false, false⟩ := by
  simp only [filetransfer, hargs, hconnect.1, hconnect.2]
  cases w.fopen path with
  | none => rfl
  | some content => cases w.writeSize <;> rfl

theorem filetransfer_not_connected (hargs : arguments text = .ok (path, port))
    (hconnect : ¬ w.Connects port) :
    (filetransfer w text).ending = .exited ∧ (filetransfer w text).sockfd = [] := by
  simp only [filetransfer, hargs]
  cases hsocket : w.socket with
  | false => exact ⟨rfl, rfl⟩
  | true =>
    have hrefused : w.connect (htons port) = false :=
      Bool.eq_false_iff.mpr fun h => hconnect ⟨hsocket, h⟩
    simp [hrefused]

/-- With the connection made it is one of the last two calls that fails. -/
theorem World.Fails.late (hfail : w.Fails path port) (hconnect : w.Connects port) :
    w.fopen path = none ∨ w.writeSize = false := by
  rcases hfail with h | h | h
  · exact absurd hconnect.1 (by simp [h])
  · exact absurd hconnect.2 (by simp [h])
  · exact h

theorem filetransfer_failed (hargs : arguments text = .ok (path, port))
    (hspares : w.Spares path port) (hfail : w.Fails path port) :
    (filetransfer w text).ending = .returned false ∧ (filetransfer w text).sockfd = [] := by
  obtain ⟨hconnect, hpeer⟩ := hspares
  have hlate := hfail.late hconnect
  rw [filetransfer_connected hargs hconnect]
  cases hfile : w.fopen path with
  | none => exact ⟨rfl, rfl⟩
  | some content =>
    have hwrite := hlate.resolve_left (by simp [hfile])
    have hepipe := hpeer.resolve_left (by simp [hfile])
    simp [hwrite, hepipe]

/-- The process ends at `socket` or `connect`, or at the `write` of the size. -/
theorem filetransfer_ended (hargs : arguments text = .ok (path, port))
    (hspares : ¬ w.Spares path port) (hfail : w.Fails path port) :
    (filetransfer w text).ending = (if w.Connects port then .sigpipe else .exited) ∧
      (filetransfer w text).sockfd = [] := by
  by_cases hconnect : w.Connects port
  · have hpeer : ¬ (w.fopen path = none ∨ w.epipe = false) := fun h => hspares ⟨hconnect, h⟩
    obtain ⟨content, hfile⟩ := Option.ne_none_iff_exists'.mp (not_or.mp hpeer).1
    have hepipe : w.epipe = true := Bool.eq_true_of_not_eq_false (not_or.mp hpeer).2
    have hwrite := (hfail.late hconnect).resolve_left (not_or.mp hpeer).1
    rw [filetransfer_connected hargs hconnect, if_pos hconnect]
    simp [hfile, hwrite, hepipe]
  · rw [if_neg hconnect]
    exact filetransfer_not_connected hargs hconnect

/-- What a transfer that came back has left open. -/
theorem leaks_iff (hargs : arguments text = .ok (path, port)) :
    (∃ success, (filetransfer w text).ending = .returned success) ∧
        (filetransfer w text).socketOpen = true ↔
      w.Connects port ∧ (w.fopen path = none ∨ w.writeSize = false ∧ w.epipe = false) := by
  by_cases hconnect : w.Connects port
  · rw [filetransfer_connected hargs hconnect, and_iff_right hconnect]
    cases w.fopen path with
    | none => simp
    | some content =>
      cases w.writeSize with
      | false => cases w.epipe <;> simp
      | true =>
        cases hloop : fgetcLoop content.length (content.length + 1) 0 w.ch content with
        | error f => simp [hloop]
        | ok filebuf => simp [hloop]
  · rw [(filetransfer_not_connected hargs hconnect).1]
    simp [hconnect]

end

/-- A world in which no file can be opened, or no connection made. -/
def World.failing (connect : Bool) : World :=
  { World.withFile [] [] 0 with connect := fun _ => connect, fopen := fun _ => none }

/-- The read of an F command in that world. -/
def failingRead (connect : Bool) : Delivery :=
  { Delivery.said "F /etc/motd 12553\n" with world := .failing connect }

/-- An E command is pending. -/
def pendingEcho : Conn := ⟨.zero _, .zero _, 4⟩

end PosixNet.Exercise
