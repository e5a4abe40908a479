import PosixNet.Week2Doubler
import PosixNet.Week3Pipeline

/-!
# `week2` and `week3`: where `strlen` finds its NUL

The five loops of `teht5.c` and of `teht1_1.c` to `teht1_3.c` read up to 100 bytes into a
buffer of 100 and look for a NUL in it.  The `memset` at the end of a round leaves one for
the next read, unless that fills the buffer; nothing leaves one for the first read.

`Scans` is what the loops have in common, and `inBounds_iff` what follows from it for a
network of them: every search ends inside of the buffer exactly if the first read leaves
a NUL behind it or brings one along, and every later one is short or brings one along
(`LeavesNul`).  **`strlen_inBounds_iff`** is this for the two programs.
-/
namespace PosixNet

/-! ## Loops that look for a NUL -/

/-- There is a NUL in the buffer after every read; the first one finds in it what was
there before, the others zeros. -/
structure LeavesNul {n : Nat} (buffer : CArray n) (xs : List (List Byte)) : Prop where
  first : ∀ x ∈ xs.head?, 0 ∈ x ∨ 0 ∈ buffer.bytes.drop x.length
  later : ∀ x ∈ xs.tail, 0 ∈ x ∨ x.length < n

instance {n : Nat} (buffer : CArray n) (xs : List (List Byte)) :
    Decidable (LeavesNul buffer xs) :=
  decidable_of_iff ((∀ x ∈ xs.head?, 0 ∈ x ∨ 0 ∈ buffer.bytes.drop x.length) ∧
    ∀ x ∈ xs.tail, 0 ∈ x ∨ x.length < n) ⟨fun h => ⟨h.1, h.2⟩, fun h => ⟨h.first, h.later⟩⟩

theorem mem_frame_iff {n : Nat} {buffer : CArray n} {x : List Byte} :
    0 ∈ frame buffer x ↔ 0 ∈ x ∨ 0 ∈ buffer.bytes.drop x.length := List.mem_append

theorem zero_mem_drop_zero {n k : Nat} : 0 ∈ (CArray.zero n).bytes.drop k ↔ k < n := by
  rw [CArray.zero, List.drop_replicate, List.mem_replicate]
  simp only [and_true]
  omega

theorem leavesNul_cons {n : Nat} {buffer : CArray n} {x : List Byte} {xs : List (List Byte)} :
    LeavesNul buffer (x :: xs) ↔ 0 ∈ frame buffer x ∧ LeavesNul (.zero n) xs := by
  constructor
  · rintro ⟨hfirst, hlater⟩
    refine ⟨mem_frame_iff.mpr (hfirst x rfl), fun y hy => ?_, fun y hy => ?_⟩
    · rw [zero_mem_drop_zero]
      exact hlater y (List.mem_of_mem_head? hy)
    · exact hlater y (List.mem_of_mem_tail hy)
  · rintro ⟨hframe, hfirst, hlater⟩
    refine ⟨fun y hy => ?_, fun y hy => ?_⟩
    · obtain rfl := Option.some.inj hy
      exact mem_frame_iff.mp hframe
    · cases xs with
      | nil => cases hy
      | cons z zs =>
        rcases List.mem_cons.mp hy with rfl | hy
        · have h := hfirst y rfl
          rwa [zero_mem_drop_zero] at h
        · exact hlater y hy

/-- The NUL of one of the reads. -/
theorem LeavesNul.mem_frame {n : Nat} {x : List Byte} {ys : List (List Byte)} :
    ∀ {xs : List (List Byte)} {buffer : CArray n}, LeavesNul buffer (xs ++ x :: ys) →
      0 ∈ frame (if xs = [] then buffer else .zero n) x
  | [], _, h => (leavesNul_cons.mp h).1
  | y :: xs, buffer, h => by
    have hrest := (leavesNul_cons.mp h).2.mem_frame
    rwa [ite_self] at hrest

namespace ReadLoop

/-- The body looks for a NUL after every read that `looks` at, and clears the buffer; it
leaves the loop at the others. -/
structure Scans {χ : Type} {n : Nat} (looks : List Byte → Bool) (L : ReadLoop χ (CArray n)) :
    Prop where
  size : L.size = n
  next : ∀ b x, looks x → x.length ≤ n → 0 ∈ frame b x → ∃ ws, L.body b x = .next ws (.zero n)
  fault : ∀ b x, looks x → x.length ≤ n → 0 ∉ frame b x → L.body b x = .fault .bounds
  finish : ∀ b x, ¬ looks x → L.body b x = .finish

section Rounds
variable {χ : Type} {n : Nat} {looks : List Byte → Bool} {L : ReadLoop χ (CArray n)}
  {buffer buffer' : CArray n} {xs ws : List (List Byte)}

/-- **When the rounds run out of the buffer.** -/
theorem Scans.rounds_ne_fault_iff (hL : Scans looks L) (hlen : ∀ x ∈ xs, x.length ≤ n) :
    (∀ f, (L.rounds buffer xs).2 ≠ .fault f) ↔ LeavesNul buffer (xs.takeWhile looks) := by
  induction xs generalizing buffer with
  | nil =>
    simp only [List.takeWhile_nil]
    exact ⟨fun _ => ⟨fun x hx => (nomatch hx), fun x hx => (nomatch hx)⟩,
      fun _ f h => nomatch h⟩
  | cons x xs ih =>
    have hx := hlen x List.mem_cons_self
    by_cases hlooks : looks x = true
    · rw [List.takeWhile_cons_of_pos hlooks, leavesNul_cons]
      by_cases h0 : 0 ∈ frame buffer x
      · obtain ⟨ws, hbody⟩ := hL.next buffer x hlooks hx h0
        rw [rounds_next hbody, ih fun y hy => hlen y (List.mem_cons_of_mem _ hy)]
        exact (and_iff_right h0).symm
      · rw [rounds_fault (hL.fault buffer x hlooks hx h0)]
        exact ⟨fun h => absurd rfl (h .bounds), fun h => absurd h.1 h0⟩
    · rw [rounds_finish (hL.finish buffer x hlooks), List.takeWhile_cons_of_neg hlooks]
      exact ⟨fun _ => ⟨fun y hy => (nomatch hy), fun y hy => (nomatch hy)⟩,
        fun _ f h => nomatch h⟩

/-- Between two rounds the buffer is zero, but before the first one. -/
theorem Scans.running_buffer (hL : Scans looks L) (hlen : ∀ x ∈ xs, x.length ≤ n)
    (h : L.rounds buffer xs = (ws, .running buffer')) :
    (∀ x ∈ xs, looks x = true) ∧ buffer' = if xs = [] then buffer else .zero n := by
  induction xs generalizing buffer ws with
  | nil => exact ⟨fun x hx => (nomatch hx), (LoopEnd.running.inj (Prod.mk.inj h).2).symm⟩
  | cons x xs ih =>
    have hx := hlen x List.mem_cons_self
    by_cases hlooks : looks x = true
    · by_cases h0 : 0 ∈ frame buffer x
      · obtain ⟨ws', hbody⟩ := hL.next buffer x hlooks hx h0
        rw [rounds_next hbody] at h
        obtain ⟨hall, hb⟩ := ih (fun y hy => hlen y (List.mem_cons_of_mem _ hy))
          (Prod.ext rfl (Prod.mk.inj h).2)
        refine ⟨fun y hy => ?_, ?_⟩
        · rcases List.mem_cons.mp hy with rfl | hy
          · exact hlooks
          · exact hall y hy
        · rw [hb, ite_self, if_neg (List.cons_ne_nil _ _)]
      · rw [rounds_fault (hL.fault buffer x hlooks hx h0)] at h
        cases h
    · rw [rounds_finish (hL.finish buffer x hlooks)] at h
      cases h

end Rounds

section Networks
variable {ι χ : Type} [DecidableEq ι] [DecidableEq χ] {n : Nat}

/-- No process has left its buffer: where `strlen` was called there was a NUL, and its
result was less than the size of the buffer. -/
structure InBounds (loop : ι → ReadLoop χ (CArray n)) (looks : List Byte → Bool)
    (tr : List (Net χ (fun _ : ι => LoopState (CArray n)) × (ι × Io χ)))
    (s : Net χ fun _ : ι => LoopState (CArray n)) : Prop where
  strlen : ∀ u i bytes b, (u, (i, Io.read (loop i).input bytes)) ∈ tr → looks bytes →
    u.proc i = .reading b → 0 ∈ frame b bytes ∧ (cstr (frame b bytes)).length < n
  noFault : ∀ i f, s.proc i ≠ .fault f

variable {loop : ι → ReadLoop χ (CArray n)} {looks : List Byte → Bool}
  {s₀ s : Net χ fun _ : ι => LoopState (CArray n)} {buffer : ι → CArray n}
  {tr : List (Net χ (fun _ : ι => LoopState (CArray n)) × (ι × Io χ))}

theorem owed_eq_fault {ys : List (List Byte)} {s : LoopState (CArray n)} {f : Fault} :
    (owed ys s).2 = .fault f ↔ s = .fault f := by
  cases s with
  | fault g => exact ⟨fun h => congrArg _ (LoopEnd.fault.inj h), fun h => congrArg _
      (LoopState.fault.inj h)⟩
  | reading b => exact ⟨fun h => (nomatch h), fun h => (nomatch h)⟩
  | writing w ws b => exact ⟨fun h => (nomatch h), fun h => (nomatch h)⟩
  | closing => exact ⟨fun h => (nomatch h), fun h => (nomatch h)⟩
  | stopped => exact ⟨fun h => (nomatch h), fun h => (nomatch h)⟩

/-- **When a network stays in its buffers.** -/
theorem inBounds_iff (run : Run (stepOf (Net.exec fun i => (loop i).program)) s₀ tr s)
    (hin : ∀ i j, (loop i).input = (loop j).input → i = j)
    (hout : ∀ i j, (loop i).output = (loop j).output → i = j)
    (h₀ : ∀ i, s₀.proc i = .reading (buffer i)) (hL : ∀ i, Scans looks (loop i)) :
    InBounds loop looks tr s ↔
      ∀ i, LeavesNul (buffer i) ((reads (loop i).input (Net.events tr)).takeWhile looks) := by
  have hlen : ∀ i, ∀ x ∈ reads (loop i).input (Net.events tr), x.length ≤ n := fun i x hx => by
    rw [← (hL i).size]
    exact reads_length_net run hin i x hx
  -- a process is at a fault if its rounds are
  have hfault : ∀ i, (∀ f, s.proc i ≠ .fault f) ↔
      LeavesNul (buffer i) ((reads (loop i).input (Net.events tr)).takeWhile looks) := fun i => by
    rw [← (hL i).rounds_ne_fault_iff (hlen i), run_net run hin hout (h₀ i)]
    exact forall_congr' fun f => not_congr owed_eq_fault.symm
  constructor
  · exact fun h i => (hfault i).mp (h.noFault i)
  · intro h
    refine ⟨fun u i bytes b hmem hlooks hb => ?_, fun i => (hfault i).mpr (h i)⟩
    obtain ⟨pre, post, u', rfl, hpre, -, -⟩ := run.of_mem hmem
    have hreads : reads (loop i).input (Net.events (pre ++ (u, (i, .read (loop i).input bytes)) ::
        post)) = reads (loop i).input (Net.events pre) ++
          bytes :: reads (loop i).input (Net.events post) := by
      rw [Net.events_append, Net.events_cons, reads_append, reads_cons, reads_read]
      rfl
    have hlen := hlen i
    have h := h i
    rw [hreads] at hlen h
    have hrounds := run_net hpre hin hout (h₀ i)
    rw [show (u, (i, Io.read (loop i).input bytes)).1.proc i = .reading b from hb] at hrounds
    obtain ⟨hall, hbuffer⟩ := (hL i).running_buffer
      (fun x hx => hlen x (List.mem_append_left _ hx)) hrounds
    rw [List.takeWhile_append_of_pos hall, List.takeWhile_cons_of_pos hlooks] at h
    have h0 := h.mem_frame
    rw [← hbuffer] at h0
    have hshort := cstr_length_lt h0
    rw [frame_length (hlen bytes (by simp))] at hshort
    exact ⟨h0, hshort⟩

end Networks

end ReadLoop

/-! ## The two programs -/

/-- The loops of `teht5.c` are left at end of file before `strlen` is called. -/
def Week2.looks (bytes : List Byte) : Bool := bytes ≠ []

/-- The loops of `week3` call it after every read, also at end of file. -/
def Week3.looks (_ : List Byte) : Bool := true

theorem Week2.scans (i : Proc) : ReadLoop.Scans looks (loop i) := by
  have hnext : ∀ (send : List Byte → List (List Byte)) (b : Buffer) (x : List Byte), looks x →
      x.length ≤ maxBuffer → 0 ∈ frame b x → ∃ ws, body send b x = .next ws (.zero _) := by
    intro send b x hne hlen h0
    obtain ⟨b', -, hfill⟩ := fill_eq hlen h0
    refine ⟨send (cstr (frame b x)), ?_⟩
    simp only [body, if_neg (of_decide_eq_true hne), hfill, if_neg (fill_short hfill)]
  have hfinish : ∀ (send : List Byte → List (List Byte)) (b : Buffer) (x : List Byte),
      ¬ looks x → body send b x = .finish := fun send b x hx =>
    if_pos (by simpa [looks] using hx)
  cases i with
  | reader =>
    exact ⟨rfl, hnext _, fun b x hne => body_fault (of_decide_eq_true hne), hfinish _⟩
  | doubler =>
    exact ⟨rfl, hnext _, fun b x hne => body_fault (of_decide_eq_true hne), hfinish _⟩

theorem Week3.scans (i : Proc) : ReadLoop.Scans looks (loop i) := by
  have hfinish : ∀ (b : Buffer) (x : List Byte), ¬ looks x → (loop i).body b x = .finish :=
    fun b x hx => absurd rfl hx
  cases i with
  | reader =>
    exact ⟨rfl, fun b x _ hlen h0 => ⟨_, reader_body hlen h0⟩,
      fun b x _ hlen h0 => reader_body_fault hlen h0, hfinish⟩
  | converter =>
    refine ⟨rfl, fun b x _ hlen h0 => ⟨_, converter_body hlen h0⟩, fun b x _ hlen h0 => ?_, hfinish⟩
    simp only [loop, converter, fill_eq_error hlen h0]
  | doubler =>
    refine ⟨rfl, fun b x _ hlen h0 => ⟨_, doubler_body hlen h0⟩, fun b x _ hlen h0 => ?_, hfinish⟩
    simp only [loop, doubler, fill_eq_error hlen h0]

section Programs
variable {stdin stdin' : List Byte} {buffer : Week2.Proc → Week2.Buffer} {tr : Week2.Trace}
  {s : Week2.State} {buffer' : Week3.Proc → Week3.Buffer} {tr' : Week3.Trace} {s' : Week3.State}

/-- **When `strlen` stays inside of the buffers.**  In every run of either program:
exactly if the first read of every process leaves a NUL in a buffer that nobody has
cleared, and every later one has less than 100 bytes, or a NUL is read. -/
theorem strlen_inBounds_iff (run : Run Week2.Step (Week2.start buffer stdin) tr s)
    (run' : Run Week3.Step (Week3.start buffer' stdin') tr' s') :
    (ReadLoop.InBounds Week2.loop Week2.looks tr s ↔ ∀ i, LeavesNul (buffer i)
      ((reads (Week2.loop i).input (Net.events tr)).takeWhile Week2.looks)) ∧
    (ReadLoop.InBounds Week3.loop Week3.looks tr' s' ↔ ∀ i, LeavesNul (buffer' i)
      (reads (Week3.loop i).input (Net.events tr'))) := by
  constructor
  · exact ReadLoop.inBounds_iff run Week2.loop_input_inj Week2.loop_output_inj (fun _ => rfl)
      Week2.scans
  · rw [ReadLoop.inBounds_iff run' Week3.loop_input_inj Week3.loop_output_inj (fun _ => rfl)
      Week3.scans]
    refine forall_congr' fun i => ?_
    have hall : (reads (Week3.loop i).input (Net.events tr')).takeWhile Week3.looks =
        reads (Week3.loop i).input (Net.events tr') :=
      List.takeWhile_eq_self_iff.mpr fun _ _ => rfl
    rw [hall]

end Programs

/-- Two lines through the two processes of `week2` and the three of `week3`. -/
theorem strlen_inBounds_twoLines : (∃ tr s,
    Run Week2.Step (Week2.start (fun _ => .zero _) Week2.twoLines.flatten) tr s ∧
      ReadLoop.InBounds Week2.loop Week2.looks tr s) ∧ ∃ tr s,
    Run Week3.Step (Week3.start (fun _ => .zero _) (ascii "a\nBc\n")) tr s ∧
      writes .myfifo2 (Net.events tr) = [ascii "A\n", ascii "bC\n"] ∧
      ReadLoop.InBounds Week3.loop Week3.looks tr s := by
  obtain ⟨tr, s, hrun, hstdin, hpipe⟩ : ∃ tr s,
      Run Week2.Step (Week2.start (fun _ => .zero _) Week2.twoLines.flatten) tr s ∧
        LeavesNul (.zero 100) ((reads .stdin (Net.events tr)).takeWhile Week2.looks) ∧
        LeavesNul (.zero 100) ((reads .pipe (Net.events tr)).takeWhile Week2.looks) :=
    ⟨_, _, run_get _ (Week2.bothSent [2, 2])
      (Week2.start (fun _ => .zero _) Week2.twoLines.flatten) (by decide +kernel),
      by decide +kernel, by decide +kernel⟩
  obtain ⟨tr', s', hrun', hsent, hreader, hconverter, hdoubler⟩ : ∃ tr s,
      Run Week3.Step (Week3.start (fun _ => .zero _) (ascii "a\nBc\n")) tr s ∧
        writes .myfifo2 (Net.events tr) = [ascii "A\n", ascii "bC\n"] ∧
        LeavesNul (.zero 100) (reads .stdin (Net.events tr)) ∧
        LeavesNul (.zero 100) (reads .myfifo1 (Net.events tr)) ∧
        LeavesNul (.zero 100) (reads .myfifo2 (Net.events tr)) :=
    ⟨_, _, run_get _ Week3.twoLines (Week3.start (fun _ => .zero _) (ascii "a\nBc\n"))
      (by decide +kernel), by decide +kernel, by decide +kernel, by decide +kernel,
      by decide +kernel⟩
  obtain ⟨hweek2, hweek3⟩ := strlen_inBounds_iff hrun hrun'
  refine ⟨⟨tr, s, hrun, hweek2.mpr fun i => ?_⟩, tr', s', hrun', hsent, hweek3.mpr fun i => ?_⟩
  · cases i with
    | reader => exact hstdin
    | doubler => exact hpipe
  · cases i with
    | reader => exact hreader
    | converter => exact hconverter
    | doubler => exact hdoubler

/-- A read of 100 letters, in cleared buffers. -/
theorem not_strlen_inBounds_full :
    ¬ ((∀ (buffer : Week2.Proc → Week2.Buffer) (stdin : List Byte) (tr : Week2.Trace)
          (s : Week2.State), Run Week2.Step (Week2.start buffer stdin) tr s →
        ReadLoop.InBounds Week2.loop Week2.looks tr s) ∧
      (∀ (buffer : Week3.Proc → Week3.Buffer) (stdin : List Byte) (tr : Week3.Trace)
          (s : Week3.State), Run Week3.Step (Week3.start buffer stdin) tr s →
        ReadLoop.InBounds Week3.loop Week3.looks tr s)) := by
  rintro ⟨hall, -⟩
  have hrun := run_get (Net.exec fun i => (Week2.loop i).program) [(.reader, 100)]
    (Week2.start (fun _ => .zero _) (List.replicate 100 0x41)) (by decide +kernel)
  exact absurd ((hall _ _ _ _ hrun).noFault .reader .bounds) (by decide +kernel)

end PosixNet
