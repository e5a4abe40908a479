import PosixNet.ExerciseCuts

/-!
# `exercise`: cutting a stream at will

To show that the cuts matter one has to make them.  A text is cut into pieces that fit a
read (`Piece`, `exists_reads`); if its lines fit a read, it can be cut in front of each
newline, so that no piece but the first looks like a command (`exists_lead`).  A first
piece that is a comment is cut once more if it has `209` in it: in the middle of the
`209`, where the rest starts with a digit (`exists_quiet`).
-/
namespace PosixNet.Exercise
variable {lines : List (List Byte)}

theorem commandOf_append {l : List Byte} (hl : l ≠ []) (l' : List Byte) :
    commandOf (l ++ l') = commandOf l := by
  cases l with
  | nil => exact absurd rfl hl
  | cons b l => rfl

theorem commandOf_newline {p : List Byte} (h : p.head? = some newline) : commandOf p = .other := by
  cases p with
  | nil => cases h
  | cons b p =>
    obtain rfl := Option.some.inj h
    rfl

/-- A piece that fits a read. -/
def Piece (p : List Byte) : Prop := p ≠ [] ∧ p.length < MAXBUFFER

/-- A read of a piece. -/
def Piece.read {p : List Byte} (h : Piece p) (world : World := .withFile [] [] 0) : Delivery :=
  ⟨p, h.1, Nat.le_of_lt h.2, world⟩

@[simp] theorem Piece.read_bytes {p : List Byte} (h : Piece p) (world : World) :
    (h.read world).bytes = p := rfl

@[simp] theorem Piece.read_world {p : List Byte} (h : Piece p) (world : World) :
    (h.read world).world = world := rfl

/-- The reads cut this text. -/
structure Reads (text : List Byte) (ds : List Delivery) : Prop where
  flatten_eq : (ds.map Delivery.bytes).flatten = text
  short : ∀ d ∈ ds, d.bytes.length < MAXBUFFER

theorem Reads.cons {p text : List Byte} {ds : List Delivery} (hp : Piece p) (world : World)
    (h : Reads text ds) : Reads (p ++ text) (hp.read world :: ds) where
  flatten_eq := by rw [List.map_cons, List.flatten_cons, h.flatten_eq, Piece.read_bytes]
  short := fun d hd => by
    rcases List.mem_cons.mp hd with rfl | hd
    · exact hp.2
    · exact h.short d hd

theorem Reads.append {u v : List Byte} {ds ds' : List Delivery} (h : Reads u ds)
    (h' : Reads v ds') : Reads (u ++ v) (ds ++ ds') where
  flatten_eq := by rw [List.map_append, List.flatten_append, h.flatten_eq, h'.flatten_eq]
  short := fun d hd => (List.mem_append.mp hd).elim (h.short d) (h'.short d)

theorem Reads.nulFree {text : List Byte} {ds : List Delivery} (h : Reads text ds)
    (hfree : NulFree text) : ∀ d ∈ ds, NulFree d.bytes :=
  nulFree_reads (by rw [h.flatten_eq]; exact hfree)

/-- Pieces are the reads of some run. -/
theorem exists_reads {P : List Byte → Prop} {ps : List (List Byte)}
    (hps : ∀ p ∈ ps, P p ∧ Piece p) :
    ∃ ds : List Delivery, Reads ps.flatten ds ∧ ∀ d ∈ ds, P d.bytes := by
  induction ps with
  | nil => exact ⟨[], ⟨rfl, by simp⟩, by simp⟩
  | cons p ps ih =>
    obtain ⟨hP, hpiece⟩ := hps p (List.mem_cons_self ..)
    obtain ⟨ds, hds, hall⟩ := ih fun p h => hps p (List.mem_cons_of_mem _ h)
    refine ⟨_, hds.cons hpiece (.withFile [] [] 0), fun d hd => ?_⟩
    rcases List.mem_cons.mp hd with rfl | hd
    · exact hP
    · exact hall d hd

theorem piece_singleton (b : Byte) : Piece [b] := ⟨by simp, by simp [MAXBUFFER]⟩

/-- Any text is read somehow: byte by byte, say. -/
theorem exists_rest (v : List Byte) : ∃ ds : List Delivery, Reads v ds := by
  obtain ⟨ds, hds, -⟩ := @exists_reads (fun _ => True) (v.map fun b => [b]) fun p hp => by
    obtain ⟨b, -, rfl⟩ := List.mem_map.mp hp
    exact ⟨trivial, piece_singleton b⟩
  rw [← List.flatMap_def, List.flatMap_singleton'] at hds
  exact ⟨ds, hds⟩

/-- A line that fits a read. -/
def ShortLine (l : List Byte) : Prop := StreamLine l ∧ l.length < MAXBUFFER

theorem ShortLine.body {l : List Byte} (h : ShortLine l) :
    ∃ body, l = body ++ [newline] ∧ Piece body := by
  obtain ⟨⟨hline, -, -, hother⟩, hlen⟩ := h
  obtain ⟨body, rfl⟩ := List.getLast?_eq_some_iff.mp hline.1
  refine ⟨body, rfl, ?_, ?_⟩
  · rintro rfl
    exact hother rfl
  · rw [List.length_append] at hlen
    omega

/-- A text from a newline on, cut in front of each newline. -/
theorem exists_aligned {x : List Byte} (hx : x.length + 1 < MAXBUFFER) {ls : List (List Byte)}
    (hlines : ∀ l ∈ ls, ShortLine l) :
    ∃ ps : List (List Byte), ps.flatten = newline :: (ls.flatten ++ x) ∧
      ∀ p ∈ ps, p.head? = some newline ∧ Piece p := by
  induction ls with
  | nil => exact ⟨[newline :: x], by simp, by simpa [Piece] using hx⟩
  | cons l ls ih =>
    obtain ⟨ps, hps, hall⟩ := ih fun l h => hlines l (List.mem_cons_of_mem _ h)
    have hl := hlines l (List.mem_cons_self ..)
    obtain ⟨body, rfl, -⟩ := hl.body
    refine ⟨(newline :: body) :: ps, by simp [hps], fun p hp => ?_⟩
    rcases List.mem_cons.mp hp with rfl | hp
    · refine ⟨rfl, by simp, ?_⟩
      simpa using hl.2
    · exact hall p hp

/-- A beginning of the stream, cut in front of each newline, and what is left of the
line it ends in. -/
theorem exists_lead (hlines : ∀ l ∈ lines, ShortLine l) {u r : List Byte}
    (hstream : lines.flatten = u ++ r) (hu : u ≠ []) (hr : r ≠ []) :
    ∃ (p : List Byte) (ps : List (List Byte)) (y post : List Byte), u = p ++ ps.flatten ∧
      r = y ++ post ∧ Piece p ∧ (∀ q ∈ ps, q.head? = some newline ∧ Piece q) ∧
      y.getLast? = some newline ∧ y.length < MAXBUFFER := by
  obtain ⟨pre, x, y, post, hpre, rfl, hr', hlast, hlen⟩ : ∃ (pre : List (List Byte))
      (x y post : List Byte), (∀ l ∈ pre, ShortLine l) ∧
        u = pre.flatten ++ x ∧ r = y ++ post ∧ y.getLast? = some newline ∧
        x.length + y.length < MAXBUFFER := by
    rcases List.flatten_eq_append_iff.mp hstream with
      ⟨pre, rest, rfl, rfl, rfl⟩ | ⟨pre, x, b, y, post, rfl, rfl, rfl⟩
    · cases rest with
      | nil => exact absurd rfl hr
      | cons l rest =>
        have hl := hlines l (by simp)
        exact ⟨pre, [], l, rest.flatten, fun l h => hlines l (by simp [h]), by simp, by simp,
          hl.1.1.1, by simpa using hl.2⟩
    · have hl := hlines (x ++ b :: y) (by simp)
      refine ⟨pre, x, b :: y, post.flatten, fun l h => hlines l (by simp [h]), rfl, rfl, ?_, ?_⟩
      · rw [← hl.1.1.1, List.getLast?_append_of_ne_nil _ (by simp)]
      · simpa using hl.2
  have hy : 0 < y.length := List.length_pos_iff.mpr fun h => by simp [h] at hlast
  cases pre with
  | nil =>
    exact ⟨x, [], y, post, by simp, hr', ⟨by simpa using hu, by omega⟩, by simp, hlast, by omega⟩
  | cons l pre =>
    obtain ⟨body, rfl, hbody⟩ := (hpre l (List.mem_cons_self ..)).body
    obtain ⟨ps, hps, hall⟩ := @exists_aligned x (by omega) pre
      fun l h => hpre l (List.mem_cons_of_mem _ h)
    exact ⟨body, ps, y, post, by simp [hps], hr', hbody, hall, hlast, by omega⟩

/-! ## Quiet pieces -/

/-- A comment with `209` in it can be cut inside of the first `209`. -/
theorem exists_split_209 (l : List Byte) : ¬ ascii "209" <:+: l ∨
    ∃ s r, l = s ++ 48 :: r ∧ ¬ ascii "209" <:+: s := by
  have h209 : ascii "209" = [50, 48] ++ [57] := by decide
  induction l using List.reverseRecOn with
  | nil => exact Or.inl (by decide)
  | append_singleton l b ih =>
    rcases ih with ih | ⟨s, r, rfl, hs⟩
    · by_cases h : ascii "209" <:+: l ++ [b]
      · -- the first `209` ends here
        right
        rcases List.infix_concat_iff.mp h with ⟨q, hq⟩ | h
        · rw [h209, ← List.append_assoc] at hq
          obtain ⟨rfl, -⟩ := List.append_inj' hq rfl
          refine ⟨q ++ [50], [b], by simp, fun h => ih ?_⟩
          exact h.trans ⟨[], [48], by simp⟩
        · exact absurd h ih
      · exact Or.inl h
    · exact Or.inr ⟨s, r ++ [b], by simp, hs⟩

/-- The beginning of a stream that starts with a comment can be read quietly. -/
theorem exists_quiet {p : List Byte} {ps : List (List Byte)} (hcmd : commandOf p = .comment)
    (hp : Piece p) (hps : ∀ q ∈ ps, q.head? = some newline ∧ Piece q) :
    ∃ ds : List Delivery, Reads (p ++ ps.flatten) ds ∧ ∀ d ∈ ds, QuietRead d := by
  have hquiet : ∀ qs : List (List Byte), (∀ q ∈ qs, (commandOf q = .other ∨
      commandOf q = .comment ∧ ¬ ascii "209" <:+: q) ∧ Piece q) → ∃ ds : List Delivery,
        Reads (qs.flatten ++ ps.flatten) ds ∧ ∀ d ∈ ds, QuietRead d := by
    intro qs hqs
    rw [← List.flatten_append]
    refine @exists_reads (fun q => commandOf q = .other ∨ commandOf q = .comment ∧
      ¬ ascii "209" <:+: q) _ fun q hq => ?_
    rcases List.mem_append.mp hq with hq | hq
    · exact hqs q hq
    · exact ⟨Or.inl (commandOf_newline (hps q hq).1), (hps q hq).2⟩
  rcases exists_split_209 p with h209 | ⟨s, r, rfl, h209⟩
  · have hone := hquiet [p] (by simpa using ⟨Or.inr ⟨hcmd, h209⟩, hp⟩)
    simpa using hone
  · have hs : s ≠ [] := by
      rintro rfl
      cases hcmd
    rw [commandOf_append hs] at hcmd
    have hlen := hp.2
    rw [List.length_append] at hlen
    have hr : Piece (48 :: r) := ⟨by simp, by omega⟩
    have htwo := hquiet [s, 48 :: r] (by
      simpa using ⟨⟨Or.inr ⟨hcmd, h209⟩, hs, by omega⟩, Or.inl (by rfl), hr⟩)
    simpa using htwo

end PosixNet.Exercise
