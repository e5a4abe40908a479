import PosixNet.CString

/-!
# Texts and their lines

A text of lines is the text of one list of lines only (`lines_inj`).  Some programs
write every read twice; that this doubles every line of a text depends on where the
reads cut it.

* `doubled` is a text with every piece of it twice in a row.
* `Copies` says of a piece that it is one line, or several copies of one line.
* **`doubled_eq_iff`**: of all cuts of a text, exactly those into such pieces double its
  lines.
-/
namespace PosixNet

variable {l l' r r' p : List Byte} {ls ls' ps : List (List Byte)}

theorem isLine_append (h : newline ∉ l) : IsLine (l ++ [newline]) := by
  simp [IsLine, h]

theorem IsLine.exists_body (h : IsLine l) : ∃ body, l = body ++ [newline] ∧ newline ∉ body := by
  obtain ⟨body, rfl⟩ := List.getLast?_eq_some_iff.mp h.1
  exact ⟨body, rfl, by simpa using h.2⟩

theorem IsLine.mem (h : IsLine l) : newline ∈ l := List.mem_of_getLast? h.1

theorem IsLine.ne_nil (h : IsLine l) : l ≠ [] := List.ne_nil_of_mem h.mem

/-! ### Where the first newline stands -/

theorem idxOf_append_left (h : newline ∈ p) (r : List Byte) :
    (p ++ r).idxOf newline = p.idxOf newline := by
  rw [List.idxOf_append, if_pos h]

theorem idxOf_append_right (h : newline ∉ p) (r : List Byte) :
    (p ++ r).idxOf newline = p.length + r.idxOf newline := by
  rw [List.idxOf_append, if_neg h, Nat.add_comm]

/-- The first line of a text is found by its newline. -/
theorem IsLine.append_inj (h : IsLine l) (h' : IsLine l') (heq : l ++ r = l' ++ r') :
    l = l' ∧ r = r' := by
  obtain ⟨body, rfl, hbody⟩ := h.exists_body
  obtain ⟨body', rfl, hbody'⟩ := h'.exists_body
  have hidx := congrArg (List.idxOf newline) heq
  rw [idxOf_append_left h.mem, idxOf_append_left h'.mem, idxOf_append_right hbody,
    idxOf_append_right hbody'] at hidx
  exact List.append_inj heq (by simp; omega)

/-- A piece of a text with a newline in it has the first line in front. -/
theorem IsLine.prefix_of_mem (h : IsLine l) (hp : p <+: l ++ r) (hmem : newline ∈ p) :
    ∃ q, p = l ++ q ∧ q <+: r := by
  obtain ⟨body, rest, rfl, hbody⟩ := List.eq_append_cons_of_mem hmem
  obtain ⟨tail, htail⟩ := hp
  have hline : IsLine (body ++ [newline]) := isLine_append hbody
  have heq : (body ++ [newline]) ++ (rest ++ tail) = l ++ r := by
    rw [← htail]
    simp
  obtain ⟨rfl, rfl⟩ := hline.append_inj h heq
  exact ⟨rest, by simp, List.prefix_append _ _⟩

/-- **The lines of a text**, when only a front of the other text is known. -/
theorem lines_prefix (hls : ∀ l ∈ ls, IsLine l) (hls' : ∀ l ∈ ls', IsLine l)
    (h : ls.flatten <+: ls'.flatten) : ls <+: ls' := by
  induction ls generalizing ls' with
  | nil => exact List.nil_prefix
  | cons l ls ih =>
    have hl := hls l List.mem_cons_self
    cases ls' with
    | nil =>
      have hempty := List.prefix_nil.mp h
      exact absurd (List.append_eq_nil_iff.mp hempty).1 hl.ne_nil
    | cons l' ls' =>
      obtain ⟨tail, htail⟩ := h
      rw [List.flatten_cons, List.flatten_cons, List.append_assoc] at htail
      obtain ⟨rfl, hrest⟩ := hl.append_inj (hls' l' List.mem_cons_self) htail
      rw [List.cons_prefix_cons]
      refine ⟨rfl, ih (fun x hx => hls x (List.mem_cons_of_mem _ hx))
        (fun x hx => hls' x (List.mem_cons_of_mem _ hx)) ⟨tail, hrest⟩⟩

theorem lines_inj (hls : ∀ l ∈ ls, IsLine l) (hls' : ∀ l ∈ ls', IsLine l)
    (h : ls.flatten = ls'.flatten) : ls = ls' := by
  have h₁ := lines_prefix hls hls' (h ▸ List.prefix_refl _)
  have h₂ := lines_prefix hls' hls (h ▸ List.prefix_refl _)
  exact h₁.eq_of_length (Nat.le_antisymm h₁.length_le h₂.length_le)

theorem prefix_flatten (h : ps <+: ls) : ps.flatten <+: ls.flatten := by
  obtain ⟨rest, rfl⟩ := h
  rw [List.flatten_append]
  exact List.prefix_append _ _

/-- Two cuts whose first pieces have the same lengths have the same first pieces. -/
theorem take_eq_of_lengths {cs ds : List (List Byte)} (h : cs.flatten <+: ds.flatten) {j : Nat}
    (hcs : j ≤ cs.length) (hds : j ≤ ds.length)
    (hlen : ∀ (k : Nat) (c d : List Byte), k < j → cs[k]? = some c → ds[k]? = some d →
      c.length = d.length) :
    cs.take j = ds.take j ∧ (cs.drop j).flatten <+: (ds.drop j).flatten := by
  induction j generalizing cs ds with
  | zero => exact ⟨rfl, h⟩
  | succ j ih =>
    cases cs with
    | nil => cases hcs
    | cons c cs =>
      cases ds with
      | nil => cases hds
      | cons d ds =>
        obtain ⟨tail, htail⟩ := h
        rw [List.flatten_cons, List.flatten_cons, List.append_assoc] at htail
        obtain ⟨rfl, hrest⟩ := List.append_inj htail (hlen 0 c d (Nat.succ_pos j) rfl rfl)
        obtain ⟨htake, hdrop⟩ := ih ⟨tail, hrest⟩ (Nat.le_of_succ_le_succ hcs)
          (Nat.le_of_succ_le_succ hds)
          fun k x y hk hx hy => hlen (k + 1) x y (Nat.succ_lt_succ hk) hx hy
        exact ⟨congrArg (c :: ·) htake, hdrop⟩

theorem getElem?_of_isPrefix {xs ys : List (List Byte)} {k : Nat} {x : List Byte}
    (h : xs <+: ys) (hk : xs[k]? = some x) : ys[k]? = some x := by
  obtain ⟨rest, rfl⟩ := h
  rw [List.getElem?_append_left (List.getElem?_eq_some_iff.mp hk).1, hk]

/-- Cuts into pieces of one length. -/
theorem prefix_of_flatten {cs ds : List (List Byte)} {n : Nat} (hn : 0 < n)
    (hcs : ∀ c ∈ cs, c.length = n) (hds : ∀ d ∈ ds, d.length = n)
    (h : cs.flatten <+: ds.flatten) : cs <+: ds := by
  have hle : cs.length ≤ ds.length := by
    have hlen := h.length_le
    rw [List.length_flatten, List.length_flatten, List.map_eq_replicate_iff.mpr hcs,
      List.map_eq_replicate_iff.mpr hds, List.sum_replicate_nat, List.sum_replicate_nat] at hlen
    exact Nat.le_of_mul_le_mul_right hlen hn
  obtain ⟨htake, -⟩ := take_eq_of_lengths h (Nat.le_refl _) hle
    fun k c d _ hc hd => (hcs c (List.mem_of_getElem? hc)).trans
      (hds d (List.mem_of_getElem? hd)).symm
  rw [List.take_length] at htake
  rw [htake]
  exact List.take_prefix _ _

/-- Pieces with something taken off their ends. -/
theorem flatten_map_length_le {f g : List Byte → List Byte} (h : ∀ p, f p <+: g p)
    (ps : List (List Byte)) : (ps.map f).flatten.length ≤ (ps.map g).flatten.length := by
  induction ps with
  | nil => exact Nat.le_refl _
  | cons p ps ih =>
    simp only [List.map_cons, List.flatten_cons, List.length_append]
    exact Nat.add_le_add (h p).length_le ih

/-- If nothing is missing, nothing was taken off. -/
theorem eq_of_flatten_map {f g : List Byte → List Byte} (h : ∀ p, f p <+: g p)
    (heq : (ps.map f).flatten = (ps.map g).flatten) : ∀ p ∈ ps, f p = g p := by
  induction ps with
  | nil => exact fun p hp => nomatch hp
  | cons p ps ih =>
    have hrest := flatten_map_length_le h ps
    have hp := (h p).length_le
    have hlen := congrArg List.length heq
    simp only [List.map_cons, List.flatten_cons, List.length_append] at heq hlen
    have hfirst : f p = g p := (h p).eq_of_length (by omega)
    rw [hfirst, List.append_cancel_left_eq] at heq
    intro q hq
    rcases List.mem_cons.mp hq with rfl | hq
    · exact hfirst
    · exact ih heq q hq

theorem dvd_flatten_length {cs : List (List Byte)} {n : Nat} (hcs : ∀ c ∈ cs, c.length = n) :
    n ∣ cs.flatten.length := by
  rw [List.length_flatten, List.map_eq_replicate_iff.mpr hcs, List.sum_replicate_nat]
  exact Nat.dvd_mul_left _ _

/-! ## Doubling -/

/-- Every piece twice in a row. -/
def doubled (ps : List (List Byte)) : List Byte := ps.flatMap fun p => p ++ p

/-- One line, or several copies of it. -/
def Copies (p : List Byte) : Prop := ∃ l, IsLine l ∧ ∃ k, p = (List.replicate k l).flatten

@[simp] theorem doubled_nil : doubled [] = [] := rfl

@[simp] theorem doubled_cons (p : List Byte) (ps : List (List Byte)) :
    doubled (p :: ps) = p ++ p ++ doubled ps := rfl

@[simp] theorem doubled_append (ps qs : List (List Byte)) :
    doubled (ps ++ qs) = doubled ps ++ doubled qs := List.flatMap_append

theorem doubled_length (ps : List (List Byte)) : (doubled ps).length = 2 * ps.flatten.length := by
  induction ps with
  | nil => rfl
  | cons p ps ih =>
    rw [doubled_cons, List.flatten_cons, List.length_append, List.length_append, ih,
      List.length_append]
    omega

theorem flatten_pairs (ps : List (List Byte)) :
    (ps.flatMap fun p => [p, p]).flatten = doubled ps := by
  induction ps with
  | nil => rfl
  | cons p ps ih =>
    rw [List.flatMap_cons, List.flatten_append, ih, doubled_cons]
    simp

theorem doubled_prefix (h : ps <+: ls) : doubled ps <+: doubled ls := by
  obtain ⟨rest, rfl⟩ := h
  rw [doubled_append]
  exact List.prefix_append _ _

theorem IsLine.copies (h : IsLine l) : Copies l := ⟨l, h, 1, by simp⟩

theorem copies_nil : Copies [] := ⟨[newline], by decide, 0, rfl⟩

theorem replicate_flatten_add (l : List Byte) (k m : Nat) :
    (List.replicate k l).flatten ++ (List.replicate m l).flatten =
      (List.replicate (k + m) l).flatten := by
  rw [← List.flatten_append, List.replicate_append_replicate]

theorem doubled_replicate (l : List Byte) (k : Nat) : doubled (List.replicate k l) =
    (List.replicate k l).flatten ++ (List.replicate k l).flatten := by
  rw [replicate_flatten_add]
  induction k with
  | zero => rfl
  | succ k ih =>
    rw [List.replicate_succ, doubled_cons, ih, show k + 1 + (k + 1) = k + k + 1 + 1 by omega,
      List.replicate_succ, List.replicate_succ, List.flatten_cons, List.flatten_cons,
      List.append_assoc]

/-- Pieces of this kind have the lines of their text in them, and double them. -/
theorem exists_lines_of_copies (h : ∀ p ∈ ps, Copies p) : ∃ ls, (∀ l ∈ ls, IsLine l) ∧
    ls.flatten = ps.flatten ∧ doubled ls = doubled ps ∧
      ∀ l ∈ ls, ∃ p ∈ ps, l.length ≤ p.length := by
  induction ps with
  | nil => exact ⟨[], by simp, rfl, rfl, by simp⟩
  | cons p ps ih =>
    obtain ⟨l, hl, k, hp⟩ := h p List.mem_cons_self
    obtain ⟨ls, hls, htext, hdouble, hlen⟩ := ih fun q hq => h q (List.mem_cons_of_mem _ hq)
    refine ⟨List.replicate k l ++ ls, ?_, ?_, ?_, ?_⟩
    · intro x hx
      rcases List.mem_append.mp hx with hx | hx
      · rwa [(List.mem_replicate.mp hx).2]
      · exact hls x hx
    · rw [List.flatten_append, htext, List.flatten_cons, hp]
    · rw [doubled_append, doubled_replicate, hdouble, doubled_cons, hp]
    · intro x hx
      rcases List.mem_append.mp hx with hx | hx
      · obtain ⟨hk, rfl⟩ := List.mem_replicate.mp hx
        obtain ⟨k, rfl⟩ := Nat.exists_eq_succ_of_ne_zero hk
        refine ⟨p, List.mem_cons_self, ?_⟩
        rw [hp, List.replicate_succ, List.flatten_cons, List.length_append]
        exact Nat.le_add_right _ _
      · obtain ⟨q, hq, hle⟩ := hlen x hx
        exact ⟨q, List.mem_cons_of_mem _ hq, hle⟩

/-- Doubling the pieces does not move the first newline to the front. -/
theorem idxOf_flatten_le (ps : List (List Byte)) :
    ps.flatten.idxOf newline ≤ (doubled ps).idxOf newline := by
  induction ps with
  | nil => exact Nat.le_refl _
  | cons p ps ih =>
    rw [List.flatten_cons, doubled_cons, List.append_assoc]
    by_cases hp : newline ∈ p
    · rw [idxOf_append_left hp, idxOf_append_left hp]
    · rw [idxOf_append_right hp, idxOf_append_right hp, idxOf_append_right hp]
      omega

/-- A text `p` that a line `l` can be moved across, into copies of itself and doubled
lines that `p` begins, is made of copies of `l`. -/
theorem copies_of_shift (hl : IsLine l) (ls : List (List Byte)) :
    ∀ (p tail : List Byte) (m : Nat), (∀ x ∈ ls, IsLine x) → p <+: ls.flatten →
      p ++ (l ++ tail) = (List.replicate (m + 1) l).flatten ++ doubled ls →
        ∃ k, p = (List.replicate k l).flatten := by
  induction ls with
  | nil =>
    intro p tail m _ hp _
    exact ⟨0, List.prefix_nil.mp hp⟩
  | cons x ls ih =>
    intro p tail m hls hp heq
    have hx := hls x List.mem_cons_self
    rw [List.replicate_succ, List.flatten_cons, List.append_assoc] at heq
    by_cases hmem : newline ∈ p
    · obtain ⟨q, rfl, hq⟩ := hx.prefix_of_mem hp hmem
      rw [List.append_assoc] at heq
      obtain ⟨rfl, heq⟩ := hx.append_inj hl heq
      -- the doubled line in front joins the copies
      have hjoin : q ++ (x ++ tail) = (List.replicate (m + 1 + 1) x).flatten ++ doubled ls := by
        rw [heq, doubled_cons, ← List.append_assoc, ← List.append_assoc,
          show m + 1 + 1 = m + 2 from rfl, ← replicate_flatten_add]
        simp
      obtain ⟨k, rfl⟩ := ih q tail (m + 1) (fun y hy => hls y (List.mem_cons_of_mem _ hy)) hq hjoin
      exact ⟨k + 1, rfl⟩
    · have hidx := congrArg (List.idxOf newline) heq
      rw [idxOf_append_right hmem, idxOf_append_left hl.mem, idxOf_append_left hl.mem] at hidx
      exact ⟨0, List.eq_nil_of_length_eq_zero (by omega)⟩

/-- **Which cuts double the lines.** -/
theorem doubled_eq_iff (hls : ∀ l ∈ ls, IsLine l) (hps : ∀ p ∈ ps, p ≠ [])
    (hcut : ps.flatten = ls.flatten) : doubled ps = doubled ls ↔ ∀ p ∈ ps, Copies p := by
  constructor
  · intro h
    induction ps generalizing ls with
    | nil => exact fun p hp => nomatch hp
    | cons p ps ih =>
      have hne := hps p List.mem_cons_self
      cases ls with
      | nil => exact absurd (List.append_eq_nil_iff.mp hcut).1 hne
      | cons x ls =>
        have hx := hls x List.mem_cons_self
        have hmem : newline ∈ p := by
          by_contra hmem
          have h₁ := congrArg (List.idxOf newline) h
          have h₂ := congrArg (List.idxOf newline) hcut
          rw [doubled_cons, doubled_cons, List.append_assoc, List.append_assoc,
            idxOf_append_right hmem, idxOf_append_right hmem, idxOf_append_left hx.mem] at h₁
          rw [List.flatten_cons, List.flatten_cons, idxOf_append_right hmem,
            idxOf_append_left hx.mem] at h₂
          have h₃ := idxOf_flatten_le ps
          have h₄ := List.length_pos_iff.mpr hne
          omega
        obtain ⟨q, rfl, hq⟩ := hx.prefix_of_mem ⟨_, hcut⟩ hmem
        have hshift : q ++ (x ++ (q ++ doubled ps)) =
            (List.replicate (0 + 1) x).flatten ++ doubled ls := by
          have h := h
          rw [doubled_cons, doubled_cons] at h
          simpa using h
        obtain ⟨k, rfl⟩ := copies_of_shift hx ls q _ 0
          (fun y hy => hls y (List.mem_cons_of_mem _ hy)) hq hshift
        have hp : x ++ (List.replicate k x).flatten = (List.replicate (k + 1) x).flatten := rfl
        rw [hp] at hcut h ⊢
        -- the lines of this piece are the first `k + 1` lines of the text
        obtain ⟨rest, hrest⟩ : List.replicate (k + 1) x <+: x :: ls :=
          lines_prefix (fun y hy => (List.mem_replicate.mp hy).2 ▸ hx) hls ⟨_, hcut⟩
        rw [← hrest] at hcut h hls
        rw [List.flatten_cons, List.flatten_append, List.append_cancel_left_eq] at hcut
        rw [doubled_cons, doubled_append, doubled_replicate, List.append_cancel_left_eq] at h
        intro q hq
        rcases List.mem_cons.mp hq with rfl | hq
        · exact ⟨x, hx, k + 1, rfl⟩
        · exact ih (fun y hy => hls y (List.mem_append_right _ hy))
            (fun y hy => hps y (List.mem_cons_of_mem _ hy)) hcut h q hq
  · intro h
    obtain ⟨ls', hls', htext, hdouble, -⟩ := exists_lines_of_copies h
    rw [← hdouble, lines_inj hls' hls (htext.trans hcut)]

end PosixNet
