import PosixNet.LabelledRun

/-!
# Who sets up the file

`mysem_open` of `my_pxsem_mmap` and `mymq_open` of `my_pxmsg_mmap`, by any number of calls for
one name.  With `O_CREAT` the first call creates the file, with its user-execute bit on, sets
it up, and turns the bit off.  The others open the file they find under the name, and wait until
the bit of **the file under the name** is off.  A call that cannot set its file up removes the
name, and so does `mysem_unlink`; a call that finds no file starts over.

* **`one_semaphore`**: unless the name is removed all calls return the same file, set up by the
  one that created it.
* **`unready_iff`**: else a call may return a file that is not set up, exactly if there are three
  calls of the right kinds: the name may be given to another file while the call waits.
* **`calls_le`**: how many steps a call takes.

The two functions differ in when they map the file, and in what they put into it.
-/
namespace PosixNet.MmapOpen

/-- The rounds a call waits for the file to be set up. -/
def MAX_TRIES : ℕ := 10

/-- `oflag`, and what the file is to be set up with. -/
structure Args where
  creat : Bool
  excl : Bool
  value : ℕ
  /-- The value is `SEM_VALUE_MAX` at most; or the attributes are positive. -/
  valid : Bool

/-- The files that were ever created under the name, by number. -/
structure Files where
  /-- The one that has the name. -/
  path : Option ℕ
  made : ℕ
  /-- `S_IXUSR` -/
  xusr : ℕ → Bool
  /-- What a file was set up with. -/
  content : ℕ → Option ℕ

/-- Where a call of `mysem_open` or `mymq_open` is. -/
inductive Place where
  | again
  /-- Behind the `open` that has created the file. -/
  | created (fd : ℕ)
  /-- In front of `fchmod`. -/
  | chmod (fd : ℕ)
  /-- At `err`, with `created` set. -/
  | failing
  /-- At `exists`. -/
  | existing
  /-- In the loop, after `i` tries. -/
  | waiting (fd i : ℕ)
  | opened (fd : ℕ)
  | failed
  deriving DecidableEq

/-- What a call did in a step. -/
inductive Did where
  | created (fd : ℕ)
  | setUp
  | finished (fd : ℕ)
  /-- The file could not be set up. -/
  | broke
  /-- `unlink`, at `err`. -/
  | gaveUp
  | existed
  | found (fd : ℕ)
  | tried
  /-- There is no file under the name any more. -/
  | gone
  | opened (fd : ℕ)
  | failed
  deriving DecidableEq

namespace Files
variable (fs : Files)

/-- The umask lets `S_IXUSR` pass. -/
def create : Files where
  path := some fs.made
  made := fs.made + 1
  xusr := Function.update fs.xusr fs.made true
  content := Function.update fs.content fs.made none

/-- `fd` holds what its creator wanted. -/
def setUp (fd value : ℕ) : Files :=
  { fs with content := Function.update fs.content fd (some value) }

/-- `S_IXUSR` of `fd` is turned off. -/
def chmod (fd : ℕ) : Files := { fs with xusr := Function.update fs.xusr fd false }

/-- The name is removed; the file stays for those that have it open. -/
def unlink : Files := { fs with path := none }

end Files

variable (a : Args) (fs : Files)

/-- From `exists` on. -/
def openExisting : Did × Files × Place :=
  match fs.path with
  | none => if a.creat then (.gone, fs, .again) else (.failed, fs, .failed)
  | some fd => (.found fd, fs, .waiting fd 0)

/-- A round of the loop. -/
def await (fd i : ℕ) : Did × Files × Place :=
  match fs.path with
  | none => if a.creat then (.gone, fs, .again) else (.failed, fs, .failed)
  | some g =>
    if fs.xusr g then
      if i + 1 < MAX_TRIES then (.tried, fs, .waiting fd (i + 1)) else (.failed, fs, .failed)
    else (.opened fd, fs, .opened fd)

/-- What a call does next, if it gets no error but for the name. -/
def next : Place → Option (Did × Files × Place)
  | .again =>
    if a.creat then
      match fs.path with
      | none => some (.created fs.made, fs.create, .created fs.made)
      | some _ =>
        if a.excl then some (.failed, fs, .failed) else some (.existed, fs, .existing)
    else some (openExisting a fs)
  | .existing => some (openExisting a fs)
  | .created fd =>
    if a.valid then some (.setUp, fs.setUp fd a.value, .chmod fd) else some (.broke, fs, .failing)
  | .chmod fd => some (.finished fd, fs.chmod fd, .opened fd)
  | .failing => some (.gaveUp, fs.unlink, .failed)
  | .waiting fd i => some (await a fs fd i)
  | .opened _ | .failed => none

/-- A step fails. -/
def error : Place → Option (Did × Files × Place)
  | .created _ | .chmod _ => some (.broke, fs, .failing)
  | .again | .existing | .waiting _ _ => some (.failed, fs, .failed)
  | .failing | .opened _ | .failed => none

variable {ι : Type} [DecidableEq ι]

/-- The files, and where every call is. -/
structure State (ι : Type) where
  files : Files
  place : ι → Place

/-- A scheduler's choice: the call that goes on or fails, or that the name is removed. -/
inductive Act (ι : Type) where
  | next (i : ι)
  | error (i : ι)
  /-- `mysem_unlink` -/
  | unlink

/-- What happened. -/
inductive Event (ι : Type) where
  | did (i : ι) (d : Did)
  | unlinked
  deriving DecidableEq

/-- Call `i` has got to `p`. -/
def State.put (s : State ι) (i : ι) (fs : Files) (p : Place) : State ι :=
  ⟨fs, Function.update s.place i p⟩

@[simp] theorem State.put_files (s : State ι) (i : ι) (fs : Files) (p : Place) :
    (s.put i fs p).files = fs := rfl

@[simp] theorem State.put_place_self (s : State ι) (i : ι) (fs : Files) (p : Place) :
    (s.put i fs p).place i = p := Function.update_self ..

theorem State.put_place_of_ne (s : State ι) {i j : ι} (h : j ≠ i) (fs : Files) (p : Place) :
    (s.put i fs p).place j = s.place j := Function.update_of_ne h ..

/-- One step of a call, or the name removed by `mysem_unlink`. -/
def exec (args : ι → Args) : Act ι → State ι → Option (Event ι × State ι)
  | .next i, s =>
    match next (args i) s.files (s.place i) with
    | some (d, fs, p) => some (.did i d, s.put i fs p)
    | none => none
  | .error i, s =>
    match error s.files (s.place i) with
    | some (d, fs, p) => some (.did i d, s.put i fs p)
    | none => none
  | .unlink, s =>
    if s.files.path = none then none
    else some (.unlinked, { s with files := s.files.unlink })

/-- There is no file, and nobody has begun. -/
def start : State ι := ⟨⟨none, 0, fun _ => false, fun _ => none⟩, fun _ => .again⟩

abbrev Step (args : ι → Args) : State ι → Event ι → State ι → Prop := stepOf (exec args)

abbrev Trace (ι : Type) := List (State ι × Event ι)

/-! ## What a call does -/

/-- **All that a step of a call can do.** -/
inductive Calls (a : Args) (fs : Files) : Place → Did → Files → Place → Prop
  | create (hcreat : a.creat) (hpath : fs.path = none) :
      Calls a fs .again (.created fs.made) fs.create (.created fs.made)
  | existed (hexcl : a.excl = false) (hpath : fs.path ≠ none) :
      Calls a fs .again .existed fs .existing
  | found {p : Place} {fd : ℕ} (hp : p = .existing ∨ p = .again ∧ a.creat = false)
      (hpath : fs.path = some fd) : Calls a fs p (.found fd) fs (.waiting fd 0)
  | gone {p : Place} (hp : p = .existing ∨ ∃ fd i, p = .waiting fd i) (hpath : fs.path = none) :
      Calls a fs p .gone fs .again
  | setUp (fd : ℕ) (hvalid : a.valid) :
      Calls a fs (.created fd) .setUp (fs.setUp fd a.value) (.chmod fd)
  | finished (fd : ℕ) : Calls a fs (.chmod fd) (.finished fd) (fs.chmod fd) (.opened fd)
  | broke {p : Place} (hp : ∃ fd, p = .created fd ∨ p = .chmod fd) :
      Calls a fs p .broke fs .failing
  | gaveUp : Calls a fs .failing .gaveUp fs.unlink .failed
  | tried {fd g i : ℕ} (hi : i + 1 < MAX_TRIES) (hpath : fs.path = some g) :
      Calls a fs (.waiting fd i) .tried fs (.waiting fd (i + 1))
  | opened {fd g i : ℕ} (hpath : fs.path = some g) (hxusr : fs.xusr g = false) :
      Calls a fs (.waiting fd i) (.opened fd) fs (.opened fd)
  | failed {p : Place} (hp : p = .again ∨ p = .existing ∨ ∃ fd i, p = .waiting fd i) :
      Calls a fs p .failed fs .failed

variable {a fs} {p p' : Place} {d : Did} {fs' : Files}

theorem openExisting_calls (hp : p = .existing ∨ p = .again ∧ a.creat = false)
    (h : openExisting a fs = (d, fs', p')) : Calls a fs p d fs' p' := by
  rw [openExisting] at h
  split at h
  · split at h
    · rename_i hpath hcreat
      cases h
      rcases hp with hp | ⟨-, hnot⟩
      · exact .gone (.inl hp) hpath
      · rw [hcreat] at hnot
        cases hnot
    · cases h
      rcases hp with hp | ⟨hp, -⟩
      · exact .failed (.inr (.inl hp))
      · exact .failed (.inl hp)
  · rename_i hpath
    cases h
    exact .found hp hpath

theorem await_calls {fd i : ℕ} (h : await a fs fd i = (d, fs', p')) :
    Calls a fs (.waiting fd i) d fs' p' := by
  rw [await] at h
  split at h
  · rename_i hpath
    split at h
    · cases h
      exact .gone (.inr ⟨fd, i, rfl⟩) hpath
    · cases h
      exact .failed (.inr (.inr ⟨fd, i, rfl⟩))
  · rename_i g hpath
    split at h
    · split at h
      · cases h
        exact .tried ‹_› hpath
      · cases h
        exact .failed (.inr (.inr ⟨fd, i, rfl⟩))
    · rename_i hxusr
      cases h
      exact .opened hpath (Bool.eq_false_of_not_eq_true hxusr)

theorem next_calls (h : next a fs p = some (d, fs', p')) : Calls a fs p d fs' p' := by
  cases p with
  | again =>
    rw [next] at h
    split at h
    · rename_i hcreat
      split at h
      · cases h
        exact .create hcreat ‹_›
      · rename_i hpath
        split at h
        · cases h
          exact .failed (.inl rfl)
        · rename_i hexcl
          cases h
          exact .existed (Bool.eq_false_of_not_eq_true hexcl) (by rw [hpath]; simp)
    · rename_i hcreat
      exact openExisting_calls (.inr ⟨rfl, Bool.eq_false_of_not_eq_true hcreat⟩) (Option.some.inj h)
  | existing => exact openExisting_calls (.inl rfl) (Option.some.inj h)
  | created fd =>
    rw [next] at h
    split at h
    · cases h
      exact .setUp fd ‹_›
    · cases h
      exact .broke ⟨fd, .inl rfl⟩
  | chmod fd =>
    cases h
    exact .finished fd
  | failing =>
    cases h
    exact .gaveUp
  | waiting fd i => exact await_calls (Option.some.inj h)
  | opened | failed => cases h

theorem error_calls (h : error fs p = some (d, fs', p')) : Calls a fs p d fs' p' := by
  cases p with
  | created fd =>
    cases h
    exact .broke ⟨fd, .inl rfl⟩
  | chmod fd =>
    cases h
    exact .broke ⟨fd, .inr rfl⟩
  | again =>
    cases h
    exact .failed (.inl rfl)
  | existing =>
    cases h
    exact .failed (.inr (.inl rfl))
  | waiting fd i =>
    cases h
    exact .failed (.inr (.inr ⟨fd, i, rfl⟩))
  | failing | opened | failed => cases h

/-- **All that a step can do.** -/
inductive Moves (args : ι → Args) (s : State ι) : Event ι → State ι → Prop
  | call (i : ι) {d : Did} {fs : Files} {p : Place}
      (h : Calls (args i) s.files (s.place i) d fs p) : Moves args s (.did i d) (s.put i fs p)
  | unlink (hpath : s.files.path ≠ none) :
      Moves args s .unlinked { s with files := s.files.unlink }

variable {args : ι → Args} {s s' : State ι} {e : Event ι}

theorem moves (h : Step args s e s') : Moves args s e s' := by
  obtain ⟨act, h⟩ := h
  cases act with
  | next i =>
    rw [exec] at h
    split at h
    · cases h
      exact .call i (next_calls ‹_›)
    · cases h
  | error i =>
    rw [exec] at h
    split at h
    · cases h
      exact .call i (error_calls ‹_›)
    · cases h
  | unlink =>
    rw [exec] at h
    split at h
    · cases h
    · cases h
      exact .unlink ‹_›

/-! ## The books -/

def creator? : Event ι → Option ι
  | .did i (.created _) => some i
  | _ => none

/-- The calls that have created a file, in the order of the files. -/
def creators (tr : Trace ι) : List ι := (labels tr).filterMap creator?

/-- What is known of call `i`, from the place where it is. -/
def Place.At (a : Args) (cs : List ι) (fs : Files) (i : ι) : Place → Prop
  | .again => i ∉ cs
  | .existing => i ∉ cs ∧ (a.creat → a.excl = false)
  | .waiting fd k => i ∉ cs ∧ (a.creat → a.excl = false) ∧ fd < fs.made ∧ k < MAX_TRIES
  | .created fd => cs[fd]? = some i ∧ fs.xusr fd = true
  | .chmod fd => cs[fd]? = some i ∧ fs.xusr fd = true ∧ fs.content fd ≠ none
  | .opened fd => fd < fs.made ∧ (a.creat → a.excl → cs[fd]? = some i)
  | .failing | .failed => True

/-- **What the files and the calls agree on**: who created which file, and how far it has got. -/
structure Books (args : ι → Args) (tr : Trace ι) (s : State ι) : Prop where
  length : (creators tr).length = s.files.made
  nodup : (creators tr).Nodup
  creat : ∀ c ∈ creators tr, (args c).creat
  path : ∀ f, s.files.path = some f → f < s.files.made
  ready : ∀ f < s.files.made, s.files.xusr f = false → s.files.content f ≠ none
  content : ∀ f < s.files.made, ∀ v, s.files.content f = some v →
    ∃ c, (creators tr)[f]? = some c ∧ v = (args c).value ∧ (args c).valid
  call : ∀ i, (s.place i).At (args i) (creators tr) s.files i

omit [DecidableEq ι] in
/-- A call that another one does not get in the way of. -/
theorem Place.At.other {cs : List ι} {j : ι} {a : Args} {p : Place} {fs fs' : Files}
    (h : p.At a cs fs j) (hmade : fs.made ≤ fs'.made) (new : List ι) (hnew : j ∉ new)
    (hfiles : ∀ fd, cs[fd]? = some j → fs'.xusr fd = fs.xusr fd ∧ fs'.content fd = fs.content fd) :
    p.At a (cs ++ new) fs' j := by
  have hnot : j ∉ cs → j ∉ cs ++ new := fun h hj => (List.mem_append.mp hj).elim h hnew
  have hget : ∀ fd, cs[fd]? = some j → (cs ++ new)[fd]? = some j := fun fd h =>
    (List.getElem?_append_left (List.getElem?_eq_some_iff.mp h).1).trans h
  cases p with
  | again => exact hnot h
  | existing => exact ⟨hnot h.1, h.2⟩
  | waiting fd k => exact ⟨hnot h.1, h.2.1, h.2.2.1.trans_le hmade, h.2.2.2⟩
  | created fd => exact ⟨hget fd h.1, (hfiles fd h.1).1.trans h.2⟩
  | chmod fd =>
    obtain ⟨hx, hc⟩ := hfiles fd h.1
    exact ⟨hget fd h.1, hx.trans h.2.1, hc ▸ h.2.2⟩
  | opened fd => exact ⟨h.1.trans_le hmade, fun h₁ h₂ => hget fd (h.2 h₁ h₂)⟩
  | failing | failed => trivial

omit [DecidableEq ι] in
/-- The same where no file is created. -/
theorem Place.At.same {cs : List ι} {j : ι} {a : Args} {p : Place} {fs fs' : Files}
    (h : p.At a cs fs j) (hmade : fs.made ≤ fs'.made)
    (hfiles : ∀ fd, cs[fd]? = some j → fs'.xusr fd = fs.xusr fd ∧ fs'.content fd = fs.content fd) :
    p.At a cs fs' j := by
  have hother := h.other hmade [] List.not_mem_nil hfiles
  rwa [List.append_nil] at hother

omit [DecidableEq ι] in
theorem creators_snoc (tr : Trace ι) (s : State ι) (e : Event ι) :
    creators (tr ++ [(s, e)]) = creators tr ++ (creator? e).toList :=
  filterMap_labels_snoc ..

omit [DecidableEq ι] in
theorem creators_snoc_of_none (tr : Trace ι) (s : State ι) {e : Event ι}
    (he : creator? e = none) : creators (tr ++ [(s, e)]) = creators tr := by
  rw [creators_snoc, he, Option.toList_none, List.append_nil]

variable {tr : Trace ι} {t : State ι} {i : ι}

omit [DecidableEq ι] in
/-- Who is at `again`, or at `exists`, or in the loop, has not created a file. -/
theorem Books.not_creator (h : Books args tr s)
    (hp : s.place i = .again ∨ s.place i = .existing ∨ ∃ fd k, s.place i = .waiting fd k) :
    i ∉ creators tr := by
  have hat := h.call i
  rcases hp with hp | hp | ⟨fd, k, hp⟩ <;> rw [hp] at hat
  · exact hat
  · exact hat.1
  · exact hat.1

omit [DecidableEq ι] in
theorem Books.exists_creator (h : Books args tr s) {f : ℕ} (hf : f < s.files.made) :
    ∃ c, (creators tr)[f]? = some c :=
  ⟨_, List.getElem?_eq_getElem (h.length ▸ hf)⟩

/-- A step that leaves the files as they are, but for the name. -/
theorem Books.keep (h : Books args tr s) {fs : Files} {p : Place} {d : Did}
    (hd : creator? (.did i d) = none) (hmade : fs.made = s.files.made)
    (hxusr : fs.xusr = s.files.xusr) (hcontent : fs.content = s.files.content)
    (hpath : ∀ f, fs.path = some f → f < s.files.made)
    (hp : p.At (args i) (creators tr) s.files i) :
    Books args (tr ++ [(s, .did i d)]) (s.put i fs p) := by
  have hcs := creators_snoc_of_none tr s hd
  have hat : ∀ {q : Place} {j : ι}, q.At (args j) (creators tr) s.files j →
      q.At (args j) (creators tr) fs j := fun hq =>
    hq.same hmade.ge fun fd _ => ⟨congrFun hxusr fd, congrFun hcontent fd⟩
  constructor
  · rw [hcs, h.length, State.put_files, hmade]
  · rw [hcs]
    exact h.nodup
  · rw [hcs]
    exact h.creat
  · rw [State.put_files, hmade]
    exact hpath
  · rw [State.put_files, hmade, hxusr, hcontent]
    exact h.ready
  · rw [hcs, State.put_files, hmade, hcontent]
    exact h.content
  · intro j
    rw [hcs, State.put_files]
    by_cases hj : j = i
    · subst hj
      rw [State.put_place_self]
      exact hat hp
    · rw [State.put_place_of_ne s hj]
      exact hat (h.call j)

theorem Books.create (h : Books args tr s) (hp : s.place i = .again) (hcreat : (args i).creat) :
    Books args (tr ++ [(s, .did i (.created s.files.made))])
      (s.put i s.files.create (.created s.files.made)) := by
  have hcs : creators (tr ++ [(s, .did i (.created s.files.made))]) = creators tr ++ [i] :=
    creators_snoc ..
  have hnot : i ∉ creators tr := h.not_creator (.inl hp)
  have hold : ∀ f < s.files.made, s.files.create.xusr f = s.files.xusr f ∧
      s.files.create.content f = s.files.content f := fun f hf =>
    ⟨Function.update_of_ne hf.ne .., Function.update_of_ne hf.ne ..⟩
  constructor
  · rw [hcs, List.length_append, h.length]
    rfl
  · rw [hcs]
    exact List.nodup_append.mpr ⟨h.nodup, List.nodup_singleton i, fun x hx y hy =>
      List.mem_singleton.mp hy ▸ ne_of_mem_of_not_mem hx hnot⟩
  · rw [hcs]
    intro c hc
    rcases List.mem_append.mp hc with hc | hc
    · exact h.creat c hc
    · rw [List.mem_singleton.mp hc]
      exact hcreat
  · intro f hf
    obtain rfl := Option.some.inj hf
    exact Nat.lt_succ_self _
  · intro f hf hxusr
    by_cases hnew : f = s.files.made
    · subst hnew
      have htrue : s.files.create.xusr s.files.made = true := Function.update_self ..
      exact absurd hxusr (by rw [State.put_files, htrue]; simp)
    · have hlt : f < s.files.made := by
        have : f < s.files.made + 1 := hf
        omega
      obtain ⟨hx, hc⟩ := hold f hlt
      rw [State.put_files, hc]
      exact h.ready f hlt (hx ▸ hxusr)
  · intro f hf v hv
    by_cases hnew : f = s.files.made
    · subst hnew
      have hnone : s.files.create.content s.files.made = none := Function.update_self ..
      rw [State.put_files, hnone] at hv
      cases hv
    · have hlt : f < s.files.made := by
        have : f < s.files.made + 1 := hf
        omega
      rw [State.put_files, (hold f hlt).2] at hv
      obtain ⟨c, hc, hvalue⟩ := h.content f hlt v hv
      rw [hcs]
      exact ⟨c, (List.getElem?_append_left (List.getElem?_eq_some_iff.mp hc).1).trans hc, hvalue⟩
  · intro j
    rw [hcs, State.put_files]
    by_cases hj : j = i
    · subst hj
      rw [State.put_place_self]
      refine ⟨?_, Function.update_self ..⟩
      rw [← h.length]
      exact List.getElem?_concat_length
    · rw [State.put_place_of_ne s hj]
      refine (h.call j).other (Nat.le_succ _) [i] (by simpa using hj) fun fd hfd => hold fd ?_
      rw [← h.length]
      exact (List.getElem?_eq_some_iff.mp hfd).1

/-- A step that changes the file its call has created, and no other. -/
theorem Books.own (h : Books args tr s) {fs : Files} {p : Place} {d : Did} {fd : ℕ}
    (hd : creator? (.did i d) = none) (howner : (creators tr)[fd]? = some i)
    (hpath : fs.path = s.files.path) (hmade : fs.made = s.files.made)
    (hothers : ∀ f ≠ fd, fs.xusr f = s.files.xusr f ∧ fs.content f = s.files.content f)
    (hready : fs.content fd ≠ none)
    (hvalue : ∀ v, fs.content fd = some v → v = (args i).value ∧ (args i).valid)
    (hp : p.At (args i) (creators tr) fs i) :
    Books args (tr ++ [(s, .did i d)]) (s.put i fs p) := by
  have hcs := creators_snoc_of_none tr s hd
  constructor
  · rw [hcs, h.length, State.put_files, hmade]
  · rw [hcs]
    exact h.nodup
  · rw [hcs]
    exact h.creat
  · rw [State.put_files, hmade, hpath]
    exact h.path
  · rw [State.put_files, hmade]
    intro f hf hxusr
    by_cases hfd : f = fd
    · exact hfd ▸ hready
    · obtain ⟨hx, hc⟩ := hothers f hfd
      rw [hc]
      exact h.ready f hf (hx ▸ hxusr)
  · rw [hcs, State.put_files, hmade]
    intro f hf v hv
    by_cases hfd : f = fd
    · subst hfd
      exact ⟨i, howner, hvalue v hv⟩
    · rw [(hothers f hfd).2] at hv
      exact h.content f hf v hv
  · intro j
    rw [hcs, State.put_files]
    by_cases hj : j = i
    · subst hj
      rw [State.put_place_self]
      exact hp
    · rw [State.put_place_of_ne s hj]
      refine (h.call j).same hmade.ge fun f hf => hothers f ?_
      rintro rfl
      rw [howner] at hf
      exact hj (Option.some.inj hf).symm

omit [DecidableEq ι] in
theorem Books.unlink (h : Books args tr s) :
    Books args (tr ++ [(s, .unlinked)]) { s with files := s.files.unlink } := by
  have hcs : creators (tr ++ [(s, .unlinked)]) = creators tr := creators_snoc_of_none tr s rfl
  refine ⟨?_, ?_, ?_, fun f hf => ?_, h.ready, ?_, ?_⟩
  · rw [hcs]
    exact h.length
  · rw [hcs]
    exact h.nodup
  · rw [hcs]
    exact h.creat
  · cases hf
  · rw [hcs]
    exact h.content
  · rw [hcs]
    intro j
    exact (h.call j).same le_rfl fun _ _ => ⟨rfl, rfl⟩

/-- **What a call does keeps the books.** -/
theorem Books.after (h : Books args tr s) {d : Did} {fs : Files} {p : Place}
    (hc : Calls (args i) s.files (s.place i) d fs p) :
    Books args (tr ++ [(s, .did i d)]) (s.put i fs p) := by
  have hat := h.call i
  have hnot := h.not_creator (i := i)
  generalize hq : s.place i = q at hc hat hnot
  cases hc with
  | create hcreat => exact h.create hq hcreat
  | existed hexcl => exact h.keep rfl rfl rfl rfl h.path ⟨hat, fun _ => hexcl⟩
  | @found _ fd hp hpath =>
    refine h.keep rfl rfl rfl rfl h.path ⟨hnot (hp.elim (.inr ∘ .inl) fun hp => .inl hp.1), ?_,
      h.path fd hpath, by decide⟩
    rcases hp with rfl | ⟨-, hcreat⟩
    · exact hat.2
    · intro hcreat'
      rw [hcreat] at hcreat'
      cases hcreat'
  | gone hp => exact h.keep rfl rfl rfl rfl h.path (hnot (.inr hp))
  | setUp fd hvalid =>
    refine h.own rfl hat.1 rfl rfl (fun f hf => ⟨rfl, Function.update_of_ne hf ..⟩) ?_ ?_
      ⟨hat.1, hat.2, ?_⟩
    · simp [Files.setUp]
    · intro v hv
      have hv' : some (args i).value = some v := by simpa [Files.setUp] using hv
      exact ⟨(Option.some.inj hv').symm, hvalid⟩
    · simp [Files.setUp]
  | finished fd =>
    have hlt : fd < s.files.made := by
      rw [← h.length]
      exact (List.getElem?_eq_some_iff.mp hat.1).1
    refine h.own rfl hat.1 rfl rfl (fun f hf => ⟨Function.update_of_ne hf .., rfl⟩) hat.2.2 ?_
      ⟨hlt, fun _ _ => hat.1⟩
    intro v hv
    obtain ⟨c, hc, hvalue⟩ := h.content fd hlt v hv
    rw [hat.1] at hc
    rwa [Option.some.inj hc]
  | broke => exact h.keep rfl rfl rfl rfl h.path trivial
  | gaveUp => exact h.keep rfl rfl rfl rfl (fun f hf => by cases hf) trivial
  | tried hi => exact h.keep rfl rfl rfl rfl h.path ⟨hat.1, hat.2.1, hat.2.2.1, hi⟩
  | opened =>
    refine h.keep rfl rfl rfl rfl h.path ⟨hat.2.2.1, fun hcreat hexcl => ?_⟩
    rw [hat.2.1 hcreat] at hexcl
    cases hexcl
  | failed => exact h.keep rfl rfl rfl rfl h.path trivial

theorem books_run (run : Run (Step args) start tr t) : Books args tr t := by
  refine run.invariant (I := Books args) ?_ fun tr s e s' _ h hs => ?_
  · refine ⟨rfl, List.nodup_nil, fun c hc => absurd hc List.not_mem_nil, ?_,
      fun f hf => absurd hf (Nat.not_lt_zero f), fun f hf => absurd hf (Nat.not_lt_zero f),
      fun i => List.not_mem_nil⟩
    intro f hf
    cases hf
  · cases moves hs with
    | call i hc => exact h.after hc
    | unlink => exact h.unlink

/-! ## The name is not removed -/

/-- `unlink` is called. -/
def Event.Unlinks : Event ι → Bool
  | .unlinked | .did _ .gaveUp => true
  | .did _ _ => false

/-- `unlink` is called while there is a file under the name. -/
def Removal (x : State ι × Event ι) : Bool := x.2.Unlinks && x.1.files.path.isSome

/-- How often the name was removed. -/
def removals (tr : Trace ι) : ℕ := tr.countP Removal

omit [DecidableEq ι] in
theorem removals_snoc (tr : Trace ι) (s : State ι) (e : Event ι) :
    removals (tr ++ [(s, e)]) = removals tr + if Removal (s, e) then 1 else 0 := by
  rw [removals, List.countP_append, List.countP_singleton]
  rfl

/-- A file that is set up stays so. -/
theorem Calls.content_ne (h : Calls a fs p d fs' p') {f : ℕ} (hf : f < fs.made)
    (hc : fs.content f ≠ none) : fs'.content f ≠ none := by
  cases h with
  | create =>
    show Function.update fs.content fs.made none f ≠ none
    rwa [Function.update_of_ne hf.ne]
  | setUp fd =>
    by_cases hfd : f = fd
    · simp [Files.setUp, hfd]
    · show Function.update fs.content fd (some a.value) f ≠ none
      rwa [Function.update_of_ne hfd]
  | _ => exact hc

/-- Unless the name is removed there is one file, and nobody gets it before it is set up. -/
theorem kept_run (run : Run (Step args) start tr t) (hkept : removals tr = 0) :
    (t.files.made = 0 ∧ t.files.path = none ∨ t.files.made = 1 ∧ t.files.path = some 0) ∧
      ∀ i fd, t.place i = .opened fd → t.files.content fd ≠ none := by
  revert hkept
  refine run.invariant (I := fun tr (t : State ι) => removals tr = 0 →
    (t.files.made = 0 ∧ t.files.path = none ∨ t.files.made = 1 ∧ t.files.path = some 0) ∧
      ∀ i fd, t.place i = .opened fd → t.files.content fd ≠ none) ?_ ?_
  · exact fun _ => ⟨.inl ⟨rfl, rfl⟩, fun i fd h => by cases h⟩
  intro tr u e u' hrun ih hs hkept
  have hbooks := books_run hrun
  rw [removals_snoc] at hkept
  obtain ⟨hone, hopened⟩ := ih (by omega)
  cases moves hs with
  | @call i d fs p hc =>
    have hat := hbooks.call i
    refine ⟨?_, fun j fd hj => ?_⟩
    · rw [State.put_files]
      generalize u.place i = q at hc
      cases hc with
      | create _ hpath =>
        rcases hone with ⟨hmade, -⟩ | ⟨-, hsome⟩
        · exact .inr (by simp [Files.create, hmade])
        · rw [hpath] at hsome
          cases hsome
      | gaveUp =>
        -- the name is there unless there was no file yet
        obtain ⟨-, hnone⟩ : removals tr = 0 ∧ u.files.path = none := by
          simpa [Removal, Event.Unlinks] using hkept
        rcases hone with ⟨hmade, -⟩ | ⟨-, hsome⟩
        · exact .inl ⟨hmade, rfl⟩
        · rw [hnone] at hsome
          cases hsome
      | _ => exact hone
    · rw [State.put_files]
      by_cases hji : j = i
      · subst hji
        rw [State.put_place_self] at hj
        subst hj
        generalize u.place j = q at hc hat
        cases hc with
        | finished => exact hat.2.2
        | @opened _ g k hpath hxusr =>
          have hfd := hat.2.2.1
          have hg := hbooks.path g hpath
          have hsame : fd = g := by omega
          exact hsame ▸ hbooks.ready g hg hxusr
      · rw [State.put_place_of_ne u hji] at hj
        have hlt := hbooks.call j
        rw [hj] at hlt
        exact hc.content_ne hlt.1 (hopened j fd hj)
  | unlink hpath => exact absurd hkept (by simp [Removal, Event.Unlinks, hpath])

/-- **One semaphore for all.**  Who opens it exclusively has created it; and unless the name is
removed all calls get the same file, which one of them has created and set up. -/
theorem one_semaphore (run : Run (Step args) start tr t) :
    (∀ i fd, t.place i = .opened fd → (args i).creat → (args i).excl →
      (creators tr)[fd]? = some i) ∧
    (removals tr = 0 → ∀ i fd, t.place i = .opened fd → fd = 0 ∧
      ∃ c, creators tr = [c] ∧ (args c).creat ∧ t.files.content 0 = some (args c).value) := by
  have hbooks := books_run run
  refine ⟨fun i fd hi => ?_, fun hkept i fd hi => ?_⟩
  · have hat := hbooks.call i
    rw [hi] at hat
    exact hat.2
  · obtain ⟨hone, hopened⟩ := kept_run run hkept
    have hat := hbooks.call i
    rw [hi] at hat
    have hlt : fd < t.files.made := hat.1
    obtain rfl : fd = 0 := by omega
    have hlength : (creators tr).length = 1 := by
      rw [hbooks.length]
      omega
    obtain ⟨c, hc⟩ := List.length_eq_one_iff.mp hlength
    obtain ⟨v, hv⟩ := Option.ne_none_iff_exists'.mp (hopened i 0 hi)
    obtain ⟨c', hc', hvalue, -⟩ := hbooks.content 0 hlt v hv
    rw [hc] at hc'
    obtain rfl : c = c' := Option.some.inj hc'
    exact ⟨rfl, c, hc, hbooks.creat c (hc ▸ List.mem_singleton_self c), hvalue ▸ hv⟩

/-- Two calls with `O_CREAT`; the second one waits for the first. -/
def bothCreate : Bool → Args
  | false => ⟨true, false, 1, true⟩
  | true => ⟨true, false, 7, true⟩

/-- One call waits while the other sets the file up. -/
def waits : List (Act Bool) :=
  [.next false, .next true, .next true, .next true, .next false, .next false, .next true]

theorem one_semaphore_waits : ∃ tr, ∃ t : State Bool, Run (Step bothCreate) start tr t ∧
    (∀ i fd, t.place i = .opened fd → (bothCreate i).creat → (bothCreate i).excl →
      (creators tr)[fd]? = some i) ∧
    (removals tr = 0 → ∀ i fd, t.place i = .opened fd → fd = 0 ∧
      ∃ c, creators tr = [c] ∧ (bothCreate c).creat ∧
        t.files.content 0 = some (bothCreate c).value) := by
  have run := run_get (exec bothCreate) waits start (by decide)
  exact ⟨_, _, run, one_semaphore run⟩

/-! ## The name is removed -/

/-- Some call has got a file that is not set up. -/
def Unready (tr : Trace ι) : Prop :=
  ∃ u i fd, (u, .did i (.opened fd)) ∈ tr ∧ u.files.content fd = none

theorem step_next {p q : Place} {d : Did} {fs : Files} (hp : s.place i = p)
    (h : next (args i) s.files p = some (d, fs, q)) : Step args s (.did i d) (s.put i fs q) :=
  ⟨.next i, by rw [exec, hp, h]⟩

section
variable {x y z : ι}

/-- `x` creates the file, and `y` opens it. -/
theorem reaches_waiting (hxy : x ≠ y) (hxz : x ≠ z) (hyz : y ≠ z) (hx : (args x).creat)
    (hy : (args y).creat → (args y).excl = false) : ∃ s : State ι,
    Reaches (Step args) start s ∧ s.files = (start : State ι).files.create ∧
      s.place y = .waiting 0 0 ∧ s.place z = .again := by
  let s₀ : State ι := start
  let s₁ := s₀.put x s₀.files.create (.created 0)
  have h₁ : Step args s₀ (.did x (.created 0)) s₁ :=
    step_next rfl (by simp [next, hx, s₀, start])
  have hy₁ : s₁.place y = .again := State.put_place_of_ne _ hxy.symm ..
  have hz₁ : s₁.place z = .again := State.put_place_of_ne _ hxz.symm ..
  by_cases hcreat : (args y).creat
  · let s₂ := s₁.put y s₁.files .existing
    have h₂ : Step args s₁ (.did y .existed) s₂ :=
      step_next hy₁ (by simp [next, hcreat, hy hcreat, s₁, Files.create])
    let s₃ := s₂.put y s₂.files (.waiting 0 0)
    have h₃ : Step args s₂ (.did y (.found 0)) s₃ :=
      step_next (State.put_place_self ..)
        (by simp [next, openExisting, s₂, s₁, s₀, Files.create, start])
    refine ⟨s₃, ((Reaches.single h₁).trans (.single h₂)).trans (.single h₃), rfl,
      State.put_place_self .., ?_⟩
    rw [State.put_place_of_ne _ hyz.symm, State.put_place_of_ne _ hyz.symm, hz₁]
  · let s₂ := s₁.put y s₁.files (.waiting 0 0)
    have h₂ : Step args s₁ (.did y (.found 0)) s₂ :=
      step_next hy₁ (by simp [next, hcreat, openExisting, s₁, s₀, Files.create, start])
    refine ⟨s₂, (Reaches.single h₁).trans (.single h₂), rfl, State.put_place_self .., ?_⟩
    rw [State.put_place_of_ne _ hyz.symm, hz₁]

/-- The name is removed, `z` creates another file, and `y` finds that one ready. -/
theorem exists_unready (hxy : x ≠ y) (hxz : x ≠ z) (hyz : y ≠ z) (hx : (args x).creat)
    (hz : (args z).creat) (hvalid : (args z).valid)
    (hy : (args y).creat → (args y).excl = false) :
    ∃ tr, ∃ t : State ι, Run (Step args) start tr t ∧ Unready tr := by
  obtain ⟨s, ⟨tr, run⟩, hfiles, hwaiting, hagain⟩ := reaches_waiting hxy hxz hyz hx hy
  let s₁ : State ι := { s with files := s.files.unlink }
  have h₁ : Step args s .unlinked s₁ :=
    ⟨.unlink, by simp [exec, hfiles, Files.create, start, s₁]⟩
  let s₂ := s₁.put z s₁.files.create (.created 1)
  have h₂ : Step args s₁ (.did z (.created 1)) s₂ :=
    step_next hagain (by simp [next, hz, s₁, hfiles, Files.unlink, Files.create, start])
  let s₃ := s₂.put z (s₂.files.setUp 1 (args z).value) (.chmod 1)
  have h₃ : Step args s₂ (.did z .setUp) s₃ :=
    step_next (State.put_place_self ..) (by simp [next, hvalid, s₂])
  let s₄ := s₃.put z (s₃.files.chmod 1) (.opened 1)
  have h₄ : Step args s₃ (.did z (.finished 1)) s₄ := step_next (State.put_place_self ..) rfl
  have hy₄ : s₄.place y = .waiting 0 0 := by
    rw [State.put_place_of_ne _ hyz, State.put_place_of_ne _ hyz, State.put_place_of_ne _ hyz]
    exact hwaiting
  have hpath : s₄.files.path = some 1 := by
    simp [s₄, s₃, s₂, s₁, hfiles, Files.chmod, Files.setUp, Files.create, Files.unlink, start]
  have hxusr : s₄.files.xusr 1 = false := by simp [s₄, Files.chmod]
  have hcontent : s₄.files.content 0 = none := by
    simp [s₄, s₃, s₂, s₁, hfiles, Files.chmod, Files.setUp, Files.create, Files.unlink, start]
  have h₅ : Step args s₄ (.did y (.opened 0)) (s₄.put y s₄.files (.opened 0)) :=
    step_next hy₄ (by simp [next, await, hpath, hxusr])
  exact ⟨_, _, ((((run.snoc h₁).snoc h₂).snoc h₃).snoc h₄).snoc h₅, s₄, y, 0, by simp, hcontent⟩

end

/-- **When a call may get a file that is not set up**: if two other calls may create files, one
of them with a value in range, and it may open a file that is there. -/
theorem unready_iff : (∃ tr, ∃ t : State ι, Run (Step args) start tr t ∧ Unready tr) ↔
    ∃ x y z, x ≠ y ∧ x ≠ z ∧ y ≠ z ∧ (args x).creat ∧ (args z).creat ∧ (args z).valid ∧
      ((args y).creat → (args y).excl = false) := by
  constructor
  · rintro ⟨tr, t, run, u, y, fd, hmem, hunready⟩
    obtain ⟨pre, -, u', -, hpre, hstep, -⟩ := run.of_mem hmem
    have hbooks := books_run hpre
    have hat := hbooks.call y
    cases moves hstep with
    | call _ hc =>
      generalize hp : u.place y = p at hc hat
      cases hc with
      | @opened _ g k hpath hxusr =>
        have hg := hbooks.path g hpath
        have hready := hbooks.ready g hg hxusr
        have hne : fd ≠ g := by
          rintro rfl
          exact hready hunready
        obtain ⟨hnot, hexcl, hfd, -⟩ := hat
        obtain ⟨x, hx⟩ := hbooks.exists_creator hfd
        obtain ⟨v, hv⟩ := Option.ne_none_iff_exists'.mp hready
        obtain ⟨z, hz, -, hvalid⟩ := hbooks.content g hg v hv
        have hxmem := List.mem_of_getElem? hx
        have hzmem := List.mem_of_getElem? hz
        refine ⟨x, y, z, ne_of_mem_of_not_mem hxmem hnot, ?_,
          (ne_of_mem_of_not_mem hzmem hnot).symm, hbooks.creat x hxmem, hbooks.creat z hzmem,
          hvalid, hexcl⟩
        rintro rfl
        have hlt := (List.getElem?_eq_some_iff.mp hx).1
        exact hne ((List.getElem?_inj hlt hbooks.nodup).mp (hx.trans hz.symm))
  · rintro ⟨x, y, z, hxy, hxz, hyz, hx, hz, hvalid, hy⟩
    exact exists_unready hxy hxz hyz hx hz hvalid hy

/-! ## How long a call takes -/

/-- The event is a step of call `i`. -/
def Event.By (i : ι) : Event ι → Bool
  | .did j _ => j = i
  | .unlinked => false

/-- The steps of call `i`: each `open`, each look at the mode, the set-up, `fchmod`, `unlink`. -/
def calls (i : ι) (tr : Trace ι) : ℕ := (labels tr).countP (Event.By i)

/-- How often call `i` has started over. -/
def restarts (i : ι) (tr : Trace ι) : ℕ := (labels tr).count (.did i .gone)

/-- The steps since it last started over. -/
def Place.calls : Place → ℕ
  | .again => 0
  | .created _ | .existing => 1
  | .chmod _ => 2
  | .failing => 3
  | .waiting _ k => k + 2
  | .opened _ | .failed => MAX_TRIES + 2

theorem calls_snoc (i : ι) (tr : Trace ι) (s : State ι) (e : Event ι) :
    calls i (tr ++ [(s, e)]) = calls i tr + if e.By i then 1 else 0 := by
  rw [calls, labels_append, List.countP_append, labels_cons, labels_nil, List.countP_singleton]
  rfl

theorem restarts_snoc (i : ι) (tr : Trace ι) (s : State ι) (e : Event ι) :
    restarts i (tr ++ [(s, e)]) = restarts i tr + if e = .did i .gone then 1 else 0 := by
  rw [restarts, labels_append, List.count_append, labels_cons, labels_nil, List.count_singleton]
  simp only [beq_iff_eq]
  rfl

/-- Each step counts, unless the call starts over. -/
theorem Calls.succ_calls_le (h : Calls a fs p d fs' p')
    (hwaiting : ∀ fd k, p = .waiting fd k → k < MAX_TRIES) :
    p.calls + 1 ≤ p'.calls + if d = .gone then MAX_TRIES + 2 else 0 := by
  have hwait : ∀ fd k, p = .waiting fd k → p.calls + 1 ≤ MAX_TRIES + 2 := by
    intro fd k hp
    have hk := hwaiting fd k hp
    rw [hp, Place.calls]
    omega
  cases h with
  | create | existed | setUp | gaveUp | finished => simp [Place.calls, MAX_TRIES]
  | found hp =>
    rcases hp with rfl | ⟨rfl, -⟩ <;> simp [Place.calls]
  | gone hp =>
    rcases hp with rfl | ⟨fd, k, hp⟩
    · decide
    · rw [if_pos rfl, Place.calls, Nat.zero_add]
      exact hwait fd k hp
  | broke hp =>
    obtain ⟨fd, rfl | rfl⟩ := hp <;> simp [Place.calls]
  | tried => exact Nat.le_refl _
  | @opened fd _ k => exact hwait fd k rfl
  | failed hp =>
    rcases hp with rfl | rfl | ⟨fd, k, hp⟩
    · decide
    · decide
    · exact hwait fd k hp

theorem calls_run (run : Run (Step args) start tr t) (i : ι) :
    calls i tr ≤ (MAX_TRIES + 2) * restarts i tr + (t.place i).calls := by
  refine run.invariant (I := fun tr (t : State ι) =>
    calls i tr ≤ (MAX_TRIES + 2) * restarts i tr + (t.place i).calls) (Nat.zero_le _) ?_
  intro tr u e u' hrun ih hs
  rw [calls_snoc, restarts_snoc]
  cases moves hs with
  | @call j d fs p hc =>
    by_cases hji : i = j
    · subst hji
      have hat := (books_run hrun).call i
      have hle := hc.succ_calls_le fun fd k hp => by
        rw [hp] at hat
        exact hat.2.2.2
      rw [State.put_place_self]
      by_cases hd : d = .gone
      · subst hd
        simp only [Event.By, decide_true, if_true] at hle ⊢
        rw [Nat.mul_succ]
        omega
      · have hne : Event.did i d ≠ .did i .gone := by simpa using hd
        simp only [Event.By, decide_true, if_true, if_neg hd, if_neg hne, Nat.add_zero] at hle ⊢
        omega
    · rw [State.put_place_of_ne u hji]
      simpa [Event.By, Ne.symm hji] using ih
  | unlink => simpa [Event.By] using ih

/-- Who starts over has seen a file that the name was taken from. -/
theorem restarts_run (run : Run (Step args) start tr t) (i : ι) :
    restarts i tr ≤ removals tr ∧
      ((t.place i = .existing ∨ ∃ fd k, t.place i = .waiting fd k) → t.files.path = none →
        restarts i tr < removals tr) := by
  refine run.invariant (I := fun tr (t : State ι) => restarts i tr ≤ removals tr ∧
    ((t.place i = .existing ∨ ∃ fd k, t.place i = .waiting fd k) → t.files.path = none →
      restarts i tr < removals tr)) ?_ ?_
  · exact ⟨Nat.le_refl _, fun h => by simp [start] at h⟩
  intro tr u e u' _ ih hs
  obtain ⟨hle, hlt⟩ := ih
  rw [restarts_snoc, removals_snoc]
  cases moves hs with
  | @call j d fs p hc =>
    by_cases hji : i = j
    · subst hji
      rw [State.put_place_self, State.put_files]
      generalize u.place i = q at hc hlt
      cases hc with
      | gone hp hpath =>
        have hless := hlt hp hpath
        exact ⟨by simpa [Removal, Event.Unlinks] using Nat.succ_le_of_lt hless, by simp⟩
      | existed _ hpath => simp [Removal, Event.Unlinks, hle, hpath]
      | found _ hpath => simp [Removal, Event.Unlinks, hle, hpath]
      | tried _ hpath => simp [Removal, Event.Unlinks, hle, hpath]
      | gaveUp =>
        rw [if_neg (by simp), Nat.add_zero]
        exact ⟨hle.trans (Nat.le_add_right _ _), by simp⟩
      | _ => simpa [Removal, Event.Unlinks] using hle
    · rw [State.put_place_of_ne u hji, State.put_files]
      have hne : Event.did j d ≠ .did i .gone := by simp [Ne.symm hji]
      rw [if_neg hne, Nat.add_zero]
      refine ⟨hle.trans (Nat.le_add_right _ _), fun hp hpath => ?_⟩
      by_cases hremoval : Removal (u, .did j d)
      · rw [if_pos hremoval]
        exact Nat.lt_succ_of_le hle
      · refine (hlt hp ?_).trans_le (Nat.le_add_right _ _)
        generalize u.place j = q at hc
        cases hc with
        | create => cases hpath
        | gaveUp => simpa [Removal, Event.Unlinks] using hremoval
        | _ => exact hpath
  | unlink hpath =>
    have hremoval : Removal (u, (.unlinked : Event ι)) := by
      simp [Removal, Event.Unlinks, Option.isSome_iff_ne_none, hpath]
    rw [if_neg (by simp), if_pos hremoval, Nat.add_zero]
    exact ⟨Nat.le_succ_of_le hle, fun _ _ => Nat.lt_succ_of_le hle⟩

/-- **How long a call takes**: twelve steps, and twelve more for each time the name was removed. -/
theorem calls_le (run : Run (Step args) start tr t) (i : ι) :
    calls i tr ≤ (MAX_TRIES + 2) * (removals tr + 1) := by
  have hcalls := calls_run run i
  have hmul := Nat.mul_le_mul_left (MAX_TRIES + 2) (restarts_run run i).1
  have hrank : (t.place i).calls ≤ MAX_TRIES + 2 := by
    have hat := (books_run run).call i
    cases hp : t.place i with
    | waiting fd k =>
      rw [hp] at hat
      exact Nat.add_le_add_right hat.2.2.2.le 2
    | _ => simp [Place.calls, MAX_TRIES]
  rw [Nat.mul_succ]
  omega

/-- The second call finds the file, and its name is removed before it can open it. -/
def startsOver : List (Act Bool) :=
  [.next false, .next true, .unlink, .next true, .next true, .next true, .next true]

theorem calls_le_startsOver : ∃ tr, ∃ t : State Bool, Run (Step bothCreate) start tr t ∧
    removals tr = 1 ∧ calls true tr ≤ (MAX_TRIES + 2) * (removals tr + 1) := by
  have run := run_get (exec bothCreate) startsOver start (by decide)
  exact ⟨_, _, run, by decide, calls_le run true⟩

end PosixNet.MmapOpen
