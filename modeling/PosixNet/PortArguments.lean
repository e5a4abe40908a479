import PosixNet.Strtoul

/-!
# The port on the command line

`teht6_server.c` of `week4`, `teht3_server.c` and `teht3_client.c` of `week5` and
`teht2_client.c` of `week6` take their port from the command line with one and the same
test, `(argc != …) || (port = strtoul(argv[…], &end, 0)) < 0`.  As `port` is unsigned, the
second half of it is never true, `end` is not looked at, and the value is cut down to 32
bits on its way into `port` and to 16 on its way through `htons`.

**`portsExact_iff`**: the port is the integer that the argument denotes exactly if the
whole argument denotes one, and one that is a port.
-/
namespace PosixNet.PortArguments

/-- The test of `main`: nothing if it prints its usage, and the port if it goes on. -/
def portOf (argc index : Nat) (argv : List (List Byte)) : Option UInt32 :=
  if argv.length ≠ argc then none
  else
    let port := (strtoul (argv.getD index [])).1.toUInt32
    if port < 0 then none else some port

/-- The host-order value of `htons(port)`. -/
def htons (port : UInt32) : UInt16 := port.toUInt16

/-- Lines 38–54 of `week4/teht6_server.c`. -/
def teht6_server (argv : List (List Byte)) : Option UInt16 := (portOf 2 1 argv).map htons

/-- Lines 22–38 of `week5/teht3_server.c`. -/
def teht3_server (argv : List (List Byte)) : Option UInt16 := (portOf 2 1 argv).map htons

/-- Lines 35–45 of `week5/teht3_client.c`. -/
def teht3_client (argv : List (List Byte)) : Option UInt16 := (portOf 3 2 argv).map htons

/-- Lines 34–44 of `week6/teht2_client.c`. -/
def teht2_client (argv : List (List Byte)) : Option UInt16 := (portOf 3 2 argv).map htons

/-- The programs that take a port. -/
inductive Program where
  | teht6_server | teht3_server | teht3_client | teht2_client
  deriving DecidableEq

namespace Program

/-- The port in `sin_port`, if the program goes on. -/
def sin_port : Program → List (List Byte) → Option UInt16
  | .teht6_server => PortArguments.teht6_server
  | .teht3_server => PortArguments.teht3_server
  | .teht3_client => PortArguments.teht3_client
  | .teht2_client => PortArguments.teht2_client

/-- The number of arguments that is asked for, with the name of the program. -/
def argc : Program → Nat
  | .teht6_server | .teht3_server => 2
  | .teht3_client | .teht2_client => 3

/-- The argument that is the port. -/
def argument (program : Program) (argv : List (List Byte)) : List Byte :=
  argv.getD (program.argc - 1) []

end Program

/-- The program prints its usage, or its port is the integer that the whole argument
denotes. -/
def Exact (program : Program) (argv : List (List Byte)) : Prop :=
  program.sin_port argv = none ∨ ∃ (v : Int) (port : UInt16),
    Denotes (program.argument argv) v ∧ 0 ≤ v ∧ v ≤ 65535 ∧
      program.sin_port argv = some port ∧ (port.toNat : Int) = v

/-- Arguments that denote different integers do not give the same port. -/
def Apart (program : Program) (argv argv' : List (List Byte)) : Prop :=
  ∀ (v w : Int) (port : UInt16), Denotes (program.argument argv) v →
    Denotes (program.argument argv') w → v ≠ w →
      program.sin_port argv = some port → program.sin_port argv' ≠ some port

/-- What a program does with its port argument, on one vector and against another. -/
structure PortsExact (program : Program) (argv argv' : List (List Byte)) : Prop where
  first : Exact program argv
  second : Exact program argv'
  apart : Apart program argv argv'

/-- There are not as many arguments as there should be, or the port is a numeral without
anything behind it, for a number of at most 16 bits. -/
def IsPort (program : Program) (argv : List (List Byte)) : Prop :=
  argv.length ≠ program.argc ∨
    ∃ v : Int, Denotes (program.argument argv) v ∧ 0 ≤ v ∧ v ≤ 65535

variable {program : Program} {argv argv' : List (List Byte)}

/-! ## What the programs do -/

/-- **The test is for the number of arguments only.** -/
theorem portOf_eq {argc index : Nat} (h : argv.length = argc) :
    portOf argc index argv = some (strtoul (argv.getD index [])).1.toUInt32 := by
  rw [portOf, if_neg (not_not.mpr h)]
  exact if_neg (Nat.not_lt_zero _)

theorem portOf_eq_none {argc index : Nat} (h : argv.length ≠ argc) :
    portOf argc index argv = none := if_pos h

theorem sin_port_eq (h : argv.length = program.argc) :
    program.sin_port argv =
      some (htons (strtoul (program.argument argv)).1.toUInt32) := by
  cases program with
  | teht6_server | teht3_server | teht3_client | teht2_client =>
    exact congrArg (Option.map htons) (portOf_eq h)

theorem sin_port_eq_none (h : argv.length ≠ program.argc) : program.sin_port argv = none := by
  cases program with
  | teht6_server | teht3_server | teht3_client | teht2_client =>
    exact congrArg (Option.map htons) (portOf_eq_none h)

/-- The value is cut down to 16 bits. -/
theorem htons_toNat (n : Nat) : (htons n.toUInt32).toNat = n % 65536 := by
  simp [htons]

theorem IsPort.exact (h : IsPort program argv) : Exact program argv := by
  by_cases hargc : argv.length = program.argc
  · obtain ⟨v, hv, hpos, hle⟩ := h.resolve_left (not_not.mpr hargc)
    obtain ⟨n, rfl⟩ := Int.eq_ofNat_of_zero_le hpos
    have hn : n ≤ 65535 := by omega
    have hvalue := strtoul_of_nat hv (hn.trans (by decide))
    refine Or.inr ⟨n, _, hv, hpos, hle, sin_port_eq hargc, ?_⟩
    rw [hvalue, htons_toNat, Nat.mod_eq_of_lt (by omega)]
  · exact Or.inl (sin_port_eq_none hargc)

theorem Exact.isPort (h : Exact program argv) : IsPort program argv := by
  by_cases hargc : argv.length = program.argc
  · rcases h with h | ⟨v, port, hv, hpos, hle, -⟩
    · rw [sin_port_eq hargc] at h
      cases h
    · exact Or.inr ⟨v, hv, hpos, hle⟩
  · exact Or.inl hargc

/-- Ports that are what their arguments denote tell the arguments apart. -/
theorem Exact.apart (h : Exact program argv) (h' : Exact program argv') :
    Apart program argv argv' := by
  intro v w port hv hw hne hport hport'
  rcases h with h | ⟨v', p, hv', -, -, hp, hval⟩
  · rw [h] at hport
    cases hport
  rcases h' with h' | ⟨w', q, hw', -, -, hq, hval'⟩
  · rw [h'] at hport'
    cases hport'
  obtain rfl : p = port := Option.some.inj (hp.symm.trans hport)
  obtain rfl : q = p := Option.some.inj (hq.symm.trans hport')
  rw [hv.unique hv', hw.unique hw', ← hval, ← hval'] at hne
  exact hne rfl

/-- **When the port is what the argument denotes.**  For any two command lines: exactly
if each of them has the wrong number of arguments, or a numeral of at most 16 bits, and
nothing else, for a port. -/
theorem portsExact_iff (program : Program) (argv argv' : List (List Byte)) :
    PortsExact program argv argv' ↔ IsPort program argv ∧ IsPort program argv' :=
  ⟨fun h => ⟨h.first.isPort, h.second.isPort⟩,
    fun h => ⟨h.1.exact, h.2.exact, h.1.exact.apart h.2.exact⟩⟩

/-- The ports 80 and 65616 are the same to the server of `week4`. -/
theorem not_portsExact_large :
    ¬ ∀ (program : Program) (argv argv' : List (List Byte)), PortsExact program argv argv' := by
  intro hall
  have hdenotes : ∀ (b : Byte) (l : List Byte), b ≠ 48 → (b :: l).all isdigit = true →
      Denotes (b :: l) (valueOf 10 (b :: l) : Nat) := fun b l hb hl =>
    @Denotes.unsigned [] (b :: l) _ (List.forall_mem_nil _) (.decimal hb (List.all_eq_true.mp hl))
  refine (hall .teht6_server [[], ascii "80"] [[], ascii "65616"]).apart 80 65616 80
    (hdenotes 56 [48] (by decide) (by decide))
    (hdenotes 54 [53, 54, 49, 54] (by decide) (by decide)) (by decide) ?_ ?_
  · decide +kernel
  · decide +kernel

end PosixNet.PortArguments
