import Mathlib.Algebra.Ring.Nat

/-! The ways in which the kernel stops, and the arithmetic helpers of `utility.h`. -/

namespace SupOS

/-- What stops the kernel instead of a function's return. -/
inductive Fault
  /-- The condition of an `assert` is false. -/
  | assertion
  /-- A call of `bsod` with this message. -/
  | bsod (message : String)
  /-- A loop that has not ended within its fuel. -/
  | diverges
  /-- An access through a null pointer. -/
  | nullPointer
  /-- An access to a virtual address that is not mapped. -/
  | pageFault
  /-- The assertion that a frame of physical memory is left. -/
  | outOfMemory
  /-- An access to an object that has been deleted. -/
  | dangling
  /-- An access past the end of a vector. -/
  | outOfRange
  /-- A division by zero. -/
  | divideError
  /-- The assertion of `at` on a key that is not in the map. -/
  | aborted
  /-- `kend`, when init has terminated. -/
  | shutdown
  deriving DecidableEq, Repr

/-- `assert(cond)`. -/
def assert (cond : Bool) : Except Fault Unit :=
  if cond then .ok () else .error .assertion

@[simp] theorem assert_true : assert true = .ok () := rfl

@[simp] theorem assert_false : assert false = .error .assertion := rfl

theorem assert_eq_ok {cond : Bool} {u : Unit} : assert cond = .ok u ↔ cond = true := by
  cases cond <;> simp

/-- The kernel stops otherwise than at an assertion. -/
def NoAssertion (e : Fault) : Prop := e ≠ .assertion

/-- `alignup(n, multiple)` before the conversion to the type of `n`. -/
def alignup (n multiple : Nat) : Nat := (n + multiple - 1) / multiple * multiple

/-- The value of a `u32` expression. -/
def u32 (n : Nat) : Nat := n % 2 ^ 32

/-- The value of a `u64` expression. -/
def u64 (n : Nat) : Nat := n % 2 ^ 64

/-- The value of an `int`, converted to `size_t`. -/
def i32 (n : Nat) : Nat := ((BitVec.ofNat 32 n).signExtend 64).toNat

theorem u32_of_lt {n : Nat} (h : n < 2 ^ 32) : u32 n = n := Nat.mod_eq_of_lt h

theorem u64_of_lt {n : Nat} (h : n < 2 ^ 64) : u64 n = n := Nat.mod_eq_of_lt h

theorem i32_of_lt {n : Nat} (hn : n < 2 ^ 31) : i32 n = n := by
  have hmod : (BitVec.ofNat 32 n).toNat = n := by
    rw [BitVec.toNat_ofNat]
    exact Nat.mod_eq_of_lt (by omega)
  have hmsb : (BitVec.ofNat 32 n).msb = false := by
    rw [BitVec.msb_eq_decide, hmod]
    simpa using hn
  rw [i32, BitVec.signExtend_eq_setWidth_of_msb_false hmsb, BitVec.toNat_setWidth, hmod]
  exact Nat.mod_eq_of_lt (by omega)

end SupOS
