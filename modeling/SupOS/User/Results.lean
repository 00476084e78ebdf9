import SupOS.User.Handlers
import Mathlib.Algebra.Ring.Int.Defs
import Mathlib.Data.UInt

/-! The wrappers of `unistd.c` and of `malloc.cpp`, which read the register `rax` as an `int`, and when
what they return is what the kernel has answered. -/

namespace SupOS.User

/-- The types that the wrappers return. -/
inductive CType
  | int
  | size_t
  | off_t
  | pid_t
  deriving DecidableEq, Repr

/-- The conversion of an `int`. -/
def CType.conv : CType → Int → Int
  | int, x | off_t, x => x
  | size_t, x => x % 2 ^ 64
  | pid_t, x => x % 2 ^ 16

/-- What the caller of a wrapper sees: the result, and what has been assigned to `errno`. -/
structure Returned where
  result : Int
  errno : Option Int
  deriving DecidableEq, Repr

/-- The lower half of a register, as an `int`. -/
def toInt (rax : UInt64) : Int := Int.bmod rax.toNat (2 ^ 32)

/-- The end of every wrapper. -/
def CType.returned (t : CType) (rax : UInt64) : Returned :=
  if toInt rax < 0 then ⟨t.conv (-1), some (Int.bmod (-toInt rax) (2 ^ 32))⟩
  else ⟨t.conv (toInt rax), none⟩

/-- The wrappers, with their arguments as they stand in the registers. -/
inductive Call
  | fork
  | clone (func stackEnd : UInt64)
  | read (fd buf count : UInt64)
  | write (fd buf count : UInt64)
  | open_ (path flags : UInt64)
  | close (fd : UInt64)
  | seek (fd offset whence : UInt64)
  | pipe (fd2 : UInt64)
  | dup (oldfd : UInt64)
  | dup2 (oldfd newfd : UInt64)
  | waitpid (p status : UInt64)
  | wait (status : UInt64)
  | opend (path : UInt64)
  | readd (fd buf : UInt64)
  | chdir (path : UInt64)
  | rename (oldpath newpath : UInt64)
  | mkdir (path : UInt64)
  | rmdir (path : UInt64)
  | link (path₁ path₂ : UInt64)
  | unlink (path : UInt64)
  | brk (addr : UInt64)
  deriving DecidableEq, Repr

namespace Call

/-- The number that the wrapper puts in `rax`. -/
def number : Call → Nat
  | fork => 57
  | clone .. => 56
  | read .. => 0
  | write .. => 1
  | open_ .. => 2
  | close _ => 3
  | seek .. => 8
  | pipe _ => 22
  | dup _ => 32
  | dup2 .. => 33
  | waitpid .. | wait _ => 61
  | opend _ => 72
  | readd .. => 73
  | chdir _ => 80
  | rename .. => 82
  | mkdir _ => 83
  | rmdir _ => 84
  | link .. => 86
  | unlink _ => 87
  | brk _ => 12

/-- `rdi`, `rsi` and `rdx`. The handlers do not read those that a wrapper leaves alone. -/
def registers : Call → UInt64 × UInt64 × UInt64
  | fork => (0, 0, 0)
  | clone func stackEnd => (func, stackEnd, 0)
  | read fd buf count | write fd buf count => (fd, buf, count)
  | open_ path flags => (path, flags, 0)
  | seek fd offset whence => (fd, offset, whence)
  | pipe x | close x | dup x | opend x | chdir x | mkdir x | rmdir x | unlink x | brk x => (x, 0, 0)
  | dup2 x y | waitpid x y | readd x y | rename x y | link x y => (x, y, 0)
  | wait status => (0, status, 0)

def type : Call → CType
  | fork | clone .. | waitpid .. | wait _ => .pid_t
  | read .. | write .. => .size_t
  | seek .. => .off_t
  | _ => .int

variable (c : Call) (s : State)

/-- What the kernel answers. -/
def outcome : Outcome :=
  match handlers c.number with
  | none => .stops (.bsod "Current program has made an invalid syscall\n")
  | some h => h.outcome s c.registers.1 c.registers.2.1 c.registers.2.2

/-- The register `rax` after the call. -/
def rax : Option UInt64 :=
  match handlers c.number with
  | none => none
  | some h => h.width.rax (c.outcome s)

/-- What the wrapper returns, if the kernel returns to it. -/
def returned : Option Returned := (c.rax s).map c.type.returned

end Call

/-- What a wrapper has to return for an answer of the kernel. -/
def Outcome.expected (t : CType) : Outcome → Option Returned
  | value v => some ⟨v.toNat, none⟩
  | error e => some ⟨t.conv (-1), some e.code⟩
  | waits | stops _ => none

/-- The wrapper and the kernel agree on a call. -/
def Call.Agrees (c : Call) (s : State) : Prop := c.returned s = (c.outcome s).expected c.type

instance (c : Call) (s : State) : Decidable (c.Agrees s) := by
  unfold Call.Agrees
  infer_instance

/-! ### Answers of 64 and of 16 bits -/

/-- The values that a wrapper can pass on. -/
def CType.bound : CType → Nat
  | int | size_t | off_t => 2 ^ 31
  | pid_t => 2 ^ 16

/-- A value of the answer is one that the wrapper can pass on. -/
def Outcome.Fits (t : CType) (o : Outcome) : Prop := ∀ v, o = .value v → v.toNat < t.bound

section Answers

variable {t : CType} {o : Outcome} {v : UInt64} {e : Error}

theorem int_eq (x : Int) :
    Int.bmod x (2 ^ 32) = if x % 2 ^ 32 < 2 ^ 31 then x % 2 ^ 32 else x % 2 ^ 32 - 2 ^ 32 := by
  rw [Int.bmod_def]
  rfl

theorem toInt_error (e : Error) : toInt (-UInt64.ofNat e.code) = -e.code := by
  cases e <;> decide

/-- The error numbers survive the way through `int`. -/
theorem returned_error (t : CType) (e : Error) :
    t.returned (-UInt64.ofNat e.code) = ⟨t.conv (-1), some e.code⟩ := by
  have hpos := e.code_pos
  have hlt := e.code_lt
  have hcode : Int.bmod (e.code : Int) (2 ^ 32) = e.code := by
    rw [int_eq]
    split <;> omega
  unfold CType.returned
  rw [toInt_error, if_pos (by omega), Int.neg_neg, hcode]

theorem returned_value (t : CType) (v : UInt64) :
    t.returned v = ⟨v.toNat, none⟩ ↔ v.toNat < t.bound := by
  have hv := v.toNat_lt
  have hint : toInt v = _ := int_eq v.toNat
  unfold CType.returned
  split
  · rename_i hneg
    constructor
    · intro h
      cases congrArg Returned.errno h
    · intro h
      have hb : t.bound ≤ 2 ^ 31 := by cases t <;> decide
      split at hint <;> omega
  · rename_i hpos
    rw [Returned.mk.injEq, and_iff_left rfl]
    split at hint
    · cases t <;> simp only [CType.conv, CType.bound] <;> omega
    · omega

/-- An answer of 64 bits is passed on as it should be if its value is small enough. -/
theorem u64_agrees_iff (t : CType) (o : Outcome) :
    (Width.u64.rax o).map t.returned = o.expected t ↔ o.Fits t := by
  cases o with
  | value v =>
    simp only [Width.rax, Outcome.expected, Option.map_some, Option.some.injEq, returned_value,
      Outcome.Fits, Outcome.value.injEq, forall_eq']
  | error e => simp [Width.rax, Outcome.expected, Outcome.Fits, returned_error]
  | waits => simp [Width.rax, Outcome.expected, Outcome.Fits]
  | stops f => simp [Width.rax, Outcome.expected, Outcome.Fits]

/-- A value of 16 bits is passed on. -/
theorem u16_value_agrees (v : UInt16) :
    (Width.u16.rax (.value v.toUInt64)).map CType.pid_t.returned =
      (Outcome.value v.toUInt64).expected .pid_t := by
  have hv : v.toUInt64.toUInt16.toUInt64 = v.toUInt64 := by simp
  simp only [Width.rax, Outcome.expected, Option.map_some, hv]
  rw [(returned_value .pid_t v.toUInt64).mpr (by simpa [CType.bound] using v.toNat_lt)]

/-- An error number of 16 bits is taken for a value. -/
theorem u16_error_differs (e : Error) :
    (Width.u16.rax (.error e)).map CType.pid_t.returned ≠ (Outcome.error e).expected .pid_t := by
  cases e <;> decide

theorem fits_error (t : CType) (e : Error) : (Outcome.error e).Fits t := nofun

theorem fits_stops (t : CType) (f : Fault) : (Outcome.stops f).Fits t := nofun

theorem fits_waits (t : CType) : Outcome.waits.Fits t := nofun

theorem fits_value (t : CType) (v : UInt64) : (Outcome.value v).Fits t ↔ v.toNat < t.bound := by
  simp [Outcome.Fits]

end Answers

end SupOS.User
