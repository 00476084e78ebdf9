import SupOS.Descriptors.FileDescriptor
import SupOS.Errno
import Mathlib.Data.List.Perm.Basic

/-! The descriptor tables of the processes, and the system calls of `User/Syscalls.cpp` that change
them. -/

namespace SupOS

open Lib Libcpp

/-- `_fds` -/
abbrev Table := Libcpp.Vector FileDescriptor

def O_RDONLY : Nat := 1

def O_WRONLY : Nat := 2

namespace Stream

def READABLE : Nat := 1

def WRITABLE : Nat := 2

def SEEKABLE : Nat := 4

def APPENDABLE : Nat := 8

def WAITABLE : Nat := 16

end Stream

namespace Table

open FileDescriptor (element)

variable (room : Nat) (v : Table) (h : Owners)

/-- `_fds[i] = fd` -/
def assign (i : Nat) (fd : FileDescriptor) : Except Fault (Table × Owners) :=
  match v.data[i]? with
  | none => .error .outOfRange
  | some old => do
    let (new, h) ← fd.assign old h
    return (⟨v.data.set i new, v.capacity⟩, h)

/-- The same, where the descriptor is a temporary. -/
def assignTemporary (i : Nat) (fd : FileDescriptor) : Except Fault (Table × Owners) := do
  let (v, h) ← assign v h i fd
  let h ← fd.drop h
  return (v, h)

/-- `_fds[i]._mask = mask` -/
def setMask (i mask : Nat) : Table := ⟨v.data.modify i ({ · with mask }), v.capacity⟩

/-- `if(_fds.size() <= newfd) _fds.resize(n)` -/
def extend (newfd n : Nat) : Except Fault (Table × Owners) :=
  if v.size ≤ newfd then v.resize element room n h else .ok (v, h)

/-- The mask that `sysopen` gives for its flags. -/
def openMask (flags : Nat) : Nat :=
  Stream.SEEKABLE ||| (if flags &&& O_RDONLY ≠ 0 then Stream.READABLE ||| Stream.WAITABLE else 0) |||
    (if flags &&& O_WRONLY ≠ 0 then Stream.WRITABLE ||| Stream.APPENDABLE else 0)

/-- `sysopen` once it has the file. -/
def sysopen (flags : Nat) : Except Fault (Nat × Table × Owners) := do
  let newfd := u32 v.size
  let (v, h) ← extend room v h newfd (u32 (newfd + 1))
  let (fd, h) := FileDescriptor.make h .STREAM
  let (v, h) ← assignTemporary v h newfd fd
  return (newfd, v.setMask newfd (openMask flags), h)

/-- `sysopend` once it has the directory. -/
def sysopend : Except Fault (Nat × Table × Owners) := do
  let newfd := u32 v.size
  let (v, h) ← extend room v h newfd (u32 (newfd + 1))
  let (fd, h) := FileDescriptor.make h .DIRECTORY
  let (v, h) ← assignTemporary v h newfd fd
  return (newfd, v, h)

def sysclose (fd : Nat) : Except Fault (Nat × Table × Owners) :=
  match v.data[fd]? with
  | none => .ok (errno EBADF, v, h)
  | some desc =>
    if desc.type = .EMPTY then .ok (errno EBADF, v, h)
    else do
      let (v, h) ← assignTemporary v h fd .empty
      return (0, v, h)

/-- `_fds[newfd] = _fds[oldfd]` -/
def assignFrom (newfd oldfd : Nat) : Except Fault (Table × Owners) :=
  match v.data[oldfd]? with
  | none => .error .outOfRange
  | some fd => assign v h newfd fd

def sysdup (oldfd : Nat) : Except Fault (Nat × Table × Owners) :=
  let newfd := u32 v.size
  if v.size ≤ oldfd then .ok (errno EBADF, v, h)
  else do
    let (v, h) ← extend room v h newfd (u32 (newfd + 1))
    let (v, h) ← assignFrom v h newfd oldfd
    return (newfd, v, h)

def sysdup2 (oldfd newfd : Nat) : Except Fault (Nat × Table × Owners) :=
  if v.size ≤ oldfd then .ok (errno EBADF, v, h)
  else do
    let (v, h) ← extend room v h newfd (u64 (newfd + 1))
    let (v, h) ← assignFrom v h newfd oldfd
    return (newfd, v, h)

/-- `syspipe` once its pointer is checked; the two numbers stand in the user's `int`s. -/
def syspipe : Except Fault (Nat × Table × Owners) := do
  let res0 := i32 (u32 v.size)
  let (v, h) ← extend room v h res0 (i32 (res0 + 1))
  let res1 := i32 (u32 v.size)
  let (v, h) ← extend room v h res1 (i32 (res1 + 1))
  let (out, h) := FileDescriptor.make h .STREAM
  let (v, h) ← assignTemporary v h res0 out
  let (inp, h) := FileDescriptor.make h .STREAM
  let (v, h) ← assignTemporary v h res1 inp
  return (0, v, h)

end Table

/-- The descriptor tables of all processes, by their numbers. -/
structure Descriptors where
  owners : Owners
  tables : List (Nat × Table)

namespace Descriptors

open FileDescriptor (element)

variable (s : Descriptors)

/-- The entry of `p` replaced. -/
def replace {α : Type} (p : Nat) (w : α) : List (Nat × α) → List (Nat × α)
  | [] => []
  | (q, v) :: l => if p = q then (q, w) :: l else (q, v) :: replace p w l

/-- The entry of `p` removed. -/
def remove {α : Type} (p : Nat) : List (Nat × α) → List (Nat × α)
  | [] => []
  | (q, v) :: l => if p = q then l else (q, v) :: remove p l

/-- The table of a process that exists. -/
def table (p : Nat) : Except Fault Table :=
  match s.tables.lookup p with
  | none => .error .dangling
  | some v => .ok v

/-- A system call of the process `p`. -/
def call (p : Nat) (f : Table → Owners → Except Fault (Nat × Table × Owners)) :
    Except Fault (Nat × Descriptors) := do
  let v ← s.table p
  let (res, v, h) ← f v s.owners
  return (res, ⟨h, replace p v s.tables⟩)

/-- The table of a child: the parent's is copied to a parameter and from there to the new process. -/
def fork (room p child : Nat) : Except Fault Descriptors := do
  let v ← s.table p
  let (fds, h) ← v.clone element room s.owners
  let (own, h) ← fds.clone element room h
  let h ← fds.delete element h
  return ⟨h, (child, own) :: s.tables⟩

/-- The end of a process, which its destructor brings about. -/
def destroy (p : Nat) : Except Fault Descriptors := do
  let v ← s.table p
  let h ← v.delete element s.owners
  return ⟨h, remove p s.tables⟩

/-- The first process, as `kmain` builds it: a window twice, and the serial port. -/
def boot (room : Nat) : Except Fault Descriptors := do
  let (fd, h) := FileDescriptor.make ⟨fun _ => none, 0, []⟩ .TWINDOW
  let (v, h) ← Vector.empty.pushBack element room fd h
  let (v, h) ← v.pushBack element room fd h
  let (serial, h) := FileDescriptor.make h .STREAM
  let (v, h) ← v.pushBackMove element room serial h
  let h ← serial.drop h
  let h ← fd.drop h
  return ⟨h, [(1, v)]⟩

/-- What a process asks for; `malloc` then has `room` bytes left for a request. -/
inductive Call
  | sysopen (flags : Nat)
  | sysopend
  | sysclose (fd : Nat)
  | sysdup (oldfd : Nat)
  | sysdup2 (oldfd newfd : Nat)
  | syspipe
  | fork (child : Nat)
  | exec
  | destroy
  deriving DecidableEq, Repr

structure Command where
  p : Nat
  room : Nat
  call : Call
  deriving DecidableEq, Repr

def apply (c : Command) : Except Fault Descriptors :=
  match c.call with
  | .sysopen flags => (·.2) <$> s.call c.p fun v h => Table.sysopen c.room v h flags
  | .sysopend => (·.2) <$> s.call c.p fun v h => Table.sysopend c.room v h
  | .sysclose fd => (·.2) <$> s.call c.p fun v h => Table.sysclose v h fd
  | .sysdup oldfd => (·.2) <$> s.call c.p fun v h => Table.sysdup c.room v h oldfd
  | .sysdup2 oldfd newfd => (·.2) <$> s.call c.p fun v h => Table.sysdup2 c.room v h oldfd newfd
  | .syspipe => (·.2) <$> s.call c.p fun v h => Table.syspipe c.room v h
  | .fork child => s.fork c.room c.p child
  | .exec => .ok s
  | .destroy => s.destroy c.p

end Descriptors

end SupOS
