import SupOS.Descriptors.Table
import SupOS.VFS.FS

/-! The results of the system calls of `User/Syscalls.cpp` and of `Scheduler::fork` and
`Scheduler::clone`: which checks are made, in which order, and what is returned. What the calls do to
the memory, the disk and the tables is not followed here, and where that stops the kernel there is no
result to return. -/

namespace SupOS.User

/-- The numbers of `errno.h`. -/
inductive Error
  | EBADF
  | ECHILD
  | EPIPE
  | EACCESS
  | EFAULT
  | ENOMEM
  | EBLOCK
  | EINVAL
  | ENOTDIR
  | EEXIST
  | EXDEV
  deriving DecidableEq, Repr

def Error.code : Error → Nat
  | EBADF => SupOS.EBADF
  | ECHILD => SupOS.ECHILD
  | EPIPE => SupOS.EPIPE
  | EACCESS => SupOS.EACCESS
  | EFAULT => SupOS.EFAULT
  | ENOMEM => SupOS.ENOMEM
  | EBLOCK => SupOS.EBLOCK
  | EINVAL => SupOS.EINVAL
  | ENOTDIR => SupOS.ENOTDIR
  | EEXIST => SupOS.EEXIST
  | EXDEV => SupOS.EXDEV

theorem Error.code_pos (e : Error) : 0 < e.code := by cases e <;> decide

theorem Error.code_lt (e : Error) : e.code < 12 := by cases e <;> decide

/-- How a system call comes out. -/
inductive Outcome
  | value (v : UInt64)
  | error (e : Error)
  /-- The thread waits, and the call is tried again in a later state. -/
  | waits
  | stops (fault : Fault)
  deriving DecidableEq, Repr

/-- What a stream returns is returned. -/
def Outcome.ofExcept : Except Error UInt64 → Outcome
  | .ok n => value n
  | .error e => error e

/-- The object behind a descriptor, as its virtual functions answer. -/
structure Stream where
  mask : Nat
  read : UInt64 → UInt64
  eof : Bool
  write : UInt64 → Except Error UInt64
  tell : UInt64
  end_ : UInt64

/-- `stream` is empty for a `unique_ptr` that holds no object. -/
structure Descriptor extends FileDescriptor where
  stream : Option Stream

/-- What `resolvePath` of a path, or `operator[]` of a directory, finds. -/
structure Node where
  type : VFS.FileType
  /-- `st_dev` -/
  dev : UInt32
  isEmpty : Bool
  deriving DecidableEq, Repr

/-- A process of `_sons`. -/
structure Son where
  pid : UInt16
  terminated : Bool
  deriving DecidableEq, Repr

/-- What the calls read of the process of the running thread. The functions on paths take the address
of the string; `parent` is the path without its last name and `entry` that name in `parent`. -/
structure State where
  /-- `_usermem.in` -/
  inside : UInt64 → Bool
  fds : List Descriptor
  resolve : UInt64 → Option Node
  parent : UInt64 → Option Node
  entry : UInt64 → Option Node
  /-- What `getFreshTid` takes. -/
  freshTid : UInt16
  sons : List Son
  /-- The pids of `_processes`. -/
  processes : UInt16 → Bool
  /-- `_virtAddrStart` of the heap. -/
  heapStart : UInt64

def O_CREAT : UInt64 := 4

def SEEK_SET : UInt64 := 0

def SEEK_CUR : UInt64 := 1

def SEEK_END : UInt64 := 2

/-- `sizeof(dirent)` -/
def direntSize : UInt64 := 260

namespace State

variable (s : State)

/-- `u32 newfd = pro->getFreeFD()` -/
def newfd : UInt32 := UInt32.ofNat s.fds.length

def nbread (fd buf count : UInt64) : Outcome :=
  if !s.inside buf then .error .EFAULT
  else if !s.inside (buf + count) then .error .EFAULT
  else
    match s.fds[fd.toUInt32.toNat]? with
    | none => .error .EBADF
    | some desc =>
      if !desc.hasStream then .error .EBADF
      else
        match desc.stream with
        | none => .stops .nullPointer
        | some st =>
          if !desc.check st.mask Stream.READABLE then .error .EBADF
          else if st.read count ≠ 0 then .value (st.read count)
          else if st.eof then .value 0
          else if !desc.check st.mask Stream.WAITABLE then .stops .assertion
          else .error .EBLOCK

def sysread (fd buf count : UInt64) : Outcome :=
  if s.nbread fd buf count = .error .EBLOCK then .waits else s.nbread fd buf count

/-- `syswrite`, with `swrite`. -/
def syswrite (fd buf count : UInt64) : Outcome :=
  if !s.inside buf then .error .EFAULT
  else if !s.inside (buf + count) then .error .EFAULT
  else
    match s.fds[fd.toUInt32.toNat]? with
    | none => .error .EBADF
    | some desc =>
      if !desc.hasStream then .error .EBADF
      else
        match desc.stream with
        | none => .stops .nullPointer
        | some st =>
          if !desc.check st.mask Stream.WRITABLE then .error .EBADF
          else .ofExcept (st.write count)

def sysopen (path flags : UInt64) : Outcome :=
  if !s.inside path then .error .EFAULT
  else if (s.resolve path).isSome then .value s.newfd.toUInt64
  else if flags &&& O_CREAT = 0 then .error .EACCESS
  else
    match s.parent path with
    | none => .stops .nullPointer
    | some dir => if dir.type ≠ .directory then .error .EACCESS else .value s.newfd.toUInt64

def sysclose (fd : UInt64) : Outcome :=
  match s.fds[fd.toNat]? with
  | none => .error .EBADF
  | some desc => if desc.type = .EMPTY then .error .EBADF else .value 0

end State

/-- The position that `sysseek` computes, as an `i64`. -/
def Stream.origin (st : Stream) (offset whence : UInt64) : Option Int64 :=
  if whence = SEEK_SET then some (0 + offset).toInt64
  else if whence = SEEK_CUR then some (st.tell + offset).toInt64
  else if whence = SEEK_END then some (st.end_ + offset).toInt64
  else none

namespace State

variable (s : State)

def sysseek (fd offset whence : UInt64) : Outcome :=
  match s.fds[fd.toNat]? with
  | none => .error .EBADF
  | some desc =>
    if !desc.hasStream then .error .EBADF
    else
      match desc.stream with
      | none => .stops .nullPointer
      | some st =>
        if !desc.check st.mask Stream.SEEKABLE then .error .EBADF
        else
          match st.origin offset whence with
          | none => .error .EINVAL
          | some origin =>
            if origin < 0 then .error .EINVAL
            else if st.end_.toInt64 < origin ∧ !desc.check st.mask Stream.APPENDABLE then
              .error .EINVAL
            else .value origin.toUInt64

/-- `sysbrk`, with `Heap::brk`. -/
def sysbrk (addr : UInt64) : Outcome :=
  if addr.toInt64 < 0x200000 ∧ addr ≠ 0 then .error .EFAULT
  else if addr = 0 then .value s.heapStart
  else if addr < s.heapStart then .stops .assertion
  else .value 0

def syspipe (fd2 : UInt64) : Outcome :=
  if !s.inside fd2 then .error .EFAULT else .value 0

def sysdup (oldfd : UInt64) : Outcome :=
  if s.fds.length ≤ oldfd.toNat then .error .EBADF else .value s.newfd.toUInt64

def sysdup2 (oldfd newfd : UInt64) : Outcome :=
  if s.fds.length ≤ oldfd.toNat then .error .EBADF else .value newfd

def clone (rip stack : UInt64) : Outcome :=
  if !s.inside rip then .error .EFAULT
  else if !s.inside (stack - 1) then .error .EFAULT
  else .value s.freshTid.toUInt64

def fork : Outcome := .value s.freshTid.toUInt64

/-- `waitp(status)`; `-EBLOCK` of `nbwaitp` is where the thread waits. -/
def waitAny : Outcome :=
  if s.sons.isEmpty then .error .ECHILD
  else
    match s.sons.find? (·.terminated) with
    | some son => .value son.pid.toUInt64
    | none => .waits

/-- `waitp(pro, status)` -/
def waitFor (pid : UInt16) : Outcome :=
  if !s.processes pid then .stops .aborted
  else
    match s.sons.find? (·.pid = pid) with
    | none => .error .ECHILD
    | some son => if son.terminated then .value son.pid.toUInt64 else .waits

def syswait (pid status : UInt64) : Outcome :=
  if status ≠ 0 ∧ !s.inside status then .error .EFAULT
  else if pid = 0 then s.waitAny
  else s.waitFor pid.toUInt16

def sysopend (path : UInt64) : Outcome :=
  if !s.inside path then .error .EFAULT
  else
    match s.resolve path with
    | none => .error .EACCESS
    | some f => if f.type ≠ .directory then .error .ENOTDIR else .value s.newfd.toUInt64

def sysreadd (fd thedirent : UInt64) : Outcome :=
  if !s.inside thedirent then .error .EFAULT
  else if !s.inside (thedirent + direntSize) then .error .EFAULT
  else
    match s.fds[fd.toNat]? with
    | none => .error .EBADF
    | some desc => if desc.type ≠ .DIRECTORY then .error .EBADF else .value 0

def syschdir (path : UInt64) : Outcome :=
  if !s.inside path then .error .EFAULT
  else
    match s.resolve path with
    | none => .error .EACCESS
    | some f => if f.type ≠ .directory then .error .ENOTDIR else .value 0

/-- How a call goes on in the directory that holds the last name of a path. -/
def inParent (path : UInt64) (k : Node → Outcome) : Outcome :=
  match s.parent path with
  | none => .error .EACCESS
  | some dir => if dir.type ≠ .directory then .error .EACCESS else k dir

def sysrename (path₁ path₂ : UInt64) : Outcome :=
  if !s.inside path₁ || !s.inside path₂ then .error .EFAULT
  else s.inParent path₁ fun _ => s.inParent path₂ fun dir₂ =>
    if (s.entry path₂).isSome then .error .EEXIST
    else
      match s.entry path₁ with
      | none => .stops .nullPointer
      | some f => if f.dev ≠ dir₂.dev then .error .EXDEV else .value 0

def sysmkdir (path : UInt64) : Outcome :=
  if !s.inside path then .error .EFAULT
  else s.inParent path fun _ =>
    if (s.entry path).isSome then .error .EEXIST else .value 0

def sysrmdir (path : UInt64) : Outcome :=
  if !s.inside path then .error .EFAULT
  else s.inParent path fun _ =>
    match s.entry path with
    | none => .error .EACCESS
    | some f =>
      if f.type ≠ .directory then .error .EACCESS
      else if !f.isEmpty then .error .EEXIST
      else .value 0

def syslink (path₁ path₂ : UInt64) : Outcome :=
  if !s.inside path₁ || !s.inside path₂ then .error .EFAULT
  else s.inParent path₂ fun dir =>
    if (s.entry path₂).isSome then .error .EEXIST
    else
      match s.resolve path₁ with
      | none => .error .EACCESS
      | some f =>
        if f.type ≠ .regularFile then .error .EACCESS
        else if f.dev ≠ dir.dev then .error .EXDEV
        else .value 0

def sysunlink (path : UInt64) : Outcome :=
  if !s.inside path then .error .EFAULT
  else s.inParent path fun _ =>
    match s.entry path with
    | none => .error .EACCESS
    | some f => if f.type ≠ .regularFile then .error .EACCESS else .value 0

end State

/-- The type that the result of a handler goes through on its way to `rax`. -/
inductive Width
  | u64
  | u16
  deriving DecidableEq, Repr

/-- The register `rax` when the call returns. -/
def Width.rax : Width → Outcome → Option UInt64
  | u64, .value v => some v
  | u64, .error e => some (-UInt64.ofNat e.code)
  | u16, .value v => some v.toUInt16.toUInt64
  | u16, .error e => some (-UInt16.ofNat e.code).toUInt64
  | _, .waits | _, .stops _ => none

/-- An entry of `handlers`: its effect on `rdi`, `rsi` and `rdx`, and the type of its result. -/
structure Handler where
  outcome : State → UInt64 → UInt64 → UInt64 → Outcome
  width : Width

/-- `handlers`, as `syscallFill` leaves it, for the calls modelled here. -/
def handlers : Nat → Option Handler
  | 0 => some ⟨fun s fd buf count => s.sysread fd buf count, .u64⟩
  | 1 => some ⟨fun s fd buf count => s.syswrite fd buf count, .u64⟩
  | 2 => some ⟨fun s path flags _ => s.sysopen path flags, .u64⟩
  | 3 => some ⟨fun s fd _ _ => s.sysclose fd, .u64⟩
  | 8 => some ⟨fun s fd offset whence => s.sysseek fd offset whence, .u64⟩
  | 12 => some ⟨fun s addr _ _ => s.sysbrk addr, .u64⟩
  | 22 => some ⟨fun s fd2 _ _ => s.syspipe fd2, .u64⟩
  | 32 => some ⟨fun s oldfd _ _ => s.sysdup oldfd, .u64⟩
  | 33 => some ⟨fun s oldfd newfd _ => s.sysdup2 oldfd newfd, .u64⟩
  | 56 => some ⟨fun s rip rsp _ => s.clone rip rsp, .u16⟩
  | 57 => some ⟨fun s _ _ _ => s.fork, .u16⟩
  | 61 => some ⟨fun s pid status _ => s.syswait pid status, .u64⟩
  | 72 => some ⟨fun s path _ _ => s.sysopend path, .u64⟩
  | 73 => some ⟨fun s fd thedirent _ => s.sysreadd fd thedirent, .u64⟩
  | 80 => some ⟨fun s path _ _ => s.syschdir path, .u64⟩
  | 82 => some ⟨fun s path₁ path₂ _ => s.sysrename path₁ path₂, .u64⟩
  | 83 => some ⟨fun s path _ _ => s.sysmkdir path, .u64⟩
  | 84 => some ⟨fun s path _ _ => s.sysrmdir path, .u64⟩
  | 86 => some ⟨fun s path₁ path₂ _ => s.syslink path₁ path₂, .u64⟩
  | 87 => some ⟨fun s path _ _ => s.sysunlink path, .u64⟩
  | _ => none

end SupOS.User
