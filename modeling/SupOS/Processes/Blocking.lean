import SupOS.Processes.Tasks
import SupOS.Descriptors.Runs

/-! `sysread` of `User/Syscalls.cpp` where it blocks: the threads of the processes, their descriptor
tables, and which threads are registered with which streams. -/

namespace SupOS

open Lib Libcpp

/-- What the stream and the memory of the process answer in one call of `nbread`: whether both ends of
the buffer are mapped, the mask of the stream, and the values of its `read` and `eof`. -/
structure Answer where
  inside : Bool
  mask : Nat
  bytes : Nat
  eof : Bool
  deriving DecidableEq, Repr

/-- The tables stand under the addresses of their processes. A thread is one object `Waiting`, whose
fields are split here by what it waits for: its process in `tasks`, or a stream in `reads`, with the
descriptor that its checker has kept in `reading`. -/
structure Kernel where
  tasks : Tasks
  fds : Descriptors
  reads : Waits Nat Nat
  reading : Nat → Option Nat

namespace Tasks

variable (s : Tasks)

/-- The process of the running thread. -/
def caller : Option Process := do
  let th ← s.threadAt (← s.current)
  s.processAt th.process

/-- The threads that a command deletes. -/
def ends : Command → List Nat
  | .exit _ | .exec _ => s.caller.elim [] (·.threads.toList)
  | .texit _ => s.current.toList
  | _ => []

/-- The thread that a command builds. -/
def newcomer : Command → Option Nat
  | .fork _ t | .clone t | .exec t => some t
  | _ => none

end Tasks

namespace Descriptors

/-- The descriptors that a call drops from the table of the caller. -/
def discards (v : Table) : Call → List FileDescriptor
  | .sysclose fd => v.data[fd]?.toList
  | .sysdup2 oldfd newfd =>
    if v.size ≤ oldfd then []
    else if v.size ≤ newfd then v.data.drop (u64 (newfd + 1))
    else v.data[newfd]?.toList
  | .destroy => v.data
  | _ => []

/-- The objects that are deleted when these descriptors are dropped. -/
def lost (h : Owners) (l : List FileDescriptor) : List Nat :=
  (l.filterMap (·.owners)).filter fun o => h.count o = some (sharing l o)

end Descriptors

namespace Kernel

open Descriptors

variable (s : Kernel)

/-- A call on the table of the process `p`. A stream that it deletes asserts in `~Waitable` that no
thread is registered with it. -/
def call (room p : Nat) (c : Descriptors.Call) : Except Fault Kernel := do
  let v ← s.fds.table p
  assert ((lost s.fds.owners (discards v c)).all fun o => decide (s.reads.waitings o = ∅))
  let fds ← s.fds.apply ⟨p, room, c⟩
  return { s with fds }

/-- The fields of a new object `Waiting`. -/
def renew (t : Nat) : Waits Nat Nat :=
  { s.reads with
    waiting := fun u => if u = t then ∅ else s.reads.waiting u
    waited := fun u => if u = t then none else s.reads.waited u }

/-- The table of the process that a command builds, or of the one that it deletes. -/
def settle (room : Nat) (old : Tasks) (c : Tasks.Command) : Except Fault Kernel :=
  match c with
  | .fork p _ => do
    let t ← old.enterSys
    let th ← old.thread t
    let fds ← s.fds.fork room th.process p
    return { s with fds }
  | c =>
    match old.reaps c with
    | none => return s
    | some q => s.call room q .destroy

/-- The assertion of `wait` where a thread begins to wait for a child, as it has after `tasks`. -/
def mayWait (tasks : Tasks) : Tasks.Command → Bool
  | .wait _ => tasks.current.isSome || s.tasks.current.all s.reads.isIdle
  | _ => true

/-- A command of the scheduler. A thread that it deletes asserts in `~Waiting` that it waits for no
stream either, and so does one that begins to wait for a child. -/
def task (room : Nat) (c : Tasks.Command) : Except Fault Kernel := do
  assert ((s.tasks.ends c).all s.reads.isIdle)
  let tasks ← s.tasks.apply c
  assert (s.mayWait tasks c)
  let reads := (Tasks.newcomer c).elim s.reads s.renew
  settle { s with tasks, reads } room s.tasks c

/-- `nbread` for a thread of the process `p`. -/
def nbread (p fd : Nat) (a : Answer) : Except Fault Nat := do
  if !a.inside then return errno EFAULT
  let v ← s.fds.table p
  match v.data[u32 fd]? with
  | none => return errno EBADF
  | some desc =>
    if !desc.hasStream then return errno EBADF
    match desc.owners with
    | none => .error .nullPointer
    | some o =>
      if s.fds.owners.count o = none then .error .dangling
      else if !desc.check a.mask Stream.READABLE then return errno EBADF
      else if a.bytes ≠ 0 then return a.bytes
      else if a.eof then return 0
      else do
        assert (desc.check a.mask Stream.WAITABLE)
        return errno EBLOCK

/-- `t->wait` of `sysread`, with the stream of the descriptor, and `stopCurent`. -/
def block (t p fd : Nat) : Except Fault Kernel := do
  let v ← s.fds.table p
  match v.data[fd]? with
  | none => .error .outOfRange
  | some desc =>
    match desc.owners with
    | none => .error .nullPointer
    | some o => do
      assert (s.tasks.waits.isIdle t)
      let reads ← s.reads.wait t {o}
      let tasks ← s.tasks.stopCurent
      return { s with tasks, reads, reading := Tasks.put s.reading t (some fd) }

def sysread (fd : Nat) (a : Answer) : Except Fault (Nat × Kernel) := do
  let t ← s.tasks.enterSys
  let th ← s.tasks.thread t
  let res ← s.nbread th.process fd a
  if res = errno EBLOCK then
    return (res, ← s.block t th.process fd)
  else
    return (res, s)

/-- What the checker of `sysread` does when the read would block again: the thread goes back to the
lists of the streams it waits for. -/
def refuse (t : Nat) : Except Fault Kernel :=
  if ∀ o ∈ s.reads.waiting t, s.fds.owners.count o ≠ none then
    .ok { s with reads := s.reads.refuse t }
  else .error .dangling

/-- `OK` of a thread that waits for a stream. -/
def OK (t : Nat) (a : Answer) : Except Fault (Bool × Kernel) :=
  match s.reads.waited t with
  | none => return (decide (s.reads.waiting t = ∅), s)
  | some _ => do
    let s := { s with reads := s.reads.clearWaited t }
    let th ← s.tasks.thread t
    match s.reading t with
    | none => .error .nullPointer
    | some fd =>
      let res ← s.nbread th.process fd a
      if res = errno EBLOCK then
        return (false, ← s.refuse t)
      else
        return (true, { s with reads := s.reads.accept t })

/-- `run` up to its next call of itself. -/
def run (room : Nat) (a : Answer) : Except Fault Kernel := do
  assert s.tasks.current.isNone
  match s.tasks.fifo with
  | [] => .error .assertion
  | nextTid :: fifo =>
    match s.tasks.threads nextTid with
    | none => s.task room .run
    | some t =>
      if s.reads.waiting t = ∅ then s.task room .run
      else do
        let (ok, s) ← OK { s with tasks := { s.tasks with fifo := fifo } } t a
        return { s with tasks :=
          if ok then { s.tasks with current := some t }
          else { s.tasks with fifo := s.tasks.fifo ++ [nextTid] } }

/-- The system calls, a round of the scheduler, the timer's interrupt, and a stream that calls
`free`. -/
inductive Call
  | task (c : Tasks.Command)
  | read (fd : Nat)
  | table (c : Descriptors.Call)
  | free (o : Nat)
  deriving DecidableEq, Repr

/-- `malloc` has `room` bytes left for a request, and a stream that is read in the course of the call
gives the answer. -/
structure Command where
  room : Nat
  answer : Answer
  call : Call
  deriving DecidableEq, Repr

def apply (c : Command) : Except Fault Kernel :=
  match c.call with
  | .task .run => s.run c.room c.answer
  | .task task => s.task c.room task
  | .read fd => (·.2) <$> s.sysread fd c.answer
  | .table call => do
    let t ← s.tasks.enterSys
    let th ← s.tasks.thread t
    s.call c.room th.process call
  | .free o => return { s with reads := s.reads.free o }

/-- What `kmain` does. -/
def boot (room p t : Nat) (d : Words) : Except Fault Kernel := do
  let tasks ← Tasks.boot p t d
  let fds ← Descriptors.boot room
  return ⟨tasks, { fds with tables := fds.tables.map fun e => (p, e.2) }, .idle, fun _ => none⟩

end Kernel

end SupOS
