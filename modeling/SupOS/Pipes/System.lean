import SupOS.Processes.Registered
import SupOS.Descriptors.Made

/-! The pipes of `Streams/PipeStream.cpp` in the kernel: what `sysread` and `syswrite` do with their
bytes, and what becomes of them when descriptors go away. -/

namespace SupOS

open Lib

structure PipeStream where
  deque : List UInt8
  /-- `_out`, the number of the `PipeStreamOut` -/
  out : Option Nat
  eof : Bool
  nbRef : Nat

/-- The classes `PipeStreamOut` and `PipeStreamIn`. -/
inductive PipeEnd
  | out
  | inp
  deriving DecidableEq, Repr

namespace PipeEnd

def getMask : PipeEnd → Nat
  | .out => Stream.READABLE ||| Stream.WAITABLE
  | .inp => Stream.WRITABLE ||| Stream.APPENDABLE

end PipeEnd

namespace PipeStream

variable (ps : PipeStream)

/-- A pipe with its two ends, the first of which is the object `o`. -/
def new (o : Nat) : PipeStream := ⟨[], some o, false, 2⟩

def read (count : Nat) : List UInt8 × PipeStream :=
  (ps.deque.take count, { ps with deque := ps.deque.drop count })

def write (buf : List UInt8) : Nat × PipeStream :=
  (if ps.out.isSome then buf.length else errno EPIPE, { ps with deque := ps.deque ++ buf })

def sendEof : PipeStream := { ps with eof := true }

/-- `decrRef`, where nothing is left of an object that deletes itself. -/
def decrRef : Option PipeStream :=
  let nbRef := (ps.nbRef + 255) % 256
  if nbRef = 0 then none else some { ps with nbRef }

/-- What the destructor of an end does to the pipe. That of `PipeStreamOut` writes to `_out` also when
`decrRef` has deleted the pipe. -/
def dropEnd : PipeEnd → Option PipeStream
  | .out => ps.decrRef.map ({ · with out := none })
  | .inp => ps.sendEof.decrRef

end PipeStream

/-- What has happened on the pipes: bytes that a call of `read` has returned to a thread, bytes that a
call of `write` has accepted, and the end of a `PipeStreamIn`. -/
inductive PipeEvent
  | read (t q count : Nat) (bytes : List UInt8)
  | write (q : Nat) (bytes : List UInt8)
  | shut (q : Nat)
  deriving DecidableEq, Repr

/-- The kernel with its pipes. The ends of pipes that exist go under the numbers of their streams; a
blocked thread has kept the `count` of its call. The last event is the first of the list. -/
structure Pipes where
  kernel : Kernel
  pipes : Nat → Option PipeStream
  ends : Nat → Option (PipeEnd × Nat)
  counts : Nat → Nat
  events : List PipeEvent

namespace Kernel

/-- The thread whose checker `run` calls, its process and the descriptor of its read. -/
def retried (k : Kernel) : Option (Nat × Nat × Nat) := do
  let nextTid ← k.tasks.fifo.head?
  let t ← k.tasks.threads nextTid
  let _ ← k.reads.waited t
  let th ← k.tasks.threadAt t
  let fd ← k.reading t
  if k.reads.waiting t = ∅ then none else some (t, th.process, fd)

end Kernel

namespace Pipes

open Tasks (put)

/-- The system calls, a round of the scheduler, the timer's interrupt, and a stream that calls
`free`. -/
inductive Call
  | task (c : Tasks.Command)
  | read (fd count : Nat)
  | write (fd : Nat) (buf : List UInt8)
  | table (c : Descriptors.Call)
  | free (o : Nat)
  deriving DecidableEq, Repr

/-- `malloc` has `room` bytes left for a request; a stream that is no pipe gives the answer, which also
says of every buffer whether its ends are mapped; `mapped` bytes of the buffer are. -/
structure Command where
  room : Nat
  answer : Answer
  mapped : Nat
  call : Call
  deriving DecidableEq, Repr

variable (s : Pipes)

def pipe (q : Nat) : Except Fault PipeStream :=
  match s.pipes q with
  | some ps => .ok ps
  | none => .error .dangling

def descriptor (p fd : Nat) : Option FileDescriptor := do
  let v ← s.kernel.fds.tables.lookup p
  v.data[u32 fd]?

/-- The end of a pipe that a descriptor refers to. -/
def endOf (p fd : Nat) : Option (PipeEnd × Nat) := do
  let desc ← s.descriptor p fd
  let o ← desc.owners
  s.ends o

/-- What the stream of a descriptor answers in `nbread`. -/
def answer (p fd count : Nat) (a : Answer) : Except Fault Answer :=
  match s.endOf p fd with
  | none => .ok a
  | some (.inp, _) => .ok { a with mask := PipeEnd.inp.getMask }
  | some (.out, q) => do
    let ps ← s.pipe q
    return { a with
      mask := PipeEnd.out.getMask, bytes := (ps.read count).1.length, eof := ps.eof }

/-- The pipe that `nbread` comes to read from. -/
def source (p fd : Nat) (a : Answer) : Option Nat := do
  let desc ← s.descriptor p fd
  let (side, q) ← s.endOf p fd
  if a.inside && desc.hasStream && desc.check a.mask Stream.READABLE && side = .out then some q
  else none

/-- The read of the pipe in `nbread`. A call that blocks has taken nothing. -/
def consume (mapped t p fd count : Nat) (a : Answer) : Except Fault Pipes :=
  match s.source p fd a with
  | none => .ok s
  | some q => do
    let ps ← s.pipe q
    let r := ps.read count
    if r.1 = [] ∧ ps.eof = false then return s
    else if mapped < r.1.length then .error .pageFault
    else return { s with
      pipes := put s.pipes q (some r.2), events := .read t q count r.1 :: s.events }

/-- The write of a pipe in `swrite`. The queue is in memory. -/
def accept (c : Command) (q : Nat) (buf : List UInt8) : Except Fault Pipes := do
  let ps ← s.pipe q
  if c.mapped < buf.length then .error .pageFault
  else if kernelSpace ≤ ps.deque.length + buf.length then .error .outOfMemory
  else
    let (_, ps') := ps.write buf
    let s := { s with pipes := put s.pipes q (some ps') }
    match ps.out with
    | none => return s
    | some o => do
      let kernel ← s.kernel.apply ⟨c.room, c.answer, .free o⟩
      return { s with kernel, events := .write q buf :: s.events }

/-- `syswrite`. What it does to other streams is not followed. -/
def syswrite (c : Command) (fd : Nat) (buf : List UInt8) : Except Fault Pipes := do
  let t ← s.kernel.tasks.enterSys
  let th ← s.kernel.tasks.thread t
  if !c.answer.inside then return s
  let v ← s.kernel.fds.table th.process
  match v.data[u32 fd]? with
  | none => return s
  | some desc =>
    if !desc.hasStream then return s
    match desc.owners with
    | none => .error .nullPointer
    | some o =>
      if s.kernel.fds.owners.count o = none then .error .dangling
      else
        match s.ends o with
        | some (side, q) =>
          if desc.check side.getMask Stream.WRITABLE then s.accept c q buf else return s
        | none => return s

/-- The pipe that `syspipe` makes, with its ends. -/
def addPipe : Pipes :=
  let q := s.kernel.fds.owners.made
  { s with
    pipes := put s.pipes q (some (.new q))
    ends := put (put s.ends q (some (.out, q))) (q + 1) (some (.inp, q)) }

/-- The destructor of the object `o`, if it is an end of a pipe. -/
def destroy (o : Nat) : Pipes :=
  match s.ends o with
  | none => s
  | some (side, q) =>
    { s with
      pipes := put s.pipes q ((s.pipes q).bind (·.dropEnd side))
      ends := put s.ends o none
      events := if side = .inp then .shut q :: s.events else s.events }

/-- The state after a call that has left this kernel; the streams that it has deleted are destroyed. -/
def settle (kernel : Kernel) : Pipes :=
  kernel.fds.owners.deleted.reverse.foldl destroy { s with kernel }

def apply (c : Command) : Except Fault Pipes :=
  match c.call with
  | .read fd count => do
    let t ← s.kernel.tasks.enterSys
    let th ← s.kernel.tasks.thread t
    let a ← s.answer th.process fd count c.answer
    let s ← s.consume c.mapped t th.process fd count a
    let kernel ← s.kernel.apply ⟨c.room, a, .read fd⟩
    return { s with kernel, counts := fun u => if u = t then count else s.counts u }
  | .write fd buf => s.syswrite c fd buf
  | .task .run =>
    match s.kernel.retried with
    | none => do
      let kernel ← s.kernel.apply ⟨c.room, c.answer, .task .run⟩
      return s.settle kernel
    | some (t, p, fd) => do
      let a ← s.answer p fd (s.counts t) c.answer
      let s ← s.consume c.mapped t p fd (s.counts t) a
      let kernel ← s.kernel.apply ⟨c.room, a, .task .run⟩
      return { s with kernel }
  | .task task => do
    let kernel ← s.kernel.apply ⟨c.room, c.answer, .task task⟩
    return s.settle kernel
  | .table call => do
    let kernel ← s.kernel.apply ⟨c.room, c.answer, .table call⟩
    let s := if call = .syspipe then s.addPipe else s
    return s.settle kernel
  | .free o => do
    let kernel ← s.kernel.apply ⟨c.room, c.answer, .free o⟩
    return { s with kernel }

/-- The command that the kernel is given. -/
def Call.toKernel : Call → Kernel.Call
  | .task c => .task c
  | .read fd _ | .write fd _ => .read fd
  | .table c => .table c
  | .free o => .free o

end Pipes

end SupOS
