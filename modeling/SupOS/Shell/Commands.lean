import SupOS.Descriptors.Counting
import SupOS.Lib.Machine

/-! The commands of `ttsh`: the trees of `Commands.cpp` with the redirections of `Redirection.cpp`, run by
a process that has descriptors and children. -/

namespace SupOS.Shell

open Lib Libcpp

def O_CREAT : Nat := 4

def O_APPEND : Nat := 16

def STDIN_FD : Int32 := 0

def STDOUT_FD : Int32 := 1

inductive Redirection
  | Input (file : String)
  | Output (file : String)
  | OutputAppend (file : String)
  deriving DecidableEq, Repr

inductive Command
  | Atomic (cmdline : List String) (redirections : List Redirection) (background : Bool)
  /-- An `If` whose `_elsecommand` is null. -/
  | IfThen (cond ifcommand : Command)
  | If (cond ifcommand elsecommand : Command)
  | Pipe (producer consumer : Command)
  | And (command1 command2 : Command)
  | Or (command1 command2 : Command)
  | Seq (command1 command2 : Command)
  deriving DecidableEq, Repr

/-- What a call of a process meets: the memory that is left, the counts of the descriptors as the other
processes have left them, and what else does not depend on the process. -/
structure Meets where
  room : Nat
  owners : Owners
  /-- Whether a file is found, or created, with these flags. -/
  opens : String → Nat → Bool
  /-- Whether `exec` becomes the program. -/
  execs : String → Bool
  /-- The exit status of the program, for a fork. -/
  status : UInt64
  /-- Which of its children a process reaps, for a wait. -/
  reaps : Nat
  /-- What an `int` holds that nothing has been stored in. -/
  garbage : Int32

/-- What each call of each process meets; a process goes under the numbers of the calls that forked it
and its ancestors. -/
abbrev World := List Nat → Nat → Meets

/-- The ways in which a forked child leaves the code of the shell. -/
inductive Fate
  /-- It has become the program. -/
  | execs
  /-- It has called `exit`. -/
  | exits (status : Int32)
  /-- It has returned from `run`, as the shell itself does. -/
  | returns (value : Int32)
  deriving DecidableEq, Repr

/-- What a run of a command has done in its process. -/
inductive Event
  /-- The command `cd`. -/
  | cd
  /-- A child for a program, with how many other children were there, whether its `exec` succeeds and
  its exit status. -/
  | program (others : Nat) (execs : Bool) (status : Int32)
  /-- A child for the producer of a pipe. -/
  | producer
  deriving DecidableEq, Repr

/-- The exit statuses of the children that are not reaped, and what has been done. -/
structure Process where
  self : List Nat
  calls : Nat
  fds : Table
  children : List UInt64
  log : List Event

/-! ### System calls through the wrappers of `unistd.c` -/

/-- The value of a wrapper for the value of `rax`. -/
def result (rax : Nat) : Int32 :=
  let res := rax.toUInt32.toInt32
  if res < 0 then -1 else res

/-- The register that is loaded with an `int`. -/
def register (n : Int32) : Nat := n.toUInt32.toNat

/-- The `int` where a wait has stored an exit status; the four bytes that are stored past it are left
out. -/
def stored (status : UInt64) : Int32 := status.toUInt32.toInt32

namespace Process

variable (world : World) (p : Process)

def meets : Meets := world p.self p.calls

/-- The process after a call. -/
def next : Process := { p with calls := p.calls + 1 }

/-- A call on the descriptors. -/
def call (f : Nat → Table → Owners → Except Fault (Nat × Table × Owners)) :
    Except Fault (Int32 × Process) := do
  let m := p.meets world
  let (rax, fds, _) ← f m.room p.fds m.owners
  return (result rax, { p.next with fds })

def dup (oldfd : Int32) : Except Fault (Int32 × Process) :=
  p.call world fun room v h => Table.sysdup room v h (register oldfd)

def dup2 (oldfd newfd : Int32) : Except Fault (Int32 × Process) :=
  p.call world fun room v h => Table.sysdup2 room v h (register oldfd) (register newfd)

def close (fd : Int32) : Except Fault (Int32 × Process) :=
  p.call world fun _ v h => Table.sysclose v h (register fd)

def «open» (file : String) (flags : Nat) : Except Fault (Int32 × Process) :=
  if (p.meets world).opens file flags then
    p.call world fun room v h => Table.sysopen room v h flags
  else .ok (-1, p.next)

/-- The value of `pipe`, and the two numbers that it has stored. -/
def pipe : Except Fault (Int32 × Int32 × Int32 × Process) := do
  let (res, p') ← p.call world fun room v h => Table.syspipe room v h
  return (res, p.fds.size.toUInt32.toInt32, (p.fds.size + 1).toUInt32.toInt32, p')

/-- The child of a fork, with a copy of the descriptors. -/
def child : Except Fault Process := do
  let m := p.meets world
  let (fds, _) ← p.fds.clone FileDescriptor.element m.room m.owners
  return ⟨p.calls :: p.self, 0, fds, [], []⟩

/-- The parent of a fork, whose child ends with a status. -/
def parent (status : UInt64) (e : Event) : Process :=
  { p.next with children := p.children ++ [status], log := p.log ++ [e] }

/-- `wait`, and what it stores: any child that has terminated is reaped. -/
def wait : Option UInt64 × Process :=
  let i := (p.meets world).reaps % p.children.length
  (p.children[i]?, { p.next with children := p.children.eraseIdx i })

/-- `open`, `dup2` and `close` of `doRedirection`. -/
def redirect (file : String) (flags : Nat) (target : Int32) : Except Fault Process := do
  let (fd, p) ← p.open world file flags
  let (_, p) ← p.dup2 world fd target
  let (_, p) ← p.close world fd
  return p

def doRedirection : Redirection → Except Fault Process
  | .Input file => p.redirect world file O_RDONLY STDIN_FD
  | .Output file => p.redirect world file (O_WRONLY ||| O_CREAT) STDOUT_FD
  | .OutputAppend file => p.redirect world file (O_WRONLY ||| O_APPEND) STDOUT_FD

def doRedirections : List Redirection → Process → Except Fault Process
  | [], p => .ok p
  | r :: rs, p => do doRedirections rs (← p.doRedirection world r)

end Process

/-! ### Commands -/

/-- The path of the program. -/
def commandPath (name : String) : String :=
  if name.toList.contains '/' then name else "/bin/" ++ name

/-- What the child of `Atomic::run` does: where `exec` fails it returns -1. -/
def Atomic.child (execs : Bool) : Fate := if execs then .execs else .returns (-1)

/-- What the child of `Pipe::run` does once it is back from `run` of the producer. -/
def Pipe.child : Fate := .exits 0

/-- How the child of an event leaves the code of the shell. -/
def Event.fate : Event → Option Fate
  | .cd => none
  | .program _ execs _ => some (Atomic.child execs)
  | .producer => some Pipe.child

variable (world : World)

/-- The event of a program that is forked here. -/
def Atomic.forked (name : String) (p : Process) : Event :=
  let m := p.meets world
  .program p.children.length (m.execs (commandPath name)) (stored m.status)

/-- The fork of `Atomic::run`, and what `wait` leaves in `res`. -/
def Atomic.await (name : String) (p : Process) : Int32 × Process :=
  let p := p.parent (p.meets world).status (Atomic.forked world name p)
  let (status, p') := p.wait world
  ((status.map stored).getD (p.meets world).garbage, p')

/-- `Atomic::run`; after `cd` it ends without a value. -/
def Atomic.run (cmdline : List String) (redirections : List Redirection) (p : Process) :
    Except Fault (Int32 × Process) :=
  match cmdline with
  | [] => .ok (0, p)
  | name :: _ =>
    if name = "cd" then .ok ((p.meets world).garbage, { p.next with log := p.log ++ [.cd] })
    else do
      let (oldstdin, p) ← p.dup world STDIN_FD
      let (oldstdout, p) ← p.dup world STDOUT_FD
      let p ← Process.doRedirections world redirections p
      let (res, p) := Atomic.await world name p
      let (_, p) ← p.dup2 world oldstdin STDIN_FD
      let (_, p) ← p.dup2 world oldstdout STDOUT_FD
      let (_, p) ← p.close world oldstdin
      let (_, p) ← p.close world oldstdout
      return (res, p)

/-- The child of `Pipe::run` up to `run` of the producer. -/
def Pipe.connect (pipeout pipein : Int32) (p : Process) : Except Fault Process := do
  let p ← p.child world
  let (_, p) ← p.dup2 world pipein STDOUT_FD
  let (_, p) ← p.close world pipeout
  let (_, p) ← p.close world pipein
  return p

/-- The parent of `Pipe::run` up to `run` of the consumer, with the number of the saved input. -/
def Pipe.feed (pipeout pipein : Int32) (p : Process) : Except Fault (Int32 × Process) := do
  let (oldstdin, p) ← p.dup world STDIN_FD
  let (_, p) ← p.dup2 world pipeout STDIN_FD
  let (_, p) ← p.close world pipein
  let (_, p) ← p.close world pipeout
  return (oldstdin, p)

/-- The parent of `Pipe::run` after `run` of the consumer. -/
def Pipe.finish (oldstdin : Int32) (p : Process) : Except Fault Process := do
  let (_, p) := p.wait world
  let (_, p) ← p.dup2 world oldstdin STDIN_FD
  let (_, p) ← p.close world oldstdin
  return p

/-- `run` in a process; the children that run producers are run next to it. -/
def Command.run : Command → Process → Except Fault (Int32 × Process)
  | .Atomic cmdline redirections _, p => Atomic.run world cmdline redirections p
  | .IfThen cond ifcommand, p => do
    let (condres, p) ← cond.run p
    if condres = 0 then ifcommand.run p else return (0, p)
  | .If cond ifcommand elsecommand, p => do
    let (condres, p) ← cond.run p
    if condres = 0 then ifcommand.run p else elsecommand.run p
  | .Pipe producer consumer, p => do
    let (res, pipeout, pipein, p) ← p.pipe world
    if res ≠ 0 then return (-1, p)
    else
      let child ← Pipe.connect world pipeout pipein p
      let _ ← producer.run child
      let (oldstdin, p) ← Pipe.feed world pipeout pipein (p.parent 0 .producer)
      let (res, p) ← consumer.run p
      let p ← Pipe.finish world oldstdin p
      return (res, p)
  | .And command1 command2, p => do
    let (res1, p) ← command1.run p
    if res1 = 0 then command2.run p else return (res1, p)
  | .Or command1 command2, p => do
    let (res1, p) ← command1.run p
    if res1 ≠ 0 then command2.run p else return (res1, p)
  | .Seq command1 command2, p => do
    let (_, p) ← command1.run p
    command2.run p

/-- The loop of `ttsh`: a process that has descriptors 0 and 1, and no child, runs one command after
another. So does, once, the child that runs a producer. -/
def machine : Lib.Machine Process (World × Command) Fault where
  start p := Stored p.fds ∧ 2 ≤ p.fds.size ∧ p.children = []
  admits _ c := ∀ self calls, (c.1 self calls).room < kernelSpace
  apply p c := do return (← c.2.run c.1 p).2

end SupOS.Shell
