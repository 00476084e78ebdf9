import SupOS.Processes.Waiting
import SupOS.Memory.Bitset
import SupOS.Lib.OrderedSet

/-! The classes `Process`, `ProcessGroup`, `Thread` and `Scheduler` of `Processes/`, as far as they
manage the tree of processes, their threads and the waits of parents for their children. -/

namespace SupOS

open Lib

/-- A `std::set` of pointers, by their addresses. -/
abbrev Pointers := OrderedSet Nat

/-- Which call of `waitp` made the checker of a thread; with one argument, or with this child. -/
inductive Checker
  | any
  | child (pro : Nat)
  deriving DecidableEq, Repr

structure Process where
  pid : Nat
  gid : Nat
  threads : Pointers
  parent : Option Nat
  sons : Pointers
  terminated : Bool
  mainTerminated : Bool
  returnCode : Nat

/-- `process` is the address of its process. -/
structure Thread where
  tid : Nat
  process : Nat
  checker : Option Checker

/-- The objects in memory by their addresses, and the fields of `schedul`. Groups are not addressed
otherwise than by their id, and hold their processes. -/
structure Tasks where
  processAt : Nat → Option Process
  threadAt : Nat → Option Thread
  processes : Nat → Option Nat
  threads : Nat → Option Nat
  groups : Nat → Option Pointers
  tids : Bitset
  fifo : List Nat
  current : Option Nat
  waits : Waits Nat Nat

/-- The value of the call of `waitp`, with the return code stored at `status`. -/
inductive WaitResult
  | pid (pid returnCode : Nat)
  | ECHILD
  | EBLOCK
  deriving DecidableEq, Repr

namespace Tasks

/-- A map after a write or an erasure at `i`. -/
def put {α : Type} (f : Nat → Option α) (i : Nat) (v : Option α) : Nat → Option α :=
  fun j => if j = i then v else f j

@[simp] theorem put_self {α : Type} (f : Nat → Option α) (i : Nat) (v : Option α) :
    put f i v i = v := if_pos rfl

theorem put_of_ne {α : Type} (f : Nat → Option α) {i j : Nat} (v : Option α) (h : j ≠ i) :
    put f i v j = f j := if_neg h

@[simp] theorem put_put {α : Type} (f : Nat → Option α) (i : Nat) (v w : Option α) :
    put (put f i v) i w = put f i w := by
  funext j
  by_cases hj : j = i
  · rw [hj, put_self, put_self]
  · rw [put_of_ne _ _ hj, put_of_ne _ _ hj, put_of_ne _ _ hj]

variable (s : Tasks)

/-- The process at an address. -/
def process (p : Nat) : Except Fault Process :=
  match s.processAt p with
  | some pro => .ok pro
  | none => .error .dangling

/-- The thread at an address. -/
def thread (t : Nat) : Except Fault Thread :=
  match s.threadAt t with
  | some th => .ok th
  | none => .error .dangling

def setProcess (p : Nat) (pro : Process) : Tasks :=
  { s with processAt := put s.processAt p (some pro) }

@[simp] theorem setProcess_processAt (s : Tasks) (p : Nat) (pro : Process) :
    (s.setProcess p pro).processAt = put s.processAt p (some pro) := rfl

/-- `getP`. -/
def getP (pid : Nat) : Except Fault Nat :=
  match s.processes pid with
  | some p => .ok p
  | none => .error .aborted

/-- `getG`. -/
def getG (gid : Nat) : Except Fault Pointers :=
  match s.groups gid with
  | some pros => .ok pros
  | none => .error .aborted

def addT (tid t : Nat) : Tasks :=
  { s with threads := put s.threads tid (some t), fifo := s.fifo ++ [tid] }

def addP (pid p : Nat) : Tasks := { s with processes := put s.processes pid (some p) }

/-- The first assertion of `freeT`. -/
def assertNotCurrent (tid : Nat) : Except Fault Unit :=
  match s.current with
  | none => return
  | some c => do assert ((← s.thread c).tid ≠ tid)

def freeT (tid : Nat) : Except Fault Tasks := do
  s.assertNotCurrent tid
  assert (s.threads tid).isSome
  let s := { s with threads := put s.threads tid none }
  if (s.groups tid).isNone && (s.processes tid).isNone then
    return { s with tids := ← s.tids.set tid }
  else
    return s

def freeP (pid : Nat) : Except Fault Tasks := do
  assert (s.processes pid).isSome
  let s := { s with processes := put s.processes pid none }
  if (s.groups pid).isNone then
    return { s with tids := ← s.tids.set pid }
  else
    return s

def freeG (gid : Nat) : Except Fault Tasks := do
  assert (s.groups gid).isSome
  return { s with groups := put s.groups gid none, tids := ← s.tids.set gid }

/-- `bsf` returns -1 when no bit is set. -/
def getFreshTid : Except Fault (Nat × Tasks) := do
  let res := (s.tids.bsf.getD (2 ^ 64 - 1)) % 2 ^ 16
  return (res, { s with tids := ← s.tids.unset res })

/-- `remProcess` of the group, which the group's last process deletes. -/
def remProcess (gid p : Nat) : Except Fault Tasks := do
  let pros ← s.getG gid
  assert (p ∈ pros)
  let s := { s with groups := put s.groups gid (some (pros.erase p)) }
  if (pros.erase p).isEmpty then s.freeG gid else return s

/-- `addChild`. -/
def addChild (p q : Nat) : Except Fault Tasks := do
  let pro ← s.process p
  return s.setProcess p { pro with sons := pro.sons.insert q }

/-- `addThread`. -/
def addThread (p t : Nat) : Except Fault Tasks := do
  let pro ← s.process p
  return s.setProcess p { pro with threads := pro.threads.insert t }

/-- The constructor of `Thread` at the address `t`. -/
def newThread (t tid p : Nat) : Except Fault Tasks := do
  let s := { s with
    threadAt := put s.threadAt t (some ⟨tid, p, none⟩)
    waits := { s.waits with
      waiting := fun u => if u = t then ∅ else s.waits.waiting u
      waited := fun u => if u = t then none else s.waits.waited u } }
  let s := s.addT tid t
  s.addThread p t

/-- The destructors of `Thread` and of `Waiting`. -/
def deleteThread (t : Nat) : Except Fault Tasks := do
  let th ← s.thread t
  let s ← s.freeT th.tid
  s.waits.delete t
  return { s with threadAt := put s.threadAt t none }

/-- The constructor of `Process` at the address `p`, when its group has been found. -/
def newProcess (p pid gid : Nat) : Except Fault Tasks := do
  let s := { s with
    processAt := put s.processAt p (some ⟨pid, gid, .empty, none, .empty, false, false, 0⟩)
    waits := { s.waits with waitings := fun w => if w = p then ∅ else s.waits.waitings w } }
  let s := s.addP pid p
  let pros ← s.getG gid
  return { s with groups := put s.groups gid (some (pros.insert p)) }

def orphan (q : Nat) : Except Fault Tasks := do
  let init ← s.getP 1
  let pro ← s.process q
  let s := s.setProcess q { pro with parent := some init }
  s.addChild init q

/-- The destructors of `Process` and of `Waitable`. -/
def deleteProcess (p : Nat) : Except Fault Tasks := do
  let pro ← s.process p
  assert pro.terminated
  let s ← s.freeP pro.pid
  let s ← pro.sons.toList.foldlM orphan s
  let s ← s.remProcess pro.gid p
  let pro ← s.process p
  match pro.parent with
  | none => .error .nullPointer
  | some q =>
    let par ← s.process q
    let s := s.setProcess q { par with sons := par.sons.erase p }
    assert (s.waits.waitings p = ∅)
    return { s with processAt := put s.processAt p none }

/-- The loop that deletes the threads of a process, and `_threads.clear()`; `clear`. -/
def clear (p : Nat) : Except Fault Tasks := do
  let pro ← s.process p
  let s ← pro.threads.toList.foldlM deleteThread s
  let pro ← s.process p
  return s.setProcess p { pro with threads := .empty }

def terminate (p returnCode : Nat) : Except Fault Tasks := do
  let pro ← s.process p
  let s := s.setProcess p { pro with returnCode := returnCode, terminated := true }
  let s ← s.clear p
  if pro.pid = 1 then
    .error .shutdown
  else
    match pro.parent with
    | none => .error .assertion
    | some q =>
      let _ ← s.process q
      return { s with waits := s.waits.free q }

def remThread (p t : Nat) : Except Fault Tasks := do
  let pro ← s.process p
  let s := s.setProcess p { pro with threads := pro.threads.erase t }
  if (pro.threads.erase t).isEmpty then
    assert pro.mainTerminated
    s.terminate p pro.returnCode
  else
    return s

def mainTerm (p t returnCode : Nat) : Except Fault Tasks := do
  let pro ← s.process p
  assert ((← s.thread t).tid = pro.pid)
  let s := s.setProcess p { pro with mainTerminated := true, returnCode := returnCode }
  s.remThread p t

/-- The first terminated process of the list. -/
def findTerminated : List Nat → Except Fault (Option Nat)
  | [] => return none
  | q :: sons => do
    let pro ← s.process q
    if pro.terminated then return some q else findTerminated sons

/-- The child that `nbwaitp` deletes, or else what it returns. -/
def awaited (p : Nat) (c : Checker) : Except Fault (WaitResult ⊕ Nat) := do
  let pro ← s.process p
  match c with
  | .any =>
    if pro.sons.isEmpty then return .inl .ECHILD
    match ← s.findTerminated pro.sons.toList with
    | some q => return .inr q
    | none => return .inl .EBLOCK
  | .child q =>
    if q ∉ pro.sons then return .inl .ECHILD
    if (← s.process q).terminated then return .inr q else return .inl .EBLOCK

/-- `nbwaitp` of both kinds, for a thread of the process `p`. -/
def nbwaitp (p : Nat) (c : Checker) : Except Fault (WaitResult × Tasks) := do
  match ← s.awaited p c with
  | .inl res => return (res, s)
  | .inr q =>
    let pro ← s.process q
    return (.pid pro.pid pro.returnCode, ← s.deleteProcess q)

/-- The running thread, which `enterSys` asserts. -/
def enterSys : Except Fault Nat :=
  match s.current with
  | some t => .ok t
  | none => .error .assertion

/-- `stopCurent`, which the running thread calls. -/
def stopCurent : Except Fault Tasks :=
  match s.current with
  | none => .error .nullPointer
  | some t => do
    let th ← s.thread t
    return { s with fifo := s.fifo ++ [th.tid], current := none }

/-- `timerHandler` when the thread that runs, if any, has no time left. -/
def timerHandler : Except Fault Tasks :=
  if s.current = none then return s else s.stopCurent

/-- The running thread ends, without `stopCurent`. -/
def quit : Tasks := { s with current := none }

/-- `waitp` of both kinds. -/
def waitp (t : Nat) (c : Checker) : Except Fault (WaitResult × Tasks) := do
  let th ← s.thread t
  let (res, s) ← s.nbwaitp th.process c
  if res = .EBLOCK then
    let waits ← s.waits.wait t {th.process}
    let s := { s with
      threadAt := put s.threadAt t (some { th with checker := some c }), waits := waits }
    return (res, ← s.stopCurent)
  else
    return (res, s)

/-- `syswait` with `pid` 0 or not. -/
def syswait (pid : Nat) : Except Fault (WaitResult × Tasks) := do
  let t ← s.enterSys
  if pid = 0 then s.waitp t .any else s.waitp t (.child (← s.getP pid))

/-- `OK`, with the checker that `waitp` has given. -/
def OK (t : Nat) : Except Fault (Bool × Tasks) :=
  match s.waits.waited t with
  | none => return (decide (s.waits.waiting t = ∅), s)
  | some _ => do
    let s := { s with waits := s.waits.clearWaited t }
    let th ← s.thread t
    match th.checker with
    | none => .error .nullPointer
    | some c =>
      let (res, s) ← s.nbwaitp th.process c
      let s := { s with waits := if res = .EBLOCK then s.waits.refuse t else s.waits.accept t }
      return (decide (s.waits.waiting t = ∅), s)

/-- `run` up to its next call of itself. A tid whose thread is gone is dropped, and one whose thread
still waits goes to the end of the queue. -/
def run : Except Fault Tasks := do
  assert s.current.isNone
  match s.fifo with
  | [] => .error .assertion
  | nextTid :: fifo =>
    let s := { s with fifo := fifo }
    match s.threads nextTid with
    | none => return s
    | some t =>
      let (ok, s) ← s.OK t
      return if ok then { s with current := some t } else { s with fifo := s.fifo ++ [nextTid] }

/-- `fork`, where the new objects are built at the addresses `p` and `t`. -/
def fork (p t : Nat) : Except Fault Tasks := do
  let old ← s.enterSys
  let other := (← s.thread old).process
  let (newTid, s) ← s.getFreshTid
  let gid := (← s.process other).gid
  let _ ← s.getG gid
  let s ← s.newProcess p newTid gid
  let s ← s.newThread t newTid p
  let pro ← s.process p
  let s := s.setProcess p { pro with parent := some other }
  s.addChild other p

/-- `clone`, where the new thread is built at the address `t`. -/
def clone (t : Nat) : Except Fault Tasks := do
  let old ← s.enterSys
  let p := (← s.thread old).process
  let (newTid, s) ← s.getFreshTid
  s.newThread t newTid p

/-- `exec` from the point on where the file and the arguments have been found good, with the main
thread built at the address `t`. -/
def exec (t : Nat) : Except Fault Tasks := do
  let old ← s.enterSys
  let p := (← s.thread old).process
  let s ← s.stopCurent
  let s ← s.clear p
  let pid := (← s.process p).pid
  s.newThread t pid p

def exit (returnCode : Nat) : Except Fault Tasks := do
  let t ← s.enterSys
  let p := (← s.thread t).process
  s.quit.terminate p returnCode

/-- `Thread::terminate`. -/
def terminateThread (t returnCode : Nat) : Except Fault Tasks := do
  let th ← s.thread t
  let pid := (← s.process th.process).pid
  if th.tid = pid then s.mainTerm th.process t returnCode else s.remThread th.process t

def texit (returnCode : Nat) : Except Fault Tasks := do
  let t ← s.enterSys
  let s ← s.quit.terminateThread t returnCode
  s.deleteThread t

/-- `Scheduler::init`, where the page of the bitset holds `d`. -/
def init (t : Nat) (d : Words) : Except Fault Tasks := do
  assert ((← s.thread t).tid = 1)
  let tids := (Bitset.mk d (0x1000 * 8)).fill
  let tids ← tids.unset 0
  let tids ← tids.unset 1
  return { s with tids := tids }

/-- Before init is built its group exists. -/
def empty : Tasks where
  processAt := fun _ => none
  threadAt := fun _ => none
  processes := fun _ => none
  threads := fun _ => none
  groups := put (fun _ => none) 1 (some .empty)
  tids := ⟨fun _ => 0, 0⟩
  fifo := []
  current := none
  waits := .idle

/-- What `kmain` does, with init at the address `p` and its thread at `t`. -/
def boot (p t : Nat) (d : Words) : Except Fault Tasks := do
  let s ← empty.newProcess p 1 1
  let s ← s.newThread t 1 p
  s.init t d

/-- The system calls, a round of the scheduler, and the timer's interrupt of the running thread. -/
inductive Command
  | fork (p t : Nat)
  | clone (t : Nat)
  | exec (t : Nat)
  | exit (returnCode : Nat)
  | texit (returnCode : Nat)
  | wait (pid : Nat)
  | run
  | preempt
  deriving DecidableEq, Repr

def apply : Command → Except Fault Tasks
  | .fork p t => s.fork p t
  | .clone t => s.clone t
  | .exec t => s.exec t
  | .exit returnCode => s.exit returnCode
  | .texit returnCode => s.texit returnCode
  | .wait pid => return (← s.syswait pid).2
  | .run => s.run
  | .preempt => s.timerHandler

/-- The addresses that `malloc` gives are not in use. -/
def Fresh : Command → Prop
  | .fork p t => s.processAt p = none ∧ s.threadAt t = none
  | .clone t => s.threadAt t = none
  | .exec t => s.threadAt t = none
  | _ => True

instance (c : Command) : Decidable (s.Fresh c) :=
  match c with
  | .fork p t => inferInstanceAs (Decidable (s.processAt p = none ∧ s.threadAt t = none))
  | .clone t | .exec t => inferInstanceAs (Decidable (s.threadAt t = none))
  | .exit _ | .texit _ | .wait _ | .run | .preempt => inferInstanceAs (Decidable True)

/-- The child that a wait of a thread of the process `p` deletes. -/
def reaped (p : Nat) (c : Checker) : Option Nat :=
  match s.awaited p c with
  | .ok (.inr q) => some q
  | _ => none

/-- The child that the command deletes, in a call of `wait` or in the checker of one. -/
def reaps : Command → Option Nat
  | .wait pid => do
    let th ← s.threadAt (← s.current)
    if pid = 0 then s.reaped th.process .any else s.reaped th.process (.child (← s.processes pid))
  | .run => do
    let t ← s.threads (← s.fifo.head?)
    let _ ← s.waits.waited t
    let th ← s.threadAt t
    s.reaped th.process (← th.checker)
  | _ => none

end Tasks

end SupOS
