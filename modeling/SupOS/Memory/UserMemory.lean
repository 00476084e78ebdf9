import SupOS.Memory.Tables

/-! The class `UserMemory` of `Memory/UserMemory.cpp`; an object is the address of its PDP. The
windows of `PageHeap` show the frame asked for, so the frame stands for the window. -/

namespace SupOS

open Lib Entry

namespace Machine

variable (A : FrameAllocator) (s : Machine)

/-- `memcpy` of a page between the windows of two frames. -/
def copyFrame (dest src : Nat) : Machine :=
  { s with mem := fun f => if f = dest then s.mem src else s.mem f }

/-! ### Construction -/

/-- The default constructor. -/
def construct : Except Fault (Nat × Machine) := do
  let (PDP, s) ← s.alloc A
  let s ← s.actTmp TMPPDPOFF PDP
  let s ← s.blankAt TMPPDPOFF
  let (phyPD, s) ← s.alloc A
  let s ← s.actTmp TMPPDOFF phyPD
  let s ← s.blankAt TMPPDOFF
  let e ← (← s.readAt TMPPDPOFF 0).activeAddr phyPD
  let s ← s.writeAt TMPPDPOFF 0 e
  let first := (← s.readAt winFirstPD 0).getAddr
  assert (first ≠ 0)
  let e ← (← s.readAt TMPPDOFF 0).activeAddr first
  let s ← s.writeAt TMPPDOFF 0 e
  return (PDP, (s.freeTmp TMPPDOFF).freeTmp TMPPDPOFF)

/-! ### Release -/

/-- `Paging::switchUser`. -/
def switchUser (usPDP : Nat) : Except Fault Machine := do
  let e ← s.readAt winPML4 0
  if usPDP = e.getAddr then return s
  let e ← e.activeAddr usPDP
  s.writeAt winPML4 0 e

def freePages (PT : Nat) : Except Fault Machine := do
  let s ← s.actTmp TMPPTOFF PT
  let s ← (List.range 512).foldlM (fun s i => do
    let e ← s.readAt TMPPTOFF i
    if e.present then
      assert (e.getAddr ≠ 0)
      s.free e.getAddr
    else return s) s
  return s.freeTmp TMPPTOFF

/-- `freePTs(PD, start)`, where `start` is the index of the first entry, 1 for true and 0 for
false. -/
def freePTs (PD start : Nat) : Except Fault Machine := do
  let s ← s.actTmp TMPPDOFF PD
  let s ← (List.range' start (512 - start)).foldlM (fun s i => do
    let e ← s.readAt TMPPDOFF i
    if e.present then
      if e.getAddr = 0 then
        throw (.bsod "Entry %d in PD %p was present but set to 0")
      let s ← s.freePages e.getAddr
      let s ← s.free e.getAddr
      if start = 1 then s.writeAt TMPPDOFF i { e with present := false } else return s
    else return s) s
  return s.freeTmp TMPPDOFF

def freePDs (PDP : Nat) : Except Fault Machine := do
  let s ← s.actTmp TMPPDPOFF PDP
  let first ← s.readAt TMPPDPOFF 0
  let s ← s.freePTs first.getAddr 1
  let s ← (List.range' 1 511).foldlM (fun s i => do
    let e ← s.readAt TMPPDPOFF i
    if e.present then
      assert (e.getAddr ≠ 0)
      let s ← s.freePTs e.getAddr 0
      let s ← s.free e.getAddr
      s.writeAt TMPPDPOFF i { e with present := false }
    else return s) s
  return s.freeTmp TMPPDPOFF

def clear (PDP : Nat) : Except Fault Machine := do
  let default := (s.mem s.pagePT winUserPDP).getAddr
  assert (PDP ≠ default)
  let s ← if PDP = (← s.readAt winPML4 0).getAddr then s.switchUser default else pure s
  s.freePDs PDP

/-- The destructor. -/
def destroy (PDP : Nat) : Except Fault Machine := do
  let s ← s.clear PDP
  let s ← s.actTmp TMPPDPOFF PDP
  let s ← s.free (← s.readAt TMPPDPOFF 0).getAddr
  (s.freeTmp TMPPDPOFF).free PDP

/-! ### Copy -/

/-- The body of the loop of `copyPages`. -/
def copyPage (PTdest PTsrc i : Nat) : Except Fault Machine := do
  if (s.mem PTsrc i).present then
    let s := s.write PTdest i (s.mem PTsrc i)
    let (newp, s) ← s.alloc A
    let s := s.copyFrame newp (s.mem PTsrc i).getAddr
    let e ← (s.mem PTdest i).setAddr newp
    return s.write PTdest i e
  else return s.write PTdest i Entry.blank

def copyPages (PTdest PTsrc : Nat) : Except Fault Machine := do
  assert (PTdest ≠ 0 && PTsrc ≠ 0)
  (List.range 512).foldlM (fun s i => s.copyPage A PTdest PTsrc i) s

/-- The body of the loop of `copyPTs`. -/
def copyPT (PDdest PDsrc i : Nat) : Except Fault Machine := do
  if (s.mem PDsrc i).present then
    let s := s.write PDdest i (s.mem PDsrc i)
    let (newPT, s) ← s.alloc A
    let e ← (s.mem PDdest i).setAddr newPT
    let s := s.write PDdest i e
    s.copyPages A newPT (s.mem PDsrc i).getAddr
  else return s.write PDdest i Entry.blank

/-- `copyPTs(PDdest, PDsrc, start)`, where `start` is the index of the first entry. -/
def copyPTs (PDdest PDsrc start : Nat) : Except Fault Machine := do
  assert (PDdest ≠ 0 && PDsrc ≠ 0)
  (List.range' start (512 - start)).foldlM (fun s i => s.copyPT A PDdest PDsrc i) s

/-- The body of the loop of `copyPDs`. -/
def copyPD (PDPdest PDPsrc i : Nat) : Except Fault Machine := do
  if (s.mem PDPsrc i).present then
    if i = 0 then
      let newPD := (s.mem PDPdest i).getAddr
      assert (newPD ≠ 0)
      s.copyPTs A newPD (s.mem PDPsrc i).getAddr 1
    else
      let s := s.write PDPdest i (s.mem PDPsrc i)
      let (newPD, s) ← s.alloc A
      let e ← (s.mem PDPdest i).setAddr newPD
      let s := s.write PDPdest i e
      assert (newPD ≠ 0)
      s.copyPTs A newPD (s.mem PDPsrc i).getAddr 0
  else return s.write PDPdest i Entry.blank

def copyPDs (PDPdest PDPsrc : Nat) : Except Fault Machine := do
  assert (PDPdest ≠ 0 && PDPsrc ≠ 0)
  (List.range 512).foldlM (fun s i => s.copyPD A PDPdest PDPsrc i) s

/-- `operator=`. -/
def assign (PDP other : Nat) : Except Fault Machine := do
  let s ← s.clear PDP
  s.copyPDs A PDP other

/-- The copy constructor. -/
def copyConstruct (other : Nat) : Except Fault (Nat × Machine) := do
  let (PDP, s) ← s.construct A
  let s ← s.copyPDs A PDP other
  return (PDP, s)

end Machine

end SupOS
