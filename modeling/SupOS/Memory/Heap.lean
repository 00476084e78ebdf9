import SupOS.Memory.Mapping

/-! `Heap` of `Memory/Heap.cpp`, and the functions of `Memory/Paging.cpp` that it needs to give frames
back. -/

namespace SupOS

open Lib

namespace Machine

variable (A : FrameAllocator) (s : Machine)

/-! ### The unsafe walk of the tables -/

/-- What `getPDphyu`, `getPTphyu` and `getphyu` do with the table at `parent`: the address in its entry
`i`, seen through the window `win`. -/
def getTableu (win parent i : Nat) : Except Fault (Nat × Machine) := do
  let s ← s.actTmp win parent
  let e ← s.readAt win i
  return (e.getAddr, s.freeTmp win)

def getPDPphyu (addr : Nat) : Except Fault Nat := do
  return (← s.readAt winPML4 (getPML4index addr)).getAddr

def getPDphyu (addr : Nat) : Except Fault (Nat × Machine) := do
  let PDP ← s.getPDPphyu addr
  s.getTableu TMPPDPOFF PDP (getPDPindex addr)

def getPTphyu (addr : Nat) : Except Fault (Nat × Machine) := do
  let (PD, s) ← s.getPDphyu addr
  s.getTableu TMPPDOFF PD (getPDindex addr)

def getphyu (addr : Nat) : Except Fault (Nat × Machine) := do
  let (PT, s) ← s.getPTphyu addr
  s.getTableu TMPPTOFF PT (getPTindex addr)

/-- The round of `freeMappingAndPhy` for one page. -/
def freePhy1 (virt : Nat) : Except Fault Machine := do
  let (page, s) ← s.getphyu virt
  s.free page

def freeMappingAndPhy (virt nbPages : Nat) : Except Fault Machine := do
  let s ← (List.range nbPages).foldlM (fun s i => s.freePhy1 (u64 (virt + i32 (i * 0x1000)))) s
  s.freeMapping A virt nbPages

end Machine

/-- The class `Heap`: `_virtAddrStart` and `_Brk`. -/
structure Heap where
  start : Nat
  size : Nat
  deriving DecidableEq, Repr

namespace Heap

variable (A : FrameAllocator) (h : Heap) (s : Machine)

def init (startAddr : Nat) : Heap := ⟨u64 (startAddr + 0xfff) / 0x1000 * 0x1000, 0⟩

/-- How often a loop from 0 to this value of an `int` is run. -/
def count (n : Nat) : Nat := if u32 n < 2 ^ 31 then u32 n else 0

/-- The round of the loop of `brk` for one new page. -/
def newPage (virt : Nat) : Except Fault Machine := do
  let (phy, s) ← s.alloc A
  s.createMapping1 A phy virt false

/-- `brk` where pages are added. -/
def grow (dist : Nat) : Except Fault (Heap × Machine) := do
  let nbNewPages := (dist - h.size + 0x1000 - 1) / 0x1000
  let startAddr := u64 (h.start + h.size)
  let s ← (List.range (count nbNewPages)).foldlM
    (fun s i => newPage A s (u64 (startAddr + i32 (i * 0x1000)))) s
  return ({ h with size := u64 (h.size + i32 (nbNewPages * 0x1000)) }, s)

/-- `brk` where pages are removed. -/
def shrink (dist : Nat) : Except Fault (Heap × Machine) := do
  let nbPages := (h.size - dist) / 0x1000
  let virt := u64 (h.start + h.size + (2 ^ 64 - i32 (nbPages * 0x1000)))
  let s ← s.freeMappingAndPhy A virt (count nbPages)
  return ({ h with size := u64 (h.size + (2 ^ 64 - i32 (nbPages * 0x1000))) }, s)

/-- `brk`, with its result. -/
def brk (addr : Nat) : Except Fault (Nat × Heap × Machine) := do
  if addr = 0 then return (h.start, h, s)
  assert (h.start ≤ addr)
  let dist := addr - h.start
  if h.size < dist then
    let r ← h.grow A s dist
    return (0, r)
  else if u64 (dist + 0x1000) < h.size then
    let r ← h.shrink A s dist
    return (0, r)
  else return (0, h, s)

end Heap

end SupOS
