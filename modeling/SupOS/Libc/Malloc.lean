import SupOS.Fault
import SupOS.Lib.Bytes
import SupOS.Lib.Outcome

/-! The heap of `libc/src/malloc.cpp`: headers of 8 bytes in front of the blocks, a copy of the header at
the end of each free block, and a header of size 0 in front of the break. -/

namespace SupOS.Libc.Malloc

open Lib

/-- The header of a block; the bit-field `size` counts words of 8 bytes. -/
structure MallocHeader where
  size : BitVec 61
  parity : Bool
  prevFree : Bool
  free : Bool
  deriving DecidableEq

namespace MallocHeader

def seemsValid (h : MallocHeader) : Bool := h.parity ^^ h.prevFree ^^ h.free

def update (h : MallocHeader) : MallocHeader := { h with parity := !(h.prevFree ^^ h.free) }

def setFree (h : MallocHeader) (f : Bool) : MallocHeader := { h with free := f }.update

def setPFree (h : MallocHeader) (pf : Bool) : MallocHeader := { h with prevFree := pf }.update

def getSize (h : MallocHeader) : Nat := h.size.toNat * 8

def setSize (h : MallocHeader) (sz : Nat) : Except Fault MallocHeader := do
  assert (sz % 8 = 0)
  return { h with size := BitVec.ofNat 61 (sz / 8) }

/-- The 8 bytes of a header as a number. -/
def encode (h : MallocHeader) : Nat :=
  h.size.toNat + 2 ^ 61 * h.parity.toNat + 2 ^ 62 * h.prevFree.toNat + 2 ^ 63 * h.free.toNat

def decode (w : Nat) : MallocHeader where
  size := BitVec.ofNat 61 w
  parity := w / 2 ^ 61 % 2 = 1
  prevFree := w / 2 ^ 62 % 2 = 1
  free := w / 2 ^ 63 % 2 = 1

theorem encode_lt (h : MallocHeader) : h.encode < 256 ^ 8 := by
  have hsize := h.size.isLt
  have hparity := h.parity.toNat_le
  have hprev := h.prevFree.toNat_le
  have hfree := h.free.toNat_le
  unfold encode
  omega

theorem decode_encode (h : MallocHeader) : decode h.encode = h := by
  obtain ⟨size, parity, prevFree, free⟩ := h
  have hsize := size.isLt
  have hmod : (encode ⟨size, parity, prevFree, free⟩) % 2 ^ 61 = size.toNat := by
    simp only [encode]
    omega
  unfold decode
  congr 1
  · rw [← BitVec.toNat_inj, BitVec.toNat_ofNat, hmod]
  all_goals
    cases parity <;> cases prevFree <;> cases free <;> simp [encode] <;> omega

end MallocHeader

/-- The header at an address. -/
def load (m : Bytes) (addr : Nat) : MallocHeader := .decode (m.word addr 8)

/-- The memory after a header is written. -/
def store (m : Bytes) (addr : Nat) (h : MallocHeader) : Bytes := m.blit addr 8 (Bytes.byteOf h.encode)

/-- The bounds of the break: `brk` succeeds within them.  A heap starts on an aligned address and lies in one
half of the address space. -/
structure Bounds where
  start : Nat
  limit : Nat
  pos : 0 < start
  aligned : start % 8 = 0
  limit_lt : limit < 2 ^ 64
  half : limit ≤ start + 2 ^ 63

/-- The memory and the variables of the file. -/
structure State where
  mem : Bytes
  Brk : Nat
  firstHeader : Nat

section

variable (B : Bounds)

/-- `brk` of an address, when it succeeds. -/
def brk (addr : Nat) : Except Fault Unit :=
  if B.start ≤ addr ∧ addr ≤ B.limit then .ok () else .error .outOfMemory

/-- The offset is that of `intptr_t` modulo 2 ^ 64. -/
def sbrk (s : State) (offset : Nat) : Except Fault (State × Nat) := do
  let before := if s.Brk = 0 then B.start else s.Brk
  assert (before ≠ 0)
  brk B (u64 (before + offset))
  return ({ s with Brk := u64 (before + offset) }, before)

/-- The header in front of the break. -/
def endHeader : MallocHeader := { size := 0, parity := true, prevFree := false, free := false }

def initmalloc (m : Bytes) : Except Fault State := do
  let (s, addr) ← sbrk B { mem := m, Brk := 0, firstHeader := 0 } 8
  return { s with mem := store s.mem addr endHeader, firstHeader := addr }

end

def headerToPtr (head : Nat) : Nat := u64 (head + 8)

def ptrToHeader (m : Bytes) (ptr : Nat) : Except Fault Nat := do
  let res := u64 (ptr + 2 ^ 64 - 8)
  assert (load m res).seemsValid
  return res

def getPrevBoundaryTag (m : Bytes) (head : Nat) : Except Fault Nat := do
  assert ((load m head).prevFree && (load m head).seemsValid)
  let res := u64 (head + 2 ^ 64 - 8)
  assert (load m res).seemsValid
  return res

def getNextBoundaryTag (m : Bytes) (head : Nat) : Except Fault Nat := do
  assert ((load m head).free && (load m head).seemsValid)
  return u64 (head + (load m head).getSize)

def nextHeader (m : Bytes) (head : Nat) (init : Bool) : Except Fault Nat := do
  assert (load m head).seemsValid
  let res := u64 (head + (load m head).getSize + 8)
  assert (init || (load m res).seemsValid)
  return res

/-- The arithmetic is that of `size_t`. -/
def align8 (n : Nat) : Nat := u64 (n + 7) / 8 * 8

/-- `head->setSize(sz)`. -/
def resize (m : Bytes) (head sz : Nat) : Except Fault Bytes := do
  return store m head (← (load m head).setSize sz)

/-- The branch of `malloc` at the end of the list. -/
def extend (B : Bounds) (s : State) (head size : Nat) : Except Fault (State × Nat) := do
  let (s, newAddr) ← sbrk B s (u64 (8 + size))
  assert (headerToPtr head = newAddr)
  let m ← resize s.mem head size
  let m := store m head ((load m head).setFree false)
  let nextHead ← nextHeader m head true
  return ({ s with mem := store m nextHead endHeader }, headerToPtr head)

/-- The block that `malloc` takes is split in two. -/
def split (m : Bytes) (head size : Nat) : Except Fault Bytes := do
  let oldNxtHead ← nextHeader m head false
  let oldSize := (load m head).getSize
  let m ← resize m head size
  let nxtHead ← nextHeader m head true
  let m ← resize m nxtHead (oldSize - size - 8)
  let m := store m nxtHead { load m nxtHead with free := true, prevFree := false }.update
  assert (oldNxtHead = (← nextHeader m nxtHead false))
  let m := store m (← getNextBoundaryTag m nxtHead) (load m nxtHead)
  assert ((← getNextBoundaryTag m nxtHead) =
    (← getPrevBoundaryTag m (← nextHeader m nxtHead false)))
  assert (load m oldNxtHead).prevFree
  return m

/-- The branch of `malloc` at a free block with enough space. -/
def take (m : Bytes) (head size : Nat) : Except Fault Bytes := do
  let m := store m head ((load m head).setFree false)
  let m ← if 2 * 8 ≤ (load m head).getSize - size then split m head size else pure m
  let nxtHead ← nextHeader m head false
  return store m nxtHead ((load m nxtHead).setPFree false)

/-- The loop of `malloc`. -/
def search (B : Bounds) (s : State) (size : Nat) : Nat → Nat → Except Fault (State × Nat)
  | 0, _ => .error .diverges
  | fuel + 1, head =>
    if (load s.mem head).size = 0 then extend B s head size
    else if (load s.mem head).free ∧ size ≤ (load s.mem head).getSize then do
      return ({ s with mem := ← take s.mem head size }, headerToPtr head)
    else do search B s size fuel (← nextHeader s.mem head false)

/-- A list of headers below the break has fewer of them than the break. -/
def malloc (B : Bounds) (s : State) (size : Nat) : Except Fault (State × Nat) := do
  let size := align8 size
  let head := s.firstHeader
  assert (load s.mem head).seemsValid
  search B s size s.Brk head

/-- `free` merges a block with the next one. -/
def mergeNext (m : Bytes) (head : Nat) : Except Fault Bytes := do
  let nxtHead ← nextHeader m head false
  if (load m nxtHead).size ≠ 0 ∧ (load m nxtHead).free then
    let oldNxtNxtHead ← nextHeader m nxtHead false
    let m ← resize m head (u64 ((load m head).getSize + (load m nxtHead).getSize + 8))
    assert (oldNxtNxtHead = (← nextHeader m head false))
    return m
  else return m

/-- `free` merges a block with the previous one, and copies the boundary tag. -/
def mergePrev (m : Bytes) (head : Nat) : Except Fault (Bytes × Nat) := do
  if (load m head).prevFree then
    let oldNxtHead ← nextHeader m head false
    let boundTag ← getPrevBoundaryTag m head
    let prevHead := u64 (boundTag + 2 ^ 64 - (load m boundTag).getSize)
    assert ((← nextHeader m prevHead false) = head)
    let m ← resize m prevHead (u64 ((load m prevHead).getSize + (load m head).getSize + 8))
    assert ((← nextHeader m prevHead false) = oldNxtHead)
    return (store m (← getNextBoundaryTag m prevHead) (load m prevHead), prevHead)
  else return (store m (← getNextBoundaryTag m head) (load m head), head)

/-- `free` gives the memory of the last block back. -/
def giveBack (B : Bounds) (s : State) (head : Nat) : Except Fault State := do
  let nxtHead ← nextHeader s.mem head false
  if (load s.mem nxtHead).size = 0 then
    let m := store s.mem head { load s.mem head with free := false, prevFree := false }.update
    let (s, _) ← sbrk B { s with mem := m } (u64 (2 ^ 64 - u64 ((load m head).getSize + 8)))
    return { s with mem := store s.mem head { load s.mem head with size := 0 } }
  else return s

def free (B : Bounds) (s : State) (ptr : Nat) : Except Fault State := do
  if ptr = 0 then return s
  let head ← ptrToHeader s.mem ptr
  assert (load s.mem head).seemsValid
  assert (!(load s.mem head).free)
  let m := store s.mem head ((load s.mem head).setFree true)
  let nxtHead ← nextHeader m head false
  let m := store m nxtHead ((load m nxtHead).setPFree true)
  let m ← mergeNext m head
  let (m, head) ← mergePrev m head
  giveBack B { s with mem := m } head

def memcpy (m : Bytes) (dest src n : Nat) : Bytes := m.blit dest n (m.view src)

def realloc (B : Bounds) (s : State) (ptr size : Nat) : Except Fault (State × Nat) := do
  if ptr = 0 ∧ size = 0 then return (s, 0)
  if size = 0 then
    return (← free B s ptr, 0)
  let (s, n) ← malloc B s size
  if ptr ≠ 0 then
    let oldSize := (load s.mem (← ptrToHeader s.mem ptr)).getSize
    let toCopy := if size > oldSize then oldSize else size
    let s ← free B { s with mem := memcpy s.mem n ptr toCopy } ptr
    return (s, n)
  return (s, n)

end SupOS.Libc.Malloc
