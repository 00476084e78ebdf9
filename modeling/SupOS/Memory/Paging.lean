import SupOS.Fault
import SupOS.Lib.Outcome
import SupOS.Lib.Radix
import Mathlib.Data.Finset.Erase
import Mathlib.Data.Finset.Insert

/-! The page tables of `Memory/Paging.h` and the functions of `Memory/Paging.cpp` that map and unmap
pages of 4 KiB. The translation buffers of the processor are left out. -/

namespace SupOS

open Lib

/-- `PageEntry` and `PageTable`, which name the bits of the same words; bit 7 is `isSizeMega` in the
first and `zero` in the second, and bit 8 is `global` only in the second. -/
structure Entry where
  present : Bool
  readWrite : Bool
  user : Bool
  writeThrough : Bool
  cacheDisable : Bool
  accessed : Bool
  dirty : Bool
  isSizeMega : Bool
  global : Bool
  nothing : BitVec 3
  addr : BitVec 40
  data : BitVec 11
  zero2 : Bool
  deriving DecidableEq

namespace Entry

/-- `PageEntry()` and `PageTable()`. -/
def blank : Entry := ⟨false, true, true, false, false, false, false, false, false, 0, 0, 0, false⟩

def getAddr (e : Entry) : Nat := e.addr.toNat <<< 12

/-- The address that `setAddr` accepts. -/
def IsFrame (a : Nat) : Prop := a % 0x1000 = 0 ∧ a >>> 52 = 0

instance (a : Nat) : Decidable (IsFrame a) := inferInstanceAs (Decidable (_ ∧ _))

/-- The entry after `setAddr(a)`. -/
def withAddr (e : Entry) (a : Nat) : Entry := { e with addr := BitVec.ofNat 40 (a >>> 12) }

def setAddr (e : Entry) (a : Nat) : Except Fault Entry := do
  assert (IsFrame a)
  return e.withAddr a

/-- The entry after `activeAddr(a)`. -/
def active (e : Entry) (a : Nat) : Entry := { e with present := true }.withAddr a

def activeAddr (e : Entry) (a : Nat) : Except Fault Entry := { e with present := true }.setAddr a

/-- The entry that `createMapping` stores for the page at `virt`. -/
def mapped (e : Entry) (phy virt : Nat) (wt : Bool) : Entry :=
  let e := { e.active phy with writeThrough := wt }
  if 2 ^ 63 ≤ virt then { e with global := true } else e

/-- The table that the entry of a table points to. -/
def child (e : Entry) : Option Nat := if e.present && !e.isSizeMega then some e.getAddr else none

theorem isFrame_getAddr (e : Entry) : IsFrame e.getAddr := by
  have h := e.addr.isLt
  unfold IsFrame getAddr
  rw [Nat.shiftLeft_eq, Nat.shiftRight_eq_div_pow]
  omega

theorem getAddr_withAddr (e : Entry) {a : Nat} (h : IsFrame a) : (e.withAddr a).getAddr = a := by
  unfold IsFrame at h
  rw [Nat.shiftRight_eq_div_pow] at h
  rw [getAddr, withAddr, BitVec.toNat_ofNat, Nat.shiftLeft_eq, Nat.shiftRight_eq_div_pow]
  omega

theorem getAddr_active (e : Entry) {a : Nat} (h : IsFrame a) : (e.active a).getAddr = a :=
  getAddr_withAddr _ h

@[simp] theorem present_active (e : Entry) (a : Nat) : (e.active a).present = true := rfl

@[simp] theorem isSizeMega_active (e : Entry) (a : Nat) :
    (e.active a).isSizeMega = e.isSizeMega := rfl

theorem setAddr_eq (e : Entry) {a : Nat} (h : IsFrame a) : e.setAddr a = .ok (e.withAddr a) := by
  rw [setAddr, decide_eq_true h]
  rfl

theorem activeAddr_eq (e : Entry) {a : Nat} (h : IsFrame a) : e.activeAddr a = .ok (e.active a) :=
  setAddr_eq _ h

@[simp] theorem child_blank : blank.child = none := rfl

theorem child_of_not_present {e : Entry} (h : e.present = false) : e.child = none := by
  simp [child, h]

theorem child_of_present {e : Entry} (h : e.present = true) (hm : e.isSizeMega = false) :
    e.child = some e.getAddr := by
  simp [child, h, hm]

theorem child_eq_some {e : Entry} {f : Nat} :
    e.child = some f ↔ e.present = true ∧ e.isSizeMega = false ∧ e.getAddr = f := by
  cases hp : e.present <;> cases hm : e.isSizeMega <;> simp [child, hp, hm]

end Entry

/-- What is relied on of the physical memory allocator: a frame it hands out is not in use, and its
address is that of a frame. `pick` gives the next one from the set of those in use. -/
structure FrameAllocator where
  pick : Finset Nat → Option Nat
  fresh : ∀ used f, pick used = some f → f ∉ used ∧ f ≠ 0 ∧ Entry.IsFrame f

/-- Physical memory as the words of the frames, the frame of the PML4, the frame of the page table
that holds Paging's own windows, and the frames in use. -/
structure Machine where
  mem : Store Entry
  pml4 : Nat
  pagePT : Nat
  used : Finset Nat

namespace Machine

variable (A : FrameAllocator) (s : Machine)

/-- Word `i` of frame `f` is written. -/
def write (f i : Nat) (e : Entry) : Machine :=
  { s with mem := fun g j => if g = f ∧ j = i then e else s.mem g j }

/-- `physmemalloc.alloc()`. -/
def alloc : Except Fault (Nat × Machine) :=
  match A.pick s.used with
  | none => .error .outOfMemory
  | some f => .ok (f, { s with used := insert f s.used })

/-- `physmemalloc.free(page)`. -/
def free (page : Nat) : Except Fault Machine :=
  if page ∈ s.used then .ok { s with used := s.used.erase page }
  else .error (.bsod "Trying to free physical page %p which is already free")

/-! ### Paging's windows -/

/-- The frame that the virtual page of entry `k` of `pagePT` shows. -/
def window (k : Nat) : Except Fault Nat :=
  if (s.mem s.pagePT k).present then .ok (s.mem s.pagePT k).getAddr else .error .pageFault

/-- Word `i` of the page that entry `k` shows. -/
def readAt (k i : Nat) : Except Fault Entry := do
  let f ← s.window k
  return s.mem f i

def writeAt (k i : Nat) (e : Entry) : Except Fault Machine := do
  let f ← s.window k
  return s.write f i e

/-- `new(page) PageEntry[512]` for the page that entry `k` shows. -/
def blankAt (k : Nat) : Except Fault Machine := do
  let f ← s.window k
  return { s with mem := fun g j => if g = f then Entry.blank else s.mem g j }

/-- The entries of `pagePT` for `PML4`, `userPDP`, `firstPD` and the temporary windows. -/
def winPML4 : Nat := 0
def winUserPDP : Nat := 6
def winFirstPD : Nat := 7
def TMPPDPOFF : Nat := 0xA
def TMPPDOFF : Nat := 0xB
def TMPPTOFF : Nat := 0xC

/-- `actTmpPDP`, `actTmpPD` and `actTmpPT`. -/
def actTmp (k phy : Nat) : Except Fault Machine := do
  assert (!(s.mem s.pagePT k).present)
  let e ← (s.mem s.pagePT k).activeAddr phy
  return s.write s.pagePT k e

/-- `freeTmpPDP`, `freeTmpPD` and `freeTmpPT`. -/
def freeTmp (k : Nat) : Machine := s.write s.pagePT k { s.mem s.pagePT k with present := false }

/-! ### Tables -/

end Machine

def getPML4index (addr : Nat) : Nat := (addr >>> 39) % 512

def getPDPindex (addr : Nat) : Nat := (addr >>> 30) % 512

def getPDindex (addr : Nat) : Nat := (addr >>> 21) % 512

def getPTindex (addr : Nat) : Nat := (addr >>> 12) % 512

namespace Machine

variable (A : FrameAllocator) (s : Machine)

def getPDPphy (addr : Nat) : Except Fault Nat := do
  let PDP := (← s.readAt winPML4 (getPML4index addr)).getAddr
  if PDP ≠ 0 then return PDP
  throw (.bsod "More than 2 PDPs ?")

/-- The part that `getPDphy` and `getPTphy` share: entry `i` of the table at `parent`, seen through
window `win`, with a new table initialised through window `sub` where there is none; `check` is the assertion of `getPDphy` on the new
table. -/
def getTable (win sub parent i : Nat) (check : Bool) : Except Fault (Nat × Machine) := do
  let s ← s.actTmp win parent
  let e ← s.readAt win i
  if e.present then
    assert (e.getAddr ≠ 0)
    return (e.getAddr, s.freeTmp win)
  let (t, s) ← s.alloc A
  let s ← s.actTmp sub t
  let s ← s.blankAt sub
  assert (!check || !(← s.readAt sub 2).present)
  let s := s.freeTmp sub
  let e ← (← s.readAt win i).activeAddr t
  let s ← s.writeAt win i e
  return (t, s.freeTmp win)

def getPDphy (addr : Nat) : Except Fault (Nat × Machine) := do
  let PDP ← s.getPDPphy addr
  s.getTable A TMPPDPOFF TMPPDOFF PDP (getPDPindex addr) true

def getPTphy (addr : Nat) : Except Fault (Nat × Machine) := do
  let (PD, s) ← s.getPDphy A addr
  s.getTable A TMPPDOFF TMPPTOFF PD (getPDindex addr) false

/-! ### Pages -/

/-- `createMapping(phy, virt, wt)`. -/
def createMapping1 (phy virt : Nat) (wt : Bool) : Except Fault Machine := do
  if phy % 0x1000 ≠ 0 then
    throw (.bsod "Create mapping : physical address is not page-aligned : %p")
  if virt % 0x1000 ≠ 0 then
    throw (.bsod "Create mapping : virtual address is not page-aligned : %p")
  if phy >>> 52 ≠ 0 then
    throw (.bsod "Create mapping : physical address is too large (more than 52 bits)")
  let (PT, s) ← s.getPTphy A virt
  let s ← s.actTmp TMPPTOFF PT
  let e ← s.readAt TMPPTOFF (getPTindex virt)
  if e.present then
    throw (.bsod "The virtual page %p was already mapped to %p")
  let e ← e.activeAddr phy
  let e := { e with writeThrough := wt }
  let e := if 2 ^ 63 ≤ virt then { e with global := true } else e -- in kernel space
  let s ← s.writeAt TMPPTOFF (getPTindex virt) e
  return s.freeTmp TMPPTOFF

/-- `createMapping(phy, virt, numPg, wt)`. -/
def createMapping (phy virt numPg : Nat) (wt : Bool) : Except Fault Machine :=
  (List.range numPg).foldlM
    (fun s i => s.createMapping1 A (u64 (phy + u32 (i * 0x1000))) (u64 (virt + u32 (i * 0x1000))) wt) s

/-- The round of `freeMapping` for one page. -/
def freeMapping1 (virt : Nat) : Except Fault Machine := do
  let (PT, s) ← s.getPTphy A virt
  let s ← s.actTmp TMPPTOFF PT
  let e ← s.readAt TMPPTOFF (getPTindex virt)
  assert e.present
  let s ← s.writeAt TMPPTOFF (getPTindex virt) { e with present := false }
  return s.freeTmp TMPPTOFF

/-- `freeMapping(virt, nbPages)`. -/
def freeMapping (virt nbPages : Nat) : Except Fault Machine :=
  (List.range nbPages).foldlM (fun s i => s.freeMapping1 A (u64 (virt + i * 0x1000))) s

end Machine

end SupOS
