import SupOS.Fault
import SupOS.Lib.Bytes
import SupOS.Lib.Outcome

/-! The class `HDD` of `HDD/HardDrive.cpp` over an ATA drive that transfers the words of the
addressed sectors in order. -/

namespace SupOS.HDD

open Lib

/-! ### The drive -/

/-- A command that transfers sectors: the first one, their number, and the words transferred. -/
structure Transfer where
  write : Bool
  lba : Nat
  sectors : Nat
  words : Nat
  deriving DecidableEq, Repr

/-- All words of the sectors have been transferred. -/
def Transfer.Complete (t : Transfer) : Prop := t.words = t.sectors * 256

instance (t : Transfer) : Decidable t.Complete := inferInstanceAs (Decidable (_ = _))

/-- The address of the next word. -/
def Transfer.pos (t : Transfer) : Nat := t.lba * 512 + 2 * t.words

/-- A register that keeps the last two bytes written to it. -/
structure Register where
  previous : UInt8
  current : UInt8
  deriving DecidableEq, Repr

def Register.push (r : Register) (byte : UInt8) : Register := ⟨r.current, byte⟩

/-- A drive with its sectors, its registers and its commands, the last one first. -/
structure Drive where
  master : Bool
  disk : Bytes
  count : Register
  lbaLow : Register
  lbaMid : Register
  lbaHigh : Register
  device : UInt8
  transfers : List Transfer

namespace Drive

variable (d : Drive)

/-- No transfer is under way. -/
def Idle : Prop := ∀ t, d.transfers.head? = some t → t.Complete

instance : Decidable d.Idle :=
  decidable_of_iff (d.transfers.head?.all fun t => decide t.Complete) (by
    unfold Idle
    cases d.transfers.head? <;> simp)

/-- What the count registers hold; 0 stands for the largest number. -/
def sectors : Nat :=
  let n := d.count.previous.toNat * 2 ^ 8 + d.count.current.toNat
  if n = 0 then 2 ^ 16 else n

def lba : Nat :=
  d.lbaLow.current.toNat + d.lbaMid.current.toNat * 2 ^ 8 + d.lbaHigh.current.toNat * 2 ^ 16 +
    d.lbaLow.previous.toNat * 2 ^ 24 + d.lbaMid.previous.toNat * 2 ^ 32 +
    d.lbaHigh.previous.toNat * 2 ^ 40

/-- The bit of the device register that selects the slave. -/
def selector (master : Bool) : UInt8 := if master then 0x40 else 0x50

/-- READ SECTORS EXT and WRITE SECTORS EXT. -/
def start (write : Bool) : Drive :=
  { d with transfers := ⟨write, d.lba, d.sectors, 0⟩ :: d.transfers }

/-- A command comes when no transfer is under way and the drive is selected. -/
def command (code : UInt8) : Except Fault Drive := do
  assert (decide (d.Idle ∧ d.device = selector d.master))
  if code = 0x24 then return d.start false
  else if code = 0x34 then return d.start true
  else if code = 0xe7 then return d
  else throw .assertion

/-- `outb` to the register at this distance from `_basePort`. -/
def outb (reg : Nat) (byte : UInt8) : Except Fault Drive :=
  match reg with
  | 2 => .ok { d with count := d.count.push byte }
  | 3 => .ok { d with lbaLow := d.lbaLow.push byte }
  | 4 => .ok { d with lbaMid := d.lbaMid.push byte }
  | 5 => .ok { d with lbaHigh := d.lbaHigh.push byte }
  | 6 => .ok { d with device := byte }
  | 7 => d.command byte
  | _ => .error .assertion

/-- The drive has moved to the next word of its transfer. -/
def step (write : Bool) : Except Fault (Nat × Drive) :=
  match d.transfers with
  | [] => .error .assertion
  | t :: ts => do
    assert (t.write == write && decide (t.words < t.sectors * 256))
    return (t.pos, { d with transfers := { t with words := t.words + 1 } :: ts })

/-- `inw` from the data register. -/
def inw : Except Fault (UInt16 × Drive) := do
  let (pos, d) ← d.step false
  return (UInt16.ofNat (d.disk.word pos 2), d)

/-- `outw` to the data register. -/
def outw (w : UInt16) : Except Fault Drive := do
  let (pos, d) ← d.step true
  return { d with disk := d.disk.blit pos 2 (Bytes.byteOf w.toNat) }

end Drive

/-! ### The driver -/

/-- The low and the high byte of a word. -/
def low (w : UInt16) : UInt8 := w.toUInt8

def high (w : UInt16) : UInt8 := (w >>> 8).toUInt8

variable (master : Bool) (d : Drive)

/-- `0x40 | ((!_master) << 4)` -/
def deviceByte : UInt8 :=
  let slave : UInt8 := if master then 0 else 1
  (0x40 : UInt8) ||| (slave <<< (4 : UInt8))

/-- The writes to the registers with which `readaddr` and `writelba` begin. The drive is ready
whenever its status is read. -/
def issue (LBA nbsector : Nat) (code : UInt8) : Except Fault Drive := do
  let d ← d.outb 6 (deviceByte master)
  let d ← d.outb 2 (UInt8.ofNat (nbsector >>> 8))
  let d ← d.outb 3 (UInt8.ofNat (LBA >>> 24))
  let d ← d.outb 4 0
  let d ← d.outb 5 0
  let d ← d.outb 2 (UInt8.ofNat nbsector)
  let d ← d.outb 3 (UInt8.ofNat LBA)
  let d ← d.outb 4 (UInt8.ofNat (LBA >>> 8))
  let d ← d.outb 5 (UInt8.ofNat (LBA >>> 16))
  d.outb 7 code

/-- The first loop of `readaddr`: what is left of `offset`, the count, and the drive. -/
def skip (d : Drive) : Nat → Nat → Except Fault (Nat × Nat × Drive)
  | offset + 2, count => do
    let (_, d) ← d.inw
    skip d offset (count + 1)
  | offset, count => .ok (offset, count, d)

/-- The byte at an odd offset, with the size that is left. -/
def readFirst (d : Drive) (offset size count : Nat) :
    Except Fault (List UInt8 × Nat × Nat × Drive) :=
  if offset = 1 then do
    let (w, d) ← d.inw
    return ([high w], size - 1, count + 1, d)
  else .ok ([], size, count, d)

/-- The loop over whole words. -/
def readWords (d : Drive) : Nat → Nat → Except Fault (List UInt8 × Nat × Nat × Drive)
  | size + 2, count => do
    let (w, d) ← d.inw
    let (bytes, size, count, d) ← readWords d size (count + 1)
    return (low w :: high w :: bytes, size, count, d)
  | size, count => .ok ([], size, count, d)

/-- The byte that is left. -/
def readLast (d : Drive) (size count : Nat) : Except Fault (List UInt8 × Nat × Drive) :=
  if size = 1 then do
    let (w, d) ← d.inw
    return ([low w], count + 1, d)
  else .ok ([], count, d)

/-- The loop that reads the rest of the last sector: this many words. -/
def drain (d : Drive) : Nat → Except Fault Drive
  | 0 => .ok d
  | n + 1 => do
    let (_, d) ← d.inw
    drain d n

/-- `readaddr` and the bytes that it stores from `data` on. -/
def readaddr (addr size : Nat) : Except Fault (List UInt8 × Drive) := do
  assert (decide (0 < size ∧ size < 512 * 512 ∧ addr < 2 ^ 41))
  let LBA := u32 (addr / 512)
  let endLBA := u64 (addr + size + 511) / 512
  let nbsector := u64 (endLBA + 2 ^ 64 - LBA)
  let d ← issue master d LBA nbsector 0x24
  let (offset, count, d) ← skip d (addr % 512) 0
  let (first, size, count, d) ← readFirst d offset size count
  let (middle, size, count, d) ← readWords d size count
  let (last, count, d) ← readLast d size count
  let d ← drain d (nbsector * 256 - count)
  return (first ++ middle ++ last, d)

/-- `readlba` -/
def readlba (LBA nbsector : Nat) : Except Fault (List UInt8 × Drive) :=
  readaddr master d (LBA * 512) (nbsector * 512)

/-- `writelba` -/
def writelba (LBA : Nat) (data : Bytes) (nbsector : Nat) : Except Fault Drive := do
  assert (decide (0 < nbsector ∧ nbsector < 512))
  let d ← issue master d LBA nbsector 0x34
  let d ← (List.range (nbsector * 256)).foldlM
    (fun d i => d.outw (UInt16.ofNat (data.word (2 * i) 2))) d
  d.outb 7 0xe7

/-- The last part of `writeaddr`, less than a sector. -/
def writeTail (LBA : Nat) (data : Bytes) (size : Nat) : Except Fault Drive :=
  if 0 < size then do
    let (buffer, d) ← readlba master d LBA 1
    writelba master d LBA ((Bytes.ofList buffer).blit 0 size data) 1
  else .ok d

/-- `writeaddr` from the start of a sector on. -/
def writeSectors (LBA : Nat) (data : Bytes) (size : Nat) : Except Fault Drive :=
  let toWriteSectors := size / 512
  if 0 < toWriteSectors then do
    let d ← writelba master d LBA data toWriteSectors
    writeTail master d (u32 (LBA + toWriteSectors)) (data.view (512 * toWriteSectors))
      (size - toWriteSectors * 512)
  else writeTail master d LBA data size

/-- `writeaddr` of `size` bytes of `data`. -/
def writeaddr (addr : Nat) (data : Bytes) (size : Nat) : Except Fault Drive := do
  assert (decide (size < 512 * 512))
  let LBA := u32 (addr / 512)
  let offset := addr % 512
  if offset ≠ 0 then
    let (buffer, d) ← readlba master d LBA 1
    let toCopy := min (512 - offset) size
    let d ← writelba master d LBA ((Bytes.ofList buffer).blit offset toCopy data) 1
    if toCopy = size then return d
    writeSectors master d (u32 (LBA + 1)) (data.view toCopy) (size - (512 - offset))
  else writeSectors master d LBA data size

end SupOS.HDD
