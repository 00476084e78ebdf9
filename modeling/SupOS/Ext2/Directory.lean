import SupOS.Ext2.Listing

/-! `Ext2::Directory`: how entries are added and removed, over the records in the data. -/

namespace SupOS.Ext2

open Lib

/-- The directory file types but for `ftRegFile` and `ftDir`. -/
def ftUnknown : UInt8 := 0

def ftChrdev : UInt8 := 3

def ftBlkdev : UInt8 := 4

def ftFifo : UInt8 := 5

def ftSock : UInt8 := 6

def ftSymlink : UInt8 := 7

def inodeToDirType (mode : UInt16) : UInt8 :=
  if isReg mode then ftRegFile
  else if isDir mode then ftDir
  else if mode &&& typeBits == 0x2000 then ftChrdev
  else if mode &&& typeBits == 0x6000 then ftBlkdev
  else if mode &&& typeBits == 0x1000 then ftFifo
  else if mode &&& typeBits == 0xa000 then ftSock
  else if mode &&& typeBits == 0xc000 then ftSymlink
  else ftUnknown

/-- The name of the entry for the directory above. -/
def dotDot : List UInt8 := [46, 46]

namespace FS

variable (fs : FS) (dir : Nat)

/-- The end of `addEntry`: the entry of `inode` goes to `targetPos`, and the record at `curPos` ends
there. -/
def putRecord (name : List UInt8) (inode curPos targetPos : Nat) : Except Fault FS := do
  let entry := fs.entryAt dir curPos
  let nextPos := fs.nextRecord dir curPos
  let neededSize := u32 (8 + name.length)
  let recLen :=
    if fs.scanEnd dir ≤ nextPos then
      u32 (u32 (alignup (u32 (targetPos + neededSize)) fs.blockSize) + 2 ^ 32 - targetPos)
    else u32 (nextPos + 2 ^ 32 - targetPos)
  let newEntry : DirectoryEntry :=
    { inode := UInt32.ofNat inode, recLen := UInt16.ofNat recLen, nameLen := UInt8.ofNat name.length,
      type := inodeToDirType (fs.getInodeData inode).mode }
  let fs ← fs.iWriteaddr dir targetPos newEntry.toList
  let fs ← fs.iWriteaddr dir (targetPos + 8)
    (if u32 (targetPos + neededSize) < newEntry.recLen.toNat then name ++ [0] else name)
  fs.iWriteaddr dir curPos
    { entry with recLen := UInt16.ofNat (u32 (targetPos + 2 ^ 32 - curPos)) }.toList

/-- `addEntry` from `link` on, with at most `fuel` rounds of the loop. -/
def linkRecord (fuel : Nat) (name : List UInt8) (inode : Nat) : Except Fault FS := do
  let fs := fs.link inode
  let (curPos, targetPos, _) ← fs.findPlace dir (u32 (8 + name.length)) fuel 0
  fs.putRecord dir name inode curPos targetPos

/-- `addEntry`. A directory gets the entry for the directory above first. -/
def addEntry (fuel : Nat) (name : List UInt8) (inode : Nat) : Except Fault FS := do
  let fs ←
    if isDir (fs.getInodeData inode).mode ∧ name ≠ dotDot then fs.linkRecord inode fuel dotDot dir
    else pure fs
  fs.linkRecord dir fuel name inode

/-- The loop of `removeEntry`, where `curPos` and `pos` are those of the last round and of the next: the
positions before the last two calls of `read`, and the entry with the name. -/
def findRecord (name : List UInt8) (rounds : Nat) :
    Nat → Nat → Nat → Except Fault (Nat × Nat × DirectoryEntry)
  | 0, _, _ => .error .diverges
  | fuel + 1, curPos, pos => do
    match ← fs.readdir dir rounds pos with
    | (none, _, _) =>
      .error (.bsod "HDD::Ext2::Directory::removeEntry called with a file that doesn't exists!\n")
    | (some d, pos', _) =>
      if cString d.2 = name then return (curPos, pos, d.1) else findRecord name rounds fuel pos pos'

/-- The end of `removeEntry`: the record before gets the bytes of the one that goes. The field `rec_len`
of the first record is what was on the stack. -/
def dropRecord (stack : UInt16) (lastPos curPos : Nat) (recLen : UInt16) : Except Fault FS :=
  if curPos = 0 then
    fs.iWriteaddr dir 0 (DirectoryEntry.toList ⟨0, stack, 0, ftUnknown⟩)
  else
    let lastEntry := fs.entryAt dir lastPos
    fs.iWriteaddr dir lastPos { lastEntry with recLen := lastEntry.recLen + recLen }.toList

/-- `removeEntry` of an entry that is no directory or is named `..`. -/
def unlinkRecord (fuel : Nat) (stack : UInt16) (name : List UInt8) : Except Fault FS := do
  let (lastPos, curPos, entry) ← fs.findRecord dir name fuel fuel 0 0
  let fs ← fs.unlink entry.inode.toNat
  fs.dropRecord dir stack lastPos curPos entry.recLen

/-- `removeEntry`. A directory loses the entry for the directory above. -/
def removeEntry (fuel : Nat) (stack : UInt16) (name : List UInt8) : Except Fault FS := do
  let (lastPos, curPos, entry) ← fs.findRecord dir name fuel fuel 0 0
  let fs ← fs.unlink entry.inode.toNat
  let fs ←
    if entry.type = ftDir ∧ name ≠ dotDot then fs.unlinkRecord entry.inode.toNat fuel stack dotDot
    else pure fs
  fs.dropRecord dir stack lastPos curPos entry.recLen

/-- `deleteDir` from a position on. -/
def deleteDir (rounds : Nat) : Nat → FS → Nat → Except Fault FS
  | 0, _, _ => .error .diverges
  | fuel + 1, fs, pos => do
    match ← fs.readdir dir rounds pos with
    | (none, _, _) => return fs
    | (some d, pos, _) => deleteDir rounds fuel (← fs.unlink d.1.inode.toNat) pos

/-- `removeDirectory` -/
def removeDirectory (fuel : Nat) (stack : UInt16) (name : List UInt8) : Except Fault FS := do
  let (inode, _) ← fs.findInode dir name fuel fuel
  assert (decide (inode ≠ 0) && isDir (fs.getInodeData inode.toNat).mode)
  let fs ← fs.removeEntry dir fuel stack name
  deleteDir inode.toNat fuel fuel fs 0

variable {fs dir}

theorem addEntry_eq {fuel inode : Nat} {name : List UInt8}
    (hnot : ¬(isDir (fs.getInodeData inode).mode = true ∧ name ≠ dotDot)) :
    fs.addEntry dir fuel name inode = fs.linkRecord dir fuel name inode := by
  unfold addEntry
  rw [if_neg hnot]
  rfl

end FS

end SupOS.Ext2
