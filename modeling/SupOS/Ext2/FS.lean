import SupOS.Ext2.Types
import SupOS.Lib.Bits

/-! The class `FS`: the superblock and the block group descriptors, which are kept in memory and
written back at each change, the inode table, and the allocation of blocks and inodes. -/

namespace SupOS.Ext2

open Lib

/-- A mounted file system.  `part` is the partition as a byte array; `bgd` is the array of block
group descriptors, of which the first `nbBgd` count. -/
structure FS where
  part : Bytes
  sb : SuperBlock
  bgd : Nat → BlockGroupDescriptor
  blockSize : Nat
  nbBgd : Nat

namespace FS

/-- `_loadSuperBlock` and `_loadBlockGroupDescriptor`, as the constructor calls them. -/
def mount (part : Bytes) : Except Fault FS := do
  let loaded := SuperBlock.ofBytes (part.view 1024)
  let sb := if loaded.revLevel = 0 then { loaded with inodeSize := 128 } else loaded
  let blockSize := 1024 <<< sb.logBlockSize.toNat
  let nbBgd := u32 (sb.blocksCount.toNat + 2 ^ 32 - 1) / sb.blocksPerGroup.toNat + 1
  assert (sb.magic == 0xef53)
  assert (sb.logBlockSize == sb.logFragSize)
  let addr := u32 (sb.firstDataBlock.toNat + 1) * blockSize
  return { part, sb, blockSize, nbBgd,
           bgd := fun g => BlockGroupDescriptor.ofBytes (part.view (addr + 32 * g)) }

/-- The bytes of the array `_bgd`. -/
def bgdBytes (fs : FS) : Bytes := fun i => (fs.bgd (i / 32)).toBytes (i % 32)

/-- The address of the block group descriptors on the partition. -/
def bgdAddr (fs : FS) : Nat := u32 (fs.sb.firstDataBlock.toNat + 1) * fs.blockSize

def writeBlockGroupDescriptor (fs : FS) : FS :=
  { fs with part := fs.part.blit fs.bgdAddr (fs.nbBgd * 32) fs.bgdBytes }

def writeSuperBlock (fs : FS) : FS :=
  { fs with part := fs.part.blit 1024 1024 fs.sb.toBytes }

/-- The address of an inode in the inode tables.  Inodes are numbered from 1. -/
def inodeAddr (fs : FS) (inode : Nat) : Nat :=
  let blockGroup := u32 (inode + 2 ^ 32 - 1) / fs.sb.inodesPerGroup.toNat
  let index := u32 (inode + 2 ^ 32 - 1) % fs.sb.inodesPerGroup.toNat
  (fs.bgd blockGroup).inodeTable.toNat * fs.blockSize + index * fs.sb.inodeSize.toNat

def getInodeData (fs : FS) (inode : Nat) : InodeData :=
  InodeData.ofBytes (fs.part.view (fs.inodeAddr inode))

def writeInodeData (fs : FS) (inode : Nat) (data : InodeData) : FS :=
  { fs with part := fs.part.blit (fs.inodeAddr inode) 128 data.toBytes }

/-- The bitmap in block `b`, as it is read into a buffer. -/
def bitmap (fs : FS) (b : UInt32) : Bytes := fs.part.view (b.toNat * fs.blockSize)

/-- A bitmap is written back as one block. -/
def writeBitmap (fs : FS) (b : UInt32) (buf : Bytes) : FS :=
  { fs with part := fs.part.blit (b.toNat * fs.blockSize) fs.blockSize buf }

/-- The buffer of bitmap `b` with its first zero bit set, as a byte index and a position.  This is
the inner loop of `getNewBlock` and `getNewInode`. -/
def takeBit (fs : FS) (b : UInt32) : Except Fault (Option (Nat × Nat × Bytes)) :=
  match (fs.bitmap b).firstZero fs.blockSize with
  | none => .ok none
  | some (j, pos) => do
    assert (!((fs.bitmap b) j).toNat.testBit pos)
    return some (j, pos, Function.update (fs.bitmap b) j (setBit ((fs.bitmap b) j) pos))

/-- The buffer of bitmap `b` with bit `index` cleared, as `freeBlock` and `freeInode` do. -/
def dropBit (fs : FS) (b : UInt32) (index : Nat) : Except Fault Bytes := do
  let bitmapInd := index / 8
  let byteInd := index % 8
  assert (((fs.bitmap b) bitmapInd).toNat.testBit byteInd)
  let cleared := clearBit ((fs.bitmap b) bitmapInd) byteInd
  assert (!cleared.toNat.testBit byteInd)
  return Function.update (fs.bitmap b) bitmapInd cleared

/-- The end of an allocation or a release: bitmap `b` is written back, the descriptor of group
`g` and the superblock are replaced in memory, and all descriptors and the superblock are
written. -/
def commit (fs : FS) (b : UInt32) (buf : Bytes) (g : Nat) (d : BlockGroupDescriptor)
    (sb : SuperBlock) : FS :=
  let fs' := { fs.writeBitmap b buf with bgd := Function.update fs.bgd g d, sb }
  fs'.writeBlockGroupDescriptor.writeSuperBlock

/-- The outer loop of `getNewBlock`, from iteration `i` on with `n` iterations left. -/
def getNewBlockLoop (fs : FS) (blockGroup : Nat) : (n i : Nat) → Except Fault (Nat × FS)
  | 0, _ => .error (.bsod "No space on disk :-(")
  | n + 1, i =>
    let g := (i + blockGroup) % fs.nbBgd
    let d := fs.bgd g
    if d.freeBlocksCount = 0 then getNewBlockLoop fs blockGroup n (i + 1) else
    fs.takeBit d.blockBitmap >>= fun
    | none => getNewBlockLoop fs blockGroup n (i + 1)
    | some (j, pos, buf) =>
      .ok (u32 (fs.sb.blocksPerGroup.toNat * g + 8 * j + pos),
        fs.commit d.blockBitmap buf g { d with freeBlocksCount := d.freeBlocksCount - 1 }
          { fs.sb with freeBlocksCount := fs.sb.freeBlocksCount - 1 })

/-- Find and allocate a block near an inode. -/
def getNewBlock (fs : FS) (nearInode : Nat) : Except Fault (Nat × FS) :=
  fs.getNewBlockLoop (u32 (nearInode + 2 ^ 32 - 1) / fs.sb.inodesPerGroup.toNat) fs.nbBgd 0

def freeBlock (fs : FS) (block : Nat) : Except Fault FS := do
  let blockGroup := block / fs.sb.blocksPerGroup.toNat
  let blockIndex := block % fs.sb.blocksPerGroup.toNat
  let d := fs.bgd blockGroup
  let buf ← fs.dropBit d.blockBitmap blockIndex
  return fs.commit d.blockBitmap buf blockGroup
    { d with freeBlocksCount := d.freeBlocksCount + 1 }
    { fs.sb with freeBlocksCount := fs.sb.freeBlocksCount + 1 }

/-- The outer loop of `getNewInode`, from group `i` on with `n` groups left. -/
def getNewInodeLoop (fs : FS) (isDirectory : Bool) : (n i : Nat) → Except Fault (Nat × FS)
  | 0, _ => .error (.bsod "No more inodes on disk :-(")
  | n + 1, i =>
    let d := fs.bgd i
    if d.freeInodesCount = 0 then getNewInodeLoop fs isDirectory n (i + 1) else
    fs.takeBit d.inodeBitmap >>= fun
    | none => getNewInodeLoop fs isDirectory n (i + 1)
    | some (j, pos, buf) =>
      .ok (u32 (fs.sb.inodesPerGroup.toNat * i + 8 * j + pos + 1),
        fs.commit d.inodeBitmap buf i
          { d with
            freeInodesCount := d.freeInodesCount - 1
            usedDirsCount := if isDirectory then d.usedDirsCount + 1 else d.usedDirsCount }
          { fs.sb with freeInodesCount := fs.sb.freeInodesCount - 1 })

/-- Find and allocate an inode. -/
def getNewInode (fs : FS) (isDirectory : Bool) : Except Fault (Nat × FS) :=
  fs.getNewInodeLoop isDirectory fs.nbBgd 0

def freeInode (fs : FS) (inode : Nat) (isDirectory : Bool) : Except Fault FS := do
  let inodeGroup := u32 (inode + 2 ^ 32 - 1) / fs.sb.inodesPerGroup.toNat
  let inodeIndex := u32 (inode + 2 ^ 32 - 1) % fs.sb.inodesPerGroup.toNat
  let d := fs.bgd inodeGroup
  let buf ← fs.dropBit d.inodeBitmap inodeIndex
  return fs.commit d.inodeBitmap buf inodeGroup
    { d with
      freeInodesCount := d.freeInodesCount + 1
      usedDirsCount := if isDirectory then d.usedDirsCount - 1 else d.usedDirsCount }
    { fs.sb with freeInodesCount := fs.sb.freeInodesCount + 1 }

end FS

end SupOS.Ext2
