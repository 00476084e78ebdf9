import SupOS.Ext2.FS

/-! The class `Inode`: reading, writing and resizing the data of an inode through its tree of
blocks, and its link count. -/

namespace SupOS.Ext2

open Lib

/-- Unsigned 64-bit subtraction. -/
def sub64 (n k : Nat) : Nat := u64 (n + 2 ^ 64 - k)

namespace FS

/-- `args.indirectSize`: the bytes that a tree of a level covers. -/
def indirectSize (fs : FS) : Nat → Nat
  | 0 => fs.blockSize
  | level + 1 => fs.blockSize / 4 * indirectSize fs level

/-- `args.indirectBlock`: the blocks that a full tree of a level has. -/
def indirectBlock (fs : FS) : Nat → Nat
  | 0 => 1
  | level + 1 => 1 + fs.blockSize / 4 * indirectBlock fs level

/-- The array of block numbers in block `b`, as it is read into `args.blocks[level - 1]`. -/
def pointers (fs : FS) (b : UInt32) : Nat → UInt32 :=
  fun i => UInt32.ofNat (fs.part.word (b.toNat * fs.blockSize + 4 * i) 4)

/-- `args.blocks[level - 1]` is written back as one block. -/
def writePointers (fs : FS) (b : UInt32) (blocks : Nat → UInt32) : FS :=
  { fs with part := fs.part.blit (b.toNat * fs.blockSize) fs.blockSize
                      (Bytes.words 4 fun i => (blocks i).toNat) }

end FS

/-- The level of the tree of `_data.block[j]`: twelve blocks of data, then one tree each of one,
two and three levels. -/
def rootLevel (j : Fin 15) : Nat := j - 11

/-- `ReadRecArgs`: `data` and `size` are the bytes read so far and the number still to read. -/
structure ReadRecArgs where
  addr : Nat
  data : List UInt8
  size : Nat

/-- A loop that calls `readrec` on the elements of an array until everything is read. -/
def readSlots {ι : Type} (readrec : ι → ReadRecArgs → UInt32 → ReadRecArgs) :
    List ι → ReadRecArgs → (ι → UInt32) → ReadRecArgs
  | [], args, _ => args
  | i :: is, args, blocks =>
    if args.size = 0 then args else readSlots readrec is (readrec i args (blocks i)) blocks

def readrec (fs : FS) : Nat → ReadRecArgs → UInt32 → ReadRecArgs
  | 0, args, blockId =>
    if args.size = 0 then args
    else if fs.indirectSize 0 ≤ args.addr then
      { args with addr := args.addr - fs.indirectSize 0 }
    else
      let count := min (fs.blockSize - args.addr) args.size
      { addr := 0
        data := args.data ++ fs.part.list (blockId.toNat * fs.blockSize + args.addr) count
        size := args.size - count }
  | level + 1, args, blockId =>
    if args.size = 0 then args
    else if fs.indirectSize (level + 1) ≤ args.addr then
      { args with addr := args.addr - fs.indirectSize (level + 1) }
    else
      let blocks := fs.pointers blockId
      let starti := args.addr / fs.indirectSize level
      readSlots (fun _ => readrec fs level) (List.range' starti (fs.blockSize / 4 - starti))
        { args with addr := args.addr % fs.indirectSize level } blocks

/-- `i_readaddr`: the bytes read.  They are `size` many when the tree reaches that far. -/
def FS.iReadaddr (fs : FS) (inode addr size : Nat) : List UInt8 :=
  (readSlots (fun j => readrec fs (rootLevel j)) (List.finRange 15) ⟨addr, [], size⟩
    (fs.getInodeData inode).block).data

/-- `WriteRecArgs`, with the file system and the inode that `writerec` changes.  `bytes` are the
bytes still to write, at `args.data` and as many as `args.size`. -/
structure WriteRecArgs where
  fs : FS
  data : InodeData
  addr : Nat
  bytes : List UInt8
  blockNum : Nat

namespace WriteRecArgs

/-- `_data.getBlockCount(_fs->_sb)`. -/
def blockCount (args : WriteRecArgs) : Nat := args.data.getBlockCount args.fs.sb

/-- All blocks of the tree exist already. -/
def canSkip (args : WriteRecArgs) (level : Nat) : Bool :=
  decide (args.blockNum + args.fs.indirectBlock level - 1 < args.blockCount)

/-- The tree is passed over. -/
def skip (args : WriteRecArgs) (level : Nat) : WriteRecArgs :=
  { args with
    blockNum := u32 (args.blockNum + args.fs.indirectBlock level)
    addr := args.addr - args.fs.indirectSize level }

/-- `*blockId = _fs->getNewBlock(_inode)` and `_data.incrBlockCount(1, _fs->_sb)`. -/
def newBlock (args : WriteRecArgs) (inode : Nat) : Except Fault (UInt32 × WriteRecArgs) := do
  let (b, fs) ← args.fs.getNewBlock inode
  return (UInt32.ofNat b, { args with fs, data := args.data.incrBlockCount 1 fs.sb })

/-- The bytes that fall in the block are written to it. -/
def writeBytes (args : WriteRecArgs) (blockId : UInt32) : WriteRecArgs :=
  let blockSize := args.fs.blockSize
  if args.addr < blockSize then
    let count := min (blockSize - args.addr) args.bytes.length
    { args with
      fs := { args.fs with part := args.fs.part.blit (blockId.toNat * blockSize + args.addr) count
                                    (Bytes.ofList args.bytes) }
      bytes := args.bytes.drop count
      addr := 0 }
  else { args with addr := args.addr - blockSize }

end WriteRecArgs

/-- What `writerec` returns, with the arguments and the block number that it leaves. -/
abbrev Written := Bool × WriteRecArgs × UInt32

/-- A loop that calls `writerec` on the elements of an array until everything is written. -/
def writeSlots {ι : Type} [DecidableEq ι] (writerec : ι → WriteRecArgs → UInt32 → Except Fault Written) :
    List ι → WriteRecArgs → (ι → UInt32) → Except Fault (Bool × WriteRecArgs × (ι → UInt32))
  | [], args, blocks => .ok (false, args, blocks)
  | i :: is, args, blocks =>
    if args.bytes = [] then .ok (false, args, blocks) else do
    let (w, args, blockId) ← writerec i args (blocks i)
    let (write, args, blocks) ← writeSlots writerec is args (Function.update blocks i blockId)
    return (w || write, args, blocks)

/-- The block of data at level 0, which is new when the tree does not have it yet. -/
def WriteRecArgs.dataBlock (args : WriteRecArgs) (inode : Nat) (blockId : UInt32) :
    Except Fault Written :=
  if args.blockCount ≤ args.blockNum then do
    let (blockId, args) ← args.newBlock inode
    return (true, args, blockId)
  else return (false, args, blockId)

/-- The indirect block at a level above 0 and its array, which is all 0 when the block is new. -/
def WriteRecArgs.indirectBlock (args : WriteRecArgs) (inode : Nat) (blockId : UInt32) :
    Except Fault (Written × (Nat → UInt32)) :=
  if args.blockCount ≤ args.blockNum then do
    assert (args.blockNum == args.blockCount)
    let (blockId, args) ← args.newBlock inode
    return ((true, args, blockId), fun _ => 0)
  else return ((false, args, blockId), args.fs.pointers blockId)

/-- `writerec` at level 0, on a block of data that is not passed over. -/
def writeData (inode : Nat) (args : WriteRecArgs) (blockId : UInt32) : Except Fault Written := do
  let (retVal, args, blockId) ← args.dataBlock inode blockId
  let args := args.writeBytes blockId
  return (retVal, { args with blockNum := u32 (args.blockNum + 1) }, blockId)

/-- `writerec` at level `level + 1`, on an indirect block that is not passed over.  `rec` is
`writerec` at `level`. -/
def writeIndirect (inode level : Nat) (rec : WriteRecArgs → UInt32 → Except Fault Written)
    (args : WriteRecArgs) (blockId : UInt32) : Except Fault Written := do
  let canSkip := args.canSkip (level + 1)
  let ((retVal, args, blockId), blocks) ← args.indirectBlock inode blockId
  let blockNum := u32 (args.blockNum + 1)
  let starti := if canSkip then args.addr / args.fs.indirectSize level else 0
  let args := { args with
    addr := if canSkip then args.addr % args.fs.indirectSize level else args.addr
    blockNum := u32 (blockNum + starti * args.fs.indirectBlock level) }
  let (write, args, blocks) ← writeSlots (fun _ => rec)
    (List.range' starti (args.fs.blockSize / 4 - starti)) args blocks
  assert (!retVal || write)
  let fs := if write then args.fs.writePointers blockId blocks else args.fs
  return (retVal, { args with fs }, blockId)

def writerec (inode : Nat) : Nat → WriteRecArgs → UInt32 → Except Fault Written
  | 0, args, blockId =>
    if args.bytes = [] then .ok (false, args, blockId)
    else if args.canSkip 0 && args.fs.indirectSize 0 ≤ args.addr then
      .ok (false, args.skip 0, blockId)
    else writeData inode args blockId
  | level + 1, args, blockId =>
    if args.bytes = [] then .ok (false, args, blockId)
    else if args.canSkip (level + 1) && args.fs.indirectSize (level + 1) ≤ args.addr then
      .ok (false, args.skip (level + 1), blockId)
    else writeIndirect inode level (writerec inode level) args blockId

def FS.iWriteaddr (fs : FS) (inode addr : Nat) (bytes : List UInt8) : Except Fault FS := do
  let data := fs.getInodeData inode
  let (write, args, block) ← writeSlots (fun j => writerec inode (rootLevel j)) (List.finRange 15)
    ⟨fs, data, addr, bytes, 0⟩ data.block
  let data := { args.data with block }
  let newSize := u64 (addr + bytes.length)
  if data.getSize < newSize then
    return args.fs.writeInodeData inode (data.setSize newSize)
  else if write then
    return args.fs.writeInodeData inode data
  else
    return args.fs

/-- `ResizeRecArgs`, with the file system and the inode that `resizerec` changes. -/
structure ResizeRecArgs where
  fs : FS
  data : InodeData
  sizeAfter : Nat
  sizeBefore : Nat

namespace ResizeRecArgs

/-- Both sizes are taken `n` bytes further. -/
def advance (args : ResizeRecArgs) (n : Nat) : ResizeRecArgs :=
  { args with sizeAfter := sub64 args.sizeAfter n, sizeBefore := sub64 args.sizeBefore n }

/-- `_fs->freeBlock(blockId)` and `_data.incrBlockCount(-1, _fs->_sb)`. -/
def freeBlock (args : ResizeRecArgs) (blockId : UInt32) : Except Fault ResizeRecArgs := do
  let fs ← args.fs.freeBlock blockId.toNat
  return { args with fs, data := args.data.incrBlockCount (-1) fs.sb }

end ResizeRecArgs

/-- A loop that calls `resizerec` on the elements of an array while blocks are left.  The elements
that it frees become 0; the flag says that it freed all. -/
def resizeSlots {ι : Type} [DecidableEq ι]
    (resizerec : ι → ResizeRecArgs → UInt32 → Except Fault (Bool × ResizeRecArgs)) :
    List ι → ResizeRecArgs → (ι → UInt32) → Except Fault (Bool × ResizeRecArgs × (ι → UInt32))
  | [], args, blocks => .ok (true, args, blocks)
  | i :: is, args, blocks =>
    if args.sizeBefore = 0 then .ok (true, args, blocks) else do
    let (freed, args) ← resizerec i args (blocks i)
    let (all, args, blocks) ← resizeSlots resizerec is args
      (if freed then Function.update blocks i 0 else blocks)
    return (freed && all, args, blocks)

def resizerec : Nat → ResizeRecArgs → UInt32 → Except Fault (Bool × ResizeRecArgs)
  | 0, args, blockId =>
    if args.sizeBefore = 0 then .ok (false, args)
    else if args.fs.indirectSize 0 ≤ args.sizeAfter then
      .ok (false, args.advance (args.fs.indirectSize 0))
    else if args.sizeAfter ≠ 0 then
      .ok (false, { args with
        sizeAfter := 0
        sizeBefore := sub64 args.sizeBefore args.fs.blockSize })
    else do
      let args ← args.freeBlock blockId
      return (true, { args with sizeBefore := sub64 args.sizeBefore args.fs.blockSize })
  | level + 1, args, blockId =>
    if args.sizeBefore = 0 then .ok (false, args)
    else if args.fs.indirectSize (level + 1) ≤ args.sizeAfter then
      .ok (false, args.advance (args.fs.indirectSize (level + 1)))
    else do
      let blocks := args.fs.pointers blockId
      let starti := args.sizeAfter / args.fs.indirectSize level
      let (all, args, blocks) ← resizeSlots (fun _ => resizerec level)
        (List.range' starti (args.fs.blockSize / 4 - starti))
        (args.advance (starti * args.fs.indirectSize level)) blocks
      let deleteMyself := starti == 0 && all
      let args := { args with fs := args.fs.writePointers blockId blocks }
      if deleteMyself then do
        let args ← args.freeBlock blockId
        return (true, args)
      else return (false, args)

def FS.iResize (fs : FS) (inode size : Nat) : Except Fault FS := do
  let data := fs.getInodeData inode
  if size < data.getSize then do
    let (_, args, _) ← resizeSlots (fun j => resizerec (rootLevel j)) (List.finRange 15)
      ⟨fs, data, size, u32 (alignup data.size.toNat fs.blockSize)⟩ data.block
    return args.fs.writeInodeData inode (args.data.setSize size)
  else fs.iWriteaddr inode size []

def FS.link (fs : FS) (inode : Nat) : FS :=
  let data := fs.getInodeData inode
  fs.writeInodeData inode { data with linksCount := data.linksCount + 1 }

/-- `S_IFMT`, `S_IFREG` and `S_IFDIR`, and the tests made of them. -/
def typeBits : UInt16 := 0xf000

def isReg (mode : UInt16) : Bool := mode &&& typeBits == 0x8000

def isDir (mode : UInt16) : Bool := mode &&& typeBits == 0x4000

/-- The last link frees the data and the inode, and `writeData` then writes zeros to the inode. -/
def FS.unlink (fs : FS) (inode : Nat) : Except Fault FS := do
  let data := fs.getInodeData inode
  if data.linksCount = 1 then do
    let fs ← fs.iResize inode 0
    let fs ← fs.freeInode inode (isDir (fs.getInodeData inode).mode)
    return fs.writeInodeData inode .zero
  else
    return fs.writeInodeData inode { data with linksCount := data.linksCount - 1 }

/-- A fresh inode of this owner and mode. -/
def InodeData.fresh (uid gid mode : UInt16) : InodeData := { InodeData.zero with uid, gid, mode }

def FS.getNewFile (fs : FS) (uid gid mode : UInt16) : Except Fault (Nat × FS) := do
  assert (isReg mode)
  let (inode, fs) ← fs.getNewInode false
  return (inode, fs.writeInodeData inode (.fresh uid gid mode))

/-- A directory entry: eight bytes before the name. -/
structure DirectoryEntry where
  inode : UInt32
  recLen : UInt16
  nameLen : UInt8
  type : UInt8
  deriving DecidableEq, Repr

def DirectoryEntry.bytes (e : DirectoryEntry) : Bytes :=
  Bytes.seq 4 (Bytes.byteOf e.inode.toNat) <|
  Bytes.seq 2 (Bytes.byteOf e.recLen.toNat) <|
  Bytes.seq 1 (Bytes.byteOf e.nameLen.toNat) <|
  Bytes.byteOf e.type.toNat

/-- The eight bytes of an entry. -/
def DirectoryEntry.toList (e : DirectoryEntry) : List UInt8 := e.bytes.list 0 8

/-- `FT_REG_FILE` and `FT_DIR`. -/
def ftRegFile : UInt8 := 1

def ftDir : UInt8 := 2

/-- `Directory::init`: a directory with the entry `.` only. -/
def FS.init (fs : FS) (inode : Nat) : Except Fault FS := do
  let entry : DirectoryEntry :=
    { inode := UInt32.ofNat inode, recLen := UInt16.ofNat fs.blockSize, nameLen := 1, type := ftDir }
  let fs ← fs.iResize inode fs.blockSize
  let fs ← fs.iWriteaddr inode 0 entry.toList
  let fs ← fs.iWriteaddr inode 8 [46, 0]
  return fs.link inode

def FS.getNewDirectory (fs : FS) (uid gid mode : UInt16) : Except Fault (Nat × FS) := do
  assert (isDir mode)
  let (inode, fs) ← fs.getNewInode true
  let fs := fs.writeBlockGroupDescriptor
  let fs := fs.writeInodeData inode (.fresh uid gid mode)
  let fs ← fs.init inode
  return (inode, fs)

end SupOS.Ext2
