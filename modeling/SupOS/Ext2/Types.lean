import SupOS.Lib.Bytes
import SupOS.Fault

/-! The structures of the ext2 file system as they are in memory and on the partition: the
superblock, block group descriptors, inodes and directory entries. -/

namespace SupOS.Ext2

open Lib

/-- The superblock: the fields that the file system reads or assigns, and `image`, the 1024 bytes
that it was loaded from, which hold all other fields. -/
structure SuperBlock where
  blocksCount : UInt32
  freeBlocksCount : UInt32
  freeInodesCount : UInt32
  firstDataBlock : UInt32
  logBlockSize : UInt32
  logFragSize : UInt32
  blocksPerGroup : UInt32
  inodesPerGroup : UInt32
  magic : UInt16
  revLevel : UInt32
  inodeSize : UInt16
  image : Bytes

/-- The superblock in the 1024 bytes of `b`. -/
def SuperBlock.ofBytes (b : Bytes) : SuperBlock where
  blocksCount := UInt32.ofNat (b.word 4 4)
  freeBlocksCount := UInt32.ofNat (b.word 12 4)
  freeInodesCount := UInt32.ofNat (b.word 16 4)
  firstDataBlock := UInt32.ofNat (b.word 20 4)
  logBlockSize := UInt32.ofNat (b.word 24 4)
  logFragSize := UInt32.ofNat (b.word 28 4)
  blocksPerGroup := UInt32.ofNat (b.word 32 4)
  inodesPerGroup := UInt32.ofNat (b.word 40 4)
  magic := UInt16.ofNat (b.word 56 2)
  revLevel := UInt32.ofNat (b.word 76 4)
  inodeSize := UInt16.ofNat (b.word 88 2)
  image := b

/-- The 1024 bytes of the superblock: its image with the fields that the file system assigns. -/
def SuperBlock.toBytes (sb : SuperBlock) : Bytes :=
  ((sb.image.blit 12 4 (Bytes.byteOf sb.freeBlocksCount.toNat)).blit 16 4
    (Bytes.byteOf sb.freeInodesCount.toNat)).blit 88 2 (Bytes.byteOf sb.inodeSize.toNat)

/-- A block group descriptor, 32 bytes. -/
structure BlockGroupDescriptor where
  blockBitmap : UInt32
  inodeBitmap : UInt32
  inodeTable : UInt32
  freeBlocksCount : UInt16
  freeInodesCount : UInt16
  usedDirsCount : UInt16
  pad : UInt16
  reserved : Fin 3 → UInt32

def BlockGroupDescriptor.toBytes (d : BlockGroupDescriptor) : Bytes :=
  Bytes.seq 4 (Bytes.byteOf d.blockBitmap.toNat) <|
  Bytes.seq 4 (Bytes.byteOf d.inodeBitmap.toNat) <|
  Bytes.seq 4 (Bytes.byteOf d.inodeTable.toNat) <|
  Bytes.seq 2 (Bytes.byteOf d.freeBlocksCount.toNat) <|
  Bytes.seq 2 (Bytes.byteOf d.freeInodesCount.toNat) <|
  Bytes.seq 2 (Bytes.byteOf d.usedDirsCount.toNat) <|
  Bytes.seq 2 (Bytes.byteOf d.pad.toNat) <|
  Bytes.words 4 fun j => (d.reserved (Fin.ofNat 3 j)).toNat

def BlockGroupDescriptor.ofBytes (b : Bytes) : BlockGroupDescriptor where
  blockBitmap := UInt32.ofNat (b.word 0 4)
  inodeBitmap := UInt32.ofNat (b.word 4 4)
  inodeTable := UInt32.ofNat (b.word 8 4)
  freeBlocksCount := UInt16.ofNat (b.word 12 2)
  freeInodesCount := UInt16.ofNat (b.word 14 2)
  usedDirsCount := UInt16.ofNat (b.word 16 2)
  pad := UInt16.ofNat (b.word 18 2)
  reserved j := UInt32.ofNat (b.word (20 + 4 * j) 4)

/-- An inode, 128 bytes. -/
@[ext] structure InodeData where
  mode : UInt16
  uid : UInt16
  size : UInt32
  atime : UInt32
  ctime : UInt32
  mtime : UInt32
  dtime : UInt32
  gid : UInt16
  linksCount : UInt16
  blocks : UInt32
  flags : UInt32
  reserved1 : UInt32
  block : Fin 15 → UInt32
  version : UInt32
  fileAcl : UInt32
  dirAcl : UInt32
  faddr : UInt32
  frag : UInt8
  fsize : UInt8
  pad1 : UInt16
  reserved2 : Fin 2 → UInt32

/-- The inode whose bytes are all zero, as `memset` leaves it. -/
def InodeData.zero : InodeData where
  mode := 0
  uid := 0
  size := 0
  atime := 0
  ctime := 0
  mtime := 0
  dtime := 0
  gid := 0
  linksCount := 0
  blocks := 0
  flags := 0
  reserved1 := 0
  block _ := 0
  version := 0
  fileAcl := 0
  dirAcl := 0
  faddr := 0
  frag := 0
  fsize := 0
  pad1 := 0
  reserved2 _ := 0

def InodeData.toBytes (d : InodeData) : Bytes :=
  Bytes.seq 2 (Bytes.byteOf d.mode.toNat) <|
  Bytes.seq 2 (Bytes.byteOf d.uid.toNat) <|
  Bytes.seq 4 (Bytes.byteOf d.size.toNat) <|
  Bytes.seq 4 (Bytes.byteOf d.atime.toNat) <|
  Bytes.seq 4 (Bytes.byteOf d.ctime.toNat) <|
  Bytes.seq 4 (Bytes.byteOf d.mtime.toNat) <|
  Bytes.seq 4 (Bytes.byteOf d.dtime.toNat) <|
  Bytes.seq 2 (Bytes.byteOf d.gid.toNat) <|
  Bytes.seq 2 (Bytes.byteOf d.linksCount.toNat) <|
  Bytes.seq 4 (Bytes.byteOf d.blocks.toNat) <|
  Bytes.seq 4 (Bytes.byteOf d.flags.toNat) <|
  Bytes.seq 4 (Bytes.byteOf d.reserved1.toNat) <|
  Bytes.seq 60 (Bytes.words 4 fun j => (d.block (Fin.ofNat 15 j)).toNat) <|
  Bytes.seq 4 (Bytes.byteOf d.version.toNat) <|
  Bytes.seq 4 (Bytes.byteOf d.fileAcl.toNat) <|
  Bytes.seq 4 (Bytes.byteOf d.dirAcl.toNat) <|
  Bytes.seq 4 (Bytes.byteOf d.faddr.toNat) <|
  Bytes.seq 1 (Bytes.byteOf d.frag.toNat) <|
  Bytes.seq 1 (Bytes.byteOf d.fsize.toNat) <|
  Bytes.seq 2 (Bytes.byteOf d.pad1.toNat) <|
  Bytes.words 4 fun j => (d.reserved2 (Fin.ofNat 2 j)).toNat

def InodeData.ofBytes (b : Bytes) : InodeData where
  mode := UInt16.ofNat (b.word 0 2)
  uid := UInt16.ofNat (b.word 2 2)
  size := UInt32.ofNat (b.word 4 4)
  atime := UInt32.ofNat (b.word 8 4)
  ctime := UInt32.ofNat (b.word 12 4)
  mtime := UInt32.ofNat (b.word 16 4)
  dtime := UInt32.ofNat (b.word 20 4)
  gid := UInt16.ofNat (b.word 24 2)
  linksCount := UInt16.ofNat (b.word 26 2)
  blocks := UInt32.ofNat (b.word 28 4)
  flags := UInt32.ofNat (b.word 32 4)
  reserved1 := UInt32.ofNat (b.word 36 4)
  block j := UInt32.ofNat (b.word (40 + 4 * j) 4)
  version := UInt32.ofNat (b.word 100 4)
  fileAcl := UInt32.ofNat (b.word 104 4)
  dirAcl := UInt32.ofNat (b.word 108 4)
  faddr := UInt32.ofNat (b.word 112 4)
  frag := UInt8.ofNat (b.word 116 1)
  fsize := UInt8.ofNat (b.word 117 1)
  pad1 := UInt16.ofNat (b.word 118 2)
  reserved2 j := UInt32.ofNat (b.word (120 + 4 * j) 4)

theorem ofNat_mod32 (x : UInt32) : UInt32.ofNat (x.toNat % 256 ^ 4) = x := by
  rw [Nat.mod_eq_of_lt (show x.toNat < 256 ^ 4 from x.toNat_lt), UInt32.ofNat_toNat]

theorem ofNat_mod16 (x : UInt16) : UInt16.ofNat (x.toNat % 256 ^ 2) = x := by
  rw [Nat.mod_eq_of_lt (show x.toNat < 256 ^ 2 from x.toNat_lt), UInt16.ofNat_toNat]

theorem ofNat_mod8 (x : UInt8) : UInt8.ofNat (x.toNat % 256 ^ 1) = x := by
  rw [Nat.mod_eq_of_lt (show x.toNat < 256 ^ 1 from x.toNat_lt), UInt8.ofNat_toNat]

/-- An inode read from the bytes that it was written as. -/
theorem InodeData.ofBytes_toBytes (d : InodeData) : InodeData.ofBytes d.toBytes = d := by
  have hblock : ∀ j : Fin 15, 40 + 4 * (j : Nat) - 40 = 4 * j := fun j => by omega
  have hreserved : ∀ j : Fin 2, 120 + 4 * (j : Nat) - 120 = 4 * j := fun j => by omega
  ext j <;> simp only [InodeData.ofBytes, InodeData.toBytes] <;>
    simp (disch := omega) only [Bytes.word_seq_right, Bytes.word_seq_left, Nat.reduceSub,
      Nat.sub_sub, Nat.reduceAdd, hblock, hreserved, Bytes.word_byteOf, Bytes.word_words, ofNat_mod32,
      ofNat_mod16, ofNat_mod8, Fin.ofNat_val_eq_self]

/-- `getBlockCount`: the block count measured in the file system's block size. -/
def InodeData.getBlockCount (d : InodeData) (sb : SuperBlock) : Nat :=
  d.blocks.toNat / (2 <<< sb.logBlockSize.toNat)

/-- `incrBlockCount`: the blocks are counted in units of 512 bytes. -/
def InodeData.incrBlockCount (d : InodeData) (diff : Int) (sb : SuperBlock) : InodeData :=
  { d with blocks := UInt32.ofInt (d.blocks.toNat + diff * (2 <<< sb.logBlockSize.toNat : Nat)) }

/-- `getSize` returns the low 32 bits: its second return, with `dir_acl`, is never reached. -/
def InodeData.getSize (d : InodeData) : Nat := d.size.toNat

/-- `setSize` splits the size over `size` and `dir_acl`. -/
def InodeData.setSize (d : InodeData) (sz : Nat) : InodeData :=
  { d with
    size := UInt32.ofNat sz
    dirAcl := UInt32.ofNat (sz >>> 32) }

end SupOS.Ext2
