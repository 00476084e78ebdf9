import SupOS.Ext2.FS

/-! Where the parts of the file system lie on the partition: the areas of its metadata, their
separation from one another and from the data blocks, and the bits of the bitmaps. -/

namespace SupOS.Ext2

open Lib

/-- The numbers that fix the place of everything on the partition.  No operation on a mounted
file system changes them. -/
@[ext] structure Geometry where
  blockSize : Nat
  nbBgd : Nat
  blocksCount : Nat
  blocksPerGroup : Nat
  inodesPerGroup : Nat
  inodeSize : Nat
  bgdAddr : Nat
  blockBitmap : Nat → Nat
  inodeBitmap : Nat → Nat
  inodeTable : Nat → Nat
  firstDataBlock : Nat
  /-- The number of 512-byte units in a block. -/
  sectors : Nat

def FS.geometry (fs : FS) : Geometry where
  blockSize := fs.blockSize
  nbBgd := fs.nbBgd
  blocksCount := fs.sb.blocksCount.toNat
  blocksPerGroup := fs.sb.blocksPerGroup.toNat
  inodesPerGroup := fs.sb.inodesPerGroup.toNat
  inodeSize := fs.sb.inodeSize.toNat
  bgdAddr := fs.bgdAddr
  blockBitmap g := (fs.bgd g).blockBitmap.toNat
  inodeBitmap g := (fs.bgd g).inodeBitmap.toNat
  inodeTable g := (fs.bgd g).inodeTable.toNat
  firstDataBlock := fs.sb.firstDataBlock.toNat
  sectors := 2 <<< fs.sb.logBlockSize.toNat

/-- The areas of the metadata that the file system reads or writes. -/
inductive Area
  | superBlock
  | descriptors
  | blockBitmap (g : Nat)
  | inodeBitmap (g : Nat)
  | inodeTable (g : Nat)
  deriving DecidableEq

/-- The superblock and the descriptors are written after every change of the bitmaps and never
read again after the mount. -/
def Area.writeOnly : Area → Prop
  | superBlock | descriptors => True
  | _ => False

namespace Geometry

def start (G : Geometry) : Area → Nat
  | .superBlock => 1024
  | .descriptors => G.bgdAddr
  | .blockBitmap g => G.blockBitmap g * G.blockSize
  | .inodeBitmap g => G.inodeBitmap g * G.blockSize
  | .inodeTable g => G.inodeTable g * G.blockSize

def size (G : Geometry) : Area → Nat
  | .superBlock => 1024
  | .descriptors => G.nbBgd * 32
  | .blockBitmap _ | .inodeBitmap _ => G.blockSize
  | .inodeTable _ => G.inodesPerGroup * G.inodeSize

/-- The areas of the groups that exist. -/
def Exists (G : Geometry) : Area → Prop
  | .superBlock | .descriptors => True
  | .blockBitmap g | .inodeBitmap g | .inodeTable g => g < G.nbBgd

/-- Address `a` lies in area `A`. -/
def In (G : Geometry) (A : Area) (a : Nat) : Prop := G.start A ≤ a ∧ a < G.start A + G.size A

/-- A sound ext2 geometry: block sizes from 1 KiB to 64 KiB, bitmaps of one block for each group,
and areas that do not overlap, except that the superblock may share bytes with the descriptors. -/
structure Sound (G : Geometry) : Prop where
  blockSize : ∃ k ≤ 6, G.blockSize = 1024 * 2 ^ k ∧ G.sectors = 2 * 2 ^ k
  blocksCount_pos : 0 < G.blocksCount
  blocksCount_lt : G.blocksCount < 2 ^ 32
  blocksPerGroup_pos : 0 < G.blocksPerGroup
  blocksPerGroup_le : G.blocksPerGroup ≤ 8 * G.blockSize
  inodesPerGroup_pos : 0 < G.inodesPerGroup
  inodesPerGroup_le : G.inodesPerGroup ≤ 8 * G.blockSize
  nbBgd : G.nbBgd = (G.blocksCount - 1) / G.blocksPerGroup + 1
  inodes_lt : G.inodesPerGroup * G.nbBgd < 2 ^ 32
  inodeSize : 128 ≤ G.inodeSize
  apart : ∀ A A' a, A ≠ A' → ¬(A.writeOnly ∧ A'.writeOnly) → G.Exists A → G.Exists A' →
    G.In A a → ¬G.In A' a

/-- Bit `i` of group `g`'s block bitmap. -/
def blockBit (G : Geometry) (m : Bytes) (g i : Nat) : Bool :=
  (m.view (G.start (.blockBitmap g))).bit i

/-- Bit `i` of group `g`'s inode bitmap. -/
def inodeBit (G : Geometry) (m : Bytes) (g i : Nat) : Bool :=
  (m.view (G.start (.inodeBitmap g))).bit i

/-- Block `b` is marked used. -/
def used (G : Geometry) (m : Bytes) (b : Nat) : Bool :=
  G.blockBit m (b / G.blocksPerGroup) (b % G.blocksPerGroup)

/-- Inode `ino` is marked used.  Inodes are numbered from 1. -/
def inodeUsed (G : Geometry) (m : Bytes) (ino : Nat) : Bool :=
  G.inodeBit m ((ino - 1) / G.inodesPerGroup) ((ino - 1) % G.inodesPerGroup)

/-- The bits of the bitmaps that stand for no block or inode are set. -/
structure Padded (G : Geometry) (m : Bytes) : Prop where
  block : ∀ g < G.nbBgd, ∀ i < 8 * G.blockSize,
    G.blocksPerGroup ≤ i ∨ G.blocksCount ≤ G.blocksPerGroup * g + i → G.blockBit m g i = true
  inode : ∀ g < G.nbBgd, ∀ i < 8 * G.blockSize, G.inodesPerGroup ≤ i → G.inodeBit m g i = true

namespace Sound

variable {G : Geometry}

theorem blockSize_pos (hG : G.Sound) : 0 < G.blockSize := by
  obtain ⟨k, -, h, -⟩ := hG.blockSize
  rw [h]
  positivity

theorem group_lt (hG : G.Sound) {b : Nat} (hb : b < G.blocksCount) :
    b / G.blocksPerGroup < G.nbBgd := by
  rw [hG.nbBgd]
  have := Nat.div_le_div_right (c := G.blocksPerGroup) (show b ≤ G.blocksCount - 1 by omega)
  omega

theorem inodeGroup_lt (hG : G.Sound) {ino : Nat} (h : 1 ≤ ino)
    (hle : ino ≤ G.inodesPerGroup * G.nbBgd) : (ino - 1) / G.inodesPerGroup < G.nbBgd := by
  rw [Nat.div_lt_iff_lt_mul hG.inodesPerGroup_pos, Nat.mul_comm]
  omega

end Sound

end Geometry

/-- The bytes of the partition do not fix where anything is. -/
theorem FS.geometry_part (fs : FS) (part : Bytes) : { fs with part }.geometry = fs.geometry := rfl

/-- Reading block `g`'s bitmap as the file system does. -/
theorem FS.bitmap_blockBitmap (fs : FS) (g : Nat) :
    fs.bitmap (fs.bgd g).blockBitmap = fs.part.view (fs.geometry.start (.blockBitmap g)) := rfl

theorem FS.bitmap_inodeBitmap (fs : FS) (g : Nat) :
    fs.bitmap (fs.bgd g).inodeBitmap = fs.part.view (fs.geometry.start (.inodeBitmap g)) := rfl

/-- A file system of one group on 64 blocks of 2 KiB: the superblock in block 0, the descriptors
in block 1, the bitmaps in blocks 2 and 3, eight inodes in block 4, of which inode 1 is used. -/
def small : FS where
  part a :=
    if 4096 ≤ a ∧ a < 6144 then (if a = 4096 then 0x1f else if a < 4104 then 0 else 0xff)
    else if 6144 ≤ a ∧ a < 8192 then (if a = 6144 then 1 else 0xff)
    else 0
  sb :=
    { blocksCount := 64
      freeBlocksCount := 59
      freeInodesCount := 7
      firstDataBlock := 0
      logBlockSize := 1
      logFragSize := 1
      blocksPerGroup := 16384
      inodesPerGroup := 8
      magic := 0xef53
      revLevel := 0
      inodeSize := 128
      image _ := 0 }
  bgd _ :=
    { blockBitmap := 2
      inodeBitmap := 3
      inodeTable := 4
      freeBlocksCount := 59
      freeInodesCount := 7
      usedDirsCount := 0
      pad := 0
      reserved _ := 0 }
  blockSize := 2048
  nbBgd := 1

/-- Where the areas of `small` are. -/
def smallArea (a : Nat) : Area → Prop
  | .superBlock => 1024 ≤ a ∧ a < 2048
  | .descriptors => 2048 ≤ a ∧ a < 2080
  | .blockBitmap g => g = 0 ∧ 4096 ≤ a ∧ a < 6144
  | .inodeBitmap g => g = 0 ∧ 6144 ≤ a ∧ a < 8192
  | .inodeTable g => g = 0 ∧ 8192 ≤ a ∧ a < 9216

theorem small_blockSize : small.geometry.blockSize = 2048 := rfl

theorem small_bgdAddr : small.geometry.bgdAddr = 2048 := by decide

theorem small_nbBgd : small.geometry.nbBgd = 1 := rfl

theorem small_bitmaps (g : Nat) : small.geometry.blockBitmap g = 2 ∧
    small.geometry.inodeBitmap g = 3 ∧ small.geometry.inodeTable g = 4 := by
  simp [FS.geometry, small]

theorem small_inodes : small.geometry.inodesPerGroup = 8 ∧ small.geometry.inodeSize = 128 := by
  simp [FS.geometry, small]

theorem small_area {A : Area} {a : Nat} (hE : small.geometry.Exists A)
    (h : small.geometry.In A a) : smallArea a A := by
  obtain ⟨hper, hsize⟩ := small_inodes
  cases A with
  | superBlock => exact h
  | descriptors =>
    rw [Geometry.In, Geometry.start, Geometry.size, small_bgdAddr, small_nbBgd] at h
    exact h
  | blockBitmap g =>
    rw [Geometry.In, Geometry.start, Geometry.size, (small_bitmaps g).1, small_blockSize] at h
    exact ⟨Nat.lt_one_iff.mp hE, h⟩
  | inodeBitmap g =>
    rw [Geometry.In, Geometry.start, Geometry.size, (small_bitmaps g).2.1, small_blockSize] at h
    exact ⟨Nat.lt_one_iff.mp hE, h⟩
  | inodeTable g =>
    rw [Geometry.In, Geometry.start, Geometry.size, (small_bitmaps g).2.2, small_blockSize, hper,
      hsize] at h
    exact ⟨Nat.lt_one_iff.mp hE, h⟩

theorem small_sound : small.geometry.Sound where
  blockSize := ⟨1, by decide, rfl, rfl⟩
  blocksCount_pos := by decide
  blocksCount_lt := by decide
  blocksPerGroup_pos := by decide
  blocksPerGroup_le := by decide
  inodesPerGroup_pos := by decide
  inodesPerGroup_le := by decide
  nbBgd := by decide
  inodes_lt := by decide
  inodeSize := by decide
  apart A A' a hne hw hA hA' ha ha' := by
    have hin := small_area hA ha
    have hin' := small_area hA' ha'
    cases A <;> cases A' <;> simp only [smallArea] at hin hin' <;>
      first | omega | exact hw ⟨trivial, trivial⟩ | exact hne (by rw [hin.1, hin'.1])

theorem small_block_byte {j : Nat} (hj : 8 ≤ j) (hlt : j < 2048) : small.part (4096 + j) = 0xff := by
  simp only [small]
  rw [if_pos (by omega), if_neg (by omega), if_neg (by omega)]

theorem small_inode_byte {j : Nat} (hj : 1 ≤ j) (hlt : j < 2048) : small.part (6144 + j) = 0xff := by
  simp only [small]
  rw [if_neg (by omega), if_pos (by omega), if_neg (by omega)]

theorem small_blockBit {i : Nat} (hi : 64 ≤ i) (hlt : i < 16384) :
    small.geometry.blockBit small.part 0 i = true :=
  Bytes.bit_of_eq_255 (small_block_byte (j := i / 8) (by omega) (by omega))

theorem small_inodeBit {i : Nat} (hi : 8 ≤ i) (hlt : i < 16384) :
    small.geometry.inodeBit small.part 0 i = true :=
  Bytes.bit_of_eq_255 (small_inode_byte (j := i / 8) (by omega) (by omega))

theorem small_padded : small.geometry.Padded small.part where
  block g hg i hi h := by
    obtain rfl : g = 0 := Nat.lt_one_iff.mp hg
    have hi' : i < 16384 := hi
    refine small_blockBit ?_ hi'
    rcases h with h | h
    · exact absurd (show 16384 ≤ i from h) (by omega)
    · simpa [FS.geometry, small] using h
  inode g hg i hi h := by
    obtain rfl : g = 0 := Nat.lt_one_iff.mp hg
    exact small_inodeBit h hi

end SupOS.Ext2
