import SupOS.Ext2.Bitmap

/-! The numbers of blocks on the disk: bit `i` of group `g` describes block
`first_data_block + g * blocks_per_group + i`, whereas the allocator counts from block 0. -/

namespace SupOS.Ext2

open Lib

namespace FS

variable (fs : FS)

/-- The number of block groups on the disk. -/
def groups : Nat :=
  (fs.sb.blocksCount.toNat - fs.sb.firstDataBlock.toNat + (fs.sb.blocksPerGroup.toNat - 1)) /
    fs.sb.blocksPerGroup.toNat

/-- Bit `i` of group `g` describes block `b`. -/
def Describes (g i b : Nat) : Prop :=
  g < fs.groups ∧ i < fs.sb.blocksPerGroup.toNat ∧
    b = fs.sb.firstDataBlock.toNat + g * fs.sb.blocksPerGroup.toNat + i

/-- Bit `i` of the block bitmap of group `g`. -/
def groupBit (g i : Nat) : Bool := (fs.bitmap (fs.bgd g).blockBitmap).bit i

/-- An ext2 file system: it has blocks from its first data block on, and the bits that describe no
block are set. -/
structure OnDisk : Prop where
  blocksPerGroup : 0 < fs.sb.blocksPerGroup.toNat
  first : fs.sb.firstDataBlock.toNat < fs.sb.blocksCount.toNat
  padded : ∀ g < fs.groups, ∀ i < 8 * fs.blockSize, fs.sb.blocksPerGroup.toNat ≤ i ∨
    fs.sb.blocksCount.toNat ≤ fs.sb.firstDataBlock.toNat + g * fs.sb.blocksPerGroup.toNat + i →
      fs.groupBit g i = true

/-- The number of groups is the one that `_loadSuperBlock` has computed. -/
def Mounted : Prop :=
  fs.nbBgd = u32 (fs.sb.blocksCount.toNat + 2 ^ 32 - 1) / fs.sb.blocksPerGroup.toNat + 1

/-- The group and the bit on which the loop of `getNewBlock` ends. -/
def firstFree (blockGroup : Nat) : (n i : Nat) → Option (Nat × Nat)
  | 0, _ => none
  | n + 1, i =>
    let g := (i + blockGroup) % fs.nbBgd
    if (fs.bgd g).freeBlocksCount = 0 then firstFree blockGroup n (i + 1) else
    match (fs.bitmap (fs.bgd g).blockBitmap).firstZero fs.blockSize with
    | none => firstFree blockGroup n (i + 1)
    | some (j, pos) => some (g, 8 * j + pos)

/-- Bit `i` of group `g` set, and the counters as `getNewBlock` leaves them. -/
def mark (g i : Nat) : FS :=
  let d := fs.bgd g
  let bitmap := fs.bitmap d.blockBitmap
  fs.commit d.blockBitmap (Function.update bitmap (i / 8) (setBit (bitmap (i / 8)) (i % 8))) g
    { d with freeBlocksCount := d.freeBlocksCount - 1 }
    { fs.sb with freeBlocksCount := fs.sb.freeBlocksCount - 1 }

/-- Bit `i` of group `g` cleared, and the counters as `freeBlock` leaves them. -/
def unmark (g i : Nat) : FS :=
  let d := fs.bgd g
  let bitmap := fs.bitmap d.blockBitmap
  fs.commit d.blockBitmap (Function.update bitmap (i / 8) (clearBit (bitmap (i / 8)) (i % 8))) g
    { d with freeBlocksCount := d.freeBlocksCount + 1 }
    { fs.sb with freeBlocksCount := fs.sb.freeBlocksCount + 1 }

/-- The bit that `getNewBlock` sets for an inode. -/
def chosenBit (nearInode : Nat) : Option (Nat × Nat) :=
  fs.firstFree (u32 (nearInode + 2 ^ 32 - 1) / fs.sb.inodesPerGroup.toNat) fs.nbBgd 0

/-- The bit that `freeBlock` clears for a block. -/
def clearedBit (block : Nat) : Nat × Nat :=
  (block / fs.sb.blocksPerGroup.toNat, block % fs.sb.blocksPerGroup.toNat)

/-- `getNewBlock` sets a bit that was clear, and returns the block that it describes. -/
def Allocated (nearInode b : Nat) (fs' : FS) : Prop :=
  ∃ g i, fs.chosenBit nearInode = some (g, i) ∧ fs.groupBit g i = false ∧ fs' = fs.mark g i ∧
    fs.Describes g i b

/-- `freeBlock` clears a bit that was set, the one that describes the block. -/
def Released (block : Nat) (fs' : FS) : Prop :=
  ∃ g i, fs.clearedBit block = (g, i) ∧ fs.groupBit g i = true ∧ fs' = fs.unmark g i ∧
    fs.Describes g i block

variable {fs} {fs' : FS} {g i : Nat}

theorem mount_mounted {part : Bytes} (h : mount part = .ok fs) : fs.Mounted := by
  unfold mount at h
  obtain ⟨_, -, h⟩ := bind_eq_ok.mp h
  obtain ⟨_, -, h⟩ := bind_eq_ok.mp h
  obtain rfl := pure_eq_ok.mp h
  rfl

theorem firstFree_some {blockGroup n k : Nat} (h : fs.firstFree blockGroup n k = some (g, i))
    (hpos : 0 < fs.nbBgd) : g < fs.nbBgd ∧ i < 8 * fs.blockSize ∧ fs.groupBit g i = false := by
  induction n generalizing k with
  | zero => cases h
  | succ n ih =>
    unfold firstFree at h
    simp only at h
    split at h
    · exact ih h
    · split at h
      · exact ih h
      · rename_i j pos hzero
        obtain ⟨rfl, rfl⟩ := Prod.mk.inj (Option.some.inj h)
        obtain ⟨hj, hpos', hbit, -⟩ := Bytes.firstZero_some hzero
        exact ⟨Nat.mod_lt _ hpos, by omega, hbit⟩

/-- The loop sets the bit that it ends on and returns its place among all groups. -/
theorem getNewBlockLoop_eq (blockGroup n k : Nat) : fs.getNewBlockLoop blockGroup n k =
    match fs.firstFree blockGroup n k with
    | none => .error (.bsod "No space on disk :-(")
    | some (g, i) => .ok (u32 (fs.sb.blocksPerGroup.toNat * g + i), fs.mark g i) := by
  induction n generalizing k with
  | zero => rfl
  | succ n ih =>
    unfold getNewBlockLoop firstFree
    simp only
    split
    · exact ih (k + 1)
    · rw [takeBit_eq]
      cases hzero : (fs.bitmap (fs.bgd ((k + blockGroup) % fs.nbBgd)).blockBitmap).firstZero
          fs.blockSize with
      | none => exact ih (k + 1)
      | some p =>
        obtain ⟨j, pos⟩ := p
        obtain ⟨-, hpos, -, -⟩ := Bytes.firstZero_some hzero
        have hdiv : (8 * j + pos) / 8 = j := by omega
        have hmod : (8 * j + pos) % 8 = pos := by omega
        simp only [mark, hdiv, hmod, ← Nat.add_assoc]
        rfl

theorem getNewBlock_some {nearInode b : Nat} (h : fs.getNewBlock nearInode = .ok (b, fs')) :
    ∃ g i, fs.chosenBit nearInode = some (g, i) ∧ fs' = fs.mark g i ∧
      b = u32 (fs.sb.blocksPerGroup.toNat * g + i) := by
  rw [getNewBlock, getNewBlockLoop_eq] at h
  split at h
  · cases h
  · rename_i g i hfirst
    obtain ⟨rfl, rfl⟩ := Prod.mk.inj (Except.ok.inj h)
    exact ⟨g, i, hfirst, rfl, rfl⟩

theorem freeBlock_some {block : Nat} (h : fs.freeBlock block = .ok fs') :
    fs.groupBit (fs.clearedBit block).1 (fs.clearedBit block).2 = true ∧
      fs' = fs.unmark (fs.clearedBit block).1 (fs.clearedBit block).2 := by
  unfold freeBlock at h
  simp only at h
  obtain ⟨buf, hbuf, h⟩ := bind_eq_ok.mp h
  obtain rfl := pure_eq_ok.mp h
  by_cases hbit : fs.groupBit (fs.clearedBit block).1 (fs.clearedBit block).2 = true
  · refine ⟨hbit, ?_⟩
    obtain rfl := Except.ok.inj (hbuf.symm.trans (dropBit_eq fs _ _ hbit))
    rfl
  · have hclear : ((fs.bitmap (fs.bgd (block / fs.sb.blocksPerGroup.toNat)).blockBitmap)
        (block % fs.sb.blocksPerGroup.toNat / 8)).toNat.testBit
          (block % fs.sb.blocksPerGroup.toNat % 8) = false := Bool.eq_false_iff.mpr hbit
    simp only [dropBit, hclear, assert_false, error_bind] at hbuf
    cases hbuf

theorem Mounted.nbBgd_eq (hm : fs.Mounted) (hd : fs.OnDisk) :
    fs.nbBgd = (fs.sb.blocksCount.toNat - 1) / fs.sb.blocksPerGroup.toNat + 1 := by
  have hfirst := hd.first
  rw [hm, u32_pred (by omega) (UInt32.toNat_lt _)]

/-- `n - 1` divided by the size of a group, plus one, is the number of groups for `n` blocks. -/
theorem ceil_eq {n d : Nat} (hn : 0 < n) (hd : 0 < d) : (n + (d - 1)) / d = (n - 1) / d + 1 := by
  have heq : n + (d - 1) = n - 1 + d := by omega
  rw [heq, Nat.add_div_right _ hd]

/-- What is below the last group's blocks does not change the number of groups. -/
theorem div_sub_eq_iff {n f d : Nat} (hd : 0 < d) (hf : f ≤ n) : n / d = (n - f) / d ↔ f ≤ n % d := by
  have hdiv := Nat.div_add_mod n d
  constructor
  · intro h
    have hle := Nat.mul_div_le (n - f) d
    rw [← h] at hle
    omega
  · intro h
    refine (Nat.div_eq_of_lt_le ?_ ?_).symm
    · rw [Nat.mul_comm]
      omega
    · have hlt := Nat.mod_lt n hd
      rw [Nat.add_mul, Nat.one_mul, Nat.mul_comm]
      omega

theorem nbBgd_eq_groups_iff (hm : fs.Mounted) (hd : fs.OnDisk) : fs.nbBgd = fs.groups ↔
    fs.sb.firstDataBlock.toNat ≤ (fs.sb.blocksCount.toNat - 1) % fs.sb.blocksPerGroup.toNat := by
  have hfirst := hd.first
  have hsub : fs.sb.blocksCount.toNat - fs.sb.firstDataBlock.toNat - 1 =
      fs.sb.blocksCount.toNat - 1 - fs.sb.firstDataBlock.toNat := by omega
  rw [hm.nbBgd_eq hd, groups, ceil_eq (by omega) hd.blocksPerGroup, hsub, Nat.add_right_cancel_iff]
  exact div_sub_eq_iff hd.blocksPerGroup (by omega)

theorem allocated_iff (hm : fs.Mounted) (hd : fs.OnDisk) {nearInode b : Nat}
    (h : fs.getNewBlock nearInode = .ok (b, fs')) :
    fs.Allocated nearInode b fs' ↔ fs.sb.firstDataBlock.toNat = 0 := by
  obtain ⟨g, i, hchosen, hfs', hb⟩ := getNewBlock_some h
  have hcomm := Nat.mul_comm g fs.sb.blocksPerGroup.toNat
  constructor
  · intro ⟨g', i', hchosen', _, _, _, _, hdesc⟩
    obtain ⟨rfl, rfl⟩ := Prod.mk.inj (Option.some.inj (hchosen.symm.trans hchosen'))
    have hle : u32 (fs.sb.blocksPerGroup.toNat * g + i) ≤ fs.sb.blocksPerGroup.toNat * g + i :=
      Nat.mod_le _ _
    omega
  · intro hzero
    have hgroups : fs.nbBgd = fs.groups :=
      (nbBgd_eq_groups_iff hm hd).mpr (hzero.le.trans (Nat.zero_le _))
    obtain ⟨hg, hi, hbit⟩ := firstFree_some hchosen (by rw [hm.nbBgd_eq hd]; exact Nat.succ_pos _)
    have hblock : ¬(fs.sb.blocksPerGroup.toNat ≤ i ∨ fs.sb.blocksCount.toNat ≤
        fs.sb.firstDataBlock.toNat + g * fs.sb.blocksPerGroup.toNat + i) := fun hpad => by
      rw [hd.padded g (hgroups ▸ hg) i hi hpad] at hbit
      cases hbit
    have hcount : fs.sb.blocksCount.toNat < 2 ^ 32 := UInt32.toNat_lt _
    refine ⟨g, i, hchosen, hbit, hfs', hgroups ▸ hg, by omega, ?_⟩
    rw [hb, u32_of_lt (by omega)]
    omega

theorem released_iff (hm : fs.Mounted) (hd : fs.OnDisk) {block : Nat}
    (hblock : block < fs.sb.blocksCount.toNat) (h : fs.freeBlock block = .ok fs') :
    fs.Released block fs' ↔ fs.sb.firstDataBlock.toNat = 0 := by
  obtain ⟨hbit, hfs'⟩ := freeBlock_some h
  have hdiv := Nat.div_add_mod' block fs.sb.blocksPerGroup.toNat
  constructor
  · intro ⟨g, i, hclear, _, _, _, _, hdesc⟩
    obtain ⟨rfl, rfl⟩ := Prod.mk.inj hclear
    omega
  · intro hzero
    have hgroups : fs.nbBgd = fs.groups :=
      (nbBgd_eq_groups_iff hm hd).mpr (hzero.le.trans (Nat.zero_le _))
    refine ⟨_, _, rfl, hbit, hfs', ?_, Nat.mod_lt _ hd.blocksPerGroup, ?_⟩
    · rw [← hgroups, hm.nbBgd_eq hd]
      have hle := Nat.div_le_div_right (c := fs.sb.blocksPerGroup.toNat)
        (show block ≤ fs.sb.blocksCount.toNat - 1 by omega)
      exact Nat.lt_succ_of_le hle
    · rw [hzero, Nat.zero_add]
      exact hdiv.symm

/-- The number of groups is that on the disk when the last one has more blocks than come before the
first data block; the numbers of blocks are those on the disk when no block comes before it. -/
theorem numbering_iff (hm : fs.Mounted) (hd : fs.OnDisk) :
    (fs.nbBgd = fs.groups ↔
      fs.sb.firstDataBlock.toNat ≤ (fs.sb.blocksCount.toNat - 1) % fs.sb.blocksPerGroup.toNat) ∧
    (∀ nearInode b fs', fs.getNewBlock nearInode = .ok (b, fs') →
      (fs.Allocated nearInode b fs' ↔ fs.sb.firstDataBlock.toNat = 0)) ∧
    ∀ block fs', block < fs.sb.blocksCount.toNat → fs.freeBlock block = .ok fs' →
      (fs.Released block fs' ↔ fs.sb.firstDataBlock.toNat = 0) :=
  ⟨nbBgd_eq_groups_iff hm hd, fun _ _ _ h => allocated_iff hm hd h,
    fun _ _ hblock h => released_iff hm hd hblock h⟩

/-- A file system of 64 blocks of 1 KiB after the boot block: the superblock in block 1, the
descriptors in block 2, the bitmaps in blocks 3 and 4, and eight inodes in block 5. -/
def oneKiB : FS where
  part a :=
    if 3072 ≤ a ∧ a < 4096 then
      (if a = 3072 then 0x1f else if a < 3079 then 0 else if a = 3079 then 0x80 else 0xff)
    else 0
  sb := { small.sb with
    freeBlocksCount := 58, firstDataBlock := 1, logBlockSize := 0, logFragSize := 0
    blocksPerGroup := 8192 }
  bgd _ := { small.bgd 0 with
    blockBitmap := 3, inodeBitmap := 4, inodeTable := 5, freeBlocksCount := 58 }
  blockSize := 1024
  nbBgd := 1

theorem oneKiB_onDisk : oneKiB.OnDisk where
  blocksPerGroup := by decide
  first := by decide
  padded g hg i hi hpad := by
    have hbpg : oneKiB.sb.blocksPerGroup.toNat = 8192 := by decide
    have hcount : oneKiB.sb.blocksCount.toNat = 64 := by decide
    have hfirst : oneKiB.sb.firstDataBlock.toNat = 1 := by decide
    have hgroups : oneKiB.groups = 1 := by decide
    have hsize : oneKiB.blockSize = 1024 := rfl
    rw [hgroups] at hg
    obtain rfl : g = 0 := by omega
    rw [hbpg, hcount, hfirst] at hpad
    rw [hsize] at hi
    by_cases hlast : i = 63
    · subst hlast
      decide
    · refine Bytes.bit_of_eq_255 ?_
      have hblock : (oneKiB.bgd 0).blockBitmap.toNat = 3 := by decide
      rw [bitmap, Bytes.view_apply, hblock, hsize]
      simp only [oneKiB]
      rw [if_pos (by omega), if_neg (by omega), if_neg (by omega), if_neg (by omega)]

theorem oneKiB_mounted : oneKiB.Mounted := by
  unfold Mounted
  decide

theorem numbering_oneKiB : oneKiB.nbBgd = oneKiB.groups ∧ ∀ nearInode b fs',
    oneKiB.getNewBlock nearInode = .ok (b, fs') → ¬oneKiB.Allocated nearInode b fs' := by
  obtain ⟨hgroups, halloc, -⟩ := numbering_iff oneKiB_mounted oneKiB_onDisk
  refine ⟨hgroups.mpr (by decide), fun nearInode b fs' h hallocated => ?_⟩
  exact absurd ((halloc nearInode b fs' h).mp hallocated) (by decide)

/-- The first block that is handed out is number 5, the inode table; its bit is that of block 6. -/
theorem hands_out_inodeTable : ¬∀ (fs : FS) (nearInode b : Nat) (fs' : FS), fs.Mounted → fs.OnDisk →
    fs.getNewBlock nearInode = .ok (b, fs') →
      ∃ g i, fs.Describes g i b ∧ fs.groupBit g i = false := by
  intro hall
  have hgot : (oneKiB.getNewBlock 1).map (·.1) = .ok 5 := by decide +kernel
  cases hr : oneKiB.getNewBlock 1 with
  | error e =>
    rw [hr] at hgot
    cases hgot
  | ok r =>
    obtain ⟨b, fs'⟩ := r
    rw [hr] at hgot
    obtain rfl : b = 5 := Except.ok.inj hgot
    obtain ⟨g, i, ⟨hg, hi, hdesc⟩, hbit⟩ := hall oneKiB 1 5 fs' oneKiB_mounted oneKiB_onDisk hr
    have hgroups : oneKiB.groups = 1 := by decide
    have hfirst : oneKiB.sb.firstDataBlock.toNat = 1 := by decide
    rw [hgroups] at hg
    obtain rfl : g = 0 := by omega
    rw [hfirst] at hdesc
    obtain rfl : i = 4 := by omega
    have hset : oneKiB.groupBit 0 4 = true := by decide
    rw [hset] at hbit
    cases hbit

end FS

end SupOS.Ext2
