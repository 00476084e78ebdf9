import SupOS.Ext2.Frame

/-! The inodes of a file system and the blocks that they own: what it means that the state is well
formed, and what a change of one inode leaves of the others. -/

namespace SupOS.Ext2

open Lib

namespace Geometry

variable {G : Geometry} {M : Nat → Prop} {m m' : Bytes}

/-- `ino` is the number of an inode. -/
structure IsInode (G : Geometry) (ino : Nat) : Prop where
  pos : 1 ≤ ino
  le : ino ≤ G.inodesPerGroup * G.nbBgd

/-- The address of inode `ino` in the inode tables. -/
def inodeAddr (G : Geometry) (ino : Nat) : Nat :=
  G.inodeTable ((ino - 1) / G.inodesPerGroup) * G.blockSize +
    (ino - 1) % G.inodesPerGroup * G.inodeSize

theorem IsInode.group_lt {ino : Nat} (h : G.IsInode ino) (hG : G.Sound) :
    (ino - 1) / G.inodesPerGroup < G.nbBgd := hG.inodeGroup_lt h.pos h.le

theorem IsInode.in_table {ino : Nat} (_ : G.IsInode ino) (hG : G.Sound) {i : Nat} (hi : i < 128) :
    G.In (.inodeTable ((ino - 1) / G.inodesPerGroup)) (G.inodeAddr ino + i) := by
  have hmod : (ino - 1) % G.inodesPerGroup < G.inodesPerGroup :=
    Nat.mod_lt _ hG.inodesPerGroup_pos
  have hle := Nat.mul_le_mul_right G.inodeSize (Nat.succ_le_of_lt hmod)
  rw [Nat.succ_mul] at hle
  have hsize := hG.inodeSize
  simp only [In, start, size, inodeAddr]
  omega

/-- Different inodes have different bytes. -/
theorem IsInode.disjoint {ino ino' : Nat} (h : G.IsInode ino) (h' : G.IsInode ino') (hG : G.Sound)
    (hne : ino ≠ ino') {i i' : Nat} (hi : i < 128) (hi' : i' < 128) :
    G.inodeAddr ino + i ≠ G.inodeAddr ino' + i' := by
  intro heq
  by_cases hg : (ino - 1) / G.inodesPerGroup = (ino' - 1) / G.inodesPerGroup
  · have hdm := Nat.div_add_mod (ino - 1) G.inodesPerGroup
    have hdm' := Nat.div_add_mod (ino' - 1) G.inodesPerGroup
    rw [← hg] at hdm'
    have hpos := h.pos
    have hpos' := h'.pos
    have hsize := hG.inodeSize
    simp only [inodeAddr, ← hg] at heq
    rcases Nat.lt_trichotomy ((ino - 1) % G.inodesPerGroup) ((ino' - 1) % G.inodesPerGroup) with
      hlt | heq' | hlt
    · have := Nat.mul_le_mul_right G.inodeSize (Nat.succ_le_of_lt hlt)
      rw [Nat.succ_mul] at this
      omega
    · omega
    · have := Nat.mul_le_mul_right G.inodeSize (Nat.succ_le_of_lt hlt)
      rw [Nat.succ_mul] at this
      omega
  · refine hG.apart (.inodeTable _) (.inodeTable _) _ (fun heq => hg (Area.inodeTable.inj heq))
      (fun h => h.1) (h.group_lt hG) (h'.group_lt hG) (h.in_table hG hi) ?_
    rw [heq]
    exact h'.in_table hG hi'

theorem IsInode.not_volatile {ino : Nat} (h : G.IsInode ino) (hG : G.Sound) {i : Nat} (hi : i < 128) :
    ¬G.Volatile (G.inodeAddr ino + i) := by
  rintro ⟨A, hA, hE, hin⟩
  exact hG.apart (.inodeTable _) A _ (by rintro rfl; exact hA) (fun h => h.1) (h.group_lt hG) hE
    (h.in_table hG hi) hin

end Geometry

theorem InodeData.ofBytes_congr {b b' : Bytes} (h : ∀ i < 128, b' i = b i) :
    InodeData.ofBytes b' = InodeData.ofBytes b := by
  have hword : ∀ a k, a + k ≤ 128 → b'.word a k = b.word a k := fun a k hk =>
    Bytes.word_congr fun i hi => h _ (by omega)
  ext j <;> simp only [InodeData.ofBytes] <;> rw [hword _ _ (by omega)]

namespace FS

open SupOS.Ext2.Geometry

variable {G : Geometry} {M : Nat → Prop} {fs fs' : FS} {ino : Nat}

theorem inodeAddr_eq (h : fs.geometry = G) (hG : G.Sound) (hino : G.IsInode ino) :
    fs.inodeAddr ino = G.inodeAddr ino := by
  have hlt := lt_of_le_of_lt hino.le hG.inodes_lt
  rw [inodeAddr, u32_pred hino.pos hlt, Geometry.inodeAddr, ← h]
  rfl

/-- An inode whose bytes stay the same. -/
theorem getInodeData_congr (h : fs.geometry = G) (h' : fs'.geometry = G) (hG : G.Sound)
    (hino : G.IsInode ino)
    (hb : ∀ i < 128, fs'.part (G.inodeAddr ino + i) = fs.part (G.inodeAddr ino + i)) :
    fs'.getInodeData ino = fs.getInodeData ino := by
  rw [getInodeData, getInodeData, inodeAddr_eq h hG hino, inodeAddr_eq h' hG hino]
  exact InodeData.ofBytes_congr fun i hi => by
    rw [Bytes.view_apply, Bytes.view_apply, hb i hi]

/-- Blocks of data do not hold inodes. -/
theorem inode_kept (hM : G.Metadata M) (hG : G.Sound) (hino : G.IsInode ino)
    {touched : List Nat} (ht : ∀ b ∈ touched, b < G.blocksCount ∧ ¬M b) {i : Nat} (hi : i < 128) :
    ∀ b ∈ touched, ¬G.InBlock b (G.inodeAddr ino + i) := fun b hb hin =>
  hM.not_in (ht b hb).1 (ht b hb).2 hin (A := .inodeTable _) (hino.group_lt hG)
    (hino.in_table hG hi)

theorem Grown.getInodeData {fresh touched : List Nat} (h : fs.Grown fs' G M fresh touched)
    (hF : fs.Fit G M) (hM : G.Metadata M) (hG : G.Sound) (hino : G.IsInode ino)
    (ht : ∀ b ∈ touched, b < G.blocksCount ∧ ¬M b) :
    fs'.getInodeData ino = fs.getInodeData ino :=
  getInodeData_congr hF.geometry h.fit.geometry hG hino fun _ hi =>
    h.keeps _ (hino.not_volatile hG hi) (inode_kept hM hG hino ht hi)

theorem Shrunk.getInodeData {freed touched : List Nat} (h : fs.Shrunk fs' G M freed touched)
    (hF : fs.Fit G M) (hM : G.Metadata M) (hG : G.Sound) (hino : G.IsInode ino)
    (ht : ∀ b ∈ touched, b < G.blocksCount ∧ ¬M b) :
    fs'.getInodeData ino = fs.getInodeData ino :=
  getInodeData_congr hF.geometry h.fit.geometry hG hino fun _ hi =>
    h.keeps _ (hino.not_volatile hG hi) (inode_kept hM hG hino ht hi)

theorem writeInodeData_geometry (hF : fs.Fit G M) (ino : Nat) (d : InodeData) :
    (fs.writeInodeData ino d).geometry = G := (fs.geometry_part _).trans hF.geometry

/-- Inode data do not change the counts. -/
theorem writeInodeData_credited (fs : FS) (G : Geometry) (ino : Nat) (d : InodeData) :
    fs.Credited (fs.writeInodeData ino d) G [] := by
  rw [writeInodeData]
  exact .of_same rfl rfl

section WriteInodeData

variable (hF : fs.Fit G M) (hG : G.Sound) (hino : G.IsInode ino) (d : InodeData)
include hF hG hino

theorem writeInodeData_outside {a : Nat} (ha : ∀ i < 128, a ≠ G.inodeAddr ino + i) :
    (fs.writeInodeData ino d).part a = fs.part a := by
  rw [writeInodeData, inodeAddr_eq hF.geometry hG hino]
  refine Bytes.blit_outside ?_
  by_contra hin
  exact ha (a - G.inodeAddr ino) (by omega) (by omega)

theorem writeInodeData_inside {i : Nat} (hi : i < 128) :
    (fs.writeInodeData ino d).part (G.inodeAddr ino + i) = d.toBytes i := by
  rw [writeInodeData, inodeAddr_eq hF.geometry hG hino]
  exact Bytes.blit_offset hi

theorem getInodeData_writeInodeData : (fs.writeInodeData ino d).getInodeData ino = d := by
  have hgeo := writeInodeData_geometry hF ino d
  have hbytes : InodeData.ofBytes ((fs.writeInodeData ino d).part.view (G.inodeAddr ino)) =
      InodeData.ofBytes d.toBytes := InodeData.ofBytes_congr fun i hi => by
    rw [Bytes.view_apply, writeInodeData_inside hF hG hino d hi]
  rw [getInodeData, inodeAddr_eq hgeo hG hino, hbytes, d.ofBytes_toBytes]

theorem getInodeData_writeInodeData_other {ino' : Nat} (h' : G.IsInode ino') (hne : ino' ≠ ino) :
    (fs.writeInodeData ino d).getInodeData ino' = fs.getInodeData ino' :=
  getInodeData_congr hF.geometry (writeInodeData_geometry hF ino d) hG h' fun _ hi =>
    writeInodeData_outside hF hG hino d fun _ hi' => h'.disjoint hino hG hne hi hi'

theorem writeInodeData_sameBitmaps :
    G.SameBitmaps fs.part (fs.writeInodeData ino d).part := by
  intro A hA hE a ha
  refine writeInodeData_outside hF hG hino d fun i hi heq => ?_
  subst heq
  exact hG.apart A (.inodeTable _) _ (by rintro rfl; exact hA) (fun h => h.2) hE
    (hino.group_lt hG) ha (hino.in_table hG hi)

theorem writeInodeData_fit : (fs.writeInodeData ino d).Fit G M := by
  have hbits := writeInodeData_sameBitmaps hF hG hino d
  exact ⟨writeInodeData_geometry hF ino d, hbits.padded hF.padded, fun b hb hMb => by
    rw [hbits.used hG hb]; exact hF.reserved b hb hMb⟩

theorem writeInodeData_same (hM : G.Metadata M) {b : Nat} (hb : b < G.blocksCount) (hd : ¬M b) :
    G.Same fs.part (fs.writeInodeData ino d).part b := fun i hi =>
  writeInodeData_outside hF hG hino d fun _ hi' heq =>
    hM.apart b hb hd (.inodeTable _) (hino.group_lt hG) i hi (heq ▸ hino.in_table hG hi')

theorem writeInodeData_available :
    (fs.writeInodeData ino d).available = fs.available :=
  available_part _ (hF.geometry ▸ writeInodeData_sameBitmaps hF hG hino d)

end WriteInodeData

/-- `fs'` is `fs` with the data `d` of inode `ino`. -/
structure Stored (fs fs' : FS) (G : Geometry) (M : Nat → Prop) (ino : Nat) (d : InodeData) :
    Prop where
  fit : fs'.Fit G M
  bitmaps : G.SameBitmaps fs.part fs'.part
  data : fs'.getInodeData ino = d
  inodes : ∀ i, G.IsInode i → i ≠ ino → fs'.getInodeData i = fs.getInodeData i
  blocks : ∀ b < G.blocksCount, ¬M b → G.Same fs.part fs'.part b
  available : fs'.available = fs.available

theorem Stored.refl (hF : fs.Fit G M) (ino : Nat) :
    fs.Stored fs G M ino (fs.getInodeData ino) where
  fit := hF
  bitmaps _ _ _ _ _ := rfl
  data := rfl
  inodes _ _ _ := rfl
  blocks _ _ _ _ _ := rfl
  available := rfl

theorem stored_writeInodeData (hF : fs.Fit G M) (hG : G.Sound) (hM : G.Metadata M)
    (hino : G.IsInode ino) (d : InodeData) : fs.Stored (fs.writeInodeData ino d) G M ino d where
  fit := writeInodeData_fit hF hG hino d
  bitmaps := writeInodeData_sameBitmaps hF hG hino d
  data := getInodeData_writeInodeData hF hG hino d
  inodes _ hi hne := getInodeData_writeInodeData_other hF hG hino d hi hne
  blocks _ hb hd := writeInodeData_same hF hG hino d hM hb hd
  available := writeInodeData_available hF hG hino d

/-- `getSize()` of an inode. -/
def getSize (fs : FS) (ino : Nat) : Nat := (fs.getInodeData ino).getSize

/-- The number of blocks of data of an inode. -/
def count (fs : FS) (G : Geometry) (ino : Nat) : Nat := G.blocksFor (fs.getSize ino)

/-- The tree of an inode. -/
abbrev tree (fs : FS) (G : Geometry) (ino : Nat) : BlockMap G.Same G.fileShape :=
  G.file (fs.getInodeData ino).block

/-- The blocks of data of an inode. -/
def leaves (fs : FS) (G : Geometry) (ino : Nat) : List Nat :=
  (fs.tree G ino).leaves fs.part (fs.count G ino)

/-- The indirect blocks of an inode. -/
def inner (fs : FS) (G : Geometry) (ino : Nat) : List Nat :=
  (fs.tree G ino).inner fs.part (fs.count G ino)

/-- The blocks of the tree of an inode: those of data and the indirect ones. -/
def nodes (fs : FS) (G : Geometry) (ino : Nat) : List Nat :=
  (fs.tree G ino).nodes fs.part (fs.count G ino)

theorem nodes_eq (fs : FS) (G : Geometry) (ino : Nat) :
    fs.nodes G ino = fs.inner G ino ++ fs.leaves G ino := rfl

/-- The byte at offset `i` of an inode. -/
def byte (fs : FS) (G : Geometry) (ino i : Nat) : UInt8 := G.byteAt fs.part (fs.leaves G ino) i

/-- Inode `ino` is in order: its field `blocks` counts the blocks of its tree, and these are
different, marked used, and no metadata. -/
structure Intact (fs : FS) (G : Geometry) (M : Nat → Prop) (ino : Nat) : Prop where
  fit : fs.Fit G M
  inode : G.IsInode ino
  blocks : (fs.getInodeData ino).blocks.toNat = G.fileShape.total (fs.count G ino) * G.sectors
  held : G.Held M fs.part (fs.nodes G ino)

/-- A well-formed state: the field `blocks` of each live inode counts the blocks of its tree, and
the blocks of all these trees are different, marked used, and no metadata. -/
structure WellFormed (fs : FS) (G : Geometry) (M : Nat → Prop) (live : List Nat) : Prop where
  fit : fs.Fit G M
  firstDataBlock : G.firstDataBlock = 0
  nodup : live.Nodup
  inode : ∀ ino ∈ live, G.IsInode ino
  blocks : ∀ ino ∈ live,
    (fs.getInodeData ino).blocks.toNat = G.fileShape.total (fs.count G ino) * G.sectors
  held : G.Held M fs.part (live.flatMap (fs.nodes G))

/-- What an operation on inode `ino`, whose blocks were `old`, leaves of the state: the other
inodes and their blocks are as they were, and the blocks of `ino` are again its own. -/
structure Change (fs fs' : FS) (G : Geometry) (M : Nat → Prop) (ino : Nat) (old : List Nat) :
    Prop where
  fit : fs'.Fit G M
  inodes : ∀ i, G.IsInode i → i ≠ ino → fs'.getInodeData i = fs.getInodeData i
  others : ∀ b, G.Owned M fs.part b → b ∉ old →
    G.Owned M fs'.part b ∧ b ∉ fs'.nodes G ino ∧ G.Same fs.part fs'.part b
  held : G.Held M fs'.part (fs'.nodes G ino)
  blocks : (fs'.getInodeData ino).blocks.toNat = G.fileShape.total (fs'.count G ino) * G.sectors
  used : ∀ b < G.blocksCount, G.used fs'.part b = true ↔
    (G.used fs.part b = true ∧ b ∉ old) ∨ b ∈ fs'.nodes G ino
  inodeBits : ∀ g < G.nbBgd, ∀ i < 8 * G.blockSize,
    G.inodeBit fs'.part g i = G.inodeBit fs.part g i

theorem Change.intact {old : List Nat} (h : fs.Change fs' G M ino old) (hino : G.IsInode ino) : fs'.Intact G M ino :=
  ⟨h.fit, hino, h.blocks, h.held⟩

/-- Every size that fits in 32 bits is in reach of the tree. -/
theorem le_cap_file (hG : G.Sound) {n : Nat} (hn : n < 2 ^ 32) :
    G.blocksFor n ≤ G.fileShape.cap := by
  have h3 : G.fanout ^ 3 ≤ G.fileShape.cap := by
    have h := Shape.cap_concat_append (fun j => G.treeShape (rootLevel j))
      ((List.finRange 15).take 14) ((List.finRange 15).drop 14)
    rw [List.take_append_drop] at h
    rw [fileShape, h]
    have : (Shape.concat (fun j => G.treeShape (rootLevel j)) ((List.finRange 15).drop 14)).cap =
        G.fanout ^ 3 := by
      rw [show (List.finRange 15).drop 14 = [14] by decide, Shape.concat, Shape.cap_append,
        cap_treeShape]
      rfl
    omega
  have h256 : 256 ^ 3 ≤ G.fanout ^ 3 := Nat.pow_le_pow_left hG.fanout_ge 3
  refine ((blocksFor_le_iff hG).mpr ?_).trans (h256.trans h3)
  have hB : 1024 ≤ G.blockSize := by have := hG.fanout_ge; have := hG.blockSize_eq; omega
  have := Nat.mul_le_mul_left (256 ^ 3) hB
  omega

theorem getSize_lt (fs : FS) (ino : Nat) : fs.getSize ino < 2 ^ 32 := UInt32.toNat_lt _

theorem count_le (hG : G.Sound) (fs : FS) (ino : Nat) : fs.count G ino ≤ G.fileShape.cap :=
  le_cap_file hG (fs.getSize_lt ino)

theorem length_leaves (hG : G.Sound) (fs : FS) (ino : Nat) :
    (fs.leaves G ino).length = fs.count G ino :=
  BlockMap.length_leaves _ _ _ (count_le hG fs ino)

theorem mem_nodes_of_leaves {b : Nat} (h : b ∈ fs.leaves G ino) : b ∈ fs.nodes G ino :=
  List.mem_append_right _ h

/-- An inode whose data and blocks stay the same keeps its tree and its bytes. -/
theorem tree_congr (hG : G.Sound) (hd : fs'.getInodeData ino = fs.getInodeData ino)
    (hs : ∀ b ∈ fs.nodes G ino, G.Same fs.part fs'.part b) :
    fs'.count G ino = fs.count G ino ∧ fs'.leaves G ino = fs.leaves G ino ∧
      fs'.nodes G ino = fs.nodes G ino ∧
      ∀ i < fs.count G ino * G.blockSize, fs'.byte G ino i = fs.byte G ino i := by
  have hcount : fs'.count G ino = fs.count G ino := by simp only [count, getSize, hd]
  have hcap := count_le hG fs ino
  obtain ⟨hi, hl⟩ := (fs.tree G ino).congr fs.part fs'.part (fs.count G ino)
    (fun b hb => hs b (List.mem_append_left _ hb)) hcap
  have hleaves : fs'.leaves G ino = fs.leaves G ino := by
    simp only [leaves, tree, hcount, hd]
    exact hl
  refine ⟨hcount, hleaves, ?_, fun i hi => ?_⟩
  · simp only [nodes, tree, hcount, hd, BlockMap.nodes]
    rw [show (G.file (fs.getInodeData ino).block).leaves fs'.part (fs.count G ino) = _ from hl,
      show (G.file (fs.getInodeData ino).block).inner fs'.part (fs.count G ino) = _ from hi]
  · rw [byte, byte, hleaves]
    exact byteAt_congr hG.blockSize_pos (by rwa [length_leaves hG]) fun b hb =>
      hs b (mem_nodes_of_leaves hb)

/-- Inode `i` is the same file as before: its data, its blocks and all its bytes. -/
structure SameFile (fs fs' : FS) (G : Geometry) (i : Nat) : Prop where
  data : fs'.getInodeData i = fs.getInodeData i
  nodes : fs'.nodes G i = fs.nodes G i
  bytes : ∀ j < fs.count G i * G.blockSize, fs'.byte G i j = fs.byte G i j

theorem SameFile.of_same (hG : G.Sound) (hd : fs'.getInodeData ino = fs.getInodeData ino)
    (hs : ∀ b ∈ fs.nodes G ino, G.Same fs.part fs'.part b) : fs.SameFile fs' G ino := by
  obtain ⟨-, -, hnodes, hbytes⟩ := tree_congr hG hd hs
  exact ⟨hd, hnodes, hbytes⟩

theorem SameFile.count (h : fs.SameFile fs' G ino) : fs'.count G ino = fs.count G ino := by
  rw [FS.count, FS.count, getSize, getSize, h.data]

theorem SameFile.trans {fs₁ : FS} (h : fs.SameFile fs₁ G ino) (h' : fs₁.SameFile fs' G ino) :
    fs.SameFile fs' G ino where
  data := h'.data.trans h.data
  nodes := h'.nodes.trans h.nodes
  bytes j hj := (h'.bytes j (by rwa [h.count])).trans (h.bytes j hj)

namespace WellFormed

variable {live : List Nat}

theorem heldOne (h : fs.WellFormed G M live) (hino : ino ∈ live) :
    G.Held M fs.part (fs.nodes G ino) := by
  refine ⟨?_, fun b hb => h.held.owned b (List.mem_flatMap.mpr ⟨ino, hino, hb⟩)⟩
  exact (List.nodup_flatMap.mp h.held.nodup).1 ino hino

theorem intact (h : fs.WellFormed G M live) (hino : ino ∈ live) : fs.Intact G M ino :=
  ⟨h.fit, h.inode ino hino, h.blocks ino hino, h.heldOne hino⟩

/-- The blocks of different inodes are different. -/
theorem disjoint (h : fs.WellFormed G M live) {ino' b : Nat} (hino : ino ∈ live)
    (hino' : ino' ∈ live) (hne : ino ≠ ino') (hb : b ∈ fs.nodes G ino) : b ∉ fs.nodes G ino' := by
  intro hb'
  have hpair := (List.nodup_flatMap.mp h.held.nodup).2
  have : Std.Symm (Function.onFun List.Disjoint (fs.nodes G)) := ⟨fun _ _ h => h.symm⟩
  exact hpair.forall hino hino' hne hb hb'

/-- An operation on one inode keeps the others as they are. -/
theorem other (hG : G.Sound) (h : fs.WellFormed G M live) (hino : ino ∈ live)
    (hc : fs.Change fs' G M ino (fs.nodes G ino)) {i : Nat} (hi : i ∈ live) (hne : i ≠ ino) :
    fs'.getInodeData i = fs.getInodeData i ∧ fs'.count G i = fs.count G i ∧
      fs'.leaves G i = fs.leaves G i ∧ fs'.nodes G i = fs.nodes G i ∧
      ∀ j < fs.count G i * G.blockSize, fs'.byte G i j = fs.byte G i j := by
  have hd := hc.inodes i (h.inode i hi) hne
  exact ⟨hd, tree_congr hG hd fun b hb => (hc.others b ((h.heldOne hi).owned b hb)
    (h.disjoint hi hino hne hb)).2.2⟩

/-- An operation on one inode keeps the state well formed. -/
theorem change (hG : G.Sound) (h : fs.WellFormed G M live) (hino : ino ∈ live)
    (hc : fs.Change fs' G M ino (fs.nodes G ino)) : fs'.WellFormed G M live where
  fit := hc.fit
  firstDataBlock := h.firstDataBlock
  nodup := h.nodup
  inode := h.inode
  blocks i hi := by
    by_cases hne : i = ino
    · subst hne; exact hc.blocks
    · obtain ⟨hd, hcount, -⟩ := h.other hG hino hc hi hne
      rw [hd, hcount]
      exact h.blocks i hi
  held := by
    have hnodes : ∀ i ∈ live, i ≠ ino → fs'.nodes G i = fs.nodes G i := fun i hi hne =>
      (h.other hG hino hc hi hne).2.2.2.1
    have hsep : ∀ i ∈ live, i ≠ ino → ∀ b ∈ fs'.nodes G i, b ∉ fs'.nodes G ino :=
      fun i hi hne b hb => by
        rw [hnodes i hi hne] at hb
        exact (hc.others b ((h.heldOne hi).owned b hb) (h.disjoint hi hino hne hb)).2.1
    refine ⟨List.nodup_flatMap.mpr ⟨fun i hi => ?_, ?_⟩, fun b hb => ?_⟩
    · by_cases hne : i = ino
      · subst hne; exact hc.held.nodup
      · rw [hnodes i hi hne]; exact (h.heldOne hi).nodup
    · refine h.nodup.pairwise_of_forall_ne fun i hi j hj hne b hb hb' => ?_
      by_cases hii : i = ino
      · subst hii; exact hsep j hj (Ne.symm hne) b hb' hb
      · by_cases hjj : j = ino
        · subst hjj; exact hsep i hi hii b hb hb'
        · rw [hnodes i hi hii] at hb
          rw [hnodes j hj hjj] at hb'
          exact h.disjoint hi hj hne hb hb'
    · obtain ⟨i, hi, hb⟩ := List.mem_flatMap.mp hb
      by_cases hne : i = ino
      · subst hne; exact hc.held.owned b hb
      · rw [hnodes i hi hne] at hb
        exact (hc.others b ((h.heldOne hi).owned b hb) (h.disjoint hi hino hne hb)).1

end WellFormed

end FS

theorem small_metadata : small.geometry.Metadata (· < 5) where
  apart b _ hd A hA i _ h := by
    have harea := small_area hA h
    rw [small_blockSize] at harea
    cases A <;> simp only [smallArea] at harea <;> omega

theorem small_inode : (small.getInodeData 1).size = 0 ∧ (small.getInodeData 1).blocks = 0 := by
  decide +kernel

theorem small_fit : small.Fit small.geometry (· < 5) where
  geometry := rfl
  padded := small_padded
  reserved b _ hb := by
    have hused : ∀ b < 5, small.geometry.used small.part b = true := by decide +kernel
    exact hused b hb

theorem small_available : small.available = 59 := by
  have hzeros := small_accounted.blocks.group 0 (by decide)
  rw [FS.available, show small.nbBgd = 1 from rfl, Finset.sum_range_one, ← hzeros, Nat.min_self]
  rfl

theorem small_wellFormed : small.WellFormed small.geometry (· < 5) [1] where
  fit := small_fit
  firstDataBlock := rfl
  nodup := List.nodup_singleton 1
  inode ino hino := by
    rw [List.mem_singleton.mp hino]
    exact ⟨le_rfl, by rw [small_inodes.1, small_nbBgd]; decide⟩
  blocks ino hino := by
    have hcount : small.count small.geometry 1 = 0 := by
      rw [FS.count, FS.getSize, InodeData.getSize, small_inode.1]
      exact Geometry.blocksFor_zero small_sound
    rw [List.mem_singleton.mp hino, hcount, small_inode.2, Shape.total_zero, Nat.zero_mul]
    rfl
  held := by
    have hcount : small.count small.geometry 1 = 0 := by
      rw [FS.count, FS.getSize, InodeData.getSize, small_inode.1]
      exact Geometry.blocksFor_zero small_sound
    have hnodes : small.nodes small.geometry 1 = [] := by
      rw [FS.nodes, hcount, BlockMap.nodes_zero]
    rw [List.flatMap_singleton, hnodes]
    exact ⟨List.nodup_nil, fun b hb => nomatch hb⟩

end SupOS.Ext2
