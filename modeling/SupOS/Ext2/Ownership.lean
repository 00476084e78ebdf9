import SupOS.Ext2.Resize
import Mathlib.Logic.Relation

/-! The ownership of blocks over whole runs: the blocks that are marked used are those with metadata
and those of the trees of the live inodes, each in one tree. -/

namespace SupOS.Ext2

open Lib SupOS.Ext2.Geometry

variable {G : Geometry} {M : Nat → Prop} {fs fs1 fs' : FS} {ino : Nat} {live : List Nat}

namespace FS

/-- What an operation that concerns only inode `ino` and its bit leaves of the state. -/
structure Aside (fs fs' : FS) (G : Geometry) (M : Nat → Prop) (ino : Nat) : Prop where
  fit : fs'.Fit G M
  inodes : ∀ i, G.IsInode i → i ≠ ino → fs'.getInodeData i = fs.getInodeData i
  blocks : ∀ b < G.blocksCount, ¬M b → G.Same fs.part fs'.part b
  used : ∀ b < G.blocksCount, G.used fs'.part b = G.used fs.part b
  marks : ∀ i, G.IsInode i → i ≠ ino → G.inodeUsed fs'.part i = G.inodeUsed fs.part i

theorem Aside.trans (h : fs.Aside fs1 G M ino) (h' : fs1.Aside fs' G M ino) :
    fs.Aside fs' G M ino where
  fit := h'.fit
  inodes i hi hne := (h'.inodes i hi hne).trans (h.inodes i hi hne)
  blocks b hb hd i hi := (h'.blocks b hb hd i hi).trans (h.blocks b hb hd i hi)
  used b hb := (h'.used b hb).trans (h.used b hb)
  marks i hi hne := (h'.marks i hi hne).trans (h.marks i hi hne)

theorem SameBitmaps.inodeUsed {m m' : Bytes} (h : G.SameBitmaps m m') (hG : G.Sound) {i : Nat}
    (hi : G.IsInode i) : G.inodeUsed m' i = G.inodeUsed m i :=
  h.bitIn (A := .inodeBitmap _) trivial (hi.group_lt hG)
    (lt_of_lt_of_le (Nat.mod_lt _ hG.inodesPerGroup_pos) hG.inodesPerGroup_le)

theorem Stored.aside {d : InodeData} (h : fs.Stored fs' G M ino d) (hG : G.Sound) :
    fs.Aside fs' G M ino where
  fit := h.fit
  inodes := h.inodes
  blocks := h.blocks
  used _ hb := h.bitmaps.used hG hb
  marks _ hi _ := SameBitmaps.inodeUsed h.bitmaps hG hi

theorem Change.marks {old : List Nat} (h : fs.Change fs' G M ino old) (hG : G.Sound) {i : Nat}
    (hi : G.IsInode i) : G.inodeUsed fs'.part i = G.inodeUsed fs.part i :=
  h.inodeBits _ (hi.group_lt hG) _
    (lt_of_lt_of_le (Nat.mod_lt _ hG.inodesPerGroup_pos) hG.inodesPerGroup_le)

/-- Bytes of the superblock, the descriptors and one inode bitmap hold no inode and no block of
data. -/
theorem inodes_blocks_kept (hG : G.Sound) (hM : G.Metadata M) (hF : fs.Fit G M)
    (hgeo : fs'.geometry = G) {g : Nat} (hg : g < G.nbBgd)
    (h : ∀ a, ¬G.In .superBlock a → ¬G.In .descriptors a → ¬G.In (.inodeBitmap g) a →
      fs'.part a = fs.part a) :
    (∀ i, G.IsInode i → fs'.getInodeData i = fs.getInodeData i) ∧
      ∀ b < G.blocksCount, ¬M b → G.Same fs.part fs'.part b := by
  refine ⟨fun i hi => getInodeData_congr hF.geometry hgeo hG hi fun j hj => ?_, fun b hb hd j hj => ?_⟩
  · have hin := hi.in_table hG hj
    have hnot : ∀ A : Area, G.Exists A → .inodeTable ((i - 1) / G.inodesPerGroup) ≠ A →
        ¬G.In A (G.inodeAddr i + j) := fun A hA hne =>
      hG.not_in (A := .inodeTable _) (hi.group_lt hG) hA hne (fun h => h) hin
    exact h _ (hnot .superBlock trivial (by simp)) (hnot .descriptors trivial (by simp))
      (hnot (.inodeBitmap g) hg (by simp))
  · have hnot : ∀ A : Area, G.Exists A → ¬G.In A (b * G.blockSize + j) := fun A hA =>
      hM.apart b hb hd A hA j hj
    exact h _ (hnot .superBlock trivial) (hnot .descriptors trivial) (hnot (.inodeBitmap g) hg)

/-- The inode that `getNewInode` gives out was free and is marked used. -/
theorem getNewInode_aside (hG : G.Sound) (hM : G.Metadata M) (hF : fs.Fit G M)
    (isDirectory : Bool) : Ensures (fs.getNewInode isDirectory)
      (fun e => e = .bsod "No more inodes on disk :-(")
      (fun r => G.IsInode r.1 ∧ G.inodeUsed fs.part r.1 = false ∧
        G.inodeUsed r.2.part r.1 = true ∧ fs.Aside r.2 G M r.1) := by
  have hgeo := hF.geometry
  refine (fs.getNewInode_spec (hgeo ▸ hG) isDirectory).mono (fun e he => he.1) ?_
  rintro ⟨ino, fs'⟩ ⟨g, k, ht, hnum⟩
  have htook : G.Took fs.part fs'.part (.inodeBitmap g) k := hgeo ▸ ht.took
  have hk := htook.inode_lt hF.padded
  have hg : g < G.nbBgd := htook.area
  have hle : G.inodesPerGroup * g + k + 1 ≤ G.inodesPerGroup * G.nbBgd := by
    have := Nat.mul_le_mul_left G.inodesPerGroup (Nat.succ_le_of_lt hg)
    rw [Nat.mul_succ] at this
    omega
  simp only at hnum
  rw [show fs.sb.inodesPerGroup.toNat = G.inodesPerGroup from
    congrArg Geometry.inodesPerGroup hgeo, u32_of_lt (lt_of_le_of_lt hle hG.inodes_lt)] at hnum
  have hino : G.IsInode ino := ⟨by omega, by omega⟩
  obtain ⟨hdiv, hmod⟩ := Geometry.div_mod_number (g := g) hk
  have hbit : ∀ m, G.inodeUsed m ino = G.bitIn m (.inodeBitmap g) k := fun m => by
    rw [Geometry.inodeUsed, hnum, Nat.add_sub_cancel, hdiv, hmod]
    rfl
  have hkeep : ∀ {A : Area} {i : Nat}, A.IsBitmap → G.Exists A → i < 8 * G.blockSize →
      ¬(A = .inodeBitmap g ∧ i = k) → G.bitIn fs'.part A i = G.bitIn fs.part A i :=
    fun hA hE hi hne => by
      rw [htook.bits _ hE hA _ hi, decide_eq_false hne, Bool.or_false]
  have hset : ∀ {A : Area} {i : Nat}, A.IsBitmap → G.Exists A → i < 8 * G.blockSize →
      G.bitIn fs.part A i = true → G.bitIn fs'.part A i = true := fun hA hE hi hset => by
    rw [htook.bits _ hE hA _ hi, hset, Bool.true_or]
  have hused : ∀ b < G.blocksCount, G.used fs'.part b = G.used fs.part b := fun b hb =>
    hkeep (A := .blockBitmap _) trivial (hG.group_lt hb)
      (lt_of_lt_of_le (Nat.mod_lt _ hG.blocksPerGroup_pos) hG.blocksPerGroup_le) (by simp)
  have hgeo' : fs'.geometry = G := ht.geometry.trans hgeo
  obtain ⟨hinodes, hblocks⟩ := inodes_blocks_kept hG hM hF hgeo' hg htook.keeps
  refine ⟨hino, by rw [hbit]; exact htook.free, ?_, {
    fit := {
      geometry := hgeo'
      padded := {
        block := fun g' hg' i hi hpad =>
          hset (A := .blockBitmap g') trivial hg' hi (hF.padded.block g' hg' i hi hpad)
        inode := fun g' hg' i hi hpad =>
          hset (A := .inodeBitmap g') trivial hg' hi (hF.padded.inode g' hg' i hi hpad) }
      reserved := fun b hb hMb => by rw [hused b hb]; exact hF.reserved b hb hMb }
    inodes := fun i hi _ => hinodes i hi
    blocks := hblocks
    used := hused
    marks := fun i hi hne => ?_ }⟩
  · rw [hbit, htook.bits (.inodeBitmap g) hg trivial _ htook.index]
    simp
  · have hmod' : (i - 1) % G.inodesPerGroup < G.inodesPerGroup := Nat.mod_lt _ hG.inodesPerGroup_pos
    refine hkeep (A := .inodeBitmap _) trivial (hi.group_lt hG)
      (lt_of_lt_of_le hmod' hG.inodesPerGroup_le) ?_
    rw [Area.inodeBitmap.injEq, ← Geometry.number_eq_iff hmod' hk, Nat.div_add_mod]
    have := hi.pos
    omega

/-- `freeInode` frees an inode that is marked used. -/
theorem freeInode_aside (hG : G.Sound) (hM : G.Metadata M) (hF : fs.Fit G M)
    (hino : G.IsInode ino) (hused : G.inodeUsed fs.part ino = true) (isDirectory : Bool) :
    ∃ fs', fs.freeInode ino isDirectory = .ok fs' ∧ fs.Aside fs' G M ino := by
  have hgeo := hF.geometry
  have hper : fs.sb.inodesPerGroup.toNat = G.inodesPerGroup :=
    congrArg Geometry.inodesPerGroup hgeo
  obtain ⟨fs', heq, hd⟩ := fs.freeInode_spec (hgeo ▸ hG) isDirectory hino.pos
    (lt_of_le_of_lt hino.le hG.inodes_lt) (by rw [hper]; exact hgeo ▸ hino.group_lt hG)
    (hgeo ▸ hused)
  rw [hper] at hd
  have hdrop := hd.dropped
  rw [hgeo] at hdrop
  have hmod : (ino - 1) % G.inodesPerGroup < G.inodesPerGroup :=
    Nat.mod_lt _ hG.inodesPerGroup_pos
  have hkeep : ∀ {A : Area} {i : Nat}, A.IsBitmap → G.Exists A → i < 8 * G.blockSize →
      ¬(A = .inodeBitmap ((ino - 1) / G.inodesPerGroup) ∧ i = (ino - 1) % G.inodesPerGroup) →
      G.bitIn fs'.part A i = G.bitIn fs.part A i := fun hA hE hi hne => by
    rw [hdrop.bits _ hE hA _ hi, decide_eq_false hne, Bool.not_false, Bool.and_true]
  have hblock : ∀ b < G.blocksCount, G.used fs'.part b = G.used fs.part b := fun b hb =>
    hkeep (A := .blockBitmap _) trivial (hG.group_lt hb)
      (lt_of_lt_of_le (Nat.mod_lt _ hG.blocksPerGroup_pos) hG.blocksPerGroup_le) (by simp)
  have hgeo' : fs'.geometry = G := hd.geometry.trans hgeo
  obtain ⟨hinodes, hblocks⟩ := inodes_blocks_kept hG hM hF hgeo' (hino.group_lt hG) hdrop.keeps
  refine ⟨fs', heq, {
    fit := {
      geometry := hgeo'
      padded := {
        block := fun g' hg' i hi hpad => (hkeep (A := .blockBitmap g') trivial hg' hi (by simp)).trans
          (hF.padded.block g' hg' i hi hpad)
        inode := fun g' hg' i hi hpad => (hkeep (A := .inodeBitmap g') trivial hg' hi
          (by rintro ⟨-, rfl⟩; omega)).trans (hF.padded.inode g' hg' i hi hpad) }
      reserved := fun b hb hMb => by rw [hblock b hb]; exact hF.reserved b hb hMb }
    inodes := fun i hi _ => hinodes i hi
    blocks := hblocks
    used := hblock
    marks := fun i hi hne => ?_ }⟩
  have hmod' : (i - 1) % G.inodesPerGroup < G.inodesPerGroup := Nat.mod_lt _ hG.inodesPerGroup_pos
  refine hkeep (A := .inodeBitmap _) trivial (hi.group_lt hG)
    (lt_of_lt_of_le hmod' hG.inodesPerGroup_le) ?_
  rw [Area.inodeBitmap.injEq, ← Geometry.number_eq_iff hmod' hmod, Nat.div_add_mod, Nat.div_add_mod]
  have := hi.pos
  have := hino.pos
  omega

/-- Writing the descriptors changes only their area. -/
theorem writeBlockGroupDescriptor_aside (hG : G.Sound) (hM : G.Metadata M) (hF : fs.Fit G M)
    (hino : G.IsInode ino) : fs.Aside fs.writeBlockGroupDescriptor G M ino ∧
      G.inodeUsed fs.writeBlockGroupDescriptor.part ino = G.inodeUsed fs.part ino := by
  have hgeo' : fs.writeBlockGroupDescriptor.geometry = G := (fs.geometry_part _).trans hF.geometry
  have hkeep : ∀ a, ¬G.In .descriptors a → fs.writeBlockGroupDescriptor.part a = fs.part a :=
    fun a ha => by
      rw [← hF.geometry] at ha
      simp only [Geometry.In, Geometry.start, Geometry.size, geometry] at ha
      simp only [writeBlockGroupDescriptor]
      exact Bytes.blit_outside (by omega)
  have hbits : G.SameBitmaps fs.part fs.writeBlockGroupDescriptor.part := fun A hA hE a ha =>
    hkeep a (hG.not_in hE trivial (by rintro rfl; exact hA) hA.not_writeOnly ha)
  have hnb : 0 < G.nbBgd := hG.nbBgd ▸ Nat.succ_pos _
  obtain ⟨hinodes, hblocks⟩ := inodes_blocks_kept hG hM hF hgeo' hnb fun a _ hd _ => hkeep a hd
  exact ⟨{
    fit := ⟨hgeo', hbits.padded hF.padded, fun b hb hMb => by
      rw [hbits.used hG hb]; exact hF.reserved b hb hMb⟩
    inodes := fun i hi _ => hinodes i hi
    blocks := hblocks
    used := fun b hb => hbits.used hG hb
    marks := fun i hi _ => SameBitmaps.inodeUsed hbits hG hi },
    SameBitmaps.inodeUsed hbits hG hino⟩

namespace WellFormed

/-- An operation that concerns only an inode that is not live. -/
theorem aside (hG : G.Sound) (h : fs.WellFormed G M live) (hino : ino ∉ live)
    (ha : fs.Aside fs' G M ino) :
    fs'.WellFormed G M live ∧ ∀ i ∈ live, fs.SameFile fs' G i := by
  have hsame : ∀ i ∈ live, fs.SameFile fs' G i := by
    intro i hi
    refine .of_same hG (ha.inodes i (h.inode i hi) fun heq => hino (heq ▸ hi)) fun b hb => ?_
    have hown := (h.heldOne hi).owned b hb
    exact ha.blocks b hown.lt hown.data
  have hnodes : live.flatMap (fs'.nodes G) = live.flatMap (fs.nodes G) :=
    List.flatMap_congr fun i hi => (hsame i hi).nodes
  refine ⟨⟨ha.fit, h.firstDataBlock, h.nodup, h.inode, fun i hi => ?_, ?_⟩, hsame⟩
  · rw [(hsame i hi).data, (hsame i hi).count]
    exact h.blocks i hi
  · rw [hnodes]
    refine ⟨h.held.nodup, fun b hb => ?_⟩
    have hown := h.held.owned b hb
    exact ⟨hown.lt, hown.data, by rw [ha.used b hown.lt]; exact hown.used⟩

/-- A new inode with the blocks that it has got. -/
theorem adopt (hG : G.Sound) (h : fs.WellFormed G M live) (hino : ino ∉ live) (hi : G.IsInode ino)
    (hc : fs.Change fs' G M ino []) :
    fs'.WellFormed G M (ino :: live) ∧ ∀ i ∈ live, fs.SameFile fs' G i := by
  have hother := fun i (hi : i ∈ live) b (hb : b ∈ fs.nodes G i) =>
    hc.others b ((h.heldOne hi).owned b hb) List.not_mem_nil
  have hsame : ∀ i ∈ live, fs.SameFile fs' G i := fun i hi =>
    .of_same hG (hc.inodes i (h.inode i hi) fun heq => hino (heq ▸ hi)) fun b hb =>
      (hother i hi b hb).2.2
  have hnodes : live.flatMap (fs'.nodes G) = live.flatMap (fs.nodes G) :=
    List.flatMap_congr fun i hi => (hsame i hi).nodes
  refine ⟨{
    fit := hc.fit
    firstDataBlock := h.firstDataBlock
    nodup := List.nodup_cons.mpr ⟨hino, h.nodup⟩
    inode := List.forall_mem_cons.mpr ⟨hi, h.inode⟩
    blocks := List.forall_mem_cons.mpr ⟨hc.blocks, fun i hi => by
      rw [(hsame i hi).data, (hsame i hi).count]; exact h.blocks i hi⟩
    held := ?_ }, hsame⟩
  rw [List.flatMap_cons, hnodes]
  refine ⟨List.nodup_append.mpr ⟨hc.held.nodup, h.held.nodup, ?_⟩, fun b hb => ?_⟩
  · intro b hb b' hb' heq
    subst heq
    obtain ⟨i, hi, hmem⟩ := List.mem_flatMap.mp hb'
    exact (hother i hi b hmem).2.1 hb
  · rcases List.mem_append.mp hb with hb | hb
    · exact hc.held.owned b hb
    · obtain ⟨i, hi, hmem⟩ := List.mem_flatMap.mp hb
      exact (hother i hi b hmem).1

/-- An inode need not be live. -/
theorem drop (h : fs.WellFormed G M live) : fs.WellFormed G M (live.erase ino) := by
  have hmem : ∀ {i}, i ∈ live.erase ino → i ∈ live := List.mem_of_mem_erase
  have hsub : ((live.erase ino).flatMap (fs.nodes G)).Sublist (live.flatMap (fs.nodes G)) :=
    List.erase_sublist.flatMap _
  exact ⟨h.fit, h.firstDataBlock, h.nodup.erase _, fun i hi => h.inode i (hmem hi),
    fun i hi => h.blocks i (hmem hi), h.held.nodup.sublist hsub, fun b hb =>
      h.held.owned b (hsub.subset hb)⟩

end WellFormed

/-- The state of a run: the live inodes own their blocks, and the blocks that are marked used are
those and the ones with metadata. -/
structure Owning (fs : FS) (G : Geometry) (M : Nat → Prop) (live : List Nat) : Prop where
  wellFormed : fs.WellFormed G M live
  used : ∀ b < G.blocksCount, G.used fs.part b = true ↔ M b ∨ b ∈ live.flatMap (fs.nodes G)
  marked : ∀ ino ∈ live, G.inodeUsed fs.part ino = true
  size : ∀ ino ∈ live, fs.getSize ino + G.blockSize < 2 ^ 32

namespace Owning

/-- An operation on a live inode. -/
theorem change (hG : G.Sound) (h : fs.Owning G M live) (hino : ino ∈ live)
    (hc : fs.Change fs' G M ino (fs.nodes G ino))
    (hsize : fs'.getSize ino + G.blockSize < 2 ^ 32) : fs'.Owning G M live := by
  have hW := h.wellFormed
  have hnodes : ∀ i ∈ live, i ≠ ino → fs'.nodes G i = fs.nodes G i := fun i hi hne =>
    (hW.other hG hino hc hi hne).2.2.2.1
  refine ⟨hW.change hG hino hc, fun b hb => ?_, fun i hi => ?_, fun i hi => ?_⟩
  · rw [hc.used b hb, h.used b hb]
    simp only [List.mem_flatMap]
    constructor
    · rintro (⟨hM | ⟨i, hi, hmem⟩, hn⟩ | hmem)
      · exact .inl hM
      · refine .inr ⟨i, hi, ?_⟩
        rwa [hnodes i hi fun heq => hn (heq ▸ hmem)]
      · exact .inr ⟨ino, hino, hmem⟩
    · rintro (hM | ⟨i, hi, hmem⟩)
      · exact .inl ⟨.inl hM, fun hmem => ((hW.heldOne hino).owned b hmem).data hM⟩
      · by_cases hne : i = ino
        · exact .inr (hne ▸ hmem)
        · rw [hnodes i hi hne] at hmem
          exact .inl ⟨.inr ⟨i, hi, hmem⟩, hW.disjoint hi hino hne hmem⟩
  · exact (hc.marks hG (hW.inode i hi)).trans (h.marked i hi)
  · by_cases hne : i = ino
    · exact hne ▸ hsize
    · rw [getSize, hc.inodes i (hW.inode i hi) hne]
      exact h.size i hi

/-- An operation that concerns only an inode that is not live. -/
theorem aside (hG : G.Sound) (h : fs.Owning G M live) (hino : ino ∉ live)
    (ha : fs.Aside fs' G M ino) : fs'.Owning G M live := by
  have hW := h.wellFormed
  obtain ⟨hW', hsame⟩ := hW.aside hG hino ha
  have hnodes : live.flatMap (fs'.nodes G) = live.flatMap (fs.nodes G) :=
    List.flatMap_congr fun i hi => (hsame i hi).nodes
  refine ⟨hW', fun b hb => ?_, fun i hi => ?_, fun i hi => ?_⟩
  · rw [ha.used b hb, hnodes]
    exact h.used b hb
  · rw [ha.marks i (hW.inode i hi) fun heq => hino (heq ▸ hi)]
    exact h.marked i hi
  · rw [getSize, (hsame i hi).data]
    exact h.size i hi

/-- A new inode with the blocks that it has got. -/
theorem adopt (hG : G.Sound) (h : fs.Owning G M live) (hino : ino ∉ live) (hi : G.IsInode ino)
    (hused : G.inodeUsed fs.part ino = true) (hc : fs.Change fs' G M ino [])
    (hsize : fs'.getSize ino + G.blockSize < 2 ^ 32) : fs'.Owning G M (ino :: live) := by
  have hW := h.wellFormed
  obtain ⟨hW', hsame⟩ := hW.adopt hG hino hi hc
  have hnodes : live.flatMap (fs'.nodes G) = live.flatMap (fs.nodes G) :=
    List.flatMap_congr fun i hi => (hsame i hi).nodes
  refine ⟨hW', fun b hb => ?_, List.forall_mem_cons.mpr ⟨(hc.marks hG hi).trans hused, fun i hi =>
    (hc.marks hG (hW.inode i hi)).trans (h.marked i hi)⟩,
    List.forall_mem_cons.mpr ⟨hsize, fun i hi => by
      rw [getSize, (hsame i hi).data]; exact h.size i hi⟩⟩
  rw [hc.used b hb, h.used b hb, List.flatMap_cons, hnodes, List.mem_append]
  simp only [List.not_mem_nil, not_false_eq_true, and_true]
  tauto

/-- An inode without blocks need not be live. -/
theorem drop (h : fs.Owning G M live) (hnodes : fs.nodes G ino = []) :
    fs.Owning G M (live.erase ino) := by
  have hmem : ∀ {i}, i ∈ live.erase ino → i ∈ live := List.mem_of_mem_erase
  refine ⟨h.wellFormed.drop, fun b hb => ?_, fun i hi => h.marked i (hmem hi),
    fun i hi => h.size i (hmem hi)⟩
  rw [h.used b hb]
  refine or_congr_right ⟨fun hb => ?_, fun hb => (List.erase_sublist.flatMap _).subset hb⟩
  obtain ⟨i, hi, hin⟩ := List.mem_flatMap.mp hb
  refine List.mem_flatMap.mpr ⟨i, (List.mem_erase_of_ne fun heq => ?_).mpr hi, hin⟩
  rw [heq, hnodes] at hin
  exact List.not_mem_nil hin

end Owning

/-- Inode data with the same tree and as many blocks of data. -/
theorem Stored.change {d : InodeData} (hG : G.Sound) (h : fs.Intact G M ino)
    (hs : fs.Stored fs' G M ino d) (hblock : d.block = (fs.getInodeData ino).block)
    (hsize : G.blocksFor d.getSize = fs.count G ino)
    (hblocks : d.blocks = (fs.getInodeData ino).blocks) :
    fs.Change fs' G M ino (fs.nodes G ino) := by
  have hcount : fs'.count G ino = fs.count G ino := by rw [count, getSize, hs.data, hsize]
  have hnodes : fs'.nodes G ino = fs.nodes G ino := by
    simp only [nodes, tree, hcount, hs.data, hblock]
    exact BlockMap.nodes_congr _ (fun b hb =>
      have hown := h.held.owned b (List.mem_append_left _ hb)
      hs.blocks b hown.lt hown.data) (count_le hG fs ino)
  have howned : ∀ b, G.Owned M fs.part b → G.Owned M fs'.part b := fun b hb =>
    ⟨hb.lt, hb.data, by rw [hs.bitmaps.used hG hb.lt]; exact hb.used⟩
  exact {
    fit := hs.fit
    inodes := hs.inodes
    others := fun b hb hn => ⟨howned b hb, by rwa [hnodes], hs.blocks b hb.lt hb.data⟩
    held := by rw [hnodes]; exact ⟨h.held.nodup, fun b hb => howned b (h.held.owned b hb)⟩
    blocks := by rw [hs.data, hblocks, hcount]; exact h.blocks
    used := fun b hb => by
      rw [hs.bitmaps.used hG hb, hnodes]
      exact (Change.refl h).used b hb
    inodeBits := fun g hg i hi => hs.bitmaps.bitIn (A := .inodeBitmap g) trivial hg hi }

namespace Owning

/-- A non-empty `i_writeaddr`. -/
theorem iWriteaddr (hG : G.Sound) (hM : G.Metadata M) (h : fs.Owning G M live) (hino : ino ∈ live)
    {addr : Nat} {bytes : List UInt8} (hbytes : bytes ≠ [])
    (hend : addr + bytes.length + G.blockSize < 2 ^ 32) : Ensures (fs.iWriteaddr ino addr bytes)
      (fun e => e = .bsod "No space on disk :-(") (fun fs' => fs'.Owning G M live) := by
  refine (iWriteaddr_spec hG hM (h.wellFormed.intact hino) hbytes (by omega)).mono
    (fun e he => he.1) fun fs' how => h.change hG hino how.change ?_
  have := h.size ino hino
  rw [how.size]
  omega

/-- `i_resize` to a size that is not greater. -/
theorem iResize (hG : G.Sound) (hM : G.Metadata M) (h : fs.Owning G M live) (hino : ino ∈ live)
    {size : Nat} (hsize : size ≤ fs.getSize ino) :
    ∃ fs', fs.iResize ino size = .ok fs' ∧ fs.Truncated fs' G M ino size ∧
      fs'.Owning G M live := by
  have hlt := h.size ino hino
  obtain ⟨fs', heq, ht⟩ := iResize_spec hG hM (h.wellFormed.intact hino) hsize hlt.le
  exact ⟨fs', heq, ht, h.change hG hino ht.change (by rw [ht.size]; omega)⟩

theorem writeInodeData (hG : G.Sound) (hM : G.Metadata M) (h : fs.Owning G M live)
    (hino : ino ∈ live) {d : InodeData} (hblock : d.block = (fs.getInodeData ino).block)
    (hsize : d.size = (fs.getInodeData ino).size)
    (hblocks : d.blocks = (fs.getInodeData ino).blocks) :
    (fs.writeInodeData ino d).Owning G M live := by
  have hI := h.wellFormed.intact hino
  have hs := stored_writeInodeData hI.fit hG hM hI.inode d
  have hcount : G.blocksFor d.getSize = fs.count G ino := by
    simp only [count, getSize, InodeData.getSize, hsize]
  refine h.change hG hino (hs.change hG hI hblock hcount hblocks) ?_
  rw [getSize, hs.data, InodeData.getSize, hsize]
  exact h.size ino hino

/-- The last `unlink` frees the inode with its blocks; the others only count. -/
theorem unlink (hG : G.Sound) (hM : G.Metadata M) (h : fs.Owning G M live) (hino : ino ∈ live) :
    ∃ fs', fs.unlink ino = .ok fs' ∧ fs'.Owning G M
      (if (fs.getInodeData ino).linksCount = 1 then live.erase ino else live) := by
  rw [FS.unlink]
  by_cases hone : (fs.getInodeData ino).linksCount = 1
  · rw [if_pos hone, if_pos hone]
    obtain ⟨fs1, heq1, ht, h1⟩ := h.iResize hG hM hino (Nat.zero_le _)
    have hnodes : fs1.nodes G ino = [] := by
      rw [nodes, count, ht.size, blocksFor_zero hG, BlockMap.nodes_zero]
    have hi := h.wellFormed.inode ino hino
    have hnot : ino ∉ live.erase ino := h.wellFormed.nodup.not_mem_erase
    obtain ⟨fs2, heq2, ha⟩ := freeInode_aside hG hM h1.wellFormed.fit hi (h1.marked ino hino)
      (isDir (fs1.getInodeData ino).mode)
    have h2 := (h1.drop hnodes).aside hG hnot ha
    have hs := stored_writeInodeData h2.wellFormed.fit hG hM hi .zero
    have heq : (do
        let fs ← fs.iResize ino 0
        let fs ← fs.freeInode ino (isDir (fs.getInodeData ino).mode)
        return fs.writeInodeData ino .zero : Except Fault FS) =
        .ok (fs2.writeInodeData ino .zero) := by
      rw [heq1, ok_bind, heq2, ok_bind]
      rfl
    exact ⟨fs2.writeInodeData ino .zero, heq, h2.aside hG hnot (hs.aside hG)⟩
  · rw [if_neg hone, if_neg hone]
    have hW := h.writeInodeData hG hM hino (d := { fs.getInodeData ino with
      linksCount := (fs.getInodeData ino).linksCount - 1 }) rfl rfl rfl
    exact ⟨_, rfl, hW⟩

/-- The data of an inode that is not live. -/
theorem store (hG : G.Sound) (hM : G.Metadata M) (h : fs.Owning G M live) (hino : ino ∉ live)
    (hi : G.IsInode ino) (hused : G.inodeUsed fs.part ino = true) (d : InodeData) :
    (fs.writeInodeData ino d).Owning G M live ∧
      G.inodeUsed (fs.writeInodeData ino d).part ino = true ∧
      (fs.writeInodeData ino d).getInodeData ino = d := by
  have hs := stored_writeInodeData h.wellFormed.fit hG hM hi d
  exact ⟨h.aside hG hino (hs.aside hG), (SameBitmaps.inodeUsed hs.bitmaps hG hi).trans hused,
    hs.data⟩

/-- The inode that `getNewInode` gives out is not live. -/
theorem getNewInode (hG : G.Sound) (hM : G.Metadata M) (h : fs.Owning G M live)
    (isDirectory : Bool) : Ensures (fs.getNewInode isDirectory)
      (fun e => e = .bsod "No more inodes on disk :-(")
      (fun r => r.1 ∉ live ∧ G.IsInode r.1 ∧ G.inodeUsed r.2.part r.1 = true ∧
        r.2.Owning G M live) := by
  refine (getNewInode_aside hG hM h.wellFormed.fit isDirectory).mono (fun _ he => he) ?_
  rintro ⟨ino, fs1⟩ ⟨hi, hfree, hused, ha⟩
  have hnot : ino ∉ live := fun hmem => by
    rw [h.marked ino hmem] at hfree
    exact Bool.noConfusion hfree
  exact ⟨hnot, hi, hused, h.aside hG hnot ha⟩

theorem getNewFile (hG : G.Sound) (hM : G.Metadata M) (h : fs.Owning G M live)
    (uid gid mode : UInt16) : Ensures (fs.getNewFile uid gid mode)
      (fun e => (e = .assertion ∧ isReg mode = false) ∨ e = .bsod "No more inodes on disk :-(")
      (fun r => r.2.Owning G M (r.1 :: live)) := by
  rw [FS.getNewFile]
  cases hmode : isReg mode
  · exact .inl ⟨rfl, rfl⟩
  refine ((h.getNewInode hG hM false).mono (fun _ he => .inr he) fun _ hr => hr).bind ?_
  rintro ⟨ino, fs1⟩ ⟨hnot, hi, hused, h1⟩
  obtain ⟨h2, hmark, hdata⟩ := h1.store hG hM hnot hi hused (.fresh uid gid mode)
  simp only at h2 hmark hdata
  have hsize : (fs1.writeInodeData ino (.fresh uid gid mode)).getSize ino = 0 := by
    rw [getSize, hdata]; rfl
  have hcount : (fs1.writeInodeData ino (.fresh uid gid mode)).count G ino = 0 := by
    rw [count, hsize, blocksFor_zero hG]
  have hnodes : (fs1.writeInodeData ino (.fresh uid gid mode)).nodes G ino = [] := by
    rw [nodes, hcount, BlockMap.nodes_zero]
  have hI : (fs1.writeInodeData ino (.fresh uid gid mode)).Intact G M ino := {
    fit := h2.wellFormed.fit
    inode := hi
    blocks := by rw [hdata, hcount, Shape.total_zero, Nat.zero_mul]; rfl
    held := by rw [hnodes]; exact ⟨List.nodup_nil, fun _ hb => absurd hb List.not_mem_nil⟩ }
  have hc := Change.refl hI
  rw [hnodes] at hc
  have hB := hG.blockSize_le
  exact h2.adopt hG hnot hi hmark hc (by rw [hsize]; omega)

/-- The first bytes of an inode whose size was set to one block before it had any. -/
theorem iWriteaddr_first (hG : G.Sound) (hM : G.Metadata M) (h : fs.Owning G M live)
    (hino : ino ∉ live) (hi : G.IsInode ino) (hused : G.inodeUsed fs.part ino = true)
    (hsize : fs.getSize ino = G.blockSize) (hblocks : (fs.getInodeData ino).blocks = 0)
    {bytes : List UInt8} (hbytes : bytes ≠ []) (hlen : bytes.length ≤ G.blockSize) :
    Ensures (fs.iWriteaddr ino 0 bytes) (fun e => e = .bsod "No space on disk :-(")
      (fun fs' => fs'.getSize ino = G.blockSize ∧ fs'.Owning G M (ino :: live)) := by
  have hB := hG.blockSize_le
  have hone : ∀ n, 0 < n → n ≤ G.blockSize → G.blocksFor n = 1 := fun n h0 hn => by
    have h1 := (blocksFor_le_iff hG (n := n) (k := 1)).mpr (by omega)
    have h2 := (blocksFor_le_iff hG (n := n) (k := 0)).not.mpr (by omega)
    omega
  have hpos := List.length_pos_of_ne_nil hbytes
  have hfilled : fs.Filled G M ino 0 := {
    fit := h.wellFormed.fit
    inode := hi
    count := .inr rfl
    blocks := by rw [hblocks, Shape.total_zero, Nat.zero_mul]; rfl
    held := by rw [BlockMap.nodes_zero]; exact ⟨List.nodup_nil, fun _ hb => absurd hb List.not_mem_nil⟩ }
  have hreaches : fs.Reaches G ino 0 (0 + bytes.length) := by
    rw [Reaches, hsize, Nat.zero_add, max_eq_left hlen, hone _ hpos hlen, hone _ (by omega) le_rfl]
    rfl
  refine (iWriteaddr_filled hG hM hfilled hbytes (by omega) hreaches).mono (fun e he => he.1)
    fun fs' how => ?_
  have hsize' : fs'.getSize ino = G.blockSize := by rw [how.size, hsize]; omega
  have hc := how.change
  rw [BlockMap.nodes_zero] at hc
  exact ⟨hsize', h.adopt hG hino hi hused hc (by rw [hsize']; omega)⟩

/-- The entry `.` of a new directory, whose size is set before it has a block. -/
theorem init (hG : G.Sound) (hM : G.Metadata M) (h : fs.Owning G M live) (hino : ino ∉ live)
    (hi : G.IsInode ino) (hused : G.inodeUsed fs.part ino = true)
    (hsize : (fs.getInodeData ino).size = 0) (hblocks : (fs.getInodeData ino).blocks = 0) :
    Ensures (fs.init ino) (fun e => e = .bsod "No space on disk :-(")
      (fun fs' => fs'.Owning G M (ino :: live)) := by
  have hB := hG.blockSize_le
  have hBge : 1024 ≤ G.blockSize := by have := hG.fanout_ge; have := hG.blockSize_eq; omega
  have hblock : fs.blockSize = G.blockSize := congrArg Geometry.blockSize h.wellFormed.fit.geometry
  have hsize0 : fs.getSize ino = 0 := by rw [getSize, InodeData.getSize, hsize]; rfl
  obtain ⟨h1, hmark, hdata⟩ :=
    h.store hG hM hino hi hused ((fs.getInodeData ino).setSize G.blockSize)
  have hsize1 : (fs.writeInodeData ino ((fs.getInodeData ino).setSize G.blockSize)).getSize ino =
      G.blockSize := by
    rw [getSize, hdata]
    simp only [InodeData.getSize, InodeData.setSize, UInt32.toNat_ofNat']
    omega
  have hlength : ∀ e : DirectoryEntry, e.toList.length = 8 := fun e => by
    simp [DirectoryEntry.toList]
  have hfirst := fun e : DirectoryEntry => h1.iWriteaddr_first hG hM hino hi hmark hsize1
    (by rw [hdata]; exact hblocks) (List.ne_nil_of_length_pos (by rw [hlength e]; decide))
    (by rw [hlength e]; omega)
  rw [FS.init, hblock, fs.iResize_grow (by omega) (by omega), ok_bind]
  refine (hfirst _).bind ?_
  rintro fs2 ⟨hsize2, h2⟩
  refine (h2.iWriteaddr hG hM List.mem_cons_self (by simp) (by simp; omega)).bind ?_
  intro fs3 h3
  exact h3.writeInodeData hG hM List.mem_cons_self rfl rfl rfl

theorem getNewDirectory (hG : G.Sound) (hM : G.Metadata M) (h : fs.Owning G M live)
    (uid gid mode : UInt16) : Ensures (fs.getNewDirectory uid gid mode)
      (fun e => (e = .assertion ∧ isDir mode = false) ∨ e = .bsod "No more inodes on disk :-(" ∨
        e = .bsod "No space on disk :-(")
      (fun r => r.2.Owning G M (r.1 :: live)) := by
  rw [FS.getNewDirectory]
  cases hmode : isDir mode
  · exact .inl ⟨rfl, rfl⟩
  refine ((h.getNewInode hG hM true).mono (fun _ he => .inr (.inl he)) fun _ hr => hr).bind ?_
  rintro ⟨ino, fs1⟩ ⟨hnot, hi, hused, h1⟩
  obtain ⟨ha, hmark⟩ := writeBlockGroupDescriptor_aside hG hM h1.wellFormed.fit hi
  obtain ⟨h2, hmark2, hdata⟩ := (h1.aside hG hnot ha).store hG hM hnot hi (hmark.trans hused)
    (.fresh uid gid mode)
  refine ((h2.init hG hM hnot hi hmark2 (by rw [hdata]; rfl) (by rw [hdata]; rfl)).mono
    (fun _ he => .inr (.inr he)) fun _ hr => hr).bind ?_
  exact fun fs3 h3 => h3

end Owning

end FS

/-- A file system and its live inodes. -/
structure Inodes where
  fs : FS
  live : List Nat

namespace Inodes

/-- One operation on a live inode, or the creation of an inode. -/
inductive Step : Inodes → Inodes → Prop
  | getNewFile {fs fs' : FS} {live uid gid mode ino} :
      fs.getNewFile uid gid mode = .ok (ino, fs') → Step ⟨fs, live⟩ ⟨fs', ino :: live⟩
  | getNewDirectory {fs fs' : FS} {live uid gid mode ino} :
      fs.getNewDirectory uid gid mode = .ok (ino, fs') → Step ⟨fs, live⟩ ⟨fs', ino :: live⟩
  | iWriteaddr {fs fs' : FS} {live ino addr bytes} : ino ∈ live → bytes ≠ [] →
      addr + bytes.length + fs.blockSize < 2 ^ 32 → fs.iWriteaddr ino addr bytes = .ok fs' →
      Step ⟨fs, live⟩ ⟨fs', live⟩
  | iResize {fs fs' : FS} {live ino size} : ino ∈ live → size ≤ fs.getSize ino →
      fs.iResize ino size = .ok fs' → Step ⟨fs, live⟩ ⟨fs', live⟩
  | link {fs : FS} {live ino} : ino ∈ live → Step ⟨fs, live⟩ ⟨fs.link ino, live⟩
  | unlink {fs fs' : FS} {live ino} : ino ∈ live → fs.unlink ino = .ok fs' →
      Step ⟨fs, live⟩ ⟨fs', if (fs.getInodeData ino).linksCount = 1 then live.erase ino else live⟩

/-- The states of the runs that begin at `s`. -/
def Reachable (s s' : Inodes) : Prop := Relation.ReflTransGen Step s s'

/-- The live inodes own their blocks, and no operation on them stops, but for the space. -/
structure Safe (G : Geometry) (M : Nat → Prop) (s : Inodes) : Prop where
  owning : s.fs.Owning G M s.live
  iWriteaddr : ∀ ino ∈ s.live, ∀ addr bytes, bytes ≠ [] →
    addr + bytes.length + G.blockSize < 2 ^ 32 → ∀ e, s.fs.iWriteaddr ino addr bytes = .error e →
    e = .bsod "No space on disk :-("
  iResize : ∀ ino ∈ s.live, ∀ size ≤ s.fs.getSize ino, ∃ fs', s.fs.iResize ino size = .ok fs'
  unlink : ∀ ino ∈ s.live, ∃ fs', s.fs.unlink ino = .ok fs'

variable {s s' : Inodes}

theorem Step.owning (hG : G.Sound) (hM : G.Metadata M) (h : s.fs.Owning G M s.live)
    (hs : Step s s') : s'.fs.Owning G M s'.live := by
  cases hs with
  | getNewFile heq => exact (h.getNewFile hG hM _ _ _).of_ok heq
  | getNewDirectory heq => exact (h.getNewDirectory hG hM _ _ _).of_ok heq
  | @iWriteaddr fs fs' live ino addr bytes hino hbytes hend heq =>
    have hB : fs.blockSize = G.blockSize := congrArg Geometry.blockSize h.wellFormed.fit.geometry
    exact (h.iWriteaddr hG hM hino hbytes (hB ▸ hend)).of_ok heq
  | iResize hino hsize heq =>
    obtain ⟨fs', heq', -, h'⟩ := h.iResize hG hM hino hsize
    obtain rfl := Except.ok.inj (heq.symm.trans heq')
    exact h'
  | link hino => exact h.writeInodeData hG hM hino rfl rfl rfl
  | unlink hino heq =>
    obtain ⟨fs', heq', h'⟩ := h.unlink hG hM hino
    obtain rfl := Except.ok.inj (heq.symm.trans heq')
    exact h'

theorem Reachable.owning (hG : G.Sound) (hM : G.Metadata M) (h : s.fs.Owning G M s.live)
    (hr : Reachable s s') : s'.fs.Owning G M s'.live := by
  induction hr with
  | refl => exact h
  | tail _ hs ih => exact Step.owning hG hM ih hs

end Inodes

theorem small_owning : small.Owning small.geometry (· < 5) [1] where
  wellFormed := small_wellFormed
  used b hb := by
    have hused : ∀ b < 64, small.geometry.used small.part b = decide (b < 5) := by decide +kernel
    have hcount : small.count small.geometry 1 = 0 := by
      rw [FS.count, FS.getSize, InodeData.getSize, small_inode.1]
      exact Geometry.blocksFor_zero small_sound
    rw [hused b hb, List.flatMap_singleton, FS.nodes, hcount, BlockMap.nodes_zero]
    simp
  marked ino hino := by
    rw [List.mem_singleton.mp hino]
    decide +kernel
  size ino hino := by
    rw [List.mem_singleton.mp hino, FS.getSize, InodeData.getSize, small_inode.1, small_blockSize]
    decide

namespace Inodes

end Inodes

end SupOS.Ext2
