import SupOS.Ext2.Ownership

/-! Sequences of calls of `i_resize`, and `unlink` after them. Growing sets only the size, and shrinking
takes the size for the number of blocks, so that the sizes have to lie within the blocks of the file. -/

namespace SupOS.Ext2

open Lib SupOS.Ext2.Geometry

variable {G : Geometry} {M : Nat → Prop} {fs fs1 fs' : FS} {ino n : Nat}

namespace FS

/-- After `i_resize(n)` the file has no more blocks than before: `n` is not above its size, or the size
that is stored, in 32 bits, needs as many blocks. -/
def Covers (fs : FS) (G : Geometry) (ino n : Nat) : Prop :=
  n ≤ fs.getSize ino ∨ G.blocksFor (n % 2 ^ 32) = fs.count G ino

/-- The states after calls of `i_resize` to sizes within the blocks that the file has. -/
inductive Resizes (G : Geometry) (ino : Nat) (fs : FS) : FS → Prop
  | refl : Resizes G ino fs fs
  | resize {fs1 fs2 : FS} {n : Nat} (hr : Resizes G ino fs fs1) (hlt : n < 2 ^ 64)
      (hn : fs1.Covers G ino n) (heq : fs1.iResize ino n = .ok fs2) : Resizes G ino fs fs2

/-- The block bitmaps and the counts of free blocks are those of `fs` without the file. -/
structure Without (fs fs' : FS) (G : Geometry) (ino : Nat) : Prop where
  used : ∀ b < G.blocksCount,
    G.used fs'.part b = (G.used fs.part b && !decide (b ∈ fs.nodes G ino))
  credited : fs.Credited fs' G (fs.nodes G ino)

/-- In the state `fs1` after calls that began at `fs`: the field `blocks` counts the blocks of the file,
further calls free only blocks of the file, and `unlink` undoes them all. -/
structure Undoable (fs fs1 : FS) (G : Geometry) (M : Nat → Prop) (ino : Nat) : Prop where
  intact : fs1.Intact G M ino
  resize : ∀ n < 2 ^ 64, fs1.Covers G ino n →
    ∃ fs2, fs1.iResize ino n = .ok fs2 ∧ fs1.Pruned fs2 G ino (n % 2 ^ 32)
  unlink : ∃ fs2, fs1.unlink ino = .ok fs2 ∧ fs.Without fs2 G ino

/-- What one call of `i_resize` within the blocks of the file leaves, where `n` is the size stored. -/
structure Resized (fs fs' : FS) (G : Geometry) (M : Nat → Prop) (ino n : Nat) : Prop where
  change : fs.Change fs' G M ino (fs.nodes G ino)
  keeps : (fs.getInodeData ino).Keeps (fs'.getInodeData ino)
  size : fs'.getSize ino = n
  pruned : fs.Pruned fs' G ino n

/-- Growing within the last block allocates nothing, and needs nothing. -/
theorem iResize_within (hG : G.Sound) (hM : G.Metadata M) (h : fs.Intact G M ino)
    (hsize : fs.getSize ino < n) (hlt : n < 2 ^ 64)
    (hcount : G.blocksFor (n % 2 ^ 32) = fs.count G ino) :
    ∃ fs', fs.iResize ino n = .ok fs' ∧ fs.Resized fs' G M ino (n % 2 ^ 32) := by
  have hs := stored_writeInodeData h.fit hG hM h.inode ((fs.getInodeData ino).setSize n)
  have hgetSize : ((fs.getInodeData ino).setSize n).getSize = n % 2 ^ 32 := by
    simp only [InodeData.getSize, InodeData.setSize, UInt32.toNat_ofNat']
  have hchange := hs.change hG h rfl (by rw [hgetSize, hcount]) rfl
  obtain ⟨hi, hl⟩ := (fs.tree G ino).congr fs.part _ (fs.count G ino) (fun b hb =>
    have hown := h.held.owned b (List.mem_append_left _ hb)
    hs.blocks b hown.lt hown.data) (count_le hG fs ino)
  have hcount' : (fs.writeInodeData ino ((fs.getInodeData ino).setSize n)).count G ino =
      fs.count G ino := by rw [count, getSize, hs.data, hgetSize, hcount]
  have hblock : ((fs.getInodeData ino).setSize n).block = (fs.getInodeData ino).block := rfl
  have hinner : (fs.writeInodeData ino ((fs.getInodeData ino).setSize n)).inner G ino =
      fs.inner G ino := by rw [inner, tree, hcount', hs.data, hblock, hi, inner]
  have hleaves : (fs.writeInodeData ino ((fs.getInodeData ino).setSize n)).leaves G ino =
      fs.leaves G ino := by rw [leaves, tree, hcount', hs.data, hblock, hl, leaves]
  have hnone : fs.surplus G ino (n % 2 ^ 32) = [] := by
    rw [surplus, hcount]
    exact List.filter_eq_nil_iff.mpr fun b hb => by
      simpa using show b ∈ (fs.tree G ino).nodes fs.part (fs.count G ino) from hb
  refine ⟨_, fs.iResize_grow hsize hlt, hchange, ?_, ?_, ?_, ?_, ?_, ?_, ?_⟩
  · rw [hs.data]
    exact ⟨rfl, rfl, rfl, rfl⟩
  · rw [getSize, hs.data, hgetSize]
  · rw [hleaves, hcount, leaves]
  · rw [hinner, hcount, inner]
  · rw [nodes_eq (fs.writeInodeData ino ((fs.getInodeData ino).setSize n)), hinner, hleaves, hnone,
      List.append_nil, ← nodes_eq]
  · intro b hb
    rw [hnone, hs.bitmaps.used hG hb]
    simp
  · rw [hnone]
    exact fs.writeInodeData_credited G ino _

/-- One call of `i_resize`, growing or shrinking. -/
theorem iResize_resized (hG : G.Sound) (hM : G.Metadata M) (h : fs.Intact G M ino)
    (hlt : n < 2 ^ 64) (hn : fs.Covers G ino n)
    (hroom : (fs.count G ino + 1) * G.blockSize ≤ 2 ^ 32) :
    ∃ fs', fs.iResize ino n = .ok fs' ∧ fs.Resized fs' G M ino (n % 2 ^ 32) := by
  rcases Nat.lt_or_ge (fs.getSize ino) n with hgrows | hshrinks
  · exact iResize_within hG hM h hgrows hlt (hn.resolve_left (Nat.not_le.mpr hgrows))
  · have hle := le_blocksFor hG (fs.getSize ino)
    rw [← count] at hle
    rw [Nat.succ_mul] at hroom
    rw [Nat.mod_eq_of_lt (lt_of_le_of_lt hshrinks (fs.getInodeData ino).size.toNat_lt)]
    obtain ⟨fs', heq, ht, hp⟩ := iResize_pruned hG hM h hshrinks (by omega)
    exact ⟨fs', heq, ht.change, ht.keeps, ht.size, hp⟩

theorem Covers.count_le (hG : G.Sound) (h : fs.Covers G ino n) :
    G.blocksFor (n % 2 ^ 32) ≤ fs.count G ino := by
  rcases h with h | h
  · exact (blocksFor_le_iff hG).mpr ((Nat.mod_le _ _).trans (h.trans (le_blocksFor hG _)))
  · exact h.le

/-! ### The run -/

/-- The state `fs1` of a run from `fs`: the file is in order, and the blocks that it no longer has are
free. -/
structure Left (fs fs1 : FS) (G : Geometry) (M : Nat → Prop) (ino : Nat) : Prop where
  intact : fs1.Intact G M ino
  marked : G.inodeUsed fs1.part ino = true
  links : (fs1.getInodeData ino).linksCount = 1
  count : fs1.count G ino ≤ fs.count G ino
  freed : ∃ freed, (fs.nodes G ino).Perm (fs1.nodes G ino ++ freed) ∧
    (∀ b < G.blocksCount, G.used fs1.part b = (G.used fs.part b && !decide (b ∈ freed))) ∧
    fs.Credited fs1 G freed

theorem Left.refl (h : fs.Intact G M ino) (hmarked : G.inodeUsed fs.part ino = true)
    (hlinks : (fs.getInodeData ino).linksCount = 1) : fs.Left fs G M ino :=
  ⟨h, hmarked, hlinks, le_rfl, [], by simp, fun b _ => by simp, .of_same rfl rfl⟩

theorem Left.resized (hG : G.Sound) (h : fs.Left fs1 G M ino) (hr : fs1.Resized fs' G M ino n)
    (hn : G.blocksFor n ≤ fs1.count G ino) : fs.Left fs' G M ino where
  intact := hr.change.intact h.intact.inode
  marked := (hr.change.marks hG h.intact.inode).trans h.marked
  links := hr.keeps.linksCount.trans h.links
  count := by
    rw [FS.count, hr.size]
    exact hn.trans h.count
  freed := by
    obtain ⟨freed, hp, hused, hcredited⟩ := h.freed
    refine ⟨freed ++ fs1.surplus G ino n, ?_, fun b hb => ?_,
      hcredited.trans hr.pruned.credited⟩
    · refine hp.trans ((hr.pruned.nodes.append_right freed).trans ?_)
      rw [List.append_assoc]
      exact List.Perm.append_left _ List.perm_append_comm
    · rw [hr.pruned.used b hb, hused b hb, Bool.and_assoc]
      by_cases h1 : b ∈ freed <;> by_cases h2 : b ∈ fs1.surplus G ino n <;> simp [h1, h2]

theorem Left.room (h : fs.Left fs1 G M ino)
    (hroom : (fs.count G ino + 1) * G.blockSize ≤ 2 ^ 32) :
    (fs1.count G ino + 1) * G.blockSize ≤ 2 ^ 32 :=
  (Nat.mul_le_mul_right _ (Nat.succ_le_succ h.count)).trans hroom

/-- `freeInode` does not change the counts of free blocks. -/
theorem DroppedInode.credited {isDirectory : Bool} {g k : Nat}
    (h : fs.DroppedInode fs' isDirectory g k) : fs.Credited fs' G [] where
  total := by
    rw [h.sb]
    exact (UInt32.add_zero _).symm
  group g' := by
    rw [h.bgd]
    by_cases hg : g' = g
    · rw [hg, Function.update_self]
      exact (UInt16.add_zero _).symm
    · rw [Function.update_of_ne hg]
      exact (UInt16.add_zero _).symm

theorem freeInode_credited (hG : G.Sound) (hF : fs.Fit G M) (hino : G.IsInode ino)
    (hused : G.inodeUsed fs.part ino = true) {isDirectory : Bool}
    (heq : fs.freeInode ino isDirectory = .ok fs') : fs.Credited fs' G [] := by
  have hgeo := hF.geometry
  have hper : fs.sb.inodesPerGroup.toNat = G.inodesPerGroup :=
    congrArg Geometry.inodesPerGroup hgeo
  obtain ⟨fs2, heq2, hd⟩ := fs.freeInode_spec (hgeo ▸ hG) isDirectory hino.pos
    (lt_of_le_of_lt hino.le hG.inodes_lt) (by rw [hper]; exact hgeo ▸ hino.group_lt hG)
    (hgeo ▸ hused)
  obtain rfl := Except.ok.inj (heq.symm.trans heq2)
  exact hd.credited

/-- The last `unlink` gives back what is left of the file. -/
theorem Left.unlink (hG : G.Sound) (hM : G.Metadata M) (h : fs.Left fs1 G M ino)
    (hroom : (fs.count G ino + 1) * G.blockSize ≤ 2 ^ 32) :
    ∃ fs2, fs1.unlink ino = .ok fs2 ∧ fs.Without fs2 G ino := by
  obtain ⟨fs2, heq2, hr⟩ := iResize_resized hG hM h.intact (Nat.two_pow_pos 64)
    (Or.inl (Nat.zero_le _)) (h.room hroom)
  have h2 := h.resized hG hr (Covers.count_le hG (Or.inl (Nat.zero_le _)))
  have hi := h.intact.inode
  obtain ⟨fs3, heq3, ha⟩ := freeInode_aside hG hM h2.intact.fit hi h2.marked
    (isDir (fs2.getInodeData ino).mode)
  have hcredited3 := freeInode_credited hG h2.intact.fit hi h2.marked heq3
  have hs := stored_writeInodeData ha.fit hG hM hi .zero
  have hnone : fs2.nodes G ino = [] := by
    rw [nodes, FS.count, hr.size, Nat.zero_mod, blocksFor_zero hG, BlockMap.nodes_zero]
  obtain ⟨freed, hp, hused, hcredited⟩ := h2.freed
  rw [hnone, List.nil_append] at hp
  refine ⟨fs3.writeInodeData ino .zero, ?_, fun b hb => ?_, ?_⟩
  · rw [FS.unlink]
    simp only [h.links, if_true]
    rw [heq2, ok_bind, heq3, ok_bind]
    rfl
  · rw [hs.bitmaps.used hG hb, ha.used b hb, hused b hb]
    exact congrArg _ (congrArg _ (decide_eq_decide.mpr hp.mem_iff.symm))
  · have hall := ((hcredited.trans hcredited3).trans (fs3.writeInodeData_credited G ino .zero))
    rw [List.append_nil, List.append_nil] at hall
    exact hall.perm hp.symm

/-- In every run of resizes within the blocks of the file, only blocks of the file are freed, no
assertion fails, and the last `unlink` undoes everything. -/
theorem resizes_undoable (hG : G.Sound) (hM : G.Metadata M) (h : fs.Intact G M ino)
    (hmarked : G.inodeUsed fs.part ino = true) (hlinks : (fs.getInodeData ino).linksCount = 1)
    (hsmall : fs.getSize ino + G.blockSize ≤ 2 ^ 32) (hr : Resizes G ino fs fs1) :
    Undoable fs fs1 G M ino := by
  have hroom : (fs.count G ino + 1) * G.blockSize ≤ 2 ^ 32 := by
    obtain ⟨k, hk, hB, -⟩ := hG.blockSize
    have hall : 2 ^ (22 - k) * G.blockSize = 2 ^ 32 := by
      rw [hB, Nat.mul_left_comm, ← Nat.pow_add, Nat.sub_add_cancel (by omega)]
      rfl
    have hlast : fs.count G ino ≤ 2 ^ (22 - k) - 1 := by
      refine (blocksFor_le_iff hG).mpr ?_
      rw [Nat.sub_mul, Nat.one_mul, hall]
      omega
    have hpos : 0 < 2 ^ (22 - k) := Nat.two_pow_pos _
    rw [← hall]
    exact Nat.mul_le_mul_right _ (by omega)
  have hleft : fs.Left fs1 G M ino := by
    induction hr with
    | refl => exact .refl h hmarked hlinks
    | resize hr hlt hn heq ih =>
      obtain ⟨fs', heq', hres⟩ := iResize_resized hG hM ih.intact hlt hn (ih.room hroom)
      obtain rfl := Except.ok.inj (heq'.symm.trans heq)
      exact ih.resized hG hres (hn.count_le hG)
  refine ⟨hleft.intact, fun n hlt hn => ?_, hleft.unlink hG hM hroom⟩
  obtain ⟨fs', heq, hres⟩ := iResize_resized hG hM hleft.intact hlt hn (hleft.room hroom)
  exact ⟨fs', heq, hres.pruned⟩

theorem small_link_owning : (small.link 1).Owning small.geometry (· < 5) [1] :=
  small_owning.writeInodeData small_sound small_metadata (List.mem_singleton.mpr rfl) rfl rfl rfl

theorem small_link_inode : ((small.link 1).getInodeData 1).linksCount = 1 ∧
    (small.link 1).getSize 1 = 0 := by
  decide +kernel

/-- A file of one byte that grows to the end of its block. -/
theorem resizes_undoable_small : ∃ fs fs1, (small.link 1).iWriteaddr 1 0 [7] = .ok fs ∧
    fs.iResize 1 2048 = .ok fs1 ∧ fs.Undoable fs1 small.geometry (· < 5) 1 := by
  have hmem : (1 : Nat) ∈ [1] := List.mem_singleton.mpr rfl
  have hintact := small_link_owning.wellFormed.intact hmem
  obtain ⟨hlinks, hsize⟩ := small_link_inode
  have hblocks : small.geometry.blocksFor 1 ≤ 1 :=
    (blocksFor_le_iff small_sound).mpr (by rw [small_blockSize]; omega)
  have hdepth := small.geometry.depth_fileShape (small.geometry.blocksFor 1)
  obtain ⟨fs, hwrite, hover⟩ := (iWriteaddr_spec small_sound small_metadata hintact
    (show ([7] : List UInt8) ≠ [] by decide)
    (show 0 + ([7] : List UInt8).length < 2 ^ 32 by decide)).returns fun e he => by
      have hshort := he.2
      rw [hsize, show (small.link 1).available = 59 by decide +kernel, Nat.zero_max,
        show 0 + ([7] : List UInt8).length = 1 from rfl] at hshort
      simp only [Shape.total] at hshort
      omega
  have hone : fs.getSize 1 = 1 := by rw [hover.size, hsize]; rfl
  have hfs := hover.change.intact hintact.inode
  have hcount : fs.count small.geometry 1 = 1 := by rw [count, hone]; rfl
  have hcovers : fs.Covers small.geometry 1 2048 := Or.inr (by rw [hcount]; rfl)
  have hmarked := (hover.change.marks small_sound hintact.inode).trans
    (small_link_owning.marked 1 hmem)
  obtain ⟨fs1, hresize, -⟩ := iResize_resized small_sound small_metadata hfs
    (by decide) hcovers (by rw [hcount, small_blockSize]; decide)
  exact ⟨fs, fs1, hwrite, hresize, resizes_undoable small_sound small_metadata hfs hmarked
    (hover.keeps.linksCount.trans hlinks) (by rw [hone, small_blockSize]; decide)
    (.resize .refl (by decide) hcovers hresize)⟩

/-- An empty file grows by one byte, and `unlink` frees the block of the superblock. -/
theorem resize_frees_superblock : ¬∀ (fs : FS) (n : Nat) (fs1 : FS),
    fs.WellFormed small.geometry (· < 5) [1] → (fs.getInodeData 1).linksCount = 1 →
    fs.iResize 1 n = .ok fs1 → ∃ fs2, fs1.unlink 1 = .ok fs2 ∧ fs.Without fs2 small.geometry 1 := by
  intro hall
  have hrun : ((small.link 1).iResize 1 1).toOption.elim true (fun fs1 =>
      (fs1.unlink 1).toOption.elim true fun fs2 => small.geometry.used fs2.part 0) = false := by
    decide +kernel
  obtain ⟨hlinks, hsize⟩ := small_link_inode
  cases hresize : (small.link 1).iResize 1 1 with
  | error e =>
    rw [hresize] at hrun
    cases hrun
  | ok fs1 =>
    obtain ⟨fs2, hunlink, hwithout⟩ := hall _ 1 fs1 small_link_owning.wellFormed hlinks hresize
    rw [hresize, Except.toOption, Option.elim_some, hunlink, Except.toOption, Option.elim_some] at hrun
    have hused := hwithout.used 0 (by decide)
    have hnone : (small.link 1).nodes small.geometry 1 = [] := by
      rw [nodes, count, hsize, blocksFor_zero small_sound, BlockMap.nodes_zero]
    rw [hrun, hnone] at hused
    exact absurd hused (by decide +kernel)

end FS

end SupOS.Ext2
