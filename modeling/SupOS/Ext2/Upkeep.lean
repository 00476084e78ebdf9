import SupOS.Ext2.Ownership

/-! What the operations on an inode leave of the other files, for files of every size that an inode
can store. -/

namespace SupOS.Ext2

open Lib SupOS.Ext2.Geometry

variable {G : Geometry} {M : Nat → Prop} {fs fs' : FS} {ino : Nat} {live : List Nat}

namespace FS

/-- The live inodes are in order and marked used. -/
structure Tended (fs : FS) (G : Geometry) (M : Nat → Prop) (live : List Nat) : Prop where
  wellFormed : fs.WellFormed G M live
  marked : ∀ ino ∈ live, G.inodeUsed fs.part ino = true

theorem Owning.tended (h : fs.Owning G M live) : fs.Tended G M live := ⟨h.wellFormed, h.marked⟩

/-- The state is in order, and all live inodes but `ino` are the same files as before. -/
structure Kept (fs fs' : FS) (G : Geometry) (M : Nat → Prop) (live : List Nat) (ino : Nat) :
    Prop where
  tended : fs'.Tended G M live
  others : ∀ i ∈ live, i ≠ ino → fs.SameFile fs' G i

namespace Tended

/-- An operation on a live inode. -/
theorem change (hG : G.Sound) (h : fs.Tended G M live) (hino : ino ∈ live)
    (hc : fs.Change fs' G M ino (fs.nodes G ino)) : fs.Kept fs' G M live ino := by
  have hW := h.wellFormed
  refine ⟨⟨hW.change hG hino hc, fun i hi => ?_⟩, fun i hi hne => ?_⟩
  · exact (hc.marks hG (hW.inode i hi)).trans (h.marked i hi)
  · exact .of_same hG (hc.inodes i (hW.inode i hi) hne) fun b hb =>
      (hc.others b ((hW.heldOne hi).owned b hb) (hW.disjoint hi hino hne hb)).2.2

/-- An operation that concerns only an inode that is not live. -/
theorem aside (hG : G.Sound) (h : fs.Tended G M live) (hino : ino ∉ live)
    (ha : fs.Aside fs' G M ino) : fs.Kept fs' G M live ino := by
  obtain ⟨hW, hsame⟩ := h.wellFormed.aside hG hino ha
  refine ⟨⟨hW, fun i hi => ?_⟩, fun i hi _ => hsame i hi⟩
  rw [ha.marks i (h.wellFormed.inode i hi) fun heq => hino (heq ▸ hi)]
  exact h.marked i hi

theorem drop (h : fs.Tended G M live) : fs.Tended G M (live.erase ino) :=
  ⟨h.wellFormed.drop, fun i hi => h.marked i (List.mem_of_mem_erase hi)⟩

theorem iWriteaddr (hG : G.Sound) (hM : G.Metadata M) (h : fs.Tended G M live) (hino : ino ∈ live)
    {addr : Nat} {bytes : List UInt8} (hbytes : bytes ≠ []) (hend : addr + bytes.length < 2 ^ 32) :
    Ensures (fs.iWriteaddr ino addr bytes) (fun _ => True) fun fs' =>
      fs.Kept fs' G M live ino ∧ (fs.getInodeData ino).Keeps (fs'.getInodeData ino) ∧
        fs'.getSize ino = max (fs.getSize ino) (addr + bytes.length) :=
  (iWriteaddr_spec hG hM (h.wellFormed.intact hino) hbytes hend).mono (fun _ _ => trivial)
    fun _ how => ⟨h.change hG hino how.change, how.keeps, how.size⟩

/-- New data with the same tree and the same size. -/
theorem writeInodeData (hG : G.Sound) (hM : G.Metadata M) (h : fs.Tended G M live)
    (hino : ino ∈ live) {d : InodeData} (hblock : d.block = (fs.getInodeData ino).block)
    (hsize : d.size = (fs.getInodeData ino).size)
    (hblocks : d.blocks = (fs.getInodeData ino).blocks) :
    fs.Kept (fs.writeInodeData ino d) G M live ino ∧
      (fs.writeInodeData ino d).getInodeData ino = d := by
  have hI := h.wellFormed.intact hino
  have hs := stored_writeInodeData hI.fit hG hM hI.inode d
  have hcount : G.blocksFor d.getSize = fs.count G ino := by
    simp only [FS.count, FS.getSize, InodeData.getSize, hsize]
  exact ⟨h.change hG hino (hs.change hG hI hblock hcount hblocks), hs.data⟩

/-- `i_resize` to nothing. In the last block below 4 GiB the size of the whole blocks does not fit
in `sizeBefore`, and no block is freed. -/
theorem iResize_zero (hG : G.Sound) (hM : G.Metadata M) (h : fs.Tended G M live)
    (hino : ino ∈ live) : ∃ fs', fs.iResize ino 0 = .ok fs' ∧
      fs.Kept fs' G M (live.erase ino) ino ∧ G.inodeUsed fs'.part ino = true := by
  have hI := h.wellFormed.intact hino
  by_cases hsmall : fs.getSize ino + G.blockSize ≤ 2 ^ 32
  · obtain ⟨fs', heq, ht⟩ := iResize_spec hG hM hI (Nat.zero_le _) hsmall
    have hkept := h.change hG hino ht.change
    refine ⟨fs', heq, ⟨hkept.tended.drop, fun i hi => hkept.others i (List.mem_of_mem_erase hi)⟩, ?_⟩
    exact (ht.change.marks hG hI.inode).trans (h.marked ino hino)
  · have hlt : (0 : Nat) < (fs.getInodeData ino).getSize := by
      have hB := hG.blockSize_le
      change 0 < fs.getSize ino
      omega
    have hblock : fs.blockSize = G.blockSize := congrArg Geometry.blockSize hI.fit.geometry
    have hbefore : u32 (alignup (fs.getInodeData ino).size.toNat fs.blockSize) = 0 := by
      obtain ⟨k, hk, hB, -⟩ := hG.blockSize
      have hdvd : G.blockSize ∣ 2 ^ 32 := by
        rw [hB, show 1024 * 2 ^ k = 2 ^ (10 + k) by rw [pow_add]; rfl]
        exact pow_dvd_pow 2 (by omega)
      have hsize : (fs.getInodeData ino).size.toNat = fs.getSize ino := rfl
      have hmax := fs.getSize_lt ino
      obtain ⟨m, hm⟩ := hdvd
      have hdiv : (fs.getSize ino + G.blockSize - 1) / G.blockSize = m := by
        apply Nat.div_eq_of_lt_le
        · rw [Nat.mul_comm, ← hm]
          omega
        · rw [Nat.succ_mul, Nat.mul_comm, ← hm]
          omega
      rw [hblock, hsize, alignup, hdiv, Nat.mul_comm, ← hm]
      rfl
    have hs := stored_writeInodeData hI.fit hG hM hI.inode ((fs.getInodeData ino).setSize 0)
    have hnot : ino ∉ live.erase ino := h.wellFormed.nodup.not_mem_erase
    refine ⟨fs.writeInodeData ino ((fs.getInodeData ino).setSize 0), ?_,
      h.drop.aside hG hnot (hs.aside hG),
      (SameBitmaps.inodeUsed hs.bitmaps hG hI.inode).trans (h.marked ino hino)⟩
    unfold FS.iResize
    simp only
    rw [if_pos (by exact hlt), hbefore]
    rfl

/-- The last `unlink` gives the inode back; the others only count. -/
theorem unlink (hG : G.Sound) (hM : G.Metadata M) (h : fs.Tended G M live) (hino : ino ∈ live) :
    ∃ fs', fs.unlink ino = .ok fs' ∧
      if (fs.getInodeData ino).linksCount = 1 then fs.Kept fs' G M (live.erase ino) ino
      else fs.Kept fs' G M live ino ∧ fs'.getInodeData ino =
        { fs.getInodeData ino with linksCount := (fs.getInodeData ino).linksCount - 1 } := by
  rw [FS.unlink]
  by_cases hone : (fs.getInodeData ino).linksCount = 1
  · simp only [if_pos hone]
    obtain ⟨fs₁, heq₁, h₁, hused⟩ := h.iResize_zero hG hM hino
    have hi := h.wellFormed.inode ino hino
    have hnot : ino ∉ live.erase ino := h.wellFormed.nodup.not_mem_erase
    obtain ⟨fs₂, heq₂, ha⟩ := freeInode_aside hG hM h₁.tended.wellFormed.fit hi hused
      (isDir (fs₁.getInodeData ino).mode)
    have hs := stored_writeInodeData ha.fit hG hM hi .zero
    have hkept := h₁.tended.aside hG hnot (ha.trans (hs.aside hG))
    refine ⟨fs₂.writeInodeData ino .zero, ?_, hkept.tended, fun i hi hne => ?_⟩
    · rw [heq₁, ok_bind, heq₂, ok_bind]
      rfl
    · exact (h₁.others i hi hne).trans (hkept.others i hi hne)
  · simp only [if_neg hone]
    exact ⟨_, rfl, h.writeInodeData hG hM hino rfl rfl rfl⟩

theorem getNewFile (hG : G.Sound) (hM : G.Metadata M) (h : fs.Tended G M live)
    (uid gid mode : UInt16) : Ensures (fs.getNewFile uid gid mode) (fun _ => True) fun r =>
      r.1 ∉ live ∧ fs.Kept r.2 G M (r.1 :: live) r.1 ∧
        r.2.getInodeData r.1 = .fresh uid gid mode := by
  unfold FS.getNewFile
  cases hmode : isReg mode
  · trivial
  refine ((getNewInode_aside hG hM h.wellFormed.fit false).mono (fun _ _ => trivial)
    fun _ hr => hr).bind fun r hr => ?_
  obtain ⟨ino, fs₁⟩ := r
  obtain ⟨hi, hfree, hused, ha⟩ := hr
  have hnot : ino ∉ live := by
    intro hmem
    rw [h.marked ino hmem] at hfree
    exact Bool.noConfusion hfree
  have hs := stored_writeInodeData ha.fit hG hM hi (.fresh uid gid mode)
  have h₂ := h.aside hG hnot (ha.trans (hs.aside hG))
  simp only at hs h₂ ⊢
  set fs₂ := fs₁.writeInodeData ino (.fresh uid gid mode)
  have hcount : fs₂.count G ino = 0 := by
    rw [count, getSize, hs.data]
    exact blocksFor_zero hG
  have hnodes : fs₂.nodes G ino = [] := by
    rw [nodes, hcount, BlockMap.nodes_zero]
  have hc : fs₂.Change fs₂ G M ino [] := by
    rw [← hnodes]
    refine Change.refl ⟨h₂.tended.wellFormed.fit, hi, ?_, ?_⟩
    · rw [hs.data, hcount, Shape.total_zero, Nat.zero_mul]
      rfl
    · rw [hnodes]
      exact ⟨List.nodup_nil, fun _ hb => absurd hb List.not_mem_nil⟩
  refine ⟨hnot, ⟨⟨(h₂.tended.wellFormed.adopt hG hnot hi hc).1, ?_⟩, fun i hmem hne => ?_⟩, hs.data⟩
  · refine List.forall_mem_cons.mpr ⟨?_, h₂.tended.marked⟩
    exact (SameBitmaps.inodeUsed hs.bitmaps hG hi).trans hused
  · exact h₂.others i ((List.mem_cons.mp hmem).resolve_left hne) hne

end Tended

end FS

end SupOS.Ext2
