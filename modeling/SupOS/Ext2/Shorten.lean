import SupOS.Ext2.Resize

/-! A file that `i_resize` shortens: which blocks are freed, what is read afterwards, and where a later
`i_writeaddr` puts its blocks. -/

namespace SupOS.Ext2

open Lib SupOS.Ext2.Geometry

variable {G : Geometry} {M : Nat → Prop} {fs fs' : FS} {ino size : Nat} {live : List Nat}

namespace FS

/-- What `i_resize` of inode `ino` to the smaller size `len` leaves of a well-formed state. -/
structure Shortened (fs fs' : FS) (G : Geometry) (M : Nat → Prop) (live : List Nat)
    (ino len : Nat) : Prop where
  size : fs'.getSize ino = len
  pruned : fs.Pruned fs' G ino len
  once : (fs.surplus G ino len).Nodup
  blocks : (fs'.getInodeData ino).blocks.toNat = G.fileShape.total (G.blocksFor len) * G.sectors
  kept : ∀ a n, a + n ≤ len → fs'.iReadaddr ino a n = fs.iReadaddr ino a n
  inodes : ∀ j, G.IsInode j → j ≠ ino → fs'.getInodeData j = fs.getInodeData j
  others : ∀ j ∈ live, j ≠ ino →
    ∀ a n, a + n ≤ fs.getSize j → fs'.iReadaddr j a n = fs.iReadaddr j a n
  wellFormed : fs'.WellFormed G M live
  regrown : ∀ addr bytes, bytes ≠ [] → addr + bytes.length < 2 ^ 32 →
    G.fileShape.total (G.blocksFor (max len (addr + bytes.length))) ≤
      fs'.available + G.fileShape.total (G.blocksFor len) →
    ∃ fs'', fs'.iWriteaddr ino addr bytes = .ok fs'' ∧
      fs''.getSize ino = max len (addr + bytes.length) ∧ fs'.Extended fs'' G ino (G.blocksFor len)

/-- The bytes of a file in front of both ends. -/
theorem Truncated.read (hG : G.Sound) (hgeo : fs.geometry = G) (h : fs.Truncated fs' G M ino size)
    (hsize : size ≤ fs.getSize ino) {a n : Nat} (hn : a + n ≤ size) :
    fs'.iReadaddr ino a n = fs.iReadaddr ino a n := by
  have hsize' := h.size
  rw [iReadaddr_bytes hG hgeo (hn.trans hsize),
    iReadaddr_bytes hG h.change.fit.geometry (hn.trans hsize'.ge)]
  refine List.map_congr_left fun i hi => h.kept _ ?_
  have hreach := le_blocksFor hG (fs'.getSize ino)
  have hi := List.mem_range.mp hi
  rw [count]
  omega

/-- An operation on one inode leaves what is read of another. -/
theorem WellFormed.other_read (hG : G.Sound) (h : fs.WellFormed G M live) (hino : ino ∈ live)
    (hc : fs.Change fs' G M ino (fs.nodes G ino)) {j : Nat} (hj : j ∈ live) (hne : j ≠ ino)
    {a n : Nat} (hn : a + n ≤ fs.getSize j) : fs'.iReadaddr j a n = fs.iReadaddr j a n := by
  obtain ⟨hd, -, -, -, hbyte⟩ := h.other hG hino hc hj hne
  have hsame : fs'.getSize j = fs.getSize j := by rw [getSize, getSize, hd]
  refine iReadaddr_congr hG h.fit.geometry hc.fit.geometry hn hsame.ge fun i hi => hbyte _ ?_
  exact lt_of_lt_of_le (by omega) (le_blocksFor hG (fs.getSize j))

/-- `i_resize` to a smaller size frees the blocks that the file no longer needs, and no others. -/
theorem iResize_shortened (hG : G.Sound) (hM : G.Metadata M) (h : fs.WellFormed G M live)
    (hino : ino ∈ live) (hsmall : fs.getSize ino + G.blockSize < 2 ^ 32)
    (hsize : size < fs.getSize ino) :
    ∃ fs', fs.iResize ino size = .ok fs' ∧ fs.Shortened fs' G M live ino size := by
  have hintact := h.intact hino
  obtain ⟨fs', heq, ht, hp⟩ := iResize_pruned hG hM hintact hsize.le hsmall.le
  have hcount : fs'.count G ino = G.blocksFor size := by rw [count, ht.size]
  have hwf := h.change hG hino ht.change
  refine ⟨fs', heq, {
    size := ht.size
    pruned := hp
    once := hintact.held.nodup.filter _
    blocks := by rw [ht.change.blocks, hcount]
    kept := fun a n hn => ht.read hG h.fit.geometry hsize.le hn
    inodes := ht.change.inodes
    others := fun j hj hne a n hn => h.other_read hG hino ht.change hj hne hn
    wellFormed := hwf
    regrown := fun addr bytes hbytes hend hroom => ?_ }⟩
  -- The blocks of the shortened file are filled as those of any file.
  have hfilled := (hwf.intact hino).filled
  have hreaches : fs'.Reaches G ino (fs'.count G ino) (addr + bytes.length) := reaches_count hG _
  rw [hcount] at hfilled hreaches
  obtain ⟨fs'', hwrite, hover, hext⟩ := (iWriteaddr_extended hG hM hfilled hbytes hend
    hreaches).returns fun e he => by
      have hshort := he.2
      rw [ht.size] at hshort
      exact absurd hroom (Nat.not_le.mpr hshort)
  exact ⟨fs'', hwrite, by rw [hover.size, ht.size], hext⟩

/-- A file of one byte that is emptied. -/
theorem iResize_shortened_small : ∃ fs fs', small.iWriteaddr 1 0 [7] = .ok fs ∧
    fs.iResize 1 0 = .ok fs' ∧ fs.Shortened fs' small.geometry (· < 5) [1] 1 0 := by
  have hmem : (1 : Nat) ∈ [1] := List.mem_singleton.mpr rfl
  have hsize : small.getSize 1 = 0 := by rw [getSize, InodeData.getSize, small_inode.1]; rfl
  have hblocks : small.geometry.blocksFor 1 ≤ 1 :=
    (blocksFor_le_iff small_sound).mpr (by rw [small_blockSize]; omega)
  have hdepth := small.geometry.depth_fileShape (small.geometry.blocksFor 1)
  obtain ⟨fs, hwrite, hover⟩ := (iWriteaddr_spec small_sound small_metadata
    (small_wellFormed.intact hmem) (show ([7] : List UInt8) ≠ [] by decide)
    (show 0 + ([7] : List UInt8).length < 2 ^ 32 by decide)).returns fun e he => by
      have hshort := he.2
      rw [hsize, small_available, Nat.zero_max, show 0 + ([7] : List UInt8).length = 1 from rfl]
        at hshort
      simp only [Shape.total] at hshort
      omega
  have hone : fs.getSize 1 = 1 := by rw [hover.size, hsize]; rfl
  obtain ⟨fs', hresize, hshort⟩ := iResize_shortened small_sound small_metadata
    (small_wellFormed.change small_sound hmem hover.change) hmem
    (by rw [hone, small_blockSize]; decide) (show 0 < fs.getSize 1 by omega)
  exact ⟨fs, fs', hwrite, hresize, hshort⟩

end FS

end SupOS.Ext2
