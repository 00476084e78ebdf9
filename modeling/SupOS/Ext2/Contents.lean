import SupOS.Ext2.Files
import SupOS.Ext2.Read
import SupOS.Ext2.Write

/-! What `i_writeaddr` does to a well-formed state: what was written is read back, and the rest of
the file and all other files are as they were. -/

namespace SupOS.Ext2

open Lib SupOS.Ext2.Geometry

variable {G : Geometry} {M : Nat → Prop} {fs fs1 fs' : FS} {ino addr k : Nat}
  {bytes : List UInt8} {live : List Nat}

/-- An inode keeps its mode, its owner and its links. -/
structure InodeData.Keeps (d d' : InodeData) : Prop where
  mode : d'.mode = d.mode
  uid : d'.uid = d.uid
  gid : d'.gid = d.gid
  linksCount : d'.linksCount = d.linksCount

/-- A tree that has grown and is stored in its inode. -/
theorem Grew.change {P : BlockMap G.Same G.fileShape} {k : Nat} {block : Fin 15 → UInt32}
    {d : InodeData} (hG : G.Sound) (hM : G.Metadata M) (hF : fs.Fit G M)
    (hheld : G.Held M fs.part (P.nodes fs.part k))
    (hg : Grew G M P (G.file block) k (G.blocksFor d.getSize) fs fs1)
    (hs : fs1.Stored fs' G M ino d) (hblock : d.block = block)
    (hblocks : d.blocks.toNat = G.fileShape.total (G.blocksFor d.getSize) * G.sectors) :
    fs.Change fs' G M ino (P.nodes fs.part k) ∧
      fs'.leaves G ino = (G.file block).leaves fs1.part (G.blocksFor d.getSize) ∧
      fs'.inner G ino = (G.file block).inner fs1.part (G.blocksFor d.getSize) ∧
      ∀ b ∈ fs'.leaves G ino, G.Same fs1.part fs'.part b := by
  have hcap : G.blocksFor d.getSize ≤ G.fileShape.cap :=
    FS.le_cap_file hG (UInt32.toNat_lt _)
  have hheld1 := hg.held hF hheld
  have hsame : ∀ b ∈ (G.file block).nodes fs1.part (G.blocksFor d.getSize),
      G.Same fs1.part fs'.part b := fun b hb =>
    hs.blocks b (hheld1.owned b hb).lt (hheld1.owned b hb).data
  have hcount : fs'.count G ino = G.blocksFor d.getSize := by
    rw [FS.count, FS.getSize, hs.data]
  obtain ⟨hi, hl⟩ := (G.file block).congr fs1.part fs'.part _
    (fun b hb => hsame b (List.mem_append_left _ hb)) hcap
  have hleaves : fs'.leaves G ino = (G.file block).leaves fs1.part (G.blocksFor d.getSize) := by
    rw [FS.leaves, FS.tree, hcount, hs.data, hblock, hl]
  have hinner : fs'.inner G ino = (G.file block).inner fs1.part (G.blocksFor d.getSize) := by
    rw [FS.inner, FS.tree, hcount, hs.data, hblock, hi]
  have hnodes : fs'.nodes G ino = (G.file block).nodes fs1.part (G.blocksFor d.getSize) := by
    rw [FS.nodes, FS.tree, hcount, hs.data, hblock, BlockMap.nodes, BlockMap.nodes, hl, hi]
  have howned : ∀ b, G.Owned M fs1.part b → G.Owned M fs'.part b := fun b hb =>
    ⟨hb.lt, hb.data, by rw [hs.bitmaps.used hG hb.lt]; exact hb.used⟩
  have hother := fun b (hb : G.Owned M fs.part b) (hn : b ∉ P.nodes fs.part k) => hg.other hM hb hn
  have hheld' : G.Held M fs'.part (fs'.nodes G ino) := by
    rw [hnodes]
    exact ⟨hheld1.nodup, fun b hb => howned b (hheld1.owned b hb)⟩
  obtain ⟨fresh, hgr, hmem⟩ := hg.nodes
  have htouched : ∀ b ∈ (G.file block).nodes fs1.part (G.blocksFor d.getSize),
      b < G.blocksCount ∧ ¬M b := fun b hb => ⟨(hheld1.owned b hb).lt, (hheld1.owned b hb).data⟩
  refine ⟨{
    fit := hs.fit
    inodes := fun i hii hne => (hs.inodes i hii hne).trans
      (hgr.getInodeData hF hM hG hii htouched)
    others := fun b hb hn => ?_
    held := hheld'
    blocks := by rw [hs.data, hcount]; exact hblocks
    used := fun b hb => ?_
    inodeBits := fun g hg' i hi' => ?_ }, hleaves, hinner, fun b hb => hsame b ?_⟩
  · obtain ⟨h1, h2, h3⟩ := hother b hb hn
    refine ⟨howned b h1, by rwa [hnodes], fun i hi' => ?_⟩
    exact (hs.blocks b hb.lt hb.data i hi').trans (h3 i hi')
  · rw [hs.bitmaps.used hG hb, hgr.used b hb, hnodes, hmem, Bool.or_eq_true, decide_eq_true_eq]
    constructor
    · rintro (h | h)
      · by_cases hn : b ∈ P.nodes fs.part k
        · exact .inr (.inl hn)
        · exact .inl ⟨h, hn⟩
      · exact .inr (.inr h)
    · rintro (⟨h, -⟩ | h | h)
      · exact .inl h
      · exact .inl (hheld.owned b h).used
      · exact .inr h
  · refine (hs.bitmaps.bitIn (A := .inodeBitmap g) trivial hg' hi').trans (Bytes.bit_congr ?_)
    have hin : G.In (.inodeBitmap g) (G.start (.inodeBitmap g) + i / 8) :=
      In.of_bitmap (A := .inodeBitmap g) trivial (by omega)
    refine hgr.keeps _ ?_ fun b hb hb' =>
      hM.not_in (htouched b hb).1 (htouched b hb).2 hb' (A := .inodeBitmap g) hg' hin
    rintro ⟨A, hA, hE, ha⟩
    exact hG.apart (.inodeBitmap g) A _ (by rintro rfl; exact hA) (fun h => h.1) hg' hE hin ha
  · rw [hleaves] at hb
    exact List.mem_append_right _ hb

/-- The tree of inode `ino` has its first `k` blocks of data, and it needs no others unless it has
none at all, as after `i_resize` of an empty inode. -/
structure FS.Filled (fs : FS) (G : Geometry) (M : Nat → Prop) (ino k : Nat) : Prop where
  fit : fs.Fit G M
  inode : G.IsInode ino
  count : k = fs.count G ino ∨ k = 0
  blocks : (fs.getInodeData ino).blocks.toNat = G.fileShape.total k * G.sectors
  held : G.Held M fs.part ((fs.tree G ino).nodes fs.part k)

theorem FS.Intact.filled (h : fs.Intact G M ino) : fs.Filled G M ino (fs.count G ino) :=
  ⟨h.fit, h.inode, .inl rfl, h.blocks, h.held⟩

theorem FS.Filled.le (h : fs.Filled G M ino k) : k ≤ fs.count G ino := by
  rcases h.count with h | h <;> omega

/-- What `i_writeaddr` leaves of an inode with `k` blocks of data: the bytes at their places, and
the size to hold them. -/
structure FS.Overwritten (fs fs' : FS) (G : Geometry) (M : Nat → Prop) (ino k addr : Nat)
    (bytes : List UInt8) : Prop where
  change : fs.Change fs' G M ino ((fs.tree G ino).nodes fs.part k)
  keeps : (fs.getInodeData ino).Keeps (fs'.getInodeData ino)
  size : fs'.getSize ino = max (fs.getSize ino) (addr + bytes.length)
  written : ∀ i, addr ≤ i → i < addr + bytes.length →
    fs'.byte G ino i = bytes.getD (i - addr) 0
  kept : ∀ i < k * G.blockSize, i < addr ∨ addr + bytes.length ≤ i →
    fs'.byte G ino i = G.byteAt fs.part ((fs.tree G ino).leaves fs.part k) i
  available : fs'.available + G.fileShape.total (fs'.count G ino) =
    fs.available + G.fileShape.total k

/-- The blocks of an inode are those that it had for `k` blocks of data, at their places, and behind them
some that were free. -/
def FS.Extended (fs fs' : FS) (G : Geometry) (ino k : Nat) : Prop :=
  ∃ leaves inner, fs'.leaves G ino = (fs.tree G ino).leaves fs.part k ++ leaves ∧
    fs'.inner G ino = (fs.tree G ino).inner fs.part k ++ inner ∧ (leaves ++ inner).Nodup ∧
    ∀ b ∈ leaves ++ inner, G.used fs.part b = false

/-- A file whose size fits in 32 bits has few enough blocks. -/
theorem total_file_lt (hG : G.Sound) {n : Nat} (hn : n < 2 ^ 32) :
    G.fileShape.total (G.blocksFor n) * G.sectors < 2 ^ 32 := by
  have hdepth := G.depth_fileShape (G.blocksFor n)
  have hB := hG.blockSize_le
  have hsec := hG.sectors_eq
  have hle : G.blocksFor n * G.blockSize < 2 ^ 32 + 65536 := by
    rcases Nat.eq_zero_or_pos n with rfl | hpos
    · rw [blocksFor_zero hG]; omega
    · have := blocksFor_mul_lt hG hpos
      rw [Nat.sub_mul] at this
      omega
  have h4 : G.fileShape.total (G.blocksFor n) ≤ 4 * G.blocksFor n := by
    rw [Shape.total]; omega
  have h4 := Nat.mul_le_mul_right G.sectors h4
  rw [hsec] at hle
  have : G.blocksFor n * (512 * G.sectors) = 128 * (4 * G.blocksFor n * G.sectors) := by ring
  omega

theorem blocksFor_max (hG : G.Sound) (n n' : Nat) :
    G.blocksFor (max n n') = max (G.blocksFor n) (G.blocksFor n') := by
  have hmono : ∀ {x y : Nat}, x ≤ y → G.blocksFor x ≤ G.blocksFor y := fun {x y} h =>
    (blocksFor_le_iff hG).mpr (h.trans (le_blocksFor hG y))
  rcases Nat.le_total n n' with h | h
  · rw [max_eq_right h, max_eq_right (hmono h)]
  · rw [max_eq_left h, max_eq_left (hmono h)]

/-- The bytes that `i_writeaddr` is to write. -/
def writeArgs (fs : FS) (ino addr : Nat) (bytes : List UInt8) : WriteRecArgs where
  fs := fs
  data := fs.getInodeData ino
  addr := addr
  bytes := bytes
  blockNum := 0

/-- The bytes end so far behind the blocks that there are that all blocks are there then. -/
def FS.Reaches (fs : FS) (G : Geometry) (ino k n : Nat) : Prop :=
  max k (G.blocksFor n) = G.blocksFor (max (fs.getSize ino) n)

theorem FS.reaches_count (hG : G.Sound) (n : Nat) : fs.Reaches G ino (fs.count G ino) n :=
  (blocksFor_max hG _ _).symm

/-- The number of blocks of data of an inode after bytes are written. -/
theorem grown_file (hG : G.Sound) (hend : addr + bytes.length < 2 ^ 32)
    (hr : fs.Reaches G ino k (addr + bytes.length)) :
    grown G G.fileShape k (writeArgs fs ino addr bytes) =
      G.blocksFor (max (fs.getSize ino) (addr + bytes.length)) := by
  rw [← hr, grown]
  simp only [writeArgs]
  rw [Nat.min_eq_right (FS.le_cap_file hG hend)]

theorem FS.Filled.blockCount (hG : G.Sound) (h : fs.Filled G M ino k) :
    (writeArgs fs ino addr bytes).blockCount = G.fileShape.total k := by
  rw [show (writeArgs fs ino addr bytes).blockCount = _ from blockCount_eq h.fit]
  simp only [writeArgs]
  rw [h.blocks, Nat.mul_div_cancel _ hG.sectors_pos]

theorem FS.Filled.writable (hG : G.Sound) (h : fs.Filled G M ino k) (hbytes : bytes ≠ [])
    (hend : addr + bytes.length < 2 ^ 32) (hr : fs.Reaches G ino k (addr + bytes.length)) :
    Writable G M (G.fileShape.total (G.blocksFor (max (fs.getSize ino) (addr + bytes.length))))
      (fs.tree G ino) k (writeArgs fs ino addr bytes) := by
  have hcount : (writeArgs fs ino addr bytes).blockCount = G.fileShape.total k := h.blockCount hG
  have hnum : (writeArgs fs ino addr bytes).blockNum = 0 := rfl
  exact {
    fit := h.fit
    cap := h.le.trans (FS.count_le hG fs ino)
    bytes := hbytes
    counted := by rw [hcount]; exact h.blocks
    reached := by rw [hcount, hnum, Nat.zero_add]
    exact := fun _ => by rw [hcount, hnum, Nat.zero_add]
    room := by rw [grown_file hG hend hr, hnum, Nat.zero_add]
    limit := by
      rw [hcount, ← hr]
      exact Shape.total_le _ (Nat.le_max_left ..)
    held := h.held }

/-- The end of `i_writeaddr`: the inode is stored with the new tree and the new size. -/
theorem Wrote.overwritten {block : Fin 15 → UInt32} {args : WriteRecArgs} {d : InodeData}
    (hG : G.Sound) (hM : G.Metadata M) (h : fs.Filled G M ino k)
    (hend : addr + bytes.length < 2 ^ 32) (hr : fs.Reaches G ino k (addr + bytes.length))
    (hw : Wrote G M (fs.tree G ino) (G.file block) k (writeArgs fs ino addr bytes) args)
    (hs : args.fs.Stored fs' G M ino d) (hblock : d.block = block)
    (hblocks : d.blocks = args.data.blocks)
    (hsize : d.getSize = max (fs.getSize ino) (addr + bytes.length))
    (hkeeps : (fs.getInodeData ino).Keeps d) :
    fs.Overwritten fs' G M ino k addr bytes ∧ fs.Extended fs' G ino k := by
  have hB := hG.blockSize_pos
  have hgrown := grown_file hG hend hr
  rw [← hsize] at hgrown
  have hgrew := hw.grew
  have hcount := hw.count
  have hwritten := hw.written
  have hkept := hw.kept
  rw [hgrown] at hgrew hcount hwritten hkept
  have hbc : (writeArgs fs ino addr bytes).blockCount = G.fileShape.total k := h.blockCount hG
  have htotal : d.blocks.toNat = G.fileShape.total (G.blocksFor d.getSize) * G.sectors := by
    have hsum : args.blockCount = G.fileShape.total (G.blocksFor d.getSize) := by omega
    rw [hblocks, hw.counted, hsum]
  obtain ⟨hchange, hleaves, hinner, hsame⟩ := hgrew.change hG hM h.fit h.held hs hblock htotal
  have hcap : G.blocksFor d.getSize ≤ G.fileShape.cap := FS.le_cap_file hG (UInt32.toNat_lt _)
  have hlen : (fs'.leaves G ino).length = G.blocksFor d.getSize := by
    rw [hleaves]; exact BlockMap.length_leaves _ _ _ hcap
  have hbyte : ∀ i < G.blocksFor d.getSize * G.blockSize, fs'.byte G ino i =
      G.byteAt args.fs.part ((G.file block).leaves args.fs.part (G.blocksFor d.getSize)) i :=
    fun i hi => by
      rw [FS.byte, ← hleaves]
      exact byteAt_congr hB (by rwa [hlen]) hsame
  have hreach : max (fs.getSize ino) (addr + bytes.length) ≤ G.blocksFor d.getSize * G.blockSize :=
    hsize ▸ le_blocksFor hG d.getSize
  obtain ⟨l, i, hl, hi, hfresh⟩ := id hgrew
  refine ⟨?_, l, i, hleaves.trans hl, hinner.trans hi, hfresh.nodup, hfresh.free⟩
  exact {
    change := hchange
    keeps := by rw [hs.data]; exact hkeeps
    size := by rw [FS.getSize, hs.data, hsize]
    written := fun i h1 h2 => by
      rw [hbyte i (by omega)]
      refine hwritten i h1 h2 ?_
      exact lt_of_lt_of_le (by omega) (Nat.mul_le_mul_right _ hcap)
    kept := fun i hi hout => by
      have hmono : k ≤ G.blocksFor d.getSize := by
        rw [hsize, ← hr]
        exact Nat.le_max_left ..
      rw [hbyte i (lt_of_lt_of_le hi (Nat.mul_le_mul_right _ hmono))]
      exact hkept i hi hout
    available := by
      rw [hs.available, FS.count, FS.getSize, hs.data]
      exact hgrew.available (h.le.trans (FS.count_le hG fs ino)) hcap }

/-- `i_writeaddr` fails only when the new blocks are not there. -/
theorem FS.iWriteaddr_extended (hG : G.Sound) (hM : G.Metadata M) (h : fs.Filled G M ino k)
    (hbytes : bytes ≠ []) (hend : addr + bytes.length < 2 ^ 32)
    (hr : fs.Reaches G ino k (addr + bytes.length)) :
    Ensures (fs.iWriteaddr ino addr bytes)
      (fun e => e = .bsod "No space on disk :-(" ∧ fs.available + G.fileShape.total k <
        G.fileShape.total (G.blocksFor (max (fs.getSize ino) (addr + bytes.length))))
      (fun fs' => fs.Overwritten fs' G M ino k addr bytes ∧ fs.Extended fs' G ino k) := by
  have hw := h.writable hG hbytes hend hr
  have hmax : max (fs.getSize ino) (addr + bytes.length) < 2 ^ 32 :=
    Nat.max_lt.mpr ⟨fs.getSize_lt ino, hend⟩
  have hlim := total_file_lt hG hmax
  have hloop := writeSlots_wrote hG hM (F := fun j => G.treeShape (rootLevel j))
    (fun j r => G.tree (rootLevel j) r.toNat) (fun j => writerec ino (rootLevel j))
    (List.finRange 15) (fun j _ k args r hw => writerec_wrote hG hM hlim ino (rootLevel j) k args r hw)
    (List.nodup_finRange 15) _ _ (fs.getInodeData ino).block hw
  have hfail : ∀ e, Short G G.fileShape k (writeArgs fs ino addr bytes) e →
      e = .bsod "No space on disk :-(" ∧ fs.available + G.fileShape.total k <
        G.fileShape.total (G.blocksFor (max (fs.getSize ino) (addr + bytes.length))) :=
    fun e he => ⟨he.1, by
      have hshort := he.2
      rwa [grown_file hG hend hr] at hshort⟩
  refine (hloop.mono hfail fun _ h => h).bind ?_
  rintro ⟨write, args, block⟩ hrow
  have hwrote : Wrote G M (fs.tree G ino) (G.file block) k (writeArgs fs ino addr bytes) args :=
    hrow.wrote
  have hdata : args.data = { fs.getInodeData ino with blocks := args.data.blocks } := hwrote.data
  have hF := hwrote.grew.fit
  have hsize : ({ args.data with block } : InodeData).getSize = fs.getSize ino := by
    rw [hdata]; rfl
  have hkeeps : (fs.getInodeData ino).Keeps args.data := by
    rw [hdata]; exact ⟨rfl, rfl, rfl, rfl⟩
  simp only [hsize, u64_of_lt (show addr + bytes.length < 2 ^ 64 by omega)]
  split
  · next hgrows =>
    refine hwrote.overwritten hG hM h hend hr (FS.stored_writeInodeData hF hG hM h.inode _) rfl rfl ?_
      ⟨hkeeps.mode, hkeeps.uid, hkeeps.gid, hkeeps.linksCount⟩
    rw [max_eq_right (by omega)]
    simp only [InodeData.getSize, InodeData.setSize, UInt32.toNat_ofNat']
    exact Nat.mod_eq_of_lt hend
  · next hgrows =>
    have hsize' : ({ args.data with block } : InodeData).getSize =
        max (fs.getSize ino) (addr + bytes.length) := by
      rw [hsize, max_eq_left (by omega)]
    split
    · exact hwrote.overwritten hG hM h hend hr (FS.stored_writeInodeData hF hG hM h.inode _) rfl rfl
        hsize' ⟨hkeeps.mode, hkeeps.uid, hkeeps.gid, hkeeps.linksCount⟩
    · next hwrite =>
      -- Without a flag nothing is new, and the inode is as it was.
      have hblock : block = (fs.getInodeData ino).block := hrow.same (by simpa using hwrite)
      have hcount := hwrote.count
      have hk : k = fs.count G ino := h.count.resolve_right fun h0 =>
        hwrite (hrow.flag h0 (by decide))
      rw [grown_file hG hend hr, max_eq_left (by omega), ← FS.count, ← hk] at hcount
      have hgrew := hwrote.grew
      obtain ⟨fresh, hgr, -⟩ := hgrew.nodes
      have hheld := hgrew.held h.fit h.held
      have hd : args.fs.getInodeData ino = fs.getInodeData ino :=
        hgr.getInodeData h.fit hM hG h.inode fun b hb =>
          ⟨(hheld.owned b hb).lt, (hheld.owned b hb).data⟩
      have hblocks : (fs.getInodeData ino).blocks = args.data.blocks := by
        refine UInt32.toNat_inj.mp ?_
        have hc := hw.counted
        rw [show args.data.blocks.toNat = _ from hwrote.counted,
          show args.blockCount = (writeArgs fs ino addr bytes).blockCount by omega]
        exact hc
      refine hwrote.overwritten hG hM h hend hr (hd ▸ FS.Stored.refl hF ino) hblock.symm hblocks ?_
        ⟨rfl, rfl, rfl, rfl⟩
      rw [max_eq_left (by omega)]
      rfl

theorem FS.iWriteaddr_filled (hG : G.Sound) (hM : G.Metadata M) (h : fs.Filled G M ino k)
    (hbytes : bytes ≠ []) (hend : addr + bytes.length < 2 ^ 32)
    (hr : fs.Reaches G ino k (addr + bytes.length)) :
    Ensures (fs.iWriteaddr ino addr bytes)
      (fun e => e = .bsod "No space on disk :-(" ∧ fs.available + G.fileShape.total k <
        G.fileShape.total (G.blocksFor (max (fs.getSize ino) (addr + bytes.length))))
      (fun fs' => fs.Overwritten fs' G M ino k addr bytes) :=
  (iWriteaddr_extended hG hM h hbytes hend hr).mono (fun _ he => he) fun _ h => h.1

theorem FS.iWriteaddr_spec (hG : G.Sound) (hM : G.Metadata M) (h : fs.Intact G M ino)
    (hbytes : bytes ≠ []) (hend : addr + bytes.length < 2 ^ 32) :
    Ensures (fs.iWriteaddr ino addr bytes)
      (fun e => e = .bsod "No space on disk :-(" ∧
        fs.available + G.fileShape.total (fs.count G ino) <
          G.fileShape.total (G.blocksFor (max (fs.getSize ino) (addr + bytes.length))))
      (fun fs' => fs.Overwritten fs' G M ino (fs.count G ino) addr bytes) :=
  iWriteaddr_filled hG hM h.filled hbytes hend (reaches_count hG _)

namespace FS

/-- Bytes inside the file as `i_readaddr` returns them. -/
theorem iReadaddr_bytes (hG : G.Sound) (hgeo : fs.geometry = G) {a n : Nat}
    (hn : a + n ≤ fs.getSize ino) :
    fs.iReadaddr ino a n = (List.range n).map fun i => fs.byte G ino (a + i) :=
  iReadaddr_eq hgeo hG (count_le hG fs ino) (hn.trans (le_blocksFor hG _))

theorem iReadaddr_congr (hG : G.Sound) (hgeo : fs.geometry = G) (hgeo' : fs'.geometry = G)
    {j a n : Nat} (hn : a + n ≤ fs.getSize j) (hsize : fs.getSize j ≤ fs'.getSize j)
    (hbyte : ∀ i < n, fs'.byte G j (a + i) = fs.byte G j (a + i)) :
    fs'.iReadaddr j a n = fs.iReadaddr j a n := by
  rw [iReadaddr_bytes hG hgeo hn, iReadaddr_bytes hG hgeo' (hn.trans hsize)]
  exact List.map_congr_left fun i hi => hbyte i (List.mem_range.mp hi)

/-- After `i_writeaddr` on a well-formed state `i_readaddr` returns what was written; the rest of
the file, all other files and the form of the state are kept. -/
theorem iReadaddr_iWriteaddr (hG : G.Sound) (hM : G.Metadata M) (hW : fs.WellFormed G M live)
    (hino : ino ∈ live) (hbytes : bytes ≠ []) (hend : addr + bytes.length < 2 ^ 32)
    (hroom : G.fileShape.total (G.blocksFor (max (fs.getSize ino) (addr + bytes.length))) ≤
      fs.available + G.fileShape.total (fs.count G ino)) :
    ∃ fs', fs.iWriteaddr ino addr bytes = .ok fs' ∧
      fs'.iReadaddr ino addr bytes.length = bytes ∧
      (∀ i < fs.getSize ino, i < addr ∨ addr + bytes.length ≤ i →
        fs'.iReadaddr ino i 1 = fs.iReadaddr ino i 1) ∧
      fs'.getSize ino = max (fs.getSize ino) (addr + bytes.length) ∧
      (∀ j ∈ live, j ≠ ino → fs'.getSize j = fs.getSize j ∧
        ∀ a n, a + n ≤ fs.getSize j → fs'.iReadaddr j a n = fs.iReadaddr j a n) ∧
      fs'.WellFormed G M live := by
  obtain ⟨fs', heq, how⟩ := (iWriteaddr_spec hG hM (hW.intact hino) hbytes hend).returns
    fun e he => absurd he.2 (Nat.not_lt.mpr hroom)
  have hgeo := hW.fit.geometry
  have hgeo' := how.change.fit.geometry
  have hsize := how.size
  refine ⟨fs', heq, ?_, fun i hi hout => ?_, hsize, fun j hj hne => ?_, hW.change hG hino how.change⟩
  · rw [iReadaddr_bytes hG hgeo' (by omega)]
    refine List.ext_getElem (by simp) fun i h1 h2 => ?_
    rw [List.getElem_map, List.getElem_range, how.written _ (by omega) (by omega),
      Nat.add_sub_cancel_left, List.getD_eq_getElem?_getD, List.getElem?_eq_getElem h2,
      Option.getD_some]
  · refine iReadaddr_congr hG hgeo hgeo' (by omega) (by omega) fun x hx => ?_
    have hcount : fs.getSize ino ≤ fs.count G ino * G.blockSize := le_blocksFor hG _
    exact how.kept _ (by omega) (by omega)
  · obtain ⟨hd, -, -, -, hbyte⟩ := hW.other hG hino how.change hj hne
    have hsame : fs'.getSize j = fs.getSize j := by rw [getSize, getSize, hd]
    refine ⟨hsame, fun a n hn => iReadaddr_congr hG hgeo hgeo' hn hsame.ge fun i hi => hbyte _ ?_⟩
    exact lt_of_lt_of_le (by omega) (le_blocksFor hG (fs.getSize j))

/-- Two bytes across the end of the directly addressed blocks of an empty file. -/
theorem iReadaddr_iWriteaddr_small : ∃ fs', small.iWriteaddr 1 24575 [7, 8] = .ok fs' ∧
    fs'.iReadaddr 1 24575 2 = [7, 8] ∧ fs'.getSize 1 = 24577 := by
  have hsize : small.getSize 1 = 0 := by rw [getSize, InodeData.getSize, small_inode.1]; rfl
  have hblocks : small.geometry.blocksFor 24577 ≤ 13 :=
    (blocksFor_le_iff small_sound).mpr (by rw [small_blockSize]; omega)
  have hdepth := small.geometry.depth_fileShape (small.geometry.blocksFor 24577)
  obtain ⟨fs', heq, hread, -, hsize', -⟩ := iReadaddr_iWriteaddr small_sound small_metadata
    small_wellFormed (List.mem_singleton.mpr rfl) (show ([7, 8] : List UInt8) ≠ [] by decide)
    (show 24575 + ([7, 8] : List UInt8).length < 2 ^ 32 by decide) (by
      rw [hsize, small_available, Nat.zero_max, show 24575 + ([7, 8] : List UInt8).length = 24577 from rfl]
      simp only [Shape.total]
      omega)
  exact ⟨fs', heq, hread, by rw [hsize', hsize]; rfl⟩

end FS

end SupOS.Ext2
