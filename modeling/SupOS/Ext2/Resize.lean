import SupOS.Ext2.Contents
import SupOS.Ext2.Truncate

/-! What `i_resize` to a smaller size does to a well-formed state: the blocks behind the new end are
free, the file is as it was in front of it, and all other files are as they were. -/

namespace SupOS.Ext2

open Lib SupOS.Ext2.Geometry

variable {G : Geometry} {M : Nat → Prop} {fs fs1 fs' : FS} {ino size : Nat} {live : List Nat}

theorem FS.Change.refl (h : fs.Intact G M ino) : fs.Change fs G M ino (fs.nodes G ino) where
  fit := h.fit
  inodes _ _ _ := rfl
  others b hb hn := ⟨hb, hn, fun _ _ => rfl⟩
  held := h.held
  blocks := h.blocks
  used b _ := by
    constructor
    · intro hu
      by_cases hn : b ∈ fs.nodes G ino
      · exact .inr hn
      · exact .inl ⟨hu, hn⟩
    · rintro (⟨hu, -⟩ | hn)
      · exact hu
      · exact (h.held.owned b hn).used
  inodeBits _ _ _ _ := rfl

/-- The blocks that the tree of an inode needs for its size, but not for this one. -/
def FS.surplus (fs : FS) (G : Geometry) (ino size : Nat) : List Nat :=
  (fs.nodes G ino).filter fun b => b ∉ (fs.tree G ino).nodes fs.part (G.blocksFor size)

theorem FS.surplus_perm {freed : List Nat} (hnodup : (fs.nodes G ino).Nodup)
    (hp : (fs.nodes G ino).Perm ((fs.tree G ino).nodes fs.part (G.blocksFor size) ++ freed)) :
    (fs.surplus G ino size).Perm freed := by
  have hall := hp.nodup_iff.mp hnodup
  refine (hp.filter _).trans ?_
  rw [List.filter_append, List.filter_eq_nil_iff.mpr fun b hb => by simpa using hb,
    List.nil_append, List.filter_eq_self.mpr fun b hb => ?_]
  simpa using fun hkept => (List.nodup_append.mp hall).2.2 b hkept b hb rfl

theorem file_ordered (G : Geometry) (block : Fin 15 → UInt32) : (G.file block).Ordered := by
  have htree : ∀ level r, (G.tree level r).Ordered := by
    intro level
    induction level with
    | zero => exact fun r => .single r
    | succ level ih => exact fun r => .wrap r _ _ fun f => .concat (fun i => ih (f i)) _
  exact .concat (fun j => htree _ _) _

/-- A tree that was cut and is stored in its inode. -/
theorem Cut.change {d : InodeData} (hG : G.Sound) (hM : G.Metadata M) (h : fs.Intact G M ino)
    (hc : Cut G M (fs.tree G ino) (fs.count G ino) (G.blocksFor d.getSize) fs fs1)
    (hs : fs1.Stored fs' G M ino d) (hblock : d.block = (fs.getInodeData ino).block)
    (hblocks : d.blocks.toNat = G.fileShape.total (G.blocksFor d.getSize) * G.sectors) :
    fs.Change fs' G M ino (fs.nodes G ino) ∧
      fs'.leaves G ino = (fs.tree G ino).leaves fs1.part (G.blocksFor d.getSize) ∧
      fs'.inner G ino = (fs.tree G ino).inner fs1.part (G.blocksFor d.getSize) ∧
      ∀ b ∈ fs'.leaves G ino, G.Same fs.part fs'.part b := by
  have hcap : G.blocksFor d.getSize ≤ G.fileShape.cap :=
    FS.le_cap_file hG (UInt32.toNat_lt _)
  have hheld1 := hc.held h.held
  have hsame : ∀ b ∈ (fs.tree G ino).nodes fs1.part (G.blocksFor d.getSize),
      G.Same fs1.part fs'.part b := fun b hb =>
    hs.blocks b (hheld1.owned b hb).lt (hheld1.owned b hb).data
  have hcount : fs'.count G ino = G.blocksFor d.getSize := by
    rw [FS.count, FS.getSize, hs.data]
  obtain ⟨hi, hl⟩ := (fs.tree G ino).congr fs1.part fs'.part _
    (fun b hb => hsame b (List.mem_append_left _ hb)) hcap
  have hleaves : fs'.leaves G ino = (fs.tree G ino).leaves fs1.part (G.blocksFor d.getSize) := by
    rw [FS.leaves, FS.tree, hcount, hs.data, hblock, hl]
  have hinner : fs'.inner G ino = (fs.tree G ino).inner fs1.part (G.blocksFor d.getSize) := by
    rw [FS.inner, FS.tree, hcount, hs.data, hblock, hi]
  have hnodes : fs'.nodes G ino = (fs.tree G ino).nodes fs1.part (G.blocksFor d.getSize) := by
    rw [FS.nodes, FS.tree, hcount, hs.data, hblock, BlockMap.nodes, BlockMap.nodes, hl, hi]
  have howned : ∀ b, G.Owned M fs1.part b → G.Owned M fs'.part b := fun b hb =>
    ⟨hb.lt, hb.data, by rw [hs.bitmaps.used hG hb.lt]; exact hb.used⟩
  have hother := fun b (hb : G.Owned M fs.part b) (hn : b ∉ fs.nodes G ino) => hc.other hM hb hn
  have hleavessame := hc.same_leaves hM h.held
  obtain ⟨freed, hshrunk, hperm⟩ := hc.nodes
  have hall := h.held.perm hperm
  have htouched : ∀ b ∈ (fs.tree G ino).inner fs.part (fs.count G ino),
      b < G.blocksCount ∧ ¬M b := fun b hb =>
    have hown := h.held.owned b (List.mem_append_left _ hb)
    ⟨hown.lt, hown.data⟩
  refine ⟨{
    fit := hs.fit
    inodes := fun i hii hne => (hs.inodes i hii hne).trans
      (hshrunk.getInodeData h.fit hM hG hii htouched)
    others := fun b hb hn => ?_
    held := by
      rw [hnodes]
      exact ⟨hheld1.nodup, fun b hb => howned b (hheld1.owned b hb)⟩
    blocks := by rw [hs.data, hcount]; exact hblocks
    used := fun b hb => ?_
    inodeBits := fun g hg' i hi' => ?_ }, hleaves, hinner, fun b hb i hi' => ?_⟩
  · obtain ⟨h1, h2, h3⟩ := hother b hb hn
    refine ⟨howned b h1, by rwa [hnodes], fun i hi' => ?_⟩
    exact (hs.blocks b hb.lt hb.data i hi').trans (h3 i hi')
  · rw [hs.bitmaps.used hG hb, hshrunk.used b hb, hnodes, Bool.and_eq_true, Bool.not_eq_true',
      decide_eq_false_iff_not, FS.nodes, hperm.mem_iff, List.mem_append, not_or]
    constructor
    · rintro ⟨hu, hf⟩
      by_cases hn : b ∈ (fs.tree G ino).nodes fs1.part (G.blocksFor d.getSize)
      · exact .inr hn
      · exact .inl ⟨hu, hn, hf⟩
    · rintro (⟨hu, -, hf⟩ | hn)
      · exact ⟨hu, hf⟩
      · exact ⟨(hall.owned b (List.mem_append_left _ hn)).used, hall.disjoint hn⟩
  · refine (hs.bitmaps.bitIn (A := .inodeBitmap g) trivial hg' hi').trans (Bytes.bit_congr ?_)
    have hin : G.In (.inodeBitmap g) (G.start (.inodeBitmap g) + i / 8) :=
      In.of_bitmap (A := .inodeBitmap g) trivial (by omega)
    refine hshrunk.keeps _ ?_ fun b hb hb' =>
      hM.not_in (htouched b hb).1 (htouched b hb).2 hb' (A := .inodeBitmap g) hg' hin
    rintro ⟨A, hA, hE, ha⟩
    exact hG.apart (.inodeBitmap g) A _ (by rintro rfl; exact hA) (fun h => h.1) hg' hE hin ha
  · rw [hleaves] at hb
    exact (hsame b (List.mem_append_right _ hb) i hi').trans (hleavessame b hb i hi')

/-- What `i_resize` to a size that is not greater leaves. -/
structure FS.Truncated (fs fs' : FS) (G : Geometry) (M : Nat → Prop) (ino size : Nat) : Prop where
  change : fs.Change fs' G M ino (fs.nodes G ino)
  keeps : (fs.getInodeData ino).Keeps (fs'.getInodeData ino)
  size : fs'.getSize ino = size
  kept : ∀ i < fs'.count G ino * G.blockSize, fs'.byte G ino i = fs.byte G ino i

/-- What `i_resize` to a size that is not greater leaves of the tree: the blocks for the new size are in
their places, and those that only the old one needed are given back. -/
structure FS.Pruned (fs fs' : FS) (G : Geometry) (ino size : Nat) : Prop where
  leaves : fs'.leaves G ino = (fs.tree G ino).leaves fs.part (G.blocksFor size)
  inner : fs'.inner G ino = (fs.tree G ino).inner fs.part (G.blocksFor size)
  nodes : (fs.nodes G ino).Perm (fs'.nodes G ino ++ fs.surplus G ino size)
  used : ∀ b < G.blocksCount,
    G.used fs'.part b = (G.used fs.part b && !decide (b ∈ fs.surplus G ino size))
  credited : fs.Credited fs' G (fs.surplus G ino size)

theorem FS.iWriteaddr_nil (fs : FS) {ino addr : Nat} (h : addr ≤ fs.getSize ino) :
    fs.iWriteaddr ino addr [] = .ok fs := by
  have hlt := fs.getSize_lt ino
  rw [iWriteaddr]
  simp only
  rw [writeSlots_done _ _ _ rfl, ok_bind]
  simp only [List.length_nil, Nat.add_zero, u64_of_lt (show addr < 2 ^ 64 by omega)]
  rw [if_neg (by exact Nat.not_lt.mpr h)]
  rfl

/-- Growing sets the size only. -/
theorem FS.iResize_grow (fs : FS) {ino size : Nat} (h : fs.getSize ino < size)
    (hsize : size < 2 ^ 64) : fs.iResize ino size =
      .ok (fs.writeInodeData ino ((fs.getInodeData ino).setSize size)) := by
  have hlt : ¬size < fs.getSize ino := by omega
  rw [iResize]
  simp only
  rw [if_neg (by exact hlt), iWriteaddr]
  simp only
  rw [writeSlots_done _ _ _ rfl, ok_bind]
  simp only [List.length_nil, Nat.add_zero, u64_of_lt hsize]
  rw [if_pos (by exact h)]
  rfl

theorem FS.iResize_pruned (hG : G.Sound) (hM : G.Metadata M) (h : fs.Intact G M ino)
    (hsize : size ≤ fs.getSize ino) (hsmall : fs.getSize ino + G.blockSize ≤ 2 ^ 32) :
    ∃ fs', fs.iResize ino size = .ok fs' ∧ fs.Truncated fs' G M ino size ∧
      fs.Pruned fs' G ino size := by
  have hB := hG.blockSize_pos
  have hblock : fs.blockSize = G.blockSize := congrArg Geometry.blockSize h.fit.geometry
  rw [iResize]
  simp only
  by_cases hlt : size < fs.getSize ino
  · rw [if_pos (by exact hlt)]
    -- The size before is that of whole blocks.
    have hcountlt : fs.count G ino * G.blockSize < 2 ^ 32 := by
      have := blocksFor_mul_lt hG (show 0 < fs.getSize ino by omega)
      rw [Nat.sub_mul] at this
      rw [count]
      omega
    have hbefore : u32 (alignup (fs.getInodeData ino).size.toNat fs.blockSize) =
        fs.count G ino * G.blockSize := by
      rw [hblock, show alignup (fs.getInodeData ino).size.toNat G.blockSize =
        fs.count G ino * G.blockSize from rfl]
      exact u32_of_lt hcountlt
    rw [hbefore]
    have hcap := count_le hG fs ino
    have hle := le_blocksFor hG (fs.getSize ino)
    have hcuttable : Cuttable G M (.concat (fun j : Fin 15 =>
        G.tree (rootLevel j) ((fs.getInodeData ino).block j).toNat) (List.finRange 15))
        (fs.count G ino) (G.fileShape.total (fs.count G ino))
        ⟨fs, fs.getInodeData ino, size, fs.count G ino * G.blockSize⟩ := {
      fit := h.fit
      before := rfl
      lt := by simp only; omega
      after := by simp only [count]; omega
      counted := h.blocks
      room := Shape.total_le _ (Nat.min_le_left ..)
      held := by
        rw [show (Shape.concat (fun j => G.treeShape (rootLevel j)) (List.finRange 15)).cap =
          G.fileShape.cap from rfl, Nat.min_eq_left hcap]
        exact h.held }
    obtain ⟨⟨all, args, blocks⟩, heq, hrow⟩ := (resizeSlots_cut hG hM
      (T := fun j r => G.tree (rootLevel j) r.toNat) (fun j => resizerec (rootLevel j))
      (List.finRange 15) (fun j _ => resizerec_cut hG hM (rootLevel j)) (List.nodup_finRange 15)
      _ _ _ _ hcuttable).returns fun _ he => he
    have hwas : WasCut G M (fs.tree G ino) (fs.count G ino) (G.fileShape.total (fs.count G ino))
      ⟨fs, fs.getInodeData ino, size, fs.count G ino * G.blockSize⟩ args := hrow.cut
    have hgetSize : (args.data.setSize size).getSize = size := by
      simp only [InodeData.getSize, InodeData.setSize, UInt32.toNat_ofNat']
      exact Nat.mod_eq_of_lt (hlt.trans (fs.getSize_lt ino))
    have hremains : remains G G.fileShape
        ⟨fs, fs.getInodeData ino, size, fs.count G ino * G.blockSize⟩ = G.blocksFor size :=
      Nat.min_eq_left (le_cap_file hG (hlt.trans (fs.getSize_lt ino)))
    have hcut := hwas.cut
    have hcounted := hwas.counted
    rw [hremains, Nat.min_eq_left hcap] at hcut hcounted
    rw [Nat.sub_self, Nat.zero_add] at hcounted
    have hdata := hwas.data
    have hstored := stored_writeInodeData hcut.fit hG hM h.inode (args.data.setSize size)
    obtain ⟨hchange, hleaves, hinner, hsame⟩ := Cut.change hG hM h (by rw [hgetSize]; exact hcut) hstored
      (by rw [hdata]; rfl) (by rw [hgetSize]; exact hcounted)
    have hlen : (args.fs.writeInodeData ino (args.data.setSize size)).count G ino =
        G.blocksFor size := by rw [count, getSize, hstored.data, hgetSize]
    refine ⟨_, by rw [heq]; rfl, ⟨hchange, ?_, ?_, fun i hi => ?_⟩, ?_⟩
    · rw [hstored.data, hdata]
      exact ⟨rfl, rfl, rfl, rfl⟩
    · rw [getSize, hstored.data, hgetSize]
    · obtain ⟨l, -, hl, -⟩ := hcut
      rw [hlen] at hi
      rw [hgetSize] at hleaves
      have hlength := length_leaves hG (args.fs.writeInodeData ino (args.data.setSize size)) ino
      rw [hlen] at hlength
      have hold : fs.leaves G ino =
          (args.fs.writeInodeData ino (args.data.setSize size)).leaves G ino ++ l := by
        rw [hleaves]
        exact hl
      rw [byte, byteAt_congr hB (by rwa [hlength]) hsame, byte, hold,
        byteAt_append_left (by rwa [hlength])]
    · have hshort : G.blocksFor size ≤ fs.count G ino :=
        (blocksFor_le_iff hG).mpr (hsize.trans (le_blocksFor hG _))
      obtain ⟨freed, hshrunk, hperm⟩ := hcut.nodes
      obtain ⟨l, i, hl, hi, -⟩ := hcut
      obtain ⟨hkeepi, hkeepl⟩ := (file_ordered G _).eq_of_append hshort hcap hi hl
      have hkeep : (fs.tree G ino).nodes args.fs.part (G.blocksFor size) =
          (fs.tree G ino).nodes fs.part (G.blocksFor size) := by
        rw [BlockMap.nodes, BlockMap.nodes]
        exact congrArg₂ _ hkeepi hkeepl
      have hsurplus := surplus_perm h.held.nodup (hkeep ▸ hperm)
      rw [hgetSize] at hleaves hinner
      exact {
        leaves := hleaves.trans hkeepl
        inner := hinner.trans hkeepi
        nodes := by
          rw [nodes_eq (args.fs.writeInodeData ino (args.data.setSize size)), hinner, hleaves]
          exact hperm.trans (List.Perm.append_left _ hsurplus.symm)
        used := fun b hb => by
          rw [hstored.bitmaps.used hG hb, hshrunk.used b hb]
          exact congrArg _ (congrArg _ (decide_eq_decide.mpr hsurplus.mem_iff.symm))
        credited := by
          have hboth := (hshrunk.credited.perm hsurplus.symm).trans
            (args.fs.writeInodeData_credited G ino (args.data.setSize size))
          rwa [List.append_nil] at hboth }
  · obtain rfl : size = fs.getSize ino := by omega
    rw [if_neg (by exact hlt), fs.iWriteaddr_nil le_rfl]
    have hnone : fs.surplus G ino (fs.getSize ino) = [] :=
      List.filter_eq_nil_iff.mpr fun b hb => by
        simpa using show b ∈ (fs.tree G ino).nodes fs.part (G.blocksFor (fs.getSize ino)) from hb
    refine ⟨fs, rfl, ⟨.refl h, ⟨rfl, rfl, rfl, rfl⟩, rfl, fun _ _ => rfl⟩, rfl, rfl, ?_,
      fun b _ => ?_, ?_⟩
    · rw [hnone, List.append_nil]
    · rw [hnone]
      simp
    · rw [hnone]
      exact .of_same rfl rfl

theorem FS.iResize_spec (hG : G.Sound) (hM : G.Metadata M) (h : fs.Intact G M ino)
    (hsize : size ≤ fs.getSize ino) (hsmall : fs.getSize ino + G.blockSize ≤ 2 ^ 32) :
    ∃ fs', fs.iResize ino size = .ok fs' ∧ fs.Truncated fs' G M ino size := by
  obtain ⟨fs', heq, ht, -⟩ := iResize_pruned hG hM h hsize hsmall
  exact ⟨fs', heq, ht⟩

end SupOS.Ext2
