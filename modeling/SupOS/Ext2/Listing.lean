import SupOS.Ext2.DirRecord
import SupOS.Ext2.Upkeep

/-! Directories on the disk as lists of records: what the scans find in them. -/

namespace SupOS.Ext2

open Lib SupOS.Ext2.Geometry

variable {G : Geometry} {M : Nat → Prop} {fs fs' : FS} {ino : Nat} {l pre post : List DirRecord}
  {r : DirRecord}

/-- The blocks that an inode numbers itself need no indirect blocks. -/
theorem total_direct (G : Geometry) {k : Nat} (hk : k ≤ 12) : G.fileShape.total k = k := by
  have hlast : k - 12 = 0 := by omega
  have hrow : ∀ (is : List (Fin 15)) (js : List (Fin 15)) (k : Nat), (∀ j ∈ is, rootLevel j = 0) →
      k ≤ is.length → (Shape.concat (fun j => G.treeShape (rootLevel j)) (is ++ js)).total k = k := by
    intro is js
    induction is with
    | nil =>
      intro k _ hk
      obtain rfl : k = 0 := Nat.le_zero.mp hk
      exact Shape.total_zero _
    | cons i is ih =>
      intro k hlevel hk
      have hsingle : G.treeShape (rootLevel i) = .single := by
        rw [hlevel i List.mem_cons_self]
        rfl
      have hrest := ih (k - 1) (fun j hj => hlevel j (List.mem_cons_of_mem _ hj))
        (by rw [List.length_cons] at hk; omega)
      rw [List.cons_append, Shape.concat, Shape.total_append, hsingle]
      simp only [Shape.single, Shape.total, Nat.add_zero] at hrest ⊢
      omega
  have hsplit : List.finRange 15 = (List.finRange 15).take 12 ++ (List.finRange 15).drop 12 :=
    (List.take_append_drop 12 _).symm
  rw [fileShape, hsplit]
  exact hrow _ _ k (by decide) (by simpa using hk)

namespace FS

/-- The blocks of an inode, which it numbers itself, hold the bytes. -/
structure Spans (fs : FS) (G : Geometry) (M : Nat → Prop) (ino : Nat) (b : List UInt8) : Prop where
  intact : fs.Intact G M ino
  direct : fs.count G ino ≤ 12
  length : b.length = fs.count G ino * G.blockSize
  bytes : ∀ i, ∀ h : i < b.length, fs.byte G ino i = b[i]

/-- The blocks of a directory hold the records. -/
structure Lists (fs : FS) (G : Geometry) (M : Nat → Prop) (ino : Nat) (l : List DirRecord) : Prop where
  spans : fs.Spans G M ino (DirRecord.data l)
  tiled : DirRecord.Tiled G.blockSize l

namespace Spans

variable {b : List UInt8}

theorem length_lt (hG : G.Sound) (h : fs.Spans G M ino b) : b.length < 2 ^ 20 := by
  have hmul := Nat.mul_le_mul h.direct hG.blockSize_le
  rw [← h.length] at hmul
  omega

/-- The bytes as they are read. -/
theorem iReadaddr (hG : G.Sound) (h : fs.Spans G M ino b) {addr n : Nat} (hn : addr + n ≤ b.length) :
    fs.iReadaddr ino addr n = (b.drop addr).take n := by
  rw [iReadaddr_eq h.intact.fit.geometry hG (count_le hG fs ino) (h.length ▸ hn)]
  refine List.ext_getElem ?_ fun i hi hi' => ?_
  · rw [content, List.length_map, List.length_range, List.length_take, List.length_drop]
    omega
  · rw [content, List.length_map, List.length_range] at hi
    rw [List.getElem_take, List.getElem_drop]
    simp only [content, List.getElem_map, List.getElem_range]
    exact h.bytes (addr + i) (by omega)

end Spans

namespace Lists

theorem length (h : fs.Lists G M ino l) : DirRecord.size l = fs.count G ino * G.blockSize := by
  rw [← h.spans.length, DirRecord.length_data]

theorem size_lt (hG : G.Sound) (h : fs.Lists G M ino l) : DirRecord.size l < 2 ^ 20 := by
  rw [← DirRecord.length_data]
  exact h.spans.length_lt hG

theorem iReadaddr (hG : G.Sound) (h : fs.Lists G M ino l) {addr n : Nat}
    (hn : addr + n ≤ DirRecord.size l) :
    fs.iReadaddr ino addr n = ((DirRecord.data l).drop addr).take n :=
  h.spans.iReadaddr hG (by rwa [DirRecord.length_data])

theorem scanEnd (hG : G.Sound) (h : fs.Lists G M ino l) : fs.scanEnd ino = DirRecord.size l := by
  have hlt := h.size_lt hG
  have hblocks := h.spans.intact.blocks
  rw [total_direct G h.spans.direct] at hblocks
  have hsize : (fs.getInodeData ino).blocks.toNat * 512 = DirRecord.size l := by
    rw [hblocks, h.length, Nat.mul_assoc, Nat.mul_comm G.sectors, ← hG.sectors_eq]
  rw [FS.scanEnd, hsize]
  exact u32_of_lt (by omega)

theorem entryAt (hG : G.Sound) (h : fs.Lists G M ino (pre ++ r :: post)) :
    fs.entryAt ino (DirRecord.size pre) = r.entry := by
  have hpre := DirRecord.length_data pre
  have hrec : 8 ≤ r.recLen := by unfold DirRecord.recLen; omega
  rw [FS.entryAt, h.iReadaddr hG (by simp; omega), DirRecord.data_append, DirRecord.data_cons,
    ← hpre, List.drop_left, DirRecord.bytes, List.append_assoc, List.append_assoc,
    List.take_left' r.entry.length_toList, DirectoryEntry.ofBytes_toList]

theorem nameAt (hG : G.Sound) (h : fs.Lists G M ino (pre ++ r :: post)) :
    fs.nameAt ino (DirRecord.size pre) r.entry = r.name := by
  have hpre := DirRecord.length_data pre
  have hfits := h.tiled.fits r (by simp)
  have hrec : 8 + r.name.length ≤ r.recLen := Nat.le_add_right _ _
  rw [FS.nameAt, hfits.toNat_nameLen, h.iReadaddr hG (by simp; omega), DirRecord.data_append,
    DirRecord.data_cons, ← hpre, ← List.drop_drop, List.drop_left, DirRecord.bytes,
    List.append_assoc, List.append_assoc, List.drop_left' r.entry.length_toList,
    List.take_left' rfl]

theorem nextRecord (hG : G.Sound) (h : fs.Lists G M ino (pre ++ r :: post)) :
    fs.nextRecord ino (DirRecord.size pre) = DirRecord.size (pre ++ [r]) := by
  have hlt := h.size_lt hG
  have hfits := h.tiled.fits r (by simp)
  simp only [DirRecord.size_append, DirRecord.size_cons] at hlt
  rw [FS.nextRecord, h.entryAt hG, hfits.toNat_recLen, u32_of_lt (by omega)]
  simp

theorem not_end (hG : G.Sound) (h : fs.Lists G M ino (pre ++ r :: post)) :
    ¬fs.scanEnd ino ≤ DirRecord.size pre := by
  have hrec : 8 ≤ r.recLen := by unfold DirRecord.recLen; omega
  rw [h.scanEnd hG]
  simp
  omega

theorem readdir_used (hG : G.Sound) (h : fs.Lists G M ino (pre ++ r :: post)) (hused : r.inode ≠ 0)
    (n : Nat) : fs.readdir ino (n + 1) (DirRecord.size pre) = .ok (some (r.entry, r.name),
      DirRecord.size (pre ++ [r]), fs.recordReads ino (DirRecord.size pre)) := by
  have hentry : ¬r.entry.inode = 0 := hused
  rw [FS.readdir, if_neg (h.not_end hG)]
  dsimp only
  rw [h.entryAt hG, h.nextRecord hG, if_neg hentry, h.nameAt hG]
  rfl

/-- One call of `read`, from a record on: it goes over the unused ones. -/
theorem readdir (hG : G.Sound) (h : fs.Lists G M ino (pre ++ post)) {n : Nat}
    (hrounds : post.length < n) : ∃ reads,
      ((DirRecord.dirents post = [] ∧
        fs.readdir ino n (DirRecord.size pre) = .ok (none, DirRecord.size (pre ++ post), reads)) ∨
      ∃ free r post', post = free ++ r :: post' ∧ DirRecord.dirents free = [] ∧ r.inode ≠ 0 ∧
        fs.readdir ino n (DirRecord.size pre) =
          .ok (some (r.entry, r.name), DirRecord.size (pre ++ free ++ [r]), reads)) := by
  induction post generalizing pre n with
  | nil =>
    obtain ⟨rounds, rfl⟩ : ∃ k, n = k + 1 := ⟨n - 1, by omega⟩
    refine ⟨[], .inl ⟨rfl, ?_⟩⟩
    have hend := h.scanEnd hG
    rw [List.append_nil] at hend ⊢
    rw [FS.readdir, if_pos hend.le]
    rfl
  | cons r post ih =>
    obtain ⟨rounds, rfl⟩ : ∃ k, n = k + 1 := ⟨n - 1, by omega⟩
    by_cases hfree : r.inode = 0
    · rw [FS.readdir, if_neg (h.not_end hG)]
      dsimp only
      rw [h.entryAt hG, h.nextRecord hG]
      have hentry : r.entry.inode = 0 := hfree
      have hassoc : pre ++ r :: post = (pre ++ [r]) ++ post := by simp
      rw [hassoc] at h
      obtain ⟨reads, hcase⟩ := ih h (n := rounds) (by simp only [List.length_cons] at hrounds; omega)
      refine ⟨fs.recordReads ino (DirRecord.size pre) ++ reads, ?_⟩
      rw [if_pos hentry]
      rcases hcase with ⟨hnone, hread⟩ | ⟨free, r', post', rfl, hfree', hused, hread⟩
      · refine .inl ⟨(DirRecord.dirents_free hfree).trans hnone, ?_⟩
        rw [hread, hassoc]
        rfl
      · refine .inr ⟨r :: free, r', post', rfl, (DirRecord.dirents_free hfree).trans hfree', hused, ?_⟩
        rw [hread, List.append_assoc pre [r] free]
        rfl
    · exact ⟨_, .inr ⟨[], r, post, rfl, rfl, hfree, by
        rw [h.readdir_used hG hfree, List.append_nil]⟩⟩

/-- A loop of calls of `read` returns the entries that are in use, in their order. -/
theorem readAll (hG : G.Sound) {α : Type} (f : α → Dirent → α) {rounds fuel : Nat} {a : α}
    (h : fs.Lists G M ino (pre ++ post)) (hrounds : post.length < rounds) (hfuel : post.length < fuel) :
    ∃ reads, fs.readAll ino f rounds fuel (DirRecord.size pre) a =
      .ok ((DirRecord.dirents post).foldl f a, reads) := by
  induction fuel generalizing pre post a with
  | zero => omega
  | succ fuel ih =>
    obtain ⟨reads, hcase⟩ := h.readdir hG hrounds
    rw [FS.readAll]
    rcases hcase with ⟨hnone, hread⟩ | ⟨free, r, post', rfl, hfree, hused, hread⟩
    · refine ⟨reads, ?_⟩
      rw [hread, hnone]
      rfl
    · have hassoc : pre ++ (free ++ r :: post') = (pre ++ free ++ [r]) ++ post' := by simp
      rw [hassoc] at h
      simp only [List.length_append, List.length_cons] at hrounds hfuel
      obtain ⟨reads', hall⟩ := ih (a := f a (r.entry, r.name)) h (by omega) (by omega)
      refine ⟨reads ++ reads', ?_⟩
      rw [hread, ok_bind]
      dsimp only
      rw [hall, DirRecord.dirents_append, hfree, List.nil_append, DirRecord.dirents_used hused]
      rfl

/-- `operator[]` finds the inode of the last entry with the name. -/
theorem findInode (hG : G.Sound) (h : fs.Lists G M ino l) {rounds fuel : Nat}
    (hrounds : l.length < rounds) (hfuel : l.length < fuel) (name : List UInt8) :
    ∃ reads, fs.findInode ino name rounds fuel = .ok (DirRecord.lookup l name, reads) := by
  rw [DirRecord.lookup, ← DirRecord.foldl_lookup]
  exact readAll hG _ (by exact h : fs.Lists G M ino ([] ++ l)) hrounds hfuel

end Lists

/-! ### The same contents -/

/-- Inode `i` has the mode, the size and the bytes that it had before. -/
structure SameContents (fs fs' : FS) (G : Geometry) (i : Nat) : Prop where
  mode : (fs'.getInodeData i).mode = (fs.getInodeData i).mode
  size : fs'.getSize i = fs.getSize i
  bytes : ∀ j < fs.count G i * G.blockSize, fs'.byte G i j = fs.byte G i j

theorem SameContents.refl (fs : FS) (G : Geometry) (i : Nat) : fs.SameContents fs G i :=
  ⟨rfl, rfl, fun _ _ => rfl⟩

theorem SameContents.count (h : fs.SameContents fs' G ino) : fs'.count G ino = fs.count G ino := by
  rw [FS.count, FS.count, h.size]

theorem SameContents.trans {fs₁ : FS} (h : fs.SameContents fs₁ G ino)
    (h' : fs₁.SameContents fs' G ino) : fs.SameContents fs' G ino where
  mode := h'.mode.trans h.mode
  size := h'.size.trans h.size
  bytes j hj := (h'.bytes j (by rwa [h.count])).trans (h.bytes j hj)

theorem SameFile.contents (h : fs.SameFile fs' G ino) : fs.SameContents fs' G ino where
  mode := by rw [h.data]
  size := by rw [getSize, getSize, h.data]
  bytes := h.bytes

/-- Data with the same mode, tree and size. -/
theorem sameContents_writeInodeData (hG : G.Sound) (hM : G.Metadata M) (h : fs.Intact G M ino)
    {d : InodeData} (hmode : d.mode = (fs.getInodeData ino).mode)
    (hblock : d.block = (fs.getInodeData ino).block) (hsize : d.size = (fs.getInodeData ino).size) :
    fs.SameContents (fs.writeInodeData ino d) G ino := by
  have hs := stored_writeInodeData h.fit hG hM h.inode d
  have hsize' : (fs.writeInodeData ino d).getSize ino = fs.getSize ino := by
    rw [getSize, getSize, hs.data, InodeData.getSize, InodeData.getSize, hsize]
  have hcount : (fs.writeInodeData ino d).count G ino = fs.count G ino := by
    rw [FS.count, FS.count, hsize']
  have hsame : ∀ b ∈ fs.nodes G ino, G.Same fs.part (fs.writeInodeData ino d).part b := fun b hb =>
    hs.blocks b (h.held.owned b hb).lt (h.held.owned b hb).data
  have hleaves : (fs.writeInodeData ino d).leaves G ino = fs.leaves G ino := by
    simp only [leaves, tree, hcount, hs.data, hblock]
    exact ((fs.tree G ino).congr _ _ _ (fun b hb => hsame b (List.mem_append_left _ hb))
      (count_le hG fs ino)).2
  refine ⟨by rw [hs.data, hmode], hsize', fun j hj => ?_⟩
  rw [byte, byte, hleaves]
  exact byteAt_congr hG.blockSize_pos (by rwa [length_leaves hG]) fun b hb =>
    hsame b (mem_nodes_of_leaves hb)

theorem Spans.same {b : List UInt8} (h : fs.Spans G M ino b) (hI : fs'.Intact G M ino)
    (hs : fs.SameContents fs' G ino) : fs'.Spans G M ino b where
  intact := hI
  direct := hs.count.le.trans h.direct
  length := by rw [hs.count, h.length]
  bytes i hi := (hs.bytes i (h.length ▸ hi)).trans (h.bytes i hi)

/-- A directory lists the same records as long as its contents stay. -/
theorem Lists.same (h : fs.Lists G M ino l) (hI : fs'.Intact G M ino)
    (hs : fs.SameContents fs' G ino) : fs'.Lists G M ino l :=
  ⟨h.spans.same hI hs, h.tiled⟩

end FS

end SupOS.Ext2
