import SupOS.Ext2.Layout
import SupOS.Lib.Outcome

/-! What `getNewBlock`, `freeBlock`, `getNewInode` and `freeInode` do: each changes one bit of one
bitmap, the counters of its group and of the superblock, and the areas that are only written. -/

namespace SupOS.Ext2

open Lib

/-- The areas that hold a bitmap. -/
def Area.IsBitmap : Area → Prop
  | blockBitmap _ | inodeBitmap _ => True
  | _ => False

theorem Area.IsBitmap.not_writeOnly {A : Area} (h : A.IsBitmap) : ¬A.writeOnly := by
  cases A <;> simp_all [IsBitmap, writeOnly]

namespace Geometry

/-- Bit `i` of the bitmap in area `A`. -/
def bitIn (G : Geometry) (m : Bytes) (A : Area) (i : Nat) : Bool := (m.view (G.start A)).bit i

theorem size_bitmap (G : Geometry) {A : Area} (h : A.IsBitmap) : G.size A = G.blockSize := by
  cases A <;> first | rfl | exact absurd h (by simp [Area.IsBitmap])

/-- `m'` holds `v` at `addr` and is `m` elsewhere, but for the areas that are only written. -/
def Patched (G : Geometry) (m m' : Bytes) (addr : Nat) (v : UInt8) : Prop :=
  ∀ a, ¬G.In .superBlock a → ¬G.In .descriptors a → m' a = if a = addr then v else m a

/-- `m'` is `m` with bit `k` of the bitmap `A` set, but for the areas that are only written. -/
structure Took (G : Geometry) (m m' : Bytes) (A : Area) (k : Nat) : Prop where
  area : G.Exists A
  bitmap : A.IsBitmap
  index : k < 8 * G.blockSize
  free : G.bitIn m A k = false
  bits : ∀ A', G.Exists A' → A'.IsBitmap → ∀ i < 8 * G.blockSize,
    G.bitIn m' A' i = (G.bitIn m A' i || decide (A' = A ∧ i = k))
  keeps : ∀ a, ¬G.In .superBlock a → ¬G.In .descriptors a → ¬G.In A a → m' a = m a

/-- `m'` is `m` with bit `k` of the bitmap `A` cleared, but for the areas that are only
written. -/
structure Dropped (G : Geometry) (m m' : Bytes) (A : Area) (k : Nat) : Prop where
  area : G.Exists A
  bitmap : A.IsBitmap
  index : k < 8 * G.blockSize
  taken : G.bitIn m A k = true
  bits : ∀ A', G.Exists A' → A'.IsBitmap → ∀ i < 8 * G.blockSize,
    G.bitIn m' A' i = (G.bitIn m A' i && !decide (A' = A ∧ i = k))
  keeps : ∀ a, ¬G.In .superBlock a → ¬G.In .descriptors a → ¬G.In A a → m' a = m a

variable {G : Geometry} {m m' : Bytes}

/-- An address in an area that is read is in no other area. -/
theorem Sound.not_in (hG : G.Sound) {A A' : Area} {a : Nat} (hA : G.Exists A)
    (hA' : G.Exists A') (hne : A ≠ A') (hr : ¬A.writeOnly) (ha : G.In A a) : ¬G.In A' a :=
  hG.apart A A' a hne (fun h => hr h.1) hA hA' ha

theorem In.of_bitmap {A : Area} (hA : A.IsBitmap) {j : Nat} (hj : j < G.blockSize) :
    G.In A (G.start A + j) := by
  rw [In, size_bitmap G hA]
  omega

/-- A patch in one bitmap leaves the bits of the others. -/
theorem Patched.bit_other (hG : G.Sound) {A A' : Area} {j i : Nat} {v : UInt8}
    (h : G.Patched m m' (G.start A + j) v) (hA : A.IsBitmap) (hE : G.Exists A)
    (hj : j < G.blockSize) (hA' : A'.IsBitmap) (hE' : G.Exists A') (hne : A' ≠ A)
    (hi : i < 8 * G.blockSize) : G.bitIn m' A' i = G.bitIn m A' i := by
  have hin : G.In A' (G.start A' + i / 8) := In.of_bitmap hA' (by omega)
  refine Bytes.bit_congr ?_
  have hs : ¬G.In .superBlock (G.start A' + i / 8) :=
    hG.not_in hE' trivial (by rintro rfl; exact hA') hA'.not_writeOnly hin
  have hd : ¬G.In .descriptors (G.start A' + i / 8) :=
    hG.not_in hE' trivial (by rintro rfl; exact hA') hA'.not_writeOnly hin
  have hother : G.start A' + i / 8 ≠ G.start A + j := fun heq =>
    hG.not_in hE' hE hne hA'.not_writeOnly hin (heq ▸ In.of_bitmap hA hj)
  simp only [Bytes.view_apply]
  rw [h _ hs hd, if_neg hother]

/-- The bits of the patched bitmap are those of the patched buffer. -/
theorem Patched.bit_same (hG : G.Sound) {A : Area} {j i : Nat} {v : UInt8}
    (h : G.Patched m m' (G.start A + j) v) (hA : A.IsBitmap) (hE : G.Exists A)
    (hi : i < 8 * G.blockSize) :
    G.bitIn m' A i = Bytes.bit (Function.update (m.view (G.start A)) j v) i := by
  have hin : G.In A (G.start A + i / 8) := In.of_bitmap hA (by omega)
  refine Bytes.bit_congr ?_
  have hs : ¬G.In .superBlock (G.start A + i / 8) :=
    hG.not_in hE trivial (by rintro rfl; exact hA) hA.not_writeOnly hin
  have hd : ¬G.In .descriptors (G.start A + i / 8) :=
    hG.not_in hE trivial (by rintro rfl; exact hA) hA.not_writeOnly hin
  simp only [Bytes.view_apply]
  rw [h _ hs hd]
  by_cases hij : i / 8 = j
  · subst hij
    simp
  · rw [Function.update_of_ne hij, if_neg (by omega), Bytes.view_apply]

theorem Patched.keeps {A : Area} {j : Nat} {v : UInt8} (h : G.Patched m m' (G.start A + j) v)
    (hA : A.IsBitmap) (hj : j < G.blockSize) (a : Nat) (hs : ¬G.In .superBlock a)
    (hd : ¬G.In .descriptors a) (ha : ¬G.In A a) : m' a = m a := by
  rw [h a hs hd, if_neg]
  rintro rfl
  exact ha (In.of_bitmap hA hj)

/-- Setting a zero bit takes it. -/
theorem Patched.took (hG : G.Sound) {A : Area} {j pos : Nat}
    (h : G.Patched m m' (G.start A + j) (setBit (m.view (G.start A) j) pos)) (hA : A.IsBitmap)
    (hE : G.Exists A) (hj : j < G.blockSize) (hpos : pos < 8)
    (hfree : G.bitIn m A (8 * j + pos) = false) : G.Took m m' A (8 * j + pos) where
  area := hE
  bitmap := hA
  index := by omega
  free := hfree
  bits A' hE' hA' i hi := by
    by_cases hne : A' = A
    · subst hne
      rw [h.bit_same hG hA' hE' hi, Bytes.bit_update_setBit _ hpos]
      simp [bitIn]
    · rw [h.bit_other hG hA hE hj hA' hE' hne hi]
      simp [hne]
  keeps := h.keeps hA hj

/-- Clearing a set bit drops it. -/
theorem Patched.dropped (hG : G.Sound) {A : Area} {j pos : Nat}
    (h : G.Patched m m' (G.start A + j) (clearBit (m.view (G.start A) j) pos)) (hA : A.IsBitmap)
    (hE : G.Exists A) (hj : j < G.blockSize) (hpos : pos < 8)
    (htaken : G.bitIn m A (8 * j + pos) = true) : G.Dropped m m' A (8 * j + pos) where
  area := hE
  bitmap := hA
  index := by omega
  taken := htaken
  bits A' hE' hA' i hi := by
    by_cases hne : A' = A
    · subst hne
      rw [h.bit_same hG hA' hE' hi, Bytes.bit_update_clearBit _ hpos]
      simp [bitIn]
    · rw [h.bit_other hG hA hE hj hA' hE' hne hi]
      simp [hne]
  keeps := h.keeps hA hj

end Geometry

namespace FS

/-- Writing the descriptors and the superblock changes only their areas. -/
theorem commit_part (fs : FS) (a : Nat) (hs : ¬fs.geometry.In .superBlock a)
    (hd : ¬fs.geometry.In .descriptors a) :
    fs.writeBlockGroupDescriptor.writeSuperBlock.part a = fs.part a := by
  simp only [Geometry.In, Geometry.start, Geometry.size] at hs hd
  simp only [writeSuperBlock, writeBlockGroupDescriptor]
  rw [Bytes.blit_outside (by omega), Bytes.blit_outside]
  simp only [geometry] at hd
  omega

/-- The geometry does not depend on the bytes of the partition or on any counter. -/
theorem geometry_commit (fs : FS) (b : UInt32) (buf : Bytes) (g : Nat) (d : BlockGroupDescriptor)
    (sb : SuperBlock) (hsb : sb = { fs.sb with freeBlocksCount := sb.freeBlocksCount
                                               freeInodesCount := sb.freeInodesCount })
    (hb : d.blockBitmap = (fs.bgd g).blockBitmap) (hi : d.inodeBitmap = (fs.bgd g).inodeBitmap)
    (ht : d.inodeTable = (fs.bgd g).inodeTable) :
    (fs.commit b buf g d sb).geometry = fs.geometry := by
  rw [hsb]
  ext g' <;> simp only [geometry, bgdAddr, commit, writeBlockGroupDescriptor, writeSuperBlock,
    writeBitmap]
  all_goals
    by_cases hg : g' = g
    · subst hg; simp [hb, hi, ht]
    · rw [Function.update_of_ne hg]

/-- A commit of a bitmap with one byte changed. -/
theorem patched_commit (fs : FS) (b : UInt32) (j : Nat) (v : UInt8) (g : Nat)
    (d : BlockGroupDescriptor) (sb : SuperBlock) (hj : j < fs.blockSize)
    (hgeo : (fs.commit b (Function.update (fs.bitmap b) j v) g d sb).geometry = fs.geometry) :
    fs.geometry.Patched fs.part (fs.commit b (Function.update (fs.bitmap b) j v) g d sb).part
      (b.toNat * fs.blockSize + j) v := by
  intro a hs hd
  rw [← hgeo] at hs hd
  have hcommit := commit_part { fs.writeBitmap b (Function.update (fs.bitmap b) j v) with
    bgd := Function.update fs.bgd g d, sb } a hs hd
  refine hcommit.trans ?_
  simp only [writeBitmap, Bytes.blit]
  by_cases ha : b.toNat * fs.blockSize ≤ a ∧ a < b.toNat * fs.blockSize + fs.blockSize
  · rw [if_pos ha]
    by_cases hoff : a - b.toNat * fs.blockSize = j
    · rw [hoff, Function.update_self, if_pos (by omega)]
    · rw [Function.update_of_ne hoff, if_neg (by omega), bitmap, Bytes.view_apply,
        Nat.add_sub_cancel' ha.1]
  · rw [if_neg ha, if_neg (by omega)]

/-- `takeBit` finds the first zero bit, and its assertion holds. -/
theorem takeBit_eq (fs : FS) (b : UInt32) : fs.takeBit b =
    .ok (((fs.bitmap b).firstZero fs.blockSize).map fun p =>
      (p.1, p.2, Function.update (fs.bitmap b) p.1 (setBit ((fs.bitmap b) p.1) p.2))) := by
  rw [takeBit]
  cases h : (fs.bitmap b).firstZero fs.blockSize with
  | none => rfl
  | some p =>
    obtain ⟨j, pos⟩ := p
    obtain ⟨-, hpos, hbit, -⟩ := Bytes.firstZero_some h
    rw [Bytes.bit, show (8 * j + pos) / 8 = j by omega, show (8 * j + pos) % 8 = pos by omega]
      at hbit
    simp [hbit]

/-- `dropBit` returns when the bit is set. -/
theorem dropBit_eq (fs : FS) (b : UInt32) (i : Nat) (h : (fs.bitmap b).bit i = true) :
    fs.dropBit b i = .ok (Function.update (fs.bitmap b) (i / 8)
      (clearBit ((fs.bitmap b) (i / 8)) (i % 8))) := by
  have hmod : i % 8 < 8 := Nat.mod_lt _ (by decide)
  have hclear := @testBit_clearBit ((fs.bitmap b) (i / 8)) (i % 8) (i % 8) hmod
  simp only [decide_true, Bool.not_true, Bool.and_false] at hclear
  simp only [Bytes.bit] at h
  simp [dropBit, h, hclear]
  rfl

/-- `getNewBlock` gave out the block of bit `k` in group `g`. -/
structure TookBlock (fs fs' : FS) (g k : Nat) : Prop where
  group : g < fs.nbBgd
  took : fs.geometry.Took fs.part fs'.part (.blockBitmap g) k
  geometry : fs'.geometry = fs.geometry
  counted : (fs.bgd g).freeBlocksCount ≠ 0
  bgd : fs'.bgd = Function.update fs.bgd g
    { fs.bgd g with freeBlocksCount := (fs.bgd g).freeBlocksCount - 1 }
  sb : fs'.sb = { fs.sb with freeBlocksCount := fs.sb.freeBlocksCount - 1 }

/-- `freeBlock` took back the block of bit `k` in group `g`. -/
structure DroppedBlock (fs fs' : FS) (g k : Nat) : Prop where
  group : g < fs.nbBgd
  dropped : fs.geometry.Dropped fs.part fs'.part (.blockBitmap g) k
  geometry : fs'.geometry = fs.geometry
  bgd : fs'.bgd = Function.update fs.bgd g
    { fs.bgd g with freeBlocksCount := (fs.bgd g).freeBlocksCount + 1 }
  sb : fs'.sb = { fs.sb with freeBlocksCount := fs.sb.freeBlocksCount + 1 }

/-- `getNewInode` gave out the inode of bit `k` in group `g`. -/
structure TookInode (fs fs' : FS) (isDirectory : Bool) (g k : Nat) : Prop where
  group : g < fs.nbBgd
  took : fs.geometry.Took fs.part fs'.part (.inodeBitmap g) k
  geometry : fs'.geometry = fs.geometry
  counted : (fs.bgd g).freeInodesCount ≠ 0
  bgd : fs'.bgd = Function.update fs.bgd g
    { fs.bgd g with
      freeInodesCount := (fs.bgd g).freeInodesCount - 1
      usedDirsCount := if isDirectory then (fs.bgd g).usedDirsCount + 1
        else (fs.bgd g).usedDirsCount }
  sb : fs'.sb = { fs.sb with freeInodesCount := fs.sb.freeInodesCount - 1 }

/-- `freeInode` took back the inode of bit `k` in group `g`. -/
structure DroppedInode (fs fs' : FS) (isDirectory : Bool) (g k : Nat) : Prop where
  group : g < fs.nbBgd
  dropped : fs.geometry.Dropped fs.part fs'.part (.inodeBitmap g) k
  geometry : fs'.geometry = fs.geometry
  bgd : fs'.bgd = Function.update fs.bgd g
    { fs.bgd g with
      freeInodesCount := (fs.bgd g).freeInodesCount + 1
      usedDirsCount := if isDirectory then (fs.bgd g).usedDirsCount - 1
        else (fs.bgd g).usedDirsCount }
  sb : fs'.sb = { fs.sb with freeInodesCount := fs.sb.freeInodesCount + 1 }

/-- Group `g` has no block that `getNewBlock` would take. -/
def Exhausted (fs : FS) (g : Nat) : Prop :=
  (fs.bgd g).freeBlocksCount = 0 ∨
    (fs.bitmap (fs.bgd g).blockBitmap).firstZero fs.blockSize = none

/-- The failure of `getNewBlock` with the iterations from `i` on to do. -/
def OutOfBlocks (fs : FS) (blockGroup i : Nat) (e : Fault) : Prop :=
  e = .bsod "No space on disk :-(" ∧
    ∀ i', i ≤ i' → i' < fs.nbBgd → fs.Exhausted ((i' + blockGroup) % fs.nbBgd)

/-- The result of `getNewBlock`: the number of the block of the bit that it took. -/
def GotBlock (fs : FS) (r : Nat × FS) : Prop :=
  ∃ g k, fs.TookBlock r.2 g k ∧ r.1 = u32 (fs.sb.blocksPerGroup.toNat * g + k)

theorem OutOfBlocks.prev {fs : FS} {blockGroup i : Nat} {e : Fault}
    (h : fs.OutOfBlocks blockGroup (i + 1) e)
    (hx : fs.Exhausted ((i + blockGroup) % fs.nbBgd)) : fs.OutOfBlocks blockGroup i e := by
  refine ⟨h.1, fun i' hle hlt => ?_⟩
  rcases Nat.eq_or_lt_of_le hle with rfl | hle
  · exact hx
  · exact h.2 i' hle hlt

theorem getNewBlockLoop_spec (fs : FS) (hG : fs.geometry.Sound) (blockGroup : Nat) :
    ∀ n i, n + i = fs.nbBgd →
      Ensures (fs.getNewBlockLoop blockGroup n i) (fs.OutOfBlocks blockGroup i) fs.GotBlock
  | 0, i, hn => ⟨rfl, fun i' hi hlt => by omega⟩
  | n + 1, i, hn => by
    have hg : (i + blockGroup) % fs.nbBgd < fs.nbBgd := Nat.mod_lt _ (by omega)
    have hskip (hx : fs.Exhausted ((i + blockGroup) % fs.nbBgd)) :
        Ensures (fs.getNewBlockLoop blockGroup n (i + 1)) (fs.OutOfBlocks blockGroup i)
          fs.GotBlock :=
      (getNewBlockLoop_spec fs hG blockGroup n (i + 1) (by omega)).mono (fun _ he => he.prev hx)
        fun _ h => h
    rw [getNewBlockLoop]
    generalize (i + blockGroup) % fs.nbBgd = g at hg hskip
    simp only
    by_cases hcount : (fs.bgd g).freeBlocksCount = 0
    · rw [if_pos hcount]
      exact hskip (.inl hcount)
    · rw [if_neg hcount, takeBit_eq]
      cases hz : (fs.bitmap (fs.bgd g).blockBitmap).firstZero fs.blockSize with
      | none => exact hskip (.inr hz)
      | some p =>
        obtain ⟨j, pos⟩ := p
        obtain ⟨hj, hpos, hbit, -⟩ := Bytes.firstZero_some hz
        have hgeo := fun buf => geometry_commit fs (fs.bgd g).blockBitmap buf g
          { fs.bgd g with freeBlocksCount := (fs.bgd g).freeBlocksCount - 1 }
          { fs.sb with freeBlocksCount := fs.sb.freeBlocksCount - 1 } rfl rfl rfl rfl
        have hpatch := patched_commit fs (fs.bgd g).blockBitmap j
          (setBit (fs.bitmap (fs.bgd g).blockBitmap j) pos) g _ _ hj (hgeo _)
        exact ⟨g, 8 * j + pos, ⟨hg, hpatch.took hG trivial hg hj hpos hbit, hgeo _, hcount, rfl,
          rfl⟩, by simp only [Nat.add_assoc]⟩

/-- A cyclic scan of `n` indices from any start meets each of them. -/
theorem exists_add_mod {n g : Nat} (hg : g < n) (start : Nat) : ∃ i < n, (i + start) % n = g := by
  refine ⟨(g + (n - start % n)) % n, Nat.mod_lt _ (by omega), ?_⟩
  have hlt : start % n < n := Nat.mod_lt _ (by omega)
  have hsum : g + (n - start % n) + start = g + n * (start / n + 1) := by
    have := Nat.div_add_mod start n
    rw [Nat.mul_add]
    omega
  rw [Nat.mod_add_mod, hsum, Nat.add_mul_mod_self_left, Nat.mod_eq_of_lt hg]

/-- `getNewBlock` takes a block, or stops when no group has one. -/
theorem getNewBlock_spec (fs : FS) (hG : fs.geometry.Sound) (nearInode : Nat) :
    Ensures (fs.getNewBlock nearInode)
      (fun e => e = .bsod "No space on disk :-(" ∧ ∀ g < fs.nbBgd, fs.Exhausted g)
      fs.GotBlock := by
  refine (getNewBlockLoop_spec fs hG _ fs.nbBgd 0 rfl).mono (fun e he => ⟨he.1, fun g hg => ?_⟩)
    fun _ h => h
  obtain ⟨i, hi, hmod⟩ := exists_add_mod hg
    (u32 (nearInode + 2 ^ 32 - 1) / fs.sb.inodesPerGroup.toNat)
  exact hmod ▸ he.2 i (Nat.zero_le _) hi

/-- `freeBlock` clears the bit of a block that is marked used. -/
theorem freeBlock_spec (fs : FS) (hG : fs.geometry.Sound) {b : Nat}
    (hg : b / fs.sb.blocksPerGroup.toNat < fs.nbBgd) (hused : fs.geometry.used fs.part b = true) :
    ∃ fs', fs.freeBlock b = .ok fs' ∧
      fs.DroppedBlock fs' (b / fs.sb.blocksPerGroup.toNat) (b % fs.sb.blocksPerGroup.toNat) := by
  have hk : b % fs.sb.blocksPerGroup.toNat < 8 * fs.blockSize :=
    lt_of_lt_of_le (Nat.mod_lt _ hG.blocksPerGroup_pos) hG.blocksPerGroup_le
  generalize hgdef : b / fs.sb.blocksPerGroup.toNat = g at hg
  generalize hkdef : b % fs.sb.blocksPerGroup.toNat = k at hk
  have hbit : (fs.bitmap (fs.bgd g).blockBitmap).bit k = true := by
    rw [← hgdef, ← hkdef]; exact hused
  have hgeo := fun buf => geometry_commit fs (fs.bgd g).blockBitmap buf g
    { fs.bgd g with freeBlocksCount := (fs.bgd g).freeBlocksCount + 1 }
    { fs.sb with freeBlocksCount := fs.sb.freeBlocksCount + 1 } rfl rfl rfl rfl
  have hpatch := patched_commit fs (fs.bgd g).blockBitmap (k / 8)
    (clearBit (fs.bitmap (fs.bgd g).blockBitmap (k / 8)) (k % 8)) g _ _ (by omega) (hgeo _)
  have hdrop := hpatch.dropped hG (A := .blockBitmap g) trivial hg (by simp [geometry]; omega)
    (Nat.mod_lt _ (by decide)) (by rw [Nat.div_add_mod]; exact hbit)
  rw [Nat.div_add_mod] at hdrop
  refine ⟨_, ?_, ⟨hg, hdrop, hgeo _, rfl, rfl⟩⟩
  simp only [freeBlock, hgdef, hkdef, dropBit_eq fs _ k hbit]
  rfl

/-- The failure of `getNewInode` with the groups from `i` on to look at. -/
def OutOfInodes (fs : FS) (i : Nat) (e : Fault) : Prop :=
  e = .bsod "No more inodes on disk :-(" ∧ ∀ g, i ≤ g → g < fs.nbBgd →
    (fs.bgd g).freeInodesCount = 0 ∨
    (fs.bitmap (fs.bgd g).inodeBitmap).firstZero fs.blockSize = none

/-- The result of `getNewInode`: the number of the inode of the bit that it took. -/
def GotInode (fs : FS) (isDirectory : Bool) (r : Nat × FS) : Prop :=
  ∃ g k, fs.TookInode r.2 isDirectory g k ∧ r.1 = u32 (fs.sb.inodesPerGroup.toNat * g + k + 1)

theorem getNewInodeLoop_spec (fs : FS) (hG : fs.geometry.Sound) (isDirectory : Bool) :
    ∀ n i, n + i = fs.nbBgd →
      Ensures (fs.getNewInodeLoop isDirectory n i) (fs.OutOfInodes i) (fs.GotInode isDirectory)
  | 0, i, hn => ⟨rfl, fun g hi hlt => by omega⟩
  | n + 1, i, hn => by
    have hskip (hx : (fs.bgd i).freeInodesCount = 0 ∨
        (fs.bitmap (fs.bgd i).inodeBitmap).firstZero fs.blockSize = none) :
        Ensures (fs.getNewInodeLoop isDirectory n (i + 1)) (fs.OutOfInodes i)
          (fs.GotInode isDirectory) := by
      refine (getNewInodeLoop_spec fs hG isDirectory n (i + 1) (by omega)).mono
        (fun _ he => ⟨he.1, fun g hle hlt => ?_⟩) fun _ h => h
      rcases Nat.eq_or_lt_of_le hle with rfl | hle
      · exact hx
      · exact he.2 g hle hlt
    have hi : i < fs.nbBgd := by omega
    rw [getNewInodeLoop]
    simp only
    by_cases hcount : (fs.bgd i).freeInodesCount = 0
    · rw [if_pos hcount]
      exact hskip (.inl hcount)
    · rw [if_neg hcount, takeBit_eq]
      cases hz : (fs.bitmap (fs.bgd i).inodeBitmap).firstZero fs.blockSize with
      | none => exact hskip (.inr hz)
      | some p =>
        obtain ⟨j, pos⟩ := p
        obtain ⟨hj, hpos, hbit, -⟩ := Bytes.firstZero_some hz
        have hgeo := fun buf => geometry_commit fs (fs.bgd i).inodeBitmap buf i
          { fs.bgd i with
            freeInodesCount := (fs.bgd i).freeInodesCount - 1
            usedDirsCount := if isDirectory then (fs.bgd i).usedDirsCount + 1
              else (fs.bgd i).usedDirsCount }
          { fs.sb with freeInodesCount := fs.sb.freeInodesCount - 1 } rfl rfl rfl rfl
        have hpatch := patched_commit fs (fs.bgd i).inodeBitmap j
          (setBit (fs.bitmap (fs.bgd i).inodeBitmap j) pos) i _ _ hj (hgeo _)
        exact ⟨i, 8 * j + pos, ⟨hi, hpatch.took hG trivial hi hj hpos hbit, hgeo _, hcount, rfl,
          rfl⟩, by simp only [Nat.add_assoc]⟩

/-- `getNewInode` takes an inode, or stops when no group has one. -/
theorem getNewInode_spec (fs : FS) (hG : fs.geometry.Sound) (isDirectory : Bool) :
    Ensures (fs.getNewInode isDirectory) (fs.OutOfInodes 0) (fs.GotInode isDirectory) :=
  getNewInodeLoop_spec fs hG isDirectory fs.nbBgd 0 rfl

theorem u32_pred {n : Nat} (h : 1 ≤ n) (hlt : n < 2 ^ 32) : u32 (n + 2 ^ 32 - 1) = n - 1 := by
  rw [u32, show n + 2 ^ 32 - 1 = n - 1 + 2 ^ 32 by omega, Nat.add_mod_right,
    Nat.mod_eq_of_lt (by omega)]

/-- `freeInode` clears the bit of an inode that is marked used. -/
theorem freeInode_spec (fs : FS) (hG : fs.geometry.Sound) {ino : Nat} (isDirectory : Bool)
    (h : 1 ≤ ino) (hlt : ino < 2 ^ 32) (hg : (ino - 1) / fs.sb.inodesPerGroup.toNat < fs.nbBgd)
    (hused : fs.geometry.inodeUsed fs.part ino = true) :
    ∃ fs', fs.freeInode ino isDirectory = .ok fs' ∧
      fs.DroppedInode fs' isDirectory ((ino - 1) / fs.sb.inodesPerGroup.toNat)
        ((ino - 1) % fs.sb.inodesPerGroup.toNat) := by
  have hk : (ino - 1) % fs.sb.inodesPerGroup.toNat < 8 * fs.blockSize :=
    lt_of_lt_of_le (Nat.mod_lt _ hG.inodesPerGroup_pos) hG.inodesPerGroup_le
  generalize hgdef : (ino - 1) / fs.sb.inodesPerGroup.toNat = g at hg
  generalize hkdef : (ino - 1) % fs.sb.inodesPerGroup.toNat = k at hk
  have hbit : (fs.bitmap (fs.bgd g).inodeBitmap).bit k = true := by
    rw [← hgdef, ← hkdef]; exact hused
  have hgeo := fun buf => geometry_commit fs (fs.bgd g).inodeBitmap buf g
    { fs.bgd g with
      freeInodesCount := (fs.bgd g).freeInodesCount + 1
      usedDirsCount := if isDirectory then (fs.bgd g).usedDirsCount - 1
        else (fs.bgd g).usedDirsCount }
    { fs.sb with freeInodesCount := fs.sb.freeInodesCount + 1 } rfl rfl rfl rfl
  have hpatch := patched_commit fs (fs.bgd g).inodeBitmap (k / 8)
    (clearBit (fs.bitmap (fs.bgd g).inodeBitmap (k / 8)) (k % 8)) g _ _ (by omega) (hgeo _)
  have hdrop := hpatch.dropped hG (A := .inodeBitmap g) trivial hg (by simp [geometry]; omega)
    (Nat.mod_lt _ (by decide)) (by rw [Nat.div_add_mod]; exact hbit)
  rw [Nat.div_add_mod] at hdrop
  refine ⟨_, ?_, ⟨hg, hdrop, hgeo _, rfl, rfl⟩⟩
  simp only [freeInode, u32_pred h hlt, hgdef, hkdef, dropBit_eq fs _ k hbit]
  rfl

end FS

end SupOS.Ext2
