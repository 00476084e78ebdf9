import SupOS.Ext2.Layout
import SupOS.Ext2.Inode
import SupOS.Lib.BlockMap

/-! The trees of blocks of inodes as block maps, and the bytes of a file. -/

namespace SupOS.Ext2

open Lib

namespace Geometry

/-- Block `b` has the same bytes in `m` and `m'`. -/
def Same (G : Geometry) (m m' : Bytes) (b : Nat) : Prop :=
  ∀ i < G.blockSize, m' (b * G.blockSize + i) = m (b * G.blockSize + i)

/-- The number of block numbers in a block. -/
def fanout (G : Geometry) : Nat := G.blockSize / 4

/-- Entry `i` of the array of block numbers in block `b`. -/
def pointer (G : Geometry) (m : Bytes) (b i : Nat) : Nat :=
  if i < G.fanout then m.word (b * G.blockSize + 4 * i) 4 else 0

theorem pointer_congr {G : Geometry} {m m' : Bytes} {b : Nat} (h : G.Same m m' b) :
    G.pointer m' b = G.pointer m b := by
  funext i
  simp only [pointer]
  by_cases hi : i < G.fanout
  · rw [if_pos hi, if_pos hi]
    refine Bytes.word_congr fun j hj => ?_
    have hlt : 4 * i + j < G.blockSize := by simp only [fanout] at hi; omega
    rw [Nat.add_assoc]
    exact h _ hlt
  · rw [if_neg hi, if_neg hi]

/-- The shape of the trees of a level. -/
def treeShape (G : Geometry) : Nat → Shape
  | 0 => .single
  | level + 1 => .wrap (.concat (fun _ => treeShape G level) (List.range G.fanout))

/-- The tree of a level at block `r`. -/
def tree (G : Geometry) : (level r : Nat) → BlockMap G.Same (G.treeShape level)
  | 0, r => .single r
  | level + 1, r => .wrap r (fun m => G.pointer m r) (fun _ _ h => pointer_congr h)
      fun f => .concat (fun i => tree G level (f i)) (List.range G.fanout)

/-- The trees under the entries of an indirect block. -/
def rowShape (G : Geometry) (level : Nat) : Shape :=
  .concat (fun _ => G.treeShape level) (List.range G.fanout)

def row (G : Geometry) (level : Nat) (f : Nat → Nat) : BlockMap G.Same (G.rowShape level) :=
  .concat (fun i => G.tree level (f i)) (List.range G.fanout)

theorem row_congr (G : Geometry) {level : Nat} {f f' : Nat → Nat}
    (h : ∀ i < G.fanout, f' i = f i) : G.row level f' = G.row level f :=
  BlockMap.concat_congr fun i hi => by rw [h i (List.mem_range.mp hi)]

theorem leaves_tree_succ (G : Geometry) (level r : Nat) (m : Bytes) (k : Nat) :
    (G.tree (level + 1) r).leaves m k = (G.row level (G.pointer m r)).leaves m k := rfl

theorem inner_tree_succ (G : Geometry) (level r : Nat) (m : Bytes) {k : Nat} (hk : k ≠ 0) :
    (G.tree (level + 1) r).inner m k = r :: (G.row level (G.pointer m r)).inner m k := by
  simp only [tree, BlockMap.wrap, if_neg hk]
  rfl

theorem nodes_tree_succ (G : Geometry) (level r : Nat) (m : Bytes) {k : Nat} (hk : k ≠ 0) :
    (G.tree (level + 1) r).nodes m k = r :: (G.row level (G.pointer m r)).nodes m k := by
  rw [BlockMap.nodes, inner_tree_succ G level r m hk]
  rfl

def fileShape (G : Geometry) : Shape :=
  .concat (fun j => G.treeShape (rootLevel j)) (List.finRange 15)

/-- The blocks of an inode with these fifteen block numbers. -/
def file (G : Geometry) (block : Fin 15 → UInt32) : BlockMap G.Same G.fileShape :=
  .concat (fun j => G.tree (rootLevel j) (block j).toNat) (List.finRange 15)

/-- The entries before number `n` and those from it on. -/
theorem range_split {n p : Nat} (h : n ≤ p) :
    List.range p = List.range' 0 n ++ List.range' n (p - n) := by
  have := List.range'_append_1 (s := 0) (m := n) (n := p - n)
  rw [Nat.zero_add, Nat.add_sub_cancel' h] at this
  rw [List.range_eq_range', this]

theorem cap_treeShape (G : Geometry) : ∀ level, (G.treeShape level).cap = G.fanout ^ level
  | 0 => rfl
  | level + 1 => by
    rw [treeShape, Shape.cap_wrap, Shape.cap_concat_const, cap_treeShape G level, List.length_range,
      pow_succ, Nat.mul_comm]

theorem depth_treeShape (G : Geometry) : ∀ level, (G.treeShape level).Depth level
  | 0 => .single
  | level + 1 => (Shape.Depth.concat (fun _ => depth_treeShape G level) _).wrap

theorem depth_fileShape (G : Geometry) : G.fileShape.Depth 3 :=
  .concat (fun j => (G.depth_treeShape (rootLevel j)).mono (by simp [rootLevel]; omega)) _

variable {G : Geometry}

theorem cap_treeShape_succ (G : Geometry) (level : Nat) :
    (G.treeShape (level + 1)).cap = G.fanout * (G.treeShape level).cap := by
  rw [cap_treeShape, cap_treeShape, pow_succ, Nat.mul_comm]

theorem Sound.fanout_ge (hG : G.Sound) : 256 ≤ G.fanout := by
  obtain ⟨k, -, h, -⟩ := hG.blockSize
  have := Nat.one_le_two_pow (n := k)
  simp only [fanout, h]
  omega

theorem Sound.blockSize_eq (hG : G.Sound) : G.blockSize = 4 * G.fanout := by
  obtain ⟨k, -, h, -⟩ := hG.blockSize
  simp only [fanout, h]
  omega

theorem Sound.sectors_eq (hG : G.Sound) : G.blockSize = 512 * G.sectors := by
  obtain ⟨k, -, h, h'⟩ := hG.blockSize
  rw [h, h']
  ring

theorem Sound.sectors_pos (hG : G.Sound) : 0 < G.sectors := by
  have := hG.blockSize_pos
  have := hG.sectors_eq
  omega

theorem Sound.blockSize_le (hG : G.Sound) : G.blockSize ≤ 65536 := by
  obtain ⟨k, hk, h, -⟩ := hG.blockSize
  have : 2 ^ k ≤ 2 ^ 6 := Nat.pow_le_pow_right (by decide) hk
  omega

theorem Sound.cap_pos (hG : G.Sound) (level : Nat) : 0 < (G.treeShape level).cap := by
  rw [cap_treeShape]
  exact Nat.pow_pos (lt_of_lt_of_le (by decide) hG.fanout_ge)

/-- The byte at offset `i` of a file whose blocks of data are `bs`. -/
def byteAt (G : Geometry) (m : Bytes) (bs : List Nat) (i : Nat) : UInt8 :=
  m (bs.getD (i / G.blockSize) 0 * G.blockSize + i % G.blockSize)

/-- The `n` bytes of a file from offset `a` on. -/
def content (G : Geometry) (m : Bytes) (bs : List Nat) (a n : Nat) : List UInt8 :=
  (List.range n).map fun i => G.byteAt m bs (a + i)

/-- The blocks up to the one of the byte before `n`. -/
def blocksFor (G : Geometry) (n : Nat) : Nat := (n + G.blockSize - 1) / G.blockSize

theorem div_blockSize_lt {i k : Nat} (h : i < k * G.blockSize) : i / G.blockSize < k :=
  Nat.div_lt_of_lt_mul (by rwa [Nat.mul_comm])

theorem byteAt_append_left {m : Bytes} {bs bs' : List Nat} {i : Nat}
    (h : i < bs.length * G.blockSize) : G.byteAt m (bs ++ bs') i = G.byteAt m bs i := by
  simp only [byteAt, List.getD_eq_getElem?_getD]
  rw [List.getElem?_append_left (div_blockSize_lt h)]

theorem byteAt_append_right {m : Bytes} {bs bs' : List Nat} {i : Nat} (hB : 0 < G.blockSize) :
    G.byteAt m (bs ++ bs') (bs.length * G.blockSize + i) = G.byteAt m bs' i := by
  have hdiv : (bs.length * G.blockSize + i) / G.blockSize = bs.length + i / G.blockSize := by
    rw [Nat.mul_comm, Nat.mul_add_div hB]
  have hmod : (bs.length * G.blockSize + i) % G.blockSize = i % G.blockSize := by
    rw [Nat.mul_comm, Nat.mul_add_mod]
  simp only [byteAt, List.getD_eq_getElem?_getD]
  rw [hdiv, hmod, List.getElem?_append_right (Nat.le_add_right _ _), Nat.add_sub_cancel_left]

/-- The bytes of a file depend only on its blocks. -/
theorem byteAt_congr {m m' : Bytes} {bs : List Nat} {i : Nat} (hB : 0 < G.blockSize)
    (h : i < bs.length * G.blockSize) (hs : ∀ b ∈ bs, G.Same m m' b) :
    G.byteAt m' bs i = G.byteAt m bs i := by
  have hlt := div_blockSize_lt h
  simp only [byteAt, List.getD_eq_getElem?_getD]
  rw [List.getElem?_eq_getElem hlt, Option.getD_some]
  exact hs _ (List.getElem_mem hlt) _ (Nat.mod_lt _ hB)

@[simp] theorem length_content (m : Bytes) (bs : List Nat) (a n : Nat) :
    (G.content m bs a n).length = n := by
  simp [content]

theorem content_congr {m m' : Bytes} {bs bs' : List Nat} {a a' n : Nat}
    (h : ∀ i < n, G.byteAt m bs (a + i) = G.byteAt m' bs' (a' + i)) :
    G.content m bs a n = G.content m' bs' a' n :=
  List.map_congr_left fun i hi => h i (List.mem_range.mp hi)

theorem content_add (m : Bytes) (bs : List Nat) (a n n' : Nat) :
    G.content m bs a (n + n') = G.content m bs a n ++ G.content m bs (a + n) n' := by
  simp only [content, List.range_add, List.map_append, List.map_map]
  congr 1
  refine List.map_congr_left fun i _ => ?_
  simp only [Function.comp, Nat.add_assoc]

theorem blocksFor_le_iff (hG : G.Sound) {n k : Nat} : G.blocksFor n ≤ k ↔ n ≤ k * G.blockSize := by
  have hB := hG.blockSize_pos
  rw [blocksFor, Nat.div_le_iff_le_mul_add_pred hB, Nat.mul_comm]
  omega

theorem le_blocksFor (hG : G.Sound) (n : Nat) : n ≤ G.blocksFor n * G.blockSize :=
  (blocksFor_le_iff hG).mp le_rfl

theorem blocksFor_mul_lt (hG : G.Sound) {n : Nat} (hn : 0 < n) :
    (G.blocksFor n - 1) * G.blockSize < n := by
  by_contra h
  have := (blocksFor_le_iff hG (n := n) (k := G.blocksFor n - 1)).mpr (by omega)
  have hpos : G.blocksFor n = 0 := by omega
  have := le_blocksFor hG n
  rw [hpos] at this
  omega

theorem blocksFor_add (hG : G.Sound) (k n : Nat) :
    G.blocksFor (k * G.blockSize + n) = k + G.blocksFor n := by
  have hB := hG.blockSize_pos
  rw [blocksFor, blocksFor, show k * G.blockSize + n + G.blockSize - 1 =
    G.blockSize * k + (n + G.blockSize - 1) by rw [Nat.mul_comm]; omega, Nat.mul_add_div hB]

@[simp] theorem blocksFor_zero (hG : G.Sound) : G.blocksFor 0 = 0 := by
  have := (blocksFor_le_iff hG (n := 0) (k := 0)).mpr (by omega)
  omega

end Geometry

/-- A block count stays a whole number of blocks. -/
theorem InodeData.toNat_incrBlockCount {d : InodeData} {sb : SuperBlock} {diff : Int}
    {c c' sectors : Nat} (hsec : 2 <<< sb.logBlockSize.toNat = sectors)
    (hc : d.blocks.toNat = c * sectors) (hc' : (c' : Int) = c + diff)
    (hlt : c' * sectors < 2 ^ 32) : (d.incrBlockCount diff sb).blocks.toNat = c' * sectors := by
  have hsum : (d.blocks.toNat : Int) + diff * (sectors : Nat) = ((c' * sectors : Nat) : Int) := by
    rw [hc, Nat.cast_mul, Nat.cast_mul, hc']
    ring
  rw [incrBlockCount, hsec, hsum]
  simp only [UInt32.ofInt, UInt32.toNat_ofNat']
  omega

namespace FS

variable {fs : FS} {G : Geometry}

/-- The size that a level covers is that of its leaves. -/
theorem indirectSize_eq (h : fs.geometry = G) :
    ∀ level, fs.indirectSize level = (G.treeShape level).cap * G.blockSize
  | 0 => by rw [indirectSize, ← h]; simp [Geometry.treeShape, Shape.single, geometry]
  | level + 1 => by
    rw [indirectSize, indirectSize_eq h level, Geometry.cap_treeShape, Geometry.cap_treeShape,
      ← h, pow_succ]
    simp only [Geometry.fanout, geometry]
    ring

/-- The block count of a level is that of its full trees. -/
theorem indirectBlock_eq (h : fs.geometry = G) (hG : G.Sound) :
    ∀ level, fs.indirectBlock level = (G.treeShape level).total (G.treeShape level).cap
  | 0 => rfl
  | level + 1 => by
    have hpos : (Shape.concat (fun _ => G.treeShape level) (List.range G.fanout)).cap ≠ 0 :=
      (hG.cap_pos (level + 1)).ne'
    rw [indirectBlock, indirectBlock_eq h hG level, Geometry.treeShape, Shape.cap_wrap,
      Shape.total_wrap _ hpos, Shape.total_concat_const, List.length_range, ← h]
    simp only [Geometry.fanout, geometry]
    omega

/-- An array element is the block number at its place. -/
theorem toNat_pointers (h : fs.geometry = G) (b : UInt32) {i : Nat}
    (hi : i < G.fanout) : (fs.pointers b i).toNat = G.pointer fs.part b.toNat i := by
  have hlt := Bytes.word_lt fs.part (b.toNat * fs.blockSize + 4 * i) 4
  rw [Geometry.pointer, if_pos hi, ← h]
  simp only [pointers, geometry, UInt32.toNat_ofNat']
  exact Nat.mod_eq_of_lt hlt

theorem pointer_writePointers (h : fs.geometry = G) (hG : G.Sound) (b : UInt32)
    (blocks : Nat → UInt32) {i : Nat} (hi : i < G.fanout) :
    G.pointer (fs.writePointers b blocks).part b.toNat i = (blocks i).toNat := by
  have hB : fs.blockSize = G.blockSize := congrArg Geometry.blockSize h
  have := hG.blockSize_eq
  rw [Geometry.pointer, if_pos hi, writePointers]
  simp only [hB]
  rw [Bytes.word_blit_same (by omega), Bytes.word_words]
  exact Nat.mod_eq_of_lt (blocks i).toNat_lt

end FS

end SupOS.Ext2
