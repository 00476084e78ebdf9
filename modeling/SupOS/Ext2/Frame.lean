import SupOS.Ext2.Accounting
import SupOS.Ext2.Tree

/-! What the allocation and the release of blocks, and writes to blocks and inodes, leave as it
was. -/

namespace SupOS.Ext2

open Lib

/-- The areas that change when blocks are allocated or freed. -/
def Area.Volatile : Area → Prop
  | superBlock | descriptors | blockBitmap _ => True
  | _ => False

namespace Geometry

/-- `M` holds the blocks that are not for the data of inodes: those with metadata, and any others
that are set apart. -/
structure Metadata (G : Geometry) (M : Nat → Prop) : Prop where
  apart : ∀ b < G.blocksCount, ¬M b → ∀ A, G.Exists A → ∀ i < G.blockSize,
    ¬G.In A (b * G.blockSize + i)

def Volatile (G : Geometry) (a : Nat) : Prop := ∃ A : Area, A.Volatile ∧ G.Exists A ∧ G.In A a

def InBlock (G : Geometry) (b a : Nat) : Prop :=
  b * G.blockSize ≤ a ∧ a < b * G.blockSize + G.blockSize

/-- Block `b` may belong to an inode. -/
structure Owned (G : Geometry) (M : Nat → Prop) (m : Bytes) (b : Nat) : Prop where
  lt : b < G.blocksCount
  data : ¬M b
  used : G.used m b = true

/-- The blocks `bs` may belong to inodes, each once. -/
structure Held (G : Geometry) (M : Nat → Prop) (m : Bytes) (bs : List Nat) : Prop where
  nodup : bs.Nodup
  owned : ∀ b ∈ bs, G.Owned M m b

/-- The bitmaps are the same in `m` and `m'`. -/
def SameBitmaps (G : Geometry) (m m' : Bytes) : Prop :=
  ∀ A : Area, A.IsBitmap → G.Exists A → ∀ a, G.In A a → m' a = m a

variable {G : Geometry} {M : Nat → Prop} {m m' : Bytes}

theorem InBlock.unique {b b' a : Nat} (h : G.InBlock b a) (h' : G.InBlock b' a) : b = b' := by
  obtain ⟨hle, hlt⟩ := h
  obtain ⟨hle', hlt'⟩ := h'
  rcases Nat.lt_trichotomy b b' with hb | hb | hb
  · have := Nat.mul_le_mul_right G.blockSize (Nat.succ_le_of_lt hb)
    rw [Nat.succ_mul] at this
    omega
  · exact hb
  · have := Nat.mul_le_mul_right G.blockSize (Nat.succ_le_of_lt hb)
    rw [Nat.succ_mul] at this
    omega

theorem inBlock_offset {b i : Nat} (hi : i < G.blockSize) : G.InBlock b (b * G.blockSize + i) :=
  ⟨by omega, by omega⟩

theorem Metadata.not_in (hM : G.Metadata M) {b a : Nat} (hb : b < G.blocksCount) (hd : ¬M b)
    (ha : G.InBlock b a) {A : Area} (hA : G.Exists A) : ¬G.In A a := by
  have := hM.apart b hb hd A hA (a - b * G.blockSize) (by
    obtain ⟨hle, hlt⟩ := ha; omega)
  rwa [Nat.add_sub_cancel' ha.1] at this

theorem Held.append_left {bs bs' : List Nat} (h : G.Held M m (bs ++ bs')) :
    G.Held M m bs :=
  ⟨(List.nodup_append.mp h.nodup).1, fun b hb => h.owned b (List.mem_append_left _ hb)⟩

theorem Held.append_right {bs bs' : List Nat} (h : G.Held M m (bs ++ bs')) :
    G.Held M m bs' :=
  ⟨(List.nodup_append.mp h.nodup).2.1, fun b hb => h.owned b (List.mem_append_right _ hb)⟩

theorem Held.disjoint {bs bs' : List Nat} (h : G.Held M m (bs ++ bs')) {b : Nat}
    (hb : b ∈ bs) : b ∉ bs' := fun hb' => (List.nodup_append.mp h.nodup).2.2 b hb b hb' rfl

theorem Held.perm {bs bs' : List Nat} (h : G.Held M m bs) (hp : bs.Perm bs') :
    G.Held M m bs' :=
  ⟨hp.nodup_iff.mp h.nodup, fun b hb => h.owned b (hp.mem_iff.mpr hb)⟩

namespace SameBitmaps

theorem bitIn (h : G.SameBitmaps m m') {A : Area} (hA : A.IsBitmap) (hE : G.Exists A) {i : Nat}
    (hi : i < 8 * G.blockSize) : G.bitIn m' A i = G.bitIn m A i :=
  Bytes.bit_congr (h A hA hE _ (In.of_bitmap hA (by omega)))

theorem padded (h : G.SameBitmaps m m') (hP : G.Padded m) : G.Padded m' where
  block g hg i hi hpad := (h.bitIn (A := .blockBitmap g) trivial hg hi).trans
    (hP.block g hg i hi hpad)
  inode g hg i hi hpad := (h.bitIn (A := .inodeBitmap g) trivial hg hi).trans
    (hP.inode g hg i hi hpad)

theorem used (h : G.SameBitmaps m m') (hG : G.Sound) {b : Nat} (hb : b < G.blocksCount) :
    G.used m' b = G.used m b :=
  h.bitIn (A := .blockBitmap _) trivial (hG.group_lt hb)
    (lt_of_lt_of_le (Nat.mod_lt _ hG.blocksPerGroup_pos) hG.blocksPerGroup_le)

theorem zeroCount (h : G.SameBitmaps m m') {g : Nat} (hg : g < G.nbBgd) :
    G.zeroCount m' (.blockBitmap g) = G.zeroCount m (.blockBitmap g) :=
  congrArg Finset.card (Bytes.zeros_congr fun _ hi =>
    h.bitIn (A := .blockBitmap g) trivial hg hi)

end SameBitmaps

theorem Took.used (ht : G.Took m m' (.blockBitmap g) k) (hG : G.Sound)
    (hk : k < G.blocksPerGroup) {b : Nat} (hb : b < G.blocksCount) :
    G.used m' b = (G.used m b || decide (b = G.blocksPerGroup * g + k)) := by
  have hmod : b % G.blocksPerGroup < G.blocksPerGroup := Nat.mod_lt _ hG.blocksPerGroup_pos
  refine (ht.bits (.blockBitmap _) (hG.group_lt hb) trivial _ (lt_of_lt_of_le hmod hG.blocksPerGroup_le)).trans ?_
  congr 1
  refine decide_eq_decide.mpr ?_
  rw [Area.blockBitmap.injEq, ← number_eq_iff hmod hk, Nat.div_add_mod]

theorem Dropped.used {b0 : Nat} (hd : G.Dropped m m' (.blockBitmap (b0 / G.blocksPerGroup))
      (b0 % G.blocksPerGroup)) (hG : G.Sound) {b : Nat} (hb : b < G.blocksCount) :
    G.used m' b = (G.used m b && !decide (b = b0)) := by
  have hmod : b % G.blocksPerGroup < G.blocksPerGroup := Nat.mod_lt _ hG.blocksPerGroup_pos
  have hmod0 : b0 % G.blocksPerGroup < G.blocksPerGroup := Nat.mod_lt _ hG.blocksPerGroup_pos
  refine (hd.bits (.blockBitmap _) (hG.group_lt hb) trivial _ (lt_of_lt_of_le hmod hG.blocksPerGroup_le)).trans ?_
  congr 2
  refine decide_eq_decide.mpr ?_
  rw [Area.blockBitmap.injEq, ← number_eq_iff hmod hmod0, Nat.div_add_mod, Nat.div_add_mod]

end Geometry

namespace FS

variable {G : Geometry} {M : Nat → Prop} {fs fs' fs'' : FS} {fresh fresh' freed freed' touched
  touched' : List Nat}

/-- A file system of geometry `G` whose blocks in `M` are marked used. -/
structure Fit (fs : FS) (G : Geometry) (M : Nat → Prop) : Prop where
  geometry : fs.geometry = G
  padded : G.Padded fs.part
  reserved : ∀ b < G.blocksCount, M b → G.used fs.part b = true

/-- The number of blocks that `getNewBlock` can give out: in each group those that are counted as
free and have a zero bit. -/
def available (fs : FS) : Nat :=
  ∑ g ∈ Finset.range fs.nbBgd, min (fs.blockCount g) (fs.geometry.zeroCount fs.part (.blockBitmap g))

/-- `fs'` has the blocks `fresh` allocated, and other bytes only in the blocks `touched`. -/
structure Grown (fs fs' : FS) (G : Geometry) (M : Nat → Prop) (fresh touched : List Nat) : Prop where
  fit : fs'.Fit G M
  keeps : ∀ a, ¬G.Volatile a → (∀ b ∈ touched, ¬G.InBlock b a) → fs'.part a = fs.part a
  used : ∀ b < G.blocksCount, G.used fs'.part b = (G.used fs.part b || decide (b ∈ fresh))
  lt : ∀ b ∈ fresh, b < G.blocksCount
  free : ∀ b ∈ fresh, G.used fs.part b = false
  nodup : fresh.Nodup
  available : fs'.available + fresh.length = fs.available

/-- The counts of free blocks have gone up by the blocks `freed`, each in its group. -/
structure Credited (fs fs' : FS) (G : Geometry) (freed : List Nat) : Prop where
  total : fs'.sb.freeBlocksCount = fs.sb.freeBlocksCount + UInt32.ofNat freed.length
  group : ∀ g, (fs'.bgd g).freeBlocksCount = (fs.bgd g).freeBlocksCount +
    UInt16.ofNat (freed.countP fun b => b / G.blocksPerGroup = g)

/-- `fs'` has the blocks `freed` free again, and other bytes only in the blocks `touched`. -/
structure Shrunk (fs fs' : FS) (G : Geometry) (M : Nat → Prop) (freed touched : List Nat) : Prop where
  fit : fs'.Fit G M
  keeps : ∀ a, ¬G.Volatile a → (∀ b ∈ touched, ¬G.InBlock b a) → fs'.part a = fs.part a
  used : ∀ b < G.blocksCount, G.used fs'.part b = (G.used fs.part b && !decide (b ∈ freed))
  credited : fs.Credited fs' G freed

namespace Grown

theorem refl (hF : fs.Fit G M) : fs.Grown fs G M [] [] where
  fit := hF
  keeps _ _ _ := rfl
  used _ _ := by simp
  lt _ h := nomatch h
  free _ h := nomatch h
  nodup := List.nodup_nil
  available := rfl

theorem trans (h : fs.Grown fs' G M fresh touched) (h' : fs'.Grown fs'' G M fresh' touched') :
    fs.Grown fs'' G M (fresh ++ fresh') (touched ++ touched') where
  fit := h'.fit
  keeps a hv ht := (h'.keeps a hv fun b hb => ht b (List.mem_append_right _ hb)).trans
    (h.keeps a hv fun b hb => ht b (List.mem_append_left _ hb))
  used b hb := by rw [h'.used b hb, h.used b hb, Bool.or_assoc, ← Bool.decide_or]; simp
  lt b hb := (List.mem_append.mp hb).elim (h.lt b) (h'.lt b)
  free b hb := by
    rcases List.mem_append.mp hb with hb | hb
    · exact h.free b hb
    · have := h'.free b hb
      rw [h.used b (h'.lt b hb), Bool.or_eq_false_iff] at this
      exact this.1
  nodup := by
    refine List.nodup_append.mpr ⟨h.nodup, h'.nodup, fun b hb b' hb' heq => ?_⟩
    subst heq
    have := h'.free b hb'
    rw [h.used b (h.lt b hb)] at this
    simp [hb] at this
  available := by
    have := h.available
    have := h'.available
    rw [List.length_append]
    omega

theorem mono (h : fs.Grown fs' G M fresh touched) (hp : fresh.Perm fresh')
    (ht : ∀ b ∈ touched, b ∈ touched') : fs.Grown fs' G M fresh' touched' where
  fit := h.fit
  keeps a hv hn := h.keeps a hv fun b hb => hn b (ht b hb)
  used b hb := by rw [h.used b hb]; simp only [hp.mem_iff]
  lt b hb := h.lt b (hp.mem_iff.mpr hb)
  free b hb := h.free b (hp.mem_iff.mpr hb)
  nodup := hp.nodup_iff.mp h.nodup
  available := hp.length_eq ▸ h.available

theorem owned (h : fs.Grown fs' G M fresh touched) {b : Nat} (hb : G.Owned M fs.part b) :
    G.Owned M fs'.part b :=
  ⟨hb.lt, hb.data, by rw [h.used b hb.lt, hb.used, Bool.true_or]⟩

/-- Fresh blocks are no metadata, for all metadata is marked used. -/
theorem fresh_owned (h : fs.Grown fs' G M fresh touched) (hF : fs.Fit G M) {b : Nat}
    (hb : b ∈ fresh) : G.Owned M fs'.part b where
  lt := h.lt b hb
  data hM := by
    have := h.free b hb
    rw [hF.reserved b (h.lt b hb) hM] at this
    exact nomatch this
  used := by rw [h.used b (h.lt b hb)]; simp [hb]

theorem not_fresh (h : fs.Grown fs' G M fresh touched) {b : Nat} (hb : G.Owned M fs.part b) :
    b ∉ fresh := fun hmem => by
  have := h.free b hmem
  rw [hb.used] at this
  exact nomatch this

theorem same (h : fs.Grown fs' G M fresh touched) (hM : G.Metadata M) {b : Nat}
    (hb : b < G.blocksCount) (hd : ¬M b) (ht : b ∉ touched) : G.Same fs.part fs'.part b :=
  fun _ hi => h.keeps _
    (fun ⟨_, _, hE, ha⟩ => hM.not_in hb hd (Geometry.inBlock_offset hi) hE ha)
    (fun _ hb' ha => ht ((Geometry.inBlock_offset hi).unique ha ▸ hb'))

/-- Blocks that were held and blocks that are fresh are held together. -/
theorem held (h : fs.Grown fs' G M fresh touched) (hF : fs.Fit G M) {bs : List Nat}
    (hb : G.Held M fs.part bs) : G.Held M fs'.part (bs ++ fresh) where
  nodup := List.nodup_append.mpr ⟨hb.nodup, h.nodup, fun b hmem b' hb' heq =>
    h.not_fresh (hb.owned b hmem) (heq ▸ hb')⟩
  owned b hmem := by
    rcases List.mem_append.mp hmem with hmem | hmem
    · exact h.owned (hb.owned b hmem)
    · exact h.fresh_owned hF hmem

end Grown

namespace Credited

/-- Counts that are the same. -/
theorem of_same (hsb : fs'.sb = fs.sb) (hbgd : fs'.bgd = fs.bgd) : fs.Credited fs' G [] where
  total := by rw [hsb]; exact (UInt32.add_zero _).symm
  group g := by rw [hbgd]; exact (UInt16.add_zero _).symm

theorem trans (h : fs.Credited fs' G freed) (h' : fs'.Credited fs'' G freed') :
    fs.Credited fs'' G (freed ++ freed') where
  total := by
    rw [h'.total, h.total, List.length_append, UInt32.ofNat_add, UInt32.add_assoc]
  group g := by
    rw [h'.group, h.group, List.countP_append, UInt16.ofNat_add, UInt16.add_assoc]

theorem perm (h : fs.Credited fs' G freed) (hp : freed.Perm freed') : fs.Credited fs' G freed' where
  total := by rw [h.total, hp.length_eq]
  group g := by rw [h.group, hp.countP_eq]

end Credited

namespace Shrunk

theorem refl (hF : fs.Fit G M) : fs.Shrunk fs G M [] [] where
  fit := hF
  keeps _ _ _ := rfl
  used _ _ := by simp
  credited := .of_same rfl rfl

theorem trans (h : fs.Shrunk fs' G M freed touched) (h' : fs'.Shrunk fs'' G M freed' touched') :
    fs.Shrunk fs'' G M (freed ++ freed') (touched ++ touched') where
  fit := h'.fit
  keeps a hv ht := (h'.keeps a hv fun b hb => ht b (List.mem_append_right _ hb)).trans
    (h.keeps a hv fun b hb => ht b (List.mem_append_left _ hb))
  used b hb := by
    rw [h'.used b hb, h.used b hb, Bool.and_assoc]
    by_cases h1 : b ∈ freed <;> by_cases h2 : b ∈ freed' <;> simp [h1, h2]
  credited := h.credited.trans h'.credited

theorem mono (h : fs.Shrunk fs' G M freed touched) (hp : freed.Perm freed')
    (ht : ∀ b ∈ touched, b ∈ touched') : fs.Shrunk fs' G M freed' touched' where
  fit := h.fit
  keeps a hv hn := h.keeps a hv fun b hb => hn b (ht b hb)
  used b hb := by rw [h.used b hb]; simp only [hp.mem_iff]
  credited := h.credited.perm hp

theorem owned (h : fs.Shrunk fs' G M freed touched) {b : Nat} (hb : G.Owned M fs.part b)
    (hf : b ∉ freed) : G.Owned M fs'.part b :=
  ⟨hb.lt, hb.data, by rw [h.used b hb.lt, hb.used]; simp [hf]⟩

theorem same (h : fs.Shrunk fs' G M freed touched) (hM : G.Metadata M) {b : Nat}
    (hb : b < G.blocksCount) (hd : ¬M b) (ht : b ∉ touched) : G.Same fs.part fs'.part b :=
  fun _ hi => h.keeps _
    (fun ⟨_, _, hE, ha⟩ => hM.not_in hb hd (Geometry.inBlock_offset hi) hE ha)
    (fun _ hb' ha => ht ((Geometry.inBlock_offset hi).unique ha ▸ hb'))

end Shrunk

/-- Bytes written inside a block of data. -/
theorem blit_sameBitmaps (hM : G.Metadata M) {m : Bytes} {b a n : Nat} {buf : Bytes}
    (hb : b < G.blocksCount) (hd : ¬M b) (ha : b * G.blockSize ≤ a)
    (hn : a + n ≤ b * G.blockSize + G.blockSize) : G.SameBitmaps m (m.blit a n buf) := by
  intro A _ hE a' ha'
  refine Bytes.blit_outside ?_
  by_contra hin
  exact hM.not_in hb hd ⟨by omega, by omega⟩ hE ha'

theorem available_part (part : Bytes) (h : fs.geometry.SameBitmaps fs.part part) :
    { fs with part }.available = fs.available := by
  simp only [FS.available, geometry_part]
  refine Finset.sum_congr rfl fun g hg => ?_
  rw [h.zeroCount (Finset.mem_range.mp hg)]
  rfl

theorem blit_grown (hF : fs.Fit G M) (hG : G.Sound) (hM : G.Metadata M) {b a n : Nat} (buf : Bytes)
    (hb : G.Owned M fs.part b) (ha : b * G.blockSize ≤ a)
    (hn : a + n ≤ b * G.blockSize + G.blockSize) :
    fs.Grown { fs with part := fs.part.blit a n buf } G M [] [b] := by
  have hbits : G.SameBitmaps fs.part (fs.part.blit a n buf) :=
    blit_sameBitmaps hM hb.lt hb.data ha hn
  exact {
    fit := ⟨hF.geometry, hbits.padded hF.padded, fun b' hb' hMb => by
      rw [hbits.used hG hb']; exact hF.reserved b' hb' hMb⟩
    keeps := fun a' _ ht => by
      refine Bytes.blit_outside ?_
      by_contra hin
      exact ht b (List.mem_singleton.mpr rfl) ⟨by omega, by omega⟩
    used := fun b' hb' => by rw [hbits.used hG hb']; simp
    lt := fun _ h => nomatch h
    free := fun _ h => nomatch h
    nodup := List.nodup_nil
    available := available_part _ (hF.geometry ▸ hbits) }

theorem blit_shrunk (hF : fs.Fit G M) (hG : G.Sound) (hM : G.Metadata M) {b a n : Nat}
    (buf : Bytes) (hb : G.Owned M fs.part b) (ha : b * G.blockSize ≤ a)
    (hn : a + n ≤ b * G.blockSize + G.blockSize) :
    fs.Shrunk { fs with part := fs.part.blit a n buf } G M [] [b] :=
  have h := blit_grown hF hG hM buf hb ha hn
  ⟨h.fit, h.keeps, fun b' hb' => by simp [h.used b' hb'], .of_same rfl rfl⟩

theorem Volatile_of_bitmap {A : Area} {a : Nat} (hA : A.Volatile) (hE : G.Exists A)
    (ha : ¬G.Volatile a) : ¬G.In A a := fun h => ha ⟨A, hA, hE, h⟩

/-- Taking a block makes one block fewer available. -/
theorem TookBlock.available {g k : Nat} (h : fs.TookBlock fs' g k) :
    fs'.available + 1 = fs.available := by
  have hnb : fs'.nbBgd = fs.nbBgd := congrArg Geometry.nbBgd h.geometry
  simp only [FS.available, h.geometry, hnb]
  refine Geometry.sum_range_succ_at h.group ?_ fun g' hg' hne => ?_
  · have hzero := h.took.zeroCount
    have hcount : fs'.blockCount g + 1 = fs.blockCount g := by
      simp only [blockCount, h.bgd, Function.update_self]
      exact toNat_sub_one16 h.counted
    omega
  · have hother : Area.blockBitmap g' ≠ .blockBitmap g := fun heq => hne (Area.blockBitmap.inj heq)
    rw [h.took.zeroCount_other (show fs.geometry.Exists (.blockBitmap g') from hg') trivial hother]
    simp only [blockCount, h.bgd, Function.update_of_ne hne]

/-- What `getNewBlock` does, or why it fails. -/
theorem getNewBlock_grown (hF : fs.Fit G M) (hG : G.Sound) (nearInode : Nat) :
    Ensures (fs.getNewBlock nearInode)
      (fun e => e = .bsod "No space on disk :-(" ∧ fs.available = 0)
      (fun r => fs.Grown r.2 G M [r.1] []) := by
  have hgeo := hF.geometry
  refine (fs.getNewBlock_spec (hgeo ▸ hG) nearInode).mono (fun e he => ⟨he.1, ?_⟩) ?_
  · refine Finset.sum_eq_zero fun g hg => ?_
    rcases he.2 g (Finset.mem_range.mp hg) with h0 | hnone
    · rw [blockCount, h0]; simp
    · have hzeros := Bytes.firstZero_none_zeros hnone
      rw [Geometry.zeroCount, show fs.part.view (fs.geometry.start (.blockBitmap g)) =
        fs.bitmap (fs.bgd g).blockBitmap from rfl, show fs.geometry.blockSize = fs.blockSize from rfl,
        hzeros]
      simp
  · rintro ⟨b, fs'⟩ ⟨g, k, ht, hnum⟩
    have htook : G.Took fs.part fs'.part (.blockBitmap g) k := hgeo ▸ ht.took
    obtain ⟨hk, hlt⟩ := htook.block_lt hF.padded
    have hper : fs.sb.blocksPerGroup.toNat = G.blocksPerGroup :=
      congrArg Geometry.blocksPerGroup hgeo
    rw [hper, u32_of_lt (hlt.trans hG.blocksCount_lt)] at hnum
    simp only at hnum
    subst hnum
    have hbits : ∀ {A : Area} {i : Nat}, A.IsBitmap → G.Exists A → i < 8 * G.blockSize →
        G.bitIn fs.part A i = true → G.bitIn fs'.part A i = true := fun hA hE hi hset => by
      rw [htook.bits _ hE hA _ hi, hset, Bool.true_or]
    exact {
      fit := {
        geometry := ht.geometry.trans hgeo
        padded := {
          block := fun g' hg' i hi hpad =>
            hbits (A := .blockBitmap g') trivial hg' hi (hF.padded.block g' hg' i hi hpad)
          inode := fun g' hg' i hi hpad =>
            hbits (A := .inodeBitmap g') trivial hg' hi (hF.padded.inode g' hg' i hi hpad) }
        reserved := fun b hb hMb => by
          rw [htook.used hG hk hb, hF.reserved b hb hMb, Bool.true_or] }
      keeps := fun a hv _ => htook.keeps a
        (Volatile_of_bitmap (A := .superBlock) trivial trivial hv)
        (Volatile_of_bitmap (A := .descriptors) trivial trivial hv)
        (Volatile_of_bitmap (A := .blockBitmap g) trivial htook.area hv)
      used := fun b hb => by rw [htook.used hG hk hb]; simp
      lt := fun b hb => by rwa [List.mem_singleton.mp hb]
      free := fun b hb => by
        obtain ⟨hdiv, hmod⟩ := Geometry.div_mod_number (g := g) hk
        rw [List.mem_singleton.mp hb, Geometry.used, hdiv, hmod]
        exact htook.free
      nodup := List.nodup_singleton _
      available := ht.available }

/-- `freeBlock` adds one to the count of the group and to that of the superblock. -/
theorem DroppedBlock.credited {b k : Nat} (h : fs.DroppedBlock fs' (b / G.blocksPerGroup) k) :
    fs.Credited fs' G [b] where
  total := by rw [h.sb]; rfl
  group g := by
    rw [h.bgd]
    by_cases hg : g = b / G.blocksPerGroup
    · rw [hg, Function.update_self, List.countP_singleton, if_pos (decide_eq_true rfl)]
      rfl
    · rw [Function.update_of_ne hg, List.countP_singleton,
        if_neg (by simpa using fun heq => hg heq.symm)]
      exact (UInt16.add_zero _).symm

/-- `freeBlock` frees a block that is marked used. -/
theorem freeBlock_shrunk (hF : fs.Fit G M) (hG : G.Sound) {b : Nat} (hb : G.Owned M fs.part b) :
    ∃ fs', fs.freeBlock b = .ok fs' ∧ fs.Shrunk fs' G M [b] [] := by
  have hgeo := hF.geometry
  have hper : fs.sb.blocksPerGroup.toNat = G.blocksPerGroup :=
    congrArg Geometry.blocksPerGroup hgeo
  obtain ⟨fs', heq, hd⟩ := fs.freeBlock_spec (hgeo ▸ hG)
    (by rw [hper]; exact hgeo ▸ hG.group_lt hb.lt) (hgeo ▸ hb.used)
  rw [hper] at hd
  have hdrop := hd.dropped
  rw [hgeo] at hdrop
  refine ⟨fs', heq, {
    fit := {
      geometry := hd.geometry.trans hgeo
      padded := {
        block := fun g' hg' i hi hpad => ?_
        inode := fun g' hg' i hi hpad => ?_ }
      reserved := fun b' hb' hMb => ?_ }
    keeps := fun a hv _ => hdrop.keeps a
      (Volatile_of_bitmap (A := .superBlock) trivial trivial hv)
      (Volatile_of_bitmap (A := .descriptors) trivial trivial hv)
      (Volatile_of_bitmap (A := .blockBitmap _) trivial hdrop.area hv)
    used := fun b' hb' => by rw [hdrop.used hG hb']; simp
    credited := hd.credited }⟩
  · refine (hdrop.bits (.blockBitmap g') hg' trivial i hi).trans ?_
    rw [show G.bitIn fs.part (.blockBitmap g') i = true from hF.padded.block g' hg' i hi hpad]
    simp only [Bool.true_and, Bool.not_eq_true', decide_eq_false_iff_not, Area.blockBitmap.injEq]
    rintro ⟨rfl, rfl⟩
    have hmod : b % G.blocksPerGroup < G.blocksPerGroup := Nat.mod_lt _ hG.blocksPerGroup_pos
    rw [Nat.div_add_mod] at hpad
    have := hb.lt
    omega
  · refine (hdrop.bits (.inodeBitmap g') hg' trivial i hi).trans ?_
    rw [show G.bitIn fs.part (.inodeBitmap g') i = true from hF.padded.inode g' hg' i hi hpad]
    simp
  · rw [hdrop.used hG hb', hF.reserved b' hb' hMb]
    simp only [Bool.true_and, Bool.not_eq_true', decide_eq_false_iff_not]
    rintro rfl
    exact hb.data hMb

end FS

end SupOS.Ext2
