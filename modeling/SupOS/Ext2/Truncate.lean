import SupOS.Ext2.Files

/-! What `resizerec` does to a tree of blocks: the blocks behind the new end are free again, with
the indirect blocks that only they needed, and the others are as they were. -/

namespace SupOS.Ext2

open Lib SupOS.Ext2.Geometry

variable {G : Geometry} {M : Nat → Prop} {S T : Shape}

/-- The tree `P` with `k` blocks of data in `fs` has the first `k'` of them left in `fs'`, and the
others are free. -/
def Cut (G : Geometry) (M : Nat → Prop) (P : BlockMap G.Same S) (k k' : Nat) (fs fs' : FS) :
    Prop :=
  ∃ leaves inner, P.leaves fs.part k = P.leaves fs'.part k' ++ leaves ∧
    P.inner fs.part k = P.inner fs'.part k' ++ inner ∧
    fs.Shrunk fs' G M (leaves ++ inner) (P.inner fs.part k)

variable {P : BlockMap G.Same S} {Q : BlockMap G.Same T} {k k' : Nat} {fs fs1 fs2 : FS}

theorem Cut.refl (hF : fs.Fit G M) : Cut G M P k k fs fs :=
  ⟨[], [], by simp, by simp, (FS.Shrunk.refl hF).mono .rfl fun _ h => nomatch h⟩

theorem Cut.fit (h : Cut G M P k k' fs fs1) : fs1.Fit G M := by
  obtain ⟨_, _, -, -, hs⟩ := h
  exact hs.fit

/-- The blocks of a tree are those that are left and those that are free now. -/
theorem Cut.nodes (h : Cut G M P k k' fs fs1) :
    ∃ freed, fs.Shrunk fs1 G M freed (P.inner fs.part k) ∧
      (P.nodes fs.part k).Perm (P.nodes fs1.part k' ++ freed) := by
  obtain ⟨leaves, inner, hl, hi, hs⟩ := h
  refine ⟨leaves ++ inner, hs, ?_⟩
  simp only [BlockMap.nodes]
  rw [hl, hi, List.append_assoc, List.append_assoc]
  refine List.Perm.append_left _ (List.perm_append_comm.trans ?_)
  rw [List.append_assoc]

/-- A held block outside the tree stays as it was and outside. -/
theorem Cut.other (h : Cut G M P k k' fs fs1) (hM : G.Metadata M) {b : Nat}
    (hb : G.Owned M fs.part b) (hn : b ∉ P.nodes fs.part k) :
    G.Owned M fs1.part b ∧ b ∉ P.nodes fs1.part k' ∧ G.Same fs.part fs1.part b := by
  obtain ⟨freed, hs, hp⟩ := h.nodes
  rw [hp.mem_iff, List.mem_append, not_or] at hn
  refine ⟨hs.owned hb hn.2, hn.1, hs.same hM hb.lt hb.data fun hi => ?_⟩
  exact (hp.mem_iff.not.mpr (by simpa using hn)) (List.mem_append_left _ hi)

theorem Cut.held (h : Cut G M P k k' fs fs1) (hP : G.Held M fs.part (P.nodes fs.part k)) :
    G.Held M fs1.part (P.nodes fs1.part k') := by
  obtain ⟨freed, hs, hp⟩ := h.nodes
  have hall := hP.perm hp
  exact ⟨hall.append_left.nodup, fun b hb =>
    hs.owned (hall.owned b (List.mem_append_left _ hb)) (hall.disjoint hb)⟩

/-- The blocks of data that are left have their bytes. -/
theorem Cut.same_leaves (h : Cut G M P k k' fs fs1) (hM : G.Metadata M)
    (hP : G.Held M fs.part (P.nodes fs.part k)) :
    ∀ b ∈ P.leaves fs1.part k', G.Same fs.part fs1.part b := by
  obtain ⟨leaves, inner, hl, hi, hs⟩ := h
  intro b hb
  have hmem : b ∈ P.leaves fs.part k := by rw [hl]; exact List.mem_append_left _ hb
  have hown := hP.owned b (List.mem_append_right _ hmem)
  exact hs.same hM hown.lt hown.data fun hin => hP.disjoint hin hmem

/-- Another tree of held blocks while `P` is cut. -/
theorem Cut.frame (h : Cut G M P k k' fs fs1) (hM : G.Metadata M) {k2 : Nat} (hk2 : k2 ≤ T.cap)
    (hheld : G.Held M fs.part (P.nodes fs.part k ++ Q.nodes fs.part k2)) :
    Q.leaves fs1.part k2 = Q.leaves fs.part k2 ∧ Q.inner fs1.part k2 = Q.inner fs.part k2 ∧
      G.Held M fs1.part (P.nodes fs1.part k' ++ Q.nodes fs1.part k2) := by
  have hother : ∀ b ∈ Q.nodes fs.part k2, G.Owned M fs1.part b ∧ b ∉ P.nodes fs1.part k' ∧
      G.Same fs.part fs1.part b := fun b hb =>
    h.other hM (hheld.append_right.owned b hb) fun hb' => hheld.disjoint hb' hb
  have hsame : ∀ b ∈ Q.inner fs.part k2, G.Same fs.part fs1.part b := fun b hb =>
    (hother b (List.mem_append_left _ hb)).2.2
  obtain ⟨hi, hl⟩ := Q.congr _ _ k2 hsame hk2
  have hPheld := h.held hheld.append_left
  refine ⟨hl, hi, ?_⟩
  rw [Q.nodes_congr hsame hk2]
  refine ⟨List.nodup_append.mpr ⟨hPheld.nodup, hheld.append_right.nodup, ?_⟩, fun b hb =>
    (List.mem_append.mp hb).elim (hPheld.owned b) fun hb => (hother b hb).1⟩
  rintro b hb b' hb' rfl
  exact (hother b hb').2.1 hb

/-- A cut of a tree and then of the one behind it. -/
theorem Cut.append (hM : G.Metadata M) (hk : k ≤ (S.append T).cap) (hle : k' ≤ k)
    (hheld : G.Held M fs.part ((P.append Q).nodes fs.part k))
    (hP : Cut G M P (min k S.cap) (min k' S.cap) fs fs1)
    (hQ : Cut G M Q (k - S.cap) (k' - S.cap) fs1 fs2) :
    Cut G M (P.append Q) k k' fs fs2 := by
  rw [Shape.cap_append] at hk
  obtain ⟨hQl, hQi, hheld1⟩ := hP.frame hM (Q := Q) (by omega)
    (hheld.perm (P.nodes_append Q fs.part k))
  obtain ⟨hPl, hPi, -⟩ := hQ.frame hM (Q := P) (Nat.min_le_right k' S.cap)
    (hheld1.perm List.perm_append_comm)
  obtain ⟨l1, i1, hl1, hi1, hs1⟩ := hP
  obtain ⟨l2, i2, hl2, hi2, hs2⟩ := hQ
  -- Nothing is left of the second tree, or nothing of the first one is freed.
  have hnone : k' - S.cap = 0 ∨ (l1 = [] ∧ i1 = []) := by
    rcases Nat.eq_zero_or_pos (k' - S.cap) with h | h
    · exact .inl h
    · right
      have h1 := congrArg List.length hl1
      have h2 := congrArg List.length hi1
      rw [List.length_append, P.length_leaves _ _ (Nat.min_le_right ..),
        P.length_leaves _ _ (Nat.min_le_right ..)] at h1
      rw [List.length_append, P.length_inner _ _ (Nat.min_le_right ..),
        P.length_inner _ _ (Nat.min_le_right ..), Nat.min_eq_right (show S.cap ≤ k' by omega),
        Nat.min_eq_right (show S.cap ≤ k by omega)] at h2
      exact ⟨List.eq_nil_of_length_eq_zero (by omega), List.eq_nil_of_length_eq_zero (by omega)⟩
  refine ⟨l1 ++ l2, i1 ++ i2, ?_, ?_, ?_⟩
  · show P.leaves fs.part (min k S.cap) ++ Q.leaves fs.part (k - S.cap) =
      P.leaves fs2.part (min k' S.cap) ++ Q.leaves fs2.part (k' - S.cap) ++ (l1 ++ l2)
    rw [hPl, hl1, ← hQl, hl2]
    rcases hnone with h | ⟨rfl, -⟩
    · rw [h, Q.leaves_zero]; simp
    · simp
  · show P.inner fs.part (min k S.cap) ++ Q.inner fs.part (k - S.cap) =
      P.inner fs2.part (min k' S.cap) ++ Q.inner fs2.part (k' - S.cap) ++ (i1 ++ i2)
    rw [hPi, hi1, ← hQi, hi2]
    rcases hnone with h | ⟨-, rfl⟩
    · rw [h, Q.inner_zero]; simp
    · simp
  · refine (hs1.trans hs2).mono ?_ fun b hb => ?_
    · rw [List.append_assoc, List.append_assoc]
      refine List.Perm.append_left _ ?_
      rw [← List.append_assoc, ← List.append_assoc]
      exact List.Perm.append_right _ List.perm_append_comm
    · show b ∈ P.inner fs.part (min k S.cap) ++ Q.inner fs.part (k - S.cap)
      rwa [← hQi]

theorem sub64_of_le {a x : Nat} (hx : x ≤ a) (ha : a < 2 ^ 64) : sub64 a x = a - x := by
  rw [sub64, u64]
  omega

theorem blocksFor_sub (hG : G.Sound) (a x : Nat) :
    G.blocksFor (a - x * G.blockSize) = G.blocksFor a - x := by
  rcases Nat.le_total (x * G.blockSize) a with h | h
  · have := blocksFor_add hG x (a - x * G.blockSize)
    rw [Nat.add_sub_cancel' h] at this
    omega
  · have := (blocksFor_le_iff hG).mpr h
    rw [Nat.sub_eq_zero_of_le h, blocksFor_zero hG]
    omega

/-- The arguments of `resizerec` behind `x` bytes. -/
def ResizeRecArgs.past (args : ResizeRecArgs) (x : Nat) : ResizeRecArgs :=
  { args with sizeAfter := args.sizeAfter - x, sizeBefore := args.sizeBefore - x }

/-- The blocks of data that are left of a tree of shape `S`. -/
def remains (G : Geometry) (S : Shape) (args : ResizeRecArgs) : Nat :=
  min (G.blocksFor args.sizeAfter) S.cap

/-- The tree `P` is ready for `resizerec`: `n` blocks of data from its first one on belong to the
inode, which has `c` blocks in all. -/
structure Cuttable (G : Geometry) (M : Nat → Prop) (P : BlockMap G.Same S) (n c : Nat)
    (args : ResizeRecArgs) : Prop where
  fit : args.fs.Fit G M
  before : args.sizeBefore = n * G.blockSize
  lt : args.sizeBefore < 2 ^ 64
  after : args.sizeAfter ≤ args.sizeBefore
  counted : args.data.blocks.toNat = c * G.sectors
  room : S.total (min n S.cap) ≤ c
  held : G.Held M args.fs.part (P.nodes args.fs.part (min n S.cap))

/-- From `args` to `args'` the blocks of the tree that are behind the new end were freed. -/
structure WasCut (G : Geometry) (M : Nat → Prop) (P : BlockMap G.Same S) (n c : Nat)
    (args args' : ResizeRecArgs) : Prop where
  cut : Cut G M P (min n S.cap) (remains G S args) args.fs args'.fs
  counted : args'.data.blocks.toNat =
    (c - S.total (min n S.cap) + S.total (remains G S args)) * G.sectors
  data : args'.data = { args.data with blocks := args'.data.blocks }
  before : args'.sizeBefore = args.sizeBefore - S.cap * G.blockSize
  after : args'.sizeAfter = args.sizeAfter - S.cap * G.blockSize

variable {n c c' : Nat} {args args1 args2 : ResizeRecArgs}

theorem ResizeRecArgs.advance_eq {x : Nat} (hx : x ≤ args.sizeAfter)
    (h : args.sizeAfter ≤ args.sizeBefore) (hlt : args.sizeBefore < 2 ^ 64) :
    args.advance x = args.past x := by
  rw [advance, past, sub64_of_le hx (by omega), sub64_of_le (by omega) hlt]

theorem Cuttable.remains_le (hG : G.Sound) (h : Cuttable G M P n c args) :
    remains G S args ≤ min n S.cap := by
  have := (blocksFor_le_iff hG).mpr (h.before ▸ h.after)
  rw [remains]
  omega

theorem Cuttable.left (h : Cuttable G M (P.append Q) n c args) : Cuttable G M P n c args := by
  have hmin : min (min n (S.append T).cap) S.cap = min n S.cap := by rw [Shape.cap_append]; omega
  have hroom := h.room
  rw [Shape.total_append, hmin] at hroom
  have hheld := (h.held.perm (P.nodes_append Q _ _)).append_left
  rw [hmin] at hheld
  exact ⟨h.fit, h.before, h.lt, h.after, h.counted, by omega, hheld⟩

theorem Cuttable.right (hM : G.Metadata M) (h : Cuttable G M (P.append Q) n c args)
    (hP : WasCut G M P n c args args1) :
    Cuttable G M Q (n - S.cap) (c - S.total (min n S.cap) + S.total (remains G S args))
      args1 := by
  have hmin : min (min n (S.append T).cap) S.cap = min n S.cap := by rw [Shape.cap_append]; omega
  have hsub : min n (S.append T).cap - S.cap = min (n - S.cap) T.cap := by
    rw [Shape.cap_append]; omega
  have hroom := h.room
  rw [Shape.total_append, hmin, hsub] at hroom
  have hheld := h.held.perm (P.nodes_append Q _ _)
  rw [hmin, hsub] at hheld
  have hbefore := h.before
  have hlt := h.lt
  have hafter := h.after
  exact {
    fit := hP.cut.fit
    before := by rw [hP.before, hbefore, Nat.sub_mul]
    lt := by rw [hP.before]; omega
    after := by rw [hP.before, hP.after]; omega
    counted := hP.counted
    room := by omega
    held := (hP.cut.frame hM (Nat.min_le_right ..) hheld).2.2.append_right }

theorem WasCut.append (hG : G.Sound) (hM : G.Metadata M) (h : Cuttable G M (P.append Q) n c args)
    (hP : WasCut G M P n c args args1)
    (hQ : WasCut G M Q (n - S.cap) (c - S.total (min n S.cap) + S.total (remains G S args)) args1
      args2) : WasCut G M (P.append Q) n c args args2 := by
  have hmin : min (min n (S.append T).cap) S.cap = min n S.cap := by rw [Shape.cap_append]; omega
  have hsub : min n (S.append T).cap - S.cap = min (n - S.cap) T.cap := by
    rw [Shape.cap_append]; omega
  have hleft : min (remains G (S.append T) args) S.cap = remains G S args := by
    rw [remains, remains, Shape.cap_append]; omega
  have hright : remains G (S.append T) args - S.cap = remains G T args1 := by
    rw [remains, remains, hP.after, blocksFor_sub hG, Shape.cap_append]; omega
  have hroom := h.room
  rw [Shape.total_append, hmin, hsub] at hroom
  have hcapB : (S.append T).cap * G.blockSize = S.cap * G.blockSize + T.cap * G.blockSize := by
    rw [Shape.cap_append, Nat.add_mul]
  have hPcut := hP.cut
  have hQcut := hQ.cut
  rw [← hmin, ← hleft] at hPcut
  rw [← hsub, ← hright] at hQcut
  exact {
    cut := hPcut.append hM (Nat.min_le_right ..) (h.remains_le hG) h.held hQcut
    counted := by
      rw [hQ.counted, Shape.total_append, Shape.total_append, hmin, hsub, hleft, hright]
      congr 1
      omega
    data := by rw [hQ.data, hP.data]
    before := by rw [hQ.before, hP.before, hcapB, Nat.sub_sub]
    after := by rw [hQ.after, hP.after, hcapB, Nat.sub_sub] }

/-- No block of the inode is in the tree. -/
theorem WasCut.none (hG : G.Sound) (h : Cuttable G M P n c args) (h0 : args.sizeBefore = 0) :
    WasCut G M P n c args args := by
  have hB := hG.blockSize_pos
  have hafter := h.after
  have hn : n = 0 := by
    have := h.before
    rw [h0] at this
    exact (Nat.mul_eq_zero.mp this.symm).resolve_right (by omega)
  have hleft : remains G S args = 0 := by
    rw [remains, show args.sizeAfter = 0 by omega, blocksFor_zero hG, Nat.zero_min]
  exact {
    cut := by rw [hleft, hn, Nat.zero_min]; exact .refl h.fit
    counted := by rw [hleft, hn, Nat.zero_min, S.total_zero]; exact h.counted
    data := rfl
    before := by omega
    after := by omega }

/-- The tree is in front of the new end. -/
theorem WasCut.pass (hG : G.Sound) (h : Cuttable G M P n c args)
    (hle : S.cap * G.blockSize ≤ args.sizeAfter) :
    WasCut G M P n c args (args.past (S.cap * G.blockSize)) := by
  have hB := hG.blockSize_pos
  have hblocks : S.cap ≤ G.blocksFor args.sizeAfter :=
    Nat.le_of_mul_le_mul_right (hle.trans (le_blocksFor hG _)) hB
  have hn : S.cap ≤ n :=
    Nat.le_of_mul_le_mul_right (hle.trans (h.after.trans_eq h.before)) hB
  have hleft : remains G S args = S.cap := Nat.min_eq_right hblocks
  have hroom := h.room
  rw [Nat.min_eq_right hn] at hroom
  exact {
    cut := by rw [hleft, Nat.min_eq_right hn]; exact .refl h.fit
    counted := by rw [hleft, Nat.min_eq_right hn, Nat.sub_add_cancel hroom]; exact h.counted
    data := rfl
    before := rfl
    after := rfl }

section Slots

variable {ι : Type} {F : ι → Shape} {T : (i : ι) → UInt32 → BlockMap G.Same (F i)}

/-- What `resizerec` leaves of a tree, and what it returns. -/
structure CutSlot (G : Geometry) (M : Nat → Prop) (P : BlockMap G.Same S) (n c : Nat)
    (args : ResizeRecArgs) (res : Bool × ResizeRecArgs) : Prop where
  cut : WasCut G M P n c args res.2
  flag : res.1 = decide (args.sizeAfter = 0)

/-- The arrays `blocks` and `blocks'` have the same trees in a file that has `k` blocks left. -/
def SameTrees (tree : (i : ι) → UInt32 → BlockMap G.Same (F i)) (is : List ι)
    (blocks blocks' : ι → UInt32) (k : Nat) : Prop :=
  ∀ m, (BlockMap.concat (fun i => tree i (blocks' i)) is).leaves m k =
      (BlockMap.concat (fun i => tree i (blocks i)) is).leaves m k ∧
    (BlockMap.concat (fun i => tree i (blocks' i)) is).inner m k =
      (BlockMap.concat (fun i => tree i (blocks i)) is).inner m k

/-- What a loop of `resizerec` leaves: the elements that became 0 are not in use any more. -/
structure CutRow (G : Geometry) (M : Nat → Prop) (tree : (i : ι) → UInt32 → BlockMap G.Same (F i))
    (is : List ι) (blocks : ι → UInt32) (n c : Nat) (args : ResizeRecArgs)
    (res : Bool × ResizeRecArgs × (ι → UInt32)) : Prop where
  cut : WasCut G M (.concat (fun i => tree i (blocks i)) is) n c args res.2.1
  all : args.sizeAfter = 0 → res.1 = true
  part : args.sizeAfter ≠ 0 → is ≠ [] → res.1 = false
  same : SameTrees tree is blocks res.2.2 (remains G (.concat F is) args)
  other : ∀ i, i ∉ is → res.2.2 i = blocks i

theorem SameTrees.cons {i : ι} {is : List ι} {blocks blocks' : ι → UInt32} {k : Nat}
    (hi : min k (F i).cap ≠ 0 → blocks' i = blocks i)
    (his : SameTrees T is blocks blocks' (k - (F i).cap)) :
    SameTrees T (i :: is) blocks blocks' k := by
  intro m
  have hhead : (T i (blocks' i)).leaves m (min k (F i).cap) =
      (T i (blocks i)).leaves m (min k (F i).cap) ∧
      (T i (blocks' i)).inner m (min k (F i).cap) =
      (T i (blocks i)).inner m (min k (F i).cap) := by
    by_cases h0 : min k (F i).cap = 0
    · rw [h0]
      simp only [BlockMap.leaves_zero, BlockMap.inner_zero, and_self]
    · rw [hi h0]
      exact ⟨rfl, rfl⟩
  obtain ⟨hl, hn⟩ := his m
  refine ⟨?_, ?_⟩
  · show _ ++ _ = _ ++ _
    rw [hhead.1, hl]
  · show _ ++ _ = _ ++ _
    rw [hhead.2, hn]

theorem SameTrees.skip {js : List ι} {blocks blocks' : ι → UInt32} : ∀ (is : List ι) {k : Nat},
    (∀ i ∈ is, blocks' i = blocks i) →
    SameTrees T js blocks blocks' (k - (Shape.concat F is).cap) →
    SameTrees T (is ++ js) blocks blocks' k
  | [], _, _, h => h
  | i :: is, k, heq, h => by
    rw [Shape.concat, Shape.cap_append, Nat.sub_add_eq] at h
    exact .cons (fun _ => heq i List.mem_cons_self)
      (SameTrees.skip is (fun j hj => heq j (List.mem_cons_of_mem _ hj)) h)

variable [DecidableEq ι]

theorem resizeSlots_cut (hG : G.Sound) (hM : G.Metadata M)
    (rec : ι → ResizeRecArgs → UInt32 → Except Fault (Bool × ResizeRecArgs)) : ∀ (is : List ι),
    (∀ i ∈ is, ∀ n c args r, args.sizeBefore ≠ 0 → Cuttable G M (T i r) n c args →
      Ensures (rec i args r) (fun _ => False) (CutSlot G M (T i r) n c args)) →
    is.Nodup → ∀ (n c : Nat) (args : ResizeRecArgs) (blocks : ι → UInt32),
    Cuttable G M (.concat (fun i => T i (blocks i)) is) n c args →
    Ensures (resizeSlots rec is args blocks) (fun _ => False)
      (CutRow G M T is blocks n c args)
  | [], _, _, n, c, args, blocks, h => by
    exact {
      cut := by
        have hcut := WasCut.pass hG h (by simp [Shape.concat, Shape.empty])
        rwa [show (Shape.concat F []).cap * G.blockSize = 0 by simp [Shape.concat, Shape.empty]]
          at hcut
      all := fun _ => rfl
      part := fun _ hne => absurd rfl hne
      same := fun _ => ⟨rfl, rfl⟩
      other := fun _ _ => rfl }
  | i :: is, hrec, hnd, n, c, args, blocks, h => by
    obtain ⟨hi, hnodup⟩ := List.nodup_cons.mp hnd
    rw [resizeSlots]
    by_cases h0 : args.sizeBefore = 0
    · rw [if_pos h0]
      have hafter := h.after
      exact {
        cut := .none hG h h0
        all := fun _ => rfl
        part := fun hne => absurd (by omega) hne
        same := fun _ => ⟨rfl, rfl⟩
        other := fun _ _ => rfl }
    · rw [if_neg h0]
      have hleft := Cuttable.left (Q := .concat (fun i => T i (blocks i)) is) h
      refine (hrec i List.mem_cons_self n c args (blocks i) h0 hleft).bind ?_
      rintro ⟨freed, args1⟩ hslot
      -- The array after the first element.
      obtain ⟨blocks1, hblocks1⟩ : ∃ b, b = if freed then Function.update blocks i 0 else blocks :=
        ⟨_, rfl⟩
      have hother1 : ∀ j, j ≠ i → blocks1 j = blocks j := fun j hj => by
        rw [hblocks1]
        split
        · exact Function.update_of_ne hj _ _
        · rfl
      have hcongr : BlockMap.concat (fun j => T j (blocks1 j)) is =
          BlockMap.concat (fun j => T j (blocks j)) is :=
        BlockMap.concat_congr fun j hj => by rw [hother1 j fun heq => hi (heq ▸ hj)]
      have hright := Cuttable.right (Q := .concat (fun j => T j (blocks j)) is) hM h hslot.cut
      rw [← hcongr] at hright
      simp only [← hblocks1]
      refine (resizeSlots_cut hG hM rec is (fun j hj => hrec j (List.mem_cons_of_mem _ hj)) hnodup
        _ _ args1 blocks1 hright).bind ?_
      rintro ⟨all, args2, blocks2⟩ hrow
      have hcut := hrow.cut
      have hafter := hslot.cut.after
      have hfreed : freed = decide (args.sizeAfter = 0) := hslot.flag
      have hremains : remains G (Shape.concat F (i :: is)) args - (F i).cap =
          remains G (.concat F is) args1 := by
        rw [remains, remains, hafter, blocksFor_sub hG, Shape.concat, Shape.cap_append]
        omega
      rw [hcongr] at hcut
      exact {
        cut := .append hG hM h hslot.cut hcut
        all := fun hz => by
          have hall : all = true := hrow.all (by rw [hafter, hz, Nat.zero_sub])
          simp only [hfreed, hall, hz, decide_true, Bool.and_self]
        part := fun hz _ => by simp only [hfreed, hz, decide_false, Bool.false_and]
        same := by
          refine .cons (fun hne => ?_) ?_
          · have hz : args.sizeAfter ≠ 0 := fun hz => hne <| by
              rw [remains, hz, blocksFor_zero hG, Nat.zero_min, Nat.zero_min]
            rw [hrow.other i hi, hblocks1, hfreed, decide_eq_false hz]
            rfl
          · rw [hremains]
            intro m
            have hsame := hrow.same m
            rwa [hcongr] at hsame
        other := fun j hj => by
          rw [hrow.other j fun h => hj (List.mem_cons_of_mem _ h),
            hother1 j fun heq => hj (heq ▸ List.mem_cons_self)] }

end Slots

section Skip

variable {ι : Type} {F : ι → Shape} {P : (i : ι) → BlockMap G.Same (F i)}

/-- Trees in front of the new end are passed over. -/
theorem Cuttable.skip (hG : G.Sound) (hM : G.Metadata M) {js : List ι} : ∀ (is : List ι)
    {n : Nat} {args : ResizeRecArgs}, Cuttable G M (.concat P (is ++ js)) n c args →
    (Shape.concat F is).cap * G.blockSize ≤ args.sizeAfter →
    Cuttable G M (.concat P js) (n - (Shape.concat F is).cap) c
      (args.past ((Shape.concat F is).cap * G.blockSize))
  | [], n, args, h, _ => by simpa [Shape.concat, Shape.empty, ResizeRecArgs.past] using h
  | i :: is, n, args, h, hle => by
    rw [Shape.concat, Shape.cap_append, Nat.add_mul] at hle
    have hleft := Cuttable.left (Q := .concat P (is ++ js)) h
    have hpass := WasCut.pass hG hleft (by omega)
    have hright := Cuttable.right (Q := .concat P (is ++ js)) hM h hpass
    have hc : c - (F i).total (min n (F i).cap) + (F i).total (remains G (F i) args) = c :=
      Nat.eq_of_mul_eq_mul_right hG.sectors_pos (hpass.counted.symm.trans h.counted)
    rw [hc] at hright
    have := Cuttable.skip hG hM is hright (by simp only [ResizeRecArgs.past]; omega)
    rw [Shape.concat, Shape.cap_append, Nat.add_mul, Nat.sub_add_eq]
    simpa only [ResizeRecArgs.past, Nat.sub_sub] using this

theorem WasCut.skip (hG : G.Sound) (hM : G.Metadata M) {js : List ι} {args' : ResizeRecArgs} :
    ∀ (is : List ι) {n : Nat} {args : ResizeRecArgs},
    Cuttable G M (.concat P (is ++ js)) n c args →
    (Shape.concat F is).cap * G.blockSize ≤ args.sizeAfter →
    WasCut G M (.concat P js) (n - (Shape.concat F is).cap) c
      (args.past ((Shape.concat F is).cap * G.blockSize)) args' →
    WasCut G M (.concat P (is ++ js)) n c args args'
  | [], n, args, _, _, h' => by simpa [Shape.concat, Shape.empty, ResizeRecArgs.past] using h'
  | i :: is, n, args, h, hle, h' => by
    rw [Shape.concat, Shape.cap_append, Nat.add_mul] at hle h'
    have hleft := Cuttable.left (Q := .concat P (is ++ js)) h
    have hpass := WasCut.pass hG hleft (by omega)
    have hright := Cuttable.right (Q := .concat P (is ++ js)) hM h hpass
    have hc : c - (F i).total (min n (F i).cap) + (F i).total (remains G (F i) args) = c :=
      Nat.eq_of_mul_eq_mul_right hG.sectors_pos (hpass.counted.symm.trans h.counted)
    refine WasCut.append (Q := .concat P (is ++ js)) hG hM h hpass ?_
    rw [hc] at hright ⊢
    refine WasCut.skip hG hM is hright (by simp only [ResizeRecArgs.past]; omega) ?_
    rw [Nat.sub_add_eq] at h'
    simpa only [ResizeRecArgs.past, Nat.sub_sub] using h'

end Skip

/-- What `freeBlock` leaves: block `r` is free and not counted any more. -/
structure FreedBlock (G : Geometry) (M : Nat → Prop) (r c : Nat) (args args' : ResizeRecArgs) :
    Prop where
  shrunk : args.fs.Shrunk args'.fs G M [r] []
  rest : args' = { args with fs := args'.fs, data := { args.data with blocks := args'.data.blocks } }
  counted : args'.data.blocks.toNat = (c - 1) * G.sectors

theorem freeBlock_freed (hG : G.Sound) (hF : args.fs.Fit G M) {r : UInt32}
    (hr : G.Owned M args.fs.part r.toNat) (hcount : args.data.blocks.toNat = c * G.sectors)
    (hc : c ≠ 0) :
    Ensures (args.freeBlock r) (fun _ => False) (FreedBlock G M r.toNat c args) := by
  obtain ⟨fs, heq, hshrunk⟩ := FS.freeBlock_shrunk hF hG hr
  have hsec : (2 <<< fs.sb.logBlockSize.toNat : Nat) = G.sectors :=
    congrArg Geometry.sectors hshrunk.fit.geometry
  have hlt : (c - 1) * G.sectors < 2 ^ 32 :=
    lt_of_le_of_lt (Nat.mul_le_mul_right _ (Nat.sub_le c 1)) (hcount ▸ args.data.blocks.toNat_lt)
  rw [ResizeRecArgs.freeBlock, heq]
  exact {
    shrunk := hshrunk
    rest := rfl
    counted := InodeData.toNat_incrBlockCount hsec hcount (by omega) hlt }

theorem Cuttable.pos (h : Cuttable G M P n c args) (h0 : args.sizeBefore ≠ 0) :
    0 < n ∧ G.blockSize ≤ args.sizeBefore := by
  have hn : 0 < n := Nat.pos_of_ne_zero fun h' => h0 (by rw [h.before, h', Nat.zero_mul])
  exact ⟨hn, h.before ▸ Nat.le_mul_of_pos_left _ hn⟩

theorem remains_zero (hG : G.Sound) (hz : args.sizeAfter = 0) : remains G S args = 0 := by
  rw [remains, hz, blocksFor_zero hG, Nat.zero_min]

theorem remains_pos (hG : G.Sound) (hcap : 0 < S.cap) (hz : args.sizeAfter ≠ 0) :
    0 < remains G S args := by
  have hle := le_blocksFor hG args.sizeAfter
  have : G.blocksFor args.sizeAfter ≠ 0 := fun h => by rw [h] at hle; omega
  rw [remains]
  omega

/-- `resizerec` on a block of data. -/
theorem resizeData_cut (hG : G.Sound) {r : UInt32} (h0 : args.sizeBefore ≠ 0)
    (h : Cuttable G M (G.tree 0 r.toNat) n c args) :
    Ensures (resizerec 0 args r) (fun _ => False) (CutSlot G M (G.tree 0 r.toNat) n c args) := by
  have hB := hG.blockSize_pos
  have hsize : args.fs.indirectSize 0 = (G.treeShape 0).cap * G.blockSize :=
    FS.indirectSize_eq h.fit.geometry 0
  have hblock : args.fs.blockSize = G.blockSize := congrArg Geometry.blockSize h.fit.geometry
  have hcap : (G.treeShape 0).cap = 1 := rfl
  obtain ⟨hn, hbefore⟩ := h.pos h0
  have hmin : min n (G.treeShape 0).cap = 1 := by rw [hcap]; omega
  have hsub : sub64 args.sizeBefore G.blockSize = args.sizeBefore - G.blockSize :=
    sub64_of_le hbefore h.lt
  have hroom := h.room
  rw [hmin, show (G.treeShape 0).total 1 = 1 from rfl] at hroom
  rw [resizerec, if_neg h0, hsize]
  by_cases hle : (G.treeShape 0).cap * G.blockSize ≤ args.sizeAfter
  · rw [if_pos hle, ResizeRecArgs.advance_eq hle h.after h.lt]
    exact ⟨.pass hG h hle, (decide_eq_false (by rw [hcap] at hle; omega)).symm⟩
  · rw [if_neg hle, hblock, hsub]
    rw [hcap, Nat.one_mul] at hle
    by_cases hz : args.sizeAfter ≠ 0
    · rw [if_pos hz]
      have hone : remains G (G.treeShape 0) args = 1 := by
        have := remains_pos (S := G.treeShape 0) hG (hG.cap_pos 0) hz
        have : remains G (G.treeShape 0) args ≤ 1 := Nat.min_le_right ..
        omega
      exact ⟨{
        cut := by rw [hmin, hone]; exact .refl h.fit
        counted := by
          rw [hmin, hone, show (G.treeShape 0).total 1 = 1 from rfl, Nat.sub_add_cancel hroom]
          exact h.counted
        data := rfl
        before := by rw [hcap, Nat.one_mul]
        after := by rw [hcap, Nat.one_mul]; simp only; omega }, (decide_eq_false hz).symm⟩
    · rw [if_neg hz]
      rw [not_not] at hz
      have hown : G.Owned M args.fs.part r.toNat := by
        refine h.held.owned _ ?_
        rw [hmin]
        exact List.mem_singleton.mpr rfl
      refine (freeBlock_freed hG h.fit hown h.counted (by omega)).bind ?_
      intro args1 hfreed
      have hrest := hfreed.rest
      have hbefore1 : args1.sizeBefore = args.sizeBefore := by rw [hrest]
      have hafter1 : args1.sizeAfter = args.sizeAfter := by rw [hrest]
      have hblock1 : args1.fs.blockSize = G.blockSize :=
        congrArg Geometry.blockSize hfreed.shrunk.fit.geometry
      rw [hblock1, hbefore1, hsub]
      refine ⟨{
        cut := ⟨[r.toNat], [], ?_, ?_, hfreed.shrunk.mono .rfl fun _ h => nomatch h⟩
        counted := ?_
        data := by simp only; rw [hrest]
        before := by rw [hcap, Nat.one_mul]
        after := by simp only [hafter1, hz, Nat.zero_sub] }, (decide_eq_true hz).symm⟩
      · rw [hmin, remains_zero hG hz, BlockMap.leaves_zero]
        rfl
      · rw [remains_zero hG hz, BlockMap.inner_zero]
        rfl
      · rw [hmin, remains_zero hG hz, Shape.total_zero, show (G.treeShape 0).total 1 = 1 from rfl]
        exact hfreed.counted

/-- What the loop over the entries of an indirect block leaves. -/
structure CutEntries (G : Geometry) (M : Nat → Prop) (level : Nat) (blocks : Nat → UInt32)
    (n c : Nat) (args : ResizeRecArgs) (starti : Nat)
    (res : Bool × ResizeRecArgs × (Nat → UInt32)) : Prop where
  cut : WasCut G M (G.row level fun i => (blocks i).toNat) n c args res.2.1
  flag : (starti == 0 && res.1) = decide (args.sizeAfter = 0)
  same : SameTrees (fun _ r => G.tree level r.toNat) (List.range G.fanout) blocks res.2.2
    (remains G (G.rowShape level) args)

/-- The loop begins at the entry of the block of data that holds the new end. -/
theorem resizeRow_cut (hG : G.Sound) (hM : G.Metadata M) {level starti : Nat}
    {rec : ResizeRecArgs → UInt32 → Except Fault (Bool × ResizeRecArgs)}
    (hrec : ∀ n c args (r : UInt32), args.sizeBefore ≠ 0 →
      Cuttable G M (G.tree level r.toNat) n c args →
      Ensures (rec args r) (fun _ => False) (CutSlot G M (G.tree level r.toNat) n c args))
    {blocks : Nat → UInt32} (h : Cuttable G M (G.row level fun i => (blocks i).toNat) n c args)
    (hstart : starti < G.fanout)
    (hle : starti * (G.treeShape level).cap * G.blockSize ≤ args.sizeAfter) :
    Ensures (resizeSlots (fun _ => rec) (List.range' starti (G.fanout - starti))
        (args.past (starti * (G.treeShape level).cap * G.blockSize)) blocks)
      (fun _ => False) (CutEntries G M level blocks n c args starti) := by
  have hcap : (Shape.concat (fun _ => G.treeShape level) (List.range' 0 starti)).cap =
      starti * (G.treeShape level).cap := by
    rw [Shape.cap_concat_const, List.length_range']
  have hloop : ∀ is, is = List.range' 0 starti ++ List.range' starti (G.fanout - starti) →
      Cuttable G M (.concat (fun i => G.tree level (blocks i).toNat) is) n c args →
      Ensures (resizeSlots (fun _ => rec) (List.range' starti (G.fanout - starti))
          (args.past (starti * (G.treeShape level).cap * G.blockSize)) blocks)
        (fun _ => False) (fun res =>
          WasCut G M (.concat (fun i => G.tree level (blocks i).toNat) is) n c args res.2.1 ∧
          (starti == 0 && res.1) = decide (args.sizeAfter = 0) ∧
          SameTrees (fun _ r => G.tree level r.toNat) is blocks res.2.2
            (remains G (.concat (fun _ => G.treeShape level) is) args)) := by
    rintro _ rfl h
    have hskip := h.skip hG hM (List.range' 0 starti) (by rw [hcap]; exact hle)
    rw [hcap] at hskip
    refine (resizeSlots_cut hG hM (T := fun _ r => G.tree level r.toNat) (fun _ => rec) _
      (fun _ _ n c args r => hrec n c args r) (List.nodup_range' ..) _ _ _ blocks hskip).mono
      (fun _ he => he) fun res hrow => ⟨?_, ?_, ?_⟩
    · refine WasCut.skip hG hM (List.range' 0 starti) h (by rw [hcap]; exact hle) ?_
      rw [hcap]
      exact hrow.cut
    · by_cases hz : args.sizeAfter = 0
      · have hcapB := Nat.mul_pos (hG.cap_pos level) hG.blockSize_pos
        rw [hz, Nat.mul_assoc] at hle
        have h0 : starti = 0 :=
          (Nat.mul_eq_zero.mp (Nat.le_zero.mp hle)).resolve_right hcapB.ne'
        rw [hrow.all (by simp only [ResizeRecArgs.past, hz, Nat.zero_sub]), h0, hz]
        rfl
      · rw [decide_eq_false hz]
        by_cases h0 : starti = 0
        · have hne : List.range' starti (G.fanout - starti) ≠ [] := fun hnil => by
            have hlen := congrArg List.length hnil
            rw [List.length_range', List.length_nil] at hlen
            omega
          rw [hrow.part (by simp only [ResizeRecArgs.past, h0]; omega) hne, Bool.and_false]
        · rw [beq_eq_false_iff_ne.mpr h0, Bool.false_and]
    · refine SameTrees.skip _ (fun i hi => hrow.other i fun hi' => ?_) ?_
      · have := List.mem_range'_1.mp hi
        have := List.mem_range'_1.mp hi'
        omega
      · have hsame := hrow.same
        have hr : remains G (Shape.concat (fun _ => G.treeShape level)
            (List.range' starti (G.fanout - starti)))
            (args.past (starti * (G.treeShape level).cap * G.blockSize)) =
            remains G (Shape.concat (fun _ => G.treeShape level)
              (List.range' 0 starti ++ List.range' starti (G.fanout - starti))) args -
            (Shape.concat (fun _ => G.treeShape level) (List.range' 0 starti)).cap := by
          rw [remains, remains, Shape.cap_concat_append, hcap]
          simp only [ResizeRecArgs.past]
          rw [blocksFor_sub hG]
          omega
        rwa [hr] at hsame
  exact (hloop _ (range_split hstart.le) h).mono (fun _ h => h) fun _ h => ⟨h.1, h.2.1, h.2.2⟩

/-- The entries are written back to the indirect block `r`. -/
theorem Cut.writePointers (hG : G.Sound) (hM : G.Metadata M) {level : Nat} {r : UInt32}
    {blocks blocks' : Nat → UInt32} (hk : k ≤ (G.rowShape level).cap) (hle : k' ≤ k)
    (hheld : G.Held M fs.part (r.toNat :: (G.row level fun i => (blocks i).toNat).nodes fs.part k))
    (h : Cut G M (G.row level fun i => (blocks i).toNat) k k' fs fs1)
    (hsame : SameTrees (fun _ r => G.tree level r.toNat) (List.range G.fanout) blocks blocks' k')
    {fs2 : FS} (hfs2 : fs2 = fs1.writePointers r blocks') :
    G.Owned M fs2.part r.toNat ∧ (G.tree (level + 1) r.toNat).leaves fs2.part k' =
      (G.row level fun i => (blocks i).toNat).leaves fs1.part k' ∧
    (k' ≠ 0 → (G.tree (level + 1) r.toNat).inner fs2.part k' =
      r.toNat :: (G.row level fun i => (blocks i).toNat).inner fs1.part k') ∧
    fs1.Shrunk fs2 G M [] [r.toNat] := by
  obtain ⟨hr, hown⟩ := List.nodup_cons.mp hheld.nodup
  obtain ⟨hr1, hout, -⟩ := h.other hM (hheld.owned _ List.mem_cons_self) hr
  have hB : fs1.blockSize = G.blockSize := congrArg Geometry.blockSize h.fit.geometry
  have hshrunk : fs1.Shrunk fs2 G M [] [r.toNat] := by
    rw [hfs2]
    exact FS.blit_shrunk h.fit hG hM _ hr1 (by rw [hB]) (by rw [hB])
  have hheld1 := h.held ⟨hown, fun b hb => hheld.owned b (List.mem_cons_of_mem _ hb)⟩
  have hkeep : ∀ b ∈ (G.row level fun i => (blocks i).toNat).inner fs1.part k',
      G.Same fs1.part fs2.part b := fun b hb => by
    have hmem : b ∈ (G.row level fun i => (blocks i).toNat).nodes fs1.part k' :=
      List.mem_append_left _ hb
    have hb1 := hheld1.owned b hmem
    refine hshrunk.same hM hb1.lt hb1.data fun heq => hout ?_
    rwa [← List.mem_singleton.mp heq]
  obtain ⟨hinner, hleaves⟩ := (G.row level fun i => (blocks i).toNat).congr fs1.part fs2.part k'
    hkeep (hle.trans hk)
  have hentries : G.row level (G.pointer fs2.part r.toNat) =
      G.row level fun i => (blocks' i).toNat := G.row_congr fun i hi => by
    rw [hfs2, FS.pointer_writePointers h.fit.geometry hG r blocks' hi]
  obtain ⟨hsl, hsi⟩ := hsame fs2.part
  refine ⟨hshrunk.owned hr1 List.not_mem_nil, ?_, fun h0 => ?_, hshrunk⟩
  · rw [leaves_tree_succ, hentries]
    exact hsl.trans hleaves
  · rw [inner_tree_succ G level _ _ h0, hentries]
    exact congrArg _ (hsi.trans hinner)

section Indirect

variable {level : Nat} {r : UInt32} {blocks blocks' : Nat → UInt32} (hk0 : k ≠ 0)
  (hblocks : G.row level (G.pointer fs.part r.toNat) = G.row level fun i => (blocks i).toNat)
include hk0 hblocks

/-- The tree at an indirect block, when its row was cut and something of it is left. -/
theorem Cut.keepIndirect (h : Cut G M (G.row level fun i => (blocks i).toNat) k k' fs fs1)
    (hleaves : (G.tree (level + 1) r.toNat).leaves fs2.part k' =
      (G.row level fun i => (blocks i).toNat).leaves fs1.part k')
    (hinner : (G.tree (level + 1) r.toNat).inner fs2.part k' =
      r.toNat :: (G.row level fun i => (blocks i).toNat).inner fs1.part k')
    (hshrunk : fs1.Shrunk fs2 G M [] [r.toNat]) :
    Cut G M (G.tree (level + 1) r.toNat) k k' fs fs2 := by
  obtain ⟨l, i, hl, hi, hs⟩ := h
  refine ⟨l, i, ?_, ?_, (hs.trans hshrunk).mono (by simp) fun b hb => ?_⟩
  · rw [leaves_tree_succ, hblocks, hl, hleaves]
  · rw [inner_tree_succ G level _ _ hk0, hblocks, hi, hinner, List.cons_append]
  · rw [inner_tree_succ G level _ _ hk0, hblocks]
    simpa [or_comm] using hb

/-- The tree at an indirect block, when nothing of its row is left and it is freed itself. -/
theorem Cut.freeIndirect (h : Cut G M (G.row level fun i => (blocks i).toNat) k 0 fs fs1)
    (hshrunk : fs1.Shrunk fs2 G M [] [r.toNat]) {fs3 : FS}
    (hfreed : fs2.Shrunk fs3 G M [r.toNat] []) :
    Cut G M (G.tree (level + 1) r.toNat) k 0 fs fs3 := by
  obtain ⟨l, i, hl, hi, hs⟩ := h
  rw [BlockMap.leaves_zero, List.nil_append] at hl
  rw [BlockMap.inner_zero, List.nil_append] at hi
  refine ⟨l, r.toNat :: i, ?_, ?_, ((hs.trans hshrunk).trans hfreed).mono ?_ fun b hb => ?_⟩
  · rw [leaves_tree_succ, hblocks, hl, BlockMap.leaves_zero, List.nil_append]
  · rw [inner_tree_succ G level _ _ hk0, hblocks, hi, BlockMap.inner_zero, List.nil_append]
  · rw [List.append_nil, List.append_assoc]
    exact List.Perm.append_left _ (@List.perm_append_comm _ i [r.toNat])
  · rw [inner_tree_succ G level _ _ hk0, hblocks]
    simpa [or_comm] using hb

end Indirect

theorem total_tree_succ (level : Nat) (hk : k ≠ 0) :
    (G.treeShape (level + 1)).total k = (G.rowShape level).total k + 1 := Shape.total_wrap _ hk

theorem cap_rowShape (level : Nat) : (G.rowShape level).cap = (G.treeShape (level + 1)).cap := rfl

/-- The row under an indirect block. -/
theorem Cuttable.row {level : Nat} {r : UInt32}
    (h : Cuttable G M (G.tree (level + 1) r.toNat) n c args)
    (hk : min n (G.treeShape (level + 1)).cap ≠ 0)
    (hrow : G.row level (G.pointer args.fs.part r.toNat) =
      G.row level fun i => (args.fs.pointers r i).toNat) :
    Cuttable G M (G.row level fun i => (args.fs.pointers r i).toNat) n c args ∧
      G.Held M args.fs.part (r.toNat :: (G.row level fun i => (args.fs.pointers r i).toNat).nodes
        args.fs.part (min n (G.rowShape level).cap)) := by
  have hheld := h.held
  rw [nodes_tree_succ G level _ _ hk, hrow, ← cap_rowShape] at hheld
  have hroom := h.room
  rw [total_tree_succ level hk, ← cap_rowShape] at hroom
  exact ⟨{
    fit := h.fit
    before := h.before
    lt := h.lt
    after := h.after
    counted := h.counted
    room := by omega
    held := ⟨(List.nodup_cons.mp hheld.nodup).2, fun b hb =>
      hheld.owned b (List.mem_cons_of_mem _ hb)⟩ }, hheld⟩

/-- `resizerec` on an indirect block. -/
theorem resizeIndirect_cut (hG : G.Sound) (hM : G.Metadata M) {level : Nat} {r : UInt32}
    (hrec : ∀ n c args (r : UInt32), args.sizeBefore ≠ 0 →
      Cuttable G M (G.tree level r.toNat) n c args →
      Ensures (resizerec level args r) (fun _ => False)
        (CutSlot G M (G.tree level r.toNat) n c args))
    (h0 : args.sizeBefore ≠ 0) (h : Cuttable G M (G.tree (level + 1) r.toNat) n c args) :
    Ensures (resizerec (level + 1) args r) (fun _ => False)
      (CutSlot G M (G.tree (level + 1) r.toNat) n c args) := by
  have hgeo := h.fit.geometry
  have hsize := FS.indirectSize_eq hgeo
  have hfan : args.fs.blockSize / 4 = G.fanout := congrArg Geometry.fanout hgeo
  have hcapB := Nat.mul_pos (hG.cap_pos (level + 1)) hG.blockSize_pos
  have hcapS : (G.treeShape (level + 1)).cap * G.blockSize =
      G.fanout * ((G.treeShape level).cap * G.blockSize) := by
    rw [cap_treeShape_succ, Nat.mul_assoc]
  rw [resizerec, if_neg h0, hsize]
  by_cases hle : (G.treeShape (level + 1)).cap * G.blockSize ≤ args.sizeAfter
  · rw [if_pos hle, ResizeRecArgs.advance_eq hle h.after h.lt]
    exact ⟨.pass hG h hle, (decide_eq_false (by omega)).symm⟩
  rw [if_neg hle, hsize, hfan]
  -- The end is in the tree: the loop begins at the entry that holds it.
  have hstart : args.sizeAfter / ((G.treeShape level).cap * G.blockSize) < G.fanout :=
    Nat.div_lt_of_lt_mul (by rw [Nat.mul_comm]; omega)
  have hbegin := Nat.div_mul_le_self args.sizeAfter ((G.treeShape level).cap * G.blockSize)
  generalize args.sizeAfter / ((G.treeShape level).cap * G.blockSize) = starti at hstart hbegin
  dsimp only
  rw [ResizeRecArgs.advance_eq hbegin h.after h.lt, ← Nat.mul_assoc]
  rw [← Nat.mul_assoc] at hbegin
  obtain ⟨hn, -⟩ := h.pos h0
  have hk : min n (G.treeShape (level + 1)).cap ≠ 0 := by
    have := hG.cap_pos (level + 1)
    omega
  have hpointers : G.row level (G.pointer args.fs.part r.toNat) =
      G.row level fun i => (args.fs.pointers r i).toNat :=
    (G.row_congr fun i hi => FS.toNat_pointers hgeo r hi).symm
  obtain ⟨hrow, hheld⟩ := h.row hk hpointers
  have hroom := h.room
  rw [total_tree_succ level hk] at hroom
  refine (resizeRow_cut hG hM hrec hrow hstart hbegin).bind ?_
  rintro ⟨all, args1, blocks1⟩ hentries
  have hflag : (starti == 0 && all) = decide (args.sizeAfter = 0) := hentries.flag
  have hwas : WasCut G M (G.row level fun i => (args.fs.pointers r i).toNat) n c args args1 :=
    hentries.cut
  have hsame : SameTrees (fun _ r => G.tree level r.toNat) (List.range G.fanout)
      (args.fs.pointers r) blocks1 (remains G (G.rowShape level) args) := hentries.same
  have hcut := hwas.cut
  have hcounted := hwas.counted
  obtain ⟨hr, hleaves, hinner, hshrunk⟩ := hcut.writePointers hG hM (Nat.min_le_right ..)
    (hrow.remains_le hG) hheld hsame rfl
  have hremains : remains G (G.treeShape (level + 1)) args = remains G (G.rowShape level) args := by
    rw [remains, remains, cap_rowShape]
  rw [cap_rowShape] at hcut hcounted
  simp only [hflag]
  by_cases hz : args.sizeAfter = 0
  · have hnone : remains G (G.treeShape (level + 1)) args = 0 := remains_zero hG hz
    rw [← hremains, hnone] at hcut hcounted
    rw [Shape.total_zero, Nat.add_zero] at hcounted
    rw [if_pos (decide_eq_true hz)]
    have hfree := @freeBlock_freed G M _ { args1 with fs := args1.fs.writePointers r blocks1 } hG
      hshrunk.fit r hr hcounted (by omega)
    refine hfree.bind ?_
    intro args2 hfreed
    have hrest := hfreed.rest
    exact ⟨{
      cut := by rw [hnone]; exact hcut.freeIndirect hk hpointers hshrunk hfreed.shrunk
      counted := by
        refine hfreed.counted.trans (congrArg (· * G.sectors) ?_)
        rw [hnone, Shape.total_zero, total_tree_succ level hk]
        omega
      data := by rw [hrest, hwas.data]
      before := by rw [hrest]; exact hwas.before
      after := by rw [hrest]; exact hwas.after }, (decide_eq_true hz).symm⟩
  · rw [if_neg (by simpa using hz)]
    have hpos := remains_pos hG (hG.cap_pos (level + 1)) hz
    rw [hremains] at hpos
    have hcounted' : args1.data.blocks.toNat =
        (c - (G.treeShape (level + 1)).total (min n (G.treeShape (level + 1)).cap) +
          (G.treeShape (level + 1)).total (remains G (G.treeShape (level + 1)) args)) *
        G.sectors := by
      rw [hcounted, hremains, total_tree_succ level hk, total_tree_succ level hpos.ne']
      congr 1
      omega
    exact ⟨{
      cut := by
        rw [hremains]
        exact hcut.keepIndirect hk hpointers hleaves (hinner hpos.ne') hshrunk
      counted := hcounted'
      data := hwas.data
      before := hwas.before
      after := hwas.after }, (decide_eq_false hz).symm⟩

theorem resizerec_cut (hG : G.Sound) (hM : G.Metadata M) : ∀ (level n c : Nat)
    (args : ResizeRecArgs) (r : UInt32), args.sizeBefore ≠ 0 →
    Cuttable G M (G.tree level r.toNat) n c args →
    Ensures (resizerec level args r) (fun _ => False) (CutSlot G M (G.tree level r.toNat) n c args)
  | 0, _, _, _, _, h0, h => resizeData_cut hG h0 h
  | level + 1, _, _, _, _, h0, h => resizeIndirect_cut hG hM (resizerec_cut hG hM level) h0 h

end SupOS.Ext2
