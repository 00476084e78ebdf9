import SupOS.Ext2.Frame

/-! What it means that `writerec` has written to a tree of blocks: the tree has grown by fresh
blocks, the bytes are in their places, and everything else is as it was. -/

namespace SupOS.Ext2

open Lib SupOS.Ext2.Geometry

variable {G : Geometry} {M : Nat → Prop} {S T : Shape}

/-- The tree `P` with `k` blocks of data in `fs` is the tree `P'` with `k'` in `fs'`: the blocks
that it had come first, and the rest were free. -/
def Grew (G : Geometry) (M : Nat → Prop) (P P' : BlockMap G.Same S) (k k' : Nat) (fs fs' : FS) :
    Prop :=
  ∃ leaves inner, P'.leaves fs'.part k' = P.leaves fs.part k ++ leaves ∧
    P'.inner fs'.part k' = P.inner fs.part k ++ inner ∧
    fs.Grown fs' G M (leaves ++ inner) (P'.nodes fs'.part k')

variable {P P' : BlockMap G.Same S} {Q Q' : BlockMap G.Same T} {k k' : Nat} {fs fs1 fs2 : FS}

theorem Grew.refl (hF : fs.Fit G M) : Grew G M P P k k fs fs :=
  ⟨[], [], by simp, by simp, (FS.Grown.refl hF).mono .rfl fun _ h => nomatch h⟩

theorem Grew.fit (h : Grew G M P P' k k' fs fs1) : fs1.Fit G M := by
  obtain ⟨_, _, -, -, hg⟩ := h
  exact hg.fit

/-- The number of fresh blocks. -/
theorem Grew.available (h : Grew G M P P' k k' fs fs1) (hk : k ≤ S.cap) (hk' : k' ≤ S.cap) :
    fs1.available + S.total k' = fs.available + S.total k := by
  obtain ⟨leaves, inner, hl, hi, hg⟩ := h
  have h1 := congrArg List.length hl
  have h2 := congrArg List.length hi
  have h3 := hg.available
  rw [List.length_append, P'.length_leaves _ _ hk', P.length_leaves _ _ hk] at h1
  rw [List.length_append, P'.length_inner _ _ hk', P.length_inner _ _ hk] at h2
  rw [List.length_append] at h3
  simp only [Shape.total]
  omega

/-- A held block outside the tree stays as it was and outside. -/
theorem Grew.other (h : Grew G M P P' k k' fs fs1) (hM : G.Metadata M) {b : Nat}
    (hb : G.Owned M fs.part b) (hn : b ∉ P.nodes fs.part k) :
    G.Owned M fs1.part b ∧ b ∉ P'.nodes fs1.part k' ∧ G.Same fs.part fs1.part b := by
  obtain ⟨leaves, inner, hl, hi, hg⟩ := h
  have hfresh := hg.not_fresh hb
  have hn' : b ∉ P'.nodes fs1.part k' := by
    simp only [BlockMap.nodes, List.mem_append] at hn ⊢
    rw [hl, hi]
    simp only [List.mem_append] at hfresh ⊢
    tauto
  exact ⟨hg.owned hb, hn', hg.same hM hb.lt hb.data hn'⟩

/-- The blocks of the tree that has grown are held. -/
theorem Grew.held (h : Grew G M P P' k k' fs fs1) (hF : fs.Fit G M)
    (hP : G.Held M fs.part (P.nodes fs.part k)) : G.Held M fs1.part (P'.nodes fs1.part k') := by
  obtain ⟨leaves, inner, hl, hi, hg⟩ := h
  have hheld := hg.held hF hP
  have hperm : (P.nodes fs.part k ++ (leaves ++ inner)).Perm (P'.nodes fs1.part k') := by
    simp only [BlockMap.nodes]
    rw [hl, hi, List.append_assoc, List.append_assoc]
    refine List.Perm.append_left _ ?_
    rw [← List.append_assoc, ← List.append_assoc, List.append_assoc inner]
    exact List.perm_append_comm
  exact ⟨hperm.nodup_iff.mp hheld.nodup, fun b hb => hheld.owned b (hperm.mem_iff.mpr hb)⟩

/-- Another tree of held blocks while `P` grows. -/
theorem Grew.frame (h : Grew G M P P' k k' fs fs1) (hM : G.Metadata M) {k2 : Nat}
    (hk2 : k2 ≤ T.cap)
    (hheld : G.Held M fs.part (P.nodes fs.part k ++ Q.nodes fs.part k2)) :
    Q.leaves fs1.part k2 = Q.leaves fs.part k2 ∧ Q.inner fs1.part k2 = Q.inner fs.part k2 ∧
      G.Held M fs1.part (Q.nodes fs1.part k2) ∧
      ∀ b ∈ Q.nodes fs.part k2, b ∉ P'.nodes fs1.part k' ∧ G.Same fs.part fs1.part b := by
  have hother : ∀ b ∈ Q.nodes fs.part k2, G.Owned M fs1.part b ∧ b ∉ P'.nodes fs1.part k' ∧
      G.Same fs.part fs1.part b := fun b hb =>
    h.other hM (hheld.append_right.owned b hb) fun hb' => hheld.disjoint hb' hb
  have hsame : ∀ b ∈ Q.inner fs.part k2, G.Same fs.part fs1.part b := fun b hb =>
    (hother b (List.mem_append_left _ hb)).2.2
  obtain ⟨hi, hl⟩ := Q.congr _ _ k2 hsame hk2
  refine ⟨hl, hi, ?_, fun b hb => (hother b hb).2⟩
  rw [Q.nodes_congr hsame hk2]
  exact ⟨hheld.append_right.nodup, fun b hb => (hother b hb).1⟩

/-- The blocks of a tree that has grown are its old ones and the fresh ones. -/
theorem Grew.nodes (h : Grew G M P P' k k' fs fs1) :
    ∃ fresh, fs.Grown fs1 G M fresh (P'.nodes fs1.part k') ∧
      ∀ b, b ∈ P'.nodes fs1.part k' ↔ b ∈ P.nodes fs.part k ∨ b ∈ fresh := by
  obtain ⟨leaves, inner, hl, hi, hg⟩ := h
  refine ⟨leaves ++ inner, hg, fun b => ?_⟩
  rw [BlockMap.nodes, hl, hi, BlockMap.nodes]
  simp only [List.mem_append]
  tauto

/-- A tree that has grown is held together with one that was beside it. -/
theorem Grew.both_held (h : Grew G M P P' k k' fs fs1) (hM : G.Metadata M) (hF : fs.Fit G M)
    {k2 : Nat} (hk2 : k2 ≤ T.cap)
    (hheld : G.Held M fs.part (P.nodes fs.part k ++ Q.nodes fs.part k2)) :
    G.Held M fs1.part (Q.nodes fs1.part k2 ++ P'.nodes fs1.part k') := by
  obtain ⟨hl, hi, hQheld, hother⟩ := h.frame hM hk2 hheld
  have hPheld := h.held hF hheld.append_left
  have hnodes : Q.nodes fs1.part k2 = Q.nodes fs.part k2 := by
    rw [BlockMap.nodes, BlockMap.nodes, hl, hi]
  refine ⟨List.nodup_append.mpr ⟨hQheld.nodup, hPheld.nodup, ?_⟩, fun b hb =>
    (List.mem_append.mp hb).elim (hQheld.owned b) (hPheld.owned b)⟩
  rintro b hb b' hb' rfl
  exact (hother b (hnodes ▸ hb)).1 hb'

/-- The growth of a tree and then of the one behind it. -/
theorem Grew.append (hM : G.Metadata M) (hF : fs.Fit G M) (hk : k ≤ (S.append T).cap)
    (hle : k ≤ k') (hheld : G.Held M fs.part ((P.append Q).nodes fs.part k))
    (hP : Grew G M P P' (min k S.cap) (min k' S.cap) fs fs1)
    (hQ : Grew G M Q Q' (k - S.cap) (k' - S.cap) fs1 fs2) :
    Grew G M (P.append Q) (P'.append Q') k k' fs fs2 := by
  rw [Shape.cap_append] at hk
  have hheld2 := hheld.perm (P.nodes_append Q fs.part k)
  obtain ⟨hQl, hQi, -, -⟩ := hP.frame hM (Q := Q) (by omega) hheld2
  -- The first tree is not touched while the second one grows.
  obtain ⟨hPl, hPi, -, -⟩ := hQ.frame hM (Q := P') (Nat.min_le_right ..)
    (hP.both_held hM hF (by omega) hheld2)
  obtain ⟨l1, i1, hl1, hi1, hg1⟩ := hP
  obtain ⟨l2, i2, hl2, hi2, hg2⟩ := hQ
  -- Only a full tree has another one behind it.
  have hnone : k - S.cap = 0 ∨ (l1 = [] ∧ i1 = []) := by
    rcases Nat.eq_zero_or_pos (k - S.cap) with h | h
    · exact .inl h
    · right
      have h1 := congrArg List.length hl1
      have h2 := congrArg List.length hi1
      rw [List.length_append, P'.length_leaves _ _ (Nat.min_le_right ..),
        P.length_leaves _ _ (Nat.min_le_right ..)] at h1
      rw [List.length_append, P'.length_inner _ _ (Nat.min_le_right ..),
        P.length_inner _ _ (Nat.min_le_right ..), Nat.min_eq_right (show S.cap ≤ k' by omega),
        Nat.min_eq_right (show S.cap ≤ k by omega)] at h2
      exact ⟨List.eq_nil_of_length_eq_zero (by omega), List.eq_nil_of_length_eq_zero (by omega)⟩
  refine ⟨l1 ++ l2, i1 ++ i2, ?_, ?_, ?_⟩
  · show P'.leaves fs2.part (min k' S.cap) ++ Q'.leaves fs2.part (k' - S.cap) =
      P.leaves fs.part (min k S.cap) ++ Q.leaves fs.part (k - S.cap) ++ (l1 ++ l2)
    rw [hPl, hl1, hl2, hQl]
    rcases hnone with h | ⟨rfl, -⟩
    · rw [h, Q.leaves_zero]; simp
    · simp
  · show P'.inner fs2.part (min k' S.cap) ++ Q'.inner fs2.part (k' - S.cap) =
      P.inner fs.part (min k S.cap) ++ Q.inner fs.part (k - S.cap) ++ (i1 ++ i2)
    rw [hPi, hi1, hi2, hQi]
    rcases hnone with h | ⟨-, rfl⟩
    · rw [h, Q.inner_zero]; simp
    · simp
  · refine (hg1.trans hg2).mono ?_ fun b hb => ?_
    · rw [List.append_assoc, List.append_assoc]
      refine List.Perm.append_left _ ?_
      rw [← List.append_assoc, ← List.append_assoc]
      exact List.Perm.append_right _ List.perm_append_comm
    · refine (P'.nodes_append Q' fs2.part k').mem_iff.mpr ?_
      rw [List.mem_append] at hb ⊢
      refine hb.imp_left fun hb => ?_
      simpa only [BlockMap.nodes, hPl, hPi] using hb

/-- The bytes of the first tree are those after its own growth. -/
theorem Grew.append_low (hG : G.Sound) (hM : G.Metadata M) (hF : fs.Fit G M)
    (hk : k ≤ (S.append T).cap) (hheld : G.Held M fs.part ((P.append Q).nodes fs.part k))
    (hP : Grew G M P P' (min k S.cap) (min k' S.cap) fs fs1)
    (hQ : Grew G M Q Q' (k - S.cap) (k' - S.cap) fs1 fs2) {i : Nat}
    (hi : i < min k' S.cap * G.blockSize) :
    G.byteAt fs2.part ((P'.append Q').leaves fs2.part k') i =
      G.byteAt fs1.part (P'.leaves fs1.part (min k' S.cap)) i := by
  rw [Shape.cap_append] at hk
  obtain ⟨hPl, -, -, hPother⟩ := hQ.frame hM (Q := P') (Nat.min_le_right ..)
    (hP.both_held hM hF (by omega) (hheld.perm (P.nodes_append Q fs.part k)))
  have hlen : (P'.leaves fs1.part (min k' S.cap)).length = min k' S.cap :=
    P'.length_leaves _ _ (Nat.min_le_right ..)
  rw [show (P'.append Q').leaves fs2.part k' = P'.leaves fs2.part (min k' S.cap) ++
    Q'.leaves fs2.part (k' - S.cap) from rfl, hPl, byteAt_append_left (by rwa [hlen])]
  exact byteAt_congr hG.blockSize_pos (by rwa [hlen]) fun b hb =>
    (hPother b (List.mem_append_right _ hb)).2

/-- The bytes behind a full first tree are those of the second one. -/
theorem append_high (hG : G.Sound) (m : Bytes) (hfull : S.cap ≤ k') (i : Nat) :
    G.byteAt m ((P.append Q).leaves m k') (S.cap * G.blockSize + i) =
      G.byteAt m (Q.leaves m (k' - S.cap)) i := by
  have hright := @byteAt_append_right G m (P.leaves m S.cap) (Q.leaves m (k' - S.cap)) i
    hG.blockSize_pos
  rw [P.length_leaves _ _ le_rfl] at hright
  rw [show (P.append Q).leaves m k' = P.leaves m (min k' S.cap) ++ Q.leaves m (k' - S.cap)
    from rfl, Nat.min_eq_right hfull, hright]

/-- Bytes that neither growth changes. -/
theorem Grew.append_kept (hG : G.Sound) (hM : G.Metadata M) (hF : fs.Fit G M)
    (hk : k ≤ (S.append T).cap) (hle : k ≤ k')
    (hheld : G.Held M fs.part ((P.append Q).nodes fs.part k))
    (hP : Grew G M P P' (min k S.cap) (min k' S.cap) fs fs1)
    (hQ : Grew G M Q Q' (k - S.cap) (k' - S.cap) fs1 fs2) {out : Nat → Prop}
    (hPkept : ∀ i < min k S.cap * G.blockSize, out i →
      G.byteAt fs1.part (P'.leaves fs1.part (min k' S.cap)) i =
        G.byteAt fs.part (P.leaves fs.part (min k S.cap)) i)
    (hQkept : ∀ i < (k - S.cap) * G.blockSize, out (S.cap * G.blockSize + i) →
      G.byteAt fs2.part (Q'.leaves fs2.part (k' - S.cap)) i =
        G.byteAt fs1.part (Q.leaves fs1.part (k - S.cap)) i) :
    ∀ i < k * G.blockSize, out i →
      G.byteAt fs2.part ((P'.append Q').leaves fs2.part k') i =
        G.byteAt fs.part ((P.append Q).leaves fs.part k) i := by
  intro i hi hout
  have hB := hG.blockSize_pos
  have hmul {x y : Nat} (h : x ≤ y) : x * G.blockSize ≤ y * G.blockSize :=
    Nat.mul_le_mul_right _ h
  have hlen : (P.leaves fs.part (min k S.cap)).length = min k S.cap :=
    P.length_leaves _ _ (Nat.min_le_right ..)
  by_cases hlow : i < S.cap * G.blockSize
  · have hik : i < min k S.cap * G.blockSize := by
      rcases min_choice k S.cap with h | h <;> rwa [h]
    have hik' := lt_of_lt_of_le hik (hmul (show min k S.cap ≤ min k' S.cap by omega))
    rw [hP.append_low hG hM hF hk hheld hQ hik', hPkept i hik hout]
    exact (byteAt_append_left (by rwa [hlen])).symm
  · obtain ⟨j, rfl⟩ := Nat.exists_eq_add_of_le (Nat.le_of_not_lt hlow)
    have hfull : S.cap ≤ k := by
      by_contra h
      have := hmul (Nat.le_of_not_le h)
      omega
    have hj : j < (k - S.cap) * G.blockSize := by rw [Nat.sub_mul]; omega
    rw [Shape.cap_append] at hk
    obtain ⟨hQl, -, -, hQother⟩ := hP.frame hM (Q := Q) (by omega)
      (hheld.perm (P.nodes_append Q fs.part k))
    rw [append_high hG _ (hfull.trans hle), append_high hG _ hfull, hQkept j hj hout, hQl]
    exact byteAt_congr hB (by rwa [Q.length_leaves _ _ (by omega)]) fun b hb =>
      (hQother b (List.mem_append_right _ hb)).2

/-- The blocks of data that a tree of shape `S` has after the bytes are written. -/
def grown (G : Geometry) (S : Shape) (k : Nat) (args : WriteRecArgs) : Nat :=
  max k (min S.cap (G.blocksFor (args.addr + args.bytes.length)))

/-- The tree `P` with `k` blocks of data is ready for `writerec`: it begins at block `blockNum` of
the inode, and the inode has blocks behind it only when it is full.  The inode will have no more
than `limit` blocks. -/
structure Writable (G : Geometry) (M : Nat → Prop) (limit : Nat) (P : BlockMap G.Same S) (k : Nat)
    (args : WriteRecArgs) : Prop where
  fit : args.fs.Fit G M
  cap : k ≤ S.cap
  bytes : args.bytes ≠ []
  counted : args.data.blocks.toNat = args.blockCount * G.sectors
  reached : args.blockNum + S.total k ≤ args.blockCount
  exact : k < S.cap → args.blockCount = args.blockNum + S.total k
  room : args.blockNum + S.total (grown G S k args) ≤ limit
  limit : args.blockCount ≤ limit
  held : G.Held M args.fs.part (P.nodes args.fs.part k)

/-- From `args` to `args'` the bytes that fall in the tree were written: it is `P'` then. -/
structure Wrote (G : Geometry) (M : Nat → Prop) (P P' : BlockMap G.Same S) (k : Nat)
    (args args' : WriteRecArgs) : Prop where
  grew : Grew G M P P' k (grown G S k args) args.fs args'.fs
  counted : args'.data.blocks.toNat = args'.blockCount * G.sectors
  count : args'.blockCount + S.total k = args.blockCount + S.total (grown G S k args)
  data : args'.data = { args.data with blocks := args'.data.blocks }
  bytes : args'.bytes = args.bytes.drop (S.cap * G.blockSize - args.addr)
  addr : args'.bytes ≠ [] → args'.addr = args.addr - S.cap * G.blockSize
  num : args'.bytes ≠ [] → args'.blockNum = args.blockNum + S.total S.cap
  written : ∀ i, args.addr ≤ i → i < args.addr + args.bytes.length → i < S.cap * G.blockSize →
    G.byteAt args'.fs.part (P'.leaves args'.fs.part (grown G S k args)) i =
      args.bytes.getD (i - args.addr) 0
  kept : ∀ i < k * G.blockSize, i < args.addr ∨ args.addr + args.bytes.length ≤ i →
    G.byteAt args'.fs.part (P'.leaves args'.fs.part (grown G S k args)) i =
      G.byteAt args.fs.part (P.leaves args.fs.part k) i

/-- `writerec` stops because the new blocks that the tree needs are not there. -/
def Short (G : Geometry) (S : Shape) (k : Nat) (args : WriteRecArgs) (e : Fault) : Prop :=
  e = .bsod "No space on disk :-(" ∧
    args.fs.available + S.total k < S.total (grown G S k args)

variable {limit : Nat} {args args1 args2 : WriteRecArgs}

theorem le_grown : k ≤ grown G S k args := Nat.le_max_left ..

theorem grown_le (hk : k ≤ S.cap) : grown G S k args ≤ S.cap :=
  Nat.max_le.mpr ⟨hk, Nat.min_le_left ..⟩

theorem grown_left (hk : k ≤ (S.append T).cap) :
    grown G S (min k S.cap) args = min (grown G (S.append T) k args) S.cap := by
  rw [Shape.cap_append] at hk
  simp only [grown, Shape.cap_append]
  omega

theorem grown_right (hG : G.Sound)
    (hend : args1.addr + args1.bytes.length + S.cap * G.blockSize = args.addr + args.bytes.length) :
    grown G T (k - S.cap) args1 = grown G (S.append T) k args - S.cap := by
  have := blocksFor_add hG S.cap (args1.addr + args1.bytes.length)
  rw [show S.cap * G.blockSize + (args1.addr + args1.bytes.length) =
    args.addr + args.bytes.length by omega] at this
  simp only [grown, Shape.cap_append]
  omega

/-- Bytes that end in the first tree do not let the second one grow. -/
theorem grown_stop (hG : G.Sound) (hend : args.addr + args.bytes.length ≤ S.cap * G.blockSize) :
    grown G (S.append T) k args - S.cap = k - S.cap := by
  have := (blocksFor_le_iff hG).mpr hend
  simp only [grown, Shape.cap_append]
  omega

theorem Wrote.end_eq (hP : Wrote G M P P' k args args1) (hne : args1.bytes ≠ []) :
    S.cap * G.blockSize < args.addr + args.bytes.length ∧
      args1.addr + args1.bytes.length + S.cap * G.blockSize = args.addr + args.bytes.length := by
  have hlen := congrArg List.length hP.bytes
  have hpos := List.length_pos_of_ne_nil hne
  have haddr := hP.addr hne
  rw [List.length_drop] at hlen
  omega

theorem Wrote.end_le (hP : Wrote G M P P' k args args1) (hw : args.bytes ≠ [])
    (hnil : args1.bytes = []) : args.addr + args.bytes.length ≤ S.cap * G.blockSize := by
  have hlen := congrArg List.length hP.bytes
  have hpos := List.length_pos_of_ne_nil hw
  rw [List.length_drop, hnil, List.length_nil] at hlen
  omega

theorem Writable.left (hw : Writable G M limit (P.append Q) k args) :
    Writable G M limit P (min k S.cap) args where
  fit := hw.fit
  cap := Nat.min_le_right ..
  bytes := hw.bytes
  counted := hw.counted
  reached := by
    have := hw.reached
    rw [Shape.total_append] at this
    omega
  exact h := by
    have := hw.exact (by rw [Shape.cap_append]; omega)
    rw [Shape.total_append, show k - S.cap = 0 by omega, T.total_zero] at this
    exact this
  room := by
    have := hw.room
    rw [Shape.total_append] at this
    rw [grown_left hw.cap]
    omega
  limit := hw.limit
  held := (hw.held.perm (P.nodes_append Q _ k)).append_left

theorem Writable.right (hG : G.Sound) (hM : G.Metadata M)
    (hw : Writable G M limit (P.append Q) k args)
    (hP : Wrote G M P P' (min k S.cap) args args1) (hne : args1.bytes ≠ []) :
    Writable G M limit Q (k - S.cap) args1 := by
  obtain ⟨hlt, hend⟩ := hP.end_eq hne
  have hcap := hw.cap
  rw [Shape.cap_append] at hcap
  -- The bytes go beyond the first tree, so it is full now.
  have hfull : min (grown G (S.append T) k args) S.cap = S.cap := by
    have : ¬G.blocksFor (args.addr + args.bytes.length) ≤ S.cap := fun h =>
      absurd ((blocksFor_le_iff hG).mp h) (by omega)
    simp only [grown, Shape.cap_append]
    omega
  have hcount := hP.count
  rw [grown_left hw.cap, hfull] at hcount
  have hnum := hP.num hne
  have hreached := hw.reached
  rw [Shape.total_append] at hreached
  exact {
    fit := hP.grew.fit
    cap := by omega
    bytes := hne
    counted := hP.counted
    reached := by omega
    exact := fun h => by
      have := hw.exact (by rw [Shape.cap_append]; omega)
      rw [Shape.total_append] at this
      omega
    room := by
      have := hw.room
      rw [Shape.total_append, hfull] at this
      rw [grown_right hG hend, hnum]
      omega
    limit := by
      have hroom := hw.room
      have hlim := hw.limit
      rw [Shape.total_append, hfull] at hroom
      by_cases hk : k < S.cap
      · have := hw.exact (by rw [Shape.cap_append]; omega)
        rw [Shape.total_append, show k - S.cap = 0 by omega, T.total_zero] at this
        omega
      · rw [Nat.min_eq_right (by omega)] at hcount
        omega
    held := (hP.grew.frame hM (by omega) (hw.held.perm (P.nodes_append Q _ k))).2.2.1 }

/-- The write to a tree and then to the one behind it, if bytes are left. -/
theorem Wrote.append (hG : G.Sound) (hM : G.Metadata M)
    (hw : Writable G M limit (P.append Q) k args)
    (hP : Wrote G M P P' (min k S.cap) args args1)
    (hQ : args1.bytes ≠ [] → Wrote G M Q Q' (k - S.cap) args1 args2)
    (hstop : args1.bytes = [] → Q' = Q ∧ args2 = args1) :
    Wrote G M (P.append Q) (P'.append Q') k args args2 := by
  have hB := hG.blockSize_pos
  have hcap := hw.cap
  rw [Shape.cap_append] at hcap
  have hcapB : (S.cap + T.cap) * G.blockSize = S.cap * G.blockSize + T.cap * G.blockSize := by ring
  have hheld := hw.held.perm (P.nodes_append Q _ k)
  have hL := @grown_left G S T k args hw.cap
  have hkL : k ≤ grown G (S.append T) k args := le_grown
  have hLcap := @grown_le G (S.append T) k args hw.cap
  rw [Shape.cap_append] at hLcap
  -- The second step as a growth, also when it does not happen.
  have hQgrew : Grew G M Q Q' (k - S.cap) (grown G (S.append T) k args - S.cap) args1.fs
      args2.fs := by
    by_cases hne : args1.bytes = []
    · obtain ⟨rfl, rfl⟩ := hstop hne
      rw [grown_stop hG (hP.end_le hw.bytes hne)]
      exact .refl hP.grew.fit
    · rw [← grown_right hG (hP.end_eq hne).2]
      exact (hQ hne).grew
  have hPgrew := hP.grew
  rw [hL] at hPgrew
  have hlow := fun i => hPgrew.append_low hG hM hw.fit hw.cap hw.held hQgrew (i := i)
  have hPcount := hP.count
  rw [hL] at hPcount
  have hPwritten := hP.written
  have hPkept := hP.kept
  rw [hL] at hPwritten hPkept
  by_cases hne : args1.bytes = []
  · obtain ⟨rfl, rfl⟩ := hstop hne
    have hend := hP.end_le hw.bytes hne
    have hblocks := (blocksFor_le_iff hG).mpr hend
    have hmin : G.blocksFor (args.addr + args.bytes.length) ≤
        min (grown G (S.append T) k args) S.cap := by
      simp only [grown, Shape.cap_append]
      omega
    have hreach := (blocksFor_le_iff hG).mp hmin
    have hsame := grown_stop (T := T) (k := k) hG hend
    exact {
      grew := hPgrew.append hM hw.fit hw.cap hkL hw.held hQgrew
      counted := hP.counted
      count := by
        rw [Shape.total_append, Shape.total_append, hsame]
        omega
      data := hP.data
      bytes := by
        rw [hne, Shape.cap_append, List.drop_eq_nil_of_le]
        rw [hcapB]
        omega
      addr := fun h => absurd hne h
      num := fun h => absurd hne h
      written := fun i h1 h2 _ => by
        rw [hlow i (by omega)]
        exact hPwritten i h1 h2 (by omega)
      kept := hPgrew.append_kept hG hM hw.fit hw.cap hkL hw.held hQgrew hPkept
        fun _ _ _ => by rw [hsame] }
  · have hQ := hQ hne
    obtain ⟨hlt, hend⟩ := hP.end_eq hne
    have hright := grown_right (T := T) (k := k) hG hend
    have haddr := hP.addr hne
    have hQcount := hQ.count
    rw [hright] at hQcount
    have hQwritten := hQ.written
    have hQkept := hQ.kept
    rw [hright] at hQwritten hQkept
    have hfull : S.cap ≤ grown G (S.append T) k args := by
      have : ¬G.blocksFor (args.addr + args.bytes.length) ≤ S.cap := fun h =>
        absurd ((blocksFor_le_iff hG).mp h) (by omega)
      simp only [grown, Shape.cap_append]
      omega
    rw [Nat.min_eq_right hfull] at hlow hPcount hPwritten hPkept
    have hhigh := append_high (P := P') (Q := Q') hG args2.fs.part hfull
    exact {
      grew := hPgrew.append hM hw.fit hw.cap hkL hw.held hQgrew
      counted := hQ.counted
      count := by
        rw [Shape.total_append, Shape.total_append, Nat.min_eq_right hfull]
        omega
      data := by rw [hQ.data, hP.data]
      bytes := by
        rw [hQ.bytes, hP.bytes, List.drop_drop, Shape.cap_append, hcapB, haddr]
        congr 1
        omega
      addr := fun h => by
        rw [hQ.addr h, haddr, Shape.cap_append, hcapB]
        omega
      num := fun h => by
        rw [hQ.num h, hP.num hne, Shape.total_append, Shape.cap_append, Nat.min_eq_right (by omega),
          Nat.add_sub_cancel_left]
        omega
      written := fun i h1 h2 h3 => by
        rw [Shape.cap_append, hcapB] at h3
        by_cases hi : i < S.cap * G.blockSize
        · rw [hlow i hi]
          exact hPwritten i h1 h2 hi
        · obtain ⟨j, rfl⟩ := Nat.exists_eq_add_of_le (Nat.le_of_not_lt hi)
          rw [hhigh j, hQwritten j (by omega) (by omega) (by omega), hP.bytes,
            List.getD_eq_getElem?_getD, List.getElem?_drop, ← List.getD_eq_getElem?_getD]
          congr 1
          omega
      kept := hPgrew.append_kept hG hM hw.fit hw.cap hkL hw.held hQgrew
        (by rw [Nat.min_eq_right hfull]; exact hPkept) fun j hj hout =>
          hQkept j hj (by omega) }

end SupOS.Ext2
