import SupOS.Ext2.Grow

/-! What `writerec` and `i_writeaddr` write: the bytes at their places, in blocks that the tree has
or gets for them. -/

namespace SupOS.Ext2

open Lib SupOS.Ext2.Geometry

variable {G : Geometry} {M : Nat → Prop} {S T : Shape} {ι : Type} {limit k : Nat}
  {args args1 args' : WriteRecArgs}

/-- The bytes to write begin behind a full tree. -/
theorem Wrote.pass {P : BlockMap G.Same S} (hw : Writable G M limit P S.cap args)
    (hle : S.cap * G.blockSize ≤ args.addr) :
    Wrote G M P P S.cap args
      { args with
        blockNum := args.blockNum + S.total S.cap
        addr := args.addr - S.cap * G.blockSize } := by
  have hgrown : grown G S S.cap args = S.cap := by simp only [grown]; omega
  exact {
    grew := by rw [hgrown]; exact .refl hw.fit
    counted := hw.counted
    count := by rw [hgrown]; rfl
    data := rfl
    bytes := by simp [Nat.sub_eq_zero_of_le hle]
    addr := fun _ => rfl
    num := fun _ => rfl
    written := fun i h1 _ h3 => by omega
    kept := fun i _ _ => by rw [hgrown] }

section Slots

variable {F : ι → Shape} {P P' : (i : ι) → BlockMap G.Same (F i)}

/-- The bytes to write begin behind the first trees of a list, which are full. -/
theorem Writable.skip (hG : G.Sound) (hM : G.Metadata M) {js : List ι} : ∀ (is : List ι) {k : Nat}
    {args : WriteRecArgs}, Writable G M limit (.concat P (is ++ js)) k args →
    (Shape.concat F is).cap ≤ k → (Shape.concat F is).cap * G.blockSize ≤ args.addr →
    Writable G M limit (.concat P js) (k - (Shape.concat F is).cap)
      { args with
        blockNum := args.blockNum + (Shape.concat F is).total (Shape.concat F is).cap
        addr := args.addr - (Shape.concat F is).cap * G.blockSize }
  | [], k, args, hw, _, _ => by simpa [Shape.concat, Shape.empty, Shape.total] using hw
  | i :: is, k, args, hw, hk, hle => by
    rw [Shape.concat, Shape.cap_append] at hk
    rw [Shape.concat, Shape.cap_append, Nat.add_mul] at hle
    have hleft := Writable.left (Q := .concat P (is ++ js)) hw
    rw [Nat.min_eq_right (show (F i).cap ≤ k by omega)] at hleft
    have hpass := Wrote.pass hleft (by omega)
    rw [show Wrote G M (P i) (P i) (F i).cap = Wrote G M (P i) (P i) (min k (F i).cap) by
      rw [Nat.min_eq_right (by omega)]] at hpass
    have hright := Writable.right (Q := .concat P (is ++ js)) hG hM hw hpass hw.bytes
    have := Writable.skip hG hM is hright (by omega) (by simp only; omega)
    rw [Shape.concat, Shape.total_append, Shape.cap_append, Nat.add_mul, Nat.sub_add_eq,
      Nat.sub_add_eq, Nat.min_eq_right (by omega), Nat.add_sub_cancel_left, ← Nat.add_assoc]
    exact this

theorem Wrote.skip (hG : G.Sound) (hM : G.Metadata M) {js : List ι} : ∀ (is : List ι) {k : Nat}
    {args : WriteRecArgs}, (∀ i ∈ is, P' i = P i) →
    Writable G M limit (.concat P (is ++ js)) k args →
    (Shape.concat F is).cap ≤ k → (Shape.concat F is).cap * G.blockSize ≤ args.addr →
    Wrote G M (.concat P js) (.concat P' js) (k - (Shape.concat F is).cap)
      { args with
        blockNum := args.blockNum + (Shape.concat F is).total (Shape.concat F is).cap
        addr := args.addr - (Shape.concat F is).cap * G.blockSize } args' →
    Wrote G M (.concat P (is ++ js)) (.concat P' (is ++ js)) k args args'
  | [], k, args, _, _, _, _, hQ => by
    simpa [Shape.concat, Shape.empty, Shape.total] using hQ
  | i :: is, k, args, hsame, hw, hk, hle, hQ => by
    rw [Shape.concat, Shape.cap_append] at hk
    rw [Shape.concat, Shape.cap_append, Nat.add_mul] at hle
    rw [Shape.concat, Shape.total_append, Shape.cap_append, Nat.add_mul, Nat.sub_add_eq,
      Nat.sub_add_eq, Nat.min_eq_right (by omega), Nat.add_sub_cancel_left, ← Nat.add_assoc] at hQ
    have hleft := Writable.left (Q := .concat P (is ++ js)) hw
    rw [Nat.min_eq_right (show (F i).cap ≤ k by omega)] at hleft
    have hpass := Wrote.pass hleft (by omega)
    rw [show Wrote G M (P i) (P i) (F i).cap = Wrote G M (P i) (P i) (min k (F i).cap) by
      rw [Nat.min_eq_right (by omega)]] at hpass
    have hright := Writable.right (Q := .concat P (is ++ js)) hG hM hw hpass hw.bytes
    rw [List.cons_append, BlockMap.concat, BlockMap.concat, hsame i List.mem_cons_self]
    refine Wrote.append hG hM hw hpass (fun _ => ?_) fun h => absurd h hw.bytes
    exact Wrote.skip hG hM is (fun j hj => hsame j (List.mem_cons_of_mem _ hj)) hright (by omega)
      (by simp only; omega) hQ

/-- What `writerec` leaves of the tree at one block number. -/
structure WroteSlot (G : Geometry) (M : Nat → Prop) {S : Shape} (tree : UInt32 → BlockMap G.Same S)
    (r : UInt32) (k : Nat) (args : WriteRecArgs) (res : Written) : Prop where
  wrote : Wrote G M (tree r) (tree res.2.2) k args res.2.1
  flag : res.1 = decide (k = 0)
  same : k ≠ 0 → res.2.2 = r

/-- What the loop leaves of the trees at an array of block numbers. -/
structure WroteRow (G : Geometry) (M : Nat → Prop) {F : ι → Shape}
    (tree : (i : ι) → UInt32 → BlockMap G.Same (F i)) (is : List ι) (blocks : ι → UInt32) (k : Nat)
    (args : WriteRecArgs) (res : Bool × WriteRecArgs × (ι → UInt32)) : Prop where
  wrote : Wrote G M (.concat (fun i => tree i (blocks i)) is)
    (.concat (fun i => tree i (res.2.2 i)) is) k args res.2.1
  flag : k = 0 → is ≠ [] → res.1 = true
  same : res.1 = false → res.2.2 = blocks
  other : ∀ i, i ∉ is → res.2.2 i = blocks i

theorem Short.left {e : Fault} (hk : k ≤ (S.append T).cap) (h : Short G S (min k S.cap) args e) :
    Short G (S.append T) k args e := by
  refine ⟨h.1, ?_⟩
  have hshort := h.2
  have hmono := T.total_le (Nat.sub_le_sub_right (@le_grown G (S.append T) k args) S.cap)
  rw [grown_left hk] at hshort
  rw [Shape.total_append, Shape.total_append]
  omega

theorem Short.right {P P' : BlockMap G.Same S} {Q : BlockMap G.Same T} {e : Fault} (hG : G.Sound)
    (hw : Writable G M limit (P.append Q) k args)
    (hP : Wrote G M P P' (min k S.cap) args args1) (hne : args1.bytes ≠ [])
    (h : Short G T (k - S.cap) args1 e) : Short G (S.append T) k args e := by
  refine ⟨h.1, ?_⟩
  have hshort := h.2
  have havail := hP.grew.available (Nat.min_le_right ..) (grown_le (Nat.min_le_right ..))
  rw [grown_left hw.cap] at havail
  rw [grown_right hG (hP.end_eq hne).2] at hshort
  rw [Shape.total_append, Shape.total_append]
  omega

variable [DecidableEq ι]

theorem writeSlots_done (rec : ι → WriteRecArgs → UInt32 → Except Fault Written) (is : List ι)
    (blocks : ι → UInt32) (h : args.bytes = []) :
    writeSlots rec is args blocks = .ok (false, args, blocks) := by
  cases is with
  | nil => rfl
  | cons i is => rw [writeSlots, if_pos h]

/-- The loop writes to the trees of the elements one after another. -/
theorem writeSlots_wrote (hG : G.Sound) (hM : G.Metadata M)
    (tree : (i : ι) → UInt32 → BlockMap G.Same (F i))
    (rec : ι → WriteRecArgs → UInt32 → Except Fault Written) : ∀ (is : List ι),
    (∀ i ∈ is, ∀ k args r, Writable G M limit (tree i r) k args →
      Ensures (rec i args r) (Short G (F i) k args) (WroteSlot G M (tree i) r k args)) →
    is.Nodup → ∀ (k : Nat) (args : WriteRecArgs) (blocks : ι → UInt32),
    Writable G M limit (.concat (fun i => tree i (blocks i)) is) k args →
    Ensures (writeSlots rec is args blocks) (Short G (.concat F is) k args)
      (WroteRow G M tree is blocks k args)
  | [], _, _, k, args, blocks, hw => by
    obtain rfl : k = 0 := Nat.le_zero.mp hw.cap
    have hgrown : grown G (Shape.concat F []) 0 args = 0 := by
      simp [grown, Shape.concat, Shape.empty]
    exact {
      wrote := {
        grew := by rw [hgrown]; exact .refl hw.fit
        counted := hw.counted
        count := by rw [hgrown]
        data := rfl
        bytes := by simp [Shape.concat, Shape.empty]
        addr := fun _ => by simp [Shape.concat, Shape.empty]
        num := fun _ => by simp [Shape.concat, Shape.empty, Shape.total]
        written := fun i _ _ h => by simp [Shape.concat, Shape.empty] at h
        kept := fun i h _ => by omega }
      flag := fun _ h => absurd rfl h
      same := fun _ => rfl
      other := fun _ _ => rfl }
  | i :: is, hrec, hnodup, k, args, blocks, hw => by
    obtain ⟨hi, hnodup⟩ := List.nodup_cons.mp hnodup
    rw [writeSlots, if_neg hw.bytes]
    refine ((hrec i List.mem_cons_self _ _ _ (Writable.left hw)).mono
      (fun e he => he.left hw.cap) fun _ h => h).bind ?_
    rintro ⟨w, args1, r⟩ hslot
    have hcongr : (BlockMap.concat (fun j => tree j (Function.update blocks i r j)) is :
        BlockMap G.Same (Shape.concat F is)) = .concat (fun j => tree j (blocks j)) is :=
      BlockMap.concat_congr fun j hj => by
        rw [Function.update_of_ne (show j ≠ i by rintro rfl; exact hi hj)]
    have hfirst : k = 0 → w = true := fun h => by
      rw [show w = decide (min k (F i).cap = 0) from hslot.flag, h]
      simp
    have hsame : w = false → Function.update blocks i r = blocks := fun h => by
      have hflag := hslot.flag
      simp only [h] at hflag
      rw [show r = blocks i from hslot.same (of_decide_eq_false hflag.symm),
        Function.update_eq_self]
    by_cases hne : args1.bytes = []
    · simp only [writeSlots_done _ _ _ hne]
      exact {
        wrote := by
          refine Wrote.append hG hM hw ?_ (fun h : args1.bytes ≠ [] => absurd hne h) fun _ => ⟨hcongr, rfl⟩
          simp only [Function.update_self]
          exact hslot.wrote
        flag := fun h _ => by simp [hfirst h]
        same := fun h => by
          simp only [Bool.or_false] at h
          exact hsame h
        other := fun j hj => Function.update_of_ne (List.ne_of_not_mem_cons hj) .. }
    · have hright := Writable.right hG hM hw hslot.wrote hne
      rw [← hcongr] at hright
      refine ((writeSlots_wrote hG hM tree rec is (fun j hj => hrec j (List.mem_cons_of_mem _ hj)) hnodup
        _ _ _ hright).mono (fun e he => he.right hG hw hslot.wrote hne) fun _ h => h).bind ?_
      rintro ⟨w', args2, blocks'⟩ hrow
      have hother := hrow.other
      exact {
        wrote := by
          have hr : blocks' i = r := (hother i hi).trans (Function.update_self ..)
          refine Wrote.append hG hM hw ?_ (fun _ => hcongr ▸ hrow.wrote) fun h => absurd h hne
          simp only [hr]
          exact hslot.wrote
        flag := fun h _ => by simp [hfirst h]
        same := fun h => by
          simp only [Bool.or_eq_false_iff] at h
          exact (hrow.same h.2).trans (hsame h.1)
        other := fun j hj => by
          rw [List.mem_cons, not_or] at hj
          exact (hother j hj.2).trans (Function.update_of_ne hj.1 ..) }

end Slots

theorem blockCount_eq (hF : args.fs.Fit G M) :
    args.blockCount = args.data.blocks.toNat / G.sectors := by
  rw [WriteRecArgs.blockCount, InodeData.getBlockCount, ← hF.geometry]
  rfl

/-- What `newBlock` leaves: block `r` is allocated and counted. -/
structure NewBlock (G : Geometry) (M : Nat → Prop) (args : WriteRecArgs)
    (res : UInt32 × WriteRecArgs) : Prop where
  grown : args.fs.Grown res.2.fs G M [res.1.toNat] []
  rest : res.2 =
    { args with fs := res.2.fs, data := { args.data with blocks := res.2.data.blocks } }
  count : res.2.blockCount = args.blockCount + 1
  counted : res.2.data.blocks.toNat = res.2.blockCount * G.sectors

theorem newBlock_spec (hG : G.Sound) (hF : args.fs.Fit G M)
    (hcount : args.data.blocks.toNat = args.blockCount * G.sectors)
    (hroom : (args.blockCount + 1) * G.sectors < 2 ^ 32) (inode : Nat) :
    Ensures (args.newBlock inode)
      (fun e => e = .bsod "No space on disk :-(" ∧ args.fs.available = 0) (NewBlock G M args) := by
  refine (FS.getNewBlock_grown hF hG inode).bind ?_
  rintro ⟨b, fs⟩ hgrown
  have hsec : (2 <<< fs.sb.logBlockSize.toNat : Nat) = G.sectors :=
    congrArg Geometry.sectors hgrown.fit.geometry
  have hb : b < 2 ^ 32 := (hgrown.lt b (List.mem_singleton.mpr rfl)).trans hG.blocksCount_lt
  have hblocks : (args.data.incrBlockCount 1 fs.sb).blocks.toNat =
      (args.blockCount + 1) * G.sectors :=
    InodeData.toNat_incrBlockCount hsec hcount (by push_cast; ring) hroom
  have hbc : (args.data.incrBlockCount 1 fs.sb).getBlockCount fs.sb = args.blockCount + 1 := by
    rw [InodeData.getBlockCount, hblocks, hsec, Nat.mul_div_cancel _ hG.sectors_pos]
  exact {
    grown := by
      simp only [UInt32.toNat_ofNat']
      rw [Nat.mod_eq_of_lt hb]
      exact hgrown
    rest := rfl
    count := hbc
    counted := hblocks.trans (congrArg (· * G.sectors) hbc.symm) }

/-- What `writeBytes` leaves of the bytes of the block. -/
theorem writeBytes_byte {r : UInt32} (hF : args.fs.Fit G M) {i : Nat} (hi : i < G.blockSize) :
    (args.writeBytes r).fs.part (r.toNat * G.blockSize + i) =
      if args.addr ≤ i ∧ i < args.addr + args.bytes.length then args.bytes.getD (i - args.addr) 0
      else args.fs.part (r.toNat * G.blockSize + i) := by
  have hB : args.fs.blockSize = G.blockSize := congrArg Geometry.blockSize hF.geometry
  rw [WriteRecArgs.writeBytes]
  by_cases haddr : args.addr < G.blockSize
  · simp only [hB, if_pos haddr, Bytes.blit, Bytes.ofList]
    by_cases hin : args.addr ≤ i ∧ i < args.addr + args.bytes.length
    · rw [if_pos (by omega), if_pos hin]
      congr 1
      omega
    · rw [if_neg (by omega), if_neg hin]
  · simp only [hB, if_neg haddr]
    rw [if_neg (by omega)]

theorem writeBytes_grown {r : UInt32} (hG : G.Sound) (hM : G.Metadata M) (hF : args.fs.Fit G M)
    (hr : G.Owned M args.fs.part r.toNat) :
    args.fs.Grown (args.writeBytes r).fs G M [] [r.toNat] := by
  have hB : args.fs.blockSize = G.blockSize := congrArg Geometry.blockSize hF.geometry
  rw [WriteRecArgs.writeBytes]
  by_cases haddr : args.addr < args.fs.blockSize
  · simp only [if_pos haddr]
    refine FS.blit_grown hF hG hM _ hr ?_ ?_ <;> rw [hB] at * <;> omega
  · simp only [if_neg haddr]
    exact (FS.Grown.refl hF).mono .rfl fun _ h => nomatch h

theorem writeBytes_args {r : UInt32} (hF : args.fs.Fit G M) :
    args.writeBytes r = { args with
      fs := (args.writeBytes r).fs
      bytes := args.bytes.drop (G.blockSize - args.addr)
      addr := args.addr - G.blockSize } := by
  have hB : args.fs.blockSize = G.blockSize := congrArg Geometry.blockSize hF.geometry
  rw [WriteRecArgs.writeBytes]
  by_cases haddr : args.addr < G.blockSize
  · simp only [hB, if_pos haddr]
    rw [show args.addr - G.blockSize = 0 by omega]
    congr 1
    rcases Nat.le_total (G.blockSize - args.addr) args.bytes.length with h | h
    · rw [Nat.min_eq_left h]
    · rw [Nat.min_eq_right h, List.drop_length, List.drop_eq_nil_of_le h]
  · simp only [hB, if_neg haddr]
    rw [show G.blockSize - args.addr = 0 by omega, List.drop_zero]

/-- With bytes to write a tree has at least one block of data afterwards. -/
theorem grown_pos (hG : G.Sound) (hcap : 0 < S.cap) (hbytes : args.bytes ≠ []) :
    0 < grown G S k args := by
  have hpos := List.length_pos_of_ne_nil hbytes
  have : ¬G.blocksFor (args.addr + args.bytes.length) ≤ 0 := fun h =>
    absurd ((blocksFor_le_iff hG).mp h) (by omega)
  simp only [grown]
  omega

/-- A new block fits. -/
theorem Writable.room_new {P : BlockMap G.Same S} (hG : G.Sound) (hcap : 0 < S.cap)
    (hw : Writable G M limit P 0 args) : args.blockCount + 1 ≤ limit := by
  have hexact := hw.exact hcap
  have hroom := hw.room
  have := S.total_lt (grown_pos (k := 0) hG hcap hw.bytes)
  rw [S.total_zero] at hexact this
  omega

/-- No block is there for a new tree. -/
theorem Short.new {e : Fault} (hG : G.Sound) (hcap : 0 < S.cap) (hbytes : args.bytes ≠ [])
    (he : e = .bsod "No space on disk :-(" ∧ args.fs.available = 0) : Short G S 0 args e := by
  refine ⟨he.1, ?_⟩
  have := S.total_lt (grown_pos (k := 0) hG hcap hbytes)
  rw [S.total_zero] at this ⊢
  omega

/-- The write of bytes to the block of data `r'`, which was there or is new. -/
theorem writeBytes_wrote {r r' : UInt32} (hG : G.Sound) (hM : G.Metadata M)
    (hlim : limit * G.sectors < 2 ^ 32) (hw : Writable G M limit (G.tree 0 r.toNat) k args)
    (hgrew : Grew G M (G.tree 0 r.toNat) (G.tree 0 r'.toNat) k 1 args.fs args1.fs)
    (hrest : args1 =
      { args with fs := args1.fs, data := { args.data with blocks := args1.data.blocks } })
    (hcount : args1.blockCount + k = args.blockCount + 1)
    (hcounted : args1.data.blocks.toNat = args1.blockCount * G.sectors)
    (hbytes : k = 1 → ∀ i < G.blockSize,
      args1.fs.part (r'.toNat * G.blockSize + i) = args.fs.part (r.toNat * G.blockSize + i)) :
    Wrote G M (G.tree 0 r.toNat) (G.tree 0 r'.toNat) k args
      { args1.writeBytes r' with blockNum := u32 ((args1.writeBytes r').blockNum + 1) } := by
  have hcap : (G.treeShape 0).cap = 1 := rfl
  have hk : k ≤ 1 := hw.cap
  have hgrown : grown G (G.treeShape 0) k args = 1 := by
    have := grown_pos (S := G.treeShape 0) (k := k) hG (hG.cap_pos 0) hw.bytes
    have := @grown_le G (G.treeShape 0) k args hw.cap
    omega
  have hleaves : ∀ (b : Nat) (m : Bytes), (G.tree 0 b).leaves m 1 = [b] := fun _ _ => rfl
  have hnodes : ∀ (b : Nat) (m : Bytes), (G.tree 0 b).nodes m 1 = [b] := fun _ _ => rfl
  have hbyte : ∀ (m : Bytes) (b i : Nat), i < G.blockSize →
      G.byteAt m [b] i = m (b * G.blockSize + i) := fun m b i hi => by
    rw [byteAt, Nat.div_eq_of_lt hi, Nat.mod_eq_of_lt hi]
    rfl
  have hF1 := hgrew.fit
  have howned : G.Owned M args1.fs.part r'.toNat :=
    (hgrew.held hw.fit hw.held).owned _ (by rw [hnodes]; exact List.mem_singleton.mpr rfl)
  have hwrite := writeBytes_grown hG hM hF1 howned
  have hargs := writeBytes_args (r := r') hF1
  have hbs : args1.bytes = args.bytes := by rw [hrest]
  have haddr : args1.addr = args.addr := by rw [hrest]
  have hnum : args1.blockNum = args.blockNum := by rw [hrest]
  have hdata : (args1.writeBytes r').data = args1.data := by rw [hargs]
  have hbc : (args1.writeBytes r').blockCount = args1.blockCount := by
    rw [blockCount_eq hwrite.fit, blockCount_eq hF1, hdata]
  have hroom := hw.room
  rw [hgrown, show (G.treeShape 0).total 1 = 1 from rfl] at hroom
  have hlt : args.blockNum + 1 < 2 ^ 32 := by
    have := Nat.mul_le_mul hroom hG.sectors_pos
    omega
  have hnew := fun i hi => writeBytes_byte (r := r') hF1 (i := i) hi
  rw [hbs, haddr] at hnew
  exact {
    grew := by
      rw [hgrown]
      obtain ⟨leaves, inner, hl, hi, hg⟩ := hgrew
      refine ⟨leaves, inner, hl, hi, (hg.trans hwrite).mono (by rw [List.append_nil]) ?_⟩
      intro b hb
      rw [hnodes] at hb ⊢
      simpa using hb
    counted := by
      show (args1.writeBytes r').data.blocks.toNat = (args1.writeBytes r').blockCount * G.sectors
      rw [hbc, hdata, hcounted]
    count := by
      show (args1.writeBytes r').blockCount + _ = _
      rw [hbc, hgrown, show (G.treeShape 0).total k = k from rfl]
      exact hcount
    data := by
      show (args1.writeBytes r').data = { args.data with blocks := (args1.writeBytes r').data.blocks }
      rw [hdata, hrest]
    bytes := by
      show (args1.writeBytes r').bytes = _
      rw [hargs, hcap, Nat.one_mul, hbs, haddr]
    addr := fun _ => by
      show (args1.writeBytes r').addr = _
      rw [hargs, hcap, Nat.one_mul, haddr]
    num := fun _ => by
      show u32 ((args1.writeBytes r').blockNum + 1) = _
      rw [hargs, hnum, u32_of_lt hlt]
      rfl
    written := fun i h1 h2 h3 => by
      rw [hcap, Nat.one_mul] at h3
      rw [hgrown, hleaves, hbyte _ _ _ h3]
      exact (hnew i h3).trans (if_pos ⟨h1, h2⟩)
    kept := fun i hi hout => by
      rcases Nat.le_one_iff_eq_zero_or_eq_one.mp hk with rfl | rfl
      · omega
      · rw [Nat.one_mul] at hi
        rw [hgrown, hleaves, hleaves, hbyte _ _ _ hi, hbyte _ _ _ hi]
        exact (hnew i hi).trans ((if_neg (by omega)).trans (hbytes rfl i hi)) }

/-- `writerec` writes to a block of data that is not passed over. -/
theorem writeData_wrote {r : UInt32} (hG : G.Sound) (hM : G.Metadata M)
    (hlim : limit * G.sectors < 2 ^ 32) (hw : Writable G M limit (G.tree 0 r.toNat) k args)
    (inode : Nat) : Ensures (writeData inode args r) (Short G (G.treeShape 0) k args)
      (WroteSlot G M (fun r => G.tree 0 r.toNat) r k args) := by
  have hk : k ≤ 1 := hw.cap
  have hreached := hw.reached
  rw [show (G.treeShape 0).total k = k from rfl] at hreached
  rw [writeData, WriteRecArgs.dataBlock]
  rcases Nat.le_one_iff_eq_zero_or_eq_one.mp hk with rfl | rfl
  · have hexact : args.blockCount = args.blockNum := hw.exact (hG.cap_pos 0)
    rw [if_pos hexact.le]
    have hroom := hw.room_new hG (hG.cap_pos 0)
    have hnew := newBlock_spec hG hw.fit hw.counted
      (lt_of_le_of_lt (Nat.mul_le_mul_right _ hroom) hlim) inode
    simp only [bind_assoc]
    refine (hnew.mono (fun e he => .new hG (hG.cap_pos 0) hw.bytes he) fun _ h => h).bind ?_
    rintro ⟨r', args1⟩ hnb
    exact {
      wrote := writeBytes_wrote hG hM hlim hw
        ⟨[r'.toNat], [], rfl, rfl, hnb.grown.mono .rfl fun _ h => nomatch h⟩ hnb.rest hnb.count
        hnb.counted fun h => nomatch h
      flag := rfl
      same := fun h => absurd rfl h }
  · rw [if_neg (by omega)]
    exact {
      wrote := writeBytes_wrote hG hM hlim hw (.refl hw.fit) rfl rfl hw.counted fun _ _ _ => rfl
      flag := rfl
      same := fun _ => rfl }

theorem lt_grown (hG : G.Sound) {i : Nat} (h : i < args.addr + args.bytes.length)
    (hcap : i < S.cap * G.blockSize) : i < grown G S k args * G.blockSize := by
  have hmin : i < min S.cap (G.blocksFor (args.addr + args.bytes.length)) * G.blockSize := by
    rcases min_choice S.cap (G.blocksFor (args.addr + args.bytes.length)) with h' | h' <;> rw [h']
    · exact hcap
    · exact lt_of_lt_of_le h (le_blocksFor hG _)
  exact lt_of_lt_of_le hmin (Nat.mul_le_mul_right _ (Nat.le_max_right ..))

/-- Where the row of an indirect block starts from: the block `r'` is new and all of it is 0, or it
is the block `r` that was there. -/
structure RowStart (G : Geometry) (M : Nat → Prop) (level r r' : Nat) (f : Nat → Nat) (k : Nat)
    (args args1 : WriteRecArgs) : Prop where
  fs : k = 0 ∧ args.fs.Grown args1.fs G M [r'] [] ∨
    k ≠ 0 ∧ r' = r ∧ args1.fs = args.fs ∧ ∀ i < G.fanout, f i = G.pointer args.fs.part r i
  addr : args1.addr = args.addr
  bytes : args1.bytes = args.bytes
  num : args1.blockNum = args.blockNum + 1
  data : args1.data = { args.data with blocks := args1.data.blocks }
  count : args1.blockCount = args.blockCount + if k = 0 then 1 else 0
  counted : args1.data.blocks.toNat = args1.blockCount * G.sectors

section Indirect

variable {level r r' : Nat} {f f' : Nat → Nat} {res : WriteRecArgs}

theorem RowStart.grown_eq (hs : RowStart G M level r r' f k args args1) :
    grown G (G.rowShape level) k args1 = grown G (G.treeShape (level + 1)) k args := by
  rw [grown, grown, hs.addr, hs.bytes]
  rfl

/-- The blocks of the row are held, and the indirect block besides. -/
theorem RowStart.held (hs : RowStart G M level r r' f k args args1)
    (hw : Writable G M limit (G.tree (level + 1) r) k args) :
    args1.fs.Fit G M ∧
      G.Held M args1.fs.part (r' :: (G.row level f).nodes args1.fs.part k) := by
  rcases hs.fs with ⟨rfl, hgrown⟩ | ⟨hk, rfl, hfs, hf⟩
  · rw [BlockMap.nodes_zero]
    exact ⟨hgrown.fit, List.nodup_singleton _, fun b hb => hgrown.fresh_owned hw.fit hb⟩
  · have hheld := hw.held
    rw [nodes_tree_succ G level r' _ hk] at hheld
    rw [hfs, G.row_congr hf]
    exact ⟨hw.fit, hheld⟩

theorem RowStart.writable (hG : G.Sound) (hs : RowStart G M level r r' f k args args1)
    (hw : Writable G M limit (G.tree (level + 1) r) k args) :
    Writable G M limit (G.row level f) k args1 := by
  obtain ⟨hfit, hheld⟩ := hs.held hw
  have hcount := hs.count
  have hreached := hw.reached
  have hroom := hw.room
  have hpos := grown_pos (k := k) hG (hG.cap_pos (level + 1)) hw.bytes
  have htotal : (G.treeShape (level + 1)).total (grown G (G.treeShape (level + 1)) k args) =
      (G.rowShape level).total (grown G (G.treeShape (level + 1)) k args) + 1 :=
    Shape.total_wrap _ hpos.ne'
  rw [htotal] at hroom
  have hk : (G.treeShape (level + 1)).total k + (if k = 0 then 1 else 0) =
      (G.rowShape level).total k + 1 := by
    by_cases h : k = 0
    · rw [if_pos h, h, Shape.total_zero, Shape.total_zero]
    · rw [if_neg h]
      exact Shape.total_wrap _ h
  exact {
    fit := hfit
    cap := hw.cap
    bytes := by rw [hs.bytes]; exact hw.bytes
    counted := hs.counted
    reached := by rw [hs.num]; omega
    exact := fun h => by
      have := hw.exact h
      rw [hs.num]
      omega
    room := by rw [hs.num, hs.grown_eq]; omega
    limit := by
      have := hw.limit
      by_cases h : k = 0
      · subst h
        have := hw.room_new hG (hG.cap_pos (level + 1))
        rw [if_pos rfl] at hcount
        omega
      · rw [if_neg h] at hcount
        omega
    held := @Held.append_right G M _ [r'] _ hheld }

/-- A row that is written, and the indirect block with its entries. -/
theorem RowStart.wrote {fs : FS} (hG : G.Sound) (hM : G.Metadata M)
    (hs : RowStart G M level r r' f k args args1)
    (hw : Writable G M limit (G.tree (level + 1) r) k args)
    (hrow : Wrote G M (G.row level f) (G.row level f') k args1 res)
    (hwrite : res.fs.Grown fs G M [] [r'])
    (hptr : ∀ i < G.fanout, G.pointer fs.part r' i = f' i) :
    Wrote G M (G.tree (level + 1) r) (G.tree (level + 1) r') k args { res with fs } := by
  obtain ⟨hfit, hheld⟩ := hs.held hw
  have hgrown := hs.grown_eq
  have hpos := grown_pos (k := k) hG (hG.cap_pos (level + 1)) hw.bytes
  have hcap : grown G (G.treeShape (level + 1)) k args ≤ (G.rowShape level).cap :=
    grown_le hw.cap
  have hrowgrew := hrow.grew
  have hcount := hrow.count
  have hwritten := hrow.written
  have hkept := hrow.kept
  rw [hgrown] at hrowgrew hcount hwritten hkept
  rw [hs.addr, hs.bytes] at hwritten hkept
  -- The indirect block is beside the row.
  obtain ⟨-, hr, -⟩ := hrowgrew.other hM (hheld.owned r' List.mem_cons_self)
    (List.nodup_cons.mp hheld.nodup).1
  have hrowheld := hrowgrew.held hfit (@Held.append_right G M _ [r'] _ hheld)
  have hsame : ∀ b ∈ (G.row level f').nodes res.fs.part (grown G (G.treeShape (level + 1)) k args),
      G.Same res.fs.part fs.part b := fun b hb =>
    hwrite.same hM (hrowheld.owned b hb).lt (hrowheld.owned b hb).data (by
      rw [List.mem_singleton]
      rintro rfl
      exact hr hb)
  obtain ⟨hinner, hleaves⟩ := (G.row level f').congr res.fs.part fs.part _
    (fun b hb => hsame b (List.mem_append_left _ hb)) hcap
  have hbyte : ∀ i < grown G (G.treeShape (level + 1)) k args * G.blockSize,
      G.byteAt fs.part ((G.tree (level + 1) r').leaves fs.part
        (grown G (G.treeShape (level + 1)) k args)) i =
      G.byteAt res.fs.part ((G.row level f').leaves res.fs.part
        (grown G (G.treeShape (level + 1)) k args)) i := fun i hi => by
    rw [leaves_tree_succ, G.row_congr hptr, hleaves]
    exact byteAt_congr hG.blockSize_pos
      (by rwa [(G.row level f').length_leaves _ _ hcap])
      fun b hb => hsame b (List.mem_append_right _ hb)
  have hbc : ({ res with fs } : WriteRecArgs).blockCount = res.blockCount := by
    rw [blockCount_eq hwrite.fit, blockCount_eq hrow.grew.fit]
  exact {
    grew := by
      obtain ⟨l, i, hl, hi, hg⟩ := hrowgrew
      rcases hs.fs with ⟨rfl, hnew⟩ | ⟨hk, rfl, hfs, hf⟩
      · rw [BlockMap.leaves_zero, List.nil_append] at hl
        rw [BlockMap.inner_zero, List.nil_append] at hi
        refine ⟨l, r' :: i, ?_, ?_, ((hnew.trans hg).trans hwrite).mono ?_ ?_⟩
        · rw [leaves_tree_succ, G.row_congr hptr, hleaves, hl, BlockMap.leaves_zero,
            List.nil_append]
        · rw [inner_tree_succ G _ _ _ hpos.ne', G.row_congr hptr, hinner, hi, BlockMap.inner_zero,
            List.nil_append]
        · rw [List.append_nil, List.singleton_append]
          exact List.perm_middle.symm
        · intro b hb
          rw [nodes_tree_succ G _ _ _ hpos.ne', G.row_congr hptr, BlockMap.nodes, hinner, hleaves]
          simp only [List.nil_append, List.mem_append, List.mem_singleton] at hb
          exact List.mem_cons.mpr hb.symm
      · rw [hfs] at hl hi hg
        refine ⟨l, i, ?_, ?_, (hg.trans hwrite).mono (by rw [List.append_nil]) ?_⟩
        · rw [leaves_tree_succ, leaves_tree_succ, G.row_congr hptr, hleaves, hl, G.row_congr hf]
        · rw [inner_tree_succ G _ _ _ hpos.ne', inner_tree_succ G _ _ _ hk, G.row_congr hptr, hinner,
            hi, G.row_congr hf, List.cons_append]
        · intro b hb
          rw [nodes_tree_succ G _ _ _ hpos.ne', G.row_congr hptr, BlockMap.nodes, hinner, hleaves]
          simp only [List.mem_append, List.mem_singleton] at hb
          exact List.mem_cons.mpr hb.symm
    counted := hrow.counted.trans (congrArg (· * G.sectors) hbc.symm)
    count := by
      rw [hbc]
      have hcount1 := hs.count
      have htotal : (G.treeShape (level + 1)).total (grown G (G.treeShape (level + 1)) k args) =
          (G.rowShape level).total (grown G (G.treeShape (level + 1)) k args) + 1 :=
        Shape.total_wrap _ hpos.ne'
      by_cases h : k = 0
      · subst h
        rw [if_pos rfl] at hcount1
        rw [Shape.total_zero] at hcount ⊢
        omega
      · rw [if_neg h] at hcount1
        have : (G.treeShape (level + 1)).total k = (G.rowShape level).total k + 1 :=
          Shape.total_wrap _ h
        omega
    data := by
      show res.data = _
      rw [hrow.data, hs.data]
    bytes := by
      show res.bytes = _
      rw [hrow.bytes, hs.addr, hs.bytes]
      rfl
    addr := fun h => by
      show res.addr = _
      rw [hrow.addr h, hs.addr]
      rfl
    num := fun h => by
      show res.blockNum = _
      rw [hrow.num h, hs.num]
      have : (G.treeShape (level + 1)).total (G.treeShape (level + 1)).cap =
          (G.rowShape level).total (G.rowShape level).cap + 1 :=
        Shape.total_wrap _ (hG.cap_pos (level + 1)).ne'
      omega
    written := fun i h1 h2 h3 => by
      rw [hbyte i (lt_grown hG h2 h3)]
      exact hwritten i h1 h2 h3
    kept := fun i hi hout => by
      rw [hbyte i (lt_of_lt_of_le hi (Nat.mul_le_mul_right _ le_grown)), hkept i hi hout]
      rcases hs.fs with ⟨rfl, -⟩ | ⟨-, -, hfs, hf⟩
      · omega
      · rw [hfs, leaves_tree_succ, G.row_congr hf] }

/-- A row without space leaves its tree without space. -/
theorem RowStart.short {e : Fault} (hG : G.Sound) (hs : RowStart G M level r r' f k args args1)
    (hw : Writable G M limit (G.tree (level + 1) r) k args)
    (h : Short G (G.rowShape level) k args1 e) : Short G (G.treeShape (level + 1)) k args e := by
  refine ⟨h.1, ?_⟩
  have hshort := h.2
  have hpos := grown_pos (k := k) hG (hG.cap_pos (level + 1)) hw.bytes
  have htotal : (G.treeShape (level + 1)).total (grown G (G.treeShape (level + 1)) k args) =
      (G.rowShape level).total (grown G (G.treeShape (level + 1)) k args) + 1 :=
    Shape.total_wrap _ hpos.ne'
  rw [hs.grown_eq] at hshort
  rcases hs.fs with ⟨rfl, hgrown⟩ | ⟨hk, -, hfs, -⟩
  · have havail := hgrown.available
    rw [Shape.total_zero] at hshort ⊢
    rw [List.length_singleton] at havail
    omega
  · have : (G.treeShape (level + 1)).total k = (G.rowShape level).total k + 1 :=
      Shape.total_wrap _ hk
    rw [hfs] at hshort
    omega

end Indirect

/-- A full tree needs no new block. -/
theorem not_short_full {e : Fault} : ¬Short G S S.cap args e := fun h => by
  have := h.2
  have hgrown : grown G S S.cap args = S.cap := by simp only [grown]; omega
  rw [hgrown] at this
  omega

/-- `canSkip` says that the tree is full. -/
theorem Writable.canSkip_iff {level : Nat} {P : BlockMap G.Same (G.treeShape level)}
    (hG : G.Sound) (hw : Writable G M limit P k args) :
    args.canSkip level = true ↔ k = (G.treeShape level).cap := by
  rw [WriteRecArgs.canSkip, decide_eq_true_iff, FS.indirectBlock_eq hw.fit.geometry hG]
  have hcap := hw.cap
  have hreached := hw.reached
  have hpos := (G.treeShape level).total_lt (hG.cap_pos level)
  rw [Shape.total_zero] at hpos
  constructor
  · intro h
    by_contra hk
    have hexact := hw.exact (by omega)
    have := (G.treeShape level).total_lt (show k < (G.treeShape level).cap by omega)
    omega
  · rintro rfl
    omega

/-- What the loop over a row leaves of it. -/
structure WroteEntries (G : Geometry) (M : Nat → Prop) (level : Nat) (blocks : Nat → UInt32)
    (k : Nat) (args : WriteRecArgs) (res : Bool × WriteRecArgs × (Nat → UInt32)) : Prop where
  wrote : Wrote G M (G.row level fun i => (blocks i).toNat)
    (G.row level fun i => (res.2.2 i).toNat) k args res.2.1
  flag : k = 0 → res.1 = true
  same : res.1 = false → res.2.2 = blocks

/-- The loop over a row from entry `starti` on, where the entries before it are full. -/
theorem writeRow_wrote (hG : G.Sound) (hM : G.Metadata M) {level : Nat}
    {rec : WriteRecArgs → UInt32 → Except Fault Written}
    (hrec : ∀ k args r, Writable G M limit (G.tree level r.toNat) k args →
      Ensures (rec args r) (Short G (G.treeShape level) k args)
        (WroteSlot G M (fun r => G.tree level r.toNat) r k args))
    {blocks : Nat → UInt32} {starti : Nat}
    (hw : Writable G M limit (G.row level fun i => (blocks i).toNat) k args)
    (hstart : starti ≤ G.fanout) (hfull : starti ≠ 0 → k = (G.rowShape level).cap)
    (hle : starti * (G.treeShape level).cap * G.blockSize ≤ args.addr) :
    Ensures (writeSlots (fun _ => rec) (List.range' starti (G.fanout - starti))
        { args with
          blockNum := args.blockNum + starti * (G.treeShape level).total (G.treeShape level).cap
          addr := args.addr - starti * (G.treeShape level).cap * G.blockSize } blocks)
      (Short G (G.rowShape level) k args) (WroteEntries G M level blocks k args) := by
  have hcap : (Shape.concat (fun _ => G.treeShape level) (List.range' 0 starti)).cap =
      starti * (G.treeShape level).cap := by
    rw [Shape.cap_concat_const, List.length_range']
  have htotal : (Shape.concat (fun _ => G.treeShape level) (List.range' 0 starti)).total
      (Shape.concat (fun _ => G.treeShape level) (List.range' 0 starti)).cap =
      starti * (G.treeShape level).total (G.treeShape level).cap := by
    rw [Shape.total_concat_const, List.length_range']
  have hrowcap : (G.rowShape level).cap = G.fanout * (G.treeShape level).cap := by
    rw [rowShape, Shape.cap_concat_const, List.length_range]
  have hk : starti * (G.treeShape level).cap ≤ k := by
    by_cases h : starti = 0
    · simp [h]
    · rw [hfull h, hrowcap]
      exact Nat.mul_le_mul_right _ hstart
  have hloop : ∀ is, is = List.range' 0 starti ++ List.range' starti (G.fanout - starti) →
      Writable G M limit (.concat (fun i => G.tree level (blocks i).toNat) is) k args →
      Ensures (writeSlots (fun _ => rec) (List.range' starti (G.fanout - starti))
        { args with
          blockNum := args.blockNum + starti * (G.treeShape level).total (G.treeShape level).cap
          addr := args.addr - starti * (G.treeShape level).cap * G.blockSize } blocks)
        (Short G (.concat (fun _ => G.treeShape level) is) k args)
        (fun res => Wrote G M (.concat (fun i => G.tree level (blocks i).toNat) is)
          (.concat (fun i => G.tree level (res.2.2 i).toNat) is) k args res.2.1 ∧
          (k = 0 → res.1 = true) ∧ (res.1 = false → res.2.2 = blocks)) := by
    rintro _ rfl hw
    have hskip := hw.skip hG hM (List.range' 0 starti) (by omega) (by rw [hcap]; exact hle)
    rw [hcap] at htotal
    rw [hcap, htotal] at hskip
    refine (writeSlots_wrote hG hM (fun _ r => G.tree level r.toNat) (fun _ => rec) _
      (fun _ _ k args r => hrec k args r) (List.nodup_range' ..) _ _ _ hskip).mono
      (fun e he => ?_) fun res hrow => ⟨?_, fun h => ?_, hrow.same⟩
    · by_cases h : starti = 0
      · subst h
        simpa using he
      · have hk' : k - starti * (G.treeShape level).cap = (Shape.concat (fun _ => G.treeShape level)
            (List.range' starti (G.fanout - starti))).cap := by
          rw [Shape.cap_concat_const, List.length_range', hfull h, hrowcap, Nat.sub_mul]
        rw [hk'] at he
        exact absurd he not_short_full
    · refine Wrote.skip hG hM (List.range' 0 starti) (fun i hi => ?_) hw (by omega)
        (by rw [hcap]; exact hle) (by rw [hcap, htotal]; exact hrow.wrote)
      have hi := List.mem_range'_1.mp hi
      rw [hrow.other i fun h => by have := List.mem_range'_1.mp h; omega]
    · have h0 : starti = 0 := by
        by_contra hne
        have := Nat.mul_pos (show 0 < G.fanout by omega) (hG.cap_pos level)
        have := hfull hne
        omega
      refine hrow.flag (by omega) fun hnil => ?_
      have hlen := congrArg List.length hnil
      have := hG.fanout_ge
      rw [List.length_range', List.length_nil] at hlen
      omega
  exact (hloop _ (range_split hstart) hw).mono (fun _ h => h) fun _ h => ⟨h.1, h.2.1, h.2.2⟩

/-- What `indirectBlock` leaves: the indirect block and its array. -/
structure Opened (G : Geometry) (M : Nat → Prop) (level : Nat) (r : UInt32) (k : Nat)
    (args : WriteRecArgs) (res : Written × (Nat → UInt32)) : Prop where
  flag : res.1.1 = decide (k = 0)
  start : RowStart G M level r.toNat res.1.2.2.toNat (fun i => (res.2 i).toNat) k args
    { res.1.2.1 with blockNum := args.blockNum + 1 }
  same : k ≠ 0 → res.1.2.2 = r
  num : res.1.2.1.blockNum = args.blockNum

theorem indirectBlock_opened {level : Nat} {r : UInt32} (hG : G.Sound)
    (hlim : limit * G.sectors < 2 ^ 32)
    (hw : Writable G M limit (G.tree (level + 1) r.toNat) k args) (inode : Nat) :
    Ensures (args.indirectBlock inode r) (Short G (G.treeShape (level + 1)) k args)
      (Opened G M level r k args) := by
  rw [WriteRecArgs.indirectBlock]
  by_cases hk : k = 0
  · subst hk
    have hexact : args.blockCount = args.blockNum := by
      have := hw.exact (hG.cap_pos _)
      rwa [Shape.total_zero] at this
    rw [if_pos hexact.le, hexact, beq_self_eq_true, assert_true]
    have hnew := newBlock_spec hG hw.fit hw.counted
      (lt_of_le_of_lt (Nat.mul_le_mul_right _ (hw.room_new hG (hG.cap_pos _))) hlim) inode
    refine (hnew.mono (fun e he => .new hG (hG.cap_pos _) hw.bytes he) fun _ h => h).bind ?_
    rintro ⟨r', args1⟩ hnb
    have hrest := hnb.rest
    simp only at hrest
    exact {
      flag := rfl
      start := {
        fs := .inl ⟨rfl, hnb.grown⟩
        addr := by show args1.addr = args.addr; rw [hrest]
        bytes := by show args1.bytes = args.bytes; rw [hrest]
        num := rfl
        data := by
          show args1.data = { args.data with blocks := args1.data.blocks }
          rw [hrest]
        count := hnb.count
        counted := hnb.counted }
      same := fun h => absurd rfl h
      num := by show args1.blockNum = args.blockNum; rw [hrest] }
  · have hreached := hw.reached
    have hpos := (G.treeShape (level + 1)).total_lt (Nat.pos_of_ne_zero hk)
    rw [Shape.total_zero] at hpos
    rw [if_neg (by omega)]
    exact {
      flag := by simp [hk]
      start := {
        fs := .inr ⟨hk, rfl, rfl, fun i hi => FS.toNat_pointers hw.fit.geometry r hi⟩
        addr := rfl
        bytes := rfl
        num := rfl
        data := rfl
        count := by rw [if_neg hk]; rfl
        counted := hw.counted }
      same := fun _ => rfl
      num := rfl }

/-- The entry of a row that the bytes begin in, as `writerec` computes it. -/
theorem Writable.entry {level : Nat} {f : Nat → Nat} (hG : G.Sound)
    (hlim : limit * G.sectors < 2 ^ 32) (hw : Writable G M limit (G.row level f) k args)
    (skip : Bool) (hskip : skip = true ↔ k = (G.rowShape level).cap)
    (hin : k = (G.rowShape level).cap → args.addr < (G.rowShape level).cap * G.blockSize)
    {starti : Nat} (hs : starti = if skip then args.addr / args.fs.indirectSize level else 0) :
    starti ≤ G.fanout ∧ (starti ≠ 0 → k = (G.rowShape level).cap) ∧
      starti * (G.treeShape level).cap * G.blockSize ≤ args.addr ∧
      (if skip then args.addr % args.fs.indirectSize level else args.addr) =
        args.addr - starti * (G.treeShape level).cap * G.blockSize ∧
      u32 (u32 args.blockNum + starti * args.fs.indirectBlock level) =
        args.blockNum + starti * (G.treeShape level).total (G.treeShape level).cap := by
  have hsize := FS.indirectSize_eq hw.fit.geometry level
  have hblock := FS.indirectBlock_eq hw.fit.geometry hG level
  have hrowcap : (G.rowShape level).cap = G.fanout * (G.treeShape level).cap := by
    rw [rowShape, Shape.cap_concat_const, List.length_range]
  have hreached := hw.reached
  have hlimit : args.blockCount < 2 ^ 32 := by
    have := Nat.mul_le_mul hw.limit hG.sectors_pos
    omega
  rw [u32_of_lt (show args.blockNum < 2 ^ 32 by omega), hblock]
  by_cases hk : skip = true
  · have hfull := hskip.mp hk
    have haddr := hin hfull
    rw [hrowcap, Nat.mul_assoc, ← hsize] at haddr
    rw [if_pos hk] at hs
    have hlt : starti < G.fanout := hs ▸ Nat.div_lt_of_lt_mul (by rwa [Nat.mul_comm])
    have hmod := Nat.div_add_mod args.addr (args.fs.indirectSize level)
    rw [← hs, Nat.mul_comm] at hmod
    have htotal : (G.rowShape level).total k =
        G.fanout * (G.treeShape level).total (G.treeShape level).cap := by
      rw [hfull, rowShape, Shape.total_concat_const, List.length_range]
    have hle := Nat.mul_le_mul_right ((G.treeShape level).total (G.treeShape level).cap) hlt.le
    rw [if_pos hk, Nat.mul_assoc, ← hsize]
    exact ⟨hlt.le, fun _ => hfull, by omega, by omega, u32_of_lt (by omega)⟩
  · rw [if_neg hk] at hs
    subst hs
    rw [if_neg hk]
    refine ⟨Nat.zero_le _, fun h => absurd rfl h, by simp, by simp, ?_⟩
    rw [Nat.zero_mul, u32_of_lt (by omega)]

/-- `writerec` writes to an indirect block that is not passed over, and below it. -/
theorem writeIndirect_wrote {level : Nat} {r : UInt32} (hG : G.Sound) (hM : G.Metadata M)
    (hlim : limit * G.sectors < 2 ^ 32) {rec : WriteRecArgs → UInt32 → Except Fault Written}
    (hrec : ∀ k args r, Writable G M limit (G.tree level r.toNat) k args →
      Ensures (rec args r) (Short G (G.treeShape level) k args)
        (WroteSlot G M (fun r => G.tree level r.toNat) r k args))
    (hw : Writable G M limit (G.tree (level + 1) r.toNat) k args)
    (hin : k = (G.treeShape (level + 1)).cap →
      args.addr < (G.treeShape (level + 1)).cap * G.blockSize) (inode : Nat) :
    Ensures (writeIndirect inode level rec args r) (Short G (G.treeShape (level + 1)) k args)
      (WroteSlot G M (fun r => G.tree (level + 1) r.toNat) r k args) := by
  have hskip := hw.canSkip_iff hG
  rw [writeIndirect]
  refine (indirectBlock_opened hG hlim hw inode).bind ?_
  rintro ⟨⟨retVal, args1, r'⟩, blocks⟩ hopen
  have hstart := hopen.start
  have hrow := hstart.writable hG hw
  have haddr1 : args1.addr = args.addr := hstart.addr
  have hnum1 : args1.blockNum = args.blockNum := hopen.num
  have hfan : args1.fs.blockSize / 4 = G.fanout := congrArg Geometry.fanout hrow.fit.geometry
  have hentry := hrow.entry hG hlim (args.canSkip (level + 1)) hskip
    (fun h => by simp only [haddr1]; exact hin h) rfl
  simp only [hnum1, hfan]
  generalize hst : (if args.canSkip (level + 1) = true then args1.addr / args1.fs.indirectSize level
    else 0) = starti at hentry ⊢
  obtain ⟨hle, hfull, hbegin, haddr, hnum⟩ := hentry
  simp only [haddr, hnum]
  refine ((writeRow_wrote hG hM hrec hrow hle hfull hbegin).mono
    (fun e he => hstart.short hG hw he) fun _ h => h).bind ?_
  rintro ⟨write, args2, blocks'⟩ hent
  have hflag : retVal = decide (k = 0) := hopen.flag
  have hassert : (!retVal || write) = true := by
    by_cases hk : k = 0
    · rw [show write = true from hent.flag hk, Bool.or_true]
    · simp [hflag, hk]
  obtain ⟨hfit, hheld⟩ := hstart.held hw
  obtain ⟨howned, -, hsame⟩ := hent.wrote.grew.other hM (hheld.owned _ List.mem_cons_self)
    (List.nodup_cons.mp hheld.nodup).1
  simp only [hassert, assert_true]
  refine {
    wrote := hstart.wrote hG hM hw hent.wrote ?_ ?_
    flag := hflag
    same := hopen.same }
  · cases write with
    | true =>
      have hB : args2.fs.blockSize = G.blockSize :=
        congrArg Geometry.blockSize hent.wrote.grew.fit.geometry
      exact FS.blit_grown hent.wrote.grew.fit hG hM _ howned (by rw [hB]) (by rw [hB])
    | false =>
      exact (FS.Grown.refl hent.wrote.grew.fit).mono .rfl fun _ h => nomatch h
  · intro i hi
    cases write with
    | true => exact FS.pointer_writePointers hent.wrote.grew.fit.geometry hG r' blocks' hi
    | false =>
      have hk : k ≠ 0 := fun h => nomatch hent.flag h
      rcases hstart.fs with ⟨h, -⟩ | ⟨-, hr, hfs, hf⟩
      · exact absurd h hk
      · rw [show blocks' = blocks from hent.same rfl, hf i hi, ← hr, ← hfs]
        exact congrFun (pointer_congr hsame) i

/-- A full tree that the bytes begin behind is passed over. -/
theorem skip_wrote {level : Nat} {r : UInt32} (hG : G.Sound) (hlim : limit * G.sectors < 2 ^ 32)
    (hw : Writable G M limit (G.tree level r.toNat) k args) (hskip : args.canSkip level = true)
    (hle : args.fs.indirectSize level ≤ args.addr) :
    WroteSlot G M (fun r => G.tree level r.toNat) r k args (false, args.skip level, r) := by
  obtain rfl := (hw.canSkip_iff hG).mp hskip
  have hreached := hw.reached
  have hlimit := Nat.mul_le_mul hw.limit hG.sectors_pos
  have hpos := hG.cap_pos level
  have heq : args.skip level = { args with
      blockNum := args.blockNum + (G.treeShape level).total (G.treeShape level).cap
      addr := args.addr - (G.treeShape level).cap * G.blockSize } := by
    rw [WriteRecArgs.skip, FS.indirectBlock_eq hw.fit.geometry hG,
      FS.indirectSize_eq hw.fit.geometry, u32_of_lt (by omega)]
  rw [FS.indirectSize_eq hw.fit.geometry] at hle
  exact {
    wrote := by rw [heq]; exact .pass hw hle
    flag := by simp [hpos.ne']
    same := fun _ => rfl }

/-- `writerec` writes to the tree of a level. -/
theorem writerec_wrote (hG : G.Sound) (hM : G.Metadata M) (hlim : limit * G.sectors < 2 ^ 32)
    (inode : Nat) : ∀ (level k : Nat) (args : WriteRecArgs) (r : UInt32),
    Writable G M limit (G.tree level r.toNat) k args →
    Ensures (writerec inode level args r) (Short G (G.treeShape level) k args)
      (WroteSlot G M (fun r => G.tree level r.toNat) r k args)
  | 0, k, args, r, hw => by
    rw [writerec, if_neg hw.bytes]
    split
    · next h =>
      rw [Bool.and_eq_true, decide_eq_true_eq] at h
      exact skip_wrote hG hlim hw h.1 h.2
    · exact writeData_wrote hG hM hlim hw inode
  | level + 1, k, args, r, hw => by
    rw [writerec, if_neg hw.bytes]
    split
    · next h =>
      rw [Bool.and_eq_true, decide_eq_true_eq] at h
      exact skip_wrote hG hlim hw h.1 h.2
    · next h =>
      refine writeIndirect_wrote hG hM hlim
        (fun k args r hw => writerec_wrote hG hM hlim inode level k args r hw) hw (fun hk => ?_) inode
      rw [Bool.and_eq_true, decide_eq_true_eq, hw.canSkip_iff hG,
        FS.indirectSize_eq hw.fit.geometry] at h
      exact Nat.lt_of_not_le fun hle => h ⟨hk, hle⟩

end SupOS.Ext2
