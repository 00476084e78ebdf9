import SupOS.Ext2.Tree

/-! What `readrec` and `i_readaddr` read: the bytes of the blocks of data, in their order. -/

namespace SupOS.Ext2

open Lib

open SupOS.Ext2.Geometry

variable {G : Geometry} {m : Bytes} {S T : Shape} {ι : Type}

/-- The block map `P` has `k` leaves, and they reach as far as the bytes to read. -/
structure Readable (G : Geometry) (S : Shape) (k : Nat) (args : ReadRecArgs) : Prop where
  cap : k ≤ S.cap
  reach : k = S.cap ∨ args.addr + args.size ≤ k * G.blockSize

/-- From `args` to `args'` the bytes of `P` from `args.addr` on were read, as far as `P` goes. -/
structure Read (G : Geometry) (m : Bytes) (P : BlockMap G.Same S) (k : Nat)
    (args args' : ReadRecArgs) : Prop where
  size : args'.size = args.size - (S.cap * G.blockSize - args.addr)
  addr : args'.size ≠ 0 → args'.addr = args.addr - S.cap * G.blockSize
  data : args'.data = args.data ++ G.content m (P.leaves m k) args.addr
    (min args.size (S.cap * G.blockSize - args.addr))

theorem Readable.full {k : Nat} {args : ReadRecArgs} (h : Readable G (S.append T) k args)
    (hpos : S.cap * G.blockSize < args.addr + args.size) : S.cap ≤ k := by
  have hcap := h.cap
  rcases h.reach with h | h
  · rw [Shape.cap_append] at h; omega
  · by_contra hlt
    have := Nat.mul_le_mul_right G.blockSize (Nat.le_of_lt (Nat.not_le.mp hlt))
    omega

theorem Readable.left {k : Nat} {args : ReadRecArgs} (h : Readable G (S.append T) k args) :
    Readable G S (min k S.cap) args where
  cap := Nat.min_le_right ..
  reach := by
    rcases Nat.le_total S.cap k with hk | hk
    · exact .inl (Nat.min_eq_right hk)
    · rw [Nat.min_eq_left hk]
      rcases h.reach with h | h
      · rw [Shape.cap_append] at h
        exact .inl (by omega)
      · exact .inr h

theorem Readable.right {k : Nat} {args args' : ReadRecArgs} (h : Readable G (S.append T) k args)
    (hpos : S.cap * G.blockSize < args.addr + args.size)
    (hend : args'.addr + args'.size + S.cap * G.blockSize = args.addr + args.size) :
    Readable G T (k - S.cap) args' where
  cap := by have := h.cap; rw [Shape.cap_append] at this; omega
  reach := by
    have hfull := h.full hpos
    rcases h.reach with h | h
    · rw [Shape.cap_append] at h
      exact .inl (by omega)
    · right
      rw [Nat.sub_mul]
      omega

/-- A block map that is read after another. -/
theorem Read.append (hB : 0 < G.blockSize) {P : BlockMap G.Same S} {Q : BlockMap G.Same T} {k : Nat}
    {args args1 args2 : ReadRecArgs} (hr : Readable G (S.append T) k args)
    (hP : Read G m P (min k S.cap) args args1) (hstop : args1.size = 0 → args2 = args1)
    (hQ : args1.size ≠ 0 → Read G m Q (k - S.cap) args1 args2) :
    Read G m (P.append Q) k args args2 := by
  have hcap := hr.cap
  rw [Shape.cap_append] at hcap
  have hlen : (P.leaves m (min k S.cap)).length = min k S.cap :=
    P.length_leaves m _ (Nat.min_le_right ..)
  have hsize := hP.size
  have hend : (S.cap + T.cap) * G.blockSize = S.cap * G.blockSize + T.cap * G.blockSize := by ring
  have hleft : ∀ i, i < min args.size (S.cap * G.blockSize - args.addr) →
      args.addr + i < (P.leaves m (min k S.cap)).length * G.blockSize := fun i hi => by
    rw [hlen]
    rcases hr.left.reach with h | h
    · rw [h]; omega
    · omega
  have hcontent : G.content m ((P.append Q).leaves m k) args.addr
      (min args.size (S.cap * G.blockSize - args.addr)) =
      G.content m (P.leaves m (min k S.cap)) args.addr
        (min args.size (S.cap * G.blockSize - args.addr)) :=
    content_congr fun i hi => byteAt_append_left (hleft i hi)
  by_cases hdone : args1.size = 0
  · obtain rfl := hstop hdone
    refine ⟨?_, fun h => absurd hdone h, ?_⟩
    · rw [Shape.cap_append, hend]; omega
    · rw [hP.data, ← hcontent, Shape.cap_append, hend]
      congr 2
      omega
  · have hQ := hQ hdone
    have haddr := hP.addr hdone
    have hsize2 := hQ.size
    have hfull : S.cap ≤ k := hr.full (by omega)
    rw [Nat.min_eq_right hfull] at hlen
    refine ⟨?_, fun h => ?_, ?_⟩
    · rw [Shape.cap_append, hend]; omega
    · rw [hQ.addr h, haddr, Shape.cap_append, hend]; omega
    · have hright : G.content m (Q.leaves m (k - S.cap)) args1.addr
          (min args1.size (T.cap * G.blockSize - args1.addr)) =
          G.content m ((P.append Q).leaves m k)
            (args.addr + min args.size (S.cap * G.blockSize - args.addr))
            (min args1.size (T.cap * G.blockSize - args1.addr)) := by
        refine content_congr fun i _ => ?_
        rw [show args.addr + min args.size (S.cap * G.blockSize - args.addr) + i =
          (P.leaves m (min k S.cap)).length * G.blockSize + (args1.addr + i) by
            rw [Nat.min_eq_right hfull, hlen]; omega]
        exact (byteAt_append_right hB).symm
      rw [hQ.data, hP.data, ← hcontent, hright, List.append_assoc, ← content_add, Shape.cap_append,
        hend]
      congr 2
      omega

/-- Nothing is left to read. -/
theorem Read.done {P : BlockMap G.Same S} {k : Nat} {args : ReadRecArgs} (h : args.size = 0) :
    Read G m P k args args where
  size := by omega
  addr h' := absurd h h'
  data := by simp [h, content]

/-- The bytes to read begin behind the block map. -/
theorem Read.pass {P : BlockMap G.Same S} {k : Nat} {args : ReadRecArgs}
    (h : S.cap * G.blockSize ≤ args.addr) :
    Read G m P k args { args with addr := args.addr - S.cap * G.blockSize } where
  size := by simp only; omega
  addr _ := rfl
  data := by simp [Nat.sub_eq_zero_of_le h, content]

variable {F : ι → Shape} {P : (i : ι) → BlockMap G.Same (F i)}

theorem Readable.skip {is js : List ι} {k : Nat} {args : ReadRecArgs}
    (h : Readable G (.concat F (is ++ js)) k args)
    (hle : (Shape.concat F is).cap * G.blockSize ≤ args.addr) :
    Readable G (.concat F js) (k - (Shape.concat F is).cap)
      { args with addr := args.addr - (Shape.concat F is).cap * G.blockSize } := by
  have hcap := h.cap
  have hreach := h.reach
  rw [Shape.cap_concat_append] at hcap hreach
  refine ⟨by omega, ?_⟩
  rcases hreach with h | h
  · exact .inl (by omega)
  · right
    simp only [Nat.sub_mul]
    omega

/-- The bytes to read begin behind the first block maps of a list. -/
theorem Read.skip (hB : 0 < G.blockSize) {args' : ReadRecArgs} {js : List ι} : ∀ (is : List ι)
    {k : Nat} {args : ReadRecArgs}, Readable G (.concat F (is ++ js)) k args → args.size ≠ 0 →
    (Shape.concat F is).cap * G.blockSize ≤ args.addr →
    Read G m (.concat P js) (k - (Shape.concat F is).cap)
      { args with addr := args.addr - (Shape.concat F is).cap * G.blockSize } args' →
    Read G m (.concat P (is ++ js)) k args args'
  | [], k, args, _, _, _, hQ => by simpa [Shape.concat, Shape.empty] using hQ
  | i :: is, k, args, hr, hsize, hle, hQ => by
    rw [Shape.concat, Shape.cap_append, Nat.add_mul] at hle
    rw [Shape.concat, Shape.cap_append, Nat.add_mul, Nat.sub_add_eq, Nat.sub_add_eq] at hQ
    have hfull : (F i).cap ≤ k := Readable.full (T := .concat F (is ++ js)) hr (by omega)
    refine Read.append hB hr (.pass (by omega)) (fun h => absurd h hsize) fun _ => ?_
    refine Read.skip hB is (Readable.right (T := .concat F (is ++ js)) hr (by omega) ?_) hsize ?_ hQ
    · simp only; omega
    · simp only; omega

/-- The loop reads the block maps of the elements one after another. -/
theorem readSlots_read (hB : 0 < G.blockSize) (rec : ι → ReadRecArgs → UInt32 → ReadRecArgs)
    (blocks : ι → UInt32) : ∀ (is : List ι) (k : Nat) (args : ReadRecArgs),
    (∀ i ∈ is, ∀ k args, Readable G (F i) k args →
      Read G m (P i) k args (rec i args (blocks i))) →
    Readable G (.concat F is) k args →
    Read G m (.concat P is) k args (readSlots rec is args blocks)
  | [], k, args, _, _ =>
    { size := by simp [readSlots, Shape.concat, Shape.empty]
      addr := fun _ => by simp [readSlots, Shape.concat, Shape.empty]
      data := by simp [readSlots, Shape.concat, Shape.empty, content] }
  | i :: is, k, args, hrec, hr => by
    rw [readSlots]
    split
    · next h => exact .done h
    · have hP := hrec i List.mem_cons_self _ _ hr.left
      refine Read.append hB hr hP (fun h => ?_) fun h => ?_
      · cases is with
        | nil => rfl
        | cons j js => rw [readSlots, if_pos h]
      · have hsize := hP.size
        have haddr := hP.addr h
        exact readSlots_read hB rec blocks is _ _
          (fun i hi => hrec i (List.mem_cons_of_mem _ hi)) (hr.right (by omega) (by omega))

theorem readrec_read {fs : FS} (h : fs.geometry = G) (hG : G.Sound) :
    ∀ (level : Nat) (r : UInt32) (k : Nat) (args : ReadRecArgs),
      Readable G (G.treeShape level) k args →
      Read G fs.part (G.tree level r.toNat) k args (readrec fs level args r)
  | 0, r, k, args, hr => by
    have hsize : fs.indirectSize 0 = (G.treeShape 0).cap * G.blockSize := FS.indirectSize_eq h 0
    rw [readrec]
    split
    · next h0 => exact .done h0
    · next h0 =>
      split
      · next hle =>
        rw [hsize] at hle ⊢
        exact .pass hle
      · next hlt =>
        rw [hsize, show (G.treeShape 0).cap = 1 from rfl, Nat.one_mul] at hlt
        have hk : k ≠ 0 := fun h0' => by
          have hreach := hr.reach
          rw [h0', show (G.treeShape 0).cap = 1 from rfl] at hreach
          omega
        have hbs : fs.blockSize = G.blockSize := congrArg Geometry.blockSize h
        have hlist : fs.part.list (r.toNat * fs.blockSize + args.addr)
            (min (fs.blockSize - args.addr) args.size) =
            G.content fs.part [r.toNat] args.addr (min args.size (G.blockSize - args.addr)) := by
          rw [hbs, Nat.min_comm, Bytes.list, content]
          refine List.map_congr_left fun i hi => ?_
          have hi := List.mem_range.mp hi
          rw [byteAt, Nat.div_eq_of_lt (by omega), Nat.mod_eq_of_lt (by omega), Nat.add_assoc]
          rfl
        refine ⟨?_, fun _ => ?_, ?_⟩
        · simp only [show (G.treeShape 0).cap = 1 from rfl, hbs]; omega
        · simp only [show (G.treeShape 0).cap = 1 from rfl]; omega
        · simp only [show (G.treeShape 0).cap = 1 from rfl, Nat.one_mul, hlist]
          simp [tree, BlockMap.single, hk]
  | level + 1, r, k, args, hr => by
    have hB := hG.blockSize_pos
    have hsize := FS.indirectSize_eq h level
    have hsize' := FS.indirectSize_eq h (level + 1)
    rw [readrec]
    split
    · next h0 => exact .done h0
    · next h0 =>
      split
      · next hle =>
        rw [hsize'] at hle ⊢
        exact .pass hle
      · next hlt =>
        rw [hsize', cap_treeShape_succ, Nat.mul_assoc, ← hsize] at hlt
        have hlt : args.addr < G.fanout * fs.indirectSize level := by omega
        have hstart : args.addr / fs.indirectSize level ≤ G.fanout :=
          (Nat.div_lt_of_lt_mul (by rwa [Nat.mul_comm])).le
        generalize hs : args.addr / fs.indirectSize level = starti at hstart
        have hdiv := Nat.div_add_mod args.addr (fs.indirectSize level)
        rw [hs] at hdiv
        have hcap : (Shape.concat (fun _ => G.treeShape level) (List.range' 0 starti)).cap *
            G.blockSize = fs.indirectSize level * starti := by
          rw [Shape.cap_concat_const, List.length_range', Nat.mul_assoc, ← hsize, Nat.mul_comm]
        have hrow : ∀ is, is = List.range' 0 starti ++ List.range' starti (G.fanout - starti) →
            Readable G (.concat (fun _ => G.treeShape level) is) k args →
            Read G fs.part (.concat (fun i => G.tree level (G.pointer fs.part r.toNat i)) is) k args
              (readSlots (fun _ => readrec fs level) (List.range' starti (G.fanout - starti))
                { args with addr := args.addr % fs.indirectSize level } (fs.pointers r)) := by
          rintro _ rfl hr
          have hmod : args.addr % fs.indirectSize level = args.addr -
              (Shape.concat (fun _ => G.treeShape level) (List.range' 0 starti)).cap *
                G.blockSize := by omega
          rw [hmod]
          refine Read.skip hB _ hr h0 (by omega) ?_
          refine readSlots_read hB _ _ _ _ _ (fun i hi k args hr => ?_) (hr.skip (by omega))
          have hi : i < G.fanout := by have := List.mem_range'_1.mp hi; omega
          rw [← FS.toNat_pointers h r hi]
          exact readrec_read h hG level _ k args hr
        have hread := hrow _ (range_split hstart) ⟨hr.cap, hr.reach⟩
        have hfan : fs.blockSize / 4 = G.fanout := congrArg Geometry.fanout h
        rw [hfan]
        exact ⟨hread.size, hread.addr, hread.data⟩

/-- `i_readaddr` returns the bytes of a file that has blocks for them. -/
theorem FS.iReadaddr_eq {fs : FS} (h : fs.geometry = G) (hG : G.Sound) {inode addr size k : Nat}
    (hk : k ≤ G.fileShape.cap) (hreach : addr + size ≤ k * G.blockSize) :
    fs.iReadaddr inode addr size =
      G.content fs.part ((G.file (fs.getInodeData inode).block).leaves fs.part k) addr size := by
  have hread := readSlots_read (m := fs.part) (F := fun j => G.treeShape (rootLevel j))
    (P := fun j => G.tree (rootLevel j) ((fs.getInodeData inode).block j).toNat) hG.blockSize_pos
    (fun j => readrec fs (rootLevel j)) (fs.getInodeData inode).block (List.finRange 15) k
    ⟨addr, [], size⟩ (fun j _ k args hr => readrec_read h hG (rootLevel j) _ k args hr)
    ⟨hk, .inr hreach⟩
  have hle := Nat.mul_le_mul_right G.blockSize hk
  rw [FS.iReadaddr, hread.data, List.nil_append]
  refine congrArg (G.content _ _ _) ?_
  have : (G.fileShape).cap * G.blockSize = (Shape.concat (fun j => G.treeShape (rootLevel j))
    (List.finRange 15)).cap * G.blockSize := rfl
  simp only
  omega

end SupOS.Ext2
