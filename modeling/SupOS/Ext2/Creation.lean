import SupOS.Ext2.Removal

/-! New files and directories: the record of a new directory for itself. -/

namespace SupOS.Ext2

open Lib HDD SupOS.Ext2.Geometry

variable {G : Geometry} {M : Nat → Prop} {fs fs' : FS} {ino : Nat} {live : List Nat}

namespace FS.Tended

/-- The first bytes of an inode that has the size of one block and no block yet. -/
theorem iWriteaddr_first (hG : G.Sound) (hM : G.Metadata M) (h : fs.Tended G M live) (hnot : ino ∉ live)
    (hi : G.IsInode ino) (hused : G.inodeUsed fs.part ino = true) (hsize : fs.getSize ino = G.blockSize)
    (hblocks : (fs.getInodeData ino).blocks = 0) {bytes : List UInt8} (hbytes : bytes ≠ [])
    (hfew : bytes.length ≤ G.blockSize) :
    Ensures (fs.iWriteaddr ino 0 bytes) (· = .bsod "No space on disk :-(") fun fs' =>
      fs.Kept fs' G M (ino :: live) ino ∧ (fs.getInodeData ino).Keeps (fs'.getInodeData ino) ∧
        ∃ rest, fs'.Spans G M ino (bytes ++ rest) ∧ bytes.length + rest.length = G.blockSize := by
  have hB := hG.blockSize_le
  have hone : ∀ n, 0 < n → n ≤ G.blockSize → G.blocksFor n = 1 := fun n h0 hn => by
    have h1 := (blocksFor_le_iff hG (n := n) (k := 1)).mpr (by omega)
    have h2 := (blocksFor_le_iff hG (n := n) (k := 0)).not.mpr (by omega)
    omega
  have hpos := List.length_pos_of_ne_nil hbytes
  have hfilled : fs.Filled G M ino 0 := {
    fit := h.wellFormed.fit
    inode := hi
    count := .inr rfl
    blocks := by rw [hblocks, Shape.total_zero, Nat.zero_mul]; rfl
    held := by rw [BlockMap.nodes_zero]; exact ⟨List.nodup_nil, fun _ hb => absurd hb List.not_mem_nil⟩ }
  have hreaches : fs.Reaches G ino 0 (0 + bytes.length) := by
    rw [Reaches, hsize, Nat.zero_add, max_eq_left hfew, hone _ hpos hfew, hone _ (by omega) le_rfl]
    rfl
  refine (iWriteaddr_filled hG hM hfilled hbytes (by omega) hreaches).mono (fun e he => he.1)
    fun fs' how => ?_
  have hc := how.change
  rw [BlockMap.nodes_zero] at hc
  obtain ⟨hW, hsame⟩ := h.wellFormed.adopt hG hnot hi hc
  have hcount : fs'.count G ino = 1 := by
    rw [FS.count, how.size, hsize, Nat.zero_add, max_eq_left hfew]
    exact hone _ (by omega) le_rfl
  have hmarks : ∀ i, G.IsInode i → G.inodeUsed fs'.part i = G.inodeUsed fs.part i := fun i hi' =>
    hc.marks hG hi'
  let rest := (List.range (G.blockSize - bytes.length)).map fun i => fs'.byte G ino (bytes.length + i)
  have hrest : rest.length = G.blockSize - bytes.length := by simp [rest]
  refine ⟨⟨⟨hW, List.forall_mem_cons.mpr ⟨(hmarks ino hi).trans hused, fun i hmem => ?_⟩⟩, ?_⟩,
    how.keeps, rest, ⟨hW.intact List.mem_cons_self, by omega, ?_, fun i hib => ?_⟩, by omega⟩
  · exact (hmarks i (h.wellFormed.inode i hmem)).trans (h.marked i hmem)
  · exact fun i hmem hne => hsame i ((List.mem_cons.mp hmem).resolve_left hne)
  · rw [List.length_append, hrest, hcount]
    omega
  · by_cases hin : i < bytes.length
    · rw [List.getElem_append_left hin, how.written i (Nat.zero_le i) (by omega),
        List.getD_eq_getElem?_getD, Nat.sub_zero, List.getElem?_eq_getElem hin]
      rfl
    · rw [List.getElem_append_right (by omega)]
      simp only [rest, List.getElem_map, List.getElem_range]
      congr 1
      omega


/-- `Directory::init` of a new inode: its block holds the entry `.` only. -/
theorem init (hG : G.Sound) (hM : G.Metadata M) (h : fs.Tended G M live) (hnot : ino ∉ live)
    (hi : G.IsInode ino) (hused : G.inodeUsed fs.part ino = true) {uid gid mode : UInt16}
    (hdata : fs.getInodeData ino = .fresh uid gid mode) (hB : G.blockSize < 2 ^ 16) :
    Ensures (fs.init ino) (· = .bsod "No space on disk :-(") fun fs' =>
      fs.Kept fs' G M (ino :: live) ino ∧ (fs'.getInodeData ino).mode = mode ∧
        (fs'.getInodeData ino).linksCount = 1 ∧
        ∃ rest, fs'.Lists G M ino [⟨UInt32.ofNat ino, ftDir, [46], rest⟩] := by
  have hfour : 4 ∣ G.blockSize ∧ 1024 ≤ G.blockSize := by
    have hfanout := hG.fanout_ge
    have heq := hG.blockSize_eq
    exact ⟨⟨G.fanout, by omega⟩, by omega⟩
  have hblock : fs.blockSize = G.blockSize := congrArg Geometry.blockSize h.wellFormed.fit.geometry
  have hzero : fs.getSize ino = 0 := by rw [getSize, hdata]; rfl
  have hs := stored_writeInodeData h.wellFormed.fit hG hM hi
    ((fs.getInodeData ino).setSize G.blockSize)
  have hkept₁ := h.aside hG hnot (hs.aside hG)
  set fs₁ := fs.writeInodeData ino ((fs.getInodeData ino).setSize G.blockSize)
  have hused₁ : G.inodeUsed fs₁.part ino = true :=
    (SameBitmaps.inodeUsed hs.bitmaps hG hi).trans hused
  have hsize₁ : fs₁.getSize ino = G.blockSize := by
    rw [getSize, hs.data]
    simp only [InodeData.getSize, InodeData.setSize, UInt32.toNat_ofNat']
    omega
  have hblocks₁ : (fs₁.getInodeData ino).blocks = 0 := by rw [hs.data, hdata]; rfl
  let entry : DirectoryEntry := ⟨UInt32.ofNat ino, UInt16.ofNat G.blockSize, 1, ftDir⟩
  have hentry := entry.length_toList
  unfold FS.init
  rw [hblock, fs.iResize_grow (by omega) (by omega), ok_bind]
  refine (hkept₁.tended.iWriteaddr_first hG hM hnot hi hused₁ hsize₁ hblocks₁
    (List.ne_nil_of_length_pos (show 0 < entry.toList.length by omega)) (by omega)).bind fun fs₂ h₂ => ?_
  obtain ⟨hkept₂, hkeeps₂, rest, hspans₂, hrest⟩ := h₂
  have hfew : 2 ≤ rest.length := by omega
  obtain ⟨fs₃, heq₃, hspans₃, hkept₃, hkeeps₃⟩ := hspans₂.iWriteaddr hG hM hkept₂.tended
    List.mem_cons_self 8 (show ([46, 0] : List UInt8) ≠ [] by decide) (by
      rw [List.length_append, hentry]
      exact Nat.add_le_add_left hfew 8)
  obtain ⟨hkept₄, hdata₄⟩ := hkept₃.tended.link_kept hG hM (show ino ∈ ino :: live from List.mem_cons_self)
  obtain ⟨-, hcontents₄, -⟩ := hkept₃.tended.link hG hM
    (show ino ∈ ino :: live from List.mem_cons_self)
  rw [heq₃, ok_bind]
  let self : DirRecord := ⟨UInt32.ofNat ino, ftDir, [46], 0 :: rest.drop 2⟩
  have hlen : self.recLen = G.blockSize := by
    change 8 + 1 + (rest.drop 2).length.succ = _
    rw [List.length_drop]
    omega
  have hself : self.entry = entry := by rw [DirRecord.entry, hlen]; rfl
  have hsplit : entry.toList ++ rest = entry.toList ++ rest.take 2 ++ rest.drop 2 := by
    rw [List.append_assoc, List.take_append_drop]
  rw [hsplit, overwrite_middle _ _ _ _ (by rw [List.length_take]; simpa using hfew) hentry.symm]
    at hspans₃
  have hbytes : DirRecord.data [self] = entry.toList ++ [46, 0] ++ rest.drop 2 := by
    simp [DirRecord.data, DirRecord.bytes, hself, self]
  rw [← hbytes] at hspans₃
  have hlists₃ : fs₃.Lists G M ino [self] := by
    refine ⟨hspans₃, ⟨?_, ?_, ?_⟩⟩
    · refine List.forall_mem_singleton.mpr ⟨show 1 < 2 ^ 8 by decide, by omega, hlen ▸ hfour.1⟩
    · rw [DirRecord.size_cons, DirRecord.size_nil, Nat.add_zero, hlen]
    · exact ⟨by rw [Nat.zero_mod, hlen, Nat.zero_add], trivial⟩
  have hmem : ino ∈ ino :: live := List.mem_cons_self
  refine ⟨⟨hkept₄.tended, fun i hmem hne => ?_⟩, ?_, ?_, _,
    hlists₃.same (hkept₄.tended.wellFormed.intact hmem) (hcontents₄ ino hmem)⟩
  · have hlive := (List.mem_cons.mp hmem).resolve_left hne
    exact (hkept₁.others i hlive hne).trans ((hkept₂.others i hmem hne).trans
      ((hkept₃.others i hmem hne).trans (hkept₄.others i hmem hne)))
  · rw [hdata₄]
    change (fs₃.getInodeData ino).mode = mode
    rw [hkeeps₃.mode, hkeeps₂.mode, hs.data, hdata]
    rfl
  · rw [hdata₄]
    change (fs₃.getInodeData ino).linksCount + 1 = 1
    rw [hkeeps₃.linksCount, hkeeps₂.linksCount, hs.data, hdata]
    rfl

theorem getNewDirectory (hG : G.Sound) (hM : G.Metadata M) (h : fs.Tended G M live)
    (uid gid : UInt16) {mode : UInt16} (hmode : isDir mode = true) (hB : G.blockSize < 2 ^ 16) :
    Ensures (fs.getNewDirectory uid gid mode)
      (fun e => e = .bsod "No more inodes on disk :-(" ∨ e = .bsod "No space on disk :-(")
      fun r => r.1 ∉ live ∧ fs.Kept r.2 G M (r.1 :: live) r.1 ∧
        (r.2.getInodeData r.1).mode = mode ∧ (r.2.getInodeData r.1).linksCount = 1 ∧
        ∃ rest, r.2.Lists G M r.1 [⟨UInt32.ofNat r.1, ftDir, [46], rest⟩] := by
  unfold FS.getNewDirectory
  rw [hmode]
  refine ((getNewInode_aside hG hM h.wellFormed.fit true).mono (fun _ he => .inl he)
    fun _ hr => hr).bind fun r hr => ?_
  obtain ⟨ino, fs₁⟩ := r
  obtain ⟨hi, hfree, hused, ha⟩ := hr
  have hnot : ino ∉ live := by
    intro hmem
    rw [h.marked ino hmem] at hfree
    exact Bool.noConfusion hfree
  obtain ⟨ha₂, hused₂⟩ := writeBlockGroupDescriptor_aside hG hM ha.fit hi
  have hs := stored_writeInodeData ha₂.fit hG hM hi (.fresh uid gid mode)
  have hkept := h.aside hG hnot ((ha.trans ha₂).trans (hs.aside hG))
  simp only at hs hkept ⊢
  refine ((hkept.tended.init hG hM hnot hi
    ((SameBitmaps.inodeUsed hs.bitmaps hG hi).trans (hused₂.trans hused)) hs.data hB).mono
    (fun _ he => .inr he) fun _ hr => hr).bind fun fs₂ h₂ => ?_
  obtain ⟨hkept₂, hrest⟩ := h₂
  refine ⟨hnot, ⟨hkept₂.tended, fun i hmem hne => ?_⟩, hrest⟩
  exact (hkept.others i ((List.mem_cons.mp hmem).resolve_left hne) hne).trans
    (hkept₂.others i hmem hne)

end FS.Tended

open History (rooted rooted_tended)

theorem small_blockSize_lt : small.geometry.blockSize < 2 ^ 16 := by
  rw [small_blockSize]
  decide

/-- The directory of `rooted` has an entry for itself. -/
theorem rooted_lists : ∃ rest, rooted.Lists small.geometry (· < 5) 2 [⟨2, ftDir, [46], rest⟩] := by
  have hinode : (small.getNewDirectory 0 0 0x41ed).toOption.map Prod.fst = some 2 := by
    decide +kernel
  have hnew := small_owning.tended.getNewDirectory small_sound small_metadata 0 0
    (show isDir 0x41ed = true by decide) small_blockSize_lt
  unfold rooted
  cases heq : small.getNewDirectory 0 0 0x41ed with
  | error e =>
    rw [heq] at hinode
    cases hinode
  | ok r =>
    rw [heq] at hinode hnew
    obtain ⟨-, -, -, -, rest, hlists⟩ := hnew
    have hfirst : r.1 = 2 := Option.some.inj hinode
    rw [hfirst] at hlists
    exact ⟨rest, hlists⟩

theorem rooted_count : rooted.count small.geometry 2 < 12 := by
  have hsize : rooted.getSize 2 = 2048 := by decide +kernel
  have hle : rooted.count small.geometry 2 ≤ 1 := by
    rw [FS.count, blocksFor_le_iff small_sound, hsize, small_blockSize]
  omega

/-- The file of `rooted` gets a name. -/
theorem rooted_addEntry : Ensures (rooted.addEntry 2 2 [97] 1) (· = .bsod "No space on disk :-(")
    fun fs' => ∃ reads, fs'.findInode 2 [97] 3 3 = .ok (1, reads) := by
  obtain ⟨rest, hl⟩ := rooted_lists
  have hnew : [97] ∉ (DirRecord.names [⟨2, ftDir, [46], rest⟩]).map Prod.fst := by
    change [97] ∉ [cString [46]]
    decide
  refine (hl.addEntry_findInode small_sound small_metadata rooted_tended (by decide)
    (show 1 ∈ [2, 1] by decide) (List.cons_ne_nil _ _) (by decide) (by decide) (by decide) hnew
    small_blockSize_lt rooted_count (.inl (by decide +kernel))
    (show ([_] : List DirRecord).length < 2 from Nat.lt_succ_self 1)).mono (fun _ he => he)
    fun fs' hfs' => ?_
  obtain ⟨_, _, reads', -, hfind⟩ := hfs'.2.1 [97]
  rw [if_pos rfl] at hfind
  exact ⟨reads', hfind⟩

/-- The name goes again. -/
theorem rooted_removeEntry : Ensures (rooted.addEntry 2 2 [97] 1) (· = .bsod "No space on disk :-(")
    fun fs => ∃ p r fs', fs.Lists small.geometry (· < 5) 2 [p, r] ∧
      fs.removeEntry 2 3 0 [97] = .ok fs' ∧ ((∃ l', fs'.Lists small.geometry (· < 5) 2 l') ↔
        DirRecord.size [p] % small.geometry.blockSize ≠ 0) := by
  obtain ⟨rest, hl⟩ := rooted_lists
  have hnot : ¬(isDir (rooted.getInodeData 1).mode = true ∧ [97] ≠ dotDot) := by decide +kernel
  have htype : inodeToDirType (rooted.getInodeData 1).mode ≠ ftDir := by decide +kernel
  rw [FS.addEntry_eq hnot]
  refine (hl.linkRecord small_sound small_metadata rooted_tended (by decide)
    (show 1 ∈ [2, 1] by decide) (List.cons_ne_nil _ _) (by decide) (by decide) small_blockSize_lt
    rooted_count (show ([_] : List DirRecord).length ≤ 2 from Nat.le_succ 1)).mono (fun _ he => he)
    fun fs hfs => ?_
  obtain ⟨l', ⟨pre, p₀, p, r, post, hsplit, rfl, hp, -, hpname, hr, hrtype, hrname, -⟩, hl', hamended⟩ :=
    hfs
  obtain ⟨rfl, hp₀, rfl⟩ : pre = [] ∧ p₀ = ⟨2, ftDir, [46], rest⟩ ∧ post = [] := by
    cases pre with
    | nil =>
      obtain ⟨hhead, htail⟩ := List.cons.inj hsplit
      exact ⟨rfl, hhead.symm, htail.symm⟩
    | cons x pre => simp at hsplit
  replace hp : p.inode = 2 := by rw [hp, hp₀]
  replace hpname : p.name = [46] := by rw [hpname, hp₀]
  have hcString : cString r.name = [97] := by rw [hrname]; decide
  have hcString' : cString p.name = [46] := by rw [hpname]; decide
  have hinode : r.inode.toNat = 1 := by rw [hr]; decide
  have hremove := hl'.removeEntry_iff small_sound small_metadata small_blockSize_lt hamended.tended
    (by decide) (by rw [hinode]; decide) (by rw [hinode]; decide)
    (List.forall_mem_cons.mpr ⟨by rw [hp]; decide, List.forall_mem_singleton.mpr (by rw [hr]; decide)⟩)
    (List.forall_mem_singleton.mpr (by rw [hcString, hcString']; decide))
    (fun x hx => absurd hx List.not_mem_nil)
    (.inl (by rw [hrtype]; exact htype))
    (show ([p, r] : List DirRecord).length < 3 from Nat.lt_succ_self 2) 0
  rw [hcString] at hremove
  obtain ⟨fs', heq, hiff, -⟩ := hremove
  exact ⟨p, r, fs', hl', heq, hiff⟩

end SupOS.Ext2
