import SupOS.Ext2.NameSteps

/-! Names and numbers of links: what a name that is given or taken makes of both. -/

namespace SupOS.Ext2

open Lib SupOS.Ext2.Geometry

variable {G : Geometry} {M : Nat → Prop} {fs fs' : FS} {root d c i : Nat} {live : List Nat}
  {names : List Named} {n : List UInt8} {e : Named}

/-- The number of names of an inode. -/
def nameCount (names : List Named) (i : Nat) : Nat := names.countP (·.node = i)

theorem nameCount_cons (e : Named) (names : List Named) (i : Nat) :
    nameCount (e :: names) i = nameCount names i + if e.node = i then 1 else 0 := by
  simp [nameCount, List.countP_cons]

theorem nameCount_erase (he : e ∈ names) (i : Nat) :
    nameCount (names.erase e) i + (if e.node = i then 1 else 0) = nameCount names i := by
  rw [← nameCount_cons]
  exact ((List.perm_cons_erase he).countP_eq _).symm

theorem nameCount_pos : 0 < nameCount names i ↔ ∃ e ∈ names, e.node = i := by
  simp [nameCount, List.countP_pos_iff]

/-- The directories hold the names, which form a tree, and each live inode has as many links as names. -/
structure FS.Ledger (fs : FS) (G : Geometry) (M : Nat → Prop) (root : Nat) (live : List Nat)
    (names : List Named) : Prop where
  shows : fs.Shows G M live names
  nodup : names.Nodup
  tree : NameTree dots (fun i => isDir (fs.getInodeData i).mode = true) root {e | e ∈ names}
  nodes : ∀ e ∈ names, e.node ∈ live
  links : ∀ i ∈ live, (fs.getInodeData i).linksCount.toNat = nameCount names i

/-- The directory can hold one more name, and this one is free. -/
structure FS.Takes (fs : FS) (G : Geometry) (names : List Named) (d : Nat) (n : List UInt8) : Prop where
  dir : ⟨d, [46], d⟩ ∈ names
  proper : dots.Proper n
  some : n ≠ []
  short : n.length < 2 ^ 8
  nul : 0 ∉ n
  fresh : ∀ e ∈ names, e.dir = d → e.name ≠ n
  room : fs.count G d < 12

/-- The inodes that were live stay as they are while another one is made. -/
theorem FS.Kept.data_eq (hkept : fs.Kept fs' G M (c :: live) c) (hnot : c ∉ live) (hi : i ∈ live) :
    fs'.getInodeData i = fs.getInodeData i :=
  (hkept.others i (List.mem_cons_of_mem c hi) fun heq => hnot (heq ▸ hi)).data

/-- A directory with the same contents has its records in the same places. -/
theorem FS.Shows.startsBlock_same (hG : G.Sound) (h : fs.Shows G M live names)
    (htended : fs'.Tended G M live) (he : e ∈ names) (hcontents : fs.SameContents fs' G e.dir)
    (hmodes : ∀ j ∈ live, (fs'.getInodeData j).mode = (fs.getInodeData j).mode) :
    fs'.startsBlock e.dir e.name = fs.startsBlock e.dir e.name := by
  obtain ⟨hd, hisDir⟩ := h.dirs e he
  obtain ⟨l, hl⟩ := h.entries e.dir hd hisDir
  have hl' := hl.same hd (fun _ hj => hj) htended hcontents hmodes (List.Perm.refl _)
  have hmem := hl.mem_names he rfl
  rw [hl'.startsBlock_eq hG hmem, hl.startsBlock_eq hG hmem]

theorem FS.addEntry_file (hfile : isDir (fs.getInodeData i).mode = false) {fuel : Nat} :
    fs.addEntry d fuel n i = fs.linkRecord d fuel n i :=
  addEntry_eq fun hdir => Bool.false_ne_true (hfile.symm.trans hdir.1)

namespace FS.Ledger

theorem congr_tree (h : fs.Ledger G M root live names)
    (hmodes : ∀ i ∈ live, (fs'.getInodeData i).mode = (fs.getInodeData i).mode) :
    NameTree dots (fun i => isDir (fs'.getInodeData i).mode = true) root {e | e ∈ names} :=
  h.tree.congr (fun e he => by rw [hmodes e.dir (h.shows.dirs e he).1])
    (fun e he => by rw [hmodes e.node (h.nodes e he)])

theorem isDir_of_self (h : fs.Ledger G M root live names) (hd : ⟨d, [46], d⟩ ∈ names) :
    d ∈ live ∧ isDir (fs.getInodeData d).mode = true := h.shows.dirs _ hd

/-- One more link of one inode is one more name of it. -/
theorem links_cons (h : fs.Ledger G M root live names) (hnode : e.node = i)
    (hfew : (fs.getInodeData i).linksCount.toNat + 1 < 2 ^ 16) {j : Nat} (hj : j ∈ live) :
    (if j = i then (fs.getInodeData j).linksCount + 1 else (fs.getInodeData j).linksCount).toNat =
      nameCount (e :: names) j := by
  rw [nameCount_cons, hnode, ← h.links j hj]
  by_cases hji : j = i
  · subst hji
    rw [if_pos rfl, if_pos rfl, UInt16.toNat_add]
    exact Nat.mod_eq_of_lt hfew
  · rw [if_neg hji, if_neg (Ne.symm hji), Nat.add_zero]

/-- A file gets a name. -/
theorem link (hG : G.Sound) (hM : G.Metadata M) (hB : G.blockSize < 2 ^ 16)
    (h : fs.Ledger G M root live names) (ht : fs.Takes G names d n) (hi : i ∈ live)
    (hfile : isDir (fs.getInodeData i).mode = false)
    (hfew : (fs.getInodeData i).linksCount.toNat + 1 < 2 ^ 16) :
    Ensures (fs.addEntry d scanFuel n i) (· = .bsod "No space on disk :-(") fun fs' =>
      fs'.Ledger G M root live (⟨d, n, i⟩ :: names) ∧
        (∀ j ∈ live, (fs'.getInodeData j).mode = (fs.getInodeData j).mode) ∧
        (∀ j ∈ live, j ≠ d → fs.SameContents fs' G j) ∧
        ∀ e ∈ names, e.dir = d → fs'.startsBlock d e.name = fs.startsBlock d e.name := by
  obtain ⟨hd, hisDir⟩ := h.isDir_of_self ht.dir
  rw [FS.addEntry_file hfile]
  refine (h.shows.linkRecord hG hM hB hd hisDir hi ht.some ht.short ht.nul ht.room).mono
    (fun _ he => he) fun fs' hfs' => ?_
  obtain ⟨hshows, hamended, hstarts⟩ := hfs'
  have hmodes : ∀ j ∈ live, (fs'.getInodeData j).mode = (fs.getInodeData j).mode :=
    fun j hj => hamended.modes hj
  refine ⟨⟨hshows, ?_, ?_, ?_, fun j hj => ?_⟩, hmodes, hamended.others,
    fun e he hedir => hstarts e he hedir (ht.fresh e he hedir)⟩
  · exact List.nodup_cons.mpr ⟨fun hmem => ht.fresh _ hmem rfl rfl, h.nodup⟩
  · rw [setOf_mem_cons]
    refine (h.congr_tree hmodes).insertFile ht.dir ht.fresh ht.proper ?_
    rw [hmodes i hi, hfile]
    exact Bool.false_ne_true
  · exact List.forall_mem_cons.mpr ⟨hi, h.nodes⟩
  · rw [hamended.links j hj]
    exact h.links_cons (e := ⟨d, n, i⟩) rfl hfew hj

/-- A new directory gets its name, and the name for the directory above. -/
theorem attach (hG : G.Sound) (hM : G.Metadata M) (hB : G.blockSize < 2 ^ 16)
    (h : fs.Ledger G M root live names) (ht : fs.Takes G names d n) (hself : ⟨c, [46], c⟩ ∈ names)
    (hdc : d ≠ c) (hnone : ∀ e ∈ names, dots.Proper e.name → e.node ≠ c)
    (hup : ∀ e ∈ names, e.dir = c → e.name ≠ dotDot) (hroom : fs.count G c < 12)
    (hfewd : (fs.getInodeData d).linksCount.toNat + 1 < 2 ^ 16)
    (hfewc : (fs.getInodeData c).linksCount.toNat + 1 < 2 ^ 16) :
    Ensures (fs.addEntry d scanFuel n c) (· = .bsod "No space on disk :-(") fun fs' =>
      fs'.Ledger G M root live (⟨d, n, c⟩ :: ⟨c, dotDot, d⟩ :: names) ∧
        ∀ j ∈ live, (fs'.getInodeData j).mode = (fs.getInodeData j).mode := by
  obtain ⟨hd, hdisDir⟩ := h.isDir_of_self ht.dir
  obtain ⟨hc, hcisDir⟩ := h.isDir_of_self hself
  unfold FS.addEntry
  rw [if_pos ⟨hcisDir, ht.proper.2⟩]
  refine (h.shows.linkRecord hG hM hB hc hcisDir hd (show dotDot ≠ [] by decide) (by decide) (by decide)
    hroom).bind fun fs₁ h₁ => ?_
  obtain ⟨hshows₁, hamended₁, -⟩ := h₁
  have hmodes₁ : ∀ j ∈ live, (fs₁.getInodeData j).mode = (fs.getInodeData j).mode :=
    fun j hj => hamended₁.modes hj
  have hdisDir₁ : isDir (fs₁.getInodeData d).mode = true := by rw [hmodes₁ d hd, hdisDir]
  have hroom₁ : fs₁.count G d < 12 := by
    rw [(hamended₁.others d hd hdc).count]
    exact ht.room
  refine (hshows₁.linkRecord hG hM hB hd hdisDir₁ hc ht.some ht.short ht.nul hroom₁).mono
    (fun _ he => he) fun fs' hfs' => ?_
  obtain ⟨hshows, hamended, -⟩ := hfs'
  have hmodes : ∀ j ∈ live, (fs'.getInodeData j).mode = (fs.getInodeData j).mode :=
    fun j hj => (hamended.modes hj).trans (hmodes₁ j hj)
  have hnotup : (⟨c, dotDot, d⟩ : Named) ∉ names := fun hmem => hup _ hmem rfl rfl
  have hnotname : (⟨d, n, c⟩ : Named) ∉ (⟨c, dotDot, d⟩ : Named) :: names := by
    rw [List.mem_cons, not_or]
    exact ⟨fun heq => hdc (congrArg Naming.dir heq), fun hmem => ht.fresh _ hmem rfl rfl⟩
  refine ⟨⟨hshows, ?_, ?_, ?_, fun j hj => ?_⟩, hmodes⟩
  · exact List.nodup_cons.mpr ⟨hnotname, List.nodup_cons.mpr ⟨hnotup, h.nodup⟩⟩
  · rw [setOf_mem_cons, setOf_mem_cons]
    exact (h.congr_tree hmodes).attach ht.dir hdc ht.fresh ht.proper hself hnone hup
  · exact List.forall_mem_cons.mpr ⟨hc, List.forall_mem_cons.mpr ⟨hd, h.nodes⟩⟩
  · rw [hamended.links j hj, nameCount_cons]
    have hfirst := h.links_cons (e := ⟨c, dotDot, d⟩) rfl hfewd hj
    rw [← hfirst, ← hamended₁.links j hj]
    by_cases hjc : j = c
    · subst hjc
      have hlinks : (fs₁.getInodeData j).linksCount = (fs.getInodeData j).linksCount := by
        rw [hamended₁.links j hj, if_neg (Ne.symm hdc)]
      rw [if_pos rfl, if_pos rfl, hlinks, UInt16.toNat_add]
      exact Nat.mod_eq_of_lt hfewc
    · rw [if_neg hjc, if_neg (Ne.symm hjc), Nat.add_zero]

/-- One link fewer of one inode is one name fewer of it. -/
theorem links_erase (h : fs.Ledger G M root live names) (he : e ∈ names) {j : Nat} (hj : j ∈ live) :
    (if j = e.node then (fs.getInodeData j).linksCount - 1 else (fs.getInodeData j).linksCount).toNat =
      nameCount (names.erase e) j := by
  have hcount := nameCount_erase he j
  have hlinks := h.links j hj
  by_cases hje : j = e.node
  · rw [if_pos hje.symm] at hcount
    have hne : (fs.getInodeData j).linksCount ≠ 0 := fun hzero => by
      rw [hzero] at hlinks
      change 0 = _ at hlinks
      omega
    have hsub := toNat_sub_one16 hne
    rw [if_pos hje]
    omega
  · rw [if_neg (Ne.symm hje)] at hcount
    rw [if_neg hje]
    omega

theorem one_link_iff (h : fs.Ledger G M root live names) (hi : i ∈ live) :
    (fs.getInodeData i).linksCount = 1 ↔ nameCount names i = 1 := by
  rw [← h.links i hi]
  exact ⟨fun heq => by rw [heq]; rfl, fun heq => UInt16.toNat_inj.mp heq⟩

theorem mem_remaining_iff (h : fs.Ledger G M root live names) (he : e ∈ names) {j : Nat} :
    j ∈ fs.remaining live e.node ↔ j ∈ live ∧ (j = e.node → 0 < nameCount (names.erase e) j) := by
  have hcount := nameCount_erase he e.node
  rw [if_pos rfl] at hcount
  have hone := h.one_link_iff (h.nodes e he)
  unfold FS.remaining
  split
  case isTrue hlinks =>
    have hlast := hone.mp hlinks
    rw [h.shows.tended.wellFormed.nodup.mem_erase_iff]
    constructor
    · exact fun ⟨hne, hj⟩ => ⟨hj, fun heq => absurd heq hne⟩
    · rintro ⟨hj, hpos⟩
      refine ⟨fun heq => ?_, hj⟩
      have := hpos heq
      rw [heq] at this
      omega
  case isFalse hlinks =>
    refine ⟨fun hj => ⟨hj, fun heq => ?_⟩, And.left⟩
    rw [heq]
    have := mt hone.mpr hlinks
    omega

/-- A file loses a name. -/
theorem unlink (hG : G.Sound) (hM : G.Metadata M) (hB : G.blockSize < 2 ^ 16)
    (h : fs.Ledger G M root live names) (he : e ∈ names) (hp : dots.Proper e.name)
    (hfile : isDir (fs.getInodeData e.node).mode = false) (hinner : fs.startsBlock e.dir e.name = false)
    (stack : UInt16) : ∃ fs',
      fs.removeEntry e.dir scanFuel stack e.name = .ok fs' ∧
        fs'.Ledger G M root (fs.remaining live e.node) (names.erase e) := by
  have hrest : ∀ e' ∈ names, e'.dir ∈ fs.remaining live e.node := fun e' he' => by
    obtain ⟨hdir, hisDir⟩ := h.shows.dirs e' he'
    refine (h.mem_remaining_iff he).mpr ⟨hdir, fun heq => ?_⟩
    rw [heq, hfile] at hisDir
    exact Bool.noConfusion hisDir
  obtain ⟨fs', heq, hshows, hkeeping⟩ := h.shows.removeEntry_file hG hM hB h.nodup he
    (fun e' he' hdir hname => h.tree.keys e' he' e he hdir hname) (h.nodes e he) hfile hinner hrest stack
  have hnodes : ∀ e' ∈ names.erase e, e'.node ∈ fs.remaining live e.node := fun e' he' =>
    (h.mem_remaining_iff he).mpr ⟨h.nodes e' (List.mem_of_mem_erase he'),
      fun _ => nameCount_pos.mpr ⟨e', he', rfl⟩⟩
  refine ⟨fs', heq, hshows, h.nodup.erase e, ?_, hnodes, fun j hj => ?_⟩
  · rw [setOf_mem_erase h.nodup]
    refine (h.tree.eraseFile hp (by rw [hfile]; exact Bool.false_ne_true)).congr (fun e' he' => ?_)
      fun e' he' => ?_
    · rw [hkeeping.mode e'.dir (hrest e' he'.1)]
    · rw [hkeeping.mode e'.node (hnodes e' (h.nodup.mem_erase_iff.mpr ⟨he'.2, he'.1⟩))]
  · rw [hkeeping.links j hj]
    exact h.links_erase he (FS.subset_of_remaining hj)

theorem two_names {e' : Named} (he : e ∈ names) (he' : e' ∈ names) (hne : e ≠ e') (hnode : e.node = i)
    (hnode' : e'.node = i) : nameCount names i ≠ 1 := by
  have hcount := nameCount_erase he i
  rw [if_pos hnode] at hcount
  have hpos := nameCount_pos.mpr ⟨e', (List.mem_erase_of_ne (Ne.symm hne)).mpr he', hnode'⟩
  omega

/-- A directory loses its name, and the name for the directory above. -/
theorem detach (hG : G.Sound) (hM : G.Metadata M) (hB : G.blockSize < 2 ^ 16)
    (h : fs.Ledger G M root live names) (he : ⟨d, n, c⟩ ∈ names) (hn : dots.Proper n)
    (hc : isDir (fs.getInodeData c).mode = true) (hinner : fs.startsBlock d n = false)
    (hinner' : fs.startsBlock c dotDot = false) (stack : UInt16) : ∃ fs',
      fs.removeEntry d scanFuel stack n = .ok fs' ∧
        fs'.Ledger G M root live ((names.erase ⟨c, dotDot, d⟩).erase ⟨d, n, c⟩) ∧
        (∀ j ∈ live, (fs'.getInodeData j).mode = (fs.getInodeData j).mode) ∧
        ∀ j ∈ live, fs'.count G j = fs.count G j := by
  have hup : ⟨c, dotDot, d⟩ ∈ names := h.tree.above _ he hn hc
  have hselfc : ⟨c, [46], c⟩ ∈ names := h.tree.entered _ he hc
  have hselfd : ⟨d, [46], d⟩ ∈ names := (h.tree.dirs _ he).2
  have hcd : c ≠ d := h.tree.apart _ he hn
  have hlive := h.nodes _ he
  have hlived := h.nodes _ hup
  have hlinksc : (fs.getInodeData c).linksCount ≠ 1 := mt (h.one_link_iff hlive).mp
    (two_names he hselfc (fun heq => hcd (congrArg Naming.dir heq).symm) rfl rfl)
  have hlinksd : (fs.getInodeData d).linksCount ≠ 1 := mt (h.one_link_iff hlived).mp
    (two_names hup hselfd (fun heq => hcd (congrArg Naming.dir heq)) rfl rfl)
  obtain ⟨fs', heq, hshows, hkeeping⟩ := h.shows.removeEntry_dir hG hM hB h.nodup he hup hn.2
    (Ne.symm hcd) h.tree.keys hlinksc hlinksd hinner hinner' stack
  have hne : (⟨d, n, c⟩ : Named) ≠ ⟨c, dotDot, d⟩ := fun heq => hcd (congrArg Naming.dir heq).symm
  have hmem : (⟨d, n, c⟩ : Named) ∈ names.erase ⟨c, dotDot, d⟩ := (List.mem_erase_of_ne hne).mpr he
  have hset : {e | e ∈ (names.erase ⟨c, dotDot, d⟩).erase ⟨d, n, c⟩} =
      NameTree.detached dots {e | e ∈ names} d n c := by
    rw [setOf_mem_erase (h.nodup.erase _), setOf_mem_erase h.nodup, NameTree.detached, Set.sdiff_sdiff_comm]
    rfl
  refine ⟨fs', heq, ⟨hshows, (h.nodup.erase _).erase _, ?_, fun e he' => ?_, fun j hj => ?_⟩,
    hkeeping.mode, hkeeping.count⟩
  · rw [hset]
    exact (h.congr_tree hkeeping.mode).detach he hn (by rw [hkeeping.mode c hlive]; exact hc)
  · exact h.nodes e (List.mem_of_mem_erase (List.mem_of_mem_erase he'))
  · have hfirst := h.links_erase hup hj
    have hsecond := nameCount_erase hmem j
    have hcount := nameCount_erase hup j
    rw [hkeeping.links j hj]
    simp only at hfirst hsecond hcount
    by_cases hjc : j = c
    · subst hjc
      rw [if_neg hcd] at hfirst
      rw [if_pos rfl] at hsecond
      have hpos : (fs.getInodeData j).linksCount ≠ 0 := fun hzero => by
        rw [hzero] at hfirst
        change 0 = _ at hfirst
        omega
      have hsub := toNat_sub_one16 hpos
      rw [if_pos (.inl rfl)]
      omega
    · rw [if_neg (Ne.symm hjc)] at hsecond
      rw [← Nat.add_zero (nameCount _ j), hsecond, ← hfirst]
      simp only [hjc, false_or]

/-- A directory without a name goes, and the name for itself with it. -/
theorem deleteDir (hG : G.Sound) (hM : G.Metadata M) (h : fs.Ledger G M root live names)
    (hself : ⟨c, [46], c⟩ ∈ names) (hlast : ∀ e ∈ names, e.dir = c ∨ e.node = c → e = ⟨c, [46], c⟩) :
    ∃ fs', FS.deleteDir c scanFuel scanFuel fs 0 = .ok fs' ∧
      fs'.Ledger G M root (live.erase c) (names.erase ⟨c, [46], c⟩) ∧ G.inodeUsed fs'.part c = false := by
  have hlive := h.nodes _ hself
  have hone : nameCount names c = 1 := by
    have hcount := nameCount_erase hself c
    rw [if_pos rfl] at hcount
    have hnone : ¬0 < nameCount (names.erase ⟨c, [46], c⟩) c := fun hpos => by
      obtain ⟨e, he, hnode⟩ := nameCount_pos.mp hpos
      have hmem := h.nodup.mem_erase_iff.mp he
      exact hmem.1 (hlast e hmem.2 (.inr hnode))
    omega
  obtain ⟨fs', heq, hshows, hcontents, hlinks, hfree⟩ := h.shows.deleteDir hG hM hself h.nodup
    (fun e he hdir => hlast e he (.inl hdir)) ((h.one_link_iff hlive).mpr hone)
  have hmem : ∀ e ∈ names, e ≠ ⟨c, [46], c⟩ → e.dir ≠ c ∧ e.node ≠ c := fun e he hne =>
    ⟨fun hdir => hne (hlast e he (.inl hdir)), fun hnode => hne (hlast e he (.inr hnode))⟩
  have herase : ∀ {j}, j ∈ live → j ≠ c → j ∈ live.erase c := fun hj hne =>
    (List.mem_erase_of_ne hne).mpr hj
  refine ⟨fs', heq, ⟨hshows, h.nodup.erase _, ?_, fun e he => ?_, fun j hj => ?_⟩, hfree⟩
  · rw [setOf_mem_erase h.nodup]
    refine (h.tree.eraseSelf hlast).congr (fun e he => ?_) fun e he => ?_
    · rw [(hcontents e.dir (herase (h.shows.dirs e he.1).1 (hmem e he.1 he.2).1)).mode]
    · rw [(hcontents e.node (herase (h.nodes e he.1) (hmem e he.1 he.2).2)).mode]
  · have he' := h.nodup.mem_erase_iff.mp he
    exact herase (h.nodes e he'.2) (hmem e he'.2 he'.1).2
  · have hne := (h.shows.tended.wellFormed.nodup.mem_erase_iff.mp hj).1
    have hcount := nameCount_erase hself j
    rw [if_neg (Ne.symm hne)] at hcount
    rw [hlinks j hj, h.links j (List.mem_of_mem_erase hj), ← hcount, Nat.add_zero]

theorem unnamed (h : fs.Ledger G M root live names) (hnot : c ∉ live) (he : e ∈ names) :
    e.dir ≠ c ∧ e.node ≠ c :=
  ⟨fun hdir => hnot (hdir ▸ (h.shows.dirs e he).1), fun hnode => hnot (hnode ▸ h.nodes e he)⟩

/-- A new file, which has no name yet. -/
theorem getNewFile (hG : G.Sound) (hM : G.Metadata M) (h : fs.Ledger G M root live names)
    (uid gid : UInt16) {mode : UInt16} (hmode : isReg mode = true) :
    Ensures (fs.getNewFile uid gid mode) (· = .bsod "No more inodes on disk :-(") fun r =>
      r.1 ∉ live ∧ fs.Kept r.2 G M (r.1 :: live) r.1 ∧ r.2.Ledger G M root (r.1 :: live) names ∧
        (r.2.getInodeData r.1).mode = mode ∧ (r.2.getInodeData r.1).linksCount = 0 := by
  refine (h.shows.getNewFile hG hM h.nodes uid gid hmode).mono (fun _ he => he) fun r hr => ?_
  obtain ⟨hnot, hkept, hshows, hmode', hlinks⟩ := hr
  have hdata : ∀ i ∈ live, r.2.getInodeData i = fs.getInodeData i := fun i hi =>
    hkept.data_eq hnot hi
  refine ⟨hnot, hkept, ⟨hshows, h.nodup, h.congr_tree fun i hi => by rw [hdata i hi],
    fun e he => List.mem_cons_of_mem _ (h.nodes e he), List.forall_mem_cons.mpr ⟨?_, fun i hi => ?_⟩⟩,
    hmode', hlinks⟩
  · have hnone : ¬0 < nameCount names r.1 := fun hpos => by
      obtain ⟨e, he, hnode⟩ := nameCount_pos.mp hpos
      exact (h.unnamed hnot he).2 hnode
    rw [hlinks]
    change 0 = _
    omega
  · rw [hdata i hi, h.links i hi]

/-- A new directory, which only has the name for itself yet. -/
theorem getNewDirectory (hG : G.Sound) (hM : G.Metadata M) (hB : G.blockSize < 2 ^ 16)
    (h : fs.Ledger G M root live names) (uid gid : UInt16) {mode : UInt16} (hmode : isDir mode = true) :
    Ensures (fs.getNewDirectory uid gid mode)
      (fun e => e = .bsod "No more inodes on disk :-(" ∨ e = .bsod "No space on disk :-(") fun r =>
      r.1 ∉ live ∧ fs.Kept r.2 G M (r.1 :: live) r.1 ∧
        r.2.Ledger G M root (r.1 :: live) (⟨r.1, [46], r.1⟩ :: names) ∧
        (r.2.getInodeData r.1).linksCount = 1 ∧ r.2.count G r.1 = 1 := by
  refine (h.shows.getNewDirectory hG hM hB h.nodes uid gid hmode).mono (fun _ he => he) fun r hr => ?_
  obtain ⟨hnot, hkept, hshows, hmode', hlinks, hcount⟩ := hr
  have hdata : ∀ i ∈ live, r.2.getInodeData i = fs.getInodeData i := fun i hi =>
    hkept.data_eq hnot hi
  have hfresh : (⟨r.1, [46], r.1⟩ : Named) ∉ names := fun hmem => (h.unnamed hnot hmem).2 rfl
  refine ⟨hnot, hkept, ⟨hshows, List.nodup_cons.mpr ⟨hfresh, h.nodup⟩, ?_, ?_, ?_⟩, hlinks, hcount⟩
  · rw [setOf_mem_cons]
    refine (h.congr_tree fun i hi => by rw [hdata i hi]).insertSelf ?_ fun e he => h.unnamed hnot he
    rw [hmode', hmode]
  · exact List.forall_mem_cons.mpr
      ⟨List.mem_cons_self, fun e he => List.mem_cons_of_mem _ (h.nodes e he)⟩
  · refine List.forall_mem_cons.mpr ⟨?_, fun i hi => ?_⟩
    · have hnone : ¬0 < nameCount names r.1 := fun hpos => by
        obtain ⟨e, he, hnode⟩ := nameCount_pos.mp hpos
        exact (h.unnamed hnot he).2 hnode
      rw [hlinks, nameCount_cons, if_pos rfl]
      change 1 = _
      omega
    · rw [hdata i hi, h.links i hi, nameCount_cons,
        if_neg fun (heq : r.1 = i) => hnot (heq ▸ hi), Nat.add_zero]

/-- The records of a directory, with the names that they stand for. -/
theorem records (hG : G.Sound) (h : fs.Ledger G M root live names) (hd : d ∈ live)
    (hisDir : isDir (fs.getInodeData d).mode = true) (n : List UInt8) : ∃ l reads,
      fs.Entries G M live names d l ∧
      fs.findInode d n scanFuel scanFuel = .ok (DirRecord.lookup l n, reads) ∧
      ∀ x ∈ DirRecord.names l, ⟨d, x.1, x.2.toNat⟩ ∈ names := by
  obtain ⟨l, hl⟩ := h.shows.entries d hd hisDir
  have hlen := hl.lists.length_lt hG
  obtain ⟨reads, hfind⟩ := hl.lists.findInode hG hlen hlen n
  refine ⟨l, reads, hl, hfind, fun x hx => ?_⟩
  rw [DirRecord.names_of_used hl.used] at hx
  obtain ⟨r, hr, rfl⟩ := List.mem_map.mp hx
  rw [DirRecord.cString_of_not_mem (hl.nul r hr)]
  exact List.mem_of_mem_filter
    (hl.named.mem_iff.mp (List.mem_map_of_mem (f := DirRecord.named d) hr))

/-- A name finds what it stands for. -/
theorem findInode (hG : G.Sound) (h : fs.Ledger G M root live names) (he : ⟨d, n, c⟩ ∈ names) :
    ∃ inode reads, fs.findInode d n scanFuel scanFuel = .ok (inode, reads) ∧ inode.toNat = c := by
  obtain ⟨hd, hisDir⟩ := h.shows.dirs _ he
  obtain ⟨l, reads, hl, hfind, hnames⟩ := h.records hG hd hisDir n
  refine ⟨_, reads, hfind, DirRecord.lookup_of_forall ?_ fun x hx hname => ?_⟩
  · have hmem : (⟨d, n, c⟩ : Named) ∈ l.map (DirRecord.named d) :=
      hl.named.mem_iff.mpr (List.mem_filter.mpr ⟨he, decide_eq_true rfl⟩)
    obtain ⟨r, hr, hre⟩ := List.mem_map.mp hmem
    rw [DirRecord.names_of_used hl.used]
    refine ⟨_, List.mem_map_of_mem hr, ?_⟩
    rw [DirRecord.cString_of_not_mem (hl.nul r hr)]
    exact congrArg Naming.name hre
  · exact congrArg Naming.node (h.tree.keys _ (hnames x hx) _ he rfl hname)

/-- A name that a directory does not hold finds nothing. -/
theorem findInode_none (hG : G.Sound) (h : fs.Ledger G M root live names) (hd : ⟨d, [46], d⟩ ∈ names)
    (hnone : ∀ e ∈ names, e.dir = d → e.name ≠ n) :
    ∃ reads, fs.findInode d n scanFuel scanFuel = .ok (0, reads) := by
  obtain ⟨hlive, hisDir⟩ := h.isDir_of_self hd
  obtain ⟨l, reads, -, hfind, hnames⟩ := h.records hG hlive hisDir n
  refine ⟨reads, ?_⟩
  rw [hfind, DirRecord.lookup, DirRecord.foldl_skip fun hmem => ?_]
  obtain ⟨x, hx, hname⟩ := List.mem_map.mp hmem
  exact hnone _ (hnames x hx) rfl hname

end FS.Ledger

end SupOS.Ext2
