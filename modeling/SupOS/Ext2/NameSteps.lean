import SupOS.Ext2.Names

/-! New files and directories, and `removeEntry`, on the names that a file system shows. -/

namespace SupOS.Ext2

open Lib SupOS.Ext2.Geometry

variable {G : Geometry} {M : Nat → Prop} {fs fs' : FS} {dir inode : Nat} {live : List Nat}
  {l pre post : List DirRecord} {p r : DirRecord} {names : List Named} {e : Named}

theorem FS.subset_of_remaining {i : Nat} (hi : i ∈ fs.remaining live inode) : i ∈ live := by
  unfold FS.remaining at hi
  split at hi
  · exact List.mem_of_mem_erase hi
  · exact hi

theorem FS.remaining_eq (h : (fs.getInodeData inode).linksCount ≠ 1) : fs.remaining live inode = live :=
  if_neg h

theorem FS.Keeping.trans {fs₁ : FS} {links links' links'' : Nat → UInt16}
    (h : fs.Keeping fs₁ G live links) (h' : fs₁.Keeping fs' G live links')
    (hlinks : ∀ i ∈ live, (fs₁.getInodeData i).linksCount = links i → links' i = links'' i) :
    fs.Keeping fs' G live links'' where
  mode i hi := (h'.mode i hi).trans (h.mode i hi)
  count i hi := (h'.count i hi).trans (h.count i hi)
  links i hi := (h'.links i hi).trans (hlinks i hi (h.links i hi))

/-- The type in a record tells directories from files. -/
theorem inodeToDirType_eq (mode : UInt16) : inodeToDirType mode = ftDir ↔ isDir mode = true := by
  unfold inodeToDirType
  split_ifs with hreg hdir
  · have hnot : isDir mode = false := by
      by_contra hdir
      rw [isReg_of_isDir (Bool.not_eq_false _ |>.mp hdir)] at hreg
      cases hreg
    rw [hnot]
    decide
  · exact ⟨fun _ => hdir, fun _ => rfl⟩
  all_goals exact ⟨fun h => absurd h (by decide), fun h => absurd h hdir⟩

namespace FS.Shows

theorem unlinkRecord (hG : G.Sound) (hM : G.Metadata M) (hB : G.blockSize < 2 ^ 16)
    (h : fs.Shows G M live names) (hl : fs.Entries G M live names dir (pre ++ p :: r :: post))
    (hnode : r.inode.toNat ∈ live) (hinner : DirRecord.size (pre ++ [p]) % G.blockSize ≠ 0)
    (hfirst : ∀ x ∈ pre ++ [p], cString x.name ≠ cString r.name)
    (hdirs : ∀ e ∈ names, e.dir ∈ fs.remaining live r.inode.toNat)
    (hdir : dir ∈ fs.remaining live r.inode.toNat) (stack : UInt16) : ∃ fs',
      fs.unlinkRecord dir scanFuel stack (cString r.name) = .ok fs' ∧
        fs'.Shows G M (fs.remaining live r.inode.toNat) (names.erase (r.named dir)) ∧
        (fs.Keeping fs' G (fs.remaining live r.inode.toNat) fun i =>
          if i = r.inode.toNat then (fs.getInodeData i).linksCount - 1
          else (fs.getInodeData i).linksCount) ∧
        ∀ i ∈ fs.remaining live r.inode.toNat, i ≠ dir → fs.SameContents fs' G i := by
  obtain ⟨fs₁, heq₁, h₁, hcontents, hlinks⟩ := h.unlink hG hM hnode hdirs
  have hl₁ := hl.same hdir (fun _ hi => FS.subset_of_remaining hi) h₁.tended (hcontents dir hdir)
    (fun i hi => (hcontents i hi).mode) (List.Perm.refl _)
  obtain ⟨fs₂, heq₂, h₂, hkeeping, hothers⟩ := h₁.dropRecord hG hM hB hdir hl₁ hinner stack
  refine ⟨fs₂, ?_, h₂, ⟨fun i hi => ?_, fun i hi => ?_, fun i hi => ?_⟩, fun i hi hne => ?_⟩
  · unfold FS.unlinkRecord
    rw [hl.lists.findRecord_inner hG hl.used hfirst (hl.lists.length_lt hG), ok_bind]
    dsimp only
    rw [show r.entry.inode = r.inode from rfl, heq₁, ok_bind, heq₂]
  · rw [hkeeping.mode i hi, (hcontents i hi).mode]
  · rw [hkeeping.count i hi, (hcontents i hi).count]
  · rw [hkeeping.links i hi, hlinks i hi]
  · exact (hcontents i hi).trans (hothers i hi hne)

/-- `removeEntry` of a name of a file. -/
theorem removeEntry_file (hG : G.Sound) (hM : G.Metadata M) (hB : G.blockSize < 2 ^ 16)
    (h : fs.Shows G M live names) (hnodup : names.Nodup) (he : e ∈ names)
    (hkeys : ∀ e' ∈ names, e'.dir = e.dir → e'.name = e.name → e' = e) (hnode : e.node ∈ live)
    (hfile : isDir (fs.getInodeData e.node).mode = false)
    (hinner : fs.startsBlock e.dir e.name = false)
    (hdirs : ∀ e' ∈ names, e'.dir ∈ fs.remaining live e.node) (stack : UInt16) : ∃ fs',
      fs.removeEntry e.dir scanFuel stack e.name = .ok fs' ∧
        fs'.Shows G M (fs.remaining live e.node) (names.erase e) ∧
        fs.Keeping fs' G (fs.remaining live e.node) fun i =>
          if i = e.node then (fs.getInodeData i).linksCount - 1 else (fs.getInodeData i).linksCount := by
  obtain ⟨hdir, hisDir⟩ := h.dirs e he
  obtain ⟨l, hl⟩ := h.entries e.dir hdir hisDir
  obtain ⟨pre, p, r, post, rfl, hre, hpos, hfirst⟩ := hl.split hG hnodup he rfl hkeys hinner
  have hr : r ∈ pre ++ p :: r :: post := by simp
  have hname : cString r.name = e.name := by
    rw [DirRecord.cString_of_not_mem (hl.nul r hr)]
    exact congrArg Naming.name hre
  have hinode : r.inode.toNat = e.node := congrArg Naming.node hre
  have htype : ¬(r.entry.type = ftDir ∧ e.name ≠ dotDot) := by
    rintro ⟨htype, -⟩
    have htyped := hl.typed r hr (hinode ▸ hnode)
    rw [hinode] at htyped
    have heq : inodeToDirType (fs.getInodeData e.node).mode = ftDir := htyped.symm.trans htype
    exact Bool.false_ne_true (hfile.symm.trans ((inodeToDirType_eq _).mp heq))
  obtain ⟨fs', heq, hrest⟩ := h.unlinkRecord hG hM hB hl (hinode ▸ hnode) hpos hfirst
    (by rwa [hinode]) (by rw [hinode]; exact hdirs e he) stack
  rw [hinode, hre] at hrest
  rw [hname] at heq
  refine ⟨fs', ?_, hrest.1, hrest.2.1⟩
  unfold FS.removeEntry
  unfold FS.unlinkRecord at heq
  have hfind := hl.lists.findRecord_inner hG hl.used hfirst (hl.lists.length_lt hG)
  rw [hname] at hfind
  rw [hfind, ok_bind] at heq ⊢
  dsimp only at heq ⊢
  simp only [if_neg htype]
  exact heq

/-- `removeEntry` of a directory, which loses its name and its entry `..`. -/
theorem removeEntry_dir (hG : G.Sound) (hM : G.Metadata M) (hB : G.blockSize < 2 ^ 16)
    (h : fs.Shows G M live names) (hnodup : names.Nodup) {d c : Nat} {n : List UInt8}
    (he : ⟨d, n, c⟩ ∈ names) (hup : ⟨c, dotDot, d⟩ ∈ names) (hn : n ≠ dotDot) (hdc : d ≠ c)
    (hkeys : ∀ e ∈ names, ∀ e' ∈ names, e.dir = e'.dir → e.name = e'.name → e = e')
    (hlinksc : (fs.getInodeData c).linksCount ≠ 1) (hlinksd : (fs.getInodeData d).linksCount ≠ 1)
    (hinner : fs.startsBlock d n = false) (hinner' : fs.startsBlock c dotDot = false) (stack : UInt16) :
    ∃ fs', fs.removeEntry d scanFuel stack n = .ok fs' ∧
      fs'.Shows G M live ((names.erase ⟨c, dotDot, d⟩).erase ⟨d, n, c⟩) ∧
      fs.Keeping fs' G live fun i => if i = c ∨ i = d then (fs.getInodeData i).linksCount - 1
        else (fs.getInodeData i).linksCount := by
  obtain ⟨hdir, hisDir⟩ := h.dirs _ he
  obtain ⟨hcdir, hcisDir⟩ := h.dirs _ hup
  simp only at hdir hisDir hcdir hcisDir
  obtain ⟨l, hl⟩ := h.entries d hdir hisDir
  obtain ⟨pre, p, r, post, rfl, hre, hpos, hfirst⟩ := hl.split hG hnodup he rfl
    (fun e' he' hd hname => hkeys e' he' _ he hd hname) hinner
  obtain ⟨lc, hlc⟩ := h.entries c hcdir hcisDir
  obtain ⟨prec, pc, rc, postc, rfl, hrec, hposc, hfirstc⟩ := hlc.split hG hnodup hup rfl
    (fun e' he' hd hname => hkeys e' he' _ hup hd hname) hinner'
  have hr : r ∈ pre ++ p :: r :: post := by simp
  have hrc : rc ∈ prec ++ pc :: rc :: postc := by simp
  have hname : cString r.name = n := by
    rw [DirRecord.cString_of_not_mem (hl.nul r hr)]
    exact congrArg Naming.name hre
  have hnamec : cString rc.name = dotDot := by
    rw [DirRecord.cString_of_not_mem (hlc.nul rc hrc)]
    exact congrArg Naming.name hrec
  have hinode : r.inode.toNat = c := congrArg Naming.node hre
  have hinodec : rc.inode.toNat = d := congrArg Naming.node hrec
  have htype : r.entry.type = ftDir ∧ n ≠ dotDot := by
    refine ⟨?_, hn⟩
    have htyped := hl.typed r hr (hinode ▸ hcdir)
    rw [hinode] at htyped
    exact htyped.trans ((inodeToDirType_eq _).mpr hcisDir)
  -- First the inode of the directory is unlinked.
  have hall : ∀ e ∈ names, e.dir ∈ fs.remaining live c := fun e he => by
    rw [FS.remaining_eq hlinksc]
    exact (h.dirs e he).1
  obtain ⟨fs₁, heq₁, h₁, hcontents₁, hlinks₁⟩ := h.unlink hG hM hcdir hall
  rw [FS.remaining_eq hlinksc] at h₁ hcontents₁ hlinks₁
  have hl₁ := hl.same hdir (fun _ hi => hi) h₁.tended (hcontents₁ d hdir)
    (fun i hi => (hcontents₁ i hi).mode) (List.Perm.refl _)
  have hlc₁ := hlc.same hcdir (fun _ hi => hi) h₁.tended (hcontents₁ c hcdir)
    (fun i hi => (hcontents₁ i hi).mode) (List.Perm.refl _)
  -- Then its entry for the directory above goes, which loses a link.
  have hlinksd₁ : (fs₁.getInodeData rc.inode.toNat).linksCount ≠ 1 := by
    rw [hinodec, hlinks₁ d hdir, if_neg hdc]
    exact hlinksd
  have hremain : fs₁.remaining live rc.inode.toNat = live := FS.remaining_eq hlinksd₁
  obtain ⟨fs₂, heq₂, h₂, hkeeping₂, hothers₂⟩ := h₁.unlinkRecord hG hM hB hlc₁
    (hinodec ▸ hdir) hposc hfirstc
    (fun e he => by rw [hremain]; exact (h.dirs e he).1) (by rw [hremain]; exact hcdir) stack
  rw [hremain, hrec] at h₂
  rw [hremain, hinodec] at hkeeping₂
  rw [hremain] at hothers₂
  rw [hnamec] at heq₂
  -- Its own record goes last.
  have hup₂ := filter_erase_perm hup d
  rw [if_neg (show ¬c = d from Ne.symm hdc)] at hup₂
  have hl₂ : fs₂.Entries G M live (names.erase ⟨c, dotDot, d⟩) d (pre ++ p :: r :: post) :=
    hl₁.same hdir (fun _ hi => hi) h₂.tended (hothers₂ d hdir hdc) (fun i hi => hkeeping₂.mode i hi)
      hup₂.symm
  obtain ⟨fs₃, heq₃, h₃, hkeeping₃, -⟩ := h₂.dropRecord hG hM hB hdir hl₂ hpos stack
  rw [hre] at h₃
  refine ⟨fs₃, ?_, h₃, fun i hi => ?_, fun i hi => ?_, fun i hi => ?_⟩
  · unfold FS.removeEntry
    have hfind := hl.lists.findRecord_inner hG hl.used hfirst (hl.lists.length_lt hG)
    rw [hname] at hfind
    rw [hfind, ok_bind]
    dsimp only
    rw [show r.entry.inode = r.inode from rfl, hinode, heq₁, ok_bind]
    simp only [if_pos htype]
    rw [heq₂, ok_bind, heq₃]
  · rw [hkeeping₃.mode i hi, hkeeping₂.mode i hi, (hcontents₁ i hi).mode]
  · rw [hkeeping₃.count i hi, hkeeping₂.count i hi, (hcontents₁ i hi).count]
  · rw [hkeeping₃.links i hi, hkeeping₂.links i hi, hlinks₁ i hi]
    by_cases hi' : i = c
    · subst hi'
      rw [if_neg (Ne.symm hdc), if_pos rfl, if_pos (.inl rfl)]
    · by_cases hid : i = d
      · subst hid
        rw [if_pos rfl, if_neg hi', if_pos (.inr rfl)]
      · rw [if_neg hid, if_neg hi', if_neg (by rintro (h | h); exacts [hi' h, hid h])]

/-- A directory without entries but the one for itself is given back. -/
theorem deleteDir (hG : G.Sound) (hM : G.Metadata M) (h : fs.Shows G M live names) {c : Nat}
    (hself : ⟨c, [46], c⟩ ∈ names) (hnodup : names.Nodup)
    (honly : ∀ e ∈ names, e.dir = c → e = ⟨c, [46], c⟩)
    (hlast : (fs.getInodeData c).linksCount = 1) : ∃ fs',
      FS.deleteDir c scanFuel scanFuel fs 0 = .ok fs' ∧
        fs'.Shows G M (live.erase c) (names.erase ⟨c, [46], c⟩) ∧
        (∀ i ∈ live.erase c, fs.SameContents fs' G i) ∧
        (∀ i ∈ live.erase c, (fs'.getInodeData i).linksCount = (fs.getInodeData i).linksCount) ∧
        G.inodeUsed fs'.part c = false := by
  obtain ⟨hc, hisDir⟩ := h.dirs _ hself
  simp only at hc hisDir
  obtain ⟨l, hl⟩ := h.entries c hc hisDir
  have hfilter : names.filter (·.dir = c) = [⟨c, [46], c⟩] := by
    refine List.perm_singleton.mp ?_
    refine (List.perm_ext_iff_of_nodup (hnodup.filter _) (List.nodup_singleton _)).mpr fun e => ?_
    rw [List.mem_filter, List.mem_singleton]
    constructor
    · rintro ⟨he, hdir⟩
      exact honly e he (of_decide_eq_true hdir)
    · rintro rfl
      exact ⟨hself, by simp⟩
  have hnamed := hl.named
  rw [hfilter, List.perm_singleton] at hnamed
  obtain ⟨r, rfl, hr⟩ : ∃ r, l = [r] ∧ r.named c = ⟨c, [46], c⟩ := by
    cases l with
    | nil => cases hnamed
    | cons r l =>
      obtain ⟨hr, hnil⟩ := List.cons.inj hnamed
      rw [List.map_eq_nil_iff.mp hnil]
      exact ⟨r, rfl, hr⟩
  have hinode : r.inode.toNat = c := congrArg Naming.node hr
  have hremain : fs.remaining live c = live.erase c := if_pos hlast
  obtain ⟨fs', heq, htended, hcontents, hlinks⟩ := h.tended.unlink_contents hG hM hc
  obtain ⟨hunused, hzero⟩ := h.tended.unlink_last hG hM hc hlast heq
  rw [hremain] at htended hcontents hlinks
  have hne : ∀ i ∈ live.erase c, i ≠ c := fun i hi heq =>
    h.tended.wellFormed.nodup.not_mem_erase (heq ▸ hi)
  refine ⟨fs', ?_, h.same htended (fun i hi => List.mem_of_mem_erase hi) hcontents (fun e he => ?_)
    (fun d hd => ?_), hcontents, fun i hi => ?_, hunused⟩
  · have hread := FS.Lists.readdir_used hG (by exact hl.lists : fs.Lists G M c ([] ++ r :: []))
      (hl.used r (by simp)) (scanFuel - 1)
    have hpos : 1 ≤ scanFuel - 1 := by
      unfold scanFuel
      decide
    obtain ⟨k, hk⟩ : ∃ k, scanFuel = k + 2 := ⟨scanFuel - 2, by omega⟩
    have hend : fs'.scanEnd c = 0 := by
      rw [FS.scanEnd, hzero]
      rfl
    rw [show scanFuel - 1 + 1 = k + 2 by omega, DirRecord.size_nil] at hread
    rw [hk, FS.deleteDir, hread, ok_bind]
    dsimp only
    rw [show r.entry.inode = r.inode from rfl, hinode, heq, ok_bind, FS.deleteDir, FS.readdir,
      if_pos (hend ▸ Nat.zero_le _)]
    rfl
  · obtain ⟨hne', hmem⟩ := hnodup.mem_erase_iff.mp he
    exact ⟨(List.mem_erase_of_ne fun hdir => hne' (honly e hmem hdir)).mpr (h.dirs e hmem).1, hmem⟩
  · have hperm := filter_erase_perm hself d
    rw [if_neg (show ¬c = d from fun heq => hne d hd heq.symm)] at hperm
    exact hperm.symm
  · rw [hlinks i hi, if_neg (hne i hi)]

/-- An inode that is new shows what it holds. -/
theorem adopt (h : fs.Shows G M live names) {names' : List Named} (hnodes : ∀ e ∈ names, e.node ∈ live)
    (hnot : inode ∉ live) (hkept : fs.Kept fs' G M (inode :: live) inode)
    (hnew : isDir (fs'.getInodeData inode).mode = true →
      ∃ l, fs'.Entries G M (inode :: live) names' inode l)
    (hdirs : ∀ e ∈ names', e ∈ names ∨ e.dir = inode ∧ isDir (fs'.getInodeData inode).mode = true)
    (hnames : ∀ d ∈ live, (names'.filter (·.dir = d)).Perm (names.filter (·.dir = d))) :
    fs'.Shows G M (inode :: live) names' where
  tended := hkept.tended
  entries d hd hd' := by
    rcases List.mem_cons.mp hd with rfl | hd
    · exact hnew hd'
    have hne : d ≠ inode := fun heq => hnot (heq ▸ hd)
    have hmem := List.mem_cons_of_mem inode hd
    have hsame := (hkept.others d hmem hne).contents
    rw [hsame.mode] at hd'
    obtain ⟨l, hl⟩ := h.entries d hd hd'
    refine ⟨l, {
      lists := hl.lists.same (hkept.tended.wellFormed.intact hmem) hsame
      some := hl.some
      used := hl.used
      nul := hl.nul
      typed := fun r hr hi => ?_
      named := hl.named.trans (hnames d hd).symm }⟩
    have hnode : r.inode.toNat ∈ live :=
      hnodes (r.named d) (List.mem_of_mem_filter (hl.named.mem_iff.mp (List.mem_map_of_mem hr)))
    rw [(hkept.others _ hi fun heq => hnot (heq ▸ hnode)).contents.mode]
    exact hl.typed r hr hnode
  dirs e he := by
    rcases hdirs e he with he | ⟨hdir, hisDir⟩
    · obtain ⟨hdir, hisDir⟩ := h.dirs e he
      have hmem := List.mem_cons_of_mem inode hdir
      have hne : e.dir ≠ inode := fun heq => hnot (heq ▸ hdir)
      exact ⟨hmem, by rw [(hkept.others _ hmem hne).contents.mode]; exact hisDir⟩
    · rw [hdir]
      exact ⟨List.mem_cons_self, hisDir⟩

theorem getNewFile (hG : G.Sound) (hM : G.Metadata M) (h : fs.Shows G M live names)
    (hnodes : ∀ e ∈ names, e.node ∈ live) (uid gid : UInt16) {mode : UInt16} (hmode : isReg mode = true) :
    Ensures (fs.getNewFile uid gid mode) (· = .bsod "No more inodes on disk :-(") fun r =>
      r.1 ∉ live ∧ fs.Kept r.2 G M (r.1 :: live) r.1 ∧ r.2.Shows G M (r.1 :: live) names ∧
        (r.2.getInodeData r.1).mode = mode ∧ (r.2.getInodeData r.1).linksCount = 0 := by
  have hspec := h.tended.getNewFile hG hM uid gid mode
  have herror : Ensures (fs.getNewFile uid gid mode) (· = .bsod "No more inodes on disk :-(")
      fun _ => True := by
    unfold FS.getNewFile
    rw [hmode]
    exact (getNewInode_aside hG hM h.tended.wellFormed.fit false).bind fun _ _ => trivial
  cases heq : fs.getNewFile uid gid mode with
  | error e =>
    rw [heq] at herror
    exact herror
  | ok r =>
    rw [heq] at hspec
    obtain ⟨hnot, hkept, hdata⟩ := hspec
    have hmode' : (r.2.getInodeData r.1).mode = mode := by rw [hdata]; rfl
    refine ⟨hnot, hkept, h.adopt hnodes hnot hkept (fun hdir => ?_) (fun e he => .inl he)
      (fun _ _ => List.Perm.refl _), hmode', by rw [hdata]; rfl⟩
    rw [hmode'] at hdir
    rw [isReg_of_isDir hdir] at hmode
    cases hmode

theorem getNewDirectory (hG : G.Sound) (hM : G.Metadata M) (hB : G.blockSize < 2 ^ 16)
    (h : fs.Shows G M live names) (hnodes : ∀ e ∈ names, e.node ∈ live) (uid gid : UInt16)
    {mode : UInt16} (hmode : isDir mode = true) :
    Ensures (fs.getNewDirectory uid gid mode)
      (fun e => e = .bsod "No more inodes on disk :-(" ∨ e = .bsod "No space on disk :-(") fun r =>
      r.1 ∉ live ∧ fs.Kept r.2 G M (r.1 :: live) r.1 ∧
        r.2.Shows G M (r.1 :: live) (⟨r.1, [46], r.1⟩ :: names) ∧
        (r.2.getInodeData r.1).mode = mode ∧ (r.2.getInodeData r.1).linksCount = 1 ∧
        r.2.count G r.1 = 1 := by
  refine (h.tended.getNewDirectory hG hM uid gid hmode hB).mono (fun _ he => he) fun r hr => ?_
  obtain ⟨ino, fs'⟩ := r
  obtain ⟨hnot, hkept, hmode', hlinks, rest, hlists⟩ := hr
  simp only at hnot hkept hmode' hlinks hlists ⊢
  have hnat : (UInt32.ofNat ino).toNat = ino := by
    have hlt := lt_of_le_of_lt
      (hkept.tended.wellFormed.inode ino List.mem_cons_self).le hG.inodes_lt
    rw [UInt32.toNat_ofNat', Nat.mod_eq_of_lt hlt]
  have hnone : names.filter (·.dir = ino) = [] := by
    refine List.filter_eq_nil_iff.mpr fun e he heq => hnot ?_
    rw [← of_decide_eq_true heq]
    exact (h.dirs e he).1
  refine ⟨hnot, hkept, h.adopt hnodes hnot hkept (fun _ => ⟨_, {
      lists := hlists
      some := by simp
      used := ?_
      nul := ?_
      typed := ?_
      named := ?_ }⟩) (fun e he => ?_) (fun d hd => ?_), hmode', hlinks, ?_⟩
  · refine List.forall_mem_singleton.mpr fun hzero => ?_
    have hpos := (hkept.tended.wellFormed.inode ino List.mem_cons_self).pos
    simp only at hzero
    rw [hzero] at hnat
    change 0 = ino at hnat
    omega
  · exact List.forall_mem_singleton.mpr (show 0 ∉ ([46] : List UInt8) by decide)
  · refine List.forall_mem_singleton.mpr fun _ => ?_
    simp only
    rw [hnat, hmode', (inodeToDirType_eq mode).mpr hmode]
  · rw [List.filter_cons, if_pos (by simp), hnone]
    simp [DirRecord.named, hnat]
  · rcases List.mem_cons.mp he with rfl | he
    · exact .inr ⟨rfl, by rw [hmode']; exact hmode⟩
    · exact .inl he
  · rw [List.filter_cons, if_neg]
    simpa using fun heq : ino = d => hnot (heq ▸ hd)
  · have hsize := hlists.length
    have hends := FS.Lists.ends (by exact hlists : fs'.Lists G M ino ([] ++ [_]))
    rw [DirRecord.size_nil, Nat.zero_mod, Nat.zero_add] at hends
    rw [DirRecord.size_cons, DirRecord.size_nil, Nat.add_zero, hends] at hsize
    have hB := hG.blockSize_pos
    nlinarith

end FS.Shows

end SupOS.Ext2
