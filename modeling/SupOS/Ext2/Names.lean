import SupOS.Ext2.Creation
import SupOS.Lib.NameTree

/-! The names that the directories of a file system hold, as one list, and what the parts of `addEntry`
and `removeEntry` make of it. -/

namespace SupOS.Ext2

open Lib SupOS.Ext2.Geometry

variable {G : Geometry} {M : Nat → Prop} {fs fs' : FS} {dir inode : Nat} {live live' : List Nat}
  {l pre post : List DirRecord} {p r : DirRecord} {name : List UInt8}

/-- A name for an inode in a directory. -/
abbrev Named := Naming Nat (List UInt8)

/-- The names `.` and `..`. -/
def dots : Dots (List UInt8) := ⟨[46], dotDot, by decide⟩

/-- A record of directory `dir` as a name. -/
def DirRecord.named (dir : Nat) (r : DirRecord) : Named := ⟨dir, r.name, r.inode.toNat⟩

/-- Enough rounds for the loops over the records of a directory. -/
@[irreducible] def scanFuel : Nat := 2 ^ 17

theorem FS.Lists.length_lt (hG : G.Sound) (h : fs.Lists G M dir l) : l.length < scanFuel := by
  have hlt := h.size_lt hG
  have hle : 8 * l.length ≤ DirRecord.size l := by
    clear h hlt
    induction l with
    | nil => exact le_rfl
    | cons r l ih =>
      have hrec : 8 ≤ r.recLen := by unfold DirRecord.recLen; omega
      rw [List.length_cons, DirRecord.size_cons]
      omega
  unfold scanFuel
  omega

/-- The records of a directory are one list. -/
theorem FS.Lists.unique {l' : List DirRecord} (h : fs.Lists G M dir l) (h' : fs.Lists G M dir l') :
    l = l' := by
  have hdata := h'.spans.unique h.spans
  rw [← List.append_nil (DirRecord.data l)] at hdata
  obtain ⟨l'', rfl, hnil⟩ := DirRecord.data_prefix h.tiled.fits h'.tiled.fits hdata
  cases l'' with
  | nil => rw [List.append_nil]
  | cons r l'' =>
    have hlen := congrArg List.length hnil
    rw [DirRecord.length_data, DirRecord.size_cons] at hlen
    unfold DirRecord.recLen at hlen
    simp at hlen

/-- The records of a directory, which are all in use, and the names that they stand for. -/
structure FS.Entries (fs : FS) (G : Geometry) (M : Nat → Prop) (live : List Nat) (names : List Named)
    (dir : Nat) (l : List DirRecord) : Prop where
  lists : fs.Lists G M dir l
  some : l ≠ []
  used : ∀ r ∈ l, r.inode ≠ 0
  nul : ∀ r ∈ l, 0 ∉ r.name
  typed : ∀ r ∈ l, r.inode.toNat ∈ live →
    r.type = inodeToDirType (fs.getInodeData r.inode.toNat).mode
  named : (l.map (DirRecord.named dir)).Perm (names.filter (·.dir = dir))

/-- The live directories hold the names, and no others. -/
structure FS.Shows (fs : FS) (G : Geometry) (M : Nat → Prop) (live : List Nat) (names : List Named) :
    Prop where
  tended : fs.Tended G M live
  entries : ∀ d ∈ live, isDir (fs.getInodeData d).mode = true → ∃ l, fs.Entries G M live names d l
  dirs : ∀ e ∈ names, e.dir ∈ live ∧ isDir (fs.getInodeData e.dir).mode = true

variable {names names' : List Named}

theorem Inserted.mem {inode : UInt32} {type : UInt8} {l' : List DirRecord}
    (h : Inserted l name inode type l') {x : DirRecord} (hx : x ∈ l') :
    (∃ y ∈ l, x.inode = y.inode ∧ x.type = y.type ∧ x.name = y.name) ∨
      x.inode = inode ∧ x.type = type ∧ x.name = name := by
  obtain ⟨pre, r, r', new, post, rfl, rfl, hr, hrtype, hrname, hnew, hnewtype, hnewname, -⟩ := h
  rcases List.mem_append.mp hx with hx | hx
  · exact .inl ⟨x, List.mem_append_left _ hx, rfl, rfl, rfl⟩
  rcases List.mem_cons.mp hx with rfl | hx
  · exact .inl ⟨r, List.mem_append_right _ List.mem_cons_self, hr, hrtype, hrname⟩
  rcases List.mem_cons.mp hx with rfl | hx
  · exact .inr ⟨hnew, hnewtype, hnewname⟩
  · exact .inl ⟨x, List.mem_append_right _ (List.mem_cons_of_mem _ hx), rfl, rfl, rfl⟩

theorem Inserted.named {inode : UInt32} {type : UInt8} {l' : List DirRecord}
    (h : Inserted l name inode type l') (dir : Nat) : (l'.map (DirRecord.named dir)).Perm
      (⟨dir, name, inode.toNat⟩ :: l.map (DirRecord.named dir)) := by
  obtain ⟨pre, r, r', new, post, rfl, rfl, hr, -, hrname, hnew, -, hnewname, -⟩ := h
  have hold : r'.named dir = r.named dir := by rw [DirRecord.named, DirRecord.named, hr, hrname]
  have hfresh : new.named dir = ⟨dir, name, inode.toNat⟩ := by
    rw [DirRecord.named, hnew, hnewname]
  simp only [List.map_append, List.map_cons, hold, hfresh]
  exact (List.Perm.append_left _ (List.Perm.swap _ _ _)).trans List.perm_middle

theorem Inserted.ne_nil {inode : UInt32} {type : UInt8} {l' : List DirRecord}
    (h : Inserted l name inode type l') : l' ≠ [] := by
  obtain ⟨pre, r, r', new, post, -, rfl, -⟩ := h
  simp

theorem FS.Entries.mem_names (hl : fs.Entries G M live names dir l) {e : Named} (he : e ∈ names)
    (hdir : e.dir = dir) : e.name ∈ l.map DirRecord.name := by
  obtain ⟨r, hr, hre⟩ := List.mem_map.mp
    (hl.named.mem_iff.mpr (List.mem_filter.mpr ⟨he, by simpa using hdir⟩))
  exact List.mem_map.mpr ⟨r, hr, congrArg Naming.name hre⟩

/-- The records of a directory whose contents and names are as before. -/
theorem FS.Entries.same (h : fs.Entries G M live names dir l) (hdir : dir ∈ live')
    (hsub : ∀ i ∈ live', i ∈ live) (htended : fs'.Tended G M live')
    (hcontents : fs.SameContents fs' G dir)
    (hmodes : ∀ i ∈ live', (fs'.getInodeData i).mode = (fs.getInodeData i).mode)
    (hnames : (names'.filter (·.dir = dir)).Perm (names.filter (·.dir = dir))) :
    fs'.Entries G M live' names' dir l where
  lists := h.lists.same (htended.wellFormed.intact hdir) hcontents
  some := h.some
  used := h.used
  nul := h.nul
  typed r hr hi := by rw [h.typed r hr (hsub _ hi), hmodes _ hi]
  named := h.named.trans hnames.symm

/-- The record with a name starts a block. -/
def FS.startsBlock (fs : FS) (dir : Nat) (name : List UInt8) : Bool :=
  match fs.findRecord dir name scanFuel scanFuel 0 0 with
  | .ok (_, curPos, _) => curPos % fs.blockSize == 0
  | .error _ => false

/-- Where the first record with a name lies. -/
def DirRecord.position (name : List UInt8) : List DirRecord → Nat
  | [] => 0
  | r :: l => if r.name = name then 0 else r.recLen + position name l

theorem DirRecord.position_append {front : List DirRecord} (h : ∀ x ∈ front, x.name ≠ name)
    (l : List DirRecord) : position name (front ++ l) = size front + position name l := by
  induction front with
  | nil => rw [List.nil_append, size_nil, Nat.zero_add]
  | cons x front ih =>
    obtain ⟨hx, hfront⟩ := List.forall_mem_cons.mp h
    rw [List.cons_append, position, if_neg hx, ih hfront, size_cons, Nat.add_assoc]

/-- A record that is added moves no other. -/
theorem Inserted.position {inode : UInt32} {type : UInt8} {l' : List DirRecord}
    (h : Inserted l name inode type l') {n : List UInt8} (hn : n ≠ name)
    (hmem : n ∈ l.map DirRecord.name) : DirRecord.position n l' = DirRecord.position n l := by
  obtain ⟨pre, r, r', new, post, rfl, rfl, -, -, hrname, -, -, hnewname, hsum⟩ := h
  induction pre with
  | nil =>
    simp only [List.nil_append, DirRecord.position, hrname, hnewname, if_neg (Ne.symm hn)]
    split
    · rfl
    · next hne =>
      have hpost : post ≠ [] := by
        rintro rfl
        exact hne (List.mem_singleton.mp hmem).symm
      have := hsum.resolve_left hpost
      omega
  | cons x pre ih =>
    simp only [List.cons_append, DirRecord.position]
    split
    · rfl
    · next hne =>
      rw [ih ((List.mem_cons.mp hmem).resolve_left fun heq => hne heq.symm)]

/-- The loop of `removeEntry` finds the first record with a name. -/
theorem FS.Entries.startsBlock_eq (hG : G.Sound) (hl : fs.Entries G M live names dir l) {n : List UInt8}
    (hn : n ∈ l.map DirRecord.name) :
    fs.startsBlock dir n = (DirRecord.position n l % G.blockSize == 0) := by
  obtain ⟨ns, ns', hns, hnot⟩ := List.eq_append_cons_of_mem hn
  obtain ⟨front, rest, rfl, rfl, hrest⟩ := List.map_eq_append_iff.mp hns
  obtain ⟨r, post, rfl, rfl, -⟩ := List.map_eq_cons_iff.mp hrest
  have hfront : ∀ x ∈ front, x.name ≠ r.name := fun x hx heq =>
    hnot (heq ▸ List.mem_map_of_mem hx)
  have hcString : ∀ x ∈ front ++ r :: post, cString x.name = x.name := fun x hx =>
    DirRecord.cString_of_not_mem (hl.nul x hx)
  have hr : r ∈ front ++ r :: post := by simp
  have hlen := hl.lists.length_lt hG
  rw [List.length_append] at hlen
  have hfind := FS.Lists.findRecord hG (by exact hl.lists : fs.Lists G M dir ([] ++ (front ++ r :: post)))
    (n := scanFuel - 1) (k := 0) (show front.length < scanFuel by omega)
    (fun x hx => ⟨hl.used x (List.mem_append_left _ hx), by
      rw [hcString x (List.mem_append_left _ hx)]
      exact hfront x hx⟩) (hl.used r hr) (hcString r hr)
  have hblock : fs.blockSize = G.blockSize :=
    congrArg Geometry.blockSize hl.lists.spans.intact.fit.geometry
  rw [Nat.sub_add_cancel (show 1 ≤ scanFuel by omega), DirRecord.size_nil, List.nil_append] at hfind
  unfold FS.startsBlock
  rw [hfind, hblock, DirRecord.position_append hfront, DirRecord.position, if_pos rfl, Nat.add_zero]
  rfl

namespace FS.Amended

variable {links : Nat → UInt16}

theorem modes (h : fs.Amended fs' G M live dir links) {i : Nat} (hi : i ∈ live) :
    (fs'.getInodeData i).mode = (fs.getInodeData i).mode := by
  by_cases hne : i = dir
  · subst hne
    exact h.mode
  · exact (h.others i hi hne).mode

end FS.Amended

namespace FS.Shows

/-- What a change of one directory makes of the names. -/
theorem amend {links : Nat → UInt16} (h : fs.Shows G M live names) (hsub : ∀ i ∈ live', i ∈ live)
    (hamended : fs.Amended fs' G M live' dir links) (hdirs : ∀ e ∈ names', e.dir ∈ live' ∧
      isDir (fs.getInodeData e.dir).mode = true)
    (hnames : ∀ d ∈ live', d ≠ dir → (names'.filter (·.dir = d)).Perm (names.filter (·.dir = d)))
    (hentries : ∃ l, fs'.Entries G M live' names' dir l) : fs'.Shows G M live' names' where
  tended := hamended.tended
  entries d hd hd' := by
    by_cases hne : d = dir
    · exact hne ▸ hentries
    · rw [hamended.modes hd] at hd'
      obtain ⟨l, hl⟩ := h.entries d (hsub d hd) hd'
      exact ⟨l, hl.same hd hsub hamended.tended (hamended.others d hd hne) (fun i hi => hamended.modes hi)
        (hnames d hd hne)⟩
  dirs e he := ⟨(hdirs e he).1, by rw [hamended.modes (hdirs e he).1]; exact (hdirs e he).2⟩

theorem toNat_inode (hG : G.Sound) (h : fs.Shows G M live names) (hinode : inode ∈ live) :
    (UInt32.ofNat inode).toNat = inode := by
  have hlt := lt_of_le_of_lt (h.tended.wellFormed.inode inode hinode).le hG.inodes_lt
  rw [UInt32.toNat_ofNat', Nat.mod_eq_of_lt hlt]

theorem inode_ne_zero (hG : G.Sound) (h : fs.Shows G M live names) (hinode : inode ∈ live) :
    UInt32.ofNat inode ≠ 0 := by
  intro hzero
  have hnat := h.toNat_inode hG hinode
  have hpos := (h.tended.wellFormed.inode inode hinode).pos
  rw [hzero] at hnat
  change 0 = inode at hnat
  omega

/-- `addEntry` from `link` on gives the inode the name. -/
theorem linkRecord (hG : G.Sound) (hM : G.Metadata M) (hB : G.blockSize < 2 ^ 16)
    (h : fs.Shows G M live names) (hdir : dir ∈ live) (hisDir : isDir (fs.getInodeData dir).mode = true)
    (hinode : inode ∈ live) (hname : name ≠ []) (hshort : name.length < 2 ^ 8) (hnul : 0 ∉ name)
    (hdirect : fs.count G dir < 12) :
    Ensures (fs.linkRecord dir scanFuel name inode) (· = .bsod "No space on disk :-(") fun fs' =>
      fs'.Shows G M live (⟨dir, name, inode⟩ :: names) ∧ (fs.Amended fs' G M live dir fun i =>
        if i = inode then (fs.getInodeData i).linksCount + 1 else (fs.getInodeData i).linksCount) ∧
      ∀ e ∈ names, e.dir = dir → e.name ≠ name →
        fs'.startsBlock dir e.name = fs.startsBlock dir e.name := by
  obtain ⟨l, hl⟩ := h.entries dir hdir hisDir
  refine (hl.lists.linkRecord hG hM h.tended hdir hinode hl.some hname hshort hB hdirect
    (hl.lists.length_lt hG).le).mono (fun _ he => he) fun fs' hfs' => ?_
  obtain ⟨l', hinserted, hl', hamended⟩ := hfs'
  have hnat := h.toNat_inode hG hinode
  have hentries : fs'.Entries G M live (⟨dir, name, inode⟩ :: names) dir l' := {
    lists := hl'
    some := hinserted.ne_nil
    used := fun x hx => by
      rcases hinserted.mem hx with ⟨y, hy, heq, -⟩ | ⟨heq, -⟩
      · exact heq ▸ hl.used y hy
      · exact heq ▸ h.inode_ne_zero hG hinode
    nul := fun x hx => by
      rcases hinserted.mem hx with ⟨y, hy, -, -, heq⟩ | ⟨-, -, heq⟩
      · exact heq ▸ hl.nul y hy
      · exact heq ▸ hnul
    typed := fun x hx hi => by
      rw [hamended.modes hi]
      rcases hinserted.mem hx with ⟨y, hy, heq, htype, -⟩ | ⟨heq, htype, -⟩
      · rw [heq] at hi ⊢
        exact htype.trans (hl.typed y hy hi)
      · rw [heq, hnat, htype]
    named := by
      refine (hinserted.named dir).trans ?_
      rw [hnat, List.filter_cons, if_pos (by simp)]
      exact hl.named.cons _ }
  refine ⟨h.amend (fun _ hi => hi) hamended ?_ (fun d _ hne => ?_) ⟨l', hentries⟩, hamended,
    fun e he hedir hne => ?_⟩
  · exact List.forall_mem_cons.mpr ⟨⟨hdir, hisDir⟩, h.dirs⟩
  · rw [List.filter_cons, if_neg (by simpa using Ne.symm hne)]
  · have hmem := hl.mem_names he hedir
    have hmem' := hentries.mem_names (List.mem_cons_of_mem _ he) hedir
    rw [hl.startsBlock_eq hG hmem, hentries.startsBlock_eq hG hmem', hinserted.position hne hmem]

/-- The names are shown as long as the contents stay. -/
theorem same (h : fs.Shows G M live names) (htended : fs'.Tended G M live')
    (hsub : ∀ i ∈ live', i ∈ live) (hcontents : ∀ i ∈ live', fs.SameContents fs' G i)
    (hdirs : ∀ e ∈ names', e.dir ∈ live' ∧ e ∈ names)
    (hnames : ∀ d ∈ live', (names'.filter (·.dir = d)).Perm (names.filter (·.dir = d))) :
    fs'.Shows G M live' names' where
  tended := htended
  entries d hd hd' := by
    rw [(hcontents d hd).mode] at hd'
    obtain ⟨l, hl⟩ := h.entries d (hsub d hd) hd'
    exact ⟨l, hl.same hd hsub htended (hcontents d hd) (fun i hi => (hcontents i hi).mode)
      (hnames d hd)⟩
  dirs e he := by
    obtain ⟨hdir, hmem⟩ := hdirs e he
    exact ⟨hdir, by rw [(hcontents _ hdir).mode]; exact (h.dirs e hmem).2⟩

end FS.Shows

/-- The names of a directory without one of them. -/
theorem filter_erase_perm {e : Named} (he : e ∈ names) (d : Nat) :
    (names.filter (·.dir = d)).Perm (if e.dir = d then e :: (names.erase e).filter (·.dir = d)
      else (names.erase e).filter (·.dir = d)) := by
  refine ((List.perm_cons_erase he).filter _).trans ?_
  rw [List.filter_cons]
  simp only [decide_eq_true_eq]
  exact List.Perm.refl _

/-- What removals leave of the inodes that remain. The numbers of links are those given. -/
structure FS.Keeping (fs fs' : FS) (G : Geometry) (live : List Nat) (links : Nat → UInt16) : Prop where
  mode : ∀ i ∈ live, (fs'.getInodeData i).mode = (fs.getInodeData i).mode
  count : ∀ i ∈ live, fs'.count G i = fs.count G i
  links : ∀ i ∈ live, (fs'.getInodeData i).linksCount = links i

/-- The record of a name that does not start a block, with the record before it. -/
theorem FS.Entries.split (hG : G.Sound) (hl : fs.Entries G M live names dir l) (hnodup : names.Nodup)
    {e : Named} (he : e ∈ names) (hdir : e.dir = dir)
    (hkeys : ∀ e' ∈ names, e'.dir = e.dir → e'.name = e.name → e' = e)
    (hinner : fs.startsBlock dir e.name = false) : ∃ pre p r post, l = pre ++ p :: r :: post ∧
      r.named dir = e ∧ DirRecord.size (pre ++ [p]) % G.blockSize ≠ 0 ∧
      ∀ x ∈ pre ++ [p], cString x.name ≠ cString r.name := by
  have hmem : e ∈ l.map (DirRecord.named dir) :=
    hl.named.mem_iff.mpr (List.mem_filter.mpr ⟨he, by simpa using hdir⟩)
  obtain ⟨r, hr, hre⟩ := List.mem_map.mp hmem
  obtain ⟨front, post, rfl⟩ := List.append_of_mem hr
  have hnodup' : ((front ++ r :: post).map (DirRecord.named dir)).Nodup :=
    hl.named.nodup_iff.mpr (hnodup.filter _)
  have hcString : ∀ x ∈ front ++ r :: post, cString x.name = x.name := fun x hx =>
    DirRecord.cString_of_not_mem (hl.nul x hx)
  have hfirst : ∀ x ∈ front, cString x.name ≠ cString r.name := by
    intro x hx heq
    rw [hcString x (List.mem_append_left _ hx), hcString r hr] at heq
    have hxmem : x.named dir ∈ names := List.mem_of_mem_filter (hl.named.mem_iff.mp
      (List.mem_map_of_mem (List.mem_append_left _ hx)))
    have hxe : x.named dir = r.named dir := by
      rw [hre]
      exact hkeys _ hxmem hdir.symm (heq.trans (congrArg Naming.name hre))
    rw [List.map_append, List.map_cons, List.nodup_append] at hnodup'
    exact hnodup'.2.2 _ (List.mem_map_of_mem hx) _ List.mem_cons_self hxe
  have hpos : DirRecord.size front % G.blockSize ≠ 0 := by
    have hname : r.name = e.name := congrArg Naming.name hre
    have hfirst' : ∀ x ∈ front, x.name ≠ r.name := fun x hx heq => hfirst x hx (by rw [heq])
    rw [← hname, hl.startsBlock_eq hG (List.mem_map_of_mem hr), DirRecord.position_append hfirst',
      DirRecord.position, if_pos rfl, Nat.add_zero] at hinner
    simpa using hinner
  rcases List.eq_nil_or_concat front with rfl | ⟨pre, p, rfl⟩
  · exact absurd (Nat.zero_mod _) hpos
  · rw [List.concat_eq_append] at hfirst hpos
    exact ⟨pre, p, r, post, by simp, hre, hpos, hfirst⟩

namespace FS.Shows

/-- The end of `removeEntry` takes the name away. -/
theorem dropRecord (hG : G.Sound) (hM : G.Metadata M) (hB : G.blockSize < 2 ^ 16)
    (h : fs.Shows G M live names) (hdir : dir ∈ live)
    (hl : fs.Entries G M live names dir (pre ++ p :: r :: post))
    (hinner : DirRecord.size (pre ++ [p]) % G.blockSize ≠ 0) (stack : UInt16) : ∃ fs',
      fs.dropRecord dir stack (DirRecord.size pre) (DirRecord.size (pre ++ [p])) r.entry.recLen =
        .ok fs' ∧ fs'.Shows G M live (names.erase (r.named dir)) ∧
        (fs.Keeping fs' G live fun i => (fs.getInodeData i).linksCount) ∧
        ∀ i ∈ live, i ≠ dir → fs.SameContents fs' G i := by
  obtain ⟨fs', heq, hspans, hrewritten⟩ := hl.lists.dropRecord hG hM h.tended hdir stack
  have hlists : fs'.Lists G M dir (pre ++ p.absorb r :: post) := ⟨hspans, hl.lists.tiled.merge hB hinner⟩
  have hamended : fs.Amended fs' G M live dir fun i => (fs.getInodeData i).linksCount := {
    tended := hrewritten.kept.tended
    mode := hrewritten.keeps.mode
    others := fun i hi hne => (hrewritten.kept.others i hi hne).contents
    links := fun i hi => by
      by_cases hne : i = dir
      · exact hne ▸ hrewritten.keeps.linksCount
      · rw [(hrewritten.kept.others i hi hne).data] }
  have hcount : fs'.count G dir = fs.count G dir := by
    have hsize := hlists.length
    have hsize' := hl.lists.length
    simp only [DirRecord.size_append, DirRecord.size_cons, DirRecord.recLen_absorb] at hsize hsize'
    have hmul : fs'.count G dir * G.blockSize = fs.count G dir * G.blockSize := by omega
    exact Nat.eq_of_mul_eq_mul_right hG.blockSize_pos hmul
  have hmem : r.named dir ∈ names := List.mem_of_mem_filter
    (hl.named.mem_iff.mp (List.mem_map_of_mem (by simp)))
  have hof : ∀ x ∈ pre ++ p.absorb r :: post, ∃ y ∈ pre ++ p :: r :: post,
      x.inode = y.inode ∧ x.type = y.type ∧ x.name = y.name := by
    intro x hx
    rcases List.mem_append.mp hx with hx | hx
    · exact ⟨x, by simp [hx], rfl, rfl, rfl⟩
    rcases List.mem_cons.mp hx with rfl | hx
    · exact ⟨p, by simp, rfl, rfl, rfl⟩
    · exact ⟨x, by simp [hx], rfl, rfl, rfl⟩
  have hentries : fs'.Entries G M live (names.erase (r.named dir)) dir (pre ++ p.absorb r :: post) := {
    lists := hlists
    some := by simp
    used := fun x hx => by
      obtain ⟨y, hy, heq, -⟩ := hof x hx
      exact heq ▸ hl.used y hy
    nul := fun x hx => by
      obtain ⟨y, hy, -, -, heq⟩ := hof x hx
      exact heq ▸ hl.nul y hy
    typed := fun x hx hi => by
      obtain ⟨y, hy, heq, htype, -⟩ := hof x hx
      rw [hamended.modes hi, htype, heq]
      exact hl.typed y hy (heq ▸ hi)
    named := by
      have hperm := hl.named.trans (filter_erase_perm hmem dir)
      rw [if_pos (show (r.named dir).dir = dir from rfl)] at hperm
      have hp : (p.absorb r).named dir = p.named dir := rfl
      simp only [List.map_append, List.map_cons, hp] at hperm ⊢
      have hmiddle : (pre.map (DirRecord.named dir) ++
          p.named dir :: r.named dir :: post.map (DirRecord.named dir)).Perm (r.named dir ::
            (pre.map (DirRecord.named dir) ++ p.named dir :: post.map (DirRecord.named dir))) :=
        (List.Perm.append_left _ (List.Perm.swap _ _ _)).trans List.perm_middle
      exact (hmiddle.symm.trans hperm).cons_inv }
  refine ⟨fs', heq, h.amend (fun _ hi => hi) hamended (fun e he => ?_) (fun d _ hne => ?_)
    ⟨_, hentries⟩, ⟨fun i hi => hamended.modes hi, fun i hi => ?_, hamended.links⟩, hamended.others⟩
  · exact h.dirs e (List.mem_of_mem_erase he)
  · have hperm := filter_erase_perm hmem d
    rw [if_neg (show ¬(r.named dir).dir = d from Ne.symm hne)] at hperm
    exact hperm.symm
  · by_cases hne : i = dir
    · exact hne ▸ hcount
    · exact (hamended.others i hi hne).count

/-- `unlink` changes no names. An inode that it frees must hold none. -/
theorem unlink (hG : G.Sound) (hM : G.Metadata M) (h : fs.Shows G M live names) (hinode : inode ∈ live)
    (hdirs : ∀ e ∈ names, e.dir ∈ fs.remaining live inode) : ∃ fs', fs.unlink inode = .ok fs' ∧
      fs'.Shows G M (fs.remaining live inode) names ∧
      (∀ i ∈ fs.remaining live inode, fs.SameContents fs' G i) ∧
      ∀ i ∈ fs.remaining live inode, (fs'.getInodeData i).linksCount =
        if i = inode then (fs.getInodeData i).linksCount - 1 else (fs.getInodeData i).linksCount := by
  obtain ⟨fs', heq, htended, hcontents, hlinks⟩ := h.tended.unlink_contents hG hM hinode
  refine ⟨fs', heq, h.same htended (fun i hi => ?_) hcontents (fun e he => ⟨hdirs e he, he⟩)
    (fun _ _ => List.Perm.refl _), hcontents, hlinks⟩
  unfold FS.remaining at hi
  split at hi
  · exact List.mem_of_mem_erase hi
  · exact hi

end FS.Shows

end SupOS.Ext2
