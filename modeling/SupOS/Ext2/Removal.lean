import SupOS.Ext2.Insertion

/-! `removeEntry` on a directory without unused records: the record before takes the bytes of the one
that goes. That keeps the records in order exactly when the record does not start a block. -/

namespace SupOS.Ext2

open Lib HDD SupOS.Ext2.Geometry

variable {G : Geometry} {M : Nat → Prop} {fs fs' : FS} {ino : Nat} {live : List Nat}
  {l pre mid post : List DirRecord} {p r : DirRecord} {name : List UInt8}

namespace DirRecord

/-- A record with the bytes of the next one behind its own. -/
def absorb (p r : DirRecord) : DirRecord := { p with rest := p.rest ++ r.bytes }

theorem recLen_absorb : (p.absorb r).recLen = p.recLen + r.recLen := by
  simp only [absorb, recLen, List.length_append, length_bytes, Nat.add_assoc]

/-- The bytes of the two are those of the one but for the field `rec_len`. -/
theorem bytes_absorb : (p.absorb r).bytes = (p.absorb r).entry.toList ++ (p.name ++ p.rest) ++ r.bytes := by
  simp only [bytes, absorb, List.append_assoc]

/-- Two records of one block make one. -/
theorem Tiled.merge {B : Nat} (h : Tiled B (pre ++ p :: r :: post)) (hB : B < 2 ^ 16)
    (hinner : size (pre ++ [p]) % B ≠ 0) : Tiled B (pre ++ p.absorb r :: post) := by
  obtain ⟨hpre, hp, hr, hpost⟩ := within_append.mp h.within
  rw [Nat.zero_add] at hp hr hpost
  have hsize : size (pre ++ [p]) = size pre + p.recLen := by simp
  rw [hsize] at hinner
  have hlt : size pre % B + p.recLen < B := by
    refine Nat.lt_of_le_of_ne hp fun heq => hinner ?_
    rw [← Nat.mod_add_mod, heq, Nat.mod_self]
  have hmod : (size pre + p.recLen) % B = size pre % B + p.recLen := by
    rw [← Nat.mod_add_mod, Nat.mod_eq_of_lt hlt]
  rw [hmod] at hr
  have hfitp := h.fits p (by simp)
  have hfitr := h.fits r (by simp)
  refine ⟨fun x hx => ?_, ?_, within_append.mpr ⟨hpre, ?_, ?_⟩⟩
  · simp only [List.mem_append, List.mem_cons] at hx
    rcases hx with hx | rfl | hx
    · exact h.fits x (by simp [hx])
    · refine ⟨hfitp.name, ?_, ?_⟩
      · rw [recLen_absorb]
        omega
      · rw [recLen_absorb]
        exact Nat.dvd_add hfitp.aligned hfitr.aligned
    · exact h.fits x (by simp [hx])
  · have hwhole := h.whole
    simp only [size_append, size_cons] at hwhole ⊢
    rwa [recLen_absorb, Nat.add_assoc]
  · rw [Nat.zero_add, recLen_absorb]
    omega
  · rw [Nat.zero_add, recLen_absorb, ← Nat.add_assoc]
    exact hpost

/-! ### One reading -/

theorem entry_injective {e e' : DirectoryEntry} (h : e.toList = e'.toList) : e = e' := by
  rw [← e.ofBytes_toList, h, e'.ofBytes_toList]

/-- The bytes of a record tell the record, and where the next one starts. -/
theorem bytes_cancel {x y : List UInt8} (hp : p.Fits) (hr : r.Fits) (h : p.bytes ++ x = r.bytes ++ y) :
    p = r ∧ x = y := by
  simp only [bytes, List.append_assoc] at h
  obtain ⟨hentry, h⟩ := List.append_inj h (p.entry.length_toList.trans r.entry.length_toList.symm)
  have hentry := entry_injective hentry
  have hname : p.name.length = r.name.length := by
    rw [← hp.toNat_nameLen, hentry, hr.toNat_nameLen]
  have hrecLen : p.recLen = r.recLen := by rw [← hp.toNat_recLen, hentry, hr.toNat_recLen]
  obtain ⟨hnames, h⟩ := List.append_inj h hname
  have hrest : p.rest.length = r.rest.length := by
    unfold recLen at hrecLen
    omega
  obtain ⟨hrests, hxy⟩ := List.append_inj h hrest
  obtain ⟨inode, type, name, rest⟩ := p
  obtain ⟨inode', type', name', rest'⟩ := r
  obtain ⟨rfl, -, -, rfl⟩ := DirectoryEntry.mk.inj hentry
  exact ⟨by rw [show name = name' from hnames, show rest = rest' from hrests], hxy⟩

/-- Records whose bytes start with those of other records start with these records. -/
theorem data_prefix {x : List UInt8} (hpre : ∀ r ∈ pre, r.Fits) (hl : ∀ r ∈ l, r.Fits)
    (h : data l = data pre ++ x) : ∃ l', l = pre ++ l' ∧ data l' = x := by
  induction pre generalizing l with
  | nil => exact ⟨l, rfl, h⟩
  | cons p pre ih =>
    obtain ⟨hp, hpre'⟩ := List.forall_mem_cons.mp hpre
    rw [data_cons, List.append_assoc] at h
    cases l with
    | nil =>
      have hlen := congrArg List.length h
      rw [length_data, List.length_append, length_bytes, size_nil] at hlen
      unfold recLen at hlen
      omega
    | cons r l =>
      obtain ⟨hr, hl'⟩ := List.forall_mem_cons.mp hl
      rw [data_cons] at h
      obtain ⟨rfl, hdata⟩ := bytes_cancel hr hp h
      obtain ⟨l', rfl, hx⟩ := ih hpre' hl' hdata
      exact ⟨l', rfl, hx⟩

/-- A record of two blocks is not one of a directory in order. -/
theorem not_tiled {B : Nat} (h : Tiled B (pre ++ p :: r :: post)) (hB : B ≤ 2 ^ 15)
    (houter : size (pre ++ [p]) % B = 0) {l' : List DirRecord}
    (hdata : data l' = data (pre ++ p.absorb r :: post)) : ¬Tiled B l' := by
  intro h'
  rw [data_append, data_cons] at hdata
  obtain ⟨l'', rfl, hrest⟩ := data_prefix (fun x hx => h.fits x (by simp [hx])) h'.fits hdata
  obtain ⟨-, hp, hr, -⟩ := within_append.mp h.within
  rw [Nat.zero_add] at hp hr
  have hrecp : 8 ≤ p.recLen := by unfold recLen; omega
  have hrecr : 8 ≤ r.recLen := by unfold recLen; omega
  have hfits : p.recLen = B - size pre % B := by
    have hmod : (size pre % B + p.recLen) % B = 0 := by
      rw [Nat.mod_add_mod]
      simpa using houter
    have hle := Nat.le_of_dvd (by omega) (Nat.dvd_of_mod_eq_zero hmod)
    omega
  cases l'' with
  | nil =>
    have hlen := congrArg List.length hrest
    rw [length_data, List.length_append, length_bytes, size_nil, recLen_absorb] at hlen
    omega
  | cons x l'' =>
    obtain ⟨-, hx, -⟩ := within_append.mp h'.within
    rw [Nat.zero_add] at hx
    have hfitx := h'.fits x (by simp)
    have hrecx : 8 ≤ x.recLen := by unfold recLen; omega
    have hentry : x.entry = (p.absorb r).entry := by
      refine entry_injective ?_
      simp only [data_cons, bytes, List.append_assoc] at hrest
      exact (List.append_inj hrest (x.entry.length_toList.trans (p.absorb r).entry.length_toList.symm)).1
    have hlen : x.recLen = (p.recLen + r.recLen) % 2 ^ 16 := by
      rw [← hfitx.toNat_recLen, hentry, ← recLen_absorb]
      exact UInt16.toNat_ofNat' ..
    have hmodr := Nat.zero_le ((size pre + p.recLen) % B)
    omega

end DirRecord

namespace FS.Lists

/-- The loop of `removeEntry` over records in use that do not have the name. -/
theorem findRecord (hG : G.Sound) (h : fs.Lists G M ino (pre ++ (mid ++ r :: post))) {n fuel k : Nat}
    (hfuel : mid.length < fuel) (hmid : ∀ x ∈ mid, x.inode ≠ 0 ∧ cString x.name ≠ name)
    (hused : r.inode ≠ 0) (hname : cString r.name = name) :
    fs.findRecord ino name (n + 1) fuel k (DirRecord.size pre) =
      .ok (if mid = [] then k else DirRecord.size (pre ++ mid.dropLast),
        DirRecord.size (pre ++ mid), r.entry) := by
  obtain ⟨fuel, rfl⟩ : ∃ m, fuel = m + 1 := ⟨fuel - 1, by omega⟩
  induction mid generalizing pre fuel k with
  | nil =>
    rw [FS.findRecord, h.readdir_used hG hused, ok_bind]
    simp only [hname, if_true, List.append_nil]
    rfl
  | cons x mid ih =>
    obtain ⟨⟨hx, hne⟩, hmid⟩ := List.forall_mem_cons.mp hmid
    rw [FS.findRecord, h.readdir_used hG hx, ok_bind]
    simp only [if_neg hne]
    have hassoc : pre ++ (x :: mid ++ r :: post) = (pre ++ [x]) ++ (mid ++ r :: post) := by simp
    rw [hassoc] at h
    obtain ⟨fuel, rfl⟩ : ∃ m, fuel = m + 1 := ⟨fuel - 1, by simp at hfuel; omega⟩
    rw [ih h hmid fuel (by simp at hfuel; omega)]
    cases mid with
    | nil => simp
    | cons y mid => simp

/-- The record before takes the bytes. -/
theorem dropRecord (hG : G.Sound) (hM : G.Metadata M) (h : fs.Tended G M live) (hino : ino ∈ live)
    (hl : fs.Lists G M ino (pre ++ p :: r :: post)) (stack : UInt16) : ∃ fs',
      fs.dropRecord ino stack (DirRecord.size pre) (DirRecord.size (pre ++ [p])) r.entry.recLen =
        .ok fs' ∧ fs'.Spans G M ino (DirRecord.data (pre ++ p.absorb r :: post)) ∧
      fs.Rewritten fs' G M live ino := by
  have hp : 8 ≤ p.recLen := by unfold DirRecord.recLen; omega
  have hpos : ¬DirRecord.size (pre ++ [p]) = 0 := by
    simp
    omega
  have hentry : { p.entry with recLen := p.entry.recLen + r.entry.recLen } = (p.absorb r).entry := by
    rw [DirRecord.entry, DirRecord.entry, DirRecord.entry, DirRecord.recLen_absorb]
    simp [DirRecord.absorb]
  have hspans := hl.spans
  have hdata : DirRecord.data (pre ++ p :: r :: post) = DirRecord.data pre ++ p.entry.toList ++
      (p.name ++ p.rest ++ r.bytes ++ DirRecord.data post) := by
    have hbytes : p.bytes = p.entry.toList ++ (p.name ++ p.rest) := by
      rw [DirRecord.bytes, List.append_assoc]
    rw [DirRecord.data_append, DirRecord.data_cons, DirRecord.data_cons, hbytes]
    simp only [List.append_assoc]
  rw [hdata] at hspans
  have hlen := (p.absorb r).entry.length_toList
  obtain ⟨fs', heq, hb, hkept, hkeeps⟩ := hspans.iWriteaddr hG hM h hino (DirRecord.size pre)
    (List.ne_nil_of_length_pos (show 0 < (p.absorb r).entry.toList.length by omega))
    (by simp only [List.length_append, DirRecord.length_data, DirectoryEntry.length_toList]
        omega)
  rw [overwrite_middle _ _ _ _ (p.entry.length_toList.trans hlen.symm) (DirRecord.length_data pre).symm]
    at hb
  refine ⟨fs', ?_, ?_, hkept, hkeeps⟩
  · unfold FS.dropRecord
    rw [if_neg hpos, hl.entryAt hG]
    dsimp only
    rw [hentry]
    exact heq
  · have hdata' : DirRecord.data (pre ++ p.absorb r :: post) = DirRecord.data pre ++
        (p.absorb r).entry.toList ++ (p.name ++ p.rest ++ r.bytes ++ DirRecord.data post) := by
      rw [DirRecord.data_append, DirRecord.data_cons, DirRecord.bytes_absorb]
      simp only [List.append_assoc]
    rw [hdata']
    exact hb

end FS.Lists

/-! ### `unlink` -/

/-- An inode that is given back is not marked used any more. -/
theorem FS.freeInode_unused (hG : G.Sound) (hF : fs.Fit G M) (hino : G.IsInode ino)
    (hused : G.inodeUsed fs.part ino = true) {isDirectory : Bool}
    (heq : fs.freeInode ino isDirectory = .ok fs') : G.inodeUsed fs'.part ino = false := by
  have hgeo := hF.geometry
  have hper : fs.sb.inodesPerGroup.toNat = G.inodesPerGroup := congrArg Geometry.inodesPerGroup hgeo
  obtain ⟨fs₁, heq₁, hd⟩ := fs.freeInode_spec (hgeo ▸ hG) isDirectory hino.pos
    (lt_of_le_of_lt hino.le hG.inodes_lt) (by rw [hper]; exact hgeo ▸ hino.group_lt hG)
    (hgeo ▸ hused)
  obtain rfl := Except.ok.inj (heq.symm.trans heq₁)
  have hdrop := hd.dropped
  rw [hper, hgeo] at hdrop
  have hbit := hdrop.bits _ hdrop.area trivial _ hdrop.index
  rw [decide_eq_true ⟨rfl, rfl⟩, Bool.not_true, Bool.and_false] at hbit
  exact hbit

/-- The last link leaves an inode that is free and all zero. -/
theorem FS.Tended.unlink_last (hG : G.Sound) (hM : G.Metadata M) (h : fs.Tended G M live)
    (hino : ino ∈ live) (hone : (fs.getInodeData ino).linksCount = 1)
    (heq : fs.unlink ino = .ok fs') :
    G.inodeUsed fs'.part ino = false ∧ fs'.getInodeData ino = .zero := by
  have hi := h.wellFormed.inode ino hino
  unfold FS.unlink at heq
  simp only [if_pos hone] at heq
  obtain ⟨fs₁, heq₁, heq⟩ := bind_eq_ok.mp heq
  obtain ⟨fs₁', heq₁', hkept, hused⟩ := h.iResize_zero hG hM hino
  obtain rfl := Except.ok.inj (heq₁.symm.trans heq₁')
  obtain ⟨fs₂, heq₂, heq⟩ := bind_eq_ok.mp heq
  obtain rfl := pure_eq_ok.mp heq
  have hF := hkept.tended.wellFormed.fit
  obtain ⟨fs₂', heq₂', ha⟩ := freeInode_aside hG hM hF hi hused (isDir (fs₁.getInodeData ino).mode)
  obtain rfl := Except.ok.inj (heq₂.symm.trans heq₂')
  have hs := stored_writeInodeData ha.fit hG hM hi .zero
  refine ⟨?_, hs.data⟩
  rw [SameBitmaps.inodeUsed hs.bitmaps hG hi]
  exact freeInode_unused hG hF hi hused heq₂

/-- The inodes that are live after one link of `inode` is taken away. -/
def FS.remaining (fs : FS) (live : List Nat) (inode : Nat) : List Nat :=
  if (fs.getInodeData inode).linksCount = 1 then live.erase inode else live

/-- A link less changes no contents of the inodes that remain. -/
theorem FS.Tended.unlink_contents (hG : G.Sound) (hM : G.Metadata M) (h : fs.Tended G M live)
    {inode : Nat} (hinode : inode ∈ live) : ∃ fs', fs.unlink inode = .ok fs' ∧
      fs'.Tended G M (fs.remaining live inode) ∧
      (∀ i ∈ fs.remaining live inode, fs.SameContents fs' G i) ∧
      (∀ i ∈ fs.remaining live inode, (fs'.getInodeData i).linksCount =
        if i = inode then (fs.getInodeData i).linksCount - 1 else (fs.getInodeData i).linksCount) := by
  obtain ⟨fs', heq, hcase⟩ := h.unlink hG hM hinode
  refine ⟨fs', heq, ?_⟩
  unfold FS.remaining
  by_cases hone : (fs.getInodeData inode).linksCount = 1
  · rw [if_pos hone] at hcase ⊢
    have hne : ∀ i ∈ live.erase inode, i ≠ inode := fun i hi heq =>
      h.wellFormed.nodup.not_mem_erase (heq ▸ hi)
    refine ⟨hcase.tended, fun i hi => (hcase.others i hi (hne i hi)).contents, fun i hi => ?_⟩
    rw [if_neg (hne i hi), (hcase.others i hi (hne i hi)).data]
  · rw [if_neg hone] at hcase ⊢
    obtain ⟨hkept, hdata⟩ := hcase
    refine ⟨hkept.tended, fun i hi => ?_, fun i hi => ?_⟩
    · by_cases hne : i = inode
      · subst hne
        unfold FS.unlink at heq
        simp only [if_neg hone] at heq
        obtain rfl := pure_eq_ok.mp heq
        exact sameContents_writeInodeData hG hM (h.wellFormed.intact hi) rfl rfl rfl
      · exact (hkept.others i hi hne).contents
    · by_cases hne : i = inode
      · subst hne
        rw [if_pos rfl, hdata]
      · rw [if_neg hne, (hkept.others i hi hne).data]

theorem FS.mem_remaining {i inode : Nat} (hi : i ∈ live) (hne : i ≠ inode) :
    i ∈ fs.remaining live inode := by
  unfold FS.remaining
  split
  · exact (List.mem_erase_of_ne hne).mpr hi
  · exact hi

namespace FS.Lists

/-- Where the loop of `removeEntry` finds a record that is not the first one, when all records are in
use. -/
theorem findRecord_inner (hG : G.Sound) (h : fs.Lists G M ino (pre ++ p :: r :: post))
    (hused : ∀ x ∈ pre ++ p :: r :: post, x.inode ≠ 0)
    (hfirst : ∀ x ∈ pre ++ [p], cString x.name ≠ cString r.name) {fuel : Nat}
    (hfuel : (pre ++ p :: r :: post).length < fuel) :
    fs.findRecord ino (cString r.name) fuel fuel 0 0 =
      .ok (DirRecord.size pre, DirRecord.size (pre ++ [p]), r.entry) := by
  obtain ⟨fuel, rfl⟩ : ∃ k, fuel = k + 1 := ⟨fuel - 1, by omega⟩
  have hassoc : pre ++ p :: r :: post = [] ++ ((pre ++ [p]) ++ r :: post) := by simp
  have hlen : (pre ++ [p]).length < fuel + 1 := by
    simp only [List.length_append, List.length_cons, List.length_nil] at hfuel ⊢
    omega
  rw [hassoc] at h
  have hfind := h.findRecord hG (n := fuel) (k := 0) hlen
    (fun x hx => ⟨hused x (by simp at hx ⊢; tauto), hfirst x hx⟩) (hused r (by simp)) rfl
  rw [DirRecord.size_nil] at hfind
  rw [hfind, if_neg (by simp), List.dropLast_concat]
  simp

/-- `removeEntry` of an entry that is no directory or is named `..`: the directory keeps its other
bytes. -/
theorem unlinkRecord (hG : G.Sound) (hM : G.Metadata M) (h : fs.Tended G M live)
    (hl : fs.Lists G M ino (pre ++ p :: r :: post)) (hinode : r.inode.toNat ∈ live)
    (hino : ino ∈ fs.remaining live r.inode.toNat) (hused : ∀ x ∈ pre ++ p :: r :: post, x.inode ≠ 0)
    (hfirst : ∀ x ∈ pre ++ [p], cString x.name ≠ cString r.name) {fuel : Nat}
    (hfuel : (pre ++ p :: r :: post).length < fuel) (stack : UInt16) : ∃ fs',
      fs.unlinkRecord ino fuel stack (cString r.name) = .ok fs' ∧
        fs'.Spans G M ino (DirRecord.data (pre ++ p.absorb r :: post)) ∧
        fs.Amended fs' G M (fs.remaining live r.inode.toNat) ino fun i =>
          if i = r.inode.toNat then (fs.getInodeData i).linksCount - 1
          else (fs.getInodeData i).linksCount := by
  obtain ⟨fs₁, heq₁, htended, hcontents, hlinks⟩ := h.unlink_contents hG hM hinode
  have hl₁ := hl.same (htended.wellFormed.intact hino) (hcontents ino hino)
  obtain ⟨fs₂, heq₂, hspans, hrewritten⟩ := hl₁.dropRecord hG hM htended hino stack
  refine ⟨fs₂, ?_, hspans, hrewritten.kept.tended, ?_, fun i hi hne => ?_, fun i hi => ?_⟩
  · unfold FS.unlinkRecord
    rw [hl.findRecord_inner hG hused hfirst hfuel, ok_bind]
    dsimp only
    have hentry : r.entry.inode = r.inode := rfl
    rw [hentry, heq₁, ok_bind, heq₂]
  · rw [hrewritten.keeps.mode, (hcontents ino hino).mode]
  · exact (hcontents i hi).trans (hrewritten.kept.others i hi hne).contents
  · rw [← hlinks i hi]
    by_cases hne : i = ino
    · subst hne
      exact hrewritten.keeps.linksCount
    · rw [(hrewritten.kept.others i hi hne).data]

end FS.Lists

/-- The bytes of a directory are one list. -/
theorem FS.Spans.unique {b b' : List UInt8} (h : fs.Spans G M ino b) (h' : fs.Spans G M ino b') :
    b = b' := by
  have hlen : b.length = b'.length := h.length.trans h'.length.symm
  refine List.ext_getElem hlen fun i hi hi' => ?_
  rw [← h.bytes i hi, ← h'.bytes i hi']

/-- A directory is in order after a record went exactly if the record did not start a block. -/
theorem FS.Lists.merged_iff (hG : G.Sound) (h : fs.Lists G M ino (pre ++ p :: r :: post))
    (hB : G.blockSize < 2 ^ 16) (hspans : fs'.Spans G M ino (DirRecord.data (pre ++ p.absorb r :: post))) :
    (∃ l', fs'.Lists G M ino l') ↔ DirRecord.size (pre ++ [p]) % G.blockSize ≠ 0 := by
  have hB' : G.blockSize ≤ 2 ^ 15 := by
    obtain ⟨k, hk, hsize, -⟩ := hG.blockSize
    have hk' : k ≤ 5 := by
      by_contra hlt
      obtain rfl : k = 6 := by omega
      omega
    have := Nat.pow_le_pow_right (show 0 < 2 by decide) hk'
    omega
  refine ⟨fun ⟨l', hl'⟩ houter => ?_, fun hinner => ⟨_, hspans, h.tiled.merge hB hinner⟩⟩
  exact DirRecord.not_tiled h.tiled hB' houter (hl'.spans.unique hspans) hl'.tiled

namespace DirRecord

/-- The names of records that are all in use. -/
theorem names_of_used {l : List DirRecord} (h : ∀ x ∈ l, x.inode ≠ 0) :
    names l = l.map fun x => (cString x.name, x.inode) := by
  induction l with
  | nil => rfl
  | cons x l ih =>
    obtain ⟨hx, hl⟩ := List.forall_mem_cons.mp h
    rw [names_cons, if_neg hx, ih hl]
    rfl

/-- What is found after a record gave its bytes to the one before. -/
theorem lookup_absorb (hused : ∀ x ∈ pre ++ p :: r :: post, x.inode ≠ 0)
    (hfirst : ∀ x ∈ pre ++ [p], cString x.name ≠ cString r.name)
    (hlast : ∀ x ∈ post, cString x.name ≠ cString r.name) (n : List UInt8) :
    lookup (pre ++ p.absorb r :: post) n =
      if n = cString r.name then 0 else lookup (pre ++ p :: r :: post) n := by
  have hused' : ∀ x ∈ pre ++ p.absorb r :: post, x.inode ≠ 0 := by
    intro x hx
    rcases List.mem_append.mp hx with hx | hx
    · exact hused x (List.mem_append_left _ hx)
    rcases List.mem_cons.mp hx with rfl | hx
    · exact hused p (by simp)
    · exact hused x (by simp [hx])
  have hold : names (pre ++ p :: r :: post) =
      ((pre ++ [p]).map fun x => (cString x.name, x.inode)) ++ (cString r.name, r.inode) ::
        post.map fun x => (cString x.name, x.inode) := by
    rw [names_of_used hused]
    simp
  have hnew : names (pre ++ p.absorb r :: post) =
      ((pre ++ [p]).map fun x => (cString x.name, x.inode)) ++
        post.map fun x => (cString x.name, x.inode) := by
    rw [names_of_used hused']
    simp [absorb]
  refine lookup_erase hold hnew (fun hmem => ?_) n
  rw [List.map_append, List.map_map, List.map_map, List.mem_append] at hmem
  rcases hmem with hmem | hmem
  · obtain ⟨x, hx, hname⟩ := List.mem_map.mp hmem
    exact hfirst x hx hname
  · obtain ⟨x, hx, hname⟩ := List.mem_map.mp hmem
    exact hlast x hx hname

end DirRecord

/-- A name that is removed finds nothing any more, and every other name finds what it found before,
exactly if the record did not start a block. -/
theorem FS.Lists.removeEntry_iff (hG : G.Sound) (hM : G.Metadata M) (hB : G.blockSize < 2 ^ 16)
    (h : fs.Tended G M live) (hino : ino ∈ live) (hl : fs.Lists G M ino (pre ++ p :: r :: post))
    (hinode : r.inode.toNat ∈ live) (hne : r.inode.toNat ≠ ino)
    (hused : ∀ x ∈ pre ++ p :: r :: post, x.inode ≠ 0)
    (hfirst : ∀ x ∈ pre ++ [p], cString x.name ≠ cString r.name)
    (hlast : ∀ x ∈ post, cString x.name ≠ cString r.name)
    (hfile : r.type ≠ ftDir ∨ cString r.name = dotDot) {fuel : Nat}
    (hfuel : (pre ++ p :: r :: post).length < fuel) (stack : UInt16) : ∃ fs',
      fs.removeEntry ino fuel stack (cString r.name) = .ok fs' ∧
      ((∃ l', fs'.Lists G M ino l') ↔ DirRecord.size (pre ++ [p]) % G.blockSize ≠ 0) ∧
      (DirRecord.size (pre ++ [p]) % G.blockSize ≠ 0 → ∀ n, ∃ v reads reads',
        fs.findInode ino n fuel fuel = .ok (v, reads) ∧
        fs'.findInode ino n fuel fuel = .ok (if n = cString r.name then 0 else v, reads')) ∧
      fs.Amended fs' G M (fs.remaining live r.inode.toNat) ino fun i =>
        if i = r.inode.toNat then (fs.getInodeData i).linksCount - 1
        else (fs.getInodeData i).linksCount := by
  obtain ⟨fs', heq, hspans, hamended⟩ := hl.unlinkRecord hG hM h hinode
    (FS.mem_remaining hino (Ne.symm hne)) hused hfirst hfuel stack
  refine ⟨fs', ?_, hl.merged_iff hG hB hspans, fun hinner n => ?_, hamended⟩
  · have htype : ¬(r.entry.type = ftDir ∧ cString r.name ≠ dotDot) := by
      rintro ⟨htype, hdots⟩
      exact hfile.elim (fun hf => hf htype) hdots
    unfold FS.unlinkRecord at heq
    unfold FS.removeEntry
    rw [hl.findRecord_inner hG hused hfirst hfuel, ok_bind] at heq ⊢
    dsimp only at heq ⊢
    simp only [if_neg htype]
    exact heq
  · have hl' : fs'.Lists G M ino (pre ++ p.absorb r :: post) := ⟨hspans, hl.tiled.merge hB hinner⟩
    have hlen : (pre ++ p.absorb r :: post).length < fuel := by
      simp only [List.length_append, List.length_cons] at hfuel ⊢
      omega
    obtain ⟨reads, hfind⟩ := hl.findInode hG hfuel hfuel n
    obtain ⟨reads', hfind'⟩ := hl'.findInode hG hlen hlen n
    refine ⟨_, reads, reads', hfind, ?_⟩
    rw [hfind', DirRecord.lookup_absorb hused hfirst hlast]

end SupOS.Ext2
