import SupOS.Ext2.Directory
import SupOS.Ext2.Handles

/-! `addEntry` on a directory whose records are in order: a record gives the end of its bytes to the new
one, or the directory gets a block for it. -/

namespace SupOS.Ext2

open Lib HDD SupOS.Ext2.Geometry

variable {G : Geometry} {M : Nat → Prop} {fs fs' : FS} {ino addr : Nat} {b bytes : List UInt8}
  {l pre post : List DirRecord} {r : DirRecord} {live : List Nat}

theorem overwrite_middle (l₁ l₂ l₃ bytes : List UInt8) (h : l₂.length = bytes.length)
    (haddr : addr = l₁.length) :
    overwrite (l₁ ++ l₂ ++ l₃) addr bytes = l₁ ++ bytes ++ l₃ := by
  subst haddr
  rw [overwrite, List.append_assoc l₁ l₂ l₃, List.take_left, ← h, ← List.drop_drop, List.drop_left,
    List.drop_left]

namespace FS.Spans

/-- Bytes are written over some of those that are there. -/
theorem iWriteaddr (hG : G.Sound) (hM : G.Metadata M) (h : fs.Tended G M live) (hino : ino ∈ live)
    (hb : fs.Spans G M ino b) (addr : Nat) (hbytes : bytes ≠ [])
    (hend : addr + bytes.length ≤ b.length) :
    ∃ fs', fs.iWriteaddr ino addr bytes = .ok fs' ∧ fs'.Spans G M ino (overwrite b addr bytes) ∧
      fs.Kept fs' G M live ino ∧ (fs.getInodeData ino).Keeps (fs'.getInodeData ino) := by
  have hlt := hb.length_lt hG
  have hmax : G.blocksFor (max (fs.getSize ino) (addr + bytes.length)) = fs.count G ino := by
    rw [blocksFor_max hG, ← FS.count]
    refine Nat.max_eq_left ((blocksFor_le_iff hG).mpr ?_)
    exact hend.trans hb.length.le
  have hend32 : addr + bytes.length < 2 ^ 32 := by omega
  obtain ⟨fs', heq, how⟩ := (iWriteaddr_spec hG hM hb.intact hbytes hend32).returns fun e he => by
    rw [hmax] at he
    exact absurd he.2 (by omega)
  have hcount : fs'.count G ino = fs.count G ino := by rw [FS.count, how.size, hmax]
  have hlen : (overwrite b addr bytes).length = b.length := by
    rw [length_overwrite (by omega), Nat.max_eq_left hend]
  refine ⟨fs', heq, ⟨how.change.intact hb.intact.inode, hcount.le.trans hb.direct, ?_, fun i hi => ?_⟩,
    h.change hG hino how.change, how.keeps⟩
  · rw [hlen, hcount, hb.length]
  · have hib : i < b.length := hlen ▸ hi
    rw [getElem_overwrite (by omega) hi]
    split
    · next hin => rw [how.written i hin.1 hin.2]
    · next hout =>
      rw [how.kept i (hb.length ▸ hib) (by omega), List.getD_eq_getElem?_getD,
        List.getElem?_eq_getElem hib]
      exact hb.bytes i hib

/-- Bytes are written behind those that are there, in a new block. -/
theorem iWriteaddr_new (hG : G.Sound) (hM : G.Metadata M) (h : fs.Tended G M live) (hino : ino ∈ live)
    (hb : fs.Spans G M ino b) (hbytes : bytes ≠ []) (hfew : bytes.length ≤ G.blockSize)
    (hdirect : fs.count G ino < 12) :
    Ensures (fs.iWriteaddr ino b.length bytes) (· = .bsod "No space on disk :-(") fun fs' =>
      (∃ rest, fs'.Spans G M ino (b ++ bytes ++ rest) ∧
        bytes.length + rest.length = G.blockSize) ∧
      fs.Kept fs' G M live ino ∧ (fs.getInodeData ino).Keeps (fs'.getInodeData ino) := by
  have hlt := hb.length_lt hG
  have hB := hG.blockSize_pos
  have hle := hG.blockSize_le
  have hsome : 0 < bytes.length := List.length_pos_iff.mpr hbytes
  have hnew : G.blocksFor (b.length + bytes.length) = fs.count G ino + 1 := by
    apply Nat.le_antisymm
    · rw [blocksFor_le_iff hG, Nat.succ_mul, ← hb.length]
      omega
    · by_contra hnot
      have hfits := (blocksFor_le_iff hG).mp (Nat.le_of_lt_succ (Nat.lt_of_not_le hnot))
      rw [← hb.length] at hfits
      omega
  refine (iWriteaddr_spec hG hM hb.intact hbytes (by omega)).mono (fun e he => he.1) fun fs' how => ?_
  have hcount : fs'.count G ino = fs.count G ino + 1 := by
    rw [FS.count, how.size, blocksFor_max hG, hnew, ← FS.count]
    omega
  refine ⟨?_, h.change hG hino how.change, how.keeps⟩
  let rest := (List.range (G.blockSize - bytes.length)).map fun i =>
    fs'.byte G ino (b.length + bytes.length + i)
  have hrest : rest.length = G.blockSize - bytes.length := by simp [rest]
  refine ⟨rest, ⟨how.change.intact hb.intact.inode, hcount ▸ hdirect, ?_, fun i hi => ?_⟩, by omega⟩
  · rw [List.length_append, List.length_append, hrest, hcount, Nat.succ_mul, ← hb.length]
    omega
  · by_cases hib : i < b.length
    · rw [List.getElem_append_left (by rw [List.length_append]; omega), List.getElem_append_left hib,
        how.kept i (hb.length ▸ hib) (.inl hib)]
      exact hb.bytes i hib
    · by_cases hin : i < b.length + bytes.length
      · rw [List.getElem_append_left (by rw [List.length_append]; omega),
          List.getElem_append_right (by omega), how.written i (by omega) hin,
          List.getD_eq_getElem?_getD, List.getElem?_eq_getElem (by omega)]
        rfl
      · rw [List.getElem_append_right (by rw [List.length_append]; omega)]
        simp only [rest, List.getElem_map, List.getElem_range, List.length_append]
        congr 1
        omega

end FS.Spans

/-! ### The place -/

/-- A distance that stays within the block. -/
theorem div_within {B p x : Nat} (h : p % B + x < B) : (p + x) / B = p / B := by
  have hp := Nat.div_add_mod' p B
  apply Nat.div_eq_of_lt_le
  · omega
  · rw [Nat.add_mul, Nat.one_mul]
    omega

/-- The end of the block behind a position in it that is not its start. -/
theorem alignup_within {B p c : Nat} (hc : 0 < c) (h : p % B + c ≤ B) :
    alignup (p + c) B = p - p % B + B := by
  have hp := Nat.div_add_mod' p B
  have hdiv : (p + c + B - 1) / B = p / B + 1 := by
    apply Nat.div_eq_of_lt_le
    · rw [Nat.add_mul, Nat.one_mul]
      omega
    · rw [Nat.add_mul, Nat.add_mul, Nat.one_mul]
      omega
  rw [alignup, hdiv, Nat.add_mul, Nat.one_mul]
  omega

/-- The two kinds of place for a record: the end of the bytes of a record, and a new block. -/
inductive Place (l : List DirRecord) (neededSize : Nat) : Nat → Nat → Prop
  | slack {pre post : List DirRecord} {r : DirRecord} (hl : l = pre ++ r :: post)
    (hroom : r.curSize + neededSize < r.recLen) :
    Place l neededSize (DirRecord.size pre) (DirRecord.size pre + r.curSize)
  | block {pre : List DirRecord} {r : DirRecord} (hl : l = pre ++ [r]) :
    Place l neededSize (DirRecord.size pre) (DirRecord.size l)

namespace FS.Lists

variable {neededSize : Nat}

/-- A record lies in one block. -/
theorem within (h : fs.Lists G M ino (pre ++ r :: post)) :
    DirRecord.size pre % G.blockSize + r.recLen ≤ G.blockSize := by
  have hwithin := (DirRecord.within_append.mp h.tiled.within).2
  rw [Nat.zero_add] at hwithin
  exact hwithin.1

/-- The last record ends with its block. -/
theorem ends (h : fs.Lists G M ino (pre ++ [r])) :
    DirRecord.size pre % G.blockSize + r.recLen = G.blockSize := by
  have hle := h.within
  have hpos : 0 < r.recLen := by unfold DirRecord.recLen; omega
  obtain ⟨k, hk⟩ := h.tiled.whole
  rw [DirRecord.size_append, DirRecord.size_cons, DirRecord.size_nil, Nat.add_zero] at hk
  have hdvd : G.blockSize ∣ DirRecord.size pre % G.blockSize + r.recLen := by
    rw [Nat.dvd_iff_mod_eq_zero, Nat.mod_add_mod, hk, Nat.mul_mod_right]
  exact Nat.le_antisymm hle (Nat.le_of_dvd (by omega) hdvd)

/-- What the loop of `addEntry` decides at a record. -/
theorem placeAfter (hG : G.Sound) (h : fs.Lists G M ino (pre ++ r :: post)) (hsome : 0 < neededSize)
    (hfew : neededSize ≤ G.blockSize) :
    (∃ target, fs.placeAfter ino neededSize (DirRecord.size pre) = some target ∧
      (r.curSize + neededSize < r.recLen ∧ target = DirRecord.size pre + r.curSize ∨
        post = [] ∧ target = DirRecord.size (pre ++ [r]))) ∨
    fs.placeAfter ino neededSize (DirRecord.size pre) = none ∧ post ≠ [] := by
  have hlt := h.size_lt hG
  have hB := hG.blockSize_le
  have hfits := h.tiled.fits r (by simp)
  have hcur := hfits.curSize_le
  have hpos : 0 < r.curSize := by have := (DirRecord.le_curSize (r := r)).1; omega
  have hwithin := h.within
  have hblock : fs.blockSize = G.blockSize := congrArg Geometry.blockSize h.spans.intact.fit.geometry
  simp only [DirRecord.size_append, DirRecord.size_cons] at hlt
  have havailable : u32 (r.recLen + 2 ^ 32 - r.curSize) = r.recLen - r.curSize := by
    unfold u32
    omega
  have hafter : DirRecord.size (pre ++ [r]) = DirRecord.size pre + r.recLen := by simp
  have hend : DirRecord.size (pre ++ r :: post) ≤ DirRecord.size (pre ++ [r]) ↔ post = [] := by
    constructor
    · intro hle
      cases post with
      | nil => rfl
      | cons r' post =>
        have hrec : 0 < r'.recLen := by unfold DirRecord.recLen; omega
        simp only [DirRecord.size_append, DirRecord.size_cons, DirRecord.size_nil] at hle
        omega
    · rintro rfl
      exact le_rfl
  have hplace : fs.placeAfter ino neededSize (DirRecord.size pre) =
      if post = [] ∨ neededSize < r.recLen - r.curSize then
        if (DirRecord.size pre + r.curSize) / G.blockSize =
            (DirRecord.size pre + r.curSize + neededSize) / G.blockSize then
          some (DirRecord.size pre + r.curSize)
        else
          if post = [] ∨ u32 (u32 (alignup (DirRecord.size pre + r.curSize) G.blockSize) + neededSize) <
              DirRecord.size (pre ++ [r]) then
            some (u32 (alignup (DirRecord.size pre + r.curSize) G.blockSize))
          else none
      else none := by
    have hsize : alignup (8 + r.name.length) 4 = r.curSize := rfl
    unfold FS.placeAfter
    simp only [h.entryAt hG, h.nextRecord hG, h.scanEnd hG, hfits.toNat_nameLen, hfits.toNat_recLen,
      hblock, hsize, havailable, hend, u32_of_lt (show DirRecord.size pre + r.curSize < 2 ^ 32 by omega),
      u32_of_lt (show DirRecord.size pre + r.curSize + neededSize < 2 ^ 32 by omega)]
  rw [hplace]
  by_cases hroom : r.curSize + neededSize < r.recLen
  · -- Both ends of the new record lie in the block of the old one.
    have hsame : (DirRecord.size pre + r.curSize) / G.blockSize =
        (DirRecord.size pre + r.curSize + neededSize) / G.blockSize := by
      rw [div_within (by omega), Nat.add_assoc, div_within (by omega)]
    rw [if_pos (.inr (by omega)), if_pos hsame]
    exact .inl ⟨_, rfl, .inl ⟨hroom, rfl⟩⟩
  · by_cases hlast : post = []
    · subst hlast
      have hends := h.ends
      have hp := Nat.div_add_mod' (DirRecord.size pre) G.blockSize
      have hup : alignup (DirRecord.size pre + r.curSize) G.blockSize = DirRecord.size (pre ++ [r]) := by
        rw [alignup_within hpos (by omega), hafter]
        omega
      rw [if_pos (.inl rfl)]
      by_cases hsame : (DirRecord.size pre + r.curSize) / G.blockSize =
          (DirRecord.size pre + r.curSize + neededSize) / G.blockSize
      · -- The new record starts where the block ends.
        have hfull : r.curSize = r.recLen := by
          by_contra hne
          rw [div_within (by omega)] at hsame
          have hge : DirRecord.size pre / G.blockSize + 1 ≤
              (DirRecord.size pre + r.curSize + neededSize) / G.blockSize := by
            rw [Nat.le_div_iff_mul_le hG.blockSize_pos, Nat.add_mul, Nat.one_mul]
            omega
          omega
        rw [if_pos hsame]
        exact .inl ⟨_, rfl, .inr ⟨rfl, by rw [hafter, hfull]⟩⟩
      · rw [if_neg hsame, if_pos (.inl rfl), hup, u32_of_lt (by omega)]
        exact .inl ⟨_, rfl, .inr ⟨rfl, rfl⟩⟩
    · rw [if_neg (by rintro (h | h); exacts [hlast h, by omega])]
      exact .inr ⟨rfl, hlast⟩

/-- The loop of `addEntry` finds a place in every directory that has a record. -/
theorem findPlace (hG : G.Sound) (h : fs.Lists G M ino (pre ++ post)) (hpost : post ≠ [])
    (hsome : 0 < neededSize) (hfew : neededSize ≤ G.blockSize) {fuel : Nat}
    (hfuel : post.length ≤ fuel) : ∃ curPos targetPos reads,
      fs.findPlace ino neededSize fuel (DirRecord.size pre) = .ok (curPos, targetPos, reads) ∧
        Place (pre ++ post) neededSize curPos targetPos := by
  induction post generalizing pre fuel with
  | nil => exact absurd rfl hpost
  | cons r post ih =>
    obtain ⟨fuel, rfl⟩ : ∃ k, fuel = k + 1 := ⟨fuel - 1, by rw [List.length_cons] at hfuel; omega⟩
    rw [FS.findPlace, if_neg (h.not_end hG)]
    rcases h.placeAfter hG hsome hfew with ⟨target, hplace, hwhere⟩ | ⟨hplace, hmore⟩
    · refine ⟨DirRecord.size pre, target, [(DirRecord.size pre, 8)], by rw [hplace]; rfl, ?_⟩
      rcases hwhere with ⟨hroom, rfl⟩ | ⟨rfl, rfl⟩
      · exact .slack rfl hroom
      · exact .block rfl
    · rw [h.nextRecord hG]
      have hassoc : pre ++ r :: post = (pre ++ [r]) ++ post := by simp
      rw [hassoc] at h ⊢
      obtain ⟨curPos, targetPos, reads, hfind, hat⟩ :=
        ih h hmore (Nat.le_of_succ_le_succ hfuel)
      exact ⟨curPos, targetPos, (DirRecord.size pre, 8) :: reads, by rw [hplace, hfind]; rfl, hat⟩

end FS.Lists

/-! ### The new record -/

/-- What writes to a live inode leave: the other files, and all of the inode but its size and its
blocks. -/
structure FS.Rewritten (fs fs' : FS) (G : Geometry) (M : Nat → Prop) (live : List Nat) (ino : Nat) :
    Prop where
  kept : fs.Kept fs' G M live ino
  keeps : (fs.getInodeData ino).Keeps (fs'.getInodeData ino)

theorem FS.Rewritten.trans {fs'' : FS} (h : fs.Rewritten fs' G M live ino)
    (h' : fs'.Rewritten fs'' G M live ino) : fs.Rewritten fs'' G M live ino :=
  ⟨h.kept.trans h'.kept, h.keeps.trans h'.keeps⟩

/-- The last two writes: the name behind the new entry, and the entry of the record before it. -/
theorem FS.Spans.finish (hG : G.Sound) (hM : G.Metadata M) (h : fs.Tended G M live) (hino : ino ∈ live)
    {front header middle new room rest : List UInt8} (named header' : List UInt8)
    (hb : fs.Spans G M ino (front ++ header ++ middle ++ new ++ room ++ rest))
    (hroom : room.length = named.length) (hheader : header.length = header'.length)
    (hnamed : named ≠ []) (hheader' : header' ≠ []) (namePos curPos : Nat)
    (hnamePos : namePos = (front ++ header ++ middle ++ new).length) (hcurPos : curPos = front.length) :
    ∃ fs', (do let fs ← fs.iWriteaddr ino namePos named; fs.iWriteaddr ino curPos header') = .ok fs' ∧
      fs'.Spans G M ino (front ++ header' ++ middle ++ new ++ named ++ rest) ∧
      fs.Rewritten fs' G M live ino := by
  subst hnamePos hcurPos
  obtain ⟨fs₁, heq₁, hb₁, hkept₁, hkeeps₁⟩ := hb.iWriteaddr hG hM h hino
    (front ++ header ++ middle ++ new).length hnamed (by simp [hroom]; omega)
  rw [overwrite_middle _ _ _ _ hroom rfl] at hb₁
  have hassoc : front ++ header ++ middle ++ new ++ named ++ rest =
      front ++ header ++ (middle ++ new ++ named ++ rest) := by simp
  rw [hassoc] at hb₁
  obtain ⟨fs₂, heq₂, hb₂, hkept₂, hkeeps₂⟩ := hb₁.iWriteaddr hG hM hkept₁.tended hino front.length
    hheader' (by simp [hheader])
  rw [overwrite_middle _ _ _ _ hheader rfl] at hb₂
  refine ⟨fs₂, by rw [heq₁, ok_bind, heq₂], by simpa using hb₂, ?_⟩
  exact FS.Rewritten.trans ⟨hkept₁, hkeeps₁⟩ ⟨hkept₂, hkeeps₂⟩

theorem FS.Tended.link_kept (hG : G.Sound) (hM : G.Metadata M) (h : fs.Tended G M live) {inode : Nat}
    (hinode : inode ∈ live) : fs.Kept (fs.link inode) G M live inode ∧
      (fs.link inode).getInodeData inode =
        { fs.getInodeData inode with linksCount := (fs.getInodeData inode).linksCount + 1 } :=
  h.writeInodeData hG hM hinode rfl rfl rfl

/-- A link more changes no contents. -/
theorem FS.Tended.link (hG : G.Sound) (hM : G.Metadata M) (h : fs.Tended G M live) {inode : Nat}
    (hinode : inode ∈ live) : (fs.link inode).Tended G M live ∧
      (∀ i ∈ live, fs.SameContents (fs.link inode) G i) ∧
      ∀ i ∈ live, ((fs.link inode).getInodeData i).linksCount =
        if i = inode then (fs.getInodeData i).linksCount + 1 else (fs.getInodeData i).linksCount := by
  obtain ⟨hkept, hdata⟩ := h.link_kept hG hM hinode
  refine ⟨hkept.tended, fun i hi => ?_, fun i hi => ?_⟩
  · by_cases hne : i = inode
    · subst hne
      exact sameContents_writeInodeData hG hM (h.wellFormed.intact hi) rfl rfl rfl
    · exact (hkept.others i hi hne).contents
  · by_cases hne : i = inode
    · subst hne
      rw [if_pos rfl, hdata]
    · rw [if_neg hne, (hkept.others i hi hne).data]

/-- What an operation on a directory leaves: the contents of the other files. The numbers of links are
those given. -/
structure FS.Amended (fs fs' : FS) (G : Geometry) (M : Nat → Prop) (live : List Nat) (dir : Nat)
    (links : Nat → UInt16) : Prop where
  tended : fs'.Tended G M live
  mode : (fs'.getInodeData dir).mode = (fs.getInodeData dir).mode
  others : ∀ i ∈ live, i ≠ dir → fs.SameContents fs' G i
  links : ∀ i ∈ live, (fs'.getInodeData i).linksCount = links i

/-- Records after an entry is added. The one before it may have lost the end of its bytes; those behind
it stay where they are. -/
def Inserted (l : List DirRecord) (name : List UInt8) (inode : UInt32) (type : UInt8)
    (l' : List DirRecord) : Prop :=
  ∃ pre r r' new post, l = pre ++ r :: post ∧ l' = pre ++ r' :: new :: post ∧
    r'.inode = r.inode ∧ r'.type = r.type ∧ r'.name = r.name ∧ new.inode = inode ∧
    new.type = type ∧ new.name = name ∧ (post = [] ∨ r'.recLen + new.recLen = r.recLen)

theorem Inserted.names {name : List UInt8} {inode : UInt32} {type : UInt8} {l' : List DirRecord}
    (h : Inserted l name inode type l') (hinode : inode ≠ 0) (hname : 0 ∉ name) : ∃ ns ns',
      DirRecord.names l = ns ++ ns' ∧ DirRecord.names l' = ns ++ (name, inode) :: ns' := by
  obtain ⟨pre, r, r', new, post, rfl, rfl, hr, -, hrname, hnew, -, hnewname, -⟩ := h
  refine ⟨DirRecord.names (pre ++ [r]), DirRecord.names post, ?_, ?_⟩
  · rw [← DirRecord.names_append, List.append_assoc, List.singleton_append]
  · rw [DirRecord.names_append, DirRecord.names_append, DirRecord.names_cons r',
      DirRecord.names_cons new, DirRecord.names_cons r, hr, hrname, hnew, if_neg hinode, hnewname,
      DirRecord.cString_of_not_mem hname]
    simp [DirRecord.names, DirRecord.dirents]

namespace DirRecord

variable {r' new : DirRecord} {B : Nat}

/-- A record that is cut in two. -/
theorem Tiled.cut (h : Tiled B (pre ++ r :: post)) (hr' : r'.Fits) (hnew : new.Fits)
    (hsum : r'.recLen + new.recLen = r.recLen) : Tiled B (pre ++ r' :: new :: post) := by
  obtain ⟨hpre, hwithin⟩ := within_append.mp h.within
  obtain ⟨hr, hpost⟩ := hwithin
  rw [Nat.zero_add] at hr hpost
  have hpos : 0 < new.recLen := by unfold recLen; omega
  have hmod : (size pre + r'.recLen) % B = size pre % B + r'.recLen := by
    rw [Nat.add_mod, Nat.mod_eq_of_lt (show r'.recLen < B by omega), Nat.mod_eq_of_lt (by omega)]
  refine ⟨fun x hx => ?_, ?_, within_append.mpr ⟨hpre, ?_, ?_, ?_⟩⟩
  · simp only [List.mem_append, List.mem_cons] at hx
    rcases hx with hx | rfl | rfl | hx
    · exact h.fits x (by simp [hx])
    · exact hr'
    · exact hnew
    · exact h.fits x (by simp [hx])
  · have hwhole := h.whole
    simp only [size_append, size_cons] at hwhole ⊢
    rwa [← Nat.add_assoc r'.recLen, hsum]
  · rw [Nat.zero_add]
    omega
  · rw [Nat.zero_add, hmod]
    omega
  · rw [Nat.zero_add, Nat.add_assoc, hsum]
    exact hpost

/-- A record that fills a block behind the others. -/
theorem Tiled.extend (h : Tiled B l) (hnew : new.Fits) (hB : new.recLen = B) : Tiled B (l ++ [new]) := by
  have hzero : size l % B = 0 := Nat.mod_eq_zero_of_dvd h.whole
  refine ⟨fun x hx => ?_, ?_, within_append.mpr ⟨h.within, ?_, trivial⟩⟩
  · rcases List.mem_append.mp hx with hx | hx
    · exact h.fits x hx
    · rw [List.mem_singleton.mp hx]
      exact hnew
  · rw [size_append, size_cons, size_nil, Nat.add_zero, hB]
    exact Nat.dvd_add h.whole (dvd_refl B)
  · rw [Nat.zero_add, hzero, hB]
    omega

end DirRecord

namespace FS.Lists

variable {name : List UInt8} {inode : Nat}

/-- The name with the byte that may be written behind it. -/
theorem named_cases (name : List UInt8) (P : Prop) [Decidable P] :
    ∃ z : List UInt8, z.length ≤ 1 ∧ (if P then name ++ [0] else name) = name ++ z := by
  by_cases hP : P
  · exact ⟨[0], le_rfl, if_pos hP⟩
  · exact ⟨[], Nat.zero_le 1, by rw [if_neg hP, List.append_nil]⟩

/-- The length that a record gets behind the bytes that the record before it needs. -/
theorem recLen_slack (hG : G.Sound) (hl : fs.Lists G M ino (pre ++ r :: post)) {neededSize : Nat}
    (hsome : 0 < neededSize) (hroom : r.curSize + neededSize ≤ r.recLen) :
    (if DirRecord.size (pre ++ r :: post) ≤ DirRecord.size (pre ++ [r]) then
      u32 (u32 (alignup (u32 (DirRecord.size pre + r.curSize + neededSize)) G.blockSize) +
        2 ^ 32 - (DirRecord.size pre + r.curSize))
      else u32 (DirRecord.size (pre ++ [r]) + 2 ^ 32 - (DirRecord.size pre + r.curSize))) =
      r.recLen - r.curSize := by
  have hlt := hl.size_lt hG
  have hwithin := hl.within
  have hfits := hl.tiled.fits r (by simp)
  have hle := hfits.recLen
  simp only [DirRecord.size_append, DirRecord.size_cons] at hlt
  split
  · next hend =>
    -- The old record is the last one, and ends with its block.
    have hlast : post = [] := by
      cases post with
      | nil => rfl
      | cons x post =>
        have hx : 8 ≤ x.recLen := by unfold DirRecord.recLen; omega
        simp only [DirRecord.size_append, DirRecord.size_cons, DirRecord.size_nil] at hend
        omega
    subst hlast
    have hends := hl.ends
    have hup : alignup (DirRecord.size pre + (r.curSize + neededSize)) G.blockSize =
        DirRecord.size pre + r.recLen := by
      have hp := Nat.mod_le (DirRecord.size pre) G.blockSize
      rw [alignup_within (by omega) (by omega)]
      omega
    rw [u32_of_lt (show DirRecord.size pre + r.curSize + neededSize < 2 ^ 32 by omega),
      Nat.add_assoc (DirRecord.size pre), hup]
    unfold u32
    omega
  · simp only [DirRecord.size_append, DirRecord.size_cons, DirRecord.size_nil, u32]
    omega

/-- The entry goes into the bytes of a record that needs fewer. -/
theorem putRecord_slack (hG : G.Sound) (hM : G.Metadata M) (h : fs.Tended G M live) (hino : ino ∈ live)
    (hl : fs.Lists G M ino (pre ++ r :: post)) (hname : name ≠ []) (hshort : name.length < 2 ^ 8)
    (hroom : r.curSize + (8 + name.length) < r.recLen) :
    ∃ fs' l', fs.putRecord ino name inode (DirRecord.size pre) (DirRecord.size pre + r.curSize) =
        .ok fs' ∧ Inserted (pre ++ r :: post) name (UInt32.ofNat inode)
          (inodeToDirType (fs.getInodeData inode).mode) l' ∧
      fs'.Lists G M ino l' ∧ fs.Rewritten fs' G M live ino := by
  have hlt := hl.size_lt hG
  have hfits := hl.tiled.fits r (by simp)
  have hle := DirRecord.le_curSize (r := r)
  simp only [DirRecord.size_append, DirRecord.size_cons] at hlt
  -- The bytes of the record: those that it needs, and those of the new one.
  have hrec : r.recLen = 8 + r.name.length + r.rest.length := rfl
  obtain ⟨pad, tail, hpad, hrest⟩ : ∃ pad tail : List UInt8,
      pad.length = r.curSize - (8 + r.name.length) ∧ r.rest = pad ++ tail :=
    ⟨r.rest.take (r.curSize - (8 + r.name.length)), r.rest.drop (r.curSize - (8 + r.name.length)),
      by rw [List.length_take]; omega, (List.take_append_drop _ _).symm⟩
  have htail : tail.length = r.recLen - r.curSize := by
    rw [hrest, List.length_append] at hrec
    omega
  have hblock : fs.blockSize = G.blockSize := congrArg Geometry.blockSize hl.spans.intact.fit.geometry
  have hneeded : u32 (8 + name.length) = 8 + name.length := u32_of_lt (by omega)
  have hwithin := hl.within
  have hrecLen := hl.recLen_slack hG (show 0 < 8 + name.length by omega) hroom.le
  obtain ⟨z, hz, hnamed⟩ := named_cases name
    (u32 (DirRecord.size pre + r.curSize + (8 + name.length)) <
      (UInt16.ofNat (r.recLen - r.curSize)).toNat)
  let r' : DirRecord := ⟨r.inode, r.type, r.name, pad⟩
  let new : DirRecord := ⟨UInt32.ofNat inode, inodeToDirType (fs.getInodeData inode).mode, name,
    z ++ tail.drop (8 + (name ++ z).length)⟩
  have hr'Len : r'.recLen = r.curSize := by
    change 8 + r.name.length + pad.length = r.curSize
    omega
  have hnewLen : new.recLen = r.recLen - r.curSize := by
    change 8 + name.length + (z ++ tail.drop (8 + (name ++ z).length)).length = _
    rw [List.length_append, List.length_drop, List.length_append, htail]
    omega
  have hput : fs.putRecord ino name inode (DirRecord.size pre) (DirRecord.size pre + r.curSize) =
      (do let fs ← fs.iWriteaddr ino (DirRecord.size pre + r.curSize) new.entry.toList
          let fs ← fs.iWriteaddr ino (DirRecord.size pre + r.curSize + 8) (name ++ z)
          fs.iWriteaddr ino (DirRecord.size pre) r'.entry.toList) := by
    have hnew : new.entry = ⟨UInt32.ofNat inode, UInt16.ofNat (r.recLen - r.curSize),
        UInt8.ofNat name.length, inodeToDirType (fs.getInodeData inode).mode⟩ := by
      rw [DirRecord.entry, hnewLen]
    have hold : u32 (DirRecord.size pre + r.curSize + 2 ^ 32 - DirRecord.size pre) = r'.recLen := by
      rw [hr'Len]
      unfold u32
      omega
    unfold FS.putRecord
    simp only [hl.entryAt hG, hl.nextRecord hG, hl.scanEnd hG, hblock, hneeded, hrecLen, hnamed, hold,
      ← hnew]
    rfl
  -- The bytes of the new record in three parts: its entry, its name, and the rest.
  have hparts : tail = tail.take 8 ++ (tail.drop 8).take (name ++ z).length ++
      tail.drop (8 + (name ++ z).length) := by
    rw [List.append_assoc, ← List.drop_drop, List.take_append_drop, List.take_append_drop]
  have hnamedLen : 8 + (name ++ z).length ≤ tail.length := by
    rw [List.length_append, htail]
    omega
  have hfirst : (tail.take 8).length = 8 := by rw [List.length_take]; omega
  have hsecond : ((tail.drop 8).take (name ++ z).length).length = (name ++ z).length := by
    rw [List.length_take, List.length_drop]
    omega
  have hdata : DirRecord.data (pre ++ r :: post) =
      DirRecord.data pre ++ r.entry.toList ++ (r.name ++ pad) ++ tail.take 8 ++
        ((tail.drop 8).take (name ++ z).length ++ (tail.drop (8 + (name ++ z).length) ++
          DirRecord.data post)) := by
    have hbytes : r.bytes = r.entry.toList ++ r.name ++ (pad ++ (tail.take 8 ++
        (tail.drop 8).take (name ++ z).length ++ tail.drop (8 + (name ++ z).length))) := by
      rw [← hparts, ← hrest]
      rfl
    rw [DirRecord.data_append, DirRecord.data_cons, hbytes]
    simp only [List.append_assoc]
  have hspans := hl.spans
  rw [hdata] at hspans
  have hfront : (DirRecord.data pre ++ r.entry.toList ++ (r.name ++ pad)).length =
      DirRecord.size pre + r.curSize := by
    simp only [List.length_append, DirRecord.length_data, r.entry.length_toList]
    omega
  obtain ⟨fs₁, heq₁, hb₁, hkept₁, hkeeps₁⟩ := hspans.iWriteaddr hG hM h hino
    (DirRecord.size pre + r.curSize)
    (List.ne_nil_of_length_pos (show 0 < new.entry.toList.length by rw [new.entry.length_toList]; omega))
    (by rw [List.length_append, List.length_append, hfront, hfirst, new.entry.length_toList]
        omega)
  rw [overwrite_middle _ _ _ _ (hfirst.trans new.entry.length_toList.symm) hfront.symm] at hb₁
  have hb₁' : fs₁.Spans G M ino (DirRecord.data pre ++ r.entry.toList ++ (r.name ++ pad) ++
      new.entry.toList ++ (tail.drop 8).take (name ++ z).length ++
        (tail.drop (8 + (name ++ z).length) ++ DirRecord.data post)) := by
    simpa only [List.append_assoc] using hb₁
  obtain ⟨fs₂, heq₂, hb₂, hrewritten⟩ := hb₁'.finish hG hM hkept₁.tended hino (name ++ z)
    r'.entry.toList hsecond (r.entry.length_toList.trans r'.entry.length_toList.symm) (by simp [hname])
    (List.ne_nil_of_length_pos (by rw [r'.entry.length_toList]; omega))
    (DirRecord.size pre + r.curSize + 8) (DirRecord.size pre)
    (by rw [List.length_append, hfront, new.entry.length_toList])
    (DirRecord.length_data pre).symm
  refine ⟨fs₂, pre ++ r' :: new :: post, by rw [hput, heq₁, ok_bind, heq₂],
    ⟨pre, r, r', new, post, rfl, rfl, rfl, rfl, rfl, rfl, rfl, rfl, .inr (by omega)⟩, ⟨?_, ?_⟩,
    FS.Rewritten.trans ⟨hkept₁, hkeeps₁⟩ hrewritten⟩
  · have hdata' : DirRecord.data (pre ++ r' :: new :: post) =
        DirRecord.data pre ++ r'.entry.toList ++ (r.name ++ pad) ++ new.entry.toList ++ (name ++ z) ++
          (tail.drop (8 + (name ++ z).length) ++ DirRecord.data post) := by
      simp only [DirRecord.data_append, DirRecord.data_cons, DirRecord.bytes, List.append_assoc, r', new]
    rw [hdata']
    exact hb₂
  · refine hl.tiled.cut ⟨hfits.name, ?_, ?_⟩ ⟨hshort, ?_, ?_⟩ ?_
    · have := hfits.recLen
      omega
    · rw [hr'Len]
      exact hle.2.2
    · have := hfits.recLen
      omega
    · rw [hnewLen]
      exact Nat.dvd_sub hfits.aligned hle.2.2
    · omega

/-- The entry goes into a new block. -/
theorem putRecord_block (hG : G.Sound) (hM : G.Metadata M) (h : fs.Tended G M live) (hino : ino ∈ live)
    (hl : fs.Lists G M ino (pre ++ [r])) (hname : name ≠ []) (hshort : name.length < 2 ^ 8)
    (hB : G.blockSize < 2 ^ 16) (hdirect : fs.count G ino < 12) :
    Ensures (fs.putRecord ino name inode (DirRecord.size pre) (DirRecord.size (pre ++ [r])))
      (· = .bsod "No space on disk :-(") fun fs' => ∃ l', Inserted (pre ++ [r]) name
        (UInt32.ofNat inode) (inodeToDirType (fs.getInodeData inode).mode) l' ∧
        fs'.Lists G M ino l' ∧ fs.Rewritten fs' G M live ino := by
  have hlt := hl.size_lt hG
  have hfits := hl.tiled.fits r (by simp)
  have hfour : 4 ∣ G.blockSize ∧ 1024 ≤ G.blockSize := by
    have hfanout := hG.fanout_ge
    have heq := hG.blockSize_eq
    exact ⟨⟨G.fanout, by omega⟩, by omega⟩
  have hblock : fs.blockSize = G.blockSize := congrArg Geometry.blockSize hl.spans.intact.fit.geometry
  have hneeded : u32 (8 + name.length) = 8 + name.length := u32_of_lt (by omega)
  have hrecLen : u32 (u32 (alignup (u32 (DirRecord.size (pre ++ [r]) + (8 + name.length))) G.blockSize) +
      2 ^ 32 - DirRecord.size (pre ++ [r])) = G.blockSize := by
    have hzero : DirRecord.size (pre ++ [r]) % G.blockSize = 0 := Nat.mod_eq_zero_of_dvd hl.tiled.whole
    rw [u32_of_lt (show DirRecord.size (pre ++ [r]) + (8 + name.length) < 2 ^ 32 by omega),
      alignup_within (by omega) (by omega), hzero]
    unfold u32
    omega
  obtain ⟨z, hz, hnamed⟩ := named_cases name
    (u32 (DirRecord.size (pre ++ [r]) + (8 + name.length)) < (UInt16.ofNat G.blockSize).toNat)
  have hold : u32 (DirRecord.size (pre ++ [r]) + 2 ^ 32 - DirRecord.size pre) = r.recLen := by
    have := hfits.recLen
    simp only [DirRecord.size_append, DirRecord.size_cons, DirRecord.size_nil]
    unfold u32
    omega
  let newEntry : DirectoryEntry := ⟨UInt32.ofNat inode, UInt16.ofNat G.blockSize,
    UInt8.ofNat name.length, inodeToDirType (fs.getInodeData inode).mode⟩
  have hput : fs.putRecord ino name inode (DirRecord.size pre) (DirRecord.size (pre ++ [r])) =
      (do let fs ← fs.iWriteaddr ino (DirRecord.data (pre ++ [r])).length newEntry.toList
          let fs ← fs.iWriteaddr ino (DirRecord.size (pre ++ [r]) + 8) (name ++ z)
          fs.iWriteaddr ino (DirRecord.size pre) r.entry.toList) := by
    unfold FS.putRecord
    simp only [hl.entryAt hG, hl.nextRecord hG, hl.scanEnd hG, hblock, hneeded, le_refl, if_true,
      hrecLen, hnamed, hold, DirRecord.length_data]
    rfl
  rw [hput]
  have hentry := newEntry.length_toList
  refine (hl.spans.iWriteaddr_new hG hM h hino (List.ne_nil_of_length_pos (by omega)) (by omega)
    hdirect).bind fun fs₁ hwritten => ?_
  obtain ⟨⟨rest, hb₁, hrest⟩, hkept₁, hkeeps₁⟩ := hwritten
  have hnamedLen : (name ++ z).length ≤ rest.length := by
    rw [List.length_append]
    omega
  have hb₁' : fs₁.Spans G M ino (DirRecord.data pre ++ r.entry.toList ++ (r.name ++ r.rest) ++
      newEntry.toList ++ rest.take (name ++ z).length ++ rest.drop (name ++ z).length) := by
    have hbytes : r.bytes = r.entry.toList ++ r.name ++ r.rest := rfl
    rw [DirRecord.data_append, DirRecord.data_cons, hbytes] at hb₁
    rw [List.append_assoc _ (rest.take _), List.take_append_drop]
    simpa [DirRecord.data] using hb₁
  obtain ⟨fs₂, heq₂, hb₂, hrewritten⟩ := hb₁'.finish hG hM hkept₁.tended hino (name ++ z)
    r.entry.toList (by rw [List.length_take]; omega) rfl (by simp [hname]) (List.ne_nil_of_length_pos (by rw [r.entry.length_toList]; omega))
    (DirRecord.size (pre ++ [r]) + 8) (DirRecord.size pre)
    (by
      simp only [List.length_append, DirRecord.length_data, DirectoryEntry.length_toList,
        DirRecord.size_append, DirRecord.size_cons, DirRecord.size_nil, DirRecord.recLen]
      omega)
    (DirRecord.length_data pre).symm
  rw [heq₂]
  let new : DirRecord := ⟨UInt32.ofNat inode, inodeToDirType (fs.getInodeData inode).mode, name,
    z ++ rest.drop (name ++ z).length⟩
  have hnewLen : new.recLen = G.blockSize := by
    change 8 + name.length + (z ++ rest.drop (name ++ z).length).length = _
    rw [List.length_append, List.length_drop, List.length_append]
    rw [List.length_append] at hnamedLen
    omega
  have hnew : new.entry = newEntry := by rw [DirRecord.entry, hnewLen]
  refine ⟨pre ++ [r] ++ [new], ⟨pre, r, r, new, [], rfl, by simp, rfl, rfl, rfl, rfl, rfl, rfl, .inl rfl⟩,
    ⟨?_, ?_⟩, FS.Rewritten.trans ⟨hkept₁, hkeeps₁⟩ hrewritten⟩
  · have hdata : DirRecord.data (pre ++ [r] ++ [new]) =
        DirRecord.data pre ++ r.entry.toList ++ (r.name ++ r.rest) ++ newEntry.toList ++ (name ++ z) ++
          rest.drop (name ++ z).length := by
      have hbytes : new.bytes = newEntry.toList ++ name ++ (z ++ rest.drop (name ++ z).length) := by
        rw [← hnew]
        rfl
      have hbytes' : r.bytes = r.entry.toList ++ r.name ++ r.rest := rfl
      simp only [DirRecord.data_append, DirRecord.data_cons, hbytes, hbytes', List.append_assoc]
      simp [DirRecord.data]
    rw [hdata]
    exact hb₂
  · exact hl.tiled.extend ⟨hshort, by omega, hnewLen ▸ hfour.1⟩ hnewLen

/-! ### `addEntry` -/

/-- `addEntry` from `link` on. -/
theorem linkRecord (hG : G.Sound) (hM : G.Metadata M) (h : fs.Tended G M live) (hino : ino ∈ live)
    (hinode : inode ∈ live) (hl : fs.Lists G M ino l) (hsome : l ≠ []) (hname : name ≠ [])
    (hshort : name.length < 2 ^ 8) (hB : G.blockSize < 2 ^ 16) (hdirect : fs.count G ino < 12)
    {fuel : Nat} (hfuel : l.length ≤ fuel) :
    Ensures (fs.linkRecord ino fuel name inode) (· = .bsod "No space on disk :-(") fun fs' =>
      ∃ l', Inserted l name (UInt32.ofNat inode) (inodeToDirType (fs.getInodeData inode).mode) l' ∧
        fs'.Lists G M ino l' ∧ fs.Amended fs' G M live ino fun i =>
          if i = inode then (fs.getInodeData i).linksCount + 1 else (fs.getInodeData i).linksCount := by
  obtain ⟨htended, hcontents, hlinks⟩ := h.link hG hM hinode
  have hl₀ := hl.same (htended.wellFormed.intact hino) (hcontents ino hino)
  have hneeded : u32 (8 + name.length) = 8 + name.length := u32_of_lt (by omega)
  have hBge : 1024 ≤ G.blockSize := by have := hG.fanout_ge; have := hG.blockSize_eq; omega
  obtain ⟨curPos, targetPos, reads, hfind, hplace⟩ := findPlace hG
    (by exact hl₀ : (fs.link inode).Lists G M ino ([] ++ l)) hsome
    (show 0 < 8 + name.length by omega) (by omega) hfuel
  have hput : Ensures ((fs.link inode).putRecord ino name inode curPos targetPos)
      (· = .bsod "No space on disk :-(") fun fs' => ∃ l', Inserted l name (UInt32.ofNat inode)
        (inodeToDirType ((fs.link inode).getInodeData inode).mode) l' ∧
        fs'.Lists G M ino l' ∧ (fs.link inode).Rewritten fs' G M live ino := by
    rw [List.nil_append] at hplace
    cases hplace with
    | slack hl' hroom =>
      subst hl'
      obtain ⟨fs', l', heq, hinserted⟩ :=
        hl₀.putRecord_slack hG hM htended hino hname hshort hroom
      rw [heq]
      exact ⟨l', hinserted⟩
    | block hl' =>
      subst hl'
      exact hl₀.putRecord_block hG hM htended hino hname hshort hB
        (by rwa [(hcontents ino hino).count])
  unfold FS.linkRecord
  dsimp only
  rw [hneeded]
  rw [DirRecord.size_nil] at hfind
  rw [hfind, ok_bind]
  refine hput.mono (fun _ he => he) fun fs' hput => ?_
  obtain ⟨l', hinserted, hlists, hrewritten⟩ := hput
  rw [(hcontents inode hinode).mode] at hinserted
  refine ⟨l', hinserted, hlists, hrewritten.kept.tended, ?_, fun i hi hne => ?_, fun i hi => ?_⟩
  · rw [hrewritten.keeps.mode, (hcontents ino hino).mode]
  · exact (hcontents i hi).trans (hrewritten.kept.others i hi hne).contents
  · rw [← hlinks i hi]
    by_cases hne : i = ino
    · subst hne
      exact hrewritten.keeps.linksCount
    · rw [(hrewritten.kept.others i hi hne).data]

/-- An entry that is added is found under its name, and every other name finds what it found before. -/
theorem addEntry_findInode (hG : G.Sound) (hM : G.Metadata M) (h : fs.Tended G M live)
    (hino : ino ∈ live) (hinode : inode ∈ live) (hl : fs.Lists G M ino l) (hsome : l ≠ [])
    (hname : name ≠ []) (hshort : name.length < 2 ^ 8) (hnul : 0 ∉ name)
    (hnew : name ∉ (DirRecord.names l).map Prod.fst) (hB : G.blockSize < 2 ^ 16)
    (hdirect : fs.count G ino < 12) (hfile : isDir (fs.getInodeData inode).mode = false ∨ name = dotDot)
    {fuel : Nat} (hfuel : l.length < fuel) :
    Ensures (fs.addEntry ino fuel name inode) (· = .bsod "No space on disk :-(") fun fs' =>
      (∃ l', fs'.Lists G M ino l') ∧
      (∀ n, ∃ v reads reads', fs.findInode ino n fuel fuel = .ok (v, reads) ∧
        fs'.findInode ino n (fuel + 1) (fuel + 1) =
          .ok (if n = name then UInt32.ofNat inode else v, reads')) ∧
      fs.Amended fs' G M live ino fun i =>
        if i = inode then (fs.getInodeData i).linksCount + 1 else (fs.getInodeData i).linksCount := by
  have hnot : ¬(isDir (fs.getInodeData inode).mode = true ∧ name ≠ dotDot) := by
    rintro ⟨hdir, hne⟩
    exact hfile.elim (fun hf => Bool.noConfusion (hf.symm.trans hdir)) hne
  rw [addEntry_eq hnot]
  refine (hl.linkRecord hG hM h hino hinode hsome hname hshort hB hdirect hfuel.le).mono
    (fun _ he => he) fun fs' hfs' => ?_
  obtain ⟨l', hinserted, hl', hamended⟩ := hfs'
  refine ⟨⟨l', hl'⟩, fun n => ?_, hamended⟩
  have hpos : UInt32.ofNat inode ≠ 0 := by
    have hi := h.wellFormed.inode inode hinode
    have hlt := lt_of_le_of_lt hi.le hG.inodes_lt
    have hge := hi.pos
    intro hzero
    have hnat := congrArg UInt32.toNat hzero
    rw [UInt32.toNat_ofNat', Nat.mod_eq_of_lt hlt] at hnat
    change inode = 0 at hnat
    omega
  obtain ⟨ns, ns', hns, hns'⟩ := hinserted.names hpos hnul
  have hlength : l'.length = l.length + 1 := by
    obtain ⟨pre, r, r', new, post, rfl, rfl, -⟩ := hinserted
    simp only [List.length_append, List.length_cons]
    omega
  obtain ⟨reads, hfind⟩ := hl.findInode hG hfuel hfuel n
  obtain ⟨reads', hfind'⟩ := hl'.findInode hG (show l'.length < fuel + 1 by omega)
    (show l'.length < fuel + 1 by omega) n
  refine ⟨_, reads, reads', hfind, ?_⟩
  rw [hfind', DirRecord.lookup_insert hns hns' hnew]

end FS.Lists

end SupOS.Ext2
