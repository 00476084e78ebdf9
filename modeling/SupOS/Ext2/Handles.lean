import SupOS.Ext2.Streams
import SupOS.Ext2.Upkeep
import SupOS.Lib.Machine

/-! Accesses through open files. As long as the file that a stream was opened on has a name, the
stream reads and changes this file only; afterwards its inode is free or another file. -/

namespace SupOS.Ext2

open Lib SupOS.Ext2.Geometry

variable {G : Geometry} {M : Nat → Prop} {fs fs' : FS} {live : List Nat}

theorem isReg_of_isDir {mode : UInt16} (h : isDir mode = true) : isReg mode = false := by
  unfold isDir at h
  unfold isReg
  rw [beq_iff_eq.mp h]
  decide

/-- Each edit writes something, and ends where a size can be stored. -/
def Edits.Fits (edits : Edits) : Prop := ∀ e ∈ edits, e.2 ≠ [] ∧ e.1 + e.2.length < 2 ^ 32

instance (edits : Edits) : Decidable edits.Fits :=
  inferInstanceAs (Decidable (∀ e ∈ edits, e.2 ≠ [] ∧ e.1 + e.2.length < 2 ^ 32))

theorem FS.Kept.trans {fs₁ : FS} {ino : Nat} (h : fs.Kept fs₁ G M live ino)
    (h' : fs₁.Kept fs' G M live ino) : fs.Kept fs' G M live ino :=
  ⟨h'.tended, fun i hi hne => (h.others i hi hne).trans (h'.others i hi hne)⟩

theorem FS.Kept.refl (h : fs.Tended G M live) (ino : Nat) : fs.Kept fs G M live ino :=
  ⟨h, fun _ _ _ => ⟨rfl, rfl, fun _ _ => rfl⟩⟩

theorem InodeData.Keeps.trans {d d₁ d₂ : InodeData} (h : d.Keeps d₁) (h' : d₁.Keeps d₂) :
    d.Keeps d₂ :=
  ⟨h'.mode.trans h.mode, h'.uid.trans h.uid, h'.gid.trans h.gid,
    h'.linksCount.trans h.linksCount⟩

theorem FS.Tended.edit (hG : G.Sound) (hM : G.Metadata M) (h : fs.Tended G M live) {dir : Nat}
    (hdir : dir ∈ live) {edits : Edits} (hfits : edits.Fits) :
    Ensures (fs.edit dir edits) (fun _ => True) fun fs' =>
      fs.Kept fs' G M live dir ∧ (fs.getInodeData dir).Keeps (fs'.getInodeData dir) := by
  unfold FS.edit
  induction edits generalizing fs with
  | nil => exact ⟨.refl h dir, rfl, rfl, rfl, rfl⟩
  | cons e edits ih =>
    obtain ⟨⟨hbytes, hend⟩, hfits⟩ := List.forall_mem_cons.mp hfits
    rw [List.foldlM_cons]
    refine (h.iWriteaddr hG hM hdir hbytes hend).bind fun fs₁ h₁ => ?_
    obtain ⟨hkept, hkeeps, -⟩ := h₁
    refine (ih hkept.tended hfits).mono (fun _ _ => trivial) fun fs₂ h₂ => ?_
    exact ⟨hkept.trans h₂.1, hkeeps.trans h₂.2⟩

/-- A volume, and what has happened on it: how often the last name of an inode was removed, and for
each stream how often that was for its inode when it was opened. -/
structure History where
  volume : Volume
  lost : Nat → Nat
  opened : List Nat

namespace History

def losses (s : History) (v : Volume) (ino : Nat) : Nat :=
  if s.volume.Named ino ∧ ¬v.Named ino then s.lost ino + 1 else s.lost ino

def apply (s : History) (c : Volume.Call) : Except Fault History := do
  let v ← s.volume.apply c
  let fresh := v.streams.drop s.volume.streams.length
  return {
    volume := v
    lost := s.losses v
    opened := s.opened ++ fresh.map fun o => o.elim 0 fun h => s.losses v h.inode }

/-- The file that stream `i` was opened on has kept a name ever since. -/
def Own (s : History) (i : Nat) (h : BytesStream) : Prop := s.opened[i]? = some (s.lost h.inode)

instance (s : History) (i : Nat) (h : BytesStream) : Decidable (s.Own i h) :=
  inferInstanceAs (Decidable (s.opened[i]? = some (s.lost h.inode)))

/-- What is promised of an access through a stream: a read returns bytes of the file that it was
opened on; a write leaves all other files as they are, and gives no block to a free inode. -/
def Respects (G : Geometry) (s : History) : Volume.Call → Prop
  | .sysread i count => ∀ h, s.volume.stream i = some h → ∀ bytes,
      (s.volume.sysread i count).1 = bytes → bytes ≠ [] → s.Own i h ∧
        h.addr + bytes.length ≤ s.volume.fs.getSize h.inode ∧
        bytes = (List.range bytes.length).map fun k => s.volume.fs.byte G h.inode (h.addr + k)
  | .syswrite i bytes => ∀ h, s.volume.stream i = some h → ∀ v,
      s.volume.syswrite i bytes = .ok v →
        (∀ j, s.volume.Named j → (j = h.inode → ¬s.Own i h) → s.volume.fs.SameFile v.fs G j) ∧
        (¬s.volume.Named h.inode →
          ∀ b < G.blocksCount, G.used v.fs.part b = G.used s.volume.fs.part b)
  | _ => True

/-- Bytes move only through streams whose file still has a name, and are written where a size can
be stored. -/
def Careful (s : History) : Volume.Call → Prop
  | .sysread i count => ∀ h, s.volume.stream i = some h →
      s.Own i h ∨ count = 0 ∨ h.addr = s.volume.fs.getSize h.inode
  | .syswrite i bytes => ∀ h, s.volume.stream i = some h →
      bytes = [] ∨ s.Own i h ∧ h.addr + bytes.length < 2 ^ 32
  | _ => True

/-- The directories that calls change exist, and so do the places in their data. -/
def Admits (s : History) : Volume.Call → Prop
  | .sysopen dir _ _ edits | .sysunlink dir _ edits => s.volume.Named dir ∧ edits.Fits
  | _ => True

instance (s : History) (c : Volume.Call) : Decidable (Admits s c) := by
  cases c <;> unfold Admits <;> infer_instance

instance (s : History) (c : Volume.Call) : Decidable (Careful s c) :=
  match c with
  | .sysread i count => inferInstanceAs (Decidable (∀ h ∈ s.volume.stream i,
      s.Own i h ∨ count = 0 ∨ h.addr = s.volume.fs.getSize h.inode))
  | .syswrite i bytes => inferInstanceAs (Decidable (∀ h ∈ s.volume.stream i,
      bytes = [] ∨ s.Own i h ∧ h.addr + bytes.length < 2 ^ 32))
  | .sysopen .. | .sysclose _ | .sysunlink .. => isTrue trivial

/-- The names and the links of the files. -/
structure Linked (v : Volume) : Prop where
  dirs : ∀ r ∈ v.records, v.Named r.dir ∧ isDir (v.fs.getInodeData r.dir).mode = true
  links : ∀ ino, v.Named ino → isReg (v.fs.getInodeData ino).mode = true →
    (v.fs.getInodeData ino).linksCount.toNat = v.records.countP (·.inode == ino)

/-- A stream on a file that still has a name. -/
structure Holds (v : Volume) (h : BytesStream) : Prop where
  named : v.Named h.inode
  regular : isReg (v.fs.getInodeData h.inode).mode = true
  inside : h.addr ≤ v.fs.getSize h.inode

structure Inv (G : Geometry) (M : Nat → Prop) (s : History) : Prop where
  tended : ∃ live, (∀ ino, ino ∈ live ↔ s.volume.Named ino) ∧ s.volume.fs.Tended G M live
  linked : Linked s.volume
  length : s.opened.length = s.volume.streams.length
  past : ∀ i h n, s.volume.stream i = some h → s.opened[i]? = some n → n ≤ s.lost h.inode
  holds : ∀ i h, s.volume.stream i = some h → s.Own i h → Holds s.volume h

/-- A file system that was just mounted: its inodes have names, and the links of each file are
counted. -/
def machine (G : Geometry) (M : Nat → Prop) : Machine History Volume.Call Fault where
  start s := (∃ live, (∀ ino, ino ∈ live ↔ s.volume.Named ino) ∧ s.volume.fs.Tended G M live) ∧
    Linked s.volume ∧ s.volume.streams = [] ∧ s.opened = []
  admits := Admits
  apply := apply

end History

namespace Volume

variable {s v : Volume} {ino : Nat}

theorem named_iff : s.Named ino ↔ 0 < s.records.countP (·.inode == ino) := by
  simp [Named, List.countP_pos_iff]

/-- What a call leaves of an inode that keeps a name: its mode, its links, and at least the size of
a file. -/
structure Stays (s v : Volume) (ino : Nat) : Prop where
  mode : (v.fs.getInodeData ino).mode = (s.fs.getInodeData ino).mode
  linksCount : (v.fs.getInodeData ino).linksCount = (s.fs.getInodeData ino).linksCount
  size : isReg (s.fs.getInodeData ino).mode = true → s.fs.getSize ino ≤ v.fs.getSize ino

theorem Stays.of_data (h : v.fs.getInodeData ino = s.fs.getInodeData ino) : s.Stays v ino where
  mode := by rw [h]
  linksCount := by rw [h]
  size _ := by rw [FS.getSize, FS.getSize, h]

end Volume

namespace History

open Volume

variable {s s' : History} {v : Volume} {c : Volume.Call}

/-- A directory that is named stays one. -/
theorem Linked.of_stays {w : Volume} (h : Linked w) (hrecords : v.records = w.records)
    (hstays : ∀ ino, w.Named ino → w.Stays v ino) : Linked v := by
  have hnamed : ∀ ino, v.Named ino ↔ w.Named ino := fun ino => by rw [Named, Named, hrecords]
  refine ⟨fun r hr => ?_, fun ino hino hreg => ?_⟩
  · obtain ⟨hdir, hmode⟩ := h.dirs r (hrecords ▸ hr)
    exact ⟨(hnamed _).mpr hdir, by rw [(hstays _ hdir).mode]; exact hmode⟩
  · have hino' := (hnamed ino).mp hino
    rw [(hstays ino hino').mode] at hreg
    rw [(hstays ino hino').linksCount, hrecords]
    exact h.links ino hino' hreg

/-- The invariant after a call, from what the call makes of the volume. -/
theorem Inv.next (h : Inv G M s) (hs : s.apply c = .ok s') (hv : s.volume.apply c = .ok v)
    (htended : ∃ live, (∀ ino, ino ∈ live ↔ v.Named ino) ∧ v.fs.Tended G M live)
    (hlinked : Linked v) (hlength : s.volume.streams.length ≤ v.streams.length)
    (hold : ∀ i < s.volume.streams.length, ∀ h', v.stream i = some h' →
      ∃ h, s.volume.stream i = some h ∧ h'.inode = h.inode ∧
        (s.Own i h → Holds s.volume h → v.Named h.inode → Holds v h'))
    (hnew : ∀ i, s.volume.streams.length ≤ i → ∀ h', v.stream i = some h' → Holds v h') :
    Inv G M s' := by
  obtain ⟨w, hw, hs⟩ := bind_eq_ok.mp hs
  obtain rfl := Except.ok.inj (hv.symm.trans hw)
  obtain rfl := pure_eq_ok.mp hs
  have hlost : ∀ ino, s.lost ino ≤ s.losses v ino := by
    intro ino
    unfold losses
    split
    · exact Nat.le_succ _
    · exact Nat.le_refl _
  refine ⟨htended, hlinked, ?_, fun i h' n hi hn => ?_, fun i h' hi hown => ?_⟩
  · simp only [List.length_append, List.length_map, List.length_drop, h.length]
    omega
  · simp only at hi hn
    by_cases hlt : i < s.volume.streams.length
    · obtain ⟨h₀, hi₀, hinode, -⟩ := hold i hlt h' hi
      rw [List.getElem?_append_left (by rwa [h.length])] at hn
      rw [hinode]
      exact (h.past i h₀ n hi₀ hn).trans (hlost _)
    · rw [List.getElem?_append_right (by rw [h.length]; omega), h.length, List.getElem?_map,
        List.getElem?_drop, Nat.add_sub_of_le (Nat.le_of_not_lt hlt)] at hn
      cases ho : v.streams[i]? with
      | none => simp [Volume.stream, ho] at hi
      | some o =>
        obtain rfl : o = some h' := by simpa [Volume.stream, ho] using hi
        rw [ho] at hn
        exact (Option.some.inj hn).ge
  · simp only at hi
    by_cases hlt : i < s.volume.streams.length
    · obtain ⟨h₀, hi₀, hinode, hholds⟩ := hold i hlt h' hi
      unfold Own at hown
      simp only at hown
      rw [List.getElem?_append_left (by rwa [h.length]), hinode] at hown
      -- The last name was not removed by this call either.
      have hsame : s.losses v h₀.inode = s.lost h₀.inode :=
        Nat.le_antisymm (h.past i h₀ _ hi₀ hown) (hlost _)
      have hown₀ : s.Own i h₀ := by rw [Own, hown, hsame]
      have hholds₀ := h.holds i h₀ hi₀ hown₀
      refine hholds hown₀ hholds₀ ?_
      by_contra hnot
      unfold losses at hsame
      rw [if_pos ⟨hholds₀.named, hnot⟩] at hsame
      omega
    · exact hnew i (Nat.le_of_not_lt hlt) h' hi

theorem stream_set (v : Volume) (fs : FS) (i j : Nat) (o : Option BytesStream)
    (hi : i < v.streams.length) :
    { v with fs, streams := v.streams.set i o }.stream j = if j = i then o else v.stream j := by
  unfold Volume.stream
  by_cases hj : j = i
  · simp [hj, hi]
  · simp [hj, Ne.symm hj]

theorem lt_of_stream {i : Nat} {h : BytesStream} (hi : v.stream i = some h) :
    i < v.streams.length := by
  unfold Volume.stream at hi
  by_contra hle
  simp [List.getElem?_eq_none (Nat.le_of_not_lt hle)] at hi

/-- The invariant after a call that names and unnames nothing and replaces one stream. -/
theorem Inv.place (h : Inv G M s) (hs : s.apply c = .ok s') {fs : FS} {i : Nat}
    {o : Option BytesStream}
    (hv : s.volume.apply c = .ok { s.volume with fs, streams := s.volume.streams.set i o })
    (hi : i < s.volume.streams.length)
    (htended : ∃ live, (∀ ino, ino ∈ live ↔ s.volume.Named ino) ∧ fs.Tended G M live)
    (hstays : ∀ ino, s.volume.Named ino → s.volume.Stays { s.volume with fs } ino)
    (ho : ∀ h', o = some h' → ∃ h, s.volume.stream i = some h ∧ h'.inode = h.inode ∧
      (s.Own i h → Holds s.volume h → h'.addr ≤ fs.getSize h.inode)) : Inv G M s' := by
  have hlinked : Linked { s.volume with fs, streams := s.volume.streams.set i o } :=
    Linked.of_stays h.linked rfl fun ino hino =>
      ⟨(hstays ino hino).mode, (hstays ino hino).linksCount, (hstays ino hino).size⟩
  refine h.next hs hv htended hlinked (by simp) (fun j hj h' hj' => ?_) fun j hj h' hj' => ?_
  · rw [stream_set _ _ _ _ _ hi] at hj'
    by_cases hji : j = i
    · rw [if_pos hji] at hj'
      obtain ⟨h₀, hi₀, hinode, haddr⟩ := ho h' hj'
      refine ⟨h₀, hji ▸ hi₀, hinode, fun hown hholds hnamed => ?_⟩
      rw [hji] at hown
      refine ⟨hinode ▸ hnamed, ?_, hinode ▸ haddr hown hholds⟩
      rw [hinode]
      exact (hstays _ hholds.named).mode ▸ hholds.regular
    · rw [if_neg hji] at hj'
      refine ⟨h', hj', rfl, fun hown hholds hnamed => ⟨hnamed, ?_, ?_⟩⟩
      · exact (hstays _ hholds.named).mode ▸ hholds.regular
      · exact hholds.inside.trans ((hstays _ hholds.named).size hholds.regular)
  · have hlt := lt_of_stream hj'
    simp only [List.length_set] at hlt
    omega

/-- What `read` gives of a file that has a name. -/
theorem read_holds {w : Volume} {h : BytesStream} (hw : Holds w h) (count : Nat) :
    h.toRead w.fs count = min count (w.fs.getSize h.inode - h.addr) := by
  have hlt := w.fs.getSize_lt h.inode
  have hinside := hw.inside
  unfold BytesStream.toRead
  rw [sub64_of_le hinside (by omega), Nat.zero_max]

theorem read_addr {w : Volume} {h : BytesStream} (hw : Holds w h) (count : Nat) :
    (h.read w.fs count).2.addr ≤ w.fs.getSize h.inode := by
  have hlt := w.fs.getSize_lt h.inode
  have hinside := hw.inside
  have hread := read_holds hw count
  unfold BytesStream.read
  simp only
  split
  · exact hinside
  · rw [hread]
    simp only
    rw [u64_of_lt (by omega)]
    omega

theorem read_inode (h : BytesStream) (fs : FS) (count : Nat) :
    (h.read fs count).2.inode = h.inode := by
  unfold BytesStream.read
  simp only
  split <;> rfl

theorem stays_self {w : Volume} (ino : Nat) : w.Stays { w with fs := w.fs } ino := .of_data rfl

/-- A call that changes nothing. -/
theorem Inv.idle (h : Inv G M s) (hs : s.apply c = .ok s') (hv : s.volume.apply c = .ok s.volume) :
    Inv G M s' :=
  h.next hs hv h.tended h.linked (Nat.le_refl _)
    (fun _ _ h' hj => ⟨h', hj, rfl, fun _ hholds _ => hholds⟩)
    fun _ hj _ hj' => absurd (lt_of_stream hj') (Nat.not_lt.mpr hj)

theorem sysread_inv {i count : Nat} (h : Inv G M s)
    (hs : s.apply (.sysread i count) = .ok s') : Inv G M s' := by
  cases hi : s.volume.stream i with
  | none =>
    apply h.idle hs
    simp [Volume.apply, Volume.sysread, hi]
    rfl
  | some h₀ =>
    have hv : s.volume.apply (.sysread i count) = .ok { s.volume with
        fs := s.volume.fs
        streams := s.volume.streams.set i (some (h₀.read s.volume.fs count).2) } := by
      simp [Volume.apply, Volume.sysread, hi]
      rfl
    refine h.place hs hv (lt_of_stream hi) h.tended (fun ino _ => stays_self ino) fun h' ho => ?_
    obtain rfl := Option.some.inj ho
    exact ⟨h₀, hi, read_inode _ _ _, fun _ hholds => read_addr hholds count⟩

theorem sysclose_inv {i : Nat} (h : Inv G M s) (hs : s.apply (.sysclose i) = .ok s') :
    Inv G M s' := by
  by_cases hi : i < s.volume.streams.length
  · exact h.place hs rfl hi h.tended (fun ino _ => stays_self ino) fun _ ho => by cases ho
  · apply h.idle hs
    have hset : s.volume.streams.set i none = s.volume.streams :=
      List.set_eq_of_length_le (Nat.le_of_not_lt hi)
    simp [Volume.apply, Volume.sysclose, hset]
    rfl

/-- What a write through a stream on a file that still has a name does. -/
theorem write_spec (hG : G.Sound) (hM : G.Metadata M) {w : Volume} {h : BytesStream}
    (htended : w.fs.Tended G M live) (hlive : ∀ ino, ino ∈ live ↔ w.Named ino)
    (hholds : Holds w h) {bytes : List UInt8} (hbytes : bytes ≠ [])
    (hend : h.addr + bytes.length < 2 ^ 32) :
    Ensures (h.write w.fs bytes) (fun _ => True) fun r =>
      w.fs.Kept r.1 G M live h.inode ∧ (∀ ino, w.Named ino → w.Stays { w with fs := r.1 } ino) ∧
        r.2.inode = h.inode ∧ r.2.addr ≤ r.1.getSize h.inode := by
  have hlen := List.length_pos_of_ne_nil hbytes
  unfold BytesStream.write
  rw [if_neg (by omega)]
  refine (htended.iWriteaddr hG hM ((hlive _).mpr hholds.named) hbytes hend).bind fun fs₁ h₁ => ?_
  obtain ⟨hkept, hkeeps, hsize⟩ := h₁
  refine ⟨hkept, fun ino hino => ?_, rfl, ?_⟩
  · by_cases hne : ino = h.inode
    · subst hne
      exact ⟨hkeeps.mode, hkeeps.linksCount, fun _ => by rw [hsize]; exact Nat.le_max_left _ _⟩
    · exact .of_data (hkept.others ino ((hlive ino).mpr hino) hne).data
  · simp only
    rw [hsize, u64_of_lt (by omega)]
    exact Nat.le_max_right _ _

theorem syswrite_inv (hG : G.Sound) (hM : G.Metadata M) {i : Nat} {bytes : List UInt8}
    (h : Inv G M s) (hcareful : Careful s (.syswrite i bytes))
    (hs : s.apply (.syswrite i bytes) = .ok s') : Inv G M s' := by
  obtain ⟨v, hv, -⟩ := bind_eq_ok.mp hs
  cases hi : s.volume.stream i with
  | none =>
    apply h.idle hs
    simp [Volume.apply, Volume.syswrite, hi]
    rfl
  | some h₀ =>
    obtain ⟨live, hlive, htended⟩ := h.tended
    simp only [Volume.apply, Volume.syswrite, hi] at hv
    obtain ⟨⟨fs₁, h₁⟩, hwrite, hv⟩ := bind_eq_ok.mp hv
    have hv' : s.volume.apply (.syswrite i bytes) = .ok { s.volume with
        fs := fs₁, streams := s.volume.streams.set i (some h₁) } := by
      simp only [Volume.apply, Volume.syswrite, hi, hwrite]
      rfl
    by_cases hnil : bytes = []
    · subst hnil
      obtain ⟨rfl, rfl⟩ := Prod.mk.inj (pure_eq_ok.mp hwrite)
      refine h.place hs hv' (lt_of_stream hi) h.tended (fun ino _ => stays_self ino) fun h' ho => ?_
      obtain rfl := Option.some.inj ho
      exact ⟨h₀, hi, rfl, fun _ hholds => hholds.inside⟩
    · obtain ⟨hown, hend⟩ := (hcareful h₀ hi).resolve_left hnil
      obtain ⟨hkept, hstays, hinode, haddr⟩ :=
        (write_spec hG hM htended hlive (h.holds i h₀ hi hown) hnil hend).of_ok hwrite
      refine h.place hs hv' (lt_of_stream hi) ⟨live, hlive, hkept.tended⟩ hstays fun h' ho => ?_
      obtain rfl := Option.some.inj ho
      exact ⟨h₀, hi, hinode, fun _ _ => haddr⟩

theorem mem_of_find {w : Volume} {dir : Nat} {name : String} {r : Record}
    (hfind : w.find dir name = some r) : r ∈ w.records := by
  obtain ⟨hfind, -⟩ := Option.filter_eq_some_iff.mp hfind
  exact List.mem_of_find?_eq_some hfind

theorem opens_stream (w : Volume) (ino i : Nat) (hi : i < w.streams.length) :
    (w.opens ino).stream i = w.stream i := by
  unfold Volume.stream
  rw [Volume.opens, List.getElem?_append_left hi]

theorem linked_opens {w : Volume} (h : Linked w) (ino : Nat) : Linked (w.opens ino) :=
  ⟨h.dirs, h.links⟩

/-- The stream that is opened on an inode with a name. -/
theorem opens_holds {w : Volume} {ino i : Nat} {h : BytesStream} (hino : w.Named ino)
    (hi : w.streams.length ≤ i) (hstream : (w.opens ino).stream i = some h) :
    Holds (w.opens ino) h := by
  unfold Volume.stream at hstream
  rw [Volume.opens, List.getElem?_append_right hi, List.getElem?_singleton] at hstream
  split at hstream
  · unfold file2Stream at hstream
    split at hstream
    · rename_i hreg
      obtain rfl := Option.some.inj hstream
      exact ⟨hino, hreg, Nat.zero_le _⟩
    · cases hstream
  · cases hstream

/-- A new file is named, and the other inodes keep their modes, links and sizes. -/
structure Added (G : Geometry) (M : Nat → Prop) (w v : Volume) (dir : Nat) (name : String)
    (ino : Nat) : Prop where
  fresh : ¬w.Named ino
  records : v.records = ⟨dir, name, ino⟩ :: w.records
  streams : v.streams = w.streams
  tended : ∃ live, (∀ i, i ∈ live ↔ v.Named i) ∧ v.fs.Tended G M live
  stays : ∀ i, w.Named i → w.Stays v i
  links : (v.fs.getInodeData ino).linksCount = 1

theorem addEntry_spec (hG : G.Sound) (hM : G.Metadata M) {w : Volume} {dir : Nat} {name : String}
    {edits : Edits} (hlive : ∀ ino, ino ∈ live ↔ w.Named ino) (htended : w.fs.Tended G M live)
    (hdir : w.Named dir) (hmode : isDir (w.fs.getInodeData dir).mode = true)
    (hfits : edits.Fits) : Ensures (w.addEntry dir name edits) (fun _ => True) fun r =>
      Added G M w r.2 dir name r.1 := by
  unfold addEntry
  refine (htended.getNewFile hG hM 0 0 newMode).bind fun r hr => ?_
  obtain ⟨ino, fs₁⟩ := r
  obtain ⟨hnot, hkept₁, hdata₁⟩ := hr
  simp only at hnot hkept₁ hdata₁ ⊢
  have hdirmem : dir ∈ ino :: live := List.mem_cons_of_mem _ ((hlive dir).mpr hdir)
  have hne : ino ≠ dir := fun heq => hnot (heq ▸ (hlive dir).mpr hdir)
  obtain ⟨hkept₂, hdata₂⟩ := hkept₁.tended.writeInodeData hG hM List.mem_cons_self
    (d := { fs₁.getInodeData ino with linksCount := (fs₁.getInodeData ino).linksCount + 1 })
    rfl rfl rfl
  refine (hkept₂.tended.edit hG hM hdirmem hfits).bind fun fs₃ h₃ => ?_
  obtain ⟨hkept₃, hkeeps₃⟩ := h₃
  have hsame : ∀ i ∈ live, (fs₁.link ino).getInodeData i = w.fs.getInodeData i := by
    intro i hi
    have hmem : i ∈ ino :: live := List.mem_cons_of_mem _ hi
    have hi' : i ≠ ino := fun heq => hnot (heq ▸ hi)
    exact (hkept₂.others i hmem hi').data.trans (hkept₁.others i hmem hi').data
  refine ⟨fun hnamed => hnot ((hlive ino).mpr hnamed), rfl, rfl,
    ⟨ino :: live, fun i => ?_, hkept₃.tended⟩, fun i hi => ?_, ?_⟩
  · simp [Named, hlive, eq_comm]
  · have hmem := (hlive i).mpr hi
    by_cases hid : i = dir
    · subst hid
      have hold := hsame i hmem
      refine ⟨?_, ?_, fun hreg => ?_⟩
      · exact hkeeps₃.mode.trans (congrArg InodeData.mode hold)
      · exact hkeeps₃.linksCount.trans (congrArg InodeData.linksCount hold)
      · rw [isReg_of_isDir hmode] at hreg
        cases hreg
    · exact .of_data ((hkept₃.others i (List.mem_cons_of_mem _ hmem) hid).data.trans (hsame i hmem))
  · have hthird := (hkept₃.others ino List.mem_cons_self hne).data
    simp only
    rw [hthird]
    change ((fs₁.writeInodeData ino _).getInodeData ino).linksCount = 1
    rw [hdata₂, hdata₁]
    rfl

theorem Added.named {w : Volume} {dir ino i : Nat} {name : String}
    (h : Added G M w v dir name ino) : v.Named i ↔ i = ino ∨ w.Named i := by
  simp [Named, h.records, eq_comm]

theorem Added.linked {w : Volume} {dir ino : Nat} {name : String}
    (h : Added G M w v dir name ino) (hw : Linked w) (hdir : w.Named dir)
    (hmode : isDir (w.fs.getInodeData dir).mode = true) : Linked v := by
  have hkept : ∀ d, w.Named d → isDir (w.fs.getInodeData d).mode = true →
      v.Named d ∧ isDir (v.fs.getInodeData d).mode = true := by
    intro d hd hisDir
    exact ⟨h.named.mpr (.inr hd), by rw [(h.stays d hd).mode]; exact hisDir⟩
  refine ⟨fun r hr => ?_, fun i hi hreg => ?_⟩
  · rw [h.records] at hr
    rcases List.mem_cons.mp hr with rfl | hr
    · exact hkept dir hdir hmode
    · exact hkept r.dir (hw.dirs r hr).1 (hw.dirs r hr).2
  · rw [h.records, List.countP_cons]
    by_cases hne : i = ino
    · subst hne
      have hzero : w.records.countP (·.inode == i) = 0 := by
        have hfresh := h.fresh
        rw [named_iff] at hfresh
        omega
      simp [h.links, hzero]
    · have hold := (h.named.mp hi).resolve_left hne
      rw [(h.stays i hold).mode] at hreg
      rw [(h.stays i hold).linksCount, hw.links i hold hreg]
      simp [Ne.symm hne]

theorem sysopen_inv (hG : G.Sound) (hM : G.Metadata M) {dir : Nat} {name : String} {creat : Bool}
    {edits : Edits} (h : Inv G M s) (hadmits : Admits s (.sysopen dir name creat edits))
    (hs : s.apply (.sysopen dir name creat edits) = .ok s') : Inv G M s' := by
  obtain ⟨v, hv, -⟩ := bind_eq_ok.mp hs
  have hcall : s.volume.sysopen dir name creat edits = .ok v := hv
  unfold Volume.sysopen at hcall
  split at hcall
  · obtain rfl := pure_eq_ok.mp hcall
    exact h.idle hs hv
  · rename_i hmode
    have hisDir : isDir (s.volume.fs.getInodeData dir).mode = true := by simpa using hmode
    split at hcall
    · rename_i r hfind
      obtain rfl := pure_eq_ok.mp hcall
      have hnamed : s.volume.Named r.inode := ⟨r, mem_of_find hfind, rfl⟩
      refine h.next hs hv h.tended (linked_opens h.linked _) (by simp [Volume.opens])
        (fun i hi h' hi' => ?_) fun i hi h' hi' => opens_holds hnamed hi hi'
      rw [opens_stream _ _ _ hi] at hi'
      exact ⟨h', hi', rfl, fun _ hholds _ => ⟨hholds.named, hholds.regular, hholds.inside⟩⟩
    · split at hcall
      · obtain ⟨⟨ino, w⟩, hadd, hcall⟩ := bind_eq_ok.mp hcall
        obtain rfl := pure_eq_ok.mp hcall
        obtain ⟨live, hlive, htended⟩ := h.tended
        have hadded : Added G M s.volume w dir name ino :=
          (addEntry_spec hG hM hlive htended hadmits.1 hisDir hadmits.2).of_ok hadd
        have hlength : w.streams.length = s.volume.streams.length := by rw [hadded.streams]
        have hlinked := hadded.linked h.linked hadmits.1 hisDir
        refine h.next hs hv hadded.tended (linked_opens hlinked _)
          (by simp [Volume.opens, hlength]) (fun i hi h' hi' => ?_) fun i hi h' hi' =>
            opens_holds (hadded.named.mpr (.inl rfl)) (hlength ▸ hi) hi'
        rw [opens_stream _ _ _ (hlength ▸ hi)] at hi'
        have hstream : w.stream i = s.volume.stream i := by
          rw [Volume.stream, Volume.stream, hadded.streams]
        refine ⟨h', hstream ▸ hi', rfl, fun _ hholds hnamed => ⟨hnamed, ?_, ?_⟩⟩
        · exact (hadded.stays _ hholds.named).mode ▸ hholds.regular
        · exact hholds.inside.trans ((hadded.stays _ hholds.named).size hholds.regular)
      · obtain rfl := pure_eq_ok.mp hcall
        exact h.idle hs hv

/-- A record is gone. The inode that it named is free when no other record names it, and has one
link less otherwise. -/
structure Removed (G : Geometry) (M : Nat → Prop) (w v : Volume) (r : Record) : Prop where
  records : v.records = w.records.erase r
  streams : v.streams = w.streams
  tended : ∃ live, (∀ i, i ∈ live ↔ v.Named i) ∧ v.fs.Tended G M live
  stays : ∀ i, v.Named i → i ≠ r.inode → w.Stays v i
  mode : v.Named r.inode → (v.fs.getInodeData r.inode).mode = (w.fs.getInodeData r.inode).mode
  size : v.Named r.inode → v.fs.getSize r.inode = w.fs.getSize r.inode
  links : v.Named r.inode → (v.fs.getInodeData r.inode).linksCount.toNat + 1 =
    (w.fs.getInodeData r.inode).linksCount.toNat

theorem countP_erase {l : List Record} {r : Record} (hr : r ∈ l) (i : Nat) :
    (l.erase r).countP (·.inode == i) + (if r.inode = i then 1 else 0) =
      l.countP (·.inode == i) := by
  rw [(List.perm_cons_erase hr).countP_eq, List.countP_cons]
  by_cases h : r.inode = i <;> simp [h]

/-- The inodes that are live after `unlink` are those that the other records name. -/
theorem unlink_named (hG : G.Sound) (hM : G.Metadata M) {w : Volume} {r : Record}
    (hlive : ∀ ino, ino ∈ live ↔ w.Named ino) (htended : w.fs.Tended G M live)
    (hlinked : Linked w) (hr : r ∈ w.records)
    (hreg : isReg (w.fs.getInodeData r.inode).mode = true) :
    ∃ fs' live', w.fs.unlink r.inode = .ok fs' ∧
      (∀ i, i ∈ live' ↔ 0 < (w.records.erase r).countP (·.inode == i)) ∧
      w.fs.Kept fs' G M live' r.inode ∧ (r.inode ∈ live' → fs'.getInodeData r.inode =
        { w.fs.getInodeData r.inode with
          linksCount := (w.fs.getInodeData r.inode).linksCount - 1 }) := by
  have hnamed : w.Named r.inode := ⟨r, hr, rfl⟩
  have hlinks := hlinked.links r.inode hnamed hreg
  have hlast := countP_erase hr r.inode
  rw [if_pos rfl] at hlast
  have hother : ∀ i, i ≠ r.inode →
      (w.records.erase r).countP (·.inode == i) = w.records.countP (·.inode == i) := by
    intro i hi
    have hcount := countP_erase hr i
    rwa [if_neg (Ne.symm hi)] at hcount
  obtain ⟨fs₁, heq, hunlink⟩ := htended.unlink hG hM ((hlive _).mpr hnamed)
  by_cases hone : (w.fs.getInodeData r.inode).linksCount = 1
  · rw [if_pos hone] at hunlink
    have hnot : r.inode ∉ live.erase r.inode := htended.wellFormed.nodup.not_mem_erase
    refine ⟨fs₁, live.erase r.inode, heq, fun i => ?_, hunlink, fun hmem => absurd hmem hnot⟩
    by_cases hi : i = r.inode
    · subst hi
      rw [hone] at hlinks
      have : (1 : UInt16).toNat = 1 := rfl
      exact ⟨fun hmem => absurd hmem hnot, fun hpos => by omega⟩
    · rw [hother i hi, List.mem_erase_of_ne hi, hlive, named_iff]
  · rw [if_neg hone] at hunlink
    refine ⟨fs₁, live, heq, fun i => ?_, hunlink.1, fun _ => hunlink.2⟩
    rw [hlive, named_iff]
    by_cases hi : i = r.inode
    · subst hi
      have : (w.fs.getInodeData r.inode).linksCount.toNat ≠ 1 := fun h => hone (UInt16.toNat_inj.mp h)
      omega
    · rw [hother i hi]

theorem removeEntry_spec (hG : G.Sound) (hM : G.Metadata M) {w : Volume} {r : Record}
    {edits : Edits} (hlive : ∀ ino, ino ∈ live ↔ w.Named ino) (htended : w.fs.Tended G M live)
    (hlinked : Linked w) (hr : r ∈ w.records)
    (hreg : isReg (w.fs.getInodeData r.inode).mode = true) (hfits : edits.Fits) :
    Ensures (w.removeEntry r edits) (fun _ => True) fun v => Removed G M w v r := by
  obtain ⟨hdir, hisDir⟩ := hlinked.dirs r hr
  have hne : r.dir ≠ r.inode := by
    intro heq
    rw [heq] at hisDir
    rw [isReg_of_isDir hisDir] at hreg
    cases hreg
  have hlinks := hlinked.links r.inode ⟨r, hr, rfl⟩ hreg
  obtain ⟨fs₁, live', heq, hlive', hkept, hdata⟩ :=
    unlink_named hG hM hlive htended hlinked hr hreg
  have hcount := countP_erase hr r.dir
  rw [if_neg (Ne.symm hne)] at hcount
  have hdirmem : r.dir ∈ live' := by
    rw [Nat.add_zero] at hcount
    rw [hlive', hcount]
    exact named_iff.mp hdir
  unfold removeEntry
  rw [heq, ok_bind]
  refine (hkept.tended.edit hG hM hdirmem hfits).bind fun fs₂ h₂ => ?_
  obtain ⟨hkept₂, hkeeps₂⟩ := h₂
  have hnamed : ∀ i, i ∈ live' ↔
      Named { w with fs := fs₂, records := w.records.erase r } i := fun i => by
    rw [hlive', named_iff]
  have hinode : r.inode ∈ live' → fs₂.getInodeData r.inode = { w.fs.getInodeData r.inode with
      linksCount := (w.fs.getInodeData r.inode).linksCount - 1 } := fun hmem =>
    (hkept₂.others _ hmem (Ne.symm hne)).data.trans (hdata hmem)
  refine ⟨rfl, rfl, ⟨live', hnamed, hkept₂.tended⟩, fun i hi hir => ?_, fun hi => ?_, fun hi => ?_,
    fun hi => ?_⟩
  · have hmem := (hnamed i).mpr hi
    have hfirst := (hkept.others i hmem hir).data
    by_cases hid : i = r.dir
    · subst hid
      refine ⟨?_, ?_, fun hreg' => ?_⟩
      · exact hkeeps₂.mode.trans (congrArg InodeData.mode hfirst)
      · exact hkeeps₂.linksCount.trans (congrArg InodeData.linksCount hfirst)
      · rw [isReg_of_isDir hisDir] at hreg'
        cases hreg'
    · exact .of_data ((hkept₂.others i hmem hid).data.trans hfirst)
  · simp only
    rw [hinode ((hnamed _).mpr hi)]
  · simp only [FS.getSize]
    rw [hinode ((hnamed _).mpr hi)]
    rfl
  · have hmem := (hnamed _).mpr hi
    have hpos := (hlive' _).mp hmem
    have hlast := countP_erase hr r.inode
    rw [if_pos rfl] at hlast
    simp only
    rw [hinode hmem]
    simp only
    rw [UInt16.toNat_sub_of_le]
    · have : (1 : UInt16).toNat = 1 := rfl
      omega
    · rw [UInt16.le_iff_toNat_le]
      have : (1 : UInt16).toNat = 1 := rfl
      omega

theorem Removed.named {w : Volume} {r : Record} (h : Removed G M w v r) {i : Nat}
    (hi : v.Named i) : w.Named i := by
  obtain ⟨r', hr', rfl⟩ := hi
  rw [h.records] at hr'
  exact ⟨r', List.mem_of_mem_erase hr', rfl⟩

theorem Removed.modes {w : Volume} {r : Record} (h : Removed G M w v r) {i : Nat}
    (hi : v.Named i) : (v.fs.getInodeData i).mode = (w.fs.getInodeData i).mode := by
  by_cases hne : i = r.inode
  · subst hne
    exact h.mode hi
  · exact (h.stays i hi hne).mode

theorem Removed.linked {w : Volume} {r : Record} (h : Removed G M w v r) (hw : Linked w)
    (hr : r ∈ w.records) (hreg : isReg (w.fs.getInodeData r.inode).mode = true) : Linked v := by
  refine ⟨fun r' hr' => ?_, fun i hi hregi => ?_⟩
  · have hr'' : r' ∈ w.records := by
      rw [h.records] at hr'
      exact List.mem_of_mem_erase hr'
    obtain ⟨hdir, hisDir⟩ := hw.dirs r' hr''
    have hne : r'.dir ≠ r.inode := by
      intro heq
      rw [heq] at hisDir
      rw [isReg_of_isDir hisDir] at hreg
      cases hreg
    have hcount := countP_erase hr r'.dir
    rw [if_neg (Ne.symm hne), Nat.add_zero] at hcount
    have hnamed : v.Named r'.dir := by
      rw [named_iff, h.records, hcount]
      exact named_iff.mp hdir
    exact ⟨hnamed, by rw [h.modes hnamed]; exact hisDir⟩
  · rw [h.modes hi] at hregi
    have hold := hw.links i (h.named hi) hregi
    have hcount := countP_erase hr i
    rw [h.records]
    by_cases hne : i = r.inode
    · subst hne
      have hlinks := h.links hi
      rw [if_pos rfl] at hcount
      omega
    · rw [if_neg (Ne.symm hne)] at hcount
      rw [(h.stays i hi hne).linksCount]
      omega

theorem sysunlink_inv (hG : G.Sound) (hM : G.Metadata M) {dir : Nat} {name : String}
    {edits : Edits} (h : Inv G M s) (hadmits : Admits s (.sysunlink dir name edits))
    (hs : s.apply (.sysunlink dir name edits) = .ok s') : Inv G M s' := by
  obtain ⟨v, hv, -⟩ := bind_eq_ok.mp hs
  have hcall : s.volume.sysunlink dir name edits = .ok v := hv
  unfold Volume.sysunlink at hcall
  split at hcall
  · obtain rfl := pure_eq_ok.mp hcall
    exact h.idle hs hv
  split at hcall
  · rename_i r hfind
    split at hcall
    · rename_i hreg
      have hr := mem_of_find hfind
      obtain ⟨live, hlive, htended⟩ := h.tended
      have hremoved : Removed G M s.volume v r :=
        (removeEntry_spec hG hM hlive htended h.linked hr hreg hadmits.2).of_ok hcall
      have hlength : v.streams.length = s.volume.streams.length := by rw [hremoved.streams]
      have hstream : ∀ i, v.stream i = s.volume.stream i := fun i => by
        rw [Volume.stream, Volume.stream, hremoved.streams]
      refine h.next hs hv hremoved.tended (hremoved.linked h.linked hr hreg) hlength.ge
        (fun i _ h' hi' => ?_) fun i hi h' hi' => ?_
      · refine ⟨h', (hstream i).symm.trans hi', rfl, fun _ hholds hnamed => ⟨hnamed, ?_, ?_⟩⟩
        · rw [hremoved.modes hnamed]
          exact hholds.regular
        · refine hholds.inside.trans ?_
          by_cases hne : h'.inode = r.inode
          · rw [hne] at hnamed ⊢
            exact (hremoved.size hnamed).ge
          · exact (hremoved.stays _ hnamed hne).size hholds.regular
      · have hlt := lt_of_stream hi'
        omega
    · obtain rfl := pure_eq_ok.mp hcall
      exact h.idle hs hv
  · obtain rfl := pure_eq_ok.mp hcall
    exact h.idle hs hv

theorem Inv.step (hG : G.Sound) (hM : G.Metadata M) (h : Inv G M s) (hadmits : Admits s c)
    (hcareful : Careful s c) (hs : s.apply c = .ok s') : Inv G M s' := by
  cases c with
  | sysopen dir name creat edits => exact sysopen_inv hG hM h hadmits hs
  | sysread i count => exact sysread_inv h hs
  | syswrite i bytes => exact syswrite_inv hG hM h hcareful hs
  | sysclose i => exact sysclose_inv h hs
  | sysunlink dir name edits => exact sysunlink_inv hG hM h hadmits hs

theorem Inv.start (hs : (machine G M).start s) : Inv G M s := by
  obtain ⟨htended, hlinked, hstreams, hopened⟩ := hs
  have hnone : ∀ i, s.volume.stream i = none := fun i => by simp [Volume.stream, hstreams]
  refine ⟨htended, hlinked, by rw [hstreams, hopened]; rfl, fun i h n hi => ?_, fun i h hi => ?_⟩
  · rw [hnone] at hi
    cases hi
  · rw [hnone] at hi
    cases hi

/-- A read that is careful returns bytes of the file that the stream was opened on, if any. -/
theorem sysread_respects (hG : G.Sound) {i count : Nat} (h : Inv G M s)
    (hcareful : Careful s (.sysread i count)) : Respects G s (.sysread i count) := by
  intro h₀ hi bytes hread hne
  obtain ⟨live, hlive, htended⟩ := h.tended
  simp only [Volume.sysread, hi] at hread
  unfold BytesStream.read at hread
  simp only at hread
  split at hread
  · exact absurd hread.symm hne
  rename_i hpos
  have hown : s.Own i h₀ := by
    rcases hcareful h₀ hi with hown | hzero | hend
    · exact hown
    · exact absurd (by simp [BytesStream.toRead, hzero]) hpos
    · refine absurd ?_ hpos
      have hlt := s.volume.fs.getSize_lt h₀.inode
      rw [BytesStream.toRead, hend, sub64_of_le (Nat.le_refl _) (by omega)]
      simp
  have hholds := h.holds i h₀ hi hown
  have htoRead := read_holds hholds count
  have hinside := hholds.inside
  set n := h₀.toRead s.volume.fs count
  have hn : h₀.addr + n ≤ s.volume.fs.getSize h₀.inode := by omega
  have hbytes := FS.iReadaddr_bytes hG htended.wellFormed.fit.geometry hn
  have hlength : bytes.length = n := by rw [← hread, hbytes]; simp
  refine ⟨hown, hlength ▸ hn, ?_⟩
  rw [hlength, ← hread, hbytes]

/-- A write that is careful changes the file that the stream was opened on only. -/
theorem syswrite_respects (hG : G.Sound) (hM : G.Metadata M) {i : Nat} {bytes : List UInt8}
    (h : Inv G M s) (hcareful : Careful s (.syswrite i bytes)) :
    Respects G s (.syswrite i bytes) := by
  intro h₀ hi v hwrite
  obtain ⟨live, hlive, htended⟩ := h.tended
  simp only [Volume.syswrite, hi] at hwrite
  obtain ⟨⟨fs₁, h₁⟩, hw, hv⟩ := bind_eq_ok.mp hwrite
  obtain rfl := pure_eq_ok.mp hv
  by_cases hnil : bytes = []
  · subst hnil
    obtain ⟨rfl, -⟩ := Prod.mk.inj (pure_eq_ok.mp hw)
    exact ⟨fun _ _ _ => ⟨rfl, rfl, fun _ _ => rfl⟩, fun _ _ _ => rfl⟩
  · obtain ⟨hown, hend⟩ := (hcareful h₀ hi).resolve_left hnil
    have hholds := h.holds i h₀ hi hown
    obtain ⟨hkept, -⟩ := (write_spec hG hM htended hlive hholds hnil hend).of_ok hw
    refine ⟨fun j hj hnot => hkept.others j ((hlive j).mpr hj) fun heq => hnot heq hown, fun hfree => ?_⟩
    exact absurd hholds.named hfree

/-- In every run that is careful, each access through a stream is one to the file that the stream
was opened on. -/
theorem run_handles (hG : G.Sound) (hM : G.Metadata M) {s : History}
    (hrun : (machine G M).Run Careful s) (hcareful : Careful s c) : Respects G s c := by
  have h : Inv G M s := hrun.invariant (fun _ => Inv.start) fun _ _ _ hinv hadmits hcareful happly =>
    hinv.step hG hM hadmits hcareful happly
  cases c with
  | sysread i count => exact sysread_respects hG h hcareful
  | syswrite i bytes => exact syswrite_respects hG hM h hcareful
  | sysopen | sysclose | sysunlink => trivial

/-- `small` with a directory, whose inode is 2. -/
def rooted : FS := (small.getNewDirectory 0 0 0x41ed).toOption.elim small Prod.snd

theorem rooted_tended : rooted.Tended small.geometry (· < 5) [2, 1] := by
  have hinode : (small.getNewDirectory 0 0 0x41ed).toOption.map Prod.fst = some 2 := by
    decide +kernel
  have hnew := FS.Owning.getNewDirectory small_sound small_metadata small_owning 0 0 0x41ed
  cases heq : small.getNewDirectory 0 0 0x41ed with
  | error e =>
    rw [heq] at hinode
    cases hinode
  | ok r =>
    rw [heq] at hinode hnew
    have hrooted : rooted = r.2 := by
      rw [rooted, heq]
      rfl
    have hfirst : r.1 = 2 := Option.some.inj hinode
    rw [hrooted, ← hfirst]
    exact FS.Owning.tended hnew

/-- The directory has a name for itself and one for inode 1. -/
def mounted : History where
  volume := { fs := rooted, records := [⟨2, ".", 2⟩, ⟨2, "lost", 1⟩], streams := [] }
  lost _ := 0
  opened := []

theorem mounted_start : (machine small.geometry (· < 5)).start mounted := by
  refine ⟨⟨[2, 1], fun ino => ?_, rooted_tended⟩, ⟨fun r hr => ?_, fun ino hino hreg => ?_⟩, rfl, rfl⟩
  · simp [Volume.Named, mounted, eq_comm]
  · have hdir : r.dir = 2 := by
      rcases List.mem_pair.mp hr with rfl | rfl <;> rfl
    rw [hdir]
    decide +kernel
  · have hnone : ∀ r ∈ mounted.volume.records,
        isReg (mounted.volume.fs.getInodeData r.inode).mode = false := by
      decide +kernel
    obtain ⟨r, hr, rfl⟩ := hino
    rw [hnone r hr] at hreg
    cases hreg

/-- How `addEntry` writes a one-letter name behind the entry `.`, and how `removeEntry` gives its
place back to that. -/
def letter (c : UInt8) : Edits :=
  [(12, DirectoryEntry.toList ⟨3, 2036, 1, ftRegFile⟩), (20, [c, 0]),
    (0, DirectoryEntry.toList ⟨2, 12, 1, ftDir⟩)]

def erased : Edits := [(0, DirectoryEntry.toList ⟨2, 2048, 1, ftDir⟩)]

/-- A file is written through one stream and read through another. -/
theorem run_handles_mounted : ∃ s, (machine small.geometry (· < 5)).Run Careful s ∧
    (s.volume.sysread 1 1).1 = [7] ∧ Careful s (.sysread 1 1) ∧
      Respects small.geometry s (.sysread 1 1) := by
  obtain ⟨s, hs, hP⟩ := Machine.exists_run (C := Careful)
    (fun s c (h : (decide (Admits s c) && decide (Careful s c)) = true) => by
      obtain ⟨hadmits, hcareful⟩ := Bool.and_eq_true_iff.mp h
      exact ⟨show Admits s c from of_decide_eq_true hadmits, of_decide_eq_true hcareful⟩) mounted_start
    [.sysopen 2 "a" true (letter 97), .syswrite 0 [7], .sysopen 2 "a" false []]
    (P := fun s => decide ((s.volume.sysread 1 1).1 = [7]) && decide (Careful s (.sysread 1 1)))
    (by decide +kernel)
  obtain ⟨hread, hcareful⟩ : (s.volume.sysread 1 1).1 = [7] ∧ Careful s (.sysread 1 1) := by
    simpa using hP
  exact ⟨s, hs, hread, hcareful, run_handles small_sound small_metadata hs hcareful⟩

/-- A file is removed and another one takes its inode: the stream that is still open reads that. -/
theorem reused_inode : ¬∀ s, (machine small.geometry (· < 5)).Run (fun _ _ => True) s →
    ∀ c, Respects small.geometry s c := by
  intro hall
  obtain ⟨s, hs, hP⟩ := Machine.exists_run (C := fun _ _ => True)
    (fun s c (h : decide (Admits s c) = true) =>
      ⟨show Admits s c from of_decide_eq_true h, trivial⟩) mounted_start
    [.sysopen 2 "a" true (letter 97), .sysunlink 2 "a" erased, .sysopen 2 "b" true (letter 98),
      .syswrite 1 [7]]
    (P := fun s => decide (s.volume.stream 0 = some ⟨3, 0⟩ ∧ (s.volume.sysread 0 1).1 = [7] ∧
      ¬s.Own 0 ⟨3, 0⟩)) (by decide +kernel)
  obtain ⟨hstream, hread, hnot⟩ := of_decide_eq_true hP
  exact hnot (hall s hs (.sysread 0 1) _ hstream _ hread (by decide)).1

end History

end SupOS.Ext2
