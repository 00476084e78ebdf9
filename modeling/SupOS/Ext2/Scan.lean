import SupOS.Ext2.Layout
import SupOS.Ext2.Tree
import SupOS.Lib.Chain
import SupOS.Lib.Outcome

/-! The scans of `Ext2::Directory`: the records of a directory, each of which tells where the next one
starts. -/

namespace SupOS.Ext2

open Lib

/-- The eight bytes of an entry as they are read from the disk. -/
def DirectoryEntry.ofBytes (b : Bytes) : DirectoryEntry where
  inode := UInt32.ofNat (b.word 0 4)
  recLen := UInt16.ofNat (b.word 4 2)
  nameLen := b 6
  type := b 7

/-- The address and the size of each call of `i_readaddr`. -/
abbrev Reads := List (Nat × Nat)

/-- What `read` leaves in a `dirent`: the entry and the bytes of `d_name` before the final 0. -/
abbrev Dirent := DirectoryEntry × List UInt8

/-- The string that starts with the bytes, up to the first 0. -/
def cString (bytes : List UInt8) : List UInt8 := bytes.takeWhile (· ≠ 0)

namespace FS

variable (fs : FS) (dir : Nat)

/-- `_data.blocks*512`, a product of 32 bits. The object's copy of the inode is the one on the disk, as
`i_readaddr` leaves it. -/
def scanEnd : Nat := u32 ((fs.getInodeData dir).blocks.toNat * 512)

/-- The entry at a position. Every position of 32 bits is one that the tree of blocks reaches. -/
def entryAt (pos : Nat) : DirectoryEntry := .ofBytes (.ofList (fs.iReadaddr dir pos 8))

/-- The name after an entry at a position. -/
def nameAt (pos : Nat) (e : DirectoryEntry) : List UInt8 := fs.iReadaddr dir (pos + 8) e.nameLen.toNat

/-- The position after the record at a position. -/
def nextRecord (pos : Nat) : Nat := u32 (pos + (fs.entryAt dir pos).recLen.toNat)

/-- The two calls of `i_readaddr` for the record at a position. -/
def recordReads (pos : Nat) : Reads := [(pos, 8), (pos + 8, (fs.entryAt dir pos).nameLen.toNat)]

/-- `read` from a position, in at most `fuel` rounds: what it returns, the position after it, and its
reads. -/
def readdir : Nat → Nat → Except Fault (Option Dirent × Nat × Reads)
  | 0, _ => .error .diverges
  | fuel + 1, pos =>
    if fs.scanEnd dir ≤ pos then return (none, pos, [])
    else
      let entry := fs.entryAt dir pos
      if entry.inode = 0 then do
        let (r, pos', reads) ← readdir fuel (fs.nextRecord dir pos)
        return (r, pos', fs.recordReads dir pos ++ reads)
      else return (some (entry, fs.nameAt dir pos entry), fs.nextRecord dir pos, fs.recordReads dir pos)

/-- A loop that calls `read` until it returns null, in at most `fuel` rounds of `rounds` each. -/
def readAll {α : Type} (f : α → Dirent → α) (rounds : Nat) : Nat → Nat → α → Except Fault (α × Reads)
  | 0, _, _ => .error .diverges
  | fuel + 1, pos, acc => do
    match ← fs.readdir dir rounds pos with
    | (none, _, reads) => return (acc, reads)
    | (some d, pos, reads) => do
      let (acc, reads') ← readAll f rounds fuel pos (f acc d)
      return (acc, reads ++ reads')

/-- The loop of `operator[]`, which keeps the inode of the last entry with the name. -/
def findInode (name : List UInt8) (rounds fuel : Nat) : Except Fault (UInt32 × Reads) :=
  fs.readAll dir (fun inode d => if cString d.2 = name then d.1.inode else inode) rounds fuel 0 0

/-- Where the loop of `addEntry` puts an entry of `neededSize` bytes after the record at a position. -/
def placeAfter (neededSize curPos : Nat) : Option Nat :=
  let entry := fs.entryAt dir curPos
  let nextPos := fs.nextRecord dir curPos
  let curSize := alignup (8 + entry.nameLen.toNat) 4
  let availableSize := u32 (entry.recLen.toNat + 2 ^ 32 - curSize)
  let atEnd := fs.scanEnd dir ≤ nextPos
  if atEnd ∨ neededSize < availableSize then
    if u32 (curPos + curSize) / fs.blockSize = u32 (curPos + curSize + neededSize) / fs.blockSize then
      some (u32 (curPos + curSize))
    else
      let targetPos := u32 (alignup (u32 (curPos + curSize)) fs.blockSize)
      if atEnd ∨ u32 (targetPos + neededSize) < nextPos then some targetPos else none
  else none

/-- The loop of `addEntry`: the record after which the new one is put, its place, and the reads. -/
def findPlace (neededSize : Nat) : Nat → Nat → Except Fault (Nat × Nat × Reads)
  | 0, _ => .error .diverges
  | fuel + 1, curPos =>
    if fs.scanEnd dir ≤ curPos then
      .error (.bsod "HDD::Ext2::Directory::addFile: It should be impossible to get here\n")
    else
      match fs.placeAfter dir neededSize curPos with
      | some targetPos => return (curPos, targetPos, [(curPos, 8)])
      | none => do
        let (pos, targetPos, reads) ← findPlace neededSize fuel (fs.nextRecord dir curPos)
        return (pos, targetPos, (curPos, 8) :: reads)

/-- As many bytes as there are in the data blocks that `blocks` counts together with the indirect blocks
above them. -/
def dataBytes : Nat :=
  let total := (fs.getInodeData dir).getBlockCount fs.sb
  Nat.findGreatest (fun k => fs.geometry.fileShape.total k ≤ total) total * fs.blockSize

/-- All reads lie within the data blocks. -/
def Inside (reads : Reads) : Prop := ∀ r ∈ reads, r.1 + r.2 ≤ fs.dataBytes dir

/-- The loop ends and reads within the data blocks. -/
def ReadsAll {α : Type} (f : α → Dirent → α) (acc : α) : Prop :=
  ∃ rounds fuel r, fs.readAll dir f rounds fuel 0 acc = .ok r ∧ fs.Inside dir r.2

/-- The loop of `addEntry` ends, in its `bsod` or with a place, and reads within the data blocks. -/
def FindsPlace (neededSize : Nat) : Prop :=
  ∃ fuel, (∃ r, fs.findPlace dir neededSize fuel 0 = .ok r ∧ fs.Inside dir r.2.2) ∨
    ∃ message, fs.findPlace dir neededSize fuel 0 = .error (.bsod message)

/-- The position of the `n`th record. -/
def recordPos (n : Nat) : Nat := (fs.nextRecord dir)^[n] 0

/-- Along the records from the start of the directory to the first that `stop` holds of: `inside` holds
of each below the end of the scan, and none of them is reached a second time. -/
def Along (stop inside : Nat → Prop) : Prop :=
  (∀ n, (∀ k < n, ¬stop (fs.recordPos dir k)) → fs.recordPos dir n < fs.scanEnd dir →
    inside (fs.recordPos dir n)) ∧
  ∀ m n, m < n → (∀ k ≤ n, ¬stop (fs.recordPos dir k)) → fs.recordPos dir m ≠ fs.recordPos dir n

/-- The record, with its name, lies within the data blocks. -/
def RecordInside (pos : Nat) : Prop :=
  pos + 8 + (fs.entryAt dir pos).nameLen.toNat ≤ fs.dataBytes dir

variable {fs dir} {α : Type} {f : α → Dirent → α} {acc : α} {stop inside : Nat → Prop}

/-! ### Chains of records -/

theorem along_iff : fs.Along dir stop inside ↔
    ∃ n, Linked (fs.nextRecord dir) stop (fun pos => pos < fs.scanEnd dir → inside pos) n 0 := by
  have hfin : {pos : Nat | pos < 2 ^ 32}.Finite := Set.finite_lt_nat _
  have hmem : ∀ n, (fs.nextRecord dir)^[n] 0 ∈ {pos : Nat | pos < 2 ^ 32} := by
    intro n
    cases n with
    | zero => exact Nat.two_pow_pos 32
    | succ n =>
      rw [Function.iterate_succ_apply']
      exact Nat.mod_lt _ (Nat.two_pow_pos 32)
  rw [exists_linked_iff, exists_stop_iff hfin hmem, and_comm]
  rfl

theorem inside_append {reads reads' : Reads} :
    fs.Inside dir (reads ++ reads') ↔ fs.Inside dir reads ∧ fs.Inside dir reads' :=
  List.forall_mem_append

theorem inside_record {pos : Nat} : fs.Inside dir (fs.recordReads dir pos) ↔ fs.RecordInside dir pos := by
  unfold Inside recordReads RecordInside
  rw [List.forall_mem_cons, List.forall_mem_singleton]
  dsimp only
  omega

/-- The records from a position on, as `read` goes through them. -/
abbrev Records (fs : FS) (dir n pos : Nat) : Prop :=
  Linked (fs.nextRecord dir) (fun pos => fs.scanEnd dir ≤ pos)
    (fun pos => pos < fs.scanEnd dir → fs.RecordInside dir pos) n pos

theorem records_stop {pos : Nat} (h : fs.scanEnd dir ≤ pos) : Records fs dir 0 pos :=
  .stop h fun hlt => absurd hlt (Nat.not_lt_of_le h)

/-! ### `read` and `operator[]` -/

/-- One call of `read` that ends within the data has followed the records. -/
theorem records_of_readdir {rounds pos pos' : Nat} {r : Option Dirent} {reads : Reads}
    (h : fs.readdir dir rounds pos = .ok (r, pos', reads)) (hin : fs.Inside dir reads)
    (hrest : r ≠ none → ∃ n, Records fs dir n pos') : ∃ n, Records fs dir n pos := by
  induction rounds generalizing pos reads with
  | zero => cases h
  | succ rounds ih =>
    rw [readdir] at h
    by_cases hend : fs.scanEnd dir ≤ pos
    · exact ⟨0, records_stop hend⟩
    rw [if_neg hend] at h
    by_cases hfree : (fs.entryAt dir pos).inode = 0
    · rw [if_pos hfree] at h
      obtain ⟨⟨r₁, pos₁, reads₁⟩, hnext, h⟩ := bind_eq_ok.mp h
      simp only [pure, Except.pure, Except.ok.injEq, Prod.mk.injEq] at h
      obtain ⟨rfl, rfl, rfl⟩ := h
      obtain ⟨hin₁, hin₂⟩ := inside_append.mp hin
      obtain ⟨n, hn⟩ := ih hnext hin₂
      exact ⟨n + 1, .next hend (fun _ => inside_record.mp hin₁) hn⟩
    · rw [if_neg hfree] at h
      simp only [pure, Except.pure, Except.ok.injEq, Prod.mk.injEq] at h
      obtain ⟨rfl, rfl, rfl⟩ := h
      obtain ⟨n, hn⟩ := hrest nofun
      exact ⟨n + 1, .next hend (fun _ => inside_record.mp hin) hn⟩

/-- Along records within the data, a call of `read` ends. -/
theorem readdir_of_records {n pos rounds : Nat} (h : Records fs dir n pos) (hrounds : n < rounds) :
    ∃ r pos' reads, fs.readdir dir rounds pos = .ok (r, pos', reads) ∧ fs.Inside dir reads ∧
      (r ≠ none → ∃ m < n, Records fs dir m pos') := by
  induction n generalizing pos rounds with
  | zero =>
    obtain ⟨rounds, rfl⟩ : ∃ k, rounds = k + 1 := ⟨rounds - 1, by omega⟩
    cases h with
    | stop hs hP =>
      exact ⟨none, pos, [], by rw [readdir, if_pos hs]; rfl, List.forall_mem_nil _, fun h => absurd rfl h⟩
  | succ n ih =>
    obtain ⟨rounds, rfl⟩ : ∃ k, rounds = k + 1 := ⟨rounds - 1, by omega⟩
    cases h with
    | next hs hP h =>
      have hrecord := inside_record.mpr (hP (Nat.lt_of_not_le hs))
      rw [readdir, if_neg hs]
      by_cases hfree : (fs.entryAt dir pos).inode = 0
      · obtain ⟨r, pos', reads, hread, hin, hrest⟩ := ih h (Nat.lt_of_succ_lt_succ hrounds)
        refine ⟨r, pos', _, ?_, inside_append.mpr ⟨hrecord, hin⟩, fun hr => ?_⟩
        · rw [if_pos hfree, hread]
          rfl
        · obtain ⟨m, hm, hrec⟩ := hrest hr
          exact ⟨m, Nat.lt_succ_of_lt hm, hrec⟩
      · exact ⟨_, _, _, by rw [if_neg hfree]; rfl, hrecord, fun _ => ⟨n, Nat.lt_succ_self n, h⟩⟩

theorem records_of_readAll {rounds fuel pos : Nat} {r : α × Reads}
    (h : fs.readAll dir f rounds fuel pos acc = .ok r) (hin : fs.Inside dir r.2) :
    ∃ n, Records fs dir n pos := by
  induction fuel generalizing pos acc r with
  | zero => cases h
  | succ fuel ih =>
    rw [readAll] at h
    obtain ⟨⟨d, pos', reads⟩, hread, h⟩ := bind_eq_ok.mp h
    cases d with
    | none =>
      obtain rfl := Except.ok.inj h
      exact records_of_readdir hread hin fun hne => absurd rfl hne
    | some d =>
      obtain ⟨⟨acc', reads'⟩, hrest, h⟩ := bind_eq_ok.mp h
      obtain rfl := Except.ok.inj h
      obtain ⟨hin₁, hin₂⟩ := inside_append.mp hin
      exact records_of_readdir hread hin₁ fun _ => ih hrest hin₂

theorem readAll_of_records {n rounds fuel pos : Nat} (h : Records fs dir n pos) (hrounds : n < rounds)
    (hfuel : n < fuel) : ∃ r, fs.readAll dir f rounds fuel pos acc = .ok r ∧ fs.Inside dir r.2 := by
  induction fuel generalizing n pos acc with
  | zero => omega
  | succ fuel ih =>
    obtain ⟨d, pos', reads, hread, hin, hrest⟩ := readdir_of_records h hrounds
    rw [readAll, hread]
    cases d with
    | none => exact ⟨_, rfl, hin⟩
    | some d =>
      obtain ⟨m, hm, hrec⟩ := hrest nofun
      obtain ⟨⟨acc', reads'⟩, hall, hin'⟩ : ∃ r, fs.readAll dir f rounds fuel pos' (f acc d) = .ok r ∧
          fs.Inside dir r.2 := ih hrec (by omega) (by omega)
      refine ⟨(acc', reads ++ reads'), ?_, inside_append.mpr ⟨hin, hin'⟩⟩
      simp only [ok_bind, hall]
      rfl

theorem readsAll_iff : fs.ReadsAll dir f acc ↔
    fs.Along dir (fun pos => fs.scanEnd dir ≤ pos) (fs.RecordInside dir) := by
  rw [along_iff]
  constructor
  · rintro ⟨rounds, fuel, r, h, hin⟩
    exact records_of_readAll h hin
  · rintro ⟨n, h⟩
    obtain ⟨r, hr, hin⟩ := readAll_of_records h (Nat.lt_succ_self n) (Nat.lt_succ_self n)
    exact ⟨n + 1, n + 1, r, hr, hin⟩

/-! ### `addEntry` -/

/-- The loop of `addEntry` stops after the record at a position. -/
def Places (fs : FS) (dir neededSize pos : Nat) : Prop :=
  fs.scanEnd dir ≤ pos ∨ fs.placeAfter dir neededSize pos ≠ none

/-- The records from a position on, as the loop of `addEntry` goes through them. -/
abbrev Headers (fs : FS) (dir neededSize n pos : Nat) : Prop :=
  Linked (fs.nextRecord dir) (Places fs dir neededSize)
    (fun pos => pos < fs.scanEnd dir → pos + 8 ≤ fs.dataBytes dir) n pos

variable {neededSize : Nat}

theorem headers_of_findPlace {fuel pos : Nat} {r : Nat × Nat × Reads}
    (h : fs.findPlace dir neededSize fuel pos = .ok r) (hin : fs.Inside dir r.2.2) :
    ∃ n, Headers fs dir neededSize n pos := by
  induction fuel generalizing pos r with
  | zero => cases h
  | succ fuel ih =>
    rw [findPlace] at h
    by_cases hend : fs.scanEnd dir ≤ pos
    · rw [if_pos hend] at h
      cases h
    rw [if_neg hend] at h
    cases hplace : fs.placeAfter dir neededSize pos with
    | some target =>
      rw [hplace] at h
      obtain rfl := Except.ok.inj h
      exact ⟨0, .stop (.inr (by rw [hplace]; exact nofun)) fun _ => hin _ List.mem_cons_self⟩
    | none =>
      rw [hplace] at h
      obtain ⟨⟨pos', target, reads⟩, hnext, h⟩ := bind_eq_ok.mp h
      obtain rfl := Except.ok.inj h
      obtain ⟨hhead, hin'⟩ := List.forall_mem_cons.mp hin
      obtain ⟨n, hn⟩ := ih hnext hin'
      have hno : ¬Places fs dir neededSize pos := fun hp =>
        hp.elim hend fun hp => hp hplace
      exact ⟨n + 1, .next hno (fun _ => hhead) hn⟩

/-- A loop that goes on has a next record below the end. -/
theorem next_of_placeAfter {pos : Nat} (h : fs.placeAfter dir neededSize pos = none) :
    fs.nextRecord dir pos < fs.scanEnd dir := by
  by_contra hle
  have hend : fs.scanEnd dir ≤ fs.nextRecord dir pos := Nat.le_of_not_lt hle
  unfold placeAfter at h
  simp only [hend, true_or, if_true] at h
  split_ifs at h

/-- The `bsod` of the loop is that of a directory without blocks. -/
theorem end_of_bsod {fuel pos : Nat} {message : String}
    (h : fs.findPlace dir neededSize fuel pos = .error (.bsod message)) : fs.scanEnd dir ≤ pos := by
  induction fuel generalizing pos with
  | zero => cases h
  | succ fuel ih =>
    by_contra hend
    rw [findPlace, if_neg hend] at h
    cases hplace : fs.placeAfter dir neededSize pos with
    | some target =>
      rw [hplace] at h
      cases h
    | none =>
      rw [hplace] at h
      have hlt := next_of_placeAfter hplace
      cases hnext : fs.findPlace dir neededSize fuel (fs.nextRecord dir pos) with
      | ok r =>
        simp only [hnext, ok_bind] at h
        cases h
      | error e =>
        simp only [hnext, error_bind, Except.error.injEq] at h
        subst h
        exact absurd hlt (Nat.not_lt_of_le (ih hnext))

theorem findPlace_of_headers {n fuel pos : Nat} (h : Headers fs dir neededSize n pos) (hfuel : n < fuel) :
    (∃ r, fs.findPlace dir neededSize fuel pos = .ok r ∧ fs.Inside dir r.2.2) ∨
      ∃ message, fs.findPlace dir neededSize fuel pos = .error (.bsod message) := by
  induction n generalizing pos fuel with
  | zero =>
    obtain ⟨fuel, rfl⟩ : ∃ k, fuel = k + 1 := ⟨fuel - 1, by omega⟩
    cases h with
    | stop hs hP =>
      rw [findPlace]
      by_cases hend : fs.scanEnd dir ≤ pos
      · exact .inr ⟨_, by rw [if_pos hend]⟩
      · obtain ⟨target, hplace⟩ := Option.ne_none_iff_exists'.mp (hs.resolve_left hend)
        refine .inl ⟨_, by rw [if_neg hend, hplace]; rfl, ?_⟩
        exact List.forall_mem_singleton.mpr (hP (Nat.lt_of_not_le hend))
  | succ n ih =>
    obtain ⟨fuel, rfl⟩ : ∃ k, fuel = k + 1 := ⟨fuel - 1, by omega⟩
    cases h with
    | next hs hP h =>
      have hend : ¬fs.scanEnd dir ≤ pos := fun hle => hs (.inl hle)
      have hplace : fs.placeAfter dir neededSize pos = none := by
        by_contra hne
        exact hs (.inr hne)
      rw [findPlace, if_neg hend, hplace]
      rcases ih h (Nat.lt_of_succ_lt_succ hfuel) with ⟨r, hr, hin⟩ | ⟨message, hr⟩
      · refine .inl ⟨(r.1, r.2.1, (pos, 8) :: r.2.2), ?_, ?_⟩
        · simp only [hr, ok_bind]
          rfl
        · exact List.forall_mem_cons.mpr ⟨hP (Nat.lt_of_not_le hend), hin⟩
      · exact .inr ⟨message, by simp only [hr, error_bind]⟩

theorem findsPlace_iff : fs.FindsPlace dir neededSize ↔
    fs.Along dir (Places fs dir neededSize) fun pos => pos + 8 ≤ fs.dataBytes dir := by
  rw [along_iff]
  constructor
  · rintro ⟨fuel, ⟨r, h, hin⟩ | ⟨message, h⟩⟩
    · exact headers_of_findPlace h hin
    · have hend := end_of_bsod h
      exact ⟨0, .stop (.inl hend) fun hlt => absurd hlt (Nat.not_lt_of_le hend)⟩
  · rintro ⟨n, h⟩
    exact ⟨n + 1, findPlace_of_headers h (Nat.lt_succ_self n)⟩

/-- Records that are not empty, in a scan that ends 2 ^ 16 below the end of the 32-bit positions, never
lead back. -/
theorem recordPos_ne (hlimit : fs.scanEnd dir + 2 ^ 16 ≤ 2 ^ 32)
    (hrec : ∀ n, fs.recordPos dir n < fs.scanEnd dir →
      (fs.entryAt dir (fs.recordPos dir n)).recLen ≠ 0) {m n : Nat} (hmn : m < n)
    (hno : ∀ k ≤ n, ¬fs.scanEnd dir ≤ fs.recordPos dir k) :
    fs.recordPos dir m < fs.recordPos dir n := by
  induction n with
  | zero => omega
  | succ n ih =>
    have hlt : fs.recordPos dir n < fs.scanEnd dir := Nat.lt_of_not_le (hno n (Nat.le_succ n))
    have hlen : 0 < (fs.entryAt dir (fs.recordPos dir n)).recLen.toNat := by
      refine Nat.pos_of_ne_zero fun hzero => hrec n hlt ?_
      exact UInt16.toNat_inj.mp hzero
    have hbound := (fs.entryAt dir (fs.recordPos dir n)).recLen.toNat_lt
    have hstep : fs.recordPos dir (n + 1) =
        fs.recordPos dir n + (fs.entryAt dir (fs.recordPos dir n)).recLen.toNat := by
      rw [recordPos, Function.iterate_succ_apply']
      exact Nat.mod_eq_of_lt (Nat.lt_of_lt_of_le (Nat.add_lt_add hlt hbound) hlimit)
    rcases Nat.eq_or_lt_of_le (Nat.le_of_lt_succ hmn) with rfl | hlt'
    · omega
    · have hm := ih hlt' fun k hk => hno k (Nat.le_succ_of_le hk)
      omega

/-- The small file system, where inode 2 has one block, which is full of zeros. -/
def zeroed : FS := { small with part := fun a => if a = 8348 then 4 else small.part a }

end FS

end SupOS.Ext2
