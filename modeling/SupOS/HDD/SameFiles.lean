import SupOS.Ext2.RegularFile
import SupOS.Ext2.Ownership
import SupOS.RamFS.RegularFile
import SupOS.Lib.Machine

/-! A regular file of ext2 and one of the file system in memory under the same calls. -/

namespace SupOS.HDD

open Lib Libcpp SupOS.Ext2

variable {G : Geometry} {M : Nat → Prop} {ino room : Nat} {junk : Nat → UInt8} {l : List UInt8}

/-- The class `RegularFile` of `HDD/Ext2.h`, for inode `ino`. -/
def ext2Call (ino : Nat) (fs : Ext2.FS) : FileCall → Except Fault (Ext2.FS × FileReply)
  | .resize size => do return (← fs.iResize ino size, .nothing)
  | .writeaddr addr bytes => do return (← fs.iWriteaddr ino addr bytes, .nothing)
  | .readaddr addr size => return (fs, .bytes (fs.iReadaddr ino addr size))
  | .getSize => return (fs, .size (fs.getSize ino))

/-- The class `RegularFile` of `HDD/RamFS.h`. -/
def ramCall (room : Nat) (junk : Nat → UInt8) (f : RamFS.RegularFile) :
    FileCall → Except Fault (RamFS.RegularFile × FileReply)
  | .resize size => do return (← RamFS.RegularFile.resize room junk f size, .nothing)
  | .writeaddr addr bytes => do return (← RamFS.RegularFile.writeaddr room junk f addr bytes, .nothing)
  | .readaddr addr size => do
    let (bytes, f) ← RamFS.RegularFile.readaddr room junk f addr size
    return (f, .bytes bytes)
  | .getSize => return (f, .size (RamFS.RegularFile.getSize f))

namespace FileCall

/-- What a call does to the bytes of a file, and what it returns, where the file does not grow without
being written. -/
def onList (l : List UInt8) : FileCall → List UInt8 × FileReply
  | resize size => (l.take size, .nothing)
  | writeaddr addr bytes => (overwrite l addr bytes, .nothing)
  | readaddr addr size => (l, .bytes ((l.drop addr).take size))
  | getSize => (l, .size l.length)

/-- The calls that may be made on a file: sizes have 64 bits, and reads are in its range. -/
def Admits (size : Nat) : FileCall → Prop
  | resize n => n < 2 ^ 64
  | writeaddr addr bytes => addr + bytes.length < 2 ^ 64
  | readaddr addr n => addr + n ≤ size
  | getSize => True

/-- The file does not grow but by the bytes that are written, and `strategy` can give the room. -/
def Careful (f : RamFS.RegularFile) : FileCall → Prop
  | resize n => n ≤ f.size
  | writeaddr addr bytes =>
    addr ≤ f.size ∧ (addr + bytes.length ≤ f.size ∨ f.Grants (addr + bytes.length))
  | readaddr _ _ | getSize => True

end FileCall

instance (size : Nat) (c : FileCall) : Decidable (c.Admits size) := by
  unfold FileCall.Admits
  split <;> infer_instance

instance (f : RamFS.RegularFile) (c : FileCall) : Decidable (c.Careful f) := by
  unfold FileCall.Careful
  split <;> infer_instance

theorem ext2Call_spec (hG : G.Sound) (hM : G.Metadata M) {fs : Ext2.FS} {f : RamFS.RegularFile}
    (h : fs.Contains G M ino l) (hf : f.Holds l) {c : FileCall} (ha : c.Admits f.size)
    (hc : c.Careful f) : Ensures (ext2Call ino fs c) (· = .bsod "No space on disk :-(")
      fun r => r.1.Contains G M ino (c.onList l).1 ∧ r.2 = (c.onList l).2 := by
  have hlt := hf.length_lt
  rw [hf.size] at ha
  cases c with
  | resize n =>
    have hn : n ≤ l.length := hf.size ▸ hc
    obtain ⟨k, hk, hB, -⟩ := hG.blockSize
    have hpow : 2 ^ k ≤ 2 ^ 6 := Nat.pow_le_pow_right (by decide) hk
    obtain ⟨fs', heq, h'⟩ := h.iResize hG hM (by omega) hn
    rw [ext2Call, heq]
    exact ⟨h', rfl⟩
  | writeaddr addr bytes =>
    obtain ⟨haddr, hroom⟩ := hc
    rw [hf.size] at haddr hroom
    have hend : addr + bytes.length < 2 ^ 30 := by
      rcases hroom with hle | hgrants
      · omega
      · exact hf.lt_of_grants hgrants
    exact (h.iWriteaddr hG hM haddr (by omega)).bind fun fs' h' => ⟨h', rfl⟩
  | readaddr addr n =>
    refine ⟨h, ?_⟩
    rw [h.iReadaddr hG ha]
    rfl
  | getSize => exact ⟨h, congrArg FileReply.size h.size⟩

theorem ramCall_spec {f : RamFS.RegularFile} (h : f.Holds l) {c : FileCall} (ha : c.Admits f.size)
    (hc : c.Careful f) : Ensures (ramCall room junk f c) (· = .outOfMemory)
      fun r => r.1.Holds (c.onList l).1 ∧ r.2 = (c.onList l).2 := by
  rw [h.size] at ha
  cases c with
  | resize n =>
    have hn : n ≤ l.length := h.size ▸ hc
    exact (RamFS.shrink_spec h hn).bind fun f' h' => ⟨h', rfl⟩
  | writeaddr addr bytes =>
    obtain ⟨haddr, hroom⟩ := hc
    rw [h.size] at haddr hroom
    exact (RamFS.writeaddr_spec h haddr hroom).bind fun f' h' => ⟨h', rfl⟩
  | readaddr addr n =>
    refine (RamFS.readaddr_spec h ha).bind fun r hr => ⟨hr.2, ?_⟩
    rw [hr.1]
    rfl
  | getSize => exact ⟨h, congrArg FileReply.size h.size⟩

/-! ### Runs -/

/-- No room is left for a call, on the disk or in memory. -/
def NoRoom (e : Fault) : Prop := e = .bsod "No space on disk :-(" ∨ e = .outOfMemory

/-- The replies of both files to a call. -/
def replies (ino room : Nat) (junk : Nat → UInt8) (s : Ext2.FS × RamFS.RegularFile) (c : FileCall) :
    Except Fault (FileReply × FileReply) := do
  let r ← ext2Call ino s.1 c
  let r' ← ramCall room junk s.2 c
  return (r.2, r'.2)

/-- An empty file of each kind, and the calls that both are given; a command says what memory is left and
what it holds. -/
def sameCalls (G : Geometry) (M : Nat → Prop) (ino : Nat) :
    Lib.Machine (Ext2.FS × RamFS.RegularFile) (Nat × (Nat → UInt8) × FileCall) Fault where
  start s := s.1.Intact G M ino ∧ s.1.getSize ino = 0 ∧ s.2 = .empty
  admits s c := c.2.2.Admits s.2.size
  apply s c := do
    let r ← ext2Call ino s.1 c.2.2
    let r' ← ramCall c.1 c.2.1 s.2 c.2.2
    return (r.1, r'.1)

/-- A file that `getNewFile` makes is such an empty file. -/
theorem getNewFile_fresh (hG : G.Sound) (hM : G.Metadata M) {fs : Ext2.FS} {live : List Nat}
    (h : fs.Owning G M live) {uid gid mode : UInt16} {r : Nat × Ext2.FS}
    (heq : fs.getNewFile uid gid mode = .ok r) :
    (sameCalls G M r.1).start (r.2, .empty) := by
  have howning := (h.getNewFile hG hM uid gid mode).of_ok heq
  refine ⟨howning.wellFormed.intact List.mem_cons_self, ?_, rfl⟩
  rw [Ext2.FS.getNewFile] at heq
  obtain ⟨-, -, heq⟩ := bind_eq_ok.mp heq
  obtain ⟨⟨inode, fs1⟩, hnew, heq⟩ := bind_eq_ok.mp heq
  obtain rfl := Except.ok.inj heq
  obtain ⟨hnot, hi, hused, h1⟩ := (h.getNewInode hG hM false).of_ok hnew
  obtain ⟨-, -, hdata⟩ := h1.store hG hM hnot hi hused (.fresh uid gid mode)
  dsimp only at hdata
  rw [Ext2.FS.getSize, hdata]
  rfl

/-- In every state of a run whose calls meet the condition, both files have one size, and they reply alike
to the next call that meets it, unless no room is left. -/
theorem run_same_files (hG : G.Sound) (hM : G.Metadata M) {s : Ext2.FS × RamFS.RegularFile}
    (hr : (sameCalls G M ino).Run (fun s c => c.2.2.Careful s.2) s) :
    s.1.getSize ino = RamFS.RegularFile.getSize s.2 ∧ ∀ room junk c, c.Admits s.2.size →
      c.Careful s.2 → Ensures (replies ino room junk s c) NoRoom fun r => r.1 = r.2 := by
  obtain ⟨l, h, hf⟩ : ∃ l, s.1.Contains G M ino l ∧ s.2.Holds l := by
    refine hr.invariant (I := fun s => ∃ l, s.1.Contains G M ino l ∧ s.2.Holds l) ?_ ?_
    · rintro s ⟨hintact, hsize, hempty⟩
      exact ⟨[], .nil hintact hsize, .inl ⟨hempty, rfl⟩⟩
    · rintro s s' c ⟨l, h, hf⟩ ha hc happly
      obtain ⟨r, hr, happly⟩ := bind_eq_ok.mp happly
      obtain ⟨r', hr', hs'⟩ := bind_eq_ok.mp happly
      obtain rfl := Except.ok.inj hs'
      exact ⟨_, ((ext2Call_spec hG hM h hf ha hc).of_ok hr).1, ((ramCall_spec hf ha hc).of_ok hr').1⟩
  refine ⟨h.size.trans hf.size.symm, fun room junk c ha hc => ?_⟩
  refine ((ext2Call_spec hG hM h hf ha hc).mono (fun _ he => .inl he) fun _ hr => hr).bind fun r hr => ?_
  refine ((ramCall_spec hf ha hc).mono (fun _ he => .inr he) fun _ hr => hr).bind fun r' hr' => ?_
  exact hr.2.trans hr'.2.symm

theorem small_start : (sameCalls small.geometry (· < 5) 1).start (small, .empty) :=
  ⟨small_wellFormed.intact (List.mem_singleton.mpr rfl), by
    rw [Ext2.FS.getSize, InodeData.getSize, small_inode.1]
    rfl, rfl⟩

theorem careful_of_check {s : Ext2.FS × RamFS.RegularFile} {c : Nat × (Nat → UInt8) × FileCall}
    (hc : decide (c.2.2.Admits s.2.size ∧ c.2.2.Careful s.2) = true) :
    c.2.2.Admits s.2.size ∧ c.2.2.Careful s.2 := of_decide_eq_true hc

/-- Both files are written, cut, written at the end, and read. -/
theorem run_same_files_small : ∃ s,
    (sameCalls small.geometry (· < 5) 1).Run (fun s c => c.2.2.Careful s.2) s ∧ s.2.size = 3 ∧
      Ensures (replies 1 4096 (fun _ => 0) s (.readaddr 1 2)) NoRoom fun r => r.1 = r.2 := by
  obtain ⟨s, hs, hP⟩ := Lib.Machine.exists_run (M := sameCalls small.geometry (· < 5) 1)
    (fun s c hc => careful_of_check hc) small_start
    [(4096, fun _ => 0, .writeaddr 0 [7, 8]), (4096, fun _ => 0, .resize 1),
      (4096, fun _ => 0, .writeaddr 1 [9, 10])]
    (P := fun s => decide (s.2.size = 3)) (by decide +kernel)
  have hsize : s.2.size = 3 := of_decide_eq_true hP
  exact ⟨s, hs, hsize, (run_same_files small_sound small_metadata hs).2 4096 (fun _ => 0) (.readaddr 1 2)
    (show 1 + 2 ≤ s.2.size by omega) trivial⟩

/-- A file that is cut and grows again shows its old bytes on ext2, and zeros in memory. -/
theorem resize_shows_old_bytes : ¬∀ s, (sameCalls small.geometry (· < 5) 1).Run (fun _ _ => True) s →
    ∀ c, c.Admits s.2.size → Ensures (replies 1 4096 (fun _ => 0) s c) NoRoom fun r => r.1 = r.2 := by
  intro hall
  obtain ⟨s, hs, hP⟩ := Lib.Machine.exists_run (M := sameCalls small.geometry (· < 5) 1) (C := fun _ _ => True)
    (fun s c (hc : decide (c.2.2.Admits s.2.size) = true) =>
      ⟨of_decide_eq_true (p := c.2.2.Admits s.2.size) hc, trivial⟩) small_start
    [(4096, fun _ => 0, .writeaddr 0 [7, 8]), (4096, fun _ => 0, .resize 1),
      (4096, fun _ => 0, .resize 2)]
    (P := fun s => decide (s.2.size = 2 ∧
      (replies 1 4096 (fun _ => 0) s (.readaddr 1 1)).toOption = some (.bytes [8], .bytes [0])))
    (by decide +kernel)
  obtain ⟨hsize, hreplies⟩ := of_decide_eq_true (p := s.2.size = 2 ∧
    (replies 1 4096 (fun _ => 0) s (.readaddr 1 1)).toOption = some (.bytes [8], .bytes [0])) hP
  have hok := hall s hs (.readaddr 1 1) (show 1 + 1 ≤ s.2.size by omega)
  rw [toOption_eq_some.mp hreplies] at hok
  cases hok

end SupOS.HDD
