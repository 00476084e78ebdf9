import SupOS.VFS.Mounts

/-! The parent of the root of a mounted file system, when each directory is mounted at most once. -/

namespace SupOS.VFS

open Lib Libcpp

variable {φ : Type} {disk : φ → FileSystem} {s s' : FS φ} {d y : Directory φ} {name : String}

/-- The directory is the root of a file system that is mounted. -/
def Directory.MountedRoot (disk : φ → FileSystem) (d : Directory φ) : Prop :=
  0 < d.dev ∧ d.inode = (disk d.fs).root

namespace FS

/-- Nothing is mounted on the directory yet. -/
def Once (s : FS φ) (c : Mount φ) : Prop := s.toMounted c.dir.inode c.dir.dev = none

/-- The pairs of the second map are the first one's, turned around. -/
def Paired (s : FS φ) : Prop := ∀ k c, s.reverseMountedDirs.find k = some c →
  ∃ p, s.mountedDirs.find c.key = some p ∧ p.key = k

theorem Mounted.paired {dir : Pointer φ} {fs : φ} (hp : s.Paired)
    (hnone : s.mountedDirs.find dir.key = none) (hm : s.Mounted disk s' dir fs) : s'.Paired := by
  intro k c hc
  obtain hold | ⟨rfl, rfl⟩ := hm.covered_cases hc
  · obtain ⟨p, hfind, hkey⟩ := hp k c hold
    refine ⟨p, ?_, hkey⟩
    rw [hm.mounted, hfind]
    rfl
  · refine ⟨⟨⟨fs, (disk fs).root, s.nextDev⟩, s.objects⟩, ?_, rfl⟩
    rw [hm.mounted, hnone]
    simp

theorem run_paired (h : (machine disk).Run Once s) : s.Valid disk ∧ s.Paired := by
  refine h.invariant (I := fun s => s.Valid disk ∧ s.Paired) (fun s hs => ?_)
    fun s s' c hI ha hC hs => ?_
  · obtain ⟨root, rfl⟩ := hs
    exact ⟨valid_new root, fun k c hc => by cases hc⟩
  · have hm := (mounted_of_apply hI.1 ha hs).2
    exact ⟨hm.valid hI.1 ha.dir, hm.paired hI.2 hC⟩

/-- `fromMounted` tells the mounted roots. -/
theorem Valid.fromMounted_isSome (hv : s.Valid disk) (hd : s.Device d.fs d.dev) :
    (s.fromMounted d.inode d.dev).isSome ↔ d.MountedRoot disk := by
  constructor
  · intro h
    obtain ⟨c, hc⟩ := Option.isSome_iff_exists.mp h
    have hpos : c.dev < d.dev := (hv.covered _ c hc).1
    refine ⟨by omega, ?_⟩
    obtain ⟨hzero, _⟩ | ⟨k, p, hp, hdev, hfs⟩ := hd
    · omega
    · obtain ⟨_, _, hroot, c', hc', _⟩ := hv.mounted k p hp
      have hkey := hv.covered_unique _ c' _ c hc' hc hdev
      rw [← hfs, ← hroot]
      exact (congrArg Prod.snd hkey).symm
  · intro h
    obtain ⟨hzero, _⟩ | ⟨k, p, hp, hdev, hfs⟩ := hd
    · exact absurd h.1 (by omega)
    · obtain ⟨_, _, hroot, c, hc, _⟩ := hv.mounted k p hp
      have hkey : (d.dev, d.inode) = p.key := by
        rw [h.2, ← hfs, ← hroot, ← hdev]
        rfl
      rw [fromMounted, hkey, hc]
      rfl

/-- A directory that is not a mounted root, or a name other than `..`, is searched below. -/
theorem Valid.searches_self (hv : s.Valid disk) (hd : s.Device d.fs d.dev)
    (h : ¬(name = ".." ∧ d.MountedRoot disk)) : s.Searches name d d := by
  refine .here (Option.eq_none_iff_forall_not_mem.mpr fun y hy => h ?_)
  obtain ⟨hname, c, hc, _⟩ := above_eq_some hy
  exact ⟨hname, (hv.fromMounted_isSome hd).mp (by simp [hc])⟩

/-- What holds of `..` in the roots of mounted file systems, of the two maps, and of the lookups
that no mount concerns. -/
structure Parents (disk : φ → FileSystem) (s : FS φ) : Prop where
  root : ∀ d, s.Device d.fs d.dev → d.MountedRoot disk → ∃ c,
    s.fromMounted d.inode d.dev = some c ∧ s.find disk d ".." = s.find disk c.toDirectory ".."
  top : ∀ d, s.Device d.fs d.dev → ∃ y, s.Searches ".." d y ∧ ¬y.MountedRoot disk ∧
    s.find disk d ".." = .ok (s.findBelow disk y "..")
  from_to : ∀ inode dev p, s.toMounted inode dev = some p →
    ∃ c, s.fromMounted p.inode p.dev = some c ∧ c.key = (dev, inode)
  to_from : ∀ inode dev c, s.fromMounted inode dev = some c →
    ∃ p, s.toMounted c.inode c.dev = some p ∧ p.key = (dev, inode)
  below_none : ∀ d name, s.Device d.fs d.dev → ¬(name = ".." ∧ d.MountedRoot disk) →
    (disk d.fs).find d.inode name = none → s.find disk d name = .ok none
  below_some : ∀ d name e, s.Device d.fs d.dev → ¬(name = ".." ∧ d.MountedRoot disk) →
    (disk d.fs).find d.inode name = some e → s.toMounted e.inode d.dev = none →
      s.find disk d name = .ok (some (.made ⟨d.fs, e.inode, e.type, d.dev⟩))

/-- A lookup of `..` in a mounted root is one in the directory that it covers. -/
theorem Valid.find_root (hv : s.Valid disk) (hd : s.Device d.fs d.dev)
    (hroot : d.MountedRoot disk) : ∃ c, s.fromMounted d.inode d.dev = some c ∧
      s.find disk d ".." = s.find disk c.toDirectory ".." := by
  obtain ⟨c, hc⟩ := Option.isSome_iff_exists.mp ((hv.fromMounted_isSome hd).mpr hroot)
  refine ⟨c, hc, ?_⟩
  obtain ⟨y, hy, _, heq⟩ := hv.find_eq (hv.covered _ c hc).2.2 ".."
  have habove : s.above d ".." = some c.toDirectory := by
    unfold above
    rw [if_pos rfl, hc]
    rfl
  rw [heq, hv.find_of_searches hd (.step habove hy)]

theorem run_parents (h : (machine disk).Run Once s) : s.Parents disk := by
  obtain ⟨hv, hpaired⟩ := run_paired h
  refine ⟨fun d hd hroot => hv.find_root hd hroot, fun d hd => ?_, fun inode dev p hp => ?_,
    fun inode dev c hc => hpaired _ c hc, fun d name hd hn hnone => ?_,
    fun d name e hd hn he hfree => ?_⟩
  · obtain ⟨y, hy, hdevice, heq⟩ := hv.find_eq hd ".."
    refine ⟨y, hy, fun hroot => ?_, heq⟩
    obtain ⟨c, hc⟩ := Option.isSome_iff_exists.mp ((hv.fromMounted_isSome hdevice).mpr hroot)
    have hend := hy.next_none
    unfold above at hend
    rw [if_pos rfl, hc] at hend
    cases hend
  · obtain ⟨_, _, _, c, hc, hkey⟩ := hv.mounted _ p hp
    exact ⟨c, hc, hkey⟩
  · rw [hv.find_of_searches hd (hv.searches_self hd hn), findBelow, hnone]
  · rw [hv.find_of_searches hd (hv.searches_self hd hn), findBelow, he]
    simp only [hfree]
    rfl

/-- A file system whose root holds one other directory. -/
def small : FileSystem where
  root := 2
  find inode name :=
    if name = "." then some ⟨inode, .directory⟩
    else if name = ".." then some ⟨2, .directory⟩
    else if inode = 2 ∧ name = "tmp" then some ⟨11, .directory⟩
    else none
  read inode := [(".", inode), ("..", 2)] ++ if inode = 2 then [("tmp", 11)] else []

instance (s : FS φ) (c : Mount φ) : Decidable (s.Once c) :=
  inferInstanceAs (Decidable (_ = none))

/-- Follows mounts that are each admitted and on a directory that nothing is mounted on. -/
theorem exists_once [DecidableEq φ] (disk : φ → FileSystem) (root : φ) (cs : List (Mount φ))
    {P : FS φ → Bool} (h : ((machine disk).follow (fun s c => decide (s.Admits c ∧ s.Once c))
      (new root) cs).any P = true) : ∃ s, (machine disk).Run Once s ∧ P s = true := by
  have hcheck (s : FS φ) (c : Mount φ) (hc : decide (s.Admits c ∧ s.Once c) = true) :
      s.Admits c ∧ s.Once c := of_decide_eq_true hc
  exact Machine.exists_run (M := machine disk) hcheck ⟨root, rfl⟩ cs h

/-- One file system mounted in another, and a third on the root of that one. -/
theorem run_parents_stacked : ∃ s, (machine fun _ : Fin 3 => small).Run Once s ∧
    decide (s.nextDev = 3) = true ∧ s.Parents fun _ => small := by
  obtain ⟨s, hs, hn⟩ := exists_once (fun _ : Fin 3 => small) 0
    [⟨2 ^ 20, ⟨⟨0, 11, 0⟩, 0⟩, true, 1⟩, ⟨2 ^ 20, ⟨⟨1, 2, 1⟩, 1⟩, true, 2⟩]
    (P := fun s => decide (s.nextDev = 3)) (by decide +kernel)
  exact ⟨s, hs, hn, run_parents hs⟩

/-- The parent of a mounted root has another device than the directory searched. -/
theorem parent_elsewhere : ¬∀ s, (machine fun _ : Fin 3 => small).Run Once s →
    ∀ d name e, s.Device d.fs d.dev → small.find d.inode name = some e →
      s.toMounted e.inode d.dev = none →
        s.find (fun _ => small) d name = .ok (some (.made ⟨d.fs, e.inode, e.type, d.dev⟩)) := by
  intro hall
  obtain ⟨s, hs, hP⟩ := exists_once (fun _ : Fin 3 => small) 0
    [⟨2 ^ 20, ⟨⟨0, 11, 0⟩, 0⟩, true, 1⟩] (P := fun s => decide (s.Device 1 1 ∧
      s.toMounted 2 1 = none ∧ s.find (fun _ => small) ⟨1, 2, 1⟩ ".." =
        .ok (some (.made ⟨0, 2, .directory, 0⟩)))) (by decide +kernel)
  obtain ⟨hdev, hfree, hfind⟩ := of_decide_eq_true hP
  have hclaim := hall s hs ⟨1, 2, 1⟩ ".." ⟨2, .directory⟩ hdev rfl hfree
  rw [hfind] at hclaim
  cases hclaim

end FS

end SupOS.VFS
