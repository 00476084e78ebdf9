import SupOS.VFS.Parents

/-! Which mounts every path shows: those on a directory that is not the root of its file system and
that nothing is mounted on. -/

namespace SupOS.VFS

open Lib Libcpp

variable {φ : Type} {disk : φ → FileSystem} {s s' : FS φ} {d x y : Directory φ} {f f' : File φ}
  {name : String} {names : List String}

namespace FS

/-- Every way to the directory with this key leads to the root of the file system mounted on it,
and no path from elsewhere ends in the directory. -/
structure Visible (disk : φ → FileSystem) (s : FS φ) (k : Key) (root : Directory φ) : Prop where
  start : (s.getRoot disk).key = k → s.getRoot disk = root.file
  reached : ∀ f names f' x name y e, s.Device f.fs f.dev → s.walk disk f names = .ok (some f') →
    f'.directory = some x → s.Searches name x y → (disk y.fs).find y.inode name = some e →
      (y.dev, e.inode) = k → s.walk disk f (names ++ [name]) = .ok (some root.file)
  hidden : ∀ f names f', s.Device f.fs f.dev → f.key ≠ k → s.walk disk f names = .ok (some f') →
    f'.key ≠ k

/-- The directory is not the root of its file system, and nothing is mounted on it. -/
def Proper (disk : φ → FileSystem) (s : FS φ) (c : Mount φ) : Prop :=
  c.dir.inode ≠ (disk c.dir.fs).root ∧ s.Once c

instance (c : Mount φ) : Decidable (s.Proper disk c) :=
  inferInstanceAs (Decidable (_ ∧ _))

/-- Nothing is mounted on the root of a file system. -/
def Below (disk : φ → FileSystem) (s : FS φ) : Prop := ∀ k p fs, s.mountedDirs.find k = some p →
  s.Device fs k.1 → k.2 ≠ (disk fs).root

theorem Mounted.below {dir : Pointer φ} {fs : φ} (hv : s.Valid disk)
    (hd : s.Device dir.fs dir.dev) (hb : s.Below disk) (hne : dir.inode ≠ (disk dir.fs).root)
    (hm : s.Mounted disk s' dir fs) : s'.Below disk := by
  intro k p fs' hp hdev
  have hv' := hm.valid hv hd
  obtain hold | ⟨_, rfl, _⟩ := hm.mounted_cases hp
  · obtain ⟨hlt, _, _, c, hc, hkey⟩ := hv.mounted k p hold
    have hc' := (hv.covered _ c hc).2.2
    rw [show c.dev = k.1 by rw [← hkey]; rfl] at hc'
    obtain rfl := hv'.device_unique (hm.device hc') hdev
    exact hb k p _ hold hc'
  · obtain rfl := hv'.device_unique (hm.device hd) hdev
    exact hne

theorem run_below (h : (machine disk).Run (Proper disk) s) : s.Valid disk ∧ s.Below disk := by
  refine h.invariant (I := fun s => s.Valid disk ∧ s.Below disk) (fun s hs => ?_)
    fun s s' c hI ha hC hs => ?_
  · obtain ⟨root, rfl⟩ := hs
    exact ⟨valid_new root, fun k p fs hp => by cases hp⟩
  · have hm := (mounted_of_apply hI.1 ha hs).2
    exact ⟨hm.valid hI.1 ha.dir, hm.below hI.1 ha.dir hI.2 hC.1⟩

/-! ### Paths -/

theorem walk_cons (hx : f.directory = some x) {r : Found φ}
    (hr : s.find disk x name = .ok (some r)) :
    s.walk disk f (name :: names) = s.walk disk r.file names := by
  simp only [walk, hx, hr, ok_bind]

/-- A path to a file is a first lookup and a path from what it finds. -/
theorem walk_cons_cases (h : s.walk disk f (name :: names) = .ok (some f')) :
    ∃ x r, f.directory = some x ∧ s.find disk x name = .ok (some r) ∧
      s.walk disk r.file names = .ok (some f') := by
  unfold walk at h
  split at h
  · cases h
  · rename_i x hx
    obtain ⟨r, hr, h⟩ := bind_eq_ok.mp h
    cases r with
    | none => cases h
    | some r => exact ⟨x, r, hx, hr, h⟩

theorem directory_eq (h : f.directory = some x) : x.fs = f.fs ∧ x.dev = f.dev := by
  unfold File.directory at h
  split at h
  · obtain rfl := Option.some.inj h
    exact ⟨rfl, rfl⟩
  · cases h

theorem Valid.directory_device (hf : s.Device f.fs f.dev) (h : f.directory = some x) :
    s.Device x.fs x.dev := by
  rw [(directory_eq h).1, (directory_eq h).2]
  exact hf

/-- The last lookup of a path. -/
theorem walk_append (h : s.walk disk f names = .ok (some f')) (hx : f'.directory = some x)
    {r : Found φ} (hr : s.find disk x name = .ok (some r)) :
    s.walk disk f (names ++ [name]) = .ok (some r.file) := by
  induction names generalizing f with
  | nil =>
    obtain rfl := Option.some.inj (Except.ok.inj h)
    rw [List.nil_append, walk_cons hx hr, walk]
  | cons n names ih =>
    obtain ⟨z, q, hz, hq, h⟩ := walk_cons_cases h
    rw [List.cons_append, walk_cons hz hq]
    exact ih h

theorem Valid.walk_device (hv : s.Valid disk) (hf : s.Device f.fs f.dev)
    (h : s.walk disk f names = .ok (some f')) : s.Device f'.fs f'.dev := by
  induction names generalizing f with
  | nil =>
    obtain rfl := Option.some.inj (Except.ok.inj h)
    exact hf
  | cons n names ih =>
    obtain ⟨z, q, hz, hq, h⟩ := walk_cons_cases h
    exact ih (hv.find_device (Valid.directory_device hf hz) hq) h

/-- No lookup finds a directory that something is mounted on, when that is no root. -/
theorem Valid.find_key_ne (hv : s.Valid disk) (hb : s.Below disk) {k : Key} {p : Pointer φ}
    (hk : s.mountedDirs.find k = some p) (hx : s.Device x.fs x.dev) {r : Found φ}
    (hr : s.find disk x name = .ok (some r)) : r.file.key ≠ k := by
  obtain ⟨y, _, _, heq⟩ := hv.find_eq hx name
  intro hkey
  obtain ⟨e, _, ⟨q, hq, rfl⟩ | ⟨hnone, rfl⟩⟩ :=
    findBelow_cases (Except.ok.inj (heq.symm.trans hr))
  · have hdev : s.Device q.fs q.dev := .inr ⟨_, q, hq, rfl, rfl⟩
    subst hkey
    exact hb _ p _ hk hdev (hv.mounted _ q hq).2.2.1
  · rw [toMounted, show (y.dev, e.inode) = k from hkey, hk] at hnone
    cases hnone

theorem Valid.visible (hv : s.Valid disk) (hb : s.Below disk) {k : Key} {p : Pointer φ}
    (hk : s.mountedDirs.find k = some p) : s.Visible disk k p.toDirectory := by
  refine ⟨fun hstart => ?_, fun f names f' x name y e hf hw hx hs he hkey => ?_, ?_⟩
  · subst hstart
    exact absurd rfl (hb _ p s.root hk (.inl ⟨rfl, rfl⟩))
  · have hdev := Valid.directory_device (hv.walk_device hf hw) hx
    have hfound : s.find disk x name = .ok (some (.mounted p)) := by
      rw [hv.find_of_searches hdev hs, findBelow, he]
      simp only [toMounted, hkey, hk]
    exact walk_append hw hx hfound
  · intro f names f' hf hne hw
    induction names generalizing f with
    | nil =>
      obtain rfl := Option.some.inj (Except.ok.inj hw)
      exact hne
    | cons n names ih =>
      obtain ⟨z, q, hz, hq, hw⟩ := walk_cons_cases hw
      have hdev := Valid.directory_device hf hz
      exact ih _ (hv.find_device hdev hq) (hv.find_key_ne hb hk hdev hq) hw

/-- Proper mounts are visible, the latest one and those before it. -/
theorem run_visible (h : (machine disk).Run (Proper disk) s) :
    (∀ k p, s.mountedDirs.find k = some p → s.Visible disk k p.toDirectory) ∧
    ∀ c s', s.Admits c → s.Proper disk c → (machine disk).apply s c = .ok s' →
      s'.Visible disk c.dir.key ⟨c.fs, (disk c.fs).root, s.nextDev⟩ := by
  obtain ⟨hv, hb⟩ := run_below h
  refine ⟨fun k p hk => hv.visible hb hk, fun c s' ha hC hs => ?_⟩
  have hm := (mounted_of_apply hv ha hs).2
  refine (hm.valid hv ha.dir).visible (hm.below hv ha.dir hb hC.1) (k := c.dir.key)
    (p := ⟨⟨c.fs, (disk c.fs).root, s.nextDev⟩, s.objects⟩) ?_
  rw [hm.mounted, show s.mountedDirs.find c.dir.key = none from hC.2]
  simp

/-- A file system mounted on a directory of the first one. -/
theorem run_visible_first : ∃ s, (machine fun _ : Fin 3 => small).apply (new 0)
      ⟨2 ^ 20, ⟨⟨0, 11, 0⟩, 0⟩, true, 1⟩ = .ok s ∧
    s.Visible (fun _ => small) (0, 11) ⟨1, 2, 1⟩ := by
  obtain ⟨s, hs⟩ : ∃ s, (machine fun _ : Fin 3 => small).apply (new 0)
      ⟨2 ^ 20, ⟨⟨0, 11, 0⟩, 0⟩, true, 1⟩ = .ok s := ⟨_, rfl⟩
  exact ⟨s, hs, (run_visible (.start ⟨0, rfl⟩)).2 _ s ⟨by decide, .inl ⟨rfl, rfl⟩⟩
    ⟨by decide, rfl⟩ hs⟩

/-- What is mounted on the first root is not what paths start from. -/
theorem root_not_covered : ¬∀ (s s' : FS (Fin 3)) c,
    (machine fun _ : Fin 3 => small).Run (fun _ _ => True) s → s.Admits c →
      (machine fun _ : Fin 3 => small).apply s c = .ok s' →
        s'.Visible (fun _ => small) c.dir.key ⟨c.fs, 2, s.nextDev⟩ := by
  intro hall
  obtain ⟨s', hs'⟩ : ∃ s, (machine fun _ : Fin 3 => small).apply (new 0)
      ⟨2 ^ 20, ⟨⟨0, 2, 0⟩, 0⟩, true, 1⟩ = .ok s := ⟨_, rfl⟩
  have hvis := hall (new 0) s' _ (.start ⟨0, rfl⟩) ⟨by decide, .inl ⟨rfl, rfl⟩⟩ hs'
  have hroot := congrArg File.dev (hvis.start rfl)
  cases hroot

end FS

end SupOS.VFS
