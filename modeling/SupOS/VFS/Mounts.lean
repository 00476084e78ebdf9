import SupOS.VFS.FS

/-! What every sequence of mounts keeps: the two maps name devices that lie above one another, so
that a lookup of `..` ends in a directory that is not the root of a mounted file system. -/

namespace SupOS

open Lib

namespace Libcpp.Map

variable {K T : Type}

/-- The storage of a map holds its pairs and fits the address space. -/
structure Stored (m : Map K T) : Prop where
  size : m.pairs.length ≤ m.capacity
  capacity : m.capacity ≤ 2 ^ 30

theorem stored_empty : (empty : Map K T).Stored := ⟨Nat.le_refl 0, Nat.zero_le _⟩

variable [DecidableEq K] {m : Map K T} {k k' : K} {x : T} {room : Nat}

@[simp] theorem find_empty : (empty : Map K T).find k = none := rfl

theorem find_append {c : Nat} : (⟨m.pairs ++ [(k, x)], c⟩ : Map K T).find k' =
    (m.find k').or (if k' = k then some x else none) := by
  unfold find
  rw [List.lookup_append, List.lookup_cons, List.lookup_nil]
  by_cases h : k' = k
  · simp [h]
  · simp [h, beq_false_of_ne h]

theorem mem_of_find (h : m.find k = some x) : (k, x) ∈ m.pairs := by
  obtain ⟨l₁, l₂, heq, _⟩ := List.lookup_eq_some_iff.mp h
  simp [heq]

/-- An insertion gives a key a value when it has none. -/
theorem insert_spec (hs : m.Stored) (hroom : room < kernelSpace) :
    Ensures (m.insert 16 room k x) NoMemory fun m' => m'.Stored ∧
      (∀ k', m'.find k' = (m.find k').or (if k' = k then some x else none)) ∧
      (m.find k = none → m'.pairs.length = m.pairs.length + 1) := by
  have happend (c : Nat) : (m.pairs ++ [(k, x)]).length = m.pairs.length + 1 := by simp
  unfold insert
  split
  · rename_i hsome
    refine ⟨hs, fun k' => ?_, fun hnone => by simp [hnone] at hsome⟩
    by_cases hk : k' = k
    · obtain ⟨y, hy⟩ := Option.isSome_iff_exists.mp hsome
      rw [hk, hy]
      rfl
    · rw [if_neg hk, Option.or_none]
  · split
    · rename_i hfits
      exact ⟨⟨by simp only [happend 0]; omega, hs.capacity⟩, fun k' => find_append,
        fun _ => happend 0⟩
    · refine (strategy_spec _).bind fun c hc => ?_
      split
      · rename_i hfits
        have hle : c ≤ 2 ^ 30 := hc.2.resolve_right fun hbig => by
          have hsize : u64 ((2 ^ 64 - 2 ^ 31) * 16) = 2 ^ 64 - 16 * 2 ^ 31 := by decide
          rw [hbig, hsize] at hfits
          unfold kernelSpace at hroom
          omega
        exact ⟨⟨by simp only [happend 0]; omega, hle⟩, fun k' => find_append, fun _ => happend 0⟩
      · exact .inl rfl

end Libcpp.Map

namespace VFS

open Libcpp

variable {φ : Type} {disk : φ → FileSystem} {s s' : FS φ} {d x y : Directory φ} {name : String}

namespace FS

/-- A file system lies on a device: the first one on device 0, and each one mounted that a lookup
leads to. -/
def Device (s : FS φ) (fs : φ) (dev : Nat) : Prop :=
  (dev = 0 ∧ fs = s.root) ∨ ∃ k p, s.mountedDirs.find k = some p ∧ p.dev = dev ∧ p.fs = fs

theorem device_iff {fs : φ} {dev : Nat} : s.Device fs dev ↔ (dev = 0 ∧ fs = s.root) ∨
    ∃ q ∈ s.mountedDirs.pairs, s.mountedDirs.find q.1 = some q.2 ∧ q.2.dev = dev ∧ q.2.fs = fs := by
  unfold Device
  refine or_congr_right ⟨fun ⟨k, p, h⟩ => ⟨(k, p), Map.mem_of_find h.1, h⟩, fun ⟨q, _, h⟩ => ?_⟩
  exact ⟨q.1, q.2, h⟩

instance [DecidableEq φ] (fs : φ) (dev : Nat) : Decidable (s.Device fs dev) :=
  decidable_of_iff _ device_iff.symm

/-- What the maps keep whatever is mounted. -/
structure Valid (disk : φ → FileSystem) (s : FS φ) : Prop where
  mountedStored : s.mountedDirs.Stored
  reverseStored : s.reverseMountedDirs.Stored
  count : s.nextDev = s.reverseMountedDirs.pairs.length + 1
  mounted : ∀ k p, s.mountedDirs.find k = some p →
    k.1 < p.dev ∧ p.dev < s.nextDev ∧ p.inode = (disk p.fs).root ∧
      ∃ c, s.reverseMountedDirs.find p.key = some c ∧ c.key = k
  mounted_unique : ∀ k p k' p', s.mountedDirs.find k = some p → s.mountedDirs.find k' = some p' →
    p.dev = p'.dev → p = p'
  covered : ∀ k c, s.reverseMountedDirs.find k = some c →
    c.dev < k.1 ∧ k.1 < s.nextDev ∧ s.Device c.fs c.dev
  covered_unique : ∀ k c k' c', s.reverseMountedDirs.find k = some c →
    s.reverseMountedDirs.find k' = some c' → k.1 = k'.1 → k = k'

theorem valid_new (root : φ) : (new root).Valid disk where
  mountedStored := Map.stored_empty
  reverseStored := Map.stored_empty
  count := rfl
  mounted k p h := by cases h
  mounted_unique k p k' p' h := by cases h
  covered k c h := by cases h
  covered_unique k c k' c' h := by cases h

/-- What a mount changes. -/
structure Mounted (disk : φ → FileSystem) (s s' : FS φ) (dir : Pointer φ) (fs : φ) : Prop where
  mountedStored : s'.mountedDirs.Stored
  reverseStored : s'.reverseMountedDirs.Stored
  nextDev : s'.nextDev = s.nextDev + 1
  root : s'.root = s.root
  objects : s'.objects = s.objects + 1
  count : s'.reverseMountedDirs.pairs.length = s.reverseMountedDirs.pairs.length + 1
  mounted : ∀ k, s'.mountedDirs.find k = (s.mountedDirs.find k).or
    (if k = dir.key then some ⟨⟨fs, (disk fs).root, s.nextDev⟩, s.objects⟩ else none)
  covered : ∀ k, s'.reverseMountedDirs.find k = (s.reverseMountedDirs.find k).or
    (if k = (s.nextDev, (disk fs).root) then some dir else none)

/-- A device that is not in use is the root of nothing. -/
theorem Valid.unused (hv : s.Valid disk) {k : Key} (hk : k.1 = s.nextDev) :
    s.reverseMountedDirs.find k = none := by
  cases h : s.reverseMountedDirs.find k with
  | none => rfl
  | some c =>
    have hlt := (hv.covered k c h).2.1
    omega

theorem mount_spec {room : Nat} {dir : Pointer φ} {canDelete : Bool} {fs : φ} (hv : s.Valid disk)
    (hroom : room < kernelSpace) : Ensures (s.mount disk room dir canDelete fs) NoMemory
      fun s' => canDelete = true ∧ s.Mounted disk s' dir fs := by
  have hunused := hv.unused (k := (s.nextDev, (disk fs).root)) rfl
  unfold mount
  refine (Map.insert_spec hv.mountedStored hroom).bind fun mountedDirs hmounted => ?_
  cases canDelete with
  | false => exact .inr rfl
  | true =>
    refine (Map.insert_spec hv.reverseStored hroom).bind fun reverse hreverse => ?_
    have hnext : u32 (s.nextDev + 1) = s.nextDev + 1 := by
      have hcap := hreverse.1.size.trans hreverse.1.capacity
      rw [hreverse.2.2 hunused] at hcap
      exact u32_of_lt (by rw [hv.count]; omega)
    exact ⟨rfl, hmounted.1, hreverse.1, hnext, rfl, rfl, hreverse.2.2 hunused, hmounted.2.1,
      hreverse.2.1⟩

namespace Mounted

variable {dir : Pointer φ} {fs : φ}

theorem device (hm : s.Mounted disk s' dir fs) {fs' : φ} {dev : Nat} (h : s.Device fs' dev) :
    s'.Device fs' dev := by
  obtain ⟨hdev, hfs⟩ | ⟨k, p, hp, hdev, hfs⟩ := h
  · exact .inl ⟨hdev, hfs.trans hm.root.symm⟩
  · refine .inr ⟨k, p, ?_, hdev, hfs⟩
    rw [hm.mounted, hp]
    rfl

/-- The pairs after a mount are those before and the new one. -/
theorem mounted_cases (hm : s.Mounted disk s' dir fs) {k : Key} {p : Pointer φ}
    (h : s'.mountedDirs.find k = some p) : s.mountedDirs.find k = some p ∨
      s.mountedDirs.find k = none ∧ k = dir.key ∧
        p = ⟨⟨fs, (disk fs).root, s.nextDev⟩, s.objects⟩ := by
  rw [hm.mounted] at h
  cases hk : s.mountedDirs.find k with
  | some q => exact .inl (by rwa [hk] at h)
  | none =>
    rw [hk, Option.none_or] at h
    split at h
    · rename_i hkey
      exact .inr ⟨rfl, hkey, (Option.some.inj h).symm⟩
    · cases h

theorem covered_cases (hm : s.Mounted disk s' dir fs) {k : Key} {c : Pointer φ}
    (h : s'.reverseMountedDirs.find k = some c) : s.reverseMountedDirs.find k = some c ∨
      k = (s.nextDev, (disk fs).root) ∧ c = dir := by
  rw [hm.covered] at h
  cases hk : s.reverseMountedDirs.find k with
  | some q => exact .inl (by rwa [hk] at h)
  | none =>
    rw [hk, Option.none_or] at h
    split at h
    · rename_i hkey
      exact .inr ⟨hkey, (Option.some.inj h).symm⟩
    · cases h

theorem covered_of (hm : s.Mounted disk s' dir fs) {k : Key} {c : Pointer φ}
    (h : s.reverseMountedDirs.find k = some c) : s'.reverseMountedDirs.find k = some c := by
  rw [hm.covered, h]
  rfl

end Mounted

/-- A device in use has a number below the next. -/
theorem Valid.dev_lt (hv : s.Valid disk) {fs : φ} {dev : Nat} (h : s.Device fs dev) :
    dev < s.nextDev := by
  obtain ⟨rfl, _⟩ | ⟨k, p, hp, rfl, _⟩ := h
  · rw [hv.count]
    exact Nat.succ_pos _
  · exact (hv.mounted k p hp).2.1

/-- A device has one file system. -/
theorem Valid.device_unique (hv : s.Valid disk) {fs fs' : φ} {dev : Nat} (h : s.Device fs dev)
    (h' : s.Device fs' dev) : fs = fs' := by
  obtain ⟨h0, hfs⟩ | ⟨k, p, hp, hdev, hfs⟩ := h <;>
    obtain ⟨h0', hfs'⟩ | ⟨k', p', hp', hdev', hfs'⟩ := h'
  · exact hfs.trans hfs'.symm
  · have hlt := (hv.mounted k' p' hp').1
    omega
  · have hlt := (hv.mounted k p hp).1
    omega
  · rw [← hfs, ← hfs', hv.mounted_unique k p k' p' hp hp' (hdev.trans hdev'.symm)]

/-- A mount on a directory of a device in use keeps the maps valid. -/
theorem Mounted.valid {dir : Pointer φ} {fs : φ} (hv : s.Valid disk)
    (hd : s.Device dir.fs dir.dev) (hm : s.Mounted disk s' dir fs) : s'.Valid disk := by
  have hdev := hv.dev_lt hd
  have hnext := hm.nextDev
  refine ⟨hm.mountedStored, hm.reverseStored, by rw [hnext, hv.count, hm.count], ?_, ?_, ?_, ?_⟩
  · intro k p hp
    obtain hold | ⟨_, rfl, rfl⟩ := hm.mounted_cases hp
    · obtain ⟨hlt, hltn, hroot, c, hc, hkey⟩ := hv.mounted k p hold
      exact ⟨hlt, by omega, hroot, c, hm.covered_of hc, hkey⟩
    · refine ⟨hdev, by simp only [hnext]; omega, rfl, dir, ?_, rfl⟩
      rw [hm.covered, hv.unused rfl]
      simp [Directory.key]
  · intro k p k' p' hp hp' heq
    obtain hold | ⟨_, _, hnew⟩ := hm.mounted_cases hp <;>
      obtain hold' | ⟨_, _, hnew'⟩ := hm.mounted_cases hp'
    · exact hv.mounted_unique k p k' p' hold hold' heq
    · have hlt := (hv.mounted k p hold).2.1
      rw [heq, hnew'] at hlt
      exact absurd hlt (Nat.lt_irrefl _)
    · have hlt := (hv.mounted k' p' hold').2.1
      rw [← heq, hnew] at hlt
      exact absurd hlt (Nat.lt_irrefl _)
    · exact hnew.trans hnew'.symm
  · intro k c hc
    obtain hold | ⟨rfl, rfl⟩ := hm.covered_cases hc
    · obtain ⟨hlt, hltn, hdevice⟩ := hv.covered k c hold
      exact ⟨hlt, by omega, hm.device hdevice⟩
    · exact ⟨hdev, by simp only [hnext]; omega, hm.device hd⟩
  · intro k c k' c' hc hc' heq
    obtain hold | ⟨rfl, _⟩ := hm.covered_cases hc <;>
      obtain hold' | ⟨rfl, _⟩ := hm.covered_cases hc'
    · exact hv.covered_unique k c k' c' hold hold' heq
    · have hlt := (hv.covered k c hold).2.1
      simp only [heq] at hlt
      omega
    · have hlt := (hv.covered k' c' hold').2.1
      simp only [← heq] at hlt
      omega
    · rfl

/-! ### Lookups -/

/-- The call of `operator[]` for a name passes from a directory to the one that answers it. -/
def Searches (s : FS φ) (name : String) : Directory φ → Directory φ → Prop :=
  Ends fun x => s.above x name

theorem above_eq_some (h : s.above x name = some y) :
    name = ".." ∧ ∃ c, s.fromMounted x.inode x.dev = some c ∧ c.toDirectory = y := by
  unfold above at h
  split at h
  · rename_i hname
    exact ⟨hname, Option.map_eq_some_iff.mp h⟩
  · cases h

theorem Valid.above_lower (hv : s.Valid disk) (h : s.above x name = some y) :
    y.dev < x.dev ∧ s.Device y.fs y.dev := by
  obtain ⟨_, c, hc, rfl⟩ := above_eq_some h
  have hcovered := hv.covered _ c hc
  exact ⟨hcovered.1, hcovered.2.2⟩

theorem findWithin_eq (hv : s.Valid disk) (h : s.Searches name x y) {fuel : Nat}
    (hfuel : x.dev < fuel) : s.findWithin disk fuel x name = .ok (s.findBelow disk y name) := by
  induction h generalizing fuel with
  | here hnone =>
    cases fuel with
    | zero => omega
    | succ fuel =>
      unfold findWithin
      simp only [hnone]
  | @step x y z hsome _ ih =>
    cases fuel with
    | zero => omega
    | succ fuel =>
      have hlt := (hv.above_lower hsome).1
      unfold findWithin
      simp only [hsome]
      rw [← (above_eq_some hsome).1]
      exact ih (by omega)

/-- A lookup in a directory of a device in use ends, and one directory answers it. -/
theorem Valid.find_eq (hv : s.Valid disk) (hd : s.Device d.fs d.dev) (name : String) :
    ∃ y, s.Searches name d y ∧ s.Device y.fs y.dev ∧
      s.find disk d name = .ok (s.findBelow disk y name) := by
  obtain ⟨y, hy⟩ := Ends.exists_of_rank (P := fun x => s.Device x.fs x.dev) (fun x => x.dev) hd
    (fun a b _ (hab : s.above a name = some b) => (hv.above_lower hab).2) fun a b _ hab => (hv.above_lower hab).1
  have hlt := hv.dev_lt hd
  exact ⟨y, hy, hy.closed hd fun a b _ hab => (hv.above_lower hab).2,
    findWithin_eq hv hy (by omega)⟩

/-- The lookup as the directory that answers it gives it. -/
theorem Valid.find_of_searches (hv : s.Valid disk) (hd : s.Device d.fs d.dev)
    (h : s.Searches name d y) : s.find disk d name = .ok (s.findBelow disk y name) := by
  obtain ⟨z, hz, _, heq⟩ := hv.find_eq hd name
  rw [heq, h.unique hz]

theorem findBelow_cases {f : Found φ} (h : s.findBelow disk y name = some f) :
    ∃ e, (disk y.fs).find y.inode name = some e ∧
      ((∃ p, s.toMounted e.inode y.dev = some p ∧ f = .mounted p) ∨
        s.toMounted e.inode y.dev = none ∧ f = .made (convert e y.fs y.dev)) := by
  unfold findBelow at h
  split at h
  · cases h
  · rename_i e he
    refine ⟨e, he, ?_⟩
    split at h
    · rename_i p hp
      exact .inl ⟨p, hp, (Option.some.inj h).symm⟩
    · rename_i hnone
      exact .inr ⟨hnone, (Option.some.inj h).symm⟩

/-- What a lookup finds lies on a device in use. -/
theorem findBelow_device (hy : s.Device y.fs y.dev) {f : Found φ}
    (h : s.findBelow disk y name = some f) : s.Device f.file.fs f.file.dev := by
  obtain ⟨e, _, ⟨p, hp, rfl⟩ | ⟨_, rfl⟩⟩ := findBelow_cases h
  · exact .inr ⟨_, p, hp, rfl, rfl⟩
  · exact hy

theorem Valid.find_device (hv : s.Valid disk) (hd : s.Device d.fs d.dev) {f : Found φ}
    (h : s.find disk d name = .ok (some f)) : s.Device f.file.fs f.file.dev := by
  obtain ⟨y, _, hy, heq⟩ := hv.find_eq hd name
  exact findBelow_device hy (Except.ok.inj (heq.symm.trans h))

/-! ### Runs -/

/-- A call of `mount`: what `malloc` has left, the directory with its pointer, and the file
system. -/
structure Mount (φ : Type) where
  room : Nat
  dir : Pointer φ
  canDelete : Bool
  fs : φ

/-- `malloc` has less than the address space, and the directory lies on a device in use. -/
structure Admits (s : FS φ) (c : Mount φ) : Prop where
  room : c.room < kernelSpace
  dir : s.Device c.dir.fs c.dir.dev

instance [DecidableEq φ] (c : Mount φ) : Decidable (s.Admits c) :=
  decidable_of_iff (c.room < kernelSpace ∧ s.Device c.dir.fs c.dir.dev)
    ⟨fun h => ⟨h.1, h.2⟩, fun h => ⟨h.room, h.dir⟩⟩

def machine (disk : φ → FileSystem) : Lib.Machine (FS φ) (Mount φ) Fault where
  start s := ∃ root, s = new root
  admits := Admits
  apply s c := s.mount disk c.room c.dir c.canDelete c.fs

theorem mounted_of_apply {c : Mount φ} (hv : s.Valid disk) (ha : s.Admits c)
    (h : (machine disk).apply s c = .ok s') : c.canDelete = true ∧ s.Mounted disk s' c.dir c.fs :=
  (mount_spec hv ha.room).of_ok h

theorem run_valid {C : FS φ → Mount φ → Prop} (h : (machine disk).Run C s) : s.Valid disk := by
  refine h.invariant (fun s hs => ?_) fun s s' c hv ha _ hs => ?_
  · obtain ⟨root, rfl⟩ := hs
    exact valid_new root
  · exact (mounted_of_apply hv ha hs).2.valid hv ha.dir

end FS

end VFS

end SupOS
