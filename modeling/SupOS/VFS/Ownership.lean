import SupOS.VFS.Paths

/-! The objects that path resolution makes and destroys: what it returns is alive unless the path
names the root and nothing else. -/

namespace SupOS.VFS

open Lib Libcpp

variable {φ : Type} {disk : φ → FileSystem}

namespace Heap

variable {h h₀ h₁ h' : Heap φ} {p : Pointer φ} {f cur : UniquePtr φ} {name : String}
  {names : List String} {o : Nat}

/-- An object that a map of the file system points to. -/
def Permanent (s : FS φ) (o : Nat) : Prop :=
  (∃ k q, s.mountedDirs.find k = some q ∧ q.object = o) ∨
    ∃ k c, s.reverseMountedDirs.find k = some c ∧ c.object = o

/-- The maps are valid, what they point to is alive, and what was destroyed had been made. -/
structure Sound (disk : φ → FileSystem) (h : Heap φ) : Prop where
  valid : h.fs.Valid disk
  permanent : ∀ o, Permanent h.fs o → h.Live o
  deleted : ∀ o ∈ h.deleted, o < h.fs.objects

/-- Later, with the same mounts, and what was alive still is. -/
structure Later (h h' : Heap φ) : Prop where
  fs : h'.fs = { h.fs with objects := h'.fs.objects }
  objects : h.fs.objects ≤ h'.fs.objects
  deleted : ∀ o ∈ h'.deleted, o ∈ h.deleted ∨ h.fs.objects ≤ o

namespace Later

theorem refl (h : Heap φ) : h.Later h := ⟨rfl, Nat.le_refl _, fun _ ho => .inl ho⟩

theorem trans (h₁ : h₀.Later h) (h₂ : h.Later h') : h₀.Later h' := by
  refine ⟨?_, h₁.objects.trans h₂.objects, fun o ho => ?_⟩
  · rw [h₂.fs, h₁.fs]
  · obtain hold | hnew := h₂.deleted o ho
    · exact h₁.deleted o hold
    · exact .inr (h₁.objects.trans hnew)

theorem live (hl : h.Later h') (ho : h.Live o) : h'.Live o := by
  refine ⟨Nat.lt_of_lt_of_le ho.1 hl.objects, fun hdel => ?_⟩
  obtain hold | hnew := hl.deleted o hdel
  · exact ho.2 hold
  · exact absurd ho.1 (Nat.not_lt.mpr hnew)

theorem mountedDirs (hl : h.Later h') : h'.fs.mountedDirs = h.fs.mountedDirs := by rw [hl.fs]

theorem permanent (hl : h.Later h') : Permanent h'.fs o ↔ Permanent h.fs o := by rw [hl.fs]; rfl

theorem device (hl : h.Later h') {fs : φ} {dev : Nat} :
    h'.fs.Device fs dev ↔ h.fs.Device fs dev := by
  rw [hl.fs]
  rfl

end Later

theorem Sound.later_valid (hs : h.Sound disk) (hl : h.Later h') : h'.fs.Valid disk := by
  rw [hl.fs]
  exact ⟨hs.valid.mountedStored, hs.valid.reverseStored, hs.valid.count, hs.valid.mounted,
    hs.valid.mounted_unique, hs.valid.covered, hs.valid.covered_unique⟩

theorem Sound.permanent_lt (hs : h.Sound disk) (ho : Permanent h.fs o) : o < h.fs.objects :=
  (hs.permanent o ho).1

theorem access_live (ho : h.Live o) : h.access o = .ok () := if_pos ho

theorem access_dead (ho : ¬h.Live o) : h.access o = .error .dangling := if_neg ho

/-! ### Making and destroying -/

theorem later_make (h : Heap φ) (file : File φ) : h.Later (h.make file).2 :=
  ⟨rfl, Nat.le_succ _, fun _ ho => .inl ho⟩

theorem Sound.make (hs : h.Sound disk) (file : File φ) :
    (h.make file).2.Sound disk ∧ (h.make file).2.Live h.fs.objects := by
  have hl := h.later_make file
  refine ⟨⟨hs.later_valid hl, fun o ho => hl.live (hs.permanent o ho), fun o ho => ?_⟩, ?_⟩
  · exact Nat.lt_succ_of_lt (hs.deleted o ho)
  · exact ⟨Nat.lt_succ_self _, fun hdel => Nat.lt_irrefl _ (hs.deleted _ hdel)⟩

/-- The destructor of a pointer to a live object, made after `h₀` when the pointer deletes it. -/
theorem Sound.drop (hs : h.Sound disk) (hl : h₀.Later h) (hlive : h.Live f.object)
    (hown : f.canDelete = true → h₀.fs.objects ≤ f.object ∧ ¬Permanent h.fs f.object) :
    ∃ h', h.drop f = .ok h' ∧ h'.Sound disk ∧ h₀.Later h' ∧ h'.fs = h.fs ∧
      (∀ o, h.Live o → (f.canDelete = true → o ≠ f.object) → h'.Live o) ∧
      (f.canDelete = true → ¬h'.Live f.object) ∧ (f.canDelete = false → h' = h) := by
  unfold Heap.drop
  cases hcan : f.canDelete with
  | false =>
    exact ⟨h, rfl, hs, hl, rfl, fun o ho _ => ho, nofun, fun _ => rfl⟩
  | true =>
    obtain ⟨hnew, hperm⟩ := hown hcan
    simp only [if_true, access_live hlive, ok_bind]
    refine ⟨_, rfl, ⟨hs.valid, fun o ho => ?_, fun o ho => ?_⟩, ⟨hl.fs, hl.objects, fun o ho => ?_⟩,
      rfl, fun o ho hne => ?_, fun _ hdead => hdead.2 (List.mem_cons_self ..), nofun⟩
    · refine ⟨(hs.permanent o ho).1, fun hdel => ?_⟩
      obtain rfl | hdel := List.mem_cons.mp hdel
      · exact hperm ho
      · exact (hs.permanent o ho).2 hdel
    · obtain rfl | ho := List.mem_cons.mp ho
      · exact hlive.1
      · exact hs.deleted o ho
    · obtain rfl | ho := List.mem_cons.mp ho
      · exact .inr hnew
      · exact hl.deleted o ho
    · refine ⟨ho.1, fun hdel => ?_⟩
      obtain rfl | hdel := List.mem_cons.mp hdel
      · exact hne trivial rfl
      · exact ho.2 hdel

/-! ### Lookups -/

/-- A pointer got since `h₀`: to a live file, which a mount made or which is new. -/
structure Obtained (h₀ h : Heap φ) (f : UniquePtr φ) : Prop where
  device : h.fs.Device f.file.fs f.file.dev
  live : h.Live f.object
  borrowed : f.canDelete = false → ∃ k q, h.fs.mountedDirs.find k = some q ∧ q.object = f.object
  owned : f.canDelete = true → h₀.fs.objects ≤ f.object

namespace Obtained

theorem mono (hf : h₁.Obtained h f) (hl : h₀.Later h₁) : h₀.Obtained h f :=
  ⟨hf.device, hf.live, hf.borrowed, fun hc => hl.objects.trans (hf.owned hc)⟩

theorem later (hf : h₀.Obtained h f) (hl : h.Later h') (hlive : h'.Live f.object) :
    h₀.Obtained h' f :=
  ⟨hl.device.mpr hf.device, hlive, fun hc => by rw [hl.mountedDirs]; exact hf.borrowed hc,
    hf.owned⟩

/-- A pointer that deletes its object is the only one to it. -/
theorem not_permanent (hf : h₀.Obtained h f) (hs : h₀.Sound disk) (hl : h₀.Later h)
    (hc : f.canDelete = true) : ¬Permanent h.fs f.object := fun hperm =>
  absurd (hs.permanent_lt (hl.permanent.mp hperm)) (Nat.not_lt.mpr (hf.owned hc))

theorem permanent (hf : h₀.Obtained h f) (hc : f.canDelete = false) : Permanent h.fs f.object :=
  .inl (hf.borrowed hc)

end Obtained

theorem indexWithin_spec (hs : h.Sound disk) (hp : h.Live p.object) (hd : h.fs.Device p.fs p.dev)
    {fuel : Nat} (hfuel : p.dev < fuel) : ∃ r h', h.indexWithin disk fuel p name = .ok (r, h') ∧
      h'.Sound disk ∧ h.Later h' ∧ h'.deleted = h.deleted ∧ ∀ f ∈ r, h.Obtained h' f := by
  induction fuel generalizing p name with
  | zero => omega
  | succ fuel ih =>
    unfold indexWithin
    simp only [access_live hp, ok_bind]
    split
    · rename_i c hc
      have hfrom : h.fs.fromMounted p.inode p.dev = some c := by
        split at hc
        · exact hc
        · cases hc
      obtain ⟨hlt, _, hdev⟩ := hs.valid.covered _ c hfrom
      exact ih (hs.permanent _ (.inr ⟨_, c, hfrom, rfl⟩)) hdev (by simp only at hlt; omega)
    · cases hb : h.fs.findBelow disk p.toDirectory name with
      | none => exact ⟨none, h, rfl, hs, .refl h, rfl, by simp⟩
      | some found =>
        have hdev := FS.findBelow_device hd hb
        cases found with
        | mounted m =>
          obtain ⟨e, _, ⟨q, hq, heq⟩ | ⟨_, heq⟩⟩ := FS.findBelow_cases hb
          · cases heq
            refine ⟨_, h, rfl, hs, .refl h, rfl, fun f hf => ?_⟩
            obtain rfl := Option.some.inj hf
            exact ⟨hdev, hs.permanent _ (.inl ⟨_, m, hq, rfl⟩), fun _ => ⟨_, m, hq, rfl⟩, nofun⟩
          · cases heq
        | made file =>
          obtain ⟨hs', hlive⟩ := hs.make file
          refine ⟨_, _, rfl, hs', h.later_make file, rfl, fun f hf => ?_⟩
          obtain rfl := Option.some.inj hf
          exact ⟨(h.later_make file).device.mpr hdev, hlive, nofun, fun _ => Nat.le_refl _⟩

theorem index_spec (name : String) (hs : h.Sound disk) (hp : h.Live p.object) (hd : h.fs.Device p.fs p.dev) :
    ∃ r h', h.index disk p name = .ok (r, h') ∧ h'.Sound disk ∧ h.Later h' ∧
      h'.deleted = h.deleted ∧ ∀ f ∈ r, h.Obtained h' f :=
  indexWithin_spec hs hp hd (Nat.lt_succ_of_lt (hs.valid.dev_lt hd))

theorem directory_cases {d : Pointer φ} (h : cur.directory = some d) :
    d.object = cur.object ∧ d.fs = cur.file.fs ∧ d.dev = cur.file.dev ∧ d.inode = cur.file.inode ∧
      cur.file.type = .directory := by
  unfold UniquePtr.directory File.directory at h
  split at h
  · rename_i htype
    obtain rfl := Option.some.inj h
    exact ⟨rfl, rfl, rfl, rfl, htype⟩
  · cases h

/-- The loop of `resolvePath` destroys only what it made. -/
theorem resolveFrom_spec {r : Option (UniquePtr φ)} (hs₀ : h₀.Sound disk) (hs : h.Sound disk)
    (hl : h₀.Later h) (hr : ∀ f ∈ r, h₀.Obtained h f) :
    ∃ r' h', resolveFrom disk r names h = .ok (r', h') ∧ h'.Sound disk ∧ h₀.Later h' ∧
      ∀ f ∈ r', h₀.Obtained h' f := by
  induction names generalizing r h with
  | nil =>
    refine ⟨r, h, ?_, hs, hl, hr⟩
    unfold resolveFrom
    rfl
  | cons name names ih =>
    cases r with
    | none => exact ⟨none, h, rfl, hs, hl, by simp⟩
    | some cur =>
      have hcur := hr cur rfl
      have hown (hc : cur.canDelete = true) :=
        And.intro (hcur.owned hc) (hcur.not_permanent hs₀ hl hc)
      unfold resolveFrom
      simp only [access_live hcur.live, ok_bind]
      cases hdir : cur.directory with
      | none =>
        obtain ⟨h₁, hdrop, hs₁, hl₁, _⟩ := hs.drop hl hcur.live hown
        simp only [hdrop, ok_bind]
        exact ⟨none, h₁, rfl, hs₁, hl₁, by simp⟩
      | some d =>
        obtain ⟨hobj, hfs, hdev, _⟩ := directory_cases hdir
        obtain ⟨next, h₁, hindex, hs₁, hl₁, _, hnext⟩ := index_spec name hs
          (hobj ▸ hcur.live) (by rw [hfs, hdev]; exact hcur.device)
        obtain ⟨h₂, hdrop, hs₂, hl₂, hfs₂, hkeep, _⟩ := hs₁.drop (hl.trans hl₁)
          (hl₁.live hcur.live) fun hc => ⟨(hown hc).1, fun hperm =>
            (hown hc).2 (hl₁.permanent.mp hperm)⟩
        simp only [hindex, hdrop, ok_bind]
        refine ih hs₂ hl₂ fun f hf => ?_
        have hf₁ := hnext f hf
        -- What was found is not what is destroyed: it is permanent, or newer.
        have hne (hc : cur.canDelete = true) : f.object ≠ cur.object := by
          intro heq
          cases hcan : f.canDelete with
          | false => exact (hown hc).2 (hl₁.permanent.mp (heq ▸ hf₁.permanent hcan))
          | true =>
            have hnew := hf₁.owned hcan
            have hold := hcur.live.1
            omega
        have hlive := hkeep _ hf₁.live hne
        refine ⟨by rw [hfs₂]; exact hf₁.device, hlive, fun hc => by rw [hfs₂]; exact hf₁.borrowed hc,
          fun hc => hl.objects.trans (hf₁.owned hc)⟩

/-- `resolvePath` of a directory gives the directory itself for a path of no names. -/
theorem resolveIn_nil {path : List Char} (hn : split path '/' false = []) :
    h.resolveIn disk p path = .ok (some ⟨p.object, p.file, false⟩, h) := by
  unfold resolveIn
  rw [hn]
  rfl

theorem resolveIn_cons (path : List Char) (hs : h.Sound disk) (hp : h.Live p.object)
    (hd : h.fs.Device p.fs p.dev) (hn : split path '/' false ≠ []) :
    ∃ r h', h.resolveIn disk p path = .ok (r, h') ∧ h'.Sound disk ∧ h.Later h' ∧
      ∀ f ∈ r, h.Obtained h' f := by
  unfold resolveIn
  obtain ⟨name, names, hsplit⟩ := List.exists_cons_of_ne_nil hn
  obtain ⟨next, h₁, hindex, hs₁, hl₁, _, hnext⟩ := index_spec name hs hp hd
  rw [hsplit]
  unfold resolveFrom
  have hdir : (⟨p.object, p.file, false⟩ : UniquePtr φ).directory = some p := rfl
  simp only [access_live hp, ok_bind, hdir, hindex, Heap.drop, Bool.false_eq_true, if_false,
    pure, Except.pure]
  exact resolveFrom_spec hs hs₁ hl₁ hnext

/-- A path from the root that names nothing below it. -/
def Rootless (path : List Char) : Prop :=
  path.head? = some '/' ∧ split path.tail '/' false = []

instance (path : List Char) : Decidable (Rootless path) := inferInstanceAs (Decidable (_ ∧ _))

/-- A path from the working directory that names nothing. -/
def Empty (path : List Char) : Prop :=
  path.head? ≠ some '/' ∧ split path '/' false = []

instance (path : List Char) : Decidable (Empty path) := inferInstanceAs (Decidable (_ ∧ _))

theorem resolvePath_empty {path : List Char} (hn : Empty path) :
    h.resolvePath disk p path = .ok (some ⟨p.object, p.file, false⟩, h) := by
  unfold resolvePath
  rw [if_neg hn.1]
  exact resolveIn_nil hn.2

/-- The root that is returned has been destroyed. -/
theorem resolvePath_rootless {path : List Char} (hs : h.Sound disk) (hn : Rootless path) :
    ∃ f h', h.resolvePath disk p path = .ok (some f, h') ∧ h'.Sound disk ∧ h.Later h' ∧
      f.canDelete = false ∧ ¬h'.Live f.object := by
  obtain ⟨hs₁, hlive⟩ := hs.make (h.fs.getRoot disk)
  have hl₁ := h.later_make (h.fs.getRoot disk)
  obtain ⟨h₂, hdrop, hs₂, hl₂, _, _, hdead, _⟩ := hs₁.drop (f := (h.make (h.fs.getRoot disk)).1)
    hl₁ hlive fun _ => ⟨Nat.le_refl _, fun hperm =>
      Nat.lt_irrefl _ (hs.permanent_lt (hl₁.permanent.mp hperm))⟩
  unfold resolvePath
  rw [if_pos hn.1]
  simp only [resolveIn_nil hn.2, ok_bind, hdrop]
  exact ⟨_, h₂, rfl, hs₂, hl₂, rfl, hdead rfl⟩

/-- What another path leads to is alive. -/
theorem resolvePath_named {path : List Char} (hs : h.Sound disk) (hp : h.Live p.object)
    (hd : h.fs.Device p.fs p.dev) (hr : ¬Rootless path) (he : ¬Empty path) :
    ∃ r h', h.resolvePath disk p path = .ok (r, h') ∧ h'.Sound disk ∧ h.Later h' ∧
      ∀ f ∈ r, h.Obtained h' f := by
  unfold resolvePath
  by_cases hhead : path.head? = some '/'
  · rw [if_pos hhead]
    obtain ⟨hs₁, hlive⟩ := hs.make (h.fs.getRoot disk)
    have hl₁ := h.later_make (h.fs.getRoot disk)
    obtain ⟨r, h₂, hres, hs₂, hl₂, hr₂⟩ := resolveIn_cons path.tail
      (p := ⟨⟨h.fs.root, (disk h.fs.root).root, 0⟩, h.fs.objects⟩) hs₁ hlive (.inl ⟨rfl, rfl⟩)
      fun hnil => hr ⟨hhead, hnil⟩
    have hperm : ¬Permanent h₂.fs h.fs.objects := fun hperm =>
      Nat.lt_irrefl _ (hs.permanent_lt (hl₁.permanent.mp (hl₂.permanent.mp hperm)))
    obtain ⟨h₃, hdrop, hs₃, hl₃, hfs₃, hkeep, _⟩ := hs₂.drop
      (f := (h.make (h.fs.getRoot disk)).1) (hl₁.trans hl₂) (hl₂.live hlive)
      fun _ => ⟨Nat.le_refl _, hperm⟩
    have hres' : (h.make (h.fs.getRoot disk)).2.resolveIn disk
        ⟨⟨(h.make (h.fs.getRoot disk)).1.file.fs, (h.make (h.fs.getRoot disk)).1.file.inode,
          (h.make (h.fs.getRoot disk)).1.file.dev⟩, (h.make (h.fs.getRoot disk)).1.object⟩
        path.tail = .ok (r, h₂) := hres
    simp only [hres', ok_bind, hdrop]
    refine ⟨r, h₃, rfl, hs₃, hl₃, fun f hf => ?_⟩
    have hf₂ := hr₂ f hf
    have hne : f.object ≠ h.fs.objects := by
      intro heq
      cases hcan : f.canDelete with
      | false => exact hperm (heq ▸ hf₂.permanent hcan)
      | true => exact absurd (hf₂.owned hcan) (by rw [heq]; exact Nat.not_succ_le_self _)
    exact ⟨by rw [hfs₃]; exact hf₂.device, hkeep _ hf₂.live fun _ => hne,
      fun hc => by rw [hfs₃]; exact hf₂.borrowed hc, fun hc => hl₁.objects.trans (hf₂.owned hc)⟩
  · rw [if_neg hhead]
    exact resolveIn_cons path hs hp hd fun hnil => he ⟨hhead, hnil⟩

end Heap

end SupOS.VFS
