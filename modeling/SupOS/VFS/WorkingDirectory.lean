import SupOS.VFS.Ownership
import SupOS.VFS.Parents

/-! The working directories over all runs: as long as no process changes to the root by a path that
names nothing, or to its own directory while it owns it, each one is alive. -/

namespace SupOS.VFS

open Lib Libcpp Heap

variable {φ : Type} {disk : φ → FileSystem}

namespace World

variable {w w' : World φ} {h' : Heap φ} {f old : UniquePtr φ} {p child : Nat} {path : List Char}

/-- What a process can have as its working directory beside those of the others. -/
structure Fits (w : World φ) (f : UniquePtr φ) : Prop where
  device : w.heap.fs.Device f.file.fs f.file.dev
  live : w.heap.Live f.object
  borrowed : f.canDelete = false →
    ∃ k q, w.heap.fs.mountedDirs.find k = some q ∧ q.object = f.object
  owned : f.canDelete = true → ¬Permanent w.heap.fs f.object

/-- The working directories are alive, and each is owned by one process or made by a mount. -/
structure Sane (disk : φ → FileSystem) (w : World φ) : Prop where
  sound : w.heap.Sound disk
  fits : ∀ p f, w.wds p = some f → w.Fits f
  type : ∀ p f, w.wds p = some f → f.file.type = .directory
  distinct : ∀ p q f g, p ≠ q → w.wds p = some f → w.wds q = some g → f.canDelete = true →
    g.canDelete = true → f.object ≠ g.object

theorem Fits.later (hf : w.Fits f) (hl : w.heap.Later h') : ({ w with heap := h' } : World φ).Fits f :=
  ⟨hl.device.mpr hf.device, hl.live hf.live, fun hc => by rw [hl.mountedDirs]; exact hf.borrowed hc,
    fun hc hperm => hf.owned hc (hl.permanent.mp hperm)⟩

theorem Sane.later (hw : w.Sane disk) (hs : h'.Sound disk) (hl : w.heap.Later h') :
    ({ w with heap := h' } : World φ).Sane disk :=
  ⟨hs, fun p f hp => (hw.fits p f hp).later hl, hw.type, hw.distinct⟩

/-- What a lookup got fits, and no process owns it yet. -/
theorem fits_of_obtained (hw : w.Sane disk) (hl : w.heap.Later h') (hf : w.heap.Obtained h' f) :
    ({ w with heap := h' } : World φ).Fits f ∧
      (f.canDelete = true → ∀ q g, w.wds q = some g → g.object ≠ f.object) := by
  refine ⟨⟨hf.device, hf.live, hf.borrowed, fun hc => hf.not_permanent hw.sound hl hc⟩,
    fun hc q g hq heq => ?_⟩
  have hold := (hw.fits q g hq).live.1
  have hnew := hf.owned hc
  omega

/-- A process takes a working directory that no other one owns. -/
theorem Sane.set (hw : w.Sane disk) (hf : w.Fits f) (htype : f.file.type = .directory)
    (hnew : f.canDelete = true → ∀ q g, q ≠ p → w.wds q = some g → g.object ≠ f.object) :
    ({ w with wds := Function.update w.wds p (some f) } : World φ).Sane disk := by
  have hcases (q : Nat) (g : UniquePtr φ) (hq : Function.update w.wds p (some f) q = some g) :
      (q = p ∧ g = f) ∨ (q ≠ p ∧ w.wds q = some g) := by
    by_cases hqp : q = p
    · subst hqp
      rw [Function.update_self] at hq
      exact .inl ⟨rfl, (Option.some.inj hq).symm⟩
    · rw [Function.update_of_ne hqp] at hq
      exact .inr ⟨hqp, hq⟩
  refine ⟨hw.sound, fun q g hq => ?_, fun q g hq => ?_, fun q q' g g' hne hq hq' hc hc' => ?_⟩
  · obtain ⟨_, rfl⟩ | ⟨_, hold⟩ := hcases q g hq
    · exact ⟨hf.device, hf.live, hf.borrowed, hf.owned⟩
    · have hold := hw.fits q g hold
      exact ⟨hold.device, hold.live, hold.borrowed, hold.owned⟩
  · obtain ⟨_, rfl⟩ | ⟨_, hold⟩ := hcases q g hq
    · exact htype
    · exact hw.type q g hold
  · obtain ⟨rfl, rfl⟩ | ⟨hqp, hold⟩ := hcases q g hq <;>
      obtain ⟨rfl, rfl⟩ | ⟨hqp', hold'⟩ := hcases q' g' hq'
    · exact absurd rfl hne
    · exact (hnew hc q' g' hqp' hold').symm
    · exact hnew hc' q g hqp hold
    · exact hw.distinct q q' g g' hne hold hold' hc hc'

theorem Sane.clear (hw : w.Sane disk) (p : Nat) :
    ({ w with wds := Function.update w.wds p none } : World φ).Sane disk := by
  have hcases (q : Nat) (g : UniquePtr φ) (hq : Function.update w.wds p none q = some g) :
      w.wds q = some g := by
    by_cases hqp : q = p
    · rw [hqp, Function.update_self] at hq
      cases hq
    · rwa [Function.update_of_ne hqp] at hq
  exact ⟨hw.sound, fun q g hq => ⟨(hw.fits q g (hcases q g hq)).device,
    (hw.fits q g (hcases q g hq)).live, (hw.fits q g (hcases q g hq)).borrowed,
    (hw.fits q g (hcases q g hq)).owned⟩, fun q g hq => hw.type q g (hcases q g hq),
    fun q q' g g' hne hq hq' => hw.distinct q q' g g' hne (hcases q g hq) (hcases q' g' hq')⟩

/-- The working directory of a process is destroyed, and no other one with it. -/
theorem Sane.drop (hw : w.Sane disk) (hp : w.wds p = some old) :
    ∃ h', w.heap.drop old = .ok h' ∧ ({ heap := h', wds := Function.update w.wds p none } :
      World φ).Sane disk ∧ h'.fs = w.heap.fs ∧
      (∀ o, w.heap.Live o → (old.canDelete = true → o ≠ old.object) → h'.Live o) ∧
      (old.canDelete = true → ¬h'.Live old.object) := by
  have hold := hw.fits p old hp
  have hl₀ : (⟨{ w.heap.fs with objects := 0 }, w.heap.deleted⟩ : Heap φ).Later w.heap :=
    ⟨rfl, Nat.zero_le _, fun o ho => .inl ho⟩
  obtain ⟨h', hdrop, hs, _, hfs, hkeep, hdead, _⟩ := hw.sound.drop hl₀ hold.live fun hc =>
    ⟨Nat.zero_le _, hold.owned hc⟩
  refine ⟨h', hdrop, ?_, hfs, hkeep, hdead⟩
  have hcleared := hw.clear p
  refine ⟨hs, fun q g hq => ?_, hcleared.type, hcleared.distinct⟩
  have hg := hcleared.fits q g hq
  have hqp : q ≠ p := by
    rintro rfl
    simp only [Function.update_self] at hq
    cases hq
  refine ⟨by rw [hfs]; exact hg.device, hkeep _ hg.live fun hc heq => ?_, by rw [hfs]; exact hg.borrowed,
    by rw [hfs]; exact hg.owned⟩
  -- Another process does not own the same object, and what it borrows is permanent.
  simp only [Function.update_of_ne hqp] at hq
  cases hcan : g.canDelete with
  | true => exact hw.distinct q p g old hqp hq hp hcan hc heq
  | false =>
    exact hold.owned hc (heq ▸ .inl (hg.borrowed hcan))

/-- A process changes to a directory that it does not have yet. -/
theorem Sane.replace (hw : w.Sane disk) (hp : w.wds p = some old) (hf : w.Fits f)
    (htype : f.file.type = .directory)
    (hnew : f.canDelete = true → ∀ q g, w.wds q = some g → g.object ≠ f.object) :
    ∃ h', w.heap.drop old = .ok h' ∧
      ({ heap := h', wds := Function.update w.wds p (some f) } : World φ).Sane disk := by
  obtain ⟨h', hdrop, hcleared, hfs, hkeep, _⟩ := hw.drop hp
  refine ⟨h', hdrop, ?_⟩
  have hlive : h'.Live f.object := hkeep _ hf.live fun hc heq => by
    cases hcan : f.canDelete with
    | true => exact hnew hcan p old hp heq.symm
    | false => exact (hw.fits p old hp).owned hc (heq ▸ .inl (hf.borrowed hcan))
  have hset := hcleared.set (f := f) (p := p) ⟨by rw [hfs]; exact hf.device, hlive,
    by rw [hfs]; exact hf.borrowed, by rw [hfs]; exact hf.owned⟩ htype fun hcan q g hqp hq => ?_
  · rwa [Function.update_idem] at hset
  · simp only [Function.update_of_ne hqp] at hq
    exact hnew hcan q g hq

/-! ### Commands -/

/-- A process whose working directory is there. -/
theorem Sane.wd (hw : w.Sane disk) (hp : w.wds p = some f) :
    ∃ d, w.wd p = .ok (f, d) ∧ d.object = f.object ∧ d.file = f.file ∧
      w.heap.Live d.object ∧ w.heap.fs.Device d.fs d.dev := by
  have hf := hw.fits p f hp
  have hdir : f.directory = some ⟨⟨f.file.fs, f.file.inode, f.file.dev⟩, f.object⟩ := by
    unfold UniquePtr.directory File.directory
    rw [if_pos (hw.type p f hp)]
    rfl
  refine ⟨⟨⟨f.file.fs, f.file.inode, f.file.dev⟩, f.object⟩, ?_, rfl, ?_, hf.live, hf.device⟩
  · unfold World.wd
    simp only [hp, hdir]
  · have htype := hw.type p f hp
    cases hfile : f.file with
    | mk fs inode type dev =>
      rw [hfile] at htype
      cases htype
      rfl

theorem wd_of_ok {d : Pointer φ} (h : w.wd p = .ok (f, d)) : w.wds p = some f := by
  unfold World.wd at h
  split at h
  · cases h
  · rename_i g hg
    split at h
    · cases h
    · cases h
      exact hg

/-- The three kinds of paths. -/
theorem Sane.resolvePath (hw : w.Sane disk) (hp : w.wds p = some f) (path : List Char) :
    (Empty path ∧ w.resolvePath disk p path = .ok (some ⟨f.object, f.file, false⟩, w.heap)) ∨
    (Rootless path ∧ ∃ g h', w.resolvePath disk p path = .ok (some g, h') ∧ h'.Sound disk ∧
      w.heap.Later h' ∧ g.canDelete = false ∧ ¬h'.Live g.object) ∨
    ¬Empty path ∧ ¬Rootless path ∧ ∃ r h', w.resolvePath disk p path = .ok (r, h') ∧
      h'.Sound disk ∧ w.heap.Later h' ∧ ∀ g ∈ r, w.heap.Obtained h' g := by
  obtain ⟨d, hwd, hobj, hfile, hlive, hdev⟩ := hw.wd hp
  unfold World.resolvePath
  simp only [hwd, ok_bind]
  by_cases he : Empty path
  · refine .inl ⟨he, ?_⟩
    rw [resolvePath_empty he, hobj, hfile]
  by_cases hr : Rootless path
  · exact .inr (.inl ⟨hr, resolvePath_rootless hw.sound hr⟩)
  · exact .inr (.inr ⟨he, hr, resolvePath_named hw.sound hlive hdev hr he⟩)

/-- The destructor of what a lookup got. -/
theorem Sane.drop_obtained (hw : w.Sane disk) (hs : h'.Sound disk) (hl : w.heap.Later h')
    (hf : w.heap.Obtained h' f) :
    ∃ h₁, h'.drop f = .ok h₁ ∧ ({ w with heap := h₁ } : World φ).Sane disk := by
  obtain ⟨h₁, hdrop, hs₁, hl₁, _⟩ := hs.drop hl hf.live fun hc =>
    ⟨hf.owned hc, hf.not_permanent hw.sound hl hc⟩
  exact ⟨h₁, hdrop, hw.later hs₁ hl₁⟩

/-- The working directories are alive. -/
def WdsLive (w : World φ) : Prop :=
  ∀ p f, w.wds p = some f → f.file.type = .directory ∧ w.heap.Live f.object

theorem Sane.wdsLive (hw : w.Sane disk) : w.WdsLive := fun p f hp =>
  ⟨hw.type p f hp, (hw.fits p f hp).live⟩

/-- A process changes its directory neither to the root by a path that names nothing nor to the
directory that it owns. -/
def CarefulPath (w : World φ) (p : Nat) (path : List Char) : Prop :=
  ¬Rootless path ∧ (Empty path → ∀ f, w.wds p = some f → f.canDelete = false)

theorem Sane.syschdir_careful (hw : w.Sane disk) (hp : w.wds p = some old) {inside : Bool}
    (hc : inside = true → w.CarefulPath p path) :
    ∃ res w', w.syschdir disk p inside path = .ok (res, w') ∧ w'.Sane disk := by
  obtain ⟨d, hwd, hobj, hfile, hlive, hdev⟩ := hw.wd hp
  have hres := hw.resolvePath hp path
  unfold World.resolvePath at hres
  simp only [hwd, ok_bind] at hres
  unfold World.syschdir
  simp only [hwd, ok_bind]
  cases inside with
  | false => exact ⟨_, w, rfl, hw⟩
  | true =>
    obtain ⟨hroot, hempty⟩ := hc rfl
    obtain ⟨he, hres⟩ | ⟨hr, _⟩ | ⟨_, _, r, h₁, hres, hs₁, hl₁, hf⟩ := hres
    · have hborrowed := hempty he old hp
      obtain ⟨h', hdrop, hsane⟩ := hw.replace (f := ⟨old.object, old.file, false⟩) hp
        ⟨(hw.fits p old hp).device, (hw.fits p old hp).live,
          fun _ => (hw.fits p old hp).borrowed hborrowed, nofun⟩ (hw.type p old hp) nofun
      refine ⟨0, _, ?_, hsane⟩
      simp [hres, access_live (hw.fits p old hp).live, hw.type p old hp, hdrop, ok_bind, pure,
        Except.pure]
    · exact absurd hr hroot
    · simp only [hres, ok_bind, Bool.not_true, Bool.false_eq_true, if_false]
      cases r with
      | none => exact ⟨_, _, rfl, hw.later hs₁ hl₁⟩
      | some f =>
        have hf := hf f rfl
        simp only [access_live hf.live, ok_bind]
        by_cases htype : f.file.type = .directory
        · obtain ⟨hfits, hnew⟩ := fits_of_obtained hw hl₁ hf
          obtain ⟨h₂, hdrop, hsane⟩ := (hw.later hs₁ hl₁).replace hp hfits htype hnew
          simp only [htype, ne_eq, not_true_eq_false, if_false, hdrop, ok_bind]
          exact ⟨_, _, rfl, hsane⟩
        · obtain ⟨h₂, hdrop, hsane⟩ := hw.drop_obtained hs₁ hl₁ hf
          simp only [htype, ne_eq, not_false_eq_true, if_true, hdrop, ok_bind]
          exact ⟨_, _, rfl, hsane⟩

/-- A call that is not careful reads the root that was destroyed, or leaves the process with the
directory that it destroys. -/
theorem Sane.syschdir_careless (hw : w.Sane disk) (hp : w.wds p = some old)
    (hc : ¬w.CarefulPath p path) {res : Nat}
    (h : w.syschdir disk p true path = .ok (res, w')) : ¬w'.WdsLive := by
  obtain ⟨d, hwd, hobj, hfile, hlive, hdev⟩ := hw.wd hp
  have hres := hw.resolvePath hp path
  unfold World.resolvePath at hres
  simp only [hwd, ok_bind] at hres
  unfold World.syschdir at h
  simp only [hwd, ok_bind, Bool.not_true, Bool.false_eq_true, if_false] at h
  obtain ⟨he, hres⟩ | ⟨_, g, h₁, hres, _, _, _, hdead⟩ | ⟨he, hr, _⟩ := hres
  · have howned : old.canDelete = true := by
      by_contra hborrowed
      refine hc ⟨fun hroot => he.1 hroot.1, fun _ f hf => ?_⟩
      obtain rfl := Option.some.inj (hp.symm.trans hf)
      simpa using hborrowed
    obtain ⟨h₁, hdrop, _, _, _, hdead⟩ := hw.drop hp
    have hlive := (hw.fits p old hp).live
    simp [hres, access_live hlive, hw.type p old hp, hdrop, ok_bind, pure, Except.pure] at h
    obtain ⟨_, rfl⟩ := h
    intro hall
    exact hdead howned (hall p ⟨old.object, old.file, false⟩ (Function.update_self ..)).2
  · simp [hres, access_dead hdead, ok_bind, error_bind] at h
  · exact absurd ⟨hr, fun hempty => absurd hempty he⟩ hc

theorem Sane.resolve (hw : w.Sane disk) (hp : w.wds p = some old)
    (h : w.resolve disk p path = .ok w') : w'.Sane disk := by
  unfold World.resolve at h
  obtain ⟨_, hres⟩ | ⟨_, g, h₁, hres, hs₁, hl₁, hcan, _⟩ | ⟨_, _, r, h₁, hres, hs₁, hl₁, hf⟩ :=
    hw.resolvePath hp path
  · simp only [hres, ok_bind, Heap.drop, Bool.false_eq_true, if_false, pure, Except.pure] at h
    obtain rfl := Except.ok.inj h
    exact hw
  · simp only [hres, ok_bind, Heap.drop, hcan, Bool.false_eq_true, if_false, pure,
      Except.pure] at h
    obtain rfl := Except.ok.inj h
    exact hw.later hs₁ hl₁
  · simp only [hres, ok_bind] at h
    cases r with
    | none =>
      obtain rfl := Except.ok.inj h
      exact hw.later hs₁ hl₁
    | some f =>
      obtain ⟨h₂, hdrop, hsane⟩ := hw.drop_obtained hs₁ hl₁ (hf f rfl)
      simp only [hdrop, ok_bind] at h
      obtain rfl := Except.ok.inj h
      exact hsane

theorem Sane.fork (hw : w.Sane disk) (h : w.fork disk p child = .ok w') : w'.Sane disk := by
  unfold World.fork at h
  obtain ⟨⟨old, d⟩, hwd, h⟩ := bind_eq_ok.mp h
  obtain ⟨d', hwd', _, _, hlive, hdev⟩ := hw.wd (wd_of_ok hwd)
  obtain rfl : d' = d := congrArg Prod.snd (Except.ok.inj (hwd'.symm.trans hwd))
  obtain ⟨r, h₁, hindex, hs₁, hl₁, _, hf⟩ := index_spec "." hw.sound hlive hdev
  simp only [hindex, ok_bind] at h
  cases r with
  | none => cases h
  | some f =>
    obtain ⟨_, htype, h⟩ := bind_eq_ok.mp h
    obtain rfl := Except.ok.inj h
    obtain ⟨hfits, hnew⟩ := fits_of_obtained hw hl₁ (hf f rfl)
    exact (hw.later hs₁ hl₁).set hfits (by simpa using assert_eq_ok.mp htype)
      fun hc q g _ hq => hnew hc q g hq

theorem Sane.exit (hw : w.Sane disk) (h : w.exit p = .ok w') : w'.Sane disk := by
  unfold World.exit at h
  obtain ⟨⟨old, d⟩, hwd, h⟩ := bind_eq_ok.mp h
  obtain ⟨h', hdrop, hsane, _⟩ := hw.drop (wd_of_ok hwd)
  simp only [hdrop, ok_bind] at h
  obtain rfl := Except.ok.inj h
  exact hsane

/-- A mount keeps the objects apart: the new directory and the one that it covers stay. -/
theorem Sane.mounted (hw : w.Sane disk) {dir : Pointer φ} {fs : φ} {s' : FS φ}
    (hdev : w.heap.fs.Device dir.fs dir.dev) (hlive : w.heap.Live dir.object)
    (hfree : ∀ p f, w.wds p = some f → f.object ≠ dir.object)
    (hm : w.heap.fs.Mounted disk s' dir fs) :
    ({ w with heap := { w.heap with fs := s' } } : World φ).Sane disk := by
  have hmono (o : Nat) (ho : w.heap.Live o) : (⟨s', w.heap.deleted⟩ : Heap φ).Live o :=
    ⟨by simp only [hm.objects]; exact Nat.lt_succ_of_lt ho.1, ho.2⟩
  have hperm (o : Nat) (ho : Permanent s' o) :
      Permanent w.heap.fs o ∨ o = w.heap.fs.objects ∨ o = dir.object := by
    obtain ⟨k, q, hq, rfl⟩ | ⟨k, c, hc, rfl⟩ := ho
    · obtain hold | ⟨_, _, rfl⟩ := hm.mounted_cases hq
      · exact .inl (.inl ⟨k, q, hold, rfl⟩)
      · exact .inr (.inl rfl)
    · obtain hold | ⟨_, rfl⟩ := hm.covered_cases hc
      · exact .inl (.inr ⟨k, c, hold, rfl⟩)
      · exact .inr (.inr rfl)
  refine ⟨⟨hm.valid hw.sound.valid hdev, fun o ho => ?_, fun o ho => ?_⟩, fun p f hp => ?_, hw.type,
    hw.distinct⟩
  · obtain hold | rfl | rfl := hperm o ho
    · exact hmono o (hw.sound.permanent o hold)
    · exact ⟨by simp only [hm.objects]; exact Nat.lt_succ_self _,
        fun hdel => Nat.lt_irrefl _ (hw.sound.deleted _ hdel)⟩
    · exact hmono _ hlive
  · simp only [hm.objects]
    exact Nat.lt_succ_of_lt (hw.sound.deleted o ho)
  · have hf := hw.fits p f hp
    refine ⟨hm.device hf.device, hmono _ hf.live, fun hc => ?_, fun hc ho => ?_⟩
    · obtain ⟨k, q, hq, hobj⟩ := hf.borrowed hc
      exact ⟨k, q, by simp only [hm.mounted, hq, Option.some_or], hobj⟩
    · obtain hold | heq | heq := hperm _ ho
      · exact hf.owned hc hold
      · exact Nat.lt_irrefl _ (heq ▸ hf.live.1)
      · exact hfree p f hp heq

theorem Sane.mount (hw : w.Sane disk) (hp : w.wds p = some old) {room : Nat}
    (hroom : room < kernelSpace) {fs : φ} (h : w.mount disk p room path fs = .ok w') :
    w'.Sane disk := by
  unfold World.mount at h
  obtain ⟨_, hres⟩ | ⟨_, g, h₁, hres, _, _, _, hdead⟩ | ⟨_, _, r, h₁, hres, hs₁, hl₁, hf⟩ :=
    hw.resolvePath hp path
  · -- The pointer to the working directory itself cannot be released.
    simp only [hres, ok_bind, access_live (hw.fits p old hp).live] at h
    split at h
    · cases h
    · obtain ⟨s', hmount, _⟩ := bind_eq_ok.mp h
      have hcan := ((FS.mount_spec hw.sound.valid hroom).of_ok hmount).1
      cases hcan
  · simp only [hres, ok_bind, access_dead hdead, error_bind] at h
    cases h
  · simp only [hres, ok_bind] at h
    cases r with
    | none => cases h
    | some f =>
      have hf := hf f rfl
      simp only [access_live hf.live, ok_bind] at h
      split at h
      · cases h
      · rename_i dir hdir
        obtain ⟨hobj, hfs, hdev, _⟩ := directory_cases hdir
        obtain ⟨s', hmount, h⟩ := bind_eq_ok.mp h
        obtain rfl := Except.ok.inj h
        obtain ⟨hcan, hm⟩ := (FS.mount_spec hs₁.valid hroom).of_ok hmount
        have hw₁ := hw.later hs₁ hl₁
        refine hw₁.mounted (by simp only [hfs, hdev]; exact hf.device) (hobj ▸ hf.live)
          (fun q g hq => ?_) hm
        rw [hobj]
        exact (fits_of_obtained hw hl₁ hf).2 hcan q g hq

/-! ### Runs -/

/-- `malloc` has less than the address space for a mount, and a child has a new number. -/
def Admits (w : World φ) : Command φ → Prop
  | .mount _ room _ _ => room < kernelSpace
  | .fork _ child => w.wds child = none
  | _ => True

def Careful (w : World φ) : Command φ → Prop
  | .syschdir p inside path => inside = true → w.CarefulPath p path
  | _ => True

def machine (disk : φ → FileSystem) : Lib.Machine (World φ) (Command φ) Fault where
  start w := ∃ root, w = boot disk root
  admits := Admits
  apply := apply disk

theorem sane_boot (root : φ) : (boot disk root).Sane disk := by
  have hnone (o : Nat) : ¬Permanent (FS.new root) o := by
    intro ho
    obtain ⟨_, _, h, _⟩ | ⟨_, _, h, _⟩ := ho <;> cases h
  have hs : (⟨.new root, []⟩ : Heap φ).Sound disk :=
    ⟨FS.valid_new root, fun o ho => absurd ho (hnone o), nofun⟩
  have hwd (p : Nat) (f : UniquePtr φ) (hp : (boot disk root).wds p = some f) :
      p = 1 ∧ f = ⟨0, (FS.new root).getRoot disk, true⟩ := by
    unfold boot at hp
    by_cases hone : p = 1
    · subst hone
      simp only [Function.update_self] at hp
      exact ⟨rfl, (Option.some.inj hp).symm⟩
    · simp only [Function.update_of_ne hone] at hp
      cases hp
  obtain ⟨hs', hlive⟩ := hs.make ((FS.new root).getRoot disk)
  refine ⟨hs', fun p f hp => ?_, fun p f hp => ?_, fun p q f g hne hp hq => ?_⟩
  · obtain ⟨_, rfl⟩ := hwd p f hp
    exact ⟨.inl ⟨rfl, rfl⟩, hlive, nofun, fun _ ho => hnone _ ho⟩
  · obtain ⟨_, rfl⟩ := hwd p f hp
    rfl
  · exact absurd ((hwd p f hp).1.trans (hwd q g hq).1.symm) hne

theorem apply_sane {c : Command φ} (hw : w.Sane disk) (ha : w.Admits c) (hc : w.Careful c)
    (h : w.apply disk c = .ok w') : w'.Sane disk := by
  -- A process that has no working directory stops the kernel.
  have hwd {β : Type} {p : Nat} {k : UniquePtr φ × Pointer φ → Except Fault β} {b : β}
      (h : (w.wd p >>= k) = .ok b) : ∃ old, w.wds p = some old := by
    obtain ⟨⟨old, d⟩, hd, _⟩ := bind_eq_ok.mp h
    exact ⟨old, wd_of_ok hd⟩
  have hres {p : Nat} {path : List Char} {x : Option (UniquePtr φ) × Heap φ}
      (h : w.resolvePath disk p path = .ok x) : ∃ old, w.wds p = some old := hwd h
  cases c with
  | resolve p path =>
    obtain ⟨x, hx, _⟩ := bind_eq_ok.mp h
    obtain ⟨old, hp⟩ := hres hx
    exact hw.resolve hp h
  | syschdir p inside path =>
    obtain ⟨⟨res, w₁⟩, hx, h⟩ := bind_eq_ok.mp h
    obtain rfl := Except.ok.inj h
    obtain ⟨old, hp⟩ := hwd hx
    obtain ⟨res', w₂, heq, hsane⟩ := hw.syschdir_careful hp hc
    obtain ⟨_, rfl⟩ := Prod.mk.inj (Except.ok.inj (heq.symm.trans hx))
    exact hsane
  | fork p child => exact hw.fork h
  | exit p => exact hw.exit h
  | mount p room path fs =>
    obtain ⟨x, hx, _⟩ := bind_eq_ok.mp h
    obtain ⟨old, hp⟩ := hres hx
    exact hw.mount hp ha h

theorem run_sane (h : (machine disk).Run Careful w) : w.Sane disk := by
  refine h.invariant (fun w hs => ?_) fun w w' c hI ha hC hs => apply_sane hI ha hC hs
  obtain ⟨root, rfl⟩ := hs
  exact sane_boot root

/-- As long as each change of directory is careful, the working directories are alive; a path leads
to a live file unless it is the root's and names nothing; and a call of `syschdir` keeps the
directory alive just when it is careful. -/
theorem run_live (h : (machine disk).Run Careful w) : w.WdsLive ∧ ∀ p f, w.wds p = some f →
    (∀ path, ∃ r h', w.resolvePath disk p path = .ok (r, h') ∧
      ((∀ g, r = some g → h'.Live g.object) ↔ ¬Rootless path)) ∧
    ∀ inside path, (∃ res w', w.syschdir disk p inside path = .ok (res, w') ∧ w'.WdsLive) ↔
      w.Careful (.syschdir p inside path) := by
  have hw := run_sane h
  refine ⟨hw.wdsLive, fun p f hp => ⟨fun path => ?_, fun inside path => ⟨fun hlive => ?_, fun hc => ?_⟩⟩⟩
  · obtain ⟨he, hres⟩ | ⟨hr, g, h₁, hres, _, _, _, hdead⟩ | ⟨_, hr, r, h₁, hres, _, _, hf⟩ :=
      hw.resolvePath hp path
    · refine ⟨_, _, hres, fun _ hr => he.1 hr.1, fun _ g hg => ?_⟩
      obtain rfl := Option.some.inj hg
      exact (hw.fits p f hp).live
    · exact ⟨_, _, hres, fun hall => absurd (hall g rfl) hdead, fun hn => absurd hr hn⟩
    · exact ⟨_, _, hres, fun _ => hr, fun _ g hg => (hf g hg).live⟩
  · obtain ⟨res, w', hcall, hlive⟩ := hlive
    intro hin
    subst hin
    by_contra hc
    exact hw.syschdir_careless hp hc hcall hlive
  · obtain ⟨res, w', hcall, hsane⟩ := hw.syschdir_careful hp hc
    exact ⟨res, w', hcall, hsane.wdsLive⟩

instance (c : Command φ) : Decidable (w.Admits c) := by
  cases c <;> unfold Admits <;> infer_instance

theorem carefulPath_iff : w.CarefulPath p path ↔
    ¬Rootless path ∧ (Empty path → (w.wds p).all (fun f => !f.canDelete) = true) := by
  unfold CarefulPath
  refine and_congr_right fun _ => forall_congr' fun _ => ?_
  cases w.wds p <;> simp

instance : Decidable (w.CarefulPath p path) := decidable_of_iff _ carefulPath_iff.symm

instance (c : Command φ) : Decidable (w.Careful c) := by
  cases c <;> unfold Careful <;> infer_instance

/-- Init changes to a file system that is mounted, and from there to the same directory. -/
theorem run_live_mounted : ∃ w, (machine fun _ : Fin 3 => FS.small).Run Careful w ∧
    (w.wds 1).any (fun f => f.file.dev == 1) = true ∧ w.WdsLive := by
  have hcheck (w : World (Fin 3)) (c : Command (Fin 3))
      (hc : decide (w.Admits c ∧ w.Careful c) = true) : w.Admits c ∧ w.Careful c :=
    of_decide_eq_true hc
  obtain ⟨w, hw, hP⟩ := Machine.exists_run (M := machine fun _ : Fin 3 => FS.small) hcheck
    ⟨0, rfl⟩ [.mount 1 (2 ^ 20) "/tmp".toList 1, .syschdir 1 true "/tmp/".toList,
      .syschdir 1 true "".toList, .fork 1 2, .exit 1, .fork 2 1]
    (P := fun w : World (Fin 3) => (w.wds 1).any fun f => f.file.dev == 1) (by decide +kernel)
  exact ⟨w, hw, hP, (run_live hw).1⟩

/-- The root that a path of a separator leads to has been destroyed, and so is the directory of a
process that changes to it by the empty path. -/
theorem paths_dangle :
    (¬∀ w, (machine fun _ : Fin 3 => FS.small).Run (fun _ _ => True) w → ∀ p path g h',
      w.resolvePath (fun _ => FS.small) p path = .ok (some g, h') → h'.Live g.object) ∧
    ¬∀ w, (machine fun _ : Fin 3 => FS.small).Run (fun _ _ => True) w → w.WdsLive := by
  have hboot : (machine fun _ : Fin 3 => FS.small).Run (fun _ _ => True)
      (boot (fun _ => FS.small) 0) := .start ⟨0, rfl⟩
  constructor
  · intro hall
    have hw := run_sane (.start ⟨(0 : Fin 3), rfl⟩ :
      (machine fun _ : Fin 3 => FS.small).Run Careful _)
    obtain ⟨he, _⟩ | ⟨_, g, h', hres, _, _, _, hdead⟩ | ⟨_, hr, _⟩ :=
      hw.resolvePath (p := 1) rfl "/".toList
    · exact absurd rfl he.1
    · exact hdead (hall _ hboot 1 _ g h' hres)
    · exact hr (by decide)
  · intro hall
    obtain ⟨w, hw, hP⟩ := Machine.exists_run (M := machine fun _ : Fin 3 => FS.small)
      (C := fun _ _ => True) (fun w c hc => ⟨of_decide_eq_true (p := w.Admits c) hc, trivial⟩)
      ⟨0, rfl⟩ [.syschdir 1 true "".toList]
      (P := fun w : World (Fin 3) => (w.wds 1).any fun f => decide ¬w.heap.Live f.object) (by decide +kernel)
    obtain ⟨f, hf, hdead⟩ := (Option.any_eq_true _ _).mp hP
    exact of_decide_eq_true hdead (hall w hw 1 f hf).2

end World

end SupOS.VFS
