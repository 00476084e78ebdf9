import SupOS.RamFS.Bookkeeping

/-! The calls of a file system in memory one after another: which keep the link counts and the
parents right. -/

namespace SupOS.RamFS

open Lib
open SupOS.Ext2 (isReg isDir)
open SupOS.VFS (FileType)

namespace FS

variable {s s' : FS} {c : Call}

/-- The directories of a call are directories, and the file is one that has been made. -/
def Admits (s : FS) : Call → Prop
  | .addEntry dir _ _ _ _ => s.type dir = some .directory
  | .addFile dir _ f => s.type dir = some .directory ∧ f < s.files.length
  | .getNewBlockDevice _ _ _ => True
  | .getNewCharacterDevice _ _ _ => True
  | .removeEntry dir _ => s.type dir = some .directory
  | .removeDirectory dir _ => s.type dir = some .directory
  | .sysrename dir₁ _ dir₂ _ => s.type dir₁ = some .directory ∧ s.type dir₂ = some .directory

instance : Decidable (s.Admits c) := by
  cases c <;> unfold Admits <;> infer_instance

/-- A new file comes under a new name, in a directory whose links can be counted, and nothing is
removed or moved. -/
def Careful (s : FS) : Call → Prop
  | .addEntry dir name _ _ mode =>
    s.find dir name = none ∧ (isReg mode = false → (s.nlink dir).toNat + 1 < 2 ^ 16)
  | .addFile dir name f => s.CarefulFile dir name f
  | .getNewBlockDevice _ _ _ => True
  | .getNewCharacterDevice _ _ _ => True
  | .removeEntry _ _ => False
  | .removeDirectory _ _ => False
  | .sysrename _ _ dir₂ name₂ => (s.find dir₂ name₂).isSome

instance : Decidable (s.Careful c) := by
  cases c <;> unfold Careful <;> infer_instance

def machine : Lib.Machine FS Call Fault where
  start s := s = new
  admits := Admits
  apply := apply

theorem sane_new : new.Sane := by
  have hnew : new = ⟨[⟨.directory, 0, rootMode, 2, 0, 0⟩], [⟨0, ".", 0⟩, ⟨0, "..", 0⟩], 1⟩ := by
    decide +kernel
  have hzero {f : Nat} (hf : f < 1) : f = 0 := Nat.lt_one_iff.mp hf
  have hentries (e : Entry) (he : e ∈ [(⟨0, ".", 0⟩ : Entry), ⟨0, "..", 0⟩]) :
      e = ⟨0, ".", 0⟩ ∨ e = ⟨0, "..", 0⟩ := by simpa using he
  rw [hnew]
  refine ⟨rfl, fun e he => ?_, fun d hd => ?_, fun f hf => ?_, fun f hf => ?_,
    fun e he h₁ h₂ => ?_⟩
  · obtain rfl | rfl := hentries e he <;> exact ⟨rfl, Nat.zero_lt_one⟩
  · obtain rfl := hzero (type_lt hd)
    decide +kernel
  · cases f with
    | zero => cases hf
    | succ f => rfl
  · obtain rfl := hzero hf
    decide
  · obtain rfl | rfl := hentries e he
    · exact absurd rfl h₁
    · exact absurd rfl h₂

/-- A new file in a directory that has its name counts a link though it has no entry. -/
theorem Sane.newFile_taken (hs : s.Sane) {dir : Nat} {name : String} {uid gid mode : UInt16}
    (hd : s.type dir = some .directory) (hn : (s.find dir name).isSome) :
    ¬((s.getNewFile uid gid mode).addFile dir name s.files.length).Correct := by
  have hmade : (s.getNewFile uid gid mode).Sane := hs.make (by decide) uid gid mode
  have hlt := type_lt hd
  refine hmade.addFile_careless ?_ ?_ ?_
  · rw [getNewFile, type_make, if_neg (by omega), hd]
  · rw [getNewFile, length_make]
    exact Nat.lt_succ_self _
  · rintro (⟨_, hnone, _⟩ | ⟨hdevice, _⟩)
    · rw [show (s.getNewFile uid gid mode).find dir name = s.find dir name from rfl] at hnone
      rw [hnone] at hn
      cases hn
    · rw [linked_iff.mpr (.inl (by rw [getNewFile, type_make, if_pos rfl]))] at hdevice
      cases hdevice

/-- A new file or directory keeps the books just when its name is new and its parent can count. -/
theorem Sane.addEntry (hs : s.Sane) {dir : Nat} {name : String} {uid gid mode : UInt16}
    (hd : s.type dir = some .directory) (h : s.addEntry dir name uid gid mode = .ok s') :
    (s.Careful (.addEntry dir name uid gid mode) → s'.Sane) ∧
      (¬s.Careful (.addEntry dir name uid gid mode) → ¬s'.Correct) := by
  have hlt := type_lt hd
  unfold FS.addEntry at h
  split at h
  · rename_i hreg
    obtain rfl := Except.ok.inj h
    have hnew : (s.getNewFile uid gid mode).type s.files.length = some .regularFile := by
      rw [getNewFile, type_make, if_pos rfl]
    have hdir : (s.getNewFile uid gid mode).type dir = some .directory := by
      rw [getNewFile, type_make, if_neg (by omega), hd]
    constructor
    · intro hc
      have hmade : (s.getNewFile uid gid mode).Sane := hs.make (by decide) uid gid mode
      refine hmade.addFile hdir (type_lt hnew) (.inl ⟨hnew, hc.1, ?_⟩)
      rw [getNewFile, nlink_make, nlink, List.getElem?_eq_none (Nat.le_refl _)]
      decide
    · intro hc
      refine hs.newFile_taken hd (Option.isSome_iff_ne_none.mpr fun hnone => hc ⟨hnone, ?_⟩)
      simp [hreg]
  · rename_i hreg
    split at h
    swap
    · cases h
    obtain rfl := Except.ok.inj h
    constructor
    · intro hc
      exact hs.newDirectory hd (hc.2 (by simpa using hreg)) (hs.newDirectory_grown _ _ _ hd hc.1)
    · intro hc
      cases hn : s.find dir name with
      | some x =>
        obtain ⟨hlen, hlink, hnames⟩ := hs.newDirectory_taken uid gid mode hd
          (by rw [hn]; rfl) _ rfl
        refine not_correct hlen ?_
        omega
      | none =>
        have hfull : ¬(s.nlink dir).toNat + 1 < 2 ^ 16 := fun hlt => hc ⟨hn, fun _ => hlt⟩
        have hg := hs.newDirectory_grown uid gid mode hd hn
        have hcount := hs.counted dir hlt
        have h16 := (s.nlink dir).toNat_lt
        have hne : (s.files.length == dir) = false := beq_false_of_ne (by omega)
        refine not_correct (f := dir) (by rw [hg.length, length_make]; omega) ?_
        rw [hg.nlink dir (by rw [length_make]; omega), nlink_make, hg.names,
          show (s.make .directory uid gid mode).names dir = s.names dir from rfl]
        simp only [newEntries, List.count_cons, List.countP_cons, List.count_nil, List.countP_nil,
          hne, beq_self_eq_true, Bool.false_eq_true, if_true, if_false]
        omega

theorem apply_sane (hs : s.Sane) (ha : s.Admits c) (h : s.apply c = .ok s') :
    (s.Careful c → s'.Sane) ∧ (¬s.Careful c → ¬s'.Correct) := by
  cases c with
  | addEntry dir name uid gid mode => exact hs.addEntry ha h
  | addFile dir name f =>
    obtain rfl := Except.ok.inj h
    exact ⟨hs.addFile ha.1 ha.2, hs.addFile_careless ha.1 ha.2⟩
  | getNewBlockDevice uid gid mode =>
    obtain rfl := Except.ok.inj h
    exact ⟨fun _ => hs.make (by decide) uid gid mode, fun hc => absurd trivial hc⟩
  | getNewCharacterDevice uid gid mode =>
    obtain rfl := Except.ok.inj h
    exact ⟨fun _ => hs.make (by decide) uid gid mode, fun hc => absurd trivial hc⟩
  | removeEntry dir name => exact ⟨False.elim, fun _ => hs.removeEntry h⟩
  | removeDirectory dir name => exact ⟨False.elim, fun _ => hs.removeEntry h⟩
  | sysrename dir₁ name₁ dir₂ name₂ =>
    constructor
    · intro hc
      have hsame : s.sysrename dir₁ name₁ dir₂ name₂ = .ok s := if_pos hc
      obtain rfl := Except.ok.inj (hsame.symm.trans h)
      exact hs
    · intro hc
      exact hs.sysrename ha.2 (Option.not_isSome_iff_eq_none.mp hc) h

theorem run_sane (h : machine.Run Careful s) : s.Sane := by
  refine h.invariant (fun s hs => ?_) fun s s' c hI ha hC hs => (apply_sane hI ha hs).1 hC
  obtain rfl := hs
  exact sane_new

/-- As long as each call is careful, the links are the entries and `..` is the parent; a call that
is not ends that. -/
theorem run_correct (h : machine.Run Careful s) : s.Correct ∧
    ∀ c s', s.Admits c → s.apply c = .ok s' → (s'.Correct ↔ s.Careful c) := by
  have hs := run_sane h
  refine ⟨hs.correct, fun c s' ha hc => ⟨fun hcorrect => ?_, fun hcareful => ?_⟩⟩
  · by_contra hcareless
    exact (apply_sane hs ha hc).2 hcareless hcorrect
  · exact ((apply_sane hs ha hc).1 hcareful).correct

/-- The mode of a directory, and that of a regular file. -/
def dirMode : UInt16 := 0x41ff

def regMode : UInt16 := 0x81b6

/-- Two directories, a file in one of them, and a hard link to it in the other. -/
theorem run_correct_linked : ∃ s, machine.Run Careful s ∧ decide ((s.nlink 3).toNat = 2) = true ∧
    s.Correct := by
  have hcheck (s : FS) (c : Call) (hc : decide (s.Admits c ∧ s.Careful c) = true) :
      s.Admits c ∧ s.Careful c := of_decide_eq_true hc
  obtain ⟨s, hs, hP⟩ := Machine.exists_run (M := machine) hcheck rfl
    [.addEntry 0 "a" 0 0 dirMode, .addEntry 0 "b" 0 0 dirMode, .addEntry 1 "f" 0 0 regMode,
      .addFile 2 "g" 3] (P := fun s => decide ((s.nlink 3).toNat = 2)) (by decide +kernel)
  exact ⟨s, hs, hP, (run_correct hs).1⟩

/-- A directory that is moved keeps its old parent, and its links are one more than its entries. -/
theorem moved_directory : ¬∀ s, machine.Run (fun _ _ => True) s → s.Correct := by
  intro hall
  obtain ⟨s, hs, hP⟩ := Machine.exists_run (M := machine) (C := fun _ _ => True)
    (fun s c hc => ⟨of_decide_eq_true (p := s.Admits c) hc, trivial⟩) rfl
    [.addEntry 0 "a" 0 0 dirMode, .addEntry 0 "b" 0 0 dirMode, .sysrename 0 "a" 2 "c"]
    (P := fun s => decide (⟨2, "c", 1⟩ ∈ s.entries ∧ s.type 1 = some .directory ∧
      s.find 1 ".." = some 0 ∧ (s.nlink 1).toNat = 3 ∧ s.names 1 = 2)) (by decide +kernel)
  obtain ⟨hmem, htype, hparent, _, _⟩ := of_decide_eq_true hP
  have hmoved := (hall s hs).parents _ hmem (by decide) (by decide) htype (by decide)
  rw [hparent] at hmoved
  cases hmoved

end FS

end SupOS.RamFS
