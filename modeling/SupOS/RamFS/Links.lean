import SupOS.RamFS.FS
import SupOS.Lib.Machine

/-! The link counts and the parents of a file system in memory, over all runs. -/

namespace SupOS.RamFS

open Lib
open SupOS.Ext2 (isReg isDir)
open SupOS.VFS (FileType)

namespace FS

variable {s s' s'' : FS} {dir f g : Nat} {name : String} {new new' : List Entry}
  {links links' : List Nat}

/-- The number of entries that name the file. -/
def names (s : FS) (f : Nat) : Nat := s.entries.countP (·.file == f)

theorem type_lt {t : FileType} (h : s.type f = some t) : f < s.files.length := by
  unfold type at h
  rw [Option.map_eq_some_iff] at h
  obtain ⟨x, hx, _⟩ := h
  exact (List.getElem?_eq_some_iff.mp hx).1

theorem type_of_lt (h : f < s.files.length) : ∃ t, s.type f = some t := by
  unfold type
  rw [List.getElem?_eq_getElem h]
  exact ⟨_, rfl⟩

theorem linked_iff : s.linked f = true ↔
    s.type f = some .regularFile ∨ s.type f = some .directory := by
  simp [linked]

/-! ### Steps -/

@[simp] theorem type_link : (s.link f).type g = s.type g := by
  unfold type link
  rw [List.getElem?_modify]
  cases s.files[g]? with
  | none => rfl
  | some x => by_cases hfg : f = g <;> simp [hfg]

theorem nlink_link (hf : f < s.files.length) :
    (s.link f).nlink g = if f = g then s.nlink g + 1 else s.nlink g := by
  unfold nlink link
  rw [List.getElem?_modify]
  by_cases hfg : f = g
  · subst hfg
    simp [List.getElem?_eq_getElem hf]
  · cases s.files[g]? with
    | none => simp [hfg]
    | some x => simp [hfg]

/-- `find` in a list of entries. -/
theorem find_append {es es' : List Entry} {n : UInt32} {fs : List File} :
    (⟨fs, es ++ es', n⟩ : FS).find dir name =
      ((⟨fs, es, n⟩ : FS).find dir name).or ((⟨fs, es', n⟩ : FS).find dir name) := by
  unfold find
  rw [List.find?_append, Option.map_or]

theorem find_congr (h : s.entries = s'.entries) : s.find dir name = s'.find dir name := by
  unfold find
  rw [h]

/-- The entry that an insertion adds. -/
def added (s : FS) (dir : Nat) (name : String) (f : Nat) : List Entry :=
  if (s.find dir name).isSome then [] else [⟨dir, name, f⟩]

/-- Entries have been added, and links counted. -/
structure Grown (s s' : FS) (new : List Entry) (links : List Nat) : Prop where
  length : s'.files.length = s.files.length
  type : ∀ f, s'.type f = s.type f
  entries : s'.entries = s.entries ++ new
  nlink : ∀ f < s.files.length,
    (s'.nlink f).toNat = ((s.nlink f).toNat + links.count f) % 2 ^ 16

namespace Grown

theorem trans (h : s.Grown s' new links) (h' : s'.Grown s'' new' links') :
    s.Grown s'' (new ++ new') (links ++ links') := by
  refine ⟨h'.length.trans h.length, fun f => (h'.type f).trans (h.type f), ?_, fun f hf => ?_⟩
  · rw [h'.entries, h.entries, List.append_assoc]
  · rw [h'.nlink f (by rw [h.length]; exact hf), h.nlink f hf, List.count_append]
    omega

theorem linked (h : s.Grown s' new links) : s'.linked f = s.linked f := by
  unfold FS.linked
  rw [h.type]

theorem find (h : s.Grown s' new links) :
    s'.find dir name = (s.find dir name).or ((⟨s.files, new, s.nextInode⟩ : FS).find dir name) := by
  rw [find_congr (s := s') (show s'.entries = (⟨s.files, _, s.nextInode⟩ : FS).entries from h.entries),
    find_append]

theorem names (h : s.Grown s' new links) :
    s'.names f = s.names f + new.countP (·.file == f) := by
  unfold FS.names
  rw [h.entries, List.countP_append]

end Grown

theorem enter_grown (dir : Nat) (name : String) (hf : f < s.files.length) : s.Grown (s.enter dir name f)
    (s.added dir name f) (if s.linked f then [f] else []) := by
  have hlink (g : Nat) : ((if s.linked f then s.link f else s).nlink g).toNat =
      ((s.nlink g).toNat + (if s.linked f then [f] else []).count g) % 2 ^ 16 := by
    have hlt := (s.nlink g).toNat_lt
    split
    · rw [nlink_link hf]
      split
      · rename_i hfg
        rw [UInt16.toNat_add, List.count_singleton, hfg, beq_self_eq_true, if_pos rfl]
        rfl
      · rename_i hfg
        rw [List.count_singleton, beq_false_of_ne hfg]
        simp only [Bool.false_eq_true, if_false]
        omega
    · rw [List.count_nil]
      omega
  have hsame (t : FS) (ht : t = if s.linked f then s.link f else s) :
      t.files.length = s.files.length ∧ (∀ g, t.type g = s.type g) ∧ t.entries = s.entries := by
    subst ht
    split
    · exact ⟨by simp [link], fun g => type_link, rfl⟩
    · exact ⟨rfl, fun g => rfl, rfl⟩
  obtain ⟨hlen, htype, hentries⟩ := hsame _ rfl
  unfold enter insert added
  rw [find_congr hentries]
  split
  · exact ⟨hlen, htype, by rw [hentries, List.append_nil], fun g _ => hlink g⟩
  · exact ⟨hlen, htype, by rw [hentries], fun g _ => hlink g⟩

/-- An existing file comes into a directory; a directory comes with its parent. -/
theorem addFile_grown (name : String) (hf : f < s.files.length) (hd : s.type dir = some .directory) :
    (s.type f = some .directory ∧ name ≠ "." ∧ name ≠ ".." ∧
      s.Grown (s.addFile dir name f) (s.added dir name f ++ s.added f ".." dir) [f, dir]) ∨
    (¬(s.type f = some .directory ∧ name ≠ "." ∧ name ≠ "..") ∧
      s.Grown (s.addFile dir name f) (s.added dir name f) (if s.linked f then [f] else [])) := by
  have h₁ := enter_grown dir name hf
  unfold addFile
  simp only [h₁.type]
  split
  · rename_i hdir
    refine .inl ⟨hdir.1, hdir.2.1, hdir.2.2, ?_⟩
    have h₂ := enter_grown (s := s.enter dir name f) (f := dir) f ".."
      (by rw [h₁.length]; exact type_lt hd)
    have hlinked : s.linked f = true := linked_iff.mpr (.inr hdir.1)
    have hdlinked : s.linked dir = true := linked_iff.mpr (.inr hd)
    have hfind : (s.enter dir name f).find f ".." = s.find f ".." := by
      rw [h₁.find]
      unfold added
      split
      · exact Option.or_none
      · simp [FS.find, hdir.2.2]
    have hadded : (s.enter dir name f).added f ".." dir = s.added f ".." dir := by
      unfold added
      rw [hfind]
    have h₃ := h₁.trans h₂
    rw [hadded, h₁.linked, hlinked, hdlinked] at h₃
    exact h₃
  · rename_i hdir
    exact .inr ⟨hdir, h₁⟩

/-! ### New files -/

section make

variable {t : FileType} {uid gid mode : UInt16}

theorem type_make : (s.make t uid gid mode).type f =
    if f = s.files.length then some t else s.type f := by
  unfold type make
  split
  · rename_i hf
    simp [hf]
  · rename_i hf
    rw [List.getElem?_append]
    split
    · rfl
    · rename_i hle
      rw [List.getElem?_eq_none (by simp; omega), List.getElem?_eq_none (by omega)]

theorem nlink_make : (s.make t uid gid mode).nlink f = s.nlink f := by
  unfold nlink make
  rw [List.getElem?_append]
  split
  · rfl
  · rename_i hle
    rw [List.getElem?_eq_none (show s.files.length ≤ f by omega)]
    cases hf : f - s.files.length with
    | zero => rfl
    | succ n => rfl

theorem length_make : (s.make t uid gid mode).files.length = s.files.length + 1 := by
  simp [make]

end make

/-! ### What careful calls keep -/

/-- Each directory has `.` and `..`, and each file as many links as entries. -/
structure Sane (s : FS) : Prop where
  root : s.type 0 = some .directory
  entries : ∀ e ∈ s.entries, s.type e.dir = some .directory ∧ e.file < s.files.length
  dots : ∀ d, s.type d = some .directory → (s.find d ".").isSome ∧ (s.find d "..").isSome
  devices : ∀ f, s.linked f = false → (s.nlink f).toNat = 0
  counted : ∀ f < s.files.length, (s.nlink f).toNat = s.names f
  parents : ∀ e ∈ s.entries, e.name ≠ "." → e.name ≠ ".." → s.type e.file = some .directory →
    e.file ≠ 0 → s.find e.file ".." = some e.dir

theorem find_mem (h : s.find dir name = some f) : ⟨dir, name, f⟩ ∈ s.entries := by
  unfold find at h
  obtain ⟨e, he, rfl⟩ := Option.map_eq_some_iff.mp h
  have hkey := List.find?_some he
  simp only [Bool.and_eq_true, beq_iff_eq] at hkey
  rw [← hkey.1, ← hkey.2]
  exact List.mem_of_find?_eq_some he

theorem find_none_of (h : ∀ e ∈ s.entries, e.dir ≠ dir) : s.find dir name = none := by
  unfold find
  rw [List.find?_eq_none.mpr fun e he => by simp [h e he]]
  rfl

namespace Sane

theorem dir_lt (hs : s.Sane) {e : Entry} (he : e ∈ s.entries) : e.dir < s.files.length :=
  type_lt (hs.entries e he).1

theorem names_new (hs : s.Sane) (hf : s.files.length ≤ f) : s.names f = 0 := by
  unfold names
  rw [List.countP_eq_zero]
  intro e he heq
  have hlt := (hs.entries e he).2
  have hef := beq_iff_eq.mp heq
  omega

theorem find_new (hs : s.Sane) (hf : s.files.length ≤ dir) : s.find dir name = none := by
  refine find_none_of fun e he heq => ?_
  have hlt := hs.dir_lt he
  omega

theorem linked_of_names (hs : s.Sane) (hf : f < s.files.length) (hn : 0 < s.names f) :
    s.linked f = true := by
  by_contra hl
  have hzero := hs.devices f (by simpa using hl)
  rw [hs.counted f hf] at hzero
  omega

/-- A name that a directory does not have is neither `.` nor `..`. -/
theorem name_ne (hs : s.Sane) (hd : s.type dir = some .directory) (hn : s.find dir name = none) :
    name ≠ "." ∧ name ≠ ".." := by
  obtain ⟨hdot, hdots⟩ := hs.dots dir hd
  constructor <;> rintro rfl
  · simp [hn] at hdot
  · simp [hn] at hdots

/-- A new file that is no directory. -/
theorem make (hs : s.Sane) {t : FileType} (ht : t ≠ .directory) (uid gid mode : UInt16) :
    (s.make t uid gid mode).Sane := by
  have hroot := type_lt hs.root
  have htype (f : Nat) (hf : f < s.files.length) : (s.make t uid gid mode).type f = s.type f := by
    rw [type_make, if_neg (by omega)]
  have hdir (f : Nat) (hf : (s.make t uid gid mode).type f = some .directory) :
      s.type f = some .directory := by
    rw [type_make] at hf
    split at hf
    · exact absurd (Option.some.inj hf) ht
    · exact hf
  refine ⟨by rw [htype 0 hroot, hs.root], fun e he => ?_, fun d hd => hs.dots d (hdir d hd),
    fun f hf => ?_, fun f hf => ?_, fun e he h₁ h₂ h₃ h₄ => hs.parents e he h₁ h₂ (hdir _ h₃) h₄⟩
  · rw [htype _ (hs.dir_lt he), length_make]
    exact ⟨(hs.entries e he).1, Nat.lt_succ_of_lt (hs.entries e he).2⟩
  · rw [nlink_make]
    by_cases hlt : f < s.files.length
    · refine hs.devices f ?_
      unfold FS.linked at hf ⊢
      rwa [htype f hlt] at hf
    · unfold FS.nlink
      rw [List.getElem?_eq_none (by omega)]
      rfl
  · rw [nlink_make]
    rw [length_make] at hf
    by_cases hlt : f < s.files.length
    · exact hs.counted f hlt
    · have hnew := hs.names_new (f := f) (by omega)
      unfold FS.nlink
      rw [List.getElem?_eq_none (by omega)]
      exact hnew.symm

/-- A regular file comes into a directory under a new name. -/
theorem link (hs : s.Sane) (hd : s.type dir = some .directory)
    (hf : s.type f = some .regularFile) (hlt : (s.nlink f).toNat + 1 < 2 ^ 16)
    (hg : s.Grown s' [⟨dir, name, f⟩] [f]) : s'.Sane := by
  have hfl := type_lt hf
  have hfind (d : Nat) (n : String) (x : Nat) (h : s.find d n = some x) : s'.find d n = some x := by
    rw [hg.find, h]
    rfl
  refine ⟨by rw [hg.type, hs.root], fun e he => ?_, fun d hdir => ?_, fun g hgl => ?_,
    fun g hgl => ?_, fun e he h₁ h₂ h₃ h₄ => ?_⟩
  · rw [hg.type, hg.length]
    rw [hg.entries, List.mem_append, List.mem_singleton] at he
    obtain hold | rfl := he
    · exact hs.entries e hold
    · exact ⟨hd, hfl⟩
  · obtain ⟨hdot, hdots⟩ := hs.dots d (by rw [← hg.type]; exact hdir)
    obtain ⟨x, hx⟩ := Option.isSome_iff_exists.mp hdot
    obtain ⟨y, hy⟩ := Option.isSome_iff_exists.mp hdots
    rw [hfind d _ x hx, hfind d _ y hy]
    exact ⟨rfl, rfl⟩
  · rw [hg.linked] at hgl
    have hne : g ≠ f := by
      rintro rfl
      rw [linked_iff.mpr (.inl hf)] at hgl
      cases hgl
    by_cases hgs : g < s.files.length
    · rw [hg.nlink g hgs, List.count_singleton, beq_false_of_ne (Ne.symm hne), hs.devices g hgl]
      rfl
    · unfold FS.nlink
      rw [List.getElem?_eq_none (by rw [hg.length]; omega)]
      rfl
  · rw [hg.length] at hgl
    rw [hg.nlink g hgl, hg.names, ← hs.counted g hgl, List.count_singleton, List.countP_singleton]
    have hlt' := (s.nlink g).toNat_lt
    by_cases hgf : f = g
    · subst hgf
      simp only [beq_self_eq_true, if_true]
      omega
    · rw [beq_false_of_ne hgf]
      simp only [Bool.false_eq_true, if_false]
      omega
  · rw [hg.type] at h₃
    rw [hg.entries, List.mem_append, List.mem_singleton] at he
    obtain hold | rfl := he
    · exact hfind _ _ _ (hs.parents e hold h₁ h₂ h₃ h₄)
    · rw [hf] at h₃
      cases h₃

end Sane

end FS

end SupOS.RamFS
