import SupOS.RamFS.Links

/-! The calls that keep the books of a file system in memory, and those that do not. -/

namespace SupOS.RamFS

open Lib
open SupOS.Ext2 (isReg isDir)
open SupOS.VFS (FileType)

namespace FS

variable {s s' : FS} {dir f g : Nat} {name : String} {uid gid mode : UInt16}

/-- The entries that come with a new directory. -/
def newEntries (dir : Nat) (name : String) (f : Nat) : List Entry :=
  [⟨f, ".", f⟩, ⟨dir, name, f⟩, ⟨f, "..", dir⟩]

/-- What the constructor of a directory does. -/
theorem Sane.getNewDirectory_grown (hs : s.Sane) (uid gid mode : UInt16) : (s.make .directory uid gid mode).Grown
    (s.getNewDirectory uid gid mode) [⟨s.files.length, ".", s.files.length⟩] [s.files.length] := by
  have htype : (s.make .directory uid gid mode).type s.files.length = some .directory := by
    rw [type_make, if_pos rfl]
  have hfind : (s.make .directory uid gid mode).find s.files.length "." = none :=
    hs.find_new (Nat.le_refl _)
  obtain ⟨_, hne, _⟩ | ⟨_, hgrown⟩ := addFile_grown "." (type_lt htype) htype
  · exact absurd rfl hne
  · rw [linked_iff.mpr (.inr htype), added, hfind] at hgrown
    exact hgrown

/-- A new directory comes into one that does not have its name. -/
theorem Sane.newDirectory_grown (hs : s.Sane) (uid gid mode : UInt16) (hd : s.type dir = some .directory)
    (hn : s.find dir name = none) : (s.make .directory uid gid mode).Grown
      ((s.getNewDirectory uid gid mode).addFile dir name s.files.length)
      (newEntries dir name s.files.length) [s.files.length, s.files.length, dir] := by
  have h₁ := hs.getNewDirectory_grown uid gid mode
  have hlt := type_lt hd
  have hnew : (s.getNewDirectory uid gid mode).type s.files.length = some .directory := by
    rw [h₁.type, type_make, if_pos rfl]
  have hdir : (s.getNewDirectory uid gid mode).type dir = some .directory := by
    rw [h₁.type, type_make, if_neg (by omega), hd]
  have hfind : (s.getNewDirectory uid gid mode).find dir name = none := by
    rw [h₁.find, show (s.make .directory uid gid mode).find dir name = none from hn,
      Option.none_or]
    exact find_none_of fun e he => by simp only [List.mem_singleton.mp he]; omega
  have hfind' : (s.getNewDirectory uid gid mode).find s.files.length ".." = none := by
    rw [h₁.find, show (s.make .directory uid gid mode).find s.files.length ".." = none from
      hs.find_new (Nat.le_refl _), Option.none_or]
    simp [FS.find]
  obtain ⟨_, _, _, h₂⟩ | ⟨hno, _⟩ := addFile_grown name (type_lt hnew) hdir
  · have h₃ := h₁.trans h₂
    simp only [added, hfind, hfind'] at h₃
    exact h₃
  · exact absurd ⟨hnew, hs.name_ne hd hn⟩ hno

/-- Under a name that is taken, the new directory counts a link too many. -/
theorem Sane.newDirectory_taken (hs : s.Sane) (uid gid mode : UInt16) (hd : s.type dir = some .directory)
    (hn : (s.find dir name).isSome) (s' : FS)
    (hs' : s' = (s.getNewDirectory uid gid mode).addFile dir name s.files.length) :
    s.files.length < s'.files.length ∧ (s'.nlink s.files.length).toNat = 2 ∧
      s'.names s.files.length = 1 := by
  have h₁ := hs.getNewDirectory_grown uid gid mode
  have hlt := type_lt hd
  have hnew : (s.getNewDirectory uid gid mode).type s.files.length = some .directory := by
    rw [h₁.type, type_make, if_pos rfl]
  have hdir : (s.getNewDirectory uid gid mode).type dir = some .directory := by
    rw [h₁.type, type_make, if_neg (by omega), hd]
  have hfind : ((s.getNewDirectory uid gid mode).find dir name).isSome := by
    obtain ⟨x, hx⟩ := Option.isSome_iff_exists.mp hn
    rw [h₁.find, show (s.make .directory uid gid mode).find dir name = some x from hx]
    rfl
  have hzero : (s.nlink s.files.length).toNat = 0 := by
    unfold FS.nlink
    rw [List.getElem?_eq_none (Nat.le_refl _)]
    rfl
  have hnames : (s.make .directory uid gid mode).names s.files.length = 0 :=
    hs.names_new (Nat.le_refl _)
  have hlen : (s.make .directory uid gid mode).files.length = s.files.length + 1 := length_make
  have hne : (dir == s.files.length) = false := beq_false_of_ne (by omega)
  subst hs'
  obtain ⟨_, _, _, h₂⟩ | ⟨_, h₂⟩ := addFile_grown name (type_lt hnew) hdir
  · have h₃ := h₁.trans h₂
    refine ⟨by rw [h₃.length, hlen]; omega, ?_, ?_⟩
    · rw [h₃.nlink _ (by rw [hlen]; omega), nlink_make, hzero]
      simp [List.count_cons, hne]
    · rw [h₃.names, hnames]
      simp only [added, hfind, if_true, List.nil_append]
      split <;> simp [hne]
  · have h₃ := h₁.trans h₂
    refine ⟨by rw [h₃.length, hlen]; omega, ?_, ?_⟩
    · rw [h₃.nlink _ (by rw [hlen]; omega), nlink_make, hzero, linked_iff.mpr (.inr hnew)]
      simp
    · rw [h₃.names, hnames]
      simp [added, hfind]

/-- A new directory keeps the books. -/
theorem Sane.newDirectory (hs : s.Sane) (hd : s.type dir = some .directory)
    (hlt : (s.nlink dir).toNat + 1 < 2 ^ 16)
    (hg : (s.make .directory uid gid mode).Grown s' (newEntries dir name s.files.length)
      [s.files.length, s.files.length, dir]) : s'.Sane := by
  have hdl := type_lt hd
  have hlen : s'.files.length = s.files.length + 1 := hg.length.trans length_make
  have htype (x : Nat) (hx : x < s.files.length) : s'.type x = s.type x := by
    rw [hg.type, type_make, if_neg (by omega)]
  have hnew : s'.type s.files.length = some .directory := by rw [hg.type, type_make, if_pos rfl]
  have hentries : s'.entries = s.entries ++ newEntries dir name s.files.length := hg.entries
  have hfind (d : Nat) (n : String) (x : Nat) (h : s.find d n = some x) : s'.find d n = some x := by
    rw [hg.find, show (s.make .directory uid gid mode).find d n = some x from h]
    rfl
  have hfind' (n : String) : s'.find s.files.length n =
      (⟨s.files, newEntries dir name s.files.length, s.nextInode⟩ : FS).find s.files.length n := by
    rw [hg.find, show (s.make .directory uid gid mode).find s.files.length n = none from
      hs.find_new (Nat.le_refl _), Option.none_or]
    rfl
  have hdirne : (dir == s.files.length) = false := beq_false_of_ne (by omega)
  have hdot : s'.find s.files.length "." = some s.files.length := by
    rw [hfind']
    simp [FS.find, newEntries]
  have hdots : s'.find s.files.length ".." = some dir := by
    rw [hfind']
    simp [FS.find, newEntries, hdirne]
  have hcases (x : Nat) (hx : s'.type x = some .directory) :
      x = s.files.length ∨ s.type x = some .directory := by
    rw [hg.type, type_make] at hx
    split at hx
    · exact .inl ‹_›
    · exact .inr hx
  refine ⟨by rw [htype 0 (type_lt hs.root), hs.root], fun e he => ?_, fun d hdir => ?_,
    fun x hx => ?_, fun x hx => ?_, fun e he h₁ h₂ h₃ h₄ => ?_⟩
  · rw [hentries, List.mem_append] at he
    rw [hlen]
    obtain hold | he := he
    · rw [htype _ (hs.dir_lt hold)]
      exact ⟨(hs.entries e hold).1, Nat.lt_succ_of_lt (hs.entries e hold).2⟩
    · simp only [newEntries, List.mem_cons, List.not_mem_nil, or_false] at he
      obtain rfl | rfl | rfl := he
      · exact ⟨hnew, Nat.lt_succ_self _⟩
      · exact ⟨by rw [htype _ hdl, hd], Nat.lt_succ_self _⟩
      · exact ⟨hnew, Nat.lt_succ_of_lt hdl⟩
  · obtain rfl | hold := hcases d hdir
    · rw [hdot, hdots]
      exact ⟨rfl, rfl⟩
    · obtain ⟨hone, htwo⟩ := hs.dots d hold
      obtain ⟨a, ha⟩ := Option.isSome_iff_exists.mp hone
      obtain ⟨b, hb⟩ := Option.isSome_iff_exists.mp htwo
      rw [hfind d _ a ha, hfind d _ b hb]
      exact ⟨rfl, rfl⟩
  · have hxs : x ≠ s.files.length := by
      rintro rfl
      rw [linked_iff.mpr (.inr hnew)] at hx
      cases hx
    have hxd : x ≠ dir := by
      rintro rfl
      rw [linked_iff.mpr (.inr (by rw [htype _ hdl, hd]))] at hx
      cases hx
    by_cases hlt : x < s.files.length
    · have hold : s.linked x = false := by
        unfold FS.linked at hx ⊢
        rwa [htype x hlt] at hx
      rw [hg.nlink x (by rw [length_make]; omega), nlink_make, hs.devices x hold]
      simp [List.count_cons, beq_false_of_ne (Ne.symm hxs), beq_false_of_ne (Ne.symm hxd)]
    · unfold FS.nlink
      rw [List.getElem?_eq_none (by omega)]
      rfl
  · rw [hlen] at hx
    have hnames : s'.names x = s.names x + (newEntries dir name s.files.length).countP
        (·.file == x) := hg.names
    rw [hg.nlink x (by rw [length_make]; omega), nlink_make, hnames]
    by_cases hxs : x = s.files.length
    · subst hxs
      have hzero : (s.nlink s.files.length).toNat = 0 := by
        unfold FS.nlink
        rw [List.getElem?_eq_none (Nat.le_refl _)]
        rfl
      rw [hzero, hs.names_new (Nat.le_refl _)]
      simp [newEntries, List.count_cons, hdirne]
    · have hold := hs.counted x (by omega)
      have hx16 := (s.nlink x).toNat_lt
      rw [hold] at hx16 ⊢
      by_cases hxd : x = dir
      · subst hxd
        rw [hold] at hlt
        simp only [newEntries, List.count_cons, List.countP_cons, List.count_nil, List.countP_nil,
          beq_false_of_ne (Ne.symm hxs), beq_self_eq_true, Bool.false_eq_true, if_true, if_false]
        omega
      · simp only [newEntries, List.count_cons, List.countP_cons, List.count_nil, List.countP_nil,
          beq_false_of_ne (Ne.symm hxs), beq_false_of_ne (Ne.symm hxd), Bool.false_eq_true, if_false]
        omega
  · rw [hentries, List.mem_append] at he
    obtain hold | he := he
    · rw [htype _ (hs.entries e hold).2] at h₃
      exact hfind _ _ _ (hs.parents e hold h₁ h₂ h₃ h₄)
    · simp only [newEntries, List.mem_cons, List.not_mem_nil, or_false] at he
      obtain rfl | rfl | rfl := he
      · exact absurd rfl h₁
      · exact hdots
      · exact absurd rfl h₂

/-! ### Calls that break the books -/

/-- An existing file that comes into a directory counts a link for its entry, and one more for each
entry that its new parent may get. -/
theorem addFile_self (name : String) (hf : s.linked f = true) (hd : s.type dir = some .directory) :
    ∃ a b, b ≤ a ∧ a ≤ 1 ∧ (s.addFile dir name f).files.length = s.files.length ∧
      ((s.addFile dir name f).nlink f).toNat = ((s.nlink f).toNat + 1 + a) % 2 ^ 16 ∧
      (s.addFile dir name f).names f = s.names f + (s.added dir name f).length + b := by
  have hlt : f < s.files.length := by
    obtain h | h := linked_iff.mp hf <;> exact type_lt h
  have hself : (s.added dir name f).countP (·.file == f) = (s.added dir name f).length := by
    unfold added
    split <;> simp
  obtain ⟨_, _, _, hg⟩ | ⟨_, hg⟩ := addFile_grown name hlt hd
  · refine ⟨[dir].count f, (s.added f ".." dir).countP (·.file == f), ?_,
      List.count_le_length.trans (Nat.le_refl 1), hg.length, ?_, ?_⟩
    · unfold added
      split
      · exact Nat.zero_le _
      · simp [List.count_singleton]
    · rw [hg.nlink f hlt, List.count_cons_self, Nat.add_assoc, Nat.add_comm 1]
    · rw [hg.names, List.countP_append, hself, Nat.add_assoc]
  · refine ⟨0, 0, Nat.le_refl 0, by omega, hg.length, ?_, ?_⟩
    · rw [hg.nlink f hlt, hf]
      simp
    · rw [hg.names, hself, Nat.add_zero]

theorem removeEntry_cases (h : s.removeEntry dir name = .ok s') : ∃ f, s.find dir name = some f ∧
    s'.files = s.files ∧ s'.names f + 1 = s.names f ∧
    ∀ d n, s.find d n = none → s'.find d n = none := by
  unfold removeEntry at h
  obtain ⟨_, hsome, h⟩ := bind_eq_ok.mp h
  obtain rfl := Except.ok.inj h
  obtain ⟨f, hf⟩ := Option.isSome_iff_exists.mp (assert_eq_ok.mp hsome)
  have hmem := find_mem hf
  obtain ⟨e, l₁, l₂, hl₁, he, heq, herase⟩ := List.exists_of_eraseP hmem
    (p := fun e => e.dir == dir && e.name == name) (by simp)
  refine ⟨f, hf, rfl, ?_, fun d n hn => ?_⟩
  · have hfile : e.file = f := by
      unfold FS.find at hf
      rw [heq, List.find?_append, List.find?_eq_none.mpr fun x hx => hl₁ x hx, Option.none_or,
        List.find?_cons, he] at hf
      exact Option.some.inj hf
    have hold : s.names f = l₁.countP (·.file == f) + (l₂.countP (·.file == f) + 1) := by
      simp [FS.names, heq, List.countP_append, hfile]
    rw [hold, FS.names, herase, List.countP_append]
    omega
  · unfold FS.find at hn ⊢
    rw [Option.map_eq_none_iff, List.find?_eq_none] at hn ⊢
    exact fun x hx => hn x (List.mem_of_mem_eraseP hx)

/-- The claim on a state: as many links as entries, and the parent of a directory is the directory
with the entry that names it. -/
structure Correct (s : FS) : Prop where
  links : ∀ f < s.files.length, (s.nlink f).toNat = s.names f
  parents : ∀ e ∈ s.entries, e.name ≠ "." → e.name ≠ ".." → s.type e.file = some .directory →
    e.file ≠ 0 → s.find e.file ".." = some e.dir

theorem Sane.correct (hs : s.Sane) : s.Correct := ⟨hs.counted, hs.parents⟩

theorem not_correct (hf : f < s.files.length) (h : (s.nlink f).toNat ≠ s.names f) : ¬s.Correct :=
  fun hc => h (hc.links f hf)

/-- The file of an entry is linked. -/
theorem Sane.linked_of_find (hs : s.Sane) (h : s.find dir name = some f) :
    f < s.files.length ∧ s.linked f = true ∧ 0 < s.names f := by
  have hmem := find_mem h
  have hlt := (hs.entries _ hmem).2
  have hpos : 0 < s.names f := List.countP_pos_iff.mpr ⟨_, hmem, beq_self_eq_true _⟩
  exact ⟨hlt, hs.linked_of_names hlt hpos, hpos⟩

theorem Sane.removeEntry (hs : s.Sane) (h : s.removeEntry dir name = .ok s') : ¬s'.Correct := by
  obtain ⟨f, hf, hfiles, hnames, _⟩ := removeEntry_cases h
  obtain ⟨hlt, _, _⟩ := hs.linked_of_find hf
  refine not_correct (f := f) (by rw [hfiles]; exact hlt) ?_
  have hcount := hs.counted f hlt
  unfold FS.nlink at hcount ⊢
  rw [hfiles]
  omega

/-- A directory or a file that is moved keeps the links of its old entry. -/
theorem Sane.sysrename {dir₁ dir₂ : Nat} {name₁ name₂ : String} (hs : s.Sane)
    (hd : s.type dir₂ = some .directory) (hn : s.find dir₂ name₂ = none)
    (h : s.sysrename dir₁ name₁ dir₂ name₂ = .ok s') : ¬s'.Correct := by
  unfold FS.sysrename at h
  rw [hn] at h
  simp only [Option.isSome_none, Bool.false_eq_true, if_false] at h
  split at h
  · cases h
  rename_i f hf
  obtain ⟨hlt, hlinked, hpos⟩ := hs.linked_of_find hf
  have hcount := hs.counted f hlt
  have h16 := (s.nlink f).toNat_lt
  split at h
  · obtain ⟨s₁, hremove, h⟩ := bind_eq_ok.mp h
    obtain rfl := Except.ok.inj h
    obtain ⟨f', hf', hfiles, hnames, hnone⟩ := removeEntry_cases hremove
    obtain rfl := Option.some.inj (hf.symm.trans hf')
    have hlinked₁ : s₁.linked f = true := by
      unfold FS.linked FS.type at hlinked ⊢
      rwa [hfiles]
    have hd₁ : s₁.type dir₂ = some .directory := by
      unfold FS.type at hd ⊢
      rwa [hfiles]
    have hnlink : s₁.nlink f = s.nlink f := by
      unfold FS.nlink
      rw [hfiles]
    obtain ⟨a, b, hba, ha, hlen, hlink', hnames'⟩ := addFile_self name₂ hlinked₁ hd₁
    refine not_correct (f := f) (by rw [hlen, hfiles]; exact hlt) ?_
    rw [hlink', hnames', hnlink, added, hnone _ _ hn]
    simp only [Option.isSome_none, Bool.false_eq_true, if_false, List.length_singleton]
    omega
  · obtain ⟨a, b, hba, ha, hlen, hlink', hnames'⟩ := addFile_self name₂ hlinked hd
    obtain ⟨f', hf', hfiles, hnames, _⟩ := removeEntry_cases h
    have hfind : (s.addFile dir₂ name₂ f).find dir₁ name₁ = some f := by
      obtain ⟨_, _, _, hg⟩ | ⟨_, hg⟩ := addFile_grown name₂ hlt hd <;>
        rw [hg.find, hf] <;> rfl
    obtain rfl := Option.some.inj (hfind.symm.trans hf')
    have hnlink : s'.nlink f = (s.addFile dir₂ name₂ f).nlink f := by
      unfold FS.nlink
      rw [hfiles]
    refine not_correct (f := f) (by rw [hfiles, hlen]; exact hlt) ?_
    rw [added, hn] at hnames'
    simp only [Option.isSome_none, Bool.false_eq_true, if_false, List.length_singleton] at hnames'
    rw [hnlink, hlink']
    omega

/-! ### Existing files -/

/-- A regular file may come under a new name as long as its links can be counted; a directory may
not come again; and a device only where the name is taken, which changes nothing. -/
def CarefulFile (s : FS) (dir : Nat) (name : String) (f : Nat) : Prop :=
  (s.type f = some .regularFile ∧ s.find dir name = none ∧ (s.nlink f).toNat + 1 < 2 ^ 16) ∨
    (s.linked f = false ∧ (s.find dir name).isSome)

instance (dir : Nat) (name : String) (f : Nat) : Decidable (s.CarefulFile dir name f) :=
  inferInstanceAs (Decidable (_ ∨ _))

theorem Sane.addFile (hs : s.Sane) (hd : s.type dir = some .directory) (hf : f < s.files.length)
    (hc : s.CarefulFile dir name f) : (s.addFile dir name f).Sane := by
  obtain ⟨htype, hn, hlt⟩ | ⟨hdevice, hn⟩ := hc
  · obtain ⟨hdir, _⟩ | ⟨_, hg⟩ := addFile_grown name hf hd
    · rw [htype] at hdir
      cases hdir
    · rw [added, hn, linked_iff.mpr (.inl htype)] at hg
      exact hs.link hd htype hlt hg
  · have hnot : s.type f ≠ some .directory := fun hdir => by
      rw [linked_iff.mpr (.inr hdir)] at hdevice
      cases hdevice
    have hsame : s.addFile dir name f = s := by
      unfold FS.addFile enter FS.insert
      rw [hdevice]
      simp [hn, hnot]
    rw [hsame]
    exact hs

theorem Sane.addFile_careless (hs : s.Sane) (hd : s.type dir = some .directory)
    (hf : f < s.files.length) (hc : ¬s.CarefulFile dir name f) :
    ¬(s.addFile dir name f).Correct := by
  have hcount := hs.counted f hf
  have h16 := (s.nlink f).toNat_lt
  cases hlinked : s.linked f with
  | false =>
    have hn : s.find dir name = none := by
      by_contra hsome
      exact hc (.inr ⟨hlinked, Option.isSome_iff_ne_none.mpr hsome⟩)
    obtain ⟨hdir, _⟩ | ⟨_, hg⟩ := addFile_grown name hf hd
    · rw [linked_iff.mpr (.inr hdir)] at hlinked
      cases hlinked
    · refine not_correct (f := f) (by rw [hg.length]; exact hf) ?_
      rw [hg.nlink f hf, hg.names, hlinked, ← hcount, hs.devices f hlinked, added, hn]
      simp
  | true =>
    cases hn : s.find dir name with
    | some x =>
      obtain ⟨a, b, hba, ha, hlen, hlink', hnames'⟩ := addFile_self name hlinked hd
      refine not_correct (f := f) (by rw [hlen]; exact hf) ?_
      rw [hlink', hnames', added, hn]
      simp only [Option.isSome_some, if_true, List.length_nil]
      omega
    | none =>
      obtain ⟨hdir, _, _, hg⟩ | ⟨hno, hg⟩ := addFile_grown name hf hd
      · -- The parent that the directory had keeps its place, and the new one counts a link.
        have hdl := type_lt hd
        have hdcount := hs.counted dir hdl
        have hd16 := (s.nlink dir).toNat_lt
        refine not_correct (f := dir) (by rw [hg.length]; exact hdl) ?_
        rw [hg.nlink dir hdl, hg.names, added, added, hn, (hs.dots f hdir).2]
        by_cases hfd : f = dir
        · simp only [hfd, Option.isSome_none, Bool.false_eq_true, if_false, if_true,
            List.append_nil, List.count_cons_self, List.count_nil, List.countP_singleton,
            beq_self_eq_true]
          omega
        · simp only [List.count_cons, beq_false_of_ne hfd, Option.isSome_none, Bool.false_eq_true,
            if_false, if_true, List.append_nil, List.count_nil, List.countP_singleton,
            beq_self_eq_true]
          omega
      · have hregular : s.type f = some .regularFile :=
          (linked_iff.mp hlinked).resolve_right fun hdir => hno ⟨hdir, hs.name_ne hd hn⟩
        have hfull : ¬(s.nlink f).toNat + 1 < 2 ^ 16 := fun hlt =>
          hc (.inl ⟨hregular, hn, hlt⟩)
        refine not_correct (f := f) (by rw [hg.length]; exact hf) ?_
        rw [hg.nlink f hf, hg.names, hlinked, added, hn]
        simp only [Option.isSome_none, Bool.false_eq_true, if_false, if_true,
          List.count_singleton, List.countP_singleton, beq_self_eq_true]
        omega

end FS

end SupOS.RamFS
