import SupOS.VFS.Parents

/-! What the directories of the VFS list is what they find. -/

namespace SupOS.VFS

open Lib Libcpp

variable {φ : Type} {disk : φ → FileSystem} {s : FS φ} {d y : Directory φ}

/-- A directory of a mounted file system lists the names that it finds, with their inodes. -/
def Directory.Agrees (disk : φ → FileSystem) (d : Directory φ) : Prop := ∀ name inode,
  (name, inode) ∈ (disk d.fs).read d.inode ↔
    ∃ e, (disk d.fs).find d.inode name = some e ∧ e.inode = inode

namespace FS

/-- A mounted root lists `..` when the directory that it covers finds it, and only then. -/
def DotsAgree (disk : φ → FileSystem) (s : FS φ) (d : Directory φ) : Prop :=
  ∀ c, s.fromMounted d.inode d.dev = some c →
    ((∃ inode, ("..", inode) ∈ (disk d.fs).read d.inode) ↔
      ∃ f, s.find disk c.toDirectory ".." = .ok (some f))

/-- A directory lists a name once for each entry of that name, with the inode of what it finds. -/
structure Lists (disk : φ → FileSystem) (s : FS φ) (d : Directory φ)
    (entries : List (String × Nat)) : Prop where
  names : entries.map Prod.fst = ((disk d.fs).read d.inode).map Prod.fst
  found : ∀ name inode, (name, inode) ∈ entries ↔
    ∃ f, s.find disk d name = .ok (some f) ∧ f.file.inode = inode

theorem above_dots {c : Pointer φ} (h : s.fromMounted d.inode d.dev = some c) :
    s.above d ".." = some c.toDirectory := by
  unfold above
  rw [if_pos rfl, h]
  rfl

/-- The inode of an entry that no other directory answers for. -/
def shownInode (s : FS φ) (d : Directory φ) (inode : Nat) : Nat :=
  (s.toMounted inode d.dev).elim inode fun p => p.inode

theorem readEntry_below {e : String × Nat} (h : s.above d e.1 = none) :
    s.readEntry disk d e = .ok (e.1, s.shownInode d e.2) := by
  unfold readEntry shownInode
  simp only [h]
  cases s.toMounted e.2 d.dev with
  | none => rfl
  | some p => rfl

/-- What a lookup finds below has the inode that `read` shows. -/
theorem findBelow_inode {name : String} {f : Found φ} (h : s.findBelow disk d name = some f) :
    ∃ e, (disk d.fs).find d.inode name = some e ∧ f.file.inode = s.shownInode d e.inode := by
  obtain ⟨e, he, ⟨p, hp, rfl⟩ | ⟨hnone, rfl⟩⟩ := findBelow_cases h
  · refine ⟨e, he, ?_⟩
    rw [shownInode, hp]
    rfl
  · refine ⟨e, he, ?_⟩
    rw [shownInode, hnone]
    rfl

theorem findBelow_of {name : String} {e : Entry} (he : (disk d.fs).find d.inode name = some e) :
    ∃ f, s.findBelow disk d name = some f ∧ f.file.inode = s.shownInode d e.inode := by
  unfold findBelow shownInode
  simp only [he]
  cases s.toMounted e.inode d.dev with
  | none => exact ⟨.made (convert e d.fs d.dev), rfl, rfl⟩
  | some p => exact ⟨.mounted p, rfl, rfl⟩

/-- A name that the directory itself answers for. -/
theorem Valid.listed_below (hv : s.Valid disk) (hd : s.Device d.fs d.dev) (ha : d.Agrees disk)
    {name : String} (h : s.above d name = none) (inode : Nat) :
    (∃ ino, (name, ino) ∈ (disk d.fs).read d.inode ∧ s.shownInode d ino = inode) ↔
      ∃ f, s.find disk d name = .ok (some f) ∧ f.file.inode = inode := by
  rw [hv.find_of_searches hd (.here h)]
  constructor
  · rintro ⟨ino, hmem, rfl⟩
    obtain ⟨e, he, rfl⟩ := (ha name ino).mp hmem
    obtain ⟨f, hf, hino⟩ := findBelow_of he
    exact ⟨f, congrArg Except.ok hf, hino⟩
  · rintro ⟨f, hf, rfl⟩
    obtain ⟨e, he, hino⟩ := findBelow_inode (Except.ok.inj hf)
    exact ⟨e.inode, (ha name e.inode).mpr ⟨e, he, rfl⟩, hino.symm⟩

/-- What `read` makes of an entry whose name another directory answers for. -/
theorem Valid.readEntry_above (hv : s.Valid disk) (hd : s.Device d.fs d.dev) {c : Pointer φ}
    (hc : s.fromMounted d.inode d.dev = some c) (e : String × Nat) (he : e.1 = "..") :
    s.find disk d ".." = s.find disk c.toDirectory ".." ∧
      ∀ f, s.find disk c.toDirectory ".." = .ok (some f) →
        s.readEntry disk d e = .ok (e.1, f.file.inode) := by
  have habove := above_dots hc
  obtain ⟨y, hy, _, heq⟩ := hv.find_eq (hv.covered _ c hc).2.2 ".."
  refine ⟨by rw [heq, hv.find_of_searches hd (.step habove hy)], fun f hf => ?_⟩
  unfold readEntry
  rw [he]
  simp only [habove, hf, ok_bind]
  rfl

theorem readEntry_name {e e' : String × Nat} (h : s.readEntry disk d e = .ok e') : e'.1 = e.1 := by
  unfold readEntry at h
  split at h
  · obtain ⟨f, _, h⟩ := bind_eq_ok.mp h
    cases f with
    | none => cases h
    | some f => rw [← Except.ok.inj h]
  · split at h <;> rw [← Except.ok.inj h]

/-- Each entry of such a directory is shown. -/
theorem Valid.readEntry_returns (hv : s.Valid disk) (hd : s.Device d.fs d.dev)
    (hdots : s.DotsAgree disk d) {e : String × Nat} (he : e ∈ (disk d.fs).read d.inode) :
    ∃ e', s.readEntry disk d e = .ok e' := by
  cases h : s.above d e.1 with
  | none => exact ⟨_, readEntry_below h⟩
  | some covered =>
    obtain ⟨hname, c, hc, rfl⟩ := above_eq_some h
    obtain ⟨f, hf⟩ := (hdots c hc).mp ⟨e.2, by rw [← hname]; exact he⟩
    exact ⟨_, (hv.readEntry_above hd hc e hname).2 f hf⟩

/-- A name that the directory answers for is listed as it is found. -/
theorem Valid.shown_below (hv : s.Valid disk) (hd : s.Device d.fs d.dev) (ha : d.Agrees disk)
    {name : String} (h : s.above d name = none) (inode : Nat) :
    (∃ e ∈ (disk d.fs).read d.inode, s.readEntry disk d e = .ok (name, inode)) ↔
      ∃ f, s.find disk d name = .ok (some f) ∧ f.file.inode = inode := by
  rw [← hv.listed_below hd ha h inode]
  constructor
  · rintro ⟨e, he, heq⟩
    obtain rfl : name = e.1 := readEntry_name heq
    rw [readEntry_below h] at heq
    exact ⟨e.2, he, congrArg Prod.snd (Except.ok.inj heq)⟩
  · rintro ⟨ino, he, rfl⟩
    exact ⟨_, he, readEntry_below h⟩

/-- So is `..` in a mounted root. -/
theorem Valid.shown_above (hv : s.Valid disk) (hd : s.Device d.fs d.dev)
    (hdots : s.DotsAgree disk d) {c : Pointer φ} (hc : s.fromMounted d.inode d.dev = some c)
    (inode : Nat) :
    (∃ e ∈ (disk d.fs).read d.inode, s.readEntry disk d e = .ok ("..", inode)) ↔
      ∃ f, s.find disk d ".." = .ok (some f) ∧ f.file.inode = inode := by
  constructor
  · rintro ⟨e, he, heq⟩
    have hname : e.1 = ".." := (readEntry_name heq).symm
    obtain ⟨f, hf⟩ := (hdots c hc).mp ⟨e.2, by rw [← hname]; exact he⟩
    obtain ⟨hsame, hshown⟩ := hv.readEntry_above hd hc e hname
    rw [hshown f hf] at heq
    exact ⟨f, hsame.trans hf, congrArg Prod.snd (Except.ok.inj heq)⟩
  · rintro ⟨f, hf, rfl⟩
    obtain ⟨hsame, _⟩ := hv.readEntry_above hd hc ("..", 0) rfl
    obtain ⟨ino, he⟩ := (hdots c hc).mpr ⟨f, hsame.symm.trans hf⟩
    exact ⟨_, he, (hv.readEntry_above hd hc ("..", ino) rfl).2 f (hsame.symm.trans hf)⟩

/-- Whatever is mounted, a directory whose own entries agree, and with them `..` when it is a
mounted root, lists what it finds. -/
theorem run_lists {C : FS φ → Mount φ → Prop} (h : (machine disk).Run C s)
    (hd : s.Device d.fs d.dev) (ha : d.Agrees disk) (hdots : s.DotsAgree disk d) :
    ∃ entries, s.read disk d = .ok entries ∧ s.Lists disk d entries := by
  have hv := run_valid h
  obtain ⟨entries, hread⟩ := mapM_returns fun e he => hv.readEntry_returns hd hdots (e := e) he
  refine ⟨entries, hread, map_of_mapM hread fun _ _ => readEntry_name, fun name inode => ?_⟩
  rw [mem_of_mapM hread]
  cases habove : s.above d name with
  | none => exact hv.shown_below hd ha habove inode
  | some covered =>
    obtain ⟨rfl, c, hc, _⟩ := above_eq_some habove
    exact hv.shown_above hd hdots hc inode

theorem small_agrees (d : Directory (Fin 3)) : d.Agrees fun _ => small := by
  intro name inode
  simp only [small]
  by_cases hdot : name = "."
  · subst hdot
    simp [eq_comm]
  by_cases hdots : name = ".."
  · subst hdots
    simp [eq_comm]
  by_cases htmp : d.inode = 2 ∧ name = "tmp"
  · obtain ⟨hino, rfl⟩ := htmp
    simp [hino, eq_comm]
  · have hnot : d.inode = 2 → name ≠ "tmp" := fun hino hname => htmp ⟨hino, hname⟩
    by_cases hino : d.inode = 2 <;> simp_all

/-- The root of a file system that is mounted in another. -/
theorem run_lists_root : ∃ s, (machine fun _ : Fin 3 => small).Run Once s ∧
    decide (s.read (fun _ => small) ⟨1, 2, 1⟩ = .ok [(".", 2), ("..", 2), ("tmp", 11)]) = true ∧
    ∃ entries, s.read (fun _ => small) ⟨1, 2, 1⟩ = .ok entries ∧
      s.Lists (fun _ => small) ⟨1, 2, 1⟩ entries := by
  obtain ⟨s, hs, hP⟩ := exists_once (fun _ : Fin 3 => small) 0
    [⟨2 ^ 20, ⟨⟨0, 11, 0⟩, 0⟩, true, 1⟩] (P := fun s => decide (s.Device 1 1 ∧
      s.fromMounted 2 1 = some ⟨⟨0, 11, 0⟩, 0⟩ ∧ s.find (fun _ => small) ⟨0, 11, 0⟩ ".." =
        .ok (some (.made ⟨0, 2, .directory, 0⟩)) ∧
      s.read (fun _ => small) ⟨1, 2, 1⟩ = .ok [(".", 2), ("..", 2), ("tmp", 11)]))
    (by decide +kernel)
  obtain ⟨hdev, hfrom, hfind, hread⟩ := of_decide_eq_true hP
  refine ⟨s, hs, decide_eq_true hread, run_lists hs hdev (small_agrees _) fun c hc => ?_⟩
  obtain rfl := Option.some.inj (hfrom.symm.trans hc)
  exact ⟨fun _ => ⟨_, hfind⟩, fun _ => ⟨2, by decide⟩⟩

/-- A file system whose root does not list `..`. -/
def bare : FileSystem where
  root := 2
  find inode name := if name = "." then some ⟨inode, .directory⟩ else none
  read inode := [(".", inode)]

/-- A file system like `small`, and one like `bare`. -/
def mixed (n : Fin 2) : FileSystem := if n.val = 0 then small else bare

theorem bare_agrees (inode dev : Nat) : (⟨1, inode, dev⟩ : Directory (Fin 2)).Agrees mixed := by
  intro name ino
  by_cases hdot : name = "." <;> simp [mixed, bare, hdot, eq_comm]

/-- The root of a mounted file system finds `..` though its file system does not list it. -/
theorem dots_unlisted : ¬∀ s, (machine mixed).Run (fun _ _ => True) s → ∀ d,
    s.Device d.fs d.dev → d.Agrees mixed → ∃ entries, s.read mixed d = .ok entries ∧
      ∀ name inode, (name, inode) ∈ entries ↔
        ∃ f, s.find mixed d name = .ok (some f) ∧ f.file.inode = inode := by
  intro hall
  obtain ⟨s, hs, hP⟩ := exists_once mixed 0 [⟨2 ^ 20, ⟨⟨0, 11, 0⟩, 0⟩, true, 1⟩]
    (P := fun s => decide (s.Device 1 1 ∧ s.read mixed ⟨1, 2, 1⟩ = .ok [(".", 2)] ∧
      s.find mixed ⟨1, 2, 1⟩ ".." = .ok (some (.made ⟨0, 2, .directory, 0⟩)))) (by decide +kernel)
  obtain ⟨hdev, hread, hfind⟩ := of_decide_eq_true hP
  obtain ⟨entries, hentries, hall⟩ := hall s (hs.mono fun _ _ _ => trivial) ⟨1, 2, 1⟩ hdev
    (bare_agrees 2 1)
  obtain rfl := Except.ok.inj (hread.symm.trans hentries)
  have hmem := (hall ".." 2).mpr ⟨_, hfind, rfl⟩
  revert hmem
  decide

end FS

end SupOS.VFS
