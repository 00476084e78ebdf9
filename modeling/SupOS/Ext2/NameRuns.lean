import SupOS.Ext2.Ledger
import SupOS.Lib.Machine

/-! The calls that name, move and remove files and directories, in any order: each live inode has as many
links as names. -/

namespace SupOS.Ext2

open Lib SupOS.Ext2.Geometry

theorem isDir_of_isReg {mode : UInt16} (hmode : isReg mode = true) : isDir mode = false := by
  by_contra hdir
  rw [isReg_of_isDir (Bool.not_eq_false _ |>.mp hdir)] at hmode
  cases hmode

namespace FS

variable (fs : FS) (dir fuel : Nat) (name : List UInt8)

/-- `Directory::addEntry` of a new file or directory. -/
def addNew (uid gid mode : UInt16) : Except Fault (Nat × FS) := do
  let (inode, fs) ←
    if isReg mode then fs.getNewFile uid gid mode
    else if isDir mode then fs.getNewDirectory uid gid mode
    else .error (.bsod "HDD::Ext2::Directory::addEntry: me dunno wat to do wiz mode %u\n")
  return (inode, ← fs.addEntry dir fuel name inode)

/-- `sysrename`, once both directories are found and the new name is free. There is no object for an inode
that is neither a directory nor a regular file. -/
def rename (dir' : Nat) (name' : List UInt8) (stack : UInt16) : Except Fault FS := do
  let (inode, _) ← fs.findInode dir name fuel fuel
  if inode = 0 then .error .nullPointer
  else if isDir (fs.getInodeData inode.toNat).mode then do
    let fs ← fs.removeEntry dir fuel stack name
    fs.addEntry dir' fuel name' inode.toNat
  else if isReg (fs.getInodeData inode.toNat).mode then do
    let fs ← fs.addEntry dir' fuel name' inode.toNat
    fs.removeEntry dir fuel stack name
  else .error .nullPointer

variable {fs dir fuel name} {uid gid mode stack : UInt16} {dir' : Nat} {name' : List UInt8}
  {inode : UInt32} {reads : List (Nat × Nat)}

theorem addNew_file (hmode : isReg mode = true) : fs.addNew dir fuel name uid gid mode =
    fs.getNewFile uid gid mode >>= fun r =>
      r.2.addEntry dir fuel name r.1 >>= fun fs' => pure (r.1, fs') := by
  unfold FS.addNew
  rw [if_pos hmode]

theorem addNew_dir (hmode : isDir mode = true) : fs.addNew dir fuel name uid gid mode =
    fs.getNewDirectory uid gid mode >>= fun r =>
      r.2.addEntry dir fuel name r.1 >>= fun fs' => pure (r.1, fs') := by
  unfold FS.addNew
  rw [if_neg (by rw [isReg_of_isDir hmode]; exact Bool.false_ne_true), if_pos hmode]

theorem removeDirectory_eq (hfind : fs.findInode dir name fuel fuel = .ok (inode, reads))
    (hne : inode ≠ 0) (hdir : isDir (fs.getInodeData inode.toNat).mode = true) :
    fs.removeDirectory dir fuel stack name = fs.removeEntry dir fuel stack name >>= fun fs' =>
      deleteDir inode.toNat fuel fuel fs' 0 := by
  unfold FS.removeDirectory
  rw [hfind, ok_bind]
  dsimp only
  rw [hdir, decide_eq_true hne]
  rfl

theorem rename_file (hfind : fs.findInode dir name fuel fuel = .ok (inode, reads)) (hne : inode ≠ 0)
    (hfile : isReg (fs.getInodeData inode.toNat).mode = true) :
    fs.rename dir fuel name dir' name' stack = fs.addEntry dir' fuel name' inode.toNat >>= fun fs' =>
      fs'.removeEntry dir fuel stack name := by
  unfold FS.rename
  rw [hfind, ok_bind]
  dsimp only
  rw [if_neg hne, if_neg (by rw [isDir_of_isReg hfile]; exact Bool.false_ne_true), if_pos hfile]

theorem rename_dir (hfind : fs.findInode dir name fuel fuel = .ok (inode, reads)) (hne : inode ≠ 0)
    (hdir : isDir (fs.getInodeData inode.toNat).mode = true) :
    fs.rename dir fuel name dir' name' stack = fs.removeEntry dir fuel stack name >>= fun fs' =>
      fs'.addEntry dir' fuel name' inode.toNat := by
  unfold FS.rename
  rw [hfind, ok_bind]
  dsimp only
  rw [if_neg hne, if_pos hdir]

end FS

/-- The calls on names. Of a name that is there the code gets the directory and the name; `stack` is what
is on the stack. -/
inductive NameCall
  | create (dir : Nat) (name : List UInt8) (uid gid mode : UInt16)
  | link (dir : Nat) (name : List UInt8) (inode : Nat)
  | unlink (e : Named) (stack : UInt16)
  | rmdir (e : Named) (stack : UInt16)
  | rename (e : Named) (dir : Nat) (name : List UInt8) (stack : UInt16)

/-- A file system, with the names that the calls should have left. -/
structure NameSystem where
  fs : FS
  names : List Named

namespace NameSystem

def apply (s : NameSystem) : NameCall → Except Fault NameSystem
  | .create dir name uid gid mode => do
    let (inode, fs) ← s.fs.addNew dir scanFuel name uid gid mode
    return ⟨fs, ⟨dir, name, inode⟩ ::
      if isDir mode then ⟨inode, dotDot, dir⟩ :: ⟨inode, [46], inode⟩ :: s.names else s.names⟩
  | .link dir name inode => do
    let fs ← s.fs.addEntry dir scanFuel name inode
    return ⟨fs, ⟨dir, name, inode⟩ :: s.names⟩
  | .unlink e stack => do
    let fs ← s.fs.removeEntry e.dir scanFuel stack e.name
    return ⟨fs, s.names.erase e⟩
  | .rmdir e stack => do
    let fs ← s.fs.removeDirectory e.dir scanFuel stack e.name
    return ⟨fs, ((s.names.erase ⟨e.node, dotDot, e.dir⟩).erase e).erase ⟨e.node, [46], e.node⟩⟩
  | .rename e dir name stack => do
    let fs ← s.fs.rename e.dir scanFuel e.name dir name stack
    return ⟨fs, if isDir (s.fs.getInodeData e.node).mode then
      ⟨dir, name, e.node⟩ :: ⟨e.node, dotDot, dir⟩ :: (s.names.erase ⟨e.node, dotDot, e.dir⟩).erase e
      else (⟨dir, name, e.node⟩ :: s.names).erase e⟩

/-- The record of a name that goes does not start a block, and there is room for one that comes. -/
def Careful (G : Geometry) (s : NameSystem) : NameCall → Prop
  | .create dir name _ _ mode => (isReg mode = true ∨ isDir mode = true) ∧
      s.fs.Takes G s.names dir name ∧ (s.fs.getInodeData dir).linksCount.toNat + 1 < 2 ^ 16
  | .link dir name inode => s.fs.Takes G s.names dir name ∧ (∃ e ∈ s.names, e.node = inode) ∧
      isReg (s.fs.getInodeData inode).mode = true ∧
      (s.fs.getInodeData inode).linksCount.toNat + 1 < 2 ^ 16
  | .unlink e _ => e ∈ s.names ∧ dots.Proper e.name ∧ isReg (s.fs.getInodeData e.node).mode = true ∧
      s.fs.startsBlock e.dir e.name = false
  | .rmdir e _ => e ∈ s.names ∧ dots.Proper e.name ∧ isDir (s.fs.getInodeData e.node).mode = true ∧
      (∀ e' ∈ s.names, e'.dir = e.node → ¬dots.Proper e'.name) ∧
      s.fs.startsBlock e.dir e.name = false ∧ s.fs.startsBlock e.node dotDot = false
  | .rename e dir name _ => e ∈ s.names ∧ dots.Proper e.name ∧ s.fs.Takes G s.names dir name ∧
      (isReg (s.fs.getInodeData e.node).mode = true ∨ isDir (s.fs.getInodeData e.node).mode = true) ∧
      s.fs.startsBlock e.dir e.name = false ∧
      (s.fs.getInodeData e.node).linksCount.toNat + 1 < 2 ^ 16 ∧
      (isDir (s.fs.getInodeData e.node).mode = true → dir ≠ e.node ∧
        s.fs.startsBlock e.node dotDot = false ∧ s.fs.count G e.node < 12 ∧
        (s.fs.getInodeData dir).linksCount.toNat + 1 < 2 ^ 16)

/-- The names are in the books, and each live inode has one. -/
structure Inv (G : Geometry) (M : Nat → Prop) (root : Nat) (live : List Nat) (s : NameSystem) : Prop where
  ledger : s.fs.Ledger G M root live s.names
  named : ∀ i ∈ live, 0 < nameCount s.names i

/-- Any file system in order, and the calls on it. -/
def machine (G : Geometry) (M : Nat → Prop) (root : Nat) : Machine NameSystem NameCall Fault where
  start s := ∃ live, s.Inv G M root live
  admits _ _ := True
  apply := apply

/-- The disk is full. -/
def NoRoom (e : Fault) : Prop :=
  e = .bsod "No more inodes on disk :-(" ∨ e = .bsod "No space on disk :-("

variable {G : Geometry} {M : Nat → Prop} {root d i : Nat} {live : List Nat} {s s' : NameSystem}
  {n : List UInt8} {e : Named} {uid gid mode stack : UInt16}

theorem apply_create : s.apply (.create d n uid gid mode) =
    s.fs.addNew d scanFuel n uid gid mode >>= fun r => pure ⟨r.2, ⟨d, n, r.1⟩ ::
      if isDir mode then ⟨r.1, dotDot, d⟩ :: ⟨r.1, [46], r.1⟩ :: s.names else s.names⟩ := rfl

theorem apply_link : s.apply (.link d n i) = s.fs.addEntry d scanFuel n i >>= fun fs =>
    pure ⟨fs, ⟨d, n, i⟩ :: s.names⟩ := rfl

theorem apply_unlink : s.apply (.unlink e stack) =
    s.fs.removeEntry e.dir scanFuel stack e.name >>= fun fs => pure ⟨fs, s.names.erase e⟩ := rfl

theorem apply_rmdir : s.apply (.rmdir e stack) =
    s.fs.removeDirectory e.dir scanFuel stack e.name >>= fun fs => pure
      ⟨fs, ((s.names.erase ⟨e.node, dotDot, e.dir⟩).erase e).erase ⟨e.node, [46], e.node⟩⟩ := rfl

theorem apply_rename : s.apply (.rename e d n stack) =
    s.fs.rename e.dir scanFuel e.name d n stack >>= fun fs => pure
      ⟨fs, if isDir (s.fs.getInodeData e.node).mode then
        ⟨d, n, e.node⟩ :: ⟨e.node, dotDot, d⟩ :: (s.names.erase ⟨e.node, dotDot, e.dir⟩).erase e
        else (⟨d, n, e.node⟩ :: s.names).erase e⟩ := rfl

namespace Inv

theorem link (hG : G.Sound) (hM : G.Metadata M) (hB : G.blockSize < 2 ^ 16) (h : s.Inv G M root live)
    (hc : Careful G s (.link d n i)) :
    Ensures (s.apply (.link d n i)) NoRoom fun s' => ∃ live', s'.Inv G M root live' := by
  obtain ⟨ht, ⟨e, he, rfl⟩, hfile, hfew⟩ := hc
  rw [apply_link]
  refine ((h.ledger.link hG hM hB ht (h.ledger.nodes e he) (isDir_of_isReg hfile) hfew).mono (fun _ he => .inr he)
    fun _ hr => hr).bind fun fs' hfs' => ?_
  refine ⟨live, hfs'.1, fun j hj => ?_⟩
  rw [nameCount_cons]
  exact Nat.add_pos_left (h.named j hj) _

theorem unlink (hG : G.Sound) (hM : G.Metadata M) (hB : G.blockSize < 2 ^ 16) (h : s.Inv G M root live)
    (hc : Careful G s (.unlink e stack)) :
    Ensures (s.apply (.unlink e stack)) NoRoom fun s' => ∃ live', s'.Inv G M root live' := by
  obtain ⟨he, hp, hfile, hinner⟩ := hc
  obtain ⟨fs', heq, hledger⟩ := h.ledger.unlink hG hM hB he hp (isDir_of_isReg hfile) hinner stack
  rw [apply_unlink, heq, ok_bind]
  refine ⟨_, hledger, fun j hj => ?_⟩
  have hmem := (h.ledger.mem_remaining_iff he).mp hj
  by_cases hje : j = e.node
  · exact hmem.2 hje
  · have hcount := nameCount_erase he j
    rw [if_neg (Ne.symm hje), Nat.add_zero] at hcount
    rw [hcount]
    exact h.named j hmem.1

theorem create_file (hG : G.Sound) (hM : G.Metadata M) (hB : G.blockSize < 2 ^ 16)
    (h : s.Inv G M root live) (hmode : isReg mode = true) (ht : s.fs.Takes G s.names d n) :
    Ensures (s.apply (.create d n uid gid mode)) NoRoom fun s' => ∃ live', s'.Inv G M root live' := by
  have hnotDir := isDir_of_isReg hmode
  obtain ⟨hd, -⟩ := h.ledger.isDir_of_self ht.dir
  rw [apply_create, FS.addNew_file hmode, bind_assoc]
  refine ((h.ledger.getNewFile hG hM uid gid hmode).mono (fun _ he => .inl he)
    fun _ hr => hr).bind fun r hr => ?_
  obtain ⟨hnot, hkept, hledger, hmode', hlinks⟩ := hr
  have hdne : d ≠ r.1 := fun heq => hnot (heq ▸ hd)
  have ht' : r.2.Takes G s.names d n := { ht with
    room := by
      rw [(hkept.others d (List.mem_cons_of_mem _ hd) hdne).contents.count]
      exact ht.room }
  rw [bind_assoc]
  refine ((hledger.link hG hM hB ht' List.mem_cons_self (by rw [hmode', hnotDir])
    (by rw [hlinks]; decide)).mono (fun _ he => .inr he) fun _ hr => hr).bind fun fs' hfs' => ?_
  rw [pure_bind, if_neg (by rw [hnotDir]; exact Bool.false_ne_true)]
  refine ⟨_, hfs'.1, List.forall_mem_cons.mpr ⟨?_, fun j hj => ?_⟩⟩
  · exact nameCount_pos.mpr ⟨_, List.mem_cons_self, rfl⟩
  · rw [nameCount_cons]
    exact Nat.add_pos_left (h.named j hj) _

theorem create_dir (hG : G.Sound) (hM : G.Metadata M) (hB : G.blockSize < 2 ^ 16)
    (h : s.Inv G M root live) (hmode : isDir mode = true) (ht : s.fs.Takes G s.names d n)
    (hfew : (s.fs.getInodeData d).linksCount.toNat + 1 < 2 ^ 16) :
    Ensures (s.apply (.create d n uid gid mode)) NoRoom fun s' => ∃ live', s'.Inv G M root live' := by
  obtain ⟨hd, -⟩ := h.ledger.isDir_of_self ht.dir
  rw [apply_create, FS.addNew_dir hmode, bind_assoc]
  refine (h.ledger.getNewDirectory hG hM hB uid gid hmode).bind fun r hr => ?_
  obtain ⟨hnot, hkept, hledger, hlinks, hcount⟩ := hr
  have hdne : d ≠ r.1 := fun heq => hnot (heq ▸ hd)
  have hdkept := hkept.others d (List.mem_cons_of_mem _ hd) hdne
  have ht' : r.2.Takes G (⟨r.1, [46], r.1⟩ :: s.names) d n := { ht with
    dir := List.mem_cons_of_mem _ ht.dir
    fresh := List.forall_mem_cons.mpr ⟨fun heq => absurd heq.symm hdne, ht.fresh⟩
    room := by
      rw [hdkept.contents.count]
      exact ht.room }
  have hnone : ∀ e ∈ (⟨r.1, [46], r.1⟩ : Named) :: s.names, dots.Proper e.name → e.node ≠ r.1 :=
    List.forall_mem_cons.mpr ⟨fun hp => absurd rfl hp.1, fun e he _ => (h.ledger.unnamed hnot he).2⟩
  have hup : ∀ e ∈ (⟨r.1, [46], r.1⟩ : Named) :: s.names, e.dir = r.1 → e.name ≠ dotDot :=
    List.forall_mem_cons.mpr ⟨fun _ => dots.ne,
      fun e he hdir => absurd hdir (h.ledger.unnamed hnot he).1⟩
  rw [bind_assoc]
  refine ((hledger.attach hG hM hB ht' List.mem_cons_self hdne hnone hup (by omega)
    (by rw [hdkept.data]; exact hfew) (by rw [hlinks]; decide)).mono (fun _ he => .inr he)
    fun _ hr => hr).bind fun fs' hfs' => ?_
  rw [pure_bind, if_pos hmode]
  refine ⟨_, hfs'.1, List.forall_mem_cons.mpr ⟨?_, fun j hj => ?_⟩⟩
  · exact nameCount_pos.mpr ⟨_, List.mem_cons_self, rfl⟩
  · rw [nameCount_cons, nameCount_cons, nameCount_cons]
    have := h.named j hj
    omega

theorem mem_detached (h : s.Inv G M root live) {c : Nat} {e : Named} :
    e ∈ (s.names.erase ⟨c, dotDot, d⟩).erase ⟨d, n, c⟩ ↔
      e ∈ NameTree.detached dots {e | e ∈ s.names} d n c := by
  rw [(h.ledger.nodup.erase _).mem_erase_iff, h.ledger.nodup.mem_erase_iff, NameTree.mem_detached]
  exact ⟨fun ⟨ha, hb, hm⟩ => ⟨hm, ha, hb⟩, fun ⟨hm, ha, hb⟩ => ⟨ha, hb, hm⟩⟩

/-- An inode other than the directory that loses its name keeps a name. -/
theorem named_detached (h : s.Inv G M root live) {c : Nat} (he : ⟨d, n, c⟩ ∈ s.names)
    (hn : dots.Proper n) (hi : i ∈ live) (hne : i ≠ c) :
    ∃ e ∈ (s.names.erase ⟨c, dotDot, d⟩).erase ⟨d, n, c⟩, e.node = i := by
  obtain ⟨e, hmem, hnode⟩ := nameCount_pos.mp (h.named i hi)
  by_cases hup : e = ⟨c, dotDot, d⟩
  · subst hup
    refine ⟨⟨d, [46], d⟩, h.mem_detached.mpr ?_, hnode⟩
    exact NameTree.self_mem_detached hn (h.ledger.tree.dirs _ he).2
  · refine ⟨e, h.mem_detached.mpr (NameTree.mem_detached.mpr ⟨hmem, fun heq => ?_, hup⟩), hnode⟩
    exact hne (hnode.symm.trans (congrArg Naming.node heq))

theorem inode_ne_zero (h : s.Inv G M root live) {inode : UInt32} (hi : inode.toNat ∈ live) :
    inode ≠ 0 := fun hzero => by
  have hpos := (h.ledger.shows.tended.wellFormed.inode _ hi).pos
  rw [hzero] at hpos
  exact absurd hpos (by decide)

theorem rmdir (hG : G.Sound) (hM : G.Metadata M) (hB : G.blockSize < 2 ^ 16) (h : s.Inv G M root live)
    (hc : Careful G s (.rmdir e stack)) :
    Ensures (s.apply (.rmdir e stack)) NoRoom fun s' => ∃ live', s'.Inv G M root live' := by
  obtain ⟨he, hp, hdir, hempty, hinner, hinner'⟩ := hc
  obtain ⟨d, n, c⟩ := e
  simp only at hp hdir hempty hinner hinner'
  obtain ⟨inode, reads, hfind, rfl⟩ := h.ledger.findInode hG he
  obtain ⟨fs₁, heq₁, h₁, -, -⟩ := h.ledger.detach hG hM hB he hp hdir hinner hinner' stack
  have hself := h.ledger.tree.entered _ he hdir
  obtain ⟨fs₂, heq₂, h₂, -⟩ := h₁.deleteDir hG hM (h.mem_detached.mpr (NameTree.self_mem_detached hp hself)) fun e' he' =>
    h.ledger.tree.only_self he hp hdir hempty (h.mem_detached.mp he')
  rw [apply_rmdir, FS.removeDirectory_eq hfind (h.inode_ne_zero (h.ledger.nodes _ he)) hdir, heq₁,
    ok_bind, heq₂, ok_bind]
  refine ⟨_, h₂, fun j hj => ?_⟩
  obtain ⟨hne, hj⟩ := h.ledger.shows.tended.wellFormed.nodup.mem_erase_iff.mp hj
  obtain ⟨e', he', hnode⟩ := h.named_detached he hp hj hne
  have hnot : e' ≠ ⟨inode.toNat, [46], inode.toNat⟩ := fun heq => by
    rw [heq] at hnode
    exact hne hnode.symm
  exact nameCount_pos.mpr ⟨e', (List.mem_erase_of_ne hnot).mpr he', hnode⟩

theorem rename_file (hG : G.Sound) (hM : G.Metadata M) (hB : G.blockSize < 2 ^ 16)
    (h : s.Inv G M root live) (he : e ∈ s.names) (hp : dots.Proper e.name)
    (ht : s.fs.Takes G s.names d n) (hinner : s.fs.startsBlock e.dir e.name = false)
    (hreg : isReg (s.fs.getInodeData e.node).mode = true)
    (hfew : (s.fs.getInodeData e.node).linksCount.toNat + 1 < 2 ^ 16) :
    Ensures (s.apply (.rename e d n stack)) NoRoom fun s' => ∃ live', s'.Inv G M root live' := by
  have hfile := isDir_of_isReg hreg
  obtain ⟨inode, reads, hfind, hnode⟩ := h.ledger.findInode hG he
  have hlive := h.ledger.nodes e he
  have hne := h.inode_ne_zero (hnode ▸ hlive)
  have hrename : s.fs.rename e.dir scanFuel e.name d n stack = s.fs.addEntry d scanFuel n e.node >>=
      fun fs' => fs'.removeEntry e.dir scanFuel stack e.name := by
    rw [FS.rename_file hfind hne (by rw [hnode]; exact hreg), hnode]
  rw [apply_rename, hrename, bind_assoc]
  refine ((h.ledger.link hG hM hB ht hlive hfile hfew).mono (fun _ he => .inr he)
    fun _ hr => hr).bind fun fs₁ h₁ => ?_
  obtain ⟨hledger, hmodes, hothers, hstarts⟩ := h₁
  have hinner₁ : fs₁.startsBlock e.dir e.name = false := by
    by_cases hdir : e.dir = d
    · have := hstarts e he hdir
      rw [hdir] at hinner ⊢
      exact this.trans hinner
    · exact (h.ledger.shows.startsBlock_same hG hledger.shows.tended he
        (hothers _ (h.ledger.shows.dirs e he).1 hdir) hmodes).trans hinner
  obtain ⟨fs', heq, h'⟩ := hledger.unlink hG hM hB (List.mem_cons_of_mem _ he) hp
    (by rw [hmodes _ hlive]; exact hfile) hinner₁ stack
  rw [heq, ok_bind, if_neg (by rw [hfile]; exact Bool.false_ne_true)]
  refine ⟨_, h', fun j hj => ?_⟩
  have hmem := (hledger.mem_remaining_iff (List.mem_cons_of_mem _ he)).mp hj
  by_cases hje : j = e.node
  · exact hmem.2 hje
  · have hcount := nameCount_erase (List.mem_cons_of_mem ⟨d, n, e.node⟩ he) j
    have hold := h.named j hmem.1
    rw [if_neg (Ne.symm hje), Nat.add_zero, nameCount_cons] at hcount
    rw [hcount]
    exact Nat.add_pos_left hold _

theorem nameCount_erase_le (names : List Named) (e : Named) (i : Nat) :
    nameCount (names.erase e) i ≤ nameCount names i := List.Sublist.countP_le List.erase_sublist

theorem rename_dir (hG : G.Sound) (hM : G.Metadata M) (hB : G.blockSize < 2 ^ 16)
    (h : s.Inv G M root live) (he : e ∈ s.names) (hp : dots.Proper e.name)
    (ht : s.fs.Takes G s.names d n) (hinner : s.fs.startsBlock e.dir e.name = false)
    (hdir : isDir (s.fs.getInodeData e.node).mode = true) (hne : d ≠ e.node)
    (hinner' : s.fs.startsBlock e.node dotDot = false) (hroom : s.fs.count G e.node < 12)
    (hfew : (s.fs.getInodeData e.node).linksCount.toNat + 1 < 2 ^ 16)
    (hfewd : (s.fs.getInodeData d).linksCount.toNat + 1 < 2 ^ 16) :
    Ensures (s.apply (.rename e d n stack)) NoRoom fun s' => ∃ live', s'.Inv G M root live' := by
  obtain ⟨d₀, n₀, c⟩ := e
  simp only at hp hinner hdir hne hinner' hroom hfew
  obtain ⟨inode, reads, hfind, rfl⟩ := h.ledger.findInode hG he
  have hlive : inode.toNat ∈ live := h.ledger.nodes _ he
  obtain ⟨hd, -⟩ := h.ledger.isDir_of_self ht.dir
  obtain ⟨fs₁, heq₁, h₁, hmodes, hcounts⟩ := h.ledger.detach hG hM hB he hp hdir hinner hinner' stack
  have hself := h.ledger.tree.entered _ he hdir
  have ht₁ : fs₁.Takes G ((s.names.erase ⟨inode.toNat, dotDot, d₀⟩).erase ⟨d₀, n₀, inode.toNat⟩) d n := {
    ht with
    dir := h.mem_detached.mpr (NameTree.self_mem_detached hp ht.dir)
    fresh := fun e he => ht.fresh e (List.mem_of_mem_erase (List.mem_of_mem_erase he))
    room := by
      rw [hcounts d hd]
      exact ht.room }
  have hfewer : ∀ j ∈ live, (s.fs.getInodeData j).linksCount.toNat + 1 < 2 ^ 16 →
      (fs₁.getInodeData j).linksCount.toNat + 1 < 2 ^ 16 := fun j hj hlt => by
    have hle := (nameCount_erase_le (s.names.erase ⟨inode.toNat, dotDot, d₀⟩) ⟨d₀, n₀, inode.toNat⟩
      j).trans (nameCount_erase_le s.names ⟨inode.toNat, dotDot, d₀⟩ j)
    have hold := h.ledger.links j hj
    have hnew := h₁.links j hj
    omega
  have hnone : ∀ e ∈ (s.names.erase ⟨inode.toNat, dotDot, d₀⟩).erase ⟨d₀, n₀, inode.toNat⟩,
      dots.Proper e.name → e.node ≠ inode.toNat := fun e he' hp' hnode => by
    obtain ⟨hmem, hnot, -⟩ := NameTree.mem_detached.mp (h.mem_detached.mp he')
    exact hnot (h.ledger.tree.once e hmem _ he hp' hp (by rw [hnode]; exact hdir) hnode)
  have hup : ∀ e ∈ (s.names.erase ⟨inode.toNat, dotDot, d₀⟩).erase ⟨d₀, n₀, inode.toNat⟩,
      e.dir = inode.toNat → e.name ≠ dotDot := fun e he' hd' hname => by
    obtain ⟨hmem, -, hnot⟩ := NameTree.mem_detached.mp (h.mem_detached.mp he')
    exact hnot (h.ledger.tree.keys e hmem _ (h.ledger.tree.above _ he hp hdir) hd' hname)
  rw [apply_rename, FS.rename_dir hfind (h.inode_ne_zero hlive) hdir, heq₁, ok_bind]
  refine ((h₁.attach hG hM hB ht₁ (h.mem_detached.mpr (NameTree.self_mem_detached hp hself)) hne hnone hup
    (by rw [hcounts _ hlive]; exact hroom) (hfewer d hd hfewd) (hfewer _ hlive hfew)).mono
    (fun _ he => .inr he) fun _ hr => hr).bind fun fs' hfs' => ?_
  rw [if_pos hdir]
  refine ⟨live, hfs'.1, fun j hj => ?_⟩
  by_cases hjc : j = inode.toNat
  · exact nameCount_pos.mpr ⟨_, List.mem_cons_self, hjc.symm⟩
  · obtain ⟨e', he', hnode⟩ := h.named_detached he hp hj hjc
    exact nameCount_pos.mpr ⟨e', List.mem_cons_of_mem _ (List.mem_cons_of_mem _ he'), hnode⟩

/-- A careful call leaves the names in order, or finds the disk full. -/
theorem step (hG : G.Sound) (hM : G.Metadata M) (hB : G.blockSize < 2 ^ 16) (h : s.Inv G M root live)
    {c : NameCall} (hc : Careful G s c) :
    Ensures (s.apply c) NoRoom fun s' => ∃ live', s'.Inv G M root live' := by
  cases c with
  | create d n uid gid mode =>
    obtain ⟨hmode, ht, hfew⟩ := hc
    rcases hmode with hmode | hmode
    · exact h.create_file hG hM hB hmode ht
    · exact h.create_dir hG hM hB hmode ht hfew
  | link d n i => exact h.link hG hM hB hc
  | unlink e stack => exact h.unlink hG hM hB hc
  | rmdir e stack => exact h.rmdir hG hM hB hc
  | rename e d n stack =>
    obtain ⟨he, hp, ht, hkind, hinner, hfew, hdirs⟩ := hc
    rcases hkind with hreg | hdir
    · exact h.rename_file hG hM hB he hp ht hinner hreg hfew
    · obtain ⟨hne, hinner', hroom, hfewd⟩ := hdirs hdir
      exact h.rename_dir hG hM hB he hp ht hinner hdir hne hinner' hroom hfew hfewd

end Inv

theorem Inv.of_run (hG : G.Sound) (hM : G.Metadata M) (hB : G.blockSize < 2 ^ 16)
    (hr : (machine G M root).Run (Careful G) s) : ∃ live, s.Inv G M root live :=
  hr.invariant (fun _ hs => hs) fun _ _ _ ⟨_, h⟩ _ hc heq => (h.step hG hM hB hc).of_ok heq

open History (rooted)

/-- `rooted`, where only the directory has a name, that for itself. -/
def founded : NameSystem := ⟨rooted, [⟨2, [46], 2⟩]⟩

theorem rooted_ledger : rooted.Ledger small.geometry (· < 5) 2 [2] [⟨2, [46], 2⟩] ∧
    (rooted.getInodeData 2).linksCount = 1 := by
  have hnone : ∀ {α : Type} {p : α → Prop}, ∀ a ∈ ([] : List α), p a := fun a ha =>
    absurd ha List.not_mem_nil
  have hempty : small.Ledger small.geometry (· < 5) 2 [] [] := {
    shows := {
      tended := {
        wellFormed := {
          fit := small_owning.wellFormed.fit
          firstDataBlock := small_owning.wellFormed.firstDataBlock
          nodup := List.nodup_nil
          inode := hnone
          blocks := hnone
          held := ⟨List.nodup_nil, hnone⟩ }
        marked := hnone }
      entries := hnone
      dirs := hnone }
    nodup := List.nodup_nil
    tree := {
      keys := fun _ he => absurd he List.not_mem_nil
      dirs := fun _ he => absurd he List.not_mem_nil
      self := fun _ he => absurd he List.not_mem_nil
      apart := fun _ he => absurd he List.not_mem_nil
      entered := fun _ he => absurd he List.not_mem_nil
      above := fun _ he => absurd he List.not_mem_nil
      once := fun _ he => absurd he List.not_mem_nil
      below := fun _ he => absurd he List.not_mem_nil }
    nodes := hnone
    links := hnone }
  have hinode : (small.getNewDirectory 0 0 0x41ed).toOption.map Prod.fst = some 2 := by
    decide +kernel
  have hnew := hempty.getNewDirectory small_sound small_metadata small_blockSize_lt 0 0
    (show isDir 0x41ed = true by decide)
  unfold rooted
  cases heq : small.getNewDirectory 0 0 0x41ed with
  | error e =>
    rw [heq] at hinode
    cases hinode
  | ok r =>
    rw [heq] at hinode hnew
    obtain ⟨-, -, hledger, hlinks, -⟩ := hnew
    have hfirst : r.1 = 2 := Option.some.inj hinode
    rw [hfirst] at hledger hlinks
    exact ⟨hledger, hlinks⟩

theorem founded_start : (machine small.geometry (· < 5) 2).start founded :=
  ⟨[2], rooted_ledger.1, List.forall_mem_singleton.mpr (by decide)⟩

theorem founded_careful : Careful small.geometry founded (.create 2 [97] 0 0 0x81a4) := by
  refine ⟨.inl (by decide), ?_, ?_⟩
  · exact {
      dir := List.mem_singleton.mpr rfl
      proper := by decide
      some := by decide
      short := by decide
      nul := by decide
      fresh := List.forall_mem_singleton.mpr fun _ => by decide
      room := rooted_count }
  · change (rooted.getInodeData 2).linksCount.toNat + 1 < 2 ^ 16
    rw [rooted_ledger.2]
    decide

/-- After any run a careful call returns, unless the disk is full. -/
theorem run_returns (hG : G.Sound) (hM : G.Metadata M) (hB : G.blockSize < 2 ^ 16)
    (hr : (machine G M root).Run (Careful G) s) {c : NameCall} (hc : Careful G s c) :
    (∃ s', s.apply c = .ok s') ∨ ∃ e, s.apply c = .error e ∧ NoRoom e := by
  obtain ⟨live, h⟩ := Inv.of_run hG hM hB hr
  have hstep := h.step hG hM hB hc
  cases heq : s.apply c with
  | ok s' => exact .inl ⟨s', rfl⟩
  | error e => exact .inr ⟨e, rfl, hstep.of_error heq⟩

theorem founded_returns : (∃ s', founded.apply (.create 2 [97] 0 0 0x81a4) = .ok s') ∨
    ∃ e, founded.apply (.create 2 [97] 0 0 0x81a4) = .error e ∧ NoRoom e :=
  run_returns small_sound small_metadata small_blockSize_lt (.start founded_start) founded_careful

end NameSystem

end SupOS.Ext2
