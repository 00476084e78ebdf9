import SupOS.Ext2.Inode
import SupOS.VFS.FS

/-! The file system in memory of `HDD/RamFS.cpp`: files that are objects, and directories whose
entries point to them. -/

namespace SupOS.RamFS

open SupOS.Ext2 (isReg isDir)
open SupOS.VFS (FileType)

structure File where
  type : FileType
  ino : UInt32
  mode : UInt16
  nlink : UInt16
  uid : UInt16
  gid : UInt16
  deriving DecidableEq, Repr

/-- A pair of the `_entries` of directory `dir`. -/
structure Entry where
  dir : Nat
  name : String
  file : Nat
  deriving DecidableEq, Repr

/-- The files that have been made, which point to each other by their places, and the entries of
all directories. -/
structure FS where
  files : List File
  entries : List Entry
  nextInode : UInt32
  deriving DecidableEq, Repr

namespace FS

variable (s : FS)

/-- `getType` -/
def type (f : Nat) : Option FileType := (s.files[f]?).map (·.type)

/-- `st_nlink` -/
def nlink (f : Nat) : UInt16 := ((s.files[f]?).map (·.nlink)).getD 0

/-- `st_mode` -/
def mode (f : Nat) : UInt16 := ((s.files[f]?).map (·.mode)).getD 0

/-- `operator[]` of a directory. -/
def find (dir : Nat) (name : String) : Option Nat :=
  (s.entries.find? fun e => e.dir == dir && e.name == name).map (·.file)

/-- `File::link` -/
def link (f : Nat) : FS := { s with files := s.files.modify f fun x => { x with nlink := x.nlink + 1 } }

/-- `insert` of a map, which keeps the value that a key has. -/
def insert (dir : Nat) (name : String) (f : Nat) : FS :=
  if (s.find dir name).isSome then s else { s with entries := s.entries ++ [⟨dir, name, f⟩] }

/-- A device is not linked. -/
def linked (f : Nat) : Bool :=
  s.type f == some .regularFile || s.type f == some .directory

/-- The first two steps of `Directory::addEntry` of an existing file. -/
def enter (dir : Nat) (name : String) (f : Nat) : FS :=
  (if s.linked f then s.link f else s).insert dir name f

/-- `Directory::addEntry` of an existing file. The call for `..` does not make another one. -/
def addFile (dir : Nat) (name : String) (f : Nat) : FS :=
  let s := s.enter dir name f
  if s.type f = some .directory ∧ name ≠ "." ∧ name ≠ ".." then s.enter f ".." dir else s

/-- `new` of a file. -/
def make (type : FileType) (uid gid mode : UInt16) : FS :=
  { s with files := s.files ++ [⟨type, s.nextInode, mode, 0, uid, gid⟩], nextInode := s.nextInode + 1 }

/-- `getNewFile`, `getNewBlockDevice` and `getNewCharacterDevice`; the new file has the next
place. -/
def getNewFile (uid gid mode : UInt16) : FS := s.make .regularFile uid gid mode

def getNewBlockDevice (uid gid mode : UInt16) : FS := s.make .blockDevice uid gid mode

def getNewCharacterDevice (uid gid mode : UInt16) : FS := s.make .characterDevice uid gid mode

/-- `getNewDirectory`, with the constructor of `Directory`. -/
def getNewDirectory (uid gid mode : UInt16) : FS :=
  (s.make .directory uid gid mode).addFile s.files.length "." s.files.length

/-- `Directory::addEntry` of a new file. -/
def addEntry (dir : Nat) (name : String) (uid gid mode : UInt16) : Except Fault FS :=
  if isReg mode then return (s.getNewFile uid gid mode).addFile dir name s.files.length
  else if isDir mode then return (s.getNewDirectory uid gid mode).addFile dir name s.files.length
  else throw (.bsod "HDD::RamFS::Directory::addEntry: me dunno wat to do wiz mode %u\n")

/-- `Directory::removeEntry` -/
def removeEntry (dir : Nat) (name : String) : Except Fault FS := do
  assert (s.find dir name).isSome
  return { s with entries := s.entries.eraseP fun e => e.dir == dir && e.name == name }

/-- `Directory::removeDirectory` -/
def removeDirectory (dir : Nat) (name : String) : Except Fault FS := s.removeEntry dir name

/-- `sysrename` of two names in directories of this file system. -/
def sysrename (dir₁ : Nat) (name₁ : String) (dir₂ : Nat) (name₂ : String) : Except Fault FS :=
  if (s.find dir₂ name₂).isSome then return s
  else
    match s.find dir₁ name₁ with
    | none => throw .nullPointer
    | some f =>
      if isDir (s.mode f) then do
        let s ← s.removeEntry dir₁ name₁
        return s.addFile dir₂ name₂ f
      else (s.addFile dir₂ name₂ f).removeEntry dir₁ name₁

/-- The mode of the root: `S_IFDIR | S_IRWXU | S_IRGRP | S_IXGRP | S_IROTH | S_IXOTH`. -/
def rootMode : UInt16 := 0x41ed

/-- The constructor, which makes the root first. -/
def new : FS := ((⟨[], [], 0⟩ : FS).getNewDirectory 0 0 rootMode).addFile 0 ".." 0

/-- The calls: files are made and come into directories, and entries go. -/
inductive Call
  | addEntry (dir : Nat) (name : String) (uid gid mode : UInt16)
  | addFile (dir : Nat) (name : String) (f : Nat)
  | getNewBlockDevice (uid gid mode : UInt16)
  | getNewCharacterDevice (uid gid mode : UInt16)
  | removeEntry (dir : Nat) (name : String)
  | removeDirectory (dir : Nat) (name : String)
  | sysrename (dir₁ : Nat) (name₁ : String) (dir₂ : Nat) (name₂ : String)

def apply (s : FS) : Call → Except Fault FS
  | .addEntry dir name uid gid mode => s.addEntry dir name uid gid mode
  | .addFile dir name f => return s.addFile dir name f
  | .getNewBlockDevice uid gid mode => return s.getNewBlockDevice uid gid mode
  | .getNewCharacterDevice uid gid mode => return s.getNewCharacterDevice uid gid mode
  | .removeEntry dir name => s.removeEntry dir name
  | .removeDirectory dir name => s.removeDirectory dir name
  | .sysrename dir₁ name₁ dir₂ name₂ => s.sysrename dir₁ name₁ dir₂ name₂

end FS

end SupOS.RamFS
