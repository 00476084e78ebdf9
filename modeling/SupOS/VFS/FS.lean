import SupOS.Descriptors.Counting
import SupOS.Lib.Descent

/-! The virtual file system of `HDD/VFS.cpp`: file systems that are mounted on directories of one
another, and what its directories find and list. -/

namespace SupOS

open Lib

namespace Libcpp

/-- The class `map` of `libc++/map`: the pairs and the room of the vector that holds them. -/
structure Map (K T : Type) where
  pairs : List (K × T)
  capacity : Nat

namespace Map

variable {K T : Type} [DecidableEq K] (m : Map K T)

def empty : Map K T := ⟨[], 0⟩

def find (k : K) : Option T := m.pairs.lookup k

/-- `insert`, which keeps the value that a key has. A pair takes `size` bytes, and `malloc` has
`room` bytes left for a request. -/
def insert (size room : Nat) (k : K) (x : T) : Except Fault (Map K T) :=
  if (m.find k).isSome then return m
  else if 0 < m.pairs.length ∧ m.pairs.length < m.capacity then
    return ⟨m.pairs ++ [(k, x)], m.capacity⟩
  else do
    let capacity ← strategy (m.pairs.length + 1)
    if u64 (capacity * size) ≤ room then return ⟨m.pairs ++ [(k, x)], capacity⟩
    else throw .outOfMemory

end Map

end Libcpp

namespace VFS

open Libcpp

inductive FileType
  | regularFile
  | directory
  | blockDevice
  | characterDevice
  deriving DecidableEq, Repr

/-- What `operator[]` of a mounted file system finds. -/
structure Entry where
  inode : Nat
  type : FileType
  deriving DecidableEq, Repr

/-- A file system below the VFS, whose directories have the numbers of their inodes. -/
structure FileSystem where
  /-- `getRoot` -/
  root : Nat
  /-- `operator[]` -/
  find : Nat → String → Option Entry
  /-- What the calls of `read` return one after another. -/
  read : Nat → List (String × Nat)

/-- What a `VFS::File` holds: `_impl`, which is an inode of a file system, and `_dev`. -/
structure File (φ : Type) where
  fs : φ
  inode : Nat
  type : FileType
  dev : Nat
  deriving DecidableEq, Repr

/-- What a `VFS::Directory` holds. -/
structure Directory (φ : Type) where
  fs : φ
  inode : Nat
  dev : Nat
  deriving DecidableEq, Repr

/-- A `Directory*`: the directory, and the number of the object that holds it. -/
structure Pointer (φ : Type) extends Directory φ where
  object : Nat
  deriving DecidableEq, Repr

/-- What `operator[]` of a `VFS::Directory` returns: a pointer of `mount`, which must not delete
its directory, or a new file. -/
inductive Found (φ : Type)
  | mounted (p : Pointer φ)
  | made (f : File φ)
  deriving DecidableEq, Repr

/-- The device and the number of an inode name a file. -/
abbrev Key := Nat × Nat

def Directory.key {φ : Type} (d : Directory φ) : Key := (d.dev, d.inode)

/-- The directory as a `File`. -/
def Directory.file {φ : Type} (d : Directory φ) : File φ := ⟨d.fs, d.inode, .directory, d.dev⟩

namespace File

variable {φ : Type} (f : File φ)

def key : Key := (f.dev, f.inode)

/-- The `static_cast` of a file whose type is `Directory`. -/
def directory : Option (Directory φ) :=
  if f.type = .directory then some ⟨f.fs, f.inode, f.dev⟩ else none

end File

def Found.file {φ : Type} : Found φ → File φ
  | .mounted p => p.file
  | .made f => f

/-- `VFS::FS`, with the number of the objects that `new` has made. -/
structure FS (φ : Type) where
  nextDev : Nat
  root : φ
  mountedDirs : Map Key (Pointer φ)
  reverseMountedDirs : Map Key (Pointer φ)
  objects : Nat

namespace FS

variable {φ : Type} (disk : φ → FileSystem) (s : FS φ)

/-- The constructor. -/
def new (root : φ) : FS φ := ⟨1, root, .empty, .empty, 0⟩

/-- What the new directory of `getRoot` holds. -/
def getRoot : File φ := ⟨s.root, (disk s.root).root, .directory, 0⟩

/-- `sizeof` of a pair of a key and a pointer. -/
def pairSize : Nat := 16

/-- `mount` on the directory of a pointer, which releases it. -/
def mount (room : Nat) (dir : Pointer φ) (canDelete : Bool) (fs : φ) : Except Fault (FS φ) := do
  let rootInode := (disk fs).root
  let root := ⟨⟨fs, rootInode, s.nextDev⟩, s.objects⟩
  let mountedDirs ← s.mountedDirs.insert pairSize room dir.key root
  assert canDelete
  let reverseMountedDirs ← s.reverseMountedDirs.insert pairSize room (s.nextDev, rootInode) dir
  return { s with
    nextDev := u32 (s.nextDev + 1), mountedDirs, reverseMountedDirs, objects := s.objects + 1 }

def toMounted (inode dev : Nat) : Option (Pointer φ) := s.mountedDirs.find (dev, inode)

def fromMounted (inode dev : Nat) : Option (Pointer φ) := s.reverseMountedDirs.find (dev, inode)

/-- `convert`: the new file over an entry. -/
def convert (e : Entry) (fs : φ) (dev : Nat) : File φ := ⟨fs, e.inode, e.type, dev⟩

/-- The directory whose `operator[]` takes the call for `name`, when it is another. -/
def above (d : Directory φ) (name : String) : Option (Directory φ) :=
  if name = ".." then (s.fromMounted d.inode d.dev).map (·.toDirectory) else none

/-- `operator[]` after the case of a mounted root. -/
def findBelow (d : Directory φ) (name : String) : Option (Found φ) :=
  match (disk d.fs).find d.inode name with
  | none => none
  | some res =>
    match s.toMounted res.inode d.dev with
    | some m => some (.mounted m)
    | none => some (.made (convert res d.fs d.dev))

/-- `operator[]` with at most `fuel` calls of itself. -/
def findWithin : Nat → Directory φ → String → Except Fault (Option (Found φ))
  | 0, _, _ => .error .diverges
  | fuel + 1, d, name =>
    match s.above d name with
    | some covered => findWithin fuel covered ".."
    | none => .ok (s.findBelow disk d name)

/-- `operator[]`. A directory lies on a device with a lower number than what is mounted on it. -/
def find (d : Directory φ) (name : String) : Except Fault (Option (Found φ)) :=
  s.findWithin disk (s.nextDev + 1) d name

/-- One call of `read`, which changes the inode of the entry that it got. -/
def readEntry (d : Directory φ) (e : String × Nat) : Except Fault (String × Nat) :=
  match s.above d e.1 with
  | some covered => do
    match ← s.find disk covered ".." with
    | some parent => return (e.1, parent.file.inode)
    | none => throw .nullPointer
  | none =>
    match s.toMounted e.2 d.dev with
    | some m => return (e.1, m.inode)
    | none => return e

/-- The calls of `read` until it returns null. -/
def read (d : Directory φ) : Except Fault (List (String × Nat)) :=
  ((disk d.fs).read d.inode).mapM (s.readEntry disk d)

/-- The loop of `resolvePath` from a file on. -/
def walk (f : File φ) : List String → Except Fault (Option (File φ))
  | [] => .ok (some f)
  | name :: names =>
    match f.directory with
    | none => .ok none
    | some d => do
      match ← s.find disk d name with
      | none => return none
      | some f => walk f.file names

end FS

end VFS

end SupOS
