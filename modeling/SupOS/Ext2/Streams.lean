import SupOS.Ext2.Ownership

/-! Open files. A stream remembers the number of an inode and a position in its data; the records of
the directories name the inodes. -/

namespace SupOS.Ext2

open Lib

/-- A `BytesStream` over a regular file. The file object in `_data` holds the number of its inode
and reads the inode again at each access. -/
structure BytesStream where
  inode : Nat
  addr : Nat
  deriving DecidableEq, Repr

namespace BytesStream

variable (h : BytesStream) (fs : FS)

/-- `toRead`. The difference is unsigned. -/
def toRead (count : Nat) : Nat := max 0 (min count (sub64 (fs.getSize h.inode) h.addr))

def read (count : Nat) : List UInt8 × BytesStream :=
  let toRead := h.toRead fs count
  if toRead = 0 then ([], h)
  else (fs.iReadaddr h.inode h.addr toRead, { h with addr := u64 (h.addr + toRead) })

/-- A regular file is appendable, so `toWrite` is the whole count. -/
def write (bytes : List UInt8) : Except Fault (FS × BytesStream) :=
  if bytes.length = 0 then return (fs, h)
  else do
    let fs ← fs.iWriteaddr h.inode h.addr bytes
    return (fs, { h with addr := u64 (h.addr + bytes.length) })

end BytesStream

/-- The calls of `i_writeaddr` by which an operation changes the data of a directory: the address
and the bytes of each. -/
abbrev Edits := List (Nat × List UInt8)

def FS.edit (fs : FS) (dir : Nat) (edits : Edits) : Except Fault FS :=
  edits.foldlM (fun fs e => fs.iWriteaddr dir e.1 e.2) fs

/-- A record in the data of directory `dir`. -/
structure Record where
  dir : Nat
  name : String
  inode : Nat
  deriving DecidableEq, Repr

/-- A file system with the records of its directories and the streams that are open. A directory is
what its records are; where they lie in its data is left to the edits of each operation. -/
structure Volume where
  fs : FS
  records : List Record
  streams : List (Option BytesStream)

namespace Volume

variable (s : Volume)

/-- Some record names inode `ino`. -/
def Named (ino : Nat) : Prop := ∃ r ∈ s.records, r.inode = ino

instance (ino : Nat) : Decidable (s.Named ino) :=
  inferInstanceAs (Decidable (∃ r ∈ s.records, r.inode = ino))

/-- `operator[]`: the record of a name in a directory, when it names a file or a directory. -/
def find (dir : Nat) (name : String) : Option Record :=
  (s.records.find? fun r => r.dir == dir && r.name == name).filter fun r =>
    isDir (s.fs.getInodeData r.inode).mode || isReg (s.fs.getInodeData r.inode).mode

/-- The mode of a file that `sysopen` creates. -/
def newMode : UInt16 := 0x81b6

/-- `Directory::addEntry` of a new regular file. -/
def addEntry (dir : Nat) (name : String) (edits : Edits) : Except Fault (Nat × Volume) := do
  let (inode, fs) ← s.fs.getNewFile 0 0 newMode
  let fs ← (fs.link inode).edit dir edits
  return (inode, { s with fs, records := ⟨dir, name, inode⟩ :: s.records })

/-- `Directory::removeEntry` of a regular file. -/
def removeEntry (r : Record) (edits : Edits) : Except Fault Volume := do
  let fs ← s.fs.unlink r.inode
  let fs ← fs.edit r.dir edits
  return { s with fs, records := s.records.erase r }

/-- `file2Stream` of the file that `operator[]` makes of an inode. A directory has no stream. -/
def file2Stream (inode : Nat) : Option BytesStream :=
  if isReg (s.fs.getInodeData inode).mode then some ⟨inode, 0⟩ else none

/-- The new stream takes the next place. -/
def opens (inode : Nat) : Volume := { s with streams := s.streams ++ [s.file2Stream inode] }

/-- `sysopen` of a name in the directory that the rest of the path leads to. -/
def sysopen (dir : Nat) (name : String) (creat : Bool) (edits : Edits) : Except Fault Volume :=
  if !isDir (s.fs.getInodeData dir).mode then return s
  else
    match s.find dir name with
    | some r => return s.opens r.inode
    | none =>
      if creat then do
        let (inode, s) ← s.addEntry dir name edits
        return s.opens inode
      else return s

/-- `sysunlink` of a name in the directory that the rest of the path leads to. -/
def sysunlink (dir : Nat) (name : String) (edits : Edits) : Except Fault Volume :=
  if !isDir (s.fs.getInodeData dir).mode then return s
  else
    match s.find dir name with
    | some r =>
      if isReg (s.fs.getInodeData r.inode).mode then s.removeEntry r edits else return s
    | none => return s

/-- The stream at place `i`. -/
def stream (i : Nat) : Option BytesStream := s.streams[i]?.join

/-- The bytes that `sysread` copies to the caller. -/
def sysread (i count : Nat) : List UInt8 × Volume :=
  match s.stream i with
  | none => ([], s)
  | some h =>
    let (bytes, h) := h.read s.fs count
    (bytes, { s with streams := s.streams.set i (some h) })

def syswrite (i : Nat) (bytes : List UInt8) : Except Fault Volume :=
  match s.stream i with
  | none => return s
  | some h => do
    let (fs, h) ← h.write s.fs bytes
    return { s with fs, streams := s.streams.set i (some h) }

/-- `sysclose`, by which the stream at place `i` goes away. -/
def sysclose (i : Nat) : Volume := { s with streams := s.streams.set i none }

/-- The system calls on files. -/
inductive Call
  | sysopen (dir : Nat) (name : String) (creat : Bool) (edits : Edits)
  | sysread (i count : Nat)
  | syswrite (i : Nat) (bytes : List UInt8)
  | sysclose (i : Nat)
  | sysunlink (dir : Nat) (name : String) (edits : Edits)

def apply (s : Volume) : Call → Except Fault Volume
  | .sysopen dir name creat edits => s.sysopen dir name creat edits
  | .sysread i count => return (s.sysread i count).2
  | .syswrite i bytes => s.syswrite i bytes
  | .sysclose i => return s.sysclose i
  | .sysunlink dir name edits => s.sysunlink dir name edits

end Volume

end SupOS.Ext2
