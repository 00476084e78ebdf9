import SupOS.VFS.Mounts
import SupOS.Errno

/-! Who owns the files that paths lead to: the pointers of `libc++/memory`, `resolvePath`, and the
working directories of the processes. -/

namespace SupOS

open Lib

/-- The loop of `split`, with the characters since the last separator in reverse. -/
def splitFrom (separator : Char) (keepEmpty : Bool) (word : List Char) : List Char → List String
  | [] => if word.isEmpty then [] else [String.ofList word.reverse]
  | c :: cs =>
    if c = separator then
      (if keepEmpty || !word.isEmpty then [String.ofList word.reverse] else []) ++
        splitFrom separator keepEmpty [] cs
    else splitFrom separator keepEmpty (c :: word) cs

/-- `split` of `utility.cpp`. -/
def split (str : List Char) (separator : Char) (keepEmpty : Bool) : List String :=
  splitFrom separator keepEmpty [] str

example : split "/tmp//a/".toList '/' false = ["tmp", "a"] := by decide

namespace VFS

open Libcpp

/-- A `unique_ptr` to a file that is not null: the object, what it holds, and `_canDelete`. -/
structure UniquePtr (φ : Type) where
  object : Nat
  file : File φ
  canDelete : Bool
  deriving DecidableEq, Repr

/-- `get` and the `static_cast` of a file whose type is `Directory`. -/
def UniquePtr.directory {φ : Type} (p : UniquePtr φ) : Option (Pointer φ) :=
  p.file.directory.map fun d => ⟨d, p.object⟩

/-- The virtual file system and the objects that `delete` has destroyed. -/
structure Heap (φ : Type) where
  fs : FS φ
  deleted : List Nat

namespace Heap

variable {φ : Type} (disk : φ → FileSystem) (h : Heap φ)

/-- The object has been made and not been destroyed. -/
def Live (object : Nat) : Prop := object < h.fs.objects ∧ object ∉ h.deleted

instance (object : Nat) : Decidable (h.Live object) := inferInstanceAs (Decidable (_ ∧ _))

/-- A call of a method of the object. -/
def access (object : Nat) : Except Fault Unit :=
  if h.Live object then .ok () else .error .dangling

/-- `unique_ptr(new ...)`. -/
def make (file : File φ) : UniquePtr φ × Heap φ :=
  (⟨h.fs.objects, file, true⟩, { h with fs := { h.fs with objects := h.fs.objects + 1 } })

/-- The destructor of a `unique_ptr`. -/
def drop (p : UniquePtr φ) : Except Fault (Heap φ) :=
  if p.canDelete then do
    h.access p.object
    return { h with deleted := p.object :: h.deleted }
  else return h

/-- `operator[]` of a directory with at most `fuel` calls of itself. -/
def indexWithin : Nat → Pointer φ → String → Except Fault (Option (UniquePtr φ) × Heap φ)
  | 0, _, _ => .error .diverges
  | fuel + 1, p, name => do
    h.access p.object
    match if name = ".." then h.fs.fromMounted p.inode p.dev else none with
    | some covered => indexWithin fuel covered ".."
    | none =>
      match h.fs.findBelow disk p.toDirectory name with
      | none => return (none, h)
      | some (.mounted m) => return (some ⟨m.object, m.file, false⟩, h)
      | some (.made f) => return (some (h.make f).1, (h.make f).2)

/-- `operator[]` of a directory. -/
def index (p : Pointer φ) (name : String) : Except Fault (Option (UniquePtr φ) × Heap φ) :=
  h.indexWithin disk (h.fs.nextDev + 1) p name

/-- The loop of `Directory::resolvePath`, where `cur` is the file reached. -/
def resolveFrom : Option (UniquePtr φ) → List String → Heap φ →
    Except Fault (Option (UniquePtr φ) × Heap φ)
  | cur, [], h => .ok (cur, h)
  | none, _ :: _, h => .ok (none, h)
  | some cur, name :: names, h => do
    h.access cur.object
    match cur.directory with
    | none =>
      let h ← h.drop cur
      return (none, h)
    | some d =>
      let (next, h) ← h.index disk d name
      let h ← h.drop cur
      resolveFrom next names h

/-- `Directory::resolvePath`. -/
def resolveIn (p : Pointer φ) (path : List Char) : Except Fault (Option (UniquePtr φ) × Heap φ) :=
  resolveFrom disk (some ⟨p.object, p.file, false⟩) (split path '/' false) h

/-- `resolvePath` of `SyscallUtils.cpp`, where the root lives until the end of the statement. -/
def resolvePath (wd : Pointer φ) (path : List Char) :
    Except Fault (Option (UniquePtr φ) × Heap φ) :=
  if path.head? = some '/' then do
    let (root, h) := h.make (h.fs.getRoot disk)
    let (f, h) ← h.resolveIn disk ⟨⟨root.file.fs, root.file.inode, root.file.dev⟩, root.object⟩
      path.tail
    let h ← h.drop root
    return (f, h)
  else h.resolveIn disk wd path

end Heap

/-- The virtual file system and the working directories of the processes. -/
structure World (φ : Type) where
  heap : Heap φ
  wds : Nat → Option (UniquePtr φ)

namespace World

variable {φ : Type} (disk : φ → FileSystem) (w : World φ)

/-- The working directory of process `p`, with what `get` gives. -/
def wd (p : Nat) : Except Fault (UniquePtr φ × Pointer φ) :=
  match w.wds p with
  | none => .error .nullPointer
  | some ptr =>
    match ptr.directory with
    | none => .error .nullPointer
    | some d => .ok (ptr, d)

/-- `resolvePath` from the working directory of process `p`. -/
def resolvePath (p : Nat) (path : List Char) : Except Fault (Option (UniquePtr φ) × Heap φ) := do
  let (_, wd) ← w.wd p
  w.heap.resolvePath disk wd path

/-- `syschdir` by process `p`, where `inside` tells that the path lies in its memory. -/
def syschdir (p : Nat) (inside : Bool) (path : List Char) : Except Fault (Nat × World φ) := do
  let (old, wd) ← w.wd p
  if !inside then return (errno EFAULT, w)
  let (f, heap) ← w.heap.resolvePath disk wd path
  match f with
  | none => return (errno EACCESS, { w with heap })
  | some f =>
    heap.access f.object
    if f.file.type ≠ .directory then
      let heap ← heap.drop f
      return (errno ENOTDIR, { w with heap })
    let heap ← heap.drop old
    return (0, { heap, wds := Function.update w.wds p (some f) })

/-- The constructor of `child` from process `p`. -/
def fork (p child : Nat) : Except Fault (World φ) := do
  let (_, wd) ← w.wd p
  let (f, heap) ← w.heap.index disk wd "."
  match f with
  | none => throw .nullPointer
  | some f =>
    assert (f.file.type = .directory)
    return { heap, wds := Function.update w.wds child (some f) }

/-- The destructor of process `p`. -/
def exit (p : Nat) : Except Fault (World φ) := do
  let (old, _) ← w.wd p
  let heap ← w.heap.drop old
  return { heap, wds := Function.update w.wds p none }

/-- A mount on the directory that a path of process `p` leads to. -/
def mount (p room : Nat) (path : List Char) (fs : φ) : Except Fault (World φ) := do
  let (f, heap) ← w.resolvePath disk p path
  match f with
  | none => throw .assertion
  | some f =>
    heap.access f.object
    match f.directory with
    | none => throw .assertion
    | some dir =>
      let vfs ← heap.fs.mount disk room dir f.canDelete fs
      return { w with heap := { heap with fs := vfs } }

/-- The commands: the system calls, and a look at the file of a path, whose pointer goes away. -/
inductive Command (φ : Type)
  | resolve (p : Nat) (path : List Char)
  | syschdir (p : Nat) (inside : Bool) (path : List Char)
  | fork (p child : Nat)
  | exit (p : Nat)
  | mount (p room : Nat) (path : List Char) (fs : φ)

def resolve (p : Nat) (path : List Char) : Except Fault (World φ) := do
  let (f, heap) ← w.resolvePath disk p path
  match f with
  | none => return { w with heap }
  | some f =>
    let heap ← heap.drop f
    return { w with heap }

def apply : Command φ → Except Fault (World φ)
  | .resolve p path => w.resolve disk p path
  | .syschdir p inside path => do return (← w.syschdir disk p inside path).2
  | .fork p child => w.fork disk p child
  | .exit p => w.exit p
  | .mount p room path fs => w.mount disk p room path fs

/-- Init, whose working directory is the root. -/
def boot (root : φ) : World φ :=
  let heap : Heap φ := ⟨.new root, []⟩
  let (wd, heap) := heap.make (heap.fs.getRoot disk)
  ⟨heap, Function.update (fun _ => none) 1 (some wd)⟩

end World

end VFS

end SupOS
