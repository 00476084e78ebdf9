import SupOS.Descriptors.Vector
import Mathlib.Logic.Function.Basic

/-! The class `vector` of `libc++/vector` with its three members, on the memory of its buffers: which
buffers `malloc` has given, and which objects are constructed at which place. -/

namespace SupOS.Libcpp

open Lib

/-- The capacity of each buffer that has been allocated and not freed; the objects that have been
constructed at a place of a buffer and not destroyed, the last one first; the next buffer. -/
structure Buffers (T : Type) where
  capacity : Nat → Option Nat
  objects : Nat → Nat → List T
  fresh : Nat

namespace Buffers

variable {T : Type}

def empty : Buffers T := ⟨fun _ => none, fun _ _ => [], 0⟩

variable (m : Buffers T)

/-- Other objects in a buffer. -/
def fill (b : Nat) (f : Nat → List T) : Buffers T :=
  { m with objects := Function.update m.objects b f }

/-- Other objects at a place. -/
def put (b i : Nat) (xs : List T) : Buffers T := m.fill b (Function.update (m.objects b) i xs)

/-- `malloc` has `room` bytes left for a request, and an object takes `sizeof`. -/
def allocate (room sizeof n : Nat) : Except Fault (Nat × Buffers T) :=
  if room < u64 (n * sizeof) then .error .outOfMemory
  else .ok (m.fresh,
    { m with capacity := Function.update m.capacity m.fresh (some n), fresh := m.fresh + 1 })

/-- `free`, of no buffer twice. -/
def deallocate (b : Nat) : Except Fault (Buffers T) :=
  match m.capacity b with
  | some _ => .ok { m with capacity := Function.update m.capacity b none }
  | none => .error .dangling

/-- The buffer of a place that is accessed. -/
def access (data : Option Nat) (i : Nat) : Except Fault Nat :=
  match data with
  | none => .error .nullPointer
  | some b =>
    match m.capacity b with
    | none => .error .dangling
    | some n => if i < n then .ok b else .error .outOfRange

def read (data : Option Nat) (i : Nat) : Except Fault T := do
  let b ← m.access data i
  match m.objects b i with
  | x :: _ => .ok x
  | [] => .error .dangling

/-- A placement `new`. -/
def construct (data : Option Nat) (i : Nat) (x : T) : Except Fault (Buffers T) := do
  let b ← m.access data i
  return m.put b i (x :: m.objects b i)

/-- A destructor. -/
def destroy (data : Option Nat) (i : Nat) : Except Fault (Buffers T) := do
  let b ← m.access data i
  match m.objects b i with
  | _ :: xs => .ok (m.put b i xs)
  | [] => .error .dangling

/-- `operator=` of an object. -/
def assign (data : Option Nat) (i : Nat) (x : T) : Except Fault (Buffers T) := do
  let b ← m.access data i
  match m.objects b i with
  | _ :: xs => .ok (m.put b i (x :: xs))
  | [] => .error .dangling

variable (leave : T → T)

/-- The value of an object that is moved from; `leave` is what the move leaves in it. -/
def moveFrom (data : Option Nat) (i : Nat) : Except Fault (T × Buffers T) := do
  let x ← m.read data i
  let m ← m.assign data i (leave x)
  return (x, m)

/-- A new object, moved from another one. -/
def constructFrom (data : Option Nat) (i : Nat) (target : Option Nat) (j : Nat) :
    Except Fault (Buffers T) := do
  let (x, m) ← m.moveFrom leave data i
  m.construct target j x

/-- The assignment of an object that is moved from. -/
def assignFrom (data : Option Nat) (i j : Nat) : Except Fault (Buffers T) := do
  let (x, m) ← m.moveFrom leave data i
  m.assign data j x

/-- `move_backward` of `libc++/algorithm` by one place, of `n` objects. -/
def moveBackward (data : Option Nat) (first : Nat) : Nat → Buffers T → Except Fault (Buffers T)
  | 0, m => .ok m
  | n + 1, m => do moveBackward data first n (← m.assignFrom leave data (first + n) (first + n + 1))

end Buffers

/-- What a parameter of type `const T&` or `T&&` refers to: a value from elsewhere, or an object in a
buffer. -/
inductive Reference (T : Type)
  | value (x : T)
  | place (data : Option Nat) (i : Nat)

namespace Reference

variable {T : Type}

def read (m : Buffers T) : Reference T → Except Fault T
  | value x => .ok x
  | place data i => m.read data i

def moveFrom (leave : T → T) (m : Buffers T) : Reference T → Except Fault (T × Buffers T)
  | value x => .ok (x, m)
  | place data i => m.moveFrom leave data i

end Reference

/-- The members of a vector. -/
structure RawVector where
  data : Option Nat
  size : Nat
  capacity : Nat
  deriving DecidableEq

namespace RawVector

variable {T : Type} (leave : T → T) (default : T) (room sizeof : Nat)

/-- The empty state. -/
def empty : RawVector := ⟨none, 0, 0⟩

variable (v : RawVector)

/-- The part of `reserve` with the old buffer: its objects are moved from and not destroyed. -/
def moveOut (data : Nat) (m : Buffers T) : Except Fault (Buffers T) :=
  match v.data with
  | none => .ok m
  | some old => do
    let m ← (List.range v.size).foldlM (fun m i => m.constructFrom leave v.data i (some data) i) m
    m.deallocate old

/-- A request for room that leaves the elements where they are. -/
def keeps (size : Nat) : Prop := 0 < v.size ∧ size ≤ v.capacity

instance (size : Nat) : Decidable (v.keeps size) := inferInstanceAs (Decidable (_ ∧ _))

def reserve (size : Nat) (m : Buffers T) : Except Fault (RawVector × Buffers T) :=
  if v.keeps size then .ok (v, m)
  else do
    let capacity ← strategy size
    let (data, m) ← m.allocate room sizeof capacity
    let m ← v.moveOut leave data m
    return (⟨some data, v.size, capacity⟩, m)

/-- `vector(n)`. -/
def ofSize (n : Nat) (m : Buffers T) : Except Fault (RawVector × Buffers T) := do
  let capacity ← strategy n
  let (data, m) ← m.allocate room sizeof capacity
  let m ← (List.range n).foldlM (fun m i => m.construct (some data) i default) m
  return (⟨some data, n, capacity⟩, m)

/-- What the copy constructor, and `operator=` after `clear`, do with the other vector. -/
def copyFrom (oth : RawVector) (m : Buffers T) : Except Fault (RawVector × Buffers T) := do
  let (v, m) ← v.reserve leave room sizeof oth.size m
  let m ← (List.range oth.size).foldlM (fun m i => do m.construct v.data i (← m.read oth.data i)) m
  return (⟨v.data, oth.size, v.capacity⟩, m)

/-- The destructor. -/
def delete (m : Buffers T) : Except Fault (Buffers T) :=
  match v.data with
  | none => .ok m
  | some b => do
    let m ← (List.range v.size).foldlM (fun m i => m.destroy v.data i) m
    m.deallocate b

def clear (m : Buffers T) : Except Fault (RawVector × Buffers T) := do
  return (empty, ← v.delete m)

def pushBack (val : Reference T) (m : Buffers T) : Except Fault (RawVector × Buffers T) := do
  let (v, m) ← v.reserve leave room sizeof (v.size + 1) m
  let x ← val.read m
  let m ← m.construct v.data v.size x
  return (⟨v.data, v.size + 1, v.capacity⟩, m)

/-- `push_back` of a `T&&`. -/
def pushBackMove (val : Reference T) (m : Buffers T) : Except Fault (RawVector × Buffers T) := do
  let (v, m) ← v.reserve leave room sizeof (v.size + 1) m
  let (x, m) ← val.moveFrom leave m
  let m ← m.construct v.data v.size x
  return (⟨v.data, v.size + 1, v.capacity⟩, m)

/-- The constructor from an initializer list. -/
def ofList (il : List T) (m : Buffers T) : Except Fault (RawVector × Buffers T) := do
  let r ← empty.reserve leave room sizeof il.length m
  il.foldlM (fun r t => r.1.pushBack leave room sizeof (.value t) r.2) r

/-- `erase` of the elements from `first` to `last`, without the latter. -/
def erase (first last : Nat) (m : Buffers T) : Except Fault (RawVector × Buffers T) :=
  let diff := last - first
  if diff = 0 then .ok (v, m)
  else do
    let m ← (List.range' last (v.size - last)).foldlM (fun m i => m.assignFrom leave v.data i (i - diff)) m
    let m ← (List.range' 1 diff).foldlM (fun m i => m.destroy v.data (v.size - i)) m
    return (⟨v.data, v.size - diff, v.capacity⟩, m)

def popBack (m : Buffers T) : Except Fault (RawVector × Buffers T) := do
  assert (decide (0 < v.size))
  let m ← m.destroy v.data (v.size - 1)
  return (⟨v.data, v.size - 1, v.capacity⟩, m)

/-- `insert` into a full vector: neither are the old objects destroyed nor is the old buffer freed. -/
def insertFull (position : Nat) (val : Reference T) (m : Buffers T) :
    Except Fault (RawVector × Buffers T) := do
  let capacity ← strategy (v.size + 1)
  let (data, m) ← m.allocate room sizeof capacity
  let m ← (List.range position).foldlM
    (fun m i => m.constructFrom leave v.data i (some data) i) m
  let m ← (List.range' position (v.size - position)).foldlM
    (fun m i => m.constructFrom leave v.data i (some data) (i + 1)) m
  let x ← val.read m
  let m ← m.construct (some data) position x
  return (⟨some data, v.size + 1, capacity⟩, m)

/-- `insert` into a vector with a place left. -/
def insertShift (position : Nat) (val : Reference T) (m : Buffers T) :
    Except Fault (RawVector × Buffers T) := do
  assert (decide (v.size < v.capacity))
  let m ← m.construct v.data v.size default
  let m ← m.moveBackward leave v.data position (v.size - position)
  let x ← val.read m
  let m ← m.assign v.data position x
  return (⟨v.data, v.size + 1, v.capacity⟩, m)

/-- `insert`, which returns an iterator at the same position. -/
def insert (position : Nat) (val : Reference T) (m : Buffers T) :
    Except Fault (RawVector × Buffers T) :=
  if position = v.size then v.pushBack leave room sizeof val m
  else if v.capacity = v.size then v.insertFull leave room sizeof position val m
  else v.insertShift leave default position val m

def resize (n : Nat) (m : Buffers T) : Except Fault (RawVector × Buffers T) :=
  if n = v.size then .ok (v, m)
  else if n < v.size then do
    let m ← (List.range' n (v.size - n)).foldlM (fun m i => m.destroy v.data i) m
    return (⟨v.data, n, v.capacity⟩, m)
  else do
    let (w, m) ← v.reserve leave room sizeof n m
    let m ← (List.range' v.size (n - v.size)).foldlM (fun m i => m.construct w.data i default) m
    return (⟨w.data, n, w.capacity⟩, m)

end RawVector

/-- What a program passes by reference: a value from elsewhere, or an element of one of its vectors. -/
inductive Argument (T : Type)
  | value (x : T)
  | element (j k : Nat)

/-- A member called on vector `i`; the constructors make a new one. -/
inductive VectorCall (T : Type)
  | make (i : Nat)
  | makeSize (i n : Nat)
  | makeCopy (i j : Nat)
  | makeMove (i j : Nat)
  | makeList (i : Nat) (il : List T)
  | delete (i : Nat)
  | copyAssign (i j : Nat)
  | moveAssign (i j : Nat)
  | pushBack (i : Nat) (val : Argument T)
  | pushBackMove (i : Nat) (val : Argument T)
  | popBack (i : Nat)
  | insert (i position : Nat) (val : Argument T)
  | erase (i first last : Nat)
  | reserve (i n : Nat)
  | resize (i n : Nat)
  | clear (i : Nat)

/-- The vectors of a program, and the memory of their buffers. -/
structure Vectors (T : Type) where
  buffers : Buffers T
  live : Nat → Option RawVector

namespace Vectors

variable {T : Type}

def empty : Vectors T := ⟨.empty, fun _ => none⟩

variable (p : Vectors T)

def get (i : Nat) : Except Fault RawVector :=
  match p.live i with
  | some v => .ok v
  | none => .error .dangling

def put (i : Nat) (v : Option RawVector) (m : Buffers T) : Vectors T :=
  ⟨m, Function.update p.live i v⟩

/-- What a member leads to on vector `i`. -/
def update (i : Nat) (x : Except Fault (RawVector × Buffers T)) : Except Fault (Vectors T) := do
  let (v, m) ← x
  return p.put i (some v) m

/-- The object that an argument refers to. -/
def refer : Argument T → Except Fault (Reference T)
  | .value x => .ok (.value x)
  | .element j k => do return .place (← p.get j).data k

/-- `vector(vector&& oth)` where the members of `oth` are those of vector `j`, which may be `i` itself. -/
def moveInto (i j : Nat) : Except Fault (Vectors T) := do
  let oth ← p.get j
  return (p.put i (some oth) p.buffers).put j (some .empty) p.buffers

section Apply

variable (leave : T → T) (default : T) (room sizeof : Nat)

def apply : VectorCall T → Except Fault (Vectors T)
  | .make i => .ok (p.put i (some .empty) p.buffers)
  | .makeSize i n => p.update i (RawVector.ofSize default room sizeof n p.buffers)
  | .makeCopy i j => do
    p.update i (RawVector.empty.copyFrom leave room sizeof (← p.get j) p.buffers)
  | .makeMove i j => p.moveInto i j
  | .makeList i il => p.update i (RawVector.ofList leave room sizeof il p.buffers)
  | .delete i => do return p.put i none (← (← p.get i).delete p.buffers)
  | .copyAssign i j => do
    let p ← p.update i ((← p.get i).clear p.buffers)
    p.update i ((← p.get i).copyFrom leave room sizeof (← p.get j) p.buffers)
  | .moveAssign i j => do
    let m ← (← p.get i).delete p.buffers
    (⟨m, p.live⟩ : Vectors T).moveInto i j
  | .pushBack i val => do
    p.update i ((← p.get i).pushBack leave room sizeof (← p.refer val) p.buffers)
  | .pushBackMove i val => do
    p.update i ((← p.get i).pushBackMove leave room sizeof (← p.refer val) p.buffers)
  | .popBack i => do p.update i ((← p.get i).popBack p.buffers)
  | .insert i position val => do
    p.update i ((← p.get i).insert leave default room sizeof position (← p.refer val) p.buffers)
  | .erase i first last => do p.update i ((← p.get i).erase leave first last p.buffers)
  | .reserve i n => do p.update i ((← p.get i).reserve leave room sizeof n p.buffers)
  | .resize i n => do p.update i ((← p.get i).resize leave default room sizeof n p.buffers)
  | .clear i => do p.update i ((← p.get i).clear p.buffers)

end Apply

end Vectors

end SupOS.Libcpp
