import SupOS.Libcpp.Deque
import SupOS.Lib.Machine

/-! The class `basic_string` of `libc++/string` over `char`: a buffer, of which the first bytes are the
string; the terminator is written behind them only when a C string is asked for. -/

namespace SupOS.Libcpp

open Lib

def npos : Nat := 2 ^ 64 - 1

/-- The bytes in front of the first NUL. -/
def cString (s : List UInt8) : List UInt8 := s.takeWhile (· ≠ 0)

/-- Memory that a pointer leads to; a null pointer leads to none. -/
abbrev Buffer : Type := Option (List UInt8)

namespace Buffer

variable (p : Buffer)

/-- `n` bytes read from index `i` on; without a byte there is no access. -/
def load (i n : Nat) : Except Fault (List UInt8) :=
  if n = 0 then .ok []
  else
    match p with
    | none => .error .nullPointer
    | some b => if i + n ≤ b.length then .ok ((b.drop i).take n) else .error .outOfRange

def store (i : Nat) (bytes : List UInt8) : Except Fault Buffer :=
  if bytes = [] then .ok p
  else
    match p with
    | none => .error .nullPointer
    | some b =>
      if i + bytes.length ≤ b.length then .ok (some (b.take i ++ bytes ++ b.drop (i + bytes.length)))
      else .error .outOfRange

/-- The C string at an index, whose end `strlen` looks for. -/
def cStringAt (i : Nat) : Except Fault (List UInt8) :=
  match p with
  | none => .error .nullPointer
  | some b =>
    if i + (cString (b.drop i)).length < b.length then .ok (cString (b.drop i))
    else .error .outOfRange

end Buffer

/-- `traits_type::compare`, where `char` is signed. -/
def compareBytes : List UInt8 → List UInt8 → Int
  | x :: xs, y :: ys => if x = y then compareBytes xs ys else if x.toInt8 < y.toInt8 then -1 else 1
  | _, _ => 0

structure BasicString where
  data : Buffer
  size : Nat
  capacity : Nat
  deriving DecidableEq, Repr

namespace BasicString

/-- `malloc` has `room` bytes left for a request, and `junk` is what the new memory holds. -/
def allocate (room : Nat) (junk : Nat → UInt8) (n : Nat) : Except Fault (List UInt8) :=
  if n ≤ room then .ok ((List.range n).map junk) else .error .outOfMemory

/-- The default constructor. -/
def empty : BasicString := ⟨none, 0, 0⟩

variable (room : Nat) (junk : Nat → UInt8)

/-- A string of `size` bytes, the first bytes of whose buffer are written. -/
def create (size : Nat) (bytes : List UInt8) : Except Fault BasicString := do
  let capacity ← strategy (u64 (size + 1))
  let data ← allocate room junk capacity
  return ⟨← Buffer.store (some data) 0 bytes, size, capacity⟩

/-- The constructor from a C string. -/
def ofCString (s : List UInt8) : Except Fault BasicString :=
  create room junk (cString s).length (cString s ++ [0])

/-- The constructor from a pointer and a number of bytes. -/
def ofBytes (s : List UInt8) : Except Fault BasicString := create room junk s.length s

/-- The constructor from a byte and a number. -/
def fill (c : UInt8) (n : Nat) : Except Fault BasicString := create room junk n (List.replicate n c)

variable (s : BasicString)

/-- A request for room that leaves the buffer where it is. -/
def keeps (size : Nat) : Prop := 0 < s.size ∧ size < s.capacity

instance (size : Nat) : Decidable (s.keeps size) := inferInstanceAs (Decidable (_ ∧ _))

def reserve (size : Nat) : Except Fault BasicString :=
  if s.keeps size then .ok s
  else do
    let capacity ← strategy (u64 (size + 1))
    let data ← allocate room junk capacity
    match s.data with
    | none => return ⟨some data, s.size, capacity⟩
    | some _ => return ⟨← Buffer.store (some data) 0 (← s.data.load 0 s.size), s.size, capacity⟩

/-- `c_str()`, which writes to the string. -/
def cStr : Except Fault BasicString := do
  let s ← s.reserve room junk 1
  return { s with data := ← s.data.store s.size [0] }

/-- The copy constructor, with the string that is copied. -/
def copy : Except Fault (BasicString × BasicString) := do
  let s ← s.cStr room junk
  return (← ofCString room junk (← s.data.cStringAt 0), s)

/-- `operator=` of a C string. -/
def assignCString (c : List UInt8) : Except Fault BasicString := do
  let s ← s.reserve room junk (u64 ((cString c).length + 1))
  return { s with data := ← s.data.store 0 (cString c), size := (cString c).length }

/-- `operator=` of a string, which is the same object when `self` holds. -/
def assign (str : BasicString) (self : Bool) : Except Fault (BasicString × BasicString) := do
  let s ← s.reserve room junk (u64 (str.size + 1))
  let size := str.size
  let str ← (if self then s else str).cStr room junk
  let s := if self then str else s
  return ({ s with data := ← s.data.store 0 (← str.data.load 0 size), size }, str)

def resize (n : Nat) (c : UInt8) : Except Fault BasicString :=
  if s.size < n then do
    let s ← s.reserve room junk n
    return { s with data := ← s.data.store s.size (List.replicate (n - s.size) c), size := n }
  else .ok { s with size := n }

/-- The byte that is pushed, once `reserve` has led to `s'`. -/
def read (s' : BasicString) : Source UInt8 → Except Fault (List UInt8)
  | .value x => .ok [x]
  | .own i => if s.keeps (s.size + 1) then s'.data.load i 1 else .error .dangling

def pushBack (x : Source UInt8) : Except Fault BasicString := do
  let s' ← s.reserve room junk (u64 (s.size + 1))
  return { s' with data := ← s'.data.store s'.size (← s.read s' x), size := s'.size + 1 }

/-- The loop of `erase`. -/
def shift (diff : Nat) (p : Buffer) : List Nat → Except Fault Buffer :=
  List.foldlM (fun p i => do p.store i (← p.load (i + diff) 1)) p

/-- `erase` of a range, which returns nothing when that is not empty. -/
def erase (first last : Nat) : Except Fault BasicString :=
  if last - first = 0 then .ok s
  else do
    let data ← shift (last - first) s.data (List.range' first (s.size - first))
    return { s with data, size := s.size - (last - first) }

/-- `substr`, which puts a NUL into the string and takes it out again. -/
def substr (pos len : Nat) : Except Fault (BasicString × BasicString) :=
  if s.size < pos then .ok (empty, s)
  else do
    let len := if len = npos then s.size - pos else len
    let endpos := u64 (pos + len)
    let beg ← s.data.load endpos 1
    let cut ← s.data.store endpos [0]
    let res ← ofCString room junk (← cut.cStringAt pos)
    return (res, { s with data := ← cut.store endpos beg })

def append (str : BasicString) (self : Bool) : Except Fault BasicString := do
  let s ← s.reserve room junk (u64 (s.size + str.size + 1))
  let str := if self then s else str
  return { s with data := ← s.data.store s.size (← str.data.load 0 str.size),
                  size := s.size + str.size }

end BasicString

/-- The comparisons of two strings. -/
inductive Relation
  | eq | ne | lt | le | gt | ge
  deriving DecidableEq, Repr

/-- The operators from `<` on, by the result of `compare`. -/
def Relation.ofCompare (c : Int) : Relation → Bool
  | .eq => c == 0
  | .ne => c != 0
  | .lt => c < 0
  | .le => c ≤ 0
  | .gt => 0 < c
  | .ge => 0 ≤ c

/-- Objects of a class, in the order in which they were constructed; one that is destroyed is gone. -/
structure Objects (α : Type) where
  objects : Nat → Option α
  count : Nat

namespace Objects

variable {α : Type} (t : Objects α)

def empty : Objects α := ⟨fun _ => none, 0⟩

def get (i : Nat) : Except Fault α :=
  match t.objects i with
  | some x => .ok x
  | none => .error .dangling

def put (i : Nat) (x : α) : Objects α := { t with objects := Function.update t.objects i (some x) }

def destroy (i : Nat) : Objects α := { t with objects := Function.update t.objects i none }

def add (x : α) : Objects α := ⟨Function.update t.objects t.count (some x), t.count + 1⟩

end Objects

/-- What a program calls on its strings, which it names by their numbers. -/
inductive StringCall
  | construct
  | constructCString (s : List UInt8)
  | constructBytes (s : List UInt8)
  | constructFill (c : UInt8) (n : Nat)
  | copy (i : Nat)
  | move (i : Nat)
  | assignCString (i : Nat) (s : List UInt8)
  | assign (i j : Nat)
  | moveAssign (i j : Nat)
  | append (i j : Nat)
  | pushBack (i : Nat) (x : Source UInt8)
  | resize (i n : Nat) (c : UInt8)
  | erase (i first last : Nat)
  | substr (i pos len : Nat)
  | compare (r : Relation) (i j : Nat)
  | destroy (i : Nat)

namespace BasicString

variable (room : Nat) (junk : Nat → UInt8) (t : Objects BasicString)

/-- `c_str()` of two strings one after the other, and the bytes that are compared. -/
def cStrs (i j n : Nat) : Except Fault (Objects BasicString × Int) := do
  let t := t.put i (← (← t.get i).cStr room junk)
  let t := t.put j (← (← t.get j).cStr room junk)
  let xs ← (← t.get i).data.load 0 n
  let ys ← (← t.get j).data.load 0 n
  return (t, compareBytes xs ys)

/-- The member `compare`. -/
def compare (i j : Nat) : Except Fault (Objects BasicString × Int) := do
  let s ← t.get i
  let str ← t.get j
  if s.size = 0 ∧ str.size = 0 then return (t, 0)
  else if s.size = 0 then return (t, -1)
  else if str.size = 0 then return (t, 1)
  else if s.size ≤ str.size then do
    let (t, c) ← cStrs room junk t i j s.size
    return (t, if c ≠ 0 then c else if s.size = str.size then 0 else -1)
  else do
    let (t, c) ← cStrs room junk t i j str.size
    return (t, if c ≠ 0 then c else 1)

/-- `operator==` and `operator!=`; `differ` is what they return for different strings. -/
def equal (differ : Bool) (i j : Nat) : Except Fault (Objects BasicString × Bool) := do
  let s ← t.get i
  let str ← t.get j
  if s.size ≠ str.size then return (t, differ)
  else do
    let (t, c) ← cStrs room junk t i j s.size
    return (t, if c = 0 then !differ else differ)

/-- The comparison operators. -/
def relate (r : Relation) (i j : Nat) : Except Fault (Objects BasicString × Bool) :=
  match r with
  | .eq => equal room junk t false i j
  | .ne => equal room junk t true i j
  | .lt | .le | .gt | .ge => do
    let (t, c) ← compare room junk t i j
    return (t, r.ofCompare c)

/-- A call; a comparison has a result. -/
def apply : StringCall → Except Fault (Objects BasicString × Option Bool)
  | .construct => return (t.add empty, none)
  | .constructCString s => do return (t.add (← ofCString room junk s), none)
  | .constructBytes s => do return (t.add (← ofBytes room junk s), none)
  | .constructFill c n => do return (t.add (← fill room junk c n), none)
  | .copy i => do
    let (new, s) ← (← t.get i).copy room junk
    return ((t.put i s).add new, none)
  | .move i => do
    let s ← t.get i
    return ((t.put i empty).add s, none)
  | .assignCString i c => do return (t.put i (← (← t.get i).assignCString room junk c), none)
  | .assign i j => do
    let (s, str) ← (← t.get i).assign room junk (← t.get j) (decide (i = j))
    return ((t.put j str).put i s, none)
  | .moveAssign i j => do
    let _ ← t.get i
    let s ← t.get j
    return ((t.put i s).put j empty, none)
  | .append i j => do
    return (t.put i (← (← t.get i).append room junk (← t.get j) (decide (i = j))), none)
  | .pushBack i x => do return (t.put i (← (← t.get i).pushBack room junk x), none)
  | .resize i n c => do return (t.put i (← (← t.get i).resize room junk n c), none)
  | .erase i first last => do return (t.put i (← (← t.get i).erase first last), none)
  | .substr i pos len => do
    let (res, s) ← (← t.get i).substr room junk pos len
    return ((t.put i s).add res, none)
  | .compare r i j => do
    let (t, b) ← relate room junk t r i j
    return (t, some b)
  | .destroy i => do
    let _ ← t.get i
    return (t.destroy i, none)

end BasicString

end SupOS.Libcpp
