import SupOS.Descriptors.Vector
import SupOS.Lib.Ring

/-! The class `deque` of `libc++/deque`: a ring of cells that is moved to a larger one when a slot
would not be kept free. -/

namespace SupOS.Libcpp

open Lib

/-- The difference of two `size_t`. -/
def usub (a b : Nat) : Nat := u64 (a + 2 ^ 64 - b)

/-- A remainder, which the processor takes of no division by zero. -/
def umod (a m : Nat) : Except Fault Nat :=
  if m = 0 then .error .divideError else .ok (a % m)

/-- `_data` is null when `capacity` is 0; a cell of uninitialized memory holds nothing. -/
structure Deque (T : Type) where
  cells : Nat → Option T
  capacity : Nat
  begIndex : Nat
  endIndex : Nat

/-- What `push_back` and `push_front` are given: a value from elsewhere, or a reference to an element of
the deque. -/
inductive Source (T : Type)
  | value (x : T)
  | own (i : Nat)

namespace Deque

variable {T : Type}

/-- A deque in the empty state. -/
def empty : Deque T := ⟨fun _ => none, 0, 0, 0⟩

variable (d : Deque T)

def incr (n : Nat) : Nat := if n + 1 = d.capacity then 0 else n + 1

def decr (n : Nat) : Nat := if n = 0 then usub d.capacity 1 else n - 1

def size : Nat :=
  if d.endIndex ≥ d.begIndex then d.endIndex - d.begIndex
  else usub (d.endIndex + d.capacity) d.begIndex

/-- The constructed object in a cell. -/
def object (index : Nat) : Except Fault T :=
  match d.cells index with
  | some x => .ok x
  | none => .error .dangling

/-- A placement `new` into uninitialized memory. -/
def construct (index : Nat) (x : T) : Deque T :=
  { d with cells := Function.update d.cells index (some x) }

/-- A destructor. -/
def destroy (index : Nat) : Except Fault (Deque T) := do
  let _ ← d.object index
  return { d with cells := Function.update d.cells index none }

/-- The loop from an index to another one; `fuel` bounds its rounds. -/
def iterate : Nat → Nat → Nat → Except Fault (List T)
  | 0, index, last => if index = last then .ok [] else .error .diverges
  | fuel + 1, index, last =>
    if index = last then .ok []
    else do
      let x ← d.object index
      let xs ← iterate fuel (d.incr index) last
      return x :: xs

/-- The elements from `begin()` to `end()`. -/
def elements : Except Fault (List T) := d.iterate d.capacity d.begIndex d.endIndex

/-- A request for room that leaves the elements where they are. -/
def keeps (size : Nat) : Prop := d.capacity ≠ 0 ∧ size < d.capacity

instance (size : Nat) : Decidable (d.keeps size) := inferInstanceAs (Decidable (_ ∧ _))

/-- `malloc` has `room` bytes left for a request, and an object takes `sizeof`. -/
def reserve (room sizeof size : Nat) : Except Fault (Deque T) :=
  if d.keeps size then .ok d
  else do
    let capacity ← strategy size
    if room < u64 (capacity * sizeof) then .error .outOfMemory
    else
      let data ← d.elements
      return ⟨fun i => data[i]?, capacity, 0, d.size⟩

/-- The index of the element at a position. -/
def position (i : Nat) : Except Fault Nat := umod (u64 (d.begIndex + i)) d.capacity

/-- `operator[]`. -/
def get (i : Nat) : Except Fault T := do d.object (← d.position i)

/-- The value that is pushed, once `reserve` has led to `d'`. -/
def read (d' : Deque T) (x : Source T) : Except Fault T :=
  match x with
  | .value x => .ok x
  | .own i => do
    let index ← d.position i
    if d.keeps (d.size + 1) then d'.object index else .error .dangling

def pushBack (room sizeof : Nat) (x : Source T) : Except Fault (Deque T) := do
  let d' ← d.reserve room sizeof (d.size + 1)
  let x ← d.read d' x
  return { d'.construct d'.endIndex x with endIndex := d'.incr d'.endIndex }

def popBack : Except Fault (Deque T) := do
  assert (decide (0 < d.size))
  let endIndex := d.decr d.endIndex
  let d ← d.destroy endIndex
  return { d with endIndex }

def pushFront (room sizeof : Nat) (x : Source T) : Except Fault (Deque T) := do
  let d' ← d.reserve room sizeof (d.size + 1)
  let x ← d.read d' x
  let begIndex := d'.decr d'.begIndex
  return { d'.construct begIndex x with begIndex }

def popFront : Except Fault (Deque T) := do
  assert (decide (0 < d.size))
  let d ← d.destroy d.begIndex
  return { d with begIndex := d.incr d.begIndex }

def front : Except Fault T := d.object d.begIndex

def back : Except Fault T := d.object (d.decr d.endIndex)

/-- `move` of `libc++/algorithm` from an index to another one; `leave` is what a move leaves in an
object. -/
def moveRange (leave : T → T) : Nat → Nat → Nat → Nat → Deque T → Except Fault (Deque T)
  | 0, first, last, _, d => if first = last then .ok d else .error .diverges
  | fuel + 1, first, last, result, d =>
    if first = last then .ok d
    else do
      let x ← d.object first
      let _ ← d.object result
      moveRange leave fuel (d.incr first) last (d.incr result)
        ((d.construct first (leave x)).construct result x)

/-- The destructors from an index to another one. -/
def destroyRange : Nat → Nat → Nat → Deque T → Except Fault (Deque T)
  | 0, index, last, d => if index = last then .ok d else .error .diverges
  | fuel + 1, index, last, d =>
    if index = last then .ok d
    else do destroyRange fuel (d.incr index) last (← d.destroy index)

/-- `erase`, of iterators at two indexes. -/
def eraseAt (leave : T → T) (first last : Nat) : Except Fault (Deque T) := do
  let diff ← umod (usub (u64 (last + d.capacity)) first) d.capacity
  if diff = 0 then return d
  else
    let d ← moveRange leave d.capacity last d.endIndex first d
    let n ← umod diff d.capacity
    let it ← umod (u64 (d.endIndex + usub d.capacity n)) d.capacity
    let d ← destroyRange d.capacity it d.endIndex d
    let endIndex ← umod (usub (u64 (d.endIndex + d.capacity)) diff) d.capacity
    return { d with endIndex }

/-- The index of an iterator at a position, made from `begin()`. -/
def iterator (i : Nat) : Nat :=
  if d.capacity = 0 then d.begIndex else (d.begIndex + i) % d.capacity

end Deque

/-- An operation on a deque. -/
inductive DequeCall (T : Type)
  | pushBack (x : Source T)
  | pushFront (x : Source T)
  | popBack
  | popFront
  | reserve (size : Nat)
  | index (i : Nat)
  | front
  | back
  | size
  | empty
  /-- The elements from `begin()` to `end()`. -/
  | iterate
  /-- The elements from position `i` to position `j`, without the latter. -/
  | erase (i j : Nat)

/-- What an operation returns. -/
inductive DequeReply (T : Type)
  | nothing
  | element (x : T)
  | elements (xs : List T)
  | number (n : Nat)
  | truth (b : Bool)

namespace Deque

variable {T : Type} (d : Deque T)

def apply (leave : T → T) (room sizeof : Nat) : DequeCall T → Except Fault (Deque T × DequeReply T)
  | .pushBack x => do return (← d.pushBack room sizeof x, .nothing)
  | .pushFront x => do return (← d.pushFront room sizeof x, .nothing)
  | .popBack => do return (← d.popBack, .nothing)
  | .popFront => do return (← d.popFront, .nothing)
  | .reserve size => do return (← d.reserve room sizeof size, .nothing)
  | .index i => do return (d, .element (← d.get i))
  | .front => do return (d, .element (← d.front))
  | .back => do return (d, .element (← d.back))
  | .size => .ok (d, .number d.size)
  | .empty => .ok (d, .truth (decide (d.endIndex = d.begIndex)))
  | .iterate => do return (d, .elements (← d.elements))
  | .erase i j => do return (← d.eraseAt leave (d.iterator i) (d.iterator j), .nothing)

end Deque

end SupOS.Libcpp
