import SupOS.Fault
import SupOS.Lib.Outcome
import Mathlib.Data.List.Basic

/-! The class `vector` of `libc++/vector`, over elements whose constructors and destructor act on a
memory that they refer to. -/

namespace SupOS

open Lib

namespace Libcpp

/-- What a vector calls on its elements, where `H` is the memory that they refer to. -/
structure Element (H T : Type) where
  /-- `sizeof` -/
  size : Nat
  /-- `T()` -/
  value : T
  copy : T → H → Except Fault (T × H)
  move : T → H → Except Fault (T × H)
  destroy : T → H → Except Fault H

/-- The objects that a vector holds and the room of its storage; `_data` is null when that is 0. -/
structure Vector (T : Type) where
  data : List T
  capacity : Nat

variable {H T : Type} (E : Element H T) (room : Nat) (v : Vector T)

/-- `1 << n` for an `int`, converted to `size_t`. -/
def shiftOne (n : Nat) : Nat := ((1#32 <<< (n % 32)).signExtend 64).toNat

def strategy (s : Nat) : Except Fault Nat := do
  let bsr := (u64 (s + 1)).log2
  let res := shiftOne (bsr + 1)
  assert (decide (s < res))
  return res

/-- `allocate`, where `malloc` has `room` bytes left for a request. -/
def allocate (n : Nat) : Except Fault Unit :=
  if u64 (n * E.size) ≤ room then .ok () else .error .outOfMemory

/-- Objects built one after another from those of a list. -/
def construct (f : T → H → Except Fault (T × H)) : List T → H → Except Fault (List T × H)
  | [], h => .ok ([], h)
  | x :: xs, h => do
    let (y, h) ← f x h
    let (ys, h) ← construct f xs h
    return (y :: ys, h)

/-- The destructors of objects, one after another. -/
def destroy : List T → H → Except Fault H
  | [], h => .ok h
  | x :: xs, h => do
    let h ← E.destroy x h
    destroy xs h

namespace Vector

def empty : Vector T := ⟨[], 0⟩

def size : Nat := v.data.length

/-- The old objects are moved from and not destroyed. -/
def reserve (size : Nat) (h : H) : Except Fault (Vector T × H) :=
  if 0 < v.size ∧ size ≤ v.capacity then .ok (v, h)
  else do
    let capacity ← strategy size
    allocate E room capacity
    let (data, h) ← construct E.move v.data h
    return (⟨data, capacity⟩, h)

/-- The copy constructor. -/
def clone (h : H) : Except Fault (Vector T × H) := do
  let (new, h) ← empty.reserve E room v.size h
  let (data, h) ← construct E.copy v.data h
  return (⟨data, new.capacity⟩, h)

/-- The destructor. -/
def delete (h : H) : Except Fault H := destroy E v.data h

def resize (n : Nat) (h : H) : Except Fault (Vector T × H) :=
  if n = v.size then .ok (v, h)
  else if n < v.size then do
    let h ← destroy E (v.data.drop n) h
    return (⟨v.data.take n, v.capacity⟩, h)
  else do
    let (v, h) ← v.reserve E room n h
    return (⟨v.data ++ List.replicate (n - v.size) E.value, v.capacity⟩, h)

/-- `push_back` of a value that stays. -/
def pushBack (x : T) (h : H) : Except Fault (Vector T × H) := do
  let (v, h) ← v.reserve E room (v.size + 1) h
  let (x, h) ← E.copy x h
  return (⟨v.data ++ [x], v.capacity⟩, h)

/-- `push_back` of a temporary. -/
def pushBackMove (x : T) (h : H) : Except Fault (Vector T × H) := do
  let (v, h) ← v.reserve E room (v.size + 1) h
  let (y, h) ← E.move x h
  return (⟨v.data ++ [y], v.capacity⟩, h)

end Vector

end Libcpp

end SupOS
