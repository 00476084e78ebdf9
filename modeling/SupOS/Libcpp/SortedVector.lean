import SupOS.Libcpp.RawVector
import Mathlib.Order.Lattice

/-! The classes `map` of `libc++/map` and `set` of `libc++/set`, on a vector in the order of the keys that
`less` compares, and `lower_bound` of `libc++/algorithm`. -/

namespace SupOS.Libcpp

open Lib

variable {K T : Type} [LinearOrder K] (key : T → K)

/-- The rounds of `lower_bound`, of which `fuel` bounds the number. -/
def lowerBound (v : RawVector) (m : Buffers T) (k : K) : Nat → Nat → Nat → Except Fault Nat
  | 0, first, count => if 0 < count then .error .diverges else .ok first
  | fuel + 1, first, count =>
    if 0 < count then do
      let step := count / 2
      let x ← m.read v.data (first + step)
      if key x < k then lowerBound v m k fuel (first + step + 1) (count - (step + 1))
      else lowerBound v m k fuel first step
    else .ok first

namespace Sorted

variable (v : RawVector) (m : Buffers T)

/-- `find` of a map or a set, where an iterator is a position. -/
def find (k : K) : Except Fault Nat := do
  let it ← lowerBound key v m k v.size 0 v.size
  if it = v.size then return v.size
  else
    let x ← m.read v.data it
    if ¬key x < k ∧ ¬k < key x then return it else return v.size

variable (leave : T → T) (default : T) (room sizeof : Nat)

/-- `insert` of a map or a set, with the iterator and the truth value that it returns. -/
def insert (val : T) : Except Fault ((RawVector × Buffers T) × Nat × Bool) := do
  let it ← lowerBound key v m (key val) v.size 0 v.size
  if it = v.size then
    let r ← v.pushBack leave room sizeof (.value val) m
    return (r, r.1.size - 1, true)
  else
    let x ← m.read v.data it
    if ¬key x < key val ∧ ¬key val < key x then return ((v, m), it, false)
    else
      let r ← v.insert leave default room sizeof it (.value val) m
      return (r, it, true)

/-- `erase` of a key. -/
def erase (k : K) : Except Fault ((RawVector × Buffers T) × Nat) := do
  let it ← find key v m k
  if it = v.size then return ((v, m), 0)
  else
    let r ← v.erase leave it (it + 1) m
    return (r, 1)

end Sorted

/-- What an iterator from `find` points to. -/
def RawVector.entry (v : RawVector) (m : Buffers T) (it : Nat) : Except Fault (Option T) :=
  if it = v.size then .ok none else do return some (← m.read v.data it)

/-- The elements from `begin()` to `end()`. -/
def RawVector.elements (v : RawVector) (m : Buffers T) : Except Fault (List T) :=
  (List.range v.size).mapM fun i => m.read v.data i

namespace SortedMap

variable {V : Type} (v : RawVector) (m : Buffers (K × V)) (leave : K × V → K × V)
  (default : K × V) (room sizeof : Nat)

def find (k : K) : Except Fault Nat := Sorted.find Prod.fst v m k

def insert (val : K × V) : Except Fault ((RawVector × Buffers (K × V)) × Nat × Bool) :=
  Sorted.insert Prod.fst v m leave default room sizeof val

/-- `operator[]`, which returns a reference to the value of the entry; `default.2` is `T()`. -/
def index (k : K) : Except Fault ((RawVector × Buffers (K × V)) × Nat) := do
  let (r, it, _) ← insert v m leave default room sizeof (k, default.2)
  return (r, it)

def erase (k : K) : Except Fault ((RawVector × Buffers (K × V)) × Nat) :=
  Sorted.erase Prod.fst v m leave k

end SortedMap

namespace SortedSet

variable (v : RawVector) (m : Buffers K) (leave : K → K) (default : K) (room sizeof : Nat)

def find (k : K) : Except Fault Nat := Sorted.find id v m k

def insert (val : K) : Except Fault ((RawVector × Buffers K) × Nat × Bool) :=
  Sorted.insert id v m leave default room sizeof val

def erase (val : K) : Except Fault ((RawVector × Buffers K) × Nat) := Sorted.erase id v m leave val

end SortedSet

/-- A call on a map; a value can be assigned to what `operator[]` returns. -/
inductive MapCall (K V : Type)
  | insert (k : K) (x : V)
  | index (k : K) (assigned : Option V)
  | erase (k : K)
  | find (k : K)

/-- What a call on a map returns: the entry at the iterator, the value behind the reference, or a
number. -/
inductive MapReply (K V : Type)
  | inserted (entry : Option (K × V)) (new : Bool)
  | value (x : V)
  | erased (n : Nat)
  | found (entry : Option (K × V))
  deriving DecidableEq

inductive SetCall (K : Type)
  | insert (k : K)
  | erase (k : K)
  | find (k : K)

inductive SetReply (K : Type)
  | inserted (element : Option K) (new : Bool)
  | erased (n : Nat)
  | found (element : Option K)
  deriving DecidableEq

section Apply

variable {V : Type} (r : RawVector × Buffers (K × V)) (q : RawVector × Buffers K) (room sizeof : Nat)

def SortedMap.apply (leave : K × V → K × V) (default : K × V) :
    MapCall K V → Except Fault ((RawVector × Buffers (K × V)) × MapReply K V)
  | .insert k x => do
    let (r, it, new) ← SortedMap.insert r.1 r.2 leave default room sizeof (k, x)
    return (r, .inserted (← r.1.entry r.2 it) new)
  | .index k assigned => do
    let ((v, m), it) ← SortedMap.index r.1 r.2 leave default room sizeof k
    let x ← m.read v.data it
    match assigned with
    | none => return ((v, m), .value x.2)
    | some y => return ((v, ← m.assign v.data it (x.1, y)), .value x.2)
  | .erase k => do
    let (r, n) ← SortedMap.erase r.1 r.2 leave k
    return (r, .erased n)
  | .find k => do return (r, .found (← r.1.entry r.2 (← SortedMap.find r.1 r.2 k)))

def SortedSet.apply (leave : K → K) (default : K) :
    SetCall K → Except Fault ((RawVector × Buffers K) × SetReply K)
  | .insert k => do
    let (q, it, new) ← SortedSet.insert q.1 q.2 leave default room sizeof k
    return (q, .inserted (← q.1.entry q.2 it) new)
  | .erase k => do
    let (q, n) ← SortedSet.erase q.1 q.2 leave k
    return (q, .erased n)
  | .find k => do return (q, .found (← q.1.entry q.2 (← SortedSet.find q.1 q.2 k)))

end Apply

end SupOS.Libcpp
