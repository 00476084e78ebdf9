import SupOS.Fault
import SupOS.Lib.Machine
import Mathlib.Data.List.Count

/-! The pointers of `libc++/memory` that count: `shared_ptr`, `weak_ptr` and their `__count`. -/

namespace SupOS.Libcpp

open Lib

/-- `__count`. -/
structure Count where
  nbOwner : UInt32
  nbTotal : UInt32
  deriving DecidableEq, Repr

inductive PtrKind
  | shared
  | weak
  deriving DecidableEq, Repr

namespace Count

/-- The counts without a pointer of this kind. -/
def decr (k : Count) : PtrKind → Count
  | .shared => ⟨k.nbOwner - 1, k.nbTotal - 1⟩
  | .weak => ⟨k.nbOwner, k.nbTotal - 1⟩

/-- The counts with a further pointer of this kind. -/
def incr (k : Count) : PtrKind → Count
  | .shared => ⟨k.nbOwner + 1, k.nbTotal + 1⟩
  | .weak => ⟨k.nbOwner, k.nbTotal + 1⟩

/-- The count that the destructor of a class asserts to be positive. -/
def checked (k : Count) : PtrKind → UInt32
  | .shared => k.nbOwner
  | .weak => k.nbTotal

end Count

/-- A `shared_ptr` or a `weak_ptr`: the object and the count block that it points to. -/
structure Ptr where
  kind : PtrKind
  ptr : Option Nat
  count : Option Nat
  deriving DecidableEq, Repr

/-- The objects that have been made, with whether they still exist, the count blocks, and the pointers
in the order of their construction, where nothing stands for one that has been destroyed. -/
structure Pointers where
  objects : List Bool
  counts : List (Option Count)
  ptrs : List (Option Ptr)
  deriving DecidableEq, Repr

/-- The operations on pointers that go under their numbers. An object that a pointer is made for or reset
to is a new one. -/
inductive PtrCall
  /-- `shared_ptr()` -/
  | sharedNull
  /-- `shared_ptr(t)`, where `t` may be null -/
  | sharedNew (object : Bool)
  /-- `shared_ptr(const shared_ptr&)` -/
  | sharedCopy (i : Nat)
  /-- `shared_ptr(shared_ptr&&)` -/
  | sharedMove (i : Nat)
  /-- `shared_ptr(const weak_ptr&)` -/
  | sharedOfWeak (i : Nat)
  /-- `operator=(shared_ptr&&)` -/
  | sharedMoveAssign (i j : Nat)
  /-- `reset(p)`, where `p` may be null -/
  | sharedReset (i : Nat) (object : Bool)
  | sharedDestroy (i : Nat)
  /-- `weak_ptr()` -/
  | weakNull
  /-- `weak_ptr(const weak_ptr&)` -/
  | weakCopy (i : Nat)
  /-- `weak_ptr(const shared_ptr&)` -/
  | weakOfShared (i : Nat)
  /-- `operator=(const shared_ptr&)` -/
  | weakAssignShared (i j : Nat)
  | weakReset (i : Nat)
  | weakDestroy (i : Nat)
  deriving DecidableEq, Repr

namespace Pointers

variable (s : Pointers)

/-- The `__count` at a pointer. -/
def deref (c : Nat) : Except Fault Count :=
  match s.counts[c]? with
  | some (some k) => .ok k
  | _ => .error .dangling

/-- `delete _ptr`. -/
def delete (ptr : Option Nat) : Except Fault Pointers :=
  match ptr with
  | none => .ok s
  | some o =>
    if s.objects[o]? = some true then .ok { s with objects := s.objects.set o false }
    else .error .dangling

/-- `release` of either class. -/
def release (p : Ptr) : Except Fault Pointers :=
  match p.count with
  | none => .ok s
  | some c => do
    let k ← s.deref c
    let k := k.decr p.kind
    let s := { s with counts := s.counts.set c (some k) }
    let s ← if p.kind = .shared ∧ k.nbOwner = 0 then s.delete p.ptr else pure s
    if k.nbTotal = 0 then return { s with counts := s.counts.set c none } else return s

/-- The counting of a further pointer. -/
def retain (kind : PtrKind) (count : Option Nat) : Except Fault Pointers :=
  match count with
  | none => .ok s
  | some c => do
    let k ← s.deref c
    return { s with counts := s.counts.set c (some (k.incr kind)) }

/-- `new __count()` for a pointer to a new object or to nothing. -/
def newCount (object : Bool) : Ptr × Pointers :=
  ({ kind := .shared
     ptr := if object then some s.objects.length else none
     count := some s.counts.length },
    { s with
      objects := if object then s.objects ++ [true] else s.objects
      counts := s.counts ++ [some ⟨1, 1⟩] })

/-- The pointer with a number, of a class. -/
def get (kind : PtrKind) (i : Nat) : Except Fault Ptr :=
  match s.ptrs[i]? with
  | some (some p) => if p.kind = kind then .ok p else .error .dangling
  | _ => .error .dangling

def push (p : Ptr) : Pointers := { s with ptrs := s.ptrs ++ [some p] }

def put (i : Nat) (p : Option Ptr) : Pointers := { s with ptrs := s.ptrs.set i p }

/-- A constructor from another pointer that counts its own. -/
def construct (kind : PtrKind) (x : Ptr) : Except Fault Pointers := do
  let s ← s.retain kind x.count
  return s.push { x with kind }

/-- `~shared_ptr` and `~weak_ptr`. -/
def destroy (kind : PtrKind) (i : Nat) : Except Fault Pointers := do
  let p ← s.get kind i
  match p.count with
  | none => pure ()
  | some c => do
    let k ← s.deref c
    assert (decide (1 ≤ k.checked kind))
  let s ← s.release p
  return s.put i none

def apply : PtrCall → Except Fault Pointers
  | .sharedNull => .ok (s.push ⟨.shared, none, none⟩)
  | .sharedNew object =>
    let r := s.newCount object
    .ok (r.2.push r.1)
  | .sharedCopy i => do s.construct .shared (← s.get .shared i)
  | .sharedMove i => do return s.push (← s.get .shared i)
  | .sharedOfWeak i => do s.construct .shared (← s.get .weak i)
  | .sharedMoveAssign i j => do
    let p ← s.get .shared i
    let x ← s.get .shared j
    if i = j then return s
    let s ← s.release p
    return (s.put i (some x)).put j (some ⟨.shared, none, none⟩)
  | .sharedReset i object => do
    let s ← s.release (← s.get .shared i)
    if object then
      let r := s.newCount true
      return r.2.put i (some r.1)
    else return s.put i (some ⟨.shared, none, none⟩)
  | .sharedDestroy i => s.destroy .shared i
  | .weakNull => .ok (s.push ⟨.weak, none, none⟩)
  | .weakCopy i => do s.construct .weak (← s.get .weak i)
  | .weakOfShared i => do s.construct .weak (← s.get .shared i)
  | .weakAssignShared i j => do
    let p ← s.get .weak i
    let x ← s.get .shared j
    let s ← s.release p
    let s ← s.retain .weak x.count
    return s.put i (some { x with kind := .weak })
  | .weakReset i => do
    let s ← s.release (← s.get .weak i)
    return s.put i (some ⟨.weak, none, none⟩)
  | .weakDestroy i => s.destroy .weak i

end Pointers

end SupOS.Libcpp
