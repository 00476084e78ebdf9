import SupOS.Descriptors.Vector
import Mathlib.Logic.Function.Basic

/-! The smart pointer `FileDescriptor` of `Processes/FileDescriptor.cpp`, and the rule by which its
counts agree with the pointers that exist. -/

namespace SupOS

open Lib

/-- `FDtype` -/
inductive FDtype
  | EMPTY
  | STREAM
  | DIRECTORY
  | GWINDOW
  | TWINDOW
  deriving DecidableEq, Repr

/-- A constructor builds a count together with its stream, directory or window, and all of them go
under the number that `owners` keeps. -/
structure FileDescriptor where
  owners : Option Nat
  type : FDtype
  mask : Nat
  deriving DecidableEq, Repr

/-- The counts in use, how many streams, directories and windows have been made, and those that
have been deleted, the last one first. A count stays below 2 ^ 64, since what it counts is in
memory. -/
structure Owners where
  count : Nat → Option Nat
  made : Nat
  deleted : List Nat

namespace FileDescriptor

variable (fd other : FileDescriptor) (h : Owners)

/-- The mask of a new descriptor, `-1`. -/
def fullMask : Nat := 2 ^ 64 - 1

/-- `FileDescriptor()` -/
def empty : FileDescriptor := ⟨none, .EMPTY, fullMask⟩

/-- The constructors that take a stream, a directory or a window. -/
def make (type : FDtype) : FileDescriptor × Owners :=
  (⟨some h.made, type, fullMask⟩,
    { h with count := Function.update h.count h.made (some 1), made := h.made + 1 })

/-- The copy constructor, which also moves. -/
def copy : Except Fault (FileDescriptor × Owners) :=
  match other.owners with
  | none => .ok (other, h)
  | some o =>
    match h.count o with
    | none => .error .dangling
    | some n => .ok (other, { h with count := Function.update h.count o (some (n + 1)) })

/-- The effect of `free`, where the count is `o`. -/
def free (o : Nat) : Owners :=
  let h := { h with count := Function.update h.count o none }
  match fd.type with
  | .EMPTY => h
  | .TWINDOW | .STREAM | .DIRECTORY | .GWINDOW => { h with deleted := o :: h.deleted }

/-- `drop`, which is all that the destructor does. -/
def drop : Except Fault Owners :=
  match fd.owners with
  | none => .ok h
  | some o =>
    match h.count o with
    | none => .error .dangling
    | some 0 => .ok { h with count := Function.update h.count o (some (2 ^ 64 - 1)) }
    | some 1 => .ok (fd.free h o)
    | some (n + 2) => .ok { h with count := Function.update h.count o (some (n + 1)) }

/-- `operator=`; when `fd` is the object itself it copies what `drop` has left. -/
def assign : Except Fault (FileDescriptor × Owners) := do
  let h ← other.drop h
  fd.copy h

/-- The elements of a descriptor table. -/
def element : Libcpp.Element Owners FileDescriptor where
  size := 56
  value := empty
  copy := copy
  move := copy
  destroy := drop

/-- The type is that of a descriptor with a stream. -/
def hasStream : Bool :=
  match fd.type with
  | .STREAM | .TWINDOW | .GWINDOW => true
  | .EMPTY | .DIRECTORY => false

/-- `check(val)`, where `mask` is that of the stream. -/
def check (mask val : Nat) : Bool := fd.mask &&& mask &&& val ≠ 0

/-- The descriptor shares the count `o`. -/
def shares (o : Nat) : Bool := fd.owners == some o

@[simp] theorem shares_iff {o : Nat} : fd.shares o = true ↔ fd.owners = some o := by
  simp [shares]

/-- Only an empty descriptor is without a count. -/
def Typed : Prop := fd.owners = none ↔ fd.type = .EMPTY

theorem empty_typed : empty.Typed := by simp [Typed, empty]

end FileDescriptor

open FileDescriptor

/-- How many descriptors of a list share the count `o`. -/
def sharing (l : List FileDescriptor) (o : Nat) : Nat := l.countP (·.shares o)

@[simp] theorem sharing_nil (o : Nat) : sharing [] o = 0 := rfl

@[simp] theorem sharing_append (l l' : List FileDescriptor) (o : Nat) :
    sharing (l ++ l') o = sharing l o + sharing l' o := List.countP_append

theorem sharing_cons (fd : FileDescriptor) (l : List FileDescriptor) (o : Nat) :
    sharing (fd :: l) o = (if fd.owners = some o then 1 else 0) + sharing l o := by
  simp [sharing, List.countP_cons, Nat.add_comm]

theorem sharing_perm {l l' : List FileDescriptor} (h : l.Perm l') : sharing l = sharing l' :=
  funext fun _ => h.countP_eq _

theorem sharing_pos {l : List FileDescriptor} {o : Nat} :
    0 < sharing l o ↔ ∃ fd ∈ l, fd.owners = some o := by
  simp [sharing, List.countP_pos_iff]

/-- The count of an object with `n` owners. -/
def countOf (n : Nat) : Option Nat := if n = 0 then none else some n

theorem countOf_injective : Function.Injective countOf := by
  intro m n h
  unfold countOf at h
  split at h <;> split at h <;> simp_all

/-- The counts are those of the descriptors that exist, and what has been deleted is what none of
them shares any more. -/
structure Balanced (h : Owners) (l : List FileDescriptor) : Prop where
  typed : ∀ fd ∈ l, fd.Typed
  count : ∀ o, h.count o = countOf (sharing l o)
  made : ∀ o, 0 < sharing l o → o < h.made
  deleted : ∀ o, o ∈ h.deleted ↔ o < h.made ∧ sharing l o = 0
  once : h.deleted.Nodup

namespace Balanced

variable {h h' : Owners} {l l' : List FileDescriptor} {fd : FileDescriptor}

theorem perm (hb : Balanced h l) (hl : l.Perm l') : Balanced h l' := by
  have hs := sharing_perm hl
  refine ⟨fun fd hfd => hb.typed fd (hl.mem_iff.mpr hfd), fun o => ?_, fun o ho => ?_, fun o => ?_,
    hb.once⟩
  · rw [← hs]
    exact hb.count o
  · rw [← hs] at ho
    exact hb.made o ho
  · rw [← hs]
    exact hb.deleted o

/-- Only the objects and the types of the descriptors count. -/
theorem congr (hb : Balanced h l)
    (hl : l'.map (fun fd => (fd.owners, fd.type)) = l.map fun fd => (fd.owners, fd.type)) :
    Balanced h l' := by
  have hs : sharing l' = sharing l := by
    funext o
    have hcount : ∀ m : List FileDescriptor, sharing m o =
        (m.map fun fd => (fd.owners, fd.type)).countP fun key => key.1 == some o := fun m => by
      rw [List.countP_map]
      rfl
    rw [hcount, hcount, hl]
  refine ⟨fun fd hfd => ?_, fun o => ?_, fun o ho => ?_, fun o => ?_, hb.once⟩
  · have hkey : (fd.owners, fd.type) ∈ l.map fun fd => (fd.owners, fd.type) := by
      rw [← hl]
      exact List.mem_map_of_mem hfd
    obtain ⟨x, hx, hxfd⟩ := List.mem_map.mp hkey
    obtain ⟨ho, ht⟩ := Prod.mk.inj hxfd
    have htyped := hb.typed x hx
    rwa [Typed, ho, ht] at htyped
  · rw [hs]
    exact hb.count o
  · exact hb.made o (by rwa [← hs])
  · rw [hs]
    exact hb.deleted o

/-- The counts determine how often an object is shared. -/
theorem sharing_eq (hb : Balanced h l) (hb' : Balanced h l') : sharing l = sharing l' :=
  funext fun o => countOf_injective ((hb.count o).symm.trans (hb'.count o))

theorem add_empty (hb : Balanced h l) (hfd : fd.owners = none) (ht : fd.Typed) :
    Balanced h (fd :: l) := by
  have hs : ∀ o, sharing (fd :: l) o = sharing l o := fun o => by simp [sharing_cons, hfd]
  refine ⟨fun x hx => ?_, fun o => ?_, fun o ho => hb.made o (by rwa [hs] at ho), fun o => ?_, hb.once⟩
  · rcases List.mem_cons.mp hx with rfl | hx
    · exact ht
    · exact hb.typed x hx
  · rw [hs]
    exact hb.count o
  · rw [hs]
    exact hb.deleted o

theorem remove_empty (hb : Balanced h (fd :: l)) (hfd : fd.owners = none) : Balanced h l := by
  have hs : ∀ o, sharing (fd :: l) o = sharing l o := fun o => by simp [sharing_cons, hfd]
  refine ⟨fun x hx => hb.typed x (List.mem_cons_of_mem _ hx), fun o => ?_, fun o ho => ?_, fun o => ?_,
    hb.once⟩
  · rw [← hs]
    exact hb.count o
  · exact hb.made o (by rwa [hs])
  · rw [← hs]
    exact hb.deleted o

theorem remove_empties {m : List FileDescriptor} (hm : ∀ fd ∈ m, fd.owners = none)
    (hb : Balanced h (m ++ l)) : Balanced h l := by
  induction m with
  | nil => exact hb
  | cons fd m ih =>
    exact ih (fun x hx => hm x (List.mem_cons_of_mem _ hx))
      (hb.remove_empty (hm fd List.mem_cons_self))

/-- A new descriptor is the one owner of what it points to. -/
theorem make (type : FDtype) (hb : Balanced h l) (htype : type ≠ .EMPTY) :
    Balanced (FileDescriptor.make h type).2 ((FileDescriptor.make h type).1 :: l) := by
  have hfresh : sharing l h.made = 0 := by
    by_contra hne
    exact absurd (hb.made _ (Nat.pos_of_ne_zero hne)) (Nat.lt_irrefl _)
  refine ⟨fun x hx => ?_, fun o => ?_, fun o ho => ?_, fun o => ?_, hb.once⟩
  · rcases List.mem_cons.mp hx with rfl | hx
    · simp [Typed, FileDescriptor.make, htype]
    · exact hb.typed x hx
  · simp only [FileDescriptor.make, sharing_cons, Option.some.injEq]
    by_cases ho : o = h.made
    · subst ho
      simp [hfresh, countOf]
    · rw [Function.update_of_ne ho, hb.count, if_neg (Ne.symm ho), Nat.zero_add]
  · simp only [FileDescriptor.make, sharing_cons, Option.some.injEq] at ho ⊢
    split at ho
    · omega
    · exact Nat.lt_succ_of_lt (hb.made o (by omega))
  · simp only [FileDescriptor.make, sharing_cons, Option.some.injEq, hb.deleted]
    by_cases ho : o = h.made
    · subst ho
      simp
    · rw [if_neg (Ne.symm ho)]
      omega

/-- A descriptor can be copied as long as its object has an owner. -/
theorem copy (hb : Balanced h l) (ht : fd.Typed) (hlive : ∀ o, fd.owners = some o → 0 < sharing l o) :
    ∃ h', fd.copy h = .ok (fd, h') ∧ Balanced h' (fd :: l) := by
  unfold FileDescriptor.copy
  cases ho : fd.owners with
  | none => exact ⟨h, rfl, hb.add_empty ho ht⟩
  | some o =>
    have hpos : 0 < sharing l o := hlive o ho
    have hcount : h.count o = some (sharing l o) := by rw [hb.count, countOf, if_neg (by omega)]
    simp only [hcount]
    refine ⟨_, rfl, fun x hx => ?_, fun o' => ?_, fun o' ho' => ?_, fun o' => ?_, hb.once⟩
    · rcases List.mem_cons.mp hx with rfl | hx
      · exact ht
      · exact hb.typed x hx
    · simp only [sharing_cons, ho, Option.some.injEq]
      by_cases hoo : o' = o
      · subst hoo
        simp [countOf, Nat.add_comm]
      · rw [Function.update_of_ne hoo, hb.count, if_neg (Ne.symm hoo), Nat.zero_add]
    · simp only [sharing_cons, ho, Option.some.injEq] at ho' ⊢
      split at ho'
      · rename_i hoo
        subst hoo
        exact hb.made o hpos
      · exact hb.made o' (by omega)
    · simp only [sharing_cons, ho, Option.some.injEq, hb.deleted]
      split
      · rename_i hoo
        subst hoo
        omega
      · rw [Nat.zero_add]

theorem copy_mem (hb : Balanced h l) (hfd : fd ∈ l) :
    ∃ h', fd.copy h = .ok (fd, h') ∧ Balanced h' (fd :: l) :=
  hb.copy (hb.typed fd hfd) fun _ ho => sharing_pos.mpr ⟨fd, hfd, ho⟩

/-- A descriptor that exists can be dropped, and the last one to share an object deletes it. -/
theorem drop (hb : Balanced h (fd :: l)) : ∃ h', fd.drop h = .ok h' ∧ Balanced h' l := by
  unfold FileDescriptor.drop
  cases ho : fd.owners with
  | none => exact ⟨h, rfl, hb.remove_empty ho⟩
  | some o =>
    have hs : ∀ o', sharing (fd :: l) o' = (if o = o' then 1 else 0) + sharing l o' := by
      intro o'
      simp only [sharing_cons, ho, Option.some.injEq]
    have htyped : ∀ x ∈ l, x.Typed := fun x hx => hb.typed x (List.mem_cons_of_mem _ hx)
    have hmade : o < h.made := hb.made o (by rw [hs, if_pos rfl]; omega)
    have hcount : h.count o = some (sharing l o + 1) := by
      rw [hb.count, hs, if_pos rfl, countOf, if_neg (by omega), Nat.add_comm]
    have hother : ∀ o', o' ≠ o → sharing (fd :: l) o' = sharing l o' := fun o' hoo => by
      rw [hs, if_neg (Ne.symm hoo), Nat.zero_add]
    have hne : fd.type ≠ .EMPTY := fun he => by
      have := (hb.typed fd List.mem_cons_self).mpr he
      rw [ho] at this
      cases this
    simp only [hcount]
    cases hn : sharing l o with
    | zero =>
      have hnew : o ∉ h.deleted := fun hd => by
        have := ((hb.deleted o).mp hd).2
        rw [hs, if_pos rfl] at this
        omega
      have hfree : fd.free h o = { h with
          count := Function.update h.count o none, deleted := o :: h.deleted } := by
        unfold FileDescriptor.free
        cases ht : fd.type with
        | EMPTY => exact absurd ht hne
        | STREAM | DIRECTORY | GWINDOW | TWINDOW => rfl
      refine ⟨_, rfl, htyped, fun o' => ?_, fun o' ho' => ?_, fun o' => ?_, ?_⟩
      · rw [hfree]
        by_cases hoo : o' = o
        · subst hoo
          simp [hn, countOf]
        · rw [← hother o' hoo, ← hb.count]
          exact Function.update_of_ne hoo _ _
      · rw [hfree]
        exact hb.made o' (by rw [hs]; omega)
      · simp only [hfree, List.mem_cons, hb.deleted]
        by_cases hoo : o' = o
        · subst hoo
          simp [hmade, hn]
        · rw [hother o' hoo]
          simp [hoo]
      · rw [hfree]
        exact List.nodup_cons.mpr ⟨hnew, hb.once⟩
    | succ n =>
      refine ⟨_, rfl, htyped, fun o' => ?_, fun o' ho' => ?_, fun o' => ?_, hb.once⟩
      · by_cases hoo : o' = o
        · subst hoo
          simp [hn, countOf]
        · rw [← hother o' hoo, ← hb.count]
          exact Function.update_of_ne hoo _ _
      · exact hb.made o' (by rw [hs]; omega)
      · rw [hb.deleted]
        by_cases hoo : o' = o
        · subst hoo
          rw [hs, if_pos rfl]
          omega
        · rw [hother o' hoo]

theorem ensures_drop {E : Fault → Prop} (hb : Balanced h (fd :: l)) :
    Ensures (fd.drop h) E (Balanced · l) := by
  obtain ⟨h', hdrop, hb'⟩ := hb.drop
  rwa [hdrop]

end Balanced

end SupOS
