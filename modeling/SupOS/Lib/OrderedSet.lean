import Mathlib.Order.Lattice
import Mathlib.Data.List.Basic

/-! Finite sets that are kept and read in the order of their elements. -/

namespace Lib

variable {α : Type} [LinearOrder α]

/-- The elements in increasing order. -/
structure OrderedSet (α : Type) [LinearOrder α] where
  toList : List α
  sorted : toList.Pairwise (· < ·)

namespace OrderedSet

instance : Membership α (OrderedSet α) := ⟨fun s a => a ∈ s.toList⟩

instance (a : α) (s : OrderedSet α) : Decidable (a ∈ s) :=
  inferInstanceAs (Decidable (a ∈ s.toList))

variable {a b : α} {s : OrderedSet α}

theorem mem_def : a ∈ s ↔ a ∈ s.toList := Iff.rfl

theorem nodup (s : OrderedSet α) : s.toList.Nodup := s.sorted.imp fun h => ne_of_lt h

def empty : OrderedSet α := ⟨[], List.Pairwise.nil⟩

theorem notMem_empty (a : α) : a ∉ (empty : OrderedSet α) := List.not_mem_nil

def isEmpty (s : OrderedSet α) : Bool := s.toList.isEmpty

theorem isEmpty_iff : s.isEmpty = true ↔ ∀ a, a ∉ s := by
  unfold isEmpty
  rw [List.isEmpty_iff, List.eq_nil_iff_forall_not_mem]
  exact Iff.rfl

/-- The insertion into a list. -/
def insertList (a : α) : List α → List α
  | [] => [a]
  | b :: l => if a < b then a :: b :: l else if a = b then b :: l else b :: insertList a l

theorem mem_insertList {l : List α} : b ∈ insertList a l ↔ b = a ∨ b ∈ l := by
  induction l with
  | nil => simp [insertList]
  | cons c l ih =>
    unfold insertList
    split
    · simp
    · split
      · rename_i hac
        simp [hac]
      · simp [ih, or_left_comm]

theorem sorted_insertList {l : List α} (h : l.Pairwise (· < ·)) :
    (insertList a l).Pairwise (· < ·) := by
  induction l with
  | nil => simp [insertList]
  | cons b l ih =>
    obtain ⟨hb, hl⟩ := List.pairwise_cons.mp h
    unfold insertList
    split
    · rename_i hab
      refine List.pairwise_cons.mpr ⟨fun c hc => ?_, h⟩
      rcases List.mem_cons.mp hc with rfl | hc
      · exact hab
      · exact lt_trans hab (hb c hc)
    · rename_i hab
      split
      · exact h
      · rename_i hne
        refine List.pairwise_cons.mpr ⟨fun c hc => ?_, ih hl⟩
        rcases mem_insertList.mp hc with rfl | hc
        · exact lt_of_le_of_ne (not_lt.mp hab) (Ne.symm hne)
        · exact hb c hc

def insert (s : OrderedSet α) (a : α) : OrderedSet α :=
  ⟨insertList a s.toList, sorted_insertList s.sorted⟩

@[simp] theorem mem_insert : b ∈ s.insert a ↔ b = a ∨ b ∈ s := mem_insertList

def erase (s : OrderedSet α) (a : α) : OrderedSet α :=
  ⟨s.toList.filter (· ≠ a), s.sorted.filter _⟩

@[simp] theorem mem_erase : b ∈ s.erase a ↔ b ∈ s ∧ b ≠ a := by
  rw [mem_def, erase, List.mem_filter, decide_eq_true_eq]
  exact Iff.rfl

end OrderedSet

end Lib
