import SupOS.Fault
import SupOS.Lib.Outcome
import SupOS.Lib.Ring

/-! The class `Deque<T,N>` of `Deque.h`, a ring of fixed capacity between an interrupt handler and the
code that it interrupts, and the lists that it holds. -/

namespace SupOS.Input

open Lib

/-- The indices are below `N`, a `uint`, so the sums of an index with `N` do not wrap around. -/
structure Deque (T : Type) (N : Nat) where
  begIndex : Nat
  endIndex : Nat
  size : Nat
  array : Nat → T

namespace Deque

variable {T : Type} {N : Nat}

/-- The constructor, which leaves the array as it is. -/
def new (N : Nat) (array : Nat → T) : Deque T N := ⟨0, 0, 0, array⟩

variable (d : Deque T N)

def pushBack (v : T) : Except Fault (Deque T N) := do
  assert (decide (d.size < N))
  return { d with array := Function.update d.array d.endIndex v, endIndex := (d.endIndex + 1) % N,
                  size := d.size + 1 }

def pushFront (v : T) : Except Fault (Deque T N) := do
  assert (decide (d.size < N))
  let begIndex := (d.begIndex + N - 1) % N
  return { d with begIndex, array := Function.update d.array begIndex v, size := d.size + 1 }

def popBack : Except Fault (Deque T N) := do
  assert (decide (0 < d.size))
  return { d with endIndex := (d.endIndex + N - 1) % N, size := d.size - 1 }

/-- The first statements of `pop_front`: the last one may see more elements than these. -/
def advance : Except Fault (Deque T N) := do
  assert (decide (0 < d.size))
  return { d with begIndex := (d.begIndex + 1) % N }

/-- The last statement of `pop_front`. -/
def shrink : Deque T N := { d with size := d.size - 1 }

def popFront : Except Fault (Deque T N) := return (← d.advance).shrink

/-- `operator[]`. -/
def get (n : Nat) : T := d.array (u64 (d.begIndex + n) % N)

/-- `at`. -/
def getChecked (n : Nat) : Except Fault T := do
  assert (decide (n < d.size))
  return d.get n

def front : T := d.array d.begIndex

def back : T := d.array ((d.endIndex + N - 1) % N)

def empty : Bool := d.size == 0

/-- The deque holds the list, and its size counts `k` elements that `pop_front` has left behind. -/
structure Holds (l : List T) (k : Nat) : Prop where
  begIndex_lt : d.begIndex < N
  endIndex_eq : d.endIndex = Ring.slot N d.begIndex l.length
  size_eq : d.size = l.length + k
  size_le : d.size ≤ N
  kept : ∀ i (hi : i < l.length), d.array (Ring.slot N d.begIndex i) = l[i]

namespace Holds

variable {d} {l : List T} {k : Nat} {x : T}

theorem new (hN : 0 < N) (array : Nat → T) : (Deque.new N array).Holds [] 0 :=
  ⟨hN, (Ring.slot_zero hN).symm, rfl, Nat.zero_le N, fun _ hi => absurd hi (Nat.not_lt_zero _)⟩

/-- A push writes behind the elements, and only a full deque refuses it. -/
theorem pushBack (h : d.Holds l k) (v : T) :
    Ensures (d.pushBack v) (fun e => e = .assertion ∧ N ≤ d.size)
      fun d' => d'.Holds (l ++ [v]) k ∧ d'.size = d.size + 1 := by
  unfold Deque.pushBack
  by_cases hsize : d.size < N
  · rw [decide_eq_true hsize, assert_true]
    refine ⟨⟨h.begIndex_lt, ?_, ?_, hsize, fun i hi => ?_⟩, rfl⟩
    · rw [List.length_append, List.length_singleton]
      dsimp only
      rw [h.endIndex_eq]
      exact Ring.slot_slot
    · rw [List.length_append, List.length_singleton]
      dsimp only
      rw [h.size_eq]
      omega
    · have hl : l.length < N := by
        have hle := h.size_eq
        omega
      have hi' := hi
      rw [List.length_append, List.length_singleton] at hi'
      dsimp only
      rw [h.endIndex_eq]
      by_cases hlast : i = l.length
      · subst hlast
        rw [Function.update_self]
        exact (List.getElem_concat_length rfl hi).symm
      · rw [Function.update_of_ne fun hslot => hlast ((Ring.slot_inj (by omega) hl).mp hslot),
          h.kept i (by omega), List.getElem_append_left]
  · rw [decide_eq_false hsize, assert_false]
    exact ⟨rfl, Nat.le_of_not_lt hsize⟩

/-- The slot before the first one. -/
theorem slot_before (h : d.Holds l k) (i : Nat) :
    Ring.slot N ((d.begIndex + N - 1) % N) (i + 1) = Ring.slot N d.begIndex i := by
  have hbeg := h.begIndex_lt
  have hslot : (d.begIndex + N - 1) % N = Ring.slot N d.begIndex (N - 1) := by
    rw [Ring.slot, Nat.add_sub_assoc (Nat.zero_lt_of_lt hbeg)]
  rw [hslot, Ring.slot_slot, show N - 1 + (i + 1) = i + N by omega, Ring.slot_add_cap]

/-- A push writes before the elements, and only a full deque refuses it. -/
theorem pushFront (h : d.Holds l k) (v : T) :
    Ensures (d.pushFront v) (fun e => e = .assertion ∧ N ≤ d.size) fun d' => d'.Holds (v :: l) k := by
  have hbeg := h.begIndex_lt
  have hsum := h.size_eq
  have hlt : (d.begIndex + N - 1) % N < N := Nat.mod_lt _ (Nat.zero_lt_of_lt hbeg)
  unfold Deque.pushFront
  by_cases hsize : d.size < N
  · rw [decide_eq_true hsize, assert_true]
    refine ⟨hlt, ?_, ?_, hsize, fun i hi => ?_⟩
    · dsimp only
      rw [h.endIndex_eq, List.length_cons, h.slot_before]
    · dsimp only
      rw [List.length_cons]
      omega
    · dsimp only
      cases i with
      | zero =>
        rw [Ring.slot_zero hlt, Function.update_self]
        rfl
      | succ i =>
        rw [List.length_cons] at hi
        have hne : Ring.slot N ((d.begIndex + N - 1) % N) (i + 1) ≠ (d.begIndex + N - 1) % N := by
          intro heq
          have hzero := heq.trans (Ring.slot_zero hlt).symm
          exact absurd ((Ring.slot_inj (by omega) (by omega)).mp hzero) (Nat.succ_ne_zero i)
        rw [Function.update_of_ne hne, h.slot_before]
        exact h.kept i (Nat.lt_of_succ_lt_succ hi)
  · rw [decide_eq_false hsize, assert_false]
    exact ⟨rfl, Nat.le_of_not_lt hsize⟩

/-- The slot of the last element. -/
theorem slot_last (h : d.Holds l k) (hl : l ≠ []) :
    (d.endIndex + N - 1) % N = Ring.slot N d.begIndex (l.length - 1) := by
  have hpos := List.length_pos_iff.mpr hl
  have hN := Nat.zero_lt_of_lt h.begIndex_lt
  rw [Nat.add_sub_assoc hN, h.endIndex_eq, Ring.slot_sub hpos hN]

theorem popBack (h : d.Holds l 0) (hl : l ≠ []) :
    ∃ d', d.popBack = .ok d' ∧ d'.Holds l.dropLast 0 := by
  have hpos := List.length_pos_iff.mpr hl
  have hsize := h.size_eq
  have hle := h.size_le
  unfold Deque.popBack
  rw [decide_eq_true (show 0 < d.size by omega), assert_true]
  refine ⟨_, rfl, h.begIndex_lt, ?_, ?_, ?_, fun i hi => ?_⟩
  · rw [List.length_dropLast]
    exact h.slot_last hl
  · rw [List.length_dropLast]
    dsimp only
    omega
  · dsimp only
    omega
  · rw [List.getElem_dropLast]
    exact h.kept i _

theorem advance (h : d.Holds (x :: l) k) :
    ∃ d', d.advance = .ok d' ∧ d'.Holds l (k + 1) ∧ d'.size = d.size := by
  have hsize := h.size_eq
  rw [List.length_cons] at hsize
  have hbeg : (d.begIndex + 1) % N = Ring.slot N d.begIndex 1 := rfl
  unfold Deque.advance
  rw [decide_eq_true (show 0 < d.size by omega), assert_true]
  refine ⟨_, rfl, ⟨Nat.mod_lt _ (Nat.zero_lt_of_lt h.begIndex_lt), ?_, ?_, h.size_le, fun i hi => ?_⟩, rfl⟩
  · dsimp only
    rw [hbeg, Ring.slot_slot, Nat.add_comm 1, h.endIndex_eq, List.length_cons]
  · dsimp only
    omega
  · dsimp only
    rw [hbeg, Ring.slot_slot, Nat.add_comm 1]
    exact h.kept (i + 1) (Nat.succ_lt_succ hi)

theorem shrink (h : d.Holds l (k + 1)) : d.shrink.Holds l k ∧ d.shrink.size = d.size - 1 := by
  have hsize := h.size_eq
  have hle := h.size_le
  exact ⟨⟨h.begIndex_lt, h.endIndex_eq, by dsimp only [Deque.shrink]; omega,
    by dsimp only [Deque.shrink]; omega, h.kept⟩, rfl⟩

theorem front (h : d.Holds (x :: l) k) : d.front = x := by
  have hkept := h.kept 0 (Nat.zero_lt_succ _)
  rwa [Ring.slot_zero h.begIndex_lt] at hkept

theorem back (h : d.Holds l k) (hl : l ≠ []) : d.back = l.getLast hl := by
  rw [Deque.back, h.slot_last hl, h.kept _ (Nat.sub_one_lt_of_lt (List.length_pos_iff.mpr hl)),
    List.getLast_eq_getElem]

/-- The index does not wrap around where the capacity is the value of a `uint`. -/
theorem get (h : d.Holds l k) (hN : N < 2 ^ 32) {i : Nat} (hi : i < l.length) : d.get i = l[i] := by
  have hsize := h.size_eq
  have hle := h.size_le
  have hbeg := h.begIndex_lt
  have hsum : u64 (d.begIndex + i) = d.begIndex + i := Nat.mod_eq_of_lt (by omega)
  rw [← h.kept i hi, Deque.get, hsum, Ring.slot]

theorem empty (h : d.Holds l 0) : d.empty = l.isEmpty := by
  rw [Deque.empty, h.size_eq]
  cases l <;> rfl

end Holds

end Deque

end SupOS.Input
