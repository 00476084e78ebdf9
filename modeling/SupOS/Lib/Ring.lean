import Mathlib.Logic.Function.Basic
import Mathlib.Data.List.Basic
import Mathlib.Data.Nat.ModEq

/-! Lists in the cells of a ring: one after another from some cell on, where the first cell follows the
last one. -/

namespace Lib

variable {α : Type} {cap beg i j k : Nat} {cells : Nat → Option α} {l l' : List α} {x : α}

namespace Ring

/-- The cell of place `i`, when the first place is the cell `beg`. -/
def slot (cap beg i : Nat) : Nat := (beg + i) % cap

theorem slot_lt (h : 0 < cap) : slot cap beg i < cap := Nat.mod_lt _ h

theorem slot_zero (h : beg < cap) : slot cap beg 0 = beg := Nat.mod_eq_of_lt h

theorem slot_slot : slot cap (slot cap beg i) j = slot cap beg (i + j) := by
  rw [slot, slot, slot, Nat.mod_add_mod, Nat.add_assoc]

/-- A whole turn comes back. -/
theorem slot_add_cap : slot cap beg (i + cap) = slot cap beg i := by
  rw [slot, slot, ← Nat.add_assoc, Nat.add_mod_right]

/-- The place `k` before place `i`. -/
theorem slot_sub (hk : k ≤ i) (hcap : k ≤ cap) :
    (slot cap beg i + (cap - k)) % cap = slot cap beg (i - k) := by
  rw [slot, Nat.mod_add_mod, show beg + i + (cap - k) = beg + (i - k) + cap by omega,
    Nat.add_mod_right, slot]

theorem slot_inj (hi : i < cap) (hj : j < cap) : slot cap beg i = slot cap beg j ↔ i = j := by
  constructor
  · intro h
    have hmod : i % cap = j % cap := Nat.ModEq.add_left_cancel' beg h
    rwa [Nat.mod_eq_of_lt hi, Nat.mod_eq_of_lt hj] at hmod
  · rintro rfl
    rfl

/-- Each cell is that of some place. -/
theorem exists_slot (hbeg : beg < cap) (hj : j < cap) : ∃ i < cap, slot cap beg i = j := by
  by_cases h : beg ≤ j
  · exact ⟨j - beg, by omega, by rw [slot, Nat.add_sub_cancel' h, Nat.mod_eq_of_lt hj]⟩
  · refine ⟨j + cap - beg, by omega, ?_⟩
    rw [slot, show beg + (j + cap - beg) = j + cap by omega, Nat.add_mod_right, Nat.mod_eq_of_lt hj]

/-- The ring holds the list from `beg` on, and its other cells are empty. -/
def Holds (cells : Nat → Option α) (cap beg : Nat) (l : List α) : Prop :=
  ∀ i < cap, cells (slot cap beg i) = l[i]?

namespace Holds

theorem nil (cap beg : Nat) : Holds (fun _ => (none : Option α)) cap beg [] := fun _ _ => rfl

/-- A cell is changed, and so is the place that it is of. -/
theorem update (h : Holds cells cap beg l) (hk : k < cap) {v : Option α}
    (hl : ∀ i < cap, l'[i]? = if i = k then v else l[i]?) :
    Holds (Function.update cells (slot cap beg k) v) cap beg l' := by
  intro i hi
  rw [hl i hi]
  by_cases hik : i = k
  · subst hik
    rw [Function.update_self, if_pos rfl]
  · rw [Function.update_of_ne fun hslot => hik ((slot_inj hi hk).mp hslot), if_neg hik, h i hi]

theorem set (h : Holds cells cap beg l) (hk : k < l.length) (hlen : l.length ≤ cap) :
    Holds (Function.update cells (slot cap beg k) (some x)) cap beg (l.set k x) := by
  refine h.update (by omega) fun i _ => ?_
  by_cases hik : i = k
  · subst hik
    rw [if_pos rfl, List.getElem?_set_self hk]
  · rw [if_neg hik, List.getElem?_set_ne (Ne.symm hik)]

theorem pushBack (h : Holds cells cap beg l) (hlen : l.length < cap) :
    Holds (Function.update cells (slot cap beg l.length) (some x)) cap beg (l ++ [x]) := by
  refine h.update hlen fun i _ => ?_
  rw [List.getElem?_append]
  by_cases hi : i < l.length
  · rw [if_pos hi, if_neg (by omega)]
  · rw [if_neg hi]
    by_cases heq : i = l.length
    · subst heq
      simp
    · rw [if_neg heq, List.getElem?_eq_none (by simp; omega), List.getElem?_eq_none (by omega)]

theorem popBack (h : Holds cells cap beg l) (hlen : l.length ≤ cap) (hl : l ≠ []) :
    Holds (Function.update cells (slot cap beg (l.length - 1)) none) cap beg l.dropLast := by
  have hpos := List.length_pos_iff.mpr hl
  refine h.update (by omega) fun i _ => ?_
  rw [List.getElem?_dropLast]
  by_cases hi : i < l.length - 1
  · rw [if_pos hi, if_neg (by omega)]
  · rw [if_neg hi]
    by_cases heq : i = l.length - 1
    · rw [if_pos heq]
    · rw [if_neg heq, List.getElem?_eq_none (by omega)]

/-- The ring from the cell before the first one, which is empty. -/
theorem shift_back (h : Holds cells cap beg l) (hlen : l.length < cap) {beg' : Nat}
    (hbeg : slot cap beg' 1 = beg) :
    ∀ i < cap, cells (slot cap beg' i) = if i = 0 then none else l[i - 1]? := by
  intro i hi
  cases i with
  | zero =>
    have hturn : slot cap beg' 0 = slot cap beg (cap - 1) := by
      rw [← hbeg, slot_slot, show 1 + (cap - 1) = 0 + cap by omega, slot_add_cap]
    rw [if_pos rfl, hturn, h _ (by omega), List.getElem?_eq_none (by omega)]
  | succ i =>
    rw [if_neg (Nat.succ_ne_zero i), Nat.add_sub_cancel, ← h i (by omega), ← hbeg, slot_slot,
      Nat.add_comm 1]

theorem pushFront (h : Holds cells cap beg l) (hlen : l.length < cap) {beg' : Nat}
    (hlt : beg' < cap) (hbeg : slot cap beg' 1 = beg) :
    Holds (Function.update cells beg' (some x)) cap beg' (x :: l) := by
  intro i hi
  have hzero : slot cap beg' 0 = beg' := slot_zero hlt
  by_cases h0 : i = 0
  · subst h0
    rw [hzero, Function.update_self]
    rfl
  · have hne : slot cap beg' i ≠ beg' := fun heq => by
      rw [← hzero, slot_slot, Nat.zero_add] at heq
      exact h0 ((slot_inj hi (by omega)).mp (by rw [heq]))
    rw [Function.update_of_ne hne, h.shift_back hlen hbeg i hi, if_neg h0,
      List.getElem?_cons, if_neg h0]

theorem popFront (h : Holds cells cap beg (x :: l)) (hlt : beg < cap) (hlen : l.length < cap) :
    Holds (Function.update cells beg none) cap (slot cap beg 1) l := by
  intro i hi
  rw [slot_slot]
  by_cases hlast : i + 1 = cap
  · have hturn : slot cap beg (1 + i) = beg := by
      rw [show 1 + i = 0 + cap by omega, slot_add_cap, slot_zero hlt]
    rw [hturn, Function.update_self, List.getElem?_eq_none (by omega)]
  · have hne : slot cap beg (1 + i) ≠ beg := fun heq => by
      have hzero := (slot_inj (show 1 + i < cap by omega) (show 0 < cap by omega)).mp
        (heq.trans (slot_zero hlt).symm)
      omega
    rw [Function.update_of_ne hne, h _ (by omega), Nat.add_comm 1, List.getElem?_cons_succ]

end Holds

end Ring

end Lib
