import Mathlib.Order.Lattice
import Mathlib.Data.List.Basic

/-! Lists in strictly increasing order of a key: the position at which a key splits one, and what an
insertion or a removal there does. -/

namespace Lib

variable {K T : Type} [LinearOrder K] {key : T → K} {l : List T} {k : K} {i : Nat} {x y : T}

/-- The keys are strictly increasing. -/
def Increasing (key : T → K) (l : List T) : Prop := l.Pairwise fun x y => key x < key y

/-- The keys before the position are below `k`, the others are not. -/
structure Splits (key : T → K) (l : List T) (k : K) (i : Nat) : Prop where
  le : i ≤ l.length
  below : ∀ j x, j < i → l[j]? = some x → key x < k
  above : ∀ j x, i ≤ j → l[j]? = some x → k ≤ key x

theorem Increasing.lt (h : Increasing key l) {j : Nat} (hx : l[i]? = some x) (hy : l[j]? = some y)
    (hij : i < j) : key x < key y := by
  obtain ⟨hi, rfl⟩ := List.getElem?_eq_some_iff.mp hx
  obtain ⟨hj, rfl⟩ := List.getElem?_eq_some_iff.mp hy
  exact List.pairwise_iff_getElem.mp h i j hi hj hij

/-- A key is that of one element at most. -/
theorem Increasing.eq_of_key (h : Increasing key l) (hx : x ∈ l) (hy : y ∈ l) (hkey : key x = key y) :
    x = y := by
  obtain ⟨i, hi⟩ := List.mem_iff_getElem?.mp hx
  obtain ⟨j, hj⟩ := List.mem_iff_getElem?.mp hy
  rcases Nat.lt_trichotomy i j with hij | rfl | hij
  · exact absurd hkey (ne_of_lt (h.lt hi hj hij))
  · exact Option.some.inj (hi.symm.trans hj)
  · exact absurd hkey.symm (ne_of_lt (h.lt hj hi hij))

/-- A key that is in the list is at the position at which it splits it. -/
theorem Splits.mem_iff (h : Splits key l k i) (hl : Increasing key l) :
    (x ∈ l ∧ key x = k) ↔ l[i]? = some x ∧ key x = k := by
  refine and_congr_left fun hkey => ⟨fun hx => ?_, List.mem_of_getElem?⟩
  obtain ⟨j, hj⟩ := List.mem_iff_getElem?.mp hx
  have hij : i ≤ j := by
    by_contra hlt
    exact absurd hkey (ne_of_lt (h.below j x (Nat.lt_of_not_le hlt) hj))
  obtain ⟨hjl, -⟩ := List.getElem?_eq_some_iff.mp hj
  rcases Nat.eq_or_lt_of_le hij with rfl | hlt
  · exact hj
  · have hi := List.getElem?_eq_getElem (Nat.lt_trans hlt hjl)
    exact absurd (h.above i _ (Nat.le_refl i) hi) (not_le_of_gt (hkey ▸ hl.lt hi hj hlt))

theorem mem_insert_at : y ∈ l.take i ++ x :: l.drop i ↔ y = x ∨ y ∈ l := by
  rw [List.mem_append, List.mem_cons, or_left_comm, ← List.mem_append, List.take_append_drop]

/-- A new key is inserted at its position. -/
theorem Splits.insert (h : Splits key l (key x) i) (hl : Increasing key l)
    (hnew : ∀ y ∈ l, key y ≠ key x) : Increasing key (l.take i ++ x :: l.drop i) := by
  have hbelow : ∀ y ∈ l.take i, key y < key x := fun y hy => by
    obtain ⟨j, hj, rfl⟩ := List.mem_take_iff_getElem.mp hy
    exact h.below j _ (by omega) (List.getElem?_eq_getElem _)
  have habove : ∀ y ∈ l.drop i, key x < key y := fun y hy => by
    obtain ⟨j, hj⟩ := List.mem_iff_getElem?.mp hy
    rw [List.getElem?_drop] at hj
    exact lt_of_le_of_ne (h.above _ y (Nat.le_add_right i j) hj)
      (hnew y (List.mem_of_mem_drop hy)).symm
  refine List.pairwise_append.mpr ⟨hl.sublist (List.take_sublist i l),
    List.pairwise_cons.mpr ⟨habove, hl.sublist (List.drop_sublist i l)⟩, fun y hy z hz => ?_⟩
  rcases List.mem_cons.mp hz with rfl | hz
  · exact hbelow y hy
  · exact lt_trans (hbelow y hy) (habove z hz)

theorem Increasing.erase (hl : Increasing key l) (i : Nat) :
    Increasing key (l.take i ++ l.drop (i + 1)) := by
  rw [← List.eraseIdx_eq_take_drop_succ]
  exact hl.sublist (List.eraseIdx_sublist l i)

/-- What is left once the element at a position is removed. -/
theorem Increasing.mem_erase (hl : Increasing key l) (hx : l[i]? = some x) :
    y ∈ l.take i ++ l.drop (i + 1) ↔ y ∈ l ∧ key y ≠ key x := by
  obtain ⟨hi, rfl⟩ := List.getElem?_eq_some_iff.mp hx
  have hsplit : y ∈ l ↔ y ∈ l.take i ∨ y = l[i] ∨ y ∈ l.drop (i + 1) := by
    rw [← List.mem_cons, ← List.drop_eq_getElem_cons hi, ← List.mem_append, List.take_append_drop]
  rw [hsplit, List.mem_append]
  constructor
  · rintro (hy | hy)
    · obtain ⟨j, hj, rfl⟩ := List.mem_take_iff_getElem.mp hy
      exact ⟨.inl hy, ne_of_lt (hl.lt (List.getElem?_eq_getElem _) hx (by omega))⟩
    · obtain ⟨j, hj⟩ := List.mem_iff_getElem?.mp hy
      rw [List.getElem?_drop] at hj
      exact ⟨.inr (.inr hy), ne_of_gt (hl.lt hx hj (by omega))⟩
  · rintro ⟨hy | rfl | hy, hne⟩
    · exact .inl hy
    · exact absurd rfl hne
    · exact .inr hy

/-- Another element under the same key. -/
theorem Increasing.set (hl : Increasing key l) (hx : l[i]? = some x) (hkey : key y = key x) :
    Increasing key (l.set i y) := by
  obtain ⟨hi, rfl⟩ := List.getElem?_eq_some_iff.mp hx
  have hkeys : (l.set i y).map key = l.map key := by
    rw [List.map_set, hkey, ← List.getElem_map key (h := by rwa [List.length_map]), List.set_getElem_self]
  unfold Increasing at hl ⊢
  rw [← List.pairwise_map (R := (· < ·))] at hl ⊢
  rwa [hkeys]

theorem Increasing.mem_set {z : T} (hl : Increasing key l) (hx : l[i]? = some x) :
    z ∈ l.set i y ↔ z = y ∨ z ∈ l ∧ key z ≠ key x := by
  obtain ⟨hi, -⟩ := List.getElem?_eq_some_iff.mp hx
  rw [List.set_eq_take_append_cons_drop, if_pos hi, List.mem_append, List.mem_cons, or_left_comm,
    ← List.mem_append, hl.mem_erase hx]

end Lib
