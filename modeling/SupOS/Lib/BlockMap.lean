import Mathlib.Order.Monotone.Basic
import Mathlib.Data.List.Perm.Basic
import Mathlib.Tactic.Ring

/-! Trees of indirect blocks.  A block map sends the indices of a file to leaf blocks, through inner
blocks that are read from a store; both are in use in the order of the indices, and only as far as
the file reaches. -/

namespace Lib

/-- How many leaves a block map can have, and how many inner blocks it needs for `k` leaves. -/
structure Shape where
  cap : Nat
  overhead : Nat → Nat
  overhead_zero : overhead 0 = 0
  overhead_mono : Monotone overhead

namespace Shape

/-- The number of blocks of a map with `k` leaves. -/
def total (S : Shape) (k : Nat) : Nat := k + S.overhead k

theorem total_zero (S : Shape) : S.total 0 = 0 := by simp [total, S.overhead_zero]

theorem total_lt (S : Shape) {k k' : Nat} (h : k < k') : S.total k < S.total k' := by
  have := S.overhead_mono h.le
  simp only [total]
  omega

theorem total_le (S : Shape) {k k' : Nat} (h : k ≤ k') : S.total k ≤ S.total k' := by
  have := S.overhead_mono h
  simp only [total]
  omega

def single : Shape where
  cap := 1
  overhead _ := 0
  overhead_zero := rfl
  overhead_mono _ _ _ := le_rfl

def empty : Shape where
  cap := 0
  overhead _ := 0
  overhead_zero := rfl
  overhead_mono _ _ _ := le_rfl

def append (S T : Shape) : Shape where
  cap := S.cap + T.cap
  overhead k := S.overhead (min k S.cap) + T.overhead (k - S.cap)
  overhead_zero := by simp [S.overhead_zero, T.overhead_zero]
  overhead_mono k k' h := Nat.add_le_add (S.overhead_mono (min_le_min_right _ h))
    (T.overhead_mono (Nat.sub_le_sub_right h _))

/-- The shape `S` under one more inner block. -/
def wrap (S : Shape) : Shape where
  cap := S.cap
  overhead k := if k = 0 then 0 else S.overhead k + 1
  overhead_zero := rfl
  overhead_mono k k' h := by
    have := S.overhead_mono h
    beta_reduce
    by_cases h' : k' = 0
    · rw [if_pos h', if_pos (by omega)]
    · rw [if_neg h']
      split <;> omega

def concat {ι : Type} (S : ι → Shape) : List ι → Shape
  | [] => empty
  | i :: is => append (S i) (concat S is)

@[simp] theorem cap_append (S T : Shape) : (S.append T).cap = S.cap + T.cap := rfl

@[simp] theorem cap_wrap (S : Shape) : S.wrap.cap = S.cap := rfl

theorem total_append (S T : Shape) (k : Nat) :
    (S.append T).total k = S.total (min k S.cap) + T.total (k - S.cap) := by
  simp only [total, append]
  omega

theorem total_wrap (S : Shape) {k : Nat} (hk : k ≠ 0) : S.wrap.total k = S.total k + 1 := by
  simp only [total, wrap, if_neg hk]
  omega

theorem cap_concat_append {ι : Type} (S : ι → Shape) (is js : List ι) :
    (concat S (is ++ js)).cap = (concat S is).cap + (concat S js).cap := by
  induction is with
  | nil => simp [concat, empty]
  | cons i is ih => rw [List.cons_append, concat, concat, cap_append, cap_append, ih, Nat.add_assoc]

theorem cap_concat_const {ι : Type} (S : Shape) (is : List ι) :
    (concat (fun _ => S) is).cap = is.length * S.cap := by
  induction is with
  | nil => simp [concat, empty]
  | cons i is ih => simp only [concat, cap_append, ih, List.length_cons]; ring

/-- A full row of equal shapes. -/
theorem total_concat_const {ι : Type} (S : Shape) (is : List ι) :
    (concat (fun _ => S) is).total (concat (fun _ => S) is).cap = is.length * S.total S.cap := by
  induction is with
  | nil => simp [concat, empty, total]
  | cons i is ih =>
    rw [concat, total_append, cap_append, min_eq_right (by omega), Nat.add_sub_cancel_left, ih,
      List.length_cons]
    ring

/-- No leaf has more than `d` inner blocks above it. -/
def Depth (S : Shape) (d : Nat) : Prop := ∀ k, S.overhead k ≤ d * k

theorem Depth.single : Depth single 0 := fun _ => Nat.zero_le _

theorem Depth.wrap {S : Shape} {d : Nat} (h : S.Depth d) : S.wrap.Depth (d + 1) := fun k => by
  have := h k
  simp only [Shape.wrap]
  split
  · exact Nat.zero_le _
  · rw [Nat.add_mul]; omega

theorem Depth.append {S T : Shape} {d : Nat} (h : S.Depth d) (h' : T.Depth d) :
    (S.append T).Depth d := fun k => by
  refine (Nat.add_le_add (h _) (h' _)).trans ?_
  rw [← Nat.mul_add]
  exact Nat.mul_le_mul_left d (by omega)

theorem Depth.concat {ι : Type} {S : ι → Shape} {d : Nat} (h : ∀ i, (S i).Depth d)
    (is : List ι) : (concat S is).Depth d := by
  induction is with
  | nil => exact fun _ => Nat.zero_le _
  | cons i is ih => exact (h i).append ih

theorem Depth.mono {S : Shape} {d d' : Nat} (h : S.Depth d) (hd : d ≤ d') : S.Depth d' :=
  fun k => (h k).trans (Nat.mul_le_mul_right k hd)

end Shape

variable {σ α : Type}

/-- A block map of shape `S`: the inner blocks and the leaf blocks in use for `k` leaves, as they
are found in a store.  They depend only on the inner blocks of that store. -/
structure BlockMap (same : σ → σ → α → Prop) (S : Shape) where
  inner : σ → Nat → List α
  leaves : σ → Nat → List α
  length_inner : ∀ m k, k ≤ S.cap → (inner m k).length = S.overhead k
  length_leaves : ∀ m k, k ≤ S.cap → (leaves m k).length = k
  congr : ∀ m m' k, (∀ b ∈ inner m k, same m m' b) → k ≤ S.cap →
    inner m' k = inner m k ∧ leaves m' k = leaves m k

namespace BlockMap

variable {same : σ → σ → α → Prop} {S T : Shape}

/-- All blocks in use for `k` leaves. -/
def nodes (P : BlockMap same S) (m : σ) (k : Nat) : List α := P.inner m k ++ P.leaves m k

theorem length_nodes (P : BlockMap same S) (m : σ) {k : Nat} (hk : k ≤ S.cap) :
    (P.nodes m k).length = S.total k := by
  rw [nodes, List.length_append, P.length_inner m k hk, P.length_leaves m k hk, Shape.total,
    Nat.add_comm]

theorem nodes_zero (P : BlockMap same S) (m : σ) : P.nodes m 0 = [] :=
  List.eq_nil_of_length_eq_zero ((P.length_nodes m (Nat.zero_le _)).trans S.total_zero)

theorem leaves_zero (P : BlockMap same S) (m : σ) : P.leaves m 0 = [] :=
  List.eq_nil_of_length_eq_zero (P.length_leaves m 0 (Nat.zero_le _))

theorem inner_zero (P : BlockMap same S) (m : σ) : P.inner m 0 = [] :=
  List.eq_nil_of_length_eq_zero
    ((P.length_inner m 0 (Nat.zero_le _)).trans S.overhead_zero)

theorem nodes_congr (P : BlockMap same S) {m m' : σ} {k : Nat}
    (h : ∀ b ∈ P.inner m k, same m m' b) (hk : k ≤ S.cap) : P.nodes m' k = P.nodes m k := by
  obtain ⟨hinner, hleaves⟩ := P.congr m m' k h hk
  rw [nodes, nodes, hinner, hleaves]

/-- One leaf block. -/
def single (r : α) : BlockMap same Shape.single where
  inner _ _ := []
  leaves _ k := if k = 0 then [] else [r]
  length_inner _ _ _ := rfl
  length_leaves _ k hk := by
    have : k ≤ 1 := hk
    split
    · simp [*]
    · simp; omega
  congr _ _ _ _ _ := ⟨rfl, rfl⟩

def empty : BlockMap same Shape.empty where
  inner _ _ := []
  leaves _ _ := []
  length_inner _ _ _ := rfl
  length_leaves _ k hk := by
    have : k ≤ 0 := hk
    simp; omega
  congr _ _ _ _ _ := ⟨rfl, rfl⟩

/-- One block map after another. -/
def append (P : BlockMap same S) (Q : BlockMap same T) : BlockMap same (S.append T) where
  inner m k := P.inner m (min k S.cap) ++ Q.inner m (k - S.cap)
  leaves m k := P.leaves m (min k S.cap) ++ Q.leaves m (k - S.cap)
  length_inner m k hk := by
    rw [Shape.cap_append] at hk
    rw [List.length_append, P.length_inner _ _ (by omega), Q.length_inner _ _ (by omega)]
    rfl
  length_leaves m k hk := by
    rw [Shape.cap_append] at hk
    rw [List.length_append, P.length_leaves _ _ (by omega), Q.length_leaves _ _ (by omega)]
    omega
  congr m m' k h hk := by
    rw [Shape.cap_append] at hk
    obtain ⟨hPi, hPl⟩ := P.congr m m' (min k S.cap)
      (fun b hb => h b (List.mem_append_left _ hb)) (by omega)
    obtain ⟨hQi, hQl⟩ := Q.congr m m' (k - S.cap)
      (fun b hb => h b (List.mem_append_right _ hb)) (by omega)
    rw [hPi, hPl, hQi, hQl]
    exact ⟨rfl, rfl⟩

/-- The block maps of a list of indices, one after another. -/
def concat {ι : Type} {S : ι → Shape} (P : (i : ι) → BlockMap same (S i)) :
    (is : List ι) → BlockMap same (Shape.concat S is)
  | [] => empty
  | i :: is => append (P i) (concat P is)

theorem concat_congr {ι : Type} {S : ι → Shape} {P P' : (i : ι) → BlockMap same (S i)} :
    ∀ {is : List ι}, (∀ i ∈ is, P' i = P i) → concat P' is = concat P is
  | [], _ => rfl
  | i :: is, h => by
    rw [concat, concat, h i List.mem_cons_self,
      concat_congr fun j hj => h j (List.mem_cons_of_mem _ hj)]

/-- The block map that `F` makes of what is read from the inner block `r`. -/
def wrap {β : Type} (r : α) (read : σ → β) (hread : ∀ m m', same m m' r → read m' = read m)
    (F : β → BlockMap same S) : BlockMap same S.wrap where
  inner m k := if k = 0 then [] else r :: (F (read m)).inner m k
  leaves m k := (F (read m)).leaves m k
  length_inner m k hk := by
    simp only [Shape.wrap]
    split
    · rfl
    · rw [List.length_cons, (F (read m)).length_inner m k hk]
  length_leaves m k hk := (F (read m)).length_leaves m k hk
  congr m m' k h hk := by
    by_cases h0 : k = 0
    · subst h0
      rw [leaves_zero, leaves_zero]
      exact ⟨rfl, rfl⟩
    · simp only [if_neg h0] at h ⊢
      rw [hread m m' (h r List.mem_cons_self)]
      obtain ⟨hi, hl⟩ := (F (read m)).congr m m' k
        (fun b hb => h b (List.mem_cons_of_mem _ hb)) hk
      rw [hi, hl]
      exact ⟨rfl, rfl⟩

/-- The blocks for fewer leaves come first among those for more. -/
def Ordered (P : BlockMap same S) : Prop := ∀ m k k', k' ≤ k → k ≤ S.cap →
  P.inner m k' <+: P.inner m k ∧ P.leaves m k' <+: P.leaves m k

theorem Ordered.single (r : α) : (single r : BlockMap same _).Ordered := by
  refine fun m k k' hle _ => ⟨List.prefix_refl _, ?_⟩
  by_cases h : k' = 0
  · rw [h]
    exact List.nil_prefix
  · simp only [BlockMap.single, if_neg h, if_neg (show k ≠ 0 by omega)]
    exact List.prefix_refl _

theorem Ordered.empty : (empty : BlockMap same _).Ordered :=
  fun _ _ _ _ _ => ⟨List.prefix_refl _, List.prefix_refl _⟩

theorem Ordered.append {P : BlockMap same S} {Q : BlockMap same T} (hP : P.Ordered)
    (hQ : Q.Ordered) : (P.append Q).Ordered := by
  intro m k k' hle hk
  rw [Shape.cap_append] at hk
  rcases Nat.le_total k' S.cap with hcap | hcap
  · -- Fewer leaves than the first map has: the second one is not in use.
    obtain ⟨hi, hl⟩ := hP m (min k S.cap) (min k' S.cap) (by omega) (Nat.min_le_right ..)
    simp only [BlockMap.append, Nat.sub_eq_zero_of_le hcap, Q.inner_zero, Q.leaves_zero,
      List.append_nil]
    exact ⟨hi.trans (List.prefix_append ..), hl.trans (List.prefix_append ..)⟩
  · obtain ⟨hi, hl⟩ := hQ m (k - S.cap) (k' - S.cap) (by omega) (by omega)
    simp only [BlockMap.append, Nat.min_eq_right hcap, Nat.min_eq_right (hcap.trans hle)]
    exact ⟨(List.prefix_append_right_inj _).mpr hi, (List.prefix_append_right_inj _).mpr hl⟩

theorem Ordered.concat {ι : Type} {S : ι → Shape} {P : (i : ι) → BlockMap same (S i)}
    (hP : ∀ i, (P i).Ordered) (is : List ι) : (concat P is).Ordered := by
  induction is with
  | nil => exact .empty
  | cons i is ih => exact (hP i).append ih

theorem Ordered.wrap {β : Type} (r : α) (read : σ → β) (hread) {F : β → BlockMap same S}
    (hF : ∀ x, (F x).Ordered) : (wrap r read hread F).Ordered := by
  intro m k k' hle hk
  obtain ⟨hi, hl⟩ := hF (read m) m k k' hle hk
  refine ⟨?_, hl⟩
  by_cases h : k' = 0
  · simp only [BlockMap.wrap, if_pos h]
    exact List.nil_prefix
  · simp only [BlockMap.wrap, if_neg h, if_neg (show k ≠ 0 by omega)]
    exact (List.prefix_cons_inj r).mpr hi

/-- The blocks that stay at their places are those for the smaller number of leaves. -/
theorem Ordered.eq_of_append {P : BlockMap same S} (hP : P.Ordered) {m m' : σ} {k k' : Nat}
    (hle : k' ≤ k) (hk : k ≤ S.cap) {inner leaves : List α}
    (hi : P.inner m k = P.inner m' k' ++ inner) (hl : P.leaves m k = P.leaves m' k' ++ leaves) :
    P.inner m' k' = P.inner m k' ∧ P.leaves m' k' = P.leaves m k' := by
  obtain ⟨hpi, hpl⟩ := hP m k k' hle hk
  rw [hi] at hpi
  rw [hl] at hpl
  have hcap := hle.trans hk
  constructor
  · refine ((List.prefix_of_prefix_length_le (List.prefix_append ..) hpi ?_).eq_of_length ?_)
    · rw [P.length_inner _ _ hcap, P.length_inner _ _ hcap]
    · rw [P.length_inner _ _ hcap, P.length_inner _ _ hcap]
  · refine ((List.prefix_of_prefix_length_le (List.prefix_append ..) hpl ?_).eq_of_length ?_)
    · rw [P.length_leaves _ _ hcap, P.length_leaves _ _ hcap]
    · rw [P.length_leaves _ _ hcap, P.length_leaves _ _ hcap]

theorem nodes_append (P : BlockMap same S) (Q : BlockMap same T) (m : σ) (k : Nat) :
    ((P.append Q).nodes m k).Perm (P.nodes m (min k S.cap) ++ Q.nodes m (k - S.cap)) := by
  simp only [nodes, append, List.append_assoc]
  refine List.Perm.append_left _ ?_
  rw [← List.append_assoc, ← List.append_assoc]
  exact List.Perm.append_right _ List.perm_append_comm

theorem nodes_wrap {β : Type} (r : α) (read : σ → β) (hread) (F : β → BlockMap same S) (m : σ)
    {k : Nat} (hk : k ≠ 0) :
    (wrap r read hread F).nodes m k = r :: (F (read m)).nodes m k := by
  simp [nodes, wrap, hk]

end BlockMap

end Lib
