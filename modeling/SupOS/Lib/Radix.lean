import Mathlib.Data.List.Infix
import Mathlib.Tactic.Common

/-! Trees of tables in a store. The entries of a table are numbered, and an entry may point to
another table; a list of numbers is a path from a root. -/

namespace Lib

/-- The entries of all tables, by the table and the number of the entry. -/
abbrev Store (E : Type) := Nat → Nat → E

namespace Store

variable {E : Type} {child : E → Option Nat} {m m' : Store E} {root : Nat} {V : List Nat → Prop}

/-- The table at the end of a path. -/
def descend (child : E → Option Nat) (m : Store E) : Nat → List Nat → Option Nat
  | f, [] => some f
  | f, i :: p => (child (m f i)).bind fun g => descend child m g p

@[simp] theorem descend_nil (f : Nat) : descend child m f [] = some f := rfl

theorem descend_cons {f i g : Nat} (p : List Nat) (h : child (m f i) = some g) :
    descend child m f (i :: p) = descend child m g p := by
  rw [descend, h, Option.bind_some]

theorem descend_cons_none {f i : Nat} (p : List Nat) (h : child (m f i) = none) :
    descend child m f (i :: p) = none := by
  rw [descend, h, Option.bind_none]

theorem descend_append (f : Nat) (p q : List Nat) :
    descend child m f (p ++ q) = (descend child m f p).bind fun g => descend child m g q := by
  induction p generalizing f with
  | nil => rfl
  | cons i p ih =>
    rw [List.cons_append, descend, descend]
    cases child (m f i) with
    | none => rfl
    | some g => exact ih g

theorem descend_snoc {f x : Nat} {p : List Nat} (i : Nat) (h : descend child m f p = some x) :
    descend child m f (p ++ [i]) = child (m x i) := by
  rw [descend_append, h, Option.bind_some, descend]
  cases child (m x i) <;> rfl

/-- A path that ends somewhere passes through tables. -/
theorem descend_prefix {f x : Nat} {p q : List Nat} (h : descend child m f (p ++ q) = some x) :
    ∃ g, descend child m f p = some g ∧ descend child m g q = some x := by
  rw [descend_append] at h
  exact Option.bind_eq_some_iff.mp h

/-- A path on which no entry has changed ends at the same table. -/
theorem descend_congr {p : List Nat}
    (h : ∀ q i x, q ++ [i] <+: p → descend child m root q = some x → child (m' x i) = child (m x i)) :
    descend child m' root p = descend child m root p := by
  induction p generalizing root with
  | nil => rfl
  | cons i p ih =>
    have hroot := h [] i root ⟨p, rfl⟩ rfl
    cases hc : child (m root i) with
    | none => rw [descend_cons_none p hc, descend_cons_none p (hroot.trans hc)]
    | some g =>
      rw [descend_cons p hc, descend_cons p (hroot.trans hc)]
      refine ih fun q j x hq hx => h (i :: q) j x ?_ ?_
      · exact List.cons_prefix_cons.mpr ⟨rfl, hq⟩
      · rw [descend_cons q hc, hx]

/-- A set of paths with the beginnings of its paths. -/
def Closed (V : List Nat → Prop) : Prop := ∀ p q, V (p ++ q) → V p

theorem Closed.of_initial (hV : Closed V) {p q : List Nat} (h : p <+: q) (hq : V q) : V p := by
  obtain ⟨r, rfl⟩ := h
  exact hV p r hq

/-- Different paths of `V` end at different tables. -/
def Tree (child : E → Option Nat) (m : Store E) (root : Nat) (V : List Nat → Prop) : Prop :=
  ∀ p q x, V p → V q → descend child m root p = some x → descend child m root q = some x → p = q

/-- The tables at the ends of the paths of `V`. -/
def Reach (child : E → Option Nat) (m : Store E) (root : Nat) (V : List Nat → Prop) (x : Nat) : Prop :=
  ∃ p, V p ∧ descend child m root p = some x

/-- Entries that are not in the tables of `V` do not matter. -/
theorem descend_of_outside (hV : Closed V) (D : Nat → Nat → Prop)
    (hm : ∀ f i, ¬D f i → child (m' f i) = child (m f i))
    (hD : ∀ f i, D f i → ¬Reach child m root V f) {p : List Nat} (hp : V p) :
    descend child m' root p = descend child m root p := by
  refine descend_congr fun q i x hq hx => hm x i fun hd => hD x i hd ⟨q, ?_, hx⟩
  exact hV.of_initial (List.IsPrefix.trans ⟨[i], rfl⟩ hq) hp

/-- The change of one entry matters only on the paths through it. -/
theorem descend_of_entry (hV : Closed V) (ht : Tree child m root V) {p q : List Nat} {x i : Nat}
    (hp : V p) (hx : descend child m root p = some x)
    (hm : ∀ q j y, V (q ++ [j]) → descend child m root q = some y → ¬(y = x ∧ j = i) →
      child (m' y j) = child (m y j))
    (hq : V q) (hnot : ¬p ++ [i] <+: q) :
    descend child m' root q = descend child m root q := by
  refine descend_congr fun r j y hr hy => hm r j y (hV.of_initial hr hq) hy ?_
  rintro ⟨rfl, rfl⟩
  have hrV : V r := hV.of_initial (List.IsPrefix.trans ⟨[j], rfl⟩ hr) hq
  exact hnot (ht p r y hp hrV hx hy ▸ hr)

/-- An entry that pointed nowhere now points to a new table without children. -/
theorem descend_attach (hV : Closed V) (ht : Tree child m root V) {p : List Nat} {x i g : Nat}
    (hp : V p) (hx : descend child m root p = some x) (hnone : child (m x i) = none)
    (hsome : child (m' x i) = some g) (hblank : ∀ j, V (p ++ [i, j]) → child (m' g j) = none)
    (hm : ∀ q j y, V (q ++ [j]) → descend child m root q = some y → ¬(y = x ∧ j = i) →
      child (m' y j) = child (m y j))
    {q : List Nat} (hq : V q) :
    descend child m' root q = if q = p ++ [i] then some g else descend child m root q := by
  by_cases hpre : p ++ [i] <+: q
  · obtain ⟨r, rfl⟩ := hpre
    have hxp : descend child m' root p = some x := by
      rw [descend_of_entry hV ht hp hx hm hp, hx]
      intro h
      have := h.length_le
      rw [List.length_append, List.length_singleton] at this
      omega
    rw [descend_append, descend_snoc i hxp, hsome, Option.bind_some, descend_append,
      descend_snoc i hx, hnone, Option.bind_none]
    cases r with
    | nil => rw [List.append_nil, if_pos rfl, descend_nil]
    | cons j r =>
      have hj : V (p ++ [i, j]) := by
        refine hV.of_initial ⟨r, ?_⟩ hq
        simp
      rw [descend_cons_none r (hblank j hj), if_neg (by simp)]
  · rw [descend_of_entry hV ht hp hx hm hq hpre, if_neg fun h => hpre ⟨[], by rw [h, List.append_nil]⟩]

theorem Tree.attach (hV : Closed V) (ht : Tree child m root V) {p : List Nat} {x i g : Nat}
    (hp : V p) (hx : descend child m root p = some x) (hnone : child (m x i) = none)
    (hsome : child (m' x i) = some g) (hblank : ∀ j, V (p ++ [i, j]) → child (m' g j) = none)
    (hm : ∀ q j y, V (q ++ [j]) → descend child m root q = some y → ¬(y = x ∧ j = i) →
      child (m' y j) = child (m y j))
    (hg : ¬Reach child m root V g) : Tree child m' root V := by
  intro q r y hq hr hqy hry
  rw [descend_attach hV ht hp hx hnone hsome hblank hm hq] at hqy
  rw [descend_attach hV ht hp hx hnone hsome hblank hm hr] at hry
  by_cases hqp : q = p ++ [i]
  · rw [if_pos hqp, Option.some.injEq] at hqy
    by_cases hrp : r = p ++ [i]
    · rw [hqp, hrp]
    · rw [if_neg hrp, ← hqy] at hry
      exact absurd ⟨r, hr, hry⟩ hg
  · rw [if_neg hqp] at hqy
    by_cases hrp : r = p ++ [i]
    · rw [if_pos hrp, Option.some.injEq] at hry
      rw [← hry] at hqy
      exact absurd ⟨q, hq, hqy⟩ hg
    · rw [if_neg hrp] at hry
      exact ht q r y hq hr hqy hry

/-- The part of a tree below an entry. -/
theorem Tree.below {W : List Nat → Prop} (ht : Tree child m root V) {i g : Nat}
    (hg : child (m root i) = some g) (hW : ∀ p, W p → V (i :: p)) : Tree child m g W := by
  intro p q x hp hq hpx hqx
  rw [← descend_cons p hg] at hpx
  rw [← descend_cons q hg] at hqx
  exact List.cons_inj_right i |>.mp (ht _ _ x (hW p hp) (hW q hq) hpx hqx)

/-- An entry that now points nowhere cuts the paths through it. -/
theorem descend_detach (hV : Closed V) (ht : Tree child m root V) {p : List Nat} {x i : Nat}
    (hp : V p) (hx : descend child m root p = some x) (hnone : child (m' x i) = none)
    (hm : ∀ q j y, V (q ++ [j]) → descend child m root q = some y → ¬(y = x ∧ j = i) →
      child (m' y j) = child (m y j))
    {q : List Nat} (hq : V q) [Decidable (p ++ [i] <+: q)] :
    descend child m' root q = if p ++ [i] <+: q then none else descend child m root q := by
  by_cases hpre : p ++ [i] <+: q
  · rw [if_pos hpre]
    obtain ⟨r, rfl⟩ := hpre
    have hxp : descend child m' root p = some x := by
      rw [descend_of_entry hV ht hp hx hm hp, hx]
      intro h
      have := h.length_le
      rw [List.length_append, List.length_singleton] at this
      omega
    rw [descend_append, descend_snoc i hxp, hnone, Option.bind_none]
  · rw [if_neg hpre, descend_of_entry hV ht hp hx hm hq hpre]

end Store

end Lib
