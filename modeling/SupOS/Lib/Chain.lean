import Mathlib.Logic.Function.Iterate
import Mathlib.Data.Set.Finite.Basic
import Mathlib.Data.Set.Finite.Range

/-! Chains that a function leads along until it stops: when one ends, and what holds along it. -/

namespace Lib

variable {α : Type} {next : α → α} {stop P : α → Prop} {a b : α} {n m : Nat}

/-- The chain from an element stops after `n` steps, and `P` holds of each element up to there. -/
inductive Linked (next : α → α) (stop P : α → Prop) : Nat → α → Prop
  | stop {a : α} (hs : stop a) (hP : P a) : Linked next stop P 0 a
  | next {n : Nat} {a : α} (hs : ¬stop a) (hP : P a) (h : Linked next stop P n (next a)) :
    Linked next stop P (n + 1) a

/-- From equal elements on, a chain goes the same way. -/
theorem iterate_shift (h : next^[m] a = next^[n] a) (k : Nat) :
    next^[k + m] a = next^[k + n] a := by
  rw [Function.iterate_add_apply, h, ← Function.iterate_add_apply]

theorem Linked.ends (h : Linked next stop P n a) :
    stop (next^[n] a) ∧ ∀ k, (∀ i < k, ¬stop (next^[i] a)) → P (next^[k] a) := by
  induction h with
  | stop hs hP =>
    refine ⟨hs, fun k hk => ?_⟩
    cases k with
    | zero => exact hP
    | succ k => exact absurd hs (hk 0 (Nat.succ_pos k))
  | next hs hP h ih =>
    refine ⟨ih.1, fun k hk => ?_⟩
    cases k with
    | zero => exact hP
    | succ k => exact ih.2 k fun i hi => hk (i + 1) (Nat.succ_lt_succ hi)

theorem linked_of_ends (hs : stop (next^[n] a)) (hP : ∀ k, (∀ i < k, ¬stop (next^[i] a)) → P (next^[k] a)) :
    ∃ m, Linked next stop P m a := by
  induction n generalizing a with
  | zero => exact ⟨0, .stop hs (hP 0 fun i hi => absurd hi (Nat.not_lt_zero i))⟩
  | succ n ih =>
    have hPa : P a := hP 0 fun i hi => absurd hi (Nat.not_lt_zero i)
    by_cases ha : stop a
    · exact ⟨0, .stop ha hPa⟩
    · obtain ⟨m, hm⟩ := ih (a := next a) hs fun k hk => hP (k + 1) fun i hi => by
        cases i with
        | zero => exact ha
        | succ i => exact hk i (Nat.lt_of_succ_lt_succ hi)
      exact ⟨m + 1, .next ha hPa hm⟩

/-- A chain ends with `P` all along exactly when it stops somewhere and `P` holds up to there. -/
theorem exists_linked_iff : (∃ n, Linked next stop P n a) ↔
    (∃ n, stop (next^[n] a)) ∧ ∀ k, (∀ i < k, ¬stop (next^[i] a)) → P (next^[k] a) :=
  ⟨fun ⟨n, h⟩ => ⟨⟨n, h.ends.1⟩, h.ends.2⟩, fun ⟨⟨_, hs⟩, hP⟩ => linked_of_ends hs hP⟩

/-- In a finite set a chain stops exactly when it never comes back to an element. -/
theorem exists_stop_iff {s : Set α} (hfin : s.Finite) (hmem : ∀ n, next^[n] a ∈ s) :
    (∃ n, stop (next^[n] a)) ↔
      ∀ m n, m < n → (∀ k ≤ n, ¬stop (next^[k] a)) → next^[m] a ≠ next^[n] a := by
  classical
  constructor
  · intro hex m n hmn hno heq
    -- the first stop comes after `n`, and it would come sooner along the loop
    have hfirst : n < Nat.find hex := by
      by_contra hle
      exact hno _ (Nat.le_of_not_lt hle) (Nat.find_spec hex)
    obtain ⟨k, hk⟩ := Nat.exists_eq_add_of_lt hfirst
    have hstop := Nat.find_spec hex
    rw [hk, show n + k + 1 = k + 1 + n by omega, ← iterate_shift heq] at hstop
    exact Nat.find_min hex (by omega) hstop
  · intro hnew
    by_contra hno
    have hinj : Function.Injective fun n => next^[n] a := by
      intro m n heq
      rcases Nat.lt_trichotomy m n with hlt | rfl | hlt
      · exact absurd heq (hnew m n hlt fun k _ hk => hno ⟨k, hk⟩)
      · rfl
      · exact absurd heq.symm (hnew n m hlt fun k _ hk => hno ⟨k, hk⟩)
    exact Set.infinite_of_injective_forall_mem hinj hmem hfin

end Lib
