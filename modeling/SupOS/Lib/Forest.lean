import Mathlib.Logic.Relation

/-! Trees given by the parent of each node. -/

namespace Lib

variable {α : Type} {parent parent' : α → Option α} {r a b : α}

/-- The path from a node over its parents ends at `r`. -/
inductive Rooted (parent : α → Option α) (r : α) : α → Prop
  | root : Rooted parent r r
  | step {a b : α} (h : parent a = some b) (hb : Rooted parent r b) : Rooted parent r a

/-- `b` is the parent of `a`. -/
def ChildOf (parent : α → Option α) (a b : α) : Prop := parent a = some b

namespace Rooted

/-- A path that ends at a node without a parent has no cycle. -/
theorem acyclic (h : Rooted parent r a) (hr : parent r = none) :
    ¬Relation.TransGen (ChildOf parent) a a := by
  induction h with
  | root =>
    intro hcycle
    obtain ⟨b, hb, -⟩ := Relation.TransGen.head'_iff.mp hcycle
    rw [ChildOf, hr] at hb
    cases hb
  | @step a b hab _ ih =>
    intro hcycle
    obtain ⟨c, hc, hca⟩ := Relation.TransGen.head'_iff.mp hcycle
    have hbc : c = b := Option.some.inj (hc.symm.trans hab)
    subst hbc
    exact ih (Relation.TransGen.tail' hca hab)

/-- A new node without children is below an old one. -/
theorem grow (h : Rooted parent r a) (hleaf : ∀ c, parent c ≠ some b) (ha : a ≠ b)
    (hsame : ∀ c, c ≠ b → parent' c = parent c) : Rooted parent' r a := by
  induction h with
  | root => exact .root
  | @step a c hac _ ih =>
    have hc : c ≠ b := by
      rintro rfl
      exact hleaf a hac
    exact .step ((hsame a ha).trans hac) (ih hc)

/-- The children of a node that is removed become children of the root. -/
theorem prune (h : Rooted parent r a) (ha : a ≠ b) (hr : b ≠ r)
    (hchild : ∀ c, c ≠ b → parent c = some b → parent' c = some r)
    (hsame : ∀ c, c ≠ b → parent c ≠ some b → parent' c = parent c) : Rooted parent' r a := by
  induction h with
  | root => exact .root
  | @step a c hac _ ih =>
    by_cases hc : c = b
    · subst hc
      exact .step (hchild a ha hac) .root
    · have hne : parent a ≠ some b := by
        rw [hac]
        exact fun heq => hc (Option.some.inj heq)
      exact .step ((hsame a ha hne).trans hac) (ih hc)

end Rooted

end Lib
