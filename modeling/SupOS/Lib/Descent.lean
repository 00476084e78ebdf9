import Mathlib.Order.Basic

/-! Following a partial function from an element to where the function ends. -/

namespace Lib

variable {α : Type}

/-- The function leads from the first element to the second, where it ends. -/
inductive Ends (next : α → Option α) : α → α → Prop
  | here {a : α} (h : next a = none) : Ends next a a
  | step {a b c : α} (h : next a = some b) (hc : Ends next b c) : Ends next a c

namespace Ends

variable {next : α → Option α} {P : α → Prop} {a b c : α}

theorem next_none (h : Ends next a c) : next c = none := by
  induction h with
  | here h => exact h
  | step _ _ ih => exact ih

theorem unique (h : Ends next a b) (h' : Ends next a c) : b = c := by
  induction h with
  | here h =>
    cases h' with
    | here => rfl
    | step hs => exact absurd (h.symm.trans hs) (by simp)
  | step hs _ ih =>
    cases h' with
    | here h => exact absurd (h.symm.trans hs) (by simp)
    | step hs' hc =>
      obtain rfl := Option.some.inj (hs.symm.trans hs')
      exact ih hc

theorem closed (h : Ends next a c) (ha : P a) (hP : ∀ a b, P a → next a = some b → P b) : P c := by
  induction h with
  | here => exact ha
  | step hs _ ih => exact ih (hP _ _ ha hs)

/-- A function whose values rank lower than its arguments ends. -/
theorem exists_of_rank (rank : α → Nat) (ha : P a) (hP : ∀ a b, P a → next a = some b → P b)
    (hrank : ∀ a b, P a → next a = some b → rank b < rank a) : ∃ c, Ends next a c := by
  induction hn : rank a using Nat.strongRecOn generalizing a with
  | ind n ih =>
    cases h : next a with
    | none => exact ⟨a, .here h⟩
    | some b =>
      obtain ⟨c, hc⟩ := ih (rank b) (hn ▸ hrank a b ha h) (hP a b ha h) rfl
      exact ⟨c, .step h hc⟩

end Ends

end Lib
