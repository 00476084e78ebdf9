import SupOS.Lib.Outcome

/-! Systems that run one command after another, and what holds of every state that they reach. -/

namespace Lib

variable {σ κ ε : Type}

/-- A system: where it starts, which commands its surroundings may give it in a state, and what a
command does. -/
structure Machine (σ κ ε : Type) where
  start : σ → Prop
  admits : σ → κ → Prop
  apply : σ → κ → Except ε σ

namespace Machine

variable {M : Machine σ κ ε} {C C' : σ → κ → Prop} {s s' : σ}

/-- The states reached by commands that each meet the condition where they are given. -/
inductive Run (M : Machine σ κ ε) (C : σ → κ → Prop) : σ → Prop
  | start {s : σ} (h : M.start s) : Run M C s
  | step {s s' : σ} {c : κ} (hr : Run M C s) (ha : M.admits s c) (hC : C s c)
    (h : M.apply s c = .ok s') : Run M C s'

/-- What holds at the start and is kept by each command holds all along. -/
theorem Run.invariant {I : σ → Prop} (hr : Run M C s) (hstart : ∀ s, M.start s → I s)
    (hstep : ∀ s s' c, I s → M.admits s c → C s c → M.apply s c = .ok s' → I s') : I s := by
  induction hr with
  | start h => exact hstart _ h
  | step _ ha hC h ih => exact hstep _ _ _ ih ha hC h

theorem Run.mono (hr : Run M C s) (h : ∀ s c, C s c → C' s c) : Run M C' s := by
  induction hr with
  | start hs => exact .start hs
  | step _ ha hC happly ih => exact .step ih ha (h _ _ hC) happly

/-- The condition may rest on what holds of the states that are reached. -/
theorem Run.strengthen (hr : Run M C s) (h : ∀ s c, Run M C s → C s c → C' s c) : Run M C' s := by
  induction hr with
  | start hs => exact .start hs
  | step hr ha hC happly ih => exact .step ih ha (h _ _ hr hC) happly

/-- The system as it goes on from a state. -/
def resumed (M : Machine σ κ ε) (s : σ) : Machine σ κ ε := { M with start := fun s' => s' = s }

/-- What holds of a state that is reached and is kept by each command holds from there on. -/
theorem Run.resume {I : σ → Prop} (hs : I s) (hr : (M.resumed s).Run C s')
    (hstep : ∀ s s' c, I s → M.admits s c → C s c → M.apply s c = .ok s' → I s') : I s' :=
  hr.invariant (fun _ heq => heq ▸ hs) hstep

/-- The state after the commands, as long as `check` allows each and none fails. -/
def follow (M : Machine σ κ ε) (check : σ → κ → Bool) (s : σ) : List κ → Option σ
  | [] => some s
  | c :: cs =>
    if check s c then
      match M.apply s c with
      | .ok s' => follow M check s' cs
      | .error _ => none
    else none

theorem Run.follow {check : σ → κ → Bool}
    (hcheck : ∀ s c, check s c = true → M.admits s c ∧ C s c) (hr : Run M C s) {cs : List κ}
    (h : M.follow check s cs = some s') : Run M C s' := by
  induction cs generalizing s with
  | nil =>
    obtain rfl := Option.some.inj h
    exact hr
  | cons c cs ih =>
    unfold Machine.follow at h
    split at h
    · rename_i hc
      obtain ⟨ha, hC⟩ := hcheck s c hc
      split at h
      · rename_i s₁ happly
        exact ih (hr.step ha hC happly) h
      · cases h
    · cases h

/-- A run whose last state meets `P`, found by following commands. -/
theorem exists_run {check : σ → κ → Bool} (hcheck : ∀ s c, check s c = true → M.admits s c ∧ C s c)
    (hs : M.start s) (cs : List κ) {P : σ → Bool} (h : (M.follow check s cs).any P = true) :
    ∃ s', Run M C s' ∧ P s' = true := by
  cases hf : M.follow check s cs with
  | none =>
    rw [hf] at h
    cases h
  | some s' =>
    rw [hf] at h
    exact ⟨s', (Run.start hs).follow hcheck hf, h⟩

end Machine

end Lib
