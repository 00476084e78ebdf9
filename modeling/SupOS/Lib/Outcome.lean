/-! Rules for computations that return a value or fail with an error. -/

namespace Lib

variable {ε α β : Type}

/-- `x` returns only values in `Q`, and fails only with errors in `E`. -/
def Ensures (x : Except ε α) (E : ε → Prop) (Q : α → Prop) : Prop :=
  match x with
  | .ok a => Q a
  | .error e => E e

theorem ok_bind (a : α) (f : α → Except ε β) : (Except.ok a >>= f) = f a := rfl

theorem error_bind (e : ε) (f : α → Except ε β) : (Except.error e >>= f) = .error e := rfl

/-- A sequence that returns is one whose parts return. -/
theorem bind_eq_ok {x : Except ε α} {f : α → Except ε β} {b : β} :
    (x >>= f) = .ok b ↔ ∃ a, x = .ok a ∧ f a = .ok b := by
  cases x with
  | ok a =>
    rw [ok_bind]
    exact ⟨fun h => ⟨a, rfl, h⟩, fun ⟨_, ha, h⟩ => Except.ok.inj ha ▸ h⟩
  | error e =>
    rw [error_bind]
    exact ⟨fun h => absurd h (by simp), fun ⟨_, ha, _⟩ => absurd ha (by simp)⟩

theorem pure_eq_ok {a b : α} : (pure a : Except ε α) = .ok b ↔ a = b :=
  ⟨Except.ok.inj, congrArg Except.ok⟩

theorem toOption_eq_some {x : Except ε α} {a : α} : x.toOption = some a ↔ x = .ok a := by
  cases x with
  | ok b => exact ⟨fun h => congrArg _ (Option.some.inj h), fun h => congrArg _ (Except.ok.inj h)⟩
  | error e => exact ⟨nofun, nofun⟩

/-! ### Lists of computations -/

section mapM

variable {g : α → Except ε β} {l : List α} {l' : List β}

theorem mapM_cons_eq_ok {a : α} : (a :: l).mapM g = .ok l' ↔
    ∃ b bs, g a = .ok b ∧ l.mapM g = .ok bs ∧ l' = b :: bs := by
  rw [List.mapM_cons, bind_eq_ok]
  refine exists_congr fun b => ?_
  constructor
  · intro h
    obtain ⟨bs, hbs, hl⟩ := bind_eq_ok.mp h.2
    exact ⟨bs, h.1, hbs, (Except.ok.inj hl).symm⟩
  · intro h
    obtain ⟨bs, hb, hbs, rfl⟩ := h
    exact ⟨hb, bind_eq_ok.mpr ⟨bs, hbs, rfl⟩⟩

theorem mapM_returns (h : ∀ a ∈ l, ∃ b, g a = .ok b) : ∃ l', l.mapM g = .ok l' := by
  induction l with
  | nil => exact ⟨[], rfl⟩
  | cons a l ih =>
    obtain ⟨b, hb⟩ := h a (List.mem_cons_self ..)
    obtain ⟨bs, hbs⟩ := ih fun a' ha' => h a' (List.mem_cons_of_mem _ ha')
    exact ⟨b :: bs, mapM_cons_eq_ok.mpr ⟨b, bs, hb, hbs, rfl⟩⟩

theorem mem_of_mapM (h : l.mapM g = .ok l') {b : β} : b ∈ l' ↔ ∃ a ∈ l, g a = .ok b := by
  induction l generalizing l' with
  | nil =>
    obtain rfl : l' = [] := (Except.ok.inj h).symm
    simp
  | cons a l ih =>
    obtain ⟨b', bs, hb, hbs, rfl⟩ := mapM_cons_eq_ok.mp h
    simp only [List.mem_cons, ih hbs, exists_eq_or_imp, hb]
    exact or_congr_left ⟨fun h => congrArg Except.ok h.symm, fun h => (Except.ok.inj h).symm⟩

/-- What each computation keeps, the list keeps. -/
theorem map_of_mapM {γ : Type} {p : α → γ} {q : β → γ} (h : l.mapM g = .ok l')
    (hpq : ∀ a b, g a = .ok b → q b = p a) : l'.map q = l.map p := by
  induction l generalizing l' with
  | nil =>
    obtain rfl : l' = [] := (Except.ok.inj h).symm
    rfl
  | cons a l ih =>
    obtain ⟨b, bs, hb, hbs, rfl⟩ := mapM_cons_eq_ok.mp h
    rw [List.map_cons, List.map_cons, hpq a b hb, ih hbs]

end mapM

namespace Ensures

variable {x : Except ε α} {f : α → Except ε β} {E E' : ε → Prop} {Q Q' : α → Prop}
  {R : β → Prop}

@[simp] theorem ok {a : α} : Ensures (.ok a : Except ε α) E Q ↔ Q a := Iff.rfl

@[simp] theorem error {e : ε} : Ensures (.error e : Except ε α) E Q ↔ E e := Iff.rfl

theorem trivially (x : Except ε α) : Ensures x (fun _ => True) fun _ => True := by
  cases x <;> trivial

theorem mono (h : Ensures x E Q) (hE : ∀ e, E e → E' e) (hQ : ∀ a, Q a → Q' a) :
    Ensures x E' Q' := by
  cases x with
  | ok a => exact hQ a h
  | error e => exact hE e h

theorem and (h : Ensures x E Q) (h' : Ensures x E Q') : Ensures x E fun a => Q a ∧ Q' a := by
  cases x with
  | ok a => exact ⟨h, h'⟩
  | error e => exact h

theorem bind (h : Ensures x E Q) (hf : ∀ a, Q a → Ensures (f a) E R) : Ensures (x >>= f) E R := by
  cases x with
  | ok a => exact hf a h
  | error e => exact h

/-- A sequence whose first part is known to fail in fewer ways than its specification says. -/
theorem bind_with (h : Ensures x E Q) (hE : Ensures x E' fun _ => True)
    (hf : ∀ a, Q a → Ensures (f a) E' R) : Ensures (x >>= f) E' R := by
  cases x with
  | ok a => exact hf a h
  | error e => exact hE

theorem ite {c : Prop} [Decidable c] {y : Except ε α} (hx : c → Ensures x E Q)
    (hy : ¬c → Ensures y E Q) : Ensures (if c then x else y) E Q := by
  by_cases hc : c
  · rw [if_pos hc]
    exact hx hc
  · rw [if_neg hc]
    exact hy hc

theorem of_ok (h : Ensures x E Q) {a : α} (hx : x = .ok a) : Q a := by
  subst hx
  exact h

theorem of_error (h : Ensures x E Q) {e : ε} (hx : x = .error e) : E e := by
  subst hx
  exact h

/-- A computation that cannot fail returns. -/
theorem returns (h : Ensures x E Q) (hE : ∀ e, ¬E e) : ∃ a, x = .ok a ∧ Q a := by
  cases x with
  | ok a => exact ⟨a, rfl, h⟩
  | error e => exact absurd h (hE e)

theorem ok_or {e : ε} (h : Ensures x (· = e) Q) : x = .error e ∨ ∃ a, x = .ok a ∧ Q a := by
  cases x with
  | ok a => exact .inr ⟨a, rfl, h⟩
  | error e' => exact .inl (congrArg Except.error h)

/-- A loop over consecutive indices keeps an invariant that each round carries to the next index. -/
theorem foldlM_range' {σ : Type} {f : σ → Nat → Except ε σ} {P : Nat → σ → Prop} {n a : Nat} {s : σ}
    (h : P a s) (hstep : ∀ i, a ≤ i → i < a + n → ∀ s, P i s → Ensures (f s i) E (P (i + 1))) :
    Ensures ((List.range' a n).foldlM f s) E (P (a + n)) := by
  induction n generalizing a s with
  | zero => exact h
  | succ n ih =>
    rw [List.range'_succ, List.foldlM_cons]
    refine (hstep a (Nat.le_refl a) (by omega) s h).bind fun s' hs' => ?_
    rw [Nat.add_comm n, ← Nat.add_assoc]
    exact ih hs' fun i hi hlt => hstep i (by omega) (by omega)

theorem foldlM_range {σ : Type} {f : σ → Nat → Except ε σ} {P : Nat → σ → Prop} {n : Nat} {s : σ}
    (h : P 0 s) (hstep : ∀ i < n, ∀ s, P i s → Ensures (f s i) E (P (i + 1))) :
    Ensures ((List.range n).foldlM f s) E (P n) := by
  have hloop := foldlM_range' (a := 0) (n := n) h fun i _ hi => hstep i (by omega)
  rwa [Nat.zero_add, ← List.range_eq_range'] at hloop

end Ensures

end Lib
