import Mathlib.Data.List.Basic

/-! Blocks in a row, each behind a gap for its header, some of them in use: where a block is found, the
first free block that is large enough, and free blocks merged with their neighbours. -/

namespace Lib

variable {α : Type}

/-- A block, with what is known of it as long as it is in use. -/
structure Block (α : Type) where
  size : Nat
  used : Option α
  deriving DecidableEq, Repr

namespace Block

def free (b : Block α) : Bool := b.used.isNone

@[simp] theorem free_some (n : Nat) (x : α) : free ⟨n, some x⟩ = false := rfl

@[simp] theorem free_none (n : Nat) : free (⟨n, none⟩ : Block α) = true := rfl

theorem used_of_free {b : Block α} (h : b.free = true) : b.used = none := Option.isNone_iff_eq_none.mp h

end Block

namespace Blocks

variable (gap : Nat) {a p q : Nat} {pf : Bool} {b c : Block α} {l l₁ l₂ : List (Block α)} {x : α}

/-- The length of a row. -/
def span : List (Block α) → Nat
  | [] => 0
  | b :: l => gap + b.size + span l

/-- The last block of a row is free; `pf` is what is known of the one in front of the row. -/
def lastFree (pf : Bool) : List (Block α) → Bool
  | [] => pf
  | b :: l => lastFree b.free l

/-- What is kept at `p` in a row that starts at `a`. -/
def find (a : Nat) : List (Block α) → Nat → Option α
  | [], _ => none
  | b :: l, p => if p = a + gap then b.used else find (a + gap + b.size) l p

/-- The first block of a row, if there is one, is in use. -/
def Closed (l : List (Block α)) : Prop := ∀ b ∈ l.head?, b.free = false

/-- Behind each free block there is one in use. -/
def Coalesced : List (Block α) → Prop
  | [] => True
  | b :: l => (b.free = true → l ≠ [] ∧ Closed l) ∧ Coalesced l

/-- A block in front of a row, which it is merged with if it is free. -/
def push (b : Block α) (l : List (Block α)) : List (Block α) :=
  if b.free then
    match l with
    | [] => []
    | c :: l' => if c.free then ⟨b.size + gap + c.size, none⟩ :: l' else b :: c :: l'
  else b :: l

/-- A row whose free blocks are merged, and dropped at its end. -/
def coalesce (l : List (Block α)) : List (Block α) := l.foldr (push gap) []

/-- The block at `p` is no longer in use. -/
def release (a p : Nat) : List (Block α) → List (Block α)
  | [] => []
  | b :: l =>
    if p = a + gap then ⟨b.size, none⟩ :: l else b :: release (a + gap + b.size) p l

/-- The first free block of size `n` at least is used, behind the row if there is none.  What is left of it
becomes a free block if it is of size `least` at least. -/
def place (least n : Nat) (x : α) : List (Block α) → List (Block α)
  | [] => [⟨n, some x⟩]
  | b :: l =>
    if b.free ∧ n ≤ b.size then
      if least ≤ b.size - n then ⟨n, some x⟩ :: ⟨b.size - n - gap, none⟩ :: l else ⟨b.size, some x⟩ :: l
    else b :: place least n x l

/-- Where that block is. -/
def spot (n a : Nat) : List (Block α) → Nat
  | [] => a + gap
  | b :: l => if b.free ∧ n ≤ b.size then a + gap else spot n (a + gap + b.size) l

/-! ### Rows -/

theorem coalesce_append : coalesce gap (l₁ ++ b :: l₂) =
    l₁.foldr (push gap) (push gap b (coalesce gap l₂)) := by
  rw [coalesce, List.foldr_append, List.foldr_cons, coalesce]

@[simp] theorem span_nil : span gap ([] : List (Block α)) = 0 := rfl

@[simp] theorem span_cons : span gap (b :: l) = gap + b.size + span gap l := rfl

@[simp] theorem span_append : span gap (l₁ ++ l₂) = span gap l₁ + span gap l₂ := by
  induction l₁ with
  | nil => rw [List.nil_append, span_nil, Nat.zero_add]
  | cons b l₁ ih => rw [List.cons_append, span_cons, ih, span_cons, Nat.add_assoc (gap + b.size)]

@[simp] theorem lastFree_nil : lastFree pf ([] : List (Block α)) = pf := rfl

@[simp] theorem lastFree_cons : lastFree pf (b :: l) = lastFree b.free l := rfl

@[simp] theorem lastFree_append : lastFree pf (l₁ ++ l₂) = lastFree (lastFree pf l₁) l₂ := by
  induction l₁ generalizing pf with
  | nil => rfl
  | cons b l₁ ih => exact ih

/-- A row that ends with a free block. -/
theorem exists_of_lastFree (h : lastFree false l = true) :
    ∃ l₀ d, l = l₀ ++ [d] ∧ d.free = true := by
  obtain rfl | ⟨l₀, d, rfl⟩ := l.eq_nil_or_concat
  · cases h
  · rw [List.concat_eq_append, lastFree_append] at h
    exact ⟨l₀, d, List.concat_eq_append, h⟩

theorem closed_cons : Closed (b :: l) ↔ b.free = false := by
  simp [Closed]

theorem exists_of_not_closed (h : ¬Closed l) : ∃ c l', l = c :: l' ∧ c.free = true := by
  cases l with
  | nil => exact absurd (fun _ hb => absurd hb (by simp)) h
  | cons c l => exact ⟨c, l, rfl, by simpa [closed_cons] using h⟩

/-! ### Finding a block -/

variable {gap} {least n : Nat}

theorem find_of_lt (h : p < a + gap) : find gap a l p = none := by
  induction l generalizing a with
  | nil => rfl
  | cons b l ih =>
    rw [find, if_neg (Nat.ne_of_lt h)]
    exact ih (by omega)

theorem le_of_find (h : find gap a l p = some x) : a + gap ≤ p := by
  by_contra hlt
  rw [find_of_lt (Nat.lt_of_not_le hlt)] at h
  cases h

/-- What is found lies in the row. -/
theorem exists_of_find (h : find gap a l p = some x) :
    ∃ l₁ b l₂, l = l₁ ++ b :: l₂ ∧ p = a + span gap l₁ + gap ∧ b.used = some x := by
  induction l generalizing a with
  | nil => cases h
  | cons b l ih =>
    rw [find] at h
    split at h
    · exact ⟨[], b, l, rfl, by simpa using ‹p = _›, h⟩
    · obtain ⟨l₁, c, l₂, rfl, hp, hc⟩ := ih h
      refine ⟨b :: l₁, c, l₂, rfl, ?_, hc⟩
      rw [span_cons]
      omega

section

variable (hgap : 0 < gap)

include hgap

theorem find_append :
    find gap a (l₁ ++ l₂) p = (find gap a l₁ p).or (find gap (a + span gap l₁) l₂ p) := by
  induction l₁ generalizing a with
  | nil => rfl
  | cons b l₁ ih =>
    rw [List.cons_append, find, find, ih, span_cons, ← Nat.add_assoc, ← Nat.add_assoc]
    split
    · rw [find_of_lt (l := l₂) (by omega), Option.or_none]
    · rfl

theorem find_mid : find gap a (l₁ ++ b :: l₂) (a + span gap l₁ + gap) = b.used := by
  rw [find_append hgap, find, if_pos rfl]
  suffices find gap a l₁ (a + span gap l₁ + gap) = none by rw [this, Option.none_or]
  by_contra hne
  obtain ⟨x, hx⟩ := Option.ne_none_iff_exists'.mp hne
  obtain ⟨l, c, l', rfl, hp, -⟩ := exists_of_find hx
  rw [span_append, span_cons] at hp
  omega

theorem find_push : find gap a (push gap b l) p = find gap a (b :: l) p := by
  unfold push
  split
  · rename_i hb
    have hused := Block.used_of_free hb
    cases l with
    | nil => simp [find, hused]
    | cons c l =>
      simp only
      split
      · rename_i hc
        have hused' := Block.used_of_free hc
        rw [find, find, find, hused, hused']
        by_cases hp : p = a + gap
        · rw [if_pos hp, if_pos hp]
        · rw [if_neg hp, if_neg hp]
          dsimp only
          split
          · exact find_of_lt (by omega)
          · congr 1
            omega
      · rfl
  · rfl

theorem find_coalesce : find gap a (coalesce gap l) p = find gap a l p := by
  induction l generalizing a with
  | nil => rfl
  | cons b l ih =>
    have hpush : coalesce gap (b :: l) = push gap b (coalesce gap l) := rfl
    rw [hpush, find_push hgap, find, find, ih]

theorem release_append (hp : p = a + span gap l₁ + gap) :
    release gap a p (l₁ ++ b :: l₂) = l₁ ++ ⟨b.size, none⟩ :: l₂ := by
  induction l₁ generalizing a with
  | nil => rw [List.nil_append, release, if_pos (by simpa using hp), List.nil_append]
  | cons c l₁ ih =>
    rw [span_cons] at hp
    rw [List.cons_append, release, if_neg (by omega), ih (by omega), List.cons_append]

end

theorem find_release : find gap a (release gap a p l) q = if q = p then none else find gap a l q := by
  induction l generalizing a with
  | nil => rw [release, find, ite_self]
  | cons b l ih =>
    rw [release]
    by_cases hp : p = a + gap
    · rw [if_pos hp, find, find, ← hp]
      split <;> rfl
    · rw [if_neg hp, find, find, ih]
      by_cases hq : q = a + gap
      · rw [if_pos hq, if_pos hq, if_neg fun heq => hp (heq.symm.trans hq)]
      · rw [if_neg hq, if_neg hq]

theorem le_spot : a + gap ≤ spot gap n a l := by
  induction l generalizing a with
  | nil => exact Nat.le_refl _
  | cons b l ih =>
    rw [spot]
    split
    · exact Nat.le_refl _
    · exact Nat.le_trans (by omega) ih

theorem find_spot (hgap : 0 < gap) : find gap a l (spot gap n a l) = none := by
  induction l generalizing a with
  | nil => rfl
  | cons b l ih =>
    rw [find, spot]
    split
    · rename_i hfit
      rw [if_pos rfl, Block.used_of_free hfit.1]
    · have hle : a + gap + b.size + gap ≤ spot gap n (a + gap + b.size) l := le_spot
      rw [if_neg (by omega), ih]

theorem find_place (hgap : 0 < gap) (hleast : gap ≤ least) :
    find gap a (place gap least n x l) p = if p = spot gap n a l then some x else find gap a l p := by
  induction l generalizing a with
  | nil => rfl
  | cons b l ih =>
    rw [place, spot]
    by_cases hfit : b.free = true ∧ n ≤ b.size
    · rw [if_pos hfit, if_pos hfit]
      have hused := Block.used_of_free hfit.1
      by_cases hleft : least ≤ b.size - n
      · rw [if_pos hleft, find, find, find]
        by_cases hp : p = a + gap
        · rw [if_pos hp, if_pos hp]
        · rw [if_neg hp, if_neg hp, if_neg hp]
          dsimp only
          split
          · exact (find_of_lt (by omega)).symm
          · congr 1
            omega
      · rw [if_neg hleft, find, find]
        split <;> rfl
    · rw [if_neg hfit, if_neg hfit, find, find, ih]
      have hle : a + gap + b.size + gap ≤ spot gap n (a + gap + b.size) l := le_spot
      by_cases hp : p = a + gap
      · rw [if_pos hp, if_pos hp, if_neg (by omega)]
      · rw [if_neg hp, if_neg hp]

theorem span_place_of_fit (hleast : gap ≤ least) (hfit : b.free = true ∧ n ≤ b.size) :
    span gap (place gap least n x (b :: l)) = span gap (b :: l) := by
  rw [place, if_pos hfit]
  split
  · simp only [span_cons]
    omega
  · rfl

/-! ### Merged blocks -/

theorem Coalesced.of_append (h : Coalesced (l₁ ++ l₂)) : Coalesced l₂ := by
  induction l₁ with
  | nil => exact h
  | cons b l₁ ih => exact ih h.2

theorem push_of_used (hb : b.free = false) : push gap b l = b :: l := by
  simp [push, hb]

theorem push_nil (hb : b.free = true) : push gap b [] = [] := by
  simp [push, hb]

theorem push_of_free (hb : b.free = true) (hc : c.free = true) :
    push gap b (c :: l) = ⟨b.size + gap + c.size, none⟩ :: l := by
  simp [push, hb, hc]

theorem push_of_closed (hl : l ≠ []) (hclosed : Closed l) : push gap b l = b :: l := by
  cases l with
  | nil => exact absurd rfl hl
  | cons c l =>
    unfold push
    simp only [closed_cons.mp hclosed, Bool.false_eq_true, if_false, ite_self]

theorem Coalesced.push (h : Coalesced l) (b : Block α) : Coalesced (push gap b l) := by
  unfold Blocks.push
  split
  · cases l with
    | nil => trivial
    | cons c l =>
      simp only
      split
      · rename_i hc
        exact ⟨fun _ => h.1 hc, h.2⟩
      · rename_i hc
        exact ⟨fun _ => ⟨List.cons_ne_nil _ _, closed_cons.mpr (Bool.eq_false_iff.mpr hc)⟩, h⟩
  · rename_i hb
    exact ⟨fun hfree => absurd hfree hb, h⟩

theorem coalesced_coalesce (l : List (Block α)) : Coalesced (coalesce gap l) := by
  induction l with
  | nil => trivial
  | cons b l ih => exact ih.push b

/-- A free block takes what it is merged with into account. -/
theorem push_push (hb : b.free = true) (hl : Closed l) :
    push gap b (push gap ⟨n, none⟩ l) = push gap ⟨b.size + gap + n, none⟩ l := by
  cases l with
  | nil => simp [push, hb]
  | cons c l =>
    have hc : c.free = false := closed_cons.mp hl
    simp [push, hb, hc]

/-- Blocks in front of which nothing is merged stay as they are. -/
theorem Coalesced.foldr_push (h : Coalesced (l₁ ++ l₂)) (hlast : lastFree false l₁ = false)
    (l : List (Block α)) : l₁.foldr (Blocks.push gap) l = l₁ ++ l := by
  induction l₁ with
  | nil => rfl
  | cons b l₁ ih =>
    rw [lastFree_cons] at hlast
    rw [List.foldr_cons, List.cons_append]
    cases l₁ with
    | nil => exact push_of_used hlast
    | cons c l₁ =>
      rw [ih h.2 hlast]
      cases hb : b.free with
      | true =>
        have hc := closed_cons.mp (h.1 hb).2
        exact push_of_closed (List.cons_ne_nil _ _) (closed_cons.mpr hc)
      | false => exact push_of_used hb

/-- In front of a free block there is one in use. -/
theorem Coalesced.lastFree_front (h : Coalesced (l₁ ++ b :: l₂)) (hb : b.free = true) :
    lastFree false l₁ = false := by
  by_contra hlast
  obtain ⟨l₀, d, rfl, hd⟩ := exists_of_lastFree (by simpa using hlast)
  rw [List.append_assoc] at h
  have hused := closed_cons.mp (h.of_append.1 hd).2
  rw [hb] at hused
  cases hused

/-- Merging again changes nothing. -/
theorem Coalesced.coalesce_eq (h : Coalesced l) : coalesce gap l = l := by
  induction l with
  | nil => rfl
  | cons b l ih =>
    have hpush : coalesce gap (b :: l) = Blocks.push gap b (coalesce gap l) := rfl
    rw [hpush, ih h.2]
    cases hb : b.free with
    | true => exact push_of_closed (h.1 hb).1 (h.1 hb).2
    | false => exact push_of_used hb

theorem place_ne_nil : place gap least n x l ≠ [] := by
  cases l with
  | nil => exact List.cons_ne_nil _ _
  | cons b l =>
    rw [place]
    split
    · split <;> exact List.cons_ne_nil _ _
    · exact List.cons_ne_nil _ _

theorem Closed.place (h : Closed l) : Closed (place gap least n x l) := by
  cases l with
  | nil => exact closed_cons.mpr rfl
  | cons b l =>
    have hb := closed_cons.mp h
    rw [Blocks.place, if_neg (by simp [hb])]
    exact closed_cons.mpr hb

theorem Coalesced.place (h : Coalesced l) : Coalesced (place gap least n x l) := by
  induction l with
  | nil => exact ⟨fun hfree => absurd hfree (by simp), trivial⟩
  | cons b l ih =>
    rw [Blocks.place]
    split
    · rename_i hfit
      split
      · exact ⟨fun hfree => absurd hfree (by simp), fun _ => h.1 hfit.1, h.2⟩
      · exact ⟨fun hfree => absurd hfree (by simp), h.2⟩
    · exact ⟨fun hfree => ⟨place_ne_nil, (h.1 hfree).2.place⟩, ih h.2⟩

/-- A row without a block in use has no block at all. -/
theorem Coalesced.eq_nil (h : Coalesced l) (hgap : 0 < gap) (hnone : ∀ p, find gap a l p = none) :
    l = [] := by
  suffices ∀ b ∈ l, b.free = true by
    cases l with
    | nil => rfl
    | cons b l =>
      obtain ⟨hne, hclosed⟩ := h.1 (this b (List.mem_cons_self ..))
      obtain ⟨c, l, rfl⟩ := List.exists_cons_of_ne_nil hne
      have hc := this c (List.mem_cons_of_mem _ (List.mem_cons_self ..))
      rw [closed_cons.mp hclosed] at hc
      cases hc
  intro b hb
  obtain ⟨l₁, l₂, rfl⟩ := List.append_of_mem hb
  have hfind := hnone (a + span gap l₁ + gap)
  rw [find_mid hgap] at hfind
  exact Option.isNone_iff_eq_none.mpr hfind

end Blocks

end Lib
