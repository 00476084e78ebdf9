import SupOS.Memory.Bitset

/-! The words of a `Bitset` that its range operations and its searches touch. -/

namespace SupOS

open Lib

/-- What a function computes, and the indices of the words that it reads or writes, in order. -/
structure Touching (α : Type) where
  value : α
  words : List Nat

namespace Bitset

/-- `n` rounds of the loop of `set(i, len)` and `unset(i, len)` over whole words. -/
def fillRounds (v : Bool) : (n i : Nat) → Words → Touching Words
  | 0, _, d => ⟨d, []⟩
  | n + 1, i, d =>
    let d := Function.update d (i / 64) (if v then BitVec.allOnes 64 else 0#64)
    let r := fillRounds v n (u64 (i + 64)) d
    ⟨r.value, i / 64 :: r.words⟩

/-- `set(i, len)` when `v` is true and `unset(i, len)` when it is false, with the words it touches. -/
def touchRange (v : Bool) (b : Bitset) (i len : Nat) : Except Fault (Touching Bitset) := do
  assert (u64 (i + len) ≤ b.size)
  let mod := i % 64
  if mod ≠ 0 ∧ len ≤ 64 - mod then
    return ⟨{ b with data := b.data.put v (i / 64) (lowBits (len % 64) <<< mod) }, [i / 64]⟩
  let first : Touching Words := if mod ≠ 0 then
    ⟨b.data.put v (i / 64) (BitVec.allOnes 64 - lowBits (i % 64)), [i / 64]⟩ else ⟨b.data, []⟩
  let i := u64 (alignup i 64)
  let len := u64 (len + 2 ^ 64 - (64 - mod))
  let middle := fillRounds v (len / 64) i first.value
  let last := u64 (i + len / 64 * 64) / 64
  return ⟨{ b with data := middle.value.put v last (lowBits (len % 64)) },
    first.words ++ middle.words ++ [last]⟩

/-- The bits from `i` on written one by one. -/
def writeEach (v : Bool) (b : Bitset) (i len : Nat) : Except Fault Bitset :=
  (List.range' i len).foldlM (write v) b

/-- The range operation has the effect of the writes of its bits, and touches the words of the range
only. -/
def RangeRight (v : Bool) (b : Bitset) (i len : Nat) : Prop :=
  ∃ r, b.touchRange v i len = .ok r ∧ b.writeEach v i len = .ok r.value ∧
    ∀ j ∈ r.words, ∃ k, i ≤ k ∧ k < i + len ∧ k / 64 = j

/-- Either the range starts inside a word, is not empty, and ends in that word or inside a word; or it
starts with a word and has a last 64 bits that are `v` already. -/
def RangeFits (v : Bool) (b : Bitset) (i len : Nat) : Prop :=
  (i % 64 ≠ 0 ∧ 0 < len ∧ (len ≤ 64 - i % 64 ∨ (i + len) % 64 ≠ 0)) ∨
    (i % 64 = 0 ∧ 64 ≤ len ∧ ∀ k, i + len - 64 ≤ k → k < i + len → b.bit k = v)

/-- The loop of `bsf()` over `n` words from word `i` up, until one satisfies `p`. -/
def scanUp (p : BitVec 64 → Bool) (d : Words) : (n i : Nat) → Touching (Option Nat)
  | 0, _ => ⟨none, []⟩
  | n + 1, i =>
    if p (d i) then ⟨some i, [i]⟩
    else
      let r := scanUp p d n (i + 1)
      ⟨r.value, i :: r.words⟩

/-- The loops of `bsr()` and `usr()` over the words below word `n`, down to word 0. -/
def scanDown (p : BitVec 64 → Bool) (d : Words) : (n : Nat) → Touching (Option Nat)
  | 0 => ⟨none, []⟩
  | i + 1 =>
    if p (d i) then ⟨some i, [i]⟩
    else
      let r := scanDown p d i
      ⟨r.value, i :: r.words⟩

/-- `bsf()`, with the words it reads. -/
def touchBsf (b : Bitset) : Touching (Option Nat) :=
  let r := scanUp (· != 0#64) b.data (b.size / 64) 0
  ⟨r.value.map fun i => lowestOne (b.data i) + i * 64, r.words⟩

/-- `bsr()`, with the words it reads: from the word at `size / 64` on. -/
def touchBsr (b : Bitset) : Touching (Option Nat) :=
  let r := scanDown (· != 0#64) b.data (b.size / 64 + 1)
  ⟨r.value.map fun i => highestOne (b.data i) + i * 64, r.words⟩

/-- `usr()`, with the words it reads: from the word before the one at `size / 64` on. -/
def touchUsr (b : Bitset) : Touching (Option Nat) :=
  let r := scanDown (· != BitVec.allOnes 64) b.data (b.size / 64)
  ⟨r.value.map fun i => highestZero (b.data i) + i * 64, r.words⟩

/-- The index is that of the first bit that is `v`, and missing when there is none. -/
def Least (b : Bitset) (v : Bool) : Option Nat → Prop
  | some k => k < b.size ∧ b.bit k = v ∧ ∀ j < k, b.bit j ≠ v
  | none => ∀ j < b.size, b.bit j ≠ v

/-- The index is that of the last bit that is `v`, and missing when there is none. -/
def Greatest (b : Bitset) (v : Bool) : Option Nat → Prop
  | some k => k < b.size ∧ b.bit k = v ∧ ∀ j, k < j → j < b.size → b.bit j ≠ v
  | none => ∀ j < b.size, b.bit j ≠ v

/-- The words touched are among those that hold the bits of the bitset. -/
def Inside (b : Bitset) {α : Type} (r : Touching α) : Prop := ∀ j ∈ r.words, j < (b.size + 63) / 64

/-! ### Ranges -/

variable {v : Bool} {b b' : Bitset} {i len : Nat}

theorem Wrote.eq {s : Nat → Prop} {b₁ b₂ : Bitset} (h₁ : Wrote v s b b₁) (h₂ : Wrote v s b b₂) :
    b₁ = b₂ := by
  have hdata : b₁.data = b₂.data := Words.ext_bit fun k => by
    by_cases hk : s k
    · exact (h₁.inside k hk).trans (h₂.inside k hk).symm
    · exact (h₁.outside k hk).trans (h₂.outside k hk).symm
  obtain ⟨d₁, n₁⟩ := b₁
  obtain ⟨d₂, n₂⟩ := b₂
  have hsize : n₁ = n₂ := h₁.size.trans h₂.size.symm
  rw [show d₁ = d₂ from hdata, hsize]

theorem writeEach_spec (hle : i + len ≤ b.size) :
    ∃ b', b.writeEach v i len = .ok b' ∧ Wrote v (fun k => i ≤ k ∧ k < i + len) b b' := by
  induction len generalizing i b with
  | zero => exact ⟨b, rfl, rfl, fun k hk => by omega, fun k _ => rfl⟩
  | succ len ih =>
    obtain ⟨b₁, hb₁⟩ := write_of_lt (v := v) (show i < b.size by omega)
    obtain ⟨-, hw⟩ := write_spec hb₁
    obtain ⟨b₂, hb₂, hw₂⟩ := ih (b := b₁) (i := i + 1) (by rw [hw.size]; omega)
    refine ⟨b₂, ?_, hw₂.size.trans hw.size, fun k hk => ?_, fun k hk => ?_⟩
    · rw [writeEach, List.range'_succ, List.foldlM_cons, hb₁]
      exact hb₂
    · by_cases hk' : k = i
      · rw [hw₂.outside k (by omega), hw.inside k hk']
      · exact hw₂.inside k (by omega)
    · rw [hw₂.outside k (by omega), hw.outside k (by omega)]

theorem fillRounds_eq {n : Nat} {d : Words} (hi : i % 64 = 0) (hlt : i + 64 * n < 2 ^ 64) :
    fillRounds v n i d = ⟨Words.fillWords v n i d, List.range' (i / 64) n⟩ := by
  induction n generalizing i d with
  | zero => rfl
  | succ n ih =>
    rw [fillRounds, u64_of_lt (by omega), ih (by omega) (by omega), List.range'_succ,
      show (i + 64) / 64 = i / 64 + 1 by omega]
    rfl

/-- The words of a loop of two rounds or more. -/
theorem mem_fillRounds {n : Nat} {d : Words} : u64 (i + 64) / 64 ∈ (fillRounds v (n + 2) i d).words := by
  rw [fillRounds, fillRounds]
  exact List.mem_cons_of_mem _ List.mem_cons_self

theorem touchRange_inside (hi : i % 64 ≠ 0) (hlen : len ≤ 64 - i % 64) :
    b.touchRange v i len = (b.writeRange v i len).map fun b' => ⟨b', [i / 64]⟩ := by
  unfold touchRange writeRange
  cases hassert : assert (u64 (i + len) ≤ b.size) with
  | error e => rfl
  | ok u =>
    simp only [ok_bind]
    rw [if_pos ⟨hi, hlen⟩, if_pos ⟨hi, hlen⟩]
    rfl

theorem touchRange_across (hi : i % 64 ≠ 0) (hlen : ¬len ≤ 64 - i % 64) (hlt : i + len < 2 ^ 64) :
    b.touchRange v i len = (b.writeRange v i len).map fun b' => ⟨b', i / 64 ::
      (List.range' (i / 64 + 1) ((len - (64 - i % 64)) / 64) ++ [(i + len) / 64])⟩ := by
  unfold touchRange writeRange
  cases hassert : assert (u64 (i + len) ≤ b.size) with
  | error e => rfl
  | ok u =>
    have halign : alignup i 64 = i + (64 - i % 64) := by
      unfold alignup
      omega
    have hsub : u64 (len + 2 ^ 64 - (64 - i % 64)) = len - (64 - i % 64) := by
      unfold u64
      omega
    have hacross : ¬(i % 64 ≠ 0 ∧ len ≤ 64 - i % 64) := fun h => hlen h.2
    simp only [ok_bind]
    rw [if_neg hacross, if_neg hacross, if_pos hi, if_pos hi, hsub, halign,
      u64_of_lt (n := i + (64 - i % 64)) (by omega), fillRounds_eq (by omega) (by omega),
      u64_of_lt (n := i + (64 - i % 64) + _) (by omega),
      show (i + (64 - i % 64)) / 64 = i / 64 + 1 by omega,
      show (i + (64 - i % 64) + (len - (64 - i % 64)) / 64 * 64) / 64 = (i + len) / 64 by omega]
    rfl

theorem touchRange_aligned (hi : i % 64 = 0) (hlen : 64 ≤ len) (hlt : i + len < 2 ^ 64) :
    b.touchRange v i len = (b.writeRange v i len).map fun b' =>
      ⟨b', List.range' (i / 64) ((len - 64) / 64) ++ [(i + (len - 64)) / 64]⟩ := by
  unfold touchRange writeRange
  cases hassert : assert (u64 (i + len) ≤ b.size) with
  | error e => rfl
  | ok u =>
    have halign : alignup i 64 = i := by
      unfold alignup
      omega
    have hsub : u64 (len + 2 ^ 64 - (64 - i % 64)) = len - 64 := by
      unfold u64
      omega
    have hmod : ¬i % 64 ≠ 0 := fun h => h hi
    have hstart : ¬(i % 64 ≠ 0 ∧ len ≤ 64 - i % 64) := fun h => h.1 hi
    simp only [ok_bind]
    rw [if_neg hstart, if_neg hstart, if_neg hmod, if_neg hmod, hsub, halign, u64_of_lt (n := i) (by omega), fillRounds_eq hi (by omega),
      u64_of_lt (n := i + _) (by omega),
      show (i + (len - 64) / 64 * 64) / 64 = (i + (len - 64)) / 64 by omega]
    rfl

/-- From the first bit of a word on, fewer than 64 bits are taken for a range of nearly all words. -/
theorem touchRange_short (hi : i % 64 = 0) (hlen : len < 64) (hle : i + len ≤ b.size)
    (hsize : b.size < 2 ^ 64) :
    ∃ r, b.touchRange v i len = .ok r ∧ u64 (i + 64) / 64 ∈ r.words := by
  have hsum : u64 (i + len) = i + len := u64_of_lt (by omega)
  have halign : alignup i 64 = i := by
    unfold alignup
    omega
  obtain ⟨n, hn⟩ : ∃ n, u64 (len + 2 ^ 64 - (64 - i % 64)) / 64 = n + 2 :=
    ⟨u64 (len + 2 ^ 64 - (64 - i % 64)) / 64 - 2, by unfold u64; omega⟩
  unfold touchRange
  simp only [hsum, hle, decide_true, assert_true, ok_bind, pure, Except.pure]
  rw [if_neg (fun h => h.1 hi), if_neg (fun h => h hi), halign, u64_of_lt (n := i) (by omega), hn]
  exact ⟨_, rfl, List.mem_append_left _ (List.mem_append_right _ mem_fillRounds)⟩

theorem rangeRight_inside (hi : i % 64 ≠ 0) (hlen : len ≤ 64 - i % 64) (hle : i + len ≤ b.size)
    (hsize : b.size < 2 ^ 64) : b.RangeRight v i len ↔ 0 < len := by
  obtain ⟨b', hb', hw⟩ := writeRange_of_not_aligned (v := v) hi hle hsize
  obtain ⟨b'', heach, hw'⟩ := writeEach_spec (v := v) hle
  have hr : b.touchRange v i len = .ok ⟨b', [i / 64]⟩ := by
    rw [touchRange_inside hi hlen, hb']
    rfl
  constructor
  · rintro ⟨r, hr', -, hwords⟩
    obtain rfl := Except.ok.inj (hr.symm.trans hr')
    obtain ⟨k, hk, hlt, -⟩ := hwords (i / 64) List.mem_cons_self
    omega
  · intro hpos
    refine ⟨_, hr, heach.trans (congrArg _ (hw'.eq hw)), fun j hj => ?_⟩
    obtain rfl := List.mem_singleton.mp hj
    exact ⟨i, le_rfl, by omega, rfl⟩

theorem rangeRight_across (hi : i % 64 ≠ 0) (hlen : ¬len ≤ 64 - i % 64) (hle : i + len ≤ b.size)
    (hsize : b.size < 2 ^ 64) : b.RangeRight v i len ↔ (i + len) % 64 ≠ 0 := by
  obtain ⟨b', hb', hw⟩ := writeRange_of_not_aligned (v := v) hi hle hsize
  obtain ⟨b'', heach, hw'⟩ := writeEach_spec (v := v) hle
  have hr := touchRange_across (b := b) (v := v) hi hlen (by omega)
  rw [hb'] at hr
  constructor
  · rintro ⟨r, hr', -, hwords⟩
    obtain rfl := Except.ok.inj (hr.symm.trans hr')
    -- the word after the range, of which no bit is written
    obtain ⟨k, hk, hlt, hlast⟩ := hwords ((i + len) / 64)
      (List.mem_cons_of_mem _ (List.mem_append_right _ List.mem_cons_self))
    omega
  · intro hend
    refine ⟨_, hr, heach.trans (congrArg _ (hw'.eq hw)), fun j hj => ?_⟩
    rw [List.mem_cons, List.mem_append, List.mem_range'_1, List.mem_singleton] at hj
    obtain rfl | ⟨hj, hlt⟩ | rfl := hj
    · exact ⟨i, le_rfl, by omega, rfl⟩
    · exact ⟨64 * j, by omega, by omega, by omega⟩
    · exact ⟨i + len - 1, by omega, by omega, by omega⟩

theorem rangeRight_aligned (hi : i % 64 = 0) (hlen : 64 ≤ len) (hle : i + len ≤ b.size)
    (hsize : b.size < 2 ^ 64) :
    b.RangeRight v i len ↔ ∀ k, i + len - 64 ≤ k → k < i + len → b.bit k = v := by
  obtain ⟨b', hb', hw⟩ := writeRange_of_aligned (v := v) hi hlen hle hsize
  obtain ⟨b'', heach, hw'⟩ := writeEach_spec (v := v) hle
  have hr := touchRange_aligned (b := b) (v := v) hi hlen (by omega)
  rw [hb'] at hr
  constructor
  · rintro ⟨r, hr', heach', -⟩ k hk hlt
    obtain rfl := Except.ok.inj (hr.symm.trans hr')
    obtain rfl : b'' = b' := Except.ok.inj (heach.symm.trans heach')
    rw [← hw.outside k (by omega)]
    exact hw'.inside k (by omega)
  · intro hv
    have hwhole : Wrote v (fun k => i ≤ k ∧ k < i + len) b b' := by
      refine ⟨hw.size, fun k hk => ?_, fun k hk => hw.outside k (by omega)⟩
      by_cases hlt : k < i + (len - 64)
      · exact hw.inside k (by omega)
      · rw [hw.outside k (by omega)]
        exact hv k (by omega) (by omega)
    refine ⟨_, hr, heach.trans (congrArg _ (hw'.eq hwhole)), fun j hj => ?_⟩
    rw [List.mem_append, List.mem_range'_1, List.mem_singleton] at hj
    obtain ⟨hj, hlt⟩ | rfl := hj
    · exact ⟨64 * j, by omega, by omega, by omega⟩
    · exact ⟨i + (len - 64), by omega, by omega, rfl⟩

theorem not_rangeRight_short (hi : i % 64 = 0) (hlen : len < 64) (hle : i + len ≤ b.size)
    (hsize : b.size < 2 ^ 64) : ¬b.RangeRight v i len := by
  rintro ⟨r, hr, -, hwords⟩
  obtain ⟨r', hr', hmem⟩ := touchRange_short (v := v) hi hlen hle hsize
  obtain rfl := Except.ok.inj (hr.symm.trans hr')
  obtain ⟨k, hk, hlt, hword⟩ := hwords _ hmem
  unfold u64 at hword
  omega

/-- When `set(i, len)` and `unset(i, len)` do what they are for. -/
theorem rangeRight_iff (v : Bool) (b : Bitset) (i len : Nat) (hle : i + len ≤ b.size)
    (hsize : b.size < 2 ^ 64) : b.RangeRight v i len ↔ b.RangeFits v i len := by
  unfold RangeFits
  by_cases hi : i % 64 = 0
  · by_cases hlen : 64 ≤ len
    · rw [rangeRight_aligned hi hlen hle hsize]
      exact ⟨fun h => .inr ⟨hi, hlen, h⟩, fun h => by
        rcases h with h | h
        · exact absurd hi h.1
        · exact h.2.2⟩
    · refine iff_of_false (not_rangeRight_short hi (by omega) hle hsize) fun h => ?_
      rcases h with h | h
      · exact h.1 hi
      · exact hlen h.2.1
  · by_cases hlen : len ≤ 64 - i % 64
    · rw [rangeRight_inside hi hlen hle hsize]
      omega
    · rw [rangeRight_across hi hlen hle hsize]
      omega

theorem rangeRight_third_bit : (Bitset.mk (fun _ => 0) 256).RangeRight true 3 130 :=
  (rangeRight_iff true ⟨fun _ => 0, 256⟩ 3 130 (by decide) (by decide)).mpr (.inl (by decide))

/-- Setting the 64 bits of the first word sets none. -/
theorem range_leaves_out : ¬(Bitset.mk (fun _ => 0) 64).RangeRight true 0 64 := by
  rintro ⟨r, hr, heach, -⟩
  obtain ⟨b', hb', hw⟩ := writeEach_spec (v := true)
    (show 0 + 64 ≤ (Bitset.mk (fun _ => 0) 64).size from le_rfl)
  obtain rfl := Except.ok.inj (hb'.symm.trans heach)
  have hset : r.value.bit 0 = true := hw.inside 0 (by decide)
  have hr' : r.value = _ := congrArg Touching.value (Except.ok.inj (hr.symm.trans rfl))
  rw [hr'] at hset
  exact absurd hset (by decide)

/-! ### Searches -/

variable {p : BitVec 64 → Bool} {d : Words} {n : Nat}

theorem scanUp_value : (scanUp p d n i).value = firstIndex (fun j => p (d j)) n i := by
  induction n generalizing i with
  | zero => rfl
  | succ n ih =>
    rw [scanUp, firstIndex]
    by_cases hp : p (d i) = true
    · rw [if_pos hp, if_pos hp]
    · rw [if_neg hp, if_neg hp]
      exact ih

theorem scanUp_words {j : Nat} (hj : j ∈ (scanUp p d n i).words) : j < i + n := by
  induction n generalizing i with
  | zero => cases hj
  | succ n ih =>
    rw [scanUp] at hj
    by_cases hp : p (d i) = true
    · rw [if_pos hp, List.mem_singleton] at hj
      omega
    · rw [if_neg hp, List.mem_cons] at hj
      rcases hj with rfl | hj
      · omega
      · have := ih hj
        omega

theorem scanDown_value : (scanDown p d n).value = lastIndex (fun j => p (d j)) n := by
  induction n with
  | zero => rfl
  | succ n ih =>
    rw [scanDown, lastIndex]
    by_cases hp : p (d n) = true
    · rw [if_pos hp, if_pos hp]
    · rw [if_neg hp, if_neg hp]
      exact ih

theorem scanDown_words {j : Nat} (hj : j ∈ (scanDown p d n).words) : j < n := by
  induction n with
  | zero => cases hj
  | succ n ih =>
    rw [scanDown] at hj
    by_cases hp : p (d n) = true
    · rw [if_pos hp, List.mem_singleton] at hj
      omega
    · rw [if_neg hp, List.mem_cons] at hj
      rcases hj with rfl | hj
      · omega
      · have := ih hj
        omega

/-- The loop downwards reads the last word. -/
theorem mem_scanDown : n ∈ (scanDown p d (n + 1)).words := by
  rw [scanDown]
  by_cases hp : p (d n) = true
  · rw [if_pos hp]
    exact List.mem_cons_self
  · rw [if_neg hp]
    exact List.mem_cons_self

theorem touchBsf_value : b.touchBsf.value = b.bsf := congrArg (Option.map _) scanUp_value

theorem touchBsr_value : b.touchBsr.value = b.data.lastOne (b.size / 64 + 1) :=
  congrArg (Option.map _) scanDown_value

theorem touchUsr_value : b.touchUsr.value = b.usr := congrArg (Option.map _) scanDown_value

/-- `bsf` finds the first set bit except when it is in a last word that is not whole. -/
theorem bsf_iff : (b.Least true b.touchBsf.value ∧ b.Inside b.touchBsf) ↔
    (∃ k < b.size / 64 * 64, b.bit k = true) ∨
      ∀ k, b.size / 64 * 64 ≤ k → k < b.size → b.bit k = false := by
  have hinside : b.Inside b.touchBsf := fun j hj => by
    have hlt := scanUp_words hj
    omega
  rw [touchBsf_value, and_iff_left hinside, bsf]
  cases h : b.data.firstOne (b.size / 64) with
  | some k =>
    obtain ⟨hlt, hbit, hmin⟩ := Words.firstOne_some h
    refine iff_of_true ⟨by omega, hbit, fun j hj => ?_⟩ (.inl ⟨k, by omega, hbit⟩)
    rw [bit, hmin j hj]
    exact Bool.false_ne_true
  | none =>
    have hnone := Words.firstOne_none h
    constructor
    · exact fun hall => .inr fun k _ hk => by simpa using hall k hk
    · rintro (⟨k, hk, hbit⟩ | hall) j hj
      · exact absurd ((hnone k (by omega)).symm.trans hbit) Bool.false_ne_true
      · by_cases hlt : j < b.size / 64 * 64
        · rw [bit, hnone j (by omega)]
          exact Bool.false_ne_true
        · rw [hall j (by omega) hj]
          exact Bool.false_ne_true

/-- `bsr` finds the last set bit exactly when the last word is not whole and has no set bit from the size
on. -/
theorem bsr_iff : (b.Greatest true b.touchBsr.value ∧ b.Inside b.touchBsr) ↔
    b.size % 64 ≠ 0 ∧ ∀ k, b.size ≤ k → k < (b.size / 64 + 1) * 64 → b.bit k = false := by
  rw [touchBsr_value]
  constructor
  · rintro ⟨hgreatest, hinside⟩
    have hread := hinside _ mem_scanDown
    refine ⟨by omega, fun k hk hlt => ?_⟩
    by_contra hbit
    have hset : b.data.bit k = true := eq_true_of_ne_false hbit
    cases h : b.data.lastOne (b.size / 64 + 1) with
    | some j =>
      obtain ⟨-, -, hmax⟩ := Words.lastOne_some h
      rw [h] at hgreatest
      have hj := hgreatest.1
      exact absurd ((hmax k (by omega) (by omega)).symm.trans hset) Bool.false_ne_true
    | none => exact absurd ((Words.lastOne_none h k (by omega)).symm.trans hset) Bool.false_ne_true
  · rintro ⟨hpart, hclear⟩
    refine ⟨?_, fun j hj => ?_⟩
    · cases h : b.data.lastOne (b.size / 64 + 1) with
      | some k =>
        obtain ⟨hlt, hbit, hmax⟩ := Words.lastOne_some h
        refine ⟨?_, hbit, fun j hj hjs => ?_⟩
        · by_contra hle
          exact absurd ((hclear k (by omega) (by omega)).symm.trans hbit) Bool.false_ne_true
        · rw [bit, hmax j hj (by omega)]
          exact Bool.false_ne_true
      | none =>
        intro j hj
        rw [bit, Words.lastOne_none h j (by omega)]
        exact Bool.false_ne_true
    · have hlt := scanDown_words hj
      omega

/-- `usr` finds the last clear bit except when one is in a last word that is not whole. -/
theorem usr_iff : (b.Greatest false b.touchUsr.value ∧ b.Inside b.touchUsr) ↔
    ∀ k, b.size / 64 * 64 ≤ k → k < b.size → b.bit k = true := by
  have hinside : b.Inside b.touchUsr := fun j hj => by
    have hlt := scanDown_words hj
    omega
  rw [touchUsr_value, and_iff_left hinside, usr]
  cases h : b.data.lastZero (b.size / 64) with
  | some k =>
    obtain ⟨hlt, hbit, hmax⟩ := Words.lastZero_some h
    constructor
    · exact fun hgreatest j hj hjs => by simpa using hgreatest.2.2 j (by omega) hjs
    · refine fun hall => ⟨by omega, hbit, fun j hj hjs => ?_⟩
      by_cases hjw : j < b.size / 64 * 64
      · rw [bit, hmax j hj (by omega)]
        exact fun h => by cases h
      · rw [hall j (by omega) hjs]
        exact fun h => by cases h
  | none =>
    have hnone := Words.lastZero_none h
    constructor
    · exact fun hgreatest j hj hjs => by simpa using hgreatest j hjs
    · intro hall j hj
      by_cases hjw : j < b.size / 64 * 64
      · rw [bit, hnone j (by omega)]
        exact fun h => by cases h
      · rw [hall j (by omega) hj]
        exact fun h => by cases h

/-- When each of the searches is right and reads the words of the bitset only. -/
theorem searches_iff (b : Bitset) :
    ((b.Least true b.touchBsf.value ∧ b.Inside b.touchBsf) ↔
      (∃ k < b.size / 64 * 64, b.bit k = true) ∨
        ∀ k, b.size / 64 * 64 ≤ k → k < b.size → b.bit k = false) ∧
    ((b.Greatest true b.touchBsr.value ∧ b.Inside b.touchBsr) ↔
      b.size % 64 ≠ 0 ∧ ∀ k, b.size ≤ k → k < (b.size / 64 + 1) * 64 → b.bit k = false) ∧
    ((b.Greatest false b.touchUsr.value ∧ b.Inside b.touchUsr) ↔
      ∀ k, b.size / 64 * 64 ≤ k → k < b.size → b.bit k = true) :=
  ⟨bsf_iff, bsr_iff, usr_iff⟩

/-- Bit 3 of 8 is the only one that is set: `bsf` answers that there is none. -/
theorem bsf_misses : ¬(Bitset.mk (fun _ => 8#64) 8).Least true
    (Bitset.mk (fun _ => 8#64) 8).touchBsf.value := fun h => h 3 (by decide) (by decide)

end Bitset

end SupOS
