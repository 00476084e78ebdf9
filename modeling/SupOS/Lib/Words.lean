import SupOS.Lib.Bits
import Mathlib.Logic.Function.Basic

/-! Bitmaps in memory seen as 64-bit words: reading a bit, writing the bits of a mask, filling whole
words, and the searches for the lowest set bit and for the highest clear bit. -/

namespace Lib

/-- The greatest index below `n` that satisfies `p`. -/
def lastIndex (p : Nat → Bool) : Nat → Option Nat
  | 0 => none
  | n + 1 => if p n then some n else lastIndex p n

theorem lastIndex_some {p : Nat → Bool} {n k : Nat} (h : lastIndex p n = some k) :
    k < n ∧ p k = true ∧ ∀ j, k < j → j < n → p j = false := by
  induction n with
  | zero => exact nomatch h
  | succ n ih =>
    rw [lastIndex] at h
    by_cases hp : p n = true
    · rw [if_pos hp, Option.some.injEq] at h
      subst h
      exact ⟨by omega, hp, fun j _ _ => by omega⟩
    · rw [if_neg hp] at h
      obtain ⟨hlt, hk, hmax⟩ := ih h
      refine ⟨by omega, hk, fun j hj hjn => ?_⟩
      by_cases hjn' : j = n
      · rw [hjn']
        simpa using hp
      · exact hmax j hj (by omega)

theorem lastIndex_none {p : Nat → Bool} {n : Nat} (h : lastIndex p n = none) :
    ∀ j < n, p j = false := by
  induction n with
  | zero => intro j hj; omega
  | succ n ih =>
    rw [lastIndex] at h
    by_cases hp : p n = true
    · rw [if_pos hp] at h
      exact nomatch h
    · rw [if_neg hp] at h
      intro j hj
      by_cases hjn : j = n
      · rw [hjn]
        simpa using hp
      · exact ih h j (by omega)

/-! ### Masks -/

/-- The word whose only set bit is `pos`. -/
def oneBit (pos : Nat) : BitVec 64 := 1#64 <<< pos

/-- The word whose `n` lowest bits are set. -/
def lowBits (n : Nat) : BitVec 64 := (1#64 <<< n) - 1#64

/-- The word `w` with the bits of `mask` set when `v` is true, and cleared when it is false. -/
def putBits (v : Bool) (mask w : BitVec 64) : BitVec 64 := if v then w ||| mask else w &&& ~~~mask

theorem getLsbD_oneBit {pos j : Nat} (hj : j < 64) : (oneBit pos).getLsbD j = decide (j = pos) := by
  rw [oneBit, BitVec.getLsbD_shiftLeft, BitVec.getLsbD_one]
  simp only [hj, decide_true, Bool.true_and, Nat.zero_lt_succ]
  by_cases h : j < pos
  · simp [h, show j ≠ pos by omega]
  · simp only [h, decide_false, Bool.not_false, Bool.true_and]
    exact decide_eq_decide.mpr (by omega)

theorem toNat_lowBits {n : Nat} (hn : n < 64) : (lowBits n).toNat = 2 ^ n - 1 := by
  have hlt : 2 ^ n < 2 ^ 64 := Nat.pow_lt_pow_right (by decide) hn
  have hpos : 0 < 2 ^ n := Nat.two_pow_pos n
  have hone : (1#64 <<< n).toNat = 2 ^ n := by
    rw [BitVec.toNat_shiftLeft, Nat.shiftLeft_eq, show (1#64).toNat = 1 from rfl, Nat.one_mul,
      Nat.mod_eq_of_lt hlt]
  rw [lowBits, BitVec.toNat_sub, hone, BitVec.toNat_ofNat]
  omega

theorem getLsbD_lowBits {n j : Nat} (hn : n < 64) : (lowBits n).getLsbD j = decide (j < n) := by
  rw [← BitVec.testBit_toNat, toNat_lowBits hn, Nat.testBit_two_pow_sub_one]

@[simp] theorem lowBits_zero : lowBits 0 = 0#64 := rfl

theorem getLsbD_putBits (v : Bool) (mask w : BitVec 64) {j : Nat} (hj : j < 64) :
    (putBits v mask w).getLsbD j = if mask.getLsbD j then v else w.getLsbD j := by
  cases v with
  | false =>
    rw [putBits, if_neg Bool.false_ne_true, BitVec.getLsbD_and, BitVec.getLsbD_not]
    cases mask.getLsbD j <;> simp [hj]
  | true =>
    rw [putBits, if_pos rfl, BitVec.getLsbD_or]
    cases mask.getLsbD j <;> simp

/-- The position of the lowest set bit of a word, 64 when there is none. -/
def lowestOne (w : BitVec 64) : Nat := (firstIndex (fun j => w.getLsbD j) 64 0).getD 64

/-- The position of the highest clear bit of a word, 0 when there is none. -/
def highestZero (w : BitVec 64) : Nat := (lastIndex (fun j => !w.getLsbD j) 64).getD 0

/-- The position of the highest set bit of a word, 0 when there is none. -/
def highestOne (w : BitVec 64) : Nat := (lastIndex (fun j => w.getLsbD j) 64).getD 0

theorem lowestOne_spec {w : BitVec 64} (h : w ≠ 0#64) :
    lowestOne w < 64 ∧ w.getLsbD (lowestOne w) = true ∧
      ∀ j < lowestOne w, w.getLsbD j = false := by
  cases hf : firstIndex (fun j => w.getLsbD j) 64 0 with
  | some k =>
    obtain ⟨-, hlt, hk, hmin⟩ := firstIndex_some hf
    simp only [lowestOne, hf, Option.getD_some]
    exact ⟨by omega, hk, fun j hj => hmin j (Nat.zero_le j) hj⟩
  | none =>
    refine absurd (BitVec.eq_of_getLsbD_eq fun j hj => ?_) h
    rw [BitVec.getLsbD_zero]
    exact firstIndex_none hf j (Nat.zero_le j) (by omega)

theorem highestZero_spec {w : BitVec 64} (h : w ≠ BitVec.allOnes 64) :
    highestZero w < 64 ∧ w.getLsbD (highestZero w) = false ∧
      ∀ j, highestZero w < j → j < 64 → w.getLsbD j = true := by
  cases hf : lastIndex (fun j => !w.getLsbD j) 64 with
  | some k =>
    obtain ⟨hlt, hk, hmax⟩ := lastIndex_some hf
    simp only [highestZero, hf, Option.getD_some]
    exact ⟨hlt, by simpa using hk, fun j hj hlt => by simpa using hmax j hj hlt⟩
  | none =>
    refine absurd (BitVec.eq_of_getLsbD_eq fun j hj => ?_) h
    rw [BitVec.getLsbD_allOnes]
    simpa [hj] using lastIndex_none hf j hj

theorem highestOne_spec {w : BitVec 64} (h : w ≠ 0#64) :
    highestOne w < 64 ∧ w.getLsbD (highestOne w) = true ∧
      ∀ j, highestOne w < j → j < 64 → w.getLsbD j = false := by
  cases hf : lastIndex (fun j => w.getLsbD j) 64 with
  | some k =>
    obtain ⟨hlt, hk, hmax⟩ := lastIndex_some hf
    simp only [highestOne, hf, Option.getD_some]
    exact ⟨hlt, hk, hmax⟩
  | none =>
    refine absurd (BitVec.eq_of_getLsbD_eq fun j hj => ?_) h
    rw [BitVec.getLsbD_zero]
    exact lastIndex_none hf j hj

/-! ### Bitmaps -/

/-- Memory as a sequence of 64-bit words. -/
abbrev Words := Nat → BitVec 64

namespace Words

/-- Bit `i` of a bitmap. -/
def bit (d : Words) (i : Nat) : Bool := (d (i / 64)).getLsbD (i % 64)

/-- The bits of `mask` in word `j` set when `v` is true, and cleared when it is false. -/
def put (v : Bool) (d : Words) (j : Nat) (mask : BitVec 64) : Words :=
  Function.update d j (putBits v mask (d j))

/-- The `n` words from the one that holds bit `i` filled with ones when `v` is true, and with zeros
when it is false. -/
def fillWords (v : Bool) : (n i : Nat) → Words → Words
  | 0, _, d => d
  | n + 1, i, d =>
    fillWords v n (i + 64) (Function.update d (i / 64) (if v then BitVec.allOnes 64 else 0#64))

theorem bit_put (v : Bool) (d : Words) (j : Nat) (mask : BitVec 64) (i : Nat) :
    (d.put v j mask).bit i = if i / 64 = j ∧ mask.getLsbD (i % 64) then v else d.bit i := by
  simp only [put, bit]
  by_cases hj : i / 64 = j
  · subst hj
    rw [Function.update_self, getLsbD_putBits _ _ _ (Nat.mod_lt _ (by decide))]
    simp
  · rw [Function.update_of_ne hj, if_neg (fun h => hj h.1)]

theorem bit_put_oneBit (v : Bool) (d : Words) (k i : Nat) :
    (d.put v (k / 64) (oneBit (k % 64))).bit i = if i = k then v else d.bit i := by
  rw [bit_put, getLsbD_oneBit (Nat.mod_lt _ (by decide))]
  refine if_congr ?_ rfl rfl
  rw [decide_eq_true_eq]
  omega

theorem bit_fillWords (v : Bool) (n i : Nat) (hi : i % 64 = 0) (d : Words) (k : Nat) :
    (fillWords v n i d).bit k = if i ≤ k ∧ k < i + 64 * n then v else d.bit k := by
  induction n generalizing i d with
  | zero => rw [fillWords, if_neg (by omega)]
  | succ n ih =>
    rw [fillWords, ih (i + 64) (by omega)]
    by_cases hk : i + 64 ≤ k ∧ k < i + 64 + 64 * n
    · rw [if_pos hk, if_pos (by omega)]
    · rw [if_neg hk]
      simp only [bit]
      by_cases hw : k / 64 = i / 64
      · rw [hw, Function.update_self, if_pos (by omega : i ≤ k ∧ k < i + 64 * (n + 1))]
        have hlt : k % 64 < 64 := Nat.mod_lt _ (by decide)
        cases v with
        | false => rw [if_neg Bool.false_ne_true, BitVec.getLsbD_zero]
        | true => rw [if_pos rfl, BitVec.getLsbD_allOnes, decide_eq_true hlt]
      · rw [Function.update_of_ne hw, if_neg (by omega)]

/-- The first `n` bytes filled with ones when `v` is true, and with zeros when it is false. -/
def fillBytes (v : Bool) (n : Nat) (d : Words) : Words := fun j =>
  if 8 * (j + 1) ≤ n then (if v then BitVec.allOnes 64 else 0#64)
  else putBits v (lowBits (8 * (n - 8 * j))) (d j)

theorem bit_fillBytes (v : Bool) (n : Nat) (d : Words) (k : Nat) :
    (fillBytes v n d).bit k = if k < 8 * n then v else d.bit k := by
  have hlt : k % 64 < 64 := Nat.mod_lt _ (by decide)
  simp only [bit, fillBytes]
  by_cases hw : 8 * (k / 64 + 1) ≤ n
  · rw [if_pos hw, if_pos (by omega : k < 8 * n)]
    cases v with
    | false => rw [if_neg Bool.false_ne_true, BitVec.getLsbD_zero]
    | true => rw [if_pos rfl, BitVec.getLsbD_allOnes, decide_eq_true hlt]
  · rw [if_neg hw, getLsbD_putBits _ _ _ hlt, getLsbD_lowBits (by omega)]
    refine if_congr ?_ rfl rfl
    rw [decide_eq_true_eq]
    omega

/-- The lowest set bit in the first `n` words. -/
def firstOne (d : Words) (n : Nat) : Option Nat :=
  (firstIndex (fun j => d j != 0#64) n 0).map fun j => lowestOne (d j) + j * 64

/-- The highest clear bit in the first `n` words. -/
def lastZero (d : Words) (n : Nat) : Option Nat :=
  (lastIndex (fun j => d j != BitVec.allOnes 64) n).map fun j => highestZero (d j) + j * 64

/-- The highest set bit in the first `n` words. -/
def lastOne (d : Words) (n : Nat) : Option Nat :=
  (lastIndex (fun j => d j != 0#64) n).map fun j => highestOne (d j) + j * 64

theorem firstOne_some {d : Words} {n k : Nat} (h : d.firstOne n = some k) :
    k < 64 * n ∧ d.bit k = true ∧ ∀ i < k, d.bit i = false := by
  rw [firstOne, Option.map_eq_some_iff] at h
  obtain ⟨j, hj, rfl⟩ := h
  obtain ⟨-, hlt, hne, hmin⟩ := firstIndex_some hj
  obtain ⟨hpos, hbit, hlow⟩ := lowestOne_spec (w := d j) (by simpa using hne)
  refine ⟨by omega, ?_, fun i hi => ?_⟩
  · rw [bit, show (lowestOne (d j) + j * 64) / 64 = j by omega,
      show (lowestOne (d j) + j * 64) % 64 = lowestOne (d j) by omega]
    exact hbit
  · rw [bit]
    by_cases hij : i / 64 = j
    · rw [hij]
      exact hlow _ (by omega)
    · have hz : d (i / 64) = 0#64 := by simpa using hmin (i / 64) (Nat.zero_le _) (by omega)
      rw [hz, BitVec.getLsbD_zero]

theorem firstOne_none {d : Words} {n : Nat} (h : d.firstOne n = none) :
    ∀ i < 64 * n, d.bit i = false := by
  intro i hi
  rw [firstOne, Option.map_eq_none_iff] at h
  have hz : d (i / 64) = 0#64 := by
    simpa using firstIndex_none h (i / 64) (Nat.zero_le _) (by omega)
  rw [bit, hz, BitVec.getLsbD_zero]

theorem lastZero_some {d : Words} {n k : Nat} (h : d.lastZero n = some k) :
    k < 64 * n ∧ d.bit k = false ∧ ∀ i, k < i → i < 64 * n → d.bit i = true := by
  rw [lastZero, Option.map_eq_some_iff] at h
  obtain ⟨j, hj, rfl⟩ := h
  obtain ⟨hlt, hne, hmax⟩ := lastIndex_some hj
  obtain ⟨hpos, hbit, hhigh⟩ := highestZero_spec (w := d j) (by simpa using hne)
  refine ⟨by omega, ?_, fun i hi hin => ?_⟩
  · rw [bit, show (highestZero (d j) + j * 64) / 64 = j by omega,
      show (highestZero (d j) + j * 64) % 64 = highestZero (d j) by omega]
    exact hbit
  · rw [bit]
    by_cases hij : i / 64 = j
    · rw [hij]
      exact hhigh _ (by omega) (Nat.mod_lt _ (by decide))
    · have ho : d (i / 64) = BitVec.allOnes 64 := by
        simpa using hmax (i / 64) (by omega) (by omega)
      rw [ho, BitVec.getLsbD_allOnes]
      exact decide_eq_true (Nat.mod_lt _ (by decide))

theorem lastZero_none {d : Words} {n : Nat} (h : d.lastZero n = none) :
    ∀ i < 64 * n, d.bit i = true := by
  intro i hi
  rw [lastZero, Option.map_eq_none_iff] at h
  have ho : d (i / 64) = BitVec.allOnes 64 := by simpa using lastIndex_none h (i / 64) (by omega)
  rw [bit, ho, BitVec.getLsbD_allOnes]
  exact decide_eq_true (Nat.mod_lt _ (by decide))

theorem lastOne_some {d : Words} {n k : Nat} (h : d.lastOne n = some k) :
    k < 64 * n ∧ d.bit k = true ∧ ∀ i, k < i → i < 64 * n → d.bit i = false := by
  rw [lastOne, Option.map_eq_some_iff] at h
  obtain ⟨j, hj, rfl⟩ := h
  obtain ⟨hlt, hne, hmax⟩ := lastIndex_some hj
  obtain ⟨hpos, hbit, hhigh⟩ := highestOne_spec (w := d j) (by simpa using hne)
  refine ⟨by omega, ?_, fun i hi hin => ?_⟩
  · rw [bit, show (highestOne (d j) + j * 64) / 64 = j by omega,
      show (highestOne (d j) + j * 64) % 64 = highestOne (d j) by omega]
    exact hbit
  · rw [bit]
    by_cases hij : i / 64 = j
    · rw [hij]
      exact hhigh _ (by omega) (Nat.mod_lt _ (by decide))
    · have hz : d (i / 64) = 0#64 := by simpa using hmax (i / 64) (by omega) (by omega)
      rw [hz, BitVec.getLsbD_zero]

theorem lastOne_none {d : Words} {n : Nat} (h : d.lastOne n = none) :
    ∀ i < 64 * n, d.bit i = false := by
  intro i hi
  rw [lastOne, Option.map_eq_none_iff] at h
  have hz : d (i / 64) = 0#64 := by simpa using lastIndex_none h (i / 64) (by omega)
  rw [bit, hz, BitVec.getLsbD_zero]

/-- A bitmap is given by its bits. -/
theorem ext_bit {d d' : Words} (h : ∀ k, d.bit k = d'.bit k) : d = d' := by
  refine funext fun j => BitVec.eq_of_getLsbD_eq fun i hi => ?_
  have hk := h (64 * j + i)
  rwa [bit, bit, show (64 * j + i) / 64 = j by omega, show (64 * j + i) % 64 = i by omega] at hk

end Words

end Lib
