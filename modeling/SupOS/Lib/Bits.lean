import SupOS.Lib.Bytes
import Mathlib.Data.Finset.Card
import Mathlib.Data.Nat.Bitwise

/-! Bitmaps in buffers of bytes: reading, setting and clearing a bit, the search for the first zero
bit, and the number of zero bits. -/

namespace Lib

/-- The least index from `i` to `i + n - 1` that satisfies `p`. -/
def firstIndex (p : Nat → Bool) : (n i : Nat) → Option Nat
  | 0, _ => none
  | n + 1, i => if p i then some i else firstIndex p n (i + 1)

theorem firstIndex_some {p : Nat → Bool} : ∀ {n i k : Nat}, firstIndex p n i = some k →
    i ≤ k ∧ k < i + n ∧ p k = true ∧ ∀ j, i ≤ j → j < k → p j = false
  | 0, _, _, h => nomatch h
  | n + 1, i, k, h => by
    rw [firstIndex] at h
    by_cases hp : p i = true
    · rw [if_pos hp, Option.some.injEq] at h
      subst h
      exact ⟨le_rfl, by omega, hp, fun j _ _ => by omega⟩
    · rw [if_neg hp] at h
      obtain ⟨hle, hlt, hk, hmin⟩ := firstIndex_some h
      refine ⟨by omega, by omega, hk, fun j hj hjk => ?_⟩
      rcases Nat.eq_or_lt_of_le hj with rfl | hj
      · simpa using hp
      · exact hmin j hj hjk

theorem firstIndex_none {p : Nat → Bool} : ∀ {n i : Nat}, firstIndex p n i = none →
    ∀ j, i ≤ j → j < i + n → p j = false
  | 0, _, _, _, _, _ => by omega
  | n + 1, i, h, j, hj, hlt => by
    rw [firstIndex] at h
    by_cases hp : p i = true
    · rw [if_pos hp] at h
      exact nomatch h
    · rw [if_neg hp] at h
      rcases Nat.eq_or_lt_of_le hj with rfl | hj
      · simpa using hp
      · exact firstIndex_none h j hj (by omega)

/-- The byte `b` with bit `pos` set. -/
def setBit (b : UInt8) (pos : Nat) : UInt8 := b ||| UInt8.ofNat (2 ^ pos)

/-- The byte `b` with bit `pos` cleared. -/
def clearBit (b : UInt8) (pos : Nat) : UInt8 := b &&& ~~~UInt8.ofNat (2 ^ pos)

/-- The position of the lowest zero bit of a byte, 8 when there is none. -/
def lowestZero (b : UInt8) : Nat := (firstIndex (fun i => !b.toNat.testBit i) 8 0).getD 8

theorem testBit_ofNat_two_pow {pos i : Nat} (hi : i < 8) :
    (UInt8.ofNat (2 ^ pos)).toNat.testBit i = decide (pos = i) := by
  have h : (UInt8.ofNat (2 ^ pos)).toNat = 2 ^ pos % 2 ^ 8 := by simp
  rw [h, Nat.testBit_mod_two_pow, Nat.testBit_two_pow]
  simp [hi]

theorem testBit_setBit (b : UInt8) {pos i : Nat} (hi : i < 8) :
    (setBit b pos).toNat.testBit i = (b.toNat.testBit i || decide (pos = i)) := by
  rw [setBit, UInt8.toNat_or, Nat.testBit_or, testBit_ofNat_two_pow hi]

theorem testBit_not (b : UInt8) {i : Nat} (hi : i < 8) :
    (~~~b).toNat.testBit i = !b.toNat.testBit i := by
  have h : (~~~b).toNat = 2 ^ 8 - (b.toNat + 1) := by
    rw [UInt8.toNat_not]
    simp only [UInt8.size]
    omega
  rw [h, Nat.testBit_two_pow_sub_succ b.toNat_lt]
  simp [hi]

theorem testBit_clearBit (b : UInt8) {pos i : Nat} (hi : i < 8) :
    (clearBit b pos).toNat.testBit i = (b.toNat.testBit i && !decide (pos = i)) := by
  rw [clearBit, UInt8.toNat_and, Nat.testBit_and, testBit_not _ hi, testBit_ofNat_two_pow hi]

/-- A byte is 255 exactly when its eight bits are set. -/
theorem eq_255_iff (b : UInt8) : b = 255 ↔ ∀ i < 8, b.toNat.testBit i = true := by
  constructor
  · rintro rfl
    decide
  · intro h
    apply UInt8.toNat_inj.mp
    refine Nat.eq_of_testBit_eq fun i => ?_
    rw [show (255 : UInt8).toNat = 2 ^ 8 - 1 from rfl, Nat.testBit_two_pow_sub_one]
    by_cases hi : i < 8
    · simp [h i hi, hi]
    · rw [Nat.testBit_lt_two_pow (lt_of_lt_of_le b.toNat_lt
        (Nat.pow_le_pow_right (by decide) (by omega)))]
      simp [hi]

theorem lowestZero_spec {b : UInt8} (h : b ≠ 255) :
    lowestZero b < 8 ∧ b.toNat.testBit (lowestZero b) = false := by
  cases hf : firstIndex (fun i => !b.toNat.testBit i) 8 0 with
  | some k =>
    obtain ⟨-, hlt, hk, -⟩ := firstIndex_some hf
    simp only [lowestZero, hf, Option.getD_some]
    exact ⟨by omega, by simpa using hk⟩
  | none =>
    refine absurd ((eq_255_iff b).mpr fun i hi => ?_) h
    simpa using firstIndex_none hf i (by omega) (by omega)

namespace Bytes

/-- Bit `i` of a bitmap. -/
def bit (m : Bytes) (i : Nat) : Bool := (m (i / 8)).toNat.testBit (i % 8)

/-- A byte of 255 has only set bits. -/
theorem bit_of_eq_255 {m : Bytes} {i : Nat} (h : m (i / 8) = 255) : m.bit i = true :=
  (eq_255_iff _).mp h (i % 8) (Nat.mod_lt _ (by decide))

theorem bit_congr {m m' : Bytes} {i : Nat} (h : m (i / 8) = m' (i / 8)) : m.bit i = m'.bit i := by
  simp only [bit, h]

theorem bit_update_setBit (m : Bytes) {j pos : Nat} (hpos : pos < 8) (i : Nat) :
    Bytes.bit (Function.update m j (setBit (m j) pos)) i = (m.bit i || decide (i = 8 * j + pos)) := by
  simp only [bit]
  by_cases hj : i / 8 = j
  · subst hj
    rw [Function.update_self, testBit_setBit _ (Nat.mod_lt _ (by decide))]
    congr 1
    exact decide_eq_decide.mpr (by omega)
  · rw [Function.update_of_ne hj]
    have : i ≠ 8 * j + pos := by omega
    simp [this]

theorem bit_update_clearBit (m : Bytes) {j pos : Nat} (hpos : pos < 8) (i : Nat) :
    Bytes.bit (Function.update m j (clearBit (m j) pos)) i =
      (m.bit i && !decide (i = 8 * j + pos)) := by
  simp only [bit]
  by_cases hj : i / 8 = j
  · subst hj
    rw [Function.update_self, testBit_clearBit _ (Nat.mod_lt _ (by decide))]
    congr 2
    exact decide_eq_decide.mpr (by omega)
  · rw [Function.update_of_ne hj]
    have : i ≠ 8 * j + pos := by omega
    simp [this]

/-- The first zero bit of a bitmap of `n` bytes, as a byte index and a position in the byte. -/
def firstZero (m : Bytes) (n : Nat) : Option (Nat × Nat) :=
  (firstIndex (fun j => m j != 255) n 0).map fun j => (j, lowestZero (m j))

theorem firstZero_some {m : Bytes} {n j pos : Nat} (h : m.firstZero n = some (j, pos)) :
    j < n ∧ pos < 8 ∧ m.bit (8 * j + pos) = false ∧ pos = lowestZero (m j) := by
  rw [firstZero, Option.map_eq_some_iff] at h
  obtain ⟨k, hk, heq⟩ := h
  obtain ⟨rfl, rfl⟩ := Prod.mk.inj heq
  obtain ⟨-, hlt, hne, -⟩ := firstIndex_some hk
  obtain ⟨hpos, hbit⟩ := lowestZero_spec (b := m k) (by simpa using hne)
  refine ⟨by omega, hpos, ?_, rfl⟩
  rw [bit, show (8 * k + lowestZero (m k)) / 8 = k by omega,
    show (8 * k + lowestZero (m k)) % 8 = lowestZero (m k) by omega]
  exact hbit

theorem firstZero_none {m : Bytes} {n : Nat} (h : m.firstZero n = none) :
    ∀ i < 8 * n, m.bit i = true := by
  intro i hi
  rw [firstZero, Option.map_eq_none_iff] at h
  have := firstIndex_none h (i / 8) (by omega) (by omega)
  exact bit_of_eq_255 (by simpa using this)

/-- The indices below `n` of the zero bits of a bitmap. -/
def zeros (m : Bytes) (n : Nat) : Finset Nat := (Finset.range n).filter fun i => m.bit i = false

@[simp] theorem mem_zeros {m : Bytes} {n i : Nat} : i ∈ m.zeros n ↔ i < n ∧ m.bit i = false := by
  simp [zeros]

theorem zeros_congr {m m' : Bytes} {n : Nat} (h : ∀ i < n, m.bit i = m'.bit i) :
    m.zeros n = m'.zeros n := by
  ext i
  simp only [mem_zeros]
  exact and_congr_right fun hi => by rw [h i hi]

theorem firstZero_none_zeros {m : Bytes} {n : Nat} (h : m.firstZero n = none) :
    m.zeros (8 * n) = ∅ := by
  ext i
  simp only [mem_zeros, Finset.notMem_empty, iff_false, not_and]
  intro hi
  simp [firstZero_none h i hi]

/-- Set bits at the end of a bitmap do not count. -/
theorem zeros_eq_of_set {m : Bytes} {k n : Nat} (hk : k ≤ n)
    (h : ∀ i, k ≤ i → i < n → m.bit i = true) : m.zeros n = m.zeros k := by
  ext i
  simp only [mem_zeros]
  constructor
  · rintro ⟨hi, hb⟩
    refine ⟨?_, hb⟩
    by_contra hki
    rw [h i (by omega) hi] at hb
    exact nomatch hb
  · rintro ⟨hi, hb⟩
    exact ⟨by omega, hb⟩

/-- Setting a zero bit takes it from the zeros. -/
theorem card_zeros_set {m m' : Bytes} {n k : Nat} (hk : k < n) (hz : m.bit k = false)
    (h : ∀ i < n, m'.bit i = (m.bit i || decide (i = k))) :
    (m'.zeros n).card + 1 = (m.zeros n).card := by
  have herase : m'.zeros n = (m.zeros n).erase k := by
    ext i
    simp only [mem_zeros, Finset.mem_erase]
    constructor
    · rintro ⟨hi, hb⟩
      rw [h i hi] at hb
      simp only [Bool.or_eq_false_iff, decide_eq_false_iff_not] at hb
      exact ⟨hb.2, hi, hb.1⟩
    · rintro ⟨hne, hi, hb⟩
      exact ⟨hi, by simp [h i hi, hb, hne]⟩
  rw [herase, Finset.card_erase_add_one (by simp [hk, hz])]

/-- Clearing a set bit adds it to the zeros. -/
theorem card_zeros_clear {m m' : Bytes} {n k : Nat} (hk : k < n) (ho : m.bit k = true)
    (h : ∀ i < n, m'.bit i = (m.bit i && !decide (i = k))) :
    (m'.zeros n).card = (m.zeros n).card + 1 := by
  refine (card_zeros_set hk ?_ fun i hi => ?_).symm
  · simp [h k hk]
  · rw [h i hi]
    by_cases hik : i = k
    · subst hik; simp [ho]
    · simp [hik]

end Bytes

end Lib
