import SupOS.Fault
import SupOS.Lib.Outcome
import SupOS.Lib.Words
import Mathlib.Tactic.Common

/-! The class `Bitset` of `Bitset.h`. -/

namespace SupOS

open Lib

/-- The words a `Bitset` points to, and its number of bits. -/
structure Bitset where
  data : Words
  size : Nat

namespace Bitset

/-- Bit `i`. -/
def bit (b : Bitset) (i : Nat) : Bool := b.data.bit i

/-- `get(i)`. -/
def get (b : Bitset) (i : Nat) : Except Fault Bool := do
  assert (i < b.size)
  return b.bit i

/-- `set(i)` when `v` is true and `unset(i)` when it is false; also `operator[](i) = v`. -/
def write (v : Bool) (b : Bitset) (i : Nat) : Except Fault Bitset := do
  assert (i < b.size)
  return { b with data := b.data.put v (i / 64) (oneBit (i % 64)) }

/-- `set(i)`. -/
def set (b : Bitset) (i : Nat) : Except Fault Bitset := b.write true i

/-- `unset(i)`. -/
def unset (b : Bitset) (i : Nat) : Except Fault Bitset := b.write false i

/-- `set(i, len)` when `v` is true and `unset(i, len)` when it is false. The processor takes the
count of a shift modulo 64. -/
def writeRange (v : Bool) (b : Bitset) (i len : Nat) : Except Fault Bitset := do
  assert (u64 (i + len) ≤ b.size)
  let mod := i % 64
  if mod ≠ 0 ∧ len ≤ 64 - mod then
    return { b with data := b.data.put v (i / 64) (lowBits (len % 64) <<< mod) }
  let data := if mod ≠ 0 then
    b.data.put v (i / 64) (BitVec.allOnes 64 - lowBits (i % 64)) else b.data
  let i := alignup i 64
  -- Also when `i` is aligned, where no word was written before.
  let len := u64 (len + 2 ^ 64 - (64 - mod))
  let data := Words.fillWords v (len / 64) i data
  return { b with data := data.put v ((i + len / 64 * 64) / 64) (lowBits (len % 64)) }

/-- `set(i, len)`. -/
def setRange (b : Bitset) (i len : Nat) : Except Fault Bitset := b.writeRange true i len

/-- `unset(i, len)`. -/
def unsetRange (b : Bitset) (i len : Nat) : Except Fault Bitset := b.writeRange false i len

/-- `usr()`: the highest clear bit in whole words. -/
def usr (b : Bitset) : Option Nat := b.data.lastZero (b.size / 64)

/-- `bsf()`: the lowest set bit in whole words. -/
def bsf (b : Bitset) : Option Nat := b.data.firstOne (b.size / 64)

/-- The word that `largeBsf` computes from a word of the bitset: bit `k` is set when the `nb` bits up
to `k` are. -/
def runs (w : BitVec 64) (nb : Nat) : BitVec 64 :=
  (List.range nb).foldl (fun data j => data &&& (w <<< j)) (BitVec.allOnes 64)

/-- `largeBsf(nb)`, where `nb` is the argument converted to `size_t`. The loop is not run for a
negative one. -/
def largeBsf (b : Bitset) (nb : Nat) : Except Fault (Option Nat) := do
  assert (nb < 64 - 8 ∨ 2 ^ 63 ≤ nb)
  let data := fun i => runs (b.data i) (if nb < 2 ^ 63 then nb else 0)
  match firstIndex (fun i => data i != 0#64) (u64 (b.size + 63) / 64) 0 with
  | none => return none
  | some i =>
    let res := u64 (lowestOne (data i) + 1 + (2 ^ 64 - nb) + i * 64)
    if u64 (b.size + (2 ^ 64 - nb)) < res then return none
    return some res

/-- `clear()`. -/
def clear (b : Bitset) : Bitset := { b with data := b.data.fillBytes false (b.size / 8) }

/-- `fill()`. -/
def fill (b : Bitset) : Bitset := { b with data := b.data.fillBytes true (b.size / 8) }

@[simp] theorem size_fill (b : Bitset) : b.fill.size = b.size := rfl

theorem bit_fill (b : Bitset) {k : Nat} (hk : k < b.size / 64 * 64) : b.fill.bit k = true := by
  rw [bit, fill, Words.bit_fillBytes, if_pos (by omega)]

/-- What a write of some bits changes. -/
structure Wrote (v : Bool) (s : Nat → Prop) (b b' : Bitset) : Prop where
  size : b'.size = b.size
  inside : ∀ k, s k → b'.bit k = v
  outside : ∀ k, ¬s k → b'.bit k = b.bit k

theorem write_spec {v : Bool} {b b' : Bitset} {i : Nat} (h : b.write v i = .ok b') :
    i < b.size ∧ Wrote v (· = i) b b' := by
  unfold write at h
  by_cases hi : i < b.size
  · simp only [hi, decide_true, assert_true, ok_bind, pure, Except.pure, Except.ok.injEq] at h
    subst h
    refine ⟨hi, rfl, fun k hk => ?_, fun k hk => ?_⟩
    · rw [bit, Words.bit_put_oneBit, if_pos hk]
    · rw [bit, Words.bit_put_oneBit, if_neg hk, bit]
  · simp only [hi, decide_false, assert_false, error_bind] at h
    exact nomatch h

/-- A request for one bit is that of `bsf`. -/
theorem largeBsf_one {b : Bitset} (hsize : b.size % 64 = 0) (hlt : b.size < 2 ^ 63) :
    b.largeBsf 1 = .ok b.bsf := by
  have hwords : u64 (b.size + 63) / 64 = b.size / 64 := by
    rw [u64_of_lt (by omega)]
    omega
  have hruns : ∀ w : BitVec 64, runs w 1 = w := by
    intro w
    change BitVec.allOnes 64 &&& (w <<< 0) = w
    rw [BitVec.shiftLeft_zero, BitVec.allOnes_and]
  unfold largeBsf
  simp only [hwords, if_pos (show 1 < 2 ^ 63 by decide), hruns]
  change (match firstIndex (fun i => b.data i != 0#64) (b.size / 64) 0 with
    | none => _
    | some i => _ : Except Fault (Option Nat)) = _
  cases hfirst : firstIndex (fun i => b.data i != 0#64) (b.size / 64) 0 with
  | none =>
    rw [bsf, Words.firstOne, hfirst]
    rfl
  | some i =>
    have hbsf : b.bsf = some (lowestOne (b.data i) + i * 64) := by
      rw [bsf, Words.firstOne, hfirst]
      rfl
    obtain ⟨hk, -, -⟩ := Words.firstOne_some hbsf
    have hres : u64 (lowestOne (b.data i) + 1 + (2 ^ 64 - 1) + i * 64) =
        lowestOne (b.data i) + i * 64 := by
      unfold u64
      omega
    have hlast : u64 (b.size + (2 ^ 64 - 1)) = b.size - 1 := by
      unfold u64
      omega
    simp only [hres, hlast]
    rw [if_neg (by omega), hbsf]
    rfl

/-- A request for no bit is answered with bit 1. -/
theorem largeBsf_zero {b : Bitset} (hpos : 0 < b.size) (hlt : b.size < 2 ^ 63) :
    b.largeBsf 0 = .ok (some 1) := by
  obtain ⟨n, hn⟩ : ∃ n, u64 (b.size + 63) / 64 = n + 1 :=
    ⟨(b.size + 63) / 64 - 1, by rw [u64_of_lt (by omega)]; omega⟩
  have hfirst : firstIndex (fun i => runs (b.data i) 0 != 0#64) (n + 1) 0 = some 0 := by
    rw [firstIndex, if_pos]
    rfl
  have hone : lowestOne (runs (b.data 0) 0) = 0 := by
    change lowestOne (BitVec.allOnes 64) = 0
    decide
  unfold largeBsf
  simp only [hn, if_pos (show 0 < 2 ^ 63 by decide), hfirst, hone]
  have hassert : assert (decide (0 < 64 - 8 ∨ 2 ^ 63 ≤ 0)) = .ok () := rfl
  have hres : u64 (0 + 1 + (2 ^ 64 - 0) + 0 * 64) = 1 := rfl
  have hlast : u64 (b.size + (2 ^ 64 - 0)) = b.size := by
    unfold u64
    omega
  rw [hassert, ok_bind, hres, hlast, if_neg (by omega)]
  rfl

theorem write_of_lt {v : Bool} {b : Bitset} {i : Nat} (hi : i < b.size) :
    ∃ b', b.write v i = .ok b' := by
  refine ⟨{ b with data := b.data.put v (i / 64) (oneBit (i % 64)) }, ?_⟩
  simp only [write, hi, decide_true, assert_true, ok_bind, pure, Except.pure]

/-- From a bit that is not the first of a word on, the range is written. -/
theorem writeRange_of_not_aligned {v : Bool} {b : Bitset} {i len : Nat} (hi : i % 64 ≠ 0)
    (hle : i + len ≤ b.size) (hsize : b.size < 2 ^ 64) :
    ∃ b', b.writeRange v i len = .ok b' ∧ Wrote v (fun k => i ≤ k ∧ k < i + len) b b' := by
  have hsum : u64 (i + len) = i + len := u64_of_lt (by omega)
  unfold writeRange
  simp only [hsum, hle, decide_true, assert_true, ok_bind, pure, Except.pure]
  by_cases hlen : len ≤ 64 - i % 64
  · rw [if_pos ⟨hi, hlen⟩]
    have hbit : ∀ k, (Words.put v b.data (i / 64) (lowBits (len % 64) <<< (i % 64))).bit k =
        if i ≤ k ∧ k < i + len then v else b.data.bit k := by
      intro k
      rw [Words.bit_put, BitVec.getLsbD_shiftLeft, getLsbD_lowBits (Nat.mod_lt _ (by decide))]
      refine if_congr ?_ rfl rfl
      simp only [Bool.and_eq_true, decide_eq_true_eq, Bool.not_eq_true', decide_eq_false_iff_not]
      omega
    refine ⟨_, rfl, rfl, fun k hk => ?_, fun k hk => ?_⟩
    · rw [bit, hbit, if_pos hk]
    · rw [bit, hbit, if_neg hk, bit]
  · rw [if_neg (fun h => hlen h.2), if_pos hi]
    have halign : alignup i 64 = i + (64 - i % 64) := by
      unfold alignup
      omega
    have hsub : u64 (len + 2 ^ 64 - (64 - i % 64)) = len - (64 - i % 64) := by
      unfold u64
      omega
    rw [halign, hsub]
    have hbit : ∀ k, (Words.put v (Words.fillWords v ((len - (64 - i % 64)) / 64)
        (i + (64 - i % 64)) (Words.put v b.data (i / 64) (BitVec.allOnes 64 - lowBits (i % 64))))
        ((i + (64 - i % 64) + (len - (64 - i % 64)) / 64 * 64) / 64)
        (lowBits ((len - (64 - i % 64)) % 64))).bit k =
        if i ≤ k ∧ k < i + len then v else b.data.bit k := by
      intro k
      rw [Words.bit_put, getLsbD_lowBits (Nat.mod_lt _ (by decide)),
        Words.bit_fillWords _ _ _ (by omega), Words.bit_put, BitVec.allOnes_sub_eq_not,
        BitVec.getLsbD_not, getLsbD_lowBits (Nat.mod_lt _ (by decide))]
      simp only [Bool.and_eq_true, decide_eq_true_eq, Bool.not_eq_true', decide_eq_false_iff_not]
      by_cases hk : i ≤ k ∧ k < i + len
      · rw [if_pos hk]
        by_cases h1 : k / 64 = (i + (64 - i % 64) + (len - (64 - i % 64)) / 64 * 64) / 64 ∧
            k % 64 < (len - (64 - i % 64)) % 64
        · rw [if_pos h1]
        · rw [if_neg h1]
          by_cases h2 : i + (64 - i % 64) ≤ k ∧
              k < i + (64 - i % 64) + 64 * ((len - (64 - i % 64)) / 64)
          · rw [if_pos h2]
          · rw [if_neg h2, if_pos (by omega)]
      · rw [if_neg hk, if_neg (by omega), if_neg (by omega), if_neg (by omega)]
    refine ⟨_, rfl, rfl, fun k hk => ?_, fun k hk => ?_⟩
    · rw [bit, hbit, if_pos hk]
    · rw [bit, hbit, if_neg hk, bit]

/-- From the first bit of a word on, the last 64 bits of the range are left out. -/
theorem writeRange_of_aligned {v : Bool} {b : Bitset} {i len : Nat} (hi : i % 64 = 0)
    (hlen : 64 ≤ len) (hle : i + len ≤ b.size) (hsize : b.size < 2 ^ 64) :
    ∃ b', b.writeRange v i len = .ok b' ∧ Wrote v (fun k => i ≤ k ∧ k < i + (len - 64)) b b' := by
  have hsum : u64 (i + len) = i + len := u64_of_lt (by omega)
  have halign : alignup i 64 = i := by
    unfold alignup
    omega
  have hsub : u64 (len + 2 ^ 64 - (64 - i % 64)) = len - 64 := by
    unfold u64
    omega
  unfold writeRange
  simp only [hsum, hle, decide_true, assert_true, ok_bind, pure, Except.pure]
  rw [if_neg (fun h => h.1 hi), if_neg (fun h => h hi), halign, hsub]
  have hbit : ∀ k, (Words.put v (Words.fillWords v ((len - 64) / 64) i b.data)
      ((i + (len - 64) / 64 * 64) / 64) (lowBits ((len - 64) % 64))).bit k =
      if i ≤ k ∧ k < i + (len - 64) then v else b.data.bit k := by
    intro k
    rw [Words.bit_put, getLsbD_lowBits (Nat.mod_lt _ (by decide)), Words.bit_fillWords _ _ _ hi]
    simp only [decide_eq_true_eq]
    by_cases hk : i ≤ k ∧ k < i + (len - 64)
    · rw [if_pos hk]
      by_cases h1 : k / 64 = (i + (len - 64) / 64 * 64) / 64 ∧ k % 64 < (len - 64) % 64
      · rw [if_pos h1]
      · rw [if_neg h1, if_pos (by omega)]
    · rw [if_neg hk, if_neg (by omega), if_neg (by omega)]
  refine ⟨_, rfl, rfl, fun k hk => ?_, fun k hk => ?_⟩
  · rw [bit, hbit, if_pos hk]
  · rw [bit, hbit, if_neg hk, bit]

end Bitset

end SupOS
